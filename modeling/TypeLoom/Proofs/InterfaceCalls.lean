import TypeLoom.Proofs.Implementations
import TypeLoom.Proofs.SlotDispatch

/-!
# Interface calls

A class answers for an interface method with a method that was made for it, or with a public virtual
method of the same name. The latter gives way to its most derived override, so a call of the answer
runs the answer. The former is the answer as it is, and a call of it runs it exactly if no class
below takes over its slot.
-/

namespace TypeLoom

namespace Universe

variable {u : Universe} {t level : TypeId} {m k found : MethodId} {v : Override}

/-- What a level gives to an interface method is the body of an explicit override, or a virtual
method of the level. -/
theorem interfaceBody?_origin {byName : Bool}
    (h : u.interfaceBody? level m = some (found, byName)) :
    if byName then found ∈ u.methodsOf level ∧ (u.method found).isVirtual = true
    else ∃ v ∈ (u.record level).overrides, (u.method v.declaration).token = (u.method m).token
        ∧ v.body = found := by
  rcases Option.or_eq_some_iff.mp h with hmade | ⟨-, hnamed⟩
  · obtain ⟨v, hv, hpair⟩ := Option.map_eq_some_iff.mp hmade
    cases hpair
    exact ⟨v, Array.mem_of_find?_eq_some hv, by simpa using Array.find?_some hv, rfl⟩
  · obtain ⟨k, hk, hpair⟩ := Option.map_eq_some_iff.mp hnamed
    cases hpair
    have hmatches := List.find?_some hk
    simp only [Bool.and_eq_true] at hmatches
    exact ⟨List.mem_of_find?_eq_some hk, hmatches.1.1.1⟩

theorem WellFormed.own_of_slotRoot_eq (hu : u.WellFormed) (hk : k ∈ u.methodsOf level)
    (hroot : u.slotRoot k = u.slotRoot found) (hfound : u.slotRoot found = found)
    (hsame : found.owner = level) : k = found := by
  rw [hfound, hu.slotRoot_eq] at hroot
  cases ho : u.overriddenBy? k with
  | none => simpa only [ho] using hroot
  | some o =>
    simp only [ho] at hroot
    have hlt := hu.overridden_lt ho
    have hle := hu.slotRoot_le o
    rw [hroot, hsame, ← u.owner_of_mem_methodsOf hk] at hle
    omega

namespace Built

variable (h : u.Built t)
include h

/-- The method that declares a slot is what its own class runs. -/
theorem resolveVirtual_owner (htokens : u.OwnTokens (u.involved t)) (hk : u.OnChain t k)
    (hroot : u.slotRoot k = k) :
    u.resolveVirtual k.owner k = k := by
  have hu := h.wellFormed
  obtain ⟨k', hbody⟩ := exists_slotBody?_of_method hk.declared hk.virtual
  have hsame := hu.own_of_slotRoot_eq (h.slotBody?_mem hk.above hbody).1
    (h.slotRoot_of_slotBody? htokens hk hk.above hbody)
    hroot rfl
  rw [resolveVirtual_of_class hk.isClass hk.virtual, resolveSlot_eq, hu.hierarchy_eq,
    List.findSome?_cons, hbody, Option.getD_some,
    hsame]

/-- A call of what an interface method runs runs it again, if it was found by name, and otherwise
exactly if no class below takes over its slot. -/
theorem resolveVirtual_resolveInterfaceMethod (hclass : (u.record t).isInterface = false)
    (hinterface : (u.record m.owner).isInterface = true) (htokens : u.OwnTokens (m :: u.involved t))
    (hruns : u.resolveInterfaceMethod t m = some k) :
    u.resolveVirtual t k = k ↔ (∃ found, u.inheritedBody? t m = some (found, true))
        ∨ ¬ u.TakenBelow k.owner t k := by
  have hu := h.wellFormed
  have hown : u.OwnTokens (u.involved t) :=
    fun a ha b hb => htokens a (List.mem_cons_of_mem _ ha) b (List.mem_cons_of_mem _ hb)
  rw [hu.resolveInterfaceMethod_of_class hclass] at hruns
  obtain ⟨⟨found, byName⟩, hbody, hanswer⟩ := Option.map_eq_some_iff.mp hruns
  obtain ⟨level, hlevel, hgives⟩ := List.exists_of_findSome?_eq_some hbody
  have horigin := interfaceBody?_origin hgives
  cases byName with
  | true =>
    have hfound := h.onChain hclass hlevel horigin.1 horigin.2
    have hagain := h.resolveVirtual_resolveVirtual hown hfound
    simp only [if_true] at hanswer
    rw [← resolveVirtual_of_class hfound.isClass hfound.virtual] at hanswer
    rw [hanswer] at hagain
    exact iff_of_true hagain (.inl ⟨found, hbody⟩)
  | false =>
    obtain ⟨v, hv, htoken, rfl⟩ := horigin
    simp only [Bool.false_eq_true, if_false] at hanswer
    subst hanswer
    obtain rfl := htokens _ (List.mem_cons_of_mem _ (mem_involved_of_override hlevel hv).1) m
      List.mem_cons_self htoken
    have hrightful := h.rightfulAt hlevel hv
    have hk := h.onChain hclass hlevel hrightful.own hrightful.virtual
    have hself :=
      h.resolveVirtual_owner hown hk (h.slotRoot_of_interfaceOverride hlevel hv hinterface)
    have honOwn : u.OnChain v.body.owner v.body :=
      ⟨hk.declared, hu.mem_hierarchy_self _, hk.isClass, hk.present, hk.virtual⟩
    have hmade : ¬ ∃ found, u.inheritedBody? t v.declaration = some (found, true) := by
      rintro ⟨found, hnamed⟩
      rw [hnamed] at hbody
      cases hbody
    rw [or_iff_right hmade, ← h.resolveVirtual_eq_iff hown hk.above honOwn, hself]

end Built

end Universe

/-! ### Interface calls in realms -/

namespace Realm

open Universe World

variable {r : Realm} {t : TypeId} {m k : MethodId}

/-- A call of what an interface method runs on a class runs it again, if it was found by name,
and otherwise exactly if no class below the one that has it takes over its slot. -/
theorem interface_call_dispatches_iff (h : Reachable r) (hstanding : r.program.Standing t)
    (hclass : (r.program.record t).isInterface = false)
    (hinterface : (r.program.record m.owner).isInterface = true)
    (htokens : r.program.OwnTokens (m :: r.program.involved t))
    (hruns : r.program.resolveInterfaceMethod t m = some k) :
    r.program.resolveVirtual t k = k
      ↔ (∃ found, r.program.inheritedBody? t m = some (found, true))
      ∨ ¬ r.program.TakenBelow k.owner t k :=
  (h.upright.built hstanding).resolveVirtual_resolveInterfaceMethod hclass hinterface htokens hruns

/-- A generated class with a method that was made for the interface method, and a class over it
that overrides that method with less access. -/
def guardedTurns : List Turn :=
  throughOne [.build interfaceWithM, .openBatch,
    .edit 0 (.createType "App" "A" TypeFlags.isPublic none),
    .edit 0 (.addInterface ⟨0⟩ ⟨3⟩ false), .edit 0 (.implementMethod ⟨0⟩ methodOfFirst),
    .edit 0 (.setMethodBody ⟨0⟩ ⟨⟨0⟩, .method 0⟩ .empty), .generate 0 #[],
    .build (classOver ⟨4⟩ "M" ((({} : MethodSpec).overrides.access .family).withBody
      (.fixed .empty)))]

set_option maxRecDepth 10000 in
/-- On the generated class itself a call of the method that was made runs it. -/
theorem interface_call_dispatches_own :
    (run {} guardedTurns).program.resolveInterfaceMethod ⟨4⟩ methodOfFirst = some ⟨⟨4⟩, .method 0⟩
      ∧ (run {} guardedTurns).program.resolveVirtual ⟨4⟩ ⟨⟨4⟩, .method 0⟩ = ⟨⟨4⟩, .method 0⟩ := by
  have hruns : (run {} guardedTurns).program.resolveInterfaceMethod ⟨4⟩ methodOfFirst
    = some ⟨⟨4⟩, .method 0⟩ := by decide +kernel
  have hfree : ¬ (run {} guardedTurns).program.TakenBelow ⟨4⟩ ⟨4⟩ ⟨⟨4⟩, .method 0⟩ := by
    decide +kernel
  exact ⟨hruns, (interface_call_dispatches_iff (later_run guardedTurns (by decide +kernel))
    (by decide +kernel) (by decide +kernel)
    (by decide +kernel) (by decide +kernel) hruns).mpr (.inr hfree)⟩

/-- On classes, a call of what an interface method runs runs it again. -/
def InterfaceCallsDispatch : Prop :=
  ∀ (r : Realm) (t : TypeId) (m k : MethodId), Reachable r → r.program.Standing t →
    (r.program.record t).isInterface = false →
    (r.program.record m.owner).isInterface = true →
    r.program.OwnTokens (m :: r.program.involved t) →
      r.program.resolveInterfaceMethod t m = some k → r.program.resolveVirtual t k = k

set_option maxRecDepth 10000 in
/-- On the class over the generated one the method that was made answers, and a call of it runs
the override. -/
theorem not_interfaceCallsDispatch : ¬ InterfaceCallsDispatch := by
  intro hdispatch
  have hagain := hdispatch (run {} guardedTurns) ⟨5⟩ methodOfFirst ⟨⟨4⟩, .method 0⟩
    (later_run guardedTurns (by decide +kernel)) (by decide +kernel) (by decide +kernel)
    (by decide +kernel) (by decide +kernel)
    (by decide +kernel)
  have hruns : (run {} guardedTurns).program.resolveVirtual ⟨5⟩ ⟨⟨4⟩, .method 0⟩
    = ⟨⟨5⟩, .method 0⟩ := by decide +kernel
  rw [hruns] at hagain
  cases hagain

end Realm

end TypeLoom
