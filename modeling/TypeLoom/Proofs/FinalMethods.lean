import TypeLoom.Proofs.SlotDispatch

/-!
# Final methods

What runs on a class and is final can only be overridden by name: an explicit override of its slot
is not permitted on any class below. So it goes on to run on a class below, exactly if no class in
between has a virtual method in the slot that is not the body of an explicit override.
-/

namespace TypeLoom

namespace Universe

variable {u : Universe} {base t level b : TypeId} {m : MethodId} {v : Override}

/-- A class below the base, on the way to the type, has a virtual method in the slot, without an
explicit override. -/
def OverriddenByName (u : Universe) (base t : TypeId) (m : MethodId) : Prop :=
  ∃ level ∈ u.hierarchy t, level ∉ u.hierarchy base
    ∧ ∃ k ∈ u.methodsOf level, (u.method k).isVirtual = true ∧ u.slotRoot k = u.slotRoot m
      ∧ ∀ v ∈ (u.record level).overrides, v.body ≠ k

instance (u : Universe) (base t : TypeId) (m : MethodId) :
    Decidable (u.OverriddenByName base t m) :=
  inferInstanceAs (Decidable (∃ level ∈ u.hierarchy t, _))

theorem OverriddenByName.takenBelow (h : u.OverriddenByName base t m) : u.TakenBelow base t m := by
  obtain ⟨level, hlevel, hbelow, k, hk, hvirtual, hroot, -⟩ := h
  exact ⟨level, hlevel, hbelow, k, hk, hvirtual, hroot⟩

namespace Built

variable (h : u.Built t) (htokens : u.OwnTokens (u.involved t))
include h htokens

theorem not_final_of_override (hm : u.OnChain b m) (hlevel : level ∈ u.hierarchy t)
    (hb : (u.record level).base = some b) (hv : v ∈ (u.record level).overrides)
    (hroot : u.slotRoot v.body = u.slotRoot m) :
    (u.method (u.resolveVirtual b m)).isFinal = false := by
  have hu := h.wellFormed
  cases hinterface : (u.record v.declaration.owner).isInterface with
  | true =>
    -- The body has a slot of its own, below the class that declares the method.
    rw [h.slotRoot_of_interfaceOverride hlevel hv hinterface] at hroot
    have howner := u.owner_of_mem_methodsOf (h.rightfulAt hlevel hv).own
    have hle := hu.slotRoot_le m
    have hle' := hu.index_le_of_mem_hierarchy hm.above
    have hlt := hu.base_lt hb
    rw [← hroot, howner] at hle
    omega
  | false =>
    obtain ⟨-, -, b', hb', hfinal⟩ := (h.rightfulAt hlevel hv).supersedes hinterface
    obtain rfl := Option.some.inj (hb.symm.trans hb')
    have hslot : u.slotToken v.declaration = u.slotToken m := by
      have hbody := hu.slotRoot_eq v.body
      simp only [h.overriddenBy?_body htokens hlevel hv hinterface] at hbody
      rw [slotToken, slotToken, ← hbody, hroot]
    rwa [resolveSlot_eq, hslot, hm.findSome?_slotBody?, Option.getD_some] at hfinal

/-- What runs on a base and is final runs on a class below, exactly if no class in between
overrides it by name. -/
theorem resolveVirtual_of_final_iff (hbase : base ∈ u.hierarchy t) (hm : u.OnChain base m)
    (hfinal : (u.method (u.resolveVirtual base m)).isFinal = true) :
    u.resolveVirtual t m = u.resolveVirtual base m ↔ ¬ u.OverriddenByName base t m := by
  have hu := h.wellFormed
  refine ⟨fun hsame hnamed => (h.resolveVirtual_eq_iff htokens hbase hm).mp hsame hnamed.takenBelow,
    fun hfree => ?_⟩
  refine hu.induct_below hbase (P :=
    fun level => u.resolveVirtual level m = u.resolveVirtual base m) rfl
    fun level b hlevel hbelow hb habove hsame => ?_
  have honBase := hm.below hu habove
  cases hbody : u.slotBody? level (u.slotToken m) with
  | none =>
    rw [← hsame, resolveVirtual_of_class hm.isClass hm.virtual,
      resolveVirtual_of_class hm.isClass hm.virtual,
      hu.resolveSlot_of_base hb, hbody, Option.getD_none]
  | some k =>
    obtain ⟨hk, hvirtual⟩ := h.slotBody?_mem hlevel hbody
    have hroot := h.slotRoot_of_slotBody? htokens (hm.below hu hbase) hlevel hbody
    have hexplicit : ∃ v ∈ (u.record level).overrides, v.body = k := by
      by_contra hnone
      exact hfree ⟨level, hlevel, hbelow, k, hk, hvirtual, hroot, fun v hv hsame =>
        hnone ⟨v, hv, hsame⟩⟩
    obtain ⟨v, hv, rfl⟩ := hexplicit
    have hopen := h.not_final_of_override htokens honBase hlevel hb hv hroot
    rw [hsame, hfinal] at hopen
    cases hopen

end Built

end Universe

/-! ### Final methods in realms -/

namespace Realm

open Universe World

variable {r : Realm} {base t : TypeId} {m : MethodId}

/-- What runs on a class and is final runs on a class that derives from it, exactly if no class
in between has a virtual method that takes over its slot by name. -/
theorem final_method_stays_iff (h : Reachable r) (hstanding : r.program.Standing t)
    (hbase : base ∈ r.program.bases t) (hm : r.program.OnChain base m)
    (hfinal : (r.program.method (r.program.resolveVirtual base m)).isFinal = true)
    (htokens : r.program.OwnTokens (r.program.involved t)) :
    r.program.resolveVirtual t m = r.program.resolveVirtual base m ↔
      ¬ r.program.OverriddenByName base t m :=
  (h.upright.built hstanding).resolveVirtual_of_final_iff htokens
    (h.upright.wellFormed.mem_hierarchy_of_mem_bases hbase) hm hfinal

/-- A class `App.A` with a final virtual method `M`. -/
def finalClass : ClassSpec :=
  ({ space := "App", name := "A" } : ClassSpec).isPublic.method "M"
    (({ body := .fixed .empty } : MethodSpec).virtual.final)

/-- The class, and one over it with a method of the same name in a slot of its own. -/
def hidingTurns : List Turn :=
  throughOne [.build finalClass,
    .build (classOver ⟨3⟩ "M" (({} : MethodSpec).virtual.withBody (.fixed .empty)))]

set_option maxRecDepth 10000 in
/-- A method that hides the final one leaves it. -/
theorem final_method_stays_hidden :
    (run {} hidingTurns).program.resolveVirtual ⟨4⟩ methodOfFirst
    = (run {} hidingTurns).program.resolveVirtual ⟨3⟩ methodOfFirst := by
  have hfree : ¬ (run {} hidingTurns).program.OverriddenByName ⟨3⟩ ⟨4⟩ methodOfFirst := by
    decide +kernel
  exact (final_method_stays_iff (later_run hidingTurns (by decide +kernel)) (by decide +kernel)
    (by decide +kernel) (by decide +kernel)
    (by decide +kernel) (by decide +kernel)).mpr hfree

/-- What runs on a class and is final runs on all classes that derive from it. -/
def FinalMethodsStay : Prop :=
  ∀ (r : Realm) (base t : TypeId) (m : MethodId), Reachable r → r.program.Standing t →
    base ∈ r.program.bases t →
    r.program.OnChain base m → (r.program.method (r.program.resolveVirtual base m)).isFinal = true →
      r.program.OwnTokens (r.program.involved t) → r.program.resolveVirtual t m
      = r.program.resolveVirtual base m

/-- The class, and one over it with an override of the final method. -/
def breakingTurns : List Turn :=
  throughOne [.build finalClass,
    .build (classOver ⟨3⟩ "M" (({} : MethodSpec).overrides.withBody (.fixed .empty)))]

set_option maxRecDepth 10000 in
/-- The override runs on the class that has it. -/
theorem not_finalMethodsStay : ¬ FinalMethodsStay := by
  intro hstay
  have hsame := hstay (run {} breakingTurns) ⟨3⟩ ⟨4⟩ methodOfFirst
    (later_run breakingTurns (by decide +kernel)) (by decide +kernel)
    (by decide +kernel) (by decide +kernel) (by decide +kernel) (by decide +kernel)
  have hbelow : (run {} breakingTurns).program.resolveVirtual ⟨4⟩ methodOfFirst
    = ⟨⟨4⟩, .method 0⟩ := by decide +kernel
  have habove : (run {} breakingTurns).program.resolveVirtual ⟨3⟩ methodOfFirst = methodOfFirst :=
    by decide +kernel
  rw [hbelow, habove] at hsame
  cases hsame

end Realm

end TypeLoom
