import TypeLoom.Proofs.Realms
import TypeLoom.Proofs.SharedSlots

/-!
# Dispatch by slots

On a class whose bases are all built, what a call runs depends on the slot only, and it is a method
of the chain. If the methods that are compared have tokens of their own, it is in the slot that was
called, and a call of it runs it again. Types of one registry have such tokens until its rows are
used up; where types of two registries stand on one chain, two slots may have one token.
-/

namespace TypeLoom

namespace Universe

variable {u : Universe} {t base level : TypeId} {m k : MethodId} {v : Override}

/-! ### Chains -/

/-- The type and all its bases are finished and still there. -/
def Standing (u : Universe) (t : TypeId) : Prop :=
  ∀ level ∈ u.hierarchy t, (u.record level).complete = true ∧ u.isPresent level = true

instance (u : Universe) (t : TypeId) : Decidable (u.Standing t) :=
  inferInstanceAs (Decidable (∀ level ∈ u.hierarchy t, _))

theorem WellFormed.mem_hierarchy_self (hu : u.WellFormed) (t : TypeId) : t ∈ u.hierarchy t := by
  rw [hu.hierarchy_eq t]
  exact List.mem_cons_self

theorem WellFormed.induct_base (hu : u.WellFormed) {P : TypeId → Prop}
    (h : ∀ t, (∀ b, (u.record t).base = some b → P b) → P t) (t : TypeId) : P t := by
  induction hn : t.index using Nat.strongRecOn generalizing t with
  | ind n ih =>
    refine h t fun b hb => ?_
    have hlt := hu.base_lt hb
    exact ih b.index (by omega) b rfl

theorem WellFormed.mem_hierarchy_iff (hu : u.WellFormed) :
    level ∈ u.hierarchy t ↔ level = t ∨ ∃ b, (u.record t).base = some b
    ∧ level ∈ u.hierarchy b := by
  rw [hu.hierarchy_eq t, List.mem_cons]
  cases hb : (u.record t).base with
  | none => simp
  | some b => simp

theorem WellFormed.mem_hierarchy_trans (hu : u.WellFormed) (h : level ∈ u.hierarchy base)
    (h' : base ∈ u.hierarchy t) :
    level ∈ u.hierarchy t := by
  induction t using hu.induct_base with
  | h t ih =>
    rcases hu.mem_hierarchy_iff.mp h' with rfl | ⟨b, hb, hbelow⟩
    · exact h
    · exact hu.mem_hierarchy_iff.mpr (.inr ⟨b, hb, ih b hb hbelow⟩)

theorem WellFormed.mem_hierarchy_of_mem_bases (hu : u.WellFormed) (h : level ∈ u.bases t) :
    level ∈ u.hierarchy t := by
  rw [hu.hierarchy_eq t]
  rw [hu.bases_eq] at h
  exact List.mem_cons_of_mem _ h

/-- What holds of a base, and of each level below it if it holds of the level's own base, holds
of the type. -/
theorem WellFormed.induct_below (hu : u.WellFormed) (hbase : base ∈ u.hierarchy t)
    {P : TypeId → Prop} (hself : P base)
    (hstep : ∀ level b, level ∈ u.hierarchy t → level ∉ u.hierarchy base →
      (u.record level).base = some b →
      base ∈ u.hierarchy b → P b → P level) : P t := by
  induction t using hu.induct_base with
  | h t ih =>
    rcases hu.mem_hierarchy_iff.mp hbase with rfl | ⟨b, hb, habove⟩
    · exact hself
    · have hbelow : t ∉ u.hierarchy base := fun hmem => by
        have hle := hu.index_le_of_mem_hierarchy hmem
        have hle' := hu.index_le_of_mem_hierarchy habove
        have hlt := hu.base_lt hb
        omega
      refine hstep t b (hu.mem_hierarchy_self t) hbelow hb habove
        (ih b hb habove fun level b' hlevel => hstep level b' ?_)
      exact hu.mem_hierarchy_iff.mpr (.inr ⟨b, hb, hlevel⟩)

theorem OnChain.class_of (hm : u.OnChain t m) (hu : u.WellFormed) :
    (u.record t).isInterface = false := by
  by_contra hinterface
  have habove := hm.above
  rw [hu.hierarchy_eq, hu.bases_of_interface (by simpa using hinterface)] at habove
  rw [← List.mem_singleton.mp habove, hm.isClass] at hinterface
  exact hinterface rfl

theorem OnChain.below (hm : u.OnChain base m) (hu : u.WellFormed) (hbase : base ∈ u.hierarchy t) :
    u.OnChain t m where
  declared := hm.declared
  above := hu.mem_hierarchy_trans hm.above hbase
  isClass := hm.isClass
  present := hm.present
  virtual := hm.virtual

theorem WellFormed.mem_hierarchy_resolveSlot (hu : u.WellFormed) (hlevel : level ∈ u.hierarchy t)
    (hbody : u.slotBody? level (u.slotToken m) = some k) :
    level ∈ u.hierarchy (u.resolveSlot t m).owner := by
  induction t using hu.induct_base with
  | h t ih =>
    cases hown : u.slotBody? t (u.slotToken m) with
    | some k' =>
      rw [resolveSlot_eq, hu.hierarchy_eq t, List.findSome?_cons, hown, Option.getD_some,
        hu.owner_of_slotBody? hown]
      exact hlevel
    | none =>
      rcases hu.mem_hierarchy_iff.mp hlevel with rfl | ⟨b, hb, habove⟩
      · rw [hown] at hbody
        cases hbody
      · rw [hu.resolveSlot_of_base hb, hown, Option.getD_none]
        exact ih b hb habove

/-! ### Tokens that tell methods apart -/

/-- The methods that dispatch on a type compares: those of its classes, and what these override
explicitly with the roots of the slots. -/
def involved (u : Universe) (t : TypeId) : List MethodId :=
  (u.hierarchy t).flatMap fun level =>
    u.methodsOf level ++ (u.record level).overrides.toList.flatMap fun v =>
      [v.declaration, u.slotRoot v.declaration]

/-- Different methods have different tokens. -/
def OwnTokens (u : Universe) (methods : List MethodId) : Prop :=
  ∀ m ∈ methods, ∀ m' ∈ methods, (u.method m).token = (u.method m').token → m = m'

instance (u : Universe) (methods : List MethodId) : Decidable (u.OwnTokens methods) :=
  inferInstanceAs (Decidable (∀ m ∈ methods, ∀ m' ∈ methods, _))

theorem mem_involved_of_method (hlevel : level ∈ u.hierarchy t) (hm : m ∈ u.methodsOf level) :
    m ∈ u.involved t :=
  List.mem_flatMap.mpr ⟨level, hlevel, List.mem_append_left _ hm⟩

theorem mem_involved_of_override (hlevel : level ∈ u.hierarchy t)
    (hv : v ∈ (u.record level).overrides) :
    v.declaration ∈ u.involved t ∧ u.slotRoot v.declaration ∈ u.involved t := by
  have hpair : ∀ m ∈ [v.declaration, u.slotRoot v.declaration], m ∈ u.involved t := fun m hm =>
    List.mem_flatMap.mpr ⟨level, hlevel,
      List.mem_append_right _ (List.mem_flatMap.mpr ⟨v, Array.mem_toList_iff.mpr hv, hm⟩)⟩
  exact ⟨hpair _ List.mem_cons_self, hpair _ (List.mem_cons_of_mem _ List.mem_cons_self)⟩

theorem WellFormed.exists_of_mem_involved (hu : u.WellFormed) (h : m ∈ u.involved t) :
    (u.method? m).isSome := by
  obtain ⟨level, -, hmem⟩ := List.mem_flatMap.mp h
  rcases List.mem_append.mp hmem with hown | hdeclared
  · exact u.isSome_of_mem_methodsOf hown
  · obtain ⟨v, hv, hpair⟩ := List.mem_flatMap.mp hdeclared
    obtain ⟨-, -, -, declared, -, hdeclaration, -⟩ := (hu level).overrides v hv
    have hexists : (u.method? v.declaration).isSome := by
      rw [isSome_method?]
      exact Option.isSome_of_eq_some hdeclaration
    rcases List.mem_cons.mp hpair with rfl | hroot
    · exact hexists
    · rw [List.mem_singleton.mp hroot]
      cases hinterface : (u.record v.declaration.owner).isInterface with
      | true => rwa [hu.slotRoot_of_interface hinterface]
      | false => exact (hu.slotRoot_exists hexists hinterface).1

theorem DistinctTokens.ownTokens (h : u.DistinctTokens) (hu : u.WellFormed) (t : TypeId) :
    u.OwnTokens (u.involved t) :=
  fun m hm m' hm' => h m m' (hu.exists_of_mem_involved hm) (hu.exists_of_mem_involved hm')

theorem WellFormed.slotRoot_mem_involved (hu : u.WellFormed) (habove : m.owner ∈ u.hierarchy t)
    (hm : m ∈ u.methodsOf m.owner) :
    u.slotRoot m ∈ u.involved t := by
  induction m using hu.induct_overridden with
  | h m ih =>
    rw [hu.slotRoot_eq m]
    cases ho : u.overriddenBy? m with
    | none => exact mem_involved_of_method habove hm
    | some o =>
      obtain ⟨-, -, hexplicit | himplicit⟩ := overriddenBy?_eq_some ho
      · obtain ⟨-, v, hv, -, rfl⟩ := explicit_of_eq_some hexplicit
        exact (mem_involved_of_override habove hv).2
      · obtain ⟨hbase, hmem, -⟩ := implicit_of_eq_some himplicit
        exact ih o ho (hu.mem_hierarchy_trans (hu.mem_hierarchy_of_mem_bases hbase) habove) hmem

/-! ### Slots on a chain -/

/-- A class below the base, on the way to the type, has a virtual method in the slot. -/
def TakenBelow (u : Universe) (base t : TypeId) (m : MethodId) : Prop :=
  ∃ level ∈ u.hierarchy t, level ∉ u.hierarchy base
    ∧ ∃ k ∈ u.methodsOf level, (u.method k).isVirtual = true ∧ u.slotRoot k = u.slotRoot m

instance (u : Universe) (base t : TypeId) (m : MethodId) : Decidable (u.TakenBelow base t m) :=
  inferInstanceAs (Decidable (∃ level ∈ u.hierarchy t, _))

/-- A built type in a program whose explicit overrides are rightful. -/
structure Built (u : Universe) (t : TypeId) : Prop where
  wellFormed : u.WellFormed
  rightful : u.Rightful
  standing : u.Standing t

namespace Built

variable (h : u.Built t)
include h

theorem of_mem (hbase : base ∈ u.hierarchy t) : u.Built base where
  wellFormed := h.wellFormed
  rightful := h.rightful
  standing := fun level hlevel => h.standing level (h.wellFormed.mem_hierarchy_trans hlevel hbase)

theorem rightfulAt (hlevel : level ∈ u.hierarchy t) (hv : v ∈ (u.record level).overrides) :
    u.RightfulAt level v :=
  h.rightful level (h.standing level hlevel).1 v hv

theorem onChain (hclass : (u.record t).isInterface = false) (hlevel : level ∈ u.hierarchy t)
    (hk : k ∈ u.methodsOf level) (hvirtual : (u.method k).isVirtual = true) : u.OnChain t k := by
  obtain rfl := u.owner_of_mem_methodsOf hk
  exact ⟨hk, hlevel, h.wellFormed.class_of_mem_hierarchy hclass hlevel,
    (h.standing _ hlevel).2, hvirtual⟩

theorem slotBody?_mem {slot : Token} (hlevel : level ∈ u.hierarchy t)
    (hbody : u.slotBody? level slot = some k) :
    k ∈ u.methodsOf level ∧ (u.method k).isVirtual = true := by
  rcases slotBody?_eq_some hbody with ⟨v, hv, -, rfl⟩ | ⟨hk, hvirtual, -⟩
  · have hrightful := h.rightfulAt hlevel hv
    exact ⟨hrightful.own, hrightful.virtual⟩
  · exact ⟨hk, hvirtual⟩

theorem resolveVirtual_onChain (hm : u.OnChain t m) : u.OnChain t (u.resolveVirtual t m) := by
  obtain ⟨level, hlevel, hbody⟩ := List.exists_of_findSome?_eq_some hm.findSome?_slotBody?
  obtain ⟨hmem, hvirtual⟩ := h.slotBody?_mem hlevel hbody
  exact h.onChain (hm.class_of h.wellFormed) hlevel hmem hvirtual

theorem slotRoot_of_interfaceOverride (hlevel : level ∈ u.hierarchy t)
    (hv : v ∈ (u.record level).overrides)
    (hinterface : (u.record v.declaration.owner).isInterface = true) :
    u.slotRoot v.body = v.body := by
  have hnewSlot := (h.rightfulAt hlevel hv).newSlot
  rw [h.wellFormed.slotRoot_eq]
  cases ho : u.overriddenBy? v.body with
  | none => rfl
  | some o =>
    obtain ⟨-, hreuses, -⟩ := overriddenBy?_eq_some ho
    rw [hnewSlot, hinterface] at hreuses
    cases hreuses

section Tokens

variable (htokens : u.OwnTokens (u.involved t))
include htokens

/-- The body of an explicit override of a class method overrides that method. -/
theorem overriddenBy?_body (hlevel : level ∈ u.hierarchy t) (hv : v ∈ (u.record level).overrides)
    (hclass : (u.record v.declaration.owner).isInterface = false) :
    u.overriddenBy? v.body = some v.declaration := by
  have hrightful := h.rightfulAt hlevel hv
  obtain ⟨hpresent, halone, -⟩ := hrightful.supersedes hclass
  have howner : u.methodOwner? v.body = some level := by
    rw [methodOwner?_eq, u.owner_of_mem_methodsOf hrightful.own]
    exact if_pos (h.standing level hlevel).2
  have hdeclaring : u.methodOwner? v.declaration = some v.declaration.owner := by
    rw [methodOwner?_eq]
    exact if_pos hpresent
  have hfind : ((u.record level).overrides.find? fun other => (u.method other.body).token
      == (u.method v.body).token) = some v := by
    cases hfound : (u.record level).overrides.find? fun other => (u.method other.body).token
      == (u.method v.body).token with
    | none => exact absurd (Array.find?_eq_none.mp hfound v hv) (by simp)
    | some other =>
      have hother := Array.mem_of_find?_eq_some hfound
      have htoken : (u.method other.body).token = (u.method v.body).token := by
        simpa using Array.find?_some hfound
      have hbody := htokens _ (mem_involved_of_method hlevel (h.rightfulAt hlevel hother).own) _
        (mem_involved_of_method hlevel hrightful.own) htoken
      rw [halone other hother hbody]
  have hexplicit : u.explicitDeclaration? level v.body = some v.declaration := by
    rw [explicitDeclaration?, hfind, Option.bind_some, hdeclaring]
    simp only [hclass, Bool.false_eq_true, if_false]
  unfold overriddenBy?
  rw [hrightful.virtual, hrightful.newSlot, hclass, howner]
  simp only [Bool.not_true, Bool.or_false, Bool.false_eq_true, if_false, hexplicit, Option.some_or]

theorem slotRoot_eq_of_slotToken (hm : u.OnChain t m) (hk : u.OnChain t k)
    (hslot : u.slotToken k = u.slotToken m) :
    u.slotRoot k = u.slotRoot m :=
  htokens _ (h.wellFormed.slotRoot_mem_involved hk.above hk.declared) _
    (h.wellFormed.slotRoot_mem_involved hm.above hm.declared) hslot

/-- An explicit override in the slot of a method is one of a class method with the same root, and
so is its body. -/
theorem slotRoot_of_override (hm : u.OnChain t m) (hlevel : level ∈ u.hierarchy t)
    (hv : v ∈ (u.record level).overrides) (hslot : u.slotToken v.declaration = u.slotToken m) :
    (u.record v.declaration.owner).isInterface = false ∧ u.slotRoot v.declaration = u.slotRoot m
        ∧ u.slotRoot v.body = u.slotRoot m := by
  have hu := h.wellFormed
  have hroot : u.slotRoot v.declaration = u.slotRoot m :=
    htokens _ (mem_involved_of_override hlevel hv).2 _
      (hu.slotRoot_mem_involved hm.above hm.declared) hslot
  have hclass : (u.record v.declaration.owner).isInterface = false := by
    by_contra hinterface
    have hself := hu.slotRoot_of_interface (by simpa using hinterface)
    have hrootClass := (hu.slotRoot_exists (u.isSome_of_mem_methodsOf hm.declared) hm.isClass).2
    rw [← hroot, hself] at hrootClass
    exact hinterface hrootClass
  refine ⟨hclass, hroot, ?_⟩
  rw [hu.slotRoot_eq v.body, h.overriddenBy?_body htokens hlevel hv hclass]
  exact hroot

theorem slotRoot_of_slotBody? (hm : u.OnChain t m) (hlevel : level ∈ u.hierarchy t)
    (hbody : u.slotBody? level (u.slotToken m) = some k) : u.slotRoot k = u.slotRoot m := by
  rcases slotBody?_eq_some hbody with ⟨v, hv, hslot, rfl⟩ | ⟨hk, hvirtual, hslot⟩
  · exact (h.slotRoot_of_override htokens hm hlevel hv hslot).2.2
  · exact h.slotRoot_eq_of_slotToken htokens hm (h.onChain (hm.class_of h.wellFormed) hlevel
      hk hvirtual) hslot

theorem slotRoot_resolveVirtual (hm : u.OnChain t m) :
    u.slotRoot (u.resolveVirtual t m) = u.slotRoot m := by
  obtain ⟨level, hlevel, hbody⟩ := List.exists_of_findSome?_eq_some hm.findSome?_slotBody?
  exact h.slotRoot_of_slotBody? htokens hm hlevel hbody

theorem resolveVirtual_resolveVirtual (hm : u.OnChain t m) :
    u.resolveVirtual t (u.resolveVirtual t m) = u.resolveVirtual t m :=
  (h.resolveVirtual_onChain hm).resolveVirtual_eq hm
    (by rw [slotToken, slotToken, h.slotRoot_resolveVirtual htokens hm])

/-! ### Slots that are taken over -/

/-- What a class runs is what its base runs, exactly if no class below the base has a virtual
method in the slot. -/
theorem resolveVirtual_eq_iff (hbase : base ∈ u.hierarchy t) (hm : u.OnChain base m) :
    u.resolveVirtual t m = u.resolveVirtual base m ↔ ¬ u.TakenBelow base t m := by
  have hu := h.wellFormed
  constructor
  · rintro hsame ⟨level, hlevel, hbelow, k, hk, hvirtual, hroot⟩
    obtain ⟨k', hbody⟩ := exists_slotBody?_of_method hk hvirtual
    rw [slotToken, hroot, ← slotToken] at hbody
    have hruns := hu.mem_hierarchy_resolveSlot hlevel hbody
    rw [← resolveVirtual_of_class hm.isClass hm.virtual, hsame] at hruns
    exact hbelow (hu.mem_hierarchy_trans hruns ((h.of_mem hbase).resolveVirtual_onChain hm).above)
  · intro hfree
    rw [resolveVirtual_of_class hm.isClass hm.virtual,
      resolveVirtual_of_class hm.isClass hm.virtual]
    have honChain := hm.below hu hbase
    refine hu.induct_below hbase (P :=
      fun level => u.resolveSlot level m = u.resolveSlot base m) rfl
      fun level b hlevel hbelow hb _ hsame => ?_
    have hnone : u.slotBody? level (u.slotToken m) = none := by
      cases hbody : u.slotBody? level (u.slotToken m) with
      | none => rfl
      | some k =>
        obtain ⟨hmem, hvirtual⟩ := h.slotBody?_mem hlevel hbody
        exact absurd ⟨level, hlevel, hbelow, k, hmem, hvirtual,
          h.slotRoot_of_slotBody? htokens honChain hlevel hbody⟩ hfree
    rw [hu.resolveSlot_of_base hb, hnone, Option.getD_none, hsame]

end Tokens

end Built

end Universe

/-! ### Dispatch in realms -/

namespace Realm

open Universe

variable {r : Realm} {t : TypeId} {m m' : MethodId}

theorem Upright.built (h : r.Upright) (hstanding : r.program.Standing t) : r.program.Built t :=
  ⟨h.wellFormed, h.rightful, hstanding⟩

theorem Reachable.ownTokens (h : Reachable r) (hone : r.registries.size ≤ 1)
    (hfew : r.program.rows ≤ 2 ^ 24) (t : TypeId) :
    r.program.OwnTokens (r.program.involved t) :=
  (h.distinctTokens hone hfew).ownTokens h.upright.wellFormed t

theorem Reachable.slotRoot_resolveVirtual (h : Reachable r) (hone : r.registries.size ≤ 1)
    (hfew : r.program.rows ≤ 2 ^ 24) (hstanding : r.program.Standing t)
    (hm : r.program.OnChain t m) :
    r.program.slotRoot (r.program.resolveVirtual t m) = r.program.slotRoot m :=
  (h.upright.built hstanding).slotRoot_resolveVirtual (h.ownTokens hone hfew t) hm

/-- Methods of a slot run the same method of the chain. It is in their slot, and a call of it
runs it again, if the methods that are compared have tokens of their own. -/
theorem dispatch_by_slot (h : Reachable r) (hstanding : r.program.Standing t)
    (hm : r.program.OnChain t m) (hm' : r.program.OnChain t m')
    (hroot : r.program.slotRoot m = r.program.slotRoot m') :
    ∃ k, r.program.resolveVirtual t m = k ∧ r.program.resolveVirtual t m' = k
      ∧ r.program.OnChain t k
      ∧ (r.program.OwnTokens (r.program.involved t) →
        r.program.slotRoot k = r.program.slotRoot m ∧ r.program.resolveVirtual t k = k) := by
  have hbuilt := h.upright.built hstanding
  have hslot : r.program.slotToken m = r.program.slotToken m' := by rw [slotToken, slotToken, hroot]
  exact ⟨r.program.resolveVirtual t m, rfl, (hm.resolveVirtual_eq hm' hslot).symm,
    hbuilt.resolveVirtual_onChain hm,
    fun htokens => ⟨hbuilt.slotRoot_resolveVirtual htokens hm,
      hbuilt.resolveVirtual_resolveVirtual htokens hm⟩⟩

/-- Class `App.B` over a base, with a method. -/
def classOver (base : TypeId) (method : String) (spec : MethodSpec) : ClassSpec :=
  (({ space := "App", name := "B" } : ClassSpec).isPublic.extending base).method method spec

/-- Class `App.A` with a virtual method `M`, and `App.B` over it that overrides it. -/
def overridingTurns : List Turn :=
  throughOne [.build (World.classWithM "A" none),
    .build (classOver ⟨3⟩ "M" (({} : MethodSpec).overrides.withBody (.fixed .empty)))]

set_option maxRecDepth 10000 in
/-- The method of the base and its override run the override. -/
theorem dispatch_by_slot_override :
    ∃ k, ((run {} overridingTurns).program.resolveVirtual ⟨4⟩ ⟨⟨3⟩, .method 0⟩ = k
      ∧ (run {} overridingTurns).program.resolveVirtual ⟨4⟩ ⟨⟨4⟩, .method 0⟩ = k
      ∧ (run {} overridingTurns).program.OnChain ⟨4⟩ k)
      ∧ (run {} overridingTurns).program.slotRoot k = ⟨⟨3⟩, .method 0⟩
      ∧ (run {} overridingTurns).program.resolveVirtual ⟨4⟩ k = k := by
  have hroot : (run {} overridingTurns).program.slotRoot ⟨⟨3⟩, .method 0⟩ = ⟨⟨3⟩, .method 0⟩ := by
    decide +kernel
  have hbase : (run {} overridingTurns).program.OnChain ⟨4⟩ ⟨⟨3⟩, .method 0⟩ := by decide +kernel
  have hclass : (run {} overridingTurns).program.OnChain ⟨4⟩ ⟨⟨4⟩, .method 0⟩ := by decide +kernel
  obtain ⟨k, hk, hk', honChain, hown⟩ :=
    dispatch_by_slot (later_run overridingTurns (by decide +kernel)) (by decide +kernel) hbase
      hclass (by decide +kernel)
  obtain ⟨hsame, hagain⟩ := hown (by decide +kernel)
  exact ⟨k, ⟨hk, hk', honChain⟩, hsame.trans hroot, hagain⟩

/-- What is called with a method of the slot is in the slot, and a call of it runs it again,
whatever tokens there are. -/
def DispatchBySlot : Prop :=
  ∀ (r : Realm) (t : TypeId) (m m' : MethodId), Reachable r → r.program.Standing t →
    r.program.OnChain t m →
    r.program.OnChain t m' → r.program.slotRoot m = r.program.slotRoot m' →
      ∃ k, r.program.resolveVirtual t m = k ∧ r.program.resolveVirtual t m' = k
      ∧ r.program.OnChain t k
        ∧ r.program.slotRoot k = r.program.slotRoot m ∧ r.program.resolveVirtual t k = k

/-- Class `App.A` with a virtual method `M` in one registry, and `App.B` over it with a virtual
method `N` in another one; the two methods have the same token. -/
def twoRegistries : List Turn :=
  [.establish, .move 0 (.build (World.classWithM "A" none)), .establish,
    .move 1 (.build (classOver ⟨3⟩ "N" ((({} : MethodSpec).virtual.returning .i4).withBody
      (.fixed (.constant (.i4 1))))))]

set_option maxRecDepth 10000 in
/-- On the class over two registries the method of the base runs the other method. -/
theorem not_dispatchBySlot : ¬ DispatchBySlot := by
  intro hdispatch
  obtain ⟨k, hk, -, -, hroot, -⟩ :=
    hdispatch (run {} twoRegistries) ⟨7⟩ ⟨⟨3⟩, .method 0⟩ ⟨⟨3⟩, .method 0⟩
    (later_run twoRegistries (by decide +kernel)) (by decide +kernel) (by decide +kernel)
    (by decide +kernel) rfl
  have hruns : (run {} twoRegistries).program.slotRoot
    ((run {} twoRegistries).program.resolveVirtual ⟨7⟩ ⟨⟨3⟩, .method 0⟩)
      ≠ (run {} twoRegistries).program.slotRoot ⟨⟨3⟩, .method 0⟩ := by decide +kernel
  exact hruns (hk ▸ hroot)

end Realm

end TypeLoom
