import TypeLoom.Proofs.Outline

/-!
# Well-formed universes

In a well-formed universe bases and overridden methods stand before what builds on them. Base chains
and the ways to slot roots therefore end, whatever bound they are followed to, and what dispatch
finds on a type depends only on the outlines of the types up to it.
-/

namespace TypeLoom

/-! ### Signatures -/

/-- The signature names no descriptor, and types below a size only. -/
def Signature.Settled (size : Nat) : Signature → Prop
  | .ofClass t => t.index < size
  | .draft _ => False
  | _ => True

instance (size : Nat) (s : Signature) : Decidable (s.Settled size) := by
  cases s <;> unfold Signature.Settled <;> infer_instance

theorem Signature.Settled.mono {size size' : Nat} {s : Signature} (h : s.Settled size)
    (hle : size ≤ size') :
    s.Settled size' := by
  cases s with
  | ofClass t => exact Nat.lt_of_lt_of_le h hle
  | draft _ => exact h
  | _ => trivial

namespace MethodSignature

/-- All that the signature mentions is settled. -/
def Settled (size : Nat) (s : MethodSignature) : Prop :=
  s.returns.Settled size ∧ ∀ t ∈ s.types, t.Settled size

instance (size : Nat) (s : MethodSignature) : Decidable (s.Settled size) :=
  inferInstanceAs (Decidable (_ ∧ _))

theorem Settled.mono {size size' : Nat} {s : MethodSignature} (h : s.Settled size)
    (hle : size ≤ size') :
    s.Settled size' := ⟨h.1.mono hle, fun t ht => (h.2 t ht).mono hle⟩

theorem settled_default (size : Nat) : ({} : MethodSignature).Settled size :=
  ⟨trivial, fun _ ht => absurd ht (by simp [types])⟩

theorem agrees_iff (a b : MethodSignature) :
    a.agrees b ↔ a.returns = b.returns ∧ a.types = b.types := by
  simp [agrees, sameParameters]

theorem agrees_refl (a : MethodSignature) : a.agrees a := (agrees_iff a a).mpr ⟨rfl, rfl⟩

theorem agrees_symm {a b : MethodSignature} (h : a.agrees b) : b.agrees a := by
  obtain ⟨hr, ht⟩ := (agrees_iff a b).mp h
  exact (agrees_iff b a).mpr ⟨hr.symm, ht.symm⟩

theorem agrees_trans {a b c : MethodSignature} (h : a.agrees b) (h' : b.agrees c) : a.agrees c := by
  obtain ⟨hr, ht⟩ := (agrees_iff a b).mp h
  obtain ⟨hr', ht'⟩ := (agrees_iff b c).mp h'
  exact (agrees_iff a c).mpr ⟨hr.trans hr', ht.trans ht'⟩

theorem sameParameters_of_agrees {a b : MethodSignature} (h : a.agrees b) : a.sameParameters b :=
  (sameParameters_iff a b).mpr ((agrees_iff a b).mp h).2

end MethodSignature

/-! ### Well-formedness -/

structure TypeOutline.Fits (look : TypeId → TypeOutline) (size : Nat) (t : TypeId)
    (o : TypeOutline) :
    Prop where
  base_lt : ∀ b, o.base = some b → b.index < t.index
  base_class : ∀ b, o.base = some b → (look b).isInterface = false
  /-- An interface has no base and overrides methods of interfaces only. -/
  rootless : o.isInterface = true →
    o.base = none ∧ ∀ v ∈ o.overrides, (look v.declaration.owner).isInterface = true
  interfaces : ∀ i ∈ o.interfaces, i.index ≤ t.index ∧ (look i).isInterface = true
  /-- An override has a body of the type and a declaration that stands before it; as an override
  of a class method it has the name and the signature of that method. -/
  overrides : ∀ v ∈ o.overrides, v.body.owner = t ∧ v.declaration.owner.index < t.index
    ∧ ∃ body declared, o.method? v.body.slot = some body
      ∧ (look v.declaration.owner).method? v.declaration.slot = some declared
      ∧ ((look v.declaration.owner).isInterface = false →
          body.name = declared.name ∧ body.signature.agrees declared.signature)
  signatures : ∀ slot m, o.method? slot = some m → m.signature.Settled size
  initializer : o.initializer = none → o.ownInitializer = none

namespace Universe

def WellFormed (u : Universe) : Prop := ∀ t, (u.outline t).Fits u.outline u.types.size t

/-- No two methods share a token. -/
def DistinctTokens (u : Universe) : Prop :=
  ∀ m m', (u.method? m).isSome → (u.method? m').isSome → (u.method m).token = (u.method m').token →
    m = m'

def LocalTokens (u : Universe) : Prop :=
  ∀ m m', m.owner = m'.owner → (u.method? m).isSome → (u.method? m').isSome →
    (u.method m).token = (u.method m').token → m = m'

theorem DistinctTokens.localTokens {u : Universe} (h : u.DistinctTokens) : u.LocalTokens :=
  fun m m' _ hm hm' htoken => h m m' hm hm' htoken

theorem Agree.distinctTokens {u after : Universe} (ha : Agree u.types.size u after)
    (h : after.DistinctTokens) : u.DistinctTokens := by
  intro m m' hm hm' htoken
  have hlt := u.lt_of_isSome_method? m hm
  have hlt' := u.lt_of_isSome_method? m' hm'
  refine h m m' ?_ ?_ ?_
  · rw [ha.isSome_method? hlt]
    exact hm
  · rw [ha.isSome_method? hlt']
    exact hm'
  · rw [ha.token hlt, ha.token hlt', htoken]

def methodIds (u : Universe) : List MethodId :=
  (List.range u.types.size).flatMap fun index =>
    u.methodsOf ⟨index⟩ ++ u.constructorsOf ⟨index⟩ ++ [⟨⟨index⟩, .typeInitializer⟩]

theorem mem_methodIds (u : Universe) {m : MethodId} (h : (u.method? m).isSome) :
    m ∈ u.methodIds := by
  obtain ⟨⟨index⟩, slot⟩ := m
  have hlt : index < u.types.size := u.lt_of_isSome_method? _ h
  refine List.mem_flatMap.mpr ⟨index, List.mem_range.mpr hlt, ?_⟩
  cases slot with
  | method i =>
    have hi : i < (u.record ⟨index⟩).methods.size := by simpa [method?, TypeRecord.method?] using h
    simp [methodsOf, hi]
  | constructor i =>
    have hi : i < (u.record ⟨index⟩).constructors.size := by
      simpa [method?, TypeRecord.method?] using h
    simp [constructorsOf, hi]
  | typeInitializer => simp

instance (u : Universe) : Decidable u.DistinctTokens :=
  decidable_of_iff (∀ m ∈ u.methodIds, ∀ m' ∈ u.methodIds, (u.method? m).isSome →
    (u.method? m').isSome →
      (u.method m).token = (u.method m').token → m = m')
    ⟨fun h m m' hm hm' => h m (u.mem_methodIds hm) m' (u.mem_methodIds hm') hm hm',
      fun h m _ m' _ hm hm' => h m m' hm hm'⟩

theorem wellFormed_empty : WellFormed {} := by
  intro t
  rw [outline_of_le _ t (by simp)]
  constructor <;> simp [noType, TypeRecord.outline, TypeOutline.method?]
  intro slot m hm
  cases slot <;> simp at hm

section Bases

variable {u after : Universe} {size : Nat}

theorem WellFormed.base_lt (hu : WellFormed u) {t b : TypeId} (h : (u.record t).base = some b) :
    b.index < t.index := (hu t).base_lt b h

theorem WellFormed.base_class (hu : WellFormed u) {t b : TypeId} (h : (u.record t).base = some b) :
    (u.record b).isInterface = false := (hu t).base_class b h

theorem WellFormed.bases_of_interface (hu : WellFormed u) {t : TypeId}
    (h : (u.record t).isInterface = true) :
    (u.record t).base = none := ((hu t).rootless h).1

theorem WellFormed.signature_settled (hu : WellFormed u) {m : MethodId} (h : (u.method? m).isSome) :
    (u.method m).signature.Settled u.types.size := by
  obtain ⟨r, hr⟩ := Option.isSome_iff_exists.mp h
  have hm : (u.outline m.owner).method? m.slot = some r.outline := by
    rw [outline, TypeRecord.outline_method?]
    exact congrArg (Option.map MethodRecord.outline) hr
  have hs := (hu m.owner).signatures m.slot r.outline hm
  rw [method, hr]
  exact hs

/-! ### Base chains -/

/-- Chains do not depend on the bound, nor on what comes after the type. -/
theorem Agree.chainWithin (ha : Agree size u after) (hu : WellFormed u) :
    ∀ (depth depth' : Nat) (t : TypeId), t.index < size → t.index < depth → t.index < depth' →
      after.chainWithin depth' t = u.chainWithin depth t := by
  intro depth
  induction depth with
  | zero => intro _ t _ h; omega
  | succ depth ih =>
    intro depth' t ht hd hd'
    cases depth' with
    | zero => omega
    | succ depth' =>
      simp only [Universe.chainWithin, ha.base ht]
      cases hb : (u.record t).base with
      | none => rfl
      | some b =>
        have hlt : b.index < t.index := hu.base_lt hb
        simp only [ih depth' b (by omega) (by omega) (by omega)]

theorem Agree.hierarchy (ha : Agree size u after) (hu : WellFormed u) (hle : size ≤ u.types.size)
    (hle' : size ≤ after.types.size) {t : TypeId} (ht : t.index < size) :
    after.hierarchy t = u.hierarchy t :=
  ha.chainWithin hu _ _ t ht (by omega) (by omega)

theorem base_of_le {t : TypeId} (h : u.types.size ≤ t.index) : (u.record t).base = none := by
  rw [u.record_of_le t h, noType]

theorem WellFormed.hierarchy_eq (hu : WellFormed u) (t : TypeId) :
    u.hierarchy t = t :: match (u.record t).base with
      | some b => u.hierarchy b
      | none => [] := by
  unfold Universe.hierarchy
  rw [Universe.chainWithin]
  cases hb : (u.record t).base with
  | none => rfl
  | some b =>
    have hlt : b.index < t.index := hu.base_lt hb
    have hin : t.index < u.types.size := by
      by_contra hge
      rw [base_of_le (by omega)] at hb
      cases hb
    have hchain := (Agree.refl (t.index + 1) u).chainWithin hu u.types.size (u.types.size + 1) b
      (by omega) (by omega) (by omega)
    simp only [hchain]

theorem WellFormed.bases_eq (hu : WellFormed u) (t : TypeId) :
    u.bases t = match (u.record t).base with
      | some b => u.hierarchy b
      | none => [] := by
  rw [Universe.bases, hu.hierarchy_eq t, List.tail_cons]

theorem WellFormed.index_le_of_mem_hierarchy (hu : WellFormed u) {t level : TypeId}
    (h : level ∈ u.hierarchy t) : level.index ≤ t.index := by
  induction hn : t.index using Nat.strongRecOn generalizing t with
  | ind n ih =>
    rw [hu.hierarchy_eq] at h
    rcases List.mem_cons.mp h with rfl | h
    · omega
    · cases hb : (u.record t).base with
      | none => simp [hb] at h
      | some b =>
        have hlt : b.index < t.index := hu.base_lt hb
        have := ih b.index (by omega) (t := b) (by simpa [hb] using h) rfl
        omega

theorem WellFormed.index_lt_of_mem_bases (hu : WellFormed u) {t level : TypeId}
    (h : level ∈ u.bases t) :
    level.index < t.index := by
  rw [hu.bases_eq] at h
  cases hb : (u.record t).base with
  | none => simp [hb] at h
  | some b =>
    have hlt : b.index < t.index := hu.base_lt hb
    have := hu.index_le_of_mem_hierarchy (t := b) (by simpa [hb] using h)
    omega

theorem WellFormed.class_of_mem_hierarchy (hu : WellFormed u) {t level : TypeId}
    (ht : (u.record t).isInterface = false) (h : level ∈ u.hierarchy t) :
    (u.record level).isInterface = false := by
  induction hn : t.index using Nat.strongRecOn generalizing t with
  | ind n ih =>
    rw [hu.hierarchy_eq] at h
    rcases List.mem_cons.mp h with rfl | h
    · exact ht
    · cases hb : (u.record t).base with
      | none => simp [hb] at h
      | some b =>
        have hlt : b.index < t.index := hu.base_lt hb
        exact ih b.index (by omega) (t := b) (hu.base_class hb) (by simpa [hb] using h) rfl

theorem WellFormed.class_of_mem_bases (hu : WellFormed u) {t level : TypeId}
    (h : level ∈ u.bases t) :
    (u.record level).isInterface = false := by
  rw [hu.bases_eq] at h
  cases hb : (u.record t).base with
  | none => simp [hb] at h
  | some b => exact hu.class_of_mem_hierarchy (hu.base_class hb) (by simpa [hb] using h)

end Bases

end Universe

end TypeLoom
