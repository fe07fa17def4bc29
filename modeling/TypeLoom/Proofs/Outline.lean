import Mathlib.Tactic.ByContra
import TypeLoom.Program.Dispatch

/-!
# Outlines of types

What dispatch reads of a type: its base, its interfaces, its overrides and the heads of its methods,
but neither bodies, fields nor attributes. Two universes agree below a size if their types below
that size have the same outlines; everything that only grows a universe keeps this agreement.
-/

namespace TypeLoom

/-! ### Outlines -/

structure MethodOutline where
  token : Token
  name : String
  flags : UInt32
  signature : MethodSignature
  deriving DecidableEq, Repr

def MethodRecord.outline (m : MethodRecord) : MethodOutline :=
  ⟨m.token, m.name, m.flags, m.signature⟩

structure TypeOutline where
  token : Token
  flags : UInt32
  base : Option TypeId := none
  interfaces : List TypeId := []
  methods : List MethodOutline := []
  constructors : List MethodOutline := []
  ownInitializer : Option MethodOutline := none
  initializer : Option MethodId := none
  overrides : List Override := []
  present : Bool := true
  deriving DecidableEq, Repr

def TypeRecord.outline (t : TypeRecord) : TypeOutline where
  token := t.token
  flags := t.flags
  base := t.base
  interfaces := t.interfaces.toList
  methods := t.methods.toList.map MethodRecord.outline
  constructors := t.constructors.toList.map MethodRecord.outline
  ownInitializer := t.ownInitializer.map MethodRecord.outline
  initializer := t.initializer
  overrides := t.overrides.toList
  present := t.present

namespace TypeOutline

def isInterface (t : TypeOutline) : Bool := hasBits t.flags TypeFlags.interface

def method? (t : TypeOutline) : Slot → Option MethodOutline
  | .method index => t.methods[index]?
  | .constructor index => t.constructors[index]?
  | .typeInitializer => t.ownInitializer

end TypeOutline

theorem TypeRecord.outline_method? (t : TypeRecord) (slot : Slot) :
    t.outline.method? slot = (t.method? slot).map MethodRecord.outline := by
  cases slot <;> simp [TypeOutline.method?, outline, TypeRecord.method?]

namespace Universe

def outline (u : Universe) (t : TypeId) : TypeOutline := (u.record t).outline

def head (u : Universe) (m : MethodId) : MethodOutline := (u.method m).outline

theorem head_eq (u : Universe) (m : MethodId) :
    u.head m = ((u.outline m.owner).method? m.slot).getD noMethod.outline := by
  simp only [head, outline, method, method?, TypeRecord.outline_method?]
  cases (u.record m.owner).method? m.slot <;> rfl

theorem isSome_method? (u : Universe) (m : MethodId) :
    (u.method? m).isSome = ((u.outline m.owner).method? m.slot).isSome := by
  simp [outline, method?, TypeRecord.outline_method?]

theorem record_of_le (u : Universe) (t : TypeId) (h : u.types.size ≤ t.index) :
    u.record t = noType := by
  simp [record, Array.getD, Nat.not_lt.mpr h]

theorem outline_of_le (u : Universe) (t : TypeId) (h : u.types.size ≤ t.index) :
    u.outline t = noType.outline := by
  rw [outline, u.record_of_le t h]

theorem lt_of_isPresent (u : Universe) (t : TypeId) (h : u.isPresent t) :
    t.index < u.types.size := by
  by_contra hle
  rw [isPresent, u.record_of_le t (Nat.not_lt.mp hle)] at h
  exact absurd h (by decide)

theorem lt_of_isInterface (u : Universe) (t : TypeId) (h : (u.record t).isInterface = true) :
    t.index < u.types.size := by
  by_contra hle
  rw [u.record_of_le t (Nat.not_lt.mp hle)] at h
  exact absurd h (by decide)

theorem lt_of_isSome_method? (u : Universe) (m : MethodId) (h : (u.method? m).isSome) :
    m.owner.index < u.types.size := by
  by_contra hle
  rw [method?, u.record_of_le m.owner (Nat.not_lt.mp hle)] at h
  cases hs : m.slot <;> simp [hs, TypeRecord.method?, noType] at h

theorem methodsOf_eq (u : Universe) (t : TypeId) :
    u.methodsOf t = (List.range (u.outline t).methods.length).map fun index =>
    ⟨t, .method index⟩ := by
  simp [methodsOf, outline, TypeRecord.outline]

theorem mem_methodsOf (u : Universe) (t : TypeId) (m : MethodId) :
    m ∈ u.methodsOf t ↔ ∃ index, index < (u.record t).methods.size ∧ m = ⟨t, .method index⟩ := by
  simp [methodsOf, eq_comm]

theorem owner_of_mem_methodsOf (u : Universe) {t : TypeId} {m : MethodId} (h : m ∈ u.methodsOf t) :
    m.owner = t := by
  obtain ⟨index, _, rfl⟩ := (u.mem_methodsOf t m).mp h
  rfl

theorem isSome_of_mem_methodsOf (u : Universe) {t : TypeId} {m : MethodId} (h : m ∈ u.methodsOf t) :
    (u.method? m).isSome := by
  obtain ⟨index, hlt, rfl⟩ := (u.mem_methodsOf t m).mp h
  simp [method?, TypeRecord.method?, hlt]

theorem owner_of_mem_constructorsOf (u : Universe) {t : TypeId} {m : MethodId}
    (h : m ∈ u.constructorsOf t) :
    m.owner = t := by
  obtain ⟨index, _, rfl⟩ := List.mem_map.mp h
  rfl

theorem isSome_of_mem_constructorsOf (u : Universe) {t : TypeId} {m : MethodId}
    (h : m ∈ u.constructorsOf t) : (u.method? m).isSome := by
  obtain ⟨index, hlt, rfl⟩ := List.mem_map.mp h
  rw [List.mem_range] at hlt
  simp [method?, TypeRecord.method?, hlt]

theorem methodOwner?_eq (u : Universe) (m : MethodId) :
    u.methodOwner? m = if (u.outline m.owner).present then some m.owner else none := rfl

/-! ### Changes -/

theorem size_push (u : Universe) (r : TypeRecord) : (u.push r).types.size = u.types.size + 1 := by
  simp [push]

theorem complete_push (u : Universe) {r : TypeRecord} (hr : r.complete = false) (t : TypeId) :
    ((u.push r).record t).complete = (u.record t).complete := by
  by_cases hlt : t.index < u.types.size
  · rw [u.record_push_of_lt r t hlt]
  · have hnone : (u.record t).complete = false := by
      rw [u.record_of_le t (by omega)]
      rfl
    by_cases hnext : t = u.nextId
    · rw [hnone, hnext, u.record_push_self, hr]
    · have hne : t.index ≠ u.types.size := fun heq => hnext (by cases t; simp_all [nextId])
      rw [hnone, record_of_le _ t (by rw [size_push]; omega)]
      rfl

theorem outline_push (u : Universe) (r : TypeRecord) (t : TypeId) :
    (u.push r).outline t = if t = u.nextId then r.outline else u.outline t := by
  by_cases ht : t = u.nextId
  · rw [if_pos ht, ht, outline, record_push_self]
  · rw [if_neg ht]
    by_cases hlt : t.index < u.types.size
    · rw [outline, record_push_of_lt u r t hlt, outline]
    · have hne : t.index ≠ u.types.size := fun h => ht (by cases t; simp_all [nextId])
      rw [outline_of_le u t (by omega), outline_of_le _ t (by rw [size_push]; omega)]

theorem record_modify (u : Universe) (t other : TypeId) (change : TypeRecord → TypeRecord) :
    (u.modify t change).record other =
      if other = t ∧ t.index < u.types.size then change (u.record t) else u.record other := by
  by_cases ht : other = t
  · subst ht
    by_cases hlt : other.index < u.types.size
    · simp [record, modify, Array.getD, hlt, Array.getElem_modify]
    · simp [record, modify, Array.getD, hlt]
  · have hne : t.index ≠ other.index := fun h => ht (by cases t; cases other; simp_all)
    by_cases hlt : other.index < u.types.size
    · simp [record, modify, Array.getD, hlt, Array.getElem_modify, hne, ht]
    · simp [record, modify, Array.getD, hlt, ht]

theorem outline_modify (u : Universe) (t other : TypeId) (change : TypeRecord → TypeRecord)
    (hlt : t.index < u.types.size) :
    (u.modify t change).outline other =
      if other = t then (change (u.record t)).outline else u.outline other := by
  rw [outline, record_modify]
  by_cases ht : other = t <;> simp [ht, hlt, outline]

theorem outline_modify_quiet (u : Universe) (t other : TypeId) (change : TypeRecord → TypeRecord)
    (h : ∀ r, (change r).outline = r.outline) :
    (u.modify t change).outline other = u.outline other := by
  rw [outline, record_modify]
  split
  · rename_i ht
    rw [h, ht.1, outline]
  · rfl

/-! ### Agreement -/

def Agree (size : Nat) (u after : Universe) : Prop :=
  ∀ t : TypeId, t.index < size → after.outline t = u.outline t

namespace Agree

variable {size : Nat} {u mid after : Universe}

theorem refl (size : Nat) (u : Universe) : Agree size u u := fun _ _ => rfl

theorem trans (h : Agree size u mid) (h' : Agree size mid after) : Agree size u after :=
  fun t ht => (h' t ht).trans (h t ht)

theorem mono {less : Nat} (h : Agree size u after) (hle : less ≤ size) : Agree less u after :=
  fun t ht => h t (Nat.lt_of_lt_of_le ht hle)

theorem push (r : TypeRecord) : Agree u.types.size u (u.push r) := by
  intro t ht
  rw [outline_push, if_neg]
  intro h
  rw [h] at ht
  exact Nat.lt_irrefl _ ht

variable (h : Agree size u after)
include h

theorem head {m : MethodId} (hm : m.owner.index < size) : after.head m = u.head m := by
  rw [head_eq, head_eq, h m.owner hm]

theorem name {m : MethodId} (hm : m.owner.index < size) :
    (after.method m).name = (u.method m).name :=
  congrArg MethodOutline.name (h.head hm)

theorem token {m : MethodId} (hm : m.owner.index < size) :
    (after.method m).token = (u.method m).token :=
  congrArg MethodOutline.token (h.head hm)

theorem signature {m : MethodId} (hm : m.owner.index < size) :
    (after.method m).signature = (u.method m).signature :=
  congrArg MethodOutline.signature (h.head hm)

theorem isVirtual {m : MethodId} (hm : m.owner.index < size) :
    (after.method m).isVirtual = (u.method m).isVirtual :=
  congrArg (fun o : MethodOutline => hasBits o.flags MethodFlags.virtual) (h.head hm)

theorem isNewSlot {m : MethodId} (hm : m.owner.index < size) :
    (after.method m).isNewSlot = (u.method m).isNewSlot :=
  congrArg (fun o : MethodOutline => hasBits o.flags MethodFlags.newSlot) (h.head hm)

theorem isSome_method? {m : MethodId} (hm : m.owner.index < size) :
    (after.method? m).isSome = (u.method? m).isSome := by
  rw [Universe.isSome_method?, Universe.isSome_method?, h m.owner hm]

theorem isInterface {t : TypeId} (ht : t.index < size) :
    (after.record t).isInterface = (u.record t).isInterface :=
  congrArg TypeOutline.isInterface (h t ht)

theorem isPresent {t : TypeId} (ht : t.index < size) : after.isPresent t = u.isPresent t :=
  congrArg TypeOutline.present (h t ht)

theorem base {t : TypeId} (ht : t.index < size) : (after.record t).base = (u.record t).base :=
  congrArg TypeOutline.base (h t ht)

theorem overrides {t : TypeId} (ht : t.index < size) :
    (after.record t).overrides = (u.record t).overrides := by
  have heq := congrArg TypeOutline.overrides (h t ht)
  exact Array.toList_inj.mp heq

theorem methodsOf {t : TypeId} (ht : t.index < size) : after.methodsOf t = u.methodsOf t := by
  rw [methodsOf_eq, methodsOf_eq, h t ht]

theorem methodOwner? {m : MethodId} (hm : m.owner.index < size) :
    after.methodOwner? m = u.methodOwner? m := by
  rw [methodOwner?_eq, methodOwner?_eq, h m.owner hm]

end Agree

end Universe

end TypeLoom
