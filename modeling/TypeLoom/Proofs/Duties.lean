import TypeLoom.Proofs.InterfaceBodies
import TypeLoom.Proofs.Searches

/-!
# What a class owes

A class takes over the abstract methods of its bases and the methods of all interfaces that it or a
base lists. The check of a descriptor follows its own lists only. Its answer depends on no type that
comes later.
-/

namespace TypeLoom

open Relation

namespace Universe

variable {u after : Universe} {size : Nat} {t base i : TypeId} {m : MethodId}

/-- The type or one of its bases lists the interface, directly or through others. -/
def Undertakes (u : Universe) (t i : TypeId) : Prop :=
  ∃ level ∈ u.hierarchy t, TransGen u.Lists level i

/-- The type runs nothing for the interface method, or what it runs has no body. -/
def Lacks (u : Universe) (t : TypeId) (m : MethodId) : Prop :=
  (u.resolveInterfaceMethod t m).all (fun k => (u.method k).isAbstract) = true

/-- Some method of the class has no body: its own, one of a base that stays so, or one of an
interface. -/
inductive Unfinished (u : Universe) (t : TypeId) : Prop
  | declares {m : MethodId} (own : m ∈ u.methodsOf t) (bodiless : (u.method m).isAbstract = true)
  | inherits {level : TypeId} {m : MethodId} (above : level ∈ u.bases t)
    (declared : m ∈ u.methodsOf level)
      (bodiless : (u.method m).isAbstract = true)
      (stays : (u.method (u.resolveVirtual t m)).isAbstract = true)
  | owes {i : TypeId} {m : MethodId} (undertaken : u.Undertakes t i) (declared : m ∈ u.methodsOf i)
      (forInstances : (u.method m).isStatic = false)
      (missing : u.Lacks t m)

/-! ### Interfaces behind an interface -/

theorem WellFormed.le_of_lists (hu : u.WellFormed) (h : u.Lists t i) : i.index ≤ t.index :=
  ((hu t).interfaces i (Array.mem_toList_iff.mpr h)).1

theorem reaches_of_mem_closure {depth : Nat} (h : i ∈ u.interfaceClosureWithin depth t) :
    ReflTransGen u.Lists t i := by
  induction depth generalizing t with
  | zero => cases h
  | succ depth ih =>
    rcases List.mem_cons.mp h with rfl | hrest
    · exact .refl
    · obtain ⟨listed, hlisted, hmem⟩ := List.mem_flatMap.mp hrest
      exact .head (Array.mem_toList_iff.mp hlisted) (ih hmem)

theorem WellFormed.mem_closure_of_reaches (hu : u.WellFormed) (h : ReflTransGen u.Lists t i) :
    ∀ depth, t.index < depth → i ∈ u.interfaceClosureWithin depth t := by
  induction h using ReflTransGen.head_induction_on with
  | refl =>
    intro depth hdepth
    cases depth with
    | zero => omega
    | succ depth => exact List.mem_cons_self
  | @head t listed hlists _ ih =>
    intro depth hdepth
    cases depth with
    | zero => omega
    | succ depth =>
      have hle := hu.le_of_lists hlists
      by_cases hsame : listed = t
      · exact hsame ▸ ih (depth + 1) (by omega)
      · have hne : listed.index ≠ t.index := fun h => hsame (by cases listed; cases t; simp_all)
        exact List.mem_cons_of_mem _ (List.mem_flatMap.mpr ⟨listed, Array.mem_toList_iff.mpr hlists,
          ih depth (by omega)⟩)

theorem WellFormed.mem_interfaceClosure_iff (hu : u.WellFormed) :
    i ∈ u.interfaceClosure t ↔ ReflTransGen u.Lists t i := by
  refine ⟨reaches_of_mem_closure, fun h => ?_⟩
  rcases h.cases_head with rfl | ⟨listed, hlists, -⟩
  · exact List.mem_cons_self
  · exact hu.mem_closure_of_reaches h _ (Nat.lt_succ_of_lt (lt_of_lists hlists))

theorem WellFormed.le_of_reaches (hu : u.WellFormed) (h : ReflTransGen u.Lists t i) :
    i.index ≤ t.index := by
  induction h with
  | refl => exact Nat.le_refl _
  | tail _ hlists ih => exact Nat.le_trans (hu.le_of_lists hlists) ih

/-! ### Types that come later -/

theorem Agree.lists (ha : Agree size u after) (ht : t.index < size) :
    after.Lists t i ↔ u.Lists t i := by
  have hsame : (after.record t).interfaces = (u.record t).interfaces :=
    Array.toList_inj.mp (congrArg TypeOutline.interfaces (ha t ht))
  rw [Lists, hsame, Lists]

theorem Agree.reaches (ha : Agree size u after) (hu : u.WellFormed) (ht : t.index < size) :
    ReflTransGen after.Lists t i ↔ ReflTransGen u.Lists t i := by
  constructor
  · intro h
    induction h using ReflTransGen.head_induction_on with
    | refl => exact .refl
    | head hlists _ ih =>
      have hold := (ha.lists ht).mp hlists
      exact .head hold (ih (Nat.lt_of_le_of_lt (hu.le_of_lists hold) ht))
  · intro h
    induction h using ReflTransGen.head_induction_on with
    | refl => exact .refl
    | head hlists _ ih =>
      exact .head ((ha.lists ht).mpr hlists) (ih (Nat.lt_of_le_of_lt (hu.le_of_lists hlists) ht))

theorem Agree.flags (ha : Agree size u after) (hm : m.owner.index < size) :
    (after.method m).flags = (u.method m).flags :=
  congrArg MethodOutline.flags (ha.head hm)

theorem Agree.isAbstract (ha : Agree size u after) (hm : m.owner.index < size) :
    (after.method m).isAbstract = (u.method m).isAbstract := by
  rw [MethodRecord.isAbstract, ha.flags hm, MethodRecord.isAbstract]

theorem Agree.isStatic (ha : Agree size u after) (hm : m.owner.index < size) :
    (after.method m).isStatic = (u.method m).isStatic := by
  rw [MethodRecord.isStatic, ha.flags hm, MethodRecord.isStatic]

theorem Agree.present? (ha : Agree size u after) (ht : t.index < size) :
    after.present? t = u.present? t := by
  rw [Universe.present?, ha.isPresent ht, Universe.present?]

section Class

variable (ha : Agree size u after) (hu : u.WellFormed) (hu' : after.WellFormed)
  (hle : size ≤ u.types.size)
  (hle' : size ≤ after.types.size) (hbase : base.index < size)
  (hclass : (u.record base).isInterface = false)
include ha hu hle hle' hbase hclass

/-- What a class runs for a method of its chain does not depend on what comes later. -/
theorem Agree.resolveVirtual (hm : m.owner ∈ u.hierarchy base) :
    after.resolveVirtual base m = u.resolveVirtual base m := by
  have hlt : m.owner.index < size := Nat.lt_of_le_of_lt (hu.index_le_of_mem_hierarchy hm) hbase
  have hmClass := hu.class_of_mem_hierarchy hclass hm
  by_cases hvirtual : (u.method m).isVirtual = true
  · rw [resolveVirtual_of_class (by rw [ha.isInterface hlt]; exact hmClass)
      (by rw [ha.isVirtual hlt]; exact hvirtual),
      resolveVirtual_of_class hmClass hvirtual, ha.resolveSlot hu hle hle' hbase hlt]
  · rw [resolveVirtual_of_not_virtual _ _ _ (by rw [ha.isVirtual hlt]; exact Bool.eq_false_iff.mpr hvirtual),
      resolveVirtual_of_not_virtual _ _ _ (Bool.eq_false_iff.mpr hvirtual)]

include hu'

theorem Agree.resolveInterfaceMethod (hm : m.owner.index < size) :
    after.resolveInterfaceMethod base m = u.resolveInterfaceMethod base m := by
  rw [hu'.resolveInterfaceMethod_of_class (by rw [ha.isInterface hbase]; exact hclass),
    hu.resolveInterfaceMethod_of_class hclass,
    ha.inheritedBody? hu hle hle' hbase hm]
  cases hfound : u.inheritedBody? base m with
  | none => rw [Option.map_none, Option.map_none]
  | some pair =>
    obtain ⟨found, byName⟩ := pair
    have hlt := hu.index_le_of_mem_hierarchy (hu.inheritedBody?_cases hfound).1
    simp only [Option.map_some, ha.resolveSlot hu hle hle' hbase (show found.owner.index < size by
      omega)]

end Class

/-- What a class runs for a method of its chain is a method of its chain. -/
theorem WellFormed.owner_of_resolveVirtual (hu : u.WellFormed)
    (hclass : (u.record base).isInterface = false) (hm : m.owner ∈ u.hierarchy base) :
    (u.resolveVirtual base m).owner.index ≤ base.index := by
  have hle := hu.index_le_of_mem_hierarchy hm
  by_cases hvirtual : (u.method m).isVirtual = true
  · rw [resolveVirtual_of_class (hu.class_of_mem_hierarchy hclass hm) hvirtual]
    rcases hu.owner_of_resolveSlot base m with hbelow | heq
    · exact hbelow
    · rw [heq]
      exact hle
  · rw [resolveVirtual_of_not_virtual _ _ _ (Bool.eq_false_iff.mpr hvirtual)]
    exact hle

theorem WellFormed.owner_of_resolveInterfaceMethod (hu : u.WellFormed)
    (hclass : (u.record base).isInterface = false) {k : MethodId}
    (h : u.resolveInterfaceMethod base m = some k) : k.owner.index ≤ base.index := by
  rw [hu.resolveInterfaceMethod_of_class hclass] at h
  obtain ⟨⟨found, byName⟩, hfound, hk⟩ := Option.map_eq_some_iff.mp h
  have hlevel := hu.index_le_of_mem_hierarchy (hu.inheritedBody?_cases hfound).1
  cases byName with
  | false =>
    obtain rfl : found = k := hk
    exact hlevel
  | true =>
    obtain rfl : u.resolveSlot base found = k := hk
    rcases hu.owner_of_resolveSlot base found with hle | heq
    · exact hle
    · rw [heq]
      exact hlevel

/-- What a class finds by name for an interface method is a public virtual method of its chain. -/
theorem mem_of_inheritedBody? {found : MethodId}
    (h : u.inheritedBody? base m = some (found, true)) :
    found.owner ∈ u.hierarchy base ∧ found ∈ u.methodsOf found.owner
    ∧ (u.method found).isVirtual = true
      ∧ (u.method found).access = .isPublic := by
  obtain ⟨level, hlevel, hbody⟩ := List.exists_of_findSome?_eq_some h
  unfold interfaceBody? at hbody
  rcases Option.or_eq_some_iff.mp hbody with hmade | ⟨-, hnamed⟩
  · obtain ⟨v, -, hpair⟩ := Option.map_eq_some_iff.mp hmade
    cases hpair
  · obtain ⟨k, hk, hpair⟩ := Option.map_eq_some_iff.mp hnamed
    cases hpair
    have hmem := List.mem_of_find?_eq_some hk
    have hmatches := List.find?_some hk
    simp only [Bool.and_eq_true, beq_iff_eq] at hmatches
    have howner := u.owner_of_mem_methodsOf hmem
    exact ⟨howner ▸ hlevel, howner.symm ▸ hmem, hmatches.1.1.1, hmatches.1.1.2⟩

end Universe

/-! ### The check of a descriptor -/

namespace Descriptor

open Universe

variable {u after : Universe} {d : Descriptor} {i : TypeId} {m : MethodId}

theorem mem_interfaceTypes {d : Descriptor} : i ∈ d.interfaceTypes u ↔ .ofClass i ∈ d.interfaces
    ∧ u.isPresent i = true := by
  rw [interfaceTypes, List.mem_filterMap]
  constructor
  · rintro ⟨s, hs, hi⟩
    obtain ⟨t, ht, hpresent⟩ := Option.bind_eq_some_iff.mp hi
    rw [present?] at hpresent
    split at hpresent
    · rename_i hp
      cases hpresent
      cases s <;> simp only [Signature.class?] at ht <;> cases ht
      exact ⟨Array.mem_toList_iff.mp hs, hp⟩
    · cases hpresent
  · rintro ⟨hi, hp⟩
    refine ⟨.ofClass i, Array.mem_toList_iff.mpr hi, ?_⟩
    rw [Signature.class?, Option.bind_some, present?, if_pos hp]

/-- A row for the slot of a base method, or an own method found by name, is one with its name and
its signature. -/
theorem Sound.overridesSlot_iff (hd : d.Sound u) (hu : u.WellFormed) (htokens : u.DistinctTokens)
    (hm : (u.method? m).isSome) (hmClass : (u.record m.owner).isInterface = false) :
    d.overridesSlot u m = true ↔ ∃ own ∈ d.methods,
        own.takesSlot (u.method m).name (u.method m).signature = true := by
  rw [overridesSlot, Bool.or_eq_true, Array.any_eq_true', Keyed.hasKey, Option.isSome_iff_exists]
  refine or_iff_right_of_imp fun hrow => ?_
  obtain ⟨handle, hhandle⟩ := hrow
  obtain ⟨own, b, hown, -, hslot, hb, hbClass, htakes⟩ := hd.rows _ _ hhandle
  obtain ⟨hname, hsignature⟩ := hu.matches_of_slotToken_eq htokens hb hm hbClass hmClass hslot
  exact ⟨own, hown, by rw [← hname, own.takesSlot_congr _ hsignature]; exact htakes⟩

section Later

variable (hd : d.Sound u) (hu : u.WellFormed) (hu' : after.WellFormed)
  (ha : Agree u.types.size u after)
  (hle : u.types.size ≤ after.types.size) (hbase : ∀ t, d.base = some (.ofClass t) →
    (u.record t).isInterface = false)
include hd ha

theorem baseType?_agree : d.baseType? after = d.baseType? u := by
  unfold baseType?
  refine Option.bind_congr fun t ht => ha.present? ?_
  obtain ⟨s, hs, hclass⟩ := Option.bind_eq_some_iff.mp ht
  cases s <;> simp only [Signature.class?] at hclass <;> cases hclass
  exact hd.base t hs

theorem interfaceTypes_agree : d.interfaceTypes after = d.interfaceTypes u := by
  unfold interfaceTypes
  refine List.filterMap_congr fun s hs => Option.bind_congr fun t ht => ha.present? ?_
  cases s <;> simp only [Signature.class?] at ht <;> cases ht
  exact (hd.interfaces t (Array.mem_toList_iff.mp hs)).1

include hu hle

omit hd in
theorem overridesSlot_agree (hm : m.owner.index < u.types.size) :
    d.overridesSlot after m = d.overridesSlot u m := by
  rw [overridesSlot, overridesSlot, ha.slotToken hu (Nat.le_refl _) hle hm, ha.name hm,
    ha.signature hm]

include hbase

theorem inheritsAbstract_agree : d.inheritsAbstract after = d.inheritsAbstract u := by
  rw [inheritsAbstract, inheritsAbstract, baseType?_agree hd ha]
  cases hb : d.baseType? u with
  | none => rw [Option.any_none, Option.any_none]
  | some base =>
    have hclass := hbase base (baseType?_eq_some hb).1
    have hlt := hd.base base (baseType?_eq_some hb).1
    rw [Option.any_some, Option.any_some, ha.hierarchy hu (Nat.le_refl _) hle hlt]
    rw [Bool.eq_iff_iff, List.any_eq_true, List.any_eq_true]
    refine exists_congr fun level => and_congr_right fun hlevel => ?_
    have hlevelLt : level.index < u.types.size :=
      Nat.lt_of_le_of_lt (hu.index_le_of_mem_hierarchy hlevel) hlt
    rw [ha.methodsOf hlevelLt, List.any_eq_true, List.any_eq_true]
    refine exists_congr fun m => and_congr_right fun hm => ?_
    have howner := u.owner_of_mem_methodsOf hm
    have hmLt : m.owner.index < u.types.size := howner ▸ hlevelLt
    have hresolved :=
      hu.owner_of_resolveVirtual hclass (howner ▸ hlevel : m.owner ∈ u.hierarchy base)
    rw [ha.isAbstract hmLt, ha.resolveVirtual hu (Nat.le_refl _) hle hlt hclass (howner ▸ hlevel),
      ha.isAbstract (Nat.lt_of_le_of_lt hresolved hlt),
      overridesSlot_agree hu ha hle hmLt]

include hu'

theorem implementsMethod_agree (hm : m.owner.index < u.types.size) :
    d.implementsMethod after m = d.implementsMethod u m := by
  rw [implementsMethod, implementsMethod, ha.token hm, ha.name hm, ha.signature hm,
    baseType?_agree hd ha]
  congr 1
  cases hb : d.baseType? u with
  | none => rw [Option.bind_none, Option.bind_none, Option.any_none, Option.any_none]
  | some base =>
    have hclass := hbase base (baseType?_eq_some hb).1
    have hlt := hd.base base (baseType?_eq_some hb).1
    rw [Option.bind_some, Option.bind_some,
      ha.resolveInterfaceMethod hu hu' (Nat.le_refl _) hle hlt hclass hm]
    cases hk : u.resolveInterfaceMethod base m with
    | none => rw [Option.any_none, Option.any_none]
    | some k =>
      have hkLe := hu.owner_of_resolveInterfaceMethod hclass hk
      rw [Option.any_some, Option.any_some, ha.isAbstract (show k.owner.index < u.types.size by
        omega)]

theorem lacks_agree (hi : i.index < u.types.size) :
    ((after.methodsOf i).any fun m => !(after.method m).isStatic && !d.implementsMethod after m)
      = (u.methodsOf i).any fun m => !(u.method m).isStatic && !d.implementsMethod u m := by
  rw [ha.methodsOf hi, Bool.eq_iff_iff, List.any_eq_true, List.any_eq_true]
  refine exists_congr fun m => and_congr_right fun hm => ?_
  have hlt : m.owner.index < u.types.size := (u.owner_of_mem_methodsOf hm).symm ▸ hi
  rw [ha.isStatic hlt, implementsMethod_agree hd hu hu' ha hle hbase hlt]

theorem owesInterface_agree : d.owesInterface after = d.owesInterface u := by
  rw [owesInterface, owesInterface, interfaceTypes_agree hd ha, Bool.eq_iff_iff, List.any_eq_true,
    List.any_eq_true]
  refine exists_congr fun listed => and_congr_right fun hlisted => ?_
  have hlt := (hd.interfaces listed (mem_interfaceTypes.mp hlisted).1).1
  rw [List.any_eq_true, List.any_eq_true]
  refine exists_congr fun i => ?_
  rw [hu'.mem_interfaceClosure_iff, hu.mem_interfaceClosure_iff, ha.reaches hu hlt]
  refine and_congr_right fun hreaches => ?_
  rw [lacks_agree hd hu hu' ha hle hbase (Nat.lt_of_le_of_lt (hu.le_of_reaches hreaches) hlt)]

/-- Whether a descriptor is abstract as it stands does not depend on types that come later. -/
theorem computeAbstract_agree : d.computeAbstract after = d.computeAbstract u := by
  rw [computeAbstract, computeAbstract, inheritsAbstract_agree hd hu ha hle hbase,
    owesInterface_agree hd hu hu' ha hle hbase]

end Later

end Descriptor

/-- Nor does whether the interfaces of its batch are owed something. -/
theorem Batch.owesDrafts_agree {u after : Universe} {b : Batch} {d : Descriptor} (hb : b.Sound u)
    (hd : d.Sound u) (hu : u.WellFormed) (hu' : after.WellFormed)
    (ha : Universe.Agree u.types.size u after) (hle : u.types.size ≤ after.types.size) (hbase : ∀ t,
        d.base = some (.ofClass t) → (u.record t).isInterface = false) :
        b.owesDrafts after d = b.owesDrafts u d := by
  rw [owesDrafts, owesDrafts, Bool.eq_iff_iff, List.any_eq_true, List.any_eq_true]
  refine exists_congr fun h => and_congr_right fun _ => ?_
  cases hdi : b.find? h with
  | none => rw [Option.any_none, Option.any_none]
  | some di =>
    have hdiSound := hb.sound h.index di hdi
    rw [Option.any_some, Option.any_some, owesInterface, owesInterface,
      Descriptor.interfaceTypes_agree hdiSound ha, Bool.or_eq_true,
      Bool.or_eq_true, List.any_eq_true, List.any_eq_true]
    refine or_congr_right (exists_congr fun i => and_congr_right fun hi => ?_)
    rw [Descriptor.lacks_agree hd hu hu' ha hle hbase
      (hdiSound.interfaces i (Descriptor.mem_interfaceTypes.mp hi).1).1]

end TypeLoom
