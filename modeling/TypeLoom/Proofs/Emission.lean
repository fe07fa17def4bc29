import TypeLoom.Proofs.Generating
import TypeLoom.Proofs.Slots

/-!
# Slots of emitted types

An emitted type has the methods of its descriptor at their places, and overrides for those that were
made for a base method. From this it follows which slots its methods are in, and which body the type
gives to the slot of a base method: that of the method registered for the slot, if that method is in
the slot at all.
-/

namespace TypeLoom

open Universe MethodSignature

/-- A type that came out of a descriptor. -/
structure Emission (u after : Universe) (l : Layout) (objectType : TypeId) (d : Descriptor)
    (t : TypeId) : Prop where
  before : u.WellFormed
  wellFormed : after.WellFormed
  agree : Agree u.types.size u after
  size : u.types.size ≤ after.types.size
  start : l.start = u.types.size
  fresh : u.types.size ≤ t.index
  sound : d.Sound u
  interface : (after.record t).isInterface = d.isInterface
  present : after.isPresent t = true
  base : (after.record t).base = d.emittedBase l objectType
  methods : (after.outline t).methods.map (fun m => (m.name, m.flags, m.signature))
    = d.methods.toList.map (·.emitted l)
  overrides : (after.record t).overrides.toList = d.emittedOverrides t

namespace Emission

variable {u after : Universe} {l : Layout} {objectType t : TypeId} {d : Descriptor}
  {own : DraftMethod}

/-! ### Methods of the emitted type -/

def become (t : TypeId) (own : DraftMethod) : MethodId := ⟨t, own.handle.slot⟩

theorem slot_of_getElem? (he : Emission u after l objectType d t) {i : Nat}
    (hi : d.methods[i]? = some own) :
    become t own = ⟨t, .method i⟩ := by
  rw [become, he.sound.handles i own hi]

theorem head_become (he : Emission u after l objectType d t) (hown : own ∈ d.methods) :
    (after.method? (become t own)).isSome
      ∧ (after.method (become t own)).name = own.name
      ∧ (after.method (become t own)).flags = own.flags
      ∧ (after.method (become t own)).signature = own.signature.placed l := by
  obtain ⟨i, hi⟩ := Array.mem_iff_getElem?.mp hown
  have hplace := congrArg (fun methods : List (String × UInt32 × MethodSignature) =>
    methods[i]?) he.methods
  simp only [List.getElem?_map, Array.getElem?_toList, hi, Option.map_some] at hplace
  obtain ⟨m, hm, hparts⟩ := Option.map_eq_some_iff.mp hplace
  have houtline : (after.outline t).method? (.method i) = some m := hm
  rw [he.slot_of_getElem? hi]
  refine ⟨by rw [isSome_method?]; exact Option.isSome_of_eq_some houtline, ?_⟩
  have hhead : after.head ⟨t, .method i⟩ = m := by rw [head_eq, houtline, Option.getD_some]
  simp only [DraftMethod.emitted, Prod.mk.injEq] at hparts
  refine ⟨?_, ?_, ?_⟩
  · rw [← hparts.1, ← hhead]
    rfl
  · rw [← hparts.2.1, ← hhead]
    rfl
  · rw [← hparts.2.2, ← hhead]
    rfl

theorem isVirtual_become (he : Emission u after l objectType d t) (hown : own ∈ d.methods) :
    (after.method (become t own)).isVirtual = own.isVirtual := by
  rw [MethodRecord.isVirtual, (he.head_become hown).2.2.1]
  rfl

theorem isNewSlot_become (he : Emission u after l objectType d t) (hown : own ∈ d.methods) :
    (after.method (become t own)).isNewSlot = own.isNewSlot := by
  rw [MethodRecord.isNewSlot, (he.head_become hown).2.2.1]
  rfl

theorem mem_methodsOf_iff (he : Emission u after l objectType d t) (k : MethodId) :
    k ∈ after.methodsOf t ↔ ∃ own ∈ d.methods, k = become t own := by
  have hlength : (after.outline t).methods.length = d.methods.size := by
    have := congrArg List.length he.methods
    simpa using this
  rw [methodsOf_eq, hlength, List.mem_map]
  constructor
  · rintro ⟨i, hi, rfl⟩
    have hget := Array.getElem?_eq_getElem (List.mem_range.mp hi)
    exact ⟨_, Array.mem_of_getElem? hget, (he.slot_of_getElem? hget).symm⟩
  · rintro ⟨own, hown, rfl⟩
    obtain ⟨i, hi⟩ := Array.mem_iff_getElem?.mp hown
    exact ⟨i, List.mem_range.mpr (Array.getElem?_eq_some_iff.mp hi).1,
      (he.slot_of_getElem? hi).symm⟩

theorem become_inj (he : Emission u after l objectType d t) {own' : DraftMethod}
    (hown : own ∈ d.methods) (hown' : own' ∈ d.methods) (h : become t own = become t own') :
    own = own' := by
  obtain ⟨i, hi⟩ := Array.mem_iff_getElem?.mp hown
  obtain ⟨j, hj⟩ := Array.mem_iff_getElem?.mp hown'
  rw [he.slot_of_getElem? hi, he.slot_of_getElem? hj] at h
  cases h
  exact Option.some.inj (hi.symm.trans hj)

/-! ### What the methods override -/

theorem mem_overrides_iff (he : Emission u after l objectType d t) (v : Override) :
    v ∈ (after.record t).overrides ↔
      ∃ own ∈ d.methods, v.body = become t own
        ∧ v.declaration ∈ own.baseMethod.toList ++ own.explicitOverrides.toList := by
  rw [← Array.mem_toList_iff, he.overrides, Descriptor.emittedOverrides, List.mem_flatMap]
  constructor
  · rintro ⟨own, hown, hv⟩
    obtain ⟨declaration, hdecl, rfl⟩ := List.mem_map.mp hv
    exact ⟨own, Array.mem_toList_iff.mp hown, rfl, hdecl⟩
  · rintro ⟨own, hown, hbody, hdecl⟩
    refine ⟨own, Array.mem_toList_iff.mpr hown, List.mem_map.mpr ⟨v.declaration, hdecl, ?_⟩⟩
    cases v
    exact congrArg (Override.mk _) hbody.symm

theorem base_of_ofClass (he : Emission u after l objectType d t) {base : TypeId}
    (hbase : d.base = some (.ofClass base)) :
    (after.record t).base = some base ∧ (u.record base).isInterface = false := by
  have hemitted : (after.record t).base = some base := by
    rw [he.base, Descriptor.emittedBase, hbase]
    rfl
  refine ⟨hemitted, ?_⟩
  rw [← he.agree.isInterface (he.sound.base base hbase)]
  exact he.wellFormed.base_class hemitted

/-! ### The methods that they take over -/

/-- The virtual method that a base gives to a name and a signature. -/
def nearest? (u : Universe) (base : TypeId) (own : DraftMethod) : Option MethodId :=
  (u.hierarchy base).findSome? fun level => u.findVirtual? level own.name own.signature

theorem mem_of_nearest? {base : TypeId} {b : MethodId} (hb : nearest? u base own = some b) :
    b.owner ∈ u.hierarchy base ∧ (u.method? b).isSome ∧ (u.method b).name = own.name
      ∧ (u.method b).signature.agrees own.signature := by
  obtain ⟨level, hlevel, hfound⟩ := List.exists_of_findSome?_eq_some hb
  obtain ⟨hmem, -, hname, hsignature⟩ := mem_of_findVirtual? hfound
  exact ⟨u.owner_of_mem_methodsOf hmem ▸ hlevel, u.isSome_of_mem_methodsOf hmem, hname, hsignature⟩

theorem baseMethod_cases (he : Emission u after l objectType d t) (hown : own ∈ d.methods)
    (hreplaces : own.Replaces) (declaration : MethodId) :
    declaration ∈ own.baseMethod.toList ++ own.explicitOverrides.toList ↔
        own.baseMethod = some declaration := by
  -- A method with explicit declarations has a slot of its own.
  have hexplicit : own.explicitOverrides.toList = [] := by
    rw [List.eq_nil_iff_forall_not_mem]
    intro i hi
    have hnew := (he.sound.implements own hown i (Array.mem_toList_iff.mp hi)).1
    rw [hreplaces.2] at hnew
    cases hnew
  rw [hexplicit, List.append_nil, Option.mem_toList]

theorem declaration_of_token (he : Emission u after l objectType d t)
    (htokens : after.DistinctTokens) (hown : own ∈ d.methods) (hreplaces : own.Replaces)
    {v : Override} (hv : v ∈ (after.record t).overrides) (htoken : (after.method v.body).token
      = (after.method (become t own)).token) :
    own.baseMethod = some v.declaration := by
  obtain ⟨own', hown', hbody, hdecl⟩ := (he.mem_overrides_iff v).mp hv
  rw [hbody] at htoken
  have hsame := htokens _ _ (he.head_become hown').1 (he.head_become hown).1 htoken
  obtain rfl := he.become_inj hown' hown hsame
  exact (he.baseMethod_cases hown hreplaces v.declaration).mp hdecl

theorem overriddenBy?_eq (he : Emission u after l objectType d t) (hown : own ∈ d.methods)
    (hreplaces : own.Replaces) :
    after.overriddenBy? (become t own)
      = (after.explicitDeclaration? t (become t own)).or
      (after.implicitDeclaration? t (become t own)) := by
  have howner : after.methodOwner? (become t own) = some t := by
    rw [methodOwner?_eq]
    exact if_pos he.present
  unfold Universe.overriddenBy?
  rw [he.isVirtual_become hown, he.isNewSlot_become hown, hreplaces.1, hreplaces.2, howner]
  rfl

theorem overriddenBy?_of_base (he : Emission u after l objectType d t)
    (htokens : after.DistinctTokens) (hown : own ∈ d.methods) {b : MethodId}
    (hb : own.baseMethod = some b) :
    after.overriddenBy? (become t own) = some b := by
  have hstands := he.sound.standsIn own hown b hb
  have hlt := u.lt_of_isSome_method? b hstands.exists'
  have hdeclared : (⟨b, become t own⟩ : Override) ∈ (after.record t).overrides :=
    (he.mem_overrides_iff _).mpr ⟨own, hown, rfl,
      (he.baseMethod_cases hown hstands.replaces b).mpr hb⟩
  have howner : after.methodOwner? b = some b.owner := by
    rw [he.agree.methodOwner? hlt, methodOwner?_eq]
    exact if_pos hstands.present
  have hexplicit : after.explicitDeclaration? t (become t own) = some b := by
    unfold Universe.explicitDeclaration?
    cases hfind : (after.record t).overrides.find? fun v =>
        (after.method v.body).token == (after.method (become t own)).token with
    | none => exact absurd (Array.find?_eq_none.mp hfind _ hdeclared) (by simp)
    | some v =>
      have htoken : (after.method v.body).token = (after.method (become t own)).token := by
        simpa using Array.find?_some hfind
      have hown' := he.declaration_of_token htokens hown hstands.replaces
        (Array.mem_of_find?_eq_some hfind) htoken
      obtain rfl : b = v.declaration := Option.some.inj (hb.symm.trans hown')
      rw [Option.bind_some, howner]
      simp only [he.agree.isInterface hlt, hstands.isClass, Bool.false_eq_true, if_false]
  rw [he.overriddenBy?_eq hown hstands.replaces, hexplicit, Option.some_or]

theorem findVirtual?_placed (he : Emission u after l objectType d t) (hown : own ∈ d.methods)
    (level : TypeId) :
    u.findVirtual? level own.name (own.signature.placed l)
    = u.findVirtual? level own.name own.signature := by
  have hknown : own.signature.Known l.start := by
    rw [he.start]
    exact he.sound.methodsKnown own hown
  have hmatch : ∀ m ∈ u.methodsOf level, ((u.method m).signature.agrees (own.signature.placed l))
      = (u.method m).signature.agrees own.signature := by
    intro m hm
    have hsettled := he.before.signature_settled (u.isSome_of_mem_methodsOf hm)
    have hplaced : (u.method m).signature.placed l = (u.method m).signature :=
      placed_of_settled hsettled
    have hiff := agrees_placed (by rw [he.start]; exact hsettled.known) hknown
    rw [hplaced] at hiff
    exact Bool.eq_iff_iff.mpr hiff
  have hfind : u.findMethod? level own.name (own.signature.placed l)
      = u.findMethod? level own.name own.signature := by
    rw [findMethod?, findMethod?]
    refine List.find?_congr fun m hm => ?_
    rw [hmatch m hm]
  rw [findVirtual?, findVirtual?, hfind]

/-- A method that was made for no base method overrides the nearest one of its name and
signature. -/
theorem overriddenBy?_of_nearest (he : Emission u after l objectType d t)
    (htokens : after.DistinctTokens) {base : TypeId} (hbase : d.base = some (.ofClass base))
    (hown : own ∈ d.methods) (hreplaces : own.Replaces) (hnone : own.baseMethod = none) :
        after.overriddenBy? (become t own) = nearest? u base own := by
  have hlt := he.sound.base base hbase
  have hexplicit : after.explicitDeclaration? t (become t own) = none := by
    unfold Universe.explicitDeclaration?
    cases hfind : (after.record t).overrides.find? fun v =>
        (after.method v.body).token == (after.method (become t own)).token with
    | none => rfl
    | some v =>
      have htoken : (after.method v.body).token = (after.method (become t own)).token := by
        simpa using Array.find?_some hfind
      have hown' :=
        he.declaration_of_token htokens hown hreplaces (Array.mem_of_find?_eq_some hfind) htoken
      rw [hnone] at hown'
      cases hown'
  obtain ⟨-, hname, -, hsignature⟩ := he.head_become hown
  have hbases : after.bases t = u.hierarchy base := by
    have hemitted := (he.base_of_ofClass hbase).1
    rw [he.wellFormed.bases_eq, hemitted]
    exact he.agree.hierarchy he.before (Nat.le_refl _) he.size hlt
  rw [he.overriddenBy?_eq hown hreplaces, hexplicit, Option.none_or,
    implicitDeclaration?, hbases, hname,
    hsignature, nearest?]
  refine findSome?_congr fun level hlevel => ?_
  have hle := he.before.index_le_of_mem_hierarchy hlevel
  rw [he.agree.findVirtual? (by omega), he.findVirtual?_placed hown]

/-- The base method whose slot a method of the descriptor takes over. -/
def takenOver? (u : Universe) (base : TypeId) (own : DraftMethod) : Option MethodId :=
  own.baseMethod.or (nearest? u base own)

theorem overriddenBy?_of_replaces (he : Emission u after l objectType d t)
    (htokens : after.DistinctTokens) {base : TypeId} (hbase : d.base = some (.ofClass base))
    (hown : own ∈ d.methods) (hreplaces : own.Replaces) :
    after.overriddenBy? (become t own) = takenOver? u base own := by
  unfold takenOver?
  cases hb : own.baseMethod with
  | some b => rw [he.overriddenBy?_of_base htokens hown hb, Option.some_or]
  | none => rw [he.overriddenBy?_of_nearest htokens hbase hown hreplaces hb, Option.none_or]

/-! ### The slots that they are in -/

/-- A method takes over the slot of a base method. -/
def Fills (u : Universe) (base : TypeId) (own : DraftMethod) (m : MethodId) : Prop :=
  (takenOver? u base own).map u.slotToken = some (u.slotToken m)

instance (u : Universe) (base : TypeId) (own : DraftMethod) (m : MethodId) :
    Decidable (Fills u base own m) :=
  inferInstanceAs (Decidable (_ = _))

theorem fills_iff {base : TypeId} {m : MethodId} :
    Fills u base own m ↔ ∃ b, takenOver? u base own = some b ∧ u.slotToken b = u.slotToken m := by
  rw [Fills, Option.map_eq_some_iff]

/-- What is taken over exists, belongs to a class and has the name and the signature of the
method. -/
theorem takenOver?_matches (he : Emission u after l objectType d t) {base : TypeId}
    (hbase : d.base = some (.ofClass base)) (hown : own ∈ d.methods) {b : MethodId}
    (hb : takenOver? u base own = some b) :
    (u.method? b).isSome ∧ (u.record b.owner).isInterface = false ∧ (u.method b).name = own.name
      ∧ (u.method b).signature.agrees own.signature := by
  rcases Option.or_eq_some_iff.mp hb with hmade | ⟨-, hnearest⟩
  · have hstands := he.sound.standsIn own hown b hmade
    rw [hstands.name, hstands.signature]
    exact ⟨hstands.exists', hstands.isClass, rfl, agrees_refl _⟩
  · obtain ⟨hlevel, hexists, hname, hsignature⟩ := mem_of_nearest? hnearest
    have hclass := (he.base_of_ofClass hbase).2
    exact ⟨hexists, he.before.class_of_mem_hierarchy hclass hlevel, hname, hsignature⟩

theorem slotToken_become (he : Emission u after l objectType d t) (htokens : after.DistinctTokens)
    {base : TypeId} (hbase : d.base = some (.ofClass base)) (hown : own ∈ d.methods)
    (hreplaces : own.Replaces) {b : MethodId} (hb : takenOver? u base own = some b) :
        after.slotToken (become t own) = u.slotToken b := by
  have hover := he.overriddenBy?_of_replaces htokens hbase hown hreplaces
  rw [hb] at hover
  have hlt := u.lt_of_isSome_method? b (he.takenOver?_matches hbase hown hb).1
  rw [he.wellFormed.slotToken_eq hover, he.agree.slotToken he.before (Nat.le_refl _) he.size hlt]

theorem distinctTokens_before (he : Emission u after l objectType d t)
    (htokens : after.DistinctTokens) :
    u.DistinctTokens := he.agree.distinctTokens htokens

section Slot

variable {base : TypeId} {m : MethodId} (he : Emission u after l objectType d t)
  (htokens : after.DistinctTokens)
  (hbase : d.base = some (.ofClass base)) (hm : (u.method? m).isSome)
  (hclass : (u.record m.owner).isInterface = false)
include he htokens hm hclass

theorem slotToken_ne_of_root (hown : own ∈ d.methods)
    (hroot : after.overriddenBy? (become t own) = none) :
    after.slotToken (become t own) ≠ u.slotToken m := by
  intro htoken
  have hself : after.slotRoot (become t own) = become t own := by
    rw [he.wellFormed.slotRoot_eq, hroot]
  have hle := he.before.slotRoot_le m
  have hlt := u.lt_of_isSome_method? m hm
  have hrootLt : (u.slotRoot m).owner.index < u.types.size := by omega
  rw [Universe.slotToken, hself, Universe.slotToken, ← he.agree.token hrootLt] at htoken
  have hsome : (after.method? (u.slotRoot m)).isSome := by
    rw [he.agree.isSome_method? hrootLt]
    exact (he.before.slotRoot_exists hm hclass).1
  have hsame := htokens _ _ (he.head_become hown).1 hsome htoken
  have hfresh := he.fresh
  rw [← hsame] at hrootLt
  exact absurd hrootLt (Nat.not_lt.mpr hfresh)

/-- An override of the slot of a base method belongs to a method that was made for one of the
slot. -/
theorem filler_of_declaration (base : TypeId) {v : Override} (hv : v ∈ (after.record t).overrides)
    (hslot : after.slotToken v.declaration = u.slotToken m) :
    ∃ own ∈ d.methods, v.body = become t own ∧ own.baseMethod = some v.declaration
        ∧ Fills u base own m := by
  obtain ⟨own, hown, hbody, hdecl⟩ := (he.mem_overrides_iff v).mp hv
  have hu := he.before
  rcases List.mem_append.mp hdecl with hmade | hexplicit
  · have hb := Option.mem_toList.mp hmade
    have hlt := u.lt_of_isSome_method? _ (he.sound.standsIn own hown _ hb).exists'
    rw [he.agree.slotToken hu (Nat.le_refl _) he.size hlt] at hslot
    refine ⟨own, hown, hbody, hb, fills_iff.mpr ⟨v.declaration, ?_, hslot⟩⟩
    rw [takenOver?, hb, Option.some_or]
  · -- The slot of an interface method holds that method only.
    obtain ⟨-, hexists, hinterface⟩ :=
      he.sound.implements own hown _ (Array.mem_toList_iff.mp hexplicit)
    have hlt := u.lt_of_isSome_method? _ hexists
    rw [he.agree.slotToken hu (Nat.le_refl _) he.size hlt, Universe.slotToken, Universe.slotToken,
      hu.slotRoot_of_interface hinterface] at hslot
    obtain ⟨hroot, hrootClass⟩ := hu.slotRoot_exists hm hclass
    have hsame := he.distinctTokens_before htokens _ _ hexists hroot hslot
    rw [← hsame, hinterface] at hrootClass
    cases hrootClass

/-- A method of the descriptor that an override of the slot of a base method names is the
registered one. -/
theorem registered_of_declaration (base : TypeId) {row : MethodHandle}
    (hrow : d.overrides.find? (u.slotToken m) = some row) {v : Override}
    (hv : v ∈ (after.record t).overrides) (hslot : after.slotToken v.declaration = u.slotToken m) :
    ∃ own ∈ d.methods, v.body = become t own ∧ own.handle = row ∧ Fills u base own m := by
  obtain ⟨own, hown, hbody, hb, hfills⟩ := he.filler_of_declaration htokens hm hclass base hv hslot
  have hstands := he.sound.standsIn own hown _ hb
  have hlt := u.lt_of_isSome_method? _ hstands.exists'
  have hkept := hstands.row
  rw [← he.agree.slotToken he.before (Nat.le_refl _) he.size hlt, hslot, hrow] at hkept
  exact ⟨own, hown, hbody, (Option.some.inj hkept).symm, hfills⟩

include hbase

/-- A virtual method of the descriptor in the slot of a base method replaces the methods of the
slot. -/
theorem filler_of_slot (hown : own ∈ d.methods) (hvirtual : own.isVirtual = true)
    (hslot : after.slotToken (become t own) = u.slotToken m) :
    own.Replaces ∧ Fills u base own m := by
  have hreplaces : own.Replaces := by
    refine ⟨hvirtual, ?_⟩
    by_contra hnew
    refine he.slotToken_ne_of_root htokens hm hclass hown ?_ hslot
    have hnewSlot := (he.isNewSlot_become hown).trans (by simpa using hnew)
    unfold Universe.overriddenBy?
    rw [hnewSlot, Bool.or_true, if_pos rfl]
  refine ⟨hreplaces, ?_⟩
  cases htaken : takenOver? u base own with
  | none =>
    refine absurd hslot (he.slotToken_ne_of_root htokens hm hclass hown ?_)
    rw [he.overriddenBy?_of_replaces htokens hbase hown hreplaces, htaken]
  | some b =>
    rw [he.slotToken_become htokens hbase hown hreplaces htaken] at hslot
    exact fills_iff.mpr ⟨b, htaken, hslot⟩

/-- A virtual method of the descriptor in the slot of a base method is the registered one. -/
theorem registered_of_slot {row : MethodHandle}
    (hrow : d.overrides.find? (u.slotToken m) = some row) (hown : own ∈ d.methods)
    (hvirtual : own.isVirtual = true) (hslot : after.slotToken (become t own) = u.slotToken m) :
        own.handle = row ∧ Fills u base own m := by
  obtain ⟨hreplaces, hfills⟩ := he.filler_of_slot htokens hbase hm hclass hown hvirtual hslot
  refine ⟨?_, hfills⟩
  obtain ⟨b, htaken, hslot⟩ := fills_iff.mp hfills
  obtain ⟨hb, hbClass, hname, hsignature⟩ := he.takenOver?_matches hbase hown htaken
  have hu := he.before
  have hdistinct := he.distinctTokens_before htokens
  -- The registered method has the name and the signature of the slot as well, and there is one such
  -- method.
  obtain ⟨registered, b', hmem, rfl, hslot', hb', hbClass', htakes⟩ := he.sound.rows _ _ hrow
  obtain ⟨hreplaces', hname', hsignature'⟩ := (DraftMethod.takesSlot_iff _ _ _).mp htakes
  obtain ⟨hsameName, hsameSignature⟩ := hu.matches_of_slotToken_eq hdistinct hb hb' hbClass hbClass'
    (hslot.trans hslot'.symm)
  obtain ⟨i, hi⟩ := Array.mem_iff_getElem?.mp hown
  obtain ⟨j, hj⟩ := Array.mem_iff_getElem?.mp hmem
  have hij := he.sound.unique i j own registered hi hj hreplaces hreplaces'
    (hname.symm.trans (hsameName.trans hname'.symm))
    (agrees_trans (agrees_symm hsignature) (agrees_trans hsameSignature (agrees_symm hsignature')))
  rw [← hij, hi] at hj
  rw [Option.some.inj hj]

/-! ### The body that the type gives to a slot -/

theorem slotBody?_eq {row : MethodHandle} (hrow : d.overrides.find? (u.slotToken m) = some row)
    (hown : own ∈ d.methods) (hhandle : own.handle = row) :
    after.slotBody? t (u.slotToken m) = if Fills u base own m then some (become t own)
        else none := by
  have honly : ∀ other ∈ d.methods, other.handle = row → other = own := fun other hother h =>
    he.become_inj hother hown (by rw [become, become, h, hhandle])
  have hbody : ∀ k, after.slotBody? t (u.slotToken m) = some k → k = become t own
      ∧ Fills u base own m := by
    intro k hk
    rcases slotBody?_eq_some hk with ⟨v, hv, hslot, rfl⟩ | ⟨hmem, hvirtual, hslot⟩
    · obtain ⟨other, hother, hbody, hreg, hfills⟩ :=
        he.registered_of_declaration htokens hm hclass base hrow hv
        hslot
      obtain rfl := honly other hother hreg
      exact ⟨hbody, hfills⟩
    · obtain ⟨other, hother, rfl⟩ := (he.mem_methodsOf_iff k).mp hmem
      rw [he.isVirtual_become hother] at hvirtual
      obtain ⟨hreg, hfills⟩ := he.registered_of_slot htokens hbase hm hclass hrow
        hother hvirtual hslot
      obtain rfl := honly other hother hreg
      exact ⟨rfl, hfills⟩
  by_cases hfills : Fills u base own m
  · rw [if_pos hfills]
    obtain ⟨b, htaken, hslot⟩ := fills_iff.mp hfills
    obtain ⟨registered, _, hmem, hreg, -, -, -, htakes⟩ := he.sound.rows _ _ hrow
    obtain rfl := honly registered hmem hreg.symm
    have hreplaces := ((DraftMethod.takesSlot_iff _ _ _).mp htakes).1
    have hin : after.slotToken (become t registered) = u.slotToken m :=
      (he.slotToken_become htokens hbase hmem hreplaces htaken).trans hslot
    cases hk : after.slotBody? t (u.slotToken m) with
    | some k => rw [(hbody k hk).1]
    | none =>
      have hfree := (slotBody?_eq_none.mp hk).2 (become t registered)
        ((he.mem_methodsOf_iff _).mpr ⟨registered, hmem, rfl⟩)
        ((he.isVirtual_become hmem).trans hreplaces.1)
      exact absurd hin hfree
  · rw [if_neg hfills, Option.eq_none_iff_forall_ne_some]
    exact fun k hk => hfills (hbody k hk).2

/-- A call of a base method with a registered override runs the override if that one takes over
the slot of the method, and otherwise what it runs on the base. -/
theorem resolveVirtual_eq {row : MethodHandle} (hrow : d.overrides.find? (u.slotToken m) = some row)
    (hown : own ∈ d.methods) (hhandle : own.handle = row)
    (hvirtual : (u.method m).isVirtual = true) :
    after.resolveVirtual t m = if Fills u base own m then become t own
        else u.resolveVirtual base m := by
  have hlt := u.lt_of_isSome_method? m hm
  have hbaseLt := he.sound.base base hbase
  have hslot := he.agree.slotToken he.before (Nat.le_refl _) he.size hlt
  have hemitted := (he.base_of_ofClass hbase).1
  rw [resolveVirtual_of_class (by rw [he.agree.isInterface hlt]; exact hclass)
      (by rw [he.agree.isVirtual hlt]; exact hvirtual), resolveVirtual_of_class hclass hvirtual,
    he.wellFormed.resolveSlot_of_base hemitted, hslot,
      he.slotBody?_eq htokens hbase hm hclass hrow hown hhandle,
    he.agree.resolveSlot he.before (Nat.le_refl _) he.size hbaseLt hlt]
  split <;> rfl

theorem resolveVirtual_eq_iff {row : MethodHandle}
    (hrow : d.overrides.find? (u.slotToken m) = some row) (hown : own ∈ d.methods)
    (hhandle : own.handle = row) (hvirtual : (u.method m).isVirtual = true) :
    after.resolveVirtual t m = become t own ↔ Fills u base own m := by
  rw [he.resolveVirtual_eq htokens hbase hm hclass hrow hown hhandle hvirtual]
  split
  · rename_i hfills
    exact iff_of_true rfl hfills
  · rename_i hfills
    refine iff_of_false (fun hsame => ?_) hfills
    have hlt := u.lt_of_isSome_method? m hm
    have hbaseLt := he.sound.base base hbase
    have hfresh := he.fresh
    have howner : (u.resolveSlot base m).owner.index < u.types.size := by
      rcases he.before.owner_of_resolveSlot base m with hle | heq
      · omega
      · rw [heq]
        exact hlt
    rw [← resolveVirtual_of_class hclass hvirtual, hsame] at howner
    exact absurd howner (Nat.not_lt.mpr hfresh)

end Slot

end Emission

/-! ### Generated types -/

namespace Production

variable {ground p : Production} {l : Layout} {h : TypeHandle} {objectType : TypeId} {g : Generated}
  {d : Descriptor}

theorem Produced.emission (hp : Produced ground objectType l g p)
    (hspace : ground.workshop.space.Sound) (hbatch : ground.batch.Sound ground.program)
    (hd : ground.batch.find? h = some d) :
    Emission ground.program p.program l objectType d (l.place h) := by
  obtain ⟨u, -, -, -, hsketch⟩ := hp.outlines h d hd
  have hmem : h ∈ l.order := (hp.ordered.mem h).mpr (Array.getElem?_eq_some_iff.mp hd).1
  have hflags := congrArg Sketch.flags hsketch
  refine ⟨hspace.wellFormed, hp.intact.sound.wellFormed, hp.intact.agree,
    hp.intact.size, hp.start, ?_,
    hbatch.sound h.index d hd, ?_, ?_, ?_, ?_, ?_⟩
  · rw [← hp.start]
    exact l.start_le_place h
  · show hasBits (p.program.outline (l.place h)).flags TypeFlags.interface
      = hasBits d.flags TypeFlags.interface
    rw [show (p.program.outline (l.place h)).flags = _ from hflags]
    simp only [Descriptor.sketch]
    split
    · exact hasBits_set _ _ _ (by decide)
    · rfl
  · exact congrArg Sketch.present hsketch
  · exact congrArg Sketch.base hsketch
  · exact congrArg Sketch.methods hsketch
  · exact congrArg Sketch.overrides hsketch

end Production

end TypeLoom
