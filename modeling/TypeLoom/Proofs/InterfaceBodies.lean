import TypeLoom.Proofs.Implementing

/-!
# Interface methods on emitted types

Each virtual method of an emitted class answers for its own slot. An interface method runs what was
made for it on the class, or else the first public method of its name and signature, or else what
the base gives to it. What the base gives by name is dispatched on the class; what it gives by an
explicit override is not.
-/

namespace TypeLoom

open Universe MethodSignature

/-! ### What classes give to interface methods -/

namespace Universe

variable {u after : Universe} {size : Nat} {base level : TypeId}
  {m found : MethodId} {byName : Bool}

/-- What the nearest class gives to an interface method, and whether it was found by name. -/
def inheritedBody? (u : Universe) (base : TypeId) (m : MethodId) : Option (MethodId × Bool) :=
  (u.hierarchy base).findSome? fun level => u.interfaceBody? level m

theorem resolveInterfaceMethod_eq (u : Universe) (t : TypeId) (m : MethodId) :
    u.resolveInterfaceMethod t m = (u.inheritedBody? t m).map fun (found, byName) =>
      if !byName then found
      else if u.isInterfaceMethod found then (u.resolveInterfaceWithin u.methodCount t found).getD
        found
      else u.resolveSlot t found := rfl

/-- What a level gives to an interface method is a method of the level, made for it or public
with its name. -/
theorem WellFormed.interfaceBody?_cases (hu : u.WellFormed)
    (h : u.interfaceBody? level m = some (found, byName)) :
    found.owner = level ∧ (byName = true → (u.method? found).isSome
      ∧ (u.method found).name = (u.method m).name
      ∧ (u.method found).signature.agrees (u.method m).signature) := by
  unfold interfaceBody? at h
  rcases Option.or_eq_some_iff.mp h with hmade | ⟨-, hfound⟩
  · obtain ⟨v, hv, hpair⟩ := Option.map_eq_some_iff.mp hmade
    cases hpair
    exact ⟨((hu level).overrides v (Array.mem_toList_iff.mpr (Array.mem_of_find?_eq_some hv))).1,
      nofun⟩
  · obtain ⟨k, hk, hpair⟩ := Option.map_eq_some_iff.mp hfound
    cases hpair
    have hmem := List.mem_of_find?_eq_some hk
    have hmatches := List.find?_some hk
    simp only [Bool.and_eq_true, beq_iff_eq] at hmatches
    exact ⟨u.owner_of_mem_methodsOf hmem, fun _ =>
      ⟨u.isSome_of_mem_methodsOf hmem, hmatches.1.2, hmatches.2⟩⟩

theorem WellFormed.inheritedBody?_cases (hu : u.WellFormed)
    (h : u.inheritedBody? base m = some (found, byName)) :
    found.owner ∈ u.hierarchy base ∧ (byName = true → (u.method? found).isSome
      ∧ (u.method found).name = (u.method m).name
      ∧ (u.method found).signature.agrees (u.method m).signature) := by
  obtain ⟨level, hlevel, hbody⟩ := List.exists_of_findSome?_eq_some h
  obtain ⟨rfl, hnamed⟩ := hu.interfaceBody?_cases hbody
  exact ⟨hlevel, hnamed⟩

theorem Agree.interfaceBody? (ha : Agree size u after) (hu : u.WellFormed)
    (hlevel : level.index < size) (hm : m.owner.index < size) :
    after.interfaceBody? level m = u.interfaceBody? level m := by
  have hrow : ((u.record level).overrides.find? fun v => (after.method v.declaration).token
    == (after.method m).token)
      = (u.record level).overrides.find? fun v => (u.method v.declaration).token
      == (u.method m).token := by
    rw [← Array.find?_toList, ← Array.find?_toList]
    refine List.find?_congr fun v hv => ?_
    have hlt := ((hu level).overrides v hv).2.1
    rw [ha.token (show v.declaration.owner.index < size by omega), ha.token hm]
  have hown : ((u.methodsOf level).find? fun k =>
    (after.method k).isVirtual && (after.method k).access == .isPublic
        && (after.method k).name == (after.method m).name && (after.method k).signature.agrees
        (after.method m).signature)
      = (u.methodsOf level).find? fun k =>
        (u.method k).isVirtual && (u.method k).access == .isPublic
        && (u.method k).name == (u.method m).name && (u.method k).signature.agrees
        (u.method m).signature := by
    refine List.find?_congr fun k hk => ?_
    have hlt : k.owner.index < size := by
      rw [u.owner_of_mem_methodsOf hk]
      exact hlevel
    have haccess : (after.method k).access = (u.method k).access :=
      congrArg (fun o : MethodOutline => Access.ofBits o.flags) (ha.head hlt)
    rw [ha.isVirtual hlt, haccess, ha.name hlt, ha.name hm, ha.signature hlt, ha.signature hm]
  rw [Universe.interfaceBody?, Universe.interfaceBody?, ha.overrides hlevel,
    ha.methodsOf hlevel, hrow, hown]

theorem Agree.inheritedBody? (ha : Agree size u after) (hu : u.WellFormed)
    (hle : size ≤ u.types.size) (hle' : size ≤ after.types.size) (hbase : base.index < size)
    (hm : m.owner.index < size) : after.inheritedBody? base m = u.inheritedBody? base m := by
  rw [Universe.inheritedBody?, Universe.inheritedBody?, ha.hierarchy hu hle hle' hbase]
  refine findSome?_congr fun level hlevel => ?_
  have hlt := hu.index_le_of_mem_hierarchy hlevel
  exact ha.interfaceBody? hu (by omega) hm

theorem WellFormed.inheritedBody?_eq (hu : u.WellFormed) (t : TypeId) (m : MethodId) :
    u.inheritedBody? t m = (u.interfaceBody? t m).or ((u.record t).base.bind fun base =>
      u.inheritedBody? base m) := by
  rw [Universe.inheritedBody?, hu.hierarchy_eq t, List.findSome?_cons]
  cases u.interfaceBody? t m <;> cases (u.record t).base <;> rfl

theorem WellFormed.resolveInterfaceMethod_of_class (hu : u.WellFormed) {t : TypeId}
    (ht : (u.record t).isInterface = false) (m : MethodId) :
    u.resolveInterfaceMethod t m
      = (u.inheritedBody? t m).map fun (found, byName) => if byName then u.resolveSlot t found
      else found := by
  rw [resolveInterfaceMethod_eq]
  cases hfound : u.inheritedBody? t m with
  | none => rfl
  | some pair =>
    obtain ⟨found, byName⟩ := pair
    have hclass := hu.class_of_mem_hierarchy ht (hu.inheritedBody?_cases hfound).1
    simp only [Option.map_some, isInterfaceMethod_of_class hclass]
    cases byName <;> rfl

end Universe

namespace Emission

variable {u after : Universe} {l : Layout} {objectType t base : TypeId} {d : Descriptor}
  {own other : DraftMethod} {m found : MethodId}

/-! ### Methods answer for themselves -/

theorem methodsOf_eq_map (he : Emission u after l objectType d t) :
    after.methodsOf t = d.methods.toList.map (become t) := by
  have hlength : (after.outline t).methods.length = d.methods.size := by
    have := congrArg List.length he.methods
    simpa using this
  rw [methodsOf_eq, hlength]
  refine List.ext_getElem (by simp) fun i hi _ => ?_
  have hlt : i < d.methods.size := by simpa using hi
  rw [List.getElem_map, List.getElem_map, List.getElem_range, Array.getElem_toList]
  exact (he.slot_of_getElem? (Array.getElem?_eq_getElem hlt)).symm

section Class

variable (he : Emission u after l objectType d t) (htokens : after.DistinctTokens)
  (hclass : d.isInterface = false)
include he htokens hclass

/-- A method in a slot of its own shares it with no other method of the type. -/
theorem eq_of_root (hown : own ∈ d.methods) (hother : other ∈ d.methods)
    (hroot : after.overriddenBy? (become t own) = none)
    (hslot : after.slotToken (become t own) = after.slotToken (become t other)) : own = other := by
  have hinterface := he.interface.trans hclass
  have hroots : after.slotRoot (become t own) = after.slotRoot (become t other) :=
    htokens _ _ (he.wellFormed.slotRoot_exists (he.head_become hown).1 hinterface).1
      (he.wellFormed.slotRoot_exists (he.head_become hother).1 hinterface).1 hslot
  have hself : after.slotRoot (become t own) = become t own := by
    rw [he.wellFormed.slotRoot_eq, hroot]
  rw [hself] at hroots
  cases ho : after.overriddenBy? (become t other) with
  | none => exact he.become_inj hown hother (hroots.trans (by rw [he.wellFormed.slotRoot_eq, ho]))
  | some o =>
    have hle : become t own = after.slotRoot o :=
      hroots.trans (by rw [he.wellFormed.slotRoot_eq, ho])
    have hlt := Nat.lt_of_le_of_lt (he.wellFormed.slotRoot_le o) (he.wellFormed.overridden_lt ho)
    exact absurd (hle ▸ hlt) (Nat.lt_irrefl _)

theorem eq_of_slotToken_eq (hown : own ∈ d.methods) (hother : other ∈ d.methods)
    (hvirtual : own.isVirtual = true) (hvirtual' : other.isVirtual = true)
    (hslot : after.slotToken (become t own) = after.slotToken (become t other)) :
    own = other := by
  have hnewSlot : ∀ own ∈ d.methods, own.isNewSlot = true →
      after.overriddenBy? (become t own) = none := by
    intro own hown hnew
    unfold Universe.overriddenBy?
    rw [he.isNewSlot_become hown, hnew, Bool.or_true, if_pos rfl]
  by_cases hnew : own.isNewSlot = true
  · exact he.eq_of_root htokens hclass hown hother (hnewSlot own hown hnew) hslot
  by_cases hnew' : other.isNewSlot = true
  · exact (he.eq_of_root htokens hclass hother hown (hnewSlot other hother hnew') hslot.symm).symm
  -- Both replace inherited methods, and only one of a name and a signature does.
  have hinterface := he.interface.trans hclass
  obtain ⟨hexists, hname, -, hsignature⟩ := he.head_become hown
  obtain ⟨hexists', hname', -, hsignature'⟩ := he.head_become hother
  obtain ⟨hsameName, hsameSignature⟩ :=
    he.wellFormed.matches_of_slotToken_eq htokens hexists hexists' hinterface hinterface hslot
  rw [hname, hname'] at hsameName
  rw [hsignature, hsignature'] at hsameSignature
  have hknown : ∀ own ∈ d.methods, own.signature.Known l.start := fun own hown => by
    rw [he.start]
    exact he.sound.methodsKnown own hown
  obtain ⟨i, hi⟩ := Array.mem_iff_getElem?.mp hown
  obtain ⟨j, hj⟩ := Array.mem_iff_getElem?.mp hother
  have hij := he.sound.unique i j own other hi hj ⟨hvirtual, by simpa using hnew⟩ ⟨hvirtual', by
    simpa using hnew'⟩ hsameName
    ((agrees_placed (hknown own hown) (hknown other hother)).mp hsameSignature)
  rw [← hij, hi] at hj
  exact Option.some.inj hj

/-- The type gives the slot of each of its virtual methods that method. -/
theorem slotBody?_become (hown : own ∈ d.methods) (hvirtual : own.isVirtual = true) :
    after.slotBody? t (after.slotToken (become t own)) = some (become t own) := by
  have hbody : ∀ k, after.slotBody? t (after.slotToken (become t own)) = some k →
      k = become t own := by
    intro k hk
    rcases slotBody?_eq_some hk with ⟨v, hv, hslot, rfl⟩ | ⟨hmem, hkVirtual, hslot⟩
    · obtain ⟨other, hother, hbody, hdecl⟩ := (he.mem_overrides_iff v).mp hv
      rcases List.mem_append.mp hdecl with hmade | hexplicit
      · have hb := Option.mem_toList.mp hmade
        have hover := he.overriddenBy?_of_base htokens hother hb
        rw [← he.wellFormed.slotToken_eq hover] at hslot
        have hreplaces := (he.sound.standsIn other hother _ hb).replaces
        rw [hbody, he.eq_of_slotToken_eq htokens hclass hother hown hreplaces.1 hvirtual hslot]
      · -- The slot of an interface method holds that method only.
        obtain ⟨-, hexists, hinterface⟩ :=
          he.sound.implements other hother _ (Array.mem_toList_iff.mp hexplicit)
        have hlt := u.lt_of_isSome_method? _ hexists
        have hinterface' : (after.record v.declaration.owner).isInterface = true := by
          rw [he.agree.isInterface hlt]
          exact hinterface
        have hroot := he.wellFormed.slotRoot_exists (he.head_become hown).1
          (he.interface.trans hclass)
        rw [Universe.slotToken, he.wellFormed.slotRoot_of_interface hinterface',
          Universe.slotToken] at hslot
        have hsame := htokens _ _ (by rw [he.agree.isSome_method? hlt]; exact hexists) hroot.1 hslot
        rw [← hsame, hinterface'] at hroot
        cases hroot.2
    · obtain ⟨other, hother, rfl⟩ := (he.mem_methodsOf_iff k).mp hmem
      rw [he.isVirtual_become hother] at hkVirtual
      rw [he.eq_of_slotToken_eq htokens hclass hother hown hkVirtual hvirtual hslot]
  cases hk : after.slotBody? t (after.slotToken (become t own)) with
  | some k => rw [hbody k hk]
  | none =>
    have hfree :=
      (slotBody?_eq_none.mp hk).2 (become t own) ((he.mem_methodsOf_iff _).mpr ⟨own, hown, rfl⟩)
      ((he.isVirtual_become hown).trans hvirtual)
    exact absurd rfl hfree

theorem resolveSlot_become (hown : own ∈ d.methods) (hvirtual : own.isVirtual = true) :
    after.resolveSlot t (become t own) = become t own := by
  rw [resolveSlot_eq, he.wellFormed.hierarchy_eq t, List.findSome?_cons,
    he.slotBody?_become htokens hclass hown hvirtual,
    Option.getD_some]

/-- A base method runs the method that takes over its slot. -/
theorem resolveSlot_eq_become_iff (hbase : d.base = some (.ofClass base))
    (hm : (u.method? m).isSome) (hmClass : (u.record m.owner).isInterface = false)
    (hown : own ∈ d.methods) (hreplaces : own.Replaces) :
    after.resolveSlot t m = become t own ↔ Fills u base own m := by
  have hlt := u.lt_of_isSome_method? m hm
  have hslot := he.agree.slotToken he.before (Nat.le_refl _) he.size hlt
  have hemitted := (he.base_of_ofClass hbase).1
  have hold : ∀ k : MethodId, k.owner.index < u.types.size → k ≠ become t own := by
    rintro k hk rfl
    exact absurd hk (Nat.not_lt.mpr he.fresh)
  rw [he.wellFormed.resolveSlot_of_base hemitted, hslot]
  constructor
  · intro hresolved
    cases hk : after.slotBody? t (u.slotToken m) with
    | none =>
      rw [hk, Option.getD_none, he.agree.resolveSlot he.before (Nat.le_refl _) he.size
        (he.sound.base base hbase) hlt] at hresolved
      have hbaseLt := he.sound.base base hbase
      refine absurd hresolved (hold _ ?_)
      rcases he.before.owner_of_resolveSlot base m with hle | heq
      · omega
      · rw [heq]
        exact hlt
    | some k =>
      rw [hk, Option.getD_some] at hresolved
      subst hresolved
      rcases slotBody?_eq_some hk with ⟨v, hv, hvSlot, hvBody⟩ | ⟨hmem, hkVirtual, hkSlot⟩
      · obtain ⟨filler, hfiller, hbody, -, hfills⟩ :=
          he.filler_of_declaration htokens hm hmClass base hv hvSlot
        rwa [he.become_inj hown hfiller (hvBody.symm.trans hbody)]
      · rw [he.isVirtual_become hown] at hkVirtual
        exact (he.filler_of_slot htokens hbase hm hmClass hown hkVirtual hkSlot).2
  · intro hfills
    obtain ⟨b, htaken, hsame⟩ := fills_iff.mp hfills
    rw [← hsame, ← he.slotToken_become htokens hbase hown hreplaces htaken,
      he.slotBody?_become htokens hclass hown hreplaces.1,
      Option.getD_some]

end Class

/-! ### Bodies for interface methods -/

section InterfaceMethod

variable (he : Emission u after l objectType d t) (htokens : after.DistinctTokens)
  (hm : (u.method? m).isSome)
  (hinterface : (u.record m.owner).isInterface = true)
include he htokens hm hinterface

/-- An override of an interface method belongs to a method that was made for it. -/
theorem maker_of_declaration {v : Override} (hv : v ∈ (after.record t).overrides)
    (htoken : (after.method v.declaration).token = (after.method m).token) :
    ∃ own ∈ d.methods, v.body = become t own ∧ m ∈ own.explicitOverrides := by
  obtain ⟨own, hown, hbody, hdecl⟩ := (he.mem_overrides_iff v).mp hv
  have hsame : ∀ k, (u.method? k).isSome → k = v.declaration → k = m := by
    rintro k hk rfl
    rw [he.agree.token (u.lt_of_isSome_method? _ hk),
      he.agree.token (u.lt_of_isSome_method? m hm)] at htoken
    exact he.distinctTokens_before htokens _ _ hk hm htoken
  rcases List.mem_append.mp hdecl with hmade | hexplicit
  · have hstands := he.sound.standsIn own hown _ (Option.mem_toList.mp hmade)
    have hclassMethod := hstands.isClass
    rw [hsame _ hstands.exists' rfl, hinterface] at hclassMethod
    cases hclassMethod
  · obtain ⟨-, hexists, -⟩ := he.sound.implements own hown _ (Array.mem_toList_iff.mp hexplicit)
    exact ⟨own, hown, hbody, hsame _ hexists rfl ▸ Array.mem_toList_iff.mp hexplicit⟩

theorem interfaceBody?_of_made (hown : own ∈ d.methods) (hmade : m ∈ own.explicitOverrides)
    (honly : ∀ other ∈ d.methods, m ∈ other.explicitOverrides → other = own) :
    after.interfaceBody? t m = some (become t own, false) := by
  have hrow : (⟨m, become t own⟩ : Override) ∈ (after.record t).overrides :=
    (he.mem_overrides_iff _).mpr ⟨own, hown, rfl,
      List.mem_append_right _ (Array.mem_toList_iff.mpr hmade)⟩
  unfold interfaceBody?
  cases hfind : (after.record t).overrides.find? fun v => (after.method v.declaration).token
    == (after.method m).token with
  | none => exact absurd (Array.find?_eq_none.mp hfind _ hrow) (by simp)
  | some v =>
    obtain ⟨other, hother, hbody, hdecl⟩ :=
      he.maker_of_declaration htokens hm hinterface (Array.mem_of_find?_eq_some hfind)
      (by simpa using Array.find?_some hfind)
    rw [Option.map_some, Option.some_or, hbody, honly other hother hdecl]

/-- If nothing was made for an interface method, then the type gives it the first public method
of its name and signature. -/
theorem interfaceBody?_of_unmade (hnone : ∀ own ∈ d.methods, m ∉ own.explicitOverrides) :
    after.interfaceBody? t m = (d.methods.find? (·.matching (u.method m))).map fun own =>
    (become t own, true) := by
  have hlt := u.lt_of_isSome_method? m hm
  have hrows : (after.record t).overrides.find? (fun v => (after.method v.declaration).token
      == (after.method m).token) = none := by
    refine Array.find?_eq_none.mpr fun v hv htoken => ?_
    obtain ⟨other, hother, -, hdecl⟩ :=
      he.maker_of_declaration htokens hm hinterface hv (by simpa using htoken)
    exact hnone other hother hdecl
  have hmatch : ∀ own ∈ d.methods.toList,
    ((after.method (become t own)).isVirtual && (after.method (become t own)).access == .isPublic
      && (after.method (become t own)).name == (after.method m).name
      && (after.method (become t own)).signature.agrees (after.method m).signature)
          = own.matching (u.method m) := by
    intro own hown
    have hown' := Array.mem_toList_iff.mp hown
    obtain ⟨-, hname, hflags, hsignature⟩ := he.head_become hown'
    have haccess : (after.method (become t own)).access = own.access :=
      congrArg Access.ofBits hflags
    have hsettled := he.before.signature_settled hm
    have hagrees : (own.signature.placed l).agrees (u.method m).signature
        = own.signature.agrees (u.method m).signature := by
      have hiff := agrees_placed (l := l) (by rw [he.start]; exact he.sound.methodsKnown own hown')
        (by rw [he.start]; exact hsettled.known)
      rw [MethodSignature.placed_of_settled hsettled] at hiff
      exact Bool.eq_iff_iff.mpr hiff
    rw [he.isVirtual_become hown', haccess, hname, hsignature, he.agree.name hlt,
      he.agree.signature hlt, hagrees]
    rfl
  rw [interfaceBody?, hrows, Option.map_none, Option.none_or, he.methodsOf_eq_map,
    List.find?_map, Option.map_map]
  exact congrArg (Option.map _) ((List.find?_congr hmatch).trans Array.find?_toList)

end InterfaceMethod

/-! ### What runs for an interface method -/

/-- A method of the descriptor runs for an interface method: it was made for it, or is public
with its name and its signature, or takes over the slot of the public method that the base has
for it. -/
def Implements (u : Universe) (d : Descriptor) (own : DraftMethod) (m : MethodId) : Prop :=
  m ∈ own.explicitOverrides ∨ own.matching (u.method m) = true
    ∨ ∃ base found, d.base = some (.ofClass base) ∧ u.inheritedBody? base m = some (found, true)
    ∧ Fills u base own found

section Implementations

variable (he : Emission u after l objectType d t) (htokens : after.DistinctTokens)
  (hclass : d.isInterface = false)
include he htokens hclass

theorem resolveInterfaceMethod_of_found (hother : other ∈ d.methods)
    (hvirtual : other.isVirtual = true)
    (hbody : after.interfaceBody? t m = some (become t other, true)) :
    after.resolveInterfaceMethod t m = some (become t other) := by
  rw [he.wellFormed.resolveInterfaceMethod_of_class (he.interface.trans hclass),
    he.wellFormed.inheritedBody?_eq, hbody,
    Option.some_or, Option.map_some]
  simp only [if_true, he.resolveSlot_become htokens hclass hother hvirtual]

/-- Nothing was made for the method and nothing is found for it by name: the base decides. -/
theorem resolveInterfaceMethod_of_base (hm : (u.method? m).isSome)
    (hbase : d.base = some (.ofClass base)) (hown : own ∈ d.methods) (hreplaces : own.Replaces)
    (hnone : after.interfaceBody? t m = none) :
    after.resolveInterfaceMethod t m = some (become t own)
      ↔ ∃ found, u.inheritedBody? base m = some (found, true) ∧ Fills u base own found := by
  have hlt := u.lt_of_isSome_method? m hm
  obtain ⟨hemitted, hbaseClass⟩ := he.base_of_ofClass hbase
  rw [he.wellFormed.resolveInterfaceMethod_of_class (he.interface.trans hclass),
    he.wellFormed.inheritedBody?_eq, hnone, Option.none_or,
    hemitted, Option.bind_some, he.agree.inheritedBody? he.before (Nat.le_refl _) he.size
    (he.sound.base base hbase) hlt]
  cases hfound : u.inheritedBody? base m with
  | none => simp
  | some pair =>
    obtain ⟨found, byName⟩ := pair
    obtain ⟨hlevel, hnamed⟩ := he.before.inheritedBody?_cases hfound
    cases byName with
    | false =>
      -- A method made for the interface method on the base is run as it is.
      have hfoundLe := he.before.index_le_of_mem_hierarchy hlevel
      have hbaseLt := he.sound.base base hbase
      have hfresh := he.fresh
      have hne : found ≠ become t own := by
        rintro rfl
        exact absurd hfoundLe (Nat.not_le.mpr (Nat.lt_of_lt_of_le hbaseLt hfresh))
      simp [hne]
    | true =>
      have hfoundClass := he.before.class_of_mem_hierarchy hbaseClass hlevel
      have hiff := he.resolveSlot_eq_become_iff htokens hclass hbase (hnamed rfl).1
        hfoundClass hown hreplaces
      simp [hiff]

omit hclass

/-- A method that takes over the slot of the base's method for an interface method has the name
and the signature of both. -/
theorem named_of_fills (hbase : d.base = some (.ofClass base)) (hown : own ∈ d.methods)
    (hfound : u.inheritedBody? base m = some (found, true)) (hfills : Fills u base own found) :
    own.name = (u.method m).name ∧ own.signature.agrees (u.method m).signature := by
  obtain ⟨hlevel, hnamed⟩ := he.before.inheritedBody?_cases hfound
  obtain ⟨hexists, hname, hsignature⟩ := hnamed rfl
  obtain ⟨b, htaken, hslot⟩ := fills_iff.mp hfills
  obtain ⟨hb, hbClass, hbName, hbSignature⟩ := he.takenOver?_matches hbase hown htaken
  have hfoundClass := he.before.class_of_mem_hierarchy (he.base_of_ofClass hbase).2 hlevel
  obtain ⟨hsameName, hsameSignature⟩ :=
    he.before.matches_of_slotToken_eq (he.distinctTokens_before htokens) hb hexists hbClass
      hfoundClass hslot
  exact ⟨hbName.symm.trans (hsameName.trans hname),
    agrees_trans (agrees_symm hbSignature) (agrees_trans hsameSignature hsignature)⟩

include hclass

variable (hi : d.Implementing u) (hm : (u.method? m).isSome)
  (hinterface : (u.record m.owner).isInterface = true)
include hi hm hinterface

theorem resolveInterfaceMethod_eq_iff (hknown : (u.method m).token ≠ noMethod.token)
    (hown : own ∈ d.methods) (hrow : d.implementations.find? (u.method m).token = some own.handle) :
    after.resolveInterfaceMethod t m = some (become t own) ↔ Implements u d own m := by
  have hsame : ∀ other ∈ d.methods, other.handle = own.handle → own = other :=
      fun other hother hhandle =>
        he.become_inj hown hother (by rw [become, become, hhandle])
  have hmaker : ∀ other ∈ d.methods, m ∈ other.explicitOverrides → other = own := by
    intro other hother hmade
    have hexplicit := (hi.explicit other hother m hmade).symm.trans hrow
    exact (hsame other hother (Option.some.inj hexplicit)).symm
  by_cases hmade : m ∈ own.explicitOverrides
  · rw [he.wellFormed.resolveInterfaceMethod_of_class (he.interface.trans hclass),
      he.wellFormed.inheritedBody?_eq,
      he.interfaceBody?_of_made htokens hm hinterface hown hmade hmaker]
    exact iff_of_true rfl (.inl hmade)
  have hbody := he.interfaceBody?_of_unmade htokens hm hinterface fun other hother hmade' =>
    hmade (hmaker other hother hmade' ▸ hmade')
  -- The row was made for this method, since no other has its token.
  obtain ⟨m', own', -, htoken, hhandle, himplementer⟩ := hi.rows _ _ hrow
  obtain rfl := hsame own' himplementer.mem hhandle
  have hexists' : (u.method? m').isSome := by
    rw [Option.isSome_iff_ne_none]
    intro hnone
    rw [Universe.method, hnone, Option.getD_none] at htoken
    exact hknown htoken.symm
  obtain rfl := he.distinctTokens_before htokens _ _ hm hexists' htoken.symm
  obtain ⟨-, hkind, hfirst⟩ := himplementer
  cases hfind : d.methods.find? (·.matching (u.method m)) with
  | none =>
    have hunmatched : own.matching (u.method m) ≠ true := Array.find?_eq_none.mp hfind own hown
    obtain ⟨hreplaces, base, hbase⟩ := hkind.resolve_left hunmatched
    rw [hfind, Option.map_none] at hbody
    rw [he.resolveInterfaceMethod_of_base htokens hclass hm hbase hown hreplaces hbody, Implements,
      or_iff_right hmade,
      or_iff_right hunmatched]
    constructor
    · rintro ⟨found, hfound, hfills⟩
      exact ⟨base, found, hbase, hfound, hfills⟩
    · rintro ⟨base', found, hbase', hfound, hfills⟩
      rw [hbase] at hbase'
      cases hbase'
      exact ⟨found, hfound, hfills⟩
  | some other =>
    have hother := Array.mem_of_find?_eq_some hfind
    have hmatches : other.matching (u.method m) = true := Array.find?_some hfind
    have hnamed : own.name = (u.method m).name → own.signature.agrees (u.method m).signature →
      other = own :=
      fun hname hsignature =>
        (hsame other hother (hfirst hname hsignature _ (by rw [hfind, Option.map_some]; rfl))).symm
    rw [hfind, Option.map_some] at hbody
    rw [he.resolveInterfaceMethod_of_found htokens hclass hother
      (DraftMethod.matching_iff.mp hmatches).1.1 hbody, Option.some.injEq]
    constructor
    · intro hresolved
      obtain rfl := he.become_inj hother hown hresolved
      exact .inr (.inl hmatches)
    · rintro (hmade' | hmatching | ⟨base, found, hbase, hfound, hfills⟩)
      · exact absurd hmade' hmade
      · obtain ⟨-, hname, hsignature⟩ := DraftMethod.matching_iff.mp hmatching
        rw [hnamed hname hsignature]
      · obtain ⟨hname, hsignature⟩ := he.named_of_fills htokens hbase hown hfound hfills
        rw [hnamed hname hsignature]

end Implementations

end Emission

end TypeLoom
