import TypeLoom.Proofs.Duties

/-!
# Methods without a body on emitted classes

An emitted class whose own methods all have bodies runs a method without a body only if its base
does and it puts nothing in its place. What the check of the descriptor asks for tells whether it
does.
-/

namespace TypeLoom.Emission

open Universe MethodSignature

variable {u after : Universe} {l : Layout} {objectType t base p : TypeId} {d d₀ : Descriptor}
  {own : DraftMethod} {m found k : MethodId}
  {slot : Token} {byName : Bool}

def Concrete (d : Descriptor) : Prop := ∀ own ∈ d.methods, own.isAbstract = false

/-! ### Own methods -/

theorem isAbstract_become (he : Emission u after l objectType d t) (hown : own ∈ d.methods) :
    (after.method (become t own)).isAbstract = own.isAbstract := by
  rw [MethodRecord.isAbstract, (he.head_become hown).2.2.1]
  rfl

theorem exists_bodiless_iff (he : Emission u after l objectType d t) :
    (∃ m ∈ after.methodsOf t, (after.method m).isAbstract = true) ↔
    d.methods.any DraftMethod.isAbstract = true := by
  rw [Array.any_eq_true']
  constructor
  · rintro ⟨m, hm, habstract⟩
    obtain ⟨own, hown, rfl⟩ := (he.mem_methodsOf_iff m).mp hm
    exact ⟨own, hown, he.isAbstract_become hown ▸ habstract⟩
  · rintro ⟨own, hown, habstract⟩
    exact ⟨become t own, (he.mem_methodsOf_iff _).mpr ⟨own, hown, rfl⟩,
      (he.isAbstract_become hown).trans habstract⟩

section Class

variable (he : Emission u after l objectType d t) (htokens : after.DistinctTokens)
  (hclass : d.isInterface = false)
  (hconcrete : Concrete d)
include he hconcrete

theorem concrete_of_slotBody? (h : after.slotBody? t slot = some k) :
    (after.method k).isAbstract = false := by
  have hbecome : ∃ own ∈ d.methods, k = become t own := by
    rcases slotBody?_eq_some h with ⟨v, hv, -, rfl⟩ | ⟨hmem, -⟩
    · obtain ⟨own, hown, hbody, -⟩ := (he.mem_overrides_iff v).mp hv
      exact ⟨own, hown, hbody⟩
    · exact (he.mem_methodsOf_iff k).mp hmem
  obtain ⟨own, hown, rfl⟩ := hbecome
  rw [he.isAbstract_become hown, hconcrete own hown]

include htokens hclass

/-- What the class itself has for an interface method runs for it. -/
theorem not_lacks_of_body (h : after.interfaceBody? t m = some (found, byName)) :
    ¬ after.Lacks t m := by
  have hbecome : ∃ own ∈ d.methods, found = become t own
      ∧ (byName = true → own.isVirtual = true) := by
    unfold interfaceBody? at h
    rcases Option.or_eq_some_iff.mp h with hmade | ⟨-, hnamed⟩
    · obtain ⟨v, hv, hpair⟩ := Option.map_eq_some_iff.mp hmade
      cases hpair
      obtain ⟨own, hown, hbody, -⟩ := (he.mem_overrides_iff v).mp (Array.mem_of_find?_eq_some hv)
      exact ⟨own, hown, hbody, nofun⟩
    · obtain ⟨k, hk, hpair⟩ := Option.map_eq_some_iff.mp hnamed
      cases hpair
      obtain ⟨own, hown, rfl⟩ := (he.mem_methodsOf_iff _).mp (List.mem_of_find?_eq_some hk)
      have hmatches := List.find?_some hk
      simp only [Bool.and_eq_true, he.isVirtual_become hown] at hmatches
      exact ⟨own, hown, rfl, fun _ => hmatches.1.1.1⟩
  obtain ⟨own, hown, rfl, hvirtual⟩ := hbecome
  have hruns : after.resolveInterfaceMethod t m = some (become t own) := by
    rw [he.wellFormed.resolveInterfaceMethod_of_class (he.interface.trans hclass),
      he.wellFormed.inheritedBody?_eq, h,
      Option.some_or, Option.map_some]
    cases byName with
    | false => rfl
    | true => exact congrArg some (he.resolveSlot_become htokens hclass hown (hvirtual rfl))
  rw [Lacks, hruns, Option.all_some, he.isAbstract_become hown, hconcrete own hown]
  exact Bool.false_ne_true

/-- The class lacks an interface method if it has nothing for it, its base lacks it, and it does
not replace what the base has for it by name. -/
theorem lacks_iff : after.Lacks t m ↔ after.interfaceBody? t m = none
    ∧ ∀ p, (after.record t).base = some p →
    after.Lacks p m ∧ ∀ found, after.inheritedBody? p m = some (found, true) →
    after.slotBody? t (after.slotToken found) = none := by
  cases hbody : after.interfaceBody? t m with
  | some pair =>
    obtain ⟨found, byName⟩ := pair
    exact iff_of_false (he.not_lacks_of_body htokens hclass hconcrete hbody) (by simp)
  | none =>
    rw [Lacks, he.wellFormed.resolveInterfaceMethod_of_class (he.interface.trans hclass),
      he.wellFormed.inheritedBody?_eq, hbody,
      Option.none_or]
    cases hbase : (after.record t).base with
    | none => simp
    | some p =>
      have hp : (after.record p).isInterface = false := he.wellFormed.base_class hbase
      simp only [true_and, Option.bind_some, Option.some.injEq, forall_eq', Lacks,
        he.wellFormed.resolveInterfaceMethod_of_class hp]
      cases hfound : after.inheritedBody? p m with
      | none => simp
      | some pair =>
        obtain ⟨found, byName⟩ := pair
        cases byName with
        | false => simp
        | true =>
          simp only [Option.map_some, Option.all_some, if_true,
            he.wellFormed.resolveSlot_of_base hbase, Option.some.injEq,
            Prod.mk.injEq, and_true, forall_eq']
          cases hk : after.slotBody? t (after.slotToken found) with
          | none => simp
          | some k => simp [he.concrete_of_slotBody? hconcrete hk]

omit htokens hclass in
/-- A virtual method of a base stays without a body if it has none on the base and the class does
not replace it. -/
theorem stays_iff (hbase : (after.record t).base = some p)
    (hmClass : (after.record m.owner).isInterface = false)
    (hvirtual : (after.method m).isVirtual = true) :
    (after.method (after.resolveVirtual t m)).isAbstract = true ↔
      after.slotBody? t (after.slotToken m) = none
      ∧ (after.method (after.resolveVirtual p m)).isAbstract = true := by
  rw [resolveVirtual_of_class hmClass hvirtual, resolveVirtual_of_class hmClass hvirtual,
    he.wellFormed.resolveSlot_of_base hbase]
  cases hk : after.slotBody? t (after.slotToken m) with
  | none => simp
  | some k => simp [he.concrete_of_slotBody? hconcrete hk]

end Class

/-! ### Methods of an existing base -/

section Base

variable (he : Emission u after l objectType d t) (htokens : after.DistinctTokens)
  (hclass : d.isInterface = false)
  (hbase : d.base = some (.ofClass base)) (hm : (u.method? m).isSome)
  (hmClass : (u.record m.owner).isInterface = false)
include he htokens hclass hbase hm hmClass

/-- The class puts something in the place of a base method if one of its methods takes over the
slot. -/
theorem slotBody?_isSome_iff :
    (after.slotBody? t (after.slotToken m)).isSome ↔ ∃ own ∈ d.methods, own.Replaces
    ∧ Fills u base own m := by
  have hlt := u.lt_of_isSome_method? m hm
  rw [he.agree.slotToken he.before (Nat.le_refl _) he.size hlt]
  constructor
  · intro h
    obtain ⟨k, hk⟩ := Option.isSome_iff_exists.mp h
    rcases slotBody?_eq_some hk with ⟨v, hv, hslot, -⟩ | ⟨hmem, hvirtual, hslot⟩
    · obtain ⟨own, hown, -, hmade, hfills⟩ :=
        he.filler_of_declaration htokens hm hmClass base hv hslot
      exact ⟨own, hown, (he.sound.standsIn own hown _ hmade).replaces, hfills⟩
    · obtain ⟨own, hown, rfl⟩ := (he.mem_methodsOf_iff k).mp hmem
      rw [he.isVirtual_become hown] at hvirtual
      exact ⟨own, hown, he.filler_of_slot htokens hbase hm hmClass hown hvirtual hslot⟩
  · rintro ⟨own, hown, hreplaces, hfills⟩
    obtain ⟨b, htaken, hslot⟩ := fills_iff.mp hfills
    rw [← hslot, ← he.slotToken_become htokens hbase hown hreplaces htaken,
      he.slotBody?_become htokens hclass hown hreplaces.1]
    rfl

omit hclass in
/-- A method that takes over the slot of a base method has its name and its signature. -/
theorem takesSlot_of_fills (hown : own ∈ d.methods) (hreplaces : own.Replaces)
    (hfills : Fills u base own m) :
    own.takesSlot (u.method m).name (u.method m).signature = true := by
  obtain ⟨b, htaken, hslot⟩ := fills_iff.mp hfills
  obtain ⟨hb, hbClass, hname, hsignature⟩ := he.takenOver?_matches hbase hown htaken
  obtain ⟨hsameName, hsameSignature⟩ :=
    he.before.matches_of_slotToken_eq (he.distinctTokens_before htokens) hb hm hbClass hmClass hslot
  exact (own.takesSlot_iff _ _).mpr ⟨hreplaces, hname.symm.trans hsameName,
    agrees_trans (agrees_symm hsignature) hsameSignature⟩

end Base

/-- The check finds an abstract method of the base exactly if one stays without a body, provided
that methods of its name and its signature that replace inherited ones take over its slot. -/
theorem inheritsAbstract_iff (he : Emission u after l objectType d t)
    (htokens : after.DistinctTokens) (hclass : d.isInterface = false) (hconcrete : Concrete d)
    (hseen : d.baseType? u = some base) (hvirtual : ∀ level ∈ u.hierarchy base,
      ∀ m ∈ u.methodsOf level, (u.method m).isAbstract = true → (u.method m).isVirtual = true)
    (hslots : ∀ level ∈ u.hierarchy base, ∀ m ∈ u.methodsOf level, (u.method m).isAbstract = true →
      ∀ own ∈ d.methods,
      own.takesSlot (u.method m).name (u.method m).signature = true → Fills u base own m) :
    d.inheritsAbstract u = true ↔ ∃ level ∈ after.bases t, ∃ m ∈ after.methodsOf level,
      (after.method m).isAbstract = true
      ∧ (after.method (after.resolveVirtual t m)).isAbstract = true := by
  have hbase := (Descriptor.baseType?_eq_some hseen).1
  obtain ⟨hemitted, hbaseClass⟩ := he.base_of_ofClass hbase
  have hbaseLt := he.sound.base base hbase
  have hbases : after.bases t = u.hierarchy base := by
    rw [he.wellFormed.bases_eq, hemitted]
    exact he.agree.hierarchy he.before (Nat.le_refl _) he.size hbaseLt
  rw [Descriptor.inheritsAbstract, hseen, Option.any_some, List.any_eq_true, hbases]
  refine exists_congr fun level => and_congr_right fun hlevel => ?_
  have hlevelLt : level.index < u.types.size :=
    Nat.lt_of_le_of_lt (he.before.index_le_of_mem_hierarchy hlevel) hbaseLt
  rw [List.any_eq_true, he.agree.methodsOf hlevelLt]
  refine exists_congr fun m => and_congr_right fun hmem => ?_
  obtain rfl := u.owner_of_mem_methodsOf hmem
  have hm := u.isSome_of_mem_methodsOf hmem
  have hmClass := he.before.class_of_mem_hierarchy hbaseClass hlevel
  have hresolved := he.before.owner_of_resolveVirtual hbaseClass hlevel
  rw [Bool.and_eq_true, Bool.and_eq_true, Bool.not_eq_true',
    he.agree.isAbstract hlevelLt, and_assoc]
  refine and_congr_right fun habstract => ?_
  rw [he.stays_iff hconcrete hemitted (by rw [he.agree.isInterface hlevelLt]; exact hmClass)
      (by rw [he.agree.isVirtual hlevelLt]; exact hvirtual _ hlevel m hmem habstract),
    he.agree.resolveVirtual he.before (Nat.le_refl _) he.size hbaseLt hbaseClass hlevel,
    he.agree.isAbstract (Nat.lt_of_le_of_lt hresolved hbaseLt), and_comm]
  refine and_congr_left fun _ => ?_
  -- An own method of that name and that signature is one in the slot.
  rw [← Bool.not_eq_true, he.sound.overridesSlot_iff he.before (he.distinctTokens_before htokens) hm
    hmClass, ← Option.isNone_iff_eq_none, ← Option.not_isSome, Bool.not_eq_true',
    ← Bool.not_eq_true, he.slotBody?_isSome_iff htokens hclass hbase hm hmClass]
  refine not_congr ⟨?_, ?_⟩
  · rintro ⟨own, hown, htakes⟩
    exact ⟨own, hown, ((own.takesSlot_iff _ _).mp htakes).1,
      hslots _ hlevel m hmem habstract own hown htakes⟩
  · rintro ⟨own, hown, hreplaces, hfills⟩
    exact ⟨own, hown, he.takesSlot_of_fills htokens hbase hm hmClass hown hreplaces hfills⟩

/-! ### Methods of interfaces -/

/-- A method of the descriptor runs for an interface method on the class: it was made for it, or
is public with its name and its signature, or replaces the public method that the base has for
it. -/
def Serves (u : Universe) (d : Descriptor) (own : DraftMethod) (m : MethodId) : Prop :=
  m ∈ own.explicitOverrides ∨ own.matching (u.method m) = true
    ∨ own.Replaces ∧ ∃ base found, d.base = some (.ofClass base)
    ∧ u.inheritedBody? base m = some (found, true) ∧ Fills u base own found

section Interfaces

variable (he : Emission u after l objectType d t) (htokens : after.DistinctTokens)
  (hclass : d.isInterface = false)
  (hconcrete : Concrete d)
include he htokens

/-- The class has something for an existing interface method if a method was made for it, or is
found by name. -/
theorem interfaceBody?_isSome_iff (hm : (u.method? m).isSome)
    (hinterface : (u.record m.owner).isInterface = true) :
    (after.interfaceBody? t m).isSome ↔ (∃ own ∈ d.methods, m ∈ own.explicitOverrides)
      ∨ d.hasPublicVirtual (u.method m).name (u.method m).signature = true := by
  by_cases hmade : ∃ own ∈ d.methods, m ∈ own.explicitOverrides
  · refine iff_of_true ?_ (.inl hmade)
    obtain ⟨own, hown, hexplicit⟩ := hmade
    have hrow : (⟨m, become t own⟩ : Override) ∈ (after.record t).overrides :=
      (he.mem_overrides_iff _).mpr ⟨own, hown, rfl,
        List.mem_append_right _ (Array.mem_toList_iff.mpr hexplicit)⟩
    have hfound : ((after.record t).overrides.find? fun v => (after.method v.declaration).token
        == (after.method m).token).isSome := by
      rw [Array.find?_isSome]
      exact ⟨_, hrow, by simp⟩
    rw [interfaceBody?, Option.isSome_or, Option.isSome_map, hfound, Bool.true_or]
  · have hnone : ∀ own ∈ d.methods, m ∉ own.explicitOverrides :=
      fun own hown hexplicit => hmade ⟨own, hown, hexplicit⟩
    rw [or_iff_right hmade, he.interfaceBody?_of_unmade htokens hm hinterface hnone,
      Option.isSome_map, Array.find?_isSome,
      Descriptor.hasPublicVirtual, Array.any_eq_true']
    rfl

/-- Nothing is made for methods of interfaces that come from the batch: they are found by name
only. -/
theorem interfaceBody?_isSome_of_draft {di : Descriptor} {i : TypeId} {declared : DraftMethod}
    (hei : Emission u after l objectType di i) (hdeclared : declared ∈ di.methods) :
    (after.interfaceBody? t (become i declared)).isSome ↔
        d.hasPublicVirtual declared.name declared.signature = true := by
  have hrows : (after.record t).overrides.find? (fun v => (after.method v.declaration).token
    == (after.method (become i declared)).token)
      = none := by
    refine Array.find?_eq_none.mpr fun v hv htoken => ?_
    obtain ⟨own, hown, -, hdecl⟩ := (he.mem_overrides_iff v).mp hv
    have hexists : (u.method? v.declaration).isSome := by
      rcases List.mem_append.mp hdecl with hmade | hexplicit
      · exact (he.sound.standsIn own hown _ (Option.mem_toList.mp hmade)).exists'
      · exact (he.sound.implements own hown _ (Array.mem_toList_iff.mp hexplicit)).2.1
    have hlt := u.lt_of_isSome_method? _ hexists
    have hsame := htokens _ _ (by rw [he.agree.isSome_method? hlt]; exact hexists)
      (hei.head_become hdeclared).1 (by simpa using htoken)
    rw [hsame] at hlt
    exact absurd hlt (Nat.not_lt.mpr hei.fresh)
  obtain ⟨-, hname, -, hsignature⟩ := hei.head_become hdeclared
  rw [interfaceBody?, hrows, Option.map_none, Option.none_or, Option.isSome_map, List.find?_isSome,
    Descriptor.hasPublicVirtual,
    Array.any_eq_true', he.methodsOf_eq_map]
  have hmatch : ∀ own ∈ d.methods,
    ((after.method (become t own)).isVirtual && (after.method (become t own)).access == .isPublic
      && (after.method (become t own)).name == (after.method (become i declared)).name
      && (after.method (become t own)).signature.agrees
        (after.method (become i declared)).signature)
        = own.isPublicVirtual declared.name declared.signature := by
    intro own hown
    obtain ⟨-, hname', hflags', hsignature'⟩ := he.head_become hown
    have haccess : (after.method (become t own)).access = own.access :=
      congrArg Access.ofBits hflags'
    have hagrees : (own.signature.placed l).agrees (declared.signature.placed l)
      = own.signature.agrees declared.signature :=
      Bool.eq_iff_iff.mpr (agrees_placed (by rw [he.start]; exact he.sound.methodsKnown own hown)
        (by rw [he.start]; exact hei.sound.methodsKnown declared hdeclared))
    rw [he.isVirtual_become hown, haccess, hname, hname', hsignature, hsignature', hagrees]
    rfl
  constructor
  · rintro ⟨k, hk, hmatches⟩
    obtain ⟨own, hown, rfl⟩ := List.mem_map.mp hk
    have hown' := Array.mem_toList_iff.mp hown
    exact ⟨own, hown', hmatch own hown' ▸ hmatches⟩
  · rintro ⟨own, hown, hmatches⟩
    exact ⟨become t own, List.mem_map.mpr ⟨own, Array.mem_toList_iff.mpr hown, rfl⟩,
      (hmatch own hown).trans hmatches⟩

include hclass hconcrete

/-- Where the base has only what the class has too, the class decides. -/
theorem not_lacks_iff_of_silent (hsilent : ∀ p, (after.record t).base = some p →
      (after.inheritedBody? p m).isSome →
      (after.interfaceBody? t m).isSome) : ¬ after.Lacks t m ↔ (after.interfaceBody? t m).isSome := by
  rw [he.lacks_iff htokens hclass hconcrete, ← not_iff_not, not_not, Bool.not_eq_true,
    Option.isSome_eq_false_iff, Option.isNone_iff_eq_none]
  refine ⟨fun h => h.1, fun hnone => ⟨hnone, fun p hp => ?_⟩⟩
  have hbody : after.inheritedBody? p m = none := by
    cases hbody : after.inheritedBody? p m with
    | none => rfl
    | some pair =>
      have := hsilent p hp (by rw [hbody]; rfl)
      rw [hnone] at this
      cases this
  have hpClass : (after.record p).isInterface = false := he.wellFormed.base_class hp
  refine ⟨?_, fun found hfound => ?_⟩
  · rw [Lacks, he.wellFormed.resolveInterfaceMethod_of_class hpClass, hbody]
    rfl
  · rw [hbody] at hfound
    cases hfound

theorem not_lacks_of_serves (hm : (u.method? m).isSome)
    (hinterface : (u.record m.owner).isInterface = true) (hown : own ∈ d.methods)
    (hserves : Serves u d own m) : ¬ after.Lacks t m := by
  have hbody : (after.interfaceBody? t m).isSome → ¬ after.Lacks t m := fun h => by
    obtain ⟨⟨found, byName⟩, hfound⟩ := Option.isSome_iff_exists.mp h
    exact he.not_lacks_of_body htokens hclass hconcrete hfound
  have hsome := he.interfaceBody?_isSome_iff htokens hm hinterface
  rcases hserves with hmade | hmatching | ⟨hreplaces, base, found, hbase, hfound, hfills⟩
  · exact hbody (hsome.mpr (.inl ⟨own, hown, hmade⟩))
  · exact hbody (hsome.mpr (.inr (Array.any_eq_true'.mpr ⟨own, hown, hmatching⟩)))
  · obtain ⟨hemitted, hbaseClass⟩ := he.base_of_ofClass hbase
    obtain ⟨hlevel, hnamed⟩ := he.before.inheritedBody?_cases hfound
    have hlt := u.lt_of_isSome_method? m hm
    rw [← he.agree.inheritedBody? he.before (Nat.le_refl _) he.size
      (he.sound.base base hbase) hlt] at hfound
    intro hlacks
    have hnone :=
      (((he.lacks_iff htokens hclass hconcrete).mp hlacks).2 base hemitted).2 found hfound
    have hslot := (he.slotBody?_isSome_iff htokens hclass hbase (hnamed rfl).1
      (he.before.class_of_mem_hierarchy hbaseClass hlevel)).mpr ⟨own, hown, hreplaces, hfills⟩
    rw [hnone] at hslot
    cases hslot

variable (hi : d.Implementing u) (hm : (u.method? m).isSome)
  (hinterface : (u.record m.owner).isInterface = true)
  (hregistered : ∀ own ∈ d.methods, d.implementations.find? (u.method m).token = some own.handle →
    Serves u d own m)
include hi hm hinterface hregistered

/-- The check of an interface method, when the base is an existing type. -/
theorem implementsMethod_iff_of_seen (hseen : d.baseType? u = some base)
    (haccess : ∀ found, u.inheritedBody? base m = some (found, true) → ∀ own ∈ d.methods,
      own.Replaces → Fills u base own found →
      own.access = .isPublic) : d.implementsMethod u m = true ↔ ¬ after.Lacks t m := by
  have hbase := (Descriptor.baseType?_eq_some hseen).1
  obtain ⟨hemitted, hbaseClass⟩ := he.base_of_ofClass hbase
  have hbaseLt := he.sound.base base hbase
  have hlt := u.lt_of_isSome_method? m hm
  have hsome := he.interfaceBody?_isSome_iff htokens hm hinterface
  -- The base answers for itself before and after.
  have hbaseLacks : after.Lacks base m ↔
      ¬ ((u.resolveInterfaceMethod base m).any fun k => !(u.method k).isAbstract) = true := by
    rw [Lacks, he.agree.resolveInterfaceMethod he.before he.wellFormed (Nat.le_refl _) he.size
      hbaseLt hbaseClass hlt]
    cases hk : u.resolveInterfaceMethod base m with
    | none => simp
    | some k =>
      have hkLe := he.before.owner_of_resolveInterfaceMethod hbaseClass hk
      simp [he.agree.isAbstract (show k.owner.index < u.types.size by omega)]
  rw [Descriptor.implementsMethod, hseen, Option.bind_some, Bool.or_eq_true, Bool.or_eq_true,
    Keyed.hasKey, Option.isSome_iff_exists]
  constructor
  · rintro ((⟨handle, hrow⟩ | hpublic) | hinherited)
    · obtain ⟨_, own, -, -, rfl, himplementer⟩ := hi.rows _ _ hrow
      exact he.not_lacks_of_serves htokens hclass hconcrete hm hinterface himplementer.mem
        (hregistered own himplementer.mem hrow)
    · obtain ⟨own, hown, hmatching⟩ := Array.any_eq_true'.mp hpublic
      exact he.not_lacks_of_serves htokens hclass hconcrete hm hinterface hown
        (.inr (.inl hmatching))
    · intro hlacks
      exact hbaseLacks.mp (((he.lacks_iff htokens hclass hconcrete).mp hlacks).2 base hemitted).1
        hinherited
  · intro hruns
    by_contra hnot
    simp only [not_or] at hnot
    obtain ⟨⟨hrow, hpublic⟩, hinherited⟩ := hnot
    refine hruns ((he.lacks_iff htokens hclass hconcrete).mpr ⟨?_, fun p hp => ?_⟩)
    · rw [← Option.isNone_iff_eq_none, ← Option.not_isSome, Bool.not_eq_true',
        ← Bool.not_eq_true, hsome]
      rintro (⟨own, hown, hmade⟩ | hpublic')
      · exact hrow ⟨_, hi.explicit own hown m hmade⟩
      · exact hpublic hpublic'
    · obtain rfl : base = p := Option.some.inj (hemitted.symm.trans hp)
      refine ⟨hbaseLacks.mpr hinherited, fun found hfound => ?_⟩
      rw [he.agree.inheritedBody? he.before (Nat.le_refl _) he.size hbaseLt hlt] at hfound
      obtain ⟨hlevel, hnamed⟩ := he.before.inheritedBody?_cases hfound
      rw [← Option.isNone_iff_eq_none, ← Option.not_isSome, Bool.not_eq_true', ← Bool.not_eq_true,
        he.slotBody?_isSome_iff htokens hclass hbase (hnamed rfl).1
        (he.before.class_of_mem_hierarchy hbaseClass hlevel)]
      -- A method that replaces the public one of the base is public, and is found by name.
      rintro ⟨own, hown, hreplaces, hfills⟩
      obtain ⟨hname, hsignature⟩ := he.named_of_fills htokens hbase hown hfound hfills
      refine hpublic (Array.any_eq_true'.mpr ⟨own, hown, ?_⟩)
      exact DraftMethod.matching_iff.mpr
        ⟨⟨hreplaces.1, haccess found hfound own hown hreplaces hfills⟩, hname, hsignature⟩

theorem implementsMethod_iff_of_unseen (hunseen : d.baseType? u = none)
    (hsilent : ∀ p, (after.record t).base = some p → (after.inheritedBody? p m).isSome →
      (after.interfaceBody? t m).isSome) :
    d.implementsMethod u m = true ↔ ¬ after.Lacks t m := by
  have hsome := he.interfaceBody?_isSome_iff htokens hm hinterface
  rw [Descriptor.implementsMethod, hunseen, Option.bind_none, Option.any_none, Bool.or_false,
    Bool.or_eq_true, Keyed.hasKey,
    Option.isSome_iff_exists]
  constructor
  · rintro (⟨handle, hrow⟩ | hpublic)
    · obtain ⟨_, own, -, -, rfl, himplementer⟩ := hi.rows _ _ hrow
      exact he.not_lacks_of_serves htokens hclass hconcrete hm hinterface himplementer.mem
        (hregistered own himplementer.mem hrow)
    · obtain ⟨own, hown, hmatching⟩ := Array.any_eq_true'.mp hpublic
      exact he.not_lacks_of_serves htokens hclass hconcrete hm hinterface hown
        (.inr (.inl hmatching))
  · rw [he.not_lacks_iff_of_silent htokens hclass hconcrete hsilent, hsome]
    rintro (⟨own, hown, hmade⟩ | hpublic)
    · exact .inl ⟨_, hi.explicit own hown m hmade⟩
    · exact .inr hpublic

end Interfaces

end TypeLoom.Emission
