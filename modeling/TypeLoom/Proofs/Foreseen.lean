import TypeLoom.Proofs.Bodiless
import TypeLoom.Proofs.DraftInterfaces
import TypeLoom.Proofs.Recalling

/-!
# Classes that are foreseen

The check of a descriptor looks at the existing base, at the interfaces that the descriptor reaches
by its own lists, and at what its methods are called. It foresees whether the generated class will
be unfinished if the class owes nothing else and what it looks at binds as it expects.
-/

namespace TypeLoom

open Relation Universe

variable {u after : Universe} {b : Batch} {place : TypeHandle →
  Option TypeId} {d d₀ : Descriptor} {t i : TypeId}

namespace Batch

/-! ### What the check looks at -/

/-- The descriptor reaches the interface of the batch that became this type. -/
def LooksAtDraft (b : Batch) (place : TypeHandle → Option TypeId) (d : Descriptor) (i : TypeId) :
    Prop :=
  ∃ start ∈ d.interfaceDrafts, ∃ h, ReflTransGen b.ListsDraft start h ∧ place h = some i

/-- The existing interface is listed, is reached from a listed one, or is listed by an interface
of the batch. -/
inductive LooksAt (u : Universe) (b : Batch) (d : Descriptor) (i : TypeId) : Prop
  | listed {j : TypeId} (lists : j ∈ d.interfaceTypes u) (reaches : ReflTransGen u.Lists j i)
  | extended {start h : TypeHandle} {di : Descriptor} (lists : start ∈ d.interfaceDrafts)
      (reaches : ReflTransGen b.ListsDraft start h) (found : b.find? h = some di)
      (extends' : i ∈ di.interfaceTypes u)

/-- When the check of a descriptor foresees the class it becomes. -/
structure Foreseen (u after : Universe) (b : Batch) (place : TypeHandle → Option TypeId)
    (d : Descriptor) (t : TypeId) : Prop where
  /-- Abstract methods of an existing base are virtual, -/
  virtual : ∀ base, d.baseType? u = some base → ∀ level ∈ u.hierarchy base, ∀ m ∈ u.methodsOf level,
    (u.method m).isAbstract = true → (u.method m).isVirtual = true
  /-- an own method that replaces inherited ones of their name and signature takes over their
  slot, -/
  slots : ∀ base, d.baseType? u = some base → ∀ level ∈ u.hierarchy base, ∀ m ∈ u.methodsOf level,
    (u.method m).isAbstract = true → ∀ own ∈ d.methods,
    own.takesSlot (u.method m).name (u.method m).signature = true →
      Emission.Fills u base own m
  /-- and one that replaces a public method is public. -/
  access : ∀ base, d.baseType? u = some base → ∀ level ∈ u.hierarchy base, ∀ m ∈ u.methodsOf level,
    (u.method m).access = .isPublic → ∀ own ∈ d.methods, own.Replaces →
    Emission.Fills u base own m → own.access = .isPublic
  /-- What is registered for an interface method runs for it. -/
  registered : ∀ own ∈ d.methods, ∀ m, d.implementations.find? (u.method m).token
    = some own.handle → Emission.Serves u d own m
  /-- A base from the batch leaves no method without a body. -/
  plain : d.baseType? u = none → ∀ m : MethodId, m.owner ∈ after.bases t →
    (after.method m).isAbstract = false
  /-- Where the check does not look at the base, the base has nothing that the class has not. -/
  silent : ∀ i, b.LooksAtDraft place d i ∨ b.LooksAt u d i ∧ d.baseType? u = none →
    ∀ m ∈ after.methodsOf i,
    (after.method m).isStatic = false → ∀ p, (after.record t).base = some p →
    (after.inheritedBody? p m).isSome →
      (after.interfaceBody? t m).isSome
  /-- For any other interface that the class takes over, the class or its base has something, be
  it a public abstract method. -/
  others : ∀ i, after.Undertakes t i → ¬ b.LooksAtDraft place d i → ¬ b.LooksAt u d i →
    ∀ m ∈ after.methodsOf i,
    (after.method m).isStatic = false → (after.interfaceBody? t m).isSome
    ∨ ∃ p k, (after.record t).base = some p
      ∧ after.resolveInterfaceMethod p m = some k
      ∧ ((after.method k).isAbstract = true → after.inheritedBody? p m = some (k, true))

/-- Every descriptor of the batch became the type at its place. -/
structure Emits (u after : Universe) (l : Layout) (objectType : TypeId) (b : Batch) : Prop where
  emission : ∀ h d, b.find? h = some d → Emission u after l objectType d (l.place h)
  interfaces : ∀ h d, b.find? h = some d → (after.record (l.place h)).interfaces.toList
    = d.emittedInterfaces l

end Batch

namespace Emission

variable {l : Layout} {objectType : TypeId}

theorem predates (he : Emission u after l objectType d t) (hp : d₀.Predates d)
    (hsound : d₀.Sound u) :
    Emission u after l objectType d₀ t := by
  have hinterface : d.isInterface = d₀.isInterface := by
    rw [Descriptor.isInterface, hp.flags, Descriptor.isInterface]
  refine { he with sound := hsound, interface := he.interface.trans hinterface, base := ?_, methods := ?_, overrides := ?_ }
  · rw [he.base, Descriptor.emittedBase, hp.base, hinterface, Descriptor.emittedBase]
  · rw [he.methods, hp.methods]
  · rw [he.overrides, Descriptor.emittedOverrides, hp.methods, Descriptor.emittedOverrides]

end Emission

/-! ### Paths of interfaces -/

namespace Batch.Emits

variable {l : Layout} {objectType : TypeId} {h start : TypeHandle} {di : Descriptor} {m : MethodId}

section Paths

variable (hb : b.Emits u after l objectType) (hd : b.find? h = some d)
include hb hd

theorem lists_draft (hstart : start ∈ d.interfaceDrafts) : after.Lists (l.place h)
    (l.place start) := by
  obtain ⟨s, hs, hdraft⟩ := List.mem_filterMap.mp hstart
  rw [Universe.Lists, ← Array.mem_toList_iff, hb.interfaces h d hd, Descriptor.emittedInterfaces,
    List.mem_filterMap]
  refine ⟨s, hs, ?_⟩
  cases s <;> simp only [Signature.draft?] at hdraft <;> cases hdraft
  rfl

theorem lists_type (hi : i ∈ d.interfaceTypes u) : after.Lists (l.place h) i := by
  have hmem := (Descriptor.mem_interfaceTypes.mp hi).1
  rw [Universe.Lists, ← Array.mem_toList_iff, hb.interfaces h d hd, Descriptor.emittedInterfaces,
    List.mem_filterMap]
  exact ⟨.ofClass i, Array.mem_toList_iff.mpr hmem, rfl⟩

omit hd in
theorem reaches_draft {last : TypeHandle} (hpath : ReflTransGen b.ListsDraft start last) :
    ReflTransGen after.Lists (l.place start) (l.place last) := by
  induction hpath with
  | refl => exact .refl
  | tail _ hlists ih =>
    obtain ⟨dm, hdm, hmem⟩ := hlists
    exact ih.tail (hb.lists_draft hdm hmem)

/-- The class takes over the interfaces of the batch that its descriptor reaches, -/
theorem undertakes_draft {last : TypeHandle} (hstart : start ∈ d.interfaceDrafts)
    (hpath : ReflTransGen b.ListsDraft start last) :
    after.Undertakes (l.place h) (l.place last) := by
  refine ⟨l.place h, ?_, .head' (hb.lists_draft hd hstart) (hb.reaches_draft hpath)⟩
  rw [(hb.emission h d hd).wellFormed.hierarchy_eq]
  exact List.mem_cons_self

theorem undertakes_of_looksAt (hi : b.LooksAt u d i) : after.Undertakes (l.place h) i := by
  have he := hb.emission h d hd
  refine ⟨l.place h, ?_, ?_⟩
  · rw [he.wellFormed.hierarchy_eq]
    exact List.mem_cons_self
  · cases hi with
    | listed hlists hreaches =>
      have hlt := (he.sound.interfaces _ (Descriptor.mem_interfaceTypes.mp hlists).1).1
      exact .head' (hb.lists_type hd hlists) ((he.agree.reaches he.before hlt).mpr hreaches)
    | extended hlists hreaches hfound hextends =>
      exact .tail' (.head (hb.lists_draft hd hlists) (hb.reaches_draft hreaches))
        (hb.lists_type hfound hextends)

theorem existing_of_looksAt (hi : b.LooksAt u d i) :
    i.index < u.types.size ∧ (u.record i).isInterface = true := by
  have he := hb.emission h d hd
  cases hi with
  | @listed j hlists hreaches =>
    have hj := he.sound.interfaces _ (Descriptor.mem_interfaceTypes.mp hlists).1
    refine ⟨Nat.lt_of_le_of_lt (he.before.le_of_reaches hreaches) hj.1, ?_⟩
    rcases hreaches.cases_tail with rfl | ⟨k, -, hlast⟩
    · exact hj.2
    · exact ((he.before k).interfaces i (Array.mem_toList_iff.mpr hlast)).2
  | extended hlists hreaches hfound hextends =>
    exact (hb.emission _ _ hfound).sound.interfaces _ (Descriptor.mem_interfaceTypes.mp hextends).1

end Paths

/-! ### What the check finds -/

section Check

variable (hb : b.Emits u after l objectType) (htokens : after.DistinctTokens)
  (hd : b.find? h = some d)
  (hclass : d.isInterface = false) (hplace : ∀ h i, place h = some i ↔ (∃ di, b.find? h = some di)
    ∧ i = l.place h)
  (hf : b.Foreseen u after place d (l.place h)) (hp : d₀.Predates d) (hsound : d₀.Sound u)
    (hi₀ : d₀.Implementing u)
  (hi : d.Implementing u) (hconcrete : Emission.Concrete d)
include hb htokens hd hclass hf hconcrete

section Before

include hp hsound hi₀

/-- For an existing interface method the check tells whether the class lacks it. -/
theorem implementsMethod_iff (hlooks : b.LooksAt u d i) (hm : m ∈ u.methodsOf i)
    (hstatic : (u.method m).isStatic = false) :
    d₀.implementsMethod u m = true ↔ ¬ after.Lacks (l.place h) m := by
  have he := (hb.emission h d hd).predates hp hsound
  have hclass₀ : d₀.isInterface = false := by rw [Descriptor.isInterface, ← hp.flags]; exact hclass
  have hconcrete₀ : Emission.Concrete d₀ := fun own hown => hconcrete own (hp.methods ▸ hown)
  obtain ⟨hlt, hinterface⟩ := hb.existing_of_looksAt hd hlooks
  have hexists := u.isSome_of_mem_methodsOf hm
  have howner := u.owner_of_mem_methodsOf hm
  have hregistered : ∀ own ∈ d₀.methods, d₀.implementations.find? (u.method m).token
      = some own.handle → Emission.Serves u d₀ own m := by
    intro own hown hrow
    have hserves := hf.registered own (hp.methods ▸ hown) m (hp.rows _ _ hrow)
    rwa [Emission.Serves, hp.base] at hserves
  have hseen : d₀.baseType? u = d.baseType? u := by
    rw [Descriptor.baseType?, ← hp.base, Descriptor.baseType?]
  cases hbase : d.baseType? u with
  | some base =>
    refine he.implementsMethod_iff_of_seen htokens hclass₀ hconcrete₀ hi₀ hexists
      (howner ▸ hinterface) hregistered (hseen.trans hbase) ?_
    intro found hfound own hown hreplaces hfills
    obtain ⟨hlevel, hmem, -, hpublic⟩ := mem_of_inheritedBody? hfound
    exact hf.access base hbase _ hlevel found hmem hpublic own (hp.methods ▸ hown) hreplaces hfills
  | none =>
    refine he.implementsMethod_iff_of_unseen htokens hclass₀ hconcrete₀ hi₀ hexists
      (howner ▸ hinterface) hregistered (hseen.trans hbase) ?_
    refine hf.silent i (.inr ⟨hlooks, hbase⟩) m ?_ ?_
    · rw [he.agree.methodsOf hlt]
      exact hm
    · rw [he.agree.isStatic (howner ▸ hlt)]
      exact hstatic

/-- Some method of an existing interface is missing on the descriptor exactly if the class lacks
it. -/
theorem any_missing_iff (hlooks : b.LooksAt u d i) :
    ((u.methodsOf i).any fun m => !(u.method m).isStatic && !d₀.implementsMethod u m) = true
      ↔ ∃ m ∈ after.methodsOf i, (after.method m).isStatic = false ∧ after.Lacks (l.place h) m := by
  have he := hb.emission h d hd
  have hlt := (hb.existing_of_looksAt hd hlooks).1
  rw [List.any_eq_true, he.agree.methodsOf hlt]
  refine exists_congr fun m => and_congr_right fun hm => ?_
  rw [Bool.and_eq_true, Bool.not_eq_true', Bool.not_eq_true',
    he.agree.isStatic ((u.owner_of_mem_methodsOf hm).symm ▸ hlt)]
  refine and_congr_right fun hstatic => ?_
  rw [← Bool.not_eq_true, hb.implementsMethod_iff htokens hd hclass hf hp hsound hi₀ hconcrete
    hlooks hm hstatic, not_not]

theorem owesInterface_iff : d₀.owesInterface u = true ↔ ∃ j ∈ d.interfaceTypes u, ∃ i,
    ReflTransGen u.Lists j i
    ∧ ∃ m ∈ after.methodsOf i, (after.method m).isStatic = false ∧ after.Lacks (l.place h) m := by
  have he := hb.emission h d hd
  have hlisted : d₀.interfaceTypes u = d.interfaceTypes u := by
    rw [Descriptor.interfaceTypes, ← hp.interfaces, Descriptor.interfaceTypes]
  rw [Descriptor.owesInterface, hlisted, List.any_eq_true]
  refine exists_congr fun j => and_congr_right fun hj => ?_
  rw [List.any_eq_true]
  refine exists_congr fun i => ?_
  rw [he.before.mem_interfaceClosure_iff]
  exact and_congr_right fun hreaches =>
    hb.any_missing_iff htokens hd hclass hf hp hsound hi₀ hconcrete (.listed hj hreaches)

omit hi₀ in
/-- Some abstract method of the base is not overridden on the descriptor exactly if one stays
without a body. -/
theorem inheritsAbstract_iff : d₀.inheritsAbstract u = true ↔ ∃ level ∈ after.bases (l.place h),
    ∃ m ∈ after.methodsOf level,
    (after.method m).isAbstract = true
    ∧ (after.method (after.resolveVirtual (l.place h) m)).isAbstract = true := by
  have he := (hb.emission h d hd).predates hp hsound
  have hclass₀ : d₀.isInterface = false := by rw [Descriptor.isInterface, ← hp.flags]; exact hclass
  have hconcrete₀ : Emission.Concrete d₀ := fun own hown => hconcrete own (hp.methods ▸ hown)
  have hseen : d₀.baseType? u = d.baseType? u := by
    rw [Descriptor.baseType?, ← hp.base, Descriptor.baseType?]
  cases hbase : d.baseType? u with
  | some base =>
    refine he.inheritsAbstract_iff htokens hclass₀ hconcrete₀ (hseen.trans hbase)
      (hf.virtual base hbase) ?_
    rw [← hp.methods]
    exact hf.slots base hbase
  | none =>
    refine iff_of_false ?_ ?_
    · rw [Descriptor.inheritsAbstract, hseen, hbase]
      exact Bool.false_ne_true
    · rintro ⟨level, hlevel, m, hm, habstract, -⟩
      rw [hf.plain hbase m (after.owner_of_mem_methodsOf hm ▸ hlevel)] at habstract
      cases habstract

end Before

include hplace

/-- For a method of an interface of the batch the check asks for a public method of the
descriptor itself. -/
theorem hasPublicVirtual_iff {last : TypeHandle} {own : DraftMethod}
    (hstart : start ∈ d.interfaceDrafts) (hpath : ReflTransGen b.ListsDraft start last)
    (hlast : b.find? last = some di) (hown : own ∈ di.methods) (hstatic : own.isStatic = false) :
    d.hasPublicVirtual own.name own.signature = true ↔
        ¬ after.Lacks (l.place h) (Emission.become (l.place last) own) := by
  have he := hb.emission h d hd
  have hei := hb.emission last di hlast
  rw [he.not_lacks_iff_of_silent htokens hclass hconcrete,
    he.interfaceBody?_isSome_of_draft htokens hei hown]
  refine hf.silent _ (.inl ⟨start, hstart, last, hpath, (hplace last _).mpr ⟨⟨di, hlast⟩, rfl⟩⟩) _
    ((hei.mem_methodsOf_iff _).mpr ⟨own, hown, rfl⟩) ?_
  rw [MethodRecord.isStatic, (hei.head_become hown).2.2.1]
  exact hstatic

include hi

/-- The check for the interfaces of the batch, and for the existing ones that they list. -/
theorem owesDrafts_iff : b.owesDrafts u d = true ↔ ∃ start ∈ d.interfaceDrafts, ∃ last di,
    ReflTransGen b.ListsDraft start last
    ∧ b.find? last = some di
    ∧ ((∃ m ∈ after.methodsOf (l.place last), (after.method m).isStatic = false
      ∧ after.Lacks (l.place h) m)
      ∨ ∃ i ∈ di.interfaceTypes u, ∃ m ∈ after.methodsOf i, (after.method m).isStatic = false
      ∧ after.Lacks (l.place h) m) := by
  have he := hb.emission h d hd
  have howes : ∀ start ∈ d.interfaceDrafts, ∀ last di, ReflTransGen b.ListsDraft start last →
    b.find? last = some di →
      (owesInterface u d di = true ↔
        (∃ m ∈ after.methodsOf (l.place last), (after.method m).isStatic = false
        ∧ after.Lacks (l.place h) m)
        ∨ ∃ i ∈ di.interfaceTypes u, ∃ m ∈ after.methodsOf i, (after.method m).isStatic = false
        ∧ after.Lacks (l.place h) m) := by
    intro start hstart last di hpath hlast
    have hei := hb.emission last di hlast
    rw [owesInterface, Bool.or_eq_true, Array.any_eq_true', List.any_eq_true]
    refine or_congr ⟨?_, ?_⟩ (exists_congr fun i => and_congr_right fun hmem => ?_)
    · rintro ⟨own, hown, hmissing⟩
      rw [Bool.and_eq_true, Bool.not_eq_true', Bool.not_eq_true'] at hmissing
      refine ⟨_, (hei.mem_methodsOf_iff _).mpr ⟨own, hown, rfl⟩, ?_, ?_⟩
      · rw [MethodRecord.isStatic, (hei.head_become hown).2.2.1]
        exact hmissing.1
      · by_contra hruns
        have := (hb.hasPublicVirtual_iff htokens hd hclass hplace hf hconcrete hstart hpath hlast
          hown hmissing.1).mpr hruns
        rw [hmissing.2] at this
        cases this
    · rintro ⟨m, hm, hstatic, hlacks⟩
      obtain ⟨own, hown, rfl⟩ := (hei.mem_methodsOf_iff m).mp hm
      rw [MethodRecord.isStatic, (hei.head_become hown).2.2.1] at hstatic
      refine ⟨own, hown, ?_⟩
      rw [Bool.and_eq_true, Bool.not_eq_true', Bool.not_eq_true',
        ← Bool.not_eq_true (d.hasPublicVirtual _ _),
        hb.hasPublicVirtual_iff htokens hd hclass hplace hf hconcrete hstart hpath
        hlast hown hstatic]
      exact ⟨hstatic, not_not.mpr hlacks⟩
    · exact hb.any_missing_iff htokens hd hclass hf (.refl d) he.sound hi hconcrete
        (.extended hstart hpath hlast hmem)
  rw [owesDrafts, List.any_eq_true]
  constructor
  · rintro ⟨last, hmem, hmissing⟩
    obtain ⟨hknown, start, hstart, hpath⟩ := (mem_reachInterfaces_iff hd).mp hmem
    obtain ⟨di, hlast⟩ := Option.isSome_iff_exists.mp hknown
    rw [hlast, Option.any_some] at hmissing
    exact ⟨start, hstart, last, di, hpath, hlast,
      (howes start hstart last di hpath hlast).mp hmissing⟩
  · rintro ⟨start, hstart, last, di, hpath, hlast, hmissing⟩
    refine ⟨last, (mem_reachInterfaces_iff hd).mpr ⟨by rw [hlast]; rfl, start, hstart, hpath⟩, ?_⟩
    rw [hlast, Option.any_some]
    exact (howes start hstart last di hpath hlast).mpr hmissing

omit hplace hi in
/-- A method that the check does not look at is there, or its base leaves an abstract method to
the class. -/
theorem inherits_of_lacks {m : MethodId} (hundertakes : after.Undertakes (l.place h) i)
    (hdraft : ¬ b.LooksAtDraft place d i) (hexisting : ¬ b.LooksAt u d i)
    (hm : m ∈ after.methodsOf i) (hstatic : (after.method m).isStatic = false)
    (hlacks : after.Lacks (l.place h) m) : ∃ level ∈ after.bases (l.place h),
      ∃ k ∈ after.methodsOf level,
      (after.method k).isAbstract = true
      ∧ (after.method (after.resolveVirtual (l.place h) k)).isAbstract = true := by
  have he := hb.emission h d hd
  obtain ⟨hnone, hbaseLacks⟩ := (he.lacks_iff htokens hclass hconcrete).mp hlacks
  rcases hf.others i hundertakes hdraft hexisting m hm hstatic with hbody | ⟨p, k,
    hbase, hk, hfound⟩
  · rw [hnone] at hbody
    cases hbody
  · obtain ⟨hpLacks, hreplaced⟩ := hbaseLacks p hbase
    rw [Lacks, hk, Option.all_some] at hpLacks
    have hnamed := hfound hpLacks
    obtain ⟨hlevel, hmem, hvirtual, -⟩ := mem_of_inheritedBody? hnamed
    have hpClass : (after.record p).isInterface = false := he.wellFormed.base_class hbase
    have hkClass := he.wellFormed.class_of_mem_hierarchy hpClass hlevel
    -- On the base the method found by name runs itself.
    have hself : after.resolveVirtual p k = k := by
      rw [he.wellFormed.resolveInterfaceMethod_of_class hpClass, hnamed] at hk
      rw [resolveVirtual_of_class hkClass hvirtual]
      exact Option.some.inj hk
    refine ⟨k.owner, ?_, k, hmem, hpLacks, ?_⟩
    · rw [he.wellFormed.bases_eq, hbase]
      exact hlevel
    · rw [he.stays_iff hconcrete hbase hkClass hvirtual, hself]
      exact ⟨hreplaced k hnamed, hpLacks⟩

end Check

/-- The check of a descriptor that foresees its class finds it abstract exactly if it was created
so or the class is unfinished. What was asked before rows were registered is as good. -/
theorem isAbstract_iff (hb : b.Emits u after l objectType) (htokens : after.DistinctTokens)
    (hd : b.find? h = some d) (hclass : d.isInterface = false)
    (hplace : ∀ h i, place h = some i ↔ (∃ di, b.find? h = some di)
      ∧ i = l.place h) (hf : b.Foreseen u after place d (l.place h)) (hp : d₀.Predates d)
    (hsound : d₀.Sound u) (hi₀ : d₀.Implementing u)
    (hi : d.Implementing u) : (d₀.computeAbstract u || b.owesDrafts u d) = true
      ↔ hasBits d.flags TypeFlags.abstract = true ∨ after.Unfinished (l.place h) := by
  have he := hb.emission h d hd
  have hclass₀ : d₀.isInterface = false := by rw [Descriptor.isInterface, ← hp.flags]; exact hclass
  have hdeclares : d₀.methods.any DraftMethod.isAbstract = true ↔ ∃ m ∈ after.methodsOf (l.place h),
      (after.method m).isAbstract = true := by
    rw [← hp.methods, he.exists_bodiless_iff]
  rw [Descriptor.computeAbstract, hclass₀, Bool.false_or, ← hp.flags, Bool.or_eq_true,
    Bool.or_eq_true, Bool.or_eq_true, Bool.or_eq_true,
    hdeclares, or_assoc, or_assoc, or_assoc]
  refine or_congr_right ?_
  by_cases hown : ∃ m ∈ after.methodsOf (l.place h), (after.method m).isAbstract = true
  · refine iff_of_true (.inl hown) ?_
    obtain ⟨m, hm, habstract⟩ := hown
    exact .declares hm habstract
  have hconcrete : Emission.Concrete d := by
    intro own hmem
    rw [← Bool.not_eq_true]
    exact fun habstract =>
      hown (he.exists_bodiless_iff.mpr (Array.any_eq_true'.mpr ⟨own, hmem, habstract⟩))
  rw [or_iff_right hown, hb.inheritsAbstract_iff htokens hd hclass hf hp hsound hconcrete,
    hb.owesInterface_iff htokens hd hclass hf hp hsound hi₀ hconcrete,
    hb.owesDrafts_iff htokens hd hclass hplace hf hi hconcrete]
  constructor
  · rintro (⟨level, hlevel, m, hm, habstract, hstays⟩ | ⟨j, hj, i, hreaches, m, hm, hstatic, hlacks⟩
      | ⟨start, hstart, last, di, hpath, hlast, hmissing⟩)
    · exact .inherits hlevel hm habstract hstays
    · exact .owes (hb.undertakes_of_looksAt hd (.listed hj hreaches)) hm hstatic hlacks
    · rcases hmissing with ⟨m, hm, hstatic, hlacks⟩ | ⟨i, hmem, m, hm, hstatic, hlacks⟩
      · exact .owes (hb.undertakes_draft hd hstart hpath) hm hstatic hlacks
      · exact .owes (hb.undertakes_of_looksAt hd (.extended hstart hpath hlast hmem))
          hm hstatic hlacks
  · intro hunfinished
    cases hunfinished with
    | declares hm habstract => exact absurd ⟨_, hm, habstract⟩ hown
    | inherits hlevel hm habstract hstays => exact .inl ⟨_, hlevel, _, hm, habstract, hstays⟩
    | @owes i m hundertakes hm hstatic hlacks =>
      by_cases hdraft : b.LooksAtDraft place d i
      · obtain ⟨start, hstart, last, hpath, hi⟩ := hdraft
        obtain ⟨⟨di, hlast⟩, rfl⟩ := (hplace last i).mp hi
        exact .inr (.inr ⟨start, hstart, last, di, hpath, hlast, .inl ⟨m, hm, hstatic, hlacks⟩⟩)
      by_cases hexisting : b.LooksAt u d i
      · cases hexisting with
        | listed hj hreaches => exact .inr (.inl ⟨_, hj, i, hreaches, m, hm, hstatic, hlacks⟩)
        | extended hstart hpath hlast hmem =>
          exact .inr (.inr ⟨_, hstart, _, _, hpath, hlast, .inr ⟨i, hmem, m, hm, hstatic, hlacks⟩⟩)
      · exact .inl (hb.inherits_of_lacks htokens hd hclass hf hconcrete hundertakes hdraft hexisting
          hm hstatic hlacks)

end Batch.Emits

end TypeLoom
