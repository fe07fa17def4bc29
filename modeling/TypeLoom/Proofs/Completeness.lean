import TypeLoom.Proofs.AbstractSearches
import TypeLoom.Proofs.Dependencies
import TypeLoom.Proofs.Vetting

/-!
# Batches that can be generated

What operations have checked is enough for a batch to be generated, when its handles are those of
its own descriptors and members, the types that it derives from are there, and neither descriptors
nor the types that were there lead back to themselves. One check is missing: a method that is not
virtual is accepted as the declaration of an implementation, and is refused when the batch is
generated.
-/

namespace TypeLoom

open Attempt

/-! ### Handles of a batch -/

namespace Batch

variable {u : Universe} {b : Batch} {objectType : TypeId}

def HasType (b : Batch) (h : TypeHandle) : Prop := ∃ d, b.find? h = some d

def HasMethod (b : Batch) (m : MethodHandle) : Prop := ∃ d, b.find? m.owner = some d ∧ d.Produces m

def HasField (b : Batch) (f : FieldHandle) : Prop := ∃ d, b.find? f.owner = some d
    ∧ (d.field? f).isSome

instance (b : Batch) (h : TypeHandle) : Decidable (b.HasType h) :=
  decidable_of_iff (b.find? h).isSome Option.isSome_iff_exists

instance (d : Descriptor) (m : MethodHandle) : Decidable (d.Produces m) := by
  unfold Descriptor.Produces
  rcases m with ⟨owner, _ | _ | _⟩ <;> exact inferInstance

instance (b : Batch) (m : MethodHandle) : Decidable (b.HasMethod m) :=
  decidable_of_iff (∃ d ∈ b.find? m.owner, d.Produces m) Iff.rfl

instance (b : Batch) (f : FieldHandle) : Decidable (b.HasField f) :=
  decidable_of_iff (∃ d ∈ b.find? f.owner, (d.field? f).isSome) Iff.rfl

end Batch

def Signature.Denotes (b : Batch) (s : Signature) : Prop := ∀ h ∈ s.draft?, b.HasType h

def MethodTarget.Denotes (b : Batch) : MethodTarget → Prop
  | .draft h => b.HasMethod h
  | .member _ => True

def FieldTarget.Denotes (b : Batch) : FieldTarget → Prop
  | .draft h => b.HasField h
  | .member _ => True

/-- A handle that the expression itself names is one of the batch. -/
def Expr.Denotes (b : Batch) : Expr → Prop
  | call _ method _ _ => method.Denotes b
  | new constructor _ => constructor.Denotes b
  | load _ field => field.Denotes b
  | store _ field _ => field.Denotes b
  | _ => True

instance (b : Batch) : (m : MethodTarget) → Decidable (m.Denotes b)
  | .draft h => inferInstanceAs (Decidable (b.HasMethod h))
  | .member _ => isTrue trivial

instance (b : Batch) : (f : FieldTarget) → Decidable (f.Denotes b)
  | .draft h => inferInstanceAs (Decidable (b.HasField h))
  | .member _ => isTrue trivial

instance (b : Batch) (s : Signature) : Decidable (s.Denotes b) :=
  inferInstanceAs (Decidable (∀ h ∈ s.draft?, b.HasType h))

instance (b : Batch) (e : Expr) : Decidable (e.Denotes b) := by
  cases e with
  | call _ method _ _ => exact inferInstanceAs (Decidable (method.Denotes b))
  | new constructor _ => exact inferInstanceAs (Decidable (constructor.Denotes b))
  | load _ field => exact inferInstanceAs (Decidable (field.Denotes b))
  | store _ field _ => exact inferInstanceAs (Decidable (field.Denotes b))
  | _ => exact isTrue trivial

/-- A type that the signature names is still there. -/
def Signature.Alive (u : Universe) (s : Signature) : Prop := ∀ t ∈ s.class?, u.isPresent t

instance (u : Universe) (s : Signature) : Decidable (s.Alive u) :=
  inferInstanceAs (Decidable (∀ t ∈ s.class?, u.isPresent t))

def Descriptor.expressions (d : Descriptor) : List Expr :=
  (d.methods.toList ++ d.constructors.toList ++ d.typeInitializer.toList).filterMap (·.body)
    ++ d.initializations.toList ++ d.typeInitializations.toList

namespace Batch

variable {u : Universe} {b : Batch} {objectType : TypeId}

/-- All handles in signatures and expressions are those of descriptors and members of the batch. -/
structure SelfContained (b : Batch) : Prop where
  signatures : ∀ h d, b.find? h = some d → ∀ s ∈ d.mentionedSignatures, s.Denotes b
  expressions : ∀ h d, b.find? h = some d → ∀ e ∈ d.expressions, ∀ n ∈ e.nodes, n.Denotes b

/-- The bases and interfaces that are no descriptors are still there. -/
structure Alive (u : Universe) (b : Batch) : Prop where
  base : ∀ h d, b.find? h = some d → ∀ s ∈ d.base, s.Alive u
  interfaces : ∀ h d, b.find? h = some d → ∀ s ∈ d.interfaces, s.Alive u

/-- Implementations are declared by virtual methods. -/
def ImplementsVirtual (u : Universe) (b : Batch) : Prop :=
  ∀ h d, b.find? h = some d → ∀ m ∈ d.methods, ∀ declaration ∈ m.explicitOverrides,
    (u.method declaration).isVirtual = true

theorem of_types {Q : Descriptor → Prop} (h : ∀ d ∈ b.types.toList, Q d) (t : TypeHandle)
    (d : Descriptor) (hd : b.find? t = some d) :
    Q d :=
  h d (Array.mem_toList_iff.mpr (Array.mem_of_getElem? hd))

/-- Descriptors that only depend on earlier ones do not depend on themselves. -/
theorem Acyclic.of_lt (h : ∀ t d, b.find? t = some d → ∀ on ∈ d.hardDependencies,
      on.index < t.index) : b.Acyclic := by
  intro t hcycle
  have hlt : ∀ x y, Relation.TransGen b.DependsOn x y → y.index < x.index := by
    intro x y hpath
    induction hpath with
    | single hone =>
      obtain ⟨d, hd, hon⟩ := hone
      exact h _ d hd _ hon
    | tail _ hlast ih =>
      obtain ⟨d, hd, hon⟩ := hlast
      exact Nat.lt_trans (h _ d hd _ hon) ih
  exact Nat.lt_irrefl _ (hlt t t hcycle)

end Batch

/-! ### What was checked is enough -/

section Checks

variable {u : Universe} {b : Batch} {objectType : TypeId} {P : Blueprint} {h : TypeHandle}
  {d : Descriptor}
variable (hwf : b.WellFormed) (hfor : P.For u b.closeAll)
include hwf hfor

/-- What was checked of the flags of a type holds of the flags that it is declared with. -/
theorem Signature.Suits.offers {accepts : UInt32 → Prop} {s : Signature} (hs : s.Suits u b accepts)
    (halive : s.Alive u) (haccepts : ∀ flags, accepts flags →
      accepts (flags ||| TypeFlags.abstract)) :
    s.Offers P accepts := by
  cases s with
  | draft x =>
    obtain ⟨d, hd, hflags⟩ := hs
    have hmem := Production.mem_of_find hwf hfor hd
    refine ⟨hmem, ?_⟩
    rcases hfor.flagged hd hmem with heq | heq
    · rw [heq]
      exact hflags
    · rw [heq]
      exact haccepts _ hflags
  | ofClass t =>
    rw [Offers, hfor.program]
    exact ⟨halive t rfl, hs.2⟩
  | _ => exact hs.elim

theorem Descriptor.Vetted.definable (hd : b.find? h = some d) (hvetted : d.Vetted u b h d.flags)
    (hcontained : b.SelfContained) (halive : b.Alive u) (hpresent : u.isPresent objectType)
    (hderivable : TypeFlags.Derivable (u.record objectType).flags) :
    d.Definable P objectType where
  base := by
    intro s hs
    rw [effectiveBase, Option.or_eq_some_iff] at hs
    rcases hs with hbase | ⟨-, hroot⟩
    · refine (hvetted.base s hbase).offers hwf hfor (halive.base h d hd s hbase) fun flags hflags =>
        ?_
      exact ⟨(hasBits_set _ _ _ rfl).trans hflags.1, (hasBits_set _ _ _ rfl).trans hflags.2⟩
    · split at hroot
      · cases hroot
      · obtain rfl := Option.some.inj hroot
        rw [Signature.Offers, hfor.program]
        exact ⟨hpresent, hderivable⟩
  interfaces := fun s hs => by
    refine (hvetted.interfaces s hs).offers hwf hfor (halive.interfaces h d hd s hs)
      fun flags hflags => ?_
    exact (hasBits_set _ _ _ rfl).trans hflags
  signatures := fun s hs x hx => by
    obtain ⟨d', hd'⟩ := hcontained.signatures h d hd s hs x (by rw [hx]; rfl)
    exact Production.mem_of_find hwf hfor hd'

theorem Expr.Denotes.resolves {e : Emitted} (he : e.Lists P.layout (P.full objectType)) {n : Expr}
    (hn : n.Denotes b) :
    n.Resolves e := by
  have hmethod : ∀ m : MethodTarget, m.Denotes b → ∃ target, Lower.methodTarget e m
      = .ok target := by
    intro m hm
    cases m with
    | member m => exact ⟨_, rfl⟩
    | draft handle =>
      obtain ⟨d, hd, hproduces⟩ := hm
      have hrow : ((P.full objectType handle.owner).method? handle.slot).isSome := by
        rw [hfor.full hd]
        exact (Descriptor.isSome_portrait_method (hwf _ d hd).handle).mpr hproduces
      have hfound := he.methods.find? ⟨Production.mem_of_find hwf hfor hd, hrow⟩
      exact ⟨_, by rw [Lower.methodTarget, Emitted.method, Emitted.require, hfound]; rfl⟩
  have hfield : ∀ f : FieldTarget, f.Denotes b → ∃ target, Lower.fieldTarget e f = .ok target := by
    intro f hf
    cases f with
    | member f => exact ⟨_, rfl⟩
    | draft handle =>
      obtain ⟨d, hd, hsome⟩ := hf
      have hrow : handle.index < (P.full objectType handle.owner).fields.size := by
        rw [Descriptor.field?, if_pos (hwf _ d hd).handle.symm, isSome_getElem?] at hsome
        rw [hfor.full hd]
        simpa [Descriptor.portrait, Descriptor.corePortrait] using hsome
      have hfound := he.fields.find? ⟨Production.mem_of_find hwf hfor hd, hrow⟩
      exact ⟨_, by rw [Lower.fieldTarget, Emitted.field, Emitted.require, hfound]; rfl⟩
  cases n with
  | call receiver method arguments dispatch => exact hmethod method hn
  | new constructor arguments => exact hmethod constructor hn
  | load receiver field => exact hfield field hn
  | store receiver field value => exact hfield field hn
  | _ => trivial

theorem Descriptor.Vetted.ready (hd : b.find? h = some d) (hvetted : d.Vetted u b h d.flags)
    (hcontained : b.SelfContained) (hvirtual : b.ImplementsVirtual u) {e : Emitted}
    (he : e.Lists P.layout (P.full objectType)) {a : Attachment} (ha : a ∈ d.queued P.layout) :
        a.Ready P e := by
  have hexpression : ∀ x ∈ d.expressions, ∀ n ∈ x.nodes, n.Resolves e := fun x hx n hn =>
    (hcontained.expressions h d hd x hx n hn).resolves hwf hfor he
  have hblock : ∀ items : List Expr, (∀ x ∈ items, x ∈ d.expressions) →
      ∀ n ∈ (Expr.block items).nodes, n.Resolves e := by
    intro items hitems n hn
    rw [Expr.nodes, List.mem_cons, Expr.nodesAll_eq_flatMap] at hn
    rcases hn with rfl | hn
    · trivial
    · obtain ⟨x, hx, hn⟩ := List.mem_flatMap.mp hn
      exact hexpression x (hitems x hx) n hn
  have hbody : ∀ m : DraftMethod, m ∈ d.methods ∨ m ∈ d.constructors ∨ d.typeInitializer = some m →
      ∀ x, m.body = some x → x ∈ d.expressions := by
    intro m hm x hx
    simp only [expressions, List.mem_append, List.mem_filterMap, Array.mem_toList_iff,
      Option.mem_toList]
    exact .inl (.inl ⟨m, by simpa [or_assoc] using hm, hx⟩)
  rcases mem_queued.mp ha with ⟨c, hc, rfl⟩ | ⟨-, rfl⟩ | ⟨m, hm, body, hsome, rfl⟩ | ⟨m, hm,
    declaration, hmem, rfl⟩
  · refine hblock _ fun x hx => ?_
    rcases List.mem_append.mp hx with hx | hx
    · exact List.mem_append_left _ (List.mem_append_right _ hx)
    · exact hbody c (.inr (.inl hc)) x (Option.mem_toList.mp hx)
  · refine hblock _ fun x hx => ?_
    rcases List.mem_append.mp hx with hx | hx
    · exact List.mem_append_right _ hx
    · obtain ⟨m, hm, hx⟩ := Option.bind_eq_some_iff.mp (Option.mem_toList.mp hx)
      exact hbody m (.inr (.inr hm)) x hx
  · exact hexpression body (hbody m (.inl hm) body hsome)
  · have hdeclared : (u.method declaration).isVirtual = true := by
      rcases List.mem_append.mp hmem with hbase | hexplicit
      · exact hvetted.overrides m hm declaration (Option.mem_toList.mp hbase)
      · exact hvirtual h d hd m hm declaration (Array.mem_toList_iff.mp hexplicit)
    rw [Attachment.Ready, hfor.program, hfor.start]
    exact ⟨u.lt_of_isSome_method? declaration (isSome_of_isVirtual hdeclared), hdeclared⟩

end Checks

namespace Batch

variable {u : Universe} {b : Batch} {objectType : TypeId}

theorem dependsOn_closeAll {h on : TypeHandle} : b.closeAll.DependsOn h on ↔ b.DependsOn h on := by
  rw [DependsOn, DependsOn, find?_closeAll]
  constructor
  · rintro ⟨d, hd, hon⟩
    obtain ⟨open', hopen, rfl⟩ := Option.map_eq_some_iff.mp hd
    exact ⟨open', hopen, hon⟩
  · rintro ⟨d, hd, hon⟩
    exact ⟨d.close, by rw [hd, Option.map_some], hon⟩

theorem Built.generable (hb : b.Built u) (hcontained : b.SelfContained) (halive : b.Alive u)
    (hacyclic : b.Acyclic) (hvirtual : b.ImplementsVirtual u) (hpresent : u.isPresent objectType)
    (hderivable : TypeFlags.Derivable (u.record objectType).flags) :
        b.closeAll.Generable u objectType := by
  have hwf := hb.formed.wellFormed
  have hvetted := hb.vetted
  refine ⟨exists_order (fun i d hd => (hwf.closeAll ⟨i⟩ d hd).handle) fun h hcycle => ?_,
    fun h d hd outer houter => ?_,
    fun P hfor h hmem => ?_, fun P hfor e he a ha => ?_⟩
  · exact hacyclic h (Relation.TransGen.mono (fun h on => dependsOn_closeAll.mp) h h hcycle)
  · rw [find?_closeAll] at hd
    obtain ⟨open', hopen, rfl⟩ := Option.map_eq_some_iff.mp hd
    have hlt := (hvetted h open' hopen).declaring outer houter
    have hinside : h.index < b.types.size := (Array.getElem?_eq_some_iff.mp hopen).1
    refine ⟨fun heq => Nat.ne_of_lt hlt (congrArg TypeHandle.index heq), ?_⟩
    rw [show b.closeAll.types.size = b.types.size from Array.size_map]
    exact Nat.lt_trans hlt hinside
  · obtain ⟨d, hd⟩ := Option.isSome_iff_exists.mp ((hfor.mem_order hwf).mp hmem)
    have hdefinable := (hvetted h d hd).definable hwf hfor hd hcontained halive hpresent hderivable
    have hforgotten : (P.descriptor h).forget.Definable P objectType := by
      rw [hfor.forget_descriptor hd]
      exact ⟨hdefinable.base, hdefinable.interfaces, hdefinable.signatures⟩
    exact ⟨hforgotten.base, hforgotten.interfaces, hforgotten.signatures⟩
  · obtain ⟨h, hmem, ha⟩ := List.mem_flatMap.mp ha
    obtain ⟨d, hd⟩ := Option.isSome_iff_exists.mp ((hfor.mem_order hwf).mp hmem)
    rw [hfor.queued hd] at ha
    exact (hvetted h d hd).ready hwf hfor hd hcontained hvirtual he ha

end Batch

/-! ### Searches while types are declared -/

namespace Production

variable {u : Universe} {b : Batch} {l : Layout} {done rest : List TypeHandle} {p : Production}
  {t : TypeId} {h : TypeHandle}
  {d : Descriptor}

/-- What there is when these descriptors are declared. -/
def declared (b : Batch) (w : Workshop) (done : List TypeHandle) : Production :=
  ((done.forM declare).start { batch := b.closeAll, workshop := w }).2

section Begun

variable (hp : Begun u b l done p) (hnodup : l.order.Nodup) (horder : l.order = done ++ rest)
  (hstart : l.start = u.types.size)
include hp hnodup horder

/-- A declared type has neither base nor interfaces yet. -/
theorem Begun.unlinked (ht : l.start ≤ t.index) :
    (p.program.record t).base = none ∧ (p.program.record t).interfaces = #[] := by
  by_cases hlt : t.index < p.program.types.size
  · rw [hp.size] at hlt
    have hi : t.index - l.start < done.length := by omega
    have hplaced : l.order[t.index - l.start]? = some done[t.index - l.start] := by
      rw [horder, List.getElem?_append_left hi, List.getElem?_eq_getElem hi]
    obtain ⟨d, flags, -, -, hrecord⟩ := hp.records _ (List.getElem_mem hi)
    rw [Layout.place_of_getElem? hnodup hplaced, Nat.add_sub_cancel' ht] at hrecord
    exact ⟨congrArg TypeRecord.base hrecord, congrArg TypeRecord.interfaces hrecord⟩
  · rw [p.program.record_of_le t (Nat.not_lt.mp hlt)]
    exact ⟨rfl, rfl⟩

include hstart

theorem Begun.links (t : TypeId) :
    (p.program.record t).base = (u.record t).base ∧ (p.program.record t).interfaces
    = (u.record t).interfaces := by
  by_cases ht : t.index < l.start
  · rw [hp.old t ht]
    exact ⟨rfl, rfl⟩
  · rw [u.record_of_le t (by omega)]
    exact hp.unlinked hnodup horder (Nat.not_lt.mp ht)

theorem Begun.soundGraph (hsound : u.SoundGraph) (hwithin : u.RefersWithin) :
    p.program.SoundGraph := by
  have hbase : ∀ t x, p.program.HasBase t x ↔ u.HasBase t x := fun t x => by
    rw [Universe.HasBase, Universe.HasBase, (hp.links hnodup horder hstart t).1]
  have hlists : ∀ t x, p.program.Lists t x ↔ u.Lists t x := fun t x => by
    rw [Universe.Lists, Universe.Lists, (hp.links hnodup horder hstart t).2]
  have hold : ∀ x : TypeId, x.index < u.types.size → p.program.record x = u.record x :=
    fun x hx => hp.old x (hstart ▸ hx)
  refine ⟨fun t => ⟨fun x hx => ?_, fun x hx => ?_, fun v hv hclass => ?_⟩, fun t hcycle => ?_,
    fun t hcycle => ?_⟩
  · have hx' := (hbase t x).mp hx
    rw [hold x (hwithin.bases t x hx')]
    exact (hsound.regular t).base x hx'
  · have hx' := (hlists t x).mp hx
    rw [hold x (hwithin.interfaces t x hx')]
    exact (hsound.regular t).interfaces x hx'
  · have hv' : v ∈ (u.record t).overrides := by
      have hlisted : v ∈ (p.program.outline t).overrides := Array.mem_toList_iff.mpr hv
      rw [hp.overrides] at hlisted
      exact Array.mem_toList_iff.mp hlisted
    have hclass' : (u.record v.declaration.owner).isInterface = false := by
      by_cases hlt : v.declaration.owner.index < u.types.size
      · rwa [hold _ hlt] at hclass
      · rw [u.record_of_le _ (Nat.not_lt.mp hlt)]
        rfl
    obtain ⟨hvirtual, hpath⟩ := (hsound.regular t).overrides v hv' hclass'
    have hlt : v.declaration.owner.index < u.types.size := by
      cases hpath with
      | single hlast => exact hwithin.bases _ _ hlast
      | tail _ hlast => exact hwithin.bases _ _ hlast
    refine ⟨?_, Relation.TransGen.mono (fun t x => (hbase t x).mpr) _ _ hpath⟩
    rw [Universe.method, Universe.method?, hold _ hlt]
    exact hvirtual
  · exact hsound.bases t (Relation.TransGen.mono (fun t x => (hbase t x).mp) _ _ hcycle)
  · exact hsound.interfaces t (Relation.TransGen.mono (fun t x => (hlists t x).mp) _ _ hcycle)

end Begun

/-- The pass over the first descriptors of the order succeeds. -/
theorem begun_declared {objectType : TypeId} {w : Workshop} (hwf : b.WellFormed)
    (hgood : b.closeAll.Generable w.space.program objectType) {order : List TypeHandle}
    (horder : b.closeAll.order = .ok order) (hsplit : order = done ++ rest) :
    Begun w.space.program b.closeAll ⟨w.space.program.types.size, order⟩ done
        (declared b w done) := by
  have hordered : b.closeAll.Ordered order :=
    Batch.order_ok (fun i d hd => (hwf.closeAll ⟨i⟩ d hd).handle) horder
  let l : Layout := ⟨w.space.program.types.size, order⟩
  have hstep : ∀ before h after, done = before ++ h :: after →
    ∀ mid, Begun w.space.program b.closeAll l before mid →
      (declare h).wp (fun _ => Begun w.space.program b.closeAll l (before ++ [h])) (fun _ =>
        ¬ True) mid := by
    intro before h after heq mid hmid
    have hhere : l.order = before ++ h :: (after ++ rest) := by
      show order = _
      rw [hsplit, heq, List.append_assoc, List.cons_append]
    refine wp_declare_begun hordered.nodup hhere (fun _ => ?_) hmid
    have hlt : h.index < b.closeAll.types.size :=
      (hordered.mem h).mp (by rw [show order = _ from hhere]; simp)
    refine ⟨_, Array.getElem?_eq_getElem hlt,
      enclosing_done hordered hhere (Array.getElem?_eq_getElem hlt) fun outer houter => ?_⟩
    obtain ⟨hne, hinside⟩ := hgood.declaring h _ (Array.getElem?_eq_getElem hlt) outer houter
    exact ⟨hne, (hordered.mem outer).mpr hinside⟩
  have hrun := wp_forM (I := Begun w.space.program b.closeAll l) done hstep (begun_start w order)
  exact wp_const.mp (wp_mono hrun (fun _ _ hbegun => hbegun) fun _ hfalse => absurd trivial hfalse)

theorem Begun.settles (hp : Begun u b.closeAll l done p) (hnodup : l.order.Nodup)
    (horder : l.order = done ++ rest) (hstart : l.start = u.types.size) (hsound : u.SoundGraph)
    (hwithin : u.RefersWithin) (hvetted : b.Vetted u) (hd : p.batch.find? h = some d) :
        d.Settles p.program := by
  refine Descriptor.settles_of_soundGraph (hp.soundGraph hnodup horder hstart hsound hwithin)
    fun base hbase => ?_
  obtain ⟨closed, hclosed, hforget⟩ := hp.remembers.symm.find hd
  rw [Batch.find?_closeAll] at hclosed
  obtain ⟨known, hknown, rfl⟩ := Option.map_eq_some_iff.mp hclosed
  have hread : ∀ e : Descriptor, e.base = e.forget.base := fun _ => rfl
  have hnamed : known.base = some (.ofClass base) := by
    rw [← (Descriptor.baseType?_eq_some hbase).1, hread d, ← hforget]
    rfl
  obtain ⟨hlt, hderivable⟩ := (hvetted h known hknown).base _ hnamed
  rw [hp.old base (hstart ▸ hlt)]
  exact hderivable.2

end Production

/-- A batch is generated if its handles are its own, the types that it derives from are there, no
descriptor depends on itself, its implementations are declared by virtual methods, and the graph
of the types that were there is sound. What is asked to tell whether the next type is abstract
then has an answer each time. -/
theorem Production.generate_succeeds {objectType : TypeId} {b : Batch} {w : Workshop}
    (hb : b.Built w.space.program) (hcontained : b.SelfContained) (halive : b.Alive w.space.program)
    (hacyclic : b.Acyclic) (hvirtual : b.ImplementsVirtual w.space.program)
    (hpresent : w.space.program.isPresent objectType)
    (hderivable : TypeFlags.Derivable (w.space.program.record objectType).flags)
    (hsound : w.space.program.SoundGraph)
    (hwithin : w.space.program.RefersWithin) :
    (∃ g after, (generate objectType).start { batch := b, workshop := w } = (.ok g, after))
      ∧ ∀ order, b.closeAll.order = .ok order → ∀ done h rest, order = done ++ h :: rest →
        ∃ d, (declared b w done).batch.find? h = some d
        ∧ d.Settles (declared b w done).program := by
  have hgenerable := hb.generable hcontained halive hacyclic hvirtual hpresent hderivable
  constructor
  · have hfinished := wp_generate_finished (G :=
      True) objectType hb.formed.wellFormed hb.formed.drafted.whole w fun _ => hgenerable
    rcases hrun : (generate objectType).start { batch := b, workshop := w } with ⟨f | g, after⟩
    · exact absurd trivial ((wp_iff.mp hfinished).2 f after hrun)
    · exact ⟨g, after, rfl⟩
  · intro order horder done h rest hsplit
    have hordered : b.closeAll.Ordered order :=
      Batch.order_ok (fun i d hd => (hb.formed.wellFormed.closeAll ⟨i⟩ d hd).handle) horder
    have hbegun := begun_declared hb.formed.wellFormed hgenerable horder hsplit
    have hlt : h.index < b.closeAll.types.size := (hordered.mem h).mp (by rw [hsplit]; simp)
    obtain ⟨d, hd, -⟩ := hbegun.remembers.find (Array.getElem?_eq_getElem hlt)
    exact ⟨d, hd, hbegun.settles hordered.nodup hsplit rfl hsound hwithin hb.vetted hd⟩

/-! ### Two batches -/

namespace Production

open Batch

theorem refersWithin_fresh : freshWorkshop.space.program.RefersWithin :=
  Universe.refersWithin_of_types (by decide +kernel)

theorem not_lists_fresh (t : TypeId) :
    ¬ Relation.TransGen freshWorkshop.space.program.Lists t t := by
  have hnone : ∀ r ∈ freshWorkshop.space.program.types.toList, r.interfaces = #[] := by
    decide +kernel
  refine not_transGen_of_lt (fun a b hab => ?_) t
  rw [Universe.Lists, hnone _ (Universe.record_mem (Universe.lt_of_lists hab))] at hab
  exact absurd hab (Array.not_mem_empty _)

theorem not_hasBase_fresh (t : TypeId) :
    ¬ Relation.TransGen freshWorkshop.space.program.HasBase t t :=
  not_transGen_of_lt (fun _ _ hbase =>
    (TypeSpace.sound_fresh Universe.wellFormed_empty).wellFormed.base_lt hbase) t

theorem soundGraph_fresh : freshWorkshop.space.program.SoundGraph where
  regular := fun t => by
    have hrecords : ∀ r ∈ freshWorkshop.space.program.types.toList, r.interfaces = #[]
      ∧ r.overrides = #[]
        ∧ ∀ b ∈ r.base, (freshWorkshop.space.program.record b).isSealed = false
          ∧ (freshWorkshop.space.program.record b).isInterface = false := by decide +kernel
    by_cases ht : t.index < freshWorkshop.space.program.types.size
    · obtain ⟨hinterfaces, hoverrides, hbase⟩ := hrecords _ (Universe.record_mem ht)
      refine ⟨fun b hb => hbase b hb, fun i hi => ?_, fun v hv => ?_⟩
      · rw [Universe.Lists, hinterfaces] at hi
        exact absurd hi (Array.not_mem_empty _)
      · rw [hoverrides] at hv
        exact absurd hv (Array.not_mem_empty _)
    · have hnone := Universe.record_of_le _ t (Nat.not_lt.mp ht)
      refine ⟨fun b hb => absurd (Universe.lt_of_hasBase hb) ht, fun i hi =>
        absurd (Universe.lt_of_lists hi) ht, fun v hv => ?_⟩
      rw [hnone] at hv
      exact absurd hv (Array.not_mem_empty _)
  bases := not_hasBase_fresh
  interfaces := not_lists_fresh

/-- The interface and the class that counts are generated, and asking whether the class is
abstract comes to an end. -/
theorem generate_succeeds_counter :
    (∃ g after, (generate ⟨0⟩).start
      { batch := Edit.run freshWorkshop.space.program {} counterEdits,
        workshop := freshWorkshop } = (.ok g, after))
    ∧ ∃ d, (declared (Edit.run freshWorkshop.space.program {} counterEdits) freshWorkshop
      [⟨0⟩]).batch.find? ⟨1⟩ = some d
      ∧ d.Settles (declared (Edit.run freshWorkshop.space.program {} counterEdits) freshWorkshop
        [⟨0⟩]).program := by
  let b := Edit.run freshWorkshop.space.program {} counterEdits
  have hbuilt : b.Built freshWorkshop.space.program :=
    (Built.empty _).run (by simp [counterEdits, Edit.Held])
  have hhandles := hbuilt.formed.wellFormed
  have hsignatures : ∀ d ∈ b.types.toList, ∀ s ∈ d.mentionedSignatures, s.Denotes b := by
    decide +kernel
  have hexpressions : ∀ d ∈ b.types.toList, ∀ e ∈ d.expressions, ∀ n ∈ e.nodes, n.Denotes b := by
    decide +kernel
  have hbases : ∀ d ∈ b.types.toList, ∀ s ∈ d.base, s.Alive freshWorkshop.space.program := by
    decide +kernel
  have hinterfaces : ∀ d ∈ b.types.toList, ∀ s ∈ d.interfaces,
    s.Alive freshWorkshop.space.program := by decide +kernel
  have hearlier : ∀ d ∈ b.types.toList, ∀ on ∈ d.hardDependencies, on.index < d.handle.index := by
    decide +kernel
  have hvirtual : ∀ d ∈ b.types.toList, ∀ m ∈ d.methods, ∀ declaration ∈ m.explicitOverrides,
      (freshWorkshop.space.program.method declaration).isVirtual = true := by decide +kernel
  have hacyclic : b.Acyclic := .of_lt fun t d hd => by
    have hearlier' := of_types hearlier t d hd
    rw [(hhandles t d hd).handle] at hearlier'
    exact hearlier'
  have hpresent : freshWorkshop.space.program.isPresent ⟨0⟩ := by decide +kernel
  have hderivable : TypeFlags.Derivable (freshWorkshop.space.program.record ⟨0⟩).flags := by
    decide +kernel
  have horder : b.closeAll.order = .ok [⟨0⟩, ⟨1⟩] := by
    have hnodes : b.closeAll.order.toOption = some [⟨0⟩, ⟨1⟩] := by decide +kernel
    cases hresult : b.closeAll.order with
    | error f => simp [hresult, Except.toOption] at hnodes
    | ok order => simpa [hresult, Except.toOption] using hnodes
  obtain ⟨hok, hsettled⟩ := generate_succeeds hbuilt ⟨of_types hsignatures, of_types hexpressions⟩
    ⟨of_types hbases, of_types hinterfaces⟩ hacyclic (of_types hvirtual) hpresent hderivable
    soundGraph_fresh refersWithin_fresh
  exact ⟨hok, hsettled _ horder [⟨0⟩] ⟨1⟩ [] rfl⟩

def succeedAll (u : Universe) : Batch → List Edit → Bool
  | _, [] => true
  | b, e :: rest => ((e.perform u).start b).1.isOk && succeedAll u ((e.perform u).start b).2 rest

/-- What successful edits have checked is enough, whatever declares the implementations. -/
def EarlyChecksSuffice : Prop :=
  ∀ (objectType : TypeId) (edits : List Edit) (w : Workshop),
    (∀ e ∈ edits, e.Held w.space.program) →
    succeedAll w.space.program {} edits = true →
    (Edit.run w.space.program {} edits).SelfContained →
      (Edit.run w.space.program {} edits).Alive w.space.program →
    (Edit.run w.space.program {} edits).Acyclic → w.space.program.isPresent objectType →
    TypeFlags.Derivable (w.space.program.record objectType).flags →
    ∃ g after, (generate objectType).start
      { batch := Edit.run w.space.program {} edits, workshop := w } = (.ok g, after)

def staticInterface : ClassSpec :=
  ({ space := "App", name := "I" } : ClassSpec).interface.method "S"
    (MethodSpec.static { body := .fixed .empty })

def staticWorkshop : Workshop :=
  { space := ((TypeSpace.buildClass staticInterface).start (TypeSpace.fresh {})).2 }

def staticEdits : List Edit :=
  [.createType "App" "C" TypeFlags.isPublic none, .addInterface ⟨0⟩ ⟨3⟩ false,
    .implementMethod ⟨0⟩ ⟨⟨3⟩, .method 0⟩,
    .setMethodBody ⟨0⟩ ⟨⟨0⟩, .method 0⟩ .empty]

/-- Each edit succeeds, and then the class cannot be generated. -/
theorem not_earlyChecksSuffice : ¬ EarlyChecksSuffice := by
  intro hsuffice
  let b := Edit.run staticWorkshop.space.program {} staticEdits
  have hpresent : staticWorkshop.space.program.isPresent ⟨3⟩ = true := by decide +kernel
  have hheld : ∀ e ∈ staticEdits, e.Held staticWorkshop.space.program := by
    simp [staticEdits, Edit.Held, hpresent]
  have hsucceed : succeedAll staticWorkshop.space.program {} staticEdits = true := by decide +kernel
  have hsignatures : ∀ d ∈ b.types.toList, ∀ s ∈ d.mentionedSignatures, s.Denotes b := by
    decide +kernel
  have hexpressions : ∀ d ∈ b.types.toList, ∀ e ∈ d.expressions, ∀ n ∈ e.nodes, n.Denotes b := by
    decide +kernel
  have hbases : ∀ d ∈ b.types.toList, ∀ s ∈ d.base, s.Alive staticWorkshop.space.program := by
    decide +kernel
  have hinterfaces : ∀ d ∈ b.types.toList, ∀ s ∈ d.interfaces,
    s.Alive staticWorkshop.space.program := by decide +kernel
  have hfree : ∀ d ∈ b.types.toList, ∀ on ∈ d.hardDependencies, False := by decide +kernel
  have hcontained : b.SelfContained := ⟨of_types hsignatures, of_types hexpressions⟩
  have halive : b.Alive staticWorkshop.space.program := ⟨of_types hbases, of_types hinterfaces⟩
  have hacyclic : b.Acyclic := .of_lt fun t d hd on hon => (of_types hfree t d hd on hon).elim
  obtain ⟨g, after, hrun⟩ :=
    hsuffice ⟨0⟩ staticEdits staticWorkshop hheld hsucceed hcontained halive hacyclic
    (by decide +kernel) ⟨by decide +kernel, by decide +kernel⟩
  have hfails : ((generate ⟨0⟩).start { batch := b, workshop := staticWorkshop }).1.isOk = false :=
    by decide +kernel
  rw [hrun] at hfails
  cases hfails

end Production

end TypeLoom
