import TypeLoom.Proofs.Announcing
import TypeLoom.Proofs.Finishing
import TypeLoom.Proofs.Formed

/-!
# Images of batches

When a batch was generated, each of its handles stands for what came out of it: types for types, and
for each member a member of the same kind at the same place of the type that came out of its owner.
Names and flags are the same, signatures are lowered, and nothing that came out names a descriptor
any more.
-/

namespace TypeLoom

open Attempt Function

/-! ### What comes out of a batch

The four passes of a generation, put together: when it succeeds, each type of the batch has the
portrait of its descriptor and is finished, and each body was lowered from one that was queued. It
fails only when the batch cannot be ordered, asks for what is not there, or names what does not come
out.
-/

structure Blueprint.For (u : Universe) (b : Batch) (P : Blueprint) : Prop where
  program : P.program = u
  start : P.layout.start = u.types.size
  order : b.order = .ok P.layout.order
  remembers : b.Remembers P.batch
  flags : ∀ h ∈ P.layout.order, (P.descriptor h).Flagged (P.flags h)

structure Batch.Generable (u : Universe) (objectType : TypeId) (b : Batch) : Prop where
  ordered : ∃ order, b.order = .ok order
  declaring : ∀ h d, b.find? h = some d → ∀ outer ∈ d.declaring, outer ≠ h
    ∧ outer.index < b.types.size
  definable : ∀ P : Blueprint, P.For u b → ∀ h ∈ P.layout.order,
    (P.descriptor h).Definable P objectType
  ready : ∀ P : Blueprint, P.For u b → ∀ e : Emitted, e.Lists P.layout (P.full objectType) →
    ∀ a ∈ P.layout.order.flatMap P.queued, a.Ready P e

namespace Production

variable {u : Universe} {b : Batch} {objectType : TypeId} {p : Production} {G : Prop}

theorem begun_start (w : Workshop) (order : List TypeHandle) :
    Begun w.space.program b ⟨w.space.program.types.size, order⟩ []
    { batch := b, workshop := w } where
  remembers := .refl b
  size := rfl
  old := fun _ _ => rfl
  records := fun _ hnone => absurd hnone List.not_mem_nil
  types := Keyed.tabulates_nil fun _ => List.not_mem_nil
  others := rfl
  attachments := rfl
  overrides := fun _ => rfl

theorem Begun.blueprint_for {l : Layout} (horder : b.order = .ok l.order)
    (hstart : l.start = u.types.size) (hp : Begun u b l l.order p) : (blueprint u l p).For u b where
  program := rfl
  start := hstart
  order := horder
  remembers := hp.remembers
  flags := fun h hmem => by
    obtain ⟨d, flags, hd, hflags, hrecord⟩ := hp.records h hmem
    obtain ⟨d', hd', hforget⟩ := hp.remembers.find hd
    have hread : ∀ e : Descriptor, e.flags = e.forget.flags := fun _ => rfl
    have hdeclared : (p.program.record (l.place h)).flags = flags :=
      congrArg TypeRecord.flags hrecord
    rw [Blueprint.descriptor_of_find hd', Descriptor.Flagged, hread d', hforget]
    show (p.program.record (l.place h)).flags = _ ∨ (p.program.record (l.place h)).flags = _
    rw [hdeclared]
    exact hflags

structure Finished (objectType : TypeId) (P : Blueprint) (g : Generated) (p : Production) :
    Prop where
  within : ∀ h ∈ P.layout.order, ∀ s ∈ (P.descriptor h).mentionedSignatures, s.Within P.layout.order
  types : g.types = P.layout.order.map fun h => (h, P.layout.place h)
  emitted : g.emitted = p.emitted
  drawn : ∃ B, Lowered p.emitted (P.layout.order.flatMap P.queued) B
    ∧ Drawn P (finished (P.full objectType) P.layout.order) B (P.layout.order.flatMap P.queued) p

theorem wp_generate_finished (objectType : TypeId) (hwf : b.WellFormed)
    (hwhole : b.Whole) (w : Workshop) (good : G → b.closeAll.Generable w.space.program objectType) :
    (generate objectType).wp
      (fun g after => ∃ P : Blueprint, P.For w.space.program b.closeAll
        ∧ Finished objectType P g after)
      (fun _ => ¬ G) { batch := b, workshop := w } := by
  have hclosed := hwf.closeAll
  unfold generate
  rw [wp_bind, wp_modify, wp_bind, wp_get, wp_bind, wp_lift]
  refine ⟨fun order horder => ?_, fun f hf g => ?_⟩
  swap
  · obtain ⟨order, horder⟩ := (good g).ordered
    rw [horder] at hf
    cases hf
  let l : Layout := ⟨w.space.program.types.size, order⟩
  have hhandles : ∀ (i : Nat) (d : Descriptor), b.closeAll.types[i]? = some d → d.handle = ⟨i⟩ :=
    fun i d hd => (hclosed ⟨i⟩ d hd).handle
  have hordered : b.closeAll.Ordered l.order := Batch.order_ok hhandles horder
  have hdeclaring : G → ∀ h ∈ l.order, ∃ d, b.closeAll.find? h = some d ∧ ∀ outer ∈ d.declaring,
      outer ≠ h ∧ outer ∈ l.order := by
    intro g h hmem
    have hlt := (hordered.mem h).mp hmem
    refine ⟨_, Array.getElem?_eq_getElem hlt, fun outer houter => ?_⟩
    obtain ⟨hne, hinside⟩ := (good g).declaring h _ (Array.getElem?_eq_getElem hlt) outer houter
    exact ⟨hne, (hordered.mem outer).mpr hinside⟩
  refine wp_step (wp_and (wp_declareAll_opened order (opened_start hwhole w))
    (wp_declareAll_begun hordered hdeclaring (begun_start w order))) ?_ fun _ hbad => hbad.2
  rintro - first ⟨hopened, hfirst⟩
  let P := blueprint w.space.program l first
  have hfor : P.For w.space.program b.closeAll := hfirst.blueprint_for horder rfl
  have hdescriptors : ∀ h ∈ P.layout.order, ∃ d, P.batch.find? h = some d ∧ d.WellFormed h := by
    intro h hmem
    obtain ⟨d, -, hd, -⟩ := hfirst.records h hmem
    obtain ⟨d', hd', -⟩ := hfirst.remembers.find hd
    exact ⟨d', hd', hclosed.remembers hfirst.remembers h d' hd'⟩
  refine wp_step (wp_and (wp_defineAll_pending objectType order hopened.withheld.whole
    hopened.pending)
    (wp_defineAll_drawn objectType hordered.nodup hdescriptors (fun g => (good g).definable P hfor)
      (hfirst.drawn hordered.nodup rfl))) ?_ fun _ hbad => hbad.2
  rintro - second ⟨⟨A, hpending⟩, hwithin, hsecond⟩
  have hqueue : second.attachments.toList = P.layout.order.flatMap P.queued := hsecond.attachments
  obtain rfl : A = P.layout.order.flatMap P.queued := hpending.attachments.symm.trans hqueue
  have hmeant : ∀ a ∈ P.layout.order.flatMap P.queued, a.Meant P objectType := by
    intro a ha
    obtain ⟨h, hmem, ha⟩ := List.mem_flatMap.mp ha
    obtain ⟨d, hfound, hd⟩ := hdescriptors h hmem
    exact Blueprint.meant_of_mem_queued hmem hfound hd ha
  rw [wp_bind, wp_get, hqueue]
  refine wp_step (wp_and (wp_attachEach_pending hpending) (wp_attachEach_drawn hmeant
    (Blueprint.nodup_targets hordered.nodup hdescriptors) (fun g =>
      (good g).ready P hfor _ hsecond.emitted) hsecond)) ?_
    fun _ hbad => hbad.2
  rintro - third ⟨hdone, hsame, B, hlowered, hthird⟩
  refine wp_step (wp_and (wp_createAll_creating hopened hdone)
    (wp_createAll_drawn hordered.nodup hthird)) ?_
    fun _ hbad => hbad.1.elim
  rintro types last ⟨-, htypes, hlast, hdrawn⟩
  rw [wp_bind, wp_get, wp_pure]
  refine ⟨P, hfor, hwithin, htypes, rfl, B, ?_, hdrawn⟩
  rw [hlast, hsame]
  exact hlowered

end Production

/-! ### Tables that are images -/

/-- These keys have a value, and different keys have different ones. -/
structure Keyed.Embeds {κ ν : Type} [DecidableEq κ] (rows : Keyed κ ν) (has : κ → Prop) : Prop where
  isSome_iff : ∀ key, (rows.find? key).isSome ↔ has key
  distinct : ∀ key key' value, rows.find? key = some value →
    rows.find? key' = some value → key = key'

theorem Keyed.Tabulates.embeds {κ ν : Type} [DecidableEq κ] {rows : Keyed κ ν}
    {has has' : κ → Prop} {image : κ → ν} (h : rows.Tabulates has image) (hinj : Injective image)
    (hhas : ∀ key, has key ↔ has' key) : rows.Embeds has' where
  isSome_iff := fun key => h.isSome_iff.trans (hhas key)
  distinct := fun key key' value hkey hkey' =>
    hinj (((h key value).mp hkey).2.symm.trans ((h key' value).mp hkey').2)

/-! ### What shows a member -/

def Signature.Plain (s : Signature) : Prop := ∀ h, s ≠ .draft h

def MethodSignature.Plain (s : MethodSignature) : Prop :=
  s.returns.Plain ∧ ∀ type ∈ s.types, type.Plain

theorem Signature.plain_placed (l : Layout) (s : Signature) : (s.placed l).Plain := by
  intro h heq
  cases s <;> cases heq

theorem MethodSignature.plain_placed (l : Layout) (s : MethodSignature) : (s.placed l).Plain := by
  refine ⟨s.returns.plain_placed l, fun type htype => ?_⟩
  rw [types_placed] at htype
  obtain ⟨type, -, rfl⟩ := List.mem_map.mp htype
  exact type.plain_placed l

section Members

variable (u : Universe) (e : Emitted) (t : TypeId)

def DraftField.Shown (i : Nat) (f : DraftField) : Prop :=
  e.fields.find? f.handle = some ⟨t, i⟩ ∧ ∃ r, u.field? ⟨t, i⟩ = some r ∧ r.name = f.name
    ∧ r.flags = f.flags
    ∧ Lower.signature e f.signature = .ok r.signature

def DraftMethod.Shown (slot : Slot) (m : DraftMethod) : Prop :=
  e.methods.find? m.handle = some ⟨t, slot⟩ ∧ ∃ r, u.method? ⟨t, slot⟩ = some r ∧ r.name = m.name
    ∧ r.flags = m.flags
    ∧ Lower.methodSignature e m.signature = .ok r.signature

def DraftProperty.Shown (i : Nat) (p : DraftProperty) : Prop :=
  e.properties.find? p.handle = some ⟨t, i⟩ ∧ ∃ r, u.property? ⟨t, i⟩ = some r ∧ r.name = p.name
    ∧ Lower.signature e p.signature = .ok r.signature
    ∧ p.getter.mapM e.method = .ok r.getter ∧ p.setter.mapM e.method = .ok r.setter

def DraftEvent.Shown (i : Nat) (v : DraftEvent) : Prop :=
  e.events.find? v.handle = some ⟨t, i⟩ ∧ ∃ r, u.event? ⟨t, i⟩ = some r ∧ r.name = v.name
    ∧ Lower.signature e v.type = .ok r.type
    ∧ e.method v.add = .ok r.add ∧ e.method v.remove = .ok r.remove
      ∧ v.raise.mapM e.method = .ok r.raise

end Members

structure TypeRecord.Plain (r : TypeRecord) : Prop where
  fields : ∀ f ∈ r.fields, f.signature.Plain
  methods : ∀ slot m, r.method? slot = some m →
    m.signature.Plain ∧ ∀ body, m.body = some body → body.hasDraftReferences = false
  properties : ∀ p ∈ r.properties, p.signature.Plain
  events : ∀ v ∈ r.events, v.type.Plain

/-- The method handle stands for a method of the type that comes out of the descriptor. -/
def Descriptor.Produces (d : Descriptor) (m : MethodHandle) : Prop :=
  m.owner = d.handle ∧ match m.slot with
    | .method i => i < d.methods.size
    | .constructor i => i < d.constructors.size
    | .typeInitializer => d.Initializes

/-- The type came out of the descriptor, and so did its members. -/
structure Descriptor.Shown (u : Universe) (e : Emitted) (t : TypeId) (d : Descriptor) : Prop where
  row : e.types.find? d.handle = some t
  complete : (u.record t).complete = true
  name : (u.record t).name = d.name
  flags : (u.record t).flags = d.flags ∨ (u.record t).flags = d.flags ||| TypeFlags.abstract
  fieldCount : (u.record t).fields.size = d.fields.size
  fields : ∀ (i : Nat) f, d.fields[i]? = some f → f.Shown u e t i
  constructorCount : (u.record t).constructors.size = d.constructors.size
  constructors : ∀ (i : Nat) c, d.constructors[i]? = some c → c.Shown u e t (.constructor i)
  methodCount : (u.record t).methods.size = d.methods.size
  methods : ∀ (i : Nat) m, d.methods[i]? = some m → m.Shown u e t (.method i)
  propertyCount : (u.record t).properties.size = d.properties.size
  properties : ∀ (i : Nat) p, d.properties[i]? = some p → p.Shown u e t i
  eventCount : (u.record t).events.size = d.events.size
  events : ∀ (i : Nat) v, d.events[i]? = some v → v.Shown u e t i
  initializer : ∀ m, d.typeInitializer = some m → m.Shown u e t .typeInitializer
  initializes : d.Initializes → e.methods.find? ⟨d.handle, .typeInitializer⟩
    = some ⟨t, .typeInitializer⟩
    ∧ ∃ r, u.method? ⟨t, .typeInitializer⟩ = some r ∧ r.name = ".cctor"
    ∧ r.flags = Descriptor.plainInitializer.flags
      ∧ r.signature = {}
  plain : (u.record t).Plain

/-- What came out of a batch is an image of it, and an image of nothing else. -/
structure Batch.Image (u : Universe) (g : Generated) (b : Batch) : Prop where
  shown : ∀ h d, b.find? h = some d → ∃ t, d.Shown u g.emitted t
  listed : ∀ h t, (h, t) ∈ g.types ↔ g.emitted.types.find? h = some t
  types : g.emitted.types.Embeds fun h => (b.find? h).isSome
  fields : g.emitted.fields.Embeds fun f => ∃ d, b.find? f.owner = some d ∧ (d.field? f).isSome
  methods : g.emitted.methods.Embeds fun m => ∃ d, b.find? m.owner = some d ∧ d.Produces m
  properties : g.emitted.properties.Embeds fun p => ∃ d, b.find? p.owner = some d
    ∧ (d.property? p).isSome
  events : g.emitted.events.Embeds fun v => ∃ d, b.find? v.owner = some d ∧ (d.event? v).isSome

/-! ### Reading a portrait -/

namespace TypeRecord

variable {l : Layout} {objectType : TypeId} {flags : UInt32} {d : Descriptor} {r : TypeRecord}

def Shows (l : Layout) (objectType : TypeId) (flags : UInt32) (d : Descriptor) (r : TypeRecord) :
    Prop :=
  r.portrait = { d.portrait l objectType flags with complete := true }

theorem exists_of_map_eq {α β γ : Type} {f : α → γ} {g : β → γ} {xs : Array α} {ys : Array β}
    (h : xs.map f = ys.map g) {i : Nat} {y : β} (hy : ys[i]? = some y) :
    ∃ x, xs[i]? = some x ∧ f x = g y := by
  have hi := congrArg (fun items : Array γ => items[i]?) h
  simp only [Array.getElem?_map, hy, Option.map_some] at hi
  exact Option.map_eq_some_iff.mp hi

theorem size_of_map_eq {α β γ : Type} {f : α → γ} {g : β → γ} {xs : Array α} {ys : Array β}
    (h : xs.map f = ys.map g) :
    xs.size = ys.size := by
  simpa using congrArg Array.size h

namespace Shows

variable (h : r.Shows l objectType flags d)
include h

theorem fields : r.fields.map (·.portrait) = d.fields.map (·.portrait l) :=
  congrArg TypeRecord.fields h

theorem constructors :
    r.constructors.map (·.portrait) = d.constructors.map (·.portrait l .constructor) :=
  congrArg TypeRecord.constructors h

theorem methods : r.methods.map (·.portrait) = d.methods.map (·.portrait l .method) :=
  congrArg TypeRecord.methods h

theorem ownInitializer : r.ownInitializer.map (·.portrait) = d.initializerPortrait l :=
  congrArg TypeRecord.ownInitializer h

theorem properties : r.properties.map (·.portrait) = d.properties.map (·.portrait l) :=
  congrArg TypeRecord.properties h

theorem events : r.events.map (·.portrait) = d.events.map (·.portrait l) :=
  congrArg TypeRecord.events h

theorem signature_method {slot : Slot} {m : MethodRecord} (hm : r.method? slot = some m) :
    ∃ s : MethodSignature, m.signature = s.placed l := by
  have hmapped : ∀ {made : Array MethodRecord} {drafts : Array DraftMethod}
    {kind : MethodKind} {i : Nat},
      made.map (·.portrait) = drafts.map (·.portrait l kind) → made[i]? = some m → ∃ s :
      MethodSignature, m.signature = s.placed l := by
    intro made drafts kind i hsame hi
    obtain ⟨own, -, heq⟩ := exists_of_map_eq hsame.symm hi
    exact ⟨own.signature, (congrArg MethodRecord.signature heq).symm⟩
  cases slot with
  | method i => exact hmapped h.methods hm
  | constructor i => exact hmapped h.constructors hm
  | typeInitializer =>
    have hsame := h.ownInitializer
    rw [show r.ownInitializer = some m from hm, Option.map_some,
      Descriptor.initializerPortrait] at hsame
    split at hsame
    · have heq := Option.some.inj hsame
      have hsignature : m.portrait.signature = _ := congrArg MethodRecord.signature heq
      cases hinit : d.typeInitializer with
      | some own =>
        rw [hinit] at hsignature
        exact ⟨own.signature, hsignature⟩
      | none =>
        rw [hinit] at hsignature
        exact ⟨{}, hsignature⟩
    · cases hsame

end Shows

end TypeRecord

theorem Descriptor.isSome_portrait_method {l : Layout} {objectType : TypeId} {flags : UInt32}
    {d : Descriptor} {h : TypeHandle} (hhandle : d.handle = h) {slot : Slot} :
    ((d.portrait l objectType flags).method? slot).isSome ↔ d.Produces ⟨h, slot⟩ := by
  rw [Produces, and_iff_right hhandle.symm]
  cases slot with
  | method i =>
    show ((d.methods.map _)[i]?).isSome ↔ i < d.methods.size
    rw [isSome_getElem?, Array.size_map]
  | constructor i =>
    show ((d.constructors.map _)[i]?).isSome ↔ i < d.constructors.size
    rw [isSome_getElem?, Array.size_map]
  | typeInitializer =>
    show (d.initializerPortrait l).isSome ↔ d.Initializes
    rw [initializerPortrait]
    split <;> simp [*]

/-! ### The image -/

namespace Blueprint

variable {u : Universe} {b : Batch} {objectType : TypeId} {P : Blueprint} {h : TypeHandle}
  {d : Descriptor}

/-- What the blueprint says of a type is what the descriptor says that was in the batch before it
was closed. -/
theorem For.forget_descriptor (hfor : P.For u b.closeAll) (hd : b.find? h = some d) :
    (P.descriptor h).forget = d.close.forget := by
  have hclosed : b.closeAll.find? h = some d.close := by
    rw [Batch.find?_closeAll, hd, Option.map_some]
  obtain ⟨d', hd', hforget⟩ := hfor.remembers.find hclosed
  rw [descriptor_of_find hd', hforget]

theorem For.full (hfor : P.For u b.closeAll) (hd : b.find? h = some d) :
    P.full objectType h = d.portrait P.layout objectType (P.flags h) := by
  have hforget : ∀ e : Descriptor, e.portrait P.layout objectType (P.flags h)
    = e.forget.portrait P.layout objectType (P.flags h) :=
    fun _ => rfl
  rw [Blueprint.full, hforget, hfor.forget_descriptor hd]
  rfl

theorem For.mentionedSignatures (hfor : P.For u b.closeAll) (hd : b.find? h = some d) :
    (P.descriptor h).mentionedSignatures = d.mentionedSignatures := by
  have hforget : ∀ e : Descriptor, e.mentionedSignatures = e.forget.mentionedSignatures :=
    fun _ => rfl
  rw [hforget, hfor.forget_descriptor hd]
  rfl

theorem For.queued (hfor : P.For u b.closeAll) (hd : b.find? h = some d) :
    P.queued h = d.queued P.layout := by
  have hforget : ∀ e : Descriptor, e.queued P.layout = e.forget.queued P.layout := fun _ => rfl
  rw [Blueprint.queued, hforget, hfor.forget_descriptor hd]
  rfl

theorem For.mem_order (hfor : P.For u b.closeAll) (hwf : b.WellFormed) :
    h ∈ P.layout.order ↔ (b.find? h).isSome := by
  have hordered := Batch.order_ok (fun i d hd => (hwf.closeAll ⟨i⟩ d hd).handle) hfor.order
  have hsize : b.closeAll.types.size = b.types.size := Array.size_map
  rw [hordered.mem, hsize, Batch.find?, isSome_getElem?]

theorem For.flagged (hfor : P.For u b.closeAll) (hd : b.find? h = some d)
    (hmem : h ∈ P.layout.order) :
    P.flags h = d.flags ∨ P.flags h = d.flags ||| TypeFlags.abstract := by
  have hforget : ∀ e : Descriptor, e.flags = e.forget.flags := fun _ => rfl
  have hflags := hfor.flags h hmem
  rw [Descriptor.Flagged, hforget, hfor.forget_descriptor hd] at hflags
  exact hflags

end Blueprint

namespace Production

variable {u : Universe} {b : Batch} {objectType : TypeId} {P : Blueprint} {g : Generated}
  {p : Production}
  {h : TypeHandle} {d : Descriptor}

theorem mem_and_iff {has : Prop} {has' : Descriptor → Prop}
    (hmem : h ∈ P.layout.order ↔ (b.find? h).isSome)
    (heach : ∀ d, b.find? h = some d → (has ↔ has' d)) :
    h ∈ P.layout.order ∧ has ↔ ∃ d, b.find? h = some d ∧ has' d := by
  rw [hmem, Option.isSome_iff_exists]
  constructor
  · rintro ⟨⟨d, hd⟩, hhas⟩
    exact ⟨d, hd, (heach d hd).mp hhas⟩
  · rintro ⟨d, hd, hhas⟩
    exact ⟨⟨d, hd⟩, (heach d hd).mpr hhas⟩

theorem Finished.lists (hp : Finished objectType P g p) :
    g.emitted.Lists P.layout (finished (P.full objectType) P.layout.order) := by
  obtain ⟨B, -, hdrawn⟩ := hp.drawn
  rw [hp.emitted]
  exact hdrawn.emitted

section Image

variable (hwf : b.WellFormed) (hfor : P.For u b.closeAll)
include hwf hfor

theorem mem_of_find (hd : b.find? h = some d) : h ∈ P.layout.order :=
  (hfor.mem_order hwf).mpr (by rw [hd]; rfl)

theorem finished_full (hd : b.find? h = some d) :
    finished (P.full objectType) P.layout.order h
    = { d.portrait P.layout objectType (P.flags h) with complete := true } := by
  rw [finished, if_pos (mem_of_find hwf hfor hd), hfor.full hd]

theorem finished_sizes (hd : b.find? h = some d) :
    (finished (P.full objectType) P.layout.order h).fields.size = d.fields.size
      ∧ (finished (P.full objectType) P.layout.order h).properties.size = d.properties.size
      ∧ (finished (P.full objectType) P.layout.order h).events.size = d.events.size := by
  rw [finished_full hwf hfor hd]
  exact ⟨Array.size_map, Array.size_map, Array.size_map⟩

theorem isSome_finished_method (hd : b.find? h = some d) (slot : Slot) :
    ((finished (P.full objectType) P.layout.order h).method? slot).isSome ↔
    d.Produces ⟨h, slot⟩ := by
  have hportrait : ((d.portrait P.layout objectType (P.flags h)).method? slot).isSome ↔
    d.Produces ⟨h, slot⟩ :=
    Descriptor.isSome_portrait_method (hwf h d hd).handle
  rw [finished_full hwf hfor hd, ← hportrait]
  cases slot <;> rfl

variable (hp : Finished objectType P g p)
include hp

theorem Finished.shows (hd : b.find? h = some d) :
    (p.program.record (P.layout.place h)).Shows P.layout objectType (P.flags h) d := by
  obtain ⟨B, -, hdrawn⟩ := hp.drawn
  exact (hdrawn.records h (mem_of_find hwf hfor hd)).trans (finished_full hwf hfor hd)

/-- Signatures are placed ones, and bodies were lowered. -/
theorem Finished.plain (hd : b.find? h = some d) : (p.program.record (P.layout.place h)).Plain where
  fields := fun f hf => by
    obtain ⟨i, hi⟩ := Array.mem_iff_getElem?.mp hf
    obtain ⟨own, -, heq⟩ := TypeRecord.exists_of_map_eq (hp.shows hwf hfor hd).fields.symm hi
    have hsignature : own.signature.placed P.layout = f.signature :=
      congrArg FieldRecord.signature heq
    exact hsignature ▸ own.signature.plain_placed P.layout
  methods := fun slot m hm => by
    obtain ⟨s, hs⟩ := (hp.shows hwf hfor hd).signature_method hm
    refine ⟨hs ▸ s.plain_placed P.layout, fun body hbody => ?_⟩
    obtain ⟨B, hlowered, hdrawn⟩ := hp.drawn
    have hB := hdrawn.bodies ⟨P.layout.place h, slot⟩ (P.layout.start_le_place h)
    rw [Universe.method?, hm, Option.bind_some, hbody] at hB
    obtain ⟨draft, -, hdraft⟩ := hlowered.source _ body hB.symm
    exact Lower.hasDraftReferences_of_lowered hdraft
  properties := fun q hq => by
    obtain ⟨i, hi⟩ := Array.mem_iff_getElem?.mp hq
    obtain ⟨own, -, heq⟩ := TypeRecord.exists_of_map_eq (hp.shows hwf hfor hd).properties.symm hi
    have hsignature : own.signature.placed P.layout = q.signature :=
      congrArg PropertyRecord.signature heq
    exact hsignature ▸ own.signature.plain_placed P.layout
  events := fun v hv => by
    obtain ⟨i, hi⟩ := Array.mem_iff_getElem?.mp hv
    obtain ⟨own, -, heq⟩ := TypeRecord.exists_of_map_eq (hp.shows hwf hfor hd).events.symm hi
    have htype : own.type.placed P.layout = v.type := congrArg EventRecord.type heq
    exact htype ▸ own.type.plain_placed P.layout

theorem Finished.within_members (hd : b.find? h = some d) :
    (∀ c ∈ d.constructors, c.signature.Within P.layout.order)
    ∧ (∀ m ∈ d.methods, m.signature.Within P.layout.order)
      ∧ (∀ f ∈ d.fields, f.signature.Within P.layout.order)
      ∧ (∀ q ∈ d.properties, q.signature.Within P.layout.order)
      ∧ ∀ v ∈ d.events, v.type.Within P.layout.order := by
  refine Descriptor.within_mentioned.mp ?_
  rw [← hfor.mentionedSignatures hd]
  exact hp.within h (mem_of_find hwf hfor hd)

theorem Finished.method_row (hd : b.find? h = some d) {slot : Slot} {own : MethodRecord}
    (hown : (d.portrait P.layout objectType (P.flags h)).method? slot = some own) :
    g.emitted.methods.find? ⟨h, slot⟩ = some ⟨P.layout.place h, slot⟩
      ∧ ∃ r, p.program.method? ⟨P.layout.place h, slot⟩ = some r ∧ r.portrait = own := by
  have hplan :
      ({ d.portrait P.layout objectType (P.flags h) with complete := true } : TypeRecord).method?
      slot = some own := by
    cases slot <;> exact hown
  have hmade := (p.program.record (P.layout.place h)).method?_portrait slot
  rw [hp.shows hwf hfor hd, hplan] at hmade
  refine ⟨hp.lists.methods.find? ⟨mem_of_find hwf hfor hd, ?_⟩,
    Option.map_eq_some_iff.mp hmade.symm⟩
  show ((finished (P.full objectType) P.layout.order h).method? slot).isSome
  rw [finished_full hwf hfor hd, hplan]
  rfl

theorem Finished.shown_method (hd : b.find? h = some d) {slot : Slot} {kind : MethodKind}
    {m : DraftMethod} (hhandle : m.handle = ⟨h, slot⟩) (hwithin : m.signature.Within P.layout.order)
    (hm : (d.portrait P.layout objectType (P.flags h)).method? slot
      = some (m.portrait P.layout kind)) :
    m.Shown p.program g.emitted (P.layout.place h) slot := by
  obtain ⟨hrow, r, hr, hportrait⟩ := hp.method_row hwf hfor hd hm
  refine ⟨by rw [hhandle]; exact hrow, r, hr, congrArg MethodRecord.name hportrait,
    congrArg MethodRecord.flags hportrait, ?_⟩
  exact (Emitted.methodSignature_eq_ok hp.lists.types).mpr ⟨hwithin,
    congrArg MethodRecord.signature hportrait⟩

theorem Finished.row_of_accessor (hd : b.find? h = some d) {m : MethodHandle} {isStatic : Bool}
    {kind : MethodSignature → Prop} (ha : d.IsAccessor m isStatic kind) :
    g.emitted.method m = .ok (P.layout.placeMethod m) := by
  obtain ⟨i, own, rfl, hown, -, -⟩ := ha
  have hportrait : (d.portrait P.layout objectType (P.flags h)).method? (.method i)
      = some (own.portrait P.layout .method) := by
    show (d.methods.map _)[i]? = _
    rw [Array.getElem?_map, hown, Option.map_some]
  rw [(hwf h d hd).handle]
  exact Emitted.require_eq_ok.mpr (hp.method_row hwf hfor hd hportrait).1

omit hwf hfor hp in
theorem mapM_row {e : Emitted} {l : Layout} {accessor : Option MethodHandle}
    (hrow : ∀ m, accessor = some m → e.method m = .ok (l.placeMethod m)) :
    accessor.mapM e.method = .ok (accessor.map l.placeMethod) := by
  cases accessor with
  | none => rfl
  | some m =>
    rw [Option.mapM_some, hrow m rfl]
    rfl

theorem Finished.shown_field (hd : b.find? h = some d) {i : Nat} {f : DraftField}
    (hf : d.fields[i]? = some f) :
    f.Shown p.program g.emitted (P.layout.place h) i := by
  obtain ⟨r, hr, hportrait⟩ := TypeRecord.exists_of_map_eq (hp.shows hwf hfor hd).fields hf
  have hwithin := (hp.within_members hwf hfor hd).2.2.1 f (Array.mem_of_getElem? hf)
  have hlt : i < (finished (P.full objectType) P.layout.order h).fields.size := by
    rw [(finished_sizes hwf hfor hd).1]
    exact (Array.getElem?_eq_some_iff.mp hf).1
  refine ⟨?_, r, hr, congrArg FieldRecord.name hportrait, congrArg FieldRecord.flags hportrait,
    (Emitted.signature_eq_ok hp.lists.types).mpr ⟨hwithin,
      congrArg FieldRecord.signature hportrait⟩⟩
  rw [((hwf h d hd).fields i f hf).1]
  exact hp.lists.fields.find? ⟨mem_of_find hwf hfor hd, hlt⟩

theorem Finished.shown_property (hd : b.find? h = some d) {i : Nat} {q : DraftProperty}
    (hq : d.properties[i]? = some q) :
    q.Shown p.program g.emitted (P.layout.place h) i := by
  obtain ⟨r, hr, hportrait⟩ := TypeRecord.exists_of_map_eq (hp.shows hwf hfor hd).properties hq
  have hwithin := (hp.within_members hwf hfor hd).2.2.2.1 q (Array.mem_of_getElem? hq)
  have hlt : i < (finished (P.full objectType) P.layout.order h).properties.size := by
    rw [(finished_sizes hwf hfor hd).2.1]
    exact (Array.getElem?_eq_some_iff.mp hq).1
  obtain ⟨hhandle, isStatic, hgetter, hsetter⟩ := (hwf h d hd).properties i q hq
  have hgetter' : q.getter.map P.layout.placeMethod = r.getter :=
    (congrArg PropertyRecord.getter hportrait).symm
  have hsetter' : q.setter.map P.layout.placeMethod = r.setter :=
    (congrArg PropertyRecord.setter hportrait).symm
  refine ⟨?_, r, hr, congrArg PropertyRecord.name hportrait,
    (Emitted.signature_eq_ok hp.lists.types).mpr ⟨hwithin,
      congrArg PropertyRecord.signature hportrait⟩, ?_, ?_⟩
  · rw [hhandle]
    exact hp.lists.properties.find? ⟨mem_of_find hwf hfor hd, hlt⟩
  · rw [← hgetter']
    exact mapM_row fun m hm => hp.row_of_accessor hwf hfor hd (hgetter m hm)
  · rw [← hsetter']
    exact mapM_row fun m hm => hp.row_of_accessor hwf hfor hd (hsetter m hm)

theorem Finished.shown_event (hd : b.find? h = some d) {i : Nat} {v : DraftEvent}
    (hv : d.events[i]? = some v) :
    v.Shown p.program g.emitted (P.layout.place h) i := by
  obtain ⟨r, hr, hportrait⟩ := TypeRecord.exists_of_map_eq (hp.shows hwf hfor hd).events hv
  have hwithin := (hp.within_members hwf hfor hd).2.2.2.2 v (Array.mem_of_getElem? hv)
  have hlt : i < (finished (P.full objectType) P.layout.order h).events.size := by
    rw [(finished_sizes hwf hfor hd).2.2]
    exact (Array.getElem?_eq_some_iff.mp hv).1
  obtain ⟨hhandle, isStatic, hadd, hremove, hraise⟩ := (hwf h d hd).events i v hv
  have hadd' : P.layout.placeMethod v.add = r.add := (congrArg EventRecord.add hportrait).symm
  have hremove' : P.layout.placeMethod v.remove = r.remove :=
    (congrArg EventRecord.remove hportrait).symm
  have hraise' : v.raise.map P.layout.placeMethod = r.raise :=
    (congrArg EventRecord.raise hportrait).symm
  refine ⟨?_, r, hr, congrArg EventRecord.name hportrait,
    (Emitted.signature_eq_ok hp.lists.types).mpr ⟨hwithin, congrArg EventRecord.type hportrait⟩, ?_,
    ?_, ?_⟩
  · rw [hhandle]
    exact hp.lists.events.find? ⟨mem_of_find hwf hfor hd, hlt⟩
  · rw [← hadd']
    exact hp.row_of_accessor hwf hfor hd hadd
  · rw [← hremove']
    exact hp.row_of_accessor hwf hfor hd hremove
  · rw [← hraise']
    exact mapM_row fun m hm => hp.row_of_accessor hwf hfor hd (hraise m hm)

theorem Finished.shown_initializer (hd : b.find? h = some d) :
    (∀ m, d.typeInitializer = some m →
      m.Shown p.program g.emitted (P.layout.place h) .typeInitializer)
      ∧ (d.Initializes → g.emitted.methods.find? ⟨d.handle, .typeInitializer⟩
        = some ⟨P.layout.place h, .typeInitializer⟩
        ∧ ∃ r, p.program.method? ⟨P.layout.place h, .typeInitializer⟩ = some r ∧ r.name = ".cctor"
          ∧ r.flags = Descriptor.plainInitializer.flags ∧ r.signature = {}) := by
  have hportrait : d.Initializes →
    (d.portrait P.layout objectType (P.flags h)).method? .typeInitializer
      = some ((d.typeInitializer.map (·.portrait P.layout .typeInitializer)).getD
        Descriptor.plainInitializer) := fun hi => if_pos hi
  refine ⟨fun m hm => ?_, fun hi => ?_⟩
  · obtain ⟨hhandle, hinitializer⟩ := (hwf h d hd).initializer m hm
    have hplaced := hportrait (.inl (by rw [hm]; rfl))
    rw [hm] at hplaced
    refine hp.shown_method hwf hfor hd hhandle ?_ hplaced
    rw [hinitializer.signature]
    exact ⟨fun _ heq => (by cases heq), fun _ hnone => absurd hnone List.not_mem_nil⟩
  · obtain ⟨hrow, r, hr, hsame⟩ := hp.method_row hwf hfor hd (hportrait hi)
    refine ⟨by rw [(hwf h d hd).handle]; exact hrow, r, hr, ?_⟩
    have hfields : r.name = r.portrait.name ∧ r.flags = r.portrait.flags
      ∧ r.signature = r.portrait.signature := ⟨rfl, rfl, rfl⟩
    rw [hfields.1, hfields.2.1, hfields.2.2, hsame]
    cases hinit : d.typeInitializer with
    | none => exact ⟨rfl, rfl, rfl⟩
    | some m =>
      obtain ⟨-, hinitializer⟩ := (hwf h d hd).initializer m hinit
      refine ⟨hinitializer.special.name, hinitializer.flags, ?_⟩
      show m.signature.placed P.layout = {}
      rw [hinitializer.signature]
      rfl

theorem Finished.shown (hd : b.find? h = some d) :
    d.Shown p.program g.emitted (P.layout.place h) := by
  have hshows := hp.shows hwf hfor hd
  have hmem := mem_of_find hwf hfor hd
  have hwithin := hp.within_members hwf hfor hd
  have hwellFormed := hwf h d hd
  have hmapped : ∀ {drafts : Array DraftMethod} {kind : MethodKind} {i : Nat} {m : DraftMethod},
    drafts[i]? = some m →
      (drafts.map (·.portrait P.layout kind))[i]? = some (m.portrait P.layout kind) :=
    fun hm => by rw [Array.getElem?_map, hm, Option.map_some]
  exact {
    row := by
      rw [hwellFormed.handle]
      exact hp.lists.types.find? hmem
    complete := congrArg TypeRecord.complete hshows
    name := congrArg TypeRecord.name hshows
    flags := (hfor.flagged hd hmem).imp (congrArg TypeRecord.flags hshows).trans
      (congrArg TypeRecord.flags hshows).trans
    fieldCount := TypeRecord.size_of_map_eq hshows.fields
    fields := fun i f hf => hp.shown_field hwf hfor hd hf
    constructorCount := TypeRecord.size_of_map_eq hshows.constructors
    constructors := fun i c hc => hp.shown_method hwf hfor hd (hwellFormed.constructors i c hc).1
      (hwithin.1 c (Array.mem_of_getElem? hc)) (hmapped hc)
    methodCount := TypeRecord.size_of_map_eq hshows.methods
    methods := fun i m hm => hp.shown_method hwf hfor hd (hwellFormed.methods i m hm).1
      (hwithin.2.1 m (Array.mem_of_getElem? hm)) (hmapped hm)
    propertyCount := TypeRecord.size_of_map_eq hshows.properties
    properties := fun i q hq => hp.shown_property hwf hfor hd hq
    eventCount := TypeRecord.size_of_map_eq hshows.events
    events := fun i v hv => hp.shown_event hwf hfor hd hv
    initializer := (hp.shown_initializer hwf hfor hd).1
    initializes := (hp.shown_initializer hwf hfor hd).2
    plain := hp.plain hwf hfor hd }

theorem Finished.image : b.Image p.program g where
  shown := fun h d hd => ⟨_, hp.shown hwf hfor hd⟩
  listed := fun h t => by
    rw [hp.types, hp.lists.types h t, List.mem_map]
    constructor
    · rintro ⟨other, hmem, heq⟩
      cases heq
      exact ⟨hmem, rfl⟩
    · rintro ⟨hmem, rfl⟩
      exact ⟨h, hmem, rfl⟩
  types := hp.lists.types.embeds P.layout.place_injective fun h => hfor.mem_order hwf
  fields := hp.lists.fields.embeds P.layout.placeField_injective fun f =>
      mem_and_iff (hfor.mem_order hwf) fun d hd => by
    dsimp only at hd ⊢
    rw [(finished_sizes hwf hfor hd).1, Descriptor.field?, if_pos (hwf f.owner d hd).handle.symm,
      isSome_getElem?]
  methods := hp.lists.methods.embeds P.layout.placeMethod_injective fun m =>
      mem_and_iff (hfor.mem_order hwf) fun d hd =>
    isSome_finished_method hwf hfor hd m.slot
  properties := hp.lists.properties.embeds P.layout.placeProperty_injective fun q =>
    mem_and_iff (hfor.mem_order hwf) fun d hd => by
      dsimp only at hd ⊢
      rw [(finished_sizes hwf hfor hd).2.1, Descriptor.property?,
        if_pos (hwf q.owner d hd).handle.symm, isSome_getElem?]
  events := hp.lists.events.embeds P.layout.placeEvent_injective fun v =>
      mem_and_iff (hfor.mem_order hwf) fun d hd => by
    dsimp only at hd ⊢
    rw [(finished_sizes hwf hfor hd).2.2, Descriptor.event?, if_pos (hwf v.owner d hd).handle.symm,
      isSome_getElem?]

end Image

/-- Whatever operations made the batch: when it is generated, what comes out is an image of it.
Each handle stands for one member at its place of the type of its owner, different handles stand
for different members, names, flags and lowered signatures are those of the descriptors, the type
initializer is there just when there is something for it to run, and nothing that came out names
a descriptor. -/
theorem generate_image (objectType : TypeId) {b : Batch} (hb : b.Formed) (w : Workshop)
    {g : Generated} {after : Production}
    (hgen : (generate objectType).start { batch := b, workshop := w } = (.ok g, after)) :
    b.Image after.program g := by
  have hfinished := wp_generate_finished (G :=
    False) objectType hb.wellFormed hb.drafted.whole w False.elim
  obtain ⟨P, hfor, hp⟩ := (wp_iff.mp hfinished).1 g after hgen
  exact hp.image hb.wellFormed hfor

/-- The interface and the class that counts come out with all of their members. -/
theorem generate_image_counter :
    ∃ g after, (generate ⟨0⟩).start
    { batch := Edit.run {} {} Batch.counterEdits, workshop := freshWorkshop } = (.ok g, after)
      ∧ (Edit.run {} {} Batch.counterEdits).Image after.program g
      ∧ g.emitted.methods.length = 3 ∧ g.emitted.properties.length = 1 := by
  have hformed : (Edit.run {} {} Batch.counterEdits).Formed :=
    Batch.Formed.empty.run (by simp [Batch.counterEdits, Edit.Held])
  have hsizes :
    ((generate ⟨0⟩).start
    { batch := Edit.run {} {} Batch.counterEdits, workshop := freshWorkshop }).1.toOption.map
      (fun g => (g.emitted.methods.length, g.emitted.properties.length)) = some (3, 1) := by
    decide +kernel
  rcases hgen :
    (generate ⟨0⟩).start
    { batch := Edit.run {} {} Batch.counterEdits, workshop := freshWorkshop } with ⟨f | g, after⟩
  · rw [hgen] at hsizes
    cases hsizes
  · rw [hgen, Except.toOption, Option.map_some, Option.some.injEq, Prod.mk.injEq] at hsizes
    exact ⟨g, after, rfl, generate_image ⟨0⟩ hformed freshWorkshop hgen, hsizes⟩

end Production

end TypeLoom
