import TypeLoom.Proofs.Editing
import TypeLoom.Proofs.Portraits

/-!
# Drawing the types of a batch

When all types of a batch are declared their members are defined one after the other. How far this
has come is told by a portrait for each type: a step adds one thing to one portrait, and a member
that is in a portrait has a row for its handle. A step fails only when the batch asks for something
that is not there.
-/

namespace TypeLoom

open Attempt Function

/-! ### Blueprints -/

/-- What is settled before members are defined: the types that were there, the batch, the places
of its types and the flags that they were declared with. -/
structure Blueprint where
  program : Universe
  batch : Batch
  layout : Layout
  flags : TypeHandle → UInt32

namespace Blueprint

def descriptor (P : Blueprint) (h : TypeHandle) : Descriptor := (P.batch.find? h).getD default

def blank (P : Blueprint) (h : TypeHandle) : TypeRecord :=
  (P.descriptor h).blankPortrait P.layout (P.flags h)

def full (P : Blueprint) (objectType : TypeId) (h : TypeHandle) : TypeRecord :=
  (P.descriptor h).portrait P.layout objectType (P.flags h)

theorem descriptor_of_find {P : Blueprint} {h : TypeHandle} {d : Descriptor}
    (hd : P.batch.find? h = some d) :
    P.descriptor h = d := by
  rw [descriptor, hd, Option.getD_some]

end Blueprint

/-- A type with these flags can be a base. -/
def TypeFlags.Derivable (flags : UInt32) : Prop :=
  hasBits flags TypeFlags.isSealed = false ∧ hasBits flags TypeFlags.interface = false

instance (flags : UInt32) : Decidable (TypeFlags.Derivable flags) :=
  inferInstanceAs (Decidable (_ ∧ _))

/-- The signature names a type that is there or is declared, and its flags are accepted. -/
def Signature.Offers (P : Blueprint) (accepts : UInt32 → Prop) : Signature → Prop
  | .draft h => h ∈ P.layout.order ∧ accepts (P.flags h)
  | .ofClass t => P.program.isPresent t ∧ accepts (P.program.record t).flags
  | _ => False

def Descriptor.effectiveBase (objectType : TypeId) (d : Descriptor) : Option Signature :=
  d.base.or (if d.isInterface then none else some (.ofClass objectType))

/-! ### Rows of members -/

/-- The rows of members of some kind: one for each place that the record of an ordered type has. -/
def Keyed.ListsMembers {κ ν τ : Type} [DecidableEq κ] (rows : Keyed κ ν) (order : List TypeHandle)
    (owner : κ → TypeHandle) (place : κ → τ) (has : TypeRecord → τ → Prop)
    (S : TypeHandle → TypeRecord) (image : κ → ν) : Prop :=
  rows.Tabulates (fun key => owner key ∈ order ∧ has (S (owner key)) (place key)) image

section Rows

variable {κ ν τ : Type} [DecidableEq κ] {rows : Keyed κ ν} {order : List TypeHandle} {owner : κ →
  TypeHandle} {place : κ → τ}
  {has : TypeRecord → τ → Prop} {S : TypeHandle → TypeRecord} {image : κ → ν} {h : TypeHandle}
  {r r' : TypeRecord}

theorem Keyed.ListsMembers.same (hrows : rows.ListsMembers order owner place has
      (update S h r) image) (hsame : ∀ x, has r' x ↔ has r x) :
    rows.ListsMembers order owner place has (update S h r') image := by
  refine Keyed.Tabulates.congr hrows fun key => and_congr_right fun _ => ?_
  by_cases howner : owner key = h
  · rw [howner, update_self, update_self, hsame]
  · rw [update_of_ne howner, update_of_ne howner]

theorem Keyed.ListsMembers.addOnce (hrows : rows.ListsMembers order owner place has
      (update S h r) image) {k : κ} (hmem : h ∈ order) (howner : owner k = h)
    (hkey : ∀ other, owner other = h → place other = place k → other = k) (hnew : ¬ has r (place k))
    (kind : String) (text : κ → String) :
    ∃ rows', Emitted.addOnce kind text rows k (image k) = .ok rows'
      ∧ ∀ r', (∀ x, has r' x ↔ x = place k ∨ has r x) →
      rows'.ListsMembers order owner place has (update S h r') image := by
  refine ⟨_, Emitted.addOnce_of_tabulates hrows ?_ _, fun r' hmore =>
    Keyed.Tabulates.put hrows fun other => ?_⟩
  · rintro ⟨-, hold⟩
    rw [howner, update_self] at hold
    exact hnew hold
  · by_cases hother : owner other = h
    · rw [hother, update_self, update_self, hmore]
      constructor
      · rintro ⟨hmem, heq | hold⟩
        · exact .inl (hkey other hother heq)
        · exact .inr ⟨hmem, hold⟩
      · rintro (rfl | ⟨hmem, hold⟩)
        · exact ⟨hmem, .inl rfl⟩
        · exact ⟨hmem, .inr hold⟩
    · rw [update_of_ne hother, update_of_ne hother]
      refine ⟨.inr, fun hor => hor.resolve_left ?_⟩
      rintro rfl
      exact hother howner

end Rows

/-- Each member of the types has a row. -/
structure Emitted.Lists (l : Layout) (S : TypeHandle → TypeRecord) (e : Emitted) : Prop where
  types : e.types.Tabulates (· ∈ l.order) l.place
  fields : e.fields.ListsMembers l.order (·.owner) (·.index) (fun r i =>
    i < r.fields.size) S l.placeField
  methods : e.methods.ListsMembers l.order (·.owner) (·.slot) (fun r slot =>
    (r.method? slot).isSome) S l.placeMethod
  properties : e.properties.ListsMembers l.order (·.owner) (·.index) (fun r i =>
    i < r.properties.size) S l.placeProperty
  events : e.events.ListsMembers l.order (·.owner) (·.index) (fun r i =>
    i < r.events.size) S l.placeEvent

namespace Emitted.Lists

variable {l : Layout} {S : TypeHandle → TypeRecord} {e : Emitted} {h : TypeHandle}
  {r r' : TypeRecord}

theorem congr {S' : TypeHandle → TypeRecord} (he : e.Lists l S)
    (hS : ∀ h ∈ l.order, S' h = S h) : e.Lists l S' where
  types := he.types
  fields := he.fields.congr fun key => and_congr_right fun hmem => by rw [hS _ hmem]
  methods := he.methods.congr fun key => and_congr_right fun hmem => by rw [hS _ hmem]
  properties := he.properties.congr fun key => and_congr_right fun hmem => by rw [hS _ hmem]
  events := he.events.congr fun key => and_congr_right fun hmem => by rw [hS _ hmem]

theorem same (he : e.Lists l (update S h r)) (hfields : r'.fields.size = r.fields.size)
    (hslots : ∀ slot, (r'.method? slot).isSome ↔ (r.method? slot).isSome)
    (hproperties : r'.properties.size = r.properties.size) (hevents : r'.events.size
      = r.events.size) :
    e.Lists l (update S h r') where
  types := he.types
  fields := he.fields.same fun i => by rw [hfields]
  methods := he.methods.same hslots
  properties := he.properties.same fun i => by rw [hproperties]
  events := he.events.same fun i => by rw [hevents]

theorem lt_succ_iff (i n : Nat) : i < n + 1 ↔ i = n ∨ i < n := by omega

theorem addField (he : e.Lists l (update S h r)) (hmem : h ∈ l.order) (f : FieldRecord) :
    ∃ e', e.addField ⟨h, r.fields.size⟩ ⟨l.place h, r.fields.size⟩ = .ok e'
      ∧ e'.Lists l (update S h { r with fields := r.fields.push f }) := by
  obtain ⟨rows, hadd, hrows⟩ := he.fields.addOnce (k := ⟨h, r.fields.size⟩) hmem rfl
    (by rintro ⟨owner, index⟩ (rfl : owner = h) (rfl : index = r.fields.size);
        rfl) (Nat.lt_irrefl _) "Field" FieldHandle.text
  exact ⟨_, bind_eq_ok.mpr ⟨rows, hadd, rfl⟩, he.types, hrows _ fun i => by
    rw [Array.size_push]; exact lt_succ_iff i _, he.methods.same fun _ => .rfl,
    he.properties.same fun _ => .rfl, he.events.same fun _ => .rfl⟩

theorem addMethod (he : e.Lists l (update S h r)) (hmem : h ∈ l.order) {slot : Slot}
    (hnew : r.method? slot = none)
    (hmore : ∀ other, (r'.method? other).isSome ↔ other = slot ∨ (r.method? other).isSome)
    (hfields : r'.fields = r.fields) (hproperties : r'.properties = r.properties)
    (hevents : r'.events = r.events) :
    ∃ e', e.addMethod ⟨h, slot⟩ ⟨l.place h, slot⟩ = .ok e' ∧ e'.Lists l (update S h r') := by
  obtain ⟨rows, hadd, hrows⟩ := he.methods.addOnce (k := ⟨h, slot⟩) hmem rfl
    (by rintro ⟨owner, other⟩ (rfl : owner = h) (rfl : other = slot);
        rfl) (by rw [hnew]; exact nofun)
    "Method" MethodHandle.text
  exact ⟨_, bind_eq_ok.mpr ⟨rows, hadd, rfl⟩, he.types, he.fields.same fun _ => by
    rw [hfields], hrows r' hmore,
    he.properties.same fun _ => by rw [hproperties], he.events.same fun _ => by rw [hevents]⟩

theorem addProperty (he : e.Lists l (update S h r)) (hmem : h ∈ l.order) (p : PropertyRecord) :
    ∃ e', e.addProperty ⟨h, r.properties.size⟩ ⟨l.place h, r.properties.size⟩ = .ok e'
      ∧ e'.Lists l (update S h { r with properties := r.properties.push p }) := by
  obtain ⟨rows, hadd, hrows⟩ := he.properties.addOnce (k := ⟨h, r.properties.size⟩) hmem rfl
    (by rintro ⟨owner, index⟩ (rfl : owner = h) (rfl : index = r.properties.size);
        rfl) (Nat.lt_irrefl _) "Property" PropertyHandle.text
  exact ⟨_, bind_eq_ok.mpr ⟨rows, hadd, rfl⟩, he.types, he.fields.same fun _ => .rfl,
    he.methods.same fun _ => .rfl,
    hrows _ fun i => by rw [Array.size_push]; exact lt_succ_iff i _, he.events.same fun _ => .rfl⟩

theorem addEvent (he : e.Lists l (update S h r)) (hmem : h ∈ l.order) (v : EventRecord) :
    ∃ e', e.addEvent ⟨h, r.events.size⟩ ⟨l.place h, r.events.size⟩ = .ok e'
      ∧ e'.Lists l (update S h { r with events := r.events.push v }) := by
  obtain ⟨rows, hadd, hrows⟩ := he.events.addOnce (k := ⟨h, r.events.size⟩) hmem rfl
    (by rintro ⟨owner, index⟩ (rfl : owner = h) (rfl : index = r.events.size);
        rfl) (Nat.lt_irrefl _) "Event" EventHandle.text
  exact ⟨_, bind_eq_ok.mpr ⟨rows, hadd, rfl⟩, he.types, he.fields.same fun _ => .rfl,
    he.methods.same fun _ => .rfl,
    he.properties.same fun _ => .rfl, hrows _ fun i => by
      rw [Array.size_push]; exact lt_succ_iff i _⟩

end Emitted.Lists

/-! ### Portraits of all types -/

/-- Neither flags nor members have changed. -/
structure TypeRecord.SameMembers (r r' : TypeRecord) : Prop where
  flags : r'.flags = r.flags
  fields : r'.fields = r.fields
  constructors : r'.constructors = r.constructors
  methods : r'.methods = r.methods
  ownInitializer : r'.ownInitializer = r.ownInitializer
  properties : r'.properties = r.properties
  events : r'.events = r.events

theorem TypeRecord.SameMembers.method? {r r' : TypeRecord} (h : r.SameMembers r') (slot : Slot) :
    r'.method? slot = r.method? slot := by
  cases slot <;> simp only [TypeRecord.method?, h.methods, h.constructors, h.ownInitializer]

theorem TypeRecord.SameMembers.portrait {r r' : TypeRecord} (h : r.SameMembers r') :
    r.portrait.SameMembers r'.portrait := by
  constructor <;> simp only [TypeRecord.portrait, h.flags, h.fields, h.constructors, h.methods,
    h.ownInitializer,
    h.properties, h.events]

namespace Production

/-- All types have their portraits, no matter what was emitted; the bodies and what is still to
be attached are told apart. -/
structure Painted (P : Blueprint) (S : TypeHandle → TypeRecord) (B : MethodId → Option Expr)
    (A : List Attachment) (p : Production) : Prop where
  start : P.layout.start = P.program.types.size
  batch : p.batch = P.batch
  old : ∀ t : TypeId, t.index < P.layout.start → p.program.record t = P.program.record t
  lt : ∀ h ∈ P.layout.order, (P.layout.place h).index < p.program.types.size
  records : ∀ h ∈ P.layout.order, (p.program.record (P.layout.place h)).portrait = S h
  flags : ∀ h ∈ P.layout.order, (S h).flags = P.flags h
  bodies : ∀ m : MethodId, P.layout.start ≤ m.owner.index →
    (p.program.method? m).bind (·.body) = B m
  attachments : p.attachments.toList = A

structure Drawn (P : Blueprint) (S : TypeHandle → TypeRecord) (B : MethodId → Option Expr)
    (A : List Attachment) (p : Production) : Prop extends Painted P S B A p where
  emitted : p.emitted.Lists P.layout S

variable {P : Blueprint} {S : TypeHandle → TypeRecord} {B : MethodId →
  Option Expr} {A : List Attachment} {p : Production}
  {h : TypeHandle} {r r' record : TypeRecord} {space : TypeSpace}

theorem Painted.congr {S' : TypeHandle → TypeRecord} (hp : Painted P S B A p)
    (hS : ∀ h ∈ P.layout.order, S' h = S h) :
    Painted P S' B A p where
  start := hp.start
  batch := hp.batch
  old := hp.old
  lt := hp.lt
  records := fun h hmem => by rw [hS h hmem, hp.records h hmem]
  flags := fun h hmem => by rw [hS h hmem, hp.flags h hmem]
  bodies := hp.bodies
  attachments := hp.attachments

theorem Drawn.congr {S' : TypeHandle → TypeRecord} (hp : Drawn P S B A p)
    (hS : ∀ h ∈ P.layout.order, S' h = S h) :
    Drawn P S' B A p := ⟨hp.toPainted.congr hS, hp.emitted.congr hS⟩

theorem Drawn.of_program {p' : Production} (hp : Drawn P S B A p)
    (hprogram : p'.program = p.program) (hbatch : p'.batch = p.batch)
    (hemitted : p'.emitted = p.emitted) (hattachments : p'.attachments = p.attachments) :
    Drawn P S B A p' where
  start := hp.start
  batch := hbatch.trans hp.batch
  old := hprogram ▸ hp.old
  lt := hprogram ▸ hp.lt
  records := hprogram ▸ hp.records
  flags := hp.flags
  bodies := hprogram ▸ hp.bodies
  attachments := hattachments ▸ hp.attachments
  emitted := hemitted ▸ hp.emitted

theorem Painted.self (hp : Painted P (update S h r) B A p) (hmem : h ∈ P.layout.order) :
    (p.program.record (P.layout.place h)).portrait = r := by
  rw [hp.records h hmem, update_self]

theorem Painted.edited {R : TypeRecord} {C : MethodId → Option Expr}
    (hp : Painted P (update S h r) B A p)
    (he : p.workshop.space.Edited (P.layout.place h) record space) (hr : record.portrait = R)
    (hflags : R.flags = r.flags) (hself : ∀ slot, (record.method? slot).bind (·.body)
      = C ⟨P.layout.place h, slot⟩)
    (hother : ∀ m : MethodId, m.owner ≠ P.layout.place h → C m = B m) :
    Painted P (update S h R) C A (p.withSpace space) where
  start := hp.start
  batch := hp.batch
  old := fun t ht => by
    have hne : t ≠ P.layout.place h := by
      rintro rfl
      exact Nat.not_le.mpr ht (P.layout.start_le_place h)
    exact (he.other t hne).trans (hp.old t ht)
  lt := fun x hx => by
    show (P.layout.place x).index < space.program.types.size
    rw [he.size]
    exact hp.lt x hx
  records := fun x hx => by
    show (space.program.record (P.layout.place x)).portrait = _
    by_cases hne : x = h
    · rw [hne, he.self, update_self, hr]
    · rw [he.other _ fun heq => hne (P.layout.place_injective heq), update_of_ne hne]
      exact (hp.records x hx).trans (update_of_ne hne _ _)
  flags := fun x hx => by
    have hold := hp.flags x hx
    by_cases hne : x = h
    · rw [hne, update_self] at hold ⊢
      rw [hflags, hold]
    · rw [update_of_ne hne] at hold ⊢
      exact hold
  bodies := fun m hm => by
    show (((space.program.record m.owner).method? m.slot).bind (·.body)) = C m
    by_cases hne : m.owner = P.layout.place h
    · rw [hne, he.self, hself m.slot, ← hne]
    · rw [he.other _ hne, hother m hne]
      exact hp.bodies m hm
  attachments := hp.attachments

theorem Painted.adorned {R : TypeRecord} (hp : Painted P (update S h r) B A p)
    (he : p.workshop.space.Edited (P.layout.place h) record space) (hr : record.portrait = R)
    (hflags : R.flags = r.flags) (hbodies : ∀ slot, (record.method? slot).bind (·.body)
      = ((p.program.record (P.layout.place h)).method? slot).bind (·.body)) :
    Painted P (update S h R) B A (p.withSpace space) :=
  hp.edited he hr hflags
    (fun slot => (hbodies slot).trans
      (hp.bodies ⟨P.layout.place h, slot⟩ (P.layout.start_le_place h))) fun _ _ => rfl

theorem Painted.emit (hp : Painted P S B A p) {e : Emitted} (he : e.Lists P.layout S) :
    Drawn P S B A { p with emitted := e } :=
  ⟨⟨hp.start, hp.batch, hp.old, hp.lt, hp.records, hp.flags, hp.bodies, hp.attachments⟩, he⟩

theorem Painted.offers (hp : Painted P S B A p) {accepts : UInt32 → Prop} {s : Signature}
    (hs : s.Offers P accepts) :
    s.Names p.program P.layout.order ∧ ∀ t, s.placed P.layout = .ofClass t →
    accepts (p.program.record t).flags := by
  cases s with
  | draft x =>
    refine ⟨hs.1, fun t ht => ?_⟩
    obtain rfl : P.layout.place x = t := Signature.ofClass.inj ht
    have hflags : (p.program.record (P.layout.place x)).flags = P.flags x :=
      (congrArg TypeRecord.flags (hp.records x hs.1)).trans (hp.flags x hs.1)
    rw [hflags]
    exact hs.2
  | ofClass t =>
    have hlt : t.index < P.layout.start := by
      rw [hp.start]
      exact P.program.lt_of_isPresent t hs.1
    have hsame := hp.old t hlt
    refine ⟨?_, fun t' ht' => ?_⟩
    · show (p.program.record t).present = true
      rw [hsame]
      exact hs.1
    · obtain rfl : t = t' := Signature.ofClass.inj ht'
      rw [hsame]
      exact hs.2
  | _ => exact hs.elim

/-! ### Steps -/

variable {α : Type} {G : Prop} {post : α → Production → Prop} {fail : Production → Prop}

theorem wp_lookUp_of {find : Emitted → Except Fault α} {c : Prop} {v : α}
    (hfind : ∀ w, find p.emitted = .ok w ↔ c ∧ w = v) (hpost : c → post v p)
    (hfail : ¬ c → fail p) :
    (lookUp find).wp post fail p := by
  rw [wp_lookUp]
  refine ⟨fun w hw => ?_, fun f hf => hfail fun hc => ?_⟩
  · obtain ⟨hc, rfl⟩ := (hfind w).mp hw
    exact hpost hc
  · rw [(hfind v).mpr ⟨hc, rfl⟩] at hf
    cases hf

theorem wp_emit_of {post : PUnit → Production → Prop} {add : Emitted → Except Fault Emitted}
    {e : Emitted} (hadd : add p.emitted = .ok e) (hpost : post ⟨⟩ { p with emitted := e }) :
    (emit add).wp post fail p := by
  rw [wp_emit, hadd]
  exact ⟨fun e' he => Except.ok.inj he ▸ hpost, fun _ hf => by cases hf⟩

theorem wp_lookUp_ok {post : α → Production → Prop} {find : Emitted → Except Fault α} {v : α}
    (hfind : find p.emitted = .ok v) (hpost : post v p) : (lookUp find).wp post fail p := by
  rw [wp_lookUp, hfind]
  exact ⟨fun w hw => Except.ok.inj hw ▸ hpost, fun _ hf => by cases hf⟩

theorem wp_namedType_of {post : TypeId → Production → Prop} {s : Signature}
    (he : p.emitted.types.Tabulates (· ∈ P.layout.order) P.layout.place)
    (hpost : ∀ t, s.placed P.layout = .ofClass t → post t p)
    (hfail : ¬ s.Names p.program P.layout.order → fail p) : (namedType s).wp post fail p := by
  simp only [namedType, wp_bind, wp_get, wp_lift]
  refine ⟨fun t ht => hpost t ((Emitted.namedType_eq_ok he).mp ht).2, fun f hf =>
    hfail fun hnames => ?_⟩
  have hplaced : ∃ t, s.placed P.layout = .ofClass t := by
    cases s with
    | draft x => exact ⟨_, rfl⟩
    | ofClass t => exact ⟨_, rfl⟩
    | _ => exact hnames.elim
  obtain ⟨t, ht⟩ := hplaced
  have hok : Lower.namedType p.workshop.space.program p.emitted s = .ok t :=
    (Emitted.namedType_eq_ok he).mpr ⟨hnames, ht⟩
  rw [hok] at hf
  cases hf

theorem Drawn.adorned {R : TypeRecord} (hp : Drawn P (update S h r) B A p)
    (hmem : h ∈ P.layout.order) (he : p.workshop.space.Edited (P.layout.place h) record space)
    (hr : record.portrait = R) (hsame : (p.program.record (P.layout.place h)).SameMembers record) :
    Drawn P (update S h R) B A (p.withSpace space) := by
  have hportrait := hsame.portrait
  rw [hr, hp.self hmem] at hportrait
  refine ⟨hp.toPainted.adorned he hr hportrait.flags fun slot => by rw [hsame.method? slot],
    hp.emitted.same ?_ (fun slot => ?_) ?_ ?_⟩
  · rw [hportrait.fields]
  · rw [hportrait.method? slot]
  · rw [hportrait.properties]
  · rw [hportrait.events]

section Define

variable (hp : Drawn P (update S h r) B A p) (hmem : h ∈ P.layout.order)
  (hopen : r.complete = false)
include hp hmem

theorem Drawn.complete : (p.program.record (P.layout.place h)).complete = r.complete := by
  rw [← hp.self hmem]
  rfl

include hopen

theorem Drawn.opened : (p.program.record (P.layout.place h)).complete = false :=
  (hp.complete hmem).trans hopen

theorem wp_setParent_drawn {base : TypeId} (hbase : r.base = none)
    (good : G → TypeFlags.Derivable (p.program.record base).flags) :
    (inSpace (TypeSpace.setParent (P.layout.place h) base)).wp
      (fun _ => Drawn P (update S h { r with base := some base }) B A) (fun _ => ¬ G) p := by
  have hr := hp.self hmem
  rw [wp_inSpace]
  refine TypeSpace.wp_setParent_edited (hp.lt h hmem) (fun space he => ?_) fun hbad g => hbad ?_
  · exact hp.adorned hmem he (by rw [← hr]; rfl) ⟨rfl, rfl, rfl, rfl, rfl, rfl, rfl⟩
  · exact ⟨hp.opened hmem hopen, by rw [← hbase, ← hr]; rfl, good g⟩

theorem wp_defineBase_drawn (objectType : TypeId) {d : Descriptor} (hbase : r.base = none)
    (good : G → ∀ s, d.effectiveBase objectType = some s → s.Offers P TypeFlags.Derivable) :
    (defineBase objectType d (P.layout.place h)).wp
      (fun _ => Drawn P (update S h { r with base := d.emittedBase P.layout objectType }) B A)
      (fun _ => ¬ G) p := by
  unfold defineBase Descriptor.emittedBase
  unfold Descriptor.effectiveBase at good
  cases hb : d.base with
  | some s =>
    have hgood : G → s.Offers P TypeFlags.Derivable :=
      fun g => good g s (by rw [hb, Option.some_or])
    dsimp only
    rw [wp_bind]
    refine wp_namedType_of hp.emitted.types (fun t ht => ?_) fun hbad g =>
      hbad (hp.offers (hgood g)).1
    rw [ht, Signature.class?]
    exact wp_setParent_drawn hp hmem hopen hbase fun g => (hp.offers (hgood g)).2 t ht
  | none =>
    rw [hb, Option.none_or] at good
    cases hi : d.isInterface with
    | true =>
      have hsame : ({ r with base := none } : TypeRecord) = r := by rw [← hbase]
      simp only [Bool.not_true, Bool.false_eq_true, if_false, if_true, wp_pure, hsame]
      exact hp
    | false =>
      simp only [Bool.not_false, if_true, Bool.false_eq_true, if_false]
      rw [hi] at good
      exact wp_setParent_drawn hp hmem hopen hbase fun g =>
        (hp.offers (good g _ rfl)).2 objectType rfl

theorem wp_defineInterface_drawn {s : Signature}
    (good : G → s.Offers P (hasBits · TypeFlags.interface = true)) :
    (do let i ← namedType s; inSpace (TypeSpace.implementInterface (P.layout.place h) i)).wp
      (fun _ => Drawn P
        (update S h { r with interfaces := r.interfaces ++ (s.placed P.layout).class?.toArray }) B
        A)
      (fun _ => ¬ G) p := by
  have hr := hp.self hmem
  rw [wp_bind]
  refine wp_namedType_of hp.emitted.types (fun t ht => ?_) fun hbad g => hbad (hp.offers (good g)).1
  rw [wp_inSpace]
  refine TypeSpace.wp_implementInterface_edited (hp.lt h hmem) (fun space he => ?_) fun hbad g =>
    hbad
    ⟨hp.opened hmem hopen, (hp.offers (good g)).2 t ht⟩
  refine hp.adorned hmem he ?_ ⟨rfl, rfl, rfl, rfl, rfl, rfl, rfl⟩
  rw [← hr, ht]
  rfl

end Define

end Production

end TypeLoom
