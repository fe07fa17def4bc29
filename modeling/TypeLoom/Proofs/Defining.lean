import Mathlib.Logic.Function.Basic
import TypeLoom.Proofs.Batches
import TypeLoom.Proofs.Declaring

/-!
# Defining the members of declared types

The second pass gives each declared type its base, its interfaces and its members, and notes the
overrides that are to be attached. What a type has got so far is its sketch; every step of the pass
leaves all sketches alone or adds one thing to one of them.
-/

namespace TypeLoom

/-! ### Sketches -/

/-- What dispatch reads of a type, without tokens. -/
structure Sketch where
  flags : UInt32
  base : Option TypeId := none
  interfaces : List TypeId := []
  methods : List (String × UInt32 × MethodSignature) := []
  overrides : List Override := []
  present : Bool := true

def TypeOutline.sketch (o : TypeOutline) : Sketch where
  flags := o.flags
  base := o.base
  interfaces := o.interfaces
  methods := o.methods.map fun m => (m.name, m.flags, m.signature)
  overrides := o.overrides
  present := o.present

def Attachment.noted : Attachment → Option (TypeId × Override)
  | .body _ _ _ => none
  | .override t m declaration => some (t, ⟨declaration, m⟩)

namespace DraftMethod

/-- The method as it is emitted. -/
def emitted (m : DraftMethod) (l : Layout) : String × UInt32 × MethodSignature :=
  (m.name, m.flags, m.signature.placed l)

def emittedOverrides (m : DraftMethod) (t : TypeId) : List Override :=
  (m.baseMethod.toList ++ m.explicitOverrides.toList).map fun declaration =>
    ⟨declaration, ⟨t, m.handle.slot⟩⟩

end DraftMethod

namespace Descriptor

def emittedOverrides (d : Descriptor) (t : TypeId) : List Override :=
  d.methods.toList.flatMap (·.emittedOverrides t)

def emittedBase (d : Descriptor) (l : Layout) (objectType : TypeId) : Option TypeId :=
  match d.base with
  | some base => (base.placed l).class?
  | none => if d.isInterface then none else some objectType

def emittedInterfaces (d : Descriptor) (l : Layout) : List TypeId :=
  d.interfaces.toList.filterMap fun s => (s.placed l).class?

end Descriptor

namespace Production

open Attempt Universe TypeSpace

variable {α β : Type} {ground first p : Production} {l : Layout} {h : TypeHandle}
  {S : TypeHandle → Sketch} {sk : Sketch} {N : List (TypeId × Override)}

def noted (p : Production) : List (TypeId × Override) :=
  p.attachments.toList.filterMap Attachment.noted

/-- How far the definition of the members has come: the sketches of the types, and the overrides
noted. -/
structure Standing (ground first : Production) (l : Layout) (S : TypeHandle → Sketch)
    (N : List (TypeId × Override)) (p : Production) : Prop where
  intact : Intact ground p
  batch : p.batch = first.batch
  types : p.emitted.types = first.emitted.types
  rows : ∀ h m, first.emitted.methods.find? h = some m → p.emitted.methods.find? h = some m
  size : p.program.types.size = l.start + l.order.length
  sketch : ∀ h ∈ l.order, (p.program.outline (l.place h)).sketch = S h
  noted : p.noted = N

theorem Standing.congr {S' : TypeHandle → Sketch} (hS : Standing ground first l S N p)
    (h : ∀ h ∈ l.order, S h = S' h) : Standing ground first l S' N p :=
  ⟨hS.intact, hS.batch, hS.types, hS.rows, hS.size, fun handle hmem =>
    (hS.sketch handle hmem).trans (h handle hmem),
    hS.noted⟩

theorem Standing.restart (hS : Standing ground first l S N p) : Standing ground p l S N p :=
  ⟨hS.intact, rfl, rfl, fun _ _ h => h, hS.size, hS.sketch, hS.noted⟩

theorem Standing.rebase {mid : Production} {S' : TypeHandle → Sketch}
    {N' : List (TypeId × Override)} (hS : Standing ground first l S N mid)
    (hS' : Standing ground mid l S' N' p) :
    Standing ground first l S' N' p where
  intact := hS'.intact
  batch := hS'.batch.trans hS.batch
  types := hS'.types.trans hS.types
  rows := fun handle m hm => hS'.rows handle m (hS.rows handle m hm)
  size := hS'.size
  sketch := hS'.sketch
  noted := hS'.noted

/-! ### Calm steps -/

structure Calm (p p' : Production) : Prop where
  space : p.workshop.space.Idle p'.workshop.space
  batch : p'.batch = p.batch
  types : p'.emitted.types = p.emitted.types
  rows : ∀ h m, p.emitted.methods.find? h = some m → p'.emitted.methods.find? h = some m
  attachments : p'.attachments = p.attachments

theorem Calm.refl (p : Production) : Calm p p := ⟨.refl _, rfl, rfl, fun _ _ h => h, rfl⟩

theorem Calm.trans {mid p' : Production} (h : Calm p mid) (h' : Calm mid p') : Calm p p' where
  space := h.space.trans h'.space
  batch := h'.batch.trans h.batch
  types := h'.types.trans h.types
  rows := fun handle m hm => h'.rows handle m (h.rows handle m hm)
  attachments := h'.attachments.trans h.attachments

theorem Standing.calm {p' : Production} (hS : Standing ground first l S N p) (hc : Calm p p') :
    Standing ground first l S N p' where
  intact := by
    refine ⟨?_, hS.intact.sound.idle hc.space, hc.space.core.trans hS.intact.core, ?_, ?_⟩
    · rw [hc.batch]
      exact hS.intact.batch
    · show _ ≤ p'.workshop.space.program.types.size
      rw [hc.space.same.1]
      exact hS.intact.size
    · exact hS.intact.agree.trans (hc.space.same.agree _)
  batch := hc.batch.trans hS.batch
  types := hc.types.trans hS.types
  rows := fun handle m hm => hc.rows handle m (hS.rows handle m hm)
  size := hc.space.same.1.trans hS.size
  sketch := fun handle hmem => by
    show (p'.workshop.space.program.outline _).sketch = _
    rw [hc.space.same.2]
    exact hS.sketch handle hmem
  noted := by
    rw [Production.noted, hc.attachments]
    exact hS.noted

/-- However the attempt ends, nothing that dispatch reads has changed. -/
def Still (act : Attempt Production α) : Prop := ∀ p, act.wp (fun _ => Calm p) (Calm p) p

theorem Still.wp {post : α → Production → Prop} {act : Attempt Production α} (h : Still act)
    (hS : Standing ground first l S N p)
    (hpost : ∀ v after, Calm p after → Standing ground first l S N after → post v after) :
    act.wp post (Intact ground) p :=
  wp_mono (h p) (fun v after hc => hpost v after hc (hS.calm hc)) fun _ hc => (hS.calm hc).intact

theorem still_pure (v : α) : Still (pure v) := fun p => .refl p

theorem still_bind {act : Attempt Production α} {next : α → Attempt Production β} (h : Still act)
    (hnext : ∀ v, Still (next v)) : Still (act >>= next) := by
  intro p
  rw [wp_bind]
  refine wp_mono (h p) (fun v mid hmid => ?_) fun _ hafter => hafter
  exact wp_mono (hnext v mid) (fun _ _ hafter => hmid.trans hafter) fun _ hafter =>
    hmid.trans hafter

theorem still_forIn {body : β → Attempt Production α} (items : List β)
    (h : ∀ item ∈ items, Still (body item)) :
    Still (forIn items PUnit.unit (fun item _ => do let _ ← body item; pure (.yield PUnit.unit)) :
      Attempt Production PUnit) := by
  intro p
  refine wp_forIn (I := fun _ => Calm p) items (fun before item after heq mid hmid => ?_) (.refl p)
  have hitem : item ∈ items := by rw [heq]; simp
  exact wp_mono (h item hitem mid) (fun _ _ hafter => hmid.trans hafter) fun _ hafter =>
    hmid.trans hafter

theorem still_lookUp (find : Emitted → Except Fault α) : Still (lookUp find) := by
  intro p
  rw [wp_lookUp]
  exact ⟨fun _ _ => .refl p, fun _ _ => .refl p⟩

theorem still_emittedMethod? (h : Option MethodHandle) : Still (emittedMethod? h) :=
  fun p => wp_lookUpAll _ h (fun _ _ => .refl p) (.refl p)

theorem still_inSpace {act : Attempt TypeSpace α} (h : Quiet act) : Still (inSpace act) := by
  intro p
  rw [wp_inSpace]
  have hcalm : ∀ space, p.workshop.space.Idle space → Calm p (p.withSpace space) :=
    fun space hidle => ⟨hidle, rfl, rfl, fun _ _ h => h, rfl⟩
  exact h.wp (fun _ space hidle => hcalm space hidle) hcalm

theorem still_emit {add : Emitted → Except Fault Emitted}
    (h : ∀ e e', add e = .ok e' → e'.types = e.types ∧ e'.methods = e.methods) :
    Still (emit add) := by
  intro p
  rw [wp_emit]
  refine ⟨fun e' he => ?_, fun _ _ => .refl p⟩
  obtain ⟨htypes, hmethods⟩ := h _ _ he
  exact ⟨.refl _, rfl, htypes, fun _ _ hm => by rw [hmethods]; exact hm, rfl⟩

theorem quiet_ensureOpen (t : TypeId) : Quiet (ensureOpen t) :=
  fun s => wp_ensureOpen (.refl s) (.refl s)

theorem quiet_modifyField (f : FieldId) (change : FieldRecord → FieldRecord) :
    Quiet (modify fun space : TypeSpace =>
      { space with program := space.program.modifyField f change }) :=
  fun _ => ⟨same_modify _ fun _ => rfl, rfl, rfl⟩

theorem quiet_modifyMethod (m : MethodId) {change : MethodRecord → MethodRecord}
    (h : ∀ r, (change r).outline = r.outline) :
    Quiet (modify fun space : TypeSpace =>
      { space with program := space.program.modifyMethod m change }) :=
  fun _ => ⟨same_modify _ fun r => outline_modifyMethod r m.slot h, rfl, rfl⟩

theorem still_setAttribute (t : TypeId) (a : Attribute) :
    Still (inSpace (TypeSpace.setAttribute t a)) :=
  still_inSpace (quiet_bind (quiet_ensureOpen t) fun _ => quiet_edit t fun _ => rfl)

theorem still_defineField (t : TypeId) (f : DraftField) : Still (defineField t f) := by
  refine still_bind (still_lookUp _) fun signature => still_bind (still_inSpace ?_) fun field =>
    still_bind (still_inSpace (quiet_modifyField _ _)) fun _ => still_emit fun e e' he => ?_
  · exact quiet_bind (quiet_ensureOpen t) fun _ => quiet_appendField _ _ _ _
  · obtain ⟨fields, -, hend⟩ := bind_eq_ok.mp he
    cases hend
    exact ⟨rfl, rfl⟩

theorem still_defineProperty (t : TypeId) (v : DraftProperty) : Still (defineProperty t v) := by
  refine still_bind (still_emittedMethod? _) fun getter =>
      still_bind (still_emittedMethod? _) fun setter =>
    still_bind (still_lookUp _) fun signature => still_bind (still_inSpace ?_) fun property =>
      still_emit fun e e' he => ?_
  · exact quiet_bind (quiet_ensureOpen t) fun _ => quiet_appendProperty _ _ _ _ _
  · obtain ⟨properties, -, hend⟩ := bind_eq_ok.mp he
    cases hend
    exact ⟨rfl, rfl⟩

theorem still_defineEvent (t : TypeId) (v : DraftEvent) : Still (defineEvent t v) := by
  refine still_bind (still_emittedMethod? _) fun raise => still_bind (still_lookUp _) fun type =>
    still_bind (still_lookUp _) fun add => still_bind (still_lookUp _) fun remove =>
      still_bind (still_inSpace ?_) fun event => still_emit fun e e' he => ?_
  · exact quiet_bind (quiet_ensureOpen t) fun _ => quiet_appendEvent _ _ _ _ _ _
  · obtain ⟨events, -, hend⟩ := bind_eq_ok.mp he
    cases hend
    exact ⟨rfl, rfl⟩

/-- A method gets a row: the row is new, and the other rows are kept. -/
theorem wp_emitMethod {post : PUnit → Production → Prop} (handle : MethodHandle) (method : MethodId)
    (hS : Standing ground first l S N p)
    (hpost : ∀ after, Calm p after → after.emitted.methods.find? handle = some method →
      Standing ground first l S N after → post ⟨⟩ after) :
    (emit (·.addMethod handle method)).wp post (Intact ground) p := by
  rw [wp_emit]
  refine ⟨fun e he => ?_, fun _ _ => hS.intact⟩
  obtain ⟨methods, hadd, hend⟩ := bind_eq_ok.mp he
  cases hend
  unfold Emitted.addOnce at hadd
  split at hadd
  · cases hadd
  · rename_i hfree
    cases hadd
    have hcalm :
        Calm p { p with emitted := { p.emitted with methods := p.emitted.methods.put handle method } } := by
      refine ⟨.refl _, rfl, rfl, fun other row hrow => ?_, rfl⟩
      have hne : handle ≠ other := by
        rintro rfl
        rw [Keyed.hasKey, hrow] at hfree
        exact hfree rfl
      exact (Keyed.find?_put_of_ne _ _ _ _ hne).trans hrow
    exact hpost _ hcalm (Keyed.find?_put_self _ _ _) (hS.calm hcalm)

theorem wp_registerMethod {post : PUnit → Production → Prop} (m : DraftMethod) (method : MethodId)
    (hS : Standing ground first l S N p)
    (hpost : ∀ after, Calm p after → after.emitted.methods.find? m.handle = some method →
      Standing ground first l S N after → post ⟨⟩ after) :
    (registerMethod m method).wp post (Intact ground) p := by
  unfold registerMethod
  rw [wp_bind]
  refine (still_inSpace ?_).wp hS fun _ mid hmid hS' => ?_
  · exact quiet_modifyMethod method fun _ => rfl
  · exact wp_emitMethod m.handle method hS' fun after hcalm hrow hafter =>
      hpost after (hmid.trans hcalm) hrow hafter

/-! ### Steps that add to a sketch -/

theorem Standing.shaped {space : TypeSpace} {change : TypeOutline → TypeOutline}
    {f : Sketch → Sketch} (hS : Standing ground first l (Function.update S h sk) N p)
    (hstart : l.start = ground.program.types.size) (hmem : h ∈ l.order)
    (hr : Shaped p.workshop.space (l.place h) change space)
    (hf : ∀ o : TypeOutline, (change o).sketch = f o.sketch)
    (hk : (p.program.outline (l.place h)).Keeps (change (p.program.outline (l.place h))))
    (hfits : (p.program.outline (l.place h)).Fits p.program.outline
      p.program.types.size (l.place h) →
      (change (p.program.outline (l.place h))).Fits p.program.outline
      p.program.types.size (l.place h)) :
    Standing ground first l (Function.update S h (f sk)) N (p.withSpace space) where
  intact := by
    refine ⟨hS.intact.batch, ⟨?_, ?_⟩, hr.core.trans hS.intact.core, ?_, ?_⟩
    · exact hr.reshaped.wellFormed hS.intact.sound.wellFormed hk
        (hfits (hS.intact.sound.wellFormed _))
    · show space.registry.core.object.index < space.program.types.size
      rw [hr.core, hr.reshaped.1]
      exact hS.intact.sound.object
    · show _ ≤ space.program.types.size
      rw [hr.reshaped.1]
      exact hS.intact.size
    · refine hS.intact.agree.trans (hr.reshaped.agree.mono ?_)
      rw [← hstart]
      exact l.start_le_place h
  batch := hS.batch
  types := hS.types
  rows := hS.rows
  size := hr.reshaped.1.trans hS.size
  sketch := fun other hother => by
    have hold := hS.sketch other hother
    show (space.program.outline (l.place other)).sketch = _
    by_cases hne : other = h
    · subst hne
      rw [Function.update_self] at hold ⊢
      rw [hr.reshaped.self, hf]
      exact congrArg f hold
    · rw [Function.update_of_ne hne] at hold ⊢
      rw [hr.reshaped.other fun heq => hne (l.place_injective heq)]
      exact hold
  noted := hS.noted

section Steps

variable (hS : Standing ground first l (Function.update S h sk) N p) (hstart : l.start
  = ground.program.types.size)
  (hmem : h ∈ l.order)
include hS hmem

theorem Standing.place_lt : (l.place h).index < p.workshop.space.program.types.size := by
  have := Layout.place_lt hmem
  have hsize : p.workshop.space.program.types.size = _ := hS.size
  omega

theorem Standing.flags : (p.program.outline (l.place h)).flags = sk.flags := by
  have := congrArg Sketch.flags (hS.sketch h hmem)
  rw [Function.update_self] at this
  exact this

include hstart

theorem wp_setParent {base : TypeId} (hlt : base.index < (l.place h).index)
    (hclass : hasBits sk.flags TypeFlags.interface = false) :
    (inSpace (TypeSpace.setParent (l.place h) base)).wp
      (fun _ => Standing ground first l (Function.update S h { sk with base := some base }) N)
      (Intact ground) p := by
  have hpresent : (p.program.outline (l.place h)).isInterface = false := by
    rw [TypeOutline.isInterface, hS.flags hmem]
    exact hclass
  rw [wp_inSpace]
  unfold TypeSpace.setParent
  rw [wp_bind]
  refine wp_ensureOpen ?_ hS.intact
  simp only [currentProgram, wp_bind, wp_get, wp_pure]
  refine wp_checkBase (fun hbase => ?_) hS.intact
  refine wp_setBase (hS.place_lt hmem) (fun space hr => ?_) hS.intact
  exact hS.shaped (f := fun sk => { sk with base := some base }) hstart hmem hr (fun _ => rfl)
    (TypeOutline.keeps_setBase _ _) fun hfits => hfits.setBase hlt hbase hpresent

theorem wp_implementInterface {i : TypeId} (hle : i.index ≤ (l.place h).index) :
    (inSpace (TypeSpace.implementInterface (l.place h) i)).wp
      (fun _ => Standing ground first l
        (Function.update S h { sk with interfaces := sk.interfaces ++ [i] }) N)
      (Intact ground) p := by
  rw [wp_inSpace]
  unfold TypeSpace.implementInterface
  rw [wp_bind]
  refine wp_ensureOpen ?_ hS.intact
  refine wp_appendInterface (hS.place_lt hmem) (fun space hi hr => ?_) hS.intact
  exact hS.shaped (f := fun sk => { sk with interfaces := sk.interfaces ++ [i] }) hstart hmem
    hr (fun _ => rfl)
    (TypeOutline.keeps_addInterface _ _) fun hfits => hfits.addInterface hle hi

theorem wp_defineConstructor' {flags : UInt32} {signature : MethodSignature}
    (hs : signature.Settled (l.start + l.order.length)) :
    (inSpace (TypeSpace.defineConstructor (l.place h) flags signature)).wp
      (fun _ => Standing ground first l (Function.update S h sk) N) (Intact ground) p := by
  rw [wp_inSpace]
  unfold TypeSpace.defineConstructor
  rw [wp_bind]
  refine wp_ensureOpen ?_ hS.intact
  refine wp_appendConstructor (hS.place_lt hmem) fun space hr _ => ?_
  rw [← hS.size] at hs
  exact hS.shaped (f := id) hstart hmem hr (fun _ => rfl) (TypeOutline.keeps_addConstructor _ _)
      fun hfits =>
    hfits.addConstructor hs

theorem wp_defineInitializer' :
    (inSpace (TypeSpace.defineInitializer (l.place h))).wp
      (fun _ => Standing ground first l (Function.update S h sk) N) (Intact ground) p := by
  rw [wp_inSpace]
  unfold TypeSpace.defineInitializer
  rw [wp_bind]
  refine wp_ensureOpen ?_ hS.intact
  refine wp_placeInitializer (hS.place_lt hmem) (fun space hnone hr _ => ?_) fun space _
    hsame hcore _ => ?_
  · have hown := (hS.intact.sound.wellFormed (l.place h)).initializer hnone
    exact hS.shaped (f := id) hstart hmem hr (fun _ => rfl)
        (TypeOutline.keeps_setInitializer _ _ hown) fun hfits =>
      hfits.setInitializer (show MethodSignature.Settled _ {} from MethodSignature.settled_default
        _) hnone
  · exact hS.intact.unmoved hsame hcore

theorem wp_defineMethod' {name : String} {flags : UInt32} {signature : MethodSignature}
    (hs : signature.Settled (l.start + l.order.length)) :
    (inSpace (TypeSpace.defineMethod (l.place h) name flags signature)).wp
      (fun m after => m = ⟨l.place h, .method sk.methods.length⟩
        ∧ after.batch = p.batch ∧ after.emitted = p.emitted ∧ after.attachments = p.attachments
        ∧ Standing ground first l
            (Function.update S h { sk with methods := sk.methods ++ [(name, flags, signature)] }) N
            after)
      (Intact ground) p := by
  rw [wp_inSpace]
  unfold TypeSpace.defineMethod
  rw [wp_bind]
  refine wp_ensureOpen ?_ hS.intact
  refine wp_appendMethod (hS.place_lt hmem) fun space hr _ => ?_
  have hlength : (p.workshop.space.program.record (l.place h)).methods.size
      = sk.methods.length := by
    have := congrArg (fun sk => sk.methods.length) (hS.sketch h hmem)
    rw [Function.update_self] at this
    simpa [program, TypeOutline.sketch, Universe.outline, TypeRecord.outline] using this
  rw [← hS.size] at hs
  refine ⟨by rw [hlength], rfl, rfl, rfl, ?_⟩
  exact hS.shaped (f := fun sk => { sk with methods := sk.methods ++ [(name, flags, signature)] })
    hstart hmem hr
    (fun o => by simp [TypeOutline.sketch, TypeOutline.addMethod]) (TypeOutline.keeps_addMethod _ _)
    fun hfits =>
      hfits.addMethod hs

end Steps

/-! ### Parts of a definition -/

theorem mem_zip_of_mem_right {γ δ : Type} {items : List γ} {values : List δ}
    (hlength : items.length = values.length) {v : δ} (hv : v ∈ values) :
    ∃ item, (item, v) ∈ items.zip values := by
  rw [← List.map_snd_zip hlength.ge] at hv
  obtain ⟨pair, hpair, rfl⟩ := List.mem_map.mp hv
  exact ⟨pair.1, hpair⟩

/-- A sound descriptor whose base and interfaces come before it in the layout. -/
structure Scheduled (ground : Production) (l : Layout) (h : TypeHandle) (d : Descriptor) :
    Prop where
  mem : h ∈ l.order
  handle : d.handle = h
  sound : d.Sound ground.program
  base : ∀ b, d.base = some (.draft b) → b ∈ l.order → (l.place b).index < (l.place h).index
  interfaces : ∀ i, .draft i ∈ d.interfaces → i ∈ l.order → (l.place i).index ≤ (l.place h).index

theorem Standing.follows (hS : Standing ground first l S N p) (hfollows : first.emitted.Follows l) :
    p.emitted.Follows l := by
  intro handle t ht
  rw [hS.types] at ht
  exact hfollows handle t ht

theorem wp_namedType {post : TypeId → Production → Prop} {s : Signature}
    (hS : Standing ground first l S N p) (hfollows : first.emitted.Follows l)
    (hpost : ∀ t, s.placed l = .ofClass t → (∀ b, s = .draft b → b ∈ l.order) → post t p) :
    (namedType s).wp post (Intact ground) p := by
  simp only [namedType, wp_bind, wp_get, wp_lift]
  refine ⟨fun t ht => ?_, fun _ _ => hS.intact⟩
  obtain ⟨hplaced, hdraft, -⟩ := (hS.follows hfollows).namedType_ok ht
  exact hpost t hplaced hdraft

theorem wp_attachAll (hS : Standing ground first l S N p) (items : List Attachment) :
    (forIn items PUnit.unit (fun a _ => do let _ ← attach a; pure (.yield PUnit.unit)) :
      Attempt Production PUnit).wp
      (fun _ => Standing ground first l S (N ++ items.filterMap Attachment.noted))
          (Intact ground) p := by
  refine wp_forIn (I := fun done =>
    Standing ground first l S (N ++ done.filterMap Attachment.noted)) items
    (fun before a after _ mid hmid => ?_) (by simpa using hS)
  rw [attach, wp_modify]
  refine ⟨⟨hmid.intact.batch, hmid.intact.sound, hmid.intact.core, hmid.intact.size,
    hmid.intact.agree⟩,
    hmid.batch, hmid.types, hmid.rows, hmid.size, hmid.sketch, ?_⟩
  have hnoted := hmid.noted
  simp only [noted, Array.toList_push, List.filterMap_append] at hnoted ⊢
  rw [hnoted, List.append_assoc]

section Parts

variable {d : Descriptor} (hstart : l.start = ground.program.types.size)
  (hfollows : first.emitted.Follows l)
  (hd : Scheduled ground l h d)
include hstart hfollows hd

theorem wp_defineBase {objectType : TypeId} (hobject : objectType.index < ground.program.types.size)
    (hclass : hasBits sk.flags TypeFlags.interface = d.isInterface) (hbase : sk.base = none)
    (hS : Standing ground first l (Function.update S h sk) N p) :
    (defineBase objectType d (l.place h)).wp
      (fun _ => Standing ground first l
        (Function.update S h { sk with base := d.emittedBase l objectType }) N)
        (Intact ground) p := by
  have hlt : ∀ t : TypeId, t.index < ground.program.types.size → t.index < (l.place h).index := by
    intro t ht
    have := l.start_le_place h
    omega
  unfold defineBase Descriptor.emittedBase
  cases hb : d.base with
  | some s =>
    rw [wp_bind]
    refine wp_namedType hS hfollows fun t hplaced hmem => ?_
    have hclass' : hasBits sk.flags TypeFlags.interface = false := by
      rw [hclass, Bool.eq_false_iff]
      intro hi
      rw [hd.sound.rootless hi] at hb
      cases hb
    have hbefore : t.index < (l.place h).index := by
      cases s with
      | ofClass t' =>
        cases hplaced
        exact hlt _ (hd.sound.base _ hb)
      | draft b =>
        cases hplaced
        exact hd.base b hb (hmem b rfl)
      | _ => cases hplaced
    simp only [hplaced, Signature.class?]
    exact wp_setParent hS hstart hd.mem hbefore hclass'
  | none =>
    by_cases hi : d.isInterface = true
    · simp only [hi, Bool.not_true, Bool.false_eq_true, if_false, if_true, wp_pure]
      rw [← hbase]
      exact hS
    · have hi' : d.isInterface = false := by simpa using hi
      simp only [hi', Bool.not_false, Bool.false_eq_true, if_false, if_true]
      exact wp_setParent hS hstart hd.mem (hlt _ hobject) (hclass.trans hi')

theorem wp_defineInterfaces (hnone : sk.interfaces = [])
    (hS : Standing ground first l (Function.update S h sk) N p) :
    (forIn d.interfaces.toList PUnit.unit (fun s _ => do
        let _ ← (do let i ← namedType s; inSpace (TypeSpace.implementInterface (l.place h) i))
        pure (.yield PUnit.unit)) : Attempt Production PUnit).wp
      (fun _ => Standing ground first l
        (Function.update S h { sk with interfaces := d.emittedInterfaces l }) N)
        (Intact ground) p := by
  refine wp_forIn (I := fun done => Standing ground first l
    (Function.update S h { sk with interfaces := done.filterMap fun s => (s.placed l).class? }) N)
    d.interfaces.toList (fun before s after heq mid hmid => ?_) ?_
  · rw [wp_bind]
    refine wp_namedType hmid hfollows fun i hplaced hmem => ?_
    have hs : s ∈ d.interfaces := Array.mem_toList_iff.mp (by rw [heq]; simp)
    have hle : i.index ≤ (l.place h).index := by
      cases s with
      | ofClass t =>
        cases hplaced
        have hlt := (hd.sound.interfaces _ hs).1
        have := l.start_le_place h
        omega
      | draft b =>
        cases hplaced
        exact hd.interfaces b hs (hmem b rfl)
      | _ => cases hplaced
    have hdone := wp_implementInterface hmid hstart hd.mem hle
    simpa [List.filterMap_append, hplaced, Signature.class?] using hdone
  · rw [List.filterMap_nil, ← hnone]
    exact hS

theorem wp_defineConstructor (c : DraftMethod) (hc : c ∈ d.constructors)
    (hS : Standing ground first l (Function.update S h sk) N p) :
    (defineConstructor d (l.place h) c).wp
      (fun a after => a.noted = none ∧ Standing ground first l (Function.update S h sk) N after)
      (Intact ground) p := by
  unfold defineConstructor
  rw [wp_bind, wp_lookUp]
  refine ⟨fun signature hsignature => ?_, fun _ _ => hS.intact⟩
  obtain ⟨-, hsettled⟩ := (hS.follows hfollows).methodSignature_ok hsignature
  have hknown : c.signature.Known l.start := by
    rw [hstart]
    exact hd.sound.constructorsKnown _ (Array.mem_map_of_mem hc)
  rw [wp_bind]
  refine wp_mono (wp_defineConstructor' hS hstart hd.mem (hsettled hknown)) (fun m mid hmid =>
    ?_) fun _ h => h
  rw [wp_bind]
  exact wp_registerMethod c m hmid fun after _ _ hafter => ⟨rfl, hafter⟩

theorem wp_defineConstructors (hS : Standing ground first l (Function.update S h sk) N p) :
    (d.constructors.toList.mapM (defineConstructor d (l.place h))).wp
      (fun as after => as.filterMap Attachment.noted = []
        ∧ Standing ground first l (Function.update S h sk) N after)
      (Intact ground) p := by
  have hstep : ∀ before c after, d.constructors.toList = before.map (·.1) ++ c :: after → ∀ mid,
      ((∀ pair ∈ before, Attachment.noted pair.2 = none)
        ∧ Standing ground first l (Function.update S h sk) N mid) →
      (defineConstructor d (l.place h) c).wp (fun a next =>
        (∀ pair ∈ before ++ [(c, a)], Attachment.noted pair.2 = none)
        ∧ Standing ground first l (Function.update S h sk) N next) (Intact ground) mid := by
    intro before c after heq mid hmid
    have hc : c ∈ d.constructors := Array.mem_toList_iff.mp (by rw [heq]; simp)
    refine wp_mono (wp_defineConstructor hstart hfollows hd c hc hmid.2) (fun a next hnext =>
      ?_) fun _ h => h
    refine ⟨fun pair hpair => ?_, hnext.2⟩
    rcases List.mem_append.mp hpair with hold | hnew
    · exact hmid.1 pair hold
    · rw [List.mem_singleton.mp hnew]
      exact hnext.1
  refine wp_mono (wp_mapM _ hstep ⟨fun _ hpair => absurd hpair List.not_mem_nil, hS⟩)
    (fun as after has => ?_)
    fun _ h => h
  refine ⟨List.filterMap_eq_nil_iff.mpr fun a ha => ?_, has.2.2⟩
  obtain ⟨c, hc⟩ := mem_zip_of_mem_right has.1 ha
  exact has.2.1 _ hc

omit hfollows in
theorem wp_defineInitializer (hS : Standing ground first l (Function.update S h sk) N p) :
    (defineInitializer d (l.place h)).wp
      (fun as after => as.filterMap Attachment.noted = []
        ∧ Standing ground first l (Function.update S h sk) N after)
      (Intact ground) p := by
  unfold defineInitializer
  rw [wp_ite]
  refine ⟨fun _ => ⟨rfl, hS⟩, fun _ => ?_⟩
  rw [wp_bind]
  refine wp_mono (wp_defineInitializer' hS hstart hd.mem) (fun m mid hmid => ?_) fun _ h => h
  cases d.typeInitializer with
  | some made =>
    rw [wp_bind]
    exact wp_registerMethod made m hmid fun after _ _ hafter => ⟨rfl, hafter⟩
  | none =>
    rw [wp_bind]
    exact wp_emitMethod _ m hmid fun after _ _ hafter => ⟨rfl, hafter⟩

def Attaches (t : TypeId) (m : DraftMethod) (v : List Attachment × List Attachment) : Prop :=
  v.1.filterMap Attachment.noted = [] ∧ v.2.filterMap Attachment.noted
    = (m.emittedOverrides t).map (t, ·)

theorem wp_defineMethod (index : Nat) (m : DraftMethod) (hm : d.methods[index]? = some m)
    (hlength : sk.methods.length = index)
    (hS : Standing ground first l (Function.update S h sk) N p) :
    (defineMethod (l.place h) m).wp
      (fun v after => Attaches (l.place h) m v
        ∧ after.emitted.methods.find? m.handle = some ⟨l.place h, m.handle.slot⟩
        ∧ (∀ handle row, p.emitted.methods.find? handle = some row →
          after.emitted.methods.find? handle = some row)
        ∧ Standing ground first l
          (Function.update S h { sk with methods := sk.methods ++ [m.emitted l] }) N after)
      (Intact ground) p := by
  have hhandle : m.handle.slot = .method index := by rw [hd.sound.handles index m hm]
  unfold defineMethod
  rw [wp_bind, wp_lookUp]
  refine ⟨fun signature hsignature => ?_, fun _ _ => hS.intact⟩
  obtain ⟨rfl, hsettled⟩ := (hS.follows hfollows).methodSignature_ok hsignature
  have hknown : m.signature.Known l.start := by
    rw [hstart]
    exact hd.sound.methodsKnown m (Array.mem_of_getElem? hm)
  rw [wp_bind]
  refine wp_mono (wp_defineMethod' hS hstart hd.mem (hsettled hknown)) ?_ fun _ h => h
  rintro method mid ⟨rfl, -, hemitted, -, hmid⟩
  rw [wp_bind]
  refine wp_registerMethod m _ hmid fun after hcalm hrow hafter => ?_
  rw [hlength, ← hhandle] at hrow ⊢
  refine ⟨⟨?_, ?_⟩, hrow, fun handle row h => hcalm.rows handle row (by rw [hemitted]; exact h),
    hafter⟩
  · cases m.body <;> rfl
  · rw [DraftMethod.emittedOverrides, List.map_map, List.filterMap_map]
    rw [← List.filterMap_eq_map]
    rfl

theorem wp_defineMethods (hnone : sk.methods = [])
    (hS : Standing ground first l (Function.update S h sk) N p) :
    (d.methods.toList.mapM (defineMethod (l.place h))).wp
      (fun vs after => (vs.flatMap (·.1)).filterMap Attachment.noted = []
        ∧ (vs.flatMap (·.2)).filterMap Attachment.noted
        = (d.emittedOverrides (l.place h)).map (l.place h, ·)
        ∧ (∀ m ∈ d.methods, after.emitted.methods.find? m.handle = some ⟨l.place h, m.handle.slot⟩)
        ∧ Standing ground first l
            (Function.update S h { sk with methods := d.methods.toList.map (·.emitted l) }) N after)
      (Intact ground) p := by
  let inv (done : List (DraftMethod × (List Attachment × List Attachment))) (after : Production) :
    Prop :=
    (∀ pair ∈ done, Attaches (l.place h) pair.1 pair.2
      ∧ after.emitted.methods.find? pair.1.handle = some ⟨l.place h, pair.1.handle.slot⟩)
    ∧ Standing ground first l (Function.update S h { sk with methods := done.map (·.1.emitted l) })
      N after
  have hstep : ∀ before m after, d.methods.toList = before.map (·.1) ++ m :: after →
    ∀ mid, inv before mid →
      (defineMethod (l.place h) m).wp (fun v => inv (before ++ [(m, v)])) (Intact ground) mid := by
    intro before m after heq mid hmid
    have hm : d.methods[before.length]? = some m := by
      rw [← Array.getElem?_toList, heq, List.getElem?_append_right (by simp)]
      simp
    refine wp_mono (wp_defineMethod hstart hfollows hd before.length m hm (by simp) hmid.2) ?_ fun _
      h => h
    rintro v next ⟨hattaches, hrow, hrows, hnext⟩
    refine ⟨fun pair hpair => ?_, by simpa using hnext⟩
    rcases List.mem_append.mp hpair with hold | hnew
    · exact ⟨(hmid.1 pair hold).1, hrows _ _ (hmid.1 pair hold).2⟩
    · rw [List.mem_singleton.mp hnew]
      exact ⟨hattaches, hrow⟩
  have hbegin : inv [] p := by
    refine ⟨fun _ hpair => absurd hpair List.not_mem_nil, ?_⟩
    rw [List.map_nil, ← hnone]
    exact hS
  refine wp_mono (wp_mapM _ hstep hbegin) (fun vs after hvs => ?_) fun _ h => h
  obtain ⟨hlength, hpairs, hafter⟩ := hvs
  have hvalues : vs = (d.methods.toList.zip vs).map (·.2) := (List.map_snd_zip hlength.ge).symm
  have hitems : d.methods.toList = (d.methods.toList.zip vs).map (·.1) :=
    (List.map_fst_zip hlength.le).symm
  refine ⟨?_, ?_, fun m hm => ?_, ?_⟩
  · rw [List.filterMap_flatMap]
    refine List.flatMap_eq_nil_iff.mpr fun v hv => ?_
    obtain ⟨m, hpair⟩ := mem_zip_of_mem_right hlength hv
    exact (hpairs _ hpair).1.1
  · rw [List.filterMap_flatMap, Descriptor.emittedOverrides, List.map_flatMap]
    calc vs.flatMap (fun v => v.2.filterMap Attachment.noted)
        = (d.methods.toList.zip vs).flatMap (fun pair => pair.2.2.filterMap Attachment.noted) := by
          conv_lhs => rw [hvalues]
          rw [List.flatMap_map]
      _ = (d.methods.toList.zip vs).flatMap
            (fun pair => (pair.1.emittedOverrides (l.place h)).map (l.place h, ·)) :=
          List.flatMap_congr fun pair hpair => (hpairs pair hpair).1.2
      _ = d.methods.toList.flatMap (fun m =>
          (m.emittedOverrides (l.place h)).map (l.place h, ·)) := by
          conv_rhs => rw [hitems]
          rw [List.flatMap_map]
  · have hmem := Array.mem_toList_iff.mpr hm
    rw [hitems] at hmem
    obtain ⟨pair, hpair, rfl⟩ := List.mem_map.mp hmem
    exact (hpairs pair hpair).2
  · have hmethods : (d.methods.toList.zip vs).map (·.1.emitted l)
        = d.methods.toList.map (·.emitted l) := by
      conv_rhs => rw [hitems]
      rw [List.map_map]
      rfl
    rw [hmethods] at hafter
    exact hafter

theorem wp_define {objectType : TypeId} (hobject : objectType.index < ground.program.types.size)
    (hfound : first.batch.find? h = some d) (hsk : ∃ flags, sk = { flags })
    (hclass : hasBits sk.flags TypeFlags.interface = d.isInterface)
    (hS : Standing ground first l (Function.update S h sk) N p) :
    (define objectType h).wp
      (fun _ after => (∀ m ∈ d.methods, after.emitted.methods.find? m.handle
        = some ⟨l.place h, m.handle.slot⟩)
        ∧ Standing ground first l (Function.update S h
            { flags := sk.flags, base := d.emittedBase l objectType,
              interfaces := d.emittedInterfaces l,
              methods := d.methods.toList.map (·.emitted l) })
            (N ++ (d.emittedOverrides (l.place h)).map (l.place h, ·)) after)
      (Intact ground) p := by
  obtain ⟨flags, rfl⟩ := hsk
  unfold define
  rw [wp_bind, wp_descriptor, hS.batch, hfound]
  refine ⟨fun e he => ?_, nofun⟩
  cases he
  rw [wp_bind, wp_lookUp]
  refine ⟨fun t ht => ?_, fun _ _ => hS.intact⟩
  obtain ⟨-, rfl⟩ := (hS.follows hfollows).type_ok ht
  rw [wp_bind]
  refine wp_mono (wp_defineBase hstart hfollows hd hobject hclass rfl hS) (fun _ p₁ h₁ =>
    ?_) fun _ h => h
  have hinterfaces := wp_defineInterfaces hstart hfollows hd rfl h₁
  simp only [bind_assoc] at hinterfaces
  rw [wp_bind]
  refine wp_mono hinterfaces (fun _ p₂ h₂ => ?_) fun _ h => h
  rw [wp_bind]
  refine (still_forIn _ fun a _ => still_setAttribute (l.place h) a).wp h₂ fun _ p₃ _ h₃ => ?_
  rw [wp_bind]
  refine (still_forIn _ fun f _ => still_defineField (l.place h) f).wp h₃ fun _ p₄ _ h₄ => ?_
  rw [wp_bind]
  refine wp_mono (wp_defineConstructors hstart hfollows hd h₄) (fun constructors p₅ h₅ =>
    ?_) fun _ h => h
  rw [wp_bind]
  refine wp_mono (wp_defineInitializer hstart hd h₅.2) (fun initializers p₆ h₆ => ?_) fun _ h => h
  rw [wp_bind]
  refine wp_mono (wp_defineMethods hstart hfollows hd rfl h₆.2) (fun methods p₇ h₇ => ?_) fun _ h =>
    h
  obtain ⟨hbodies, hoverrides, hrows, h₇⟩ := h₇
  rw [wp_bind]
  refine (still_forIn _ fun v _ => still_defineProperty (l.place h) v).wp h₇.restart
    fun _ p₈ _ h₈ => ?_
  rw [wp_bind]
  refine (still_forIn _ fun v _ => still_defineEvent (l.place h) v).wp h₈ fun _ p₉ _ h₉ => ?_
  rw [wp_bind]
  refine wp_mono (wp_attachAll h₉ _) (fun _ after hafter => ?_) fun _ h => h
  rw [List.filterMap_append, List.filterMap_append, List.filterMap_append, h₅.1, h₆.1,
    hbodies, hoverrides,
    List.nil_append, List.nil_append, List.nil_append] at hafter
  exact ⟨fun m hm => hafter.rows _ _ (hrows m hm), h₇.rebase hafter⟩

end Parts

end Production

end TypeLoom
