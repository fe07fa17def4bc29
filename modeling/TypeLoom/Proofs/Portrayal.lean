import TypeLoom.Proofs.Drawing
import TypeLoom.Proofs.Queued
import TypeLoom.Proofs.WellFormed

/-!
# Drawing the members of a type

Each member of a descriptor that is defined joins the portrait of its type behind the members of its
kind, so that it stands at the place of its handle. When all members of a descriptor are defined,
its type has the portrait of the descriptor, and what is still to be attached is known.
-/

namespace TypeLoom

open Attempt Function

/-! ### What is queued -/

namespace DraftMethod

/-- What is attached to the emitted method: its body, or the initializations of its type and its
body. -/
def queuedBody (l : Layout) (m : DraftMethod) (body : Expr) : Attachment :=
  .body (l.place m.handle.owner) (l.placeMethod m.handle) body

def queuedOverrides (l : Layout) (m : DraftMethod) : List Attachment :=
  (m.baseMethod.toList ++ m.explicitOverrides.toList).map
    (.override (l.place m.handle.owner) (l.placeMethod m.handle) ·)

end DraftMethod

namespace Descriptor

def constructorBody (d : Descriptor) (c : DraftMethod) : Expr :=
  .block (d.initializations.toList ++ c.body.toList)

def initializerBody (d : Descriptor) : Expr :=
  .block (d.typeInitializations.toList ++ (d.typeInitializer.bind (·.body)).toList)

def queuedInitializer (l : Layout) (d : Descriptor) : List Attachment :=
  if d.Initializes then [.body (l.place d.handle) ⟨l.place d.handle, .typeInitializer⟩
    d.initializerBody] else []

/-- What is asked of the types that are there and of the batch, so that the members can be
defined. -/
structure Definable (P : Blueprint) (objectType : TypeId) (d : Descriptor) : Prop where
  base : ∀ s, d.effectiveBase objectType = some s → s.Offers P TypeFlags.Derivable
  interfaces : ∀ s ∈ d.interfaces, s.Offers P (hasBits · TypeFlags.interface = true)
  signatures : ∀ s ∈ d.mentionedSignatures, s.Within P.layout.order

theorem within_mentioned {d : Descriptor} {made : List TypeHandle} :
    (∀ s ∈ d.mentionedSignatures, s.Within made) ↔
      (∀ c ∈ d.constructors, c.signature.Within made) ∧ (∀ m ∈ d.methods, m.signature.Within made)
        ∧ (∀ f ∈ d.fields, f.signature.Within made) ∧ (∀ p ∈ d.properties, p.signature.Within made)
        ∧ ∀ v ∈ d.events, v.type.Within made := by
  have hmethod : ∀ m : DraftMethod, m.signature.Within made ↔
    ∀ s ∈ m.signature.returns :: m.signature.types, s.Within made :=
    fun m => by rw [List.forall_mem_cons, MethodSignature.Within]
  simp only [hmethod, mentionedSignatures, List.forall_mem_append, List.forall_mem_flatMap,
    List.forall_mem_map, and_assoc,
    Array.mem_toList_iff]

/-- All that is attached for a descriptor: bodies come before overrides. -/
def queued (l : Layout) (d : Descriptor) : List Attachment :=
  d.constructors.toList.map (fun c => c.queuedBody l (d.constructorBody c)) ++ d.queuedInitializer l
    ++ d.methods.toList.flatMap (fun m => m.body.toList.map (m.queuedBody l))
    ++ d.methods.toList.flatMap (·.queuedOverrides l)

end Descriptor

def Blueprint.queued (P : Blueprint) (h : TypeHandle) : List Attachment :=
  (P.descriptor h).queued P.layout

/-! ### Records that gain members -/

theorem push_modify {α : Type} (xs : Array α) (x : α) (change : α → α) :
    (xs.push x).modify xs.size change = xs.push (change x) := by
  apply Array.ext_getElem?
  intro i
  rw [Array.getElem?_modify, Array.getElem?_push, Array.getElem?_push]
  by_cases hi : i = xs.size
  · simp [hi]
  · simp [hi, Ne.symm hi]

theorem map_modify {α β : Type} {image : α → β} {change : α → α} {change' : β → β}
    (h : ∀ x, image (change x) = change' (image x)) (xs : Array α) (i : Nat) :
    (xs.modify i change).map image = (xs.map image).modify i change' := by
  apply Array.ext_getElem?
  intro j
  simp only [Array.getElem?_map, Array.getElem?_modify]
  split
  · simp [Function.comp_def, h]
  · rfl

namespace TypeRecord

variable {r r' : TypeRecord} {slot : Slot} {own : MethodRecord}

theorem portrait_pushField (r : TypeRecord) (field : FieldRecord)
    (change : FieldRecord → FieldRecord) :
    portrait { r with fields := (r.fields.push field).modify r.fields.size change }
      = { r.portrait with fields := r.portrait.fields.push (change field).portrait } := by
  simp only [portrait, push_modify, Array.map_push]

theorem portrait_modifyMethod {f g : MethodRecord → MethodRecord}
    (h : ∀ m, (f m).portrait = g m.portrait) (r : TypeRecord) (slot : Slot) :
    (r.modifyMethod slot f).portrait = r.portrait.modifyMethod slot g := by
  cases slot with
  | method i => simp only [modifyMethod, portrait, map_modify h]
  | constructor i => simp only [modifyMethod, portrait, map_modify h]
  | typeInitializer => simp [modifyMethod, portrait, Function.comp_def, h]

theorem modifyMethod_id (r : TypeRecord) (slot : Slot) : r.modifyMethod slot id = r := by
  cases slot with
  | typeInitializer => simp [modifyMethod]
  | method i =>
    have hsame : r.methods.modify i id = r.methods := by
      apply Array.ext_getElem?
      simp [Array.getElem?_modify]
    simp only [modifyMethod, hsame]
  | constructor i =>
    have hsame : r.constructors.modify i id = r.constructors := by
      apply Array.ext_getElem?
      simp [Array.getElem?_modify]
    simp only [modifyMethod, hsame]

structure Gains (r : TypeRecord) (slot : Slot) (own : MethodRecord) (r' : TypeRecord) : Prop where
  new : r.method? slot = none
  method? : ∀ other, r'.method? other = if other = slot then some own else r.method? other
  flags : r'.flags = r.flags
  fields : r'.fields = r.fields
  properties : r'.properties = r.properties
  events : r'.events = r.events

theorem gains_constructor (r : TypeRecord) (own : MethodRecord) :
    r.Gains (.constructor r.constructors.size) own
    { r with constructors := r.constructors.push own } := by
  refine ⟨by simp [TypeRecord.method?], fun other => ?_, rfl, rfl, rfl, rfl⟩
  cases other <;> simp [TypeRecord.method?, Array.getElem?_push]

theorem gains_method (r : TypeRecord) (own : MethodRecord) :
    r.Gains (.method r.methods.size) own { r with methods := r.methods.push own } := by
  refine ⟨by simp [TypeRecord.method?], fun other => ?_, rfl, rfl, rfl, rfl⟩
  cases other <;> simp [TypeRecord.method?, Array.getElem?_push]

theorem gains_initializer (hnone : r.ownInitializer = none) (own : MethodRecord)
    (initializer : Option MethodId) :
    r.Gains .typeInitializer own { r with ownInitializer := some own, initializer } := by
  refine ⟨hnone, fun other => ?_, rfl, rfl, rfl, rfl⟩
  cases other <;> simp [TypeRecord.method?]

theorem Gains.modifyMethod (h : r.Gains slot own r') (change : MethodRecord → MethodRecord) :
    r.Gains slot (change own) (r'.modifyMethod slot change) where
  new := h.new
  method? := fun other => by
    rw [method?_modifyMethod, h.method?]
    split <;> rfl
  flags := (r'.flags_modifyMethod slot change).trans h.flags
  fields := by
    rw [← h.fields]
    cases slot <;> rfl
  properties := by
    rw [← h.properties]
    cases slot <;> rfl
  events := by
    rw [← h.events]
    cases slot <;> rfl

theorem Gains.bodies (h : r.Gains slot own r') (hbody : own.body = none) (other : Slot) :
    (r'.method? other).bind (·.body) = (r.method? other).bind (·.body) := by
  rw [h.method?]
  split
  · rename_i heq
    rw [heq, h.new]
    exact hbody
  · rfl

end TypeRecord

namespace Production

variable {α : Type} {P : Blueprint} {S : TypeHandle → TypeRecord} {B : MethodId →
  Option Expr} {A : List Attachment}
  {p : Production} {h : TypeHandle} {r r' : TypeRecord} {G : Prop} {fail : Production → Prop}

section Members

variable (hp : Drawn P (update S h r) B A p) (hmem : h ∈ P.layout.order)
include hp hmem

section Open

variable (hopen : r.complete = false)
include hopen

theorem wp_setAttribute_drawn (a : Attribute) :
    (inSpace (TypeSpace.setAttribute (P.layout.place h) a)).wp
      (fun _ => Drawn P (update S h { r with attributes := r.attributes.push a }) B A) fail p := by
  have hr := hp.self hmem
  rw [wp_inSpace]
  refine TypeSpace.wp_setAttribute_edited (hp.lt h hmem) (fun hcomplete => ?_) fun space he => ?_
  · exact absurd ((hp.opened hmem hopen).symm.trans hcomplete) Bool.false_ne_true
  · exact hp.adorned hmem he (by rw [← hr]; rfl) ⟨rfl, rfl, rfl, rfl, rfl, rfl, rfl⟩

theorem wp_defineField_drawn {f : DraftField} (hhandle : f.handle = ⟨h, r.fields.size⟩)
    (good : G → f.signature.Within P.layout.order) :
    (defineField (P.layout.place h) f).wp
      (fun _ after => f.signature.Within P.layout.order
        ∧ Drawn P (update S h { r with fields := r.fields.push (f.portrait P.layout) }) B A after)
        (fun _ => ¬ G) p := by
  have hr := hp.self hmem
  have hsize : (p.workshop.space.program.record (P.layout.place h)).fields.size
      = r.fields.size := by
    rw [← hr]
    exact (Array.size_map ..).symm
  unfold defineField
  rw [wp_bind]
  refine wp_lookUp_of (fun _ => Emitted.signature_eq_ok hp.emitted.types) (fun hwithin => ?_)
    fun hbad g => hbad (good g)
  rw [wp_bind, wp_inSpace]
  refine TypeSpace.wp_defineField_edited (hp.lt h hmem) (fun hcomplete => ?_) fun token space he =>
    ?_
  · exact absurd ((hp.opened hmem hopen).symm.trans hcomplete) Bool.false_ne_true
  rw [wp_bind, wp_inSpace, wp_modify]
  have hlt : (P.layout.place h).index < space.program.types.size := by
    rw [he.size]
    exact hp.lt h hmem
  have hplaced := TypeSpace.edited_modify hlt rfl fun r => { r with
    fields := r.fields.modify (p.workshop.space.program.record (P.layout.place h)).fields.size
        fun own =>
      { own with attributes := own.attributes ++ f.attributes } }
  rw [he.self] at hplaced
  have hpainted := hp.toPainted.adorned (R :=
    { r with fields := r.fields.push (f.portrait P.layout) })
    (he.trans hplaced) ?_ rfl fun _ => rfl
  · obtain ⟨e, hadd, hlists⟩ := hp.emitted.addField hmem (f.portrait P.layout)
    rw [hsize] at hpainted ⊢
    rw [hhandle]
    exact wp_emit_of hadd ⟨hwithin, hpainted.emit hlists⟩
  · refine (TypeRecord.portrait_pushField (p.workshop.space.program.record (P.layout.place h)) _
      _).trans ?_
    rw [show (p.workshop.space.program.record (P.layout.place h)).portrait = r from hr]
    simp [FieldRecord.portrait, DraftField.portrait]

end Open

end Members

/-! ### Methods -/

section Methods

variable {slot : Slot} {own : MethodRecord}

theorem wp_emitMethod_drawn (hmem : h ∈ P.layout.order) (hp : Painted P (update S h r') B A p)
    (he : p.emitted.Lists P.layout (update S h r)) (hgains : r.Gains slot own r') :
    (emit (·.addMethod ⟨h, slot⟩ ⟨P.layout.place h, slot⟩)).wp (fun _ =>
        Drawn P (update S h r') B A) fail p := by
  have hmore : ∀ other, (r'.method? other).isSome ↔ other = slot ∨ (r.method? other).isSome := by
    intro other
    rw [hgains.method?]
    split <;> simp [*]
  obtain ⟨e, hadd, hlists⟩ :=
    he.addMethod hmem hgains.new hmore hgains.fields hgains.properties hgains.events
  exact wp_emit_of hadd (hp.emit hlists)

theorem wp_registerMethod_drawn {m : DraftMethod} (hhandle : m.handle = ⟨h, slot⟩)
    (hmem : h ∈ P.layout.order) (hp : Painted P (update S h r') B A p)
    (he : p.emitted.Lists P.layout (update S h r)) (hgains : r.Gains slot own r') :
    (registerMethod m ⟨P.layout.place h, slot⟩).wp (fun _ => Drawn P (update S h
      (r'.modifyMethod slot fun own => { own with attributes := own.attributes ++ m.attributes }))
      B A) fail p := by
  let change (own : MethodRecord) : MethodRecord :=
    { own with attributes := own.attributes ++ m.attributes }
  have hr : (p.workshop.space.program.record (P.layout.place h)).portrait = r' := hp.self hmem
  unfold registerMethod
  rw [wp_bind, wp_inSpace, wp_modify, hhandle]
  have hedited := TypeSpace.edited_modify (hp.lt h hmem) rfl fun t => t.modifyMethod slot change
  have hpainted := hp.adorned (R :=
    r'.modifyMethod slot change) hedited ?_ (r'.flags_modifyMethod slot change) fun other => ?_
  · exact wp_emitMethod_drawn hmem hpainted he (hgains.modifyMethod change)
  · rw [TypeRecord.portrait_modifyMethod (f := change) (g := change) (fun _ => rfl), hr]
  · rw [TypeRecord.method?_modifyMethod]
    split
    · rw [Option.bind_map]
      rfl
    · rfl

end Methods

section Define

variable (hp : Drawn P (update S h r) B A p) (hmem : h ∈ P.layout.order)
  (hopen : r.complete = false)
include hp hmem hopen

theorem wp_defineConstructor_drawn (d : Descriptor) {c : DraftMethod}
    (hhandle : c.handle = ⟨h, .constructor r.constructors.size⟩) (hc : c.Special ".ctor")
    (good : G → c.signature.Within P.layout.order) :
    (defineConstructor d (P.layout.place h) c).wp
      (fun a after => (a = c.queuedBody P.layout (d.constructorBody c)
        ∧ c.signature.Within P.layout.order)
        ∧ Drawn P (update S h
          { r with constructors := r.constructors.push (c.portrait P.layout .constructor) }) B A
        after)
      (fun _ => ¬ G) p := by
  have hr : (p.workshop.space.program.record (P.layout.place h)).portrait = r := hp.self hmem
  have hsize : (p.workshop.space.program.record (P.layout.place h)).constructors.size
      = r.constructors.size := by
    rw [← hr]
    exact (Array.size_map ..).symm
  unfold defineConstructor
  rw [wp_bind]
  refine wp_lookUp_of (fun _ => Emitted.methodSignature_eq_ok hp.emitted.types) (fun hwithin => ?_)
    fun hbad g => hbad (good g)
  rw [wp_bind, wp_inSpace]
  refine TypeSpace.wp_defineConstructor_edited (hp.lt h hmem) (fun hcomplete => ?_)
    fun token space he => ?_
  · exact absurd ((hp.opened hmem hopen).symm.trans hcomplete) Bool.false_ne_true
  let own : MethodRecord :=
    { token, name := ".ctor", kind := .constructor, flags := c.flags ||| TypeSpace.specialNames,
      signature := c.signature.placed P.layout }
  have hpainted := hp.toPainted.adorned (R :=
    { r with constructors := r.constructors.push own.portrait }) he
    (by rw [← hr]; simp [TypeRecord.portrait, own]) rfl
    ((TypeRecord.gains_constructor _ own).bodies rfl)
  rw [wp_bind, hsize]
  refine wp_mono (wp_registerMethod_drawn hhandle hmem hpainted hp.emitted
    (r.gains_constructor own.portrait))
    (fun _ after hafter => ?_) fun _ h => h
  refine ⟨⟨?_, hwithin⟩, ?_⟩
  · rw [DraftMethod.queuedBody, Layout.placeMethod, hhandle]
    rfl
  · have hmarked : c.flags ||| TypeSpace.specialNames = c.flags := hc.marked
    simpa [TypeRecord.modifyMethod, push_modify, own, DraftMethod.portrait, MethodRecord.portrait,
      hc.name, hmarked] using hafter

theorem wp_defineMethod_drawn {m : DraftMethod} (hhandle : m.handle = ⟨h, .method r.methods.size⟩)
    (good : G → m.signature.Within P.layout.order) :
    (defineMethod (P.layout.place h) m).wp
      (fun v after => (v = (m.body.toList.map (m.queuedBody P.layout), m.queuedOverrides P.layout)
          ∧ m.signature.Within P.layout.order)
        ∧ Drawn P (update S h { r with methods := r.methods.push (m.portrait P.layout .method) }) B
          A after)
      (fun _ => ¬ G) p := by
  have hr : (p.workshop.space.program.record (P.layout.place h)).portrait = r := hp.self hmem
  have hsize : (p.workshop.space.program.record (P.layout.place h)).methods.size
      = r.methods.size := by
    rw [← hr]
    exact (Array.size_map ..).symm
  unfold defineMethod
  rw [wp_bind]
  refine wp_lookUp_of (fun _ => Emitted.methodSignature_eq_ok hp.emitted.types) (fun hwithin => ?_)
    fun hbad g => hbad (good g)
  rw [wp_bind, wp_inSpace]
  refine TypeSpace.wp_defineMethod_edited (hp.lt h hmem) (fun hcomplete => ?_) fun token space he =>
    ?_
  · exact absurd ((hp.opened hmem hopen).symm.trans hcomplete) Bool.false_ne_true
  let own : MethodRecord :=
    { token, name := m.name, kind := .method, flags := m.flags, signature := m.signature.placed P.layout }
  have hpainted := hp.toPainted.adorned (R := { r with methods := r.methods.push own.portrait }) he
    (by rw [← hr]; simp [TypeRecord.portrait, own]) rfl ((TypeRecord.gains_method _ own).bodies rfl)
  rw [wp_bind, hsize]
  refine wp_mono (wp_registerMethod_drawn hhandle hmem hpainted hp.emitted
    (r.gains_method own.portrait))
    (fun _ after hafter => ?_) fun _ h => h
  refine ⟨⟨?_, hwithin⟩, ?_⟩
  · have hbody : m.queuedBody P.layout = fun body => .body (P.layout.place h) ⟨P.layout.place h,
        .method r.methods.size⟩ body := by
      funext body
      rw [DraftMethod.queuedBody, Layout.placeMethod, hhandle]
    rw [hbody, DraftMethod.queuedOverrides, Layout.placeMethod, hhandle]
  · simpa [TypeRecord.modifyMethod, push_modify, own, DraftMethod.portrait,
      MethodRecord.portrait] using hafter

theorem wp_defineInitializer_drawn {d : Descriptor} (hhandle : d.handle = h)
    (hd : ∀ m, d.typeInitializer = some m → m.handle = ⟨h, .typeInitializer⟩ ∧ m.Initializer)
    (hnone : r.initializer = none) (hown : r.ownInitializer = none) :
    (defineInitializer d (P.layout.place h)).wp
      (fun as after => as = d.queuedInitializer P.layout
        ∧ Drawn P (update S h { r with
            initializer := if d.Initializes then some ⟨P.layout.place d.handle, .typeInitializer⟩
              else none
            ownInitializer := d.initializerPortrait P.layout }) B A after) fail p := by
  have hr : (p.workshop.space.program.record (P.layout.place h)).portrait = r := hp.self hmem
  have hcheck : (d.typeInitializer.isNone && d.typeInitializations.isEmpty) = true ↔
      ¬ d.Initializes := by
    rw [Descriptor.Initializes]
    cases d.typeInitializer <;> simp
  unfold defineInitializer Descriptor.queuedInitializer Descriptor.initializerPortrait
  rw [wp_ite, hcheck, not_not]
  refine ⟨fun hi => ?_, fun hi => ?_⟩
  · have hsame : { r with initializer := none, ownInitializer := none } = r := by
      rw [← hnone, ← hown]
    simp only [if_neg hi, wp_pure, hsame]
    exact ⟨trivial, hp⟩
  simp only [if_pos hi]
  rw [wp_bind, wp_inSpace]
  refine TypeSpace.wp_defineInitializer_edited (hp.lt h hmem) (fun token space he => ?_) fun hbad =>
    absurd ⟨hp.opened hmem hopen, ?_⟩ hbad
  · let own : MethodRecord :=
      { token, name := ".cctor", kind := .typeInitializer, signature := {}
        flags := MethodFlags.isPrivate ||| MethodFlags.static ||| MethodFlags.hideBySig |||
        TypeSpace.specialNames }
    let initializer : Option MethodId := some ⟨P.layout.place h, .typeInitializer⟩
    have hfree : (p.program.record (P.layout.place h)).ownInitializer = none := by
      rw [← hr] at hown
      exact Option.map_eq_none_iff.mp hown
    have hpainted := hp.toPainted.adorned (R :=
      { r with ownInitializer := some own.portrait, initializer }) he
      (by rw [← hr]; rfl) rfl ((TypeRecord.gains_initializer hfree own initializer).bodies rfl)
    have hgains := TypeRecord.gains_initializer hown own.portrait initializer
    rw [hhandle]
    cases hm : d.typeInitializer with
    | some m =>
      obtain ⟨hslot, hinitializer⟩ := hd m hm
      rw [wp_bind]
      refine wp_mono (wp_registerMethod_drawn hslot hmem hpainted hp.emitted hgains)
        (fun _ after hafter => ⟨?_, ?_⟩) fun _ h => h
      · rw [Descriptor.initializerBody, hm]
      · have hportrait : m.portrait P.layout .typeInitializer
            = { own.portrait with attributes := #[] ++ m.attributes } := by
          rw [DraftMethod.portrait, hinitializer.special.name, hinitializer.flags,
            hinitializer.signature, Array.empty_append]
          rfl
        rw [Option.map_some, Option.getD_some, hportrait]
        exact hafter
    | none =>
      rw [wp_bind]
      refine wp_mono (wp_emitMethod_drawn hmem hpainted hp.emitted hgains) (fun _ after hafter =>
        ⟨?_, hafter⟩) fun _ h => h
      rw [Descriptor.initializerBody, hm]
  · rw [← hr] at hnone
    exact hnone

omit hopen in
theorem Drawn.method_ok {m : MethodHandle} (hm : m.owner = h ∧ (r.method? m.slot).isSome) :
    p.emitted.method m = .ok (P.layout.placeMethod m) := by
  obtain ⟨rfl, hm⟩ := hm
  refine Emitted.require_eq_ok.mpr (hp.emitted.methods.find? ⟨hmem, ?_⟩)
  simp only [update_self]
  exact hm

omit hopen in
theorem wp_emittedMethod_drawn {post : Option MethodId → Production → Prop}
    {item : Option MethodHandle} (hitem : ∀ m ∈ item, m.owner = h ∧ (r.method? m.slot).isSome)
    (hpost : post (item.map P.layout.placeMethod) p) :
    (emittedMethod? item).wp post fail p := by
  cases item with
  | none => exact hpost
  | some m =>
    rw [emittedMethod?, Option.mapM_some, wp_map]
    exact wp_lookUp_ok (hp.method_ok hmem (hitem m rfl)) hpost

theorem wp_defineProperty_drawn {v : DraftProperty} (hhandle : v.handle = ⟨h, r.properties.size⟩)
    (hgetter : ∀ m ∈ v.getter, m.owner = h ∧ (r.method? m.slot).isSome)
    (hsetter : ∀ m ∈ v.setter, m.owner = h ∧ (r.method? m.slot).isSome) (good : G →
      v.signature.Within P.layout.order) :
    (defineProperty (P.layout.place h) v).wp
      (fun _ after => v.signature.Within P.layout.order
        ∧ Drawn P (update S h { r with properties := r.properties.push (v.portrait P.layout) }) B A
        after)
      (fun _ => ¬ G) p := by
  have hr : (p.workshop.space.program.record (P.layout.place h)).portrait = r := hp.self hmem
  have hsize : (p.workshop.space.program.record (P.layout.place h)).properties.size
      = r.properties.size := by
    rw [← hr]
    exact (Array.size_map ..).symm
  unfold defineProperty
  rw [wp_bind]
  refine wp_emittedMethod_drawn hp hmem hgetter ?_
  rw [wp_bind]
  refine wp_emittedMethod_drawn hp hmem hsetter ?_
  rw [wp_bind]
  refine wp_lookUp_of (fun _ => Emitted.signature_eq_ok hp.emitted.types) (fun hwithin => ?_)
    fun hbad g => hbad (good g)
  rw [wp_bind, wp_inSpace]
  refine TypeSpace.wp_defineProperty_edited (hp.lt h hmem) (fun hcomplete => ?_)
    fun token space he => ?_
  · exact absurd ((hp.opened hmem hopen).symm.trans hcomplete) Bool.false_ne_true
  have hpainted := hp.toPainted.adorned (R :=
    { r with properties := r.properties.push (v.portrait P.layout) }) he
    (by rw [← hr]; simp [TypeRecord.portrait, DraftProperty.portrait, PropertyRecord.portrait])
    rfl fun _ => rfl
  obtain ⟨e, hadd, hlists⟩ := hp.emitted.addProperty hmem (v.portrait P.layout)
  rw [hhandle, hsize]
  exact wp_emit_of hadd ⟨hwithin, hpainted.emit hlists⟩

theorem wp_defineEvent_drawn {v : DraftEvent} (hhandle : v.handle = ⟨h, r.events.size⟩)
    (hadd : v.add.owner = h ∧ (r.method? v.add.slot).isSome)
    (hremove : v.remove.owner = h ∧ (r.method? v.remove.slot).isSome) (hraise : ∀ m ∈ v.raise,
      m.owner = h ∧ (r.method? m.slot).isSome) (good : G → v.type.Within P.layout.order) :
    (defineEvent (P.layout.place h) v).wp
      (fun _ after => v.type.Within P.layout.order
        ∧ Drawn P (update S h { r with events := r.events.push (v.portrait P.layout) }) B A after)
      (fun _ => ¬ G) p := by
  have hr : (p.workshop.space.program.record (P.layout.place h)).portrait = r := hp.self hmem
  have hsize : (p.workshop.space.program.record (P.layout.place h)).events.size
      = r.events.size := by
    rw [← hr]
    exact (Array.size_map ..).symm
  unfold defineEvent
  rw [wp_bind]
  refine wp_emittedMethod_drawn hp hmem hraise ?_
  rw [wp_bind]
  refine wp_lookUp_of (fun _ => Emitted.signature_eq_ok hp.emitted.types) (fun hwithin => ?_)
    fun hbad g => hbad (good g)
  rw [wp_bind]
  refine wp_lookUp_ok (hp.method_ok hmem hadd) ?_
  rw [wp_bind]
  refine wp_lookUp_ok (hp.method_ok hmem hremove) ?_
  rw [wp_bind, wp_inSpace]
  refine TypeSpace.wp_defineEvent_edited (hp.lt h hmem) (fun hcomplete => ?_) fun token space he =>
    ?_
  · exact absurd ((hp.opened hmem hopen).symm.trans hcomplete) Bool.false_ne_true
  have hpainted := hp.toPainted.adorned (R :=
    { r with events := r.events.push (v.portrait P.layout) }) he
    (by rw [← hr]; simp [TypeRecord.portrait, DraftEvent.portrait, EventRecord.portrait])
    rfl fun _ => rfl
  obtain ⟨e, hrow, hlists⟩ := hp.emitted.addEvent hmem (v.portrait P.layout)
  rw [hhandle, hsize]
  exact wp_emit_of hrow ⟨hwithin, hpainted.emit hlists⟩

end Define

/-! ### Members of one kind -/

section Loops

variable {ι ρ : Type} {items : Array ι} {f : ι → ρ} {R : Array ρ → TypeRecord} {W : ι → Prop}

theorem getElem?_of_split {before after : List ι} {item : ι}
    (heq : items.toList = before ++ item :: after) :
    items[before.length]? = some item := by
  rw [← Array.getElem?_toList, heq, List.getElem?_append_right (Nat.le_refl _), Nat.sub_self]
  rfl

theorem toArray_map_append (before : List ι) (item : ι) :
    ((before ++ [item]).map f).toArray = (before.map f).toArray.push (f item) := by
  simp

theorem wp_forIn_drawn {step : ι → Attempt Production Unit}
    (hstep : ∀ (i : Nat) item, items[i]? = some item → ∀ members : Array ρ, members.size = i → ∀ p,
      Drawn P (update S h (R members)) B A p → (step item).wp
        (fun _ after => W item ∧ Drawn P (update S h (R (members.push (f item)))) B A after)
        (fun _ => ¬ G) p)
    (hp : Drawn P (update S h (R #[])) B A p) :
    (forIn items.toList PUnit.unit (fun item _ => do let _ ← step item; pure (.yield PUnit.unit)) :
      Attempt Production PUnit).wp
      (fun _ after => (∀ item ∈ items, W item) ∧ Drawn P (update S h (R (items.map f))) B A after)
      (fun _ => ¬ G) p := by
  let inv (done : List ι) (p : Production) : Prop :=
    (∀ item ∈ done, W item) ∧ Drawn P (update S h (R (done.map f).toArray)) B A p
  have hone : ∀ before item after, items.toList = before ++ item :: after → ∀ mid, inv before mid →
      (step item).wp (fun _ => inv (before ++ [item])) (fun _ => ¬ G) mid := by
    rintro before item after heq mid ⟨hbefore, hmid⟩
    refine wp_mono (hstep _ item (getElem?_of_split heq) _ (by simp) mid hmid) (fun _ next hnext =>
      ⟨?_, ?_⟩) fun _ hbad => hbad
    · rw [List.forall_mem_append, List.forall_mem_singleton]
      exact ⟨hbefore, hnext.1⟩
    · rw [toArray_map_append]
      exact hnext.2
  refine wp_mono (wp_forIn items.toList hone ⟨fun _ hnone => absurd hnone List.not_mem_nil, hp⟩)
    (fun _ after hafter => ?_)
    fun _ hbad => hbad
  refine ⟨fun item hitem => hafter.1 item (Array.mem_toList_iff.mpr hitem), ?_⟩
  simpa [← Array.toList_map] using hafter.2

theorem wp_mapM_drawn {β : Type} {step : ι → Attempt Production β} {g : ι → β}
    (hstep : ∀ (i : Nat) item, items[i]? = some item → ∀ members : Array ρ, members.size = i → ∀ p,
      Drawn P (update S h (R members)) B A p → (step item).wp
        (fun v after => (v = g item ∧ W item)
          ∧ Drawn P (update S h (R (members.push (f item)))) B A after)
        (fun _ => ¬ G) p)
    (hp : Drawn P (update S h (R #[])) B A p) :
    (items.toList.mapM step).wp
      (fun vs after => (vs = items.toList.map g ∧ ∀ item ∈ items, W item)
        ∧ Drawn P (update S h (R (items.map f))) B A after)
      (fun _ => ¬ G) p := by
  let inv (done : List (ι × β)) (p : Production) : Prop :=
    (∀ pair ∈ done, pair.2 = g pair.1 ∧ W pair.1)
      ∧ Drawn P (update S h (R ((done.map (·.1)).map f).toArray)) B A p
  have hone : ∀ before item after, items.toList = before.map (·.1) ++ item :: after →
    ∀ mid, inv before mid →
      (step item).wp (fun v => inv (before ++ [(item, v)])) (fun _ => ¬ G) mid := by
    rintro before item after heq mid ⟨hbefore, hmid⟩
    refine wp_mono (hstep _ item (getElem?_of_split heq) _ (by simp) mid hmid) (fun v next hnext =>
      ⟨?_, ?_⟩) fun _ hbad => hbad
    · rw [List.forall_mem_append, List.forall_mem_singleton]
      exact ⟨hbefore, hnext.1⟩
    · rw [List.map_append, List.map_singleton, toArray_map_append]
      exact hnext.2
  refine wp_mono (wp_mapM items.toList hone ⟨fun _ hnone => absurd hnone List.not_mem_nil, hp⟩)
    (fun vs after hafter => ?_)
    fun _ hbad => hbad
  obtain ⟨hlength, hpairs, hdrawn⟩ := hafter
  have hitems : (items.toList.zip vs).map (·.1) = items.toList := List.map_fst_zip hlength.le
  have hvalues : (items.toList.zip vs).map (·.2) = vs := List.map_snd_zip hlength.ge
  refine ⟨⟨?_, fun item hitem => ?_⟩, ?_⟩
  · calc vs = (items.toList.zip vs).map (·.2) := hvalues.symm
      _ = (items.toList.zip vs).map (g ∘ (·.1)) :=
        List.map_congr_left fun pair hpair => (hpairs pair hpair).1
      _ = items.toList.map g := by rw [← List.map_map, hitems]
  · rw [← Array.mem_toList_iff, ← hitems] at hitem
    obtain ⟨pair, hpair, rfl⟩ := List.mem_map.mp hitem
    exact (hpairs pair hpair).2
  · rw [hitems] at hdrawn
    simpa [← Array.toList_map] using hdrawn

end Loops

theorem wp_attachAll_drawn (items : List Attachment) (hp : Drawn P S B A p) :
    (forIn items PUnit.unit (fun a _ => do let _ ← attach a; pure (.yield PUnit.unit)) : Attempt
      Production PUnit).wp
      (fun _ => Drawn P S B (A ++ items)) fail p := by
  refine wp_forIn (I := fun done => Drawn P S B (A ++ done)) items (fun before a after _ mid hmid =>
    ?_) (by simpa using hp)
  rw [attach, wp_modify]
  refine ⟨⟨hmid.start, hmid.batch, hmid.old, hmid.lt, hmid.records, hmid.flags, hmid.bodies, ?_⟩,
    hmid.emitted⟩
  rw [Array.toList_push, hmid.attachments, List.append_assoc]

/-! ### Whole descriptors -/

section Parts

variable {d : Descriptor} (hmem : h ∈ P.layout.order) (hd : d.WellFormed h)
  (hopen : r.complete = false)
  (hp : Drawn P (update S h r) B A p)
include hmem hopen hp

theorem wp_defineInterfaces_drawn (hnone : r.interfaces = #[])
    (good : G → ∀ s ∈ d.interfaces, s.Offers P (hasBits · TypeFlags.interface = true)) :
    (forIn d.interfaces.toList PUnit.unit (fun s _ => do
        let _ ← (do let i ← namedType s; inSpace (TypeSpace.implementInterface (P.layout.place h) i))
        pure (.yield PUnit.unit)) : Attempt Production PUnit).wp
      (fun _ => Drawn P (update S h { r with interfaces := (d.emittedInterfaces P.layout).toArray })
          B A) (fun _ => ¬ G) p := by
  refine wp_forIn (I := fun done => Drawn P (update S h { r with
    interfaces := (done.filterMap fun s => (s.placed P.layout).class?).toArray }) B A)
      d.interfaces.toList
    (fun before s after heq mid hmid => ?_) (by rw [List.filterMap_nil, ← hnone]; exact hp)
  have hs : s ∈ d.interfaces := Array.mem_toList_iff.mp (by rw [heq]; simp)
  refine wp_mono (wp_defineInterface_drawn hmid hmem hopen fun g => good g s hs)
    (fun _ next hnext => ?_) fun _ hbad => hbad
  rw [List.filterMap_append]
  cases hc : (s.placed P.layout).class? <;> simpa [hc] using hnext

theorem wp_setAttributes_drawn (hnone : r.attributes = #[]) :
    (forIn d.attributes.toList PUnit.unit (fun a _ => do
        let _ ← inSpace (TypeSpace.setAttribute (P.layout.place h) a); pure (.yield PUnit.unit)) :
      Attempt Production PUnit).wp
      (fun _ => Drawn P (update S h { r with attributes := d.attributes }) B A)
          (fun _ => ¬ G) p := by
  refine wp_mono (wp_forIn_drawn (f := id) (W := fun _ => True) (R :=
    fun members => { r with attributes := members })
    (fun _ a _ members _ p hp => wp_mono (wp_setAttribute_drawn hp hmem hopen a) (fun _ _ hafter =>
      ⟨trivial, hafter⟩)
      fun _ hbad => hbad) (by rw [← hnone]; exact hp)) (fun _ after hafter => ?_) fun _ hbad => hbad
  simpa using hafter.2

include hd

theorem wp_defineFields_drawn (hnone : r.fields = #[])
    (good : G → ∀ f ∈ d.fields, f.signature.Within P.layout.order) :
    (forIn d.fields.toList PUnit.unit (fun f _ =>
      do let _ ← defineField (P.layout.place h) f; pure (.yield PUnit.unit)) :
      Attempt Production PUnit).wp
      (fun _ after => (∀ f ∈ d.fields, f.signature.Within P.layout.order)
        ∧ Drawn P (update S h { r with fields := d.fields.map (·.portrait P.layout) }) B A after)
        (fun _ => ¬ G) p :=
  wp_forIn_drawn (R := fun members => { r with fields := members }) (fun i f hf _ hsize _ hp =>
    wp_defineField_drawn hp hmem hopen (hsize ▸ (hd.fields i f hf).1) fun g =>
      good g f (Array.mem_of_getElem? hf))
    (by rw [← hnone]; exact hp)

theorem wp_defineConstructors_drawn (hnone : r.constructors = #[])
    (good : G → ∀ c ∈ d.constructors, c.signature.Within P.layout.order) :
    (d.constructors.toList.mapM (defineConstructor d (P.layout.place h))).wp
      (fun as after =>
        (as = d.constructors.toList.map (fun c => c.queuedBody P.layout (d.constructorBody c))
          ∧ ∀ c ∈ d.constructors, c.signature.Within P.layout.order)
        ∧ Drawn P (update S h
          { r with constructors := d.constructors.map (·.portrait P.layout .constructor) }) B A
          after)
      (fun _ => ¬ G) p :=
  wp_mapM_drawn (R := fun members => { r with constructors := members }) (fun i c hc _ hsize _ hp =>
    wp_defineConstructor_drawn hp hmem hopen d (hsize ▸ (hd.constructors i c hc).1)
        (hd.constructors i c hc).2 fun g =>
      good g c (Array.mem_of_getElem? hc)) (by rw [← hnone]; exact hp)

theorem wp_defineMethods_drawn (hnone : r.methods = #[])
    (good : G → ∀ m ∈ d.methods, m.signature.Within P.layout.order) :
    (d.methods.toList.mapM (defineMethod (P.layout.place h))).wp
      (fun vs after => (vs.flatMap (·.1) = d.methods.toList.flatMap (fun m =>
        m.body.toList.map (m.queuedBody P.layout))
          ∧ vs.flatMap (·.2) = d.methods.toList.flatMap (·.queuedOverrides P.layout)
          ∧ ∀ m ∈ d.methods, m.signature.Within P.layout.order)
        ∧ Drawn P (update S h { r with methods := d.methods.map (·.portrait P.layout .method) }) B A
          after)
      (fun _ => ¬ G) p := by
  refine wp_mono (wp_mapM_drawn (R := fun members => { r with methods := members })
      (fun i m hm _ hsize _ hp =>
    wp_defineMethod_drawn hp hmem hopen (hsize ▸ (hd.methods i m hm).1) fun g =>
      good g m (Array.mem_of_getElem? hm))
    (by rw [← hnone]; exact hp)) ?_ fun _ hbad => hbad
  rintro vs after ⟨⟨rfl, hmethods⟩, hafter⟩
  exact ⟨⟨List.flatMap_map .., List.flatMap_map .., hmethods⟩, hafter⟩

omit hmem hopen hp in
theorem method?_of_isAccessor {m : MethodHandle} {isStatic : Bool} {kind : MethodSignature → Prop}
    (ha : d.IsAccessor m isStatic kind)
    (hmethods : r.methods = d.methods.map (·.portrait P.layout .method)) :
    m.owner = h ∧ (r.method? m.slot).isSome := by
  obtain ⟨i, own, rfl, hown, -, -⟩ := ha
  refine ⟨hd.handle, ?_⟩
  simp [TypeRecord.method?, hmethods, hown]

variable (hmethods : r.methods = d.methods.map (·.portrait P.layout .method))
include hmethods

theorem wp_defineProperties_drawn (hnone : r.properties = #[])
    (good : G → ∀ v ∈ d.properties, v.signature.Within P.layout.order) :
    (forIn d.properties.toList PUnit.unit (fun v _ => do
        let _ ← defineProperty (P.layout.place h) v; pure (.yield PUnit.unit)) :
          Attempt Production PUnit).wp
      (fun _ after => (∀ v ∈ d.properties, v.signature.Within P.layout.order)
        ∧ Drawn P (update S h { r with properties := d.properties.map (·.portrait P.layout) }) B A
        after) (fun _ => ¬ G) p := by
  refine wp_forIn_drawn (R := fun members => { r with properties := members })
    (fun i v hv _ hsize _ hp => ?_)
    (by rw [← hnone]; exact hp)
  obtain ⟨hhandle, isStatic, hgetter, hsetter⟩ := hd.properties i v hv
  exact wp_defineProperty_drawn hp hmem hopen (hsize ▸ hhandle)
    (fun m hm => method?_of_isAccessor hd (hgetter m hm) hmethods)
    (fun m hm => method?_of_isAccessor hd (hsetter m hm) hmethods) fun g =>
      good g v (Array.mem_of_getElem? hv)

theorem wp_defineEvents_drawn (hnone : r.events = #[])
    (good : G → ∀ v ∈ d.events, v.type.Within P.layout.order) :
    (forIn d.events.toList PUnit.unit (fun v _ => do
        let _ ← defineEvent (P.layout.place h) v; pure (.yield PUnit.unit)) :
          Attempt Production PUnit).wp
      (fun _ after => (∀ v ∈ d.events, v.type.Within P.layout.order)
        ∧ Drawn P (update S h { r with events := d.events.map (·.portrait P.layout) }) B A after)
        (fun _ => ¬ G) p := by
  refine wp_forIn_drawn (R := fun members => { r with events := members })
    (fun i v hv _ hsize _ hp => ?_)
    (by rw [← hnone]; exact hp)
  obtain ⟨hhandle, isStatic, hadd, hremove, hraise⟩ := hd.events i v hv
  exact wp_defineEvent_drawn hp hmem hopen (hsize ▸ hhandle)
    (method?_of_isAccessor hd hadd hmethods)
    (method?_of_isAccessor hd hremove hmethods) (fun m hm =>
      method?_of_isAccessor hd (hraise m hm) hmethods) fun g =>
      good g v (Array.mem_of_getElem? hv)

end Parts

/-- A declared type gets all members of its descriptor, and what is to be attached to them is
noted. -/
theorem wp_define_drawn {objectType : TypeId} {d : Descriptor} {flags : UInt32}
    (hmem : h ∈ P.layout.order) (hfound : P.batch.find? h = some d) (hd : d.WellFormed h)
    (good : G → d.Definable P objectType)
    (hp : Drawn P (update S h (d.blankPortrait P.layout flags)) B A p) :
    (define objectType h).wp
      (fun _ after => (∀ s ∈ d.mentionedSignatures, s.Within P.layout.order)
        ∧ Drawn P (update S h (d.portrait P.layout objectType flags)) B (A ++ d.queued P.layout) after)
      (fun _ => ¬ G) p := by
  have hall := fun g => Descriptor.within_mentioned.mp (good g).signatures
  have hstay : ∀ after : Production, ¬ G → ¬ G := fun _ hbad => hbad
  unfold define
  rw [wp_bind, wp_descriptor, hp.batch, hfound]
  refine ⟨fun e he => ?_, nofun⟩
  obtain rfl : d = e := Option.some.inj he
  rw [wp_bind]
  refine wp_lookUp_ok (Emitted.type_eq_ok hp.emitted.types |>.mpr ⟨hmem, rfl⟩) ?_
  refine wp_step (wp_defineBase_drawn hp hmem rfl objectType rfl fun g => (good g).base)
    (fun _ p h₁ => ?_) hstay
  have hinterfaces := wp_defineInterfaces_drawn (G := G) hmem rfl h₁ rfl (fun g => (good g).interfaces)
  simp only [bind_assoc] at hinterfaces
  refine wp_step hinterfaces (fun _ p h₂ => ?_) hstay
  refine wp_step (wp_setAttributes_drawn hmem rfl h₂ rfl) (fun _ p h₃ => ?_) hstay
  have hframe : Drawn P (update S h (d.framePortrait P.layout objectType flags)) B A p := h₃
  refine wp_step (wp_defineFields_drawn hmem hd rfl hframe rfl fun g => (hall g).2.2.1) ?_ hstay
  rintro - p ⟨hfields, h₄⟩
  refine wp_step (wp_defineConstructors_drawn hmem hd rfl h₄ rfl fun g => (hall g).1) ?_ hstay
  rintro constructors p ⟨⟨rfl, hconstructors⟩, h₅⟩
  refine wp_step (wp_defineInitializer_drawn h₅ hmem rfl hd.handle hd.initializer rfl rfl) ?_ hstay
  rintro initializers p ⟨rfl, h₆⟩
  refine wp_step (wp_defineMethods_drawn hmem hd rfl h₆ rfl fun g => (hall g).2.1) ?_ hstay
  rintro methods p ⟨⟨hbodies, hoverrides, hmethods⟩, h₇⟩
  have hcore : Drawn P (update S h (d.corePortrait P.layout objectType flags)) B A p := h₇
  refine wp_step (wp_defineProperties_drawn hmem hd rfl hcore rfl rfl fun g =>
    (hall g).2.2.2.1) ?_ hstay
  rintro - p ⟨hproperties, h₈⟩
  refine wp_step (wp_defineEvents_drawn hmem hd rfl h₈ rfl rfl fun g => (hall g).2.2.2.2) ?_ hstay
  rintro - p ⟨hevents, h₉⟩
  refine wp_step (wp_attachAll_drawn _ h₉) (fun _ after hafter => ?_) hstay
  refine ⟨Descriptor.within_mentioned.mpr ⟨hconstructors, hmethods, hfields, hproperties, hevents⟩,
    ?_⟩
  rw [hbodies, hoverrides] at hafter
  exact hafter

/-! ### The second pass -/

theorem wp_defineAll_drawn (objectType : TypeId) (hnodup : P.layout.order.Nodup)
    (hdescriptors : ∀ h ∈ P.layout.order, ∃ d, P.batch.find? h = some d ∧ d.WellFormed h)
    (good : G → ∀ h ∈ P.layout.order, (P.descriptor h).Definable P objectType)
    (hp : Drawn P P.blank B [] p) :
    (forIn P.layout.order PUnit.unit (fun h _ =>
      do let _ ← define objectType h; pure (.yield PUnit.unit)) :
      Attempt Production PUnit).wp
      (fun _ after => (∀ h ∈ P.layout.order, ∀ s ∈ (P.descriptor h).mentionedSignatures,
        s.Within P.layout.order)
        ∧ Drawn P (P.full objectType) B (P.layout.order.flatMap P.queued) after)
        (fun _ => ¬ G) p := by
  let reached (done : List TypeHandle) (h : TypeHandle) : TypeRecord :=
    if h ∈ done then P.full objectType h else P.blank h
  let inv (done : List TypeHandle) (p : Production) : Prop :=
    (∀ h ∈ done, ∀ s ∈ (P.descriptor h).mentionedSignatures, s.Within P.layout.order)
      ∧ Drawn P (reached done) B (done.flatMap P.queued) p
  have hone : ∀ done h rest, P.layout.order = done ++ h :: rest → ∀ mid, inv done mid →
      (define objectType h).wp (fun _ => inv (done ++ [h])) (fun _ => ¬ G) mid := by
    rintro done h rest horder mid ⟨hwithin, hmid⟩
    have hmem : h ∈ P.layout.order := by rw [horder]; simp
    have hfresh : h ∉ done := by
      rw [horder] at hnodup
      exact fun hold => List.disjoint_of_nodup_append hnodup hold List.mem_cons_self
    obtain ⟨d, hfound, hd⟩ := hdescriptors h hmem
    have hsame : P.descriptor h = d := P.descriptor_of_find hfound
    have hnow : Drawn P (update (reached done) h (d.blankPortrait P.layout (P.flags h))) B
        (done.flatMap P.queued) mid := by
      have hself : d.blankPortrait P.layout (P.flags h) = reached done h := by
        show _ = if h ∈ done then _ else _
        rw [if_neg hfresh, Blueprint.blank, hsame]
      rw [hself, update_eq_self]
      exact hmid
    refine wp_mono (wp_define_drawn hmem hfound hd (fun g => hsame ▸ good g h hmem) hnow) ?_
      fun _ hbad => hbad
    rintro - after ⟨hsignatures, hafter⟩
    refine ⟨?_, ?_⟩
    · rw [List.forall_mem_append, List.forall_mem_singleton, hsame]
      exact ⟨hwithin, hsignatures⟩
    · rw [List.flatMap_append, List.flatMap_singleton, Blueprint.queued, hsame]
      refine hafter.congr fun other _ => ?_
      show (if other ∈ done ++ [h] then _ else _) = _
      by_cases hother : other = h
      · rw [hother, update_self, if_pos (by simp), Blueprint.full, hsame]
      · rw [update_of_ne hother]
        simp [hother, reached]
  have hstart : inv [] p := by
    refine ⟨fun _ hnone => absurd hnone List.not_mem_nil, hp.congr fun h _ => ?_⟩
    exact if_neg List.not_mem_nil
  refine wp_mono (wp_forIn P.layout.order hone hstart) (fun _ after hafter =>
    ⟨hafter.1, hafter.2.congr fun h hmem => ?_⟩)
    fun _ hbad => hbad
  exact (if_pos hmem).symm

end Production

end TypeLoom
