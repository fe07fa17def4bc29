import Mathlib.Tactic.MkIffOfInductiveProp
import TypeLoom.Proofs.Carrying
import TypeLoom.Proofs.Commands
import TypeLoom.Proofs.Preparing
import TypeLoom.Proofs.Requests

/-!
# Assembled types

A type that is assembled for an identifier, and is not the requested type itself, derives from the
requested type, has the mark of assembled types, and has a static field that its initializer stores
the identifier into. It tells the identifier as soon as its initializer has succeeded, whatever
commands come in between.
-/

namespace TypeLoom

open Attempt

variable {p : PipelineId} {id : Identifier} {f : FieldId}

/-- The initializer of the type has neither been started nor finished, and the cell is empty. -/
@[mk_iff]
structure Heap.Unstarted (h : Heap) (cell : TypeId × Token) : Prop where
  uninitialized : h.isInitialized cell.1 = false
  idle : h.isRunning cell.1 = false
  unset : h.statics.find? cell = none

instance (h : Heap) (cell : TypeId × Token) : Decidable (h.Unstarted cell) :=
  decidable_of_iff' _ (h.unstarted_iff cell)

theorem Heap.Unstarted.stamped {h : Heap} {cell : TypeId × Token} (hh : h.Unstarted cell)
    (v : Value) : h.Stamped cell v False where
  only := fun w hw => by
    rw [hh.unset] at hw
    cases hw
  ready := fun hready => by
    rw [hh.uninitialized] at hready
    exact hready.elim False.elim Bool.noConfusion

namespace Session

/-! ### What is read off the record -/

/-- A finished type carries the identifier in the field, under a mark that is there to stay. -/
structure Bears (s : Session) (p : PipelineId) (id : Identifier) (f : FieldId) : Prop where
  carries : (s.program.record f.owner).Carries (s.coreTypes p).assembledTypeAttribute id f
  finished : (s.program.record (s.coreTypes p).assembledTypeAttribute).complete = true
  present : s.program.isPresent (s.coreTypes p).assembledTypeAttribute = true

variable {s s' : Session}

theorem Remains.isPresent (h : s.Remains s') {t : TypeId}
    (ht : (s.program.record t).complete = true) :
    s'.program.isPresent t = s.program.isPresent t := by
  obtain ⟨nested, hrecord⟩ := h.program.record t ht
  rw [Universe.isPresent, hrecord, Universe.isPresent]

theorem Remains.bears (h : s.Remains s') (hs : s.Bears p id f) : s'.Bears p id f where
  carries := by
    rw [h.coreTypes]
    exact h.program.carries hs.carries
  finished := by
    rw [h.coreTypes]
    exact h.program.complete hs.finished
  present := by
    rw [h.coreTypes, h.isPresent hs.finished]
    exact hs.present

namespace Bears

theorem isAssembled (h : s.Bears p id f) : s.isAssembled p f.owner = true := by
  obtain ⟨a, ha, hmark⟩ := h.carries.mark
  have howner : s.program.methodOwner? a.constructor
      = some (s.coreTypes p).assembledTypeAttribute := by
    rw [Universe.methodOwner?, hmark, Universe.present?, if_pos h.present]
  have hmem : a ∈ s.program.attributesOf f.owner (s.coreTypes p).assembledTypeAttribute := by
    refine List.mem_filter.mpr ⟨Array.mem_toList_iff.mpr ha, ?_⟩
    rw [howner]
    exact s.program.isAssignableTo_refl _
  rw [Session.isAssembled, Bool.not_eq_true', List.isEmpty_eq_false_iff]
  exact List.ne_nil_of_mem hmem

theorem requestedType (h : s.Bears p id f) : s.requestedType p f.owner = .ok id.requested := by
  rw [Session.requestedType, h.isAssembled, h.carries.base]
  rfl

/-- The type itself comes first in its hierarchy, and no other field of it has the name. -/
theorem findField? (h : s.Bears p id f) :
    s.program.findField? f.owner identifierFieldName = some f := by
  obtain ⟨own, hown, -⟩ := h.carries.field
  have hin : f ∈ s.program.fieldsOf f.owner :=
    List.mem_map.mpr ⟨f.index, List.mem_range.mpr (Array.getElem?_eq_some_iff.mp hown).1, rfl⟩
  have hself : s.program.ownField? f.owner identifierFieldName = some f := by
    cases hfound : s.program.ownField? f.owner identifierFieldName with
    | none =>
      have hnone := List.find?_eq_none.mp hfound f hin
      rw [h.carries.field_eq.1] at hnone
      exact absurd (beq_self_eq_true _) hnone
    | some g =>
      obtain ⟨i, hi, rfl⟩ := List.mem_map.mp (List.mem_of_find?_eq_some hfound)
      have hname := List.find?_some hfound
      have hlt : i < (s.program.record f.owner).fields.size := List.mem_range.mp hi
      have hrow : (s.program.record f.owner).fields[i]?
        = some ((s.program.record f.owner).fields[i]) := Array.getElem?_eq_getElem hlt
      have hfield : s.program.field ⟨f.owner, i⟩ = (s.program.record f.owner).fields[i] := by
        rw [Universe.field, Universe.field?, hrow, Option.getD_some]
      rw [hfield, beq_iff_eq] at hname
      rw [h.carries.alone i _ hrow hname]
  rw [Universe.findField?, Universe.hierarchy, Universe.chainWithin, List.findSome?_cons, hself]

theorem identifierField (h : s.Bears p id f) : s.identifierField p f.owner = .ok f := by
  have hstatic : (s.program.field f).isStatic = true := by
    rw [FieldRecord.isStatic, h.carries.field_eq.2]
    decide
  rw [Session.identifierField, h.findField?]
  dsimp only
  rw [hstatic, h.isAssembled]
  rfl

end Bears

/-! ### What assembled types tell -/

/-- The type is an assembled type for the identifier: it derives from the requested type, and its
own field, which is found under the name that such fields have, is given the identifier by its
initializer. -/
structure Tells (s : Session) (p : PipelineId) (id : Identifier) (f : FieldId) : Prop where
  base : (s.program.record f.owner).base = some id.requested
  assembled : s.isAssembled p f.owner = true
  requested : s.requestedType p f.owner = .ok id.requested
  found : s.program.findField? f.owner identifierFieldName = some f
  flags : (s.program.field f).flags = identifierFieldFlags
  stamp : ∃ m items, (s.program.record f.owner).initializer = some m
    ∧ (s.program.method m).body = some (.block items)
    ∧ .storeStatic (.member f) (.constant (.identifier id)) ∈ items

theorem Bears.tells (h : s.Bears p id f) : s.Tells p id f :=
  ⟨h.carries.base, h.isAssembled, h.requestedType, h.findField?, h.carries.field_eq.2,
    h.carries.stamp⟩

/-- The answer is what the field holds once the type is initialized. -/
theorem extractId_ok {heap : Heap} {t : TypeId} (hfield : s.identifierField p t = .ok f)
    (hrun : (s.program.ensureInitialized t).start s.heap = (.ok (), heap))
    (hvalue : heap.staticValue s.program t f = .identifier id) :
    (extractId p t).start s = (.ok id, { s with heap }) := by
  have hask : (ask fun s : Session => s.identifierField p t).start s = (.ok f, s) := by
    rw [ask, start_bind, start_get]
    dsimp only
    rw [hfield, start_lift]
  have hevaluate : (evaluate fun u => u.ensureInitialized t).start s
      = (.ok (), { s with heap }) := by
    rw [evaluate, start_bind, start_get]
    dsimp only
    rw [start_within, hrun]
  refine start_bind_ok.mpr ⟨f, s, hask,
    start_bind_ok.mpr ⟨(), _, hevaluate, start_bind_ok.mpr ⟨_, _, start_get _, ?_⟩⟩⟩
  dsimp only
  rw [hvalue]
  rfl

/-- The initializer of the type has not been started yet. Whatever is run from then on, by
programs that store nothing else into the field, the field holds the identifier when the
initializer has succeeded, and the identifier is the answer. -/
def Reveals (s : Session) (p : PipelineId) (id : Identifier) (f : FieldId) : Prop :=
  s.heap.Unstarted (s.program.cell f) →
    ∀ (steps : List (Universe × Entry)) (s' : Session) (heap : Heap),
    (∀ step ∈ steps, s.program.Spares step.1
      ∧ step.1.StoresOnly (s.program.cell f) (.identifier id)) →
    s.Remains s' → s'.program.StoresOnly (s.program.cell f) (.identifier id) →
      s'.heap = Entry.runAcross s.heap steps →
    (s'.program.ensureInitialized f.owner).start s'.heap = (.ok (), heap) →
      heap.staticValue s'.program f.owner f = .identifier id
      ∧ ((extractId p f.owner).start s').1 = .ok id

theorem Bears.stamps (h : s.Bears p id f) {u : Universe} (hu : s.program.Spares u)
    (honly : u.StoresOnly (s.program.cell f) (.identifier id)) :
    u.Stamps f (.identifier id) ∧ u.cell f = s.program.cell f := by
  have hcell := h.carries.cell_eq hu
  exact ⟨⟨hcell ▸ honly, (hu.carries h.carries).stamp⟩, hcell⟩

theorem Bears.reveals (h : s.Bears p id f) : s.Reveals p id f := by
  intro hunstarted steps s' heap hsteps hremains honly hheap hrun
  have hafter : s'.heap.Stamped (s.program.cell f) (.identifier id) False :=
    hheap ▸ Entry.stamped_runAcross (fun step hstep =>
      h.stamps (hsteps step hstep).1 (hsteps step hstep).2) (hunstarted.stamped _)
  obtain ⟨hstamps, hcell⟩ := h.stamps hremains.program honly
  rw [← hcell] at hafter
  have hidle : s'.heap.isRunning f.owner = false := by
    rw [Heap.isRunning, hheap, Entry.running_runAcross]
    exact hunstarted.idle
  -- The initialization has succeeded, so the field is stamped for good.
  have hend := wp_ok (Entry.stamped_perform hstamps (.prepare f.owner) s'.heap hafter) hrun
  have hvalue : heap.staticValue s'.program f.owner f = .identifier id :=
    congrArg (Option.getD · _)
      (hend.ready (.inr (Universe.initialized_of_ensureInitialized hidle hrun)))
  refine ⟨hvalue, ?_⟩
  rw [extractId_ok (hremains.bears h).identifierField hrun hvalue]

/-! ### From a batch to the answer -/

/-- The new type came out of the generation of a batch. -/
structure Makes (s : Session) (t : TypeId) (s' : Session) : Prop where
  new : s.program.types.size ≤ t.index
  generated : ∃ gen objectType batch g closed h, (Session.generate gen objectType batch).start s
    = (.ok (.ok g, closed), s')
    ∧ (h, t) ∈ g.types

/-- From one session to another, a type was made that carries the identifier in the field. -/
def Assembles (p : PipelineId) (id : Identifier) (f : FieldId) (s s' : Session) : Prop :=
  ∃ before made : Session, s.Remains before ∧ before.Makes f.owner made ∧ made.Bears p id f
    ∧ made.Remains s'

theorem Assembles.after {start : Session} (h : Assembles p id f s s') (hstart : start.Remains s) :
    Assembles p id f start s' := by
  obtain ⟨before, made, hbefore, hrest⟩ := h
  exact ⟨before, made, hstart.trans hbefore, hrest⟩

variable {mark : TypeId} {b : Batch} {h : FieldHandle}

theorem wp_generate_makes (gen : GeneratorId) (objectType : TypeId)
    (hb : b.Holds h.owner (Descriptor.Stamped mark id h)) :
    (Session.generate gen objectType b).wp
      (fun made after => s.Remains after ∧ ∀ g, made.1 = .ok g → ∃ placed : FieldId,
        g.emitted.type h.owner = .ok placed.owner
        ∧ s.Makes placed.owner after ∧ (after.program.record placed.owner).Carries mark id placed)
      (fun _ => True) s := by
  have hremains : s.Remains ((Session.generate gen objectType b).start s).2 :=
    wp_const.mp (remains_generate gen objectType b s (.refl s))
  have hspec := Production.wp_generate_carries objectType (s.workshop gen) hb
  rcases hproduced : (Production.generate objectType).start
    { batch := b, workshop := s.workshop gen } with ⟨outcome, after⟩
  have hrun : (Session.generate gen objectType b).start s = (.ok (outcome, after.batch),
      s.putWorkshop gen after.workshop) := by
    rw [Session.generate, start_of, hproduced]
  rw [hrun] at hremains
  rw [wp, hrun]
  refine ⟨hremains, fun g hg => ?_⟩
  obtain rfl : outcome = .ok g := hg
  obtain ⟨placed, htype, hmem, hnew, hcarries⟩ := wp_ok hspec hproduced
  exact ⟨placed, htype, ⟨hnew, gen, objectType, b, g, after.batch, h.owner, hrun, hmem⟩, hcarries⟩

end Session

/-! ### Assemblies -/

namespace Assembler

open Session Scene

variable {cast : Cast} {depth : Nat} {a : Assembler} {scene : Scene} {h : FieldHandle}

theorem maintains_requests (ha : a.requests = performWithin cast depth) (start : Session)
    (_ : List GeneratorId) (c : Command) :
    Maintains start.Remains (a.requests c) := by
  rw [ha]
  exact maintains_performWithin (lasting_remains start) [] depth c

/-- The generated type carries the identifier, and whoever is told of it leaves it as it is. -/
theorem wp_generateBatch (ha : a.requests = performWithin cast depth) {id : Identifier}
    (hb : scene.batch.Holds h.owner
      (Descriptor.Stamped (scene.session.coreTypes a.pipeline).assembledTypeAttribute id h))
    (hmark : (scene.session.program.record
      (scene.session.coreTypes a.pipeline).assembledTypeAttribute).complete = true)
    (hpresent : scene.session.program.isPresent
      (scene.session.coreTypes a.pipeline).assembledTypeAttribute = true) :
    a.generateBatch.wp (fun g after => ∃ f : FieldId, g.emitted.type h.owner = .ok f.owner
        ∧ Assembles a.pipeline id f scene.session after.session) (fun _ => True) scene := by
  unfold generateBatch
  rw [wp_bind, wp_get, wp_bind, inSession, wp_within]
  refine wp_mono (wp_generate_makes a.generator _ hb) (fun made after hafter => ?_) fun _ _ =>
    trivial
  obtain ⟨hremains, hmade⟩ := hafter
  rw [wp_bind, wp_modify, wp_bind, wp_lift]
  refine ⟨fun g hg => ?_, fun _ _ => trivial⟩
  obtain ⟨placed, htype, hmakes, hcarries⟩ := hmade g hg
  have hbears : after.Bears a.pipeline id placed := by
    refine ⟨?_, ?_, ?_⟩ <;> rw [hremains.coreTypes]
    · exact hcarries
    · exact hremains.program.complete hmark
    · rw [hremains.isPresent hmark]
      exact hpresent
  have htold : Maintains (About after.Remains)
      (scene.callbacks.toList.forM fun callback =>
        inSession ((callback g).run (Action.perform a.requests))) :=
    maintains_forM _ fun callback _ => maintains_inSession
      (@Errand.maintains_run _ [] _ _ (lasting_remains after).toCalm
        (maintains_requests ha after) (callback g))
  refine wp_step (htold _ (.refl after)) (fun _ last hlast => ?_) fun _ _ => trivial
  exact ⟨placed, htype, scene.session, after, .refl _, hmakes, hbears, hlast⟩

theorem wp_assembleProxy (ha : a.requests = performWithin cast depth) (id : Identifier)
    (hmark : (scene.session.program.record
      (scene.session.coreTypes a.pipeline).assembledTypeAttribute).complete = true) :
    (a.assembleProxy id).wp (fun t after => t = id.requested ∨ ∃ f : FieldId, f.owner = t
        ∧ Assembles a.pipeline id f scene.session after.session) (fun _ => True) scene := by
  unfold assembleProxy
  have hremains : Maintains (About scene.session.Remains) (a.draftProxy id) :=
    @maintains_draftProxy _ [] _ (lasting_remains scene.session).toCalm
      (maintains_requests ha scene.session) a rfl id
  refine wp_step (wp_and (hremains scene (.refl _)) (a.wp_draftProxy id))
    (fun proxy drafted hdrafted => ?_) fun _ _ => trivial
  obtain ⟨hdrafted, hderived⟩ := hdrafted
  rw [wp_bind, wp_get, wp_ite]
  refine ⟨fun _ => .inl rfl, fun _ => ?_⟩
  refine wp_step (a.wp_stamp hderived) (fun _ stamped hstamped => ?_) fun _ _ => trivial
  obtain ⟨hsame, hpresent, h, rfl, hb⟩ := hstamped
  rw [← hsame] at hpresent hb
  replace hdrafted : scene.session.Remains stamped.session := hsame ▸ hdrafted
  have hdone :
      (stamped.session.program.record
      (stamped.session.coreTypes a.pipeline).assembledTypeAttribute).complete = true := by
    rw [hdrafted.coreTypes]
    exact hdrafted.program.complete hmark
  refine wp_step (wp_generateBatch ha hb hdone hpresent) (fun g last hlast => ?_) fun _ _ => trivial
  obtain ⟨f, htype, hassembles⟩ := hlast
  rw [wp_lift, htype]
  refine ⟨?_, fun _ _ => trivial⟩
  rintro _ ⟨⟩
  exact .inr ⟨f, rfl, hassembles.after hdrafted⟩

theorem wp_assemble (ha : a.requests = performWithin cast depth) (id : Identifier)
    (hmark : (scene.session.program.record
      (scene.session.coreTypes a.pipeline).assembledTypeAttribute).complete = true) :
    (a.assemble id).wp (fun t after => t = id.requested ∨ ∃ f : FieldId, f.owner = t
        ∧ Assembles a.pipeline id f scene.session after.session) (fun _ => True) scene := by
  unfold assemble
  rw [wp_bind, wp_get, wp_ite]
  constructor
  · intro _
    rw [wp_recast]
    exact wp_assembleProxy ha id hmark
  · intro _
    rw [wp_bind]
    exact wp_mono (wp_const.mpr trivial) (fun _ _ _ => .inl rfl) fun _ h => h

end Assembler

namespace Session

/-- When an assembly answers with another type than the requested one, this is a new type that
was generated on the way. From then on, whatever commands follow, the type tells the identifier
that it was assembled for, and reveals it once its initializer has succeeded. -/
theorem assembled_tells_identity {cast : Cast} {depth : Nat} {a : Assembler} {id : Identifier}
    {scene scene' : Scene} {t : TypeId} (ha : a.requests = performWithin cast depth)
    (hrun : (a.assemble id).start scene = (.ok t, scene'))
    (hmark : (scene.session.program.record
      (scene.session.coreTypes a.pipeline).assembledTypeAttribute).complete = true)
    (hproxy : t ≠ id.requested) :
    ∃ (f : FieldId) (before made : Session), f.owner = t ∧ scene.session.Remains before
      ∧ before.Makes t made
      ∧ made.Remains scene'.session
      ∧ ∀ later, made.Remains later → later.Tells a.pipeline id f
          ∧ later.Reveals a.pipeline id f := by
  obtain ⟨f, rfl, before, made, hbefore, hmakes, hbears, hafter⟩ :=
    (wp_ok (Assembler.wp_assemble ha id hmark) hrun).resolve_left hproxy
  refine ⟨f, before, made, rfl, hbefore, hmakes, hafter, fun later hlater => ?_⟩
  have hlast := hlater.bears hbears
  exact ⟨hlast.tells, hlast.reveals⟩

/-! ### An assembly -/

/-- A participant that adds a field to each proxy. -/
def marking : Participant where
  name := "marking"
  participate := fun turn => do
    let _ ← Contribution.take (.edit (.addField turn.proxy "mark" .object 0))
    return ()

def leased : Session := ((dequeue ⟨0⟩ Thread.main).start onePipeline).2

def markingAssembler : Assembler where
  requests := performWithin (fun _ => [marking]) 1000
  participants := [marking]
  pipeline := ⟨0⟩
  generator := ⟨0⟩

def firstAssembly : Except Fault TypeId × Scene :=
  (markingAssembler.assemble firstTypeId).start { session := leased }

/-- The session that it leaves. -/
def assembled : Session := firstAssembly.2.session

set_option maxRecDepth 10000 in
/-- The proxy of the first type tells its identifier, and it is the answer when the proxy is
asked for it. -/
theorem marked_tells_identity :
    assembled.Tells ⟨0⟩ firstTypeId ⟨⟨3⟩, 1⟩ ∧ ((extractId ⟨0⟩ ⟨3⟩).start assembled).1
    = .ok firstTypeId := by
  have hanswer : firstAssembly.1 = .ok ⟨3⟩ := by decide +kernel
  have hrun : firstAssembly = (.ok ⟨3⟩, firstAssembly.2) := by rw [← hanswer]
  have hasked : (markingAssembler.assemble firstTypeId).start { session := leased }
    = (.ok ⟨3⟩, firstAssembly.2) := hrun
  have hmark : (leased.program.record (leased.coreTypes ⟨0⟩).assembledTypeAttribute).complete
    = true := by decide +kernel
  obtain ⟨f, -, made, hf, -, -, hafter, hlater⟩ :=
    assembled_tells_identity rfl hasked hmark (by decide)
  obtain ⟨htells, hreveals⟩ := hlater assembled hafter
  have hfield : f = ⟨⟨3⟩, 1⟩ := by
    have hfound : assembled.program.findField? ⟨3⟩ identifierFieldName = some ⟨⟨3⟩, 1⟩ := by
      decide +kernel
    have hsame := htells.found
    rw [hf, hfound] at hsame
    exact (Option.some.inj hsame).symm
  subst hfield
  refine ⟨htells, ?_⟩
  -- Nothing was run so far, and the stamp is the only store into the field.
  have hunstarted : assembled.heap.Unstarted (assembled.program.cell ⟨⟨3⟩, 1⟩) :=
    ⟨by decide +kernel, by decide +kernel, by decide +kernel⟩
  have honly : assembled.program.StoresOnly (assembled.program.cell ⟨⟨3⟩, 1⟩)
    (.identifier firstTypeId) := by decide +kernel
  have hdone : ((assembled.program.ensureInitialized ⟨3⟩).start assembled.heap).1 = .ok () := by
    decide +kernel
  have hprepared : (assembled.program.ensureInitialized ⟨3⟩).start assembled.heap
      = (.ok (), ((assembled.program.ensureInitialized ⟨3⟩).start assembled.heap).2) := by
        rw [← hdone]
  exact (hreveals hunstarted [] assembled _ nofun (.refl _) honly rfl hprepared).2

end Session

end TypeLoom
