import TypeLoom.Emit.Generate
import TypeLoom.Proofs.Building
import TypeLoom.Proofs.Dependencies
import TypeLoom.Proofs.Placing

/-!
# Declaring the types of a batch

The first pass of a generation asks each descriptor whether it is abstract and appends a type
without members for it. Asking changes only what descriptors remember of the answer.
-/

namespace TypeLoom

/-! ### What a batch remembers -/

namespace Descriptor

/-- The descriptor without what it remembers of its abstractness. -/
def forget (d : Descriptor) : Descriptor := { d with abstractMemo := none }

theorem forget_askAbstract (u : Universe) (d : Descriptor) :
    (d.askAbstract u).2.forget = d.forget := by
  unfold askAbstract
  cases d.abstractMemo <;> rfl

theorem interfaceDrafts_of_forget {d d' : Descriptor} (h : d'.forget = d.forget) :
    d'.interfaceDrafts = d.interfaceDrafts := by
  have hforget : ∀ d : Descriptor, d.interfaceDrafts = d.forget.interfaceDrafts := fun _ => rfl
  rw [hforget d', hforget d, h]

end Descriptor

namespace Batch

open Attempt

variable {u : Universe} {b mid b' : Batch} {d d' : Descriptor} {h : TypeHandle}

def Remembers (b b' : Batch) : Prop :=
  b'.types.map Descriptor.forget = b.types.map Descriptor.forget

theorem Remembers.refl (b : Batch) : Remembers b b := rfl

theorem Remembers.trans (hr : Remembers b mid) (hr' : Remembers mid b') :
    Remembers b b' := Eq.trans hr' hr

theorem Remembers.symm (hr : Remembers b b') : Remembers b' b := Eq.symm hr

theorem Remembers.forget (hr : Remembers b b') (h : TypeHandle) :
    (b'.find? h).map Descriptor.forget = (b.find? h).map Descriptor.forget := by
  have := congrArg (fun types : Array Descriptor => types[h.index]?) hr
  simpa [find?] using this

theorem Remembers.find (hr : Remembers b b') (hd : b.find? h = some d) :
    ∃ d', b'.find? h = some d' ∧ d'.forget = d.forget := by
  have hf := hr.forget h
  rw [hd, Option.map_some] at hf
  exact Option.map_eq_some_iff.mp hf

theorem Remembers.find_none (hr : Remembers b b') (hd : b.find? h = none) : b'.find? h = none := by
  have hf := hr.forget h
  rw [hd, Option.map_none] at hf
  exact Option.map_eq_none_iff.mp hf

theorem remembers_set (hd : b.find? h = some d) (hf : d'.forget = d.forget) :
    Remembers b { b with types := b.types.setIfInBounds h.index d' } := by
  apply Array.ext_getElem?
  intro i
  rw [Array.getElem?_map, Array.getElem?_map, Array.getElem?_setIfInBounds]
  split
  · rename_i hi
    subst hi
    have hd' : b.types[h.index]? = some d := hd
    rw [if_pos (Array.getElem?_eq_some_iff.mp hd').1, hd', Option.map_some, Option.map_some, hf]
  · rfl

/-! ### Abstractness within a batch -/

/-- Some interface of the batch that the type reaches is owed a method. -/
def owesDrafts (u : Universe) (b : Batch) (d : Descriptor) : Bool :=
  (b.reachInterfaces b.walkBound d.interfaceDrafts []).any fun i =>
    (b.find? i).any fun interface => owesInterface u d interface

/-- The answer to whether a type is abstract. -/
def isAbstract (u : Universe) (b : Batch) (d : Descriptor) : Bool :=
  (d.askAbstract u).1 || b.owesDrafts u d

theorem Remembers.reachInterfaces (hr : Remembers b b') (fuel : Nat) (todo seen : List TypeHandle) :
    b'.reachInterfaces fuel todo seen = b.reachInterfaces fuel todo seen := by
  induction fuel generalizing todo seen with
  | zero => rfl
  | succ fuel ih =>
    cases todo with
    | nil => rfl
    | cons h rest =>
      simp only [Batch.reachInterfaces]
      split
      · exact ih _ _
      · cases hd : b.find? h with
        | none => simp only [hr.find_none hd, ih]
        | some d =>
          obtain ⟨d', hd', hf⟩ := hr.find hd
          simp only [hd', Descriptor.interfaceDrafts_of_forget hf, ih]

theorem Remembers.walkBound (hr : Remembers b b') : b'.walkBound = b.walkBound := by
  have hforget : ∀ types : Array Descriptor,
    types.foldl (fun total d => total + 2 * d.interfaces.size + 1) 1
      = (types.map Descriptor.forget).foldl (fun total d =>
        total + 2 * d.interfaces.size + 1) 1 := by
    intro types
    rw [Array.foldl_map]
    rfl
  rw [Batch.walkBound, Batch.walkBound, hforget b'.types, hforget b.types]
  exact congrArg (fun types : Array Descriptor =>
    types.foldl (fun total d => total + 2 * d.interfaces.size + 1) 1) hr

theorem owesInterface_forget (u : Universe) {d d' i i' : Descriptor} (hd : d'.forget = d.forget)
    (hi : i'.forget = i.forget) : owesInterface u d' i' = owesInterface u d i := by
  have hforget : ∀ d i : Descriptor, owesInterface u d i = owesInterface u d.forget i.forget :=
    fun _ _ => rfl
  rw [hforget d' i', hforget d i, hd, hi]

theorem Remembers.owesDrafts (hr : Remembers b b') (hf : d'.forget = d.forget) :
    b'.owesDrafts u d' = b.owesDrafts u d := by
  unfold Batch.owesDrafts
  rw [hr.walkBound, Descriptor.interfaceDrafts_of_forget hf, hr.reachInterfaces]
  congr 1
  funext i
  cases hi : b.find? i with
  | none => rw [hr.find_none hi, Option.any_none, Option.any_none]
  | some e =>
    obtain ⟨e', he', hfe⟩ := hr.find hi
    simp only [he', Option.any_some, owesInterface_forget u hf hfe]

theorem Remembers.isAbstract (hr : Remembers b b') : b'.isAbstract u d = b.isAbstract u d := by
  rw [Batch.isAbstract, Batch.isAbstract, hr.owesDrafts rfl]

/-- Asking answers whether the type is abstract, and only one memory changes. -/
theorem wp_askAbstract {post : Bool → Batch → Prop} {fail : Batch → Prop} (hd : b.find? h = some d)
    (hpost : ∀ b', Remembers b b' → (∀ other, other ≠ h → b'.find? other = b.find? other) →
      post (b.isAbstract u d) b') : (askAbstract u h).wp post fail b := by
  unfold Batch.askAbstract askAlone
  rw [wp_bind]
  refine wp_onType (fun hnone => by rw [hd] at hnone; cases hnone) fun e he => ?_
  obtain rfl : d = e := Option.some.inj (hd.symm.trans he)
  rw [wp_of]
  have hr := remembers_set hd (d.forget_askAbstract u)
  have hother : ∀ other : TypeHandle, other ≠ h →
      find? { b with types := b.types.setIfInBounds h.index (d.askAbstract u).2 } other
      = b.find? other := by
    intro other hne
    have hindex : h.index ≠ other.index := fun heq => hne (by cases other; cases h; simp_all)
    simp [find?, hindex]
  have hpost' := hpost _ hr hother
  simp only [wp_ite, wp_pure, wp_bind, wp_get, wp_lift]
  refine ⟨fun halone => ?_, fun halone => ⟨fun e' he' => ?_, fun f hf => ?_⟩⟩
  · rw [isAbstract, halone, Bool.true_or] at hpost'
    exact hpost'
  · have hfound : find? { b with types := b.types.setIfInBounds h.index (d.askAbstract u).2 } h
        = some (d.askAbstract u).2 := by
      have hlt : h.index < b.types.size := (Array.getElem?_eq_some_iff.mp hd).1
      simp [find?, hlt]
    rw [require, hfound] at he'
    cases he'
    have howes := hr.owesDrafts (u := u) (d.forget_askAbstract u)
    rw [isAbstract, Bool.eq_false_iff.mpr halone, Bool.false_or, ← howes] at hpost'
    exact hpost'
  · obtain ⟨d', hd', -⟩ := hr.find hd
    rw [require, hd'] at hf
    cases hf

end Batch

/-! ### Created types -/

theorem TypeSpace.wp_ensureOpen {post : PUnit → TypeSpace → Prop}
    {fail : TypeSpace → Prop} {s : TypeSpace} {t : TypeId} (h : post ⟨⟩ s) (hfail : fail s) :
    (ensureOpen t).wp post fail s := by
  simp only [ensureOpen, currentProgram, Attempt.wp_bind, Attempt.wp_get,
    Attempt.wp_pure, Attempt.wp_ite,
    Attempt.wp_throw]
  exact ⟨fun _ => hfail, fun _ => h⟩

/-! ### New types of a workshop -/

namespace Workshop

open Attempt Universe

structure Declares (w : Workshop) (flags : UInt32) (w' : Workshop) : Prop where
  same : ∃ token space name,
    (w.space.program.push { token, space, name, flags, origin := .generated }).Same w'.space.program
  core : w'.space.registry.core = w.space.registry.core

theorem wp_defineType (w : Workshop) (space name : String) (flags : UInt32)
    (declaring : Option TypeId) :
    (defineType space name flags declaring).wp (fun t w' => t = w.space.program.nextId
      ∧ w.Declares flags w')
      (w.Declares flags) w := by
  unfold defineType
  rw [wp_bind, inSpace, wp_within]
  refine TypeSpace.wp_newType fun token after hafter hcore => ?_
  have hnew : ∀ output, w.Declares flags { space := after, output } := fun _ =>
    ⟨⟨token, _, name, by rw [hafter]; exact .refl _⟩, hcore⟩
  cases declaring with
  | none => exact ⟨rfl, hnew _⟩
  | some outer =>
    rw [wp_bind, inSpace, wp_within]
    have hnest : ∀ output last, TypeSpace.Idle after last →
        w.Declares flags { space := last, output } := by
      intro output last hidle
      obtain ⟨⟨token, space, name, hsame⟩, hcore⟩ := hnew output
      exact ⟨⟨token, space, name, hsame.trans hidle.same⟩, hidle.core.trans hcore⟩
    exact (TypeSpace.quiet_nestIn _ _).wp (fun _ last hidle => ⟨rfl, hnest _ last hidle⟩) (hnest _)

variable {w w' : Workshop} {flags : UInt32}

theorem Declares.size (h : w.Declares flags w') :
    w'.space.program.types.size = w.space.program.types.size + 1 := by
  obtain ⟨⟨token, space, name, hsame⟩, -⟩ := h
  rw [hsame.1, size_push]

theorem Declares.agree (h : w.Declares flags w') :
    Agree w.space.program.types.size w.space.program w'.space.program := by
  obtain ⟨⟨token, space, name, hsame⟩, -⟩ := h
  exact (Agree.push _).trans (hsame.agree _)

theorem Declares.self (h : w.Declares flags w') :
    ∃ token, w'.space.program.outline w.space.program.nextId = { token, flags } := by
  obtain ⟨⟨token, space, name, hsame⟩, -⟩ := h
  refine ⟨token, ?_⟩
  rw [hsame.2, outline_push, if_pos rfl]
  rfl

theorem Declares.sound (h : w.Declares flags w') (hs : w.space.Sound) : w'.space.Sound := by
  have hsize := h.size
  obtain ⟨⟨token, space, name, hsame⟩, hcore⟩ := h
  refine ⟨hsame.wellFormed (hs.wellFormed.push rfl rfl (fun slot => ?_) rfl), ?_⟩
  · cases slot <;> simp [TypeRecord.method?]
  · have := hs.object
    rw [hcore, hsize]
    omega

end Workshop

/-! ### Productions -/

namespace Production

open Attempt Universe

variable {α : Type} {ground p : Production} {l : Layout}

def program (p : Production) : Universe := p.workshop.space.program

def withSpace (p : Production) (space : TypeSpace) : Production :=
  { p with workshop := { p.workshop with space } }

variable {post : α → Production → Prop} {fail : Production → Prop}

theorem wp_inSpace (act : Attempt TypeSpace α) :
    (inSpace act).wp post fail p ↔
      act.wp (fun v space => post v (p.withSpace space))
      (fun space => fail (p.withSpace space)) p.workshop.space := by
  rw [inSpace, inWorkshop, wp_within, Workshop.inSpace, wp_within]
  rfl

theorem wp_lookUp (find : Emitted → Except Fault α) :
    (lookUp find).wp post fail p ↔
      (∀ v, find p.emitted = .ok v → post v p) ∧ ∀ f, find p.emitted = .error f → fail p := by
  rw [lookUp, wp_bind, wp_get, wp_lift]

theorem wp_emit {post : PUnit → Production → Prop} (add : Emitted → Except Fault Emitted) :
    (emit add).wp post fail p ↔
      (∀ emitted, add p.emitted = .ok emitted → post ⟨⟩ { p with emitted })
        ∧ ∀ f, add p.emitted = .error f → fail p := by
  simp only [emit, wp_bind, wp_get, wp_lift, wp_set]

theorem wp_descriptor {post : Descriptor → Production → Prop} (h : TypeHandle) :
    (descriptor h).wp post fail p ↔
      (∀ d, p.batch.find? h = some d → post d p) ∧ (p.batch.find? h = none → fail p) := by
  simp only [descriptor, wp_bind, wp_get, wp_lift, Batch.require]
  cases p.batch.find? h <;> simp

theorem wp_lookUpAll {β : Type} {post : Option α → Production → Prop}
    (find : β → Emitted → Except Fault α) (item : Option β)
    (hpost : ∀ v, (item = none → v = none) → post v p) (hfail : fail p) :
    (item.mapM fun x => lookUp (find x)).wp post fail p := by
  cases item with
  | none => exact hpost none fun _ => rfl
  | some x =>
    rw [Option.mapM_some, wp_map, wp_lookUp]
    exact ⟨fun v _ => hpost (some v) nofun, fun _ _ => hfail⟩

/-- What holds however far a generation has come: the types that were there are as they were, and
the batch is too, up to what it remembers. -/
structure Intact (ground p : Production) : Prop where
  batch : ground.batch.Remembers p.batch
  sound : p.workshop.space.Sound
  core : p.workshop.space.registry.core = ground.workshop.space.registry.core
  size : ground.program.types.size ≤ p.program.types.size
  agree : Agree ground.program.types.size ground.program p.program

theorem Intact.refl (h : ground.workshop.space.Sound) : Intact ground ground :=
  ⟨.refl _, h, rfl, Nat.le_refl _, .refl _ _⟩

theorem Intact.unmoved {space : TypeSpace} (h : Intact ground p)
    (hprogram : space.program = p.workshop.space.program)
    (hcore : space.registry.core = p.workshop.space.registry.core) :
    Intact ground (p.withSpace space) := by
  have hprogram' : (p.withSpace space).program = p.program := hprogram
  refine ⟨h.batch, ⟨?_, ?_⟩, hcore.trans h.core, ?_, ?_⟩
  · show space.program.WellFormed
    rw [hprogram]
    exact h.sound.wellFormed
  · show space.registry.core.object.index < space.program.types.size
    rw [hprogram, hcore]
    exact h.sound.object
  · rw [hprogram']
    exact h.size
  · rw [hprogram']
    exact h.agree

/-- The outline of a type that was just declared for a descriptor. -/
def Blank (ground : Production) (d : Descriptor) (o : TypeOutline) : Prop :=
  ∃ u : Universe, u.WellFormed ∧ ground.program.types.size ≤ u.types.size
    ∧ Agree ground.program.types.size ground.program u
    ∧ o = { token := o.token,
            flags := if ground.batch.isAbstract u d then d.flags ||| TypeFlags.abstract
            else d.flags }

structure Declared (ground : Production) (l : Layout) (done : List TypeHandle) (p : Production) :
    Prop where
  intact : Intact ground p
  rest : ∀ h, h ∉ done → p.batch.find? h = ground.batch.find? h
  size : p.program.types.size = l.start + done.length
  types : ∀ h, p.emitted.types.find? h = if h ∈ done then some (l.place h) else none
  methods : p.emitted.methods = []
  blank : ∀ h ∈ done, ∃ d, ground.batch.find? h = some d
    ∧ Blank ground d (p.program.outline (l.place h))
  attachments : p.attachments = #[]

theorem addType_ok {e e' : Emitted} {h : TypeHandle} {t : TypeId} (hadd : e.addType h t = .ok e') :
    e' = { e with types := e.types.put h t } := by
  obtain ⟨types, htypes, hend⟩ := bind_eq_ok.mp hadd
  cases hend
  unfold Emitted.addOnce at htypes
  split at htypes
  · cases htypes
  · cases htypes
    rfl

theorem Intact.declares {w' : Workshop} {flags : UInt32} {b' : Batch} (h : Intact ground p)
    (hb : ground.batch.Remembers b') (hw : p.workshop.Declares flags w') :
    Intact ground { p with batch := b', workshop := w' } where
  batch := hb
  sound := hw.sound h.sound
  core := hw.core.trans h.core
  size := by
    have := h.size
    show ground.program.types.size ≤ w'.space.program.types.size
    rw [hw.size]
    exact Nat.le_succ_of_le this
  agree := h.agree.trans (hw.agree.mono h.size)

theorem wp_declare {done : List TypeHandle} {h : TypeHandle} {rest : List TypeHandle}
    (hnodup : l.order.Nodup) (horder : l.order = done ++ h :: rest)
    (hp : Declared ground l done p) :
    (declare h).wp (fun _ => Declared ground l (done ++ [h])) (Intact ground) p := by
  have hfresh : h ∉ done := by
    rw [horder] at hnodup
    exact fun hmem => List.disjoint_of_nodup_append hnodup hmem List.mem_cons_self
  have hplace : l.place h = p.program.nextId := by
    rw [Layout.place_of_getElem? hnodup (i := done.length) (by simp [horder]), nextId, hp.size]
  unfold declare
  rw [wp_bind, wp_descriptor]
  refine ⟨fun d hd => ?_, fun _ => hp.intact⟩
  rw [wp_bind, wp_get, wp_bind, inBatch, wp_within]
  refine Batch.wp_askAbstract hd fun b' hb' hothers => ?_
  have hbatch := hp.intact.batch.trans hb'
  have hasked : Intact ground { p with batch := b' } :=
    ⟨hbatch, hp.intact.sound, hp.intact.core, hp.intact.size, hp.intact.agree⟩
  rw [wp_bind]
  refine wp_lookUpAll _ _ (fun declaring _ => ?_) hasked
  rw [wp_bind, inWorkshop, wp_within]
  refine wp_mono (Workshop.wp_defineType _ _ _ _ _) ?_ fun w' hw => hp.intact.declares hbatch hw
  rintro t w' ⟨rfl, hw⟩
  have hintact := hp.intact.declares hbatch hw
  rw [wp_emit]
  refine ⟨fun emitted hadd => ?_, fun _ _ => hintact⟩
  obtain rfl := addType_ok hadd
  refine ⟨⟨hintact.batch, hintact.sound, hintact.core, hintact.size, hintact.agree⟩, ?_,
    ?_, ?_, hp.methods,
    ?_, hp.attachments⟩
  · intro other hother
    rw [List.mem_append, List.mem_singleton, not_or] at hother
    rw [← hp.rest other hother.1]
    exact hothers other hother.2
  · show w'.space.program.types.size = _
    rw [hw.size, List.length_append, List.length_singleton, ← Nat.add_assoc]
    exact congrArg (· + 1) hp.size
  · intro other
    by_cases hother : h = other
    · subst hother
      rw [Keyed.find?_put_self, if_pos (by simp), hplace]
      rfl
    · rw [Keyed.find?_put_of_ne _ _ _ _ hother, hp.types]
      simp [Ne.symm hother]
  · intro other hother
    rcases List.mem_append.mp hother with hold | hnew
    · obtain ⟨e, he, hblank⟩ := hp.blank other hold
      have hlt : (l.place other).index < p.program.types.size := by
        rw [hp.size, Layout.place_of_mem (by rw [horder]; exact List.mem_append_left _ hold)]
        have hidx : l.order.idxOf other = done.idxOf other := by
          rw [horder, List.idxOf_append_of_mem hold]
        rw [hidx]
        exact Nat.add_lt_add_left (List.idxOf_lt_length_of_mem hold) _
      refine ⟨e, he, ?_⟩
      have hsame := hw.agree (l.place other) hlt
      show Blank ground e (w'.space.program.outline (l.place other))
      rw [hsame]
      exact hblank
    · obtain rfl := List.mem_singleton.mp hnew
      obtain ⟨token, hself⟩ := hw.self
      have hfound : ground.batch.find? other = some d := by rw [← hp.rest other hfresh]; exact hd
      refine ⟨d, hfound, p.program, hp.intact.sound.wellFormed, hp.intact.size, hp.intact.agree, ?_⟩
      have hanswer := hp.intact.batch.isAbstract (u := p.program) (d := d)
      have hdeclared : w'.space.program.outline (l.place other) = {
          token
          flags := if ground.batch.isAbstract p.program d then d.flags ||| TypeFlags.abstract
              else d.flags } := by
        rw [hplace, ← hanswer]
        exact hself
      show w'.space.program.outline (l.place other)
        = { token := (w'.space.program.outline (l.place other)).token, flags := _ }
      rw [hdeclared]

theorem wp_declareAll (hstart : l.start = ground.program.types.size) (hnodup : l.order.Nodup)
    (hsound : ground.workshop.space.Sound) (hemitted : ground.emitted = {})
    (hnone : ground.attachments = #[]) :
    (forIn l.order PUnit.unit (fun h _ => do let _ ← declare h; pure (.yield PUnit.unit)) :
      Attempt Production PUnit).wp (fun _ => Declared ground l l.order) (Intact ground) ground := by
  refine wp_forIn l.order (fun done h rest horder mid hmid => wp_declare hnodup horder hmid) ?_
  refine ⟨.refl hsound, fun _ _ => rfl, ?_, ?_, ?_, nofun, hnone⟩
  · rw [hstart]
    rfl
  · simp [hemitted, Keyed.find?]
  · rw [hemitted]

end Production

end TypeLoom
