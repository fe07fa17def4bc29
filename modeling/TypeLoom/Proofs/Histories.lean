import Mathlib.Logic.Relation
import TypeLoom.Proofs.Emission

/-!
# Histories

A world is a type space with the batches that are worked on beside it. Classes are built, proxies
are added to batches, batches are edited and generated, in any order. Every move keeps the world
sound, leaves the types that were there as they were, and takes nothing back from a descriptor.
-/

namespace TypeLoom

structure World where
  space : TypeSpace := {}
  batches : Array Batch := #[]

/-- What can happen next. A batch is named by its place, and a generation by the types that its
module already has. -/
inductive Move
  | build (spec : ClassSpec)
  | openBatch
  | propose (batch : Nat) (requested : TypeId) (name : String)
  | edit (batch : Nat) (e : Edit)
  | generate (batch : Nat) (output : Array TypeId)

namespace World

def program (w : World) : Universe := w.space.program

/-- The world with nothing but the core types. -/
def fresh : World := { space := TypeSpace.fresh {} }

def putBatch (w : World) (place : Nat) (b : Batch) : World :=
  { w with batches := w.batches.setIfInBounds place b }

def production (w : World) (b : Batch) (output : Array TypeId) : Production :=
  { batch := b, workshop := { space := w.space, output } }

def generation (w : World) (b : Batch) (output : Array TypeId) :
    Except Fault Generated × Production :=
  (Production.generate w.space.registry.core.object).start (w.production b output)

/-- The world after a move; nothing happens to batches that there are not. -/
def after (w : World) : Move → World
  | .build spec => { w with space := ((TypeSpace.buildClass spec).start w.space).2 }
  | .openBatch => { w with batches := w.batches.push {} }
  | .propose place requested name =>
    match w.batches[place]? with
    | some b => w.putBatch place (b.createProxy w.program requested name).2
    | none => w
  | .edit place e =>
    match w.batches[place]? with
    | some b => w.putBatch place ((e.perform w.program).start b).2
    | none => w
  | .generate place output =>
    match w.batches[place]? with
    | some b =>
      let p := (w.generation b output).2
      { w.putBatch place p.batch with space := p.workshop.space }
    | none => w

/-- The types that a move names exist. -/
def Fits (w : World) : Move → Prop
  | .build spec => spec.Settled w.program.types.size
  | .propose _ requested _ => w.program.isPresent requested
  | .edit _ e => e.Known w.program.types.size
  | _ => True

instance (w : World) (move : Move) : Decidable (w.Fits move) := by
  cases move <;> unfold Fits <;> infer_instance

/-- What an edit of a batch answers. -/
def answer (w : World) (place : Nat) (e : Edit) : Except Fault EditAnswer :=
  match w.batches[place]? with
  | some b => ((e.perform w.program).start b).1
  | none => .error (.argument "batch" "There is no such batch")

def outcome (w : World) (place : Nat) (output : Array TypeId) : Except Fault Generated :=
  match w.batches[place]? with
  | some b => (w.generation b output).1
  | none => .error (.argument "batch" "There is no such batch")

/-- A descriptor of a batch. -/
def descriptor? (w : World) (place : Nat) (h : TypeHandle) : Option Descriptor :=
  w.batches[place]?.bind (·.find? h)

def Step (w w' : World) : Prop := ∃ move, w.Fits move ∧ w' = w.after move

def Later : World → World → Prop := Relation.ReflTransGen Step

def Reachable (w : World) : Prop := Later fresh w

/-! ### Sound worlds -/

structure Sound (w : World) : Prop where
  space : w.space.Sound
  batches : ∀ (i : Nat) (b : Batch), w.batches[i]? = some b → b.Sound w.program

structure Since (w w' : World) : Prop where
  size : w.program.types.size ≤ w'.program.types.size
  agree : Universe.Agree w.program.types.size w.program w'.program
  batches : ∀ (i : Nat) (b : Batch), w.batches[i]? = some b → ∃ b', w'.batches[i]? = some b'
    ∧ ∀ h d, b.find? h = some d → ∃ d', b'.find? h = some d' ∧ d.Keeps d'

variable {w mid w' : World}

theorem Since.refl (w : World) : Since w w :=
  ⟨Nat.le_refl _, .refl _ _, fun _ b hb => ⟨b, hb, fun _ d hd => ⟨d, hd, .refl d⟩⟩⟩

theorem Since.trans (h : Since w mid) (h' : Since mid w') : Since w w' where
  size := Nat.le_trans h.size h'.size
  agree := h.agree.trans (h'.agree.mono h.size)
  batches := fun i b hb => by
    obtain ⟨b', hb', hkeeps⟩ := h.batches i b hb
    obtain ⟨b'', hb'', hkeeps'⟩ := h'.batches i b' hb'
    refine ⟨b'', hb'', fun handle d hd => ?_⟩
    obtain ⟨d', hd', hk⟩ := hkeeps handle d hd
    obtain ⟨d'', hd'', hk'⟩ := hkeeps' handle d' hd'
    exact ⟨d'', hd'', hk.trans hk'⟩

/-! ### Moves -/

theorem putBatch_sound (hw : w.Sound) {place : Nat} {b b' : Batch} {space : TypeSpace}
    (hb : w.batches[place]? = some b) (hspace : space.Sound)
    (hsize : w.program.types.size ≤ space.program.types.size)
    (hagree : Universe.Agree w.program.types.size w.program space.program)
    (hsound : b'.Sound space.program)
    (hkeeps : ∀ h d, b.find? h = some d → ∃ d', b'.find? h = some d' ∧ d.Keeps d') :
    Sound { w.putBatch place b' with space } ∧ Since w { w.putBatch place b' with space } := by
  have hlt : place < w.batches.size := (Array.getElem?_eq_some_iff.mp hb).1
  have hself : (w.batches.setIfInBounds place b')[place]? = some b' := by simp [hlt]
  have hother : ∀ i : Nat, i ≠ place → (w.batches.setIfInBounds place b')[i]? = w.batches[i]? := by
    intro i hne
    rw [Array.getElem?_setIfInBounds_ne (Ne.symm hne)]
  refine ⟨⟨hspace, fun i e he => ?_⟩, ⟨hsize, hagree, fun i e he => ?_⟩⟩
  · by_cases hi : i = place
    · subst hi
      obtain rfl : b' = e := Option.some.inj (hself.symm.trans he)
      exact hsound
    · exact (hw.batches i e ((hother i hi).symm.trans he)).grow hw.space.wellFormed hagree hsize
  · by_cases hi : i = place
    · subst hi
      obtain rfl : b = e := Option.some.inj (hb.symm.trans he)
      exact ⟨b', hself, hkeeps⟩
    · exact ⟨e, (hother i hi).trans he, fun _ d hd => ⟨d, hd, .refl d⟩⟩

theorem grown_sound (hw : w.Sound) {place : Nat} {b b' : Batch} (hb : w.batches[place]? = some b)
    (hg : b.Grown w.program b') : Sound (w.putBatch place b') ∧ Since w (w.putBatch place b') := by
  refine putBatch_sound hw hb hw.space (Nat.le_refl _) (.refl _ _)
    ((hw.batches place b hb).grown hw.space.wellFormed hg) fun h d hd => ?_
  obtain ⟨d', hd', he⟩ := hg.old h.index d hd
  exact ⟨d', hd', he.keeps⟩

theorem build_sound (hw : w.Sound) {spec : ClassSpec} (hspec : spec.Settled w.program.types.size) :
    Sound (w.after (.build spec)) ∧ Since w (w.after (.build spec)) := by
  have hbuild : TypeSpace.Underway w.space spec.flags
    ((TypeSpace.buildClass spec).start w.space).2 :=
    Attempt.wp_const.mp (Attempt.wp_mono (TypeSpace.wp_buildClass hw.space.wellFormed hspec
      hw.space.object)
      (fun _ _ h => h.2) fun _ h => h)
  have hsize := hbuild.size
  have hle : w.program.types.size
      ≤ ((TypeSpace.buildClass spec).start w.space).2.program.types.size := by
    rw [hsize]
    exact Nat.le_succ _
  refine ⟨⟨hbuild.sound hw.space, fun i b hb => ?_⟩, ⟨hle, hbuild.agree, fun i b hb => ?_⟩⟩
  · exact (hw.batches i b hb).grow hw.space.wellFormed hbuild.agree hle
  · exact ⟨b, hb, fun _ d hd => ⟨d, hd, .refl d⟩⟩

theorem open_sound (hw : w.Sound) : Sound (w.after .openBatch) ∧ Since w (w.after .openBatch) := by
  refine ⟨⟨hw.space, fun i b hb => ?_⟩, ⟨Nat.le_refl _, .refl _ _, fun i b hb => ?_⟩⟩
  · rw [after, Array.getElem?_push] at hb
    split at hb
    · cases hb
      exact Batch.sound_empty _
    · exact hw.batches i b hb
  · have hlt : i < w.batches.size := (Array.getElem?_eq_some_iff.mp hb).1
    refine ⟨b, ?_, fun _ d hd => ⟨d, hd, .refl d⟩⟩
    rw [after, Array.getElem?_push, if_neg (by omega)]
    exact hb

theorem keeps_of_intact {b : Batch} {workshop : Workshop} {p : Production}
    (hp : Production.Intact (Production.opening b workshop) p) {h : TypeHandle} {d : Descriptor}
    (hd : b.find? h = some d) : ∃ d', p.batch.find? h = some d' ∧ d.Keeps d' := by
  have hclosed : b.closeAll.find? h = some d.close := by
    rw [Batch.find?_closeAll, hd, Option.map_some]
  obtain ⟨d', hd', hforget⟩ := hp.batch.find hclosed
  exact ⟨d', hd', (Batch.alike_close d).keeps.trans (Descriptor.alike_of_forget hforget).keeps⟩

theorem sound_of_intact {b : Batch} {workshop : Workshop} {p : Production}
    (hp : Production.Intact (Production.opening b workshop) p) (hspace : workshop.space.Sound)
    (hb : b.Sound workshop.space.program) : p.batch.Sound p.program := by
  have hboth : ∀ (i : Nat) (d : Descriptor), p.batch.types[i]? = some d →
      d.handle = ⟨i⟩ ∧ d.Sound workshop.space.program := by
    intro i d hd
    obtain ⟨known, hknown, hforget⟩ := hp.batch.symm.find (h := ⟨i⟩) hd
    have halike := Descriptor.alike_of_forget hforget
    have hclosed := hb.close
    refine ⟨halike.handle.symm.trans (hclosed.handles i known hknown), ?_⟩
    exact (hclosed.sound i known hknown).alike (Descriptor.alike_of_forget hforget.symm)
  have hsound : p.batch.Sound workshop.space.program :=
    ⟨fun i d hd => (hboth i d hd).1, fun i d hd => (hboth i d hd).2⟩
  exact hsound.grow hspace.wellFormed hp.agree hp.size

theorem intact_generation (hw : w.Sound) {b : Batch} (hb : b.Sound w.program)
    (output : Array TypeId) :
    Production.Intact (Production.opening b { space := w.space, output })
    (w.generation b output).2 := by
  have hwp := Production.wp_generate { space := w.space, output } hw.space hb hw.space.object
  exact Attempt.wp_const.mp (Attempt.wp_mono hwp (fun _ _ ⟨_, h⟩ => h.intact) fun _ h => h)

/-- A move keeps the world sound and takes nothing back. -/
theorem step_sound (hw : w.Sound) (hstep : Step w w') : Sound w' ∧ Since w w' := by
  obtain ⟨move, hfits, rfl⟩ := hstep
  cases move with
  | build spec => exact build_sound hw hfits
  | openBatch => exact open_sound hw
  | propose place requested name =>
    simp only [after]
    cases hb : w.batches[place]? with
    | none => exact ⟨hw, .refl w⟩
    | some b =>
      exact grown_sound hw hb (Batch.grown_push rfl
        (Batch.sound_proxy hw.space.wellFormed _ name hfits) rfl rfl)
  | edit place e =>
    simp only [after]
    cases hb : w.batches[place]? with
    | none => exact ⟨hw, .refl w⟩
    | some b =>
      exact grown_sound hw hb (Attempt.wp_const.mp
        (Batch.growing_perform hw.space.wellFormed hfits b))
  | generate place output =>
    simp only [after]
    cases hb : w.batches[place]? with
    | none => exact ⟨hw, .refl w⟩
    | some b =>
      have hsound := hw.batches place b hb
      have hintact := intact_generation hw hsound output
      exact putBatch_sound hw hb hintact.sound hintact.size hintact.agree
        (sound_of_intact hintact hw.space hsound)
        fun h d hd => keeps_of_intact hintact hd

def Each (P : Universe → Batch → Prop) (w : World) : Prop := ∀ (i : Nat)
    (b : Batch), w.batches[i]? = some b → P w.program b

/-- What holds of batches when there are more types, and of the batch that a move makes or
changes, goes on to hold of every batch. -/
theorem Each.after {P : Universe → Batch → Prop} {move : Move} (hw : w.Each P)
    (hgrow : ∀ (i : Nat) b, w.batches[i]? = some b → P w.program b → P (w.after move).program b)
    (hopen : move = .openBatch → P w.program {})
    (hpropose : ∀ place requested name b, move = .propose place requested name →
      w.batches[place]? = some b →
      P w.program (b.createProxy w.program requested name).2)
    (hedit : ∀ place e b, move = .edit place e → w.batches[place]? = some b →
      P w.program ((e.perform w.program).start b).2)
    (hgenerate : ∀ place output b, move = .generate place output → w.batches[place]? = some b →
      P (w.generation b output).2.program (w.generation b output).2.batch) :
      (w.after move).Each P := by
  have hput : ∀ (place : Nat) (made : Batch) (space : TypeSpace), P space.program made →
      (∀ (i : Nat) b, w.batches[i]? = some b → P space.program b) →
      Each P { w.putBatch place made with space } := by
    intro place made space hmade hothers i b hb
    change (w.batches.setIfInBounds place made)[i]? = some b at hb
    rw [Array.getElem?_setIfInBounds] at hb
    split at hb
    · split at hb
      · exact Option.some.inj hb ▸ hmade
      · cases hb
    · exact hothers i b hb
  cases move with
  | build spec => exact fun i b hb => hgrow i b hb (hw i b hb)
  | openBatch =>
    intro i b hb
    rw [World.after, Array.getElem?_push] at hb
    split at hb
    · exact Option.some.inj hb ▸ hopen rfl
    · exact hw i b hb
  | propose place requested name =>
    simp only [World.after]
    cases hb : w.batches[place]? with
    | none => exact hw
    | some b => exact hput place _ w.space (hpropose place requested name b rfl hb) hw
  | edit place e =>
    simp only [World.after]
    cases hb : w.batches[place]? with
    | none => exact hw
    | some b => exact hput place _ w.space (hedit place e b rfl hb) hw
  | generate place output =>
    simp only [World.after] at hgrow ⊢
    cases hb : w.batches[place]? with
    | none => exact hw
    | some b =>
      rw [hb] at hgrow
      exact hput place _ _ (hgenerate place output b rfl hb) fun i other hother =>
        hgrow i other hother (hw i other hother)

/-! ### Runs -/

theorem Later.sound (hlater : Later w w') (hw : w.Sound) : Sound w' ∧ Since w w' := by
  induction hlater with
  | refl => exact ⟨hw, .refl w⟩
  | tail _ hstep ih =>
    obtain ⟨hsound, hsince⟩ := step_sound ih.1 hstep
    exact ⟨hsound, ih.2.trans hsince⟩

theorem sound_of_space {space : TypeSpace} (h : space.Sound) : Sound { space } where
  space := h
  batches := fun _ _ hb => absurd hb (by simp)

/-- The world after some moves. -/
def run (w : World) (moves : List Move) : World := moves.foldl after w

/-- Each move fits when its turn comes. -/
def FitsAll (w : World) : List Move → Prop
  | [] => True
  | move :: moves => w.Fits move ∧ (w.after move).FitsAll moves

instance decidableFitsAll : (moves : List Move) → (w : World) → Decidable (w.FitsAll moves)
  | [], _ => isTrue trivial
  | move :: moves, w => @instDecidableAnd _ _ _ (decidableFitsAll moves (w.after move))

/-- What holds whenever a move of a run is made holds for the first move and for the moves after
it. -/
theorem forall_moves_cons {P : World → Move → Prop} {first : Move} {moves : List Move} :
    (∀ before move later, first :: moves = before ++ move :: later → P (w.run before) move)
      ↔ P w first ∧ ∀ before move later, moves = before ++ move :: later →
      P ((w.after first).run before) move := by
  constructor
  · intro h
    exact ⟨h [] first moves rfl, fun before move later hsplit =>
      h (first :: before) move later (by rw [hsplit, List.cons_append])⟩
  · rintro ⟨hfirst, hrest⟩ before move later hsplit
    cases before with
    | nil =>
      cases hsplit
      exact hfirst
    | cons _ before =>
      cases hsplit
      exact hrest before move later rfl

theorem later_run (moves : List Move) (h : w.FitsAll moves) : Later w (w.run moves) := by
  induction moves generalizing w with
  | nil => exact .refl
  | cons move moves ih => exact .head ⟨move, h.1, rfl⟩ (ih h.2)

theorem Reachable.sound (hw : Reachable w) : w.Sound :=
  (Later.sound hw (sound_of_space (TypeSpace.sound_fresh Universe.wellFormed_empty))).1

end World

end TypeLoom
