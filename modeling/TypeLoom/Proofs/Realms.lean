import TypeLoom.Proofs.RightfulOverrides

/-!
# Realms

Several registries may share a program. Each of them numbers types and members by itself, but a
class may be based on a class of another registry, and a batch may be generated into any of them. A
realm is all of this together; through one of its registries it is seen as a world.
-/

namespace TypeLoom

open Attempt

structure Realm where
  program : Universe := {}
  registries : Array Registry := #[]
  batches : Array Batch := #[]

namespace Realm

/-- What can happen next: a registry is set up, or a move is made through one of them. -/
inductive Turn
  | establish
  | move (registry : Nat) (m : Move)

def view (r : Realm) (g : Registry) : World :=
  { space := { program := r.program, registry := g }, batches := r.batches }

/-- The realm when a world that was seen through a registry has changed. -/
def putWorld (r : Realm) (place : Nat) (w : World) : Realm :=
  { program := w.program, registries := r.registries.setIfInBounds place w.space.registry,
    batches := w.batches }

/-- The realm after a turn; nothing happens through registries that there are not. -/
def after (r : Realm) : Turn → Realm
  | .establish =>
    let space := TypeSpace.fresh r.program
    { r with program := space.program, registries := r.registries.push space.registry }
  | .move place m =>
    match r.registries[place]? with
    | some g => r.putWorld place ((r.view g).after m)
    | none => r

/-- What an edit through a registry answers. -/
def answer? (r : Realm) (through place : Nat) (e : Edit) : Option (Except Fault EditAnswer) :=
  r.registries[through]?.map fun g => (r.view g).answer place e

/-- A descriptor of one of the batches. -/
def descriptor? (r : Realm) (place : Nat) (t : TypeHandle) : Option Descriptor :=
  r.batches[place]?.bind (·.find? t)

def Fits (r : Realm) : Turn → Prop
  | .establish => True
  | .move _ m => (r.view default).Fits m

instance (r : Realm) (e : Turn) : Decidable (r.Fits e) := by
  cases e <;> unfold Fits <;> infer_instance

def Step (r r' : Realm) : Prop := ∃ e, r.Fits e ∧ r' = r.after e

def Later : Realm → Realm → Prop := Relation.ReflTransGen Step

/-- What comes about from nothing. -/
def Reachable (r : Realm) : Prop := Later {} r

/-! ### Runs of turns -/

def run (r : Realm) (turns : List Turn) : Realm := turns.foldl after r

/-- Each fits when it is made. -/
def FitsAll (r : Realm) : List Turn → Prop
  | [] => True
  | e :: turns => r.Fits e ∧ (r.after e).FitsAll turns

instance decidableFitsAll : (turns : List Turn) → (r : Realm) → Decidable (r.FitsAll turns)
  | [], _ => isTrue trivial
  | e :: turns, r => @instDecidableAnd _ _ _ (decidableFitsAll turns (r.after e))

/-- Moves through one registry. -/
def throughOne (moves : List Move) : List Turn := .establish :: moves.map (.move 0)

variable {r mid r' : Realm} {g : Registry} {place : Nat}

theorem after_move (h : r.registries[place]? = some g) (m : Move) :
    r.after (.move place m) = r.putWorld place ((r.view g).after m) := by
  simp only [after, h]

theorem answer?_eq_some (h : r.registries[through]? = some g) (place : Nat) (e : Edit) :
    r.answer? through place e = some ((r.view g).answer place e) := by
  rw [answer?, h, Option.map_some]

theorem view_putWorld (r : Realm) (place : Nat) (w : World) :
    (r.putWorld place w).view w.space.registry = w := rfl

theorem descriptor?_putWorld (r : Realm) (through place : Nat) (w : World) (t : TypeHandle) :
    (r.putWorld through w).descriptor? place t = w.descriptor? place t := rfl

/-- A move that does not show in the world through a registry does not show in the realm. -/
theorem after_move_same (h : r.registries[place]? = some g) {m : Move}
    (hsame : (r.view g).after m = r.view g) :
    r.after (.move place m) = r := by
  rw [after_move h, hsame, putWorld]
  show { r with registries := r.registries.setIfInBounds place g } = r
  rw [setIfInBounds_same h]

theorem later_run (turns : List Turn) (h : r.FitsAll turns) : Later r (r.run turns) := by
  induction turns generalizing r with
  | nil => exact .refl
  | cons e turns ih => exact .head ⟨e, h.1, rfl⟩ (ih h.2)

/-! ### Upright realms -/

/-- All that is known of a realm that came about by turns. -/
structure Upright (r : Realm) : Prop where
  wellFormed : r.program.WellFormed
  rightful : r.program.Rightful
  objects : ∀ (i : Nat) (g : Registry), r.registries[i]? = some g →
    g.core.object.index < r.program.types.size
  batches : ∀ (i : Nat) (b : Batch), r.batches[i]? = some b → b.Sound r.program
    ∧ b.Heedful r.program ∧ b.Drafted

/-- What is never taken back, whichever registries are looked through. -/
structure Since (r r' : Realm) : Prop where
  seen : ∀ g g', (r.view g).Since (r'.view g')
  finished : r.program.KeepsFinished r'.program

theorem Since.refl (r : Realm) : Since r r where
  seen := fun _ _ => ⟨Nat.le_refl _, .refl _ _, fun _ b hb =>
    ⟨b, hb, fun _ d hd => ⟨d, hd, .refl d⟩⟩⟩
  finished := .refl _

theorem Since.trans (h : Since r mid) (h' : Since mid r') : Since r r' where
  seen := fun g g' => (h.seen g default).trans (h'.seen default g')
  finished := h.finished.trans h'.finished

theorem Since.agree (h : Since r r') : Universe.Agree r.program.types.size r.program r'.program :=
  (h.seen default default).agree

theorem Upright.view (h : r.Upright) (hg : r.registries[place]? = some g) : (r.view g).Upright where
  sound := ⟨⟨h.wellFormed, h.objects place g hg⟩, fun i b hb => (h.batches i b hb).1⟩
  rightful := h.rightful
  heedful := fun i b hb => (h.batches i b hb).2.1
  drafted := fun i b hb => (h.batches i b hb).2.2

theorem upright_empty : Upright {} where
  wellFormed := Universe.wellFormed_empty
  rightful := fun t hdone => by
    rw [Universe.unfinished_of_le (Nat.zero_le _)] at hdone
    cases hdone
  objects := fun _ _ hg => absurd hg (by simp)
  batches := fun _ _ hb => absurd hb (by simp)

theorem upright_establish (h : r.Upright) :
    Upright (r.after .establish) ∧ Since r (r.after .establish) := by
  have hwidens := TypeSpace.widens_fresh r.program
  have hfresh := TypeSpace.sound_fresh h.wellFormed
  refine ⟨⟨hfresh.wellFormed, h.rightful.widen h.wellFormed hwidens, fun i g hg => ?_,
    fun i b hb => ?_⟩,
    ⟨fun _ _ => ⟨hwidens.size, hwidens.agree, fun _ b hb =>
      ⟨b, hb, fun _ d hd => ⟨d, hd, .refl d⟩⟩⟩, hwidens.keepsFinished⟩⟩
  · rw [after, Array.getElem?_push] at hg
    split at hg
    · cases hg
      exact hfresh.object
    · exact Nat.lt_of_lt_of_le (h.objects i g hg) hwidens.size
  · obtain ⟨hsound, hheedful, hdrafted⟩ := h.batches i b hb
    exact ⟨hsound.grow h.wellFormed hwidens.agree hwidens.size,
      hheedful.grow hsound h.wellFormed hwidens.agree hwidens.size, hdrafted⟩

theorem upright_putWorld (h : r.Upright) (hg : r.registries[place]? = some g) {w : World}
    (hstep : World.Step (r.view g) w) :
    Upright (r.putWorld place w) ∧ Since r (r.putWorld place w) := by
  have hview := h.view hg
  have hafter := hview.step hstep
  have hsince := (World.step_sound hview.sound hstep).2
  refine ⟨⟨hafter.sound.space.wellFormed, hafter.rightful, fun i g' hg' => ?_, fun i b hb => ?_⟩,
    ⟨fun _ _ => ⟨hsince.size, hsince.agree, hsince.batches⟩, (hview.program_step hstep).2⟩⟩
  · rw [putWorld, Array.getElem?_setIfInBounds] at hg'
    split at hg'
    · split at hg'
      · cases hg'
        exact hafter.sound.space.object
      · cases hg'
    · exact Nat.lt_of_lt_of_le (h.objects i g' hg') hsince.size
  · exact ⟨hafter.sound.batches i b hb, hafter.heedful i b hb, hafter.drafted i b hb⟩

/-- A turn keeps the realm upright and takes nothing back. -/
theorem step_upright (h : r.Upright) (hstep : Step r r') : Upright r' ∧ Since r r' := by
  obtain ⟨e, hfits, rfl⟩ := hstep
  cases e with
  | establish => exact upright_establish h
  | move place m =>
    simp only [after]
    cases hg : r.registries[place]? with
    | none => exact ⟨h, .refl r⟩
    | some g => exact upright_putWorld h hg ⟨m, by cases m <;> exact hfits, rfl⟩

theorem Later.upright (hlater : Later r r') (h : r.Upright) : Upright r' ∧ Since r r' := by
  induction hlater with
  | refl => exact ⟨h, .refl r⟩
  | tail _ hstep ih =>
    obtain ⟨hupright, hsince⟩ := step_upright ih.1 hstep
    exact ⟨hupright, ih.2.trans hsince⟩

theorem Reachable.upright (h : Reachable r) : r.Upright := (Later.upright h upright_empty).1

end Realm

end TypeLoom
