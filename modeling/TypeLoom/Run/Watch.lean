import TypeLoom.Run.Heap

/-!
# Onlookers

An evaluation tells an onlooker what happens in it, as it happens. The onlooker takes notes and has
no part in what happens.
-/

namespace TypeLoom

/-- What an onlooker is told: an initialization starts and ends well or badly, the body of a
method starts and ends, a static field of a type is read or written, an object of a type is made. -/
inductive Occurrence
  | starts (type : TypeId)
  | finishes (type : TypeId)
  | fails (type : TypeId)
  | enters (method : MethodId)
  | leaves (method : MethodId)
  | reads (type : TypeId) (field : FieldId)
  | writes (type : TypeId) (field : FieldId)
  | creates (type : TypeId)
  deriving DecidableEq, Repr, Inhabited

def Occurrence.ofBody : Occurrence → Bool
  | enters _ | leaves _ => true
  | _ => false

/-- A heap, and the notes that the onlooker has taken. -/
structure Watched (ω : Type) where
  heap : Heap
  notes : ω

abbrev Evaluation (α : Type) := Attempt Heap α

abbrev Watching (ω α : Type) := Attempt (Watched ω) α

namespace Watching

variable {ω α : Type}

def heap : Watching ω Heap := return (← get).heap

def change (f : Heap → Heap) : Watching ω Unit := modify fun s => { s with heap := f s.heap }

def note (watch : Occurrence → ω → ω) (o : Occurrence) : Watching ω Unit :=
  modify fun s => { s with notes := watch o s.notes }

/-- The onlooker is told when the body of a method starts and when it ends, however it ends. -/
def body (watch : Occurrence → ω → ω) (m : MethodId) (act : Watching ω α) : Watching ω α := do
  note watch (.enters m)
  let result ← Attempt.outcome act
  note watch (.leaves m)
  Attempt.lift result

def unwatched (act : Watching Unit α) : Evaluation α :=
  act.within (fun heap => ⟨heap, ()⟩) fun s _ => s.heap

end Watching

end TypeLoom
