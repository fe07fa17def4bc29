import TypeLoom.Keyed
import TypeLoom.Program.Reference
import TypeLoom.Text.Quoted

/-!
# State of participants

Participants of one assembly share a state: values of different kinds under textual keys. A value is
only found by who asks for its kind.
-/

namespace TypeLoom

inductive StateValue
  | text (value : String)
  | number (value : Int64)
  deriving DecidableEq, Repr, Inhabited

inductive StateKind
  | text
  | number
  deriving DecidableEq, Repr, Inhabited

def StateValue.kind : StateValue → StateKind
  | text _ => .text
  | number _ => .number

structure ParticipantState where
  entries : Keyed String StateValue := []
  deriving Repr, Inhabited

namespace ParticipantState

def get? (s : ParticipantState) (key : String) (kind : StateKind) : Option StateValue :=
  (s.entries.find? key).filter fun value => value.kind == kind

def insert (s : ParticipantState) (key : String) (value : StateValue) : ParticipantState :=
  ⟨s.entries.put key value⟩

def remove (s : ParticipantState) (key : String) (kind : StateKind) :
    Option StateValue × ParticipantState :=
  match s.get? key kind with
  | some value => (some value, ⟨s.entries.erase key⟩)
  | none => (none, s)

def update (s : ParticipantState) (key : String) (kind : StateKind)
    (change : StateValue → StateValue) :
    Option StateValue × ParticipantState :=
  match s.get? key kind with
  | some value => (some (change value), s.insert key (change value))
  | none => (none, s)

/-- The value of the key, which is put there if the key is new; nothing if it is of another kind. -/
def getOrInsert (s : ParticipantState) (key : String) (value : StateValue) :
    Option StateValue × ParticipantState :=
  if s.entries.hasKey key then (s.get? key value.kind, s) else (some value, s.insert key value)

def contains (s : ParticipantState) (key : String) : Bool := s.entries.hasKey key

def size (s : ParticipantState) : Nat := s.entries.length

def keys (s : ParticipantState) : List String := (s.entries.map (·.1)).mergeSort (· ≤ ·)

def text (s : ParticipantState) : String :=
  bracedRecord "ParticipantState"
    [("keys", "[" ++ ", ".intercalate (s.keys.map Text.quoted) ++ "]")]

end ParticipantState

end TypeLoom
