import TypeLoom.Datum
import TypeLoom.Session.State

/-!
# Reading references

Scripts refer to types by their full names in the registry that is current, to one of several types
of a name by its place, and to what they have named themselves; signatures and parameters are built
from such references. Reading fails with a fault of the library or because the script is malformed.
-/

namespace TypeLoom.Script

/-- Why a script cannot be read. -/
inductive Trouble
  | fault (fault : Fault)
  | malformed

/-- What references are read in. -/
structure Scope where
  session : Session := {}
  current : RegistryId := ⟨0⟩
  types : Keyed String TypeId := []
  objects : Keyed String ObjectRef := []
  pipelines : Keyed String PipelineId := []
  /-- The type that `self` refers to. -/
  self? : Option TypeId := none

/-- Reading in a scope; the state numbers references to things that do not exist any more. -/
abbrev Reading := ReaderT Scope (StateT Nat (Except Trouble))

namespace Reading

variable {α : Type}

def fail (fault : Fault) : Reading α := throw (.fault fault)

def malformed : Reading α := throw .malformed

def ofExcept : Except Fault α → Reading α
  | .ok value => return value
  | .error fault => fail fault

def need : Option α → Reading α
  | some value => return value
  | none => malformed

def start (act : Reading α) (scope : Scope) (absent : Nat) : Except Trouble (α × Nat) :=
  (act.run scope).run absent

def currentProgram : Reading Universe := do return (← read).session.program

def registry : Reading Registry := do return (← read).session.registry (← read).current

def firstAbsent : Nat := 1000000000

def absentType : Reading TypeId := do
  let n ← get
  set (n + 1)
  return ⟨firstAbsent + n⟩

end Reading

open Reading

/-! ### Parts of data -/

def valueAt (d : Datum) (key : String) : Reading Datum := need (d.field? key)

def textAt (d : Datum) (key : String) : Reading String := do need (← valueAt d key).text?

def natAt (d : Datum) (key : String) : Reading Nat := do need (← valueAt d key).nat?

def wordAt (d : Datum) (key : String) : Reading UInt32 := do return UInt32.ofNat (← natAt d key)

/-! ### Types -/

def splitPlace? (reference : String) : Option (String × Nat) :=
  match (reference.splitOn "@").reverse with
  | last :: front@(_ :: _) =>
    if last.isNat then last.toNat?.map fun place => ("@".intercalate front.reverse, place) else none
  | _ => none

def after? (start text : String) : Option String :=
  if text.startsWith start then some (text.drop start.length).toString else none

def typeNamed (reference : String) : Reading TypeId := do
  let scope ← read
  if reference = "self" then
    if let some t := scope.self? then return t
  if let some name := after? "$" reference then return ← need (scope.types.find? name)
  match splitPlace? reference with
  | some (name, place) =>
    match ((← registry).named name)[place]? with
    | some t => return t
    | none => fail (.typeNotFound name)
  | none => ofExcept ((← registry).requireNamed reference)

def type (d : Datum) : Reading TypeId := do typeNamed (← need d.text?)

def typeAt (d : Datum) (key : String) : Reading TypeId := do type (← valueAt d key)

/-! ### Signatures -/

/-- A keyword, a class, a descriptor, or a class that does not exist any more. -/
def signature (d : Datum) : Reading Signature := do
  let text ← need d.text?
  if text = "!dropped" then return .ofClass (← absentType)
  if let some index := after? "#" text then return .draft ⟨← need index.toNat?⟩
  if let some reference := after? "class:" text then return .ofClass (← typeNamed reference)
  need (Signature.ofKeyword? text)

def signatureAt (d : Datum) (key : String) : Reading Signature := do signature (← valueAt d key)

def signaturesAt (d : Datum) (key : String) : Reading (List Signature) :=
  (d.itemsAt key).mapM signature

def parameter (d : Datum) : Reading Parameter :=
  match d with
  | .list [.text name, s] => do return ⟨name, ← signature s⟩
  | _ => malformed

def methodSignature (d : Datum) : Reading MethodSignature := do
  let returns ← match d.member? "returns" with
    | some s => signature s
    | none => pure .void
  match d.member? "params" with
  | some parameters => return ⟨returns, ← parameters.items.mapM parameter⟩
  | none => return .unnamed returns (← signaturesAt d "types")

end TypeLoom.Script
