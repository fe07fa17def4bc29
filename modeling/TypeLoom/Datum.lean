/-!
# Plain data

Trees of whole numbers, truth values, texts, lists and records. Reports are given in this form, and
scripts are read from it.
-/

namespace TypeLoom

inductive Datum
  | nothing
  | truth (value : Bool)
  | number (value : Int)
  | text (value : String)
  | list (items : List Datum)
  | record (fields : List (String × Datum))
  deriving Repr, Inhabited

namespace Datum

/-! ### Making data -/

def ofNat (n : Nat) : Datum := number n

def texts (items : List String) : Datum := list (items.map text)

def ofOption {α : Type} (f : α → Datum) : Option α → Datum
  | some value => f value
  | none => nothing

/-! ### Taking data apart -/

/-- The value of a key; a key may be missing. -/
def field? (d : Datum) (key : String) : Option Datum :=
  match d with
  | record fields => (fields.find? fun f => f.1 == key).map (·.2)
  | _ => none

def member? (d : Datum) (key : String) : Option Datum :=
  match d.field? key with
  | some nothing => none
  | found => found

def isNothing : Datum → Bool
  | nothing => true
  | _ => false

def items : Datum → List Datum
  | list items => items
  | _ => []

def itemsAt (d : Datum) (key : String) : List Datum :=
  match d.member? key with
  | some found => found.items
  | none => []

def text? : Datum → Option String
  | text value => some value
  | _ => none

def number? : Datum → Option Int
  | number value => some value
  | _ => none

def nat? (d : Datum) : Option Nat := d.number?.map Int.toNat

def textAt? (d : Datum) (key : String) : Option String := (d.member? key).bind text?

def natAt? (d : Datum) (key : String) : Option Nat := (d.member? key).bind nat?

/-- The truth value at a key; a missing one is false. -/
def flag (d : Datum) (key : String) : Bool :=
  match d.member? key with
  | some (truth value) => value
  | _ => false

end Datum

end TypeLoom
