/-!
# Metadata tokens

A token names a row of a metadata table: the table in the top byte, the row in the low three bytes.
Each registry hands out rows of five tables, each from a counter of its own that starts at one.
-/

namespace TypeLoom

/-! ### Tables -/

/-- The tables whose rows get tokens. -/
inductive TokenKind
  | type
  | field
  | method
  | event
  | property
  deriving DecidableEq, Repr, Inhabited

namespace TokenKind

def table : TokenKind → UInt8
  | type => 0x02
  | field => 0x04
  | method => 0x06
  | event => 0x14
  | property => 0x17

def ofTable? : UInt8 → Option TokenKind
  | 0x02 => some type
  | 0x04 => some field
  | 0x06 => some method
  | 0x14 => some event
  | 0x17 => some property
  | _ => none

def text : TokenKind → String
  | type => "Type"
  | field => "Field"
  | method => "Method"
  | event => "Event"
  | property => "Property"

theorem ofTable?_table (kind : TokenKind) : ofTable? kind.table = some kind := by
  cases kind <;> rfl

end TokenKind

/-! ### Tokens -/

/-- A row of a metadata table. -/
structure Token where
  value : UInt32
  deriving DecidableEq, Repr, Inhabited, Hashable

/-- The digits of `value` in base sixteen, `width` of them, high digit first. -/
def hexDigits : Nat → Nat → List Char
  | 0, _ => []
  | width + 1, value => hexDigits width (value / 16) ++ [Nat.digitChar (value % 16)]

def hexText (width value : Nat) : String := String.ofList (hexDigits width value)

namespace Token

/-- The token of a row; rows beyond three bytes start over. -/
def ofParts (kind : TokenKind) (row : UInt32) : Token :=
  ⟨(kind.table.toUInt32 <<< 24) ||| (row &&& 0x00FFFFFF)⟩

def table (token : Token) : UInt8 := (token.value >>> 24).toUInt8

def kind? (token : Token) : Option TokenKind := TokenKind.ofTable? token.table

def row (token : Token) : UInt32 := token.value &&& 0x00FFFFFF

def isNull (token : Token) : Bool := token.value == 0

def text (token : Token) : String := "0x" ++ hexText 8 token.value.toNat

def detail (token : Token) : String :=
  "Token(" ++ token.text ++ ", table: 0x" ++ hexText 2 token.table.toNat ++ ", row: "
    ++ toString token.row.toNat ++ ")"

end Token

/-! ### Counters -/

/-- The next free row of each table. -/
structure TokenCounters where
  types : UInt32 := 1
  fields : UInt32 := 1
  methods : UInt32 := 1
  properties : UInt32 := 1
  events : UInt32 := 1
  deriving DecidableEq, Repr, Inhabited

namespace TokenCounters

def rowOf (counters : TokenCounters) : TokenKind → UInt32
  | .type => counters.types
  | .field => counters.fields
  | .method => counters.methods
  | .property => counters.properties
  | .event => counters.events

def bump (counters : TokenCounters) : TokenKind → TokenCounters
  | .type => { counters with types := counters.types + 1 }
  | .field => { counters with fields := counters.fields + 1 }
  | .method => { counters with methods := counters.methods + 1 }
  | .property => { counters with properties := counters.properties + 1 }
  | .event => { counters with events := counters.events + 1 }

def next (counters : TokenCounters) (kind : TokenKind) : Token × TokenCounters :=
  (.ofParts kind (counters.rowOf kind), counters.bump kind)

theorem rowOf_bump (counters : TokenCounters) (kind other : TokenKind) :
    (counters.bump kind).rowOf other = if kind = other then counters.rowOf other + 1
    else counters.rowOf other := by
  cases kind <;> cases other <;> simp [bump, TokenCounters.rowOf]

end TokenCounters

end TypeLoom
