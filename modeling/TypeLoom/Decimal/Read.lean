import TypeLoom.Decimal.Double

/-!
# Reading numbers

Whole numbers are decimal digits after an optional sign. Doubles may have a point, a power of ten
after `e`, or be one of the words `inf`, `infinity` and `nan` in any case. No blanks are allowed.
-/

namespace TypeLoom.Decimal

/-! ### Digits -/

def digit? (c : Char) : Option Nat :=
  if '0' ≤ c ∧ c ≤ '9' then some (c.toNat - '0'.toNat) else none

/-- The value of a list of digits; none for an empty list or another character. -/
def digits? : List Char → Option Nat
  | [] => none
  | c :: cs => (c :: cs).foldl (fun total c => do return 10 * (← total) + (← digit? c)) (some 0)

/-! ### Whole numbers -/

/-- A whole number without a sign, or after a plus. -/
def natural? : List Char → Option Nat
  | '+' :: cs => digits? cs
  | cs => digits? cs

def integer? : List Char → Option Int
  | '-' :: cs => (digits? cs).map fun n => -(n : Int)
  | cs => (natural? cs).map fun n => (n : Int)

def boundedNatural? (bound : Nat) (text : String) : Option Nat :=
  (natural? text.toList).filter (· < bound)

def boundedInteger? (bits : Nat) (text : String) : Option Int :=
  (integer? text.toList).filter fun n => decide (-(twoTo (bits - 1) : Int) ≤ n
    ∧ n < twoTo (bits - 1))

def boolean? (text : String) : Option Bool :=
  if text = "true" then some true else if text = "false" then some false else none

/-! ### Doubles -/

def lowerAscii (c : Char) : Char := c.toLower

/-- The double nearest to `digits · 10 ^ power`. Powers that are out of reach are not computed. -/
def nearestDecimal (digits : Nat) (length : Nat) (power : Int) : Double :=
  if digits = 0 then .zero
  else if power + length > 400 then .infinity
  else if power + length < -400 then .zero
  else .nearest (digits * tenTo power.toNat) (tenTo (-power).toNat)

/-- The power of ten after the digits: nothing, or `e` and a whole number with an optional sign. -/
def tenPower? : List Char → Option Int
  | [] => some 0
  | c :: cs =>
    if c = 'e' ∨ c = 'E' then
      match cs with
      | '-' :: ds => (digits? ds).map fun n => -(n : Int)
      | '+' :: ds => (digits? ds).map fun n => (n : Int)
      | ds => (digits? ds).map fun n => (n : Int)
    else none

def decimalDouble? (cs : List Char) : Option Double := do
  let isDigit (c : Char) : Bool := (digit? c).isSome
  let whole := cs.takeWhile isDigit
  let rest := cs.dropWhile isDigit
  let (part, rest) := match rest with
    | '.' :: more => (more.takeWhile isDigit, more.dropWhile isDigit)
    | more => ([], more)
  let digits ← digits? (whole ++ part)
  let power ← tenPower? rest
  return nearestDecimal digits (whole ++ part).length (power - part.length)

def magnitude? (cs : List Char) : Option Double :=
  let word := String.ofList (cs.map lowerAscii)
  if word = "inf" ∨ word = "infinity" then some .infinity
  else if word = "nan" then some .nan
  else decimalDouble? cs

def double? (text : String) : Option Double :=
  match text.toList with
  | '-' :: cs => (magnitude? cs).map Double.negate
  | '+' :: cs => magnitude? cs
  | cs => magnitude? cs

end TypeLoom.Decimal
