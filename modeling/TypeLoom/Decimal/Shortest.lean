import TypeLoom.Decimal.Double

/-!
# Shortest decimal text

The fewest decimal digits that read back as the same double, and among those the nearest to it. Of
the grids of multiples of a power of ten the coarsest is taken that has a point which still rounds
to the double; a tie between two points goes to the larger one. The text is positional, never with
an exponent.
-/

namespace TypeLoom.Decimal

/-! ### The interval of a double -/

/-- A magnitude and the ends of the interval that rounds to it, as multiples of one unit `2 ^
power`. -/
structure Neighbourhood where
  low : Nat
  value : Nat
  high : Nat
  power : Int
  closed : Bool

/-- Halfway to both neighbours; below a power of two the neighbour is twice as near. -/
def neighbourhood (x : Double) : Neighbourhood :=
  let m := x.significand
  let narrow := m = twoTo 52 ∧ x.exponentField > 1
  { low := if narrow then 4 * m - 1 else 4 * m - 2
    value := 4 * m
    high := 4 * m + 2
    power := x.exponent - 2
    closed := m % 2 = 0 }

/-! ### Grids -/

/-- Sizes of a quantity `n · 2 ^ power` and of `10 ^ step` in one common unit. -/
def scales (power step : Int) : Nat × Nat :=
  (twoTo power.toNat * tenTo (-step).toNat, twoTo (-power).toNat * tenTo step.toNat)

/-- The point of the grid of multiples of `10 ^ step` that rounds to the double, if one does. -/
def gridPoint (near : Neighbourhood) (step : Int) : Option Nat :=
  let (unit, gap) := scales near.power step
  let below := near.value * unit / gap
  let inside (point : Nat) : Bool :=
    if near.closed then near.low * unit ≤ point * gap && point * gap ≤ near.high * unit
    else near.low * unit < point * gap && point * gap < near.high * unit
  let lower := below > 0 && inside below
  let upper := inside (below + 1)
  if lower && upper then
    if 2 * (near.value * unit) < (2 * below + 1) * gap then some below else some (below + 1)
  else if lower then some below
  else if upper then some (below + 1)
  else none

/-- The first grid with a point, from coarse to fine. -/
def coarsest (near : Neighbourhood) : Nat → Int → Nat × Int
  | 0, step => (near.value, step)
  | fuel + 1, step =>
    match gridPoint near step with
    | some point => (point, step)
    | none => coarsest near fuel (step - 1)

/-- A power of ten that is larger than any positive double with this significand and exponent. -/
def topStep (x : Double) : Int :=
  ((Nat.log2 x.significand : Int) + 1 + x.exponent) * 30103 / 100000 + 1

/-- Digits and power of ten of the shortest decimal of a positive finite double. -/
def shortest (x : Double) : Nat × Int := coarsest (neighbourhood x) 400 (topStep x)

/-! ### Text -/

def positional (digits : Nat) (step : Int) : String :=
  let text := (Nat.toDigits 10 digits)
  if 0 ≤ step then String.ofList (text ++ List.replicate step.toNat '0')
  else
    let places := (-step).toNat
    let padded := List.replicate (places + 1 - text.length) '0' ++ text
    String.ofList (padded.take (padded.length - places) ++ '.'
      :: padded.drop (padded.length - places))

/-- The text of a double: the shortest digits, `inf` or `NaN`; a minus stands before negative
numbers and the negative zero. -/
def doubleText (x : Double) : String :=
  if x.isNaN then "NaN"
  else
    let sign := if x.isNegative then "-" else ""
    if x.isInfinite then sign ++ "inf"
    else if x.significand = 0 then sign ++ "0"
    else
      let (digits, step) := shortest x
      sign ++ positional digits step

end TypeLoom.Decimal
