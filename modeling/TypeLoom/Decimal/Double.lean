/-!
# Doubles as words

A double is its sixty-four bits. Finite doubles stand for `significand · 2 ^ exponent`; every
non-negative rational has a nearest double, ties going to the even significand.
-/

namespace TypeLoom

def Decimal.twoTo (n : Nat) : Nat := Nat.pow 2 n

def Decimal.tenTo (n : Nat) : Nat := Nat.pow 10 n

open Decimal

/-- A binary64 number, by its bits. -/
structure Double where
  bits : UInt64
  deriving DecidableEq, Repr, Inhabited, Hashable

namespace Double

/-! ### Parts of the word -/

def isNegative (x : Double) : Bool := x.bits >>> 63 == 1

def exponentField (x : Double) : Nat := ((x.bits >>> 52) &&& 0x7FF).toNat

def fraction (x : Double) : Nat := (x.bits &&& 0xFFFFFFFFFFFFF).toNat

def isNaN (x : Double) : Bool := x.exponentField == 0x7FF && x.fraction != 0

def isInfinite (x : Double) : Bool := x.exponentField == 0x7FF && x.fraction == 0

def significand (x : Double) : Nat :=
  if x.exponentField == 0 then x.fraction else x.fraction + twoTo 52

def exponent (x : Double) : Int :=
  if x.exponentField == 0 then -1074 else (x.exponentField : Int) - 1075

/-! ### Values -/

def zero : Double := ⟨0⟩
def infinity : Double := ⟨0x7FF0000000000000⟩
def nan : Double := ⟨0x7FF8000000000000⟩

def negate (x : Double) : Double := ⟨x.bits ^^^ 0x8000000000000000⟩

def roundedQuotient (num den : Nat) : Nat :=
  let quotient := num / den
  let twice := 2 * (num % den)
  if twice < den then quotient
  else if twice = den then quotient + quotient % 2
  else quotient + 1

def scaledQuotient (num den : Nat) (power : Int) : Nat :=
  if power < 0 then roundedQuotient (num * twoTo power.natAbs) den
  else roundedQuotient num (den * twoTo power.natAbs)

/-- The exponent at which the quotient has fifty-three binary digits, unless it is below all
exponents. -/
def exponentFor (num den : Nat) : Int :=
  let guess : Int := (Nat.log2 num : Int) - (Nat.log2 den : Int) - 53
  let fits : Bool :=
    if guess + 53 < 0 then decide (num * twoTo (guess + 53).natAbs < den)
    else decide (num < den * twoTo (guess + 53).natAbs)
  max (-1074) (if fits then guess else guess + 1)

def nearest (num den : Nat) : Double :=
  if num = 0 then zero
  else
    let power := exponentFor num den
    let word := (power + 1074).toNat * twoTo 52 + scaledQuotient num den power
    if word ≥ 0x7FF0000000000000 then infinity else ⟨UInt64.ofNat word⟩

/-! ### Arithmetic -/

def toFloat (x : Double) : Float := Float.ofBits x.bits

def ofFloat (x : Float) : Double := if x.isNaN then nan else ⟨x.toBits⟩

def add (x y : Double) : Double := ofFloat (x.toFloat + y.toFloat)
def subtract (x y : Double) : Double := ofFloat (x.toFloat - y.toFloat)
def multiply (x y : Double) : Double := ofFloat (x.toFloat * y.toFloat)

/-- Equal as numbers: both zeros are equal, and what is no number equals nothing. -/
def sameNumber (x y : Double) : Bool :=
  !x.isNaN && !y.isNaN && (x == y || (x.significand == 0 && y.significand == 0
    && x.exponentField == 0 && y.exponentField == 0))

end Double

end TypeLoom
