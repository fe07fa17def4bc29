/-!
# Escapes in attribute values

Five characters are written as entities. When a value is read, entities and numeric references stand
for characters again; an unknown entity, a lone ampersand and a reference to no character are
refused.
-/

namespace TypeLoom.Markup

/-! ### Writing -/

def escapeChar : Char → List Char
  | '&' => "&amp;".toList
  | '<' => "&lt;".toList
  | '>' => "&gt;".toList
  | '"' => "&quot;".toList
  | '\'' => "&apos;".toList
  | c => [c]

def escape (value : List Char) : List Char := value.flatMap escapeChar

/-! ### Reading -/

def radixDigit? (c : Char) : Option Nat :=
  if '0' ≤ c ∧ c ≤ '9' then some (c.toNat - '0'.toNat)
  else if 'a' ≤ c ∧ c ≤ 'f' then some (c.toNat - 'a'.toNat + 10)
  else if 'A' ≤ c ∧ c ≤ 'F' then some (c.toNat - 'A'.toNat + 10)
  else none

/-- The value of a list of digits in a base; none for an empty list or another character. -/
def radixNumber? (base : Nat) : List Char → Option Nat
  | [] => none
  | cs => cs.foldl (fun total c => do
      let digit ← radixDigit? c
      if digit < base then return base * (← total) + digit else none) (some 0)

/-- The character with this code point; the null character and surrogates are refused. -/
def charOfCode? (code : Nat) : Option Char :=
  if code ≠ 0 ∧ code.isValidChar then some (Char.ofNat code) else none

/-- The characters that a reference stands for, given what is between the ampersand and the
semicolon. -/
def reference? : List Char → Option Char
  | '#' :: 'x' :: digits => (radixNumber? 16 digits).bind charOfCode?
  | '#' :: digits => (radixNumber? 10 digits).bind charOfCode?
  | name =>
    if name = "lt".toList then some '<'
    else if name = "gt".toList then some '>'
    else if name = "amp".toList then some '&'
    else if name = "apos".toList then some '\''
    else if name = "quot".toList then some '"'
    else none

/-- Reads a value, with at most so many references. -/
def unescapeWithin : Nat → List Char → Option (List Char)
  | 0, cs => if cs.contains '&' then none else some cs
  | fuel + 1, cs =>
    let plain := cs.takeWhile (· != '&')
    match cs.dropWhile (· != '&') with
    | [] => some plain
    | _ :: rest =>
      let name := rest.takeWhile fun c => c != '&' && c != ';'
      match rest.dropWhile fun c => c != '&' && c != ';' with
      | ';' :: rest => do
        let c ← reference? name
        return plain ++ c :: (← unescapeWithin fuel rest)
      | _ => none

def unescape? (cs : List Char) : Option (List Char) := unescapeWithin cs.length cs

end TypeLoom.Markup
