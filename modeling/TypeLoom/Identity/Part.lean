import TypeLoom.Text.Quoted

/-!
# Parts of identifiers

One participant's share of a type identifier: a truth value, a whole number, a text or a list of
parts. Parts are ordered by kind first, lists from left to right.
-/

namespace TypeLoom

inductive Part
  | bool (value : Bool)
  | int (value : Int64)
  | text (value : String)
  | list (items : List Part)
  deriving Repr, Inhabited

namespace Part

/-! ### Equality -/

mutual

def decideEq : (a b : Part) → Decidable (a = b)
  | bool a, bool b => if h : a = b then isTrue (by rw [h]) else isFalse (by simp [h])
  | bool _, int _ => isFalse nofun
  | bool _, text _ => isFalse nofun
  | bool _, list _ => isFalse nofun
  | int _, bool _ => isFalse nofun
  | int a, int b => if h : a = b then isTrue (by rw [h]) else isFalse (by simp [h])
  | int _, text _ => isFalse nofun
  | int _, list _ => isFalse nofun
  | text _, bool _ => isFalse nofun
  | text _, int _ => isFalse nofun
  | text a, text b => if h : a = b then isTrue (by rw [h]) else isFalse (by simp [h])
  | text _, list _ => isFalse nofun
  | list _, bool _ => isFalse nofun
  | list _, int _ => isFalse nofun
  | list _, text _ => isFalse nofun
  | list as, list bs =>
    match decideEqAll as bs with
    | isTrue h => isTrue (by rw [h])
    | isFalse h => isFalse (by simp [h])

def decideEqAll : (as bs : List Part) → Decidable (as = bs)
  | [], [] => isTrue rfl
  | [], _ :: _ => isFalse nofun
  | _ :: _, [] => isFalse nofun
  | a :: as, b :: bs =>
    match decideEq a b, decideEqAll as bs with
    | isTrue h, isTrue hs => isTrue (by rw [h, hs])
    | isFalse h, _ => isFalse (by simp [h])
    | _, isFalse hs => isFalse (by simp [hs])

end

instance : DecidableEq Part := decideEq

/-! ### Order -/

def rank : Part → Nat
  | bool _ => 0
  | int _ => 1
  | text _ => 2
  | list _ => 3

mutual

/-- Kinds first, then the values; texts by code points. -/
def order : Part → Part → Ordering
  | bool a, bool b => compare a b
  | int a, int b => compare a b
  | text a, text b => compare a b
  | list as, list bs => orderAll as bs
  | a, b => compare a.rank b.rank

/-- From left to right; a list comes before its extensions. -/
def orderAll : List Part → List Part → Ordering
  | [], [] => .eq
  | [], _ :: _ => .lt
  | _ :: _, [] => .gt
  | a :: as, b :: bs =>
    match order a b with
    | .eq => orderAll as bs
    | other => other

end

/-! ### Text -/

mutual

/-- Texts are quoted, lists stand in brackets. -/
def display : Part → String
  | bool value => if value then "true" else "false"
  | int value => toString value.toInt
  | text value => Text.quoted value
  | list items => "[" ++ ", ".intercalate (displayAll items) ++ "]"

def displayAll : List Part → List String
  | [] => []
  | item :: items => display item :: displayAll items

end

def text? : Part → Option String
  | text value => some value
  | _ => none

end Part

end TypeLoom
