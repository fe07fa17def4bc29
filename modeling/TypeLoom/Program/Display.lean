import TypeLoom.Decimal.Shortest
import TypeLoom.Program.Universe

/-!
# Text of program entities

How signatures, values, identifiers and members read in answers, faults and artifacts. A name of a
type that is gone is replaced by a mark.
-/

namespace TypeLoom

/-! ### Signatures -/

namespace Signature

def keyword : Signature → String
  | void => "void"
  | boolean => "bool"
  | i4 => "int32"
  | i8 => "int64"
  | r8 => "float64"
  | string => "string"
  | object => "object"
  | ofClass _ => "class"
  | draft _ => "descriptor"

def ofKeyword? (word : String) : Option Signature :=
  [void, boolean, i4, i8, r8, string, object].find? (·.keyword == word)

def display (u : Universe) : Signature → String
  | ofClass t => if u.isPresent t then u.fullName t else "<dropped type>"
  | draft h => "<descriptor " ++ toString h.index ++ ">"
  | plain => plain.keyword

/-- What a table of signatures files the signature under: equal signatures have equal keys. -/
inductive Key
  | keyword (word : String)
  | token (token : Option Token)
  | draft (index : Nat)
  deriving DecidableEq

def key (u : Universe) : Signature → Key
  | ofClass t => .token ((u.present? t).map fun t => (u.record t).token)
  | draft h => .draft h.index
  | plain => .keyword plain.keyword

end Signature

def displaySignatures (u : Universe) (signatures : List Signature) : String :=
  ", ".intercalate (signatures.map (·.display u))

def MethodSignature.display (u : Universe) (s : MethodSignature) : String :=
  s.returns.display u ++ " (" ++ displaySignatures u s.types ++ ")"

/-! ### Identifiers and values -/

def displayPart? : Option Part → String
  | some part => part.display
  | none => "<none>"

def Identifier.display (u : Universe) (id : Identifier) : String :=
  u.fullName id.requested ++ "[" ++ ", ".intercalate (id.parts.map displayPart?) ++ "]"

def Identifier.detail (u : Universe) (id : Identifier) : String :=
  "AssembledTypeId(" ++ id.display u ++ ")"

def boolText (b : Bool) : String := if b then "true" else "false"

namespace Value

def display (u : Universe) : Value → String
  | void | null => ""
  | boolean value => boolText value
  | i4 value => toString value.toInt
  | i8 value => toString value.toInt
  | r8 value => Decimal.doubleText value
  | string value => value
  | object reference => u.fullName reference.type
  | type t => u.fullName t
  | identifier id => id.display u

def detail (u : Universe) : Value → String
  | void => "Void"
  | null => "Null"
  | boolean value => "Boolean(" ++ boolText value ++ ")"
  | i4 value => "I4(" ++ toString value.toInt ++ ")"
  | i8 value => "I8(" ++ toString value.toInt ++ ")"
  | r8 value => "R8(" ++ Decimal.doubleText value ++ ")"
  | string value => "String(" ++ Text.quoted value ++ ")"
  | object reference => "Object(" ++ u.fullName reference.type ++ ")"
  | type t => "Type(" ++ u.fullName t ++ ")"
  | identifier id => "Identifier(" ++ id.display u ++ ")"

/-- Equality as programs see it: doubles as numbers, types by their tokens. -/
def same (u : Universe) : Value → Value → Bool
  | r8 a, r8 b => a.sameNumber b
  | type a, type b => (u.record a).token == (u.record b).token
  | a, b => a == b

end Value

/-! ### Members -/

namespace Universe

def typeText (u : Universe) (t : TypeId) : String := u.fullName t ++ " " ++ (u.record t).token.text

def fieldText (u : Universe) (f : FieldId) : String :=
  (u.field f).signature.display u ++ " " ++ (u.field f).name ++ " ("
    ++ (u.field f).token.text ++ ")"

def methodText (u : Universe) (m : MethodId) : String :=
  u.methodName m ++ " " ++ (u.method m).signature.display u ++ " ("
    ++ (u.method m).token.text ++ ")"

end Universe

namespace MethodTarget

/-- The method, unless its type is gone or it is a descriptor's. -/
def present? (u : Universe) : MethodTarget → Option MethodId
  | member m => (u.methodOwner? m).map fun _ => m
  | draft _ => none

def display (u : Universe) : MethodTarget → String
  | member m => if u.isPresent m.owner then u.methodName m else "<dropped method>"
  | draft h => h.text

end MethodTarget

namespace FieldTarget

/-- The field, unless its type is gone or it is a descriptor's. -/
def present? (u : Universe) : FieldTarget → Option FieldId
  | member f => (u.fieldOwner? f).map fun _ => f
  | draft _ => none

def display (u : Universe) : FieldTarget → String
  | member f => if u.isPresent f.owner then (u.field f).name else "<dropped field>"
  | draft h => h.text

end FieldTarget

end TypeLoom
