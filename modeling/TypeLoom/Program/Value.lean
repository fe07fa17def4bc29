import TypeLoom.Identity.Part
import TypeLoom.Decimal.Double
import TypeLoom.Program.Reference

/-!
# Signatures and values

A signature says what a field, parameter or result may hold; a value is what an expression yields. A
class signature names a type that may be gone by the time it is asked for.
-/

namespace TypeLoom

/-! ### Signatures -/

inductive Signature
  | void
  | boolean
  | i4
  | i8
  | r8
  | string
  | object
  | ofClass (type : TypeId)
  | draft (handle : TypeHandle)
  deriving DecidableEq, Repr, Inhabited

namespace Signature

def isVoid : Signature → Bool
  | void => true
  | _ => false

/-- Signatures whose values may be null. -/
def isReference : Signature → Bool
  | string | object | ofClass _ | draft _ => true
  | _ => false

def draft? : Signature → Option TypeHandle
  | draft handle => some handle
  | _ => none

def class? : Signature → Option TypeId
  | ofClass type => some type
  | _ => none

end Signature

structure Parameter where
  name : String
  type : Signature
  deriving DecidableEq, Repr, Inhabited

structure MethodSignature where
  returns : Signature := .void
  parameters : List Parameter := []
  deriving DecidableEq, Repr, Inhabited

namespace MethodSignature

/-- Parameters without names of their own are called after their places. -/
def unnamed (returns : Signature) (types : List Signature) : MethodSignature :=
  ⟨returns, types.mapIdx fun index type => ⟨"arg" ++ toString index, type⟩⟩

def types (signature : MethodSignature) : List Signature := signature.parameters.map (·.type)

def arity (signature : MethodSignature) : Nat := signature.parameters.length

def sameParameters (a b : MethodSignature) : Bool := a.types == b.types

def agrees (a b : MethodSignature) : Bool := a.returns == b.returns && a.sameParameters b

theorem arity_eq_length_types (signature : MethodSignature) :
    signature.arity = signature.types.length := by
  simp [arity, types]

theorem sameParameters_iff (a b : MethodSignature) : a.sameParameters b ↔ a.types = b.types := by
  simp [sameParameters]

end MethodSignature

/-! ### Values -/

/-- A type identifier: the requested type and each participant's part. -/
structure Identifier where
  requested : TypeId
  parts : List (Option Part)
  deriving DecidableEq, Repr, Inhabited

def Identifier.part? (id : Identifier) (index : Nat) : Option Part := (id.parts[index]?).join

/-- An object of the heap. Its type never changes, so the reference carries it. -/
structure ObjectRef where
  index : Nat
  type : TypeId
  deriving DecidableEq, Repr, Inhabited

inductive Value
  | void
  | null
  | boolean (value : Bool)
  | i4 (value : Int32)
  | i8 (value : Int64)
  | r8 (value : Double)
  | string (value : String)
  | object (reference : ObjectRef)
  | type (type : TypeId)
  | identifier (id : Identifier)
  deriving DecidableEq, Repr, Inhabited

namespace Value

def string? : Value → Option String
  | string value => some value
  | _ => none

def i4? : Value → Option Int32
  | i4 value => some value
  | _ => none

def boolean? : Value → Option Bool
  | boolean value => some value
  | _ => none

def object? : Value → Option ObjectRef
  | object reference => some reference
  | _ => none

def type? : Value → Option TypeId
  | type t => some t
  | _ => none

def identifier? : Value → Option Identifier
  | identifier id => some id
  | _ => none

end Value

def Signature.defaultValue : Signature → Value
  | void => .void
  | boolean => .boolean false
  | i4 => .i4 0
  | i8 => .i8 0
  | r8 => .r8 .zero
  | _ => .null

def Value.signature : Value → Signature
  | boolean _ => .boolean
  | i4 _ => .i4
  | i8 _ => .i8
  | r8 _ => .r8
  | string _ => .string
  | object reference => .ofClass reference.type
  | void | null | type _ | identifier _ => .object

end TypeLoom
