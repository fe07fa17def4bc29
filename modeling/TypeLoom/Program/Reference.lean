/-!
# References

Types of a program are numbered; a member is known by the type that declares it and its place there.
Descriptors of a batch, which do not exist as types yet, have handles of the same shape.
-/

namespace TypeLoom

/-! ### Types and members of a program -/

structure TypeId where
  index : Nat
  deriving DecidableEq, Repr, Inhabited, Hashable

/-- The place of a method in its type. -/
inductive Slot
  | method (index : Nat)
  | constructor (index : Nat)
  | typeInitializer
  deriving DecidableEq, Repr, Inhabited, Hashable

structure MethodId where
  owner : TypeId
  slot : Slot
  deriving DecidableEq, Repr, Inhabited, Hashable

structure FieldId where
  owner : TypeId
  index : Nat
  deriving DecidableEq, Repr, Inhabited, Hashable

structure PropertyId where
  owner : TypeId
  index : Nat
  deriving DecidableEq, Repr, Inhabited, Hashable

structure EventId where
  owner : TypeId
  index : Nat
  deriving DecidableEq, Repr, Inhabited, Hashable

/-! ### Descriptors of a batch -/

structure TypeHandle where
  index : Nat
  deriving DecidableEq, Repr, Inhabited, Hashable

structure MethodHandle where
  owner : TypeHandle
  slot : Slot
  deriving DecidableEq, Repr, Inhabited, Hashable

structure FieldHandle where
  owner : TypeHandle
  index : Nat
  deriving DecidableEq, Repr, Inhabited, Hashable

structure PropertyHandle where
  owner : TypeHandle
  index : Nat
  deriving DecidableEq, Repr, Inhabited, Hashable

structure EventHandle where
  owner : TypeHandle
  index : Nat
  deriving DecidableEq, Repr, Inhabited, Hashable

/-! ### Text of handles -/

def Slot.text : Slot → String
  | method index => "Method(" ++ toString index ++ ")"
  | constructor index => "Constructor(" ++ toString index ++ ")"
  | typeInitializer => "TypeInitializer"

def TypeHandle.text (h : TypeHandle) : String := "TypeHandle(" ++ toString h.index ++ ")"

def bracedRecord (name : String) (fields : List (String × String)) : String :=
  name ++ " \x7b " ++ ", ".intercalate (fields.map fun field => field.1 ++ ": " ++ field.2)
    ++ " \x7d"

def MethodHandle.text (h : MethodHandle) : String :=
  bracedRecord "MethodHandle" [("owner", h.owner.text), ("slot", h.slot.text)]

def FieldHandle.text (h : FieldHandle) : String :=
  bracedRecord "FieldHandle" [("owner", h.owner.text), ("index", toString h.index)]

def PropertyHandle.text (h : PropertyHandle) : String :=
  bracedRecord "PropertyHandle" [("owner", h.owner.text), ("index", toString h.index)]

def EventHandle.text (h : EventHandle) : String :=
  bracedRecord "EventHandle" [("owner", h.owner.text), ("index", toString h.index)]

end TypeLoom
