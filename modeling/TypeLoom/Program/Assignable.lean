import TypeLoom.Program.Display

/-!
# Assignability

Base chains, implemented interfaces, and which values a signature accepts. Types are compared by
token. Chains are followed for at most as many steps as the table has types, which is enough for
every chain without a repetition. Where a type is reached from itself a search without this bound
may not end: `Proofs/Searches` has the searches as relations, and says when they have an answer.
-/

namespace TypeLoom

namespace Universe

/-! ### Base chain -/

/-- The type and its bases, nearest first, at most so many. -/
def chainWithin (u : Universe) : Nat → TypeId → List TypeId
  | 0, _ => []
  | depth + 1, t =>
    t :: match (u.record t).base with
      | some base => u.chainWithin depth base
      | none => []

def hierarchy (u : Universe) (t : TypeId) : List TypeId := u.chainWithin (u.types.size + 1) t

def bases (u : Universe) (t : TypeId) : List TypeId := (u.hierarchy t).tail

def isSubclassOf (u : Universe) (t other : TypeId) : Bool :=
  (u.bases t).any fun base => (u.record base).token == (u.record other).token

/-! ### Interfaces -/

def listsInterfaceWithin (u : Universe) (token : Token) : Nat → TypeId → Bool
  | 0, _ => false
  | depth + 1, t =>
    (u.record t).interfaces.any fun listed =>
      (u.record listed).token == token || u.listsInterfaceWithin token depth listed

/-- The type or one of its bases lists the interface, directly or through other interfaces. -/
def implements (u : Universe) (t other : TypeId) : Bool :=
  (u.hierarchy t).any fun level =>
    u.listsInterfaceWithin (u.record other).token (u.types.size + 1) level

/-- A value of the type can stand where the other type is expected. -/
def isAssignableTo (u : Universe) (t other : TypeId) : Bool :=
  (u.record t).token == (u.record other).token || u.isSubclassOf t other || u.implements t other

theorem isAssignableTo_refl (u : Universe) (t : TypeId) : u.isAssignableTo t t := by
  simp [isAssignableTo]

end Universe

/-! ### Signatures -/

namespace Signature

/-- Whatever the other signature holds, this one holds too. -/
def isAssignableFrom (u : Universe) (target source : Signature) : Bool :=
  target == source ||
    match target, source with
    | object, source => source.isReference
    | ofClass t, ofClass s => u.isPresent t && u.isPresent s && u.isAssignableTo s t
    | _, _ => false

/-- A field or parameter of this signature may hold the value. -/
def accepts (u : Universe) : Signature → Value → Bool
  | void, .void => true
  | boolean, .boolean _ => true
  | i4, .i4 _ => true
  | i8, .i8 _ => true
  | r8, .r8 _ => true
  | string, .string _ => true
  | signature, .null => signature.isReference
  | object, value => value != .void
  | ofClass t, .object reference => u.isPresent t && u.isAssignableTo reference.type t
  | _, _ => false

theorem accepts_defaultValue (u : Universe) (signature : Signature) :
    signature.accepts u signature.defaultValue := by
  cases signature <;> rfl

end Signature

end TypeLoom
