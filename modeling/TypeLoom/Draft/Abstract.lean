import TypeLoom.Draft.Override

/-!
# Abstractness

A class is abstract when it says so, or when some method it declares, inherits or owes to an
interface has no body. The answer is remembered until the descriptor is touched.

The interfaces are looked through with a bound on the depth. The bound is enough where no interface
is reached from itself, and there alone the question is sure to have an answer:
`Proofs/AbstractSearches`.
-/

namespace TypeLoom

/-- The interface and all that it lists, directly or through others, down to a depth. -/
def Universe.interfaceClosureWithin (u : Universe) : Nat → TypeId → List TypeId
  | 0, _ => []
  | depth + 1, t => t :: (u.record t).interfaces.toList.flatMap (u.interfaceClosureWithin depth)

/-- The interface and all that it lists, directly or through others, if none of them is reached
from itself. -/
def Universe.interfaceClosure (u : Universe) (t : TypeId) : List TypeId :=
  u.interfaceClosureWithin (u.types.size + 1) t

namespace Descriptor

def overridesSlot (u : Universe) (d : Descriptor) (m : MethodId) : Bool :=
  d.overrides.hasKey (u.slotToken m)
    || d.methods.any fun own => own.takesSlot (u.method m).name (u.method m).signature

def hasPublicVirtual (d : Descriptor) (name : String) (signature : MethodSignature) : Bool :=
  d.methods.any fun own => own.isPublicVirtual name signature

def implementsMethod (u : Universe) (d : Descriptor) (m : MethodId) : Bool :=
  d.implementations.hasKey (u.method m).token
    || d.hasPublicVirtual (u.method m).name (u.method m).signature
    || ((d.baseType? u).bind fun base => u.resolveInterfaceMethod base m).any fun found =>
      !(u.method found).isAbstract

def inheritsAbstract (u : Universe) (d : Descriptor) : Bool :=
  (d.baseType? u).any fun base =>
    (u.hierarchy base).any fun level =>
      (u.methodsOf level).any fun m =>
        (u.method m).isAbstract && (u.method (u.resolveVirtual base m)).isAbstract &&
          !d.overridesSlot u m

/-- Some instance method of a listed interface, or of one that it lists, has no implementation. -/
def owesInterface (u : Universe) (d : Descriptor) : Bool :=
  (d.interfaceTypes u).any fun listed =>
    (u.interfaceClosure listed).any fun interface =>
      (u.methodsOf interface).any fun m => !(u.method m).isStatic && !d.implementsMethod u m

def computeAbstract (u : Universe) (d : Descriptor) : Bool :=
  d.isInterface || hasBits d.flags TypeFlags.abstract || d.methods.any DraftMethod.isAbstract
    || d.inheritsAbstract u || d.owesInterface u

/-- Whether the type is abstract: the remembered answer, or the present one, which is remembered. -/
def askAbstract (u : Universe) (d : Descriptor) : Bool × Descriptor :=
  match d.abstractMemo with
  | some answer => (answer, d)
  | none => (d.computeAbstract u, { d with abstractMemo := some (d.computeAbstract u) })

theorem askAbstract_again (u : Universe) (d : Descriptor) :
    ((d.askAbstract u).2.askAbstract u).1 = (d.askAbstract u).1 := by
  unfold askAbstract
  cases h : d.abstractMemo <;> simp [h]

end Descriptor

end TypeLoom
