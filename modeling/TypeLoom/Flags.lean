/-!
# Attribute flags

Types, methods and fields carry a word of flags. Bits without a name are kept as they are. The low
three bits hold the visibility of a type and the access of a member.
-/

namespace TypeLoom

def accessMask : UInt32 := 7

/-! ### Access of members -/

/-- Who may use a member. -/
inductive Access
  | compilerControlled
  | isPrivate
  | familyAndAssembly
  | assembly
  | family
  | familyOrAssembly
  | isPublic
  deriving DecidableEq, Repr, Inhabited

namespace Access

def bits : Access → UInt32
  | compilerControlled => 0
  | isPrivate => 1
  | familyAndAssembly => 2
  | assembly => 3
  | family => 4
  | familyOrAssembly => 5
  | isPublic => 6

/-- The access in the low three bits; seven counts as zero. -/
def ofBits (word : UInt32) : Access :=
  match word &&& accessMask with
  | 1 => isPrivate
  | 2 => familyAndAssembly
  | 3 => assembly
  | 4 => family
  | 5 => familyOrAssembly
  | 6 => isPublic
  | _ => compilerControlled

def text : Access → String
  | compilerControlled => "CompilerControlled"
  | isPrivate => "Private"
  | familyAndAssembly => "FamilyAndAssembly"
  | assembly => "Assembly"
  | family => "Family"
  | familyOrAssembly => "FamilyOrAssembly"
  | isPublic => "Public"

def ofText? (name : String) : Option Access :=
  [compilerControlled, isPrivate, familyAndAssembly, assembly, family,
    familyOrAssembly, isPublic].find?
    (·.text == name)

def openToSubclasses : Access → Bool
  | isPublic | family | familyOrAssembly => true
  | _ => false

end Access

def withAccess (word : UInt32) (access : Access) : UInt32 :=
  (word &&& ~~~accessMask) ||| access.bits

def hasBits (word part : UInt32) : Bool := word &&& part == part

def meetsBits (word part : UInt32) : Bool := word &&& part != 0

/-! ### Flags of types -/

namespace TypeFlags

def isPublic : UInt32 := 0x1
def nestedPublic : UInt32 := 0x2
def nestedPrivate : UInt32 := 0x3
def interface : UInt32 := 0x20
def abstract : UInt32 := 0x80
def isSealed : UInt32 := 0x100
def beforeFieldInit : UInt32 := 0x100000

def visibility (word : UInt32) : UInt32 := word &&& accessMask

/-- Public types and nested types that are public or open to subclasses can be seen from outside. -/
def isVisible (word : UInt32) : Bool :=
  visibility word == 1 || visibility word == 2 || visibility word == 4

end TypeFlags

/-! ### Flags of methods -/

namespace MethodFlags

def isPrivate : UInt32 := 0x1
def isPublic : UInt32 := 0x6
def static : UInt32 := 0x10
def final : UInt32 := 0x20
def virtual : UInt32 := 0x40
def hideBySig : UInt32 := 0x80
def newSlot : UInt32 := 0x100
def abstract : UInt32 := 0x400
def specialName : UInt32 := 0x800
def rtSpecialName : UInt32 := 0x1000

end MethodFlags

/-! ### Flags of fields -/

namespace FieldFlags

def isPrivate : UInt32 := 0x1
def isPublic : UInt32 := 0x6
def static : UInt32 := 0x10
def initOnly : UInt32 := 0x20

end FieldFlags

end TypeLoom
