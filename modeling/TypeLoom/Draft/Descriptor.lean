import TypeLoom.Draft.Attribute
import TypeLoom.Keyed

/-!
# Type descriptors

A descriptor describes a type that is to be generated. Its members carry their own handles: the
place of a member in its list never changes. Sealed descriptors can no longer be changed.
-/

namespace TypeLoom

/-! ### Members of descriptors -/

structure DraftField where
  handle : FieldHandle
  name : String
  signature : Signature
  flags : UInt32
  attributes : Array Attribute := #[]
  deriving Repr, Inhabited

structure DraftMethod where
  handle : MethodHandle
  name : String
  kind : MethodKind
  flags : UInt32
  signature : MethodSignature
  body : Option Expr
  /-- The base method that this one overrides. -/
  baseMethod : Option MethodId := none
  /-- Methods that this one implements whatever its name. -/
  explicitOverrides : Array MethodId := #[]
  attributes : Array Attribute := #[]
  deriving Repr, Inhabited

structure DraftProperty where
  handle : PropertyHandle
  name : String
  signature : Signature
  getter : Option MethodHandle
  setter : Option MethodHandle
  deriving Repr, Inhabited

structure DraftEvent where
  handle : EventHandle
  name : String
  type : Signature
  add : MethodHandle
  remove : MethodHandle
  raise : Option MethodHandle
  deriving Repr, Inhabited

namespace DraftField

def isStatic (f : DraftField) : Bool := hasBits f.flags FieldFlags.static

end DraftField

namespace DraftMethod

def isStatic (m : DraftMethod) : Bool := hasBits m.flags MethodFlags.static

def isVirtual (m : DraftMethod) : Bool := hasBits m.flags MethodFlags.virtual

def isAbstract (m : DraftMethod) : Bool := hasBits m.flags MethodFlags.abstract

def isNewSlot (m : DraftMethod) : Bool := hasBits m.flags MethodFlags.newSlot

def access (m : DraftMethod) : Access := .ofBits m.flags

def isPublicVirtual (m : DraftMethod) (name : String) (signature : MethodSignature) : Bool :=
  m.isVirtual && m.access == .isPublic && m.name == name && m.signature.agrees signature

/-- A virtual method that can take over an inherited slot with this name and signature. -/
def takesSlot (m : DraftMethod) (name : String) (signature : MethodSignature) : Bool :=
  m.isVirtual && !m.isNewSlot && m.name == name && m.signature.agrees signature

end DraftMethod

/-! ### Descriptors -/

structure Descriptor where
  handle : TypeHandle
  space : String
  name : String
  flags : UInt32
  base : Option Signature
  declaring : Option TypeHandle := none
  /-- The type for which the descriptor is the proxy. -/
  requested : Option TypeId := none
  interfaces : Array Signature := #[]
  fields : Array DraftField := #[]
  constructors : Array DraftMethod := #[]
  typeInitializer : Option DraftMethod := none
  methods : Array DraftMethod := #[]
  properties : Array DraftProperty := #[]
  events : Array DraftEvent := #[]
  nested : Array TypeHandle := #[]
  attributes : Array Attribute := #[]
  initializations : Array Expr := #[]
  typeInitializations : Array Expr := #[]
  /-- The method that overrides a slot, by the token of the slot's root. -/
  overrides : Keyed Token MethodHandle := []
  /-- The method that implements an interface method, by the token of the latter. -/
  implementations : Keyed Token MethodHandle := []
  /-- The last answer to whether the type is abstract, while it is known to hold. -/
  abstractMemo : Option Bool := none
  modified : Bool := false
  isSealed : Bool := false
  deriving Repr, Inhabited

namespace Descriptor

/-! ### Reading -/

def fullName (d : Descriptor) : String :=
  if d.space.isEmpty then d.name else d.space ++ "." ++ d.name

def isInterface (d : Descriptor) : Bool := hasBits d.flags TypeFlags.interface

def baseType? (u : Universe) (d : Descriptor) : Option TypeId :=
  (d.base.bind Signature.class?).bind u.present?

def interfaceTypes (u : Universe) (d : Descriptor) : List TypeId :=
  d.interfaces.toList.filterMap fun s => s.class?.bind u.present?

def interfaceDrafts (d : Descriptor) : List TypeHandle :=
  d.interfaces.toList.filterMap Signature.draft?

def field? (d : Descriptor) (h : FieldHandle) : Option DraftField :=
  if h.owner = d.handle then d.fields[h.index]? else none

def method? (d : Descriptor) (h : MethodHandle) : Option DraftMethod :=
  if h.owner = d.handle then
    match h.slot with
    | .method index => d.methods[index]?
    | .constructor index => d.constructors[index]?
    | .typeInitializer => d.typeInitializer
  else none

def property? (d : Descriptor) (h : PropertyHandle) : Option DraftProperty :=
  if h.owner = d.handle then d.properties[h.index]? else none

def event? (d : Descriptor) (h : EventHandle) : Option DraftEvent :=
  if h.owner = d.handle then d.events[h.index]? else none

def methodNamed? (d : Descriptor) (name : String) : Option DraftMethod :=
  d.methods.find? fun m => m.name == name

def fieldNamed? (d : Descriptor) (name : String) : Option DraftField :=
  d.fields.find? fun f => f.name == name

def implementsInterface (u : Universe) (d : Descriptor) (interface : TypeId) : Bool :=
  ((d.interfaceTypes u).any fun listed =>
    (u.record listed).token == (u.record interface).token || u.implements listed interface)
  || (d.baseType? u).any fun base => u.implements base interface

def nextMethod (d : Descriptor) : MethodHandle := ⟨d.handle, .method d.methods.size⟩

def nextConstructor (d : Descriptor) : MethodHandle := ⟨d.handle, .constructor d.constructors.size⟩

/-! ### Changing -/

/-- The descriptor was changed, and what was known of it may no longer hold. -/
def touch (d : Descriptor) : Descriptor := { d with modified := true, abstractMemo := none }

def close (d : Descriptor) : Descriptor := { d with isSealed := true }

def modifyMethod (d : Descriptor) (slot : Slot) (change : DraftMethod → DraftMethod) : Descriptor :=
  match slot with
  | .method index => { d with methods := d.methods.modify index change }
  | .constructor index => { d with constructors := d.constructors.modify index change }
  | .typeInitializer => { d with typeInitializer := d.typeInitializer.map change }

def duplicate (d : Descriptor) (kind name : String) : Fault := .duplicateMember kind name d.fullName

def ensureMutable : Attempt Descriptor Unit := do
  let d ← get
  if d.isSealed then throw (.descriptorSealed d.fullName)

/-! ### Proxies -/

/-- The access that a subclass gives to a member it takes over; none if it cannot see the member. -/
def inheritedAccess? : Access → Option Access
  | .familyOrAssembly => some .family
  | access => if access.openToSubclasses then some access else none

/-- The constructor of a proxy that hands its arguments to a constructor of the base. -/
def forwardingConstructor (u : Universe) (handle : MethodHandle) (c : MethodId) (access : Access) :
    DraftMethod :=
  { handle
    name := ".ctor"
    kind := .constructor
    flags := withAccess (MethodFlags.hideBySig ||| MethodFlags.specialName |||
      MethodFlags.rtSpecialName)
      access
    signature := (u.method c).signature
    body := some (.callBase .this (.member c) (Expr.forwardArguments (u.method c).signature.arity))
      }

/-- One more constructor of a proxy, if a subclass can call the one it forwards to. -/
def addForwarding (u : Universe) (handle : TypeHandle) (made : Array DraftMethod) (c : MethodId) :
    Array DraftMethod :=
  match inheritedAccess? (u.method c).access with
  | some access => made.push (forwardingConstructor u ⟨handle, .constructor made.size⟩ c access)
  | none => made

def forwardingConstructors (u : Universe) (handle : TypeHandle) (requested : TypeId) :
    Array DraftMethod :=
  (u.constructorsOf requested).foldl (addForwarding u handle) #[]

def proxy (u : Universe) (handle : TypeHandle) (requested : TypeId) (name : String) : Descriptor :=
  { handle
    space := (u.record requested).space
    name
    flags := TypeFlags.isPublic ||| TypeFlags.beforeFieldInit
    base := some (.ofClass requested)
    requested := some requested
    constructors := forwardingConstructors u handle requested }

end Descriptor

end TypeLoom
