import TypeLoom.Build.Member

/-!
# Classes from descriptions

A description lists what a class has; building it makes the type with all members, gives the methods
their bodies and lists the type. A description that cannot be built leaves no type behind.
-/

namespace TypeLoom

/-! ### Descriptions of methods -/

/-- Where the body of a method comes from. A deferred body is made when the type and its members
exist. -/
inductive BodySource
  | missing
  | fixed (body : Expr)
  | deferred (make : Universe → TypeId → Except Fault Expr)

structure MethodSpec where
  flags : UInt32 := MethodFlags.isPublic ||| MethodFlags.hideBySig
  returns : Signature := .void
  parameters : List Parameter := []
  body : BodySource := .missing

namespace MethodSpec

def access (s : MethodSpec) (access : Access) : MethodSpec :=
  { s with flags := withAccess s.flags access }

def virtual (s : MethodSpec) : MethodSpec :=
  { s with flags := s.flags ||| MethodFlags.virtual ||| MethodFlags.newSlot }

def overrides (s : MethodSpec) : MethodSpec :=
  { s with flags := (s.flags ||| MethodFlags.virtual) &&& ~~~MethodFlags.newSlot }

def abstract (s : MethodSpec) : MethodSpec :=
  { s with
    flags := s.flags ||| MethodFlags.abstract ||| MethodFlags.virtual ||| MethodFlags.newSlot }

def final (s : MethodSpec) : MethodSpec := { s with flags := s.flags ||| MethodFlags.final }

def static (s : MethodSpec) : MethodSpec := { s with flags := s.flags ||| MethodFlags.static }

def returning (s : MethodSpec) (returns : Signature) : MethodSpec := { s with returns }

def parameter (s : MethodSpec) (name : String) (type : Signature) : MethodSpec :=
  { s with parameters := s.parameters ++ [⟨name, type⟩] }

def withBody (s : MethodSpec) (body : BodySource) : MethodSpec := { s with body }

def signature (s : MethodSpec) : MethodSignature := ⟨s.returns, s.parameters⟩

end MethodSpec

/-! ### Descriptions of classes -/

structure FieldSpec where
  name : String
  signature : Signature
  flags : UInt32

structure NamedMethodSpec where
  name : String
  isConstructor : Bool
  spec : MethodSpec

structure ClassSpec where
  space : String
  name : String
  flags : UInt32 := 0
  base : Option TypeId := none
  declaring : Option TypeId := none
  interfaces : List TypeId := []
  fields : List FieldSpec := []
  methods : List NamedMethodSpec := []
  typeInitializer : Option (Universe → TypeId → Except Fault Expr) := none
  properties : List (String × Signature) := []
  attributes : List Attribute := []

namespace ClassSpec

def isPublic (s : ClassSpec) : ClassSpec :=
  let visibility := if s.declaring.isSome then TypeFlags.nestedPublic else TypeFlags.isPublic
  { s with flags := (s.flags &&& ~~~accessMask) ||| visibility }

def isSealed (s : ClassSpec) : ClassSpec := { s with flags := s.flags ||| TypeFlags.isSealed }

def abstract (s : ClassSpec) : ClassSpec := { s with flags := s.flags ||| TypeFlags.abstract }

def interface (s : ClassSpec) : ClassSpec :=
  { s with flags := s.flags ||| TypeFlags.interface ||| TypeFlags.abstract }

def nestedIn (s : ClassSpec) (outer : TypeId) : ClassSpec :=
  { s with
    declaring := some outer
    flags := (s.flags &&& ~~~accessMask) ||| TypeFlags.nestedPublic }

def extending (s : ClassSpec) (base : TypeId) : ClassSpec := { s with base := some base }

def implementing (s : ClassSpec) (interface : TypeId) : ClassSpec :=
  { s with interfaces := s.interfaces ++ [interface] }

def field (s : ClassSpec) (name : String) (signature : Signature) : ClassSpec :=
  { s with fields := s.fields ++ [⟨name, signature, FieldFlags.isPublic⟩] }

def staticField (s : ClassSpec) (name : String) (signature : Signature) : ClassSpec :=
  { s with fields := s.fields ++ [⟨name, signature, FieldFlags.isPublic ||| FieldFlags.static⟩] }

def constructor (s : ClassSpec) (spec : MethodSpec) : ClassSpec :=
  { s with methods := s.methods ++ [⟨".ctor", true, spec⟩] }

def method (s : ClassSpec) (name : String) (spec : MethodSpec) : ClassSpec :=
  { s with methods := s.methods ++ [⟨name, false, spec⟩] }

def autoProperty (s : ClassSpec) (name : String) (signature : Signature) : ClassSpec :=
  { s with properties := s.properties ++ [(name, signature)] }

def initializer (s : ClassSpec) (make : Universe → TypeId → Except Fault Expr) : ClassSpec :=
  { s with typeInitializer := some make }

def withAttribute (s : ClassSpec) (constructor : MethodId) (arguments : List Value) : ClassSpec :=
  { s with attributes := s.attributes ++ [⟨constructor, arguments, []⟩] }

end ClassSpec

def backingFieldName (property : String) : String := "<" ++ property ++ ">k__BackingField"

def baseConstructorCall (u : Universe) (t : TypeId) : Except Fault Expr :=
  match (u.record t).base with
  | none => .ok .empty
  | some base =>
    match u.findConstructor? base [] with
    | some c => .ok (.callBase .this (.member c) [])
    | none =>
      .error (.invalidOperation ("Base type '" ++ u.fullName base ++ "' of '" ++ u.fullName t
        ++ "' has no parameterless constructor"))

/-! ### Building -/

namespace TypeSpace

/-- A type cannot derive from sealed types and interfaces. -/
def checkBase (base : TypeId) (derivedName : String) : Attempt TypeSpace Unit := do
  let u ← currentProgram
  if (u.record base).isSealed || (u.record base).isInterface then
    throw (.argument "base" ("'" ++ u.fullName base ++ "' cannot be used as base type of '"
      ++ derivedName ++ "'"))

def checkInterface (interface : TypeId) : Attempt TypeSpace Unit := do
  let u ← currentProgram
  if !(u.record interface).isInterface then
    throw (.argument "interface" ("'" ++ u.fullName interface ++ "' is not an interface"))

def appendInterface (t interface : TypeId) : Attempt TypeSpace Unit := do
  checkInterface interface
  edit t fun r => { r with interfaces := r.interfaces.push interface }

/-- The backing field and both accessors of a property; their bodies are still to be set. -/
def autoProperty (t : TypeId) (name : String) (signature : Signature) :
    Attempt TypeSpace (List (MethodId × BodySource)) := do
  let backing ← appendField t (backingFieldName name) signature FieldFlags.isPrivate
  let flags := MethodFlags.isPublic ||| MethodFlags.hideBySig ||| MethodFlags.specialName
  let getter ← appendMethod t ("get_" ++ name) flags (.unnamed signature [])
  let setter ← appendMethod t ("set_" ++ name) flags ⟨.void, [⟨"value", signature⟩]⟩
  let _ ← appendProperty t name signature (some getter) (some setter)
  return [(getter, .fixed (.loadThis (.member backing))),
    (setter, .fixed (.storeThis (.member backing) (.argument 0)))]

def specialNames : UInt32 := MethodFlags.specialName ||| MethodFlags.rtSpecialName

def describedMethod (t : TypeId) (described : NamedMethodSpec) :
    Attempt TypeSpace (MethodId × BodySource) := do
  let spec := described.spec
  let m ← if described.isConstructor then
      appendConstructor t described.name (spec.flags ||| specialNames) spec.signature
    else appendMethod t described.name spec.flags spec.signature
  return (m, spec.body)

def bodyFrom (u : Universe) (t : TypeId) (m : MethodId) : BodySource → Except Fault (Option Expr)
  | .fixed body => .ok (some body)
  | .deferred make => (make u t).map some
  | .missing =>
    if (u.method m).isAbstract then .ok none
    else if (u.method m).isConstructor then (baseConstructorCall u t).map some
    else .error (.invalidOperation ("Method '" ++ u.methodName m ++ "' has no body"))

def giveBody (t : TypeId) (m : MethodId) (source : BodySource) : Attempt TypeSpace Unit := do
  match ← Attempt.lift (bodyFrom (← currentProgram) t m source) with
  | some body => setBody m body
  | none => return ()

def giveBase (t : TypeId) (s : ClassSpec) (defaultBase : Option TypeId) :
    Attempt TypeSpace Unit := do
  if !hasBits s.flags TypeFlags.interface then
    if let some base := s.base.or defaultBase then
      checkBase base s.name
      apply fun u => u.setBase t base

def describedInitializer (t : TypeId) :
    Option (Universe → TypeId → Except Fault Expr) →
    Attempt TypeSpace (List (MethodId × BodySource))
  | none => pure []
  | some make => do
    let m ← placeInitializer t ".cctor"
      (MethodFlags.isPrivate ||| MethodFlags.static ||| specialNames) {}
    return [(m, .deferred make)]

def placeMembers (t : TypeId) (s : ClassSpec) :
    Attempt TypeSpace (List (MethodId × BodySource)) := do
  for field in s.fields do
    let _ ← appendField t field.name field.signature field.flags
  let accessors ← s.properties.mapM fun (name, signature) => autoProperty t name signature
  let described ← s.methods.mapM (describedMethod t)
  let initializers ← describedInitializer t s.typeInitializer
  return accessors.flatten ++ described ++ initializers

/-- Interfaces, members and attributes of a type that has its base; then it is complete. -/
def completeWith (t : TypeId) (s : ClassSpec) : Attempt TypeSpace Unit := do
  for interface in s.interfaces do appendInterface t interface
  let bodies ← placeMembers t s
  for (m, source) in bodies do giveBody t m source
  edit t fun r => { r with attributes := r.attributes ++ s.attributes }
  markComplete t

/-- Everything a description asks for, on a type that has nothing yet. -/
def fill (t : TypeId) (s : ClassSpec) (defaultBase : Option TypeId) : Attempt TypeSpace Unit := do
  giveBase t s defaultBase
  if let some outer := s.declaring then nestIn t outer
  completeWith t s

/-- Makes the type without listing it; a type that could not be finished is given up. -/
def makeClass (s : ClassSpec) (defaultBase : Option TypeId) : Attempt TypeSpace TypeId := do
  let t ← newType (if s.declaring.isSome then "" else s.space) s.name s.flags .native
  (fill t s defaultBase).onFault (drop [t])
  return t

def buildClass (s : ClassSpec) : Attempt TypeSpace TypeId := do
  let t ← makeClass s (some (← get).registry.core.object)
  list t
  return t

/-! ### New registries -/

/-- `System.Object`, `System.Attribute` and the attribute that marks assembled types. -/
def makeCore : Attempt TypeSpace CoreTypes := do
  let object ← makeClass
    (({ space := "System", name := "Object" } : ClassSpec).isPublic.constructor
      { body := .fixed .empty }) none
  let attributeType ← makeClass
    (({ space := "System", name := "Attribute" } : ClassSpec).isPublic.abstract.constructor
      (({} : MethodSpec).access .family)) (some object)
  let assembledTypeAttribute ← makeClass
    ((({ space := "TypeForge", name := "AssembledTypeAttribute" } :
      ClassSpec).isPublic.isSealed.extending
      attributeType).constructor {}) (some object)
  return { object, attributeType, assembledTypeAttribute }

def establish : Attempt TypeSpace Unit := do
  let core ← makeCore
  modify fun space => { space with registry := { space.registry with core } }
  list core.object
  list core.attributeType
  list core.assembledTypeAttribute

/-- A new registry over a universe, with the core types. -/
def fresh (u : Universe) : TypeSpace := (establish.start { program := u }).2

end TypeSpace

def CoreTypes.markConstructor (core : CoreTypes) (u : Universe) : Except Fault MethodId :=
  match u.findConstructor? core.assembledTypeAttribute [] with
  | some c => .ok c
  | none => .error (u.missing core.assembledTypeAttribute ".ctor")

end TypeLoom
