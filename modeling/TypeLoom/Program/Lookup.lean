import TypeLoom.Program.Assignable

/-!
# Finding members

Members by name, by signature and by argument count. Fields and instance methods are also found on
base types; the first match in definition order wins.
-/

namespace TypeLoom

namespace Universe

/-! ### Fields -/

def instanceFields (u : Universe) (t : TypeId) : List FieldId :=
  (u.hierarchy t).reverse.flatMap fun level => (u.fieldsOf level).filter fun f =>
    !(u.field f).isStatic

def ownField? (u : Universe) (t : TypeId) (name : String) : Option FieldId :=
  (u.fieldsOf t).find? fun f => (u.field f).name == name

def findField? (u : Universe) (t : TypeId) (name : String) : Option FieldId :=
  (u.hierarchy t).findSome? fun level => u.ownField? level name

def missing (u : Universe) (t : TypeId) (member : String) : Fault :=
  .missingMember (u.fullName t) member

def requireField (u : Universe) (t : TypeId) (name : String) : Except Fault FieldId :=
  match u.findField? t name with
  | some f => .ok f
  | none => .error (u.missing t name)

/-! ### Methods -/

def methodNamed? (u : Universe) (t : TypeId) (name : String) : Option MethodId :=
  (u.methodsOf t).find? fun m => (u.method m).name == name

def requireMethod (u : Universe) (t : TypeId) (name : String) : Except Fault MethodId :=
  match u.methodNamed? t name with
  | some m => .ok m
  | none => .error (u.missing t name)

def findMethod? (u : Universe) (t : TypeId) (name : String) (signature : MethodSignature) :
    Option MethodId :=
  (u.methodsOf t).find? fun m =>
    (u.method m).name == name && (u.method m).signature.agrees signature

def findVirtual? (u : Universe) (t : TypeId) (name : String) (signature : MethodSignature) :
    Option MethodId :=
  (u.findMethod? t name signature).filter fun m => (u.method m).isVirtual

/-- The instance method with this name and number of parameters, on the type or its nearest base. -/
def lookupMethod? (u : Universe) (t : TypeId) (name : String) (arity : Nat) : Option MethodId :=
  (u.hierarchy t).findSome? fun level =>
    (u.methodsOf level).find? fun m =>
      (u.method m).name == name && (u.method m).signature.arity == arity && !(u.method m).isStatic

def findConstructor? (u : Universe) (t : TypeId) (types : List Signature) : Option MethodId :=
  (u.constructorsOf t).find? fun m => (u.method m).signature.types == types

def acceptsArguments (u : Universe) (signature : MethodSignature) (arguments : List Value) : Bool :=
  signature.arity == arguments.length
    && (signature.parameters.zip arguments).all fun pair => pair.1.type.accepts u pair.2

/-- The first public constructor whose parameters accept the arguments. -/
def constructorFor? (u : Universe) (t : TypeId) (arguments : List Value) : Option MethodId :=
  (u.constructorsOf t).find? fun m =>
    (u.method m).access == .isPublic && u.acceptsArguments (u.method m).signature arguments

/-! ### Attributes -/

/-- The attributes whose type can stand for the given attribute type. -/
def attributesOf (u : Universe) (t attributeType : TypeId) : List Attribute :=
  (u.record t).attributes.toList.filter fun a =>
    match u.methodOwner? a.constructor with
    | some owner => u.isAssignableTo owner attributeType
    | none => false

end Universe

end TypeLoom
