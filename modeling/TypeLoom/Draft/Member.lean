import TypeLoom.Draft.Descriptor

/-!
# Adding members to descriptors

Each operation checks the whole member before it appends it. What is checked, in this order, is said
by the faults; the first fault found is reported.
-/

namespace TypeLoom.Descriptor

/-! ### Fields -/

/-- A field; interfaces have only static ones, and no two fields share a name. -/
def addField (name : String) (signature : Signature) (flags : UInt32) :
    Attempt Descriptor FieldHandle := do
  ensureMutable
  let d ← get
  if name.isEmpty then throw (.argument "name" "Field name must not be empty")
  if signature.isVoid then
    throw (.argument "signature" ("Field '" ++ name ++ "' cannot be of type void"))
  if d.isInterface && !hasBits flags FieldFlags.static then
    throw (.argument "flags" ("Interface '" ++ d.fullName ++ "' cannot declare instance field '"
      ++ name
      ++ "'"))
  if (d.fieldNamed? name).isSome then throw (d.duplicate "field" name)
  let handle : FieldHandle := ⟨d.handle, d.fields.size⟩
  set { d with fields := d.fields.push { handle, name, signature, flags } }.touch
  return handle

/-! ### Constructors and initializers -/

def specialFlags : UInt32 := MethodFlags.specialName ||| MethodFlags.rtSpecialName

def addConstructor (flags : UInt32) (parameters : List Parameter) (body : Expr) :
    Attempt Descriptor MethodHandle := do
  ensureMutable
  let d ← get
  if hasBits flags MethodFlags.static then
    throw (.argument "flags" "Static constructors are added through add_type_initializer")
  if meetsBits flags (MethodFlags.virtual ||| MethodFlags.abstract) then
    throw (.argument "flags" "Constructors cannot be virtual or abstract")
  if d.isInterface then
    throw (.invalidOperation ("Interface '" ++ d.fullName ++ "' cannot declare constructors"))
  let signature : MethodSignature := ⟨.void, parameters⟩
  if d.constructors.any fun c => c.signature.sameParameters signature then
    throw (d.duplicate "constructor" ".ctor")
  let handle := d.nextConstructor
  set { d with
    constructors := d.constructors.push
      { handle, name := ".ctor", kind := .constructor, flags := flags ||| specialFlags, signature,
        body := some body } }.touch
  return handle

def addTypeInitializer (body : Expr) : Attempt Descriptor MethodHandle := do
  ensureMutable
  let d ← get
  if d.typeInitializer.isSome then
    throw (.invalidOperation ("Type '" ++ d.fullName ++ "' already has a type initializer"))
  let handle : MethodHandle := ⟨d.handle, .typeInitializer⟩
  set { d with
    typeInitializer := some
      { handle, name := ".cctor", kind := .typeInitializer
        flags := MethodFlags.isPrivate ||| MethodFlags.static ||| MethodFlags.hideBySig
        ||| specialFlags
        signature := {}, body := some body } }.touch
  return handle

def addTypeInitialization (e : Expr) : Attempt Descriptor Unit := do
  ensureMutable
  let d ← get
  set { d with typeInitializations := d.typeInitializations.push e }.touch

def addInitialization (e : Expr) : Attempt Descriptor Unit := do
  ensureMutable
  let d ← get
  if d.isInterface then
    throw (.invalidOperation ("Interface '" ++ d.fullName ++ "' has no instance constructors"))
  set { d with initializations := d.initializations.push e }.touch

/-! ### Methods -/

def checkMethod (d : Descriptor) (name : String) (flags : UInt32) (signature : MethodSignature)
    (hasBody : Bool) : Except Fault Unit := do
  let isAbstract := hasBits flags MethodFlags.abstract
  let isVirtual := hasBits flags MethodFlags.virtual
  let isStatic := hasBits flags MethodFlags.static
  if name.isEmpty then throw (.argument "name" "Method name must not be empty")
  if isAbstract && !isVirtual then
    throw (.argument "flags" ("Abstract method '" ++ name ++ "' must also be virtual"))
  if isAbstract && hasBody then
    throw (.argument "body" ("Abstract method '" ++ name ++ "' cannot have a body"))
  if !isAbstract && !hasBody then
    throw (.argument "body" ("Method '" ++ name ++ "' requires a body"))
  if isStatic && isVirtual then
    throw (.argument "flags" ("Static method '" ++ name ++ "' cannot be virtual"))
  if d.isInterface && !isStatic && !isAbstract then
    throw (.argument "flags" ("Instance method '" ++ name ++ "' of interface '" ++ d.fullName
      ++ "' must be abstract"))
  if signature.parameters.any fun p => p.type.isVoid then
    throw (.argument "signature" ("Parameters of '" ++ name ++ "' cannot be of type void"))
  if d.methods.any fun m => m.name == name && m.signature.sameParameters signature then
    throw (d.duplicate "method" name)

def addMethod (name : String) (flags : UInt32) (signature : MethodSignature) (body : Option Expr) :
    Attempt Descriptor MethodHandle := do
  ensureMutable
  let d ← get
  Attempt.lift (d.checkMethod name flags signature body.isSome)
  let handle := d.nextMethod
  set { d with
    methods := d.methods.push { handle, name, kind := .method, flags, signature, body } }.touch
  return handle

def setMethodBody (h : MethodHandle) (body : Expr) : Attempt Descriptor Unit := do
  ensureMutable
  let d ← get
  match d.method? h with
  | none => throw (.argument "handle" ("Method does not belong to '" ++ d.fullName ++ "'"))
  | some m =>
    if d.isInterface && !m.isStatic then
      throw (.invalidOperation ("Interface method '" ++ d.fullName ++ "::" ++ m.name
        ++ "' cannot have a body"))
    set (d.modifyMethod h.slot fun m =>
      { m with flags := m.flags &&& ~~~MethodFlags.abstract, body := some body }).touch

/-! ### Properties and events -/

def accessor (d : Descriptor) (h : MethodHandle) (parameter : String) : Except Fault DraftMethod :=
  if h.owner ≠ d.handle then
    .error (.argument parameter ("Accessor belongs to another type than '" ++ d.fullName ++ "'"))
  else
    match h.slot, d.method? h with
    | .method _, some m => .ok m
    | _, _ =>
      .error (.argument parameter ("Accessor must be a regular method of '" ++ d.fullName ++ "'"))

def takesOnly (m : DraftMethod) (signature : Signature) : Bool :=
  m.signature.returns.isVoid && m.signature.types == [signature]

/-- The get accessor returns what the property holds. -/
def checkGetter (u : Universe) (d : Descriptor) (name : String) (signature : Signature)
    (h : MethodHandle) : Except Fault Bool := do
  let m ← d.accessor h "getter"
  if m.signature.arity != 0 || m.signature.returns != signature then
    throw (.argument "getter" ("Get accessor of '" ++ name ++ "' must have signature "
      ++ signature.display u ++ " ()"))
  return m.isStatic

/-- The set accessor takes what the property holds, and is static when the get accessor is. -/
def checkSetter (u : Universe) (d : Descriptor) (name : String) (signature : Signature)
    (getterStatic : Option Bool) (h : MethodHandle) : Except Fault Unit := do
  let m ← d.accessor h "setter"
  if !takesOnly m signature then
    throw (.argument "setter" ("Set accessor of '" ++ name ++ "' must have signature void ("
      ++ signature.display u ++ ")"))
  if getterStatic.any fun isStatic => isStatic != m.isStatic then
    throw (.argument "setter" ("Accessors of '" ++ name
      ++ "' must both be static or both be instance methods"))

/-- A property; it has an accessor, and no two properties share a name. -/
def addProperty (u : Universe) (name : String) (signature : Signature)
    (getter setter : Option MethodHandle) : Attempt Descriptor PropertyHandle := do
  ensureMutable
  let d ← get
  if getter.isNone && setter.isNone then
    throw (.argument "getter" ("Property '" ++ name ++ "' requires at least one accessor"))
  if signature.isVoid then
    throw (.argument "signature" ("Property '" ++ name ++ "' cannot be of type void"))
  if d.properties.any fun p => p.name == name then throw (d.duplicate "property" name)
  let getterStatic ← Attempt.lift (getter.mapM (d.checkGetter u name signature))
  if let some h := setter then Attempt.lift (d.checkSetter u name signature getterStatic h)
  let handle : PropertyHandle := ⟨d.handle, d.properties.size⟩
  set { d with properties := d.properties.push { handle, name, signature, getter, setter } }.touch
  return handle

def addPropertyAccessors (u : Universe) (name : String) (signature : Signature) (access : Access)
    (getterBody setterBody : Option Expr) : Attempt Descriptor PropertyHandle := do
  ensureMutable
  let d ← get
  if d.properties.any fun p => p.name == name then throw (d.duplicate "property" name)
  let flags := withAccess (MethodFlags.hideBySig ||| MethodFlags.specialName) access
  let getter ← getterBody.mapM fun body =>
    addMethod ("get_" ++ name) flags (.unnamed signature []) (some body)
  let setter ← setterBody.mapM fun body =>
    addMethod ("set_" ++ name) flags ⟨.void, [⟨"value", signature⟩]⟩ (some body)
  addProperty u name signature getter setter

def addAutoProperty (u : Universe) (name : String) (signature : Signature) (access : Access) :
    Attempt Descriptor PropertyHandle := do
  let field ← addField ("<" ++ name ++ ">k__BackingField") signature FieldFlags.isPrivate
  addPropertyAccessors u name signature access (some (.loadThis (.draft field)))
    (some (.storeThis (.draft field) (.argument 0)))

/-- The accessors of an event with the names of their parameters: both that take a handler take
just that, and all are static or none is. -/
def checkEvent (u : Universe) (d : Descriptor) (name : String) (type : Signature)
    (add remove : MethodHandle) (raise : Option MethodHandle) : Except Fault Unit := do
  let adder ← d.accessor add "add_method"
  let remover ← d.accessor remove "remove_method"
  for (parameter, m) in [("add_method", adder), ("remove_method", remover)] do
    if !takesOnly m type then
      throw (.argument parameter ("Accessor of event '" ++ name ++ "' must have signature void ("
        ++ type.display u ++ ")"))
  let raiser ← raise.mapM fun h => d.accessor h "raise_method"
  let others := [("remove_method", remover)] ++ (raiser.map fun m => ("raise_method", m)).toList
  match others.find? fun (_, m) => m.isStatic != adder.isStatic with
  | some (parameter, _) =>
    throw (.argument parameter ("Accessors of event '" ++ name
      ++ "' must all be static or all be instance methods"))
  | none => return ()

def addEvent (u : Universe) (name : String) (type : Signature) (add remove : MethodHandle)
    (raise : Option MethodHandle) : Attempt Descriptor EventHandle := do
  ensureMutable
  let d ← get
  if !type.isReference then
    throw (.argument "event_type" ("Handler type of event '" ++ name
      ++ "' must be a reference type"))
  if d.events.any fun e => e.name == name then throw (d.duplicate "event" name)
  Attempt.lift (d.checkEvent u name type add remove raise)
  let handle : EventHandle := ⟨d.handle, d.events.size⟩
  set { d with events := d.events.push { handle, name, type, add, remove, raise } }.touch
  return handle

/-! ### Interfaces -/

def addInterface (u : Universe) (interface : TypeId) (allowReimplementation : Bool) :
    Attempt Descriptor Unit := do
  ensureMutable
  let d ← get
  if !(u.record interface).isInterface then
    throw (.argument "interface" ("'" ++ u.fullName interface ++ "' is not an interface"))
  let declaredHere := (d.interfaceTypes u).any fun listed =>
    (u.record listed).token == (u.record interface).token
  let implemented := d.implementsInterface u interface
  if implemented && !allowReimplementation then
    throw (.invalidOperation ("Interface '" ++ u.fullName interface
      ++ "' is already implemented by '"
      ++ d.fullName ++ "'"))
  if implemented && declaredHere then return ()
  set { d with interfaces := d.interfaces.push (.ofClass interface) }.touch

def addDraftInterface (interface : TypeHandle) : Attempt Descriptor Unit := do
  ensureMutable
  let d ← get
  if d.interfaces.contains (.draft interface) then
    throw (.invalidOperation ("Interface " ++ interface.text ++ " is already implemented by '"
      ++ d.fullName ++ "'"))
  set { d with interfaces := d.interfaces.push (.draft interface) }.touch

/-! ### Attributes -/

def addAttribute (a : Attribute) : Attempt Descriptor Unit := do
  ensureMutable
  let d ← get
  set { d with attributes := d.attributes.push a }.touch

def addMethodAttribute (h : MethodHandle) (a : Attribute) : Attempt Descriptor Unit := do
  ensureMutable
  let d ← get
  if (d.method? h).isNone then
    throw (.argument "method" ("Method does not belong to '" ++ d.fullName ++ "'"))
  set (d.modifyMethod h.slot fun m => { m with attributes := m.attributes.push a }).touch

def addFieldAttribute (h : FieldHandle) (a : Attribute) : Attempt Descriptor Unit := do
  ensureMutable
  let d ← get
  if h.owner ≠ d.handle then
    throw (.argument "field" ("Field does not belong to '" ++ d.fullName ++ "'"))
  if (d.field? h).isNone then throw (.argument "field" ("Unknown field of '" ++ d.fullName ++ "'"))
  set { d with
    fields := d.fields.modify h.index fun f => { f with attributes := f.attributes.push a } }.touch

end TypeLoom.Descriptor
