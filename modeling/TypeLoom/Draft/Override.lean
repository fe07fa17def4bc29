import TypeLoom.Program.Dispatch
import TypeLoom.Draft.Member

/-!
# Overrides and implementations

A slot of the base gets at most one override on a descriptor, and an interface method at most one
implementation: asking again, or through another method of the same slot, finds the first one. A new
override calls the method it replaces; where there is nothing to call it is abstract.
-/

namespace TypeLoom.Descriptor

/-! ### Overrides -/

/-- The base of the descriptor and what keeps the method from being one that it can override. -/
def checkOverride (u : Universe) (d : Descriptor) (m : MethodId) : Except Fault TypeId := do
  let some base := d.baseType? u
    | throw (.invalidOperation ("'" ++ d.fullName
      ++ "' has no runtime base type to override methods of"))
  let some declaring := u.methodOwner? m
    | throw (.argument "base_method" ("Declaring type of '" ++ (u.method m).name
      ++ "' has been dropped"))
  if (u.record declaring).isInterface then
    throw (.argument "base_method" ("'" ++ u.methodName m
      ++ "' is an interface method, use get_or_add_implementation"))
  if (u.record declaring).token != (u.record base).token && !u.isSubclassOf base declaring then
    throw (.argument "base_method" ("'" ++ u.methodName m
      ++ "' is not declared on the base chain of '"
      ++ d.fullName ++ "'"))
  if !(u.method m).isVirtual then
    throw (.notSupported ("Method '" ++ u.methodName m
      ++ "' is not virtual and cannot be overridden"))
  return base

def overrideAccess (u : Universe) (d : Descriptor) (implementation : MethodId) :
    Except Fault Access :=
  let r := u.method implementation
  if r.isFinal then
    .error (.notSupported ("Method '" ++ u.methodName implementation
      ++ "' is final and cannot be overridden"))
  else
    match inheritedAccess? r.access with
    | some access => .ok access
    | none =>
      .error (.notSupported ("Method '" ++ u.methodName implementation ++ "' is " ++ r.access.text
        ++ " and cannot be overridden from '" ++ d.fullName ++ "'"))

/-- The override that a descriptor gets for a base method and its present implementation. -/
def newOverride (u : Universe) (handle : MethodHandle) (m implementation : MethodId)
    (access : Access) :
    DraftMethod :=
  let r := u.method implementation
  let flags := withAccess (MethodFlags.virtual ||| MethodFlags.hideBySig) access
  { handle
    name := (u.method m).name
    kind := .method
    flags := if r.isAbstract then flags ||| MethodFlags.abstract else flags
    signature := (u.method m).signature
    body :=
      if r.isAbstract then none
      else some (.callBase .this (.member implementation) (Expr.forwardArguments r.signature.arity))
    baseMethod := some m }

/-- The override of a base method, and whether it is new. -/
def getOrAddOverride (u : Universe) (m : MethodId) : Attempt Descriptor (MethodHandle × Bool) := do
  ensureMutable
  let d ← get
  let base ← Attempt.lift (d.checkOverride u m)
  let slot := u.slotToken m
  if let some existing := d.overrides.find? slot then return (existing, false)
  if let some own := d.methods.find? fun own =>
    own.takesSlot (u.method m).name (u.method m).signature then
    set { d with overrides := d.overrides.put slot own.handle }
    return (own.handle, false)
  let implementation := u.resolveVirtual base m
  let access ← Attempt.lift (d.overrideAccess u implementation)
  let handle := d.nextMethod
  set { d with
    methods := d.methods.push (newOverride u handle m implementation access)
    overrides := d.overrides.put slot handle }.touch
  return (handle, true)

/-! ### Implementations -/

/-- What keeps a method from being one that the descriptor can implement. -/
def checkImplementation (u : Universe) (d : Descriptor) (m : MethodId) : Except Fault Unit :=
  match (u.methodOwner? m).filter fun t => (u.record t).isInterface with
  | none =>
    .error (.argument "interface_method" ("'" ++ u.methodName m ++ "' is not an interface method"))
  | some interface =>
    if d.implementsInterface u interface then .ok ()
    else
      .error (.argument "interface_method" ("'" ++ d.fullName ++ "' does not implement '"
        ++ u.fullName interface ++ "'"))

def newImplementationFlags : UInt32 :=
  MethodFlags.isPublic ||| MethodFlags.virtual ||| MethodFlags.newSlot ||| MethodFlags.hideBySig
    ||| MethodFlags.abstract

/-- The implementation of an interface method, and whether it is new: an own public virtual
method, an override of the inherited implementation, or a new abstract method. -/
def getOrAddImplementation (u : Universe) (m : MethodId) :
    Attempt Descriptor (MethodHandle × Bool) := do
  ensureMutable
  let d ← get
  Attempt.lift (d.checkImplementation u m)
  let r := u.method m
  if let some existing := d.implementations.find? r.token then return (existing, false)
  if let some own := d.methods.find? fun own => own.isPublicVirtual r.name r.signature then
    set { d with implementations := d.implementations.put r.token own.handle }
    return (own.handle, false)
  if let some inherited := (d.baseType? u).bind fun base => u.resolveInterfaceMethod base m then
    if !(u.method inherited).isVirtual || (u.method inherited).isFinal then
      throw (.notSupported ("Interface method '" ++ u.methodName m ++ "' is implemented by '"
        ++ u.methodName inherited ++ "' which cannot be overridden"))
    let (handle, created) ← getOrAddOverride u inherited
    modify fun d => { d with implementations := d.implementations.put r.token handle }
    return (handle, created)
  Attempt.lift (d.checkMethod r.name newImplementationFlags r.signature false)
  let handle := d.nextMethod
  set { d with
    methods := d.methods.push
      { handle, name := r.name, kind := .method, flags := newImplementationFlags,
        signature := r.signature,
        body := none, explicitOverrides := #[m] }
    implementations := d.implementations.put r.token handle }.touch
  return (handle, true)

end TypeLoom.Descriptor
