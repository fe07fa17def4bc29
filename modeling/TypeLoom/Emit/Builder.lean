import TypeLoom.Build.Class
import TypeLoom.Program.Dispatch

/-!
# Types under construction

A type that is declared for a module gets its parts one by one and is then created: it is checked,
is complete from then on, and is listed. A created type takes no more parts.
-/

namespace TypeLoom

namespace TypeSpace

def ensureOpen (t : TypeId) : Attempt TypeSpace Unit := do
  let u ← currentProgram
  if (u.record t).complete then
    throw (.invalidOperation ("Type '" ++ u.fullName t ++ "' has already been created"))

def ensureOwn (t : TypeId) (m : MethodId) : Attempt TypeSpace Unit := do
  let u ← currentProgram
  match u.methodOwner? m with
  | some owner => if (u.record owner).token == (u.record t).token then return ()
  | none => pure ()
  throw (.argument "method" ("'" ++ u.methodName m ++ "' is not declared by '"
    ++ u.fullName t ++ "'"))

def setParent (t base : TypeId) : Attempt TypeSpace Unit := do
  ensureOpen t
  checkBase base ((← currentProgram).fullName t)
  apply fun u => u.setBase t base

def implementInterface (t interface : TypeId) : Attempt TypeSpace Unit := do
  ensureOpen t
  appendInterface t interface

def setAttribute (t : TypeId) (a : Attribute) : Attempt TypeSpace Unit := do
  ensureOpen t
  edit t fun r => { r with attributes := r.attributes.push a }

def defineField (t : TypeId) (name : String) (signature : Signature) (flags : UInt32) :
    Attempt TypeSpace FieldId := do
  ensureOpen t
  appendField t name signature flags

def defineConstructor (t : TypeId) (flags : UInt32) (signature : MethodSignature) :
    Attempt TypeSpace MethodId := do
  ensureOpen t
  appendConstructor t ".ctor" (flags ||| specialNames) signature

def defineInitializer (t : TypeId) : Attempt TypeSpace MethodId := do
  ensureOpen t
  placeInitializer t ".cctor"
    (MethodFlags.isPrivate ||| MethodFlags.static ||| MethodFlags.hideBySig ||| specialNames) {}

def defineMethod (t : TypeId) (name : String) (flags : UInt32) (signature : MethodSignature) :
    Attempt TypeSpace MethodId := do
  ensureOpen t
  appendMethod t name flags signature

def defineBody (t : TypeId) (m : MethodId) (body : Expr) : Attempt TypeSpace Unit := do
  ensureOpen t
  ensureOwn t m
  setBody m body

/-- Calls of a virtual method run an own method instead. -/
def defineOverride (t : TypeId) (body declaration : MethodId) : Attempt TypeSpace Unit := do
  ensureOpen t
  ensureOwn t body
  let u ← currentProgram
  if !(u.method declaration).isVirtual then
    throw (.argument "declaration" ("'" ++ u.methodName declaration ++ "' is not virtual"))
  edit t fun r => { r with overrides := r.overrides.push { declaration, body } }

def defineProperty (t : TypeId) (name : String) (signature : Signature)
    (getter setter : Option MethodId) :
    Attempt TypeSpace PropertyId := do
  ensureOpen t
  appendProperty t name signature getter setter

def defineEvent (t : TypeId) (name : String) (type : Signature) (add remove : MethodId)
    (raise : Option MethodId) : Attempt TypeSpace EventId := do
  ensureOpen t
  appendEvent t name type add remove raise

/-- Methods are abstract, in an abstract type, or have a body. -/
def checkBodies (u : Universe) (t : TypeId) : Except Fault Unit :=
  (u.methodsOf t ++ u.constructorsOf t ++ (u.record t).initializer.toList).forM fun m =>
    if (u.method m).isAbstract then
      if (u.record t).isAbstract then .ok ()
      else
        .error (.invalidOperation ("Non-abstract type '" ++ u.fullName t
          ++ "' declares abstract method '"
          ++ (u.method m).name ++ "'"))
    else if (u.method m).body.isSome then .ok ()
    else .error (.invalidOperation ("Method '" ++ u.methodName m ++ "' has no body"))

def createType (t : TypeId) : Attempt TypeSpace TypeId := do
  ensureOpen t
  Attempt.lift (checkBodies (← currentProgram) t)
  markComplete t
  list t
  return t

end TypeSpace

/-! ### Workshops -/

/-- A type space and the types declared in it for one module, finished or not. -/
structure Workshop where
  space : TypeSpace := {}
  output : Array TypeId := #[]
  deriving Repr, Inhabited

namespace Workshop

def inSpace {α : Type} (act : Attempt TypeSpace α) : Attempt Workshop α :=
  act.within (·.space) fun space w => { w with space }

def defineType (space name : String) (flags : UInt32) (declaring : Option TypeId) :
    Attempt Workshop TypeId := do
  let t ← inSpace (TypeSpace.newType (if declaring.isSome then "" else space) name flags .generated)
  if let some outer := declaring then inSpace (TypeSpace.nestIn t outer)
  modify fun w => { w with output := w.output.push t }
  return t

def finished (w : Workshop) : List TypeId :=
  w.output.toList.filter fun t => (w.space.program.record t).complete

end Workshop

end TypeLoom
