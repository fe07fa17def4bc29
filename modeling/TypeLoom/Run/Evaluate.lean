import TypeLoom.Program.Dispatch
import TypeLoom.Run.Operator
import TypeLoom.Run.Watch

/-!
# Evaluation

The meaning of bodies. Expressions are evaluated over the calls that are possible one level further
down the call stack; a level is built from the one below it, and below the last level every call
fails. Within a level the initializers of types run, each of which may start others, but none a
second time while it runs.
-/

namespace TypeLoom

def callDepthLimit : Nat := 256

/-- What a body can ask for while it runs. -/
structure Calls (ω : Type) where
  invoke : MethodId → Option ObjectRef → List Value → Watching ω Value
  initialized : TypeId → Watching ω Unit

/-- The receiver and the arguments of the running method. -/
structure Frame where
  this : Option ObjectRef
  arguments : List Value

namespace Evaluation

open Watching

variable (u : Universe) {ω : Type} (watch : Occurrence → ω → ω)

/-! ### Targets and operands -/

def requireMethod : MethodTarget → Except Fault MethodId
  | .member m =>
    if u.isPresent m.owner && (u.method? m).isSome then .ok m
    else .error (.invalidOperation "Called method has been dropped")
  | .draft h =>
    .error (.invalidOperation ("Unresolved descriptor reference " ++ h.text ++ " in executed code"))

def requireField : FieldTarget → Except Fault FieldId
  | .member f =>
    if u.isPresent f.owner && (u.field? f).isSome then .ok f
    else .error (.invalidOperation "Accessed field has been dropped")
  | .draft h =>
    .error (.invalidOperation ("Unresolved descriptor reference " ++ h.text ++ " in executed code"))

def requireObject (action : String) : Value → Except Fault ObjectRef
  | .object o => .ok o
  | .null => .error (.nullReference action)
  | other =>
    .error (.invalidOperation ("Expected an object while " ++ action ++ ", found "
      ++ other.detail u))

/-! ### Calls -/

/-- What keeps a method from running, in the order in which it is noticed. -/
def checkCall (remaining : Nat) (m : MethodId) (this : Option ObjectRef) (arguments : List Value) :
    Except Fault Unit :=
  let r := u.method m
  if arguments.length != r.signature.arity then
    .error (.argument "arguments" ("'" ++ u.methodName m ++ "' expects "
      ++ toString r.signature.arity
      ++ " arguments, " ++ toString arguments.length ++ " were supplied"))
  else if r.isAbstract then
    .error (.invalidOperation ("Cannot invoke abstract method '" ++ u.methodName m ++ "'"))
  else if !r.isStatic && this.isNone then
    .error (.nullReference ("calling instance method '" ++ u.methodName m ++ "'"))
  else if remaining = 0 then .error (.recursionLimit callDepthLimit)
  else .ok ()

def requireBody (m : MethodId) : Except Fault Expr :=
  match (u.method m).body with
  | some body => .ok body
  | none => .error (.invalidOperation ("Method '" ++ u.methodName m ++ "' has no body"))

/-- What keeps a constructor from making an object. -/
def checkInstantiation (c : MethodId) : Except Fault TypeId :=
  match u.methodOwner? c with
  | none => .error (.typeNotFound (u.method c).name)
  | some t =>
    if !(u.method c).isConstructor then
      .error (.invalidOperation ("'" ++ u.methodName c ++ "' is not a constructor"))
    else if (u.record t).isAbstract then .error (.abstractInstantiation (u.fullName t))
    else if !(u.record t).complete then
      .error (.invalidOperation ("Type '" ++ u.fullName t ++ "' has not been finalized"))
    else .ok t

def newObject (t : TypeId) : Watching ω ObjectRef := do
  let (o, after) := (← heap).allocate u t
  change fun _ => after
  return o

/-- A new object: its type is initialized, its slots are at their defaults, its constructor has
run. -/
def instantiateWith (calls : Calls ω) (c : MethodId) (arguments : List Value) :
    Watching ω ObjectRef := do
  let t ← Attempt.lift (checkInstantiation u c)
  calls.initialized t
  note watch (.creates t)
  let o ← newObject u t
  let _ ← calls.invoke c (some o) arguments
  return o

/-! ### Fields -/

def readSlot (o : ObjectRef) (f : FieldId) : Watching ω Value := do
  Attempt.lift ((← heap).loadSlot u o f)

def writeSlot (o : ObjectRef) (f : FieldId) (value : Value) : Watching ω Unit := do
  let after ← Attempt.lift ((← heap).storeSlot u o f value)
  change fun _ => after

def staticOwner (f : FieldId) : Except Fault TypeId :=
  if !(u.field f).isStatic then
    .error (.invalidOperation ("Field '" ++ (u.field f).name ++ "' is an instance field"))
  else
    match u.fieldOwner? f with
    | some t => .ok t
    | none => .error (.typeNotFound (u.field f).name)

/-- What a static field holds; its type is initialized first. -/
def readStatic (calls : Calls ω) (f : FieldId) : Watching ω Value := do
  let owner ← Attempt.lift (staticOwner u f)
  calls.initialized owner
  note watch (.reads owner f)
  return (← heap).staticValue u owner f

/-- The type that holds a static field, if the field accepts the value. -/
def staticOwnerFor (f : FieldId) (value : Value) : Except Fault TypeId :=
  if !(u.field f).signature.accepts u value then .error (Heap.misfit u f value) else staticOwner u f

/-- Gives a static field a value that it accepts; its type is initialized first. -/
def writeStatic (calls : Calls ω) (f : FieldId) (value : Value) : Watching ω Unit := do
  let owner ← Attempt.lift (staticOwnerFor u f value)
  calls.initialized owner
  note watch (.writes owner f)
  change (·.setStatic u owner f value)

/-! ### Expressions -/

mutual

def evaluate (calls : Calls ω) (frame : Frame) : Expr → Watching ω Value
  | .constant value => return value
  | .this =>
    match frame.this with
    | some o => return .object o
    | none => throw (.nullReference "accessing 'this' in a static context")
  | .argument index =>
    match frame.arguments[index.toNat]? with
    | some value => return value
    | none =>
      throw (.argument "index" ("argument " ++ toString index.toNat ++ " is out of range"))
  | .block items => evaluateBlock calls frame .void items
  | .call receiver method arguments dispatch => do
    let m ← Attempt.lift (requireMethod u method)
    let this ← evaluateReceiver calls frame ("calling '" ++ u.methodName m ++ "'") receiver
    let values ← evaluateAll calls frame arguments
    match this, dispatch with
    | some o, .virtual => calls.invoke (u.resolveVirtual o.type m) (some o) values
    | this, _ => calls.invoke m this values
  | .new constructor arguments => do
    let c ← Attempt.lift (requireMethod u constructor)
    let values ← evaluateAll calls frame arguments
    return .object (← instantiateWith u watch calls c values)
  | .load receiver field => do
    let f ← Attempt.lift (requireField u field)
    match ← evaluateReceiver calls frame ("reading field '" ++ (u.field f).name
      ++ "'") receiver with
    | some o => readSlot u o f
    | none => readStatic u watch calls f
  | .store receiver field valueExpr => do
    let f ← Attempt.lift (requireField u field)
    let this ← evaluateReceiver calls frame ("writing field '" ++ (u.field f).name ++ "'") receiver
    let value ← evaluate calls frame valueExpr
    match this with
    | some o => writeSlot u o f value
    | none => writeStatic u watch calls f value
    return .void
  | .binary op left right => do
    let a ← evaluate calls frame left
    let b ← evaluate calls frame right
    Attempt.lift (op.apply u a b)
  | .choose condition positive negative => do
    match ← evaluate calls frame condition with
    | .boolean true => evaluate calls frame positive
    | .boolean false => evaluate calls frame negative
    | other =>
      throw (.invalidOperation ("Condition evaluated to non-boolean value " ++ other.detail u))

/-- The value of the last item; of no items, the value so far. -/
def evaluateBlock (calls : Calls ω) (frame : Frame) (last : Value) : List Expr → Watching ω Value
  | [] => return last
  | item :: items => do evaluateBlock calls frame (← evaluate calls frame item) items

def evaluateAll (calls : Calls ω) (frame : Frame) : List Expr → Watching ω (List Value)
  | [] => return []
  | item :: items => do
    let value ← evaluate calls frame item
    let values ← evaluateAll calls frame items
    return value :: values

def evaluateReceiver (calls : Calls ω) (frame : Frame) (action : String) :
    Option Expr → Watching ω (Option ObjectRef)
  | none => return none
  | some receiver => do
    let value ← evaluate calls frame receiver
    return some (← Attempt.lift (requireObject u action value))

end

/-! ### One level of the call stack -/

def runBody (below : Calls ω) (m : MethodId) (frame : Frame) : Watching ω Value := do
  let e ← Attempt.lift (requireBody u m)
  let value ← body watch m (evaluate u watch below frame e)
  return if (u.method m).signature.returns.isVoid then .void else value

/-- Runs a method; the type of a static method is initialized first. -/
def invokeOver (below : Calls ω) (initialized : TypeId → Watching ω Unit)
    (remaining : Nat) (m : MethodId) (this : Option ObjectRef) (arguments : List Value) :
    Watching ω Value := do
  Attempt.lift (checkCall u remaining m this arguments)
  if (u.method m).isStatic then
    if let some owner := u.methodOwner? m then initialized owner
  runBody u watch below m { this, arguments }

def runInitializer (invoke : MethodId → Watching ω Value) (t : TypeId) : Watching ω Unit :=
  match (u.record t).initializer with
  | some m => discard (invoke m)
  | none => return ()

/-- Starts the initializer of a type whose bases are initialized. -/
def startInitializer (invoke : MethodId → Watching ω Value) (t : TypeId) : Watching ω Unit := do
  let h ← heap
  if h.isRunning t || h.isInitialized t then return ()
  change (·.startRunning t)
  note watch (.starts t)
  let result ← Attempt.outcome (runInitializer u invoke t)
  change (·.stopRunning t)
  match result with
  | .ok () =>
    change (·.markInitialized t)
    note watch (.finishes t)
  | .error fault =>
    note watch (.fails t)
    throw fault

def initializeAfter (base : TypeId → Watching ω Unit) (invoke : MethodId → Watching ω Value)
    (t : TypeId) :
    Watching ω Unit := do
  if (← heap).isInitialized t then return ()
  if let some b := (u.record t).base then base b
  startInitializer u watch invoke t

/-- Initializes a type after its bases, following at most so many bases. -/
def initializeChain (invoke : MethodId → Watching ω Value) : Nat → TypeId → Watching ω Unit
  | 0, _ => throw (.recursionLimit callDepthLimit)
  | bases + 1, t => initializeAfter u watch (initializeChain invoke bases) invoke t

/-- Initializes a type; its initializer may lead to at most so many further ones within this
level. -/
def initializeOver (below : Calls ω) (remaining : Nat) : Nat → TypeId → Watching ω Unit
  | 0, _ => throw (.recursionLimit callDepthLimit)
  | starts + 1, t =>
    initializeChain u watch
      (fun m => invokeOver u watch below (initializeOver below remaining starts)
        remaining m none [])
      (u.types.size + 1) t

def levelOver (below : Calls ω) (remaining : Nat) : Calls ω :=
  let initialized := initializeOver u watch below remaining (u.types.size + 1)
  { invoke := invokeOver u watch below initialized remaining, initialized }

def noCalls : Calls ω :=
  { invoke := fun _ _ _ => throw (.recursionLimit callDepthLimit)
    initialized := fun _ => throw (.recursionLimit callDepthLimit) }

def callsWithin : Nat → Calls ω
  | 0 => levelOver u watch noCalls 0
  | remaining + 1 => levelOver u watch (callsWithin remaining) (remaining + 1)

def callsAt (depth : Nat) : Calls ω := callsWithin u watch (callDepthLimit - depth)

end Evaluation

/-! ### Entry points -/

namespace Universe

open Watching

def calls (u : Universe) (depth : Nat) : Calls Unit := Evaluation.callsAt u (fun _ _ => ()) depth

/-- Runs a method below so many active bodies. -/
def invokeAt (u : Universe) (depth : Nat) (m : MethodId) (this : Option ObjectRef)
    (arguments : List Value) :
    Evaluation Value :=
  unwatched ((u.calls depth).invoke m this arguments)

def invoke (u : Universe) (m : MethodId) (this : Option ObjectRef) (arguments : List Value) :
    Evaluation Value :=
  u.invokeAt 0 m this arguments

def instantiate (u : Universe) (c : MethodId) (arguments : List Value) : Evaluation ObjectRef :=
  unwatched (Evaluation.instantiateWith u (fun _ _ => ()) (u.calls 0) c arguments)

def ensureInitialized (u : Universe) (t : TypeId) : Evaluation Unit :=
  unwatched ((u.calls 0).initialized t)

/-- Makes an object by the first public constructor that accepts the arguments. -/
def createInstance (u : Universe) (t : TypeId) (arguments : List Value) : Evaluation ObjectRef :=
  match u.constructorFor? t arguments with
  | some c => u.instantiate c arguments
  | none => throw (u.missing t (".ctor/" ++ toString arguments.length))

/-- Calls the instance method of this name that takes so many arguments. -/
def callNamed (u : Universe) (o : ObjectRef) (name : String) (arguments : List Value) :
    Evaluation Value :=
  match u.lookupMethod? o.type name arguments.length with
  | some m => u.invoke (u.resolveVirtual o.type m) (some o) arguments
  | none => throw (u.missing o.type (name ++ "/" ++ toString arguments.length))

end Universe

end TypeLoom
