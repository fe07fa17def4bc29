import TypeLoom.Program.Lookup

/-!
# Registries

A registry lists types by token and by full name and hands out tokens. The name of a type is taken
when it is listed. A second type with a listed token is not listed. The types live in a universe
that several registries may share.
-/

namespace TypeLoom

/-- The types that every registry starts with. -/
structure CoreTypes where
  object : TypeId
  attributeType : TypeId
  assembledTypeAttribute : TypeId
  deriving DecidableEq, Repr, Inhabited

/-- A listed type with its token and the full name it had. -/
structure Listing where
  token : Token
  name : String
  type : TypeId
  deriving DecidableEq, Repr, Inhabited

structure Registry where
  /-- In the order in which the types were listed. -/
  listings : Array Listing := #[]
  counters : TokenCounters := {}
  core : CoreTypes := default
  deriving Repr, Inhabited

namespace Registry

def find? (r : Registry) (token : Token) : Option TypeId :=
  (r.listings.find? fun l => l.token == token).map (·.type)

def require (r : Registry) (token : Token) : Except Fault TypeId :=
  match r.find? token with
  | some t => .ok t
  | none => .error (.typeNotFound token.text)

def named (r : Registry) (name : String) : List TypeId :=
  (r.listings.toList.filter fun l => l.name == name).map (·.type)

def requireNamed (r : Registry) (name : String) : Except Fault TypeId :=
  match (r.named name).head? with
  | some t => .ok t
  | none => .error (.typeNotFound name)

def hasName (r : Registry) (name : String) : Bool := r.listings.any fun l => l.name == name

/-- Lists a type, unless its token is listed already. -/
def insert (r : Registry) (u : Universe) (t : TypeId) : Registry :=
  if (r.find? (u.record t).token).isSome then r
  else { r with listings := r.listings.push ⟨(u.record t).token, u.fullName t, t⟩ }

def size (r : Registry) : Nat := r.listings.size

def types (r : Registry) : List TypeId :=
  (r.listings.toList.mergeSort fun a b => a.token.value ≤ b.token.value).map (·.type)

end Registry

/-! ### A registry with its universe -/

structure TypeSpace where
  program : Universe := {}
  registry : Registry := {}
  deriving Repr, Inhabited

namespace TypeSpace

def nextToken (kind : TokenKind) : Attempt TypeSpace Token := do
  let space ← get
  let (token, counters) := space.registry.counters.next kind
  set { space with registry := { space.registry with counters := counters } }
  return token

def edit (t : TypeId) (change : TypeRecord → TypeRecord) : Attempt TypeSpace Unit :=
  modify fun space => { space with program := space.program.modify t change }

def addType (record : TypeRecord) : Attempt TypeSpace TypeId := do
  let space ← get
  set { space with program := space.program.push record }
  return space.program.nextId

def list (t : TypeId) : Attempt TypeSpace Unit :=
  modify fun space => { space with registry := space.registry.insert space.program t }

def currentProgram : Attempt TypeSpace Universe := do return (← get).program

end TypeSpace

/-! ### Relations that are set once -/

namespace Universe

def setBase (u : Universe) (t base : TypeId) : Except Fault Universe :=
  if (u.record t).base.isSome then
    .error (.invalidOperation ("Base type of '" ++ u.fullName t ++ "' is already set"))
  else .ok (u.modify t fun r => { r with base := some base })

def setDeclaring (u : Universe) (t outer : TypeId) : Except Fault Universe :=
  if (u.record t).declaring.isSome then
    .error (.invalidOperation ("Declaring type of '" ++ (u.record t).name ++ "' is already set"))
  else .ok (u.modify t fun r => { r with declaring := some outer })

def setInitializer (u : Universe) (t : TypeId) (m : MethodId) : Except Fault Universe :=
  if (u.record t).initializer.isSome then
    .error (.invalidOperation ("Type '" ++ u.fullName t ++ "' already has a type initializer"))
  else .ok (u.modify t fun r => { r with initializer := some m })

/-- The body of a method; abstract methods have none, and it can be set once. -/
def setBody (u : Universe) (m : MethodId) (body : Expr) : Except Fault Universe :=
  if (u.method m).isAbstract then
    .error (.invalidOperation ("Abstract method '" ++ u.methodName m ++ "' cannot have a body"))
  else if (u.method m).body.isSome then
    .error (.invalidOperation ("Method '" ++ u.methodName m ++ "' already has a body"))
  else .ok (u.modifyMethod m fun r => { r with body := some body })

end Universe

def TypeSpace.apply (change : Universe → Except Fault Universe) : Attempt TypeSpace Unit := do
  match change (← get).program with
  | .ok u => modify fun space => { space with program := u }
  | .error fault => throw fault

end TypeLoom
