import TypeLoom.Build.Member
import TypeLoom.Markup.Read
import TypeLoom.Artifact.Reference
import TypeLoom.Program.Expr

/-!
# Reading types

A module is read in three passes: its types are declared, then their members, then attributes,
bodies and overrides, which may refer to all of them. Only then are the types listed. A module that
cannot be read lists nothing.
-/

namespace TypeLoom.Artifact

open Markup

/-! ### Values -/

mutual

def decodePart : Node → Except Fault (Option Part)
  | .element name attributes children => do
    let n := Node.element name attributes children
    match ← n.require "kind" with
    | "none" => return none
    | "bool" => return some (.bool (← readAttribute n "value" Decimal.boolean?))
    | "int" => return some (.int (← readAttribute n "value" readInt64))
    | "str" => return some (.text (← n.require "value"))
    | "list" => return some (.list (← decodeParts children))
    | other => throw (.persistence ("Unknown identifier part kind '" ++ other ++ "'"))

/-- The parts among the elements; in a list none may be missing. -/
def decodeParts : List Node → Except Fault (List Part)
  | [] => return []
  | n :: ns => do
    if n.name = "part" then
      let some part := ← decodePart n | throw (.persistence "List parts cannot be empty")
      return part :: (← decodeParts ns)
    else decodeParts ns

end

def decodeValue (s : Scope) (n : Node) : Except Fault Value := do
  match ← n.require "kind" with
  | "void" => return .void
  | "null" => return .null
  | "bool" => return .boolean (← readAttribute n "value" Decimal.boolean?)
  | "int32" => return .i4 (← readAttribute n "value" readInt32)
  | "int64" => return .i8 (← readAttribute n "value" readInt64)
  | "float64" => return .r8 (← readAttribute n "value" Decimal.double?)
  | "string" => return .string (← n.require "value")
  | "type" => return .type (← s.type (← n.require "type"))
  | "identifier" => do
    let requested ← s.type (← n.require "requested")
    let parts ← (n.childrenNamed "part").mapM decodePart
    return .identifier { requested, parts }
  | other => throw (.persistence ("Unknown value kind '" ++ other ++ "'"))

/-! ### Expressions -/

/-- The fault for an element with too few or too many elements inside. -/
def wrongCount (name what : String) : Fault :=
  .persistence ("<" ++ name ++ "> must contain exactly " ++ what)

mutual

def decodeExpr (s : Scope) : Node → Except Fault Expr
  | .element name attributes children => do
    let n := Node.element name attributes children
    match name with
    | "constant" => return .constant (← decodeValue s (← n.requireChild "value"))
    | "this" => return .this
    | "argument" => return .argument (← readAttribute n "index" readIndex)
    | "block" => return .block (← decodeAll s children)
    | "call" => do
      let receiver ← decodeReceiver s children
      let method ← s.method n
      let arguments ← decodeArguments s children
      let dispatch ← readAttribute n "dispatch" Dispatch.ofText?
      return .call receiver (.member method) arguments dispatch
    | "new" => do
      let constructor ← s.method n
      let arguments ← decodeArguments s children
      return .new (.member constructor) arguments
    | "load" => do
      let receiver ← decodeReceiver s children
      let field ← s.field n
      return .load receiver (.member field)
    | "store" => do
      let receiver ← decodeReceiver s children
      let field ← s.field n
      let some value := ← decodeStored s children | throw (n.missingChild "value-of")
      return .store receiver (.member field) value
    | "binary" => do
      let [left, right] := ← decodeAll s children | throw (wrongCount name "2 operands")
      let op ← readAttribute n "op" Operator.ofText?
      return .binary op left right
    | "condition" => do
      let [condition, positive, negative] :=
        ← decodeAll s children | throw (wrongCount name "3 operands")
      return .choose condition positive negative
    | other => throw (.persistence ("Unknown expression <" ++ other ++ ">"))

def decodeAll (s : Scope) : List Node → Except Fault (List Expr)
  | [] => return []
  | n :: ns => do
    let e ← decodeExpr s n
    let es ← decodeAll s ns
    return e :: es

def decodeSingle (s : Scope) (name : String) : List Node → Except Fault Expr
  | [n] => decodeExpr s n
  | _ => throw (wrongCount name "one expression")

def decodeReceiver (s : Scope) : List Node → Except Fault (Option Expr)
  | [] => return none
  | .element name _ children :: ns => do
    if name = "instance" then return some (← decodeSingle s name children) else decodeReceiver s ns

def decodeArguments (s : Scope) : List Node → Except Fault (List Expr)
  | [] => return []
  | .element name _ children :: ns => do
    if name = "arguments" then decodeAll s children else decodeArguments s ns

def decodeStored (s : Scope) : List Node → Except Fault (Option Expr)
  | [] => return none
  | .element name _ children :: ns => do
    if name = "value-of" then return some (← decodeSingle s name children) else decodeStored s ns

end

def decodePositional (s : Scope) (n : Node) : Except Fault Value :=
  do decodeValue s (← n.requireChild "value")

def decodeNamed (s : Scope) (n : Node) : Except Fault (String × Value) := do
  let name ← n.require "name"
  return (name, ← decodeValue s (← n.requireChild "value"))

def decodeAttribute (s : Scope) (n : Node) : Except Fault Attribute := do
  let arguments ← (n.childrenNamed "positional").mapM (decodePositional s)
  let named ← (n.childrenNamed "named").mapM (decodeNamed s)
  return { constructor := ← s.method n, arguments, named }

/-! ### Loading -/

/-- The type space, the types declared so far, and those among them that full names stand for. -/
structure Loading where
  space : TypeSpace
  declared : Array TypeId := #[]
  here : Keyed String TypeId := []

namespace Loading

variable {α : Type}

def inSpace (act : Attempt TypeSpace α) : Attempt Loading α :=
  act.within (·.space) fun space l => { l with space }

def scope (l : Loading) : Scope := ⟨l.space.program, l.space.registry, l.here⟩

def resolve (find : Scope → Except Fault α) : Attempt Loading α :=
  do Attempt.lift (find (← get).scope)

/-! ### First pass: types -/

def enclose (t : TypeId) (n : Node) : Attempt Loading Unit :=
  match n.get? "declaring" with
  | none => return ()
  | some declaring => do
    let outer ← resolve (·.type declaring)
    inSpace (TypeSpace.nestIn t outer)

def declare (n : Node) : Attempt Loading TypeId := do
  let token ← inSpace (TypeSpace.nextToken .type)
  let space ← Attempt.lift (n.require "namespace")
  let name ← Attempt.lift (n.require "name")
  let flags ← Attempt.lift (readFlags n)
  let t ← inSpace (TypeSpace.addType { token, space, name, flags, origin := .loaded })
  modify fun l => { l with declared := l.declared.push t }
  enclose t n
  modify fun l => { l with here := l.here.put (l.space.program.fullName t) t }
  return t

/-! ### Second pass: members -/

def edit (t : TypeId) (change : TypeRecord → TypeRecord) : Attempt Loading Unit :=
  inSpace (TypeSpace.edit t change)

def classNamed (text : String) (fault : Fault) : Attempt Loading TypeId := do
  match ← resolve (·.signature text) with
  | .ofClass t => return t
  | _ => throw fault

def defineBase (t : TypeId) (n : Node) : Attempt Loading Unit :=
  match n.get? "base" with
  | none => return ()
  | some text => do
    let base ← classNamed text (.persistence ("Invalid base '" ++ text ++ "'"))
    inSpace (TypeSpace.apply fun u => u.setBase t base)

def defineInterface (t : TypeId) (n : Node) : Attempt Loading Unit := do
  let text ← Attempt.lift (n.require "type")
  let interface ← classNamed text (.persistence "Invalid interface reference")
  edit t fun r => { r with interfaces := r.interfaces.push interface }

def defineField (t : TypeId) (n : Node) : Attempt Loading Unit := do
  let token ← inSpace (TypeSpace.nextToken .field)
  let name ← Attempt.lift (n.require "name")
  let text ← Attempt.lift (n.require "type")
  let signature ← resolve (·.signature text)
  let flags ← Attempt.lift (readFlags n)
  edit t fun r => { r with fields := r.fields.push { token, name, signature, flags } }

/-- The token, name, flags and signature of a method element, in the order in which they are
read. -/
def methodRecord (kind : MethodKind) (n : Node) : Attempt Loading MethodRecord := do
  let token ← inSpace (TypeSpace.nextToken .method)
  let name ← Attempt.lift (n.require "name")
  let flags ← Attempt.lift (readFlags n)
  let signature ← resolve (·.methodSignature n)
  return { token, name, kind, flags, signature }

def defineConstructor (t : TypeId) (n : Node) : Attempt Loading Unit := do
  let record ← methodRecord .constructor n
  edit t fun r => { r with constructors := r.constructors.push record }

def defineInitializer (t : TypeId) (n : Node) : Attempt Loading Unit :=
  match n.childNamed? "initializer" with
  | none => return ()
  | some i => do
    let record ← methodRecord .typeInitializer i
    inSpace (TypeSpace.apply fun u => u.setInitializer t ⟨t, .typeInitializer⟩)
    edit t fun r => { r with ownInitializer := some record }

def defineMethod (t : TypeId) (n : Node) : Attempt Loading Unit := do
  let record ← methodRecord .method n
  edit t fun r => { r with methods := r.methods.push record }

def defineProperty (t : TypeId) (n : Node) : Attempt Loading Unit := do
  let getter ← (n.childNamed? "getter").mapM fun g => resolve (·.methodOn t g)
  let setter ← (n.childNamed? "setter").mapM fun g => resolve (·.methodOn t g)
  let token ← inSpace (TypeSpace.nextToken .property)
  let name ← Attempt.lift (n.require "name")
  let text ← Attempt.lift (n.require "type")
  let signature ← resolve (·.signature text)
  edit t fun r =>
    { r with properties := r.properties.push { token, name, signature, flags := 0, getter, setter } }

def defineEvent (t : TypeId) (n : Node) : Attempt Loading Unit := do
  let raise ← (n.childNamed? "raise").mapM fun g => resolve (·.methodOn t g)
  let token ← inSpace (TypeSpace.nextToken .event)
  let name ← Attempt.lift (n.require "name")
  let text ← Attempt.lift (n.require "type")
  let type ← resolve (·.signature text)
  let add ← resolve fun s => do s.methodOn t (← n.requireChild "add")
  let remove ← resolve fun s => do s.methodOn t (← n.requireChild "remove")
  edit t fun r =>
    { r with events := r.events.push { token, name, type, flags := 0, add, remove, raise } }

def define (n : Node) (t : TypeId) : Attempt Loading Unit := do
  defineBase t n
  (n.childrenNamed "interface").forM (defineInterface t)
  (n.childrenNamed "field").forM (defineField t)
  (n.childrenNamed "constructor").forM (defineConstructor t)
  defineInitializer t n
  (n.childrenNamed "method").forM (defineMethod t)
  (n.childrenNamed "property").forM (defineProperty t)
  (n.childrenNamed "event").forM (defineEvent t)

/-! ### Third pass: attributes, bodies and overrides -/

def change (f : Universe → Universe) : Attempt Loading Unit :=
  inSpace (modify fun space => { space with program := f space.program })

def attachAttribute (t : TypeId) (n : Node) : Attempt Loading Unit := do
  let a ← resolve fun s => decodeAttribute s n
  edit t fun r => { r with attributes := r.attributes.push a }

def attachFieldAttribute (f : FieldId) (n : Node) : Attempt Loading Unit := do
  let a ← resolve fun s => decodeAttribute s n
  change fun u => u.modifyField f fun r => { r with attributes := r.attributes.push a }

def attachMethodAttribute (m : MethodId) (n : Node) : Attempt Loading Unit := do
  let a ← resolve fun s => decodeAttribute s n
  change fun u => u.modifyMethod m fun r => { r with attributes := r.attributes.push a }

def attachBody (m : MethodId) (n : Node) : Attempt Loading Unit :=
  match n.childNamed? "body" with
  | none => return ()
  | some b => do
    let body ← resolve fun s => decodeSingle s b.name b.children
    inSpace (TypeSpace.setBody m body)

def attachMethod (m : MethodId) (n : Node) : Attempt Loading Unit := do
  (n.childrenNamed "attribute").forM (attachMethodAttribute m)
  attachBody m n

def attachField (f : FieldId) (n : Node) : Attempt Loading Unit :=
  (n.childrenNamed "attribute").forM (attachFieldAttribute f)

def attachOverride (t : TypeId) (n : Node) : Attempt Loading Unit := do
  let declaration ← resolve fun s => do s.method (← n.requireChild "declaration")
  let body ← resolve fun s => do s.methodOn t (← n.requireChild "implementation")
  edit t fun r => { r with overrides := r.overrides.push { declaration, body } }

/-- The elements of members go with the members at their places. -/
def attach (n : Node) (t : TypeId) : Attempt Loading Unit := do
  (n.childrenNamed "attribute").forM (attachAttribute t)
  let u := (← get).space.program
  ((n.childrenNamed "field").zip (u.fieldsOf t)).forM fun p => attachField p.2 p.1
  ((n.childrenNamed "constructor").zip (u.constructorsOf t)).forM fun p => attachMethod p.2 p.1
  ((n.childNamed? "initializer").toList.zip (u.record t).initializer.toList).forM fun p =>
    attachMethod p.2 p.1
  ((n.childrenNamed "method").zip (u.methodsOf t)).forM fun p => attachMethod p.2 p.1
  (n.childrenNamed "override").forM (attachOverride t)

/-! ### All passes -/

def finish (t : TypeId) : Attempt Loading Unit := do
  inSpace (TypeSpace.markComplete t)
  inSpace (TypeSpace.list t)

def passes (nodes : List Node) : Attempt Loading (List TypeId) := do
  let types ← nodes.mapM declare
  (nodes.zip types).forM fun p => define p.1 p.2
  (nodes.zip types).forM fun p => attach p.1 p.2
  types.forM finish
  return types

/-- All passes; the types of a module that cannot be read are given up. -/
def load (nodes : List Node) : Attempt Loading (List TypeId) :=
  (passes nodes).onFault fun l => { l with space := TypeSpace.drop l.declared.toList l.space }

end Loading

def decode (text : String) : Attempt TypeSpace (Header × List TypeId) := do
  let root ← Attempt.lift (Node.parse text)
  let header ← Attempt.lift (Header.ofNode root)
  let (outcome, after) := (Loading.load (root.childrenNamed "type")).start { space := ← get }
  set after.space
  match outcome with
  | .ok types => return (header, types)
  | .error fault => throw fault

end TypeLoom.Artifact
