import TypeLoom.Program.Display
import TypeLoom.Markup.Write
import TypeLoom.Artifact.Header

/-!
# Writing types

Types as elements. Types are referred to by full name, methods by the full name of their type, their
name and the signatures of their parameters. What cannot be referred to like that is refused: types
that are gone, descriptors, and objects.
-/

namespace TypeLoom.Artifact

open Markup

variable (u : Universe)

/-! ### References -/

def encodeSignature : Signature → Except Fault String
  | .ofClass t =>
    if u.isPresent t then .ok ("class:" ++ u.fullName t)
    else .error (.persistence "Signature refers to a dropped type")
  | .draft h => .error (.persistence ("Signature still refers to descriptor " ++ h.text))
  | plain => .ok plain.keyword

def encodeParameters (s : MethodSignature) : Except Fault String := do
  return ";".intercalate (← s.types.mapM (encodeSignature u))

def encodeMethodReference (element : String) (m : MethodId) : Except Fault Node :=
  match u.methodOwner? m with
  | none => .error (.persistence ("Method '" ++ (u.method m).name ++ "' lost its declaring type"))
  | some owner => do
    let parameters ← encodeParameters u (u.method m).signature
    return (((Node.named element).attr "declaring" (u.fullName owner)).attr "name"
      (u.method m).name).attr
      "params" parameters

def encodeAccessor (element : String) (m : MethodId) : Except Fault Node := do
  let parameters ← encodeParameters u (u.method m).signature
  return ((Node.named element).attr "name" (u.method m).name).attr "params" parameters

def encodeFieldReference (element : String) (f : FieldId) : Except Fault Node :=
  match u.fieldOwner? f with
  | none => .error (.persistence ("Field '" ++ (u.field f).name ++ "' lost its declaring type"))
  | some owner =>
    .ok (((Node.named element).attr "declaring" (u.fullName owner)).attr "name" (u.field f).name)

def requireMethodTarget : MethodTarget → Except Fault MethodId
  | .member m =>
    if u.isPresent m.owner then .ok m else .error (.persistence "Body refers to a dropped method")
  | .draft h => .error (.persistence ("Body still refers to descriptor method " ++ h.text))

def requireFieldTarget : FieldTarget → Except Fault FieldId
  | .member f =>
    if u.isPresent f.owner then .ok f else .error (.persistence "Body refers to a dropped field")
  | .draft h => .error (.persistence ("Body still refers to descriptor field " ++ h.text))

/-! ### Values -/

def partNode (kind value : String) : Node :=
  ((Node.named "part").attr "kind" kind).attr "value" value

mutual

def encodePart : Part → Node
  | .bool value => partNode "bool" (boolText value)
  | .int value => partNode "int" (toString value.toInt)
  | .text value => partNode "str" value
  | .list items => ((Node.named "part").attr "kind" "list").append (encodeParts items)

def encodeParts : List Part → List Node
  | [] => []
  | item :: items => encodePart item :: encodeParts items

end

def encodePart? : Option Part → Node
  | none => (Node.named "part").attr "kind" "none"
  | some part => encodePart part

def valueNode (kind : String) : Node := (Node.named "value").attr "kind" kind

def encodeValue : Value → Except Fault Node
  | .void => .ok (valueNode "void")
  | .null => .ok (valueNode "null")
  | .boolean value => .ok ((valueNode "bool").attr "value" (boolText value))
  | .i4 value => .ok ((valueNode "int32").attr "value" (toString value.toInt))
  | .i8 value => .ok ((valueNode "int64").attr "value" (toString value.toInt))
  | .r8 value => .ok ((valueNode "float64").attr "value" (Decimal.doubleText value))
  | .string value => .ok ((valueNode "string").attr "value" value)
  | .type t => .ok ((valueNode "type").attr "type" (u.fullName t))
  | .identifier id =>
    .ok (((valueNode "identifier").attr "requested" (u.fullName id.requested)).append
      (id.parts.map encodePart?))
  | .object o =>
    .error (.persistence ("Instances of '" ++ u.fullName o.type ++ "' cannot be persisted"))

/-! ### Expressions -/

mutual

def encodeExpr : Expr → Except Fault Node
  | .constant value => do return (Node.named "constant").child (← encodeValue u value)
  | .this => .ok (Node.named "this")
  | .argument index => .ok ((Node.named "argument").attr "index" (toString index.toNat))
  | .block items => do return (Node.named "block").append (← encodeAll items)
  | .call receiver method arguments dispatch => do
    let m ← requireMethodTarget u method
    let n ← encodeMethodReference u "call" m
    let receiver ← encodeReceiver receiver
    let arguments ← encodeAll arguments
    return ((n.attr "dispatch" dispatch.text).append receiver).child
      ((Node.named "arguments").append arguments)
  | .new constructor arguments => do
    let c ← requireMethodTarget u constructor
    let n ← encodeMethodReference u "new" c
    let arguments ← encodeAll arguments
    return n.child ((Node.named "arguments").append arguments)
  | .load receiver field => do
    let f ← requireFieldTarget u field
    let n ← encodeFieldReference u "load" f
    return n.append (← encodeReceiver receiver)
  | .store receiver field value => do
    let f ← requireFieldTarget u field
    let n ← encodeFieldReference u "store" f
    let receiver ← encodeReceiver receiver
    let value ← encodeExpr value
    return (n.append receiver).child ((Node.named "value-of").child value)
  | .binary op left right => do
    let left ← encodeExpr left
    let right ← encodeExpr right
    return ((Node.named "binary").attr "op" op.text).append [left, right]
  | .choose condition positive negative => do
    let condition ← encodeExpr condition
    let positive ← encodeExpr positive
    let negative ← encodeExpr negative
    return (Node.named "condition").append [condition, positive, negative]

def encodeAll : List Expr → Except Fault (List Node)
  | [] => .ok []
  | item :: items => do
    let n ← encodeExpr item
    let ns ← encodeAll items
    return n :: ns

def encodeReceiver : Option Expr → Except Fault (List Node)
  | none => .ok []
  | some receiver => do return [(Node.named "instance").child (← encodeExpr receiver)]

end

/-! ### Members and types -/

def encodePositional (value : Value) : Except Fault Node := do
  return (Node.named "positional").child (← encodeValue u value)

def encodeNamed (value : String × Value) : Except Fault Node := do
  return ((Node.named "named").attr "name" value.1).child (← encodeValue u value.2)

def encodeAttribute (a : Attribute) : Except Fault Node := do
  let n ← encodeMethodReference u "attribute" a.constructor
  let positional ← a.arguments.mapM (encodePositional u)
  let named ← a.named.mapM (encodeNamed u)
  return n.append (positional ++ named)

def encodeAttributes (attributes : Array Attribute) : Except Fault (List Node) :=
  attributes.toList.mapM (encodeAttribute u)

def flagsText (flags : UInt32) : String := toString flags.toNat

def encodeField (f : FieldRecord) : Except Fault Node := do
  let type ← encodeSignature u f.signature
  let n := (((Node.named "field").attr "name" f.name).attr "type" type).attr "flags"
    (flagsText f.flags)
  return n.append (← encodeAttributes u f.attributes)

def encodeParameter (p : Parameter) : Except Fault Node := do
  return ((Node.named "param").attr "name" p.name).attr "type" (← encodeSignature u p.type)

def encodeBody (body : Expr) : Except Fault Node :=
  do return (Node.named "body").child (← encodeExpr u body)

def encodeMethod (element : String) (m : MethodRecord) : Except Fault Node := do
  let returns ← encodeSignature u m.signature.returns
  let n := (((Node.named element).attr "name" m.name).attr "flags" (flagsText m.flags)).attr
    "returns" returns
  let parameters ← m.signature.parameters.mapM (encodeParameter u)
  let attributes ← encodeAttributes u m.attributes
  let body ← m.body.toList.mapM (encodeBody u)
  return n.append (parameters ++ attributes ++ body)

def encodeProperty (p : PropertyRecord) : Except Fault Node := do
  let type ← encodeSignature u p.signature
  let getter ← p.getter.toList.mapM (encodeAccessor u "getter")
  let setter ← p.setter.toList.mapM (encodeAccessor u "setter")
  return (((Node.named "property").attr "name" p.name).attr "type" type).append (getter ++ setter)

def encodeEvent (e : EventRecord) : Except Fault Node := do
  let type ← encodeSignature u e.type
  let add ← encodeAccessor u "add" e.add
  let remove ← encodeAccessor u "remove" e.remove
  let raise ← e.raise.toList.mapM (encodeAccessor u "raise")
  return (((Node.named "event").attr "name" e.name).attr "type" type).append
    ([add, remove] ++ raise)

def encodeOverride (o : Override) : Except Fault Node := do
  let declaration ← encodeMethodReference u "declaration" o.declaration
  let implementation ← encodeAccessor u "implementation" o.body
  return (Node.named "override").append [declaration, implementation]

def encodeInterface (i : TypeId) : Except Fault Node := do
  return (Node.named "interface").attr "type" (← encodeSignature u (.ofClass i))

def encodeBase (base : Option TypeId) : Except Fault (Option String) :=
  base.mapM fun b => encodeSignature u (.ofClass b)

def typeNode (space name : String) (flags : UInt32) (declaring base : Option String) : Node :=
  ((((Node.named "type").attr "namespace" space).attr "name" name).attr "flags"
    (flagsText flags)).attr?
    "declaring" declaring |>.attr? "base" base

def encodeTypeHead (t : TypeId) : Except Fault Node := do
  let r := u.record t
  return typeNode r.space r.name r.flags ((u.declaring? t).map u.fullName) (← encodeBase u r.base)

def encodeType (t : TypeId) : Except Fault Node := do
  let r := u.record t
  let head ← encodeTypeHead u t
  let interfaces ← r.interfaces.toList.mapM (encodeInterface u)
  let attributes ← encodeAttributes u r.attributes
  let fields ← r.fields.toList.mapM (encodeField u)
  let constructors ← r.constructors.toList.mapM (encodeMethod u "constructor")
  let initializer ← r.initializer.toList.mapM fun m => encodeMethod u "initializer" (u.method m)
  let methods ← r.methods.toList.mapM (encodeMethod u "method")
  let properties ← r.properties.toList.mapM (encodeProperty u)
  let events ← r.events.toList.mapM (encodeEvent u)
  let overrides ← r.overrides.toList.mapM (encodeOverride u)
  return head.append (interfaces ++ attributes ++ fields ++ constructors ++ initializer ++ methods
    ++ properties ++ events ++ overrides)

def encode (h : Header) (types : List TypeId) : Except Fault String := do
  return (h.node.append (← types.mapM (encodeType u))).render

end TypeLoom.Artifact
