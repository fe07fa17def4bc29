import TypeLoom.Program.Dispatch
import TypeLoom.Report.Fault
import TypeLoom.Run.Heap

/-!
# Reports of a program

Types, members, values and objects as plain data. A type is reported by its full name and token, a
member by its text and flags; a type that is gone is reported as nothing.
-/

namespace TypeLoom.Report

variable (u : Universe)

/-! ### Names -/

def type (t : TypeId) : Datum := .text (u.typeText t)

def presentType (t : TypeId) : Datum := if u.isPresent t then type u t else .nothing

def types (ts : List TypeId) : Datum := .list (ts.map (type u))

def method (m : MethodId) : Datum :=
  .text (u.methodText m ++ " " ++ toString (u.method m).flags.toNat)

def methods (ms : List MethodId) : Datum := .list (ms.map (method u))

def field (f : FieldId) : Datum := .text (u.fieldText f ++ " " ++ toString (u.field f).flags.toNat)

def fields (fs : List FieldId) : Datum := .list (fs.map (field u))

/-! ### Values -/

mutual

def part : Part → Datum
  | .bool value => .truth value
  | .int value => .record [("int", .text (toString value.toInt))]
  | .text value => .text value
  | .list items => .list (parts items)

def parts : List Part → List Datum
  | [] => []
  | item :: items => part item :: parts items

end

def identifier (id : Identifier) : Datum :=
  .record [("requested", type u id.requested),
    ("parts", .list (id.parts.map (Datum.ofOption part)))]

def double (x : Double) : Datum :=
  .record [("r8", .text (if x.isNaN then "nan" else hexText 16 x.bits.toNat))]

def value : Value → Datum
  | .void => .record [("void", .truth true)]
  | .null => .nothing
  | .boolean b => .truth b
  | .i4 n => .record [("i4", .number n.toInt)]
  | .i8 n => .record [("i8", .text (toString n.toInt))]
  | .r8 x => double x
  | .string s => .text s
  | .object o => .record [("obj", type u o.type)]
  | .type t => .record [("type", type u t)]
  | .identifier id => .record [("id", identifier u id)]

def values (vs : List Value) : Datum := .list (vs.map (value u))

def namedValues (pairs : List (String × Value)) : Datum :=
  .list (pairs.map fun (name, v) => .list [.text name, value u v])

/-- The value of a field of an object, or the fault of reading it. -/
def slot (h : Heap) (o : ObjectRef) (f : FieldId) : Datum :=
  .list [.text (u.field f).name,
    match h.getField u o (u.field f).name with
    | .ok v => value u v
    | .error fault => fault.report]

def object (h : Heap) (o : ObjectRef) : Datum :=
  .record [("object", type u o.type),
    ("fields", .list ((u.instanceFields o.type).map (slot u h o)))]

/-- What a value says about itself, and whether it is the same as another one. -/
def valueDetails (a b : Value) : Datum :=
  .record [("display", .text (a.display u)), ("debug", .text (a.detail u)),
    ("eq", .truth (a.same u b)),
    ("null", .truth (a == .null)), ("str", .ofOption .text a.string?),
    ("i4", .ofOption (fun n => .number n.toInt) a.i4?), ("bool", .ofOption .truth a.boolean?),
    ("object", .ofOption (fun o => type u o.type) a.object?), ("type", .ofOption (type u) a.type?),
    ("id", .ofOption (identifier u) a.identifier?)]

/-- What a signature says about itself, and how it compares with another one. -/
def signatureDetails (a b : Signature) : Datum :=
  .record [("display", .text (a.display u)), ("eq", .truth (a == b)),
    ("same_hash", .truth (a.key u == b.key u)), ("void", .truth a.isVoid),
    ("reference", .truth a.isReference), ("default", value u a.defaultValue),
    ("type", .ofOption (type u) (a.class?.bind u.present?)),
    ("handle", .ofOption (fun h => .ofNat h.index) a.draft?),
    ("assignable", .truth (a.isAssignableFrom u b))]

def methodSignatureDetails (a b : MethodSignature) : Datum :=
  .record [("display", .text (a.display u)), ("matches", .truth (a.agrees b)),
    ("params", .truth (a.sameParameters b)), ("arity", .ofNat a.arity),
    ("names", .texts (a.parameters.map (·.name)))]

def ordering : Ordering → Datum
  | .lt => .number (-1)
  | .eq => .number 0
  | .gt => .number 1

def partDetails (a b : Part) : Datum :=
  .record [("display", .text a.display), ("eq", .truth (a == b)), ("cmp", ordering (a.order b)),
    ("str", .ofOption .text a.text?)]

def identifierDetails (a b : Identifier) (index : Nat) : Datum :=
  .record [("display", .text (a.display u)), ("debug", .text (a.detail u)), ("eq", .truth (a == b)),
    ("part", .ofOption part (a.part? index))]

def tokenDetails (t : Token) : Datum :=
  .list [.text t.text, .text t.detail, .ofNat t.value.toNat, .ofNat t.table.toNat,
    .ofOption (fun k => .text k.text) t.kind?, .ofNat t.row.toNat, .truth t.isNull]

def flagDetails (word : UInt32) : Datum :=
  .record [("access", .texts [(Access.ofBits word).text, (Access.ofBits word).text]),
    ("subclass", .truth (Access.ofBits word).openToSubclasses),
    ("visibility", .ofNat (TypeFlags.visibility word).toNat),
      ("visible", .truth (TypeFlags.isVisible word))]

/-! ### Attributes and members -/

def attributeRecord (a : Attribute) : Datum :=
  .record [("type", .ofOption (type u) (u.methodOwner? a.constructor)),
    ("ctor", method u a.constructor),
    ("args", values u a.arguments), ("named", namedValues u a.named)]

def attributes (as : List Attribute) : Datum := .list (as.map (attributeRecord u))

def methodRecord (m : MethodId) : Datum :=
  let r := u.method m
  .record [("method", method u m), ("kind", .text r.kind.text), ("access", .text r.access.text),
    ("params", .texts (r.signature.parameters.map (·.name))), ("body", .truth r.body.isSome),
    ("attrs", attributes u r.attributes.toList),
    ("is", .list ([r.isStatic, r.isVirtual, r.isAbstract, r.isFinal, r.isNewSlot,
      r.isConstructor].map
      .truth))]

def fieldRecord (f : FieldId) : Datum :=
  let r := u.field f
  .record [("field", field u f), ("static", .truth r.isStatic), ("access", .text r.access.text),
    ("attrs", attributes u r.attributes.toList)]

def propertyRecord (owner : TypeId) (p : PropertyRecord) : Datum :=
  .record [("name", .text p.name), ("token", .text p.token.text),
    ("sig", .text (p.signature.display u)),
    ("flags", .ofNat p.flags.toNat), ("getter", .ofOption (method u) p.getter),
    ("setter", .ofOption (method u) p.setter), ("declaring", presentType u owner)]

def eventRecord (owner : TypeId) (e : EventRecord) : Datum :=
  .record [("name", .text e.name), ("token", .text e.token.text), ("sig", .text (e.type.display u)),
    ("flags", .ofNat e.flags.toNat), ("add", method u e.add), ("remove", method u e.remove),
    ("raise", .ofOption (method u) e.raise), ("declaring", presentType u owner)]

def property (p : PropertyId) : Datum :=
  .ofOption (fun r => .text (r.signature.display u ++ " " ++ r.name ++ " " ++ r.token.text))
    (u.property? p)

def event (e : EventId) : Datum :=
  .ofOption (fun r => .text (r.type.display u ++ " " ++ r.name ++ " " ++ r.token.text)) (u.event? e)

def typeRecord (t : TypeId) : Datum :=
  let r := u.record t
  .record [("type", type u t), ("namespace", .text r.space), ("name", .text r.name),
    ("flags", .ofNat r.flags.toNat), ("origin", .text r.origin.text),
    ("complete", .truth r.complete),
    ("abstract", .truth r.isAbstract), ("sealed", .truth r.isSealed),
      ("interface", .truth r.isInterface),
    ("base", .ofOption (type u) r.base), ("declaring", .ofOption (type u) (u.declaring? t)),
    ("interfaces", types u r.interfaces.toList),
      ("fields", .list ((u.fieldsOf t).map (fieldRecord u))),
    ("ctors", .list ((u.constructorsOf t).map (methodRecord u))),
    ("methods", .list ((u.methodsOf t).map (methodRecord u))),
    ("cctor", .ofOption (methodRecord u) r.initializer),
    ("properties", .list (r.properties.toList.map (propertyRecord u t))),
    ("events", .list (r.events.toList.map (eventRecord u t))),
    ("nested", .list (r.nested.toList.map (presentType u))),
      ("attrs", attributes u r.attributes.toList),
    ("overrides", .list (r.overrides.toList.map fun o => methods u [o.declaration, o.body]))]

end TypeLoom.Report
