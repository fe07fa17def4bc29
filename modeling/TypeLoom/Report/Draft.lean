import TypeLoom.Draft.Edit
import TypeLoom.Emit.Emitted
import TypeLoom.Report.Program

/-!
# Reports of batches

Handles, bodies and descriptors as plain data, and what became of them.
-/

namespace TypeLoom.Report

/-! ### Handles -/

def typeHandle (h : TypeHandle) : Datum := .ofNat h.index

def methodHandle (h : MethodHandle) : Datum :=
  match h.slot with
  | .method index => .list [typeHandle h.owner, .text "m", .ofNat index]
  | .constructor index => .list [typeHandle h.owner, .text "c", .ofNat index]
  | .typeInitializer => .list [typeHandle h.owner, .text "i"]

def fieldHandle (h : FieldHandle) : Datum := .list [typeHandle h.owner, .ofNat h.index]

def propertyHandle (h : PropertyHandle) : Datum := .list [typeHandle h.owner, .ofNat h.index]

def eventHandle (h : EventHandle) : Datum := .list [typeHandle h.owner, .ofNat h.index]

def editAnswer : EditAnswer → Datum
  | .done => .nothing
  | .type h => typeHandle h
  | .field h => fieldHandle h
  | .method h => methodHandle h
  | .property h => propertyHandle h
  | .event h => eventHandle h
  | .registered h created => .record [("h", methodHandle h), ("created", .truth created)]
  | .truth value => .truth value

/-! ### Bodies -/

variable (u : Universe)

def node : Expr → String
  | .constant v => "const " ++ v.display u
  | .this => "this"
  | .argument index => "arg " ++ toString index.toNat
  | .block items => "block " ++ toString items.length
  | .call _ target _ dispatch => "call " ++ target.display u ++ " " ++ dispatch.text
  | .new target _ => "new " ++ target.display u
  | .load _ f => "load " ++ f.display u
  | .store _ f _ => "store " ++ f.display u
  | .binary op _ _ => "bin " ++ op.text
  | .choose .. => "if"

def nodes (e : Expr) : Datum := .texts (e.nodes.map (node u))

/-! ### Descriptors -/

def draftAttribute (a : Attribute) : Datum :=
  .record [("ctor", method u a.constructor), ("args", values u a.arguments),
    ("named", namedValues u a.named)]

def draftAttributes (as : Array Attribute) : Datum := .list (as.toList.map (draftAttribute u))

def draftMethod (m : DraftMethod) : Datum :=
  .record [("h", methodHandle m.handle), ("name", .text m.name), ("kind", .text m.kind.text),
    ("flags", .ofNat m.flags.toNat), ("sig", .text (m.signature.display u)),
    ("params", .texts (m.signature.parameters.map (·.name))), ("body", .ofOption (nodes u) m.body),
    ("is", .list ([m.isAbstract, m.isStatic, m.isVirtual].map .truth)),
    ("base", .ofOption (method u) m.baseMethod), ("explicit", methods u m.explicitOverrides.toList),
    ("attrs", draftAttributes u m.attributes)]

def draftField (f : DraftField) : Datum :=
  .record [("h", fieldHandle f.handle), ("name", .text f.name),
    ("sig", .text (f.signature.display u)),
    ("flags", .ofNat f.flags.toNat), ("static", .truth f.isStatic),
    ("attrs", draftAttributes u f.attributes)]

def draftProperty (p : DraftProperty) : Datum :=
  .record [("h", propertyHandle p.handle), ("name", .text p.name),
    ("sig", .text (p.signature.display u)),
    ("getter", .ofOption methodHandle p.getter), ("setter", .ofOption methodHandle p.setter)]

def draftEvent (e : DraftEvent) : Datum :=
  .record [("h", eventHandle e.handle), ("name", .text e.name), ("sig", .text (e.type.display u)),
    ("add", methodHandle e.add), ("remove", methodHandle e.remove),
    ("raise", .ofOption methodHandle e.raise)]

def descriptor (b : Batch) (d : Descriptor) : Datum :=
  .record [("handle", typeHandle d.handle), ("namespace", .text d.space), ("name", .text d.name),
    ("own_name", .text d.fullName), ("fullname", .text (b.fullName d.handle)),
    ("flags", .ofNat d.flags.toNat), ("base", .ofOption (fun s => .text (s.display u)) d.base),
    ("base_type", .ofOption (type u) (d.baseType? u)),
      ("declaring", .ofOption typeHandle d.declaring),
    ("requested", .ofOption (type u) d.requested), ("interface", .truth d.isInterface),
    ("interfaces", .texts (d.interfaces.toList.map fun s => s.display u)),
    ("fields", .list (d.fields.toList.map (draftField u))),
    ("ctors", .list (d.constructors.toList.map (draftMethod u))),
    ("methods", .list (d.methods.toList.map (draftMethod u))),
    ("cctor", .ofOption (draftMethod u) d.typeInitializer),
    ("properties", .list (d.properties.toList.map (draftProperty u))),
    ("events", .list (d.events.toList.map (draftEvent u))),
    ("nested", .list (d.nested.toList.map typeHandle)), ("attrs", draftAttributes u d.attributes),
    ("inits", .list (d.initializations.toList.map (nodes u))),
    ("type_inits", .list (d.typeInitializations.toList.map (nodes u))),
      ("modified", .truth d.modified),
    ("sealed", .truth d.isSealed), ("abstract", .truth (d.askAbstract u).1)]

def batch (b : Batch) : Datum :=
  .record [("handles", .list (b.handles.map typeHandle)), ("len", .ofNat b.types.size),
    ("empty", .truth b.types.isEmpty), ("modified", .truth b.isModified),
    ("names", .texts (b.handles.map b.fullName))]

def generated (g : Generated) : Datum :=
  .record [("types", types u (g.types.map (·.2))), ("len", .ofNat g.types.length),
    ("empty", .truth g.types.isEmpty)]

end TypeLoom.Report
