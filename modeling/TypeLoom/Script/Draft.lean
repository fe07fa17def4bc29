import TypeLoom.Assembly.Participant
import TypeLoom.Report.Draft
import TypeLoom.Script.Body

/-!
# Scripts for batches

A step of a script edits a batch or asks about it. Most edits first look for the descriptor they
work on and then read what else they need.
-/

namespace TypeLoom.Script

open Reading

/-! ### Contributions -/

def malformedStep : Fault := .invalidOperation "Malformed step"

def look : Contribution Session := Contribution.take (.general .look)

def view : Contribution Batch := Contribution.take .view

def note (d : Datum) : Contribution Unit := Contribution.take (.general (.note d))

def edit (e : Edit) : Contribution EditAnswer := do Plan.ofExcept (← Contribution.take (.edit e))

def send (c : Command) : Contribution Reply := do
  Plan.ofExcept (← Contribution.take (.general (.send c)))

def reading {α : Type} (scope : Scope) (act : Reading α) : Contribution α := do
  let session ← look
  match act.start { scope with session } session.absent with
  | .ok (value, absent) =>
    Contribution.take (.general (.countAbsent absent))
    return value
  | .error (.fault fault) => .fail fault
  | .error .malformed => .fail malformedStep

def descriptor (h : TypeHandle) : Contribution Descriptor := do Plan.ofExcept ((← view).require h)

/-! ### Edits -/

def descriptorEdit? (d : Datum) (t : TypeHandle) : String → Option (Reading Edit)
  | "add_field" => some do
    return .addField t (← textAt d "name") (← signatureAt d "sig") (← wordAt d "flags")
  | "proxy_field" => some do
    return .addField t (← textAt d "name") (← signatureAt d "sig") FieldFlags.isPublic
  | "add_ctor" => some do
    let parameters ← (d.itemsAt "params").mapM parameter
    return .addConstructor t (← wordAt d "flags") parameters (← expressionAt d "body")
  | "add_cctor" => some do return .addTypeInitializer t (← expressionAt d "body")
  | "add_type_init" => some do return .addTypeInitialization t (← expressionAt d "body")
  | "add_init" => some do return .addInitialization t (← expressionAt d "body")
  | "set_body" => some do
    return .setMethodBody t (← methodHandle (← valueAt d "m")) (← expressionAt d "body")
  | "add_property" => some do
    return .addProperty t (← textAt d "name") (← signatureAt d "sig") (← methodHandleAt? d "getter")
      (← methodHandleAt? d "setter")
  | "add_auto_property" => some do
    return .addAutoProperty t (← textAt d "name") (← signatureAt d "sig")
      (← need (Access.ofText? (← textAt d "access")))
  | "add_event" => some do
    return .addEvent t (← textAt d "name") (← signatureAt d "sig")
      (← methodHandle (← valueAt d "add"))
      (← methodHandle (← valueAt d "remove")) (← methodHandleAt? d "raise")
  | "add_interface" => some do return .addInterface t (← typeAt d "type") (d.flag "allow")
  | "add_attr" => some do return .addAttribute t (← attributeAt d "attr")
  | "add_method_attr" => some do
    return .addMethodAttribute t (← methodHandle (← valueAt d "m")) (← attributeAt d "attr")
  | "add_field_attr" => some do
    return .addFieldAttribute t (← fieldHandle (← valueAt d "f")) (← attributeAt d "attr")
  | "override" => some do return .overrideMethod t (← methodAt d "method")
  | "implement" => some do return .implementMethod t (← methodAt d "method")
  | _ => none

/-- Edits that read everything before they look for a descriptor, by the word of the step. -/
def batchEdit? (d : Datum) (t : TypeHandle) : String → Option (Reading Edit)
  | "create_type" => some do
    let base ← (d.member? "base").mapM signature
    return .createType (← textAt d "ns") (← textAt d "name") (← wordAt d "flags") base
  | "create_interface" => some do return .createInterface (← textAt d "ns") (← textAt d "name")
  | "nested" => some do
    let base ← (d.member? "base").mapM signature
    return .addNested t (← textAt d "name") (← wordAt d "flags") base
  | "batch_interface" => some do return .addBatchInterface t (← typeHandleAt d "i")
  | "add_method" => some do
    let signature ← methodSignature d
    let body ← expressionAt? d "body"
    return .addMethod t (← textAt d "name") (← wordAt d "flags") signature body
  | _ => none

def accessorsStep (scope : Scope) (d : Datum) (t : TypeHandle) : Contribution EditAnswer := do
  let getter ← reading scope (expressionAt? d "get")
  let setter ← reading scope (expressionAt? d "set")
  let _ ← descriptor t
  let e ← reading scope do
    return Edit.addPropertyAccessors t (← textAt d "name") (← signatureAt d "sig")
      (← need (Access.ofText? (← textAt d "access"))) getter setter
  edit e

/-! ### Questions -/

/-- What a descriptor answers, by the word of the step. -/
def question? (d : Datum) (u : Universe) (b : Batch) (found : Descriptor) :
    String → Option (Reading Datum)
  | "implements" => some do return .truth (found.implementsInterface u (← typeAt d "type"))
  | "find" => some do
    let name ← textAt d "name"
    return .record [("method", .ofOption (Report.draftMethod u) (found.methodNamed? name)),
      ("field", .ofOption (Report.draftField u) (found.fieldNamed? name))]
  | "get_method" => some do
    return .ofOption (Report.draftMethod u) (found.method? (← methodHandle (← valueAt d "h")))
  | "get_field" => some do
    return .ofOption (Report.draftField u) (found.field? (← fieldHandle (← valueAt d "h")))
  | "get_property" => some do
    return .ofOption (Report.draftProperty u) (found.property? (← propertyHandle (← valueAt d "h")))
  | "get_event" => some do
    return .ofOption (Report.draftEvent u) (found.event? (← eventHandle (← valueAt d "h")))
  | "desc" => some do return Report.descriptor u b found
  | _ => none

/-- A question about a descriptor; a full description also asks whether it is abstract. -/
def questionStep (scope : Scope) (d : Datum) (t : TypeHandle) (word : String) :
    Contribution Datum := do
  if word = "desc" then
    let _ ← descriptor t
    let _ ← edit (.askAbstract t)
  let found ← descriptor t
  match question? d (← look).program (← view) found word with
  | some answer => reading scope answer
  | none => .fail malformedStep

/-- Whether a type is abstract, alone and within the batch. -/
def abstractStep (t : TypeHandle) : Contribution Datum := do
  let whole ← edit (.askAbstract t)
  let alone := ((← descriptor t).askAbstract (← look).program).1
  return .list [.truth alone, Report.editAnswer whole]

def draftStep (scope : Scope) (d : Datum) : Contribution Datum := do
  let word := (d.textAt? "do").getD ""
  let t : TypeHandle := ⟨(d.natAt? "t").getD 0⟩
  match descriptorEdit? d t word, batchEdit? d t word with
  | some act, _ =>
    let _ ← descriptor t
    return Report.editAnswer (← edit (← reading scope act))
  | none, some act => return Report.editAnswer (← edit (← reading scope act))
  | none, none =>
    match word with
    | "add_property_accessors" => return Report.editAnswer (← accessorsStep scope d t)
    | "is_abstract" => abstractStep t
    | "desc_name" => return .text ((← view).fullName t)
    | "arena" => return Report.batch (← view)
    | _ => questionStep scope d t word

end TypeLoom.Script
