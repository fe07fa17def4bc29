import TypeLoom.Draft.Attribute
import TypeLoom.Program.Dispatch
import TypeLoom.Script.Reading

/-!
# Reading values and bodies

Values, identifiers, members, handles, expressions, attributes and faults from plain data. An
expression is a list that begins with a word.
-/

namespace TypeLoom.Script

open Reading

def optional {α : Type} (d : Datum) (act : Reading α) : Reading (Option α) :=
  if d.isNothing then return none else some <$> act

/-! ### Values -/

mutual

def part : Datum → Reading Part
  | .truth value => return .bool value
  | .text value => return .text value
  | .list items => do return .list (← parts items)
  | d => do return .int (Int64.ofInt (← need (← textAt d "int").toInt?))

def parts : List Datum → Reading (List Part)
  | [] => return []
  | item :: items => do
    let first ← part item
    return first :: (← parts items)

end

def identifier (d : Datum) : Reading Identifier := do
  let requested ← typeAt d "requested"
  let parts ← (d.itemsAt "parts").mapM fun p => optional p (part p)
  return { requested, parts }

def hexDigit? (c : Char) : Option Nat :=
  if '0' ≤ c && c ≤ '9' then some (c.toNat - '0'.toNat)
  else if 'a' ≤ c && c ≤ 'f' then some (c.toNat - 'a'.toNat + 10)
  else if 'A' ≤ c && c ≤ 'F' then some (c.toNat - 'A'.toNat + 10)
  else none

def hexNatural? (digits : String) : Option Nat :=
  digits.toList.foldlM (fun total c => (hexDigit? c).map (16 * total + ·)) 0

def double (digits : String) : Reading Double := do
  if digits = "nan" then return .nan
  return ⟨UInt64.ofNat (← need (hexNatural? digits))⟩

def value (d : Datum) : Reading Value :=
  match d with
  | .nothing => return .null
  | .truth b => return .boolean b
  | .text s => return .string s
  | .record [("i4", n)] => do return .i4 (Int32.ofInt (← need n.number?))
  | .record [("i8", n)] => do return .i8 (Int64.ofInt (← need (n.text?.bind String.toInt?)))
  | .record [("r8", x)] => do return .r8 (← double (← need x.text?))
  | .record [("void", _)] => return .void
  | .record [("obj", name)] => do
    return .object (← need (name.text?.bind (← read).objects.find?))
  | .record [("type", t)] => do return .type (← type t)
  | .record [("id", id)] => do return .identifier (← identifier id)
  | _ => malformed

def valuesAt (d : Datum) (key : String) : Reading (List Value) := (d.itemsAt key).mapM value

/-! ### Methods -/

def orMissing {α : Type} (t : TypeId) (member : String) : Option α → Reading α
  | some found => return found
  | none => do fail ((← currentProgram).missing t member)

/-- A method of a type by its name, its name and signature, or its place. -/
def method (d : Datum) : Reading MethodId := do
  let t ← typeAt d "type"
  let u ← currentProgram
  match d.textAt? "name", d.member? "sig" with
  | some name, some s => orMissing t name (u.findMethod? t name (← methodSignature s))
  | some name, none => ofExcept (u.requireMethod t name)
  | none, _ =>
    if (d.member? "ctor").isSome then
      orMissing t ".ctor" (u.findConstructor? t (← signaturesAt d "ctor"))
    else if let some place :=
      d.natAt? "ctor_at" then orMissing t ".ctor" (u.constructorsOf t)[place]?
    else if let some place := d.natAt? "at" then orMissing t "at" (u.methodsOf t)[place]?
    else if d.flag "cctor" then orMissing t ".cctor" (u.record t).initializer
    else malformed

def methodAt (d : Datum) (key : String) : Reading MethodId := do method (← valueAt d key)

def methodAt? (d : Datum) (key : String) : Reading (Option MethodId) := (d.member? key).mapM method

/-! ### Handles -/

def typeHandleAt (d : Datum) (key : String) : Reading TypeHandle := do return ⟨← natAt d key⟩

def methodHandle (d : Datum) : Reading MethodHandle :=
  match d with
  | .list [owner, .text "i"] => do return ⟨⟨← need owner.nat?⟩, .typeInitializer⟩
  | .list [owner, .text "m", place] => do
    return ⟨⟨← need owner.nat?⟩, .method (← need place.nat?)⟩
  | .list [owner, .text "c", place] => do
    return ⟨⟨← need owner.nat?⟩, .constructor (← need place.nat?)⟩
  | _ => malformed

def methodHandleAt? (d : Datum) (key : String) : Reading (Option MethodHandle) :=
  (d.member? key).mapM methodHandle

def placedHandle (d : Datum) : Reading (TypeHandle × Nat) :=
  match d with
  | .list [owner, place] => do return (⟨← need owner.nat?⟩, ← need place.nat?)
  | _ => malformed

def fieldHandle (d : Datum) : Reading FieldHandle := do
  let (owner, place) ← placedHandle d
  return ⟨owner, place⟩

def propertyHandle (d : Datum) : Reading PropertyHandle := do
  let (owner, place) ← placedHandle d
  return ⟨owner, place⟩

def eventHandle (d : Datum) : Reading EventHandle := do
  let (owner, place) ← placedHandle d
  return ⟨owner, place⟩

/-! ### Expressions -/

def methodTarget (d : Datum) : Reading MethodTarget := do
  if d.flag "dropped" then return .member ⟨← absentType, .method 0⟩
  match d.member? "h" with
  | some h => return .draft (← methodHandle h)
  | none => return .member (← method d)

def fieldTarget (d : Datum) : Reading FieldTarget := do
  if d.flag "dropped" then return .member ⟨← absentType, 0⟩
  match d.member? "h" with
  | some h => return .draft (← fieldHandle h)
  | none =>
    let t ← typeAt d "type"
    return .member (← ofExcept ((← currentProgram).requireField t (← textAt d "field")))

mutual

/-- The targets of calls and accesses are read before what they work on. -/
def expression : Datum → Reading Expr
  | .list [.text "const", v] => do return .constant (← value v)
  | .list [.text "this"] => return .this
  | .list [.text "arg", n] => do return .argument (UInt16.ofNat (← need n.nat?))
  | .list (.text "block" :: items) => do return .block (← expressions items)
  | .list [.text "call", r, m, .list arguments, .text dispatch] => do
    let target ← methodTarget m
    let arguments ← expressions arguments
    return .call (← optional r (expression r)) target arguments (← need (Dispatch.ofText? dispatch))
  | .list [.text "new", m, .list arguments] => do
    let target ← methodTarget m
    return .new target (← expressions arguments)
  | .list [.text "load", r, f] => do
    let target ← fieldTarget f
    return .load (← optional r (expression r)) target
  | .list [.text "store", r, f, e] => do
    let target ← fieldTarget f
    let stored ← expression e
    return .store (← optional r (expression r)) target stored
  | .list [.text "bin", .text op, a, b] => do
    let op ← need (Operator.ofText? op)
    let left ← expression a
    return .binary op left (← expression b)
  | .list [.text "if", c, a, b] => do
    let condition ← expression c
    let positive ← expression a
    return .choose condition positive (← expression b)
  | .list [.text "forward", n] => do return .block (Expr.forwardArguments (← need n.nat?))
  | _ => malformed

def expressions : List Datum → Reading (List Expr)
  | [] => return []
  | item :: items => do
    let first ← expression item
    return first :: (← expressions items)

end

def expressionAt (d : Datum) (key : String) : Reading Expr := do expression (← valueAt d key)

def expressionAt? (d : Datum) (key : String) : Reading (Option Expr) :=
  (d.member? key).mapM expression

/-! ### Attributes and faults -/

def attributeAt (d : Datum) (key : String) : Reading Attribute := do
  let a ← valueAt d key
  let constructor ← methodAt a "ctor"
  let arguments ← valuesAt a "args"
  let named ← (a.itemsAt "named").mapM fun pair =>
    match pair with
    | .list [.text name, v] => do return (name, ← value v)
    | _ => malformed
  ofExcept (Attribute.check (← currentProgram) ⟨constructor, arguments, named⟩)

def plainFault? (d : Datum) (text : String) : String → Option Fault
  | "Argument" => some (.argument ((d.textAt? "parameter").getD "") text)
  | "InvalidOperation" => some (.invalidOperation text)
  | "NotSupported" => some (.notSupported text)
  | "DuplicateMember" => some (.duplicateMember "field" text "T")
  | "DescriptorSealed" => some (.descriptorSealed text)
  | "Configuration" => some (.configuration text)
  | "PoolAffinity" => some (.poolAffinity text text)
  | "MissingMember" => some (.missingMember "T" text)
  | "NullReference" => some (.nullReference text)
  | "AbstractInstantiation" => some (.abstractInstantiation text)
  | "RecursionLimit" => text.toNat?.map .recursionLimit
  | "TypeNotFound" => some (.typeNotFound text)
  | "Persistence" => some (.persistence text)
  | "FileError" => some .fileFault
  | _ => none

def faultWithin? : Nat → Datum → Option Fault
  | 0, _ => none
  | depth + 1, d => do
    let text := (d.textAt? "text").getD ""
    match ← d.textAt? "kind" with
    | "TypeAssembly" =>
      ((d.member? "source").bind (faultWithin? depth)).map (Fault.typeAssembly text)
    | kind => plainFault? d text kind

def faultDepth : Nat := 100

def fault? (d : Datum) : Option Fault := faultWithin? faultDepth d

def faultAt (d : Datum) (key : String) : Reading Fault := do need (fault? (← valueAt d key))

end TypeLoom.Script
