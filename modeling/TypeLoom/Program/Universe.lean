import TypeLoom.Token
import TypeLoom.Flags
import TypeLoom.Fault
import TypeLoom.Program.Expr

/-!
# Programs

All types of a program with their members, in one append-only table. A type that was given up keeps
its place but is no longer present: references that do not keep it in being read as gone.
-/

namespace TypeLoom

/-! ### Members -/

/-- A custom attribute: a constructor call and values for named fields. -/
structure Attribute where
  constructor : MethodId
  arguments : List Value
  named : List (String × Value)
  deriving DecidableEq, Repr, Inhabited

structure FieldRecord where
  token : Token
  name : String
  signature : Signature
  flags : UInt32
  attributes : Array Attribute := #[]
  deriving Repr, Inhabited

inductive MethodKind
  | method
  | constructor
  | typeInitializer
  deriving DecidableEq, Repr, Inhabited

def MethodKind.text : MethodKind → String
  | method => "Method"
  | constructor => "Constructor"
  | typeInitializer => "TypeInitializer"

structure MethodRecord where
  token : Token
  name : String
  kind : MethodKind
  flags : UInt32
  signature : MethodSignature
  attributes : Array Attribute := #[]
  body : Option Expr := none
  deriving Repr, Inhabited

structure PropertyRecord where
  token : Token
  name : String
  signature : Signature
  flags : UInt32
  getter : Option MethodId
  setter : Option MethodId
  deriving Repr, Inhabited

structure EventRecord where
  token : Token
  name : String
  type : Signature
  flags : UInt32
  add : MethodId
  remove : MethodId
  raise : Option MethodId
  deriving Repr, Inhabited

/-- An explicit override: calls of the declaration run the body. -/
structure Override where
  declaration : MethodId
  body : MethodId
  deriving DecidableEq, Repr, Inhabited

namespace FieldRecord

def isStatic (f : FieldRecord) : Bool := hasBits f.flags FieldFlags.static

def access (f : FieldRecord) : Access := .ofBits f.flags

end FieldRecord

namespace MethodRecord

def isStatic (m : MethodRecord) : Bool := hasBits m.flags MethodFlags.static

def isVirtual (m : MethodRecord) : Bool := hasBits m.flags MethodFlags.virtual

def isAbstract (m : MethodRecord) : Bool := hasBits m.flags MethodFlags.abstract

def isFinal (m : MethodRecord) : Bool := hasBits m.flags MethodFlags.final

def isNewSlot (m : MethodRecord) : Bool := hasBits m.flags MethodFlags.newSlot

def isConstructor (m : MethodRecord) : Bool := m.kind == .constructor

def access (m : MethodRecord) : Access := .ofBits m.flags

end MethodRecord

/-! ### Types -/

inductive Origin
  | native
  | generated
  | loaded
  deriving DecidableEq, Repr, Inhabited

def Origin.text : Origin → String
  | native => "Native"
  | generated => "Generated"
  | loaded => "Loaded"

structure TypeRecord where
  token : Token
  space : String
  name : String
  flags : UInt32
  origin : Origin
  base : Option TypeId := none
  declaring : Option TypeId := none
  interfaces : Array TypeId := #[]
  fields : Array FieldRecord := #[]
  constructors : Array MethodRecord := #[]
  methods : Array MethodRecord := #[]
  /-- The type initializer that the type defines. -/
  ownInitializer : Option MethodRecord := none
  /-- The method that runs before the type is first used. -/
  initializer : Option MethodId := none
  properties : Array PropertyRecord := #[]
  events : Array EventRecord := #[]
  nested : Array TypeId := #[]
  attributes : Array Attribute := #[]
  overrides : Array Override := #[]
  complete : Bool := false
  present : Bool := true
  deriving Repr, Inhabited

namespace TypeRecord

def isInterface (t : TypeRecord) : Bool := hasBits t.flags TypeFlags.interface

def isAbstract (t : TypeRecord) : Bool := hasBits t.flags TypeFlags.abstract || t.isInterface

def isSealed (t : TypeRecord) : Bool := hasBits t.flags TypeFlags.isSealed

def method? (t : TypeRecord) : Slot → Option MethodRecord
  | .method index => t.methods[index]?
  | .constructor index => t.constructors[index]?
  | .typeInitializer => t.ownInitializer

def modifyMethod (t : TypeRecord) (slot : Slot) (change : MethodRecord → MethodRecord) :
    TypeRecord :=
  match slot with
  | .method index => { t with methods := t.methods.modify index change }
  | .constructor index => { t with constructors := t.constructors.modify index change }
  | .typeInitializer => { t with ownInitializer := t.ownInitializer.map change }

end TypeRecord

/-! ### The table of types -/

structure Universe where
  types : Array TypeRecord := #[]
  deriving Repr, Inhabited

namespace Universe

def noType : TypeRecord :=
  { token := ⟨0⟩, space := "", name := "", flags := 0, origin := .native, present := false }

def record (u : Universe) (t : TypeId) : TypeRecord := u.types.getD t.index noType

def isPresent (u : Universe) (t : TypeId) : Bool := (u.record t).present

def present? (u : Universe) (t : TypeId) : Option TypeId := if u.isPresent t then some t else none

def nextId (u : Universe) : TypeId := ⟨u.types.size⟩

def push (u : Universe) (t : TypeRecord) : Universe := ⟨u.types.push t⟩

def modify (u : Universe) (t : TypeId) (change : TypeRecord → TypeRecord) : Universe :=
  ⟨u.types.modify t.index change⟩

/-- Gives a type up: it stays in the table, but references to it read as gone. -/
def drop (u : Universe) (t : TypeId) : Universe := u.modify t fun r => { r with present := false }

/-! ### Members -/

def noMethod : MethodRecord :=
  { token := ⟨0⟩, name := "", kind := .method, flags := 0, signature := {} }

def noField : FieldRecord := { token := ⟨0⟩, name := "", signature := .void, flags := 0 }

def method? (u : Universe) (m : MethodId) : Option MethodRecord := (u.record m.owner).method? m.slot

def method (u : Universe) (m : MethodId) : MethodRecord := (u.method? m).getD noMethod

def field? (u : Universe) (f : FieldId) : Option FieldRecord := (u.record f.owner).fields[f.index]?

def field (u : Universe) (f : FieldId) : FieldRecord := (u.field? f).getD noField

def property? (u : Universe) (p : PropertyId) : Option PropertyRecord :=
  (u.record p.owner).properties[p.index]?

def event? (u : Universe) (e : EventId) : Option EventRecord := (u.record e.owner).events[e.index]?

def modifyMethod (u : Universe) (m : MethodId) (change : MethodRecord → MethodRecord) : Universe :=
  u.modify m.owner fun t => t.modifyMethod m.slot change

def modifyField (u : Universe) (f : FieldId) (change : FieldRecord → FieldRecord) : Universe :=
  u.modify f.owner fun t => { t with fields := t.fields.modify f.index change }

def methodOwner? (u : Universe) (m : MethodId) : Option TypeId := u.present? m.owner

def fieldOwner? (u : Universe) (f : FieldId) : Option TypeId := u.present? f.owner

def methodsOf (u : Universe) (t : TypeId) : List MethodId :=
  (List.range (u.record t).methods.size).map fun index => ⟨t, .method index⟩

def constructorsOf (u : Universe) (t : TypeId) : List MethodId :=
  (List.range (u.record t).constructors.size).map fun index => ⟨t, .constructor index⟩

def fieldsOf (u : Universe) (t : TypeId) : List FieldId :=
  (List.range (u.record t).fields.size).map fun index => ⟨t, index⟩

def declaring? (u : Universe) (t : TypeId) : Option TypeId := (u.record t).declaring.bind u.present?

/-! ### Names -/

def fullNameWithin (u : Universe) : Nat → TypeId → String
  | 0, t => (u.record t).name
  | depth + 1, t =>
    let r := u.record t
    match u.declaring? t with
    | some outer => u.fullNameWithin depth outer ++ "+" ++ r.name
    | none => if r.space.isEmpty then r.name else r.space ++ "." ++ r.name

def fullName (u : Universe) (t : TypeId) : String := u.fullNameWithin u.types.size t

def methodName (u : Universe) (m : MethodId) : String :=
  match u.methodOwner? m with
  | some owner => u.fullName owner ++ "::" ++ (u.method m).name
  | none => (u.method m).name

/-! ### Small laws of the table -/

theorem record_push_self (u : Universe) (t : TypeRecord) : (u.push t).record u.nextId = t := by
  simp [record, push, nextId]

theorem record_push_of_lt (u : Universe) (t : TypeRecord) (i : TypeId)
    (h : i.index < u.types.size) :
    (u.push t).record i = u.record i := by
  simp [record, push, Array.getD, Nat.lt_succ_of_lt h, h, Array.getElem_push_lt]

theorem size_modify (u : Universe) (t : TypeId) (change : TypeRecord → TypeRecord) :
    (u.modify t change).types.size = u.types.size := by
  simp [modify]

end Universe

end TypeLoom
