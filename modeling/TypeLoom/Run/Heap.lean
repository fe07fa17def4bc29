import TypeLoom.Keyed
import TypeLoom.Program.Lookup

/-!
# Heaps

Objects with their slots, static values, and how far each type is with its initializer. A slot is
filed under the token of its field.
-/

namespace TypeLoom

/-- An object: one slot for each instance field of its type. -/
structure Instance where
  type : TypeId
  slots : Keyed Token Value
  deriving Repr, Inhabited

structure Heap where
  objects : Array Instance := #[]
  statics : Keyed (TypeId × Token) Value := []
  /-- Types whose initializer has finished. -/
  initialized : List TypeId := []
  /-- Types whose initializer is running. -/
  running : List TypeId := []
  deriving Repr, Inhabited

namespace Heap

/-! ### Objects -/

def noInstance : Instance := { type := ⟨0⟩, slots := [] }

def object (h : Heap) (o : ObjectRef) : Instance := h.objects.getD o.index noInstance

/-- A new object of the type, every slot at its default. -/
def allocate (h : Heap) (u : Universe) (t : TypeId) : ObjectRef × Heap :=
  let slots := (u.instanceFields t).foldl
    (fun (slots : Keyed Token Value) f =>
      slots.put (u.field f).token (u.field f).signature.defaultValue) []
  (⟨h.objects.size, t⟩, { h with objects := h.objects.push ⟨t, slots⟩ })

def loadSlot (h : Heap) (u : Universe) (o : ObjectRef) (f : FieldId) : Except Fault Value :=
  match (h.object o).slots.find? (u.field f).token with
  | some value => .ok value
  | none => .error (u.missing o.type (u.field f).name)

def misfit (u : Universe) (f : FieldId) (value : Value) : Fault :=
  .argument (u.field f).name ("value " ++ value.detail u ++ " cannot be stored in a field of type "
    ++ (u.field f).signature.display u)

def storeSlot (h : Heap) (u : Universe) (o : ObjectRef) (f : FieldId) (value : Value) :
    Except Fault Heap :=
  if !(h.object o).slots.hasKey (u.field f).token then .error (u.missing o.type (u.field f).name)
  else if !(u.field f).signature.accepts u value then .error (misfit u f value)
  else .ok { h with
    objects := h.objects.modify o.index fun i =>
      { i with slots := i.slots.put (u.field f).token value } }

def instanceField (u : Universe) (o : ObjectRef) (name : String) : Except Fault FieldId :=
  match (u.findField? o.type name).filter fun f => !(u.field f).isStatic with
  | some f => .ok f
  | none => .error (u.missing o.type name)

def getField (h : Heap) (u : Universe) (o : ObjectRef) (name : String) : Except Fault Value := do
  h.loadSlot u o (← instanceField u o name)

def setField (h : Heap) (u : Universe) (o : ObjectRef) (name : String) (value : Value) :
    Except Fault Heap := do
  h.storeSlot u o (← instanceField u o name) value

def objectText (h : Heap) (u : Universe) (o : ObjectRef) : String :=
  bracedRecord "Object" [("type", Text.quoted (u.fullName o.type)),
    ("fields", toString (h.object o).slots.length)]

/-! ### Static values -/

def staticValue (h : Heap) (u : Universe) (t : TypeId) (f : FieldId) : Value :=
  (h.statics.find? (t, (u.field f).token)).getD (u.field f).signature.defaultValue

def setStatic (h : Heap) (u : Universe) (t : TypeId) (f : FieldId) (value : Value) : Heap :=
  { h with statics := h.statics.put (t, (u.field f).token) value }

/-! ### Type initializers -/

def isInitialized (h : Heap) (t : TypeId) : Bool := h.initialized.contains t

def isRunning (h : Heap) (t : TypeId) : Bool := h.running.contains t

def startRunning (h : Heap) (t : TypeId) : Heap := { h with running := t :: h.running }

def stopRunning (h : Heap) (t : TypeId) : Heap := { h with running := h.running.erase t }

def markInitialized (h : Heap) (t : TypeId) : Heap := { h with initialized := t :: h.initialized }

end Heap

end TypeLoom
