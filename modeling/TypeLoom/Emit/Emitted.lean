import TypeLoom.Keyed
import TypeLoom.Program.Universe

/-!
# Emitted members

Which type or member of the program came out of which handle of a batch. Nothing comes out twice.
-/

namespace TypeLoom

structure Emitted where
  types : Keyed TypeHandle TypeId := []
  fields : Keyed FieldHandle FieldId := []
  methods : Keyed MethodHandle MethodId := []
  properties : Keyed PropertyHandle PropertyId := []
  events : Keyed EventHandle EventId := []
  deriving Repr, Inhabited

namespace Emitted

def addOnce {κ ν : Type} [DecidableEq κ] (kind : String) (text : κ → String)
    (rows : Keyed κ ν) (key : κ) (value : ν) : Except Fault (Keyed κ ν) :=
  if rows.hasKey key then .error
    (.invalidOperation (kind ++ " " ++ text key ++ " was emitted twice"))
  else .ok (rows.put key value)

def require {κ ν : Type} [DecidableEq κ] (kind : String) (text : κ → String)
    (rows : Keyed κ ν) (key : κ) :
    Except Fault ν :=
  match rows.find? key with
  | some value => .ok value
  | none => .error (.invalidOperation (kind ++ " " ++ text key ++ " has not been emitted"))

def type (e : Emitted) (h : TypeHandle) : Except Fault TypeId :=
  require "Type" TypeHandle.text e.types h

def field (e : Emitted) (h : FieldHandle) : Except Fault FieldId :=
  require "Field" FieldHandle.text e.fields h

def method (e : Emitted) (h : MethodHandle) : Except Fault MethodId :=
  require "Method" MethodHandle.text e.methods h

def property (e : Emitted) (h : PropertyHandle) : Except Fault PropertyId :=
  require "Property" PropertyHandle.text e.properties h

def event (e : Emitted) (h : EventHandle) : Except Fault EventId :=
  require "Event" EventHandle.text e.events h

def addType (e : Emitted) (h : TypeHandle) (t : TypeId) : Except Fault Emitted := do
  return { e with types := ← addOnce "Type" TypeHandle.text e.types h t }

def addField (e : Emitted) (h : FieldHandle) (f : FieldId) : Except Fault Emitted := do
  return { e with fields := ← addOnce "Field" FieldHandle.text e.fields h f }

def addMethod (e : Emitted) (h : MethodHandle) (m : MethodId) : Except Fault Emitted := do
  return { e with methods := ← addOnce "Method" MethodHandle.text e.methods h m }

def addProperty (e : Emitted) (h : PropertyHandle) (p : PropertyId) : Except Fault Emitted := do
  return { e with properties := ← addOnce "Property" PropertyHandle.text e.properties h p }

def addEvent (e : Emitted) (h : EventHandle) (v : EventId) : Except Fault Emitted := do
  return { e with events := ← addOnce "Event" EventHandle.text e.events h v }

end Emitted

/-- What a batch became: its members, and its types in the order in which they were finished. -/
structure Generated where
  emitted : Emitted
  types : List (TypeHandle × TypeId)
  deriving Repr, Inhabited

end TypeLoom
