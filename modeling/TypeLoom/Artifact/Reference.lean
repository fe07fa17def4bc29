import TypeLoom.Keyed
import TypeLoom.Registry
import TypeLoom.Decimal.Read
import TypeLoom.Artifact.Header

/-!
# Resolving references

The types, methods, fields and values that elements refer to. Types of the module at hand are found
before those of the registry.
-/

namespace TypeLoom.Artifact

open Markup

/-- Where references are looked up. -/
structure Scope where
  program : Universe
  registry : Registry
  /-- The types of the module at hand, by full name. -/
  here : Keyed String TypeId

/-! ### Numbers in attributes -/

def readAttribute {α : Type} (n : Node) (key : String) (read : String → Option α) :
    Except Fault α := do
  let text ← n.require key
  match read text with
  | some value => return value
  | none =>
    throw (.persistence ("Invalid value '" ++ text ++ "' for '" ++ key ++ "' on <"
      ++ n.name ++ ">"))

def readFlags (n : Node) : Except Fault UInt32 := do
  let text ← n.require "flags"
  match Decimal.boundedNatural? (Decimal.twoTo 32) text with
  | some flags => return UInt32.ofNat flags
  | none => throw (.persistence ("Invalid flags '" ++ text ++ "' on <" ++ n.name ++ ">"))

def readInt32 (text : String) : Option Int32 := (Decimal.boundedInteger? 32 text).map Int32.ofInt

def readInt64 (text : String) : Option Int64 := (Decimal.boundedInteger? 64 text).map Int64.ofInt

def readIndex (text : String) : Option UInt16 :=
  (Decimal.boundedNatural? (Decimal.twoTo 16) text).map UInt16.ofNat

namespace Scope

variable (s : Scope)

/-! ### Types and signatures -/

def type (name : String) : Except Fault TypeId :=
  match s.here.find? name with
  | some t => .ok t
  | none =>
    match (s.registry.named name).head? with
    | some t => .ok t
    | none => .error (.persistence ("Unknown type '" ++ name ++ "'"))

def signature (text : String) : Except Fault Signature :=
  match Signature.ofKeyword? text with
  | some plain => .ok plain
  | none =>
    if "class:".toList.isPrefixOf text.toList then
      (s.type (String.ofList (text.toList.drop 6))).map .ofClass
    else .error (.persistence ("Unknown signature '" ++ text ++ "'"))

def signatures (text : String) : Except Fault (List Signature) :=
  if text.isEmpty then .ok [] else ((text.toList.splitOn ';').map String.ofList).mapM s.signature

def parameter (n : Node) : Except Fault Parameter := do
  let name ← n.require "name"
  return ⟨name, ← s.signature (← n.require "type")⟩

def methodSignature (n : Node) : Except Fault MethodSignature := do
  let parameters ← (n.childrenNamed "param").mapM s.parameter
  return ⟨← s.signature (← n.require "returns"), parameters⟩

/-! ### Members -/

/-- The first method of a type with a name and these parameters. The names of constructors and of
the type initializer are reserved for them. -/
def methodOn? (t : TypeId) (name : String) (types : List Signature) : Option MethodId :=
  let u := s.program
  let fits (m : MethodId) : Bool := (u.method m).signature.types == types
  if name = ".ctor" then (u.constructorsOf t).find? fits
  else if name = ".cctor" then (u.record t).initializer
  else (u.methodsOf t).find? fun m => (u.method m).name == name && fits m

def methodOn (t : TypeId) (n : Node) : Except Fault MethodId := do
  let name ← n.require "name"
  let types ← s.signatures (← n.require "params")
  match s.methodOn? t name types with
  | some m => return m
  | none => throw (.persistence ("Unknown method '" ++ s.program.fullName t ++ "::" ++ name ++ "'"))

def method (n : Node) : Except Fault MethodId := do
  s.methodOn (← s.type (← n.require "declaring")) n

def field (n : Node) : Except Fault FieldId := do
  let t ← s.type (← n.require "declaring")
  let name ← n.require "name"
  match s.program.ownField? t name with
  | some f => return f
  | none => throw (.persistence ("Unknown field '" ++ s.program.fullName t ++ "::" ++ name ++ "'"))

end Scope

end TypeLoom.Artifact
