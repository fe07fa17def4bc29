import TypeLoom.Markup.Read

/-!
# Headers of artifacts

The root element of an artifact names the module, its identifier and the configuration of
participants it was made with. An identifier has 8, 4, 4, 4 and 12 hexadecimal digits between
hyphens, in either case.
-/

namespace TypeLoom.Artifact

open Markup

structure Header where
  id : String
  name : String
  configuration : String
  deriving DecidableEq, Repr, Inhabited

def isHexDigit (c : Char) : Bool :=
  ('0' ≤ c && c ≤ '9') || ('a' ≤ c && c ≤ 'f') || ('A' ≤ c && c ≤ 'F')

def idGroups : List Nat := [8, 4, 4, 4, 12]

/-- The identifier in lower case, if it is well formed. -/
def moduleId? (text : String) : Option String :=
  let groups := text.toList.splitOn '-'
  if groups.map List.length = idGroups ∧ groups.all (fun group => group.all isHexDigit) then
    some text.toLower
  else none

def Header.node (h : Header) : Node :=
  (((Node.named "module").attr "id" h.id).attr "name" h.name).attr "configuration" h.configuration

def Header.ofNode (root : Node) : Except Fault Header := do
  if root.name ≠ "module" then throw (.persistence ("Unexpected root element <" ++ root.name ++ ">"))
  let text ← root.require "id"
  let some id := moduleId? text | throw (.persistence "malformed module id")
  let name ← root.require "name"
  let configuration ← root.require "configuration"
  return { id, name, configuration }

def Header.read (text : String) : Except Fault Header := do Header.ofNode (← Node.parse text)

end TypeLoom.Artifact
