import TypeLoom.Markup.Node
import TypeLoom.Markup.Escape

/-!
# Writing documents

A declaration, and each event on a line of its own, indented by two blanks for each open element.
There is no line end after the last event.
-/

namespace TypeLoom.Markup

def renderAttributes (attributes : List (String × String)) : List Char :=
  attributes.flatMap fun (key, value) =>
    ' ' :: key.toList ++ '=' :: '"' :: escape value.toList ++ ['"']

def newLine (depth : Nat) : List Char := '\n' :: List.replicate (2 * depth) ' '

/-- The events on lines, given the names of the open elements, innermost first. -/
def renderEvents : List String → List Event → List Char
  | _, [] => []
  | opened, .start name attributes :: events =>
    newLine opened.length ++ '<' :: name.toList ++ renderAttributes attributes ++ '>' ::
      renderEvents (name :: opened) events
  | opened, .empty name attributes :: events =>
    newLine opened.length ++ '<' :: name.toList ++ renderAttributes attributes ++ '/' :: '>' ::
      renderEvents opened events
  | name :: opened, .stop :: events =>
    newLine opened.length ++ '<' :: '/' :: name.toList ++ '>' :: renderEvents opened events
  | [], .stop :: events => renderEvents [] events
  | opened, .ignored :: events => renderEvents opened events
  | opened, .broken :: events => renderEvents opened events

def declaration : String := "<?xml version=\"1.0\" encoding=\"utf-8\"?>"

def Node.render (n : Node) : String :=
  String.ofList (declaration.toList ++ renderEvents [] n.events)

end TypeLoom.Markup
