import TypeLoom.Markup.Node
import TypeLoom.Markup.Escape

/-!
# Reading documents

The events of a text. Tags may hold the closing bracket inside quotes. Comments, sections of
character data, document type declarations and instructions are passed over, but must be closed. An
end tag must repeat the name of the innermost open element. After a broken rule nothing more is
read. A key that an element repeats is not noticed here, but when the element is made.
-/

namespace TypeLoom.Markup

def isBlank (c : Char) : Bool := c == ' ' || c == '\t' || c == '\n' || c == '\r'

/-! ### Parts of the text -/

/-- The quote that is open while a tag is scanned. -/
inductive Quote
  | outside
  | inside (mark : Char)

/-- The text up to the closing bracket of a tag, and what follows it. -/
def splitTag : Quote → List Char → Option (List Char × List Char)
  | _, [] => none
  | .outside, c :: cs =>
    if c = '>' then some ([], cs)
    else
      let next : Quote := if c = '"' ∨ c = '\'' then .inside c else .outside
      (splitTag next cs).map fun (tag, rest) => (c :: tag, rest)
  | .inside mark, c :: cs =>
    (splitTag (if c = mark then .outside else .inside mark) cs).map fun (tag, rest) =>
      (c :: tag, rest)

/-- The text up to the first closing bracket after which `stops` holds of the reversed text
before it. -/
def splitAtBracket (stops : List Char → Bool) :
    List Char → List Char → Option (List Char × List Char)
  | _, [] => none
  | before, c :: cs =>
    if c = '>' && stops before then some (before.reverse, cs)
      else splitAtBracket stops (c :: before) cs

/-- The text up to the closing bracket that closes no bracket in between. -/
def splitBalanced : Nat → List Char → Option (List Char × List Char)
  | _, [] => none
  | depth, c :: cs =>
    if c = '>' then
      match depth with
      | 0 => some ([], cs)
      | depth + 1 => (splitBalanced depth cs).map fun (text, rest) => (c :: text, rest)
    else (splitBalanced (if c = '<' then depth + 1 else depth) cs).map fun (text, rest) =>
      (c :: text, rest)

/-! ### Attributes -/

/-- One attribute at the start of the text of a tag: key, raw value and the rest. `none` inside
means that there are no more attributes. -/
def nextAttribute (cs : List Char) : Option (Option (List Char × List Char × List Char)) :=
  match cs.dropWhile isBlank with
  | [] => some none
  | first :: rest =>
    let key := first :: rest.takeWhile fun c => c != '=' && !isBlank c
    let afterKey := rest.dropWhile fun c => c != '=' && !isBlank c
    match afterKey.dropWhile isBlank with
    | '=' :: rest =>
      match rest.dropWhile isBlank with
      | mark :: rest =>
        if mark = '"' ∨ mark = '\'' then
          match rest.dropWhile (· != mark) with
          | _ :: after => some (some (key, rest.takeWhile (· != mark), after))
          | [] => none
        else none
      | [] => none
    | _ => none

def attributesWithin : Nat → List Char → Option (List (String × String))
  | 0, _ => none
  | fuel + 1, cs =>
    match nextAttribute cs with
    | none => none
    | some none => some []
    | some (some (key, raw, rest)) => do
      let value ← unescape? raw
      return (String.ofList key, String.ofList value) :: (← attributesWithin fuel rest)

def nameAndAttributes? (tag : List Char) : Option (String × List (String × String)) := do
  let name := tag.takeWhile fun c => !isBlank c
  let attributes ← attributesWithin (tag.length + 1) (tag.dropWhile fun c => !isBlank c)
  return (String.ofList name, attributes)

/-! ### Events -/

def sameWord (text : List Char) (word : String) : Bool :=
  text.map Char.toUpper == word.toList.map Char.toUpper

/-- A declaration, comment or section, from its exclamation mark on; what follows it, if it is
closed. -/
def passDeclaration (cs : List Char) : Option (List Char) :=
  match cs with
  | _ :: '[' :: _ => do
    let (text, rest) ← splitAtBracket (fun before => before.take 2 == [']', ']']) [] cs
    if "![CDATA[".toList.isPrefixOf text then return rest else none
  | _ :: '-' :: _ => do
    let (text, rest) ← splitAtBracket
      (fun before => before.length > 4 && before.take 2 == ['-', '-']) [] cs
    if "!--".toList.isPrefixOf text then return rest else none
  | _ :: d :: _ =>
    if d = 'D' ∨ d = 'd' then do
      let (text, rest) ← splitBalanced 0 cs
      if sameWord (text.take 8) "!DOCTYPE" && (text.drop 8).any fun c => !isBlank c then return rest
      else none
    else none
  | _ => none

def passInstruction (cs : List Char) : Option (List Char) := do
  let (text, rest) ← splitAtBracket (fun before => before.head? == some '?') [] cs
  if text.length > 1 then return rest else none

def endTag? (cs : List Char) : Option (String × List Char) := do
  let (tag, rest) ← splitTag .outside cs
  return (String.ofList ((tag.drop 1).reverse.dropWhile isBlank).reverse, rest)

/-- A start tag or a tag that is closed in itself: the event, and what follows the tag. -/
def startTag? (cs : List Char) : Option (Event × List Char) := do
  let (tag, rest) ← splitTag .outside cs
  match tag.reverse with
  | '/' :: inner =>
    let (name, attributes) ← nameAndAttributes? inner.reverse
    return (.empty name attributes, rest)
  | _ =>
    let (name, attributes) ← nameAndAttributes? tag
    return (.start name attributes, rest)

/-- The events of a text, at most so many, given the names of the open elements, innermost first. -/
def scanWithin : Nat → List String → List Char → List Event
  | 0, _, _ => [.broken]
  | fuel + 1, opened, cs =>
    match cs.dropWhile (· != '<') with
    | [] => []
    | _ :: '!' :: rest =>
      match passDeclaration ('!' :: rest) with
      | some rest => .ignored :: scanWithin fuel opened rest
      | none => [.broken]
    | _ :: '?' :: rest =>
      match passInstruction ('?' :: rest) with
      | some rest => .ignored :: scanWithin fuel opened rest
      | none => [.broken]
    | _ :: '/' :: rest =>
      match endTag? ('/' :: rest), opened with
      | some (name, rest), innermost :: outer =>
        if name = innermost then .stop :: scanWithin fuel outer rest else [.broken]
      | _, _ => [.broken]
    | _ :: rest =>
      match startTag? rest with
      | some (.start name attributes, rest) =>
        .start name attributes :: scanWithin fuel (name :: opened) rest
      | some (event, rest) => event :: scanWithin fuel opened rest
      | none => [.broken]

def scan (text : String) : List Event := scanWithin (text.length + 1) [] text.toList

def Node.parse (text : String) : Except Fault Node := Node.ofEvents (scan text)

end TypeLoom.Markup
