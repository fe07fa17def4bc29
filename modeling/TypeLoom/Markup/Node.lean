import TypeLoom.Fault

/-!
# Element trees

A document is a tree of elements with attributes. The same tree as a flat sequence of events: a
start and a stop around the children, or one event for an element without children.
-/

namespace TypeLoom.Markup

/-! ### Trees -/

/-- An element: its name, its attributes in order, and the elements inside it. -/
inductive Node
  | element (name : String) (attributes : List (String × String)) (children : List Node)
  deriving Repr, Inhabited

namespace Node

def name : Node → String
  | element name _ _ => name

def attributes : Node → List (String × String)
  | element _ attributes _ => attributes

def children : Node → List Node
  | element _ _ children => children

def named (name : String) : Node := element name [] []

def attr (n : Node) (key value : String) : Node :=
  element n.name (n.attributes ++ [(key, value)]) n.children

def attr? (n : Node) (key : String) : Option String → Node
  | some value => n.attr key value
  | none => n

def append (n : Node) (more : List Node) : Node := element n.name n.attributes (n.children ++ more)

def child (n : Node) (child : Node) : Node := n.append [child]

def get? (n : Node) (key : String) : Option String :=
  (n.attributes.find? fun a => a.1 == key).map (·.2)

def require (n : Node) (key : String) : Except Fault String :=
  match n.get? key with
  | some value => .ok value
  | none => .error (.persistence ("<" ++ n.name ++ "> is missing attribute '" ++ key ++ "'"))

def childrenNamed (n : Node) (name : String) : List Node :=
  n.children.filter fun c => c.name == name

def childNamed? (n : Node) (name : String) : Option Node := n.children.find? fun c => c.name == name

def missingChild (n : Node) (name : String) : Fault :=
  .persistence ("<" ++ n.name ++ "> is missing element <" ++ name ++ ">")

def requireChild (n : Node) (name : String) : Except Fault Node :=
  match n.childNamed? name with
  | some c => .ok c
  | none => .error (n.missingChild name)

/-- One more attribute that is read from a tag. A key that stands there already is refused. -/
def addAttribute (n : Node) (a : String × String) : Except Fault Node :=
  if (n.get? a.1).isSome then .error (.persistence "duplicated attribute") else .ok (n.attr a.1 a.2)

def ofTag (name : String) (attributes : List (String × String)) : Except Fault Node :=
  attributes.foldlM addAttribute (named name)

end Node

/-! ### Events -/

/-- What a document consists of from left to right. -/
inductive Event
  | start (name : String) (attributes : List (String × String))
  | empty (name : String) (attributes : List (String × String))
  | stop
  /-- Text, comments, declarations and instructions. -/
  | ignored
  /-- Here the document breaks a rule of the notation. -/
  | broken
  deriving DecidableEq, Repr, Inhabited

mutual

def Node.events : Node → List Event
  | .element name attributes [] => [.empty name attributes]
  | .element name attributes (c :: cs) =>
    .start name attributes :: (Node.events c ++ Node.eventsAll cs) ++ [.stop]

def Node.eventsAll : List Node → List Event
  | [] => []
  | c :: cs => Node.events c ++ Node.eventsAll cs

end

/-! ### Trees from events -/

/-- The open elements, innermost first, with their children in reverse; and the root, once it is
closed. -/
structure Forest where
  openNodes : List Node := []
  root : Option Node := none
  deriving Repr, Inhabited

namespace Forest

/-- A finished element goes into the innermost open one, or becomes the root. -/
def attach (f : Forest) (n : Node) : Except Fault Forest :=
  match f.openNodes with
  | parent :: outer => .ok { f with openNodes := parent.child n :: outer }
  | [] =>
    if f.root.isNone then .ok { f with root := some n }
    else .error (.persistence "Document has more than one root element")

def step (f : Forest) : Event → Except Fault Forest
  | .start name attributes => do
    let n ← Node.ofTag name attributes
    return { f with openNodes := n :: f.openNodes }
  | .empty name attributes => do
    f.attach (← Node.ofTag name attributes)
  | .stop =>
    match f.openNodes with
    | n :: outer => attach { f with openNodes := outer } n
    | [] => .error (.persistence "Unbalanced end element")
  | .ignored => .ok f
  | .broken => .error (.persistence "ill-formed document")

def finish (f : Forest) : Except Fault Node :=
  if !f.openNodes.isEmpty then .error (.persistence "Document ended inside an element")
  else
    match f.root with
    | some n => .ok n
    | none => .error (.persistence "Document has no root element")

end Forest

def Node.ofEvents (events : List Event) : Except Fault Node := do
  (← events.foldlM Forest.step {}).finish

end TypeLoom.Markup
