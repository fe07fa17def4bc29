import TypeLoom.Graph.Digraph

/-!
# Finding a cycle

A depth-first walk over some nodes of a graph. It stops with the first node that it meets again on
its own path; the successors of a node are tried from the last to the first.
-/

namespace TypeLoom.Graph

variable {ε : Type}

/-- The successors among the members, the last one first. -/
def candidates (g : Digraph ε) (members : List Nat) (node : Nat) : List Nat :=
  ((g.successors node).filter members.contains).reverse

def closePath (path : List Nat) (node : Nat) : List Nat := path.dropWhile (· != node) ++ [node]

/-- Walks from the last node of a path, at most so deep. The error is a cycle; otherwise all that
was reached is finished. -/
def walkFrom (g : Digraph ε) (members : List Nat) :
    Nat → List Nat → List Nat → Nat → Except (List Nat) (List Nat)
  | 0, _, finished, _ => .ok finished
  | depth + 1, path, finished, node => do
    let finished ← (candidates g members node).foldlM (fun finished next =>
      if path.contains next then .error (closePath path next)
      else if finished.contains next then .ok finished
      else walkFrom g members depth (path ++ [next]) finished next) finished
    return node :: finished

def walkAll (g : Digraph ε) (members : List Nat) : Except (List Nat) (List Nat) :=
  members.foldlM (fun finished start =>
    if finished.contains start then .ok finished
    else walkFrom g members (g.size + 1) [start] finished start) []

/-- A cycle through members only, its first node repeated at its end. -/
def findCycle? (g : Digraph ε) (members : List Nat) : Option (List Nat) :=
  match walkAll g members with
  | .ok _ => none
  | .error cycle => some cycle

end TypeLoom.Graph
