import TypeLoom.Graph.Digraph

/-!
# Topological order with hard and soft edges

Every node waits for the edges that end at it. Nodes that wait for nothing are ready, and the
smallest of them comes next. If no node is ready, soft edges are given up: the smallest node that
waits for no hard edge comes next. If there is none, the nodes that are left cannot be ordered.
-/

namespace TypeLoom.Graph

variable {ε : Type}

def enqueue (node : Nat) : List Nat → List Nat
  | [] => [node]
  | first :: rest => if node ≤ first then node :: first :: rest else first :: enqueue node rest

/-- How far an ordering has come: the nodes that are left, those that became ready, and how many
edges each node still waits for. -/
structure Progress where
  remaining : List Nat
  ready : List Nat
  pendingAll : Array Nat
  pendingHard : Array Nat
  deriving Repr

namespace Progress

/-- Before the first node: each node waits for all its incoming edges, loops aside. -/
def start (g : Digraph ε) (hard : ε → Bool) : Progress :=
  let count (node : Nat) (counted : Edge ε → Bool) : Nat :=
    ((g.incoming node).filter fun e => e.source != node && counted e).length
  let pendingAll := (g.nodes.map fun node => count node fun _ => true).toArray
  { remaining := g.nodes
    ready := g.nodes.filter fun node => pendingAll.getD node 0 == 0
    pendingAll
    pendingHard := (g.nodes.map fun node => count node fun e => hard e.data).toArray }

/-- The node that comes next, and the queue without it. Nodes in the queue that were taken before
are passed over. -/
def next? (p : Progress) : Option (Nat × Progress) :=
  match p.ready.dropWhile fun node => !p.remaining.contains node with
  | node :: ready => some (node, { p with ready })
  | [] =>
    (p.remaining.find? fun node => p.pendingHard.getD node 0 == 0).map fun node =>
      (node, { p with ready := [] })

/-- One edge no longer keeps its target waiting. -/
def release (p : Progress) (hard : ε → Bool) (e : Edge ε) : Progress :=
  if e.target == e.source || !p.remaining.contains e.target then p
  else
    let pendingAll := p.pendingAll.modify e.target (· - 1)
    { p with
      ready := if pendingAll.getD e.target 0 == 0 then enqueue e.target p.ready else p.ready
      pendingAll
      pendingHard := if hard e.data then p.pendingHard.modify e.target (· - 1) else p.pendingHard }

/-- A node is taken, and its edges keep nothing waiting any more. -/
def take (p : Progress) (g : Digraph ε) (hard : ε → Bool) (node : Nat) : Progress :=
  (g.outgoing node).foldl (fun p e => p.release hard e)
    { p with remaining := p.remaining.erase node }

end Progress

/-- Takes at most so many nodes; the nodes that are left are the error. -/
def orderFrom (g : Digraph ε) (hard : ε → Bool) : Nat → Progress → Except (List Nat) (List Nat)
  | 0, p => if p.remaining.isEmpty then .ok [] else .error p.remaining
  | steps + 1, p =>
    if p.remaining.isEmpty then .ok []
    else
      match p.next? with
      | none => .error p.remaining
      | some (node, p) =>
        match orderFrom g hard steps (p.take g hard node) with
        | .ok order => .ok (node :: order)
        | .error left => .error left

/-- The nodes so that no hard edge, loops aside, leads backwards; or the nodes that cannot be
ordered. -/
def topologicalOrder (g : Digraph ε) (hard : ε → Bool) : Except (List Nat) (List Nat) :=
  orderFrom g hard g.size (.start g hard)

end TypeLoom.Graph
