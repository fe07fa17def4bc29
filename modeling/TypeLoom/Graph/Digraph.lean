/-!
# Directed graphs

Nodes are the numbers below the size; edges lead from node to node, carry a datum and keep the order
in which they were added. Parallel edges and loops are allowed.
-/

namespace TypeLoom.Graph

structure Edge (ε : Type) where
  source : Nat
  target : Nat
  data : ε
  deriving DecidableEq, Repr

structure Digraph (ε : Type) where
  size : Nat
  edges : List (Edge ε)
  inside : ∀ e ∈ edges, e.source < size ∧ e.target < size

namespace Digraph

variable {ε : Type}

def ofSize (size : Nat) : Digraph ε := ⟨size, [], fun _ he => nomatch he⟩

def addEdge (g : Digraph ε) (source target : Nat) (data : ε) : Digraph ε :=
  if h : source < g.size ∧ target < g.size then
    { g with
      edges := g.edges ++ [⟨source, target, data⟩]
      inside := fun e he => (List.mem_append.mp he).elim (g.inside e) fun hnew =>
        List.mem_singleton.mp hnew ▸ h }
  else g

def nodes (g : Digraph ε) : List Nat := List.range g.size

def outgoing (g : Digraph ε) (node : Nat) : List (Edge ε) :=
  g.edges.filter fun e => e.source == node

def incoming (g : Digraph ε) (node : Nat) : List (Edge ε) :=
  g.edges.filter fun e => e.target == node

def successors (g : Digraph ε) (node : Nat) : List Nat := (g.outgoing node).map (·.target)

theorem mem_successors (g : Digraph ε) (node next : Nat) :
    next ∈ g.successors node ↔ ∃ e ∈ g.edges, e.source = node ∧ e.target = next := by
  simp [successors, outgoing, and_assoc]

end Digraph

end TypeLoom.Graph
