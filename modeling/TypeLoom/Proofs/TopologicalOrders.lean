import Mathlib.Order.Bounds.Basic
import TypeLoom.Proofs.Ordering

/-!
# What the topological order of a graph is

The nodes of a graph are ordered just when its hard edges have no cycle, loops aside; the nodes that
are reported otherwise are those that cycles reach. Each node of an order is the smallest that could
come there. When soft edges do not close cycles either, no order of the graph is lexicographically
smaller.
-/

namespace TypeLoom.Graph

variable {ε : Type} {g : Digraph ε} {hard : ε → Bool}

namespace Digraph

/-- Counted edges have no cycle, loops aside. -/
def Acyclic (g : Digraph ε) (counted : ε → Bool) : Prop :=
  ∀ node, ¬ Relation.TransGen (g.Leads counted) node node

/-- Every node is listed once, and the source of each counted edge, loops aside, before its
target. -/
structure IsOrder (g : Digraph ε) (counted : ε → Bool) (order : List Nat) : Prop where
  perm : order.Perm g.nodes
  forward : ∀ e ∈ g.edges, counted e.data = true → e.source ≠ e.target →
    order.idxOf e.source < order.idxOf e.target

theorem IsOrder.nodup {counted : ε → Bool} {order : List Nat} (h : g.IsOrder counted order) :
    order.Nodup :=
  h.perm.nodup_iff.mpr List.nodup_range

theorem isOrder_of_pairwise {counted : ε → Bool} {order : List Nat} (hperm : order.Perm g.nodes)
    (hpair : order.Pairwise fun a b => ¬ g.Leads counted b a) : g.IsOrder counted order := by
  refine ⟨hperm, fun e he hcounted hloop => ?_⟩
  have hsource : e.source ∈ order := hperm.mem_iff.mpr (List.mem_range.mpr (g.inside e he).1)
  have htarget : e.target ∈ order := hperm.mem_iff.mpr (List.mem_range.mpr (g.inside e he).2)
  by_contra hback
  have hne : order.idxOf e.target ≠ order.idxOf e.source :=
    fun heq => hloop (List.idxOf_inj htarget |>.mp heq).symm
  have hlt : order.idxOf e.target < order.idxOf e.source := by omega
  have hnone := List.pairwise_iff_getElem.mp hpair _ _ (List.idxOf_lt_length_iff.mpr htarget)
    (List.idxOf_lt_length_iff.mpr hsource) hlt
  rw [List.getElem_idxOf, List.getElem_idxOf] at hnone
  exact hnone ⟨hloop, e, he, hcounted, rfl, rfl⟩

/-! ### Nodes that could come next -/

/-- A node that has not come yet, to which counted edges lead only from nodes that have. -/
structure Free (g : Digraph ε) (counted : ε → Bool) (before : List Nat) (node : Nat) : Prop where
  lt : node < g.size
  new : node ∉ before
  led : ∀ other, g.Leads counted other node → other ∈ before

/-- The smallest node to which edges lead only from nodes that have come; if there is no such
node, the smallest to which hard edges do. -/
def Greedy (g : Digraph ε) (hard : ε → Bool) (before : List Nat) (node : Nat) : Prop :=
  IsLeast { n | g.Free (fun _ => true) before n } node
    ∨ (∀ n, ¬ g.Free (fun _ => true) before n) ∧ IsLeast { n | g.Free hard before n } node

end Digraph

theorem isLeast_of_find? {nodes : List Nat} {test : Nat → Bool} {node : Nat}
    (hsorted : nodes.Pairwise (· < ·)) (hfound : nodes.find? test = some node) :
    IsLeast { n | n ∈ nodes ∧ test n = true } node := by
  obtain ⟨htest, before, after, rfl, hnone⟩ := List.find?_eq_some_iff_append.mp hfound
  refine ⟨⟨by simp, htest⟩, fun other hother => ?_⟩
  rcases List.mem_append.mp hother.1 with hbefore | hrest
  · have hrefused := hnone other hbefore
    rw [hother.2] at hrefused
    cases hrefused
  · rcases List.mem_cons.mp hrest with rfl | hafter
    · exact Nat.le_refl _
    · exact Nat.le_of_lt ((List.pairwise_cons.mp (List.pairwise_append.mp hsorted).2.1).1 other
        hafter)

namespace Progress

variable {p : Progress} {before : List Nat}

theorem free_iff {counted : ε → Bool} (hleft : ∀ n, n ∈ p.remaining ↔ n < g.size ∧ n ∉ before)
    (node : Nat) :
    g.Free counted before node ↔ node ∈ p.remaining ∧ waits g counted p.remaining node = 0 := by
  constructor
  · rintro ⟨hlt, hnew, hled⟩
    refine ⟨(hleft node).mpr ⟨hlt, hnew⟩, waits_eq_zero fun other hother hleads => ?_⟩
    exact ((hleft other).mp hother).2 (hled other hleads)
  · rintro ⟨hmem, hwaits⟩
    obtain ⟨hlt, hnew⟩ := (hleft node).mp hmem
    refine ⟨hlt, hnew, fun other hleads => ?_⟩
    by_contra hother
    exact not_leads_of_waits hwaits ((hleft other).mpr ⟨hleads.source_lt, hother⟩) hleads

theorem Counted.greedy (h : p.Counted g hard)
    (hleft : ∀ n, n ∈ p.remaining ↔ n < g.size ∧ n ∉ before) {node : Nat}
    (hscan : p.scan? = some node) : g.Greedy hard before node := by
  have hall : { n | g.Free (fun _ => true) before n } = { n | n ∈ p.remaining
      ∧ (p.pendingAll.getD n 0 == 0) = true } := by
    ext n
    rw [Set.mem_ofPred_eq, Set.mem_ofPred_eq, free_iff hleft, beq_iff_eq]
    exact and_congr_right fun hn => by rw [h.all n hn]
  have hhard : { n | g.Free hard before n } = { n | n ∈ p.remaining
      ∧ (p.pendingHard.getD n 0 == 0) = true } := by
    ext n
    rw [Set.mem_ofPred_eq, Set.mem_ofPred_eq, free_iff hleft, beq_iff_eq]
    exact and_congr_right fun hn => by rw [h.hard n hn]
  rcases Option.or_eq_some_iff.mp hscan with hfound | ⟨hnone, hfound⟩
  · refine .inl ?_
    rw [hall]
    exact isLeast_of_find? h.sorted hfound
  · refine .inr ⟨fun n hfree => ?_, ?_⟩
    · have hwaiting : n ∈ { n | g.Free (fun _ => true) before n } := hfree
      rw [hall] at hwaiting
      exact List.find?_eq_none.mp hnone n hwaiting.1 hwaiting.2
    · rw [hhard]
      exact isLeast_of_find? h.sorted hfound

theorem Ends.greedy {answer : Except (List Nat) (List Nat)} (h : p.Ends g hard answer)
    (hcounted : p.Counted g hard) (hleft : ∀ n, n ∈ p.remaining ↔ n < g.size ∧ n ∉ before)
    {order : List Nat} (hok : answer = .ok order) (k : Nat) (hk : k < order.length) :
        g.Greedy hard (before ++ order.take k) order[k] := by
  induction h generalizing before order k with
  | done hnone =>
    cases hok
    cases hk
  | stuck hleft hnext => cases hok
  | @step p after node answer hsome hnext hrest ih =>
    rw [hcounted.next?_eq] at hnext
    obtain ⟨_, hscan, heq⟩ := Option.map_eq_some_iff.mp hnext
    cases heq
    obtain ⟨hmem, -⟩ := hcounted.scan hscan
    obtain ⟨htake, hrem⟩ := hcounted.take hmem
    cases answer with
    | error left => cases hok
    | ok rest =>
      cases hok
      cases k with
      | zero =>
        rw [List.take_zero, List.append_nil]
        exact hcounted.greedy hleft hscan
      | succ k =>
        have hleft' : ∀ n, n ∈ ((p.dequeued node).take g hard node).remaining ↔ n < g.size
            ∧ n ∉ before ++ [node] := by
          intro n
          rw [hrem, hcounted.nodup.mem_erase_iff, hleft n, List.mem_append,
            List.mem_singleton, not_or]
          tauto
        have hgreedy := ih htake hleft' rfl k (Nat.lt_of_succ_lt_succ hk)
        rw [List.append_assoc, List.singleton_append] at hgreedy
        exact hgreedy

end Progress

/-! ### The smallest order -/

/-- When edges have no cycle, some node is free of all edges as long as nodes have not come. -/
theorem exists_free {before : List Nat} (hacyclic : g.Acyclic fun _ => true) {node : Nat}
    (hlt : node < g.size) (hnew : node ∉ before) : ∃ n, g.Free (fun _ => true) before n := by
  let left := g.nodes.filter fun n => !before.contains n
  have hmem : ∀ n, n ∈ left ↔ n < g.size ∧ n ∉ before := fun n => by simp [left, Digraph.nodes]
  obtain ⟨n, hn, hnone⟩ :=
    exists_not_led (fun n _ => hacyclic n) (List.ne_nil_of_mem ((hmem node).mpr ⟨hlt, hnew⟩))
  obtain ⟨hn', hnew'⟩ := (hmem n).mp hn
  refine ⟨n, hn', hnew', fun other hleads => ?_⟩
  by_contra hother
  exact hnone other ((hmem other).mpr ⟨hleads.source_lt, hother⟩) hleads

theorem Digraph.IsOrder.free {counted : ε → Bool} {order : List Nat}
    (h : g.IsOrder counted order) (k : Nat) (hk : k < order.length) :
    g.Free counted (order.take k) order[k] := by
  refine ⟨List.mem_range.mp (h.perm.mem_iff.mp (List.getElem_mem hk)), fun hmem => ?_,
    fun other hleads => ?_⟩
  · obtain ⟨i, hi, heq⟩ := List.mem_take_iff_getElem.mp hmem
    have hsame := (h.nodup.getElem_inj_iff).mp heq
    omega
  · obtain ⟨hne, e, he, hcounted, rfl, htarget⟩ := hleads
    have hlt := h.forward e he hcounted (htarget ▸ hne)
    rw [htarget, h.nodup.idxOf_getElem k hk] at hlt
    exact List.mem_take_iff_getElem.mpr ⟨order.idxOf e.source, by omega, List.getElem_idxOf _⟩

/-- An order that always takes the smallest free node comes before any other one. -/
theorem lex_of_isLeast {before order other : List Nat} (hlength : order.length = other.length)
    (hleast : ∀ k (hk : k < order.length),
      IsLeast { n | g.Free (fun _ => true) (before ++ order.take k) n } order[k])
    (hfree : ∀ k (hk : k < other.length),
      g.Free (fun _ => true) (before ++ other.take k) other[k]) :
    order = other ∨ List.Lex (· < ·) order other := by
  induction order generalizing before other with
  | nil => exact .inl (List.length_eq_zero_iff.mp hlength.symm).symm
  | cons first rest ih =>
    cases other with
    | nil => cases hlength
    | cons first' rest' =>
      have hle : first ≤ first' := (hleast 0 (Nat.succ_pos _)).2 (hfree 0 (Nat.succ_pos _))
      rcases Nat.lt_or_eq_of_le hle with hlt | rfl
      · exact .inr (.rel hlt)
      · have hrest : rest = rest' ∨ List.Lex (· < ·) rest rest' := by
          refine @ih (before ++ [first]) rest' (Nat.succ.inj hlength) (fun k hk => ?_) fun k hk =>
            ?_
          · rw [List.append_assoc]
            exact hleast (k + 1) (Nat.succ_lt_succ hk)
          · rw [List.append_assoc]
            exact hfree (k + 1) (Nat.succ_lt_succ hk)
        exact hrest.imp (congrArg _) .cons

/-! ### The order and the nodes that cannot be ordered -/

theorem acyclic_of_ok {order : List Nat} (hok : topologicalOrder g hard = .ok order) :
    g.Acyclic hard :=
  fun node hcycle => (snared_topologicalOrder g hard).1 order hok node ⟨node, hcycle, .refl⟩

/-- The ordering ends by itself. It succeeds just when hard edges have no cycle; then every node
is listed once and hard edges lead forward. Otherwise the nodes on cycles of hard edges and those
that are reached from them are reported, in ascending order. -/
theorem topologicalOrder_complete (g : Digraph ε) (hard : ε → Bool) :
    Progress.Ends g hard (.start g hard) (topologicalOrder g hard)
      ∧ ((∃ order, topologicalOrder g hard = .ok order) ↔ g.Acyclic hard)
      ∧ (∀ order, topologicalOrder g hard = .ok order → g.IsOrder hard order)
      ∧ ∀ left, topologicalOrder g hard = .error left →
        left.Pairwise (· < ·) ∧ ∀ node, node ∈ left ↔ g.Snared hard node := by
  have hiff : (∃ order, topologicalOrder g hard = .ok order) ↔ g.Acyclic hard :=
    ⟨fun ⟨_, hok⟩ => acyclic_of_ok hok, exists_topologicalOrder⟩
  refine ⟨ends_topologicalOrder g hard, hiff, fun order hok => ?_, fun left herror => ?_⟩
  · obtain ⟨hperm, hpair⟩ := topologicalOrder_ok hok
    exact Digraph.isOrder_of_pairwise hperm hpair
  · exact ((snared_topologicalOrder g hard).2 left herror).2

/-- Each node of the order is the greedy one after those before it. When edges have no cycle at
all, loops aside, soft edges lead forward too, and no other order of the graph comes before it
lexicographically. -/
theorem topologicalOrder_greedy {order : List Nat} (hok : topologicalOrder g hard = .ok order) :
    (∀ k (hk : k < order.length), g.Greedy hard (order.take k) order[k])
      ∧ ((g.Acyclic fun _ => true) → g.IsOrder (fun _ => true) order
        ∧ ∀ other, g.IsOrder (fun _ => true) other → order = other
        ∨ List.Lex (· < ·) order other) := by
  have hleft : ∀ n, n ∈ (Progress.start g hard).remaining ↔ n < g.size ∧ n ∉ ([] : List Nat) :=
      fun n => by
    simp [Progress.start, Digraph.nodes]
  have hgreedy := (ends_topologicalOrder g hard).greedy (Progress.counted_start g hard) hleft hok
  have hperm := (topologicalOrder_ok hok).1
  refine ⟨hgreedy, fun hacyclic => ?_⟩
  have hnodup : order.Nodup := hperm.nodup_iff.mpr List.nodup_range
  have hleast : ∀ k (hk : k < order.length),
      IsLeast { n | g.Free (fun _ => true) (order.take k) n } order[k] := by
    intro k hk
    refine (hgreedy k hk).resolve_right fun hnone => ?_
    have hlt : order[k] < g.size := List.mem_range.mp (hperm.mem_iff.mp (List.getElem_mem hk))
    have hnew : order[k] ∉ order.take k := hnone.2.1.new
    obtain ⟨n, hn⟩ := exists_free hacyclic hlt hnew
    exact hnone.1 n hn
  have hpair : order.Pairwise fun a b => ¬ g.Leads (fun _ => true) b a := by
    refine List.pairwise_iff_getElem.mpr fun i j hi hj hij hleads => ?_
    obtain ⟨k, hk, heq⟩ := List.mem_take_iff_getElem.mp ((hleast i hi).1.led _ hleads)
    have hsame := (hnodup.getElem_inj_iff).mp heq
    omega
  refine ⟨Digraph.isOrder_of_pairwise hperm hpair, fun other hother => ?_⟩
  exact @lex_of_isLeast _ g [] order other (hperm.length_eq.trans hother.perm.length_eq.symm)
    hleast hother.free

/-- A hard edge and soft edges that close two cycles. -/
def mixedGraph : Digraph Bool :=
  ((((Digraph.ofSize 3).addEdge 2 1 true).addEdge 0 1 false).addEdge 1 0 false).addEdge 1 2 false

/-- A hard and a soft edge that lead to smaller nodes, and a loop. -/
def forwardGraph : Digraph Bool :=
  (((Digraph.ofSize 4).addEdge 3 0 true).addEdge 2 1 false).addEdge 1 1 true

/-- Soft edges are given up where they close cycles, and respected where they do not. -/
theorem topologicalOrder_greedy_mixed :
    (∀ k (hk : k < 3), mixedGraph.Greedy id ([0, 2, 1].take k) [0, 2, 1][k])
      ∧ forwardGraph.IsOrder (fun _ => true) [2, 1, 3, 0]
      ∧ ∀ other, forwardGraph.IsOrder (fun _ => true) other → [2, 1, 3, 0] = other
          ∨ List.Lex (· < ·) [2, 1, 3, 0] other := by
  have hmixed : topologicalOrder mixedGraph id = .ok [0, 2, 1] := by decide +kernel
  have hforward : topologicalOrder forwardGraph id = .ok [2, 1, 3, 0] := by decide +kernel
  have hall : topologicalOrder forwardGraph (fun _ => true) = .ok [2, 1, 3, 0] := by decide +kernel
  exact ⟨(topologicalOrder_greedy hmixed).1,
    (topologicalOrder_greedy hforward).2 (acyclic_of_ok hall)⟩

end TypeLoom.Graph
