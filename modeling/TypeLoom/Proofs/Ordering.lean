import Mathlib.Data.List.Perm.Basic
import Mathlib.Data.Set.Finite.List
import Mathlib.Order.WellFounded
import TypeLoom.Graph.Topological

/-!
# Topological orders

The numbers kept by an ordering in progress count the edges that still come from nodes that are
left, and its queue holds the nodes that wait for none. A successful ordering therefore lists every
node once, and no hard edge leads backwards in it. The ordering succeeds unless the hard edges have
a cycle.
-/

namespace TypeLoom.Graph

variable {ε : Type} {g : Digraph ε} {hard : ε → Bool}

/-! ### What nodes wait for -/

def Digraph.Leads (g : Digraph ε) (counted : ε → Bool) (a b : Nat) : Prop :=
  a ≠ b ∧ ∃ e ∈ g.edges, counted e.data = true ∧ e.source = a ∧ e.target = b

/-- How many counted edges to a node come from other nodes that are left. -/
def waits (g : Digraph ε) (counted : ε → Bool) (left : List Nat) (node : Nat) : Nat :=
  g.edges.countP fun e => e.target == node && (e.source != node && counted e.data) &&
    left.contains e.source

/-- A node that waits for nothing has no counted edge from a node that is left. -/
theorem not_leads_of_waits {counted : ε → Bool} {left : List Nat} {node other : Nat}
    (h : waits g counted left node = 0) (ho : other ∈ left) : ¬ g.Leads counted other node := by
  rintro ⟨hne, e, he, hc, hs, ht⟩
  have hnone := List.countP_eq_zero.mp h e he
  simp [hc, hs, ht, hne, ho] at hnone

/-- A node without counted edges from nodes that are left waits for nothing. -/
theorem waits_eq_zero {counted : ε → Bool} {left : List Nat} {node : Nat}
    (h : ∀ other ∈ left, ¬ g.Leads counted other node) : waits g counted left node = 0 := by
  rw [waits, List.countP_eq_zero]
  intro e he hcounts
  simp only [Bool.and_eq_true, beq_iff_eq, bne_iff_ne, List.contains_iff_mem] at hcounts
  obtain ⟨⟨htarget, hne, hcounted⟩, hleft⟩ := hcounts
  exact h e.source hleft ⟨hne, e, he, hcounted, rfl, htarget⟩

/-- When no node that is left lies on a cycle of counted edges, some of them has none from the
others. -/
theorem exists_not_led {counted : ε → Bool} {left : List Nat}
    (hacyclic : ∀ n ∈ left, ¬ Relation.TransGen (g.Leads counted) n n) (hleft : left ≠ []) :
    ∃ node ∈ left, ∀ other ∈ left, ¬ g.Leads counted other node := by
  let before (a b : { n // n ∈ left }) : Prop := Relation.TransGen (g.Leads counted) a b
  have hfinite : Finite { n // n ∈ left } := left.finite_toSet.to_subtype
  have htrans : IsTrans _ before := ⟨fun _ _ _ => Relation.TransGen.trans⟩
  have hirrefl : Std.Irrefl before := ⟨fun n => hacyclic n n.property⟩
  have hwf : WellFounded before := Finite.wellFounded_of_trans_of_irrefl before
  obtain ⟨⟨node, hnode⟩, -, hmin⟩ :=
    hwf.has_min Set.univ ⟨⟨left.head hleft, List.head_mem hleft⟩, trivial⟩
  exact ⟨node, hnode, fun other hother hleads => hmin ⟨other, hother⟩ trivial (.single hleads)⟩

theorem waits_hard_le (hard : ε → Bool) (left : List Nat) (node : Nat) :
    waits g hard left node ≤ waits g (fun _ => true) left node := by
  refine List.countP_mono_left fun e _ h => ?_
  simp only [Bool.and_eq_true] at h ⊢
  exact ⟨⟨h.1.1, h.1.2.1, trivial⟩, h.2⟩

/-- Once a node is taken, its own edges are no longer waited for. -/
theorem waits_erase (counted : ε → Bool) {left : List Nat} {node other : Nat} (hleft : left.Nodup)
    (hnode : node ∈ left) (hne : other ≠ node) :
    waits g counted left other = waits g counted (left.erase node) other
      + (g.outgoing node).countP fun e => e.target == other && counted e.data := by
  unfold waits Digraph.outgoing
  rw [List.countP_filter]
  induction g.edges with
  | nil => rfl
  | cons e edges ih =>
    have hmem : (left.erase node).contains e.source
        = (left.contains e.source && e.source != node) := by
      rw [Bool.eq_iff_iff]
      simp only [List.contains_iff_mem, Bool.and_eq_true, bne_iff_ne, hleft.mem_erase_iff]
      exact and_comm
    simp only [List.countP_cons, ih, hmem]
    by_cases hs : e.source = node
    · have hs' : node ≠ other := fun h => hne h.symm
      by_cases ht : e.target = other
      · simp [hs, ht, hs', hnode]
        omega
      · simp [hs, ht]
    · by_cases ht : e.target = other
      · simp [hs, ht]
        omega
      · simp [hs, ht]

/-! ### The queue -/

theorem enqueue_of_lt {node : Nat} {queue : List Nat} (h : ∀ n ∈ queue, node < n) :
    enqueue node queue = node :: queue := by
  cases queue with
  | nil => rfl
  | cons first rest => exact if_pos (Nat.le_of_lt (h first List.mem_cons_self))

/-- When one more of some ascending nodes is let through, it takes its place in the queue of
those that were. -/
theorem enqueue_filter {nodes : List Nat} {node : Nat} {before after : Nat → Bool}
    (hsorted : nodes.Pairwise (· < ·)) (hmem : node ∈ nodes) (hbefore : before node = false)
    (hafter : after node = true) (hsame : ∀ n ∈ nodes, n ≠ node → after n = before n) :
    enqueue node (nodes.filter before) = nodes.filter after := by
  induction nodes with
  | nil => cases hmem
  | cons first rest ih =>
    obtain ⟨hfirst, hrest⟩ := List.pairwise_cons.mp hsorted
    by_cases heq : first = node
    · subst heq
      have hkept : rest.filter after = rest.filter before :=
        List.filter_congr fun n hn =>
          hsame n (List.mem_cons_of_mem _ hn) (Nat.ne_of_gt (hfirst n hn))
      rw [List.filter_cons_of_neg (by rw [hbefore]; exact Bool.false_ne_true),
        List.filter_cons_of_pos hafter, hkept]
      exact enqueue_of_lt fun n hn => hfirst n (List.mem_of_mem_filter hn)
    · have hmem' : node ∈ rest := (List.mem_cons.mp hmem).resolve_left (Ne.symm heq)
      have hothers := ih hrest hmem' fun n hn => hsame n (List.mem_cons_of_mem _ hn)
      have hpass : after first = before first := hsame first List.mem_cons_self heq
      rw [List.filter_cons, List.filter_cons, hpass]
      cases before first with
      | false => exact hothers
      | true =>
        have hlater : ¬ node ≤ first := Nat.not_le_of_lt (hfirst node hmem')
        simp only [if_true, enqueue, if_neg hlater, hothers]

/-! ### An ordering in progress -/

namespace Progress

/-- The queue holds the nodes that are left and wait for nothing, in ascending order. -/
def Queued (p : Progress) : Prop :=
  p.ready = p.remaining.filter fun node => p.pendingAll.getD node 0 == 0

/-- The nodes that are left are nodes in ascending order, both counts are right for them, and so
is the queue. -/
structure Counted (g : Digraph ε) (hard : ε → Bool) (p : Progress) : Prop where
  sorted : p.remaining.Pairwise (· < ·)
  nodes : ∀ node ∈ p.remaining, node < g.size
  sizeAll : p.pendingAll.size = g.size
  sizeHard : p.pendingHard.size = g.size
  all : ∀ node ∈ p.remaining, p.pendingAll.getD node 0 = waits g (fun _ => true) p.remaining node
  hard : ∀ node ∈ p.remaining, p.pendingHard.getD node 0 = waits g hard p.remaining node
  queued : p.Queued

theorem Counted.nodup {p : Progress} (h : Counted g hard p) : p.remaining.Nodup :=
  h.sorted.imp Nat.ne_of_lt

theorem counted_start (g : Digraph ε) (hard : ε → Bool) : Counted g hard (start g hard) := by
  have hcount : ∀ (counted : ε → Bool) (node : Nat),
      ((g.incoming node).filter fun e => e.source != node && counted e.data).length
        = waits g counted g.nodes node := by
    intro counted node
    rw [waits, ← List.countP_eq_length_filter, Digraph.incoming, List.countP_filter]
    refine List.countP_congr fun e he => ?_
    simp only [Digraph.nodes, Bool.and_eq_true, List.contains_iff_mem, List.mem_range]
    constructor
    · rintro ⟨⟨hs, hc⟩, ht⟩
      exact ⟨⟨ht, hs, hc⟩, (g.inside e he).1⟩
    · rintro ⟨⟨ht, hs, hc⟩, _⟩
      exact ⟨⟨hs, hc⟩, ht⟩
  refine ⟨List.pairwise_lt_range, fun node h => List.mem_range.mp h, by simp [start, Digraph.nodes],
    by simp [start, Digraph.nodes], ?_, ?_, rfl⟩
  · intro node h
    have hlt : node < g.size := List.mem_range.mp h
    have hthis := hcount (fun _ => true) node
    simpa [start, Digraph.nodes, Array.getD, hlt] using hthis
  · intro node h
    have hlt : node < g.size := List.mem_range.mp h
    have hthis := hcount hard node
    simpa [start, Digraph.nodes, Array.getD, hlt] using hthis

theorem getD_modify (counts : Array Nat) (target node : Nat) (h : node < counts.size) :
    (counts.modify target (· - 1)).getD node 0 =
      if target = node then counts.getD node 0 - 1 else counts.getD node 0 := by
  simp only [Array.getD, Array.size_modify, h, dif_pos, Array.getInternal_eq_getElem,
    Array.getElem_modify]

theorem release_keeps (hard : ε → Bool) (p : Progress) (e : Edge ε) :
    (p.release hard e).remaining = p.remaining ∧ (p.release hard e).pendingAll.size
    = p.pendingAll.size
      ∧ (p.release hard e).pendingHard.size = p.pendingHard.size := by
  unfold release
  split
  · exact ⟨rfl, rfl, rfl⟩
  · refine ⟨rfl, by simp, ?_⟩
    cases hard e.data <;> simp

theorem releaseAll_keeps (hard : ε → Bool) (edges : List (Edge ε)) (p : Progress) :
    let after := edges.foldl (fun p e => p.release hard e) p
    after.remaining = p.remaining ∧ after.pendingAll.size = p.pendingAll.size
      ∧ after.pendingHard.size = p.pendingHard.size := by
  induction edges generalizing p with
  | nil => exact ⟨rfl, rfl, rfl⟩
  | cons e edges ih =>
    obtain ⟨hrem, hsizeAll, hsizeHard⟩ := p.release_keeps hard e
    obtain ⟨ihrem, ihsizeAll, ihsizeHard⟩ := ih (p.release hard e)
    exact ⟨ihrem.trans hrem, ihsizeAll.trans hsizeAll, ihsizeHard.trans hsizeHard⟩

theorem release_skip {hard : ε → Bool} {p : Progress} {e : Edge ε}
    (h : e.target = e.source ∨ e.target ∉ p.remaining) :
    p.release hard e = p :=
  if_pos (by simpa [List.contains_eq_mem] using h)

theorem release_count (hard : ε → Bool) {p : Progress} {e : Edge ε} (hloop : e.target ≠ e.source)
    (hleft : e.target ∈ p.remaining) :
    (p.release hard e).pendingAll = p.pendingAll.modify e.target (· - 1)
      ∧ (p.release hard e).pendingHard
        = (if hard e.data then p.pendingHard.modify e.target (· - 1) else p.pendingHard)
      ∧ (p.release hard e).ready
        = if (p.pendingAll.modify e.target (· - 1)).getD e.target 0
        == 0 then enqueue e.target p.ready else p.ready := by
  have hgo : ¬ (e.target == e.source || !p.remaining.contains e.target) = true := by
    simp [hloop, hleft]
  simp only [release, if_neg hgo, and_self]

theorem release_counts (hard : ε → Bool) (p : Progress) (e : Edge ε) {node : Nat}
    (he : e.source ≠ node) (hnode : node ∈ p.remaining) (hall : node < p.pendingAll.size)
    (hhard : node < p.pendingHard.size) :
    (p.release hard e).pendingAll.getD node 0
      = p.pendingAll.getD node 0 - (if e.target = node then 1 else 0)
      ∧ (p.release hard e).pendingHard.getD node 0
        = p.pendingHard.getD node 0 - (if e.target = node ∧ hard e.data = true then 1 else 0) := by
  by_cases hskip : e.target = e.source ∨ e.target ∉ p.remaining
  · have hne : e.target ≠ node := by
      rintro rfl
      exact hskip.elim (fun h => he h.symm) fun h => h hnode
    rw [release_skip hskip]
    simp only [hne, if_false, false_and, Nat.sub_zero, and_self]
  · obtain ⟨hloop, hleft⟩ := not_or.mp hskip
    obtain ⟨hcountAll, hcountHard, -⟩ := release_count hard hloop (not_not.mp hleft)
    rw [hcountAll, hcountHard]
    constructor
    · rw [getD_modify _ _ _ hall]
      by_cases ht : e.target = node
      · rw [if_pos ht, if_pos ht]
      · rw [if_neg ht, if_neg ht, Nat.sub_zero]
    · by_cases hh : hard e.data = true
      · rw [if_pos hh, getD_modify _ _ _ hhard]
        by_cases ht : e.target = node
        · rw [if_pos ht, if_pos ⟨ht, hh⟩]
        · rw [if_neg ht, if_neg fun h => ht h.1, Nat.sub_zero]
      · rw [if_neg hh, if_neg fun h => hh h.2, Nat.sub_zero]

/-- Releasing an edge that its target waited for keeps the queue right. -/
theorem Queued.release {p : Progress} (h : p.Queued) (hard : ε → Bool) {e : Edge ε}
    (hsorted : p.remaining.Pairwise (· < ·))
    (hsize : ∀ node ∈ p.remaining, node < p.pendingAll.size) (hwaited : e.target ∈ p.remaining →
        0 < p.pendingAll.getD e.target 0) : (p.release hard e).Queued := by
  by_cases hskip : e.target = e.source ∨ e.target ∉ p.remaining
  · rwa [release_skip hskip]
  · obtain ⟨hloop, hleft⟩ := not_or.mp hskip
    replace hleft := not_not.mp hleft
    obtain ⟨hcount, -, hready⟩ := release_count hard hloop hleft
    have hothers : ∀ node ∈ p.remaining, node ≠ e.target →
        ((p.pendingAll.modify e.target (· - 1)).getD node 0 == 0)
        = (p.pendingAll.getD node 0 == 0) := by
      intro node hnode hne
      rw [getD_modify _ _ _ (hsize node hnode), if_neg (Ne.symm hne)]
    have hbusy : (p.pendingAll.getD e.target 0 == 0) = false := by
      rw [beq_eq_false_iff_ne]
      exact Nat.ne_of_gt (hwaited hleft)
    rw [Queued, hready, (p.release_keeps hard e).1, hcount, h]
    split
    · rename_i hfree
      exact enqueue_filter hsorted hleft hbusy hfree hothers
    · rename_i hfree
      refine List.filter_congr fun node hnode => ?_
      by_cases heq : node = e.target
      · rw [heq, hbusy, Bool.eq_false_iff.mpr hfree]
      · exact (hothers node hnode heq).symm

theorem releaseAll_counts (hard : ε → Bool) (edges : List (Edge ε)) (p : Progress) {node : Nat}
    (hedges : ∀ e ∈ edges, e.source ≠ node) (hnode : node ∈ p.remaining)
    (hall : node < p.pendingAll.size) (hhard : node < p.pendingHard.size) :
    let after := edges.foldl (fun p e => p.release hard e) p
    after.pendingAll.getD node 0 = p.pendingAll.getD node 0 - edges.countP (fun e =>
      e.target == node)
      ∧ after.pendingHard.getD node 0
        = p.pendingHard.getD node 0 - edges.countP (fun e => e.target == node && hard e.data) := by
  induction edges generalizing p with
  | nil => simp only [List.foldl_nil, List.countP_nil, Nat.sub_zero, and_self]
  | cons e edges ih =>
    have he : e.source ≠ node := hedges e (by simp)
    obtain ⟨hrem, hsizeAll, hsizeHard⟩ := p.release_keeps hard e
    obtain ⟨ha, hh⟩ := p.release_counts hard e he hnode hall hhard
    obtain ⟨iha, ihh⟩ := ih (p.release hard e) (fun e' he' => hedges e' (by simp [he']))
      (by rw [hrem]; exact hnode) (by rw [hsizeAll]; exact hall) (by rw [hsizeHard]; exact hhard)
    simp only [List.foldl_cons, List.countP_cons, beq_iff_eq, Bool.and_eq_true]
    constructor
    · rw [iha, ha]
      omega
    · rw [ihh, hh]
      omega

/-- Releasing edges that their targets waited for keeps the queue right. -/
theorem Queued.releaseAll {p : Progress} (h : p.Queued) (hard : ε → Bool) {edges : List (Edge ε)}
    (hsorted : p.remaining.Pairwise (· < ·))
    (hsize : ∀ node ∈ p.remaining, node < p.pendingAll.size ∧ node < p.pendingHard.size)
    (hedges : ∀ node ∈ p.remaining, (∀ e ∈ edges, e.source ≠ node)
      ∧ edges.countP (fun e => e.target == node) ≤ p.pendingAll.getD node 0) :
    (edges.foldl (fun p e => p.release hard e) p).Queued := by
  induction edges generalizing p with
  | nil => exact h
  | cons e edges ih =>
    obtain ⟨hrem, hsizeAll, hsizeHard⟩ := p.release_keeps hard e
    have hwaited : e.target ∈ p.remaining → 0 < p.pendingAll.getD e.target 0 := by
      intro hleft
      have hle := (hedges e.target hleft).2
      simp only [List.countP_cons, beq_self_eq_true, if_true] at hle
      omega
    refine ih (h.release hard hsorted (fun node hnode => (hsize node hnode).1) hwaited)
      (hrem ▸ hsorted) ?_ ?_
    · rw [hrem, hsizeAll, hsizeHard]
      exact hsize
    · rw [hrem]
      intro node hnode
      obtain ⟨hsources, hle⟩ := hedges node hnode
      have hcount :=
        (p.release_counts hard e (hsources e List.mem_cons_self) hnode (hsize node hnode).1
        (hsize node hnode).2).1
      refine ⟨fun e' he' => hsources e' (List.mem_cons_of_mem _ he'), ?_⟩
      rw [hcount]
      simp only [List.countP_cons, beq_iff_eq] at hle
      omega

/-- The ordering in progress with one node less in the queue. -/
def dequeued (p : Progress) (node : Nat) : Progress := { p with ready := p.ready.erase node }

theorem Counted.take {p : Progress} (h : Counted g hard p) {node : Nat}
    (hnode : node ∈ p.remaining) :
    Counted g hard ((p.dequeued node).take g hard node)
      ∧ ((p.dequeued node).take g hard node).remaining = p.remaining.erase node := by
  let taken : Progress := { p.dequeued node with remaining := p.remaining.erase node }
  obtain ⟨hrem, hsa, hsh⟩ := releaseAll_keeps hard (g.outgoing node) taken
  change ((p.dequeued node).take g hard node).remaining = p.remaining.erase node at hrem
  have hlt : ∀ other ∈ p.remaining.erase node, other < p.pendingAll.size
      ∧ other < p.pendingHard.size := by
    intro other ho
    have hlt := h.nodes other (List.mem_of_mem_erase ho)
    exact ⟨h.sizeAll ▸ hlt, h.sizeHard ▸ hlt⟩
  have hout : ∀ other ∈ p.remaining.erase node, ∀ e ∈ g.outgoing node, e.source ≠ other := by
    intro other ho e he heq
    have hsource : e.source = node := by simpa using (List.mem_filter.mp he).2
    exact (h.nodup.mem_erase_iff.mp ho).1 (heq.symm.trans hsource)
  have hcounts := fun other ho =>
    releaseAll_counts hard (g.outgoing node) taken (hout other ho) ho (hlt other ho).1
      (hlt other ho).2
  have hwaits : ∀ counted, ∀ other ∈ p.remaining.erase node, waits g counted p.remaining other
      = waits g counted (p.remaining.erase node) other
        + (g.outgoing node).countP fun e => e.target == other && counted e.data :=
    fun counted other ho => waits_erase counted h.nodup hnode (h.nodup.mem_erase_iff.mp ho).1
  have hqueued : taken.Queued := by
    have hfilter : (p.remaining.erase node).filter (fun n => p.pendingAll.getD n 0 == 0)
        = (p.remaining.filter fun n => p.pendingAll.getD n 0 == 0).erase node := by
      rw [(h.nodup.filter _).erase_eq_filter, h.nodup.erase_eq_filter, List.filter_filter,
        List.filter_filter]
      exact List.filter_congr fun n _ => Bool.and_comm _ _
    show p.ready.erase node = _
    rw [h.queued, ← hfilter]
    rfl
  refine ⟨⟨?_, ?_, hsa.trans h.sizeAll, hsh.trans h.sizeHard, ?_, ?_, ?_⟩, hrem⟩
  · rw [hrem]
    exact h.sorted.sublist List.erase_sublist
  · intro other ho
    rw [hrem] at ho
    exact h.nodes other (List.mem_of_mem_erase ho)
  · intro other ho
    rw [hrem] at ho ⊢
    have hcount := (hcounts other ho).1
    have hw := hwaits (fun _ => true) other ho
    rw [← h.all other (List.mem_of_mem_erase ho)] at hw
    simp only [Bool.and_true] at hw
    have hleft : p.pendingAll.getD other 0 - (g.outgoing node).countP (fun e => e.target == other)
        = waits g (fun _ => true) (p.remaining.erase node) other := by omega
    exact hcount.trans hleft
  · intro other ho
    rw [hrem] at ho ⊢
    have hcount := (hcounts other ho).2
    have hw := hwaits hard other ho
    rw [← h.hard other (List.mem_of_mem_erase ho)] at hw
    have hleft : p.pendingHard.getD other 0 - (g.outgoing node).countP (fun e =>
      e.target == other && hard e.data)
        = waits g hard (p.remaining.erase node) other := by omega
    exact hcount.trans hleft
  · refine hqueued.releaseAll hard (h.sorted.sublist List.erase_sublist) hlt fun other ho =>
      ⟨hout other ho, ?_⟩
    have hw := hwaits (fun _ => true) other ho
    rw [← h.all other (List.mem_of_mem_erase ho)] at hw
    simp only [Bool.and_true] at hw
    have hwaited : (g.outgoing node).countP (fun e => e.target == other)
      ≤ p.pendingAll.getD other 0 := by omega
    exact hwaited

/-! ### The next node -/

/-- The first node that is left and waits for nothing; without one, the first that waits for no
hard edge. -/
def scan? (p : Progress) : Option Nat :=
  (p.remaining.find? fun node => p.pendingAll.getD node 0 == 0).or
    (p.remaining.find? fun node => p.pendingHard.getD node 0 == 0)

/-- The queue gives the node that a scan of all counts finds. -/
theorem Counted.next?_eq {p : Progress} (h : Counted g hard p) :
    p.next? = p.scan?.map fun node => (node, p.dequeued node) := by
  have hfirst : p.ready.head? = p.remaining.find? fun node => p.pendingAll.getD node 0 == 0 := by
    rw [h.queued, List.head?_filter]
  cases hready : p.ready with
  | nil =>
    have hsame : ∀ node, p.dequeued node = { p with ready := [] } := fun node => by
      rw [dequeued, hready, List.erase_nil]
    rw [hready] at hfirst
    simp only [scan?, ← hfirst, next?, hready, hsame]
    rfl
  | cons node ready =>
    have hsame : p.dequeued node = { p with ready } := by
      rw [dequeued, hready, List.erase_cons_head]
    rw [hready] at hfirst
    have hleft : node ∈ p.remaining := List.mem_of_find?_eq_some hfirst.symm
    have hkept : (node :: ready).dropWhile (fun node => !p.remaining.contains node)
      = node :: ready :=
      List.dropWhile_cons_of_neg (by simp [hleft])
    rw [scan?, ← hfirst, next?, hready, hkept]
    exact congrArg (fun after => some (node, after)) hsame.symm

/-- The node that comes next is left, and no node that is left has a hard edge to it. -/
theorem Counted.scan {p : Progress} (h : Counted g hard p) {node : Nat}
    (hnext : p.scan? = some node) :
    node ∈ p.remaining ∧ ∀ other ∈ p.remaining, ¬ g.Leads hard other node := by
  rcases Option.or_eq_some_iff.mp hnext with hfound | ⟨_, hfound⟩
  · have hmem := List.mem_of_find?_eq_some hfound
    have hzero : p.pendingAll.getD node 0 = 0 := by simpa using List.find?_some hfound
    refine ⟨hmem, fun other ho => not_leads_of_waits (?_ : waits g hard p.remaining node = 0) ho⟩
    have hle := waits_hard_le (g := g) hard p.remaining node
    rw [h.all node hmem] at hzero
    omega
  · have hmem := List.mem_of_find?_eq_some hfound
    have hzero : p.pendingHard.getD node 0 = 0 := by simpa using List.find?_some hfound
    rw [h.hard node hmem] at hzero
    exact ⟨hmem, fun other ho => not_leads_of_waits hzero ho⟩

/-- When no node can come next, hard edges lead to each node that is left from others that are. -/
theorem Counted.exists_leads {p : Progress} (h : Counted g hard p)
    (hstuck : p.scan? = none) {node : Nat} (hnode : node ∈ p.remaining) :
    ∃ other ∈ p.remaining, g.Leads hard other node := by
  by_contra hnone
  push Not at hnone
  have hzero : p.pendingHard.getD node 0 = 0 := (h.hard node hnode).trans (waits_eq_zero hnone)
  have hblocked := List.find?_eq_none.mp (Option.or_eq_none_iff.mp hstuck).2 node hnode
  exact hblocked (by rw [hzero]; rfl)

/-! ### The whole run -/

/-- How an ordering in progress ends: one next node after the other is taken, until none is left
or none can come next. -/
inductive Ends (g : Digraph ε) (hard : ε → Bool) : Progress → Except (List Nat) (List Nat) → Prop
  | done {p : Progress} (hnone : p.remaining = []) : Ends g hard p (.ok [])
  | stuck {p : Progress} (hleft : p.remaining ≠ []) (hnext : p.next? = none) :
    Ends g hard p (.error p.remaining)
  | step {p after : Progress} {node : Nat} {answer : Except (List Nat) (List Nat)}
    (hleft : p.remaining ≠ [])
      (hnext : p.next? = some (node, after)) (hrest : Ends g hard (after.take g hard node) answer) :
      Ends g hard p (answer.map (node :: ·))

/-- As many steps as nodes are left are enough. -/
theorem Counted.ends_orderFrom {p : Progress} (h : Counted g hard p) {steps : Nat}
    (hsteps : p.remaining.length ≤ steps) :
    Ends g hard p (orderFrom g hard steps p) := by
  induction steps generalizing p with
  | zero =>
    have hnone : p.remaining = [] := List.length_eq_zero_iff.mp (Nat.le_zero.mp hsteps)
    rw [orderFrom, hnone]
    exact .done hnone
  | succ steps ih =>
    by_cases hleft : p.remaining = []
    · rw [orderFrom, hleft]
      exact .done hleft
    · have hmore : p.remaining.isEmpty = false := by simpa using hleft
      rw [orderFrom, hmore, if_neg Bool.false_ne_true]
      cases hnext : p.next? with
      | none => exact .stuck hleft hnext
      | some found =>
        obtain ⟨node, after⟩ := found
        rw [h.next?_eq] at hnext
        obtain ⟨_, hscan, heq⟩ := Option.map_eq_some_iff.mp hnext
        cases heq
        obtain ⟨hmem, -⟩ := h.scan hscan
        obtain ⟨htake, hrem⟩ := h.take hmem
        have hfewer : ((p.dequeued node).take g hard node).remaining.length ≤ steps := by
          rw [hrem, List.length_erase_of_mem hmem]
          omega
        have hrest := Ends.step hleft (h.next?_eq.trans (by rw [hscan]; rfl)) (ih htake hfewer)
        dsimp only
        cases horder : orderFrom g hard steps ((p.dequeued node).take g hard node) with
        | ok order =>
          rw [horder] at hrest
          exact hrest
        | error left =>
          rw [horder] at hrest
          exact hrest

end Progress

theorem ends_topologicalOrder (g : Digraph ε) (hard : ε → Bool) :
    Progress.Ends g hard (.start g hard) (topologicalOrder g hard) :=
  (Progress.counted_start g hard).ends_orderFrom (by rw [Progress.start, Digraph.nodes,
    List.length_range])

/-! ### Successful orderings -/

/-- What is taken from an ordering in progress is what was left, and no hard edge leads
backwards. -/
theorem Progress.Ends.ok {p : Progress} {answer : Except (List Nat) (List Nat)}
    (h : p.Ends g hard answer) (hcounted : p.Counted g hard) {order : List Nat}
    (hok : answer = .ok order) :
    order.Perm p.remaining ∧ order.Pairwise fun a b => ¬ g.Leads hard b a := by
  induction h generalizing order with
  | done hnone =>
    cases hok
    rw [hnone]
    exact ⟨.nil, .nil⟩
  | stuck hleft hnext => cases hok
  | @step p after node answer hleft hnext hrest ih =>
    rw [hcounted.next?_eq] at hnext
    obtain ⟨_, hscan, heq⟩ := Option.map_eq_some_iff.mp hnext
    cases heq
    obtain ⟨hmem, hnone⟩ := hcounted.scan hscan
    obtain ⟨htake, hrem⟩ := hcounted.take hmem
    cases answer with
    | error left => cases hok
    | ok rest =>
      cases hok
      obtain ⟨hperm, hpair⟩ := ih htake rfl
      rw [hrem] at hperm
      refine ⟨(hperm.cons node).trans (List.perm_cons_erase hmem).symm,
        List.pairwise_cons.mpr ⟨fun other ho => ?_, hpair⟩⟩
      exact hnone other (List.mem_of_mem_erase (hperm.subset ho))

/-- A topological order lists every node once, and no hard edge, loops aside, leads backwards in
it. -/
theorem topologicalOrder_ok {order : List Nat} (hok : topologicalOrder g hard = .ok order) :
    order.Perm g.nodes ∧ order.Pairwise fun a b => ¬ g.Leads hard b a :=
  (ends_topologicalOrder g hard).ok (Progress.counted_start g hard) hok

/-! ### Failed orderings -/

/-- The node lies on a cycle of counted edges, or is reached from one. -/
def Digraph.Snared (g : Digraph ε) (counted : ε → Bool) (node : Nat) : Prop :=
  ∃ first, Relation.TransGen (g.Leads counted) first first
    ∧ Relation.ReflTransGen (g.Leads counted) first node

theorem Digraph.Leads.target_lt {counted : ε → Bool} {a b : Nat} (h : g.Leads counted a b) :
    b < g.size := by
  obtain ⟨-, e, he, -, -, rfl⟩ := h
  exact (g.inside e he).2

theorem Digraph.Leads.source_lt {counted : ε → Bool} {a b : Nat} (h : g.Leads counted a b) :
    a < g.size := by
  obtain ⟨-, e, he, -, rfl, -⟩ := h
  exact (g.inside e he).1

namespace Digraph.Snared

variable {node : Nat}

theorem of_leads {other : Nat} (h : g.Snared hard other) (hleads : g.Leads hard other node) :
    g.Snared hard node := by
  obtain ⟨first, hcycle, hpath⟩ := h
  exact ⟨first, hcycle, hpath.tail hleads⟩

theorem exists_leads (h : g.Snared hard node) :
    ∃ other, g.Snared hard other ∧ g.Leads hard other node := by
  obtain ⟨first, hcycle, hpath⟩ := h
  obtain ⟨other, hother, hlast⟩ := Relation.TransGen.tail'_iff.mp (hcycle.trans_left hpath)
  exact ⟨other, ⟨first, hcycle, hother⟩, hlast⟩

theorem lt (h : g.Snared hard node) : node < g.size := by
  obtain ⟨_, _, hlast⟩ := h.exists_leads
  exact hlast.target_lt

end Digraph.Snared

theorem snared_of_leads {left : List Nat}
    (h : ∀ node ∈ left, ∃ other ∈ left, g.Leads hard other node) :
    ∀ node ∈ left, g.Snared hard node := by
  classical
  by_contra hsome
  push Not at hsome
  obtain ⟨node, hnode, hfree⟩ := hsome
  -- The nodes that no cycle reaches would have a first one, but an edge leads to it from another
  -- one.
  let free := left.filter fun n => decide (¬ g.Snared hard n)
  have hmem : ∀ n, n ∈ free ↔ n ∈ left ∧ ¬ g.Snared hard n := fun n => by simp [free]
  have hacyclic : ∀ n ∈ free, ¬ Relation.TransGen (g.Leads hard) n n :=
    fun n hn hcycle => ((hmem n).mp hn).2 ⟨n, hcycle, .refl⟩
  obtain ⟨first, hfirst, hnone⟩ :=
    exists_not_led hacyclic (List.ne_nil_of_mem ((hmem node).mpr ⟨hnode, hfree⟩))
  obtain ⟨hleft, hunreached⟩ := (hmem first).mp hfirst
  obtain ⟨other, hother, hleads⟩ := h first hleft
  exact hnone other ((hmem other).mpr ⟨hother, fun hsnared => hunreached (hsnared.of_leads hleads)⟩)
    hleads

/-- What cycles of hard edges reach is never taken, and nothing else is left at the end. -/
theorem Progress.Ends.snared {p : Progress} {answer : Except (List Nat) (List Nat)}
    (h : p.Ends g hard answer) (hcounted : p.Counted g hard)
    (hkept : ∀ node, g.Snared hard node → node ∈ p.remaining) :
    (∀ order, answer = .ok order → ∀ node, ¬ g.Snared hard node)
      ∧ ∀ left, answer = .error left → left ≠ [] ∧ left.Pairwise (· < ·) ∧ ∀ node, node ∈ left ↔
      g.Snared hard node := by
  induction h with
  | done hnone =>
    refine ⟨fun _ _ node hsnared => ?_, nofun⟩
    have hmem := hkept node hsnared
    rw [hnone] at hmem
    cases hmem
  | stuck hleft hnext =>
    refine ⟨nofun, fun left herror => ?_⟩
    cases herror
    rw [hcounted.next?_eq, Option.map_eq_none_iff] at hnext
    have hsnared := snared_of_leads fun node hnode => hcounted.exists_leads hnext hnode
    exact ⟨hleft, hcounted.sorted, fun node => ⟨hsnared node, hkept node⟩⟩
  | @step p after node answer hleft hnext hrest ih =>
    rw [hcounted.next?_eq] at hnext
    obtain ⟨_, hscan, heq⟩ := Option.map_eq_some_iff.mp hnext
    cases heq
    obtain ⟨hmem, hnone⟩ := hcounted.scan hscan
    obtain ⟨htake, hrem⟩ := hcounted.take hmem
    have hstays : ∀ other, g.Snared hard other →
        other ∈ ((p.dequeued node).take g hard node).remaining := by
      intro other hsnared
      rw [hrem, hcounted.nodup.mem_erase_iff]
      refine ⟨?_, hkept other hsnared⟩
      rintro rfl
      obtain ⟨source, hsource, hleads⟩ := hsnared.exists_leads
      exact hnone source (hkept source hsource) hleads
    obtain ⟨hok, herror⟩ := ih htake hstays
    cases answer with
    | ok rest => exact ⟨fun _ _ => hok rest rfl, nofun⟩
    | error left =>
      refine ⟨nofun, fun left' hleft' => ?_⟩
      cases hleft'
      exact herror left rfl

theorem snared_topologicalOrder (g : Digraph ε) (hard : ε → Bool) :
    (∀ order, topologicalOrder g hard = .ok order → ∀ node, ¬ g.Snared hard node)
      ∧ ∀ left, topologicalOrder g hard = .error left →
        left ≠ [] ∧ left.Pairwise (· < ·) ∧ ∀ node, node ∈ left ↔ g.Snared hard node :=
  (ends_topologicalOrder g hard).snared (Progress.counted_start g hard) fun _ hsnared =>
    List.mem_range.mpr hsnared.lt

theorem exists_topologicalOrder (hacyclic : ∀ n, ¬ Relation.TransGen (g.Leads hard) n n) :
    ∃ order, topologicalOrder g hard = .ok order := by
  cases horder : topologicalOrder g hard with
  | ok order => exact ⟨order, rfl⟩
  | error left =>
    obtain ⟨hleft, -, hsnared⟩ := (snared_topologicalOrder g hard).2 left horder
    obtain ⟨node, hnode⟩ := List.exists_mem_of_ne_nil left hleft
    obtain ⟨first, hcycle, -⟩ := (hsnared node).mp hnode
    exact absurd hcycle (hacyclic first)

end TypeLoom.Graph
