import Mathlib.Data.List.Chain
import Mathlib.Data.List.Perm.Subperm
import Mathlib.Data.List.Range
import Mathlib.Logic.Relation
import TypeLoom.Graph.Cycle

/-!
# Searches for cycles

The walk goes along edges between members and keeps its path without repetition, so what it closes
is a cycle. What is finished leads only to what was finished before, so a walk that finds nothing
shows that the members have no cycle.

The same walk as a loop: each node of the path keeps a frontier, the candidates that are still to be
tried from it, and each turn looks at the innermost frontier only. On every graph the loop comes to
an end, with the answer of the walk.
-/

namespace TypeLoom.Graph

variable {ε : Type} {g : Digraph ε} {members : List Nat}

/-- An edge leads from the first node to the second, which is a member. -/
def Digraph.Steps (g : Digraph ε) (members : List Nat) (node next : Nat) : Prop :=
  next ∈ members ∧ next ∈ g.successors node

theorem Digraph.Steps.lt {node next : Nat} (h : g.Steps members node next) : next < g.size := by
  obtain ⟨e, he, -, htarget⟩ := (g.mem_successors node next).mp h.2
  exact htarget ▸ (g.inside e he).2

theorem mem_candidates {node next : Nat} :
    next ∈ candidates g members node ↔ g.Steps members node next := by
  simp [candidates, Digraph.Steps, and_comm]

/-- A list that goes from step to step back to its first node and repeats no other. -/
structure Circuit (step : Nat → Nat → Prop) (cycle : List Nat) : Prop where
  long : 2 ≤ cycle.length
  closed : cycle.head? = cycle.getLast?
  chain : cycle.IsChain step
  distinct : cycle.tail.Nodup

/-- From each node of a circle there is a way to each of its nodes, itself included. -/
theorem Circuit.reaches {step : Nat → Nat → Prop} {cycle : List Nat} (h : Circuit step cycle)
    {a b : Nat} (ha : a ∈ cycle) (hb : b ∈ cycle) : Relation.TransGen step a b := by
  obtain ⟨hlong, hclosed, hchain, -⟩ := h
  match cycle with
  | first :: second :: rest =>
    rw [List.head?_cons, List.getLast?_eq_some_getLast (List.cons_ne_nil _ _),
      Option.some_inj] at hclosed
    -- The first node is the last one as well, so all nodes come after a first step.
    have hlater : b ∈ second :: rest := by
      rcases List.mem_cons.mp hb with rfl | hb
      · rw [List.getLast_cons (List.cons_ne_nil _ _)] at hclosed
        exact hclosed ▸ List.getLast_mem _
      · exact hb
    have hback : Relation.ReflTransGen step a first :=
      hchain.backwards_induction (Relation.ReflTransGen step · first) _
      (fun _ _ hstep hrest => .head hstep hrest) (fun _ => hclosed ▸ .refl) a ha
    have hforth : Relation.ReflTransGen step second b :=
      hchain.tail.induction (Relation.ReflTransGen step second ·) _
      (fun _ _ hstep hrest => hrest.tail hstep) (fun _ => .refl) b hlater
    exact Relation.TransGen.trans_right hback (.head' (List.isChain_cons_cons.mp hchain).1 hforth)

theorem Circuit.imp {step other : Nat → Nat → Prop} {cycle : List Nat} (h : Circuit step cycle)
    (himp : ∀ a ∈ cycle, ∀ b, step a b → other a b) : Circuit other cycle :=
  ⟨h.long, h.closed, h.chain.imp_of_mem_imp fun a b ha _ => himp a ha b, h.distinct⟩

theorem Circuit.mem {cycle : List Nat} (h : Circuit (g.Steps members) cycle) :
    ∀ n ∈ cycle, n ∈ members := fun n hn => by
  obtain ⟨_, _, hlast⟩ := Relation.TransGen.tail'_iff.mp (h.reaches hn hn)
  exact hlast.1

/-! ### Paths and what is finished -/

theorem exists_steps_of_mem {step : Nat → Nat → Prop} {first node : Nat} {rest : List Nat}
    (h : (first :: rest).IsChain step) (hnode : node ∈ rest) : ∃ before, step before node := by
  induction rest generalizing first with
  | nil => cases hnode
  | cons next rest ih =>
    obtain ⟨hstep, hrest⟩ := List.isChain_cons_cons.mp h
    rcases List.mem_cons.mp hnode with rfl | hnode
    · exact ⟨first, hstep⟩
    · exact ih hrest hnode

theorem nodup_concat_iff {path : List Nat} {node : Nat} : (path ++ [node]).Nodup ↔ node ∉ path
    ∧ path.Nodup := by
  rw [List.perm_append_singleton node path |>.nodup_iff, List.nodup_cons]

/-- A path goes from step to step and has no node twice. -/
structure Trail (g : Digraph ε) (members path : List Nat) : Prop where
  chain : path.IsChain (g.Steps members)
  nodup : path.Nodup

/-- A path starts anywhere, and comes to each node of the graph at most once. -/
theorem Trail.length_le {path : List Nat} (h : Trail g members path) :
    path.length ≤ g.size + 1 := by
  cases path with
  | nil => exact Nat.zero_le _
  | cons first rest =>
    have hsub : rest ⊆ List.range g.size := fun n hn => by
      obtain ⟨node, hstep⟩ := exists_steps_of_mem h.chain hn
      exact List.mem_range.mpr hstep.lt
    have hle := ((List.nodup_cons.mp h.nodup).2.subperm hsub).length_le
    rw [List.length_range] at hle
    exact Nat.succ_le_succ hle

theorem Trail.start (node : Nat) : Trail g members [node] :=
  ⟨.singleton _, List.nodup_cons.mpr ⟨List.not_mem_nil, List.nodup_nil⟩⟩

theorem Trail.snoc {path : List Nat} {node next : Nat} (h : Trail g members (path ++ [node]))
    (hstep : g.Steps members node next) (hnew : next ∉ path ++ [node]) :
    Trail g members (path ++ [node] ++ [next]) where
  chain := by
    refine List.isChain_append.mpr ⟨h.chain, .singleton _, fun a ha b hb => ?_⟩
    rw [List.getLast?_concat, Option.mem_some_iff] at ha
    rw [List.head?_cons, Option.mem_some_iff] at hb
    exact ha ▸ hb ▸ hstep
  nodup := nodup_concat_iff.mpr ⟨hnew, h.nodup⟩

/-- A step back to the path closes a cycle. -/
theorem Trail.circuit {path : List Nat} {node next : Nat} (h : Trail g members (path ++ [node]))
    (hstep : g.Steps members node next) (hmem : next ∈ path ++ [node]) :
    Circuit (g.Steps members) (closePath (path ++ [node]) next) := by
  obtain ⟨before, after, hsplit⟩ := List.append_of_mem hmem
  have hnodup := h.nodup
  rw [hsplit] at hnodup
  have hbefore : ∀ n ∈ before, (n != next) = true := fun n hn =>
    bne_iff_ne.mpr (List.nodup_append.mp hnodup |>.2.2 n hn next List.mem_cons_self)
  have hclose : closePath (path ++ [node]) next = next :: after ++ [next] := by
    rw [closePath, hsplit, List.dropWhile_append_of_pos hbefore,
      List.dropWhile_cons_of_neg (by simp)]
  have hlast : (next :: after).getLast? = some node := by
    have hend := congrArg List.getLast? hsplit
    rw [List.getLast?_concat, List.getLast?_append_of_ne_nil _ (List.cons_ne_nil _ _)] at hend
    exact hend.symm
  rw [hclose]
  refine ⟨by simp, by rw [List.getLast?_concat, List.cons_append, List.head?_cons], ?_, ?_⟩
  · have hchain := h.chain
    rw [hsplit] at hchain
    refine List.isChain_append.mpr ⟨(List.isChain_append.mp hchain).2.1, .singleton _,
      fun a ha b hb => ?_⟩
    rw [hlast, Option.mem_some_iff] at ha
    rw [List.head?_cons, Option.mem_some_iff] at hb
    exact ha ▸ hb ▸ hstep
  · rw [List.cons_append, List.tail_cons, nodup_concat_iff]
    exact List.nodup_cons.mp (List.nodup_append.mp hnodup).2.1

/-- Each finished node leads only to members that were finished before it. -/
inductive Settled (g : Digraph ε) (members : List Nat) : List Nat → Prop
  | nil : Settled g members []
  | cons {node : Nat} {rest : List Nat} (hnew : node ∉ rest) (hnext : ∀ next,
    g.Steps members node next → next ∈ rest)
      (hrest : Settled g members rest) : Settled g members (node :: rest)

namespace Settled

variable {finished : List Nat}

theorem next (h : Settled g members finished) {a b : Nat} (ha : a ∈ finished)
    (hstep : g.Steps members a b) : b ∈ finished := by
  induction h with
  | nil => cases ha
  | cons hnew hnext hrest ih =>
    rcases List.mem_cons.mp ha with rfl | ha
    · exact List.mem_cons_of_mem _ (hnext b hstep)
    · exact List.mem_cons_of_mem _ (ih ha)

theorem closed (h : Settled g members finished) {a b : Nat} (ha : a ∈ finished)
    (hpath : Relation.ReflTransGen (g.Steps members) a b) : b ∈ finished := by
  induction hpath with
  | refl => exact ha
  | tail _ hlast ih => exact h.next ih hlast

theorem not_transGen (h : Settled g members finished) {node : Nat} (hnode : node ∈ finished) :
    ¬ Relation.TransGen (g.Steps members) node node := by
  induction h with
  | nil => cases hnode
  | @cons first rest hnew hnext hrest ih =>
    rcases List.mem_cons.mp hnode with rfl | hlater
    · intro hcycle
      obtain ⟨next, hstep, hback⟩ := Relation.TransGen.head'_iff.mp hcycle
      exact hnew (hrest.closed (hnext next hstep) hback)
    · exact ih hlater

end Settled

/-! ### The walk -/

/-- A loop over items that stops with an error: each step keeps what is good, does its item and
undoes none, or fails badly. -/
theorem foldlM_good {σ α χ : Type} {step : σ → α → Except χ σ} {good : σ → Prop}
    {did : α → σ → Prop} {bad : χ → Prop} {items : List α}
    (hstep : ∀ s, good s → ∀ a ∈ items, (∀ s', step s a = .ok s' → good s' ∧ did a s'
      ∧ ∀ b, did b s → did b s')
      ∧ ∀ c, step s a = .error c → bad c) {s : σ} (hs : good s) :
    (∀ s', items.foldlM step s = .ok s' → good s' ∧ (∀ a ∈ items, did a s')
      ∧ ∀ b, did b s → did b s')
      ∧ ∀ c, items.foldlM step s = .error c → bad c := by
  induction items generalizing s with
  | nil =>
    refine ⟨fun s' hok => ?_, nofun⟩
    cases hok
    exact ⟨hs, nofun, fun _ h => h⟩
  | cons a items ih =>
    obtain ⟨hok, herror⟩ := hstep s hs a List.mem_cons_self
    rw [List.foldlM_cons]
    cases hrun : step s a with
    | error c => exact ⟨nofun, fun c' hc => Except.error.inj hc ▸ herror c hrun⟩
    | ok mid =>
      obtain ⟨hmid, hdid, hkeeps⟩ := hok mid hrun
      obtain ⟨ihok, iherror⟩ :=
        @ih (fun s hs b hb => hstep s hs b (List.mem_cons_of_mem _ hb)) mid hmid
      refine ⟨fun s' hs' => ?_, iherror⟩
      obtain ⟨hgood, hall, hlater⟩ := ihok s' hs'
      exact ⟨hgood, List.forall_mem_cons.mpr ⟨hlater a hdid, hall⟩, fun b hb =>
        hlater b (hkeeps b hb)⟩

/-- What is finished is settled and not on the path. -/
def Sound (g : Digraph ε) (members path finished : List Nat) : Prop :=
  Settled g members finished ∧ ∀ n ∈ path, n ∉ finished

/-- A walk finishes its node and takes it off the path, or finds a cycle. The path stays short
enough for the bound. -/
theorem walkFrom_sound {depth : Nat} {path finished : List Nat} {node : Nat}
    (htrail : Trail g members (path ++ [node])) (hdepth : g.size < depth + path.length)
    (hsound : Sound g members (path ++ [node]) finished) :
    (∀ after, walkFrom g members depth (path ++ [node]) finished node = .ok after →
        Sound g members path after ∧ node ∈ after ∧ ∀ n ∈ finished, n ∈ after)
      ∧ ∀ cycle, walkFrom g members depth (path ++ [node]) finished node = .error cycle →
          Circuit (g.Steps members) cycle := by
  induction depth generalizing path finished node with
  | zero =>
    have hlength := htrail.length_le
    rw [List.length_append, List.length_singleton] at hlength
    omega
  | succ depth ih =>
    -- Trying one candidate: it closes a cycle, is finished, or is walked from.
    have htry : ∀ s, Sound g members (path ++ [node]) s → ∀ next ∈ candidates g members node,
        let tried : Except (List Nat) (List Nat) :=
        if (path ++ [node]).contains next then .error (closePath (path ++ [node]) next)
          else if s.contains next then .ok s
          else walkFrom g members depth (path ++ [node] ++ [next]) s next
        (∀ s', tried = .ok s' → Sound g members (path ++ [node]) s' ∧ next ∈ s'
          ∧ ∀ n, n ∈ s → n ∈ s')
          ∧ ∀ c, tried = .error c → Circuit (g.Steps members) c := by
      intro s hs next hnext
      have hstep := mem_candidates.mp hnext
      by_cases hback : next ∈ path ++ [node]
      · simp only [List.contains_iff_mem.mpr hback, if_true]
        refine ⟨nofun, fun c hc => ?_⟩
        rw [← Except.error.inj hc]
        exact htrail.circuit hstep hback
      · have hfresh : (path ++ [node]).contains next = false := by
          rw [List.contains_eq_mem, decide_eq_false hback]
        simp only [hfresh, Bool.false_eq_true, if_false]
        by_cases hdone : next ∈ s
        · simp only [List.contains_iff_mem.mpr hdone, if_true]
          refine ⟨fun s' hs' => ?_, nofun⟩
          rw [← Except.ok.inj hs']
          exact ⟨hs, hdone, fun _ h => h⟩
        · have hopen : s.contains next = false := by
            rw [List.contains_eq_mem, decide_eq_false hdone]
          simp only [hopen, Bool.false_eq_true, if_false]
          refine ih (htrail.snoc hstep hback) ?_ ⟨hs.1, fun n hn => ?_⟩
          · rw [List.length_append, List.length_singleton]
            omega
          · rcases List.mem_append.mp hn with hpath | hlast
            · exact hs.2 n hpath
            · rw [List.mem_singleton.mp hlast]
              exact hdone
    obtain ⟨hok, herror⟩ := foldlM_good htry hsound
    rw [walkFrom]
    refine ⟨fun after hafter => ?_, fun cycle hcycle => ?_⟩
    · cases hrun : (candidates g members node).foldlM (fun s next =>
        if (path ++ [node]).contains next
          then .error (closePath (path ++ [node]) next)
          else if s.contains next then .ok s
          else walkFrom g members depth (path ++ [node] ++ [next]) s next) finished with
      | error c =>
        rw [hrun] at hafter
        cases hafter
      | ok s =>
        rw [hrun] at hafter
        obtain ⟨⟨hsettled, hapart⟩, hall, hkept⟩ := hok s hrun
        cases hafter
        have hnew := (nodup_concat_iff.mp htrail.nodup).1
        refine ⟨⟨.cons (hapart node (by simp)) (fun next hnext =>
          hall next (mem_candidates.mpr hnext)) hsettled, ?_⟩,
          List.mem_cons_self, fun n hn => List.mem_cons_of_mem _ (hkept n hn)⟩
        intro n hn hmem
        rcases List.mem_cons.mp hmem with rfl | hmem
        · exact hnew hn
        · exact hapart n (List.mem_append_left _ hn) hmem
    · cases hrun : (candidates g members node).foldlM (fun s next =>
        if (path ++ [node]).contains next
          then .error (closePath (path ++ [node]) next)
          else if s.contains next then .ok s
          else walkFrom g members depth (path ++ [node] ++ [next]) s next) finished with
      | error c =>
        rw [hrun] at hcycle
        exact Except.error.inj hcycle ▸ herror c hrun
      | ok s =>
        rw [hrun] at hcycle
        cases hcycle

theorem walkAll_sound (g : Digraph ε) (members : List Nat) :
    (∀ finished, walkAll g members = .ok finished → Settled g members finished
      ∧ ∀ n ∈ members, n ∈ finished)
      ∧ ∀ cycle, walkAll g members = .error cycle → Circuit (g.Steps members) cycle := by
  have hstart : ∀ s, Settled g members s → ∀ start ∈ members,
      let walked := if s.contains start then .ok s
      else walkFrom g members (g.size + 1) [start] s start
      (∀ s', walked = .ok s' → Settled g members s' ∧ start ∈ s' ∧ ∀ n, n ∈ s → n ∈ s')
        ∧ ∀ c, walked = .error c → Circuit (g.Steps members) c := by
    intro s hs start _
    by_cases hdone : start ∈ s
    · simp only [List.contains_iff_mem.mpr hdone, if_true]
      refine ⟨fun s' hs' => ?_, nofun⟩
      rw [← Except.ok.inj hs']
      exact ⟨hs, hdone, fun _ h => h⟩
    · have hopen : s.contains start = false := by
        rw [List.contains_eq_mem, decide_eq_false hdone]
      simp only [hopen, Bool.false_eq_true, if_false]
      have htrail : Trail g members ([] ++ [start]) := .start start
      have hsound : Sound g members ([] ++ [start]) s :=
        ⟨hs, fun n hn => List.mem_singleton.mp hn ▸ hdone⟩
      have hdepth : g.size < g.size + 1 + ([] : List Nat).length := Nat.lt_succ_self _
      obtain ⟨hok, herror⟩ := walkFrom_sound htrail hdepth hsound
      exact ⟨fun s' hs' => ⟨(hok s' hs').1.1, (hok s' hs').2⟩, herror⟩
  obtain ⟨hok, herror⟩ := foldlM_good hstart .nil
  exact ⟨fun finished hfinished => ⟨(hok finished hfinished).1, (hok finished hfinished).2.1⟩,
    herror⟩

theorem findCycle?_sound (g : Digraph ε) (members : List Nat) :
    (∀ cycle, findCycle? g members = some cycle → Circuit (g.Steps members) cycle)
      ∧ (findCycle? g members = none → ∀ n ∈ members,
        ¬ Relation.TransGen (g.Steps members) n n) := by
  obtain ⟨hok, herror⟩ := walkAll_sound g members
  rw [findCycle?]
  cases hwalk : walkAll g members with
  | ok finished =>
    obtain ⟨hsettled, hall⟩ := hok finished hwalk
    exact ⟨nofun, fun _ n hn => hsettled.not_transGen (hall n hn)⟩
  | error cycle =>
    refine ⟨fun found hfound => ?_, nofun⟩
    rw [← Option.some.inj hfound]
    exact herror cycle hwalk

/-! ### A loop with frontiers -/

/-- A search in progress. -/
structure Search where
  /-- The nodes that are still to be started from. -/
  starts : List Nat
  finished : List Nat
  path : List Nat
  /-- The nodes of the path, in no order. -/
  onPath : List Nat
  /-- What is still to be tried from each node of the path, innermost first. -/
  frontiers : List (List Nat)
  deriving Repr

namespace Search

def start (members : List Nat) : Search := ⟨members, [], [], [], []⟩

/-- The last node of the path is finished, and taken off the path. -/
def leave (s : Search) : Search :=
  match s.path.getLast? with
  | none => s
  | some node =>
    { s with
      finished := node :: s.finished, path := s.path.dropLast, onPath := s.onPath.erase node }

/-- One turn of the loop: the search goes on, or ends with its answer. -/
def turn (g : Digraph ε) (members : List Nat) (s : Search) : Search ⊕ Option (List Nat) :=
  match s.frontiers with
  | [] =>
    match s.starts with
    | [] => .inr none
    | node :: starts =>
      if s.finished.contains node then .inl { s with starts }
      else .inl { s with starts, path := [node], onPath := [node], frontiers := [candidates g members node] }
  | [] :: outer => .inl ({ s with frontiers := outer } : Search).leave
  | (next :: frontier) :: outer =>
    if s.onPath.contains next then .inr (some (closePath s.path next))
    else if s.finished.contains next then .inl { s with frontiers := frontier :: outer }
    else
      .inl { s with
        path := s.path ++ [next]
        onPath := next :: s.onPath
        frontiers := candidates g members next :: frontier :: outer }

section Turns

variable {starts finished path onPath frontier : List Nat} {outer : List (List Nat)}
  {node next : Nat}

theorem turn_pass (hdone : finished.contains node = true) :
    turn g members ⟨node :: starts, finished, path, onPath, []⟩ = .inl ⟨starts, finished, path,
      onPath, []⟩ := by
  simp only [turn, hdone, if_true]

theorem turn_start (hnew : finished.contains node = false) :
    turn g members ⟨node :: starts, finished, path, onPath, []⟩
      = .inl ⟨starts, finished, [node], [node], [candidates g members node]⟩ := by
  simp only [turn, hnew, Bool.false_eq_true, if_false]

theorem turn_back (hback : onPath.contains next = true) :
    turn g members ⟨starts, finished, path, onPath, (next :: frontier) :: outer⟩
    = .inr (some (closePath path next)) := by
  simp only [turn, hback, if_true]

theorem turn_skip (haway : onPath.contains next = false) (hdone : finished.contains next = true) :
    turn g members ⟨starts, finished, path, onPath, (next :: frontier) :: outer⟩
      = .inl ⟨starts, finished, path, onPath, frontier :: outer⟩ := by
  simp only [turn, haway, hdone, Bool.false_eq_true, if_false, if_true]

theorem turn_enter (haway : onPath.contains next = false) (hnew : finished.contains next = false) :
    turn g members ⟨starts, finished, path, onPath, (next :: frontier) :: outer⟩
      = .inl ⟨starts, finished, path ++ [next], next :: onPath, candidates g members next
        :: frontier :: outer⟩ := by
  simp only [turn, haway, hnew, Bool.false_eq_true, if_false]

theorem turn_leave :
    turn g members ⟨starts, finished, path ++ [node], node :: onPath, [] :: outer⟩
      = .inl ⟨starts, node :: finished, path, onPath, outer⟩ := by
  simp only [turn, leave, List.getLast?_concat, List.dropLast_concat, List.erase_cons_head]

end Turns

def Reaches (g : Digraph ε) (members : List Nat) : Search → Search → Prop :=
  Relation.ReflTransGen fun s t => s.turn g members = .inl t

/-- The search comes to its end after finitely many turns, with this answer. -/
def Ends (g : Digraph ε) (members : List Nat) (s : Search) (answer : Option (List Nat)) : Prop :=
  ∃ last, Reaches g members s last ∧ last.turn g members = .inr answer

/-- The search does what a part of the walk does: it comes to where everything finished is taken
over, or it ends with the cycle. -/
def Follows (g : Digraph ε) (members : List Nat) (s : Search) (after : List Nat → Search) :
    Except (List Nat) (List Nat) → Prop
  | .ok finished => Reaches g members s (after finished)
  | .error cycle => Ends g members s (some cycle)

namespace Follows

variable {s t : Search} {after last : List Nat → Search} {result : Except (List Nat) (List Nat)}

theorem of_reaches (hreaches : Reaches g members s t) (h : Follows g members t after result) :
    Follows g members s after result := by
  cases result with
  | ok finished => exact hreaches.trans h
  | error cycle =>
    obtain ⟨stopped, hstopped, hturn⟩ := h
    exact ⟨stopped, hreaches.trans hstopped, hturn⟩

theorem of_turn (hturn : s.turn g members = .inl t) (h : Follows g members t after result) :
    Follows g members s after result :=
  h.of_reaches (.single hturn)

theorem bind {rest : List Nat → Except (List Nat) (List Nat)} (h : Follows g members s after result)
    (hrest : ∀ finished, Follows g members (after finished) last (rest finished)) :
    Follows g members s last (result >>= rest) := by
  cases result with
  | ok finished => exact (hrest finished).of_reaches h
  | error cycle => exact h

/-- A loop over items is followed when each item is: it is taken from the items that are left. -/
theorem foldlM (place : List Nat → List Nat → Search)
    {step : List Nat → Nat → Except (List Nat) (List Nat)} {items : List Nat}
    (h : ∀ finished item rest, item ∈ items →
      Follows g members (place (item :: rest) finished) (place rest) (step finished item))
    (finished : List Nat) : Follows g members (place items finished) (place [])
        (items.foldlM step finished) := by
  induction items generalizing finished with
  | nil => exact .refl
  | cons item items ih =>
    rw [List.foldlM_cons]
    have hitems := ih fun finished item rest hitem =>
      h finished item rest (List.mem_cons_of_mem _ hitem)
    exact (h finished item items List.mem_cons_self).bind hitems

end Follows

/-! ### The walk from a node -/

theorem contains_onPath {path onPath : List Nat} (h : ∀ n, n ∈ onPath ↔ n ∈ path) (next : Nat) :
    onPath.contains next = path.contains next := by
  rw [List.contains_eq_mem, List.contains_eq_mem, decide_eq_decide]
  exact h next

/-- With the candidates of a node as a frontier of its own, the search does what the walk from
the node does. The path stays short enough for the bound. -/
theorem follows_walkFrom {depth : Nat} {path onPath finished : List Nat} {node : Nat}
    (htrail : Trail g members (path ++ [node])) (hdepth : g.size < depth + path.length)
    (hsame : ∀ n, n ∈ onPath ↔ n ∈ path) (starts : List Nat) (frontiers : List (List Nat)) :
    Follows g members ⟨starts, finished, path ++ [node], node :: onPath,
      candidates g members node :: frontiers⟩
      (fun finished => ⟨starts, finished, path, onPath, frontiers⟩)
      (walkFrom g members depth (path ++ [node]) finished node) := by
  induction depth generalizing path onPath finished node frontiers with
  | zero =>
    have hlength := htrail.length_le
    rw [List.length_append, List.length_singleton] at hlength
    omega
  | succ depth ih =>
    have hsame' : ∀ n, n ∈ node :: onPath ↔ n ∈ path ++ [node] := fun n => by
      rw [List.mem_cons, List.mem_append, List.mem_singleton, hsame, or_comm]
    -- Trying one candidate: it closes a cycle, is finished, or is walked from with a frontier of
    -- its own.
    have htry : ∀ finished next rest, next ∈ candidates g members node →
        Follows g members ⟨starts, finished, path ++ [node], node :: onPath,
          (next :: rest) :: frontiers⟩
          (fun finished => ⟨starts, finished, path ++ [node], node :: onPath, rest :: frontiers⟩)
          (if (path ++ [node]).contains next then .error (closePath (path ++ [node]) next)
            else if finished.contains next then .ok finished
            else walkFrom g members depth (path ++ [node] ++ [next]) finished next) := by
      intro finished next rest hnext
      have hcontains := contains_onPath hsame' next
      by_cases hback : (path ++ [node]).contains next = true
      · rw [if_pos hback]
        exact ⟨_, .refl, turn_back (hcontains.trans hback)⟩
      · have haway := hcontains.trans (Bool.eq_false_iff.mpr hback)
        rw [if_neg hback]
        by_cases hdone : finished.contains next = true
        · rw [if_pos hdone]
          exact .single (turn_skip haway hdone)
        · rw [if_neg hdone]
          have hnew : next ∉ path ++ [node] := fun hmem => hback (List.contains_iff_mem.mpr hmem)
          refine .of_turn (turn_enter haway (Bool.eq_false_iff.mpr hdone))
            (ih (htrail.snoc (mem_candidates.mp hnext) hnew) ?_ hsame' _)
          rw [List.length_append, List.length_singleton]
          omega
    have htries := Follows.foldlM
      (fun items finished => ⟨starts, finished, path ++ [node], node :: onPath, items :: frontiers⟩)
      htry finished
    rw [walkFrom]
    exact htries.bind fun finished => Relation.ReflTransGen.single turn_leave

/-! ### The whole search -/

theorem follows_walks (starts finished : List Nat) :
    Follows g members ⟨starts, finished, [], [], []⟩ (fun finished => ⟨[], finished, [], [], []⟩)
      (starts.foldlM (fun finished node => if finished.contains node then .ok finished
        else walkFrom g members (g.size + 1) [node] finished node) finished) := by
  have hstart : ∀ finished node rest, node ∈ starts →
      Follows g members ⟨node :: rest, finished, [], [], []⟩ (fun finished =>
        ⟨rest, finished, [], [], []⟩)
        (if finished.contains node then .ok finished
          else walkFrom g members (g.size + 1) [node] finished node) := by
    intro finished node rest _
    by_cases hdone : finished.contains node = true
    · rw [if_pos hdone]
      exact .single (turn_pass hdone)
    · rw [if_neg hdone]
      have htrail : Trail g members ([] ++ [node]) := .start node
      have hdepth : g.size < g.size + 1 + ([] : List Nat).length := Nat.lt_succ_self _
      exact .of_turn (turn_start (Bool.eq_false_iff.mpr hdone))
        (follows_walkFrom htrail hdepth (fun _ => Iff.rfl) rest [])
  exact Follows.foldlM (fun starts finished => ⟨starts, finished, [], [], []⟩) hstart finished

theorem ends_start (g : Digraph ε) (members : List Nat) :
    (start members).Ends g members (findCycle? g members) := by
  have hwalks : Follows g members (start members) _ (walkAll g members) := follows_walks members []
  rw [findCycle?]
  cases hwalk : walkAll g members with
  | ok finished =>
    rw [hwalk] at hwalks
    exact ⟨_, hwalks, rfl⟩
  | error cycle =>
    rw [hwalk] at hwalks
    exact hwalks

end Search

/-! ### Cycles among the members -/

/-- An edge of the subgraph that the members induce. -/
def Digraph.Among (g : Digraph ε) (members : List Nat) (a b : Nat) : Prop :=
  a ∈ members ∧ b ∈ members ∧ ∃ e ∈ g.edges, e.source = a ∧ e.target = b

theorem Digraph.Among.steps {a b : Nat} (h : g.Among members a b) : g.Steps members a b :=
  ⟨h.2.1, (g.mem_successors a b).mpr h.2.2⟩

theorem Circuit.among {cycle : List Nat} (h : Circuit (g.Steps members) cycle) :
    Circuit (g.Among members) cycle :=
  h.imp fun a ha b hstep => ⟨h.mem a ha, hstep.1, (g.mem_successors a b).mp hstep.2⟩

theorem Circuit.exists_transGen {step : Nat → Nat → Prop} {cycle : List Nat}
    (h : Circuit step cycle) :
    ∃ n, Relation.TransGen step n n := by
  obtain ⟨n, hn⟩ := List.exists_mem_of_length_pos (Nat.lt_of_lt_of_le Nat.zero_lt_two h.long)
  exact ⟨n, h.reaches hn hn⟩

/-- The search comes to an end on every graph, for every list of members. What it answers is a
cycle of edges between members that repeats no node but its first one at its end; and it answers
none just when edges between members never lead back to where they started. -/
theorem findCycle?_complete (g : Digraph ε) (members : List Nat) :
    (Search.start members).Ends g members (findCycle? g members)
      ∧ (∀ cycle, findCycle? g members = some cycle → Circuit (g.Among members) cycle
        ∧ ∀ n ∈ cycle, n ∈ members)
      ∧ (findCycle? g members = none ↔ ∀ n, ¬ Relation.TransGen (g.Among members) n n) := by
  obtain ⟨hfound, hnone⟩ := findCycle?_sound g members
  refine ⟨Search.ends_start g members, fun cycle hcycle => ?_, fun hmissed n hback => ?_,
    fun hacyclic => ?_⟩
  · exact ⟨(hfound cycle hcycle).among, (hfound cycle hcycle).mem⟩
  · obtain ⟨_, hfirst, -⟩ := Relation.TransGen.head'_iff.mp hback
    exact hnone hmissed n hfirst.1
      (Relation.TransGen.mono (fun _ _ => Digraph.Among.steps) n n hback)
  · cases hcycle : findCycle? g members with
    | none => rfl
    | some cycle =>
      obtain ⟨n, hback⟩ := (hfound cycle hcycle).among.exists_transGen
      exact absurd hback (hacyclic n)

/-- A way into a cycle of two nodes, and a loop beside it. -/
def lassoGraph : Digraph Unit :=
  ((((Digraph.ofSize 4).addEdge 0 1 ()).addEdge 1 2 ()).addEdge 2 1 ()).addEdge 3 3 ()

/-- The cycle and the loop are found; a part of each is no cycle. -/
theorem findCycle?_complete_lasso :
    Circuit (lassoGraph.Among [0, 1, 2]) [1, 2, 1] ∧ Circuit (lassoGraph.Among [0, 3]) [3, 3]
      ∧ ∀ n, ¬ Relation.TransGen (lassoGraph.Among [0, 1]) n n := by
  have hcycle : findCycle? lassoGraph [0, 1, 2] = some [1, 2, 1] := by decide
  have hloop : findCycle? lassoGraph [0, 3] = some [3, 3] := by decide
  have hnone : findCycle? lassoGraph [0, 1] = none := by decide
  exact ⟨((findCycle?_complete lassoGraph _).2.1 _ hcycle).1,
    ((findCycle?_complete lassoGraph _).2.1 _ hloop).1,
    (findCycle?_complete lassoGraph _).2.2.mp hnone⟩

end TypeLoom.Graph
