import Mathlib.Data.List.Nodup
import TypeLoom.Draft.Dependency
import TypeLoom.Proofs.Ordering

/-!
# Orders of batches

A successful order of a batch lists every descriptor once, each after its base, its enclosing type
and the interfaces it takes from the batch. There is one unless descriptors depend on themselves in
a circle.
-/

namespace TypeLoom

namespace Graph.Digraph

variable {ε α : Type} {g mid after : Digraph ε}

/-- Edges between nodes were added. -/
structure Extends (g after : Digraph ε) : Prop where
  size : after.size = g.size
  keeps : ∀ e ∈ g.edges, e ∈ after.edges

theorem Extends.refl (g : Digraph ε) : Extends g g := ⟨rfl, fun _ h => h⟩

theorem Extends.trans (h : Extends g mid) (h' : Extends mid after) : Extends g after where
  size := h'.size.trans h.size
  keeps := fun e he => h'.keeps e (h.keeps e he)

theorem extends_addEdge (g : Digraph ε) (source target : Nat) (data : ε) :
    Extends g (g.addEdge source target data) := by
  unfold addEdge
  split
  · exact ⟨rfl, fun e he => List.mem_append_left _ he⟩
  · exact .refl g

theorem extends_foldl {step : Digraph ε → α → Digraph ε} (hstep : ∀ g a, Extends g (step g a))
    (items : List α) (g : Digraph ε) : Extends g (items.foldl step g) := by
  induction items generalizing g with
  | nil => exact .refl g
  | cons a items ih => exact (hstep g a).trans (ih (step g a))

theorem mem_edges_foldl {step : Digraph ε → α → Digraph ε} (hstep : ∀ g a, Extends g (step g a))
    {e : Edge ε} {a : α} {items : List α} (ha : a ∈ items) {g : Digraph ε}
    (hadd : ∀ g' : Digraph ε, g'.size = g.size → e ∈ (step g' a).edges) :
        e ∈ (items.foldl step g).edges := by
  induction items generalizing g with
  | nil => cases ha
  | cons b items ih =>
    rcases List.mem_cons.mp ha with rfl | hrest
    · exact (extends_foldl hstep items _).keeps e (hadd g rfl)
    · exact ih hrest fun g' hsize => hadd g' (hsize.trans (hstep g b).size)

theorem mem_edges_of_foldl {step : Digraph ε → α → Digraph ε} {added : α → Edge ε → Prop}
    (hstep : ∀ g a e, e ∈ (step g a).edges → e ∈ g.edges ∨ added a e) {items : List α}
    {g : Digraph ε} {e : Edge ε} (he : e ∈ (items.foldl step g).edges) : e ∈ g.edges
        ∨ ∃ a ∈ items, added a e := by
  induction items generalizing g with
  | nil => exact .inl he
  | cons a items ih =>
    rcases ih he with hmid | ⟨b, hb, hadded⟩
    · exact (hstep g a e hmid).imp id fun hadded => ⟨a, List.mem_cons_self, hadded⟩
    · exact .inr ⟨b, List.mem_cons_of_mem a hb, hadded⟩

end Graph.Digraph

namespace Batch

open Graph.Digraph

variable {b : Batch}

def edgesOf (g : Graph.Digraph Bool) (d : Descriptor) : Graph.Digraph Bool :=
  let edgesTo (hard : Bool) (g : Graph.Digraph Bool) (on : TypeHandle) : Graph.Digraph Bool :=
    if on = d.handle then g else g.addEdge on.index d.handle.index hard
  d.softDependencies.foldl (edgesTo false) (d.hardDependencies.foldl (edgesTo true) g)

theorem dependencyGraph_eq (b : Batch) :
    b.dependencyGraph = b.types.toList.foldl edgesOf (.ofSize b.types.size) := by
  rw [dependencyGraph, ← Array.foldl_toList]
  rfl

theorem extends_edgesTo (d : Descriptor) (hard : Bool) (g : Graph.Digraph Bool) (on : TypeHandle) :
    Extends g (if on = d.handle then g else g.addEdge on.index d.handle.index hard) := by
  split
  · exact .refl g
  · exact extends_addEdge g _ _ _

theorem extends_edgesOf (g : Graph.Digraph Bool) (d : Descriptor) : Extends g (edgesOf g d) :=
  (extends_foldl (extends_edgesTo d true) _ g).trans (extends_foldl (extends_edgesTo d false) _ _)

theorem extends_dependencyGraph (b : Batch) : Extends (.ofSize b.types.size) b.dependencyGraph := by
  rw [dependencyGraph_eq]
  exact extends_foldl extends_edgesOf _ _

theorem leads_of_hardDependency {d : Descriptor} {on : TypeHandle} (hd : d ∈ b.types)
    (hdep : on ∈ d.hardDependencies) (hne : on ≠ d.handle) (hon : on.index < b.types.size)
    (hself : d.handle.index < b.types.size) :
        b.dependencyGraph.Leads id on.index d.handle.index := by
  refine ⟨fun h => hne (by cases on; cases hh : d.handle; simp_all),
    ⟨on.index, d.handle.index, true⟩, ?_, rfl, rfl, rfl⟩
  rw [dependencyGraph_eq]
  refine mem_edges_foldl extends_edgesOf (Array.mem_toList_iff.mpr hd) fun g hsize => ?_
  refine (extends_foldl (extends_edgesTo d false) _ _).keeps _ ?_
  refine mem_edges_foldl (extends_edgesTo d true) hdep fun g' hsize' => ?_
  have hsize'' : g'.size = b.types.size := hsize'.trans hsize
  rw [if_neg hne, addEdge, dif_pos ⟨by omega, by omega⟩]
  exact List.mem_append_right _ (List.mem_singleton.mpr rfl)

theorem mem_edgesTo {d : Descriptor} {hard : Bool} {g : Graph.Digraph Bool} {on : TypeHandle}
    {e : Graph.Edge Bool}
    (he : e ∈ (if on = d.handle then g else g.addEdge on.index d.handle.index hard).edges) :
    e ∈ g.edges ∨ on ≠ d.handle ∧ e = ⟨on.index, d.handle.index, hard⟩ := by
  split at he
  · exact .inl he
  · rename_i hne
    rw [addEdge] at he
    split at he
    · exact (List.mem_append.mp he).imp id fun hnew => ⟨hne, List.mem_singleton.mp hnew⟩
    · exact .inl he

/-- An edge comes from a dependency: a hard edge from a hard one, a soft edge from a soft one. -/
theorem dependency_of_mem {e : Graph.Edge Bool} (he : e ∈ b.dependencyGraph.edges) :
    ∃ d ∈ b.types, ∃ on ∈ (if e.data then d.hardDependencies else d.softDependencies),
      on ≠ d.handle ∧ e.source = on.index ∧ e.target = d.handle.index := by
  rw [dependencyGraph_eq] at he
  have hadds : ∀ (g : Graph.Digraph Bool) (d : Descriptor) e, e ∈ (edgesOf g d).edges →
      e ∈ g.edges ∨ ∃ on ∈ (if e.data then d.hardDependencies else d.softDependencies),
        on ≠ d.handle ∧ e.source = on.index ∧ e.target = d.handle.index := by
    intro g d e he
    have hone : ∀ (hard : Bool) (g : Graph.Digraph Bool) (on : TypeHandle) e,
        e ∈ (if on = d.handle then g else g.addEdge on.index d.handle.index hard).edges →
          e ∈ g.edges ∨ on ≠ d.handle ∧ e = ⟨on.index, d.handle.index, hard⟩ :=
          fun _ _ _ _ he => mem_edgesTo he
    rcases mem_edges_of_foldl (hone false) he with hmid | ⟨on, hon, hne, rfl⟩
    · rcases mem_edges_of_foldl (hone true) hmid with hold | ⟨on, hon, hne, rfl⟩
      · exact .inl hold
      · exact .inr ⟨on, hon, hne, rfl, rfl⟩
    · exact .inr ⟨on, hon, hne, rfl, rfl⟩
  rcases mem_edges_of_foldl hadds he with hnone | ⟨d, hd, hadded⟩
  · exact absurd hnone List.not_mem_nil
  · exact ⟨d, Array.mem_toList_iff.mp hd, hadded⟩

theorem hardDependency_of_mem {e : Graph.Edge Bool} (he : e ∈ b.dependencyGraph.edges)
    (hhard : e.data = true) :
    ∃ d ∈ b.types, ∃ on ∈ d.hardDependencies, e.source = on.index ∧ e.target = d.handle.index := by
  obtain ⟨d, hd, on, hon, -, hends⟩ := dependency_of_mem he
  rw [if_pos hhard] at hon
  exact ⟨d, hd, on, hon, hends⟩

/-- What comes later is no hard dependency of what comes earlier. -/
def Waits (b : Batch) (h on : TypeHandle) : Prop :=
  on ≠ h ∧ ∃ d, b.find? h = some d ∧ on ∈ d.hardDependencies

/-- An order lists the handles of the batch once each, with hard dependencies in front. -/
structure Ordered (b : Batch) (order : List TypeHandle) : Prop where
  nodup : order.Nodup
  mem : ∀ h, h ∈ order ↔ h.index < b.types.size
  hard : order.Pairwise fun earlier later => ¬ b.Waits earlier later

theorem order_ok (hhandles : ∀ (i : Nat) (d : Descriptor), b.types[i]? = some d → d.handle = ⟨i⟩)
    {order : List TypeHandle} (hok : b.order = .ok order) : b.Ordered order := by
  have hsize : b.dependencyGraph.size = b.types.size := (extends_dependencyGraph b).size
  cases hsorted : Graph.topologicalOrder b.dependencyGraph id with
  | error left =>
    simp only [Batch.order, hsorted] at hok
    cases hok
  | ok sorted =>
    simp only [Batch.order, hsorted] at hok
    cases hok
    obtain ⟨hperm, hpair⟩ := Graph.topologicalOrder_ok hsorted
    have hmem : ∀ n, n ∈ sorted ↔ n < b.types.size := fun n => by
      rw [hperm.mem_iff, Graph.Digraph.nodes, List.mem_range, hsize]
    have hinj : Function.Injective TypeHandle.mk := fun _ _ h => TypeHandle.mk.inj h
    refine ⟨?_, ?_, ?_⟩
    · exact List.Nodup.map hinj (hperm.nodup_iff.mpr List.nodup_range)
    · rintro ⟨n⟩
      rw [List.mem_map_of_injective hinj, hmem]
    · rw [List.pairwise_map]
      refine hpair.imp_of_mem fun {x y} hx hy hnone => ?_
      rintro ⟨hne, d, hd, hdep⟩
      have hhandle := hhandles x d hd
      have hleads := leads_of_hardDependency (Array.mem_of_getElem? hd) hdep
        (by rw [hhandle]; exact hne)
        ((hmem y).mp hy) (by rw [hhandle]; exact (hmem x).mp hx)
      rw [hhandle] at hleads
      exact hnone hleads

/-- The base, the enclosing type or an interface of a descriptor is this descriptor. -/
def DependsOn (b : Batch) (h on : TypeHandle) : Prop :=
  ∃ d, b.find? h = some d ∧ on ∈ d.hardDependencies

/-- No descriptor depends on itself, over however many others. -/
def Acyclic (b : Batch) : Prop := ∀ h, ¬ Relation.TransGen b.DependsOn h h

theorem exists_order (hhandles : ∀ (i : Nat) (d : Descriptor), b.types[i]? = some d →
      d.handle = ⟨i⟩)
    (hacyclic : b.Acyclic) : ∃ order, b.order = .ok order := by
  have hleads : ∀ x y, b.dependencyGraph.Leads id x y → b.DependsOn ⟨y⟩ ⟨x⟩ := by
    rintro x y ⟨-, e, he, hhard, rfl, rfl⟩
    obtain ⟨d, hd, on, hon, hsource, htarget⟩ := hardDependency_of_mem he hhard
    obtain ⟨i, hi⟩ := Array.mem_iff_getElem?.mp hd
    rw [hhandles i d hi] at htarget
    rw [hsource, htarget]
    exact ⟨d, hi, hon⟩
  have hnone : ∀ n, ¬ Relation.TransGen (b.dependencyGraph.Leads id) n n := by
    intro n hcycle
    refine hacyclic ⟨n⟩ ?_
    rw [← Relation.transGen_swap]
    exact Relation.TransGen.lift TypeHandle.mk hleads n n hcycle
  obtain ⟨sorted, hsorted⟩ := Graph.exists_topologicalOrder hnone
  exact ⟨sorted.map TypeHandle.mk, by simp only [Batch.order, hsorted]⟩

end Batch

end TypeLoom
