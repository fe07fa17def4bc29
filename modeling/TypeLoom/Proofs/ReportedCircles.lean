import Mathlib.Data.List.Chain
import TypeLoom.Proofs.CycleSearch
import TypeLoom.Proofs.Dependencies
import TypeLoom.Proofs.Formed

/-!
# Reported circles

When a batch has no order, the fault names a circle of descriptors. All of them wait for a circle of
bases, enclosing types and interfaces, and each refers to the one before it; but the search follows
what members mention as well, so the circle it names need not be one of those.
-/

namespace TypeLoom

/-! ### Circles in graphs -/

namespace Graph

variable {ε : Type} {g : Digraph ε} {counted : ε → Bool} {left : List Nat}

/-- Without loops a circle has at least two nodes. -/
theorem Circuit.three_le {step : Nat → Nat → Prop} {cycle : List Nat} (h : Circuit step cycle)
    (hloop : ∀ n, ¬ step n n) : 3 ≤ cycle.length := by
  have hlong := h.long
  match cycle, h with
  | [a, b], h =>
    obtain rfl : a = b := by simpa using h.closed
    exact absurd (List.isChain_pair.mp h.chain) (hloop a)
  | _ :: _ :: _ :: _, _ => simp

/-- A cycle of counted edges is one of steps between the nodes that it reaches. -/
theorem exists_transGen_steps (hleft : left ≠ []) (hsnared : ∀ n, n ∈ left ↔ g.Snared counted n) :
    ∃ n ∈ left, Relation.TransGen (g.Steps left) n n := by
  obtain ⟨node, hnode⟩ := List.exists_mem_of_ne_nil left hleft
  obtain ⟨first, hcycle, -⟩ := (hsnared node).mp hnode
  have hsteps : ∀ n, Relation.TransGen (g.Leads counted) first n →
      Relation.TransGen (g.Steps left) first n := by
    intro n hpath
    have hstep : ∀ a b, Relation.ReflTransGen (g.Leads counted) first a → g.Leads counted a b →
        g.Steps left a b := by
      intro a b ha hab
      obtain ⟨-, e, he, -, hsource, htarget⟩ := id hab
      exact ⟨(hsnared b).mpr ⟨first, hcycle, ha.tail hab⟩,
        (g.mem_successors a b).mpr ⟨e, he, hsource, htarget⟩⟩
    induction hpath with
    | single hone => exact .single (hstep first _ .refl hone)
    | tail hmore hlast ih => exact ih.tail (hstep _ _ hmore.to_reflTransGen hlast)
  exact ⟨first, (hsnared first).mpr ⟨first, hcycle, .refl⟩, hsteps first hcycle⟩

end Graph

namespace Batch

variable {b : Batch}

/-! ### What faults report -/

/-- The second descriptor is the base, the enclosing type or an interface of the first one. -/
def RestsOn (b : Batch) (h on : TypeHandle) : Prop :=
  ∃ d, b.find? h = some d ∧ (d.base = some (.draft on) ∨ d.declaring = some on
    ∨ .draft on ∈ d.interfaces)

/-- A member of the first descriptor has the second one as its type, its result or a parameter. -/
def Mentions (b : Batch) (h on : TypeHandle) : Prop :=
  ∃ d, b.find? h = some d ∧ .draft on ∈ d.mentionedSignatures

/-- The descriptor waits for one that rests on itself over others. -/
def Stuck (b : Batch) (h : TypeHandle) : Prop :=
  ∃ first, Relation.TransGen (fun h on => on ≠ h ∧ b.RestsOn h on) first first
    ∧ Relation.ReflTransGen (fun h on => on ≠ h ∧ b.RestsOn h on) h first

/-- Both descriptors are stuck, and the first one refers to the second one. -/
def Linked (b : Batch) (h on : TypeHandle) : Prop :=
  b.Stuck h ∧ b.Stuck on ∧ on ≠ h ∧ (b.RestsOn h on ∨ b.Mentions h on)

/-- The fault names a circle of at least two descriptors, each of which the next one refers to. -/
structure Reports (b : Batch) (refers : TypeHandle → TypeHandle → Prop) (f : Fault)
    (circle : List TypeHandle) : Prop where
  long : 3 ≤ circle.length
  closed : circle.head? = circle.getLast?
  chain : circle.IsChain fun earlier later => refers later earlier
  text : f = .invalidOperation ("Cyclic type dependency: "
    ++ " -> ".intercalate (circle.map b.fullName))

theorem Reports.imp {refers other : TypeHandle → TypeHandle → Prop} {f : Fault}
    {circle : List TypeHandle} (h : b.Reports refers f circle)
    (himp : ∀ x y, x ∈ circle → y ∈ circle → refers y x → other y x) :
    b.Reports other f circle :=
  ⟨h.long, h.closed, h.chain.imp_of_mem_imp himp, h.text⟩

theorem Reports.names {refers : TypeHandle → TypeHandle → Prop} {f : Fault}
    {circle : List TypeHandle} (h : b.Reports refers f circle) :
    ∃ first second text, refers second first
      ∧ f = .invalidOperation ("Cyclic type dependency: " ++ (b.fullName first ++ text)) := by
  obtain ⟨hlong, -, hchain, rfl⟩ := h
  match circle with
  | first :: second :: rest =>
    refine ⟨first, second, " -> " ++ " -> ".intercalate ((second :: rest).map b.fullName),
      (List.isChain_cons_cons.mp hchain).1, ?_⟩
    rw [List.map_cons, List.map_cons, String.intercalate_cons_cons, String.append_assoc]

/-! ### References and edges -/

theorem draft?_eq_some {s : Signature} {on : TypeHandle} : s.draft? = some on ↔ s = .draft on := by
  cases s <;> simp [Signature.draft?]

theorem mem_hardDependencies {d : Descriptor} {on : TypeHandle} :
    on ∈ d.hardDependencies ↔ d.base = some (.draft on) ∨ d.declaring = some on
    ∨ .draft on ∈ d.interfaces := by
  simp [Descriptor.hardDependencies, Descriptor.interfaceDrafts, draft?_eq_some,
    Option.bind_eq_some_iff]

theorem mem_softDependencies {d : Descriptor} {on : TypeHandle} :
    on ∈ d.softDependencies ↔ .draft on ∈ d.mentionedSignatures := by
  simp [Descriptor.softDependencies, draft?_eq_some]

variable (hhandles : ∀ (i : Nat) (d : Descriptor), b.types[i]? = some d → d.handle = ⟨i⟩)
include hhandles

/-- What depends on another node refers to it: over a hard edge it rests on it. -/
theorem refers_of_mem {e : Graph.Edge Bool} (he : e ∈ b.dependencyGraph.edges) :
    (⟨e.source⟩ : TypeHandle) ≠ ⟨e.target⟩
      ∧ (if e.data then b.RestsOn ⟨e.target⟩ ⟨e.source⟩ else b.Mentions ⟨e.target⟩ ⟨e.source⟩) := by
  obtain ⟨d, hd, on, hon, hne, hsource, htarget⟩ := dependency_of_mem he
  obtain ⟨i, hi⟩ := Array.mem_iff_getElem?.mp hd
  rw [hhandles i d hi] at hne htarget
  rw [hsource, htarget]
  refine ⟨hne, ?_⟩
  cases hhard : e.data with
  | true =>
    rw [if_pos hhard] at hon
    exact ⟨d, hi, mem_hardDependencies.mp hon⟩
  | false =>
    rw [if_neg (by rw [hhard]; exact Bool.false_ne_true)] at hon
    exact ⟨d, hi, mem_softDependencies.mp hon⟩

theorem stuck_of_snared {n : Nat} (h : b.dependencyGraph.Snared id n) : b.Stuck ⟨n⟩ := by
  have hrests : ∀ x y, b.dependencyGraph.Leads id x y → (⟨x⟩ : TypeHandle) ≠ ⟨y⟩
      ∧ b.RestsOn ⟨y⟩ ⟨x⟩ := by
    rintro x y ⟨-, e, he, hhard, rfl, rfl⟩
    have hrefers := refers_of_mem hhandles he
    rwa [if_pos (show e.data = true from hhard)] at hrefers
  obtain ⟨first, hcycle, hpath⟩ := h
  refine ⟨⟨first⟩, ?_, ?_⟩
  · rw [← Relation.transGen_swap]
    exact Relation.TransGen.lift TypeHandle.mk hrests first first hcycle
  · rw [← Relation.reflTransGen_swap]
    exact Relation.ReflTransGen.lift TypeHandle.mk hrests first n hpath

theorem linked_of_steps {left : List Nat} (hsnared : ∀ n, n ∈ left ↔ b.dependencyGraph.Snared id n)
    {x y : Nat} (hx : x ∈ left) (hstep : b.dependencyGraph.Steps left x y) : b.Linked ⟨y⟩ ⟨x⟩ := by
  obtain ⟨hy, hnext⟩ := hstep
  obtain ⟨e, he, rfl, rfl⟩ := (b.dependencyGraph.mem_successors x y).mp hnext
  obtain ⟨hne, hrefers⟩ := refers_of_mem hhandles he
  refine ⟨stuck_of_snared hhandles ((hsnared _).mp hy),
    stuck_of_snared hhandles ((hsnared _).mp hx), hne, ?_⟩
  split at hrefers
  · exact .inl hrefers
  · exact .inr hrefers

omit hhandles in
/-- A fault of an ordering comes from nodes that are left, and names a cycle of steps between
them. -/
theorem exists_circuit_of_order {f : Fault} (hfail : b.order = .error f) :
    ∃ left cycle, (∀ n, n ∈ left ↔ b.dependencyGraph.Snared id n)
    ∧ Graph.Circuit (b.dependencyGraph.Steps left) cycle
      ∧ f = .invalidOperation ("Cyclic type dependency: " ++ " -> ".intercalate (cycle.map fun n =>
        b.fullName ⟨n⟩)) := by
  cases hsorted : Graph.topologicalOrder b.dependencyGraph id with
  | ok nodes =>
    simp only [Batch.order, hsorted] at hfail
    cases hfail
  | error left =>
    obtain ⟨hleft, -, hsnared⟩ := (Graph.snared_topologicalOrder _ _).2 left hsorted
    obtain ⟨hfound, hnone⟩ := Graph.findCycle?_sound b.dependencyGraph left
    cases hcycle : Graph.findCycle? b.dependencyGraph left with
    | none =>
      obtain ⟨n, hn, hcircle⟩ := Graph.exists_transGen_steps hleft hsnared
      exact absurd hcircle (hnone hcycle n hn)
    | some cycle =>
      simp only [Batch.order, hsorted, hcycle, Option.getD_some] at hfail
      exact ⟨left, cycle, hsnared, hfound cycle hcycle, (Except.error.inj hfail).symm⟩

omit hhandles

/-- Whatever operations made the batch, a fault of its ordering names stuck descriptors in a
circle, each once, and each refers to the one before it. If what goes round among stuck
descriptors is only bases, enclosing types and interfaces, then so is what the fault names. -/
theorem order_error_reports (hb : b.Drafted) {f : Fault} (hfail : b.order = .error f) :
    ∃ circle, b.Reports b.Linked f circle ∧ circle.tail.Nodup
      ∧ ((∀ h on, b.Linked h on → Relation.ReflTransGen b.Linked on h → b.RestsOn h on) →
        b.Reports b.RestsOn f circle) := by
  have hhandles : ∀ (i : Nat) (d : Descriptor), b.types[i]? = some d → d.handle = ⟨i⟩ :=
    fun i d hd => (hb.wellFormed ⟨i⟩ d hd).handle
  obtain ⟨left, cycle, hsnared, hcircuit, htext⟩ := exists_circuit_of_order hfail
  have hmem : ∀ n ∈ cycle, n ∈ left := fun n hn =>
    let ⟨_, _, hlast⟩ := Relation.TransGen.tail'_iff.mp (hcircuit.reaches hn hn)
    hlast.1
  have hlinked : Graph.Circuit (fun x y => b.Linked ⟨y⟩ ⟨x⟩) cycle :=
    hcircuit.imp fun x hx y hstep => linked_of_steps hhandles hsnared (hmem x hx) hstep
  have hreports : b.Reports b.Linked f (cycle.map TypeHandle.mk) := by
    refine ⟨?_, ?_, ?_, ?_⟩
    · rw [List.length_map]
      exact hlinked.three_le fun n hloop => hloop.2.2.1 rfl
    · rw [List.head?_map, List.getLast?_map, hlinked.closed]
    · exact (List.isChain_map TypeHandle.mk).mpr hlinked.chain
    · rw [htext, List.map_map]
      rfl
  refine ⟨cycle.map TypeHandle.mk, hreports, ?_, fun honly => hreports.imp fun x y hx hy hlink =>
    honly y x hlink ?_⟩
  · rw [← List.map_tail]
    exact hlinked.distinct.map fun _ _ heq => TypeHandle.mk.inj heq
  · obtain ⟨n, hn, rfl⟩ := List.mem_map.mp hx
    obtain ⟨m, hm, rfl⟩ := List.mem_map.mp hy
    have hway : Relation.ReflTransGen (Function.swap fun x y => b.Linked ⟨y⟩ ⟨x⟩) n m :=
      Relation.reflTransGen_swap.mpr (hlinked.reaches hm hn).to_reflTransGen
    exact Relation.ReflTransGen.lift TypeHandle.mk (fun _ _ h => h) n m hway

/-- Two interfaces that list each other. -/
def mutualInterfaces : List Edit :=
  [.createInterface "App" "I", .createInterface "App" "J", .addBatchInterface ⟨0⟩ ⟨1⟩,
    .addBatchInterface ⟨1⟩ ⟨0⟩]

theorem Drafted.run (h : b.Drafted) (u : Universe) (edits : List Edit) :
    (Edit.run u b edits).Drafted := by
  induction edits generalizing b with
  | nil => exact h
  | cons e edits ih => exact ih (.edit u e h)

/-- The fault names the two interfaces. -/
theorem order_error_reports_mutual :
    ∃ f circle, (Edit.run {} {} mutualInterfaces).order = .error f
      ∧ (Edit.run {} {} mutualInterfaces).Reports (Edit.run {} {} mutualInterfaces).RestsOn f
      circle := by
  have hfail : (Edit.run {} {} mutualInterfaces).order
      = .error (.invalidOperation "Cyclic type dependency: App.I -> App.J -> App.I") := by
        decide +kernel
  have hsilent : ∀ d ∈ (Edit.run {} {} mutualInterfaces).types, d.mentionedSignatures = [] := by
    decide +kernel
  obtain ⟨circle, -, -, hrests⟩ := order_error_reports (Drafted.empty.run {} mutualInterfaces) hfail
  refine ⟨_, circle, hfail, hrests ?_⟩
  rintro h on ⟨-, -, -, hrests | ⟨d, hd, hmention⟩⟩ -
  · exact hrests
  · rw [hsilent d (Array.mem_of_getElem? hd)] at hmention
    cases hmention

/-- What a fault of an ordering names is a circle of bases, enclosing types and interfaces. -/
def ReportsHardCircles : Prop :=
  ∀ b : Batch, b.Drafted → ∀ f, b.order = .error f → ∃ circle, b.Reports b.RestsOn f circle

/-- Two classes with fields of each other's type, each with one of two interfaces that list each
other. -/
def mutualFields : List Edit :=
  [.createType "App" "A" TypeFlags.isPublic none, .createType "App" "B" TypeFlags.isPublic none,
   .createInterface "App" "I", .createInterface "App" "J", .addBatchInterface ⟨2⟩ ⟨3⟩,
   .addBatchInterface ⟨3⟩ ⟨2⟩,
   .addBatchInterface ⟨0⟩ ⟨2⟩, .addBatchInterface ⟨1⟩ ⟨2⟩,
     .addField ⟨0⟩ "b" (.draft ⟨1⟩) FieldFlags.isPublic,
   .addField ⟨1⟩ "a" (.draft ⟨0⟩) FieldFlags.isPublic]

/-- The fault names the two classes, and nothing rests on a class. -/
theorem not_reportsHardCircles : ¬ ReportsHardCircles := by
  intro hreports
  have hfail : (Edit.run {} {} mutualFields).order
      = .error (.invalidOperation "Cyclic type dependency: App.A -> App.B -> App.A") := by
        decide +kernel
  have hnames : ∀ d ∈ (Edit.run {} {} mutualFields).types, ∀ on ∈ d.hardDependencies,
      (Edit.run {} {} mutualFields).fullName on = "App.I"
      ∨ (Edit.run {} {} mutualFields).fullName on = "App.J" := by
    decide +kernel
  obtain ⟨circle, hcircle⟩ := hreports _ (Drafted.empty.run {} mutualFields) _ hfail
  obtain ⟨first, second, text, ⟨d, hd, hrests⟩, htext⟩ := hcircle.names
  have hletters := congrArg String.toList (Fault.invalidOperation.inj htext)
  rcases hnames d (Array.mem_of_getElem? hd) first
    (mem_hardDependencies.mpr hrests) with hname | hname
  all_goals
    rw [hname] at hletters
    simp [String.toList_append] at hletters

end Batch

end TypeLoom
