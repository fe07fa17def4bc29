import TypeLoom.Proofs.Attempts
import TypeLoom.Run.Evaluate

/-!
# Evaluations side by side

Most of what is to be said of evaluations is a relation between two of them: on the same heap with
different onlookers, with different room on the call stack, or one of them alone. A relation that is
kept by sequencing and holds for what touches the heap holds for the evaluation of every expression,
and from one level of the call stack it goes on to the next.
-/

namespace TypeLoom.Evaluation

open Attempt Watching

variable {ω ω' : Type}

/-! ### Weakest preconditions -/

section

variable {α : Type} {fail : Watched ω → Prop} {s : Watched ω}

@[simp] theorem wp_heap {post : Heap → Watched ω → Prop} : (heap : Watching ω Heap).wp post fail s ↔
    post s.heap s := Iff.rfl

@[simp] theorem wp_change {post : Unit → Watched ω → Prop} (f : Heap → Heap) :
    (change f : Watching ω Unit).wp post fail s ↔ post () { s with heap := f s.heap } := Iff.rfl

@[simp] theorem wp_note {post : Unit → Watched ω → Prop} (watch : Occurrence → ω → ω)
    (o : Occurrence) :
    (note watch o).wp post fail s ↔ post () { s with notes := watch o s.notes } := Iff.rfl

end

/-! ### Relations -/

/-- Sequencing keeps the relation, and what does not touch anything is related to itself. -/
structure Congruent (R : ∀ {α : Type}, Watching ω α → Watching ω' α → Prop) : Prop where
  lift : ∀ {α : Type} (result : Except Fault α), R (Attempt.lift result) (Attempt.lift result)
  bind : ∀ {α β : Type} {act : Watching ω α} {act' : Watching ω' α} {next : α →
    Watching ω β} {next' : α → Watching ω' β},
    R act act' → (∀ v, R (next v) (next' v)) → R (act >>= next) (act' >>= next')

namespace Congruent

variable {R : ∀ {α : Type}, Watching ω α → Watching ω' α → Prop} {α β : Type}

theorem pure (hR : Congruent R) (v : α) : R (Pure.pure v) (Pure.pure v) := hR.lift (.ok v)

theorem throw (hR : Congruent R) (fault : Fault) : R (throw fault : Watching ω α) (throw fault) :=
  hR.lift (.error fault)

theorem map (hR : Congruent R) (f : α → β) {act : Watching ω α} {act' : Watching ω' α}
    (h : R act act') :
    R (f <$> act) (f <$> act') := by
  rw [← bind_pure_comp, ← bind_pure_comp]
  exact hR.bind h fun v => hR.pure (f v)

end Congruent

/-! ### Expressions -/

/-- What an expression can do beyond sequencing is related. -/
structure Related (u : Universe) (watch : Occurrence → ω → ω) (watch' : Occurrence → ω' → ω')
    (R : ∀ {α : Type}, Watching ω α → Watching ω' α → Prop) (calls : Calls ω) (calls' : Calls ω') :
    Prop where
  invoke : ∀ m this arguments, R (calls.invoke m this arguments) (calls'.invoke m this arguments)
  make : ∀ c arguments, R (instantiateWith u watch calls c arguments)
    (instantiateWith u watch' calls' c arguments)
  readSlot : ∀ o f, R (readSlot u o f) (readSlot u o f)
  writeSlot : ∀ o f value, (u.field? f).isSome → R (writeSlot u o f value) (writeSlot u o f value)
  readStatic : ∀ f, R (readStatic u watch calls f) (readStatic u watch' calls' f)
  writeStatic : ∀ f value, (u.field? f).isSome →
    R (writeStatic u watch calls f value) (writeStatic u watch' calls' f value)

structure RelatedButStatics (u : Universe) (watch : Occurrence → ω → ω)
    (watch' : Occurrence → ω' → ω') (R : ∀ {α : Type}, Watching ω α → Watching ω' α → Prop)
    (calls : Calls ω) (calls' : Calls ω') : Prop where
  invoke : ∀ m this arguments, R (calls.invoke m this arguments) (calls'.invoke m this arguments)
  make : ∀ c arguments, R (instantiateWith u watch calls c arguments)
    (instantiateWith u watch' calls' c arguments)
  readSlot : ∀ o f, R (readSlot u o f) (readSlot u o f)
  writeSlot : ∀ o f value, (u.field? f).isSome → R (writeSlot u o f value) (writeSlot u o f value)
  readStatic : ∀ f, R (readStatic u watch calls f) (readStatic u watch' calls' f)

theorem Related.butStatics {u : Universe} {watch : Occurrence → ω → ω}
    {watch' : Occurrence → ω' → ω'} {R : ∀ {α : Type}, Watching ω α → Watching ω' α → Prop}
    {calls : Calls ω} {calls' : Calls ω'} (h : Related u watch watch' R calls calls') :
      RelatedButStatics u watch watch' R calls calls' :=
  ⟨h.invoke, h.make, h.readSlot, h.writeSlot, h.readStatic⟩

theorem isSome_of_requireField {u : Universe} {target : FieldTarget} {f : FieldId}
    (h : requireField u target = .ok f) :
    (u.field? f).isSome := by
  cases target with
  | member g =>
    rw [requireField] at h
    split at h
    · rename_i hpresent
      cases h
      exact (Bool.and_eq_true_iff.mp hpresent).2
    · cases h
  | draft g => cases h

section Expressions

variable {u : Universe} {watch : Occurrence → ω → ω} {watch' : Occurrence → ω' → ω'}
  {R : ∀ {α : Type}, Watching ω α → Watching ω' α → Prop} {calls : Calls ω}
  {calls' : Calls ω'} {frame : Frame}

/-- A check that is made on both sides; what follows may rely on it. -/
theorem Congruent.lift_bind (hR : Congruent R) {α β : Type} (result : Except Fault α)
    {next : α → Watching ω β} {next' : α → Watching ω' β}
    (h : ∀ v, result = .ok v → R (next v) (next' v)) :
    R (Attempt.lift result >>= next) (Attempt.lift result >>= next') := by
  cases result with
  | error fault => exact hR.throw fault
  | ok v => exact h v rfl

theorem related_block (hR : Congruent R) {items : List Expr}
    (hitems : ∀ e ∈ items, R (evaluate u watch calls frame e) (evaluate u watch' calls' frame e))
    (last : Value) :
    R (evaluateBlock u watch calls frame last items)
        (evaluateBlock u watch' calls' frame last items) := by
  induction items generalizing last with
  | nil =>
    rw [evaluateBlock, evaluateBlock]
    exact hR.pure last
  | cons item items ih =>
    obtain ⟨hitem, hrest⟩ := List.forall_mem_cons.mp hitems
    rw [evaluateBlock, evaluateBlock]
    exact hR.bind hitem fun v => ih hrest v

theorem related_all (hR : Congruent R) {items : List Expr}
    (hitems : ∀ e ∈ items, R (evaluate u watch calls frame e) (evaluate u watch' calls' frame e)) :
    R (evaluateAll u watch calls frame items) (evaluateAll u watch' calls' frame items) := by
  induction items with
  | nil =>
    rw [evaluateAll, evaluateAll]
    exact hR.pure []
  | cons item items ih =>
    obtain ⟨hitem, hrest⟩ := List.forall_mem_cons.mp hitems
    rw [evaluateAll, evaluateAll]
    exact hR.bind hitem fun v => hR.bind (ih hrest) fun vs => hR.pure (v :: vs)

theorem related_receiver (hR : Congruent R) {receiver : Option Expr}
    (hreceiver : ∀ e ∈ receiver,
      R (evaluate u watch calls frame e) (evaluate u watch' calls' frame e)) (action : String) :
    R (evaluateReceiver u watch calls frame action receiver)
        (evaluateReceiver u watch' calls' frame action receiver) := by
  cases receiver with
  | none =>
    rw [evaluateReceiver, evaluateReceiver]
    exact hR.pure none
  | some e =>
    rw [evaluateReceiver, evaluateReceiver]
    exact hR.bind (hreceiver e rfl) fun v => hR.bind (hR.lift _) fun o => hR.pure (some o)

/-- Every expression is related to itself, if so is each store inside it that gives a static
field a value. -/
theorem related_evaluate_of_stores (hR : Congruent R)
    (h : RelatedButStatics u watch watch' R calls calls') (e : Expr)
    (hstores : ∀ receiver target value, .store receiver target value ∈ e.nodes →
      ∀ f, requireField u target = .ok f →
      R (evaluate u watch calls frame value) (evaluate u watch' calls' frame value) →
        R (evaluate u watch calls frame value >>= fun v =>
          writeStatic u watch calls f v >>= fun _ => pure Value.void)
          (evaluate u watch' calls' frame value >>= fun v =>
            writeStatic u watch' calls' f v >>= fun _ => pure Value.void)) :
    R (evaluate u watch calls frame e) (evaluate u watch' calls' frame e) := by
  induction e using Expr.induction with
  | constant value =>
    rw [evaluate, evaluate]
    exact hR.pure value
  | this =>
    rw [evaluate, evaluate]
    cases frame.this with
    | some o => exact hR.pure _
    | none => exact hR.throw _
  | argument index =>
    rw [evaluate, evaluate]
    cases frame.arguments[index.toNat]? with
    | some value => exact hR.pure _
    | none => exact hR.throw _
  | block items ih =>
    rw [evaluate, evaluate]
    rw [Expr.nodes] at hstores
    refine related_block hR (fun e he => ih e he fun receiver target value hin => ?_) .void
    exact hstores receiver target value (List.mem_cons_of_mem _ (Expr.mem_nodesAll he hin))
  | call receiver method arguments dispatch ihreceiver iharguments =>
    rw [evaluate, evaluate]
    rw [Expr.nodes] at hstores
    refine hR.bind (hR.lift _) fun m => ?_
    refine hR.bind (related_receiver hR (fun e he => ihreceiver e he fun r target value hin => ?_)
      _) fun this => ?_
    · exact hstores r target value
        (List.mem_cons_of_mem _ (List.mem_append_left _ (Expr.mem_nodesOpt he hin)))
    refine hR.bind (related_all hR fun e he => iharguments e he fun r target value hin => ?_)
      fun values => ?_
    · exact hstores r target value
        (List.mem_cons_of_mem _ (List.mem_append_right _ (Expr.mem_nodesAll he hin)))
    rcases this with - | o
    · exact h.invoke m none values
    · cases dispatch with
      | virtual => exact h.invoke _ (some o) values
      | nonVirtual => exact h.invoke m (some o) values
  | new constructor arguments ih =>
    rw [evaluate, evaluate]
    rw [Expr.nodes] at hstores
    refine hR.bind (hR.lift _) fun c =>
      hR.bind (related_all hR fun e he => ih e he fun r target value hin => ?_) fun values => ?_
    · exact hstores r target value (List.mem_cons_of_mem _ (Expr.mem_nodesAll he hin))
    · exact hR.bind (h.make c values) fun o => hR.pure _
  | load receiver field ih =>
    rw [evaluate, evaluate]
    rw [Expr.nodes] at hstores
    refine hR.bind (hR.lift _) fun f =>
      hR.bind (related_receiver hR (fun e he => ih e he fun r target value hin => ?_) _) fun this =>
      ?_
    · exact hstores r target value (List.mem_cons_of_mem _ (Expr.mem_nodesOpt he hin))
    cases this with
    | some o => exact h.readSlot o f
    | none => exact h.readStatic f
  | store receiver field value ihreceiver ihvalue =>
    rw [evaluate, evaluate]
    have hself := hstores receiver field value (Expr.mem_nodes_self _)
    rw [Expr.nodes] at hstores
    refine hR.lift_bind _ fun f hf =>
      hR.bind (related_receiver hR (fun e he => ihreceiver e he fun r target v hin => ?_) _)
      fun this => ?_
    · exact hstores r target v (List.mem_cons_of_mem _
        (List.mem_append_left _ (Expr.mem_nodesOpt he hin)))
    have hvalue : R (evaluate u watch calls frame value) (evaluate u watch' calls' frame value) :=
      ihvalue fun r target v hin =>
        hstores r target v (List.mem_cons_of_mem _ (List.mem_append_right _ hin))
    cases this with
    | some o =>
      exact hR.bind hvalue fun v => hR.bind (h.writeSlot o f v (isSome_of_requireField hf)) fun _ =>
        hR.pure _
    | none => exact hself f hf hvalue
  | binary op left right ihleft ihright =>
    rw [evaluate, evaluate]
    rw [Expr.nodes] at hstores
    refine hR.bind (ihleft fun r target v hin => ?_) fun a =>
      hR.bind (ihright fun r target v hin => ?_) fun b => hR.lift _
    · exact hstores r target v (List.mem_cons_of_mem _ (List.mem_append_left _ hin))
    · exact hstores r target v (List.mem_cons_of_mem _ (List.mem_append_right _ hin))
  | choose condition positive negative ihcondition ihpositive ihnegative =>
    rw [evaluate, evaluate]
    rw [Expr.nodes] at hstores
    refine hR.bind (ihcondition fun r target v hin => ?_) fun v => ?_
    · exact hstores r target v (List.mem_cons_of_mem _
        (List.mem_append_left _ (List.mem_append_left _ hin)))
    split
    · exact ihpositive fun r target v hin =>
        hstores r target v (List.mem_cons_of_mem _
          (List.mem_append_left _ (List.mem_append_right _ hin)))
    · exact ihnegative fun r target v hin =>
        hstores r target v (List.mem_cons_of_mem _ (List.mem_append_right _ hin))
    · exact hR.throw _

theorem related_evaluate (hR : Congruent R) (h : Related u watch watch' R calls calls') (e : Expr) :
    R (evaluate u watch calls frame e) (evaluate u watch' calls' frame e) :=
  related_evaluate_of_stores hR h.butStatics e fun _ _ _ _ f hf hvalue =>
    hR.bind hvalue fun v => hR.bind (h.writeStatic f v (isSome_of_requireField hf)) fun _ =>
      hR.pure _

end Expressions

/-! ### Levels of the call stack -/

theorem room_of_checkCall {u : Universe} {remaining : Nat} {m : MethodId} {this : Option ObjectRef}
    {arguments : List Value} (h : checkCall u remaining m this arguments = .ok ()) :
    remaining ≠ 0 := by
  rintro rfl
  unfold checkCall at h
  dsimp only at h
  iterate 3
    split at h
    · cases h
  rw [if_pos rfl] at h
  cases h

/-- What a level of the call stack adds to the one below it is related: `R` for everything that
is done on the level, and `Q` for the initialization of a type. -/
structure Climbs (u : Universe) (watch : Occurrence → ω → ω) (watch' : Occurrence → ω' → ω')
    (R : ∀ {α : Type}, Watching ω α → Watching ω' α → Prop)
    (Q : TypeId → Watching ω Unit → Watching ω' Unit → Prop) (below : Calls ω) (below' : Calls ω')
    (remaining remaining' : Nat) : Prop where
  check : ∀ m this arguments {next : Watching ω Value} {next' : Watching ω' Value},
    (remaining ≠ 0 → R next next') →
    R (Attempt.lift (checkCall u remaining m this arguments) >>= fun _ => next)
      (Attempt.lift (checkCall u remaining' m this arguments) >>= fun _ => next')
  run : ∀ m frame, remaining ≠ 0 → ((u.method m).isStatic = true → u.methodOwner? m = none) →
    R (runBody u watch below m frame) (runBody u watch' below' m frame)
  runStatic : ∀ m owner frame initialized initialized', remaining ≠ 0 →
    (u.method m).isStatic = true →
    u.methodOwner? m = some owner → Q owner initialized initialized' →
      R (initialized >>= fun _ => runBody u watch below m frame) (initialized' >>= fun _ =>
        runBody u watch' below' m frame)
  stop : ∀ t, Q t (throw (.recursionLimit callDepthLimit)) (throw (.recursionLimit callDepthLimit))
  step : ∀ t base base' invoke invoke', (∀ m, R (invoke m) (invoke' m)) →
    (∀ b, (u.record t).base = some b → Q b (base b) (base' b)) →
      Q t (initializeAfter u watch base invoke t) (initializeAfter u watch' base' invoke' t)

namespace Climbs

variable {u : Universe} {watch : Occurrence → ω → ω} {watch' : Occurrence → ω' → ω'}
  {R : ∀ {α : Type}, Watching ω α → Watching ω' α → Prop} {Q : TypeId → Watching ω Unit →
    Watching ω' Unit → Prop}
  {below : Calls ω} {below' : Calls ω'} {remaining remaining' : Nat}

theorem invokeOver (h : Climbs u watch watch' (@R) Q below below' remaining remaining')
    {initialized : TypeId → Watching ω Unit} {initialized' : TypeId → Watching ω' Unit}
    (hinitialized : ∀ t, Q t (initialized t) (initialized' t)) (m : MethodId)
    (this : Option ObjectRef)
    (arguments : List Value) :
    R (invokeOver u watch below initialized remaining m this arguments)
      (invokeOver u watch' below' initialized' remaining' m this arguments) := by
  refine h.check m this arguments fun hroom => ?_
  cases hstatic : (u.method m).isStatic with
  | false => exact h.run m _ hroom fun htrue => by rw [hstatic] at htrue; cases htrue
  | true =>
    cases howner : u.methodOwner? m with
    | none => exact h.run m _ hroom fun _ => howner
    | some owner => exact h.runStatic m owner _ _ _ hroom hstatic howner (hinitialized owner)

theorem initializeChain (h : Climbs u watch watch' (@R) Q below below' remaining remaining')
    {invoke : MethodId → Watching ω Value} {invoke' : MethodId → Watching ω' Value}
    (hinvoke : ∀ m, R (invoke m) (invoke' m)) (bases : Nat) (t : TypeId) :
    Q t (initializeChain u watch invoke bases t) (initializeChain u watch' invoke' bases t) := by
  induction bases generalizing t with
  | zero => exact h.stop t
  | succ bases ih => exact h.step t _ _ _ _ hinvoke fun b _ => ih b

theorem initializeOver (h : Climbs u watch watch' (@R) Q below below' remaining remaining')
    (starts : Nat) (t : TypeId) :
    Q t (initializeOver u watch below remaining starts t)
    (initializeOver u watch' below' remaining' starts t) := by
  induction starts generalizing t with
  | zero => exact h.stop t
  | succ starts ih => exact h.initializeChain (fun m => h.invokeOver ih m none []) _ t

theorem levelOver (h : Climbs u watch watch' (@R) Q below below' remaining remaining') :
    (∀ m this arguments, R ((levelOver u watch below remaining).invoke m this arguments)
      ((levelOver u watch' below' remaining').invoke m this arguments))
    ∧ ∀ t, Q t ((levelOver u watch below remaining).initialized t)
      ((levelOver u watch' below' remaining').initialized t) :=
  ⟨h.invokeOver (h.initializeOver _), h.initializeOver _⟩

end Climbs

theorem Congruent.check {u : Universe} {R : ∀ {α : Type}, Watching ω α → Watching ω' α → Prop}
    (hR : Congruent R) {remaining : Nat} {m : MethodId} {this : Option ObjectRef}
    {arguments : List Value} {next : Watching ω Value} {next' : Watching ω' Value}
    (hnext : remaining ≠ 0 → R next next') :
    R (Attempt.lift (checkCall u remaining m this arguments) >>= fun _ => next)
      (Attempt.lift (checkCall u remaining m this arguments) >>= fun _ => next') :=
  hR.lift_bind _ fun _ h => hnext (room_of_checkCall h)

theorem Congruent.runInitializer {u : Universe}
    {R : ∀ {α : Type}, Watching ω α → Watching ω' α → Prop} (hR : Congruent R)
    {invoke : MethodId → Watching ω Value} {invoke' : MethodId → Watching ω' Value}
    (hinvoke : ∀ m, R (invoke m) (invoke' m)) (t : TypeId) :
        R (runInitializer u invoke t) (runInitializer u invoke' t) := by
  unfold Evaluation.runInitializer
  cases (u.record t).initializer with
  | some m => exact hR.map _ (hinvoke m)
  | none => exact hR.pure ()

/-- A type is initialized after its base on both sides, when the start of its initializer is
related. -/
theorem Congruent.initializeAfter {u : Universe} {watch : Occurrence → ω → ω}
    {watch' : Occurrence → ω' → ω'} {R : ∀ {α : Type}, Watching ω α → Watching ω' α → Prop}
    (hR : Congruent R) (hheap : R heap heap) {t : TypeId} {base : TypeId →
      Watching ω Unit} {base' : TypeId → Watching ω' Unit} {invoke : MethodId → Watching ω Value}
    {invoke' : MethodId → Watching ω' Value} (hbase : ∀ b, (u.record t).base = some b →
      R (base b) (base' b))
    (hstart : R (startInitializer u watch invoke t) (startInitializer u watch' invoke' t)) :
    R (initializeAfter u watch base invoke t) (initializeAfter u watch' base' invoke' t) := by
  refine hR.bind hheap fun h => ?_
  cases h.isInitialized t with
  | true => exact hR.pure ()
  | false =>
    cases hb : (u.record t).base with
    | none => exact hstart
    | some b => exact hR.bind (hbase b hb) fun _ => hstart

/-! ### Invariants -/

section Invariants

variable {u : Universe} {watch : Occurrence → ω → ω} {P : Watched ω → Prop} {t : TypeId}

theorem maintains_runInitializer {invoke : MethodId → Watching ω Value}
    (hinvoke : ∀ m, Maintains P (invoke m)) :
    Maintains P (runInitializer u invoke t) := by
  unfold runInitializer
  cases (u.record t).initializer with
  | some m => exact maintains_map (hinvoke m)
  | none => exact maintains_pure _

/-- What does not depend on how far initializers have come is kept when one runs, if the
initializer keeps it. -/
theorem maintains_startInitializer {invoke : MethodId → Watching ω Value}
    (hprogress : ∀ s h, h.objects = s.heap.objects → h.statics = s.heap.statics → P s →
      P { s with heap := h })
    (hnote : ∀ o : Occurrence, o.ofBody = false → Maintains P (note watch o)) (hinvoke : ∀ m,
      Maintains P (invoke m)) :
    Maintains P (startInitializer u watch invoke t) := by
  have hstep : ∀ f : Heap → Heap, (∀ h, (f h).objects = h.objects ∧ (f h).statics = h.statics) →
      Maintains P (change f : Watching ω Unit) :=
      fun f hf s hs => hprogress s (f s.heap) (hf s.heap).1 (hf s.heap).2 hs
  refine maintains_bind (fun _ hs => hs) fun h => maintains_ite (maintains_pure _) ?_
  refine maintains_bind (hstep _ fun _ => ⟨rfl, rfl⟩) fun _ => maintains_bind (hnote _ rfl) fun _ =>
    ?_
  refine maintains_bind (maintains_outcome (maintains_runInitializer hinvoke)) fun result => ?_
  refine maintains_bind (hstep _ fun _ => ⟨rfl, rfl⟩) fun _ => ?_
  cases result with
  | ok _ => exact maintains_bind (hstep _ fun _ => ⟨rfl, rfl⟩) fun _ => hnote _ rfl
  | error fault => exact maintains_bind (hnote _ rfl) fun _ => maintains_throw fault

theorem maintains_initializeAfter {base : TypeId → Watching ω Unit}
    {invoke : MethodId → Watching ω Value}
    (hbase : ∀ b, (u.record t).base = some b → Maintains P (base b))
    (hstart : Maintains P (startInitializer u watch invoke t)) :
        Maintains P (initializeAfter u watch base invoke t) := by
  refine maintains_bind (fun _ hs => hs) fun h => maintains_ite (maintains_pure _) ?_
  cases hb : (u.record t).base with
  | none => exact hstart
  | some b => exact maintains_bind (hbase b hb) fun _ => hstart

end Invariants

/-! ### Relations that do not look at the heap -/

/-- The relation does not look at how the heap is changed, nor at what onlookers are told, unless
it is of bodies. -/
structure Heedless (watch : Occurrence → ω → ω) (watch' : Occurrence → ω' → ω')
    (R : ∀ {α : Type}, Watching ω α → Watching ω' α → Prop) : Prop extends Congruent R where
  heap : R heap heap
  change : ∀ f, R (change f) (change f)
  note : ∀ o : Occurrence, o.ofBody = false → R (note watch o) (note watch' o)

theorem Heedless.related {u : Universe} {watch : Occurrence → ω → ω} {watch' : Occurrence → ω' → ω'}
    {R : ∀ {α : Type}, Watching ω α → Watching ω' α → Prop} (hR : Heedless watch watch' R)
    {calls : Calls ω} {calls' : Calls ω'} (hinvoke : ∀ m this arguments,
      R (calls.invoke m this arguments) (calls'.invoke m this arguments))
    (hinitialized : ∀ t, R (calls.initialized t) (calls'.initialized t)) :
        Related u watch watch' R calls calls' where
  invoke := hinvoke
  make := fun c arguments => by
    refine hR.bind (hR.lift _) fun t => hR.bind (hinitialized t) fun _ =>
      hR.bind (hR.note _ rfl) fun _ => ?_
    have hnew : R (newObject u t) (newObject u t) :=
      hR.bind hR.heap fun _ => hR.bind (hR.change _) fun _ => hR.pure _
    exact hR.bind hnew fun o => hR.bind (hinvoke c (some o) arguments) fun _ => hR.pure _
  readSlot := fun _ _ => hR.bind hR.heap fun _ => hR.lift _
  writeSlot := fun _ _ _ _ => hR.bind hR.heap fun _ => hR.bind (hR.lift _) fun _ => hR.change _
  readStatic := fun _ => hR.bind (hR.lift _) fun owner => hR.bind (hinitialized owner) fun _ =>
    hR.bind (hR.note _ rfl) fun _ => hR.bind hR.heap fun _ => hR.pure _
  writeStatic := fun _ _ _ => hR.bind (hR.lift _) fun owner => hR.bind (hinitialized owner) fun _ =>
    hR.bind (hR.note _ rfl) fun _ => hR.change _

end TypeLoom.Evaluation
