import TypeLoom.Proofs.Evaluations

/-!
# Nobody minds an onlooker

Whoever watches an evaluation and whatever they note, it ends alike and leaves the same heap. What
the notes of an onlooker show of a run is therefore true of the run that nobody watches.
-/

namespace TypeLoom

open Attempt Watching Evaluation

variable {ω ω' : Type} {u : Universe} {watch : Occurrence → ω → ω} {watch' : Occurrence → ω' → ω'}

/-! ### Evaluations with different onlookers -/

/-- From one heap both evaluations end alike and leave one heap. -/
def SameRun {α : Type} (act : Watching ω α) (act' : Watching ω' α) : Prop :=
  ∀ h n n', (act.start ⟨h, n⟩).1 = (act'.start ⟨h, n'⟩).1
    ∧ (act.start ⟨h, n⟩).2.heap = (act'.start ⟨h, n'⟩).2.heap

theorem heedless_sameRun (watch : Occurrence → ω → ω) (watch' : Occurrence → ω' → ω') :
    Heedless watch watch' SameRun where
  lift := fun _ _ _ _ => ⟨rfl, rfl⟩
  bind := by
    intro α β act act' next next' hact hnext h n n'
    obtain ⟨hend, hheap⟩ := hact h n n'
    rw [start_bind, start_bind]
    rcases hs : act.start ⟨h, n⟩ with ⟨r, mid⟩
    rcases hs' : act'.start ⟨h, n'⟩ with ⟨r', mid'⟩
    rw [hs, hs'] at hend hheap
    obtain rfl : r = r' := hend
    cases r with
    | error fault => exact ⟨rfl, hheap⟩
    | ok v =>
      have hboth := hnext v mid.heap mid.notes mid'.notes
      have hmid' : (⟨mid.heap, mid'.notes⟩ : Watched ω') = mid' := by
        rw [show mid.heap = mid'.heap from hheap]
      rw [hmid'] at hboth
      exact hboth
  heap := fun _ _ _ => ⟨rfl, rfl⟩
  change := fun _ _ _ _ => ⟨rfl, rfl⟩
  note := fun _ _ _ _ _ => ⟨rfl, rfl⟩

theorem SameRun.outcome {α : Type} {act : Watching ω α} {act' : Watching ω' α}
    (h : SameRun act act') :
    SameRun act.outcome act'.outcome := by
  intro heap n n'
  obtain ⟨hend, hheap⟩ := h heap n n'
  exact ⟨congrArg Except.ok hend, hheap⟩

theorem SameRun.body (watch : Occurrence → ω → ω) (watch' : Occurrence → ω' → ω')
    (m : MethodId) {α : Type} {act : Watching ω α} {act' : Watching ω' α} (h : SameRun act act') :
    SameRun (body watch m act) (body watch' m act') := by
  have hR := heedless_sameRun watch watch'
  have htold : ∀ o, SameRun (note watch o) (note watch' o) := fun _ _ _ _ => ⟨rfl, rfl⟩
  exact hR.bind (htold _) fun _ => hR.bind h.outcome fun result =>
    hR.bind (htold _) fun _ => hR.lift result

theorem sameRun_startInitializer {invoke : MethodId → Watching ω Value}
    {invoke' : MethodId → Watching ω' Value} (hinvoke : ∀ m, SameRun (invoke m) (invoke' m))
    (t : TypeId) :
    SameRun (startInitializer u watch invoke t) (startInitializer u watch' invoke' t) := by
  have hR := heedless_sameRun watch watch'
  refine hR.bind hR.heap fun h => ?_
  split
  · exact hR.pure ()
  · have hbody : SameRun (runInitializer u invoke t) (runInitializer u invoke' t) :=
      hR.toCongruent.runInitializer hinvoke t
    refine hR.bind (hR.change _) fun _ => hR.bind (hR.note _ rfl) fun _ =>
      hR.bind hbody.outcome fun result => ?_
    refine hR.bind (hR.change _) fun _ => ?_
    cases result with
    | ok _ => exact hR.bind (hR.change _) fun _ => hR.note _ rfl
    | error fault => exact hR.bind (hR.note _ rfl) fun _ => hR.throw fault

theorem climbs_sameRun {below : Calls ω} {below' : Calls ω'}
    (hinvoke : ∀ m this arguments,
      SameRun (below.invoke m this arguments) (below'.invoke m this arguments))
    (hinitialized : ∀ t, SameRun (below.initialized t) (below'.initialized t)) (remaining : Nat) :
    Climbs u watch watch' SameRun (fun _ => SameRun) below below' remaining remaining := by
  have hR := heedless_sameRun watch watch'
  have hbody : ∀ m frame, SameRun (runBody u watch below m frame)
      (runBody u watch' below' m frame) := fun m frame =>
    hR.bind (hR.lift _) fun e =>
      hR.bind (SameRun.body watch watch' m
          (related_evaluate hR.toCongruent (hR.related hinvoke hinitialized) e)) fun _ =>
        hR.pure _
  constructor
  case check => exact fun _ _ _ _ _ => hR.toCongruent.check
  case run => exact fun m frame _ _ => hbody m frame
  case runStatic => exact fun m _ frame _ _ _ _ _ hsame => hR.bind hsame fun _ => hbody m frame
  case stop => exact fun _ => hR.toCongruent.throw _
  case step =>
    exact fun t _ _ _ _ hinvoke hbase =>
      hR.toCongruent.initializeAfter hR.heap hbase (sameRun_startInitializer hinvoke t)

/-- However much room is left, the calls do not mind the onlooker. -/
theorem sameRun_callsWithin (u : Universe) (watch : Occurrence → ω → ω)
    (watch' : Occurrence → ω' → ω') (remaining : Nat) :
    (∀ m this arguments, SameRun ((callsWithin u watch remaining).invoke m this arguments)
      ((callsWithin u watch' remaining).invoke m this arguments))
    ∧ ∀ t, SameRun ((callsWithin u watch remaining).initialized t)
        ((callsWithin u watch' remaining).initialized t) := by
  have hR := heedless_sameRun watch watch'
  induction remaining with
  | zero => exact (climbs_sameRun (fun _ _ _ => hR.throw _) (fun _ => hR.throw _) 0).levelOver
  | succ remaining ih => exact (climbs_sameRun ih.1 ih.2 (remaining + 1)).levelOver

/-! ### Runs -/

/-- What can be asked for from outside any body: that a method runs, that an object is made, that
a type is initialized, or that a field of an object gets a value. -/
inductive Entry
  | invoke (m : MethodId) (this : Option ObjectRef) (arguments : List Value)
  | instantiate (c : MethodId) (arguments : List Value)
  | prepare (t : TypeId)
  | setField (o : ObjectRef) (name : String) (value : Value)

namespace Entry

/-- Does what is asked for. -/
def perform (u : Universe) : Entry → Evaluation Unit
  | invoke m this arguments => discard (u.invoke m this arguments)
  | instantiate c arguments => discard (u.instantiate c arguments)
  | prepare t => u.ensureInitialized t
  | setField o name value => do set (← Attempt.lift ((← get).setField u o name value))

def performWatched (u : Universe) (watch : Occurrence → ω → ω) : Entry → Watching ω Unit
  | invoke m this arguments => discard ((callsAt u watch 0).invoke m this arguments)
  | instantiate c arguments => discard (instantiateWith u watch (callsAt u watch 0) c arguments)
  | prepare t => (callsAt u watch 0).initialized t
  | setField o name value => do
    let after ← Attempt.lift ((← heap).setField u o name value)
    change fun _ => after

/-- The heap after a run of entries. A run goes on after failures. -/
def run (u : Universe) (h : Heap) (entries : List Entry) : Heap :=
  entries.foldl (fun h e => ((e.perform u).start h).2) h

/-- The heap after a run of entries, and the notes of the onlooker. -/
def runWatched (u : Universe) (watch : Occurrence → ω → ω) (s : Watched ω) (entries : List Entry) :
    Watched ω :=
  entries.foldl (fun s e => ((e.performWatched u watch).start s).2) s

theorem heap_performWatched (e : Entry) (s : Watched ω) :
    ((e.performWatched u watch).start s).2.heap = ((e.perform u).start s.heap).2 := by
  obtain ⟨hinvoke, hinitialized⟩ :=
    sameRun_callsWithin u watch (fun _ (_ : Unit) => ()) callDepthLimit
  cases e with
  | invoke m this arguments =>
    rw [performWatched, perform, start_discard, start_discard]
    exact (hinvoke m this arguments s.heap s.notes ()).2
  | instantiate c arguments =>
    have hmake : SameRun (instantiateWith u watch (callsAt u watch 0) c arguments)
        (instantiateWith u (fun _ _ => ()) (u.calls 0) c arguments) :=
      ((heedless_sameRun watch fun _ _ => ()).related hinvoke hinitialized).make c arguments
    rw [performWatched, perform, start_discard, start_discard]
    exact (hmake s.heap s.notes ()).2
  | prepare t => exact (hinitialized t s.heap s.notes ()).2
  | setField o name value =>
    cases hset : s.heap.setField u o name value with
    | error fault => simp [performWatched, perform, start_bind, heap, hset, start_lift]
    | ok after => simp [performWatched, perform, start_bind, heap, hset, start_lift, change]

theorem heap_runWatched (s : Watched ω) (entries : List Entry) :
    (runWatched u watch s entries).heap = run u s.heap entries := by
  induction entries generalizing s with
  | nil => rfl
  | cons e entries ih => exact (ih _).trans (congrArg (run u · entries) (heap_performWatched e s))

end Entry

end TypeLoom
