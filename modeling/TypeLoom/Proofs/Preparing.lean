import TypeLoom.Proofs.StampedFields

/-!
# Prepared types

However an evaluation ends, the same initializers are running as before. A type whose initializer
was not running is therefore initialized when its initialization has succeeded.
-/

namespace TypeLoom

open Attempt Watching Evaluation

variable {ω : Type} {u : Universe} {watch : Occurrence → ω → ω} {t : TypeId}

/-! ### Running initializers -/

def KeepsRunning {α : Type} (act : Watching ω α) : Prop :=
  ∀ running, Maintains (fun s => s.heap.running = running) act

/-- And if the initializer of the type was not running, the type is initialized after a success. -/
def Settles (t : TypeId) (act : Watching ω Unit) : Prop :=
  ∀ running (s : Watched ω), s.heap.running = running →
  act.wp (fun _ after => after.heap.running = running
    ∧ (t ∉ running → after.heap.isInitialized t = true))
    (fun after => after.heap.running = running) s

theorem Settles.keepsRunning {act : Watching ω Unit} (h : Settles t act) : KeepsRunning act :=
  fun running s hs =>
    wp_mono (h running s hs) (fun _ _ hafter => hafter.1) fun _ hafter => hafter

theorem congruent_keepsRunning (ω : Type) : @Congruent ω ω fun act _ => KeepsRunning act where
  lift := fun result _ => maintains_lift result
  bind := fun hact hnext running => maintains_bind (hact running) fun v => hnext v running

theorem keepsRunning_heap : KeepsRunning (heap : Watching ω Heap) := fun _ _ hs => hs

theorem keepsRunning_note (o : Occurrence) : KeepsRunning (note watch o) := fun _ _ hs => hs

theorem keepsRunning_newObject (t : TypeId) : KeepsRunning (newObject u t : Watching ω _) :=
  fun _ _ hs => hs

theorem Heap.running_storeSlot {h after : Heap} {o : ObjectRef} {f : FieldId} {value : Value}
    (hstore : h.storeSlot u o f value = .ok after) : after.running = h.running := by
  unfold storeSlot at hstore
  split at hstore
  · cases hstore
  split at hstore
  · cases hstore
  cases hstore
  rfl

theorem related_keepsRunning {calls : Calls ω}
    (hinvoke : ∀ m this arguments, KeepsRunning (calls.invoke m this arguments))
    (hinitialized : ∀ t, Settles t (calls.initialized t)) :
    Related u watch watch (fun act _ => KeepsRunning act) calls calls where
  invoke := hinvoke
  make := fun c arguments running => by
    refine maintains_bind (maintains_lift _) fun t =>
      maintains_bind ((hinitialized t).keepsRunning running) fun _ => ?_
    refine maintains_bind (keepsRunning_note _ running) fun _ =>
      maintains_bind (keepsRunning_newObject t running) fun o => ?_
    exact maintains_bind (hinvoke c (some o) arguments running) fun _ => maintains_pure _
  readSlot := fun _ _ running => maintains_bind (keepsRunning_heap running) fun _ =>
    maintains_lift _
  writeSlot := fun o f value _ running s hs => by
    rw [writeSlot, wp_bind, wp_heap, wp_bind, wp_lift]
    exact ⟨fun after hstore => (Heap.running_storeSlot hstore).trans hs, fun _ _ => hs⟩
  readStatic := fun f running => by
    refine maintains_bind (maintains_lift _) fun owner =>
      maintains_bind ((hinitialized owner).keepsRunning running) fun _ => ?_
    exact maintains_bind (keepsRunning_note _ running) fun _ =>
      maintains_bind (keepsRunning_heap running) fun _ => maintains_pure _
  writeStatic := fun f value _ running => by
    refine maintains_bind (maintains_lift _) fun owner =>
      maintains_bind ((hinitialized owner).keepsRunning running) fun _ => ?_
    exact maintains_bind (keepsRunning_note _ running) fun _ => fun _ hs => hs

theorem settles_startInitializer {invoke : MethodId → Watching ω Value}
    (hinvoke : ∀ m, KeepsRunning (invoke m)) :
    Settles t (startInitializer u watch invoke t) := by
  intro running s hs
  rw [startInitializer, wp_bind, wp_heap, wp_ite]
  refine ⟨fun hdone => ⟨hs, fun hidle => ?_⟩, fun _ => ?_⟩
  · have hrunning : ¬ s.heap.isRunning t = true := by
      rw [Heap.isRunning, List.contains_iff_mem, hs]
      exact hidle
    exact (Bool.or_eq_true_iff.mp hdone).resolve_left hrunning
  · have hbody : KeepsRunning (runInitializer u invoke t) :=
      fun r => maintains_runInitializer fun m => hinvoke m r
    have hafter :=
      wp_const.mp (hbody (t :: running) ⟨s.heap.startRunning t, watch (.starts t) s.notes⟩
      (congrArg (t :: ·) hs))
    have hstopped : ∀ h : Heap, h.running = t :: running → (h.stopRunning t).running = running :=
        fun h hh => by
      rw [Heap.stopRunning, hh]
      exact List.erase_cons_head t running
    rw [wp_bind, wp_change, wp_bind, wp_note, wp_bind, wp_outcome, wp_bind, wp_change]
    rcases (Attempt.start _ _).1 with fault | ⟨⟩
    · exact hstopped _ hafter
    · exact ⟨hstopped _ hafter, fun _ => List.contains_iff_mem.mpr (List.mem_cons_self (a := t))⟩

theorem climbs_settles {below : Calls ω}
    (hinvoke : ∀ m this arguments, KeepsRunning (below.invoke m this arguments))
    (hinitialized : ∀ t, Settles t (below.initialized t)) (remaining : Nat) :
    Climbs u watch watch (fun act _ => KeepsRunning act) (fun t act _ => Settles t act) below below
        remaining remaining := by
  have hbody : ∀ m frame, KeepsRunning (runBody u watch below m frame) := by
    intro m frame running
    refine maintains_bind (maintains_lift _) fun e => maintains_bind ?_ fun _ => maintains_pure _
    have he : KeepsRunning (evaluate u watch below frame e) :=
      related_evaluate (congruent_keepsRunning ω) (related_keepsRunning hinvoke hinitialized) e
    refine maintains_bind (keepsRunning_note _ running) fun _ =>
      maintains_bind (maintains_outcome (he running)) fun result => ?_
    exact maintains_bind (keepsRunning_note _ running) fun _ => maintains_lift _
  constructor
  case check =>
    exact fun _ _ _ _ _ hnext running => maintains_lift_bind _ fun _ h =>
      hnext (room_of_checkCall h) running
  case run => exact fun m frame _ _ => hbody m frame
  case runStatic =>
    exact fun m _ frame _ _ _ _ _ hready running =>
      maintains_bind (hready.keepsRunning running) fun _ => hbody m frame running
  case stop => exact fun _ _ _ hs => hs
  case step =>
    intro t base _ invoke _ hinvoke hbase running s hs
    rw [initializeAfter, wp_bind, wp_heap, wp_ite]
    refine ⟨fun hdone => ⟨hs, fun _ => hdone⟩, fun _ => ?_⟩
    cases hb : (u.record t).base with
    | none => exact settles_startInitializer hinvoke running s hs
    | some b =>
      refine wp_step ((hbase b hb).keepsRunning running s hs) (fun _ mid hmid => ?_) fun _ hafter =>
        hafter
      exact settles_startInitializer hinvoke running mid hmid

theorem settles_callsWithin (u : Universe) (watch : Occurrence → ω → ω) (remaining : Nat) :
    (∀ m this arguments, KeepsRunning ((callsWithin u watch remaining).invoke m this arguments))
      ∧ ∀ t, Settles t ((callsWithin u watch remaining).initialized t) := by
  induction remaining with
  | zero =>
    have hnone : ∀ t : TypeId,
      Settles t (throw (.recursionLimit callDepthLimit) : Watching ω Unit) := fun _ _ _ hs => hs
    exact (climbs_settles (fun _ _ _ _ => maintains_throw _) hnone 0).levelOver
  | succ remaining ih => exact (climbs_settles ih.1 ih.2 (remaining + 1)).levelOver

/-! ### Entries -/

theorem maintains_unwatched_running {α : Type} {act : Watching Unit α} (h : KeepsRunning act)
    (running : List TypeId) :
    Maintains (fun after => after.running = running) (unwatched act) :=
  maintains_within (h running) (fun _ hs => hs) fun _ _ _ hs => hs

theorem Entry.maintains_running (u : Universe) (running : List TypeId) (e : Entry) :
    Maintains (fun h => h.running = running) (e.perform u) := by
  obtain ⟨hinvoke, hinitialized⟩ := settles_callsWithin u (fun _ (_ : Unit) => ()) callDepthLimit
  cases e with
  | invoke m this arguments =>
    exact maintains_map (maintains_unwatched_running (hinvoke m this arguments) running)
  | instantiate c arguments =>
    exact maintains_map (maintains_unwatched_running
      ((related_keepsRunning hinvoke hinitialized).make c arguments) running)
  | prepare t => exact maintains_unwatched_running (hinitialized t).keepsRunning running
  | setField o name value =>
    refine maintains_get_bind fun h hh => ?_
    rw [wp_bind, wp_lift]
    refine ⟨fun after hset => ?_, fun _ _ => hh⟩
    obtain ⟨g, -, hstore⟩ := bind_eq_ok.mp hset
    exact (Heap.running_storeSlot hstore).trans hh

theorem Entry.running_runAcross (steps : List (Universe × Entry)) (h : Heap) :
    (Entry.runAcross h steps).running = h.running := by
  induction steps generalizing h with
  | nil => rfl
  | cons step steps ih =>
    exact (ih _).trans (wp_const.mp (step.2.maintains_running step.1 h.running h rfl))

namespace Universe

/-- When the initialization of a type succeeds whose initializer is not running, the type is
initialized. -/
theorem initialized_of_ensureInitialized {h after : Heap} (hidle : h.isRunning t = false)
    (hrun : (u.ensureInitialized t).start h = (.ok (), after)) : after.isInitialized t = true := by
  have hsettles := (settles_callsWithin u (fun _ (_ : Unit) => ()) callDepthLimit).2 t
    h.running ⟨h, ()⟩ rfl
  have hspec : (u.ensureInitialized t).wp (fun _ after => t ∉ h.running →
      after.isInitialized t = true) (fun _ => True) h := by
    rw [ensureInitialized, unwatched, wp_within]
    exact wp_mono hsettles (fun _ _ hafter => hafter.2) fun _ _ => trivial
  refine wp_ok hspec hrun fun hmem => ?_
  rw [Heap.isRunning, List.contains_iff_mem.mpr hmem] at hidle
  cases hidle

end Universe

end TypeLoom
