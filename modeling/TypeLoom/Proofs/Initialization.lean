import Mathlib.Logic.Relation
import TypeLoom.Proofs.Onlookers

/-!
# The order of type initializers

Before a type is used its initializer and those of its bases have been started, and the initializer
of no type finishes twice. What the notes of a run show is judged occurrence by occurrence against
the notes before it. Only one kind of base is neither initialized nor being initialized when a type
is used: one whose initializer used a derived type, so that this type was initialized early, and
failed after that.
-/

namespace TypeLoom

open Attempt Watching Evaluation

/-- A type is one of the bases of another, or that type itself. -/
def Universe.Derives (u : Universe) : TypeId → TypeId → Prop :=
  Relation.ReflTransGen fun t b => (u.record t).base = some b

/-! ### Reading notes -/

/-- The types whose initializers are running after these notes, newest first. -/
def underway : List Occurrence → List TypeId
  | [] => []
  | .starts t :: earlier => t :: underway earlier
  | .finishes _ :: earlier | .fails _ :: earlier => (underway earlier).tail
  | _ :: earlier => underway earlier

def Occurrence.ofInitializer : Occurrence → Bool
  | starts _ | finishes _ | fails _ => true
  | _ => false

theorem underway_cons {o : Occurrence} (h : o.ofInitializer = false) (earlier : List Occurrence) :
    underway (o :: earlier) = underway earlier := by
  cases o <;> first | rfl | cases h

/-- The initializer of the type is running or has finished. -/
def Settled (notes : List Occurrence) (t : TypeId) : Prop :=
  t ∈ underway notes ∨ .finishes t ∈ notes

/-- The initializer of the base failed after that of a type between the two had finished. -/
def LeftBehind (u : Universe) (notes : List Occurrence) (t b : TypeId) : Prop :=
  ∃ x, u.Derives t x ∧ u.Derives x b ∧ [.fails b, .finishes x].Sublist notes

/-- The type may be used: it is settled, and so are its bases unless they were left behind. -/
structure Ready (u : Universe) (notes : List Occurrence) (t : TypeId) : Prop where
  settled : Settled notes t
  bases : ∀ b, u.Derives t b → Settled notes b ∨ LeftBehind u notes t b

/-- The type that is used: a static field of it is read or written, an object of it is made, or
the body of one of its static methods starts. -/
def Occurrence.uses? (u : Universe) : Occurrence → Option TypeId
  | reads t _ | writes t _ | creates t => some t
  | enters m => if (u.method m).isStatic then u.methodOwner? m else none
  | _ => none

/-- The occurrence is in order after what was noted earlier: what is used is ready, no
initializer starts that is running or has finished, and only the one that was started last ends. -/
structure Timely (u : Universe) (earlier : List Occurrence) (o : Occurrence) : Prop where
  uses : ∀ t, o.uses? u = some t → Ready u earlier t
  starts : ∀ t, o = .starts t → t ∉ underway earlier ∧ .finishes t ∉ earlier
  finishes : ∀ t, o = .finishes t → (underway earlier).head? = some t ∧ .finishes t ∉ earlier
  fails : ∀ t, o = .fails t → (underway earlier).head? = some t

/-- Everything noted was in order, and what is finished stays ready for use. -/
structure Sound (u : Universe) (notes : List Occurrence) : Prop where
  timely : ∀ o earlier, o :: earlier <:+ notes → Timely u earlier o
  distinct : (underway notes).Nodup
  unfinished : ∀ t ∈ underway notes, .finishes t ∉ notes
  ready : ∀ t, .finishes t ∈ notes → Ready u notes t

section Notes

variable {u : Universe} {notes : List Occurrence} {o : Occurrence} {t b : TypeId}

theorem LeftBehind.later {after : List Occurrence} (h : LeftBehind u notes t b)
    (hafter : notes <:+ after) :
    LeftBehind u after t b := by
  obtain ⟨x, htx, hxb, hnoted⟩ := h
  exact ⟨x, htx, hxb, hnoted.trans hafter.sublist⟩

theorem Ready.later {after : List Occurrence} (h : Ready u notes t) (hafter : notes <:+ after)
    (hsettled : ∀ b, Settled notes b → Settled after b) : Ready u after t :=
  ⟨hsettled t h.settled, fun b hb => (h.bases b hb).imp (hsettled b) fun hleft =>
    hleft.later hafter⟩

theorem Ready.of_base (ht : Settled notes t)
    (hbase : ∀ b, (u.record t).base = some b → Ready u notes b) : Ready u notes t where
  settled := ht
  bases := fun b hb => by
    rcases Relation.ReflTransGen.cases_head hb with rfl | ⟨c, hc, hcb⟩
    · exact .inl ht
    · refine ((hbase c hc).bases b hcb).imp_right fun ⟨x, hcx, hxb, hnoted⟩ => ?_
      exact ⟨x, .head hc hcx, hxb, hnoted⟩

theorem Sound.timely_cons (h : Sound u notes) (ho : Timely u notes o) :
    ∀ o' earlier, o' :: earlier <:+ o :: notes → Timely u earlier o' := by
  intro o' earlier hsuffix
  rcases List.suffix_cons_iff.mp hsuffix with heq | hearlier
  · cases heq
    exact ho
  · exact h.timely o' earlier hearlier

theorem sound_nil (u : Universe) : Sound u [] where
  timely := fun _ _ h => absurd (List.suffix_nil.mp h) (List.cons_ne_nil _ _)
  distinct := List.nodup_nil
  unfinished := fun _ _ => List.not_mem_nil
  ready := fun _ h => absurd h List.not_mem_nil

theorem Sound.aside (h : Sound u notes) (ho : o.ofInitializer = false)
    (huses : ∀ t, o.uses? u = some t → Ready u notes t) :
    Sound u (o :: notes) := by
  have htimely : Timely u notes o := by
    refine ⟨huses, ?_, ?_, ?_⟩
    all_goals
      rintro t rfl
      cases ho
  have hsame := underway_cons ho notes
  have hfinishes : ∀ x, .finishes x ∈ o :: notes → .finishes x ∈ notes := by
    intro x hx
    rcases List.mem_cons.mp hx with rfl | hx
    · cases ho
    · exact hx
  have hsettled : ∀ b, Settled notes b → Settled (o :: notes) b := fun b hb =>
    hb.imp (fun hrunning => hsame ▸ hrunning) (List.mem_cons_of_mem o)
  refine ⟨h.timely_cons htimely, hsame ▸ h.distinct, fun x hx hfinished => ?_, fun x hx => ?_⟩
  · rw [hsame] at hx
    exact h.unfinished x hx (hfinishes x hfinished)
  · exact (h.ready x (hfinishes x hx)).later (List.suffix_cons o notes) hsettled

theorem settled_starts (hb : Settled notes b) : Settled (.starts t :: notes) b :=
  hb.imp (List.mem_cons_of_mem t) (List.mem_cons_of_mem _)

theorem Sound.starts (h : Sound u notes) (hidle : t ∉ underway notes)
    (hfresh : .finishes t ∉ notes) :
    Sound u (.starts t :: notes) := by
  have htimely : Timely u notes (.starts t) :=
    ⟨nofun, fun _ heq => by cases heq; exact ⟨hidle, hfresh⟩, nofun, nofun⟩
  have hfinishes : ∀ x, .finishes x ∈ Occurrence.starts t :: notes → .finishes x ∈ notes :=
      fun x hx =>
        (List.mem_cons.mp hx).resolve_left nofun
  refine ⟨h.timely_cons htimely, List.nodup_cons.mpr ⟨hidle, h.distinct⟩, fun x hx hfinished =>
    ?_, fun x hx => ?_⟩
  · rcases List.mem_cons.mp hx with rfl | hrunning
    · exact hfresh (hfinishes x hfinished)
    · exact h.unfinished x hrunning (hfinishes x hfinished)
  · exact (h.ready x (hfinishes x hx)).later (List.suffix_cons _ notes) fun _ => settled_starts

theorem underway_eq (h : (underway notes).head? = some t) :
    underway notes = t :: (underway notes).tail := by
  obtain ⟨rest, hrest⟩ := List.head?_eq_some_iff.mp h
  rw [hrest, List.tail_cons]

theorem settled_finishes (ht : (underway notes).head? = some t) (hb : Settled notes b) :
    Settled (.finishes t :: notes) b := by
  rcases hb with hrunning | hfinished
  · rw [underway_eq ht] at hrunning
    rcases List.mem_cons.mp hrunning with rfl | hother
    · exact .inr List.mem_cons_self
    · exact .inl hother
  · exact .inr (List.mem_cons_of_mem _ hfinished)

theorem Sound.finishes (h : Sound u notes) (ht : (underway notes).head? = some t)
    (hbase : ∀ b, (u.record t).base = some b → Ready u notes b) :
    Sound u (.finishes t :: notes) := by
  have hmem : t ∈ underway notes := List.mem_of_head? ht
  have htimely : Timely u notes (.finishes t) :=
    ⟨nofun, nofun, fun _ heq => by cases heq; exact ⟨ht, h.unfinished t hmem⟩, nofun⟩
  have hdistinct := h.distinct
  rw [underway_eq ht, List.nodup_cons] at hdistinct
  refine ⟨h.timely_cons htimely, hdistinct.2, fun x hx hfinished => ?_, fun x hx => ?_⟩
  · rcases List.mem_cons.mp hfinished with heq | hfinished
    · cases heq
      exact hdistinct.1 hx
    · exact h.unfinished x (List.mem_of_mem_tail hx) hfinished
  · have hready : Ready u notes x := by
      rcases List.mem_cons.mp hx with heq | hx
      · cases heq
        exact .of_base (.inl hmem) hbase
      · exact h.ready x hx
    exact hready.later (List.suffix_cons _ notes) fun _ => settled_finishes ht

/-- A finished type that derives from the one that fails leaves it behind. -/
theorem Sound.fails (h : Sound u notes) (ht : (underway notes).head? = some t) :
    Sound u (.fails t :: notes) := by
  have hfinishes : ∀ x, .finishes x ∈ Occurrence.fails t :: notes → .finishes x ∈ notes :=
      fun x hx =>
        (List.mem_cons.mp hx).resolve_left nofun
  have hdistinct := h.distinct
  rw [underway_eq ht, List.nodup_cons] at hdistinct
  have hsettled : ∀ b, b ≠ t → Settled notes b → Settled (.fails t :: notes) b := by
    intro b hne hb
    rw [Settled, underway_eq ht, List.mem_cons] at hb
    exact hb.imp (fun hrunning => hrunning.resolve_left hne) (List.mem_cons_of_mem _)
  have htimely : Timely u notes (.fails t) := ⟨nofun, nofun, nofun, fun _ heq => by
    cases heq; exact ht⟩
  refine ⟨h.timely_cons htimely, hdistinct.2, fun x hx hfinished => ?_, fun x hx => ?_⟩
  · exact h.unfinished x (List.mem_of_mem_tail hx) (hfinishes x hfinished)
  · have hfinished := hfinishes x hx
    have hother : x ≠ t := fun heq => h.unfinished t (List.mem_of_head? ht) (heq ▸ hfinished)
    refine ⟨hsettled x hother (.inr hfinished), fun b hb => ?_⟩
    by_cases hbt : b = t
    · rw [hbt] at hb ⊢
      exact .inr ⟨x, .refl, hb, .cons_cons _ (List.singleton_sublist.mpr hfinished)⟩
    · exact ((h.ready x hfinished).bases b hb).imp (hsettled b hbt) fun hleft =>
        hleft.later (List.suffix_cons _ notes)

end Notes

/-! ### States of a run -/

structure Since (before after : List Occurrence) : Prop where
  grown : before <:+ after
  underway : underway after = underway before

theorem Since.refl (notes : List Occurrence) : Since notes notes := ⟨List.suffix_refl notes, rfl⟩

theorem Since.trans {before mid after : List Occurrence} (h : Since before mid)
    (h' : Since mid after) : Since before after :=
  ⟨h.grown.trans h'.grown, h'.underway.trans h.underway⟩

theorem Since.ready {u : Universe} {before after : List Occurrence} {t : TypeId}
    (h : Since before after) (ht : Ready u before t) : Ready u after t :=
  ht.later h.grown fun _ hb => hb.imp (fun hrunning => h.underway ▸ hrunning) fun hfinished =>
    h.grown.subset hfinished

/-- The notes are sound and tell what the heap knows of initializers. -/
structure Disciplined (u : Universe) (start : List Occurrence) (s : Watched (List Occurrence)) :
    Prop where
  sound : Sound u s.notes
  initialized : ∀ t, s.heap.isInitialized t = true ↔ .finishes t ∈ s.notes
  running : s.heap.running = underway s.notes
  since : Since start s.notes

namespace Disciplined

variable {u : Universe} {start : List Occurrence} {s : Watched (List Occurrence)} {t : TypeId}

theorem isRunning_iff (h : Disciplined u start s) :
    s.heap.isRunning t = true ↔ t ∈ underway s.notes := by
  rw [Heap.isRunning, List.contains_iff_mem, h.running]

theorem of_eq (h : Disciplined u start s) {after : Heap}
    (hinitialized : after.initialized = s.heap.initialized)
    (hrunning : after.running = s.heap.running) : Disciplined u start { s with heap := after } where
  sound := h.sound
  initialized := fun t => by
    rw [← h.initialized t, Heap.isInitialized, Heap.isInitialized, hinitialized]
  running := hrunning.trans h.running
  since := h.since

theorem aside (h : Disciplined u start s) {o : Occurrence} (ho : o.ofInitializer = false)
    (huses : ∀ t, o.uses? u = some t → Ready u s.notes t) :
    Disciplined u start { s with notes := o :: s.notes } where
  sound := h.sound.aside ho huses
  initialized := fun t => by
    rw [h.initialized t, List.mem_cons, or_iff_right]
    rintro rfl
    cases ho
  running := h.running.trans (underway_cons ho s.notes).symm
  since := h.since.trans ⟨List.suffix_cons o s.notes, underway_cons ho s.notes⟩

theorem starts (h : Disciplined u start s) (hidle : t ∉ underway s.notes)
    (hfresh : .finishes t ∉ s.notes) :
    Disciplined u (.starts t :: s.notes) ⟨s.heap.startRunning t, .starts t :: s.notes⟩ where
  sound := h.sound.starts hidle hfresh
  initialized := fun x => by
    rw [List.mem_cons, or_iff_right nofun]
    exact h.initialized x
  running := congrArg (t :: ·) h.running
  since := .refl _

variable {before : Watched (List Occurrence)}

theorem underway_of_starts (h : Disciplined u (.starts t :: before.notes) s) :
    underway s.notes = t :: underway before.notes :=
  h.since.underway

theorem stopRunning (h : Disciplined u (.starts t :: before.notes) s) :
    (s.heap.stopRunning t).running = underway before.notes := by
  rw [Heap.stopRunning, h.running, h.underway_of_starts]
  exact List.erase_cons_head t _

theorem since_starts (h : Disciplined u (.starts t :: before.notes) s)
    (hbefore : Since start before.notes) {o : Occurrence}
    (ho : underway (o :: s.notes) = (underway s.notes).tail) : Since start (o :: s.notes) where
  grown := ((hbefore.grown.trans (List.suffix_cons _ _)).trans h.since.grown).trans
    (List.suffix_cons _ _)
  underway := by
    rw [ho, h.underway_of_starts, List.tail_cons, hbefore.underway]

theorem finishes (h : Disciplined u (.starts t :: before.notes) s)
    (hbefore : Since start before.notes)
    (hbase : ∀ b, (u.record t).base = some b → Ready u before.notes b) :
    Disciplined u start ⟨(s.heap.stopRunning t).markInitialized t, .finishes t :: s.notes⟩ where
  sound := by
    refine h.sound.finishes (by rw [h.underway_of_starts]; rfl) fun b hb => h.since.ready ?_
    exact (hbase b hb).later (List.suffix_cons _ _) fun _ => settled_starts
  initialized := fun x => by
    have hold := h.initialized x
    rw [Heap.isInitialized, List.contains_iff_mem] at hold ⊢
    rw [Heap.markInitialized, List.mem_cons, List.mem_cons, Occurrence.finishes.injEq]
    exact or_congr Iff.rfl hold
  running := by
    rw [underway, h.underway_of_starts]
    exact h.stopRunning
  since := h.since_starts hbefore rfl

theorem fails (h : Disciplined u (.starts t :: before.notes) s)
    (hbefore : Since start before.notes) :
    Disciplined u start ⟨s.heap.stopRunning t, .fails t :: s.notes⟩ where
  sound := h.sound.fails (by rw [h.underway_of_starts]; rfl)
  initialized := fun x => by
    rw [List.mem_cons, or_iff_right nofun]
    exact h.initialized x
  running := by
    rw [underway, h.underway_of_starts]
    exact h.stopRunning
  since := h.since_starts hbefore rfl

end Disciplined

/-! ### Evaluations -/

section Evaluations

variable {u : Universe} {start : List Occurrence} {s : Watched (List Occurrence)} {t : TypeId}

def KeepsOrder (u : Universe) {α : Type} (act : Watching (List Occurrence) α) : Prop :=
  ∀ start, Maintains (Disciplined u start) act

/-- All that is noted is in order, and when the evaluation succeeds the type may be used. -/
def Prepares (u : Universe) (t : TypeId) (act : Watching (List Occurrence) Unit) : Prop :=
  ∀ start s, Disciplined u start s →
    act.wp (fun _ after => Disciplined u start after ∧ Ready u after.notes t)
    (Disciplined u start) s

theorem congruent_keepsOrder (u : Universe) :
    @Congruent (List Occurrence) (List Occurrence) fun act _ => KeepsOrder u act where
  lift := fun result _ => maintains_lift result
  bind := fun hact hnext start => maintains_bind (hact start) fun v => hnext v start

theorem keepsOrder_heap : KeepsOrder u heap := fun _ _ hs => hs

theorem keepsOrder_change {f : Heap → Heap}
    (hf : ∀ h, (f h).initialized = h.initialized ∧ (f h).running = h.running) :
    KeepsOrder u (change f) := fun _ s hs => hs.of_eq (hf s.heap).1 (hf s.heap).2

theorem keepsOrder_newObject (t : TypeId) : KeepsOrder u (newObject u t) :=
  fun _ _ hs => hs.of_eq rfl rfl

theorem keepsOrder_storeSlot {o : ObjectRef} {f : FieldId} {value : Value} (h : Heap) {after : Heap}
    (hstore : h.storeSlot u o f value = .ok after) :
    after.initialized = h.initialized ∧ after.running = h.running := by
  unfold Heap.storeSlot at hstore
  split at hstore
  · cases hstore
  split at hstore
  · cases hstore
  cases hstore
  exact ⟨rfl, rfl⟩

theorem Prepares.bind {α : Type} {act : Watching (List Occurrence) Unit}
    {next : Unit → Watching (List Occurrence) α} (h : Prepares u t act)
    (hnext : ∀ start s, Disciplined u start s → Ready u s.notes t →
      (next ()).wp (fun _ => Disciplined u start) (Disciplined u start) s) :
      KeepsOrder u (act >>= next) := by
  intro start s hs
  refine wp_step (h start s hs) (fun _ after hafter => ?_) fun _ hafter => hafter
  exact hnext start after hafter.1 hafter.2

theorem Prepares.use {α : Type} {act : Watching (List Occurrence) Unit}
    {next : Unit → Watching (List Occurrence) α} (h : Prepares u t act) (o : Occurrence)
    (ho : o.ofInitializer = false) (huses : o.uses? u = some t) (hnext : KeepsOrder u (next ())) :
        KeepsOrder u (act >>= fun _ => note List.cons o >>= next) := by
  refine h.bind fun start s hs hready => ?_
  rw [wp_bind, wp_note]
  refine hnext start _ (hs.aside ho fun x hx => ?_)
  cases huses.symm.trans hx
  exact hready

theorem related_keepsOrder {calls : Calls (List Occurrence)}
    (hinvoke : ∀ m this arguments, KeepsOrder u (calls.invoke m this arguments))
    (hinitialized : ∀ t, Prepares u t (calls.initialized t)) :
    Related u List.cons List.cons (fun act _ => KeepsOrder u act) calls calls where
  invoke := hinvoke
  make := fun c arguments start => by
    refine maintains_bind (maintains_lift _) fun t => ?_
    refine (hinitialized t).use (.creates t) rfl rfl (fun start => ?_) start
    exact maintains_bind (keepsOrder_newObject t start) fun o =>
      maintains_bind (hinvoke c (some o) arguments start) fun _ => maintains_pure _
  readSlot := fun _ _ start => maintains_bind (keepsOrder_heap start) fun _ => maintains_lift _
  writeSlot := fun o f value _ start s hs => by
    rw [writeSlot, wp_bind, wp_heap, wp_bind, wp_lift]
    refine ⟨fun after hstore => ?_, fun _ _ => hs⟩
    obtain ⟨hinitialized, hrunning⟩ := keepsOrder_storeSlot s.heap hstore
    exact hs.of_eq hinitialized hrunning
  readStatic := fun f start => by
    refine maintains_bind (maintains_lift _) fun owner => ?_
    refine (hinitialized owner).use (.reads owner f) rfl rfl (fun start => ?_) start
    exact maintains_bind (keepsOrder_heap start) fun _ => maintains_pure _
  writeStatic := fun f value _ start => by
    refine maintains_bind (maintains_lift _) fun owner => ?_
    refine (hinitialized owner).use (.writes owner f) rfl rfl ?_ start
    exact keepsOrder_change fun _ => ⟨rfl, rfl⟩

theorem wp_runBody {below : Calls (List Occurrence)}
    (hinvoke : ∀ m this arguments, KeepsOrder u (below.invoke m this arguments))
    (hinitialized : ∀ t, Prepares u t (below.initialized t)) {m : MethodId} (frame : Frame)
    (hs : Disciplined u start s) (huses : ∀ t, (Occurrence.enters m).uses? u = some t →
      Ready u s.notes t) :
    (runBody u List.cons below m frame).wp (fun _ => Disciplined u start)
        (Disciplined u start) s := by
  have hrest : ∀ e, Maintains (Disciplined u start) (do
      let result ← outcome (evaluate u List.cons below frame e)
      note List.cons (.leaves m)
      Attempt.lift result) := by
    intro e
    have he : KeepsOrder u (evaluate u List.cons below frame e) :=
      related_evaluate (congruent_keepsOrder u) (related_keepsOrder hinvoke hinitialized) e
    refine maintains_bind (maintains_outcome (he start)) fun result => maintains_bind ?_ fun _ =>
      maintains_lift result
    exact fun _ hmid => hmid.aside rfl nofun
  rw [runBody, wp_bind, wp_lift]
  refine ⟨fun e _ => ?_, fun _ _ => hs⟩
  rw [wp_bind, body, wp_bind, wp_note]
  exact hrest e _ (hs.aside rfl huses)

theorem wp_startInitializer {invoke : MethodId → Watching (List Occurrence) Value}
    (hinvoke : ∀ m, KeepsOrder u (invoke m)) (hs : Disciplined u start s)
    (hbase : ∀ b, (u.record t).base = some b → Ready u s.notes b) :
    (startInitializer u List.cons invoke t).wp (fun _ after => Disciplined u start after
      ∧ Ready u after.notes t)
      (Disciplined u start) s := by
  rw [startInitializer, wp_bind, wp_heap, wp_ite]
  refine ⟨fun hdone => ⟨hs, ?_⟩, fun hidle => ?_⟩
  · rcases Bool.or_eq_true_iff.mp hdone with hrunning | hinitialized
    · exact .of_base (.inl (hs.isRunning_iff.mp hrunning)) hbase
    · exact hs.sound.ready t ((hs.initialized t).mp hinitialized)
  · rw [Bool.or_eq_true, not_or] at hidle
    have hbody : KeepsOrder u (runInitializer u invoke t) := fun start =>
      maintains_runInitializer fun m => hinvoke m start
    have hstarted := hs.starts (fun h => hidle.1 (hs.isRunning_iff.mpr h)) fun h =>
      hidle.2 ((hs.initialized t).mpr h)
    have hafter := wp_const.mp (hbody _ _ hstarted)
    rw [wp_bind, wp_change, wp_bind, wp_note, wp_bind, wp_outcome, wp_bind, wp_change]
    rcases (Attempt.start _ _).1 with fault | ⟨⟩
    · exact hafter.fails hs.since
    · exact ⟨hafter.finishes hs.since hbase,
        (hafter.finishes hs.since hbase).sound.ready t List.mem_cons_self⟩

theorem climbs_keepsOrder {below : Calls (List Occurrence)}
    (hinvoke : ∀ m this arguments, KeepsOrder u (below.invoke m this arguments))
    (hinitialized : ∀ t, Prepares u t (below.initialized t)) (remaining : Nat) :
    Climbs u List.cons List.cons (fun act _ => KeepsOrder u act) (fun t act _ =>
      Prepares u t act) below below
      remaining remaining := by
  constructor
  case check =>
    exact fun _ _ _ _ _ hnext start => maintains_lift_bind _ fun _ h =>
      hnext (room_of_checkCall h) start
  case run =>
    intro m frame _ hgone start s hs
    refine wp_runBody hinvoke hinitialized frame hs fun t ht => ?_
    rw [Occurrence.uses?] at ht
    split at ht
    · rename_i hstatic
      cases (hgone hstatic).symm.trans ht
    · cases ht
  case runStatic =>
    intro m owner frame _ _ _ hstatic howner hprepares
    refine hprepares.bind fun start s hs hready =>
      wp_runBody hinvoke hinitialized frame hs fun t ht => ?_
    rw [Occurrence.uses?, if_pos hstatic] at ht
    cases howner.symm.trans ht
    exact hready
  case stop => exact fun _ _ _ hs => hs
  case step =>
    intro t base _ invoke _ hinvoke hbase start s hs
    rw [initializeAfter, wp_bind, wp_heap, wp_ite]
    refine ⟨fun hinitialized => ⟨hs, hs.sound.ready t ((hs.initialized t).mp hinitialized)⟩,
      fun _ => ?_⟩
    cases hb : (u.record t).base with
    | none => exact wp_startInitializer hinvoke hs fun b hb' => by rw [hb] at hb'; cases hb'
    | some b =>
      refine wp_step (hbase b hb start s hs) (fun _ mid hmid => ?_) fun _ hafter => hafter
      refine wp_startInitializer hinvoke hmid.1 fun b' hb' => ?_
      cases hb.symm.trans hb'
      exact hmid.2

/-- However much room is left, what calls note is in order, and types are prepared. -/
theorem keepsOrder_callsWithin (u : Universe) (remaining : Nat) :
    (∀ m this arguments, KeepsOrder u ((callsWithin u List.cons remaining).invoke m this arguments))
      ∧ ∀ t, Prepares u t ((callsWithin u List.cons remaining).initialized t) := by
  induction remaining with
  | zero =>
    have hnone : ∀ t, Prepares u t (throw (.recursionLimit callDepthLimit)) := fun _ _ _ hs => hs
    exact (climbs_keepsOrder (fun _ _ _ _ => maintains_throw _) hnone 0).levelOver
  | succ remaining ih => exact (climbs_keepsOrder ih.1 ih.2 (remaining + 1)).levelOver

theorem keepsOrder_performWatched (e : Entry) : KeepsOrder u (e.performWatched u List.cons) := by
  obtain ⟨hinvoke, hinitialized⟩ := keepsOrder_callsWithin u callDepthLimit
  intro start
  cases e with
  | invoke m this arguments => exact maintains_map (hinvoke m this arguments start)
  | instantiate c arguments =>
    exact maintains_map ((related_keepsOrder hinvoke hinitialized).make c arguments start)
  | prepare t =>
    exact fun s hs => wp_mono (hinitialized t start s hs) (fun _ _ h => h.1) fun _ h => h
  | setField o name value =>
    intro s hs
    rw [Entry.performWatched, wp_bind, wp_heap, wp_bind, wp_lift]
    refine ⟨fun after hset => ?_, fun _ _ => hs⟩
    obtain ⟨f, -, hstore⟩ := bind_eq_ok.mp hset
    obtain ⟨hinitialized, hrunning⟩ := keepsOrder_storeSlot s.heap hstore
    exact hs.of_eq hinitialized hrunning

theorem disciplined_runWatched (u : Universe) (entries : List Entry) :
    Disciplined u [] (Entry.runWatched u List.cons ⟨{}, []⟩ entries) := by
  suffices hrun : ∀ s, Disciplined u [] s →
    Disciplined u [] (Entry.runWatched u List.cons s entries) from
    hrun ⟨{}, []⟩ ⟨sound_nil u, fun _ => ⟨nofun, nofun⟩, rfl, .refl []⟩
  induction entries with
  | nil => exact fun _ hs => hs
  | cons e entries ih => exact fun s hs => ih _ (wp_const.mp (keepsOrder_performWatched e [] s hs))

end Evaluations

/-! ### Runs -/

theorem Sound.count_finishes {u : Universe} {notes : List Occurrence}
    (h : Sound u notes) (t : TypeId) :
    notes.count (.finishes t) ≤ 1 := by
  have htimely := h.timely
  clear h
  induction notes with
  | nil => exact Nat.zero_le 1
  | cons o notes ih =>
    have hrest := ih fun o' earlier hsuffix =>
      htimely o' earlier (hsuffix.trans (List.suffix_cons o notes))
    by_cases ho : o = .finishes t
    · have honce := ((htimely o notes (List.suffix_refl _)).finishes t ho).2
      have hcount : (o :: notes).count (.finishes t) = 0 + 1 := by
        rw [ho, List.count_cons_self, List.count_eq_zero.mpr honce]
      exact Nat.le_of_eq hcount
    · rwa [List.count_cons_of_ne ho]

/-- In every run everything that happens to initializers and types is in order, and no
initializer finishes twice: what is used is initialized or being initialized, and so is every
base of it that was not left behind. -/
theorem timely_run (u : Universe) (entries : List Entry) :
    let after := Entry.runWatched u List.cons ⟨{}, []⟩ entries
    after.heap = Entry.run u {} entries ∧ (∀ o earlier, o :: earlier <:+ after.notes →
      Timely u earlier o)
      ∧ ∀ t, after.notes.count (.finishes t) ≤ 1 :=
  have hsound := (disciplined_runWatched u entries).sound
  ⟨Entry.heap_runWatched ⟨{}, []⟩ entries, hsound.timely, hsound.count_finishes⟩

/-- Whatever is run, when a type is used, it and its bases have been initialized or are being
initialized. -/
def BasesFirst : Prop :=
  ∀ (u : Universe) (entries : List Entry), (∀ t ∈ u.types, t.complete = true) →
    let notes := (Entry.runWatched u List.cons ⟨{}, []⟩ entries).notes
    (∀ o earlier t, o :: earlier <:+ notes → o.uses? u = some t → ∀ b, u.Derives t b →
      Settled earlier b)
      ∧ ∀ t, notes.count (.finishes t) ≤ 1

/-- The initializer of `App.B` reads the static field of `App.D`, which derives from it, and then
fails. -/
def leaving : Universe :=
  let static (token : UInt32) (name : String) (kind : MethodKind) (body : Expr) : MethodRecord :=
    { token := ⟨token⟩, name, kind, flags := MethodFlags.static, signature := {},
      body := some body }
  let label (row : UInt32) (name : String) : TypeRecord :=
    { token := .ofParts .type row, space := "App", name, flags := 1, origin := .native,
      complete := true }
  let x : Expr := .load none (.member ⟨⟨1⟩, 0⟩)
  let fault : Expr := .binary .add (.constant (.boolean true)) (.constant (.i4 1))
  let b : TypeRecord :=
    { label 1 "B" with
      ownInitializer := some (static 0x06000001 ".cctor" .typeInitializer (.block [x, fault]))
      initializer := some ⟨⟨0⟩, .typeInitializer⟩
      methods := #[static 0x06000002 "Get" .method .empty] }
  let d : TypeRecord :=
    { label 2 "D" with
      base := some ⟨0⟩
      fields := #[{ token := ⟨0x04000001⟩, name := "X", signature := .i4, flags := FieldFlags.static }]
      methods := #[static 0x06000003 "Get" .method x] }
  ⟨#[b, d]⟩

/-- The failed call of `App.B.Get` leaves `App.D` initialized, so that `App.D.Get` runs without
`App.B`. -/
theorem not_basesFirst : ¬ BasesFirst := by
  intro hfirst
  have hnotes : (Entry.runWatched leaving List.cons ⟨{}, []⟩
      [.invoke ⟨⟨0⟩, .method 0⟩ none [], .invoke ⟨⟨1⟩, .method 0⟩ none []]).notes =
      [.leaves ⟨⟨1⟩, .method 0⟩, .reads ⟨1⟩ ⟨⟨1⟩, 0⟩, .enters ⟨⟨1⟩, .method 0⟩, .fails ⟨0⟩,
        .leaves ⟨⟨0⟩, .typeInitializer⟩,
        .reads ⟨1⟩ ⟨⟨1⟩, 0⟩, .finishes ⟨1⟩, .starts ⟨1⟩, .enters ⟨⟨0⟩, .typeInitializer⟩,
        .starts ⟨0⟩] := by
    decide +kernel
  have hsettled := (hfirst leaving _ (by decide)).1 _ _ ⟨1⟩
    ⟨[.leaves ⟨⟨1⟩, .method 0⟩, .reads ⟨1⟩ ⟨⟨1⟩, 0⟩], hnotes.symm⟩ (by decide +kernel)
    ⟨0⟩ (.single rfl)
  simp [Settled, underway] at hsettled

end TypeLoom
