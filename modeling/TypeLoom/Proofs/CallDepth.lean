import TypeLoom.Proofs.Onlookers

/-!
# The limit on the depth of calls

A call that is too deep fails, and every caller passes that fault on. So where a run does not end
with it, the limit had no part in the run: with more room everything happens as before. The limit is
kept, too: at no time are more bodies active than there are levels.
-/

namespace TypeLoom

open Attempt Watching Evaluation

/-! ### More room -/

def outOfRoom : Fault := .recursionLimit callDepthLimit

section Room

variable {ω α β : Type}

/-- Unless the first evaluation runs out of room, the second one ends like it and leaves what it
leaves. -/
def Outlasts (act act' : Watching ω α) : Prop := ∀ s, (act.start s).1 ≠ .error outOfRoom →
    act'.start s = act.start s

theorem Outlasts.of_failed {act act' : Watching ω α} (h : ∀ s, (act.start s).1 = .error outOfRoom) :
    Outlasts act act' :=
  fun s hs => absurd (h s) hs

theorem Outlasts.bind {act act' : Watching ω α} {next next' : α → Watching ω β}
    (h : Outlasts act act') (hnext : ∀ v, Outlasts (next v) (next' v)) : Outlasts (act >>= next)
    (act' >>= next') := by
  intro s hs
  rw [start_bind] at hs ⊢
  have hact := h s
  rw [start_bind]
  rcases hstart : act.start s with ⟨fault | v, mid⟩
  all_goals rw [hstart] at hs hact
  · have hfault : (Except.error fault : Except Fault α) ≠ .error outOfRoom :=
      fun heq => hs (by cases heq; rfl)
    rw [hact hfault]
  · rw [hact nofun]
    exact hnext v mid hs

theorem heedless_outlasts (watch : Occurrence → ω → ω) : Heedless watch watch Outlasts where
  lift := fun _ _ _ => rfl
  bind := Outlasts.bind
  heap := fun _ _ => rfl
  change := fun _ _ _ => rfl
  note := fun _ _ _ _ => rfl

/-- The outcome of an evaluation hides that it ran out of room; it comes out again if what
follows fails then. -/
theorem Outlasts.outcome_bind {act act' : Watching ω α} {next : Except Fault α → Watching ω β}
    (h : Outlasts act act')
    (hfails : ∀ s, ((next (.error outOfRoom)).start s).1 = .error outOfRoom) :
    Outlasts (act.outcome >>= next) (act'.outcome >>= next) := by
  intro s hs
  rw [start_bind, start_outcome] at hs ⊢
  rw [start_bind, start_outcome]
  have hroom : (act.start s).1 ≠ .error outOfRoom := by
    intro hfault
    rw [hfault] at hs
    exact hs (hfails _)
  rw [h s hroom]

end Room

section Levels

variable {ω : Type} {u : Universe} {watch : Occurrence → ω → ω}

theorem outlasts_body (m : MethodId) {α : Type} {act act' : Watching ω α} (h : Outlasts act act') :
    Outlasts (body watch m act) (body watch m act') :=
  Outlasts.bind (fun _ _ => rfl) fun _ => h.outcome_bind fun _ => rfl

theorem outlasts_startInitializer {invoke invoke' : MethodId → Watching ω Value}
    (hinvoke : ∀ m, Outlasts (invoke m) (invoke' m)) (t : TypeId) :
    Outlasts (startInitializer u watch invoke t) (startInitializer u watch invoke' t) := by
  have hR := heedless_outlasts watch
  refine hR.bind hR.heap fun h => ?_
  split
  · exact hR.pure ()
  · refine hR.bind (hR.change _) fun _ => hR.bind (hR.note _ rfl) fun _ => ?_
    exact (hR.toCongruent.runInitializer hinvoke t).outcome_bind fun _ => rfl

theorem checkCall_of_le {remaining remaining' : Nat} (hle : remaining ≤ remaining') (m : MethodId)
    (this : Option ObjectRef) (arguments : List Value) :
    checkCall u remaining m this arguments = .error outOfRoom
      ∨ checkCall u remaining' m this arguments = checkCall u remaining m this arguments := by
  unfold checkCall
  dsimp only
  iterate 3
    split
    · exact .inr rfl
  by_cases hroom : remaining = 0
  · rw [if_pos hroom]
    exact .inl rfl
  · rw [if_neg hroom, if_neg (by omega)]
    exact .inr rfl

theorem climbs_outlasts {below below' : Calls ω} {remaining remaining' : Nat}
    (hle : remaining ≤ remaining')
    (hinvoke : ∀ m this arguments,
      Outlasts (below.invoke m this arguments) (below'.invoke m this arguments))
    (hinitialized : ∀ t, Outlasts (below.initialized t) (below'.initialized t)) :
    Climbs u watch watch Outlasts (fun _ => Outlasts) below below' remaining remaining' := by
  have hR := heedless_outlasts watch
  have hbody : ∀ m frame, Outlasts (runBody u watch below m frame)
      (runBody u watch below' m frame) := fun m frame =>
    hR.bind (hR.lift _) fun e =>
      hR.bind (outlasts_body m (related_evaluate hR.toCongruent (hR.related hinvoke hinitialized)
        e)) fun _ => hR.pure _
  constructor
  case check =>
    intro m this arguments next next' hnext
    rcases checkCall_of_le (u := u) hle m this arguments with hfault | hsame
    · rw [hfault]
      exact Outlasts.of_failed fun _ => rfl
    · rw [hsame]
      exact hR.lift_bind _ fun _ h => hnext (room_of_checkCall h)
  case run => exact fun m frame _ _ => hbody m frame
  case runStatic => exact fun m _ frame _ _ _ _ _ hsame => hR.bind hsame fun _ => hbody m frame
  case stop => exact fun _ => hR.toCongruent.throw _
  case step =>
    exact fun t _ _ _ _ hinvoke hbase =>
      hR.toCongruent.initializeAfter hR.heap hbase (outlasts_startInitializer hinvoke t)

theorem outlasts_callsWithin (u : Universe) (watch : Occurrence → ω → ω)
    {remaining remaining' : Nat} (hle : remaining ≤ remaining') :
    (∀ m this arguments, Outlasts ((callsWithin u watch remaining).invoke m this arguments)
      ((callsWithin u watch remaining').invoke m this arguments))
    ∧ ∀ t, Outlasts ((callsWithin u watch remaining).initialized t)
        ((callsWithin u watch remaining').initialized t) := by
  induction remaining generalizing remaining' with
  | zero =>
    have hnone : ∀ {α : Type} (act : Watching ω α), Outlasts (throw outOfRoom) act :=
      fun _ => .of_failed fun _ => rfl
    cases remaining' with
    | zero => exact (climbs_outlasts hle (fun _ _ _ => hnone _) fun _ => hnone _).levelOver
    | succ _ => exact (climbs_outlasts hle (fun _ _ _ => hnone _) fun _ => hnone _).levelOver
  | succ remaining ih =>
    cases remaining' with
    | zero => exact absurd hle (Nat.not_succ_le_zero _)
    | succ remaining' =>
      obtain ⟨hinvoke, hinitialized⟩ := ih (Nat.le_of_succ_le_succ hle)
      exact (climbs_outlasts hle hinvoke hinitialized).levelOver

/-- A call that does not run out of room below so many active bodies ends alike below fewer. -/
theorem start_invokeAt {depth depth' : Nat} (hle : depth' ≤ depth) {m : MethodId}
    {this : Option ObjectRef} {arguments : List Value} {h : Heap}
    (hroom : ((u.invokeAt depth m this arguments).start h).1 ≠ .error outOfRoom) :
    (u.invokeAt depth' m this arguments).start h = (u.invokeAt depth m this arguments).start h := by
  obtain ⟨hinvoke, -⟩ :=
    outlasts_callsWithin u (fun _ (_ : Unit) => ()) (Nat.sub_le_sub_left hle callDepthLimit)
  unfold Universe.invokeAt unwatched at hroom ⊢
  rw [start_within] at hroom ⊢
  rw [start_within]
  exact congrArg (fun r : Except Fault Value × Watched Unit => (r.1, r.2.heap))
    (hinvoke m this arguments ⟨h, ()⟩ hroom)

end Levels

/-! ### Active bodies -/

/-- The methods whose bodies are active after these notes, newest first. -/
def active : List Occurrence → List MethodId
  | [] => []
  | .enters m :: earlier => m :: active earlier
  | .leaves _ :: earlier => (active earlier).tail
  | _ :: earlier => active earlier

theorem active_cons {o : Occurrence} (h : o.ofBody = false) (earlier : List Occurrence) :
    active (o :: earlier) = active earlier := by
  cases o <;> first | rfl | cases h

/-- The notes that were added leave the same bodies active, and at no time between were more than
so many others. -/
structure Excursion (room : Nat) (before after : List Occurrence) : Prop where
  grown : before <:+ after
  restored : active after = active before
  shallow : ∀ mid, before <:+ mid → mid <:+ after →
    (active mid).length ≤ (active before).length + room

namespace Excursion

variable {room : Nat} {before mid after : List Occurrence}

theorem refl (room : Nat) (notes : List Occurrence) : Excursion room notes notes where
  grown := List.suffix_refl notes
  restored := rfl
  shallow := fun mid hbefore hafter => by
    rw [hafter.eq_of_length_le hbefore.length_le]
    exact Nat.le_add_right _ _

theorem trans (h : Excursion room before mid) (h' : Excursion room mid after) :
    Excursion room before after where
  grown := h.grown.trans h'.grown
  restored := h'.restored.trans h.restored
  shallow := fun other hbefore hafter => by
    rcases List.suffix_or_suffix_of_suffix hafter h'.grown with hearly | hlate
    · exact h.shallow other hbefore hearly
    · rw [← h.restored]
      exact h'.shallow other hlate hafter

theorem aside {o : Occurrence} (h : o.ofBody = false) (room : Nat) (notes : List Occurrence) :
    Excursion room notes (o :: notes) where
  grown := List.suffix_cons o notes
  restored := active_cons h notes
  shallow := fun mid hbefore hafter => by
    rcases List.suffix_cons_iff.mp hafter with rfl | hshort
    · rw [active_cons h]
      exact Nat.le_add_right _ _
    · rw [hshort.eq_of_length_le hbefore.length_le]
      exact Nat.le_add_right _ _

theorem body (m : MethodId) (h : Excursion room (.enters m :: before) after) :
    Excursion (room + 1) before (.leaves m :: after) where
  grown := ((List.suffix_cons _ _).trans h.grown).trans (List.suffix_cons _ _)
  restored := by
    rw [active, h.restored]
    rfl
  shallow := fun mid hbefore hafter => by
    have hdeep : ∀ other, .enters m :: before <:+ other → other <:+ after →
        (active other).length ≤ (active before).length + (room + 1) := by
      intro other hother hwithin
      have hle := h.shallow other hother hwithin
      rw [active, List.length_cons] at hle
      omega
    rcases List.suffix_cons_iff.mp hafter with rfl | hshort
    · rw [active, h.restored]
      exact Nat.le_add_right _ _
    · rcases List.suffix_or_suffix_of_suffix hshort h.grown with hearly | hlate
      · rcases List.suffix_cons_iff.mp hearly with rfl | hnone
        · exact hdeep _ (List.suffix_refl _) h.grown
        · rw [hnone.eq_of_length_le hbefore.length_le]
          exact Nat.le_add_right _ _
      · exact hdeep mid hlate hshort

end Excursion

section Shallow

variable {u : Universe} {room : Nat}

def Shallow (room : Nat) {α : Type} (act : Watching (List Occurrence) α) : Prop :=
  ∀ start, Maintains (fun s => Excursion room start s.notes) act

theorem heedless_shallow (room : Nat) :
    Heedless List.cons List.cons fun act _ => Shallow room act where
  lift := fun result _ => maintains_lift result
  bind := fun hact hnext start => maintains_bind (hact start) fun v => hnext v start
  heap := fun _ _ h => h
  change := fun _ _ _ h => h
  note := fun _ hbody _ _ h => h.trans (.aside hbody room _)

theorem start_body {α : Type} (m : MethodId) (act : Watching (List Occurrence) α)
    (s : Watched (List Occurrence)) :
    ((body List.cons m act).start s).2.notes =
      .leaves m :: (act.start { s with notes := .enters m :: s.notes }).2.notes := rfl

theorem Shallow.body {α : Type} {act : Watching (List Occurrence) α} (h : Shallow room act)
    (m : MethodId) :
    Shallow (room + 1) (body List.cons m act) := by
  intro start s hs
  have hact : Excursion room (.enters m :: s.notes)
    (act.start { s with notes := .enters m :: s.notes }).2.notes :=
    wp_const.mp (h (.enters m :: s.notes) { s with notes := .enters m :: s.notes } (.refl room _))
  refine wp_const.mpr (hs.trans ?_)
  rw [start_body]
  exact hact.body m

/-- One level, when the one below it takes one level less. -/
theorem climbs_shallow (room : Nat) {below : Calls (List Occurrence)}
    (hinvoke : ∀ m this arguments, Shallow (room - 1) (below.invoke m this arguments))
    (hinitialized : ∀ t, Shallow (room - 1) (below.initialized t)) :
    Climbs u List.cons List.cons (fun act _ => Shallow room act) (fun _ act _ => Shallow room act)
        below below room room := by
  have hbody : ∀ m frame, room ≠ 0 → Shallow room (runBody u List.cons below m frame) := by
    intro m frame hroom start
    refine maintains_bind (maintains_lift _) fun e => maintains_bind ?_ fun _ => maintains_pure _
    have hR := heedless_shallow (room - 1)
    have hrelated : Related u List.cons List.cons (fun act _ =>
      Shallow (room - 1) act) below below :=
      hR.related hinvoke hinitialized
    have hlevel : Shallow (room - 1 + 1) (body List.cons m (evaluate u List.cons below frame e)) :=
      Shallow.body (related_evaluate hR.toCongruent hrelated e) m
    rw [Nat.sub_add_cancel (Nat.pos_of_ne_zero hroom)] at hlevel
    exact hlevel start
  exact {
    check := fun _ _ _ _ _ hnext start => maintains_lift_bind _ fun _ h =>
    hnext (room_of_checkCall h) start
    run := fun m frame hroom _ => hbody m frame hroom
    runStatic := fun m _ frame _ _ hroom _ _ hready start =>
      maintains_bind (hready start) fun _ => hbody m frame hroom start
    stop := fun _ _ => maintains_throw _
    step := fun _ _ _ _ _ hinvoke hbase start =>
      maintains_initializeAfter (fun b hb => hbase b hb start) <|
      maintains_startInitializer (fun _ _ _ _ h => h) (fun o ho =>
        (heedless_shallow room).note o ho start)
        fun m => hinvoke m start }

theorem shallow_callsWithin (u : Universe) (room : Nat) :
    (∀ m this arguments, Shallow room ((callsWithin u List.cons room).invoke m this arguments))
      ∧ ∀ t, Shallow room ((callsWithin u List.cons room).initialized t) := by
  induction room with
  | zero =>
    have hnone : ∀ {α : Type}, Shallow 0 (throw outOfRoom : Watching (List Occurrence) α) :=
      fun _ => maintains_throw _
    exact (climbs_shallow 0 (fun _ _ _ => hnone) fun _ => hnone).levelOver
  | succ room ih => exact (climbs_shallow (room + 1) ih.1 ih.2).levelOver

theorem shallow_performWatched (e : Entry) :
    Shallow callDepthLimit (e.performWatched u List.cons) := by
  obtain ⟨hinvoke, hinitialized⟩ := shallow_callsWithin u callDepthLimit
  intro start
  cases e with
  | invoke m this arguments => exact maintains_map (hinvoke m this arguments start)
  | instantiate c arguments =>
    have hrelated : Related u List.cons List.cons (fun act _ => Shallow callDepthLimit act)
      (callsAt u List.cons 0)
        (callsAt u List.cons 0) := (heedless_shallow callDepthLimit).related hinvoke hinitialized
    exact maintains_map (hrelated.make c arguments start)
  | prepare t => exact hinitialized t start
  | setField o name value =>
    exact maintains_bind (fun _ h => h) fun _ => maintains_bind (maintains_lift _) fun _ _ h => h

/-- Whatever is run, at no time are more bodies active than the limit allows, and in the end
there are none. -/
theorem excursion_runWatched (h : Heap) (entries : List Entry) :
    Excursion callDepthLimit [] (Entry.runWatched u List.cons ⟨h, []⟩ entries).notes := by
  suffices hrun : ∀ s : Watched (List Occurrence), Excursion callDepthLimit [] s.notes →
      Excursion callDepthLimit [] (Entry.runWatched u List.cons s entries).notes from hrun
      ⟨h, []⟩ (.refl _ _)
  induction entries with
  | nil => exact fun _ hs => hs
  | cons e entries ih => exact fun s hs => ih _ (wp_const.mp (shallow_performWatched e [] s hs))

end Shallow

/-! ### The limit -/

/-- The limit has no part in a run that does not end with its fault: below fewer active bodies
the run ends alike and leaves the same heap. And whatever is run, never are more bodies active
than the limit allows. -/
theorem callDepthLimit_sound (u : Universe) :
    (∀ (m : MethodId) (this : Option ObjectRef) (arguments : List Value) (h : Heap)
      (depth depth' : Nat), depth' ≤ depth →
      ((u.invokeAt depth m this arguments).start h).1 ≠ .error (.recursionLimit callDepthLimit) →
        (u.invokeAt depth' m this arguments).start h = (u.invokeAt depth m this arguments).start h)
    ∧ ∀ (h : Heap) (entries : List Entry), let after := Entry.runWatched u List.cons ⟨h, []⟩ entries
      after.heap = Entry.run u h entries ∧ ∀ earlier, earlier <:+ after.notes →
      (active earlier).length ≤ callDepthLimit := by
  refine ⟨fun m this arguments h depth depth' hle hroom => start_invokeAt hle hroom,
    fun h entries => ?_⟩
  refine ⟨Entry.heap_runWatched ⟨h, []⟩ entries, fun earlier hearlier => ?_⟩
  have hle := (excursion_runWatched (u := u) h entries).shallow earlier (List.nil_suffix) hearlier
  rwa [active, List.length_nil, Nat.zero_add] at hle

/-- `App.C` has a static method that calls itself until its argument is zero. -/
def countdown : Universe :=
  let again : Expr :=
    .call none (.member ⟨⟨0⟩, .method 0⟩) [.binary .subtract (.argument 0) (.constant (.i4 1))]
    .nonVirtual
  let body : Expr := .choose (.binary .equal (.argument 0) (.constant (.i4 0))) (.argument 0) again
  let down : MethodRecord :=
    { token := ⟨0x06000001⟩, name := "Down", kind := .method, flags := MethodFlags.static
      signature := { returns := .i4, parameters := [⟨"n", .i4⟩] }, body := some body }
  ⟨#[{ token := ⟨0x02000001⟩, space := "App", name := "C", flags := 1, origin := .native, complete := true, methods := #[down] }]⟩

/-- Three bodies fit below 253 active ones. -/
theorem callDepthLimit_sound_countdown :
    let call depth := (countdown.invokeAt depth ⟨⟨0⟩, .method 0⟩ none [.i4 2]).start {}
    (call 253).1.toOption = some (.i4 0) ∧ call 0 = call 253 := by
  have hends : ((countdown.invokeAt 253 ⟨⟨0⟩, .method 0⟩ none [.i4 2]).start {}).1.toOption
      = some (.i4 0) := by
    decide +kernel
  refine ⟨hends, (callDepthLimit_sound countdown).1 _ _ _ _ 253 0 (by decide) fun hfault => ?_⟩
  rw [hfault] at hends
  cases hends

end TypeLoom
