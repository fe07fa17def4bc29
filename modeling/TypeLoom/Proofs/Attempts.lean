import TypeLoom.Fault

/-!
# Reasoning about attempts

The weakest precondition of an attempt speaks of both of its ends: the value and the state of a
success, and the state that a failure leaves behind. The laws below turn a question about a composed
attempt into questions about its steps; loops are handled by an invariant over the items that are
done.
-/

namespace TypeLoom

/-! ### Checks -/

section Checks

variable {α β : Type} {c : Prop} [Decidable c] {fault : Fault}

theorem guard_bind_eq_ok {next : β → Except Fault α} {rest : Except Fault α} {v : α} :
    (if c then (throw fault : Except Fault β) >>= next else rest) = .ok v ↔ ¬ c ∧ rest = .ok v := by
  by_cases h : c
  · simp only [h, not_true_eq_false, false_and, iff_false]
    exact nofun
  · simp [h]

theorem guard_eq_ok {v : β} :
    (if c then (throw fault : Except Fault β) else pure v) = .ok v ↔ ¬ c := by
  by_cases h : c
  · simp only [h, not_true_eq_false, iff_false]
    exact nofun
  · simp only [h, not_false_eq_true, iff_true]
    rfl

@[simp] theorem ok_bind (w : β) (next : β → Except Fault α) :
    (Except.ok w : Except Fault β) >>= next = next w := rfl

theorem bind_eq_ok {x : Except Fault β} {next : β → Except Fault α} {v : α} :
    x >>= next = .ok v ↔ ∃ w, x = .ok w ∧ next w = .ok v := by
  cases x with
  | error f => exact ⟨nofun, nofun⟩
  | ok w => exact ⟨fun h => ⟨w, rfl, h⟩, fun ⟨_, hw, h⟩ => by cases hw; exact h⟩

theorem forM_eq_ok {items : List β} {check : β → Except Fault Unit} :
    items.forM check = .ok () ↔ ∀ item ∈ items, check item = .ok () := by
  induction items with
  | nil => exact ⟨fun _ _ h => absurd h List.not_mem_nil, fun _ => rfl⟩
  | cons item items ih =>
    rw [show (item :: items).forM check = check item >>= fun _ => items.forM check from rfl,
      bind_eq_ok]
    constructor
    · rintro ⟨⟨⟩, hitem, hrest⟩
      exact List.forall_mem_cons.mpr ⟨hitem, ih.mp hrest⟩
    · intro h
      obtain ⟨hitem, hrest⟩ := List.forall_mem_cons.mp h
      exact ⟨⟨⟩, hitem, ih.mpr hrest⟩

theorem mapM_cons_eq_ok {f : β → Except Fault α} {item : β} {items : List β} {vs : List α} :
    (item :: items).mapM f = .ok vs ↔ ∃ v rest, f item = .ok v ∧ items.mapM f = .ok rest
    ∧ vs = v :: rest := by
  rw [List.mapM_cons, bind_eq_ok]
  constructor
  · rintro ⟨v, hv, hrest⟩
    obtain ⟨rest, hitems, hvs⟩ := bind_eq_ok.mp hrest
    cases hvs
    exact ⟨v, rest, hv, hitems, rfl⟩
  · rintro ⟨v, rest, hv, hitems, rfl⟩
    exact ⟨v, hv, bind_eq_ok.mpr ⟨rest, hitems, rfl⟩⟩

theorem length_mapM {f : β → Except Fault α} {items : List β} {vs : List α}
    (h : items.mapM f = .ok vs) :
    vs.length = items.length := by
  induction items generalizing vs with
  | nil =>
    cases h
    rfl
  | cons item items ih =>
    obtain ⟨v, rest, -, hrest, rfl⟩ := mapM_cons_eq_ok.mp h
    rw [List.length_cons, List.length_cons, ih hrest]

theorem exists_of_mem_mapM {f : β → Except Fault α} {items : List β} {vs : List α}
    (h : items.mapM f = .ok vs) {v : α} (hv : v ∈ vs) : ∃ item ∈ items, f item = .ok v := by
  induction items generalizing vs with
  | nil =>
    cases h
    exact absurd hv List.not_mem_nil
  | cons item items ih =>
    obtain ⟨first, rest, hfirst, hrest, rfl⟩ := mapM_cons_eq_ok.mp h
    rcases List.mem_cons.mp hv with rfl | hv
    · exact ⟨item, List.mem_cons_self, hfirst⟩
    · obtain ⟨other, hother, heq⟩ := ih hrest hv
      exact ⟨other, List.mem_cons_of_mem item hother, heq⟩

theorem exists_mem_of_mapM {f : β → Except Fault α} {items : List β} {vs : List α}
    (h : items.mapM f = .ok vs) {item : β} (hitem : item ∈ items) : ∃ v ∈ vs, f item = .ok v := by
  induction items generalizing vs with
  | nil => exact absurd hitem List.not_mem_nil
  | cons first items ih =>
    obtain ⟨v, rest, hv, hrest, rfl⟩ := mapM_cons_eq_ok.mp h
    rcases List.mem_cons.mp hitem with rfl | hitem
    · exact ⟨v, List.mem_cons_self, hv⟩
    · obtain ⟨w, hw, heq⟩ := ih hrest hitem
      exact ⟨w, List.mem_cons_of_mem v hw, heq⟩

theorem mapM_inverse {f : β → Except Fault α} {g : α → Except Fault β}
    {items : List β} {vs : List α} (h : items.mapM f = .ok vs)
    (hg : ∀ item ∈ items, ∀ v, f item = .ok v → g v = .ok item) : vs.mapM g = .ok items := by
  induction items generalizing vs with
  | nil =>
    cases h
    rfl
  | cons item items ih =>
    obtain ⟨v, rest, hv, hrest, rfl⟩ := mapM_cons_eq_ok.mp h
    obtain ⟨hitem, hitems⟩ := List.forall_mem_cons.mp hg
    exact mapM_cons_eq_ok.mpr ⟨item, items, hitem v hv, ih hrest hitems, rfl⟩

end Checks

namespace Attempt

variable {σ τ α β : Type}

/-! ### Outcomes -/

@[simp] theorem start_pure (v : α) (s : σ) : (pure v : Attempt σ α).start s = (.ok v, s) := rfl

@[simp] theorem start_throw (f : Fault) (s : σ) : (throw f : Attempt σ α).start s = (.error f, s) :=
  rfl

@[simp] theorem start_get (s : σ) : (get : Attempt σ σ).start s = (.ok s, s) := rfl

@[simp] theorem start_set (s after : σ) : (set after : Attempt σ PUnit).start s = (.ok ⟨⟩, after) :=
  rfl

@[simp] theorem start_modify (f : σ → σ) (s : σ) :
    (modify f : Attempt σ PUnit).start s = (.ok ⟨⟩, f s) := rfl

@[simp] theorem start_within (part : σ → τ) (restore : τ → σ → σ) (act : Attempt τ α) (s : σ) :
    (within part restore act).start s = ((act.start (part s)).1,
      restore (act.start (part s)).2 s) := rfl

theorem forM_cons (item : α) (items : List α) (body : α → Attempt σ PUnit) :
    (item :: items).forM body = body item >>= fun _ => items.forM body := rfl

theorem start_bind (act : Attempt σ α) (next : α → Attempt σ β) (s : σ) :
    (act >>= next).start s =
      match act.start s with
      | (.ok v, after) => (next v).start after
      | (.error f, after) => (.error f, after) := by
  unfold start
  change (act.run.run s |> fun p => (ExceptT.bindCont next p.1).run p.2) = _
  rcases act.run.run s with ⟨r | r, after⟩ <;> rfl

theorem start_discard (act : Attempt σ α) (s : σ) :
    ((discard act).start s).2 = (act.start s).2 := by
  rw [show discard act = act >>= fun _ => pure ⟨⟩ from rfl, start_bind]
  rcases act.start s with ⟨r | r, after⟩ <;> rfl

/-- A composed attempt succeeds when both of its steps do. -/
theorem start_bind_ok {act : Attempt σ α} {next : α → Attempt σ β} {s after : σ} {v : β} :
    (act >>= next).start s = (.ok v, after) ↔
      ∃ u mid, act.start s = (.ok u, mid) ∧ (next u).start mid = (.ok v, after) := by
  rw [start_bind]
  rcases act.start s with ⟨r | r, mid⟩
  · simp
  · constructor
    · intro h
      exact ⟨r, mid, rfl, h⟩
    · rintro ⟨u, mid', h, hn⟩
      cases h
      exact hn

/-- A composed attempt fails when its first step does, or else its second. -/
theorem start_bind_error {act : Attempt σ α} {next : α → Attempt σ β} {s after : σ} {f : Fault} :
    (act >>= next).start s = (.error f, after) ↔
      act.start s = (.error f, after) ∨ ∃ v mid, act.start s = (.ok v, mid)
      ∧ (next v).start mid = (.error f, after) := by
  rw [start_bind]
  rcases act.start s with ⟨r | r, mid⟩
  · simp
  · constructor
    · intro h
      exact .inr ⟨r, mid, rfl, h⟩
    · rintro (h | ⟨v, mid', h, hn⟩)
      · cases h
      · cases h
        exact hn

/-! ### Weakest preconditions -/

/-- The attempt, started here, ends in success with `post` or in failure with `fail`. -/
def wp (act : Attempt σ α) (post : α → σ → Prop) (fail : σ → Prop) (s : σ) : Prop :=
  match act.start s with
  | (.ok v, after) => post v after
  | (.error _, after) => fail after

variable {post : α → σ → Prop} {fail : σ → Prop} {s : σ}

theorem wp_ok {act : Attempt σ α} {v : α} {after : σ} (h : act.wp post fail s)
    (hv : act.start s = (.ok v, after)) : post v after := by
  unfold wp at h
  rw [hv] at h
  exact h

theorem wp_iff {act : Attempt σ α} :
    act.wp post fail s ↔
      (∀ v after, act.start s = (.ok v, after) → post v after)
        ∧ ∀ f after, act.start s = (.error f, after) → fail after := by
  unfold wp
  rcases act.start s with ⟨r | r, after⟩ <;> simp

/-- Where both ends mean the same, it does not matter how the attempt ends. -/
theorem wp_const {act : Attempt σ α} {always : σ → Prop} :
    act.wp (fun _ => always) always s ↔ always (act.start s).2 := by
  unfold wp
  rcases act.start s with ⟨r | r, after⟩ <;> rfl

theorem wp_mono {act : Attempt σ α} {post' : α → σ → Prop} {fail' : σ → Prop}
    (h : act.wp post fail s) (hpost : ∀ v after, post v after → post' v after)
    (hfail : ∀ after, fail after → fail' after) :
    act.wp post' fail' s := by
  unfold wp at h ⊢
  revert h
  rcases act.start s with ⟨r | r, after⟩
  · exact hfail after
  · exact hpost r after

@[simp] theorem wp_pure (v : α) : (pure v : Attempt σ α).wp post fail s ↔ post v s := Iff.rfl

@[simp] theorem wp_throw (f : Fault) : (throw f : Attempt σ α).wp post fail s ↔ fail s := Iff.rfl

@[simp] theorem wp_get {post : σ → σ → Prop} : (get : Attempt σ σ).wp post fail s ↔ post s s :=
  Iff.rfl

@[simp] theorem wp_set {post : PUnit → σ → Prop} (after : σ) :
    (set after : Attempt σ PUnit).wp post fail s ↔ post ⟨⟩ after := Iff.rfl

@[simp] theorem wp_modify {post : PUnit → σ → Prop} (f : σ → σ) :
    (modify f : Attempt σ PUnit).wp post fail s ↔ post ⟨⟩ (f s) := Iff.rfl

@[simp] theorem wp_of (f : σ → Except Fault α × σ) :
    (of f).wp post fail s ↔
      match f s with
      | (.ok v, after) => post v after
      | (.error _, after) => fail after := Iff.rfl

@[simp] theorem wp_lift (r : Except Fault α) :
    (lift r : Attempt σ α).wp post fail s ↔ (∀ v, r = .ok v → post v s)
    ∧ (∀ f, r = .error f → fail s) := by
  cases r <;> simp [wp, start_lift]

@[simp] theorem wp_within (part : σ → τ) (restore : τ → σ → σ) (act : Attempt τ α) :
    (within part restore act).wp post fail s ↔
      act.wp (fun v inner => post v (restore inner s)) (fun inner => fail (restore inner s))
      (part s) := by
  unfold wp
  rw [start_within]
  rcases act.start (part s) with ⟨r | r, inner⟩ <;> rfl

@[simp] theorem wp_onFault (repair : σ → σ) (act : Attempt σ α) :
    (onFault repair act).wp post fail s ↔ act.wp post (fun after => fail (repair after)) s := by
  rw [onFault, wp_of]
  unfold wp
  rcases act.start s with ⟨r | r, after⟩ <;> rfl

@[simp] theorem wp_recast (change : Fault → Fault) (act : Attempt σ α) :
    (recast change act).wp post fail s ↔ act.wp post fail s := by
  rw [recast, wp_of]
  unfold wp
  rcases act.start s with ⟨r | r, after⟩ <;> rfl

@[simp] theorem wp_outcome {post : Except Fault α → σ → Prop} (act : Attempt σ α) :
    act.outcome.wp post fail s ↔ post (act.start s).1 (act.start s).2 := Iff.rfl

@[simp] theorem wp_bind {post : β → σ → Prop} (act : Attempt σ α) (next : α → Attempt σ β) :
    (act >>= next).wp post fail s ↔ act.wp (fun v after => (next v).wp post fail after) fail s := by
  unfold wp
  rw [start_bind]
  rcases act.start s with ⟨r | r, after⟩ <;> rfl

@[simp] theorem wp_map {post : β → σ → Prop} (f : α → β) (act : Attempt σ α) :
    (f <$> act).wp post fail s ↔ act.wp (fun v after => post (f v) after) fail s := by
  rw [← bind_pure_comp, wp_bind]
  rfl

@[simp] theorem wp_ite {c : Prop} [Decidable c] (yes no : Attempt σ α) :
    (if c then yes else no).wp post fail s ↔ (c → yes.wp post fail s)
    ∧ (¬c → no.wp post fail s) := by
  by_cases h : c <;> simp [h]

theorem wp_lift_bind {post : β → σ → Prop} {r : Except Fault α} {v : α}
    {next : α → Attempt σ β} (h : r = .ok v) (hnext : (next v).wp post fail s) :
    (lift r >>= next).wp post fail s := by
  rw [wp_bind, h, wp_lift]
  constructor
  · rintro _ ⟨⟩
    exact hnext
  · intro f hf
    cases hf

/-- The step for the rule of composition when the first attempt already has a specification. -/
theorem wp_step {post : β → σ → Prop} {mid : α → σ → Prop} {fail' : σ → Prop} {act : Attempt σ α}
    {next : α → Attempt σ β} (h : act.wp mid fail' s)
    (hnext : ∀ v after, mid v after → (next v).wp post fail after) (hfail : ∀ after,
      fail' after → fail after) :
    (act >>= next).wp post fail s := by
  rw [wp_bind]
  exact wp_mono h hnext hfail

theorem wp_and {act : Attempt σ α} {post' : α → σ → Prop} {fail' : σ → Prop}
    (h : act.wp post fail s) (h' : act.wp post' fail' s) :
    act.wp (fun v after => post v after ∧ post' v after) (fun after => fail after
        ∧ fail' after) s := by
  unfold wp at h h' ⊢
  revert h h'
  rcases act.start s with ⟨r | r, after⟩ <;> exact fun h h' => ⟨h, h'⟩

/-! ### Loops -/

/-- An invariant over the items that are done carries a loop; a failure ends it wherever it is. -/
theorem wp_forIn {body : α → Attempt σ β} {I : List α → σ → Prop} (items : List α)
    (hstep : ∀ before item after, items = before ++ item :: after → ∀ mid, I before mid →
      (body item).wp (fun _ => I (before ++ [item])) fail mid)
    (hstart : I [] s) :
    (forIn items PUnit.unit (fun item _ => do let _ ← body item; pure (.yield PUnit.unit)) :
      Attempt σ PUnit).wp
      (fun _ => I items) fail s := by
  suffices hgo : ∀ rest before mid, items = before ++ rest → I before mid →
      (forIn rest PUnit.unit (fun item _ => do let _ ← body item; pure (.yield PUnit.unit)) :
        Attempt σ PUnit).wp
        (fun _ => I items) fail mid from hgo items [] s rfl hstart
  intro rest
  induction rest with
  | nil =>
    intro before mid heq hinv
    rw [List.append_nil] at heq
    subst heq
    exact hinv
  | cons item rest ih =>
    intro before mid heq hinv
    rw [List.forIn_cons, wp_bind, wp_bind]
    refine wp_mono (hstep before item rest heq mid hinv) ?_ fun _ h => h
    intro _ next hnext
    exact ih (before ++ [item]) next (by simp [heq]) hnext

theorem wp_forM {body : α → Attempt σ PUnit} {I : List α → σ → Prop} (items : List α)
    (hstep : ∀ before item after, items = before ++ item :: after → ∀ mid, I before mid →
      (body item).wp (fun _ => I (before ++ [item])) fail mid)
    (hstart : I [] s) : (items.forM body).wp (fun _ => I items) fail s := by
  suffices hgo : ∀ rest before mid, items = before ++ rest → I before mid →
      (rest.forM body).wp (fun _ => I items) fail mid from hgo items [] s rfl hstart
  intro rest
  induction rest with
  | nil =>
    intro before mid heq hinv
    rw [List.append_nil] at heq
    subst heq
    exact hinv
  | cons item rest ih =>
    intro before mid heq hinv
    refine wp_step (hstep before item rest heq mid hinv) ?_ fun _ h => h
    intro _ next hnext
    exact ih (before ++ [item]) next (by simp [heq]) hnext

theorem wp_mapM {body : α → Attempt σ β} {I : List (α × β) → σ → Prop} (items : List α)
    (hstep : ∀ before item after, items = before.map (·.1) ++ item :: after → ∀ mid, I before mid →
      (body item).wp (fun v => I (before ++ [(item, v)])) fail mid)
    (hstart : I [] s) :
    (items.mapM body).wp (fun vs after => items.length = vs.length
        ∧ I (items.zip vs) after) fail s := by
  suffices hgo : ∀ (rest : List α) (before : List (α × β)) (mid : σ),
    items = before.map (·.1) ++ rest →
      I before mid →
      (rest.mapM body).wp
        (fun vs after => rest.length = vs.length ∧ I (before ++ rest.zip vs) after) fail mid by
    simpa using hgo items [] s rfl hstart
  intro rest
  induction rest with
  | nil =>
    intro before mid _ hinv
    simpa using hinv
  | cons item rest ih =>
    intro before mid heq hinv
    rw [List.mapM_cons, wp_bind]
    refine wp_mono (hstep before item rest heq mid hinv) ?_ fun _ h => h
    intro v next hnext
    rw [wp_bind]
    refine wp_mono (ih (before ++ [(item, v)]) next (by simp [heq]) hnext) ?_ fun _ h => h
    intro vs after hvs
    simpa using hvs

/-! ### Invariants -/

/-- However the attempt ends, what held still holds. -/
def Maintains (P : σ → Prop) (act : Attempt σ α) : Prop := ∀ s, P s → act.wp (fun _ => P) P s

variable {P : σ → Prop}

theorem maintains_pure (v : α) : Maintains P (pure v) := fun _ h => h

theorem maintains_throw (f : Fault) : Maintains P (throw f : Attempt σ α) := fun _ h => h

theorem maintains_get : Maintains P get := fun _ h => h

theorem maintains_get_bind {next : σ → Attempt σ α} (h : ∀ s, P s → (next s).wp (fun _ => P) P s) :
    Maintains P (get >>= next) := by
  intro s hs
  rw [wp_bind, wp_get]
  exact h s hs

theorem maintains_lift (r : Except Fault α) : Maintains P (lift r) := by
  intro s h
  rw [wp_lift]
  exact ⟨fun _ _ => h, fun _ _ => h⟩

theorem maintains_modify {f : σ → σ} (hf : ∀ s, P s → P (f s)) :
    Maintains P (modify f : Attempt σ PUnit) := hf

theorem maintains_bind {act : Attempt σ α} {next : α → Attempt σ β} (h : Maintains P act)
    (hnext : ∀ v, Maintains P (next v)) :
    Maintains P (act >>= next) := by
  intro s hs
  rw [wp_bind]
  exact wp_mono (h s hs) (fun v mid hmid => hnext v mid hmid) fun _ hafter => hafter

/-- However the attempt ends, what held has led to this. -/
def Leads (P Q : σ → Prop) (act : Attempt σ α) : Prop := ∀ s, P s → act.wp (fun _ => Q) Q s

theorem leads_bind {Q : σ → Prop} {act : Attempt σ α} {next : α → Attempt σ β} (h : Leads P Q act)
    (hnext : ∀ v, Maintains Q (next v)) : Leads P Q (act >>= next) := by
  intro s hs
  rw [wp_bind]
  exact wp_mono (h s hs) (fun v mid hmid => hnext v mid hmid) fun _ hafter => hafter

theorem Maintains.leads_bind {Q : σ → Prop} {act : Attempt σ α} {next : α → Attempt σ β}
    (h : Maintains P act) (hQ : ∀ s, P s → Q s) (hnext : ∀ v, Leads P Q (next v)) :
    Leads P Q (act >>= next) := by
  intro s hs
  rw [wp_bind]
  exact wp_mono (h s hs) (fun v mid hmid => hnext v mid hmid) hQ

/-- However the attempt ends, what held still holds, and an answer has this property. -/
def Yields (P : σ → Prop) (Q : α → Prop) (act : Attempt σ α) : Prop :=
  ∀ s, P s → act.wp (fun v after => P after ∧ Q v) P s

theorem yields_pure {Q : α → Prop} {v : α} (h : Q v) : Yields P Q (pure v) := fun _ hs => ⟨hs, h⟩

theorem yields_bind {Q : β → Prop} {act : Attempt σ α} {next : α → Attempt σ β}
    (h : Maintains P act) (hnext : ∀ v, Yields P Q (next v)) : Yields P Q (act >>= next) := by
  intro s hs
  rw [wp_bind]
  exact wp_mono (h s hs) (fun v mid hmid => hnext v mid hmid) fun _ hafter => hafter

theorem yields_answer {Q : α → Prop} {R : β → Prop} {act : Attempt σ α} {next : α → Attempt σ β}
    (h : Yields P Q act) (hnext : ∀ v, Q v → Yields P R (next v)) : Yields P R (act >>= next) := by
  intro s hs
  rw [wp_bind]
  exact wp_mono (h s hs) (fun v mid hmid => hnext v hmid.2 mid hmid.1) fun _ hafter => hafter

theorem maintains_answer {Q : α → Prop} {act : Attempt σ α} {next : α → Attempt σ β}
    (h : Yields P Q act) (hnext : ∀ v, Q v → Maintains P (next v)) :
    Maintains P (act >>= next) := by
  intro s hs
  rw [wp_bind]
  exact wp_mono (h s hs) (fun v mid hmid => hnext v hmid.2 mid hmid.1) fun _ hafter => hafter

theorem Yields.maintains {Q : α → Prop} {act : Attempt σ α} (h : Yields P Q act) :
    Maintains P act := fun s hs =>
  wp_mono (h s hs) (fun _ _ hafter => hafter.1) fun _ hafter => hafter

theorem maintains_lift_bind (r : Except Fault α) {next : α → Attempt σ β}
    (h : ∀ v, r = .ok v → Maintains P (next v)) :
    Maintains P (lift r >>= next) := by
  intro s hs
  rw [wp_bind, wp_lift]
  exact ⟨fun v hv => h v hv s hs, fun _ _ => hs⟩

theorem maintains_map {f : α → β} {act : Attempt σ α} (h : Maintains P act) :
    Maintains P (f <$> act) := by
  intro s hs
  rw [wp_map]
  exact h s hs

theorem maintains_ite {c : Prop} [Decidable c] {yes no : Attempt σ α} (hyes : Maintains P yes)
    (hno : Maintains P no) :
    Maintains P (if c then yes else no) := by
  by_cases h : c
  · rwa [if_pos h]
  · rwa [if_neg h]

theorem maintains_option {body : β → Attempt σ α} (item : Option β)
    (h : ∀ v, Maintains P (body v)) :
    Maintains P (item.mapM body) := by
  cases item with
  | none => exact maintains_pure _
  | some v =>
    rw [Option.mapM_some]
    exact maintains_map (h v)

theorem maintains_forIn {body : β → Attempt σ α} (items : List β)
    (h : ∀ item ∈ items, Maintains P (body item)) :
    Maintains P (forIn items PUnit.unit (fun item _ =>
      do let _ ← body item; pure (.yield PUnit.unit)) :
      Attempt σ PUnit) := by
  intro s hs
  refine wp_forIn (I := fun _ => P) items (fun before item after heq mid hmid => ?_) hs
  have hitem : item ∈ items := by
    rw [heq]
    simp
  exact h item hitem mid hmid

theorem maintains_mapM {body : β → Attempt σ α} (items : List β)
    (h : ∀ item ∈ items, Maintains P (body item)) :
    Maintains P (items.mapM body) := by
  intro s hs
  have hone : ∀ (before : List (β × α)) item after, items = before.map (·.1) ++ item :: after →
    ∀ mid, P mid →
      (body item).wp (fun _ => P) P mid := by
    intro before item after heq mid hmid
    have hitem : item ∈ items := by
      rw [heq]
      simp
    exact h item hitem mid hmid
  exact wp_mono (wp_mapM (I := fun _ => P) items hone hs) (fun _ _ hafter => hafter.2) fun _
    hafter => hafter

theorem yields_mapM {Q : α → Prop} {body : β → Attempt σ α} (items : List β)
    (h : ∀ item ∈ items, Yields P Q (body item)) :
    Yields P (fun vs => ∀ v ∈ vs, Q v) (items.mapM body) := by
  intro s hs
  have hone : ∀ (before : List (β × α)) item after, items = before.map (·.1) ++ item :: after →
    ∀ mid,
      P mid ∧ (∀ pair ∈ before, Q pair.2) →
      (body item).wp (fun v mid => P mid ∧ ∀ pair ∈ before ++ [(item, v)], Q pair.2) P mid := by
    rintro before item after heq mid ⟨hmid, hbefore⟩
    have hitem : item ∈ items := by
      rw [heq]
      simp
    refine wp_mono (h item hitem mid hmid) (fun v after hafter => ⟨hafter.1, ?_⟩) fun _ hafter =>
      hafter
    rw [List.forall_mem_append, List.forall_mem_singleton]
    exact ⟨hbefore, hafter.2⟩
  refine wp_mono (wp_mapM (I := fun done mid => P mid ∧ ∀ pair ∈ done, Q pair.2) items hone
    ⟨hs, fun _ hnone => absurd hnone List.not_mem_nil⟩) (fun vs after hafter =>
      ⟨hafter.2.1, fun v hv => ?_⟩) fun _ hafter => hafter
  have hvalues : (items.zip vs).map (·.2) = vs := List.map_snd_zip (Nat.le_of_eq hafter.1.symm)
  rw [← hvalues] at hv
  obtain ⟨pair, hpair, rfl⟩ := List.mem_map.mp hv
  exact hafter.2.2 pair hpair

theorem maintains_forM {body : β → Attempt σ PUnit} (items : List β)
    (h : ∀ item ∈ items, Maintains P (body item)) :
    Maintains P (items.forM body) := by
  induction items with
  | nil => exact maintains_pure _
  | cons item items ih =>
    obtain ⟨hitem, hitems⟩ := List.forall_mem_cons.mp h
    exact maintains_bind hitem fun _ => ih hitems

theorem maintains_foldlM {body : α → β → Attempt σ α} (items : List β)
    (h : ∀ v item, Maintains P (body v item)) (first : α) :
    Maintains P (items.foldlM body first) := by
  induction items generalizing first with
  | nil => exact maintains_pure _
  | cons item items ih =>
    rw [List.foldlM_cons]
    exact maintains_bind (h first item) ih

theorem maintains_outcome {act : Attempt σ α} (h : Maintains P act) : Maintains P act.outcome := by
  intro s hs
  have hafter : P (act.start s).2 := wp_const.mp (h s hs)
  exact hafter

theorem maintains_recast {act : Attempt σ α} (change : Fault → Fault) (h : Maintains P act) :
    Maintains P (act.recast change) := fun s hs => (wp_recast change act).mpr (h s hs)

theorem maintains_within {τ : Type} {Q : τ → Prop} {part : σ → τ} {restore : τ → σ → σ}
    {act : Attempt τ α} (hact : Maintains Q act) (hpart : ∀ s, P s → Q (part s))
    (hrestore : ∀ inner s, P s → Q inner → P (restore inner s)) :
    Maintains P (act.within part restore) := by
  intro s hs
  rw [wp_within]
  exact wp_mono (hact _ (hpart s hs)) (fun _ inner hinner => hrestore inner s hs hinner)
      fun inner hinner =>
    hrestore inner s hs hinner

end Attempt

end TypeLoom
