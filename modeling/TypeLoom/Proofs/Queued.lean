import TypeLoom.Proofs.Declaring
import TypeLoom.Proofs.Wholeness

/-!
# Bodies on their way

While a batch is generated, a method of a new type may lack its body as long as the body is queued.
The record of such a type is covered by the queue; most steps do not touch what this says, and the
others add a method together with its place in the queue.
-/

namespace TypeLoom

open Attempt

/-! ### Records -/

namespace TypeRecord

variable {t : TypeId} {queue queue' : List Attachment} {r r' mid : TypeRecord}

/-- What the check of a finished type asks of a method. -/
def Passes (r : TypeRecord) (m : MethodRecord) : Prop :=
  if m.isAbstract then r.isAbstract = true else m.body.isSome = true

/-- Every method passes the check, or its body is queued. -/
structure Covered (t : TypeId) (queue : List Attachment) (r : TypeRecord) : Prop where
  initializer : r.initializer = r.ownInitializer.map fun _ => ⟨t, .typeInitializer⟩
  methods : ∀ slot m, r.method? slot = some m → r.Passes m ∨ ∃ body, .body t ⟨t, slot⟩ body ∈ queue

/-- Neither methods nor flags have changed. -/
structure Aside (r r' : TypeRecord) : Prop where
  flags : r'.flags = r.flags
  origin : r'.origin = r.origin
  complete : r'.complete = r.complete
  methods : r'.methods = r.methods
  constructors : r'.constructors = r.constructors
  ownInitializer : r'.ownInitializer = r.ownInitializer
  initializer : r'.initializer = r.initializer

theorem Aside.refl (r : TypeRecord) : Aside r r := ⟨rfl, rfl, rfl, rfl, rfl, rfl, rfl⟩

theorem Aside.trans (h : Aside r mid) (h' : Aside mid r') : Aside r r' :=
  ⟨h'.flags.trans h.flags, h'.origin.trans h.origin, h'.complete.trans h.complete,
    h'.methods.trans h.methods,
    h'.constructors.trans h.constructors, h'.ownInitializer.trans h.ownInitializer,
    h'.initializer.trans h.initializer⟩

theorem Aside.method? (h : Aside r r') (slot : Slot) : r'.method? slot = r.method? slot := by
  cases slot <;> simp only [TypeRecord.method?, h.methods, h.constructors, h.ownInitializer]

theorem isAbstract_of_flags (h : r'.flags = r.flags) : r'.isAbstract = r.isAbstract := by
  simp only [isAbstract, isInterface, h]

theorem Passes.of_flags {m : MethodRecord} (h : r.Passes m) (hflags : r'.flags = r.flags) :
    r'.Passes m := by
  unfold Passes at h ⊢
  rwa [isAbstract_of_flags hflags]

theorem Covered.mono (h : r.Covered t queue)
    (hsub : ∀ t m body, Attachment.body t m body ∈ queue → Attachment.body t m body ∈ queue') :
    r.Covered t queue' where
  initializer := h.initializer
  methods := fun slot m hm => (h.methods slot m hm).imp id fun ⟨body, hbody⟩ =>
    ⟨body, hsub _ _ body hbody⟩

theorem Covered.aside (h : r.Covered t queue) (ha : Aside r r') : r'.Covered t queue where
  initializer := by
    rw [ha.initializer, ha.ownInitializer]
    exact h.initializer
  methods := fun slot m hm => by
    rw [ha.method?] at hm
    exact (h.methods slot m hm).imp (·.of_flags ha.flags) id

theorem covered_blank (hmethods : r.methods = #[]) (hconstructors : r.constructors = #[])
    (hown : r.ownInitializer = none) (hinitializer : r.initializer = none) : r.Covered t queue where
  initializer := by rw [hinitializer, hown, Option.map_none]
  methods := fun slot m hm => by
    cases slot <;> simp [TypeRecord.method?, hmethods, hconstructors, hown] at hm

/-- A method at a place of its own comes with its body in the queue, or needs none. -/
theorem Covered.addMethod (h : r.Covered t queue) {m : MethodRecord}
    (hm : r.Passes m ∨ ∃ body, .body t ⟨t, .method r.methods.size⟩ body ∈ queue) :
    Covered t queue { r with methods := r.methods.push m } where
  initializer := h.initializer
  methods := fun slot own hown => by
    cases slot with
    | method index =>
      simp only [TypeRecord.method?, Array.getElem?_push] at hown
      split at hown
      · rename_i heq
        cases hown
        rw [heq]
        exact hm
      · exact h.methods (.method index) own hown
    | constructor index => exact h.methods (.constructor index) own hown
    | typeInitializer => exact h.methods .typeInitializer own hown

theorem Covered.addConstructor (h : r.Covered t queue) {m : MethodRecord} {body : Expr}
    (hbody : .body t ⟨t, .constructor r.constructors.size⟩ body ∈ queue) :
    Covered t queue { r with constructors := r.constructors.push m } where
  initializer := h.initializer
  methods := fun slot own hown => by
    cases slot with
    | constructor index =>
      simp only [TypeRecord.method?, Array.getElem?_push] at hown
      split at hown
      · rename_i heq
        rw [heq]
        exact .inr ⟨body, hbody⟩
      · exact h.methods (.constructor index) own hown
    | method index => exact h.methods (.method index) own hown
    | typeInitializer => exact h.methods .typeInitializer own hown

theorem Covered.setInitializer (h : r.Covered t queue) {m : MethodRecord} {body : Expr}
    (hbody : .body t ⟨t, .typeInitializer⟩ body ∈ queue) :
    Covered t queue
        { r with initializer := some ⟨t, .typeInitializer⟩, ownInitializer := some m } where
  initializer := rfl
  methods := fun slot own hown => by
    cases slot with
    | typeInitializer => exact .inr ⟨body, hbody⟩
    | method index => exact h.methods (.method index) own hown
    | constructor index => exact h.methods (.constructor index) own hown

theorem method?_modifyMethod (r : TypeRecord) (slot other : Slot)
    (change : MethodRecord → MethodRecord) :
    (r.modifyMethod slot change).method? other = if other = slot then (r.method? other).map
    change else r.method? other := by
  cases slot <;> cases other <;> simp [modifyMethod, TypeRecord.method?,
    Array.getElem?_modify, eq_comm]

theorem flags_modifyMethod (r : TypeRecord) (slot : Slot) (change : MethodRecord → MethodRecord) :
    (r.modifyMethod slot change).flags = r.flags := by cases slot <;> rfl

theorem complete_modifyMethod (r : TypeRecord) (slot : Slot)
    (change : MethodRecord → MethodRecord) :
    (r.modifyMethod slot change).complete = r.complete := by cases slot <;> rfl

theorem Covered.modifyMethod (h : r.Covered t queue) (slot : Slot)
    (change : MethodRecord → MethodRecord) (hflags : ∀ m, (change m).flags = m.flags)
    (hbody : ∀ m, m.body.isSome → (change m).body.isSome) :
    (r.modifyMethod slot change).Covered t queue := by
  have hsame := r.flags_modifyMethod slot change
  have hpasses : ∀ m, r.Passes m → (r.modifyMethod slot change).Passes (change m) := by
    intro m hm
    have habstract : (change m).isAbstract = m.isAbstract := by
      rw [MethodRecord.isAbstract, hflags]; rfl
    unfold Passes at hm ⊢
    rw [habstract, isAbstract_of_flags hsame]
    split
    · rename_i ha
      rwa [if_pos ha] at hm
    · rename_i ha
      rw [if_neg ha] at hm
      exact hbody m hm
  refine ⟨?_, fun other own hown => ?_⟩
  · have hinitializer := h.initializer
    cases slot with
    | typeInitializer =>
      simp only [TypeRecord.modifyMethod, Option.map_map]
      rw [hinitializer]
      cases r.ownInitializer <;> rfl
    | method index => exact hinitializer
    | constructor index => exact hinitializer
  · rw [method?_modifyMethod] at hown
    split at hown
    · obtain ⟨m, hm, rfl⟩ := Option.map_eq_some_iff.mp hown
      exact (h.methods other m hm).imp (hpasses m) id
    · exact (h.methods other own hown).imp (·.of_flags hsame) id

theorem Covered.attach {m : MethodId} {s : TypeId} {body lowered : Expr}
    (h : r.Covered t (.body s m body :: queue))
    (hopen : ∀ own, m.owner = t → r.method? m.slot = some own → own.isAbstract = false) :
    Covered t queue (if t = m.owner then r.modifyMethod m.slot fun own =>
        { own with body := some lowered } else r) := by
  by_cases howner : t = m.owner
  · rw [if_pos howner]
    have hset := h.modifyMethod m.slot (fun own => { own with body := some lowered }) (fun _ =>
      rfl) fun _ _ => rfl
    refine ⟨hset.initializer, fun slot own hown => ?_⟩
    rcases hset.methods slot own hown with hpass | ⟨other, hother⟩
    · exact .inl hpass
    · rcases List.mem_cons.mp hother with heq | hrest
      · obtain ⟨-, rfl, -⟩ : s = t ∧ m = ⟨t, slot⟩ ∧ other = body := by
          cases heq
          exact ⟨rfl, rfl, rfl⟩
        rw [method?_modifyMethod, if_pos rfl] at hown
        obtain ⟨before, hbefore, rfl⟩ := Option.map_eq_some_iff.mp hown
        left
        have habstract := hopen before rfl hbefore
        have hnow : MethodRecord.isAbstract { before with body := some lowered } = false :=
          habstract
        unfold Passes
        rw [hnow]
        rfl
      · exact .inr ⟨other, hrest⟩
  · rw [if_neg howner]
    refine ⟨h.initializer, fun slot own hown => (h.methods slot own hown).imp id ?_⟩
    rintro ⟨other, hother⟩
    rcases List.mem_cons.mp hother with heq | hrest
    · cases heq
      exact absurd rfl howner
    · exact ⟨other, hrest⟩

end TypeRecord

/-- The check of a finished type finds nothing where nothing is queued any more. -/
theorem TypeSpace.checkBodies_of_covered {u : Universe} {t : TypeId}
    (h : (u.record t).Covered t []) :
    checkBodies u t = .ok () := by
  rw [checkBodies, forM_eq_ok]
  intro m hm
  have hsome : m.owner = t ∧ (u.method? m).isSome := by
    rcases List.mem_append.mp hm with hm | hm
    · rcases List.mem_append.mp hm with hm | hm
      · exact ⟨u.owner_of_mem_methodsOf hm, u.isSome_of_mem_methodsOf hm⟩
      · refine ⟨?_, u.isSome_of_mem_constructorsOf hm⟩
        obtain ⟨index, -, rfl⟩ := List.mem_map.mp hm
        rfl
    · rw [h.initializer] at hm
      cases hown : (u.record t).ownInitializer with
      | none => simp [hown] at hm
      | some r =>
        simp only [hown, Option.map_some, Option.toList_some, List.mem_singleton] at hm
        subst hm
        exact ⟨rfl, by simp [Universe.method?, TypeRecord.method?, hown]⟩
  obtain ⟨rfl, hsome⟩ := hsome
  obtain ⟨r, hr⟩ := Option.isSome_iff_exists.mp hsome
  have hpass : (u.record m.owner).Passes r := by
    rcases h.methods m.slot r hr with hpass | ⟨_, hqueued⟩
    · exact hpass
    · cases hqueued
  have hmethod : u.method m = r := by
    rw [Universe.method, hr, Option.getD_some]
  unfold TypeRecord.Passes at hpass
  rw [hmethod]
  split at hpass
  · rename_i ha
    rw [if_pos ha, if_pos hpass]
  · rename_i ha
    rw [if_neg ha, if_pos hpass]

end TypeLoom
