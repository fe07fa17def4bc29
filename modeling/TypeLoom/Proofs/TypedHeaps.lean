import Mathlib.Data.List.Nodup
import Mathlib.Logic.ExistsUnique
import TypeLoom.Proofs.Onlookers
import TypeLoom.Proofs.Outline

/-!
# Heaps stay well typed

In a program whose fields have tokens of their own, every object has one slot for each instance
field of its type and its bases, and slots and static fields hold what their fields accept. Stores
check the value against the field that is named; that the slot is that field's own is what the
tokens are for.
-/

namespace TypeLoom

open Attempt Watching Evaluation

/-! ### Well-typed heaps -/

namespace Universe

variable {u : Universe}

theorem isSome_of_mem_fieldsOf {t : TypeId} {f : FieldId} (h : f ∈ u.fieldsOf t) :
    (u.field? f).isSome := by
  obtain ⟨index, hindex, rfl⟩ := List.mem_map.mp h
  rw [field?, Array.getElem?_eq_getElem (List.mem_range.mp hindex)]
  rfl

theorem isSome_of_mem_instanceFields {t : TypeId} {f : FieldId} (h : f ∈ u.instanceFields t) :
    (u.field? f).isSome := by
  obtain ⟨level, -, hf⟩ := List.mem_flatMap.mp h
  exact isSome_of_mem_fieldsOf (List.mem_filter.mp hf).1

def fieldIds (u : Universe) : List FieldId := (List.range u.types.size).flatMap fun index =>
    u.fieldsOf ⟨index⟩

theorem mem_fieldIds (u : Universe) {f : FieldId} (h : (u.field? f).isSome) : f ∈ u.fieldIds := by
  obtain ⟨hindex, -⟩ := Array.getElem?_eq_some_iff.mp (Option.get_mem h)
  have howner : f.owner.index < u.types.size := by
    by_contra hbeyond
    rw [u.record_of_le f.owner (Nat.not_lt.mp hbeyond)] at hindex
    exact Nat.not_lt_zero _ hindex
  have hmem : f ∈ u.fieldsOf f.owner := List.mem_map.mpr ⟨f.index, List.mem_range.mpr hindex, rfl⟩
  exact List.mem_flatMap.mpr ⟨f.owner.index, List.mem_range.mpr howner, hmem⟩

/-- No two fields of the program share a token. -/
def DistinctFieldTokens (u : Universe) : Prop :=
  ∀ f g, (u.field? f).isSome → (u.field? g).isSome → (u.field f).token = (u.field g).token → f = g

instance (u : Universe) : Decidable u.DistinctFieldTokens :=
  decidable_of_iff (∀ f ∈ u.fieldIds, ∀ g ∈ u.fieldIds, (u.field? f).isSome → (u.field? g).isSome →
      (u.field f).token = (u.field g).token → f = g)
    ⟨fun h f g hf hg => h f (u.mem_fieldIds hf) g (u.mem_fieldIds hg) hf hg,
      fun h f _ g _ hf hg => h f g hf hg⟩

end Universe

/-- An object has one slot for each instance field of its type and bases and no other, and each
slot holds a value that its field accepts. -/
structure Instance.Typed (u : Universe) (i : Instance) : Prop where
  once : (i.slots.map (·.1)).Nodup
  slot : ∀ f ∈ u.instanceFields i.type, (u.field f).token ∈ i.slots.map (·.1)
  field : ∀ row ∈ i.slots, ∃! f, f ∈ u.instanceFields i.type ∧ (u.field f).token = row.1
  accepts : ∀ row ∈ i.slots, ∀ f ∈ u.instanceFields i.type, (u.field f).token = row.1 →
    (u.field f).signature.accepts u row.2 = true

/-- All objects are typed, and each static value is held by a static field that accepts it. -/
structure Heap.Typed (u : Universe) (h : Heap) : Prop where
  objects : ∀ i ∈ h.objects, i.Typed u
  statics : ∀ row ∈ h.statics, ∃! f : FieldId, (u.field? f).isSome ∧ (u.field f).isStatic = true
    ∧ f.owner = row.1.1
    ∧ (u.field f).token = row.1.2 ∧ (u.field f).signature.accepts u row.2 = true

section

variable {u : Universe}

/-- The slots of a new object, for any list of fields. -/
theorem defaults_rows (fields : List FieldId) (rows : Keyed Token Value)
    (hrows : (rows.map (·.1)).Nodup) :
    let after := fields.foldl
      (fun (slots : Keyed Token Value) f =>
        slots.put (u.field f).token (u.field f).signature.defaultValue) rows
    (after.map (·.1)).Nodup
      ∧ (∀ token, token ∈ after.map (·.1) ↔ token ∈ rows.map (·.1) ∨ ∃ f ∈ fields,
        (u.field f).token = token)
      ∧ ∀ row ∈ after, row ∈ rows ∨ ∃ f ∈ fields,
          row = ((u.field f).token, (u.field f).signature.defaultValue) := by
  induction fields generalizing rows with
  | nil => exact ⟨hrows, by simp, fun row hrow => .inl hrow⟩
  | cons f fields ih =>
    obtain ⟨hnodup, hkeys, hvalues⟩ :=
      ih (rows.put (u.field f).token (u.field f).signature.defaultValue)
      (Keyed.nodup_put hrows _ _)
    refine ⟨hnodup, fun token => ?_, fun row hrow => ?_⟩
    · rw [List.foldl_cons, hkeys, Keyed.mem_keys_put]
      constructor
      · rintro ((rfl | hold) | ⟨g, hg, heq⟩)
        · exact .inr ⟨f, List.mem_cons_self, rfl⟩
        · exact .inl hold
        · exact .inr ⟨g, List.mem_cons_of_mem f hg, heq⟩
      · rintro (hold | ⟨g, hg, rfl⟩)
        · exact .inl (.inr hold)
        · rcases List.mem_cons.mp hg with rfl | hrest
          · exact .inl (.inl rfl)
          · exact .inr ⟨g, hrest, rfl⟩
    · rcases hvalues row hrow with hput | ⟨g, hg, heq⟩
      · exact (Keyed.mem_put hput).elim (fun heq => .inr ⟨f, List.mem_cons_self, heq⟩) .inl
      · exact .inr ⟨g, List.mem_cons_of_mem f hg, heq⟩

namespace Heap.Typed

variable {h : Heap}

theorem empty (u : Universe) : Typed u {} :=
  ⟨fun i hi => absurd hi (Array.not_mem_empty i), fun _ hrow => absurd hrow List.not_mem_nil⟩

/-- A new object is typed: its slots hold the defaults of its fields, which the fields accept. -/
theorem allocate (hu : u.DistinctFieldTokens) (hh : h.Typed u) (t : TypeId) :
    (h.allocate u t).2.Typed u where
  objects := by
    intro i hi
    rcases Array.mem_push.mp hi with hold | rfl
    · exact hh.objects i hold
    · obtain ⟨hnodup, hkeys, hvalues⟩ :=
        defaults_rows (u := u) (u.instanceFields t) [] List.nodup_nil
      have hsame : ∀ f g, f ∈ u.instanceFields t → g ∈ u.instanceFields t →
        (u.field f).token = (u.field g).token → f = g :=
        fun f g hf hg => hu f g (u.isSome_of_mem_instanceFields hf)
          (u.isSome_of_mem_instanceFields hg)
      have hrow : ∀ row ∈ _, ∃ f ∈ u.instanceFields t,
        row = ((u.field f).token, (u.field f).signature.defaultValue) :=
        fun row hrow => (hvalues row hrow).resolve_left List.not_mem_nil
      refine ⟨hnodup, fun f hf => (hkeys _).mpr (.inr ⟨f, hf, rfl⟩), fun row hin => ?_,
        fun row hin f hf htoken => ?_⟩
      · obtain ⟨f, hf, rfl⟩ := hrow row hin
        exact ⟨f, ⟨hf, rfl⟩, fun g hg => hsame g f hg.1 hf hg.2⟩
      · obtain ⟨g, hg, rfl⟩ := hrow row hin
        rw [hsame f g hf hg htoken]
        exact Signature.accepts_defaultValue u _
  statics := hh.statics

/-- A slot takes only values that its field accepts, since no other field has its token. -/
theorem storeSlot (hu : u.DistinctFieldTokens) (hh : h.Typed u) {o : ObjectRef}
    {f : FieldId} {value : Value} (hf : (u.field? f).isSome) {after : Heap}
    (hstore : h.storeSlot u o f value = .ok after) : after.Typed u := by
  unfold Heap.storeSlot at hstore
  split at hstore
  · cases hstore
  split at hstore
  · cases hstore
  rename_i hkey haccepts
  cases hstore
  rw [Bool.not_eq_true, Bool.not_eq_false'] at hkey haccepts
  refine ⟨fun i hi => ?_, hh.statics⟩
  obtain ⟨place, hplace⟩ := Array.mem_iff_getElem?.mp hi
  rw [Array.getElem?_modify] at hplace
  split at hplace
  · rename_i hsame
    obtain ⟨old, hold, rfl⟩ := Option.map_eq_some_iff.mp hplace
    have htyped := hh.objects old (Array.mem_of_getElem? hold)
    have hobject : h.object o = old := by
      rw [object, Array.getD_eq_getD_getElem?, hsame, hold]
      rfl
    rw [hobject, Keyed.hasKey_iff] at hkey
    have hkeys : (old.slots.put (u.field f).token value).map (·.1) = old.slots.map (·.1) := by
      rw [Keyed.keys_put, if_pos hkey]
    have hmem : ∀ token, token ∈ (old.slots.put (u.field f).token value).map (·.1) →
      token ∈ old.slots.map (·.1) :=
      fun token htoken => hkeys ▸ htoken
    refine ⟨hkeys ▸ htyped.once, fun g hg => hkeys ▸ htyped.slot g hg, fun row hrow => ?_,
      fun row hrow g hg htoken => ?_⟩
    · obtain ⟨known, hknown, heq⟩ := List.mem_map.mp (hmem row.1 (List.mem_map_of_mem hrow))
      exact heq ▸ htyped.field known hknown
    · rcases Keyed.mem_put hrow with rfl | hold'
      · rw [hu g f (u.isSome_of_mem_instanceFields hg) hf htoken]
        exact haccepts
      · exact htyped.accepts row hold' g hg htoken
  · exact hh.objects i (Array.mem_of_getElem? hplace)

theorem setStatic (hu : u.DistinctFieldTokens) (hh : h.Typed u) {f : FieldId}
    (hf : (u.field? f).isSome) (hstatic : (u.field f).isStatic = true) {value : Value}
    (haccepts : (u.field f).signature.accepts u value = true) :
    (h.setStatic u f.owner f value).Typed u where
  objects := hh.objects
  statics := by
    intro row hrow
    rcases Keyed.mem_put hrow with rfl | hold
    · exact ⟨f, ⟨hf, hstatic, rfl, rfl, haccepts⟩, fun g hg => hu g f hg.1 hf hg.2.2.2.1⟩
    · exact hh.statics row hold

theorem of_eq (hh : h.Typed u) {after : Heap} (hobjects : after.objects = h.objects)
    (hstatics : after.statics = h.statics) :
    after.Typed u := ⟨hobjects ▸ hh.objects, hstatics ▸ hh.statics⟩

end Heap.Typed

/-! ### Evaluations -/

variable {ω : Type} {watch : Occurrence → ω → ω}

/-- However the evaluation ends, a typed heap stays typed. -/
def KeepsTyped (u : Universe) {α : Type} (act : Watching ω α) : Prop :=
  Maintains (fun s => s.heap.Typed u) act

theorem congruent_keepsTyped (ω : Type) (u : Universe) :
    @Congruent ω ω fun act _ => KeepsTyped u act where
  lift := fun result => maintains_lift result
  bind := fun hact hnext => maintains_bind hact hnext

theorem keepsTyped_heap : KeepsTyped u (heap : Watching ω Heap) := fun _ h => h

theorem keepsTyped_note (o : Occurrence) : KeepsTyped u (note watch o) := fun _ h => h

theorem keepsTyped_newObject (hu : u.DistinctFieldTokens) (t : TypeId) :
    KeepsTyped u (newObject u t : Watching ω _) :=
  fun _ h => h.allocate hu t

theorem staticOwner_ok {f : FieldId} {t : TypeId} (h : staticOwner u f = .ok t) :
    (u.field f).isStatic = true ∧ f.owner = t := by
  unfold staticOwner at h
  split at h
  · cases h
  · rename_i hstatic
    refine ⟨by simpa using hstatic, ?_⟩
    unfold Universe.fieldOwner? Universe.present? at h
    by_cases hpresent : u.isPresent f.owner = true
    · rw [if_pos hpresent] at h
      cases h
      rfl
    · rw [if_neg hpresent] at h
      cases h

theorem staticOwnerFor_ok {f : FieldId} {value : Value} {t : TypeId}
    (h : staticOwnerFor u f value = .ok t) :
    (u.field f).signature.accepts u value = true ∧ (u.field f).isStatic = true ∧ f.owner = t := by
  unfold staticOwnerFor at h
  split at h
  · cases h
  · rename_i haccepts
    exact ⟨by simpa using haccepts, staticOwner_ok h⟩

theorem related_keepsTyped (hu : u.DistinctFieldTokens) {calls : Calls ω}
    (hinvoke : ∀ m this arguments, KeepsTyped u (calls.invoke m this arguments))
    (hinitialized : ∀ t, KeepsTyped u (calls.initialized t)) :
    Related u watch watch (fun act _ => KeepsTyped u act) calls calls where
  invoke := hinvoke
  make := fun c arguments => by
    refine maintains_bind (maintains_lift _) fun t => maintains_bind (hinitialized t) fun _ => ?_
    refine maintains_bind (keepsTyped_note _) fun _ =>
      maintains_bind (keepsTyped_newObject hu t) fun o => ?_
    exact maintains_bind (hinvoke c (some o) arguments) fun _ => maintains_pure _
  readSlot := fun _ _ => maintains_bind keepsTyped_heap fun _ => maintains_lift _
  writeSlot := fun o f value hf s hs => by
    rw [writeSlot, wp_bind, wp_heap, wp_bind, wp_lift]
    exact ⟨fun after hstore => hs.storeSlot hu hf hstore, fun _ _ => hs⟩
  readStatic := fun f => by
    refine maintains_bind (maintains_lift _) fun owner =>
      maintains_bind (hinitialized owner) fun _ => ?_
    exact maintains_bind (keepsTyped_note _) fun _ => maintains_bind keepsTyped_heap fun _ =>
      maintains_pure _
  writeStatic := fun f value hf => by
    refine maintains_lift_bind _ fun owner howner => ?_
    obtain ⟨haccepts, hstatic, rfl⟩ := staticOwnerFor_ok howner
    refine maintains_bind (hinitialized f.owner) fun _ =>
      maintains_bind (keepsTyped_note _) fun _ => ?_
    exact fun s hs => hs.setStatic hu hf hstatic haccepts

theorem climbs_keepsTyped (hu : u.DistinctFieldTokens) {below : Calls ω}
    (hinvoke : ∀ m this arguments, KeepsTyped u (below.invoke m this arguments))
    (hinitialized : ∀ t, KeepsTyped u (below.initialized t)) (remaining : Nat) :
    Climbs u watch watch (fun act _ => KeepsTyped u act) (fun _ act _ => KeepsTyped u act) below
        below remaining remaining := by
  have hR := congruent_keepsTyped ω u
  have hbody : ∀ m frame, KeepsTyped u (runBody u watch below m frame) := by
    intro m frame
    refine maintains_bind (maintains_lift _) fun e => maintains_bind ?_ fun _ => maintains_pure _
    have he : KeepsTyped u (evaluate u watch below frame e) :=
      related_evaluate hR (related_keepsTyped hu hinvoke hinitialized) e
    refine maintains_bind (keepsTyped_note _) fun _ =>
      maintains_bind (maintains_outcome he) fun result => ?_
    exact maintains_bind (keepsTyped_note _) fun _ => maintains_lift _
  exact {
    check := fun _ _ _ _ _ hnext => maintains_lift_bind _ fun _ h => hnext (room_of_checkCall h)
    run := fun m frame _ _ => hbody m frame
    runStatic := fun m _ frame _ _ _ _ _ hready => maintains_bind hready fun _ => hbody m frame
    stop := fun _ => maintains_throw _
    step := fun _ _ _ _ _ hinvoke hbase => maintains_initializeAfter hbase <|
      maintains_startInitializer (fun _ _ hobjects hstatics hs => hs.of_eq hobjects hstatics)
      (fun o _ => keepsTyped_note o)
        hinvoke }

theorem keepsTyped_callsWithin (hu : u.DistinctFieldTokens) (watch : Occurrence → ω → ω)
    (remaining : Nat) :
    (∀ m this arguments, KeepsTyped u ((callsWithin u watch remaining).invoke m this arguments))
      ∧ ∀ t, KeepsTyped u ((callsWithin u watch remaining).initialized t) := by
  induction remaining with
  | zero =>
    have hnone : ∀ {α : Type},
      KeepsTyped u (throw (.recursionLimit callDepthLimit) : Watching ω α) := maintains_throw _
    exact (climbs_keepsTyped hu (fun _ _ _ => hnone) (fun _ => hnone) 0).levelOver
  | succ remaining ih => exact (climbs_keepsTyped hu ih.1 ih.2 (remaining + 1)).levelOver

/-! ### Runs -/

theorem isSome_of_instanceField {o : ObjectRef} {name : String} {f : FieldId}
    (h : Heap.instanceField u o name = .ok f) :
    (u.field? f).isSome := by
  unfold Heap.instanceField at h
  split at h
  · rename_i found hfound
    cases h
    obtain ⟨level, -, hlevel⟩ :=
      List.exists_of_findSome?_eq_some (Option.filter_eq_some_iff.mp hfound).1
    exact u.isSome_of_mem_fieldsOf (List.mem_of_find?_eq_some hlevel)
  · cases h

theorem maintains_unwatched {α : Type} {act : Watching Unit α} (h : KeepsTyped u act) :
    Maintains (Heap.Typed u) (unwatched act) :=
  maintains_within h (fun _ hs => hs) fun _ _ _ hs => hs

/-- Whatever is asked for, and whether it succeeds or not, a typed heap stays typed. -/
theorem maintains_perform (hu : u.DistinctFieldTokens) (e : Entry) : Maintains (Heap.Typed u)
    (e.perform u) := by
  obtain ⟨hinvoke, hinitialized⟩ :=
    keepsTyped_callsWithin hu (fun _ (_ : Unit) => ()) callDepthLimit
  cases e with
  | invoke m this arguments => exact maintains_map (maintains_unwatched (hinvoke m this arguments))
  | instantiate c arguments =>
    exact maintains_map (maintains_unwatched
      ((related_keepsTyped hu hinvoke hinitialized).make c arguments))
  | prepare t => exact maintains_unwatched (hinitialized t)
  | setField o name value =>
    refine maintains_get_bind fun h hh => ?_
    rw [wp_bind, wp_lift]
    refine ⟨fun after hset => ?_, fun _ _ => hh⟩
    obtain ⟨f, hf, hstore⟩ := bind_eq_ok.mp hset
    exact hh.storeSlot hu (isSome_of_instanceField hf) hstore

/-- The heap is well typed after any run, so after every step of one. -/
theorem typed_run (hu : u.DistinctFieldTokens) (entries : List Entry) :
    (Entry.run u {} entries).Typed u := by
  suffices hrun : ∀ h : Heap, h.Typed u → (Entry.run u h entries).Typed u from hrun {} (.empty u)
  induction entries with
  | nil => exact fun _ hh => hh
  | cons e entries ih => exact fun h hh => ih _ (wp_const.mp (maintains_perform hu e h hh))

end

/-- A counter has a `count` and knows the `last` counter; its constructor sets both and then
fails. -/
def counters : Universe :=
  let count : FieldRecord :=
    { token := ⟨0x04000001⟩, name := "count", signature := .i4, flags := 6 }
  let last : FieldRecord :=
    { token := ⟨0x04000002⟩, name := "last", signature := .ofClass ⟨0⟩, flags := FieldFlags.static }
  let body : Expr := .block [.storeThis (.member ⟨⟨0⟩, 0⟩) (.argument 0),
    .storeStatic (.member ⟨⟨0⟩, 1⟩) .this, .argument 1]
  let make : MethodRecord :=
    { token := ⟨0x06000001⟩, name := ".ctor", kind := .constructor, flags := 6,
      signature := { parameters := [⟨"count", .i4⟩] }
      body := some body }
  ⟨#[{ token := ⟨0x02000001⟩, space := "App", name := "Counter", flags := 1, origin := .native, complete := true
       fields := #[count, last], constructors := #[make] }]⟩

/-- The object that a failed constructor leaves behind is typed, and so is the static field that
refers to it. -/
theorem typed_run_counters :
    let entries := [Entry.instantiate ⟨⟨0⟩, .constructor 0⟩ [.i4 5],
      .setField ⟨0, ⟨0⟩⟩ "count" .null]
    counters.DistinctFieldTokens ∧ (Entry.run counters {} entries).statics.length = 1
      ∧ (Entry.run counters {} entries).Typed counters :=
  ⟨by decide +kernel, by decide +kernel, typed_run (by decide +kernel) _⟩

end TypeLoom
