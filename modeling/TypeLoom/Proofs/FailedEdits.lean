import TypeLoom.Proofs.Formed

/-!
# Failed edits

An edit that fails leaves its batch as it was, apart from two that are composed of others: a
property that brings its own accessors may already have added the get accessor when the set accessor
is refused, and a property that is kept in a field may already have added the field.
-/

namespace TypeLoom

/-! ### Atomic attempts -/

namespace Attempt

variable {σ α β : Type} {act : Attempt σ α}

def Atomic (act : Attempt σ α) : Prop := ∀ s, act.wp (fun _ _ => True) (· = s) s

theorem Atomic.bind_pure {next : α → β} (h : Atomic act) :
    Atomic (act >>= fun v => pure (next v)) := fun s => by
  rw [wp_bind]
  exact h s

theorem Atomic.map {f : α → β} (h : Atomic act) : Atomic (f <$> act) := fun s => by
  rw [wp_map]
  exact h s

end Attempt

open Attempt

/-! ### Descriptors -/

namespace Descriptor

variable {u : Universe} {d : Descriptor} {name : String} {signature : Signature}
  {access : Access} {body : Expr}
  {getterBody setterBody : Option Expr}

def withMethod (d : Descriptor) (m : DraftMethod) : Descriptor :=
  touch { d with methods := d.methods.push m }

def accessorFlags (access : Access) : UInt32 :=
  withAccess (MethodFlags.hideBySig ||| MethodFlags.specialName) access

/-- The get accessor that a property brings. -/
def ownGetter (d : Descriptor) (name : String) (signature : Signature) (access : Access)
    (body : Expr) : DraftMethod :=
  { handle := d.nextMethod, name := "get_" ++ name, kind := .method, flags := accessorFlags access
    signature := .unnamed signature [], body := some body }

/-- The set accessor that a property brings. -/
def ownSetter (d : Descriptor) (name : String) (signature : Signature) (access : Access)
    (body : Expr) : DraftMethod :=
  { handle := d.nextMethod, name := "set_" ++ name, kind := .method, flags := accessorFlags access
    signature := ⟨.void, [⟨"value", signature⟩]⟩, body := some body }

/-- A regular method like this one passes its checks. -/
def Takes (d : Descriptor) (m : DraftMethod) : Prop :=
  d.checkMethod m.name m.flags m.signature m.body.isSome = .ok ()

/-- The descriptor with the field that keeps a property. -/
def withBacking (d : Descriptor) (name : String) (signature : Signature) : Descriptor :=
  touch { d with
    fields := d.fields.push
      { handle := ⟨d.handle, d.fields.size⟩, name := "<" ++ name ++ ">k__BackingField", signature
        flags := FieldFlags.isPrivate } }

/-- A property cannot have this set accessor, or is void when it is to have none. -/
def RefusesSetter (d : Descriptor) (name : String) (signature : Signature) (access : Access) :
    Option Expr → Prop
  | none => signature.isVoid = true
  | some body => ¬ d.Takes (d.ownSetter name signature access body)

/-- A property with accessors of its own gets as far as its get accessor. -/
structure ReachesGetter (d : Descriptor) (name : String) (signature : Signature)
    (access : Access) (body : Expr) :
    Prop where
  unsealed : d.isSealed = false
  free : ∀ p ∈ d.properties, p.name ≠ name
  getter : d.Takes (d.ownGetter name signature access body)

structure ReachesField (d : Descriptor) (name : String) (signature : Signature) : Prop where
  unsealed : d.isSealed = false
  field : d.TakesField ("<" ++ name ++ ">k__BackingField") signature FieldFlags.isPrivate

theorem takes_withMethod {m m' : DraftMethod} (hname : m.name ≠ m'.name) :
    (d.withMethod m).Takes m' ↔ d.Takes m' := by
  simp only [Takes, checkMethod, guard_bind_eq_ok, guard_eq_ok, withMethod, touch,
    isInterface, Array.any_push,
    beq_eq_false_iff_ne.mpr hname, Bool.false_and, Bool.or_false]

theorem refusesSetter_withGetter (get : Expr) :
    (d.withMethod (d.ownGetter name signature access get)).RefusesSetter name signature
    access setterBody
      ↔ d.RefusesSetter name signature access setterBody := by
  cases setterBody with
  | none => exact Iff.rfl
  | some set =>
    have hname : (d.ownGetter name signature access get).name
      ≠ (d.ownSetter name signature access set).name :=
      fun h => by simpa [ownGetter, ownSetter] using congrArg String.toList h
    exact not_congr (takes_withMethod hname)

theorem solid_of_takes (h : d.Takes (d.ownSetter name signature access body)) :
    signature.isVoid = false := by
  simp only [Takes, checkMethod, guard_bind_eq_ok, guard_eq_ok] at h
  simpa [ownSetter] using h.2.2.2.2.2.2.1

theorem isAccessor_withMethod (m : DraftMethod) {kind : MethodSignature → Prop}
    (hkind : kind m.signature) :
    (d.withMethod m).IsAccessor d.nextMethod m.isStatic kind :=
  ⟨d.methods.size, m, rfl, Array.getElem?_push_size, rfl, hkind⟩

theorem IsAccessor.withMethod {h : MethodHandle} {isStatic : Bool} {kind : MethodSignature → Prop}
    (ha : d.IsAccessor h isStatic kind) (m : DraftMethod) :
    (d.withMethod m).IsAccessor h isStatic kind := by
  have hsame : (d.withMethod m).handle = d.handle := rfl
  exact ha.keep hsame fun _ _ hown => getElem?_push_exists m hown

/-- With a get accessor or none, a property fails just when its set accessor is refused. -/
theorem wp_finishProperty {getter : Option MethodHandle} (hs : d.isSealed = false)
    (hfree : ∀ p ∈ d.properties, p.name ≠ name)
    (hgetter : ∀ h ∈ getter, d.IsAccessor h (hasBits (accessorFlags access) MethodFlags.static)
      (·.Gets signature))
    (hsome : getter.isSome ∨ setterBody.isSome) :
    (do
      let setter ← setterBody.mapM fun body =>
        addMethod ("set_" ++ name) (accessorFlags access) ⟨.void,
          [⟨"value", signature⟩]⟩ (some body)
      addProperty u name signature getter setter : Attempt Descriptor PropertyHandle).wp
      (fun _ _ => ¬ d.RefusesSetter name signature access setterBody)
      (fun after => after = d ∧ d.RefusesSetter name signature access setterBody) d := by
  cases setterBody with
  | none =>
    simp only [Option.mapM_none, pure_bind]
    refine wp_addProperty (fun _ hsolid _ _ => by simp [RefusesSetter, hsolid]) fun hnot =>
      ⟨rfl, ?_⟩
    by_contra hsolid
    exact hnot ⟨hs, .inl (by simpa using hsome), by
      simpa [RefusesSetter] using hsolid, hfree, _, hgetter, nofun⟩
  | some set =>
    simp only [Option.mapM_some, wp_bind, wp_map]
    refine wp_addMethod (fun _ check => ?_) fun hnot => ⟨rfl, fun htakes => hnot ⟨hs, htakes⟩⟩
    have hset : (⟨.void, [⟨"value", signature⟩]⟩ : MethodSignature).Sets signature := ⟨rfl, rfl⟩
    have hserves : (d.withMethod (d.ownSetter name signature access set)).Serves signature getter
      (some d.nextMethod) :=
      ⟨_, fun h hh => (hgetter h hh).withMethod _,
        fun _ hh => Option.some.inj hh ▸ isAccessor_withMethod
        (d.ownSetter name signature access set) hset⟩
    exact wp_addProperty (fun _ _ _ _ hrefused => hrefused check) fun hnot =>
      absurd ⟨hs, .inr rfl, solid_of_takes check, hfree, hserves⟩ hnot

theorem wp_addPropertyAccessors_get (u : Universe) (d : Descriptor) (name : String)
    (signature : Signature) (access : Access) (get : Expr) (setterBody : Option Expr) :
    (addPropertyAccessors u name signature access (some get) setterBody).wp
      (fun _ _ => d.ReachesGetter name signature access get
        ∧ ¬ d.RefusesSetter name signature access setterBody)
      (fun after => (after = d ∧ ¬ d.ReachesGetter name signature access get)
        ∨ (after = d.withMethod (d.ownGetter name signature access get)
          ∧ d.ReachesGetter name signature access get
          ∧ d.RefusesSetter name signature access setterBody)) d := by
  refine wp_addPropertyAccessors (fun hs hfree => ?_) fun hnot =>
    .inl ⟨rfl, fun hreaches => hnot ⟨hreaches.unsealed, hreaches.free⟩⟩
  dsimp only
  rw [Option.mapM_some, bind_map_left, wp_bind]
  refine wp_addMethod (fun _ check => ?_) fun hnot =>
    .inl ⟨rfl, fun hreaches => hnot ⟨hs, hreaches.getter⟩⟩
  have hgetter : ∀ h ∈ some d.nextMethod,
    (d.withMethod (d.ownGetter name signature access get)).IsAccessor h
      (hasBits (accessorFlags access) MethodFlags.static) (·.Gets signature) := fun h hh => by
    rw [← Option.some.inj hh]
    exact isAccessor_withMethod (d.ownGetter name signature access get) ⟨rfl, rfl⟩
  have hreaches : d.ReachesGetter name signature access get := ⟨hs, hfree, check⟩
  refine wp_mono (wp_finishProperty hs hfree hgetter (.inl rfl)) (fun _ _ hnot => ?_)
    fun _ hafter => ?_
  · exact ⟨hreaches, fun hrefused => hnot ((refusesSetter_withGetter get).mpr hrefused)⟩
  · exact .inr ⟨hafter.1, hreaches, (refusesSetter_withGetter get).mp hafter.2⟩

theorem atomic_addPropertyAccessors (name : String) (signature : Signature) (access : Access)
    (setterBody : Option Expr) :
    Atomic (addPropertyAccessors u name signature access none setterBody) := by
  refine fun d => wp_addPropertyAccessors (fun hs hfree => ?_) fun _ => rfl
  cases setterBody with
  | none => exact wp_addProperty (fun _ _ _ _ => trivial) fun _ => rfl
  | some set =>
    have hfinish : (do
        let setter ← (some set).mapM fun body =>
          addMethod ("set_" ++ name) (accessorFlags access) ⟨.void,
            [⟨"value", signature⟩]⟩ (some body)
        addProperty u name signature none setter : Attempt Descriptor PropertyHandle).wp _ _ d :=
      wp_finishProperty hs hfree nofun (.inr rfl)
    exact wp_mono hfinish (fun _ _ _ => trivial) fun _ hafter => hafter.1

theorem atomic_getOrAddOverride (m : MethodId) : Atomic (getOrAddOverride u m) := fun _ =>
  wp_getOrAddOverride (fun _ _ _ _ => trivial) (fun _ _ _ _ _ => trivial)
    (fun _ _ _ _ _ _ => trivial) rfl

theorem atomic_getOrAddImplementation (m : MethodId) :
    Atomic (getOrAddImplementation u m) := fun d =>
  wp_getOrAddImplementation (fun _ _ _ => trivial) (fun _ _ _ _ => trivial)
    (fun inherited _ _ _ _ _ => atomic_getOrAddOverride inherited d) (fun _ _ _ _ => trivial) rfl

/-- The body of the get accessor of a property that is kept in the next field. -/
def backingGet (d : Descriptor) : Expr := .loadThis (.draft ⟨d.handle, d.fields.size⟩)

def backingSet (d : Descriptor) : Expr := .storeThis (.draft ⟨d.handle, d.fields.size⟩)
    (.argument 0)

/-- A property that is kept in a field fails at once, or succeeds, or leaves the field, or leaves
the field and the get accessor. -/
theorem wp_addAutoProperty (u : Universe) (d : Descriptor) (name : String) (signature : Signature)
    (access : Access) :
    let mid := d.withBacking name signature
    (addAutoProperty u name signature access).wp
      (fun _ _ => d.ReachesField name signature
        ∧ mid.ReachesGetter name signature access d.backingGet
        ∧ ¬ mid.RefusesSetter name signature access (some d.backingSet))
      (fun after => (after = d ∧ ¬ d.ReachesField name signature)
        ∨ (after = mid ∧ d.ReachesField name signature
          ∧ ¬ mid.ReachesGetter name signature access d.backingGet)
        ∨ (after = mid.withMethod (mid.ownGetter name signature access d.backingGet)
          ∧ d.ReachesField name signature
          ∧ mid.ReachesGetter name signature access d.backingGet
          ∧ mid.RefusesSetter name signature access (some d.backingSet))) d := by
  intro mid
  unfold addAutoProperty
  rw [wp_bind]
  refine wp_addField (fun hs hfield => ?_) fun hnot =>
    .inl ⟨rfl, fun hreaches => hnot ⟨hreaches.unsealed, hreaches.field⟩⟩
  have hreaches : d.ReachesField name signature := ⟨hs, hfield⟩
  refine wp_mono (wp_addPropertyAccessors_get u mid name signature access d.backingGet
    (some d.backingSet))
    (fun _ _ hdone => ⟨hreaches, hdone⟩) fun after hafter => ?_
  rcases hafter with ⟨hafter, hnot⟩ | ⟨hafter, hgetter, hrefused⟩
  · exact .inr (.inl ⟨hafter, hreaches, hnot⟩)
  · exact .inr (.inr ⟨hafter, hreaches, hgetter, hrefused⟩)

end Descriptor

/-! ### Batches -/

def Batch.put (b : Batch) (h : TypeHandle) (d : Descriptor) : Batch :=
  { b with types := b.types.setIfInBounds h.index d }

/-- What an edit leaves behind when it fails after it has added something. -/
inductive Edit.Leaves (b : Batch) : Edit → Batch → Prop
  /-- A property brings its accessors, and the set accessor is refused. -/
  | getter {t : TypeHandle} {d : Descriptor} {name : String} {signature : Signature}
    {access : Access} {get : Expr}
      {setterBody : Option Expr} (found : b.find? t = some d)
      (reached : d.ReachesGetter name signature access get)
      (refused : d.RefusesSetter name signature access setterBody) :
      Leaves b (.addPropertyAccessors t name signature access (some get) setterBody)
        (b.put t (d.withMethod (d.ownGetter name signature access get)))
  /-- A property is kept in a field, and there is another one of its name, or its get accessor is
  refused. -/
  | field {t : TypeHandle} {d : Descriptor} {name : String} {signature : Signature}
    {access : Access}
      (found : b.find? t = some d) (reached : d.ReachesField name signature)
      (refused : ¬ (d.withBacking name signature).ReachesGetter name signature
        access d.backingGet) :
      Leaves b (.addAutoProperty t name signature access) (b.put t (d.withBacking name signature))
  /-- A property is kept in a field, and its set accessor is refused. -/
  | fieldAndGetter {t : TypeHandle} {d : Descriptor} {name : String} {signature : Signature}
    {access : Access}
      (found : b.find? t = some d) (reached : d.ReachesField name signature)
      (reachedGetter : (d.withBacking name signature).ReachesGetter name signature
        access d.backingGet)
      (refused : (d.withBacking name signature).RefusesSetter name signature access
        (some d.backingSet)) :
      Leaves b (.addAutoProperty t name signature access)
        (b.put t ((d.withBacking name signature).withMethod
          ((d.withBacking name signature).ownGetter name signature access d.backingGet)))

namespace Batch

variable {α : Type} {u : Universe} {b b' : Batch} {e : Edit}

theorem find?_put {h : TypeHandle} {d : Descriptor} (hd : b.find? h = some d) (d' : Descriptor) :
    (b.put h d').find? h = some d' := by
  have hlt : h.index < b.types.size := (Array.getElem?_eq_some_iff.mp hd).1
  simp [put, find?, hlt]

theorem put_self {h : TypeHandle} {d : Descriptor} (hd : b.find? h = some d) : b.put h d = b := by
  rw [put, setIfInBounds_same hd]

theorem atomic_onType {act : Attempt Descriptor α} (t : TypeHandle) (h : Atomic act) :
    Atomic (onType t act) := by
  refine fun b => wp_onType (fun _ => rfl) fun d hd => ?_
  refine wp_mono (h d) (fun _ _ _ => trivial) fun after hafter => ?_
  rw [hafter]
  exact put_self hd

theorem atomic_askAbstract (t : TypeHandle) : Atomic (askAbstract u t) := by
  intro b
  cases hd : b.find? t with
  | some d => exact wp_askAbstract hd fun _ _ _ => trivial
  | none =>
    unfold askAbstract askAlone
    rw [wp_bind]
    exact wp_onType (fun _ => rfl) fun d hd' => by rw [hd] at hd'; cases hd'

theorem ne_of_leaves (h : e.Leaves b b') : b' ≠ b := by
  have hne : ∀ {t d left}, b.find? t = some d → left ≠ d → b.put t left ≠ b := by
    intro t d left hd hleft heq
    have hfound := find?_put hd left
    rw [heq, hd] at hfound
    exact hleft (Option.some.inj hfound).symm
  cases h with
  | getter found _ _ =>
    exact hne found fun heq => by
      simpa [Descriptor.withMethod, Descriptor.touch] using congrArg (·.methods.size) heq
  | field found _ _ =>
    exact hne found fun heq => by
      simpa [Descriptor.withBacking, Descriptor.touch] using congrArg (·.fields.size) heq
  | fieldAndGetter found _ _ _ =>
    exact hne found fun heq => by
      simpa [Descriptor.withMethod, Descriptor.withBacking, Descriptor.touch] using congrArg
        (·.fields.size) heq

theorem leaves_unique {left : Batch} (h : e.Leaves b b') (h' : e.Leaves b left) : b' = left := by
  cases h with
  | getter found reached refused =>
    cases h' with
    | getter found' _ _ => rw [Option.some.inj (found.symm.trans found')]
  | field found reached refused =>
    cases h' with
    | field found' _ _ => rw [Option.some.inj (found.symm.trans found')]
    | fieldAndGetter found' _ reached' _ =>
      rw [← Option.some.inj (found.symm.trans found')] at reached'
      exact absurd reached' refused
  | fieldAndGetter found reached reachedGetter refused =>
    cases h' with
    | field found' _ refused' =>
      rw [← Option.some.inj (found.symm.trans found')] at refused'
      exact absurd reachedGetter refused'
    | fieldAndGetter found' _ _ _ => rw [Option.some.inj (found.symm.trans found')]

/-- Edits that are not composed of others leave nothing, and neither do other compositions. -/
theorem atomic_perform (hleaves : ∀ t name signature access get setterBody,
      e ≠ .addPropertyAccessors t name signature access (some get) setterBody)
    (hauto : ∀ t name signature access, e ≠ .addAutoProperty t name signature access) :
        Atomic (e.perform u) := by
  cases e with
  | createType space name flags base => exact .map fun _ => wp_createType (fun _ _ => trivial) rfl
  | createInterface space name => exact .map fun _ => wp_createType (fun _ _ => trivial) rfl
  | addNested outer name flags base =>
    exact .map fun _ => wp_addNested (fun _ _ _ _ _ => trivial) rfl
  | addBatchInterface t i =>
    refine .bind_pure fun b => wp_addBatchInterface (fun _ _ _ => ?_) rfl
    exact atomic_onType t (fun _ => Descriptor.wp_addDraftInterface (fun _ _ => trivial) rfl) b
  | addField t name signature flags =>
    exact .map (atomic_onType t fun _ => Descriptor.wp_addField (fun _ _ => trivial) fun _ => rfl)
  | addConstructor t flags parameters body =>
    exact .map (atomic_onType t fun _ =>
      Descriptor.wp_addConstructor (fun _ _ _ _ _ => trivial) rfl)
  | addTypeInitializer t body =>
    exact .map (atomic_onType t fun _ => Descriptor.wp_addTypeInitializer (fun _ _ => trivial) rfl)
  | addTypeInitialization t e =>
    exact .bind_pure (atomic_onType t fun _ =>
      Descriptor.wp_addTypeInitialization (fun _ => trivial) rfl)
  | addInitialization t e =>
    exact .bind_pure (atomic_onType t fun _ =>
      Descriptor.wp_addInitialization (fun _ _ => trivial) rfl)
  | addMethod t name flags signature body =>
    exact .map (atomic_onType t fun _ => Descriptor.wp_addMethod (fun _ _ => trivial) fun _ => rfl)
  | setMethodBody t m body =>
    exact .bind_pure (atomic_onType t fun _ =>
      Descriptor.wp_setMethodBody (fun _ _ _ _ => trivial) rfl)
  | addProperty t name signature getter setter =>
    exact .map (atomic_onType t fun _ => Descriptor.wp_addProperty (fun _ _ _ _ => trivial) fun _ =>
      rfl)
  | addPropertyAccessors t name signature access getterBody setterBody =>
    cases getterBody with
    | none =>
      exact .map (atomic_onType t (Descriptor.atomic_addPropertyAccessors name signature
        access setterBody))
    | some get => exact absurd rfl (hleaves t name signature access get setterBody)
  | addAutoProperty t name signature access => exact absurd rfl (hauto t name signature access)
  | addEvent t name eventType add remove raise =>
    exact .map (atomic_onType t fun _ => Descriptor.wp_addEvent (fun _ _ _ _ => trivial) rfl)
  | addInterface t interface allow =>
    exact .bind_pure (atomic_onType t fun _ =>
      Descriptor.wp_addInterface (fun _ _ _ => trivial) trivial rfl)
  | addAttribute t a =>
    exact .bind_pure (atomic_onType t fun _ => Descriptor.wp_addAttribute (fun _ => trivial) rfl)
  | addMethodAttribute t m a =>
    exact .bind_pure (atomic_onType t fun _ =>
      Descriptor.wp_addMethodAttribute (fun _ _ => trivial) rfl)
  | addFieldAttribute t f a =>
    exact .bind_pure (atomic_onType t fun _ =>
      Descriptor.wp_addFieldAttribute (fun _ _ _ => trivial) rfl)
  | overrideMethod t m =>
    exact .bind_pure (atomic_onType t (Descriptor.atomic_getOrAddOverride m))
  | implementMethod t m =>
    exact .bind_pure (atomic_onType t (Descriptor.atomic_getOrAddImplementation m))
  | askAbstract t => exact .map (atomic_askAbstract t)

/-- How an edit ends, told by what it can leave: a success leaves nothing behind, a failure what
it leaves or nothing. -/
def EndsLeaving (u : Universe) (b : Batch) (e : Edit) : Prop :=
  (e.perform u).wp (fun _ _ => ∀ left, ¬ e.Leaves b left)
    (fun after => (after = b ∧ ∀ left, ¬ e.Leaves b left) ∨ e.Leaves b after) b

theorem endsLeaving_addPropertyAccessors (t : TypeHandle) (name : String) (signature : Signature)
    (access : Access) (get : Expr) (setterBody : Option Expr) :
    EndsLeaving u b (.addPropertyAccessors t name signature access (some get) setterBody) := by
  refine (wp_map _ _).mpr (wp_onType (fun hnone => .inl ⟨rfl, fun left hleaves => ?_⟩) fun d hd =>
    ?_)
  · cases hleaves with
    | getter found _ _ =>
      rw [hnone] at found
      cases found
  · refine wp_mono (Descriptor.wp_addPropertyAccessors_get u d name signature access get setterBody)
      (fun _ _ hdone left hleaves => ?_) fun after hafter => ?_
    · cases hleaves with
      | getter found _ refused =>
        rw [← Option.some.inj (hd.symm.trans found)] at refused
        exact hdone.2 refused
    · rcases hafter with ⟨rfl, hnot⟩ | ⟨rfl, reached, refused⟩
      · refine .inl ⟨put_self hd, fun left hleaves => ?_⟩
        cases hleaves with
        | getter found reached _ =>
          rw [← Option.some.inj (hd.symm.trans found)] at reached
          exact hnot reached
      · exact .inr (.getter hd reached refused)

theorem endsLeaving_addAutoProperty (t : TypeHandle) (name : String) (signature : Signature)
    (access : Access) :
    EndsLeaving u b (.addAutoProperty t name signature access) := by
  refine (wp_map _ _).mpr (wp_onType (fun hnone => .inl ⟨rfl, fun left hleaves => ?_⟩) fun d hd =>
    ?_)
  · cases hleaves with
    | field found _ _ | fieldAndGetter found _ _ _ =>
      rw [hnone] at found
      cases found
  · refine wp_mono (Descriptor.wp_addAutoProperty u d name signature access)
      (fun _ _ hdone left hleaves => ?_)
      fun after hafter => ?_
    · cases hleaves with
      | field found _ refused =>
        rw [← Option.some.inj (hd.symm.trans found)] at refused
        exact refused hdone.2.1
      | fieldAndGetter found _ _ refused =>
        rw [← Option.some.inj (hd.symm.trans found)] at refused
        exact hdone.2.2 refused
    · rcases hafter with ⟨rfl, hnot⟩ | ⟨rfl, reached, refused⟩ | ⟨rfl, reached,
        reachedGetter, refused⟩
      · refine .inl ⟨put_self hd, fun left hleaves => ?_⟩
        cases hleaves with
        | field found reached _ | fieldAndGetter found reached _ _ =>
          rw [← Option.some.inj (hd.symm.trans found)] at reached
          exact hnot reached
      · exact .inr (.field hd reached refused)
      · exact .inr (.fieldAndGetter hd reached reachedGetter refused)

theorem endsLeaving (u : Universe) (b : Batch) (e : Edit) : EndsLeaving u b e := by
  by_cases hget : ∃ t name signature access get setterBody,
      e = .addPropertyAccessors t name signature access (some get) setterBody
  · obtain ⟨t, name, signature, access, get, setterBody, rfl⟩ := hget
    exact endsLeaving_addPropertyAccessors t name signature access get setterBody
  by_cases hauto : ∃ t name signature access, e = .addAutoProperty t name signature access
  · obtain ⟨t, name, signature, access, rfl⟩ := hauto
    exact endsLeaving_addAutoProperty t name signature access
  have hnone : ∀ left, ¬ e.Leaves b left := fun left hleaves => by
    cases hleaves with
    | getter _ _ _ => exact hget ⟨_, _, _, _, _, _, rfl⟩
    | field _ _ _ | fieldAndGetter _ _ _ _ => exact hauto ⟨_, _, _, _, rfl⟩
  have hatomic : Atomic (e.perform u) := atomic_perform
    (fun t name signature access get setterBody he =>
      hget ⟨t, name, signature, access, get, setterBody, he⟩)
    fun t name signature access he => hauto ⟨t, name, signature, access, he⟩
  exact wp_mono (hatomic b) (fun _ _ _ => hnone) fun _ hafter => .inl ⟨hafter, hnone⟩

/-- Which failures change a batch, and into what: the ones of properties that bring their
accessors, when something is found to be wrong after the field or the get accessor was added.
Whatever else fails leaves the batch as it was. -/
theorem failed_edit_leaves (u : Universe) (b b' : Batch) (e : Edit) :
    ((∃ f, (e.perform u).start b = (.error f, b')) ∧ b' ≠ b) ↔ e.Leaves b b' := by
  have hends := wp_iff.mp (endsLeaving u b e)
  constructor
  · rintro ⟨⟨f, hfail⟩, hne⟩
    exact (hends.2 f b' hfail).resolve_left fun hsame => hne hsame.1
  · intro hleaves
    rcases hrun : (e.perform u).start b with ⟨f | answer, after⟩
    · rcases hends.2 f after hrun with ⟨-, hnone⟩ | hleft
      · exact absurd hleaves (hnone b')
      · rw [leaves_unique hleaves hleft]
        exact ⟨⟨f, rfl⟩, ne_of_leaves hleft⟩
    · exact absurd hleaves (hends.1 answer after hrun b')

/-- In every batch that can come to be, a failed edit leaves nothing behind. -/
def FailedEditsLeaveNothing : Prop :=
  ∀ (u : Universe) (b : Batch), b.Formed → ∀ (e : Edit) (f : Fault) (b' : Batch),
    (e.perform u).start b = (.error f, b') → b' = b

/-- A class that already has the set accessor that its property is going to bring. -/
def takenSetterEdits : List Edit :=
  [.createType "App" "A" TypeFlags.isPublic none,
   .addMethod ⟨0⟩ "set_P" MethodFlags.isPublic ⟨.void, [⟨"value", .i4⟩]⟩ (some (.block []))]

def failingProperty : Edit :=
  .addPropertyAccessors ⟨0⟩ "P" .i4 .isPublic (some (.constant (.i4 1))) (some (.block []))

/-- The property is refused for its set accessor, and its get accessor stays. -/
theorem not_failedEditsLeaveNothing : ¬ FailedEditsLeaveNothing := by
  intro hclaim
  have hformed : (Edit.run {} {} takenSetterEdits).Formed :=
    Formed.empty.run (by simp [takenSetterEdits, Edit.Held])
  let outcome := (failingProperty.perform {}).start (Edit.run {} {} takenSetterEdits)
  have hfails : outcome.1.isOk = false := by decide +kernel
  have hgrows : outcome.2.types.map (·.methods.size) = #[2] := by decide +kernel
  have hbefore : (Edit.run {} {} takenSetterEdits).types.map (·.methods.size) = #[1] := by
    decide +kernel
  rcases hend : outcome with ⟨f | answer, after⟩
  · rw [hend, hclaim {} _ hformed failingProperty f after hend, hbefore] at hgrows
    cases hgrows
  · rw [hend] at hfails
    cases hfails

end Batch

end TypeLoom
