import TypeLoom.Proofs.Appending

/-!
# Handles stay good

The handle that an operation answers is that of the member that was asked for, the last one of its
kind. Whatever is done to the batch from then on, it goes on to name a member with the same kind,
name and signature at the same place. Each operation changes one descriptor, and of that one only
what it is for.
-/

namespace TypeLoom

open Attempt

/-! ### Edits -/

namespace Edit

/-- The descriptor that the edit works on. New descriptors apart, there is at most one. -/
def target? : Edit → Option TypeHandle
  | createType .. | createInterface .. => none
  | addNested t .. | addBatchInterface t _ | addField t .. | addConstructor t
    .. | addTypeInitializer t _
  | addTypeInitialization t _ | addInitialization t _ | addMethod t .. | setMethodBody t
    .. | addProperty t ..
  | addPropertyAccessors t .. | addAutoProperty t .. | addEvent t .. | addInterface t
    .. | addAttribute t _
  | addMethodAttribute t .. | addFieldAttribute t .. | overrideMethod t _ | implementMethod t
    _ | askAbstract t => some t

/-- What the edit makes of a method that is there. -/
def rewrite : Edit → DraftMethod → DraftMethod
  | setMethodBody _ h body =>
    Descriptor.reworking h fun m =>
      { m with flags := m.flags &&& ~~~MethodFlags.abstract, body := some body }
  | addMethodAttribute _ h a =>
    Descriptor.reworking h fun m => { m with attributes := m.attributes.push a }
  | _ => id

/-- What the edit makes of a field that is there. -/
def annotate : Edit → DraftField → DraftField
  | addFieldAttribute _ h a => Descriptor.annotating h a
  | _ => id

end Edit

/-! ### Batches -/

namespace Batch

def field? (b : Batch) (h : FieldHandle) : Option DraftField := (b.find? h.owner).bind (·.field? h)

def method? (b : Batch) (h : MethodHandle) : Option DraftMethod :=
  (b.find? h.owner).bind (·.method? h)

def property? (b : Batch) (h : PropertyHandle) : Option DraftProperty :=
  (b.find? h.owner).bind (·.property? h)

def event? (b : Batch) (h : EventHandle) : Option DraftEvent := (b.find? h.owner).bind (·.event? h)

/-- One descriptor was worked on, and new ones have nothing registered. -/
structure Appended (target? : Option TypeHandle) (rewrite : DraftMethod → DraftMethod)
    (annotate : DraftField → DraftField) (b b' : Batch) : Prop where
  target : ∀ h d, target? = some h → b.find? h = some d → ∃ d', b'.find? h = some d'
    ∧ d.Appended rewrite annotate d'
  others : ∀ h d, target? ≠ some h → b.find? h = some d → b'.find? h = some d
  new : ∀ h d', b.find? h = none → b'.find? h = some d' → ∀ m, ¬ d'.Registered m

def Registers (b : Batch) : Prop := ∀ h d, b.find? h = some d → ∀ m, d.Registered m →
    ∃ own ∈ d.methods, own.handle = m

end Batch

/-- What was answered is there. -/
def EditAnswer.Resolves (b : Batch) : EditAnswer → Prop
  | .done | .truth _ => True
  | .type h => ∃ d, b.find? h = some d ∧ d.handle = h
  | .field h => ∃ f, b.field? h = some f ∧ f.handle = h
  | .method h | .registered h _ => ∃ m, b.method? h = some m ∧ m.handle = h
  | .property h => ∃ p, b.property? h = some p ∧ p.handle = h
  | .event h => ∃ v, b.event? h = some v ∧ v.handle = h

namespace Batch

variable {α : Type} {u : Universe} {b b' : Batch} {t : TypeHandle} {target? : Option TypeHandle}
  {rewrite : DraftMethod → DraftMethod} {annotate : DraftField → DraftField}

/-! ### What answers name -/

theorem resolves_method (hwf : b.WellFormed) {d : Descriptor} (hd : b.find? t = some d)
    {h : MethodHandle} (hdeclares : d.Declares h) :
    ∃ m, b.method? h = some m ∧ m.handle = h := by
  have hplaced : ∀ (m : DraftMethod) (slot : Slot), m.handle = ⟨t, slot⟩ → m.handle = h →
      d.method? ⟨t, slot⟩ = some m → ∃ m, b.method? h = some m ∧ m.handle = h := by
    intro m slot hslot hhandle hm
    obtain rfl : ⟨t, slot⟩ = h := hslot.symm.trans hhandle
    exact ⟨m, by rw [method?, hd, Option.bind_some, hm], hhandle⟩
  have howner := (hwf t d hd).handle.symm
  obtain ⟨m, hm | hm | hm, hhandle⟩ := hdeclares
  · obtain ⟨i, hi⟩ := Array.mem_iff_getElem?.mp hm
    exact hplaced m _ ((hwf t d hd).methods i m hi).1 hhandle
      (by rwa [Descriptor.method?, if_pos howner])
  · obtain ⟨i, hi⟩ := Array.mem_iff_getElem?.mp hm
    exact hplaced m _ ((hwf t d hd).constructors i m hi).1 hhandle
      (by rwa [Descriptor.method?, if_pos howner])
  · exact hplaced m _ ((hwf t d hd).initializer m hm).1 hhandle
      (by rwa [Descriptor.method?, if_pos howner])

theorem resolves_field (hwf : b.WellFormed) {d : Descriptor} (hd : b.find? t = some d)
    {h : FieldHandle} (hheld : ∃ f ∈ d.fields, f.handle = h) :
    ∃ f, b.field? h = some f ∧ f.handle = h := by
  obtain ⟨f, hf, rfl⟩ := hheld
  obtain ⟨i, hi⟩ := Array.mem_iff_getElem?.mp hf
  have hhandle := ((hwf t d hd).fields i f hi).1
  refine ⟨f, ?_, rfl⟩
  rw [field?, hhandle, hd, Option.bind_some, Descriptor.field?, if_pos (hwf t d hd).handle.symm]
  exact hi

theorem resolves_property (hwf : b.WellFormed) {d : Descriptor} (hd : b.find? t = some d)
    {h : PropertyHandle} (hheld : ∃ p ∈ d.properties, p.handle = h) :
    ∃ p, b.property? h = some p ∧ p.handle = h := by
  obtain ⟨p, hp, rfl⟩ := hheld
  obtain ⟨i, hi⟩ := Array.mem_iff_getElem?.mp hp
  have hhandle := ((hwf t d hd).properties i p hi).1
  refine ⟨p, ?_, rfl⟩
  rw [property?, hhandle, hd, Option.bind_some, Descriptor.property?,
    if_pos (hwf t d hd).handle.symm]
  exact hi

theorem resolves_event (hwf : b.WellFormed) {d : Descriptor} (hd : b.find? t = some d)
    {h : EventHandle} (hheld : ∃ v ∈ d.events, v.handle = h) :
    ∃ v, b.event? h = some v ∧ v.handle = h := by
  obtain ⟨v, hv, rfl⟩ := hheld
  obtain ⟨i, hi⟩ := Array.mem_iff_getElem?.mp hv
  have hhandle := ((hwf t d hd).events i v hi).1
  refine ⟨v, ?_, rfl⟩
  rw [event?, hhandle, hd, Option.bind_some, Descriptor.event?, if_pos (hwf t d hd).handle.symm]
  exact hi

theorem resolves_registered (hwf : b.WellFormed) (hregisters : b.Registers) {d : Descriptor}
    (hd : b.find? t = some d) {h : MethodHandle} (hregistered : d.Registered h) :
    ∃ m, b.method? h = some m ∧ m.handle = h := by
  obtain ⟨own, hown, hhandle⟩ := hregisters t d hd h hregistered
  exact resolves_method hwf hd ⟨own, .inl hown, hhandle⟩

/-! ### What edits leave -/

theorem Appended.refl (target? : Option TypeHandle) (b : Batch) : b.Appended target? id id b where
  target := fun _ d _ hd => ⟨d, hd, .refl d⟩
  others := fun _ _ _ hd => hd
  new := fun _ _ hnone hd => by
    rw [hnone] at hd
    cases hd

theorem appended_set {d d' : Descriptor} (hd : b.find? t = some d)
    (h : d.Appended rewrite annotate d') :
    b.Appended (some t) rewrite annotate { b with types := b.types.setIfInBounds t.index d' } where
  target := by
    rintro _ e ⟨⟩ he
    obtain rfl : d = e := Option.some.inj (hd.symm.trans he)
    exact ⟨d', find?_set (Array.getElem?_eq_some_iff.mp hd).1, h⟩
  others := fun other e hother he => by
    rw [find?_setIfInBounds, if_neg fun heq => hother (by rw [heq])]
    exact he
  new := fun other e hnone he => by
    rw [find?_setIfInBounds, hnone, Option.map_none, ite_self] at he
    cases he

theorem appended_push {made : Descriptor} (hmade : ∀ m, ¬ made.Registered m) :
    b.Appended none id id { b with types := b.types.push made } := by
  refine ⟨fun h d htarget _ => absurd htarget (by simp), fun h d _ hd => ?_, fun h d hnone hd => ?_⟩
  · rw [find?_push, if_neg (Nat.ne_of_lt (Array.getElem?_eq_some_iff.mp hd).1)]
    exact hd
  · rw [find?_push, hnone] at hd
    split at hd
    · obtain rfl := Option.some.inj hd
      exact hmade
    · cases hd

theorem Appended.registers (h : b.Appended target? rewrite annotate b')
    (hrewrite : ∀ m, (rewrite m).handle = m.handle) (hb : b.Registers) : b'.Registers := by
  intro other d' hd' m hm
  cases hd : b.find? other with
  | none => exact absurd hm (h.new other d' hd hd' m)
  | some d =>
    by_cases htarget : target? = some other
    · obtain ⟨d'', hd'', happended⟩ := h.target other d htarget hd
      obtain rfl : d'' = d' := Option.some.inj (hd''.symm.trans hd')
      rcases happended.registered m hm with hold | hnew
      · obtain ⟨own, hown, rfl⟩ := hb other d hd m hold
        obtain ⟨i, hi⟩ := Array.mem_iff_getElem?.mp hown
        exact ⟨rewrite own, Array.mem_of_getElem? (getElem?_of_prefix_map happended.methods hi),
          hrewrite own⟩
      · exact hnew
    · obtain rfl : d = d' := Option.some.inj ((h.others other d htarget hd).symm.trans hd')
      exact hb other d hd m hm

/-- How an edit ends: one descriptor was worked on, and what is answered is there. -/
def Leaves (b : Batch) (e : Edit) (answer : EditAnswer) (b' : Batch) : Prop :=
  b.Appended e.target? e.rewrite e.annotate b' ∧ (b'.WellFormed → b'.Registers → answer.Resolves b')

theorem wp_onType_appended {act : Attempt Descriptor α} {held : α → Descriptor → Prop}
    (h : ∀ d, b.find? t = some d →
      act.wp (fun v d' => d.Appended rewrite annotate d' ∧ held v d') (d.Appended id id) d) :
    (onType t act).wp (fun v b' => b.Appended (some t) rewrite annotate b'
      ∧ ∃ d', b'.find? t = some d' ∧ held v d')
      (b.Appended (some t) id id) b := by
  refine wp_onType (fun _ => .refl _ b) fun d hd => ?_
  refine wp_mono (h d hd) (fun v d' hafter => ?_) fun d' hafter => appended_set hd hafter
  exact ⟨appended_set hd hafter.1, d', find?_set (Array.getElem?_eq_some_iff.mp hd).1, hafter.2⟩

theorem wp_appending {act : Attempt Descriptor α} {held : α → Descriptor → Prop}
    (h : Descriptor.Appending held act) (answer : α → EditAnswer)
    (hresolves : ∀ v b' d', WellFormed b' → Registers b' → b'.find? t = some d' → held v d' →
      (answer v).Resolves b') :
    (onType t act >>= fun v => pure (answer v)).wp
      (fun answer b' => b.Appended (some t) id id b'
        ∧ (b'.WellFormed → b'.Registers → answer.Resolves b'))
      (b.Appended (some t) id id) b := by
  rw [wp_bind]
  refine wp_mono (wp_onType_appended fun d _ => h d d (.refl d)) ?_ fun _ hafter => hafter
  rintro v b' ⟨happended, d', hd', hheld⟩
  exact ⟨happended, fun hwf hregisters => hresolves v b' d' hwf hregisters hd' hheld⟩

theorem wp_createType_appended (space name : String) (flags : UInt32) (base : Option Signature) :
    (createType u space name flags base).wp
      (fun h b' => b.Appended none id id b'
        ∧ (b'.WellFormed → b'.Registers → (EditAnswer.type h).Resolves b'))
      (b.Appended none id id) b := by
  refine wp_createType (fun _ _ =>
    ⟨appended_push (by simp [Descriptor.Registered, Descriptor.touch, Keyed.find?]), fun _ _ => ?_⟩)
    (.refl _ b)
  exact ⟨_, by rw [find?_push, if_pos rfl], rfl⟩

theorem Appended.after_push {mid : Batch} {d : Descriptor} (h : b.Appended none id id mid)
    (h' : mid.Appended (some t) rewrite annotate b') (hd : b.find? t = some d) :
    b.Appended (some t) rewrite annotate b' where
  target := fun other e htarget he => h'.target other e htarget (h.others other e (by simp) he)
  others := fun other e hother he => h'.others other e hother (h.others other e (by simp) he)
  new := by
    intro other e hnone he
    cases hmid : mid.find? other with
    | none => exact h'.new other e hmid he
    | some old =>
      have hother : some t ≠ some other := by
        rintro ⟨⟩
        rw [hnone] at hd
        cases hd
      obtain rfl : old = e := Option.some.inj ((h'.others other old hother hmid).symm.trans he)
      exact h.new other old hnone hmid

theorem wp_addNested_appended (outer : TypeHandle) (name : String) (flags : UInt32)
    (base : Option Signature) :
    (addNested u outer name flags base).wp
      (fun h b' => b.Appended (some outer) id id b'
        ∧ (b'.WellFormed → b'.Registers → (EditAnswer.type h).Resolves b'))
      (b.Appended (some outer) id id) b := by
  refine wp_addNested (fun d hd _ _ _ => ⟨?_, fun _ _ => ?_⟩) (.refl _ b)
  · refine (appended_push ?_).after_push
      (appended_set ?_ { Descriptor.Appended.refl d with nested := prefix_push _ _ }) hd
    · simp [Descriptor.Registered, Descriptor.touch, Keyed.find?]
    · rw [find?_push, if_neg (Nat.ne_of_lt (Array.getElem?_eq_some_iff.mp hd).1), hd]
  · have hne : outer ≠ ⟨b.types.size⟩ := fun heq =>
      Nat.ne_of_lt (Array.getElem?_eq_some_iff.mp hd).1 (congrArg TypeHandle.index heq)
    exact ⟨_, by rw [find?_setIfInBounds, if_neg hne, find?_push, if_pos rfl], rfl⟩

theorem wp_askAbstract_appended (t : TypeHandle) :
    (askAbstract u t).wp (fun _ => b.Appended (some t) id id) (b.Appended (some t) id id) b := by
  have halone : (askAlone u t).wp (fun _ => b.Appended (some t) id id)
      (b.Appended (some t) id id) b := by
    refine wp_onType (fun _ => .refl _ b) fun d hd => ?_
    have hasked : d.Appended id id (d.askAbstract u).2 := by
      unfold Descriptor.askAbstract
      split
      · exact .refl d
      · exact { Descriptor.Appended.refl d with }
    rw [wp_of]
    exact appended_set hd hasked
  unfold askAbstract
  rw [wp_bind]
  refine wp_mono halone (fun alone mid hmid => ?_) fun _ hafter => hafter
  simp only [wp_ite, wp_pure, wp_bind, wp_get, wp_lift]
  exact ⟨fun _ => hmid, fun _ => ⟨fun _ _ => hmid, fun _ _ => hmid⟩⟩

/-! ### Members that are changed -/

theorem appended_rework {d : Descriptor} {h : MethodHandle} {change : DraftMethod → DraftMethod}
    (hwf : d.WellFormed t) (hsome : (d.method? h).isSome) :
    d.Appended (Descriptor.reworking h change) id (d.modifyMethod h.slot change).touch := by
  obtain ⟨owner, slot⟩ := h
  have howner : owner = t := by
    by_contra hother
    rw [Descriptor.method?, if_neg fun heq => hother (heq.trans hwf.handle)] at hsome
    cases hsome
  subst howner
  exact Descriptor.appended_modifyMethod hwf slot change

theorem appended_annotate {d : Descriptor} {h : FieldHandle} {a : Attribute} (hwf : d.WellFormed t)
    (howner : h.owner = d.handle) :
    d.Appended id (Descriptor.annotating h a) (Descriptor.touch { d with
      fields := d.fields.modify h.index fun f =>
          { f with attributes := f.attributes.push a } }) := by
  have hhere : ∀ i : Nat, (⟨t, i⟩ : FieldHandle) = h ↔ h.index = i := by
    obtain ⟨owner, index⟩ := h
    obtain rfl : owner = t := howner.trans hwf.handle
    simp [eq_comm]
  have hmodified : d.fields.toList.map (Descriptor.annotating h a)
      = (d.fields.modify h.index fun f => { f with attributes := f.attributes.push a }).toList :=
    Descriptor.toList_map_eq_modify fun i f hf => by
      simp only [Descriptor.annotating, (hwf.fields i f hf).1, hhere]
  exact { Descriptor.Appended.refl d with fields := hmodified ▸ List.prefix_rfl }

theorem wp_rework_appended {act : Attempt Descriptor PUnit} {h : MethodHandle}
    {change : DraftMethod → DraftMethod} (hb : b.WellFormed)
    (hact : ∀ (d : Descriptor) (post : PUnit → Descriptor → Prop) (fail : Descriptor → Prop),
      ((d.method? h).isSome → post ⟨⟩ (d.modifyMethod h.slot change).touch) → fail d →
      act.wp post fail d) :
    (onType t act >>= fun _ => pure EditAnswer.done).wp
      (fun answer b' => b.Appended (some t) (Descriptor.reworking h change) id b'
        ∧ (b'.WellFormed → b'.Registers → answer.Resolves b'))
      (b.Appended (some t) id id) b := by
  have hreworked : ∀ d, b.find? t = some d →
      act.wp (fun _ d' => d.Appended (Descriptor.reworking h change) id d'
        ∧ True) (d.Appended id id) d :=
    fun d hd => hact d _ _ (fun hsome => ⟨appended_rework (hb t d hd) hsome, trivial⟩) (.refl d)
  exact wp_step (wp_onType_appended hreworked) (fun _ _ hafter => ⟨hafter.1, fun _ _ => trivial⟩)
    fun _ hafter => hafter

theorem wp_perform_appended (hb : b.WellFormed) (e : Edit) :
    (e.perform u).wp (b.Leaves e) (b.Appended e.target? id id) b := by
  cases e with
  | createType space name flags base =>
    exact wp_step (wp_createType_appended space name flags base) (fun _ _ hafter => hafter) fun _
      hafter => hafter
  | createInterface space name =>
    exact wp_step (wp_createType_appended space name interfaceFlags none) (fun _ _ hafter => hafter)
      fun _ hafter => hafter
  | addNested outer name flags base =>
    exact wp_step (wp_addNested_appended outer name flags base) (fun _ _ hafter => hafter) fun _
      hafter => hafter
  | addBatchInterface t i =>
    have hlisted := fun d (_ : b.find? t = some d) =>
      Descriptor.appending_addDraftInterface i d d (.refl d)
    exact wp_step (wp_addBatchInterface (fun _ _ _ => wp_onType_appended hlisted) (.refl _ b))
      (fun _ _ hafter => ⟨hafter.1, fun _ _ => trivial⟩) fun _ hafter => hafter
  | addField t name signature flags =>
    exact wp_appending (Descriptor.appending_addField name signature flags) .field
      fun _ _ _ hwf _ hd hheld => resolves_field hwf hd hheld
  | addConstructor t flags parameters body =>
    exact wp_appending (Descriptor.appending_addConstructor flags parameters body) .method
      fun _ _ _ hwf _ hd hheld => resolves_method hwf hd hheld
  | addTypeInitializer t body =>
    exact wp_appending (Descriptor.appending_addTypeInitializer body) .method
      fun _ _ _ hwf _ hd hheld => resolves_method hwf hd hheld
  | addTypeInitialization t e =>
    exact wp_appending (Descriptor.appending_addTypeInitialization e) (fun _ => .done) fun _ _ _ _
      _ _ _ => trivial
  | addInitialization t e =>
    exact wp_appending (Descriptor.appending_addInitialization e) (fun _ => .done) fun _ _ _ _
      _ _ _ => trivial
  | addMethod t name flags signature body =>
    exact wp_appending (Descriptor.appending_addMethod name flags signature body) .method
      fun _ _ _ hwf _ hd hheld => resolves_method hwf hd hheld
  | setMethodBody t h body =>
    exact wp_rework_appended hb fun d post fail hpost hfail =>
      Descriptor.wp_setMethodBody (fun _ m hm _ => hpost (Option.isSome_of_eq_some hm)) hfail
  | addProperty t name signature getter setter =>
    exact wp_appending (Descriptor.appending_addProperty name signature getter setter) .property
      fun _ _ _ hwf _ hd hheld => resolves_property hwf hd hheld
  | addPropertyAccessors t name signature access getterBody setterBody =>
    exact wp_appending (Descriptor.appending_addPropertyAccessors name signature access getterBody
      setterBody) .property
      fun _ _ _ hwf _ hd hheld => resolves_property hwf hd hheld
  | addAutoProperty t name signature access =>
    exact wp_appending (Descriptor.appending_addAutoProperty name signature access) .property
      fun _ _ _ hwf _ hd hheld => resolves_property hwf hd hheld
  | addEvent t name type add remove raise =>
    exact wp_appending (Descriptor.appending_addEvent name type add remove raise) .event
      fun _ _ _ hwf _ hd hheld => resolves_event hwf hd hheld
  | addInterface t interface allow =>
    exact wp_appending (Descriptor.appending_addInterface interface allow) (fun _ => .done) fun _ _
      _ _ _ _ _ => trivial
  | addAttribute t a =>
    exact wp_appending (Descriptor.appending_addAttribute a) (fun _ => .done) fun _ _ _ _ _ _ _ =>
      trivial
  | addMethodAttribute t h a =>
    exact wp_rework_appended hb fun d post fail hpost hfail =>
      Descriptor.wp_addMethodAttribute (fun _ hsome => hpost hsome) hfail
  | addFieldAttribute t h a =>
    have hannotated : ∀ d, b.find? t = some d → (Descriptor.addFieldAttribute h a).wp
        (fun _ d' => d.Appended id (Descriptor.annotating h a) d' ∧ True) (d.Appended id id) d :=
        fun d hd =>
          Descriptor.wp_addFieldAttribute (fun _ howner _ =>
            ⟨appended_annotate (hb t d hd) howner, trivial⟩) (.refl d)
    exact wp_step (wp_onType_appended hannotated) (fun _ _ hafter => ⟨hafter.1, fun _ _ => trivial⟩)
      fun _ hafter => hafter
  | overrideMethod t m =>
    exact wp_appending (Descriptor.appending_getOrAddOverride m) (fun answer =>
      .registered answer.1 answer.2)
      fun _ _ _ hwf hregisters hd hheld => resolves_registered hwf hregisters hd hheld
  | implementMethod t m =>
    exact wp_appending (Descriptor.appending_getOrAddImplementation m) (fun answer =>
      .registered answer.1 answer.2)
      fun _ _ _ hwf hregisters hd hheld => resolves_registered hwf hregisters hd hheld
  | askAbstract t =>
    exact wp_step (wp_askAbstract_appended t) (fun _ _ hafter => ⟨hafter, fun _ _ => trivial⟩) fun _
      hafter => hafter

end Batch

/-! ### What was asked for -/

/-- The last method has this handle, and the name and the signature of a method that was there. -/
def Descriptor.EndsWith (d : Descriptor) (h : MethodHandle) (r : MethodRecord) : Prop :=
  ∃ own, d.methods.back? = some own ∧ own.handle = h ∧ own.name = r.name
    ∧ own.signature = r.signature

/-- What the edit asked for is there, as the last of its kind, and the answer is its handle. An
override or an implementation is registered, and it is the last method if it is new. -/
def Edit.Finds (u : Universe) (b : Batch) : Edit → EditAnswer → Prop
  | createType space name flags base, .type h =>
    b.types.back? = some (Descriptor.touch { handle := h, space, name, flags, base })
  | createInterface space name, .type h =>
    b.types.back?
      = some (Descriptor.touch
      { handle := h, space, name, flags := Batch.interfaceFlags, base := none })
  | addNested outer name flags base, .type h =>
    b.types.back? = some (Descriptor.touch
        { handle := h, space := "", name, flags := Batch.nestedFlags flags, base,
          declaring := some outer })
      ∧ ∃ d, b.find? outer = some d ∧ d.nested.back? = some h
  | addField t name signature flags, .field h =>
    ∃ d, b.find? t = some d ∧ d.fields.back? = some { handle := h, name, signature, flags }
  | addConstructor t flags parameters body, .method h =>
    ∃ d, b.find? t = some d ∧ d.constructors.back? = some
      { handle := h, name := ".ctor", kind := .constructor,
        flags := flags ||| Descriptor.specialFlags,
        signature := ⟨.void, parameters⟩, body := some body }
  | addTypeInitializer t body, .method h =>
    ∃ d, b.find? t = some d ∧ d.typeInitializer = some
      { handle := h, name := ".cctor", kind := .typeInitializer,
        flags := MethodFlags.isPrivate ||| MethodFlags.static ||| MethodFlags.hideBySig |||
        Descriptor.specialFlags,
        signature := {}, body := some body }
  | addMethod t name flags signature body, .method h =>
    ∃ d, b.find? t = some d ∧ d.methods.back?
      = some { handle := h, name, kind := .method, flags, signature, body }
  | addProperty t name signature getter setter, .property h =>
    ∃ d, b.find? t = some d ∧ d.properties.back?
      = some { handle := h, name, signature, getter, setter }
  | addPropertyAccessors t name signature _ getterBody setterBody, .property h =>
    ∃ d, b.find? t = some d ∧ ∃ getter setter, d.properties.back?
      = some { handle := h, name, signature, getter, setter }
      ∧ getter.isSome = getterBody.isSome ∧ setter.isSome = setterBody.isSome
  | addAutoProperty t name signature _, .property h =>
    ∃ d, b.find? t = some d ∧ ∃ getter setter, d.properties.back?
      = some { handle := h, name, signature, getter, setter }
      ∧ getter.isSome = true ∧ setter.isSome = true
  | addEvent t name type add remove raise, .event h =>
    ∃ d, b.find? t = some d ∧ d.events.back? = some { handle := h, name, type, add, remove, raise }
  | overrideMethod t m, .registered h created =>
    ∃ d, b.find? t = some d ∧ d.overrides.find? (u.slotToken m) = some h
      ∧ (created = true → d.EndsWith h (u.method m))
  | implementMethod t m, .registered h created =>
    ∃ d, b.find? t = some d ∧ d.implementations.find? (u.method m).token = some h
      ∧ (created = true → ∃ asked,
        (asked = m ∨ ((d.baseType? u).bind fun base => u.resolveInterfaceMethod base m)
        = some asked)
        ∧ d.EndsWith h (u.method asked))
  | addBatchInterface .., .done | addTypeInitialization .., .done | addInitialization ..,
    .done | setMethodBody .., .done
  | addInterface .., .done | addAttribute .., .done | addMethodAttribute ..,
    .done | addFieldAttribute .., .done
  | askAbstract .., .truth _ => True
  | _, _ => False

namespace Descriptor

variable {u : Universe} {d : Descriptor}

theorem wp_getOrAddOverride_finds (m : MethodId) : (getOrAddOverride u m).wp
    (fun answer d' => d'.overrides.find? (u.slotToken m) = some answer.1
      ∧ (answer.2 = true → d'.EndsWith answer.1 (u.method m))
      ∧ d'.baseType? u = d.baseType? u)
    (fun _ => True) d := by
  refine wp_getOrAddOverride (fun _ existing _ hrow => ⟨hrow, nofun, rfl⟩) (fun _ own _ _ _ =>
    ⟨?_, nofun, rfl⟩)
    (fun base access _ _ _ _ => ⟨?_, fun _ => ?_, rfl⟩) trivial
  · exact Keyed.find?_put_self ..
  · exact Keyed.find?_put_self ..
  · exact ⟨_, Array.back?_push .., rfl, rfl, rfl⟩

theorem wp_getOrAddImplementation_finds (m : MethodId) : (getOrAddImplementation u m).wp
    (fun answer d' => d'.implementations.find? (u.method m).token = some answer.1
      ∧ (answer.2 = true → ∃ asked,
        (asked = m ∨ ((d'.baseType? u).bind fun base => u.resolveInterfaceMethod base m)
        = some asked)
        ∧ d'.EndsWith answer.1 (u.method asked)))
    (fun _ => True) d := by
  refine wp_getOrAddImplementation (fun existing _ hrow => ⟨hrow, nofun⟩) (fun own _ _ _ =>
    ⟨Keyed.find?_put_self .., nofun⟩)
    (fun inherited _ _ _ hinherited _ => ?_) (fun _ _ _ _ => ⟨Keyed.find?_put_self .., fun _ => ?_⟩)
    trivial
  · refine wp_mono (wp_getOrAddOverride_finds inherited) (fun answer after hafter => ?_) fun _ _ =>
      trivial
    obtain ⟨-, hends, hbase⟩ := hafter
    refine ⟨Keyed.find?_put_self .., fun hnew => ⟨inherited, .inr ?_, hends hnew⟩⟩
    have hsame :
      baseType? u { after with implementations := after.implementations.put (u.method m).token answer.1 } = d.baseType? u :=
      hbase
    rw [hsame]
    exact hinherited
  · exact ⟨m, .inl rfl, _, Array.back?_push .., rfl, rfl, rfl⟩

theorem wp_addPropertyAccessors_finds (name : String) (signature : Signature) (access : Access)
    (getterBody setterBody : Option Expr) :
    (addPropertyAccessors u name signature access getterBody setterBody).wp
      (fun h d' => ∃ getter setter, d'.properties.back?
        = some { handle := h, name, signature, getter, setter }
        ∧ getter.isSome = getterBody.isSome ∧ setter.isSome = setterBody.isSome)
      (fun _ => True) d := by
  have haccessor : ∀ (body : Option Expr) (add : Expr → Attempt Descriptor MethodHandle)
    (d : Descriptor),
      (body.mapM add).wp (fun handle _ => handle.isSome = body.isSome) (fun _ => True) d := by
    intro body add d
    cases body with
    | none => exact rfl
    | some body =>
      rw [Option.mapM_some, wp_map]
      exact wp_iff.mpr ⟨fun _ _ _ => rfl, fun _ _ _ => trivial⟩
  refine wp_addPropertyAccessors (fun _ _ => ?_) fun _ => trivial
  refine wp_step (haccessor getterBody _ d) (fun getter mid hgetter => ?_) fun _ _ => trivial
  refine wp_step (haccessor setterBody _ mid) (fun setter last hsetter => ?_) fun _ _ => trivial
  exact wp_addProperty (fun _ _ _ _ => ⟨getter, setter, Array.back?_push .., hgetter, hsetter⟩)
    fun _ => trivial

end Descriptor

namespace Batch

variable {α : Type} {u : Universe} {b : Batch} {t : TypeHandle}

theorem wp_onType_finds {act : Attempt Descriptor α} {e : Edit} (answer : α → EditAnswer)
    (hact : ∀ d, act.wp (fun v d' => ∀ b' : Batch, b'.find? t = some d' → e.Finds u b' (answer v))
      (fun _ => True) d) :
    (onType t act >>= fun v => pure (answer v)).wp (fun answer b' => e.Finds u b' answer)
        (fun _ => True) b := by
  rw [wp_bind]
  refine wp_onType (fun _ => trivial) fun d hd =>
    wp_mono (hact d) (fun v d' hfinds => ?_) fun _ _ => trivial
  exact hfinds _ (find?_set (Array.getElem?_eq_some_iff.mp hd).1)

/-- What is answered is what was asked for: a new member has the name, the signature and the
flags of the edit, it is the last of its kind, and the answer is its handle. -/
theorem wp_perform_finds (u : Universe) (b : Batch) (e : Edit) :
    (e.perform u).wp (fun answer b' => e.Finds u b' answer) (fun _ => True) b := by
  have hdone : ∀ {act : Attempt Batch PUnit} {e : Edit}, (∀ b', e.Finds u b' .done) →
      (act >>= fun _ => pure EditAnswer.done).wp (fun answer b' => e.Finds u b' answer)
      (fun _ => True) b := by
    intro act e h
    rw [wp_bind]
    exact wp_iff.mpr ⟨fun _ b' _ => h b', fun _ _ _ => trivial⟩
  cases e with
  | createType space name flags base =>
    have hmade : (createType u space name flags base).wp
        (fun h b' => (Edit.createType space name flags base).Finds u b' (.type h))
        (fun _ => True) b :=
      wp_createType (fun _ _ => Array.back?_push ..) trivial
    exact wp_step hmade (fun _ _ hfinds => hfinds) fun _ _ => trivial
  | createInterface space name =>
    have hmade : (createInterface u space name).wp
        (fun h b' => (Edit.createInterface space name).Finds u b' (.type h)) (fun _ => True) b :=
      wp_createType (fun _ _ => Array.back?_push ..) trivial
    exact wp_step hmade (fun _ _ hfinds => hfinds) fun _ _ => trivial
  | addNested outer name flags base =>
    have hmade : (addNested u outer name flags base).wp
        (fun h b' => (Edit.addNested outer name flags base).Finds u b' (.type h))
        (fun _ => True) b := by
      refine wp_addNested (fun d hd _ _ _ => ?_) trivial
      have hlt : outer.index < b.types.size := (Array.getElem?_eq_some_iff.mp hd).1
      refine ⟨?_, _,
        find?_set (Nat.lt_of_lt_of_eq (Nat.lt_succ_of_lt hlt) (Array.size_push ..).symm),
        Array.back?_push ..⟩
      rw [Array.back?_eq_getElem?, Array.size_setIfInBounds, Array.size_push, Nat.add_sub_cancel,
        Array.getElem?_setIfInBounds_ne (Nat.ne_of_lt hlt), Array.getElem?_push_size]
    exact wp_step hmade (fun _ _ hfinds => hfinds) fun _ _ => trivial
  | addField t name signature flags =>
    exact wp_onType_finds .field fun d =>
      Descriptor.wp_addField (fun _ _ b' hfound => ⟨_, hfound, Array.back?_push ..⟩) fun _ =>
        trivial
  | addConstructor t flags parameters body =>
    exact wp_onType_finds .method fun d =>
      Descriptor.wp_addConstructor (fun _ _ _ _ _ b' hfound =>
        ⟨_, hfound, Array.back?_push ..⟩) trivial
  | addTypeInitializer t body =>
    exact wp_onType_finds .method fun d => Descriptor.wp_addTypeInitializer (fun _ _ b' hfound =>
      ⟨_, hfound, rfl⟩) trivial
  | addMethod t name flags signature body =>
    exact wp_onType_finds .method fun d =>
      Descriptor.wp_addMethod (fun _ _ b' hfound => ⟨_, hfound, Array.back?_push ..⟩) fun _ =>
        trivial
  | addProperty t name signature getter setter =>
    exact wp_onType_finds .property fun d =>
      Descriptor.wp_addProperty (fun _ _ _ _ b' hfound => ⟨_, hfound, Array.back?_push ..⟩) fun _ =>
        trivial
  | addPropertyAccessors t name signature access getterBody setterBody =>
    exact wp_onType_finds .property fun d =>
      wp_mono (Descriptor.wp_addPropertyAccessors_finds name signature access getterBody setterBody)
        (fun _ d' hheld b' hfound => ⟨d', hfound, hheld⟩) fun _ _ => trivial
  | addAutoProperty t name signature access =>
    refine wp_onType_finds .property fun d => ?_
    unfold Descriptor.addAutoProperty
    rw [wp_bind]
    refine Descriptor.wp_addField (fun _ _ => ?_) fun _ => trivial
    exact wp_mono (Descriptor.wp_addPropertyAccessors_finds name signature access _ _)
      (fun _ d' hheld b' hfound => ⟨d', hfound, hheld⟩) fun _ _ => trivial
  | addEvent t name type add remove raise =>
    exact wp_onType_finds .event fun d =>
      Descriptor.wp_addEvent (fun _ _ _ _ b' hfound => ⟨_, hfound, Array.back?_push ..⟩) trivial
  | overrideMethod t m =>
    exact wp_onType_finds (u := u) (e :=
        .overrideMethod t m) (fun answer => .registered answer.1 answer.2) fun d =>
      wp_mono (Descriptor.wp_getOrAddOverride_finds m)
        (fun _ d' hheld b' hfound => ⟨d', hfound, hheld.1, hheld.2.1⟩) fun _ _ => trivial
  | implementMethod t m =>
    exact wp_onType_finds (u := u) (e :=
        .implementMethod t m) (fun answer => .registered answer.1 answer.2) fun d =>
      wp_mono (Descriptor.wp_getOrAddImplementation_finds m) (fun _ d' hheld b' hfound =>
        ⟨d', hfound, hheld⟩) fun _ _ => trivial
  | addBatchInterface t i => exact hdone fun _ => trivial
  | addTypeInitialization t e => exact hdone fun _ => trivial
  | addInitialization t e => exact hdone fun _ => trivial
  | setMethodBody t h body => exact hdone fun _ => trivial
  | addInterface t interface allow => exact hdone fun _ => trivial
  | addAttribute t a => exact hdone fun _ => trivial
  | addMethodAttribute t h a => exact hdone fun _ => trivial
  | addFieldAttribute t h a => exact hdone fun _ => trivial
  | askAbstract t =>
    exact wp_step (wp_iff.mpr ⟨fun _ _ _ => trivial, fun _ _ _ => trivial⟩) (fun _ _ h =>
      h) fun _ _ => trivial

end Batch

/-! ### What stays in the long run -/

/-- Attributes were appended. -/
structure DraftField.Amended (f f' : DraftField) : Prop where
  same : f' = { f with attributes := f'.attributes }
  attributes : f.attributes.toList <+: f'.attributes.toList

/-- Attributes were appended, and the method may have got a body, with which it is not abstract
any more. -/
structure DraftMethod.Amended (m m' : DraftMethod) : Prop where
  same : m' = { m with flags := m'.flags, body := m'.body, attributes := m'.attributes }
  flags : m'.flags = m.flags ∨ m'.flags = m.flags &&& ~~~MethodFlags.abstract
  attributes : m.attributes.toList <+: m'.attributes.toList

namespace DraftField

theorem Amended.refl (f : DraftField) : f.Amended f := ⟨rfl, List.prefix_rfl⟩

theorem Amended.handle {f f' : DraftField} (h : f.Amended f') : f'.handle = f.handle := by
  rw [h.same]

theorem Amended.trans {f mid f' : DraftField} (h : f.Amended mid) (h' : mid.Amended f') :
    f.Amended f' where
  same := by rw [h'.same, h.same]
  attributes := h.attributes.trans h'.attributes

end DraftField

namespace DraftMethod

theorem Amended.refl (m : DraftMethod) : m.Amended m := ⟨rfl, .inl rfl, List.prefix_rfl⟩

theorem Amended.handle {m m' : DraftMethod} (h : m.Amended m') : m'.handle = m.handle := by
  rw [h.same]

theorem Amended.signature {m m' : DraftMethod} (h : m.Amended m') : m'.signature = m.signature := by
  rw [h.same]

theorem Amended.access {m m' : DraftMethod} (h : m.Amended m') : m'.access = m.access := by
  rcases h.flags with hsame | hcleared
  · rw [DraftMethod.access, hsame, DraftMethod.access]
  · rw [DraftMethod.access, hcleared]
    exact (Descriptor.revised_body m .this).access

theorem Amended.trans {m mid m' : DraftMethod} (h : m.Amended mid) (h' : mid.Amended m') :
    m.Amended m' where
  same := by rw [h'.same, h.same]
  flags := by
    rcases h'.flags with hsecond | hsecond <;> rcases h.flags with hfirst | hfirst
      <;> rw [hsecond, hfirst]
    · exact .inl rfl
    · exact .inr rfl
    · exact .inr rfl
    · rw [UInt32.and_assoc, UInt32.and_self]
      exact .inr rfl
  attributes := h.attributes.trans h'.attributes

end DraftMethod

namespace Edit

theorem amended_reworking {h : MethodHandle} {change : DraftMethod → DraftMethod} {m : DraftMethod}
    (hchange : m.Amended (change m)) : m.Amended (Descriptor.reworking h change m) := by
  unfold Descriptor.reworking
  split
  · exact hchange
  · exact .refl m

theorem amended_rewrite (e : Edit) (m : DraftMethod) : m.Amended (e.rewrite m) := by
  cases e with
  | setMethodBody t h body =>
    apply amended_reworking
    exact ⟨rfl, .inr rfl, List.prefix_rfl⟩
  | addMethodAttribute t h a =>
    apply amended_reworking
    exact ⟨rfl, .inl rfl, prefix_push _ _⟩
  | _ => exact .refl m

theorem amended_annotate (e : Edit) (f : DraftField) : f.Amended (e.annotate f) := by
  cases e with
  | addFieldAttribute t h a =>
    show f.Amended (Descriptor.annotating h a f)
    unfold Descriptor.annotating
    split
    · exact ⟨rfl, prefix_push _ _⟩
    · exact .refl f
  | _ => exact .refl f

end Edit

/-- Everything there was is there, at its place. -/
structure Descriptor.Extends (d d' : Descriptor) : Prop where
  handle : d'.handle = d.handle
  heading : d'.heading = d.heading
  flags : d'.flags = d.flags
  isSealed : d.isSealed = true → d'.isSealed = true
  interfaces : d.interfaces.toList <+: d'.interfaces.toList
  fields : ∀ (i : Nat) f, d.fields[i]? = some f → ∃ f', d'.fields[i]? = some f' ∧ f.Amended f'
  constructors : ∀ (i : Nat) c, d.constructors[i]? = some c → ∃ c', d'.constructors[i]? = some c'
    ∧ c.Amended c'
  typeInitializer : ∀ m, d.typeInitializer = some m → ∃ m', d'.typeInitializer = some m'
    ∧ m.Amended m'
  methods : ∀ (i : Nat) m, d.methods[i]? = some m → ∃ m', d'.methods[i]? = some m' ∧ m.Amended m'
  properties : d.properties.toList <+: d'.properties.toList
  events : d.events.toList <+: d'.events.toList
  nested : d.nested.toList <+: d'.nested.toList
  attributes : d.attributes.toList <+: d'.attributes.toList
  initializations : d.initializations.toList <+: d'.initializations.toList
  typeInitializations : d.typeInitializations.toList <+: d'.typeInitializations.toList
  overrides : KeepsRows d.overrides d'.overrides
  implementations : KeepsRows d.implementations d'.implementations

namespace Descriptor

variable {d mid d' : Descriptor} {rewrite : DraftMethod → DraftMethod} {annotate : DraftField →
  DraftField}

theorem Appended.extends (h : d.Appended rewrite annotate d')
    (hrewrite : ∀ m : DraftMethod, m.Amended (rewrite m))
    (hannotate : ∀ f : DraftField, f.Amended (annotate f)) : d.Extends d' :=
  { h with
    isSealed := fun hsealed => h.isSealed.trans hsealed
    fields := fun _ f hf => ⟨_, getElem?_of_prefix_map h.fields hf, hannotate f⟩
    constructors := fun _ c hc => ⟨_, getElem?_of_prefix_map h.constructors hc, hrewrite c⟩
    typeInitializer := fun m hm => ⟨_, h.typeInitializer m hm, hrewrite m⟩
    methods := fun _ m hm => ⟨_, getElem?_of_prefix_map h.methods hm, hrewrite m⟩ }

theorem Extends.refl (d : Descriptor) : d.Extends d := (Appended.refl d).extends .refl .refl

theorem Extends.trans (h : d.Extends mid) (h' : mid.Extends d') : d.Extends d' where
  handle := h'.handle.trans h.handle
  heading := h'.heading.trans h.heading
  flags := h'.flags.trans h.flags
  isSealed := fun hsealed => h'.isSealed (h.isSealed hsealed)
  interfaces := h.interfaces.trans h'.interfaces
  fields := fun i f hf => by
    obtain ⟨f₁, hf₁, hfirst⟩ := h.fields i f hf
    obtain ⟨f₂, hf₂, hsecond⟩ := h'.fields i f₁ hf₁
    exact ⟨f₂, hf₂, hfirst.trans hsecond⟩
  constructors := fun i c hc => by
    obtain ⟨c₁, hc₁, hfirst⟩ := h.constructors i c hc
    obtain ⟨c₂, hc₂, hsecond⟩ := h'.constructors i c₁ hc₁
    exact ⟨c₂, hc₂, hfirst.trans hsecond⟩
  typeInitializer := fun m hm => by
    obtain ⟨m₁, hm₁, hfirst⟩ := h.typeInitializer m hm
    obtain ⟨m₂, hm₂, hsecond⟩ := h'.typeInitializer m₁ hm₁
    exact ⟨m₂, hm₂, hfirst.trans hsecond⟩
  methods := fun i m hm => by
    obtain ⟨m₁, hm₁, hfirst⟩ := h.methods i m hm
    obtain ⟨m₂, hm₂, hsecond⟩ := h'.methods i m₁ hm₁
    exact ⟨m₂, hm₂, hfirst.trans hsecond⟩
  properties := h.properties.trans h'.properties
  events := h.events.trans h'.events
  nested := h.nested.trans h'.nested
  attributes := h.attributes.trans h'.attributes
  initializations := h.initializations.trans h'.initializations
  typeInitializations := h.typeInitializations.trans h'.typeInitializations
  overrides := fun token m hrow => h'.overrides token m (h.overrides token m hrow)
  implementations := fun token m hrow => h'.implementations token m (h.implementations token m hrow)

theorem eq_of_forget (h : d'.forget = d.close.forget) :
    d' = { d.close with abstractMemo := d'.abstractMemo } := by
  cases d'
  simpa [forget, close] using h

theorem extends_close (h : d'.forget = d.close.forget) : d.Extends d' := by
  rw [eq_of_forget h]
  exact { Extends.refl d with isSealed := fun _ => rfl }

end Descriptor

namespace Batch

variable {u : Universe} {b mid b' : Batch}

inductive Step : Batch → Batch → Prop
  | edit (u : Universe) (e : Edit) (b : Batch) : Step b ((e.perform u).start b).2
  | proxy (u : Universe) (requested : TypeId) (name : String) (b : Batch) :
    Step b (b.createProxy u requested name).2
  | generate (objectType : TypeId) (w : Workshop) (b : Batch) :
      Step b ((Production.generate objectType).start { batch := b, workshop := w }).2.batch

/-- What the batch may become. -/
abbrev Later : Batch → Batch → Prop := Relation.ReflTransGen Step

theorem Drafted.step (hb : b.Drafted) (h : Step b b') : b'.Drafted := by
  cases h with
  | edit u e b => exact .edit u e hb
  | proxy u requested name b => exact .proxy u requested name hb
  | generate objectType w b => exact .generate objectType w hb

theorem Drafted.later (hb : b.Drafted) (h : Later b b') : b'.Drafted := by
  induction h with
  | refl => exact hb
  | tail _ hstep ih => exact ih.step hstep

/-- Every descriptor is there, and everything in it. -/
def Extends (b b' : Batch) : Prop :=
  ∀ h d, b.find? h = some d → ∃ d', b'.find? h = some d' ∧ d.Extends d'

theorem Extends.trans (h : b.Extends mid) (h' : mid.Extends b') : b.Extends b' := by
  intro t d hd
  obtain ⟨d₁, hd₁, hfirst⟩ := h t d hd
  obtain ⟨d₂, hd₂, hsecond⟩ := h' t d₁ hd₁
  exact ⟨d₂, hd₂, hfirst.trans hsecond⟩

theorem Appended.extends {target? : Option TypeHandle} {rewrite : DraftMethod → DraftMethod}
    {annotate : DraftField → DraftField} (h : b.Appended target? rewrite annotate b')
    (hrewrite : ∀ m : DraftMethod, m.Amended (rewrite m)) (hannotate : ∀ f : DraftField,
        f.Amended (annotate f)) : b.Extends b' := by
  intro t d hd
  by_cases htarget : target? = some t
  · obtain ⟨d', hd', happended⟩ := h.target t d htarget hd
    exact ⟨d', hd', happended.extends hrewrite hannotate⟩
  · exact ⟨d, h.others t d htarget hd, .refl d⟩

theorem appended_createProxy (u : Universe) (requested : TypeId) (name : String) (b : Batch) :
    b.Appended none id id (b.createProxy u requested name).2 :=
  appended_push (by simp [Descriptor.Registered, Descriptor.proxy, Keyed.find?])

theorem find?_generate (objectType : TypeId) (w : Workshop) {h : TypeHandle} {d : Descriptor}
    (hd : b.find? h = some d) :
    ∃ d', ((Production.generate objectType).start { batch := b, workshop := w }).2.batch.find? h
    = some d'
      ∧ d'.forget = d.close.forget := by
  have hremembers :=
    wp_const.mp (Production.wp_generate_remembers objectType { batch := b, workshop := w })
  refine hremembers.find ?_
  show b.closeAll.find? h = _
  rw [find?_closeAll, hd, Option.map_some]

theorem Step.extends (hb : b.Drafted) (h : Step b b') : b.Extends b' := by
  cases h with
  | edit u e b =>
    refine wp_const.mp (wp_mono (wp_perform_appended hb.wellFormed e) (fun _ _ hafter => ?_)
      fun _ hafter => ?_)
    · exact hafter.1.extends e.amended_rewrite e.amended_annotate
    · exact hafter.extends .refl .refl
  | proxy u requested name b => exact (appended_createProxy u requested name b).extends .refl .refl
  | generate objectType w b =>
    intro t d hd
    obtain ⟨d', hd', hforget⟩ := find?_generate objectType w hd
    exact ⟨d', hd', Descriptor.extends_close hforget⟩

theorem Later.extends (hb : b.Drafted) (h : Later b b') : b.Extends b' := by
  induction h with
  | refl => exact fun _ d hd => ⟨d, hd, .refl d⟩
  | tail hearlier hstep ih => exact ih.trans (hstep.extends (hb.later hearlier))

theorem Drafted.registers (hb : b.Drafted) : b.Registers := by
  induction hb with
  | empty => exact fun _ _ hd => by cases hd
  | @edit u e b hb ih =>
    refine wp_const.mp (wp_mono (wp_perform_appended hb.wellFormed e) (fun _ _ hafter => ?_)
      fun _ hafter => ?_)
    · exact hafter.1.registers (fun m => (e.amended_rewrite m).handle) ih
    · exact hafter.registers (fun _ => rfl) ih
  | @proxy u requested name b hb ih =>
    exact (appended_createProxy u requested name b).registers (fun _ => rfl) ih
  | @generate objectType w b hb ih =>
    have hremembers :=
      wp_const.mp (Production.wp_generate_remembers objectType { batch := b, workshop := w })
    intro t d hd m hm
    obtain ⟨known, hknown, hforget⟩ := hremembers.symm.find hd
    rw [find?_closeAll] at hknown
    obtain ⟨d₀, hd₀, rfl⟩ := Option.map_eq_some_iff.mp hknown
    have hsame : d = { d₀.close with abstractMemo := d.abstractMemo } :=
      Descriptor.eq_of_forget hforget.symm
    rw [hsame] at hm ⊢
    exact ih t d₀ hd₀ m hm

/-! ### Members that were there -/

theorem Extends.field (h : b.Extends b') {handle : FieldHandle} {f : DraftField}
    (hf : b.field? handle = some f) :
    ∃ f', b'.field? handle = some f' ∧ f.Amended f' := by
  obtain ⟨d, hd, hfield⟩ := Option.bind_eq_some_iff.mp hf
  obtain ⟨d', hd', hextends⟩ := h _ d hd
  obtain ⟨howner, hplace⟩ := Option.ite_none_right_eq_some.mp hfield
  obtain ⟨f', hf', hamended⟩ := hextends.fields _ f hplace
  refine ⟨f', ?_, hamended⟩
  rw [field?, hd', Option.bind_some, Descriptor.field?, if_pos (howner.trans hextends.handle.symm),
    hf']

theorem Extends.method (h : b.Extends b') {handle : MethodHandle} {m : DraftMethod}
    (hm : b.method? handle = some m) :
    ∃ m', b'.method? handle = some m' ∧ m.Amended m' := by
  obtain ⟨d, hd, hmethod⟩ := Option.bind_eq_some_iff.mp hm
  obtain ⟨d', hd', hextends⟩ := h _ d hd
  obtain ⟨howner, hplace⟩ := Option.ite_none_right_eq_some.mp hmethod
  rw [method?, hd', Option.bind_some, Descriptor.method?,
    if_pos (howner.trans hextends.handle.symm)]
  obtain ⟨owner, slot⟩ := handle
  cases slot with
  | method index => exact hextends.methods index m hplace
  | constructor index => exact hextends.constructors index m hplace
  | typeInitializer => exact hextends.typeInitializer m hplace

theorem Extends.property (h : b.Extends b') {handle : PropertyHandle} {p : DraftProperty}
    (hp : b.property? handle = some p) :
    b'.property? handle = some p := by
  obtain ⟨d, hd, hproperty⟩ := Option.bind_eq_some_iff.mp hp
  obtain ⟨d', hd', hextends⟩ := h _ d hd
  obtain ⟨howner, hplace⟩ := Option.ite_none_right_eq_some.mp hproperty
  rw [property?, hd', Option.bind_some, Descriptor.property?,
    if_pos (howner.trans hextends.handle.symm)]
  exact getElem?_of_prefix hextends.properties hplace

theorem Extends.event (h : b.Extends b') {handle : EventHandle} {v : DraftEvent}
    (hv : b.event? handle = some v) :
    b'.event? handle = some v := by
  obtain ⟨d, hd, hevent⟩ := Option.bind_eq_some_iff.mp hv
  obtain ⟨d', hd', hextends⟩ := h _ d hd
  obtain ⟨howner, hplace⟩ := Option.ite_none_right_eq_some.mp hevent
  rw [event?, hd', Option.bind_some, Descriptor.event?, if_pos (howner.trans hextends.handle.symm)]
  exact getElem?_of_prefix hextends.events hplace

theorem Extends.resolves (h : b.Extends b') {answer : EditAnswer} (hanswer : answer.Resolves b) :
    answer.Resolves b' := by
  have hmethod : ∀ handle, (∃ m, b.method? handle = some m ∧ m.handle = handle) →
      ∃ m, b'.method? handle = some m ∧ m.handle = handle := by
    rintro handle ⟨m, hm, hhandle⟩
    obtain ⟨m', hm', hamended⟩ := h.method hm
    exact ⟨m', hm', hamended.handle.trans hhandle⟩
  cases answer with
  | done | truth => trivial
  | type handle =>
    obtain ⟨d, hd, hhandle⟩ := hanswer
    obtain ⟨d', hd', hextends⟩ := h handle d hd
    exact ⟨d', hd', hextends.handle.trans hhandle⟩
  | field handle =>
    obtain ⟨f, hf, hhandle⟩ := hanswer
    obtain ⟨f', hf', hamended⟩ := h.field hf
    exact ⟨f', hf', hamended.handle.trans hhandle⟩
  | method handle => exact hmethod handle hanswer
  | registered handle created => exact hmethod handle hanswer
  | property handle =>
    obtain ⟨p, hp, hhandle⟩ := hanswer
    exact ⟨p, h.property hp, hhandle⟩
  | event handle =>
    obtain ⟨v, hv, hhandle⟩ := hanswer
    exact ⟨v, h.event hv, hhandle⟩

/-- Handles stay good and members are only appended. An edit leaves all descriptors but its
target alone and of the members that the target has changes none, except that a body or an
attribute is given to the one with the handle. What it answers is there from then on, whatever
becomes of the batch. A proxy is a new descriptor, a generation only closes the descriptors. -/
theorem handles_stable (hb : b.Drafted) :
    (∀ (u : Universe) (e : Edit),
      (∀ answer after, (e.perform u).start b = (.ok answer, after) →
        b.Appended e.target? e.rewrite e.annotate after ∧ ∀ later, Later after later →
        answer.Resolves later)
      ∧ ∀ fault after, (e.perform u).start b = (.error fault, after) →
        b.Appended e.target? id id after)
    ∧ (∀ (u : Universe) requested name,
      b.Appended none id id (b.createProxy u requested name).2
      ∧ ∀ later, Later (b.createProxy u requested name).2 later →
        (EditAnswer.type (b.createProxy u requested name).1).Resolves later)
    ∧ (∀ objectType w h d, b.find? h = some d →
      ∃ d', ((Production.generate objectType).start { batch := b, workshop := w }).2.batch.find? h
      = some d'
        ∧ d'.forget = d.close.forget)
    ∧ ∀ later, Later b later →
      b.Extends later
      ∧ (∀ h f, b.field? h = some f → ∃ f', later.field? h = some f' ∧ f.Amended f')
      ∧ (∀ h m, b.method? h = some m → ∃ m', later.method? h = some m' ∧ m.Amended m')
      ∧ (∀ h p, b.property? h = some p → later.property? h = some p)
      ∧ (∀ h v, b.event? h = some v → later.event? h = some v)
      ∧ ∀ answer : EditAnswer, answer.Resolves b → answer.Resolves later := by
  refine ⟨fun u e => ?_, fun u requested name => ⟨appended_createProxy u requested name b,
    fun later hlater => ?_⟩,
    fun objectType w _ _ hd => find?_generate objectType w hd, fun later hlater => ?_⟩
  · obtain ⟨hok, herror⟩ := wp_iff.mp (wp_perform_appended (u := u) hb.wellFormed e)
    refine ⟨fun answer after hrun => ?_, herror⟩
    obtain ⟨happended, hresolves⟩ := hok answer after hrun
    have hafter : after.Drafted := by
      have hstep := hb.step (.edit u e b)
      rwa [hrun] at hstep
    exact ⟨happended, fun later hlater =>
      (hlater.extends hafter).resolves (hresolves hafter.wellFormed hafter.registers)⟩
  · refine (hlater.extends (hb.step (.proxy u requested name b))).resolves
      ⟨.proxy u ⟨b.types.size⟩ requested name, ?_, rfl⟩
    exact (find?_push b ⟨b.types.size⟩ _).trans (if_pos rfl)
  · have hextends := hlater.extends hb
    exact ⟨hextends, fun _ _ => hextends.field, fun _ _ => hextends.method, fun _ _ =>
      hextends.property,
      fun _ _ => hextends.event, fun _ => hextends.resolves⟩

/-- An abstract class with an abstract method. -/
def abstractGreeter : List Edit :=
  [.createType "App" "Greeter" (TypeFlags.isPublic ||| TypeFlags.abstract) none,
   .addMethod ⟨0⟩ "Greet" (MethodFlags.isPublic ||| MethodFlags.virtual ||| MethodFlags.abstract)
   ⟨.void, []⟩ none]

/-- The method is given a body. -/
def bodiedGreeter : Batch :=
  (((Edit.setMethodBody ⟨0⟩ ⟨⟨0⟩, .method 0⟩ (.block [])).perform {}).start
    (Edit.run {} {} abstractGreeter)).2

theorem handles_stable_body :
    (Edit.run {} {} abstractGreeter).Drafted
      ∧ ∃ m m', (Edit.run {} {} abstractGreeter).method? ⟨⟨0⟩, .method 0⟩ = some m
        ∧ bodiedGreeter.method? ⟨⟨0⟩, .method 0⟩ = some m' ∧ m.Amended m' ∧ m.isAbstract = true
        ∧ m'.isAbstract = false := by
  have hb : (Edit.run {} {} abstractGreeter).Drafted := .edit {} _ (.edit {} _ .empty)
  have hbefore : ((Edit.run {} {} abstractGreeter).method? ⟨⟨0⟩, .method 0⟩).map (·.isAbstract)
    = some true := by decide +kernel
  have hafter : (bodiedGreeter.method? ⟨⟨0⟩, .method 0⟩).map (·.isAbstract) = some false := by
    decide +kernel
  obtain ⟨m, hm, habstract⟩ := Option.map_eq_some_iff.mp hbefore
  obtain ⟨m₁, hm₁, hconcrete⟩ := Option.map_eq_some_iff.mp hafter
  obtain ⟨-, -, -, hlater⟩ := handles_stable hb
  obtain ⟨-, -, hmethod, -⟩ := hlater bodiedGreeter (.single (.edit {} _ _))
  obtain ⟨m', hm', hamended⟩ := hmethod ⟨⟨0⟩, .method 0⟩ m hm
  obtain rfl : m' = m₁ := Option.some.inj (hm'.symm.trans hm₁)
  exact ⟨hb, m, m', hm, hm', hamended, habstract, hconcrete⟩

end Batch

end TypeLoom
