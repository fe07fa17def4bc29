import TypeLoom.Proofs.AllOrNothing
import TypeLoom.Proofs.Retaining

/-!
# Well-formed batches

Whatever operations make a batch, and whatever it is generated into in between, all of its
descriptors are well-formed. A generation changes only what descriptors remember, and closes them.
-/

namespace TypeLoom

open Attempt

/-! ### What a generation does to its batch -/

theorem Batch.remembers_askAbstract (u : Universe) (b : Batch) (h : TypeHandle) :
    Maintains b.Remembers (Batch.askAbstract u h) := by
  intro now hnow
  cases hd : now.find? h with
  | some d =>
    have hasked : (Batch.askAbstract u h).wp (fun _ => now.Remembers) now.Remembers now :=
      Batch.wp_askAbstract hd fun _ hr _ => hr
    exact wp_mono hasked (fun _ _ hr => hnow.trans hr) fun _ hr => hnow.trans hr
  | none =>
    unfold Batch.askAbstract Batch.askAlone
    rw [wp_bind]
    exact Batch.wp_onType (fun _ => hnow) fun d hd' => by rw [hd] at hd'; cases hd'

/-- Nothing was done to the batch but to ask which of its types are abstract. -/
abbrev Batch.Consulted : Batch → Batch → Prop := Relation.ReflTransGen fun b b' => ∃ u h,
    b' = ((Batch.askAbstract u h).start b).2

theorem Batch.consulted_askAbstract (u : Universe) (b : Batch) (h : TypeHandle) :
    Maintains b.Consulted (Batch.askAbstract u h) :=
  fun _ hnow => wp_const.mpr (hnow.tail ⟨u, h, rfl⟩)

theorem Batch.Consulted.remembers {b b' : Batch} (h : b.Consulted b') : b.Remembers b' := by
  induction h with
  | refl => exact .refl b
  | tail _ hasked ih =>
    obtain ⟨u, h, rfl⟩ := hasked
    exact wp_const.mp (b.remembers_askAbstract u h _ ih)

namespace Production

variable {α : Type}

/-- The attempt does nothing to its batch but to ask which of its types are abstract. -/
def Consulting (act : Attempt Production α) : Prop := ∀ b :
    Batch, Maintains (fun p => b.Consulted p.batch) act

theorem consulting_inWorkshop (act : Attempt Workshop α) : Consulting (inWorkshop act) :=
    fun b p hp => by
  rw [inWorkshop, wp_within]
  exact wp_const.mpr hp

theorem consulting_inSpace (act : Attempt TypeSpace α) : Consulting (inSpace act) :=
  consulting_inWorkshop _

theorem consulting_emit (add : Emitted → Except Fault Emitted) : Consulting (emit add) :=
    fun b p hp => by
  rw [wp_emit]
  exact ⟨fun _ _ => hp, fun _ _ => hp⟩

theorem consulting_lookUp (find : Emitted → Except Fault α) : Consulting (lookUp find) :=
    fun b p hp => by
  rw [wp_lookUp]
  exact ⟨fun _ _ => hp, fun _ _ => hp⟩

theorem consulting_descriptor (h : TypeHandle) : Consulting (descriptor h) := fun b p hp => by
  rw [wp_descriptor]
  exact ⟨fun _ _ => hp, fun _ => hp⟩

theorem consulting_attach (a : Attachment) : Consulting (attach a) :=
  fun _ => maintains_modify fun _ hp => hp

theorem consulting_namedType (s : Signature) : Consulting (namedType s) := fun _ =>
  maintains_bind maintains_get fun _ => maintains_lift _

theorem consulting_emittedMethod (h : Option MethodHandle) :
    Consulting (emittedMethod? h) := fun b =>
  maintains_option h fun _ => consulting_lookUp _ b

theorem consulting_declare (h : TypeHandle) : Consulting (declare h) := fun b =>
  maintains_bind (consulting_descriptor h b) fun _ => maintains_bind maintains_get fun _ =>
    maintains_bind (maintains_within (b.consulted_askAbstract _ h) (fun _ hp => hp) fun _ _ _ hb =>
        hb) fun _ =>
      maintains_bind (maintains_option _ fun _ => consulting_lookUp _ b) fun _ =>
        maintains_bind (consulting_inWorkshop _ b) fun _ => consulting_emit _ b

theorem consulting_defineBase (objectType : TypeId) (d : Descriptor) (t : TypeId) :
    Consulting (defineBase objectType d t) := by
  intro b
  unfold defineBase
  cases d.base with
  | some base => exact maintains_bind (consulting_namedType base b) fun _ => consulting_inSpace _ b
  | none => exact maintains_ite (consulting_inSpace _ b) (maintains_pure _)

theorem consulting_defineField (t : TypeId) (f : DraftField) :
    Consulting (defineField t f) := fun b =>
  maintains_bind (consulting_lookUp _ b) fun _ => maintains_bind (consulting_inSpace _ b) fun _ =>
    maintains_bind (consulting_inSpace _ b) fun _ => consulting_emit _ b

theorem consulting_registerMethod (m : DraftMethod) (method : MethodId) :
    Consulting (registerMethod m method) :=
  fun b => maintains_bind (consulting_inSpace _ b) fun _ => consulting_emit _ b

theorem consulting_defineConstructor (d : Descriptor) (t : TypeId) (c : DraftMethod) :
    Consulting (defineConstructor d t c) := fun b =>
  maintains_bind (consulting_lookUp _ b) fun _ => maintains_bind (consulting_inSpace _ b) fun _ =>
    maintains_bind (consulting_registerMethod c _ b) fun _ => maintains_pure _

theorem consulting_defineInitializer (d : Descriptor) (t : TypeId) :
    Consulting (defineInitializer d t) := by
  refine fun b => maintains_ite (maintains_pure _)
    (maintains_bind (consulting_inSpace _ b) fun method => ?_)
  cases d.typeInitializer with
  | some m => exact maintains_bind (consulting_registerMethod m method b) fun _ => maintains_pure _
  | none => exact maintains_bind (consulting_emit _ b) fun _ => maintains_pure _

theorem consulting_defineMethod (t : TypeId) (m : DraftMethod) :
    Consulting (defineMethod t m) := fun b =>
  maintains_bind (consulting_lookUp _ b) fun _ => maintains_bind (consulting_inSpace _ b) fun _ =>
    maintains_bind (consulting_registerMethod m _ b) fun _ => maintains_pure _

theorem consulting_defineProperty (t : TypeId) (p : DraftProperty) :
    Consulting (defineProperty t p) := fun b =>
  maintains_bind (consulting_emittedMethod _ b) fun _ =>
      maintains_bind (consulting_emittedMethod _ b) fun _ =>
    maintains_bind (consulting_lookUp _ b) fun _ => maintains_bind (consulting_inSpace _ b) fun _ =>
      consulting_emit _ b

theorem consulting_defineEvent (t : TypeId) (v : DraftEvent) :
    Consulting (defineEvent t v) := fun b =>
  maintains_bind (consulting_emittedMethod _ b) fun _ =>
      maintains_bind (consulting_lookUp _ b) fun _ =>
    maintains_bind (consulting_lookUp _ b) fun _ => maintains_bind (consulting_lookUp _ b) fun _ =>
      maintains_bind (consulting_inSpace _ b) fun _ => consulting_emit _ b

theorem consulting_define (objectType : TypeId) (h : TypeHandle) :
    Consulting (define objectType h) := by
  intro b
  refine maintains_bind (consulting_descriptor h b) fun d =>
    maintains_bind (consulting_lookUp _ b) fun t => ?_
  refine maintains_bind (consulting_defineBase objectType d t b) fun _ => ?_
  have hinterfaces := maintains_forIn d.interfaces.toList fun s _ =>
    maintains_bind (consulting_namedType s b) fun i =>
      consulting_inSpace (TypeSpace.implementInterface t i) b
  simp only [bind_assoc] at hinterfaces
  refine maintains_bind hinterfaces fun _ => ?_
  refine maintains_bind (maintains_forIn _ fun _ _ => consulting_inSpace _ b) fun _ => ?_
  refine maintains_bind (maintains_forIn _ fun f _ => consulting_defineField t f b) fun _ => ?_
  refine maintains_bind (maintains_mapM _ fun c _ => consulting_defineConstructor d t c b) fun _ =>
    ?_
  refine maintains_bind (consulting_defineInitializer d t b) fun _ => ?_
  refine maintains_bind (maintains_mapM _ fun m _ => consulting_defineMethod t m b) fun _ => ?_
  refine maintains_bind (maintains_forIn _ fun p _ => consulting_defineProperty t p b) fun _ => ?_
  refine maintains_bind (maintains_forIn _ fun v _ => consulting_defineEvent t v b) fun _ => ?_
  exact maintains_bind (maintains_forIn _ fun a _ => consulting_attach a b) fun _ =>
    maintains_pure _

theorem consulting_attachOne (a : Attachment) : Consulting (attachOne a) := by
  cases a with
  | body t m body =>
    exact fun b => maintains_bind (consulting_lookUp _ b) fun _ => consulting_inSpace _ b
  | override t body declaration => exact consulting_inSpace _

theorem consulting_create (h : TypeHandle) : Consulting (create h) := fun b =>
  maintains_bind (consulting_lookUp _ b) fun _ => maintains_map (consulting_inSpace _ b)

/-- However a generation ends, its batch is the closed one, of which some types were asked for. -/
theorem wp_generate_consulted (objectType : TypeId) (p : Production) :
    (generate objectType).wp (fun _ after => p.batch.closeAll.Consulted after.batch)
      (fun after => p.batch.closeAll.Consulted after.batch) p := by
  unfold generate
  rw [wp_bind, wp_modify]
  refine maintains_bind maintains_get (fun q => maintains_bind (maintains_lift _) fun order => ?_) _
    .refl
  refine maintains_bind (maintains_forIn _ fun h _ => consulting_declare h _) fun _ => ?_
  refine maintains_bind (maintains_forIn _ fun h _ => consulting_define objectType h _) fun _ => ?_
  refine maintains_bind maintains_get fun q => ?_
  refine maintains_bind (maintains_forIn _ fun a _ => consulting_attachOne a _) fun _ => ?_
  refine maintains_bind (maintains_mapM _ fun h _ => consulting_create h _) fun _ => ?_
  exact maintains_bind maintains_get fun _ => maintains_pure _

theorem wp_generate_remembers (objectType : TypeId) (p : Production) :
    (generate objectType).wp (fun _ after => p.batch.closeAll.Remembers after.batch)
      (fun after => p.batch.closeAll.Remembers after.batch) p :=
  wp_mono (wp_generate_consulted objectType p) (fun _ _ h => h.remembers) fun _ h => h.remembers

end Production

/-! ### Batches -/

namespace Batch

variable {α : Type} {u : Universe} {b b' : Batch}

def WellFormed (b : Batch) : Prop := ∀ h d, b.find? h = some d → d.WellFormed h

theorem wellFormed_empty : WellFormed {} := fun _ _ hd => by cases hd

theorem WellFormed.set (hb : b.WellFormed) {h : TypeHandle} {d : Descriptor} (hd : d.WellFormed h) :
    WellFormed { b with types := b.types.setIfInBounds h.index d } :=
  fun other => forall_getElem?_set (P := fun i (d : Descriptor) => d.WellFormed ⟨i⟩) h.index
    (fun i => hb ⟨i⟩) hd other.index

theorem WellFormed.push (hb : b.WellFormed) {d : Descriptor} (hd : d.WellFormed ⟨b.types.size⟩) :
    WellFormed { b with types := b.types.push d } :=
  fun other => forall_getElem?_push (P := fun i (d : Descriptor) => d.WellFormed ⟨i⟩) (fun i =>
    hb ⟨i⟩) hd other.index

theorem WellFormed.remembers (hb : b.WellFormed) (hr : b.Remembers b') : b'.WellFormed := by
  intro h d hd
  obtain ⟨known, hknown, hforget⟩ := hr.symm.find hd
  have hwellFormed := hb h known hknown
  have hforgotten : d.forget.WellFormed h := by
    rw [← hforget]
    exact { hwellFormed with }
  exact { hforgotten with }

theorem WellFormed.closeAll (hb : b.WellFormed) : b.closeAll.WellFormed := by
  intro h d hd
  rw [find?_closeAll, Option.map_eq_some_iff] at hd
  obtain ⟨open', hopen, rfl⟩ := hd
  exact { hb h open' hopen with }

theorem wellFormed_onType {t : TypeHandle} {act : Attempt Descriptor α}
    (h : Maintains (Descriptor.WellFormed t) act) :
    Maintains WellFormed (onType t act) := by
  refine fun b hb => wp_onType (fun _ => hb) fun d hd => ?_
  exact wp_mono (h d (hb t d hd)) (fun _ _ hd' => hb.set hd') fun _ hd' => hb.set hd'

theorem rootless_of_checkBase {flags : UInt32} {base : Option Signature}
    (h : b.checkBase u flags base = .ok ()) (hi : hasBits flags TypeFlags.interface = true) :
    base = none := by
  cases base with
  | none => rfl
  | some base => simp [checkBase, hi] at h

theorem wellFormed_made {handle : TypeHandle} {space name : String} {flags : UInt32}
    {base : Option Signature} {declaring : Option TypeHandle}
    (check : b.checkBase u flags base = .ok ()) :
    (Descriptor.touch { handle, space, name, flags, base, declaring }).WellFormed handle :=
  Descriptor.wellFormed_blank rfl rfl rfl rfl rfl rfl (fun _ _ hc => absurd hc nofun) fun hi =>
    ⟨rfl, rootless_of_checkBase check hi⟩

theorem wellFormed_createType (space name : String) (flags : UInt32) (base : Option Signature) :
    Maintains WellFormed (createType u space name flags base) :=
  fun _ hb => wp_createType (fun _ check => hb.push (wellFormed_made check)) hb

theorem wellFormed_addNested (outer : TypeHandle) (name : String) (flags : UInt32)
    (base : Option Signature) :
    Maintains WellFormed (addNested u outer name flags base) :=
  fun _ hb => wp_addNested (fun d hd _ _ check =>
    (hb.push (wellFormed_made check)).set { hb outer d hd with }) hb

theorem wellFormed_addBatchInterface (t interface : TypeHandle) :
    Maintains WellFormed (addBatchInterface t interface) :=
  fun b hb => wp_addBatchInterface
    (fun _ _ _ => wellFormed_onType (Descriptor.wellFormed_addDraftInterface interface) b hb) hb

theorem wellFormed_askAbstract (t : TypeHandle) : Maintains WellFormed (askAbstract u t) :=
  fun b hb => wp_mono (b.remembers_askAbstract u t b (.refl b)) (fun _ _ hr => hb.remembers hr)
    fun _ hr => hb.remembers hr

/-- The constructors of a proxy stand in their order, whatever constructors of the base are left
out. -/
theorem forwardingConstructors_special (u : Universe) (handle : TypeHandle) (requested : TypeId) :
    ∀ (i : Nat) c, (Descriptor.forwardingConstructors u handle requested)[i]? = some c →
      c.handle = ⟨handle, .constructor i⟩ ∧ c.Special ".ctor" := by
  have hflags : ∀ access : Access,
      let flags :=
        withAccess (MethodFlags.hideBySig ||| MethodFlags.specialName ||| MethodFlags.rtSpecialName)
        access
      hasBits flags MethodFlags.abstract = false ∧ flags ||| Descriptor.specialFlags = flags := by
    intro access
    cases access <;> decide
  suffices hgo : ∀ (constructors : List MethodId) (made : Array DraftMethod),
      (∀ (i : Nat) c, made[i]? = some c → c.handle = ⟨handle, .constructor i⟩ ∧ c.Special ".ctor") →
      ∀ (i : Nat) c, (constructors.foldl (Descriptor.addForwarding u handle) made)[i]? = some c →
        c.handle = ⟨handle, .constructor i⟩ ∧ c.Special ".ctor" from
    hgo (u.constructorsOf requested) #[] fun _ _ hc => by simp at hc
  intro constructors
  induction constructors with
  | nil => exact fun made hmade => hmade
  | cons c constructors ih =>
    intro made hmade
    refine ih _ ?_
    unfold Descriptor.addForwarding
    split
    · rename_i access _
      exact forall_getElem?_push hmade ⟨rfl, rfl, rfl, (hflags access).1, (hflags access).2⟩
    · exact hmade

theorem WellFormed.createProxy (hb : b.WellFormed) (requested : TypeId) (name : String) :
    (b.createProxy u requested name).2.WellFormed := by
  refine hb.push (Descriptor.wellFormed_blank rfl rfl rfl rfl rfl rfl
    (forwardingConstructors_special u _ requested) ?_)
  intro hi
  have hclass : hasBits (TypeFlags.isPublic ||| TypeFlags.beforeFieldInit) TypeFlags.interface
    = false := by decide
  exact absurd (hclass.symm.trans hi) Bool.false_ne_true

theorem wellFormed_perform (e : Edit) : Maintains WellFormed (e.perform u) :=
  maintains_perform wellFormed_createType wellFormed_addNested wellFormed_addBatchInterface
    (fun _ _ operation => wellFormed_onType (Descriptor.wellFormed_operation operation)) e fun t
    _ => wellFormed_askAbstract t

/-- What comes of an empty batch when the interfaces that edits list are there: edits that
succeed or fail, over universes that may change from one to the next, proxies, and generations
into any module. -/
inductive Formed : Batch → Prop
  | empty : Formed {}
  | edit (u : Universe) (e : Edit) (held : e.Held u) {b : Batch} (h : Formed b) :
    Formed ((e.perform u).start b).2
  | proxy (u : Universe) (requested : TypeId) (name : String) {b : Batch} (h : Formed b) :
      Formed (b.createProxy u requested name).2
  | generate (objectType : TypeId) (w : Workshop) {b : Batch} (h : Formed b) :
      Formed ((Production.generate objectType).start { batch := b, workshop := w }).2.batch

theorem Formed.drafted (h : b.Formed) : b.Drafted := by
  induction h with
  | empty => exact .empty
  | edit u e _ _ ih => exact .edit u e ih
  | proxy u requested name _ ih => exact .proxy u requested name ih
  | generate objectType w _ ih => exact .generate objectType w ih

theorem Drafted.wellFormed (h : b.Drafted) : b.WellFormed := by
  induction h with
  | empty => exact wellFormed_empty
  | edit u e h ih => exact wp_const.mp (wellFormed_perform e _ ih)
  | proxy u requested name h ih => exact ih.createProxy requested name
  | generate objectType w h ih =>
    exact ih.closeAll.remembers (wp_const.mp (Production.wp_generate_remembers objectType _))

theorem Formed.wellFormed (h : b.Formed) : b.WellFormed := h.drafted.wellFormed

theorem Formed.distinctInterfaces (h : b.Formed) :
    ∀ t d, b.find? t = some d → d.interfaces.toList.Nodup := by
  induction h with
  | empty => exact fun _ _ hd => by cases hd
  | @edit u e held b h ih =>
    have hkept : b.Retains (e.Held u) _ := wp_const.mp (retains_perform e b (.refl _ b))
    intro t d hd
    cases hold : b.find? t with
    | none => exact hkept.new held t d hold hd
    | some d₀ =>
      obtain ⟨d', hd', hretains⟩ := hkept.old t d₀ hold
      obtain rfl : d' = d := Option.some.inj (hd'.symm.trans hd)
      exact hretains.interfaces held (ih t d₀ hold)
  | @proxy u requested name b h ih =>
    intro t d hd
    have hpushed :
      find? { b with types := b.types.push (Descriptor.proxy u ⟨b.types.size⟩ requested name) } t
      = some d := hd
    rw [find?_push] at hpushed
    split at hpushed
    · cases hpushed
      exact List.nodup_nil
    · exact ih t d hpushed
  | @generate objectType w b h ih =>
    have hremembers :=
      wp_const.mp (Production.wp_generate_remembers objectType { batch := b, workshop := w })
    intro t d hd
    obtain ⟨known, hknown, hforget⟩ := hremembers.symm.find hd
    rw [find?_closeAll] at hknown
    obtain ⟨d₀, hd₀, rfl⟩ := Option.map_eq_some_iff.mp hknown
    have hsame : d.interfaces = d₀.interfaces := (congrArg Descriptor.interfaces hforget).symm
    rw [hsame]
    exact ih t d₀ hd₀

theorem Formed.run (h : b.Formed) {edits : List Edit} (held : ∀ e ∈ edits, e.Held u) :
    (Edit.run u b edits).Formed := by
  induction edits generalizing b with
  | nil => exact h
  | cons e edits ih =>
    obtain ⟨hfirst, hrest⟩ := List.forall_mem_cons.mp held
    exact ih (.edit u e hfirst h) hrest

/-- What holds of every descriptor, however its batch came to be: members stand where their
handles say, names and interfaces do not repeat, a method lacks a body just when it is abstract,
interfaces have nothing that belongs to instances, and accessors are own methods that fit. -/
theorem descriptor_invariants (hb : b.Formed) {h : TypeHandle} {d : Descriptor}
    (hd : b.find? h = some d) :
    ((∀ (i : Nat) f, d.fields[i]? = some f → f.handle = ⟨h, i⟩)
      ∧ (∀ (i : Nat) c, d.constructors[i]? = some c → c.handle = ⟨h, .constructor i⟩)
      ∧ (∀ (i : Nat) m, d.methods[i]? = some m → m.handle = ⟨h, .method i⟩)
      ∧ (∀ (i : Nat) p, d.properties[i]? = some p → p.handle = ⟨h, i⟩)
      ∧ (∀ (i : Nat) v, d.events[i]? = some v → v.handle = ⟨h, i⟩))
    ∧ ((d.fields.toList.map (·.name)).Nodup ∧ (d.properties.toList.map (·.name)).Nodup
      ∧ (d.events.toList.map (·.name)).Nodup ∧ d.interfaces.toList.Nodup)
    ∧ (∀ m, m ∈ d.methods ∨ m ∈ d.constructors ∨ d.typeInitializer = some m →
      (m.isAbstract = true ↔ m.body = none) ∧ (m.isAbstract = true → m.isVirtual = true))
    ∧ (∀ m ∈ d.methods, m.isStatic = true → m.isVirtual = false)
    ∧ (d.isInterface = true → (∀ m ∈ d.methods, m.isStatic = false → m.isAbstract = true)
      ∧ (∀ f ∈ d.fields, f.isStatic = true) ∧ d.constructors = #[])
    ∧ (∀ p ∈ d.properties, d.Serves p.signature p.getter p.setter)
    ∧ ∀ v ∈ d.events, d.ServesEvent v.type v.add v.remove v.raise := by
  have hwf := hb.wellFormed h d hd
  have hmethod : ∀ m ∈ d.methods, m.WellFormed d.isInterface := fun m hm => by
    obtain ⟨i, hi⟩ := Array.mem_iff_getElem?.mp hm
    exact (hwf.methods i m hi).2
  have hspecial : ∀ m, m ∈ d.constructors ∨ d.typeInitializer = some m → m.body.isSome = true
      ∧ m.isAbstract = false := by
    rintro m (hm | hm)
    · obtain ⟨i, hi⟩ := Array.mem_iff_getElem?.mp hm
      exact ⟨(hwf.constructors i m hi).2.body, (hwf.constructors i m hi).2.concrete⟩
    · exact ⟨(hwf.initializer m hm).2.special.body, (hwf.initializer m hm).2.special.concrete⟩
  refine ⟨⟨fun i f hf => (hwf.fields i f hf).1, fun i c hc => (hwf.constructors i c hc).1,
      fun i m hm => (hwf.methods i m hm).1, fun i p hp => (hwf.properties i p hp).1, fun i v hv =>
      (hwf.events i v hv).1⟩,
    ⟨hwf.fieldNames, hwf.propertyNames, hwf.eventNames, hb.distinctInterfaces h d hd⟩, fun m hm =>
      ?_, fun m hm => (hmethod m hm).static,
    fun hi => ⟨fun m hm => (hmethod m hm).interface hi, fun f hf => ?_, hwf.noConstructors hi⟩,
      fun p hp => ?_, fun v hv => ?_⟩
  · rcases hm with hm | hm
    · have hbodiless := (hmethod m hm).bodiless
      exact ⟨by rw [hbodiless, Option.isNone_iff_eq_none], (hmethod m hm).abstract⟩
    · obtain ⟨hbody, hconcrete⟩ := hspecial m hm
      rw [hconcrete]
      exact ⟨⟨nofun, fun hnone => by rw [hnone] at hbody; cases hbody⟩, nofun⟩
  · obtain ⟨i, hi'⟩ := Array.mem_iff_getElem?.mp hf
    exact (hwf.fields i f hi').2 hi
  · obtain ⟨i, hi⟩ := Array.mem_iff_getElem?.mp hp
    exact (hwf.properties i p hi).2
  · obtain ⟨i, hi⟩ := Array.mem_iff_getElem?.mp hv
    exact (hwf.events i v hi).2

/-- An interface of the batch with one method, and a class that implements it and counts. -/
def counterEdits : List Edit :=
  [.createInterface "App" "ICount",
   .addMethod ⟨0⟩ "Count" (MethodFlags.isPublic ||| MethodFlags.virtual ||| MethodFlags.abstract)
   ⟨.i4, []⟩ none,
   .createType "App" "Counter" TypeFlags.isPublic none,
   .addBatchInterface ⟨1⟩ ⟨0⟩,
   .addAutoProperty ⟨1⟩ "Count" .i4 .isPublic]

/-- The property of the class is served by two own methods. -/
theorem descriptor_invariants_counter :
    ∃ d, (Edit.run {} {} counterEdits).find? ⟨1⟩ = some d ∧ d.properties.size = 1
    ∧ d.methods.size = 2
      ∧ ∀ p ∈ d.properties, d.Serves p.signature p.getter p.setter := by
  have hformed : (Edit.run {} {} counterEdits).Formed :=
    Formed.empty.run (by simp [counterEdits, Edit.Held])
  have hsizes : ((Edit.run {} {} counterEdits).find? ⟨1⟩).map (fun d =>
      (d.properties.size, d.methods.size)) = some (1, 2) := by
    decide +kernel
  obtain ⟨d, hd, hsize⟩ := Option.map_eq_some_iff.mp hsizes
  obtain ⟨-, -, -, -, -, hserves, -⟩ := descriptor_invariants hformed hd
  exact ⟨d, hd, congrArg Prod.fst hsize, congrArg Prod.snd hsize, hserves⟩

end Batch

end TypeLoom
