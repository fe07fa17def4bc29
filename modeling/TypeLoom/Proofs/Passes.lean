import TypeLoom.Proofs.Editing
import TypeLoom.Proofs.Queued

/-!
# The passes of a generation

The first three passes list nothing and finish no type. They keep a row for each declared
descriptor: its type is unfinished and covered by the queue. When the queue is empty every type of
the batch can be created.
-/

namespace TypeLoom

open Attempt

variable {α : Type}

/-! ### Steps of the type space -/

namespace TypeSpace

/-- Nothing was listed, and no type has got or lost a method. -/
structure Aside (s s' : TypeSpace) : Prop where
  listings : s'.registry.listings = s.registry.listings
  size : s'.program.types.size = s.program.types.size
  records : ∀ t, (s.program.record t).Aside (s'.program.record t)

variable {s₀ s s' : TypeSpace} {t : TypeId}

theorem Aside.refl (s : TypeSpace) : Aside s s := ⟨rfl, rfl, fun _ => .refl _⟩

theorem Aside.trans (h : Aside s₀ s) (h' : Aside s s') : Aside s₀ s' :=
  ⟨h'.listings.trans h.listings, h'.size.trans h.size, fun t => (h.records t).trans (h'.records t)⟩

theorem records_aside (u : Universe) (t : TypeId) {change : TypeRecord → TypeRecord}
    (h : ∀ r : TypeRecord, r.Aside (change r)) (other : TypeId) :
    (u.record other).Aside ((u.modify t change).record other) := by
  rw [Universe.record_modify]
  split
  · rename_i heq
    rw [heq.1]
    exact h _
  · exact .refl _

theorem aside_modify {change : TypeRecord → TypeRecord} (t : TypeId)
    (h : ∀ r : TypeRecord, r.Aside (change r)) :
    Maintains (Aside s₀) (edit t change) :=
  maintains_modify fun _ hs => hs.trans ⟨rfl, Universe.size_modify _ _ _, records_aside _ t h⟩

theorem aside_apply {change : Universe → Except Fault Universe}
    (h : ∀ u after, change u = .ok after →
      after.types.size = u.types.size ∧ ∀ t, (u.record t).Aside (after.record t)) :
    Maintains (Aside s₀) (apply change) := by
  intro s hs
  simp only [apply, wp_bind, wp_get]
  split
  · rename_i u hu
    obtain ⟨hsize, hrecords⟩ := h _ _ hu
    exact hs.trans ⟨rfl, hsize, hrecords⟩
  · exact hs

theorem aside_nextToken (kind : TokenKind) : Maintains (Aside s₀) (nextToken kind) :=
  fun _ hs => hs.trans ⟨rfl, rfl, fun _ => .refl _⟩

theorem aside_currentProgram : Maintains (Aside s₀) currentProgram :=
  maintains_bind maintains_get fun _ => maintains_pure _

theorem aside_ensureOpen (t : TypeId) : Maintains (Aside s₀) (ensureOpen t) :=
  maintains_bind aside_currentProgram fun _ => maintains_ite (maintains_throw _) (maintains_pure _)

theorem aside_ensureOwn (t : TypeId) (m : MethodId) : Maintains (Aside s₀) (ensureOwn t m) := by
  refine maintains_bind aside_currentProgram fun u => ?_
  cases u.methodOwner? m with
  | none => exact maintains_throw _
  | some owner => exact maintains_ite (maintains_pure _) (maintains_throw _)

theorem aside_setParent (t base : TypeId) : Maintains (Aside s₀) (setParent t base) := by
  refine maintains_bind (aside_ensureOpen t) fun _ => maintains_bind aside_currentProgram fun u =>
    ?_
  refine maintains_bind (maintains_bind aside_currentProgram fun _ =>
    maintains_ite (maintains_throw _) (maintains_pure _)) fun _ => ?_
  refine aside_apply fun u after h => ?_
  unfold Universe.setBase at h
  split at h
  · cases h
  · cases h
    exact ⟨Universe.size_modify _ _ _, records_aside _ t fun _ =>
      ⟨rfl, rfl, rfl, rfl, rfl, rfl, rfl⟩⟩

theorem aside_implementInterface (t interface : TypeId) : Maintains (Aside s₀)
    (implementInterface t interface) := by
  refine maintains_bind (aside_ensureOpen t) fun _ => maintains_bind ?_ fun _ =>
    aside_modify t fun _ => ⟨rfl, rfl, rfl, rfl, rfl, rfl, rfl⟩
  exact maintains_bind aside_currentProgram fun _ =>
    maintains_ite (maintains_throw _) (maintains_pure _)

theorem aside_setAttribute (t : TypeId) (a : Attribute) : Maintains (Aside s₀) (setAttribute t a) :=
  maintains_bind (aside_ensureOpen t) fun _ => aside_modify t fun _ =>
    ⟨rfl, rfl, rfl, rfl, rfl, rfl, rfl⟩

theorem aside_nestIn (t outer : TypeId) : Maintains (Aside s₀) (nestIn t outer) := by
  refine maintains_bind (aside_apply fun u after h => ?_) fun _ => aside_modify outer fun _ =>
    ⟨rfl, rfl, rfl, rfl, rfl, rfl, rfl⟩
  unfold Universe.setDeclaring at h
  split at h
  · cases h
  · cases h
    exact ⟨Universe.size_modify _ _ _, records_aside _ t fun _ =>
      ⟨rfl, rfl, rfl, rfl, rfl, rfl, rfl⟩⟩

theorem aside_defineField (t : TypeId) (name : String) (signature : Signature) (flags : UInt32) :
    Maintains (Aside s₀) (defineField t name signature flags) := by
  refine maintains_bind (aside_ensureOpen t) fun _ => ?_
  refine maintains_bind (aside_nextToken _) fun _ => ?_
  refine maintains_bind aside_currentProgram fun _ => ?_
  refine maintains_bind (aside_modify t fun _ => ⟨rfl, rfl, rfl, rfl, rfl, rfl, rfl⟩) fun _ => ?_
  exact maintains_pure _

theorem aside_defineProperty (t : TypeId) (name : String) (signature : Signature)
    (getter setter : Option MethodId) :
    Maintains (Aside s₀) (defineProperty t name signature getter setter) := by
  refine maintains_bind (aside_ensureOpen t) fun _ => ?_
  refine maintains_bind (aside_nextToken _) fun _ => ?_
  refine maintains_bind aside_currentProgram fun _ => ?_
  refine maintains_bind (aside_modify t fun _ => ⟨rfl, rfl, rfl, rfl, rfl, rfl, rfl⟩) fun _ => ?_
  exact maintains_pure _

theorem aside_defineEvent (t : TypeId) (name : String) (type : Signature) (add remove : MethodId)
    (raise : Option MethodId) : Maintains (Aside s₀) (defineEvent t name type add remove raise) := by
  refine maintains_bind (aside_ensureOpen t) fun _ => ?_
  refine maintains_bind (aside_nextToken _) fun _ => ?_
  refine maintains_bind aside_currentProgram fun _ => ?_
  refine maintains_bind (aside_modify t fun _ => ⟨rfl, rfl, rfl, rfl, rfl, rfl, rfl⟩) fun _ => ?_
  exact maintains_pure _

theorem aside_modifyField (f : FieldId) (change : FieldRecord → FieldRecord) :
    Maintains (Aside s₀)
    (modify fun space : TypeSpace =>
      { space with program := space.program.modifyField f change }) :=
  aside_modify f.owner fun _ => ⟨rfl, rfl, rfl, rfl, rfl, rfl, rfl⟩

theorem aside_defineOverride (t : TypeId) (body declaration : MethodId) :
    Maintains (Aside s₀) (defineOverride t body declaration) := by
  refine maintains_bind (aside_ensureOpen t) fun _ =>
      maintains_bind (aside_ensureOwn t body) fun _ =>
    maintains_bind aside_currentProgram fun u =>
      maintains_ite (maintains_bind (maintains_throw _) fun _ => ?_) ?_
  all_goals exact aside_modify t fun _ => ⟨rfl, rfl, rfl, rfl, rfl, rfl, rfl⟩

end TypeSpace

/-! ### Workshops -/

namespace Workshop

variable {w mid w' : Workshop}

/-- Nothing was listed or finished; types that are not finished may have been declared. -/
structure Withholds (w w' : Workshop) : Prop where
  listings : w'.space.registry.listings = w.space.registry.listings
  complete : ∀ t, (w'.space.program.record t).complete = (w.space.program.record t).complete
  output : ∃ more, w'.output.toList = w.output.toList ++ more
    ∧ ∀ t ∈ more, (w.space.program.record t).complete = false

theorem Withholds.refl (w : Workshop) : Withholds w w :=
  ⟨rfl, fun _ => rfl, [], (List.append_nil _).symm, fun _ ht => absurd ht List.not_mem_nil⟩

theorem Withholds.trans (h : Withholds w mid) (h' : Withholds mid w') : Withholds w w' where
  listings := h'.listings.trans h.listings
  complete := fun t => (h'.complete t).trans (h.complete t)
  output := by
    obtain ⟨first, hfirst, hopen⟩ := h.output
    obtain ⟨second, hsecond, hopen'⟩ := h'.output
    refine ⟨first ++ second, by rw [hsecond, hfirst, List.append_assoc], fun t ht => ?_⟩
    rcases List.mem_append.mp ht with ht | ht
    · exact hopen t ht
    · rw [← h.complete]
      exact hopen' t ht

theorem Withholds.inSpace {space : TypeSpace}
    (hlistings : space.registry.listings = w.space.registry.listings)
    (hcomplete : ∀ t, (space.program.record t).complete = (w.space.program.record t).complete) :
    Withholds w { w with space } :=
  ⟨hlistings, hcomplete, [], (List.append_nil _).symm, fun _ ht => absurd ht List.not_mem_nil⟩

theorem Withholds.finished (h : Withholds w w') : w'.finished = w.finished := by
  obtain ⟨more, hmore, hopen⟩ := h.output
  have hsame : ∀ types : List TypeId, types.filter (fun t => (w'.space.program.record t).complete)
      = types.filter fun t => (w.space.program.record t).complete :=
    fun types => List.filter_congr fun t _ => h.complete t
  have hnone : more.filter (fun t => (w.space.program.record t).complete) = [] := by
    rw [List.filter_eq_nil_iff]
    intro t ht
    rw [hopen t ht]
    exact Bool.false_ne_true
  rw [Workshop.finished, hsame, hmore, List.filter_append, hnone, List.append_nil,
    Workshop.finished]

end Workshop

/-! ### Rows -/

structure Universe.Row (u : Universe) (t : TypeId) (d : Descriptor) (queue : List Attachment) :
    Prop where
  lt : t.index < u.types.size
  opened : (u.record t).complete = false
  abstract : ∀ m ∈ d.methods, m.isAbstract = true → (u.record t).isAbstract = true
  covered : (u.record t).Covered t queue

theorem Universe.Row.of_methods {u : Universe} {t : TypeId} {d d' : Descriptor}
    {queue : List Attachment} (h : u.Row t d queue) (hmethods : d'.methods = d.methods) :
    u.Row t d' queue where
  lt := h.lt
  opened := h.opened
  abstract := by
    rw [hmethods]
    exact h.abstract
  covered := h.covered

theorem Universe.Row.mono {u : Universe} {t : TypeId} {d : Descriptor}
    {queue queue' : List Attachment} (h : u.Row t d queue)
    (hsub : ∀ t m body, Attachment.body t m body ∈ queue → Attachment.body t m body ∈ queue') :
      u.Row t d queue' :=
  ⟨h.lt, h.opened, h.abstract, h.covered.mono hsub⟩

theorem Universe.Row.aside {u after : Universe} {t : TypeId} {d : Descriptor}
    {queue : List Attachment} (h : u.Row t d queue) (hsize : after.types.size = u.types.size)
    (ha : (u.record t).Aside (after.record t)) :
    after.Row t d queue where
  lt := by
    rw [hsize]
    exact h.lt
  opened := ha.complete.trans h.opened
  abstract := fun m hm habstract => by
    rw [TypeRecord.isAbstract_of_flags ha.flags]
    exact h.abstract m hm habstract
  covered := h.covered.aside ha

theorem Universe.record_modifyMethod (u : Universe) (m : MethodId)
    (change : MethodRecord → MethodRecord) {t : TypeId} (ht : t.index < u.types.size) :
    (u.modifyMethod m change).record t =
      if t = m.owner then (u.record t).modifyMethod m.slot change else u.record t := by
  rw [modifyMethod, record_modify]
  by_cases howner : t = m.owner
  · rw [if_pos ⟨howner, howner ▸ ht⟩, if_pos howner, howner]
  · rw [if_neg fun h => howner h.1, if_neg howner]

theorem Universe.complete_modifyMethod (u : Universe) (m : MethodId)
    (change : MethodRecord → MethodRecord) (t : TypeId) :
    ((u.modifyMethod m change).record t).complete = (u.record t).complete := by
  rw [modifyMethod, record_modify]
  split
  · rename_i h
    rw [TypeRecord.complete_modifyMethod, h.1]
  · rfl

theorem Universe.Row.modifyMethod {u : Universe} {t : TypeId} {d : Descriptor}
    {queue queue' : List Attachment} (h : u.Row t d queue) (m : MethodId)
    (change : MethodRecord → MethodRecord)
    (hcovered : (if t = m.owner then (u.record t).modifyMethod m.slot change else u.record
      t).Covered t queue') :
    (u.modifyMethod m change).Row t d queue' := by
  have hrecord := u.record_modifyMethod m change h.lt
  have hflags : ((u.modifyMethod m change).record t).flags = (u.record t).flags := by
    rw [hrecord]
    split
    · exact TypeRecord.flags_modifyMethod _ _ _
    · rfl
  refine ⟨?_, (u.complete_modifyMethod m change t).trans h.opened, fun own hown habstract => ?_, ?_⟩
  · rw [Universe.modifyMethod, size_modify]
    exact h.lt
  · rw [TypeRecord.isAbstract_of_flags hflags]
    exact h.abstract own hown habstract
  · rw [hrecord]
    exact hcovered

namespace Production

variable {first p : Production} {A Q : List Attachment}

/-- What a generation leaves when it fails: nothing was listed or finished. -/
structure Withheld (ground p : Production) : Prop where
  workshop : ground.workshop.Withholds p.workshop
  whole : p.batch.Whole

/-- All types are declared, and the bodies that are still missing are queued. -/
structure Pending (first : Production) (A Q : List Attachment) (p : Production) : Prop where
  workshop : first.workshop.Withholds p.workshop
  batch : p.batch = first.batch
  types : p.emitted.types = first.emitted.types
  attachments : p.attachments.toList = A
  rows : ∀ h t, first.emitted.types.find? h = some t → ∃ d, first.batch.find? h = some d
    ∧ p.program.Row t d Q

theorem Pending.withheld (hp : Pending first A Q p) (hwhole : first.batch.Whole) :
    Withheld first p where
  workshop := hp.workshop
  whole := by
    rw [hp.batch]
    exact hwhole

/-! ### Steps that add no method -/

theorem Pending.aside {space : TypeSpace} (hp : Pending first A Q p)
    (ha : p.workshop.space.Aside space) :
    Pending first A Q (p.withSpace space) where
  workshop := hp.workshop.trans (.inSpace ha.listings fun t => (ha.records t).complete)
  batch := hp.batch
  types := hp.types
  attachments := hp.attachments
  rows := fun h t ht => by
    obtain ⟨d, hd, hrow⟩ := hp.rows h t ht
    exact ⟨d, hd, hrow.aside ha.size (ha.records t)⟩

theorem pending_inSpace {act : Attempt TypeSpace α}
    (hact : ∀ s₀, Maintains (TypeSpace.Aside s₀) act) :
    Maintains (Pending first A Q) (inSpace act) := by
  intro p hp
  rw [wp_inSpace]
  exact wp_mono (hact _ _ (.refl _)) (fun _ space ha => hp.aside ha) fun space ha => hp.aside ha

theorem pending_lookUp (find : Emitted → Except Fault α) : Maintains (Pending first A Q)
    (lookUp find) := by
  intro p hp
  rw [wp_lookUp]
  exact ⟨fun _ _ => hp, fun _ _ => hp⟩

theorem pending_emit {add : Emitted → Except Fault Emitted}
    (hadd : ∀ e e', add e = .ok e' → e'.types = e.types) :
    Maintains (Pending first A Q) (emit add) := by
  intro p hp
  rw [wp_emit]
  exact ⟨fun e he => ⟨hp.workshop, hp.batch, (hadd _ _ he).trans hp.types, hp.attachments, hp.rows⟩,
    fun _ _ => hp⟩

theorem pending_namedType (s : Signature) : Maintains (Pending first A Q) (namedType s) :=
  maintains_bind maintains_get fun _ => maintains_lift _

theorem pending_defineBase (objectType : TypeId) (d : Descriptor) (t : TypeId) :
    Maintains (Pending first A Q) (defineBase objectType d t) := by
  unfold defineBase
  cases d.base with
  | some base =>
    exact maintains_bind (pending_namedType base) fun base => pending_inSpace fun _ =>
      TypeSpace.aside_setParent t base
  | none =>
    exact maintains_ite (pending_inSpace fun _ => TypeSpace.aside_setParent t objectType)
      (maintains_pure _)

theorem pending_defineField (t : TypeId) (f : DraftField) : Maintains (Pending first A Q)
    (defineField t f) := by
  refine maintains_bind (pending_lookUp _) fun signature =>
      maintains_bind (pending_inSpace fun _ => ?_) fun field =>
    maintains_bind (pending_inSpace fun _ => TypeSpace.aside_modifyField _ _) fun _ =>
      pending_emit fun e e' he => ?_
  · exact TypeSpace.aside_defineField _ _ _ _
  · obtain ⟨fields, -, hend⟩ := bind_eq_ok.mp he
    cases hend
    rfl

theorem pending_emittedMethod? (h : Option MethodHandle) : Maintains (Pending first A Q)
    (emittedMethod? h) :=
  maintains_option h fun _ => pending_lookUp _

theorem pending_defineProperty (t : TypeId) (v : DraftProperty) : Maintains (Pending first A Q)
    (defineProperty t v) := by
  refine maintains_bind (pending_emittedMethod? _) fun getter =>
      maintains_bind (pending_emittedMethod? _) fun setter =>
    maintains_bind (pending_lookUp _) fun signature =>
        maintains_bind (pending_inSpace fun _ => ?_) fun property =>
      pending_emit fun e e' he => ?_
  · exact TypeSpace.aside_defineProperty _ _ _ _ _
  · obtain ⟨properties, -, hend⟩ := bind_eq_ok.mp he
    cases hend
    rfl

theorem pending_defineEvent (t : TypeId) (v : DraftEvent) : Maintains (Pending first A Q)
    (defineEvent t v) := by
  refine maintains_bind (pending_emittedMethod? _) fun raise =>
      maintains_bind (pending_lookUp _) fun type =>
    maintains_bind (pending_lookUp _) fun add => maintains_bind (pending_lookUp _) fun remove =>
      maintains_bind (pending_inSpace fun _ => ?_) fun event => pending_emit fun e e' he => ?_
  · exact TypeSpace.aside_defineEvent _ _ _ _ _ _
  · obtain ⟨events, -, hend⟩ := bind_eq_ok.mp he
    cases hend
    rfl

theorem Pending.modifyMethod {Q' : List Attachment} (hp : Pending first A Q p) (m : MethodId)
    (change : MethodRecord → MethodRecord)
    (hcovered : ∀ t, (p.program.record t).Covered t Q →
      (if t = m.owner then (p.program.record t).modifyMethod m.slot change else p.program.record
        t).Covered t Q') :
    Pending first A Q' (p.withSpace
        { p.workshop.space with program := p.program.modifyMethod m change }) where
  workshop := hp.workshop.trans (.inSpace rfl (p.program.complete_modifyMethod m change))
  batch := hp.batch
  types := hp.types
  attachments := hp.attachments
  rows := fun h t ht => by
    obtain ⟨d, hd, hrow⟩ := hp.rows h t ht
    exact ⟨d, hd, hrow.modifyMethod m change (hcovered t hrow.covered)⟩

theorem pending_registerMethod (m : DraftMethod) (method : MethodId) :
    Maintains (Pending first A Q) (registerMethod m method) := by
  refine maintains_bind ?_ fun _ => pending_emit fun e e' he => ?_
  · intro p hp
    rw [wp_inSpace, wp_modify]
    refine hp.modifyMethod method _ fun t hcovered => ?_
    split
    · exact hcovered.modifyMethod _ _ (fun _ => rfl) fun _ hbody => hbody
    · exact hcovered
  · obtain ⟨methods, -, hend⟩ := bind_eq_ok.mp he
    cases hend
    rfl

end Production

end TypeLoom
