import TypeLoom.Proofs.AllOrNothing
import TypeLoom.Proofs.Listing

/-!
# The output of a module

However a generation ends, the types that it has finished are among those that it has added to its
module, and it has added no type twice.
-/

namespace TypeLoom

open Attempt

variable {α : Type}

/-! ### Steps on the way to a type -/

namespace TypeSpace

variable {start s s' : TypeSpace} {t : TypeId}

theorem Aside.prepares (h : s.Aside s') : s.Prepares s' where
  listings := h.listings
  program := ⟨Nat.le_of_eq h.size.symm, fun t => (h.records t).complete, fun t _ =>
    (h.records t).origin⟩

theorem Appends.prepares {flags : UInt32} (h : s.Appends flags s') : s.Prepares s' where
  listings := h.listings
  program := by
    refine ⟨?_, h.complete, fun t ht => (h.old t ht).origin⟩
    rw [h.size]
    exact Nat.le_succ _

theorem prepares_aside {act : Attempt TypeSpace α} (h : ∀ s₀, Maintains (Aside s₀) act) :
    Maintains (Prepares start) act :=
  fun s hs => wp_mono (h s s (.refl s)) (fun _ _ ha => hs.trans ha.prepares) fun _ ha =>
    hs.trans ha.prepares

theorem prepares_ensureOpen (t : TypeId) : Maintains (Prepares start) (ensureOpen t) :=
  prepares_aside fun _ => aside_ensureOpen t

theorem prepares_currentProgram : Maintains (Prepares start) currentProgram :=
  prepares_aside fun _ => aside_currentProgram

theorem prepares_defineConstructor (t : TypeId) (flags : UInt32) (signature : MethodSignature) :
    Maintains (Prepares start) (defineConstructor t flags signature) := by
  refine maintains_bind (prepares_ensureOpen t) fun _ => ?_
  refine maintains_bind (prepares_nextToken _) fun _ => ?_
  refine maintains_bind prepares_currentProgram fun _ => ?_
  refine maintains_bind (prepares_edit t fun _ => ⟨rfl, rfl⟩) fun _ => ?_
  exact maintains_pure _

theorem prepares_defineMethod (t : TypeId) (name : String) (flags : UInt32)
    (signature : MethodSignature) :
    Maintains (Prepares start) (defineMethod t name flags signature) := by
  refine maintains_bind (prepares_ensureOpen t) fun _ => ?_
  refine maintains_bind (prepares_nextToken _) fun _ => ?_
  refine maintains_bind prepares_currentProgram fun _ => ?_
  refine maintains_bind (prepares_edit t fun _ => ⟨rfl, rfl⟩) fun _ => ?_
  exact maintains_pure _

theorem prepares_defineInitializer (t : TypeId) : Maintains (Prepares start)
    (defineInitializer t) := by
  refine maintains_bind (prepares_ensureOpen t) fun _ => ?_
  refine maintains_bind (prepares_nextToken _) fun _ => ?_
  refine maintains_bind (prepares_apply fun _ _ => Universe.prepares_setInitializer) fun _ => ?_
  refine maintains_bind (prepares_edit t fun _ => ⟨rfl, rfl⟩) fun _ => ?_
  exact maintains_pure _

theorem prepares_defineBody (t : TypeId) (m : MethodId) (body : Expr) : Maintains (Prepares start)
    (defineBody t m body) := by
  refine maintains_bind (prepares_ensureOpen t) fun _ => ?_
  refine maintains_bind (prepares_aside fun _ => aside_ensureOwn t m) fun _ => ?_
  exact prepares_apply fun _ _ => Universe.prepares_setBody

theorem prepares_modifyMethod (m : MethodId) (change : MethodRecord → MethodRecord) :
    Maintains (Prepares start)
    (modify fun space : TypeSpace =>
      { space with program := space.program.modifyMethod m change }) :=
  maintains_modify fun s hs => hs.trans ⟨rfl, s.program.prepares_modifyMethod m change⟩

theorem wp_createType (t : TypeId) (ht : t.index < s.program.types.size) :
    (createType t).wp (fun _ => Finishes [t] s) (Finishes [t] s) s := by
  have hnothing : ∀ after, s.Prepares after → Finishes [t] s after := fun after h =>
    h.finishes.mono fun _ hmem => absurd hmem List.not_mem_nil
  unfold createType
  refine wp_step (prepares_ensureOpen t s (.refl s)) (fun _ mid hmid => ?_) hnothing
  refine wp_step (prepares_currentProgram mid hmid) (fun _ mid hmid => ?_) hnothing
  refine wp_step (maintains_lift _ mid hmid) (fun _ mid hmid => ?_) hnothing
  have hlt := Nat.lt_of_lt_of_le ht hmid.program.size
  have hend : (markComplete t >>= fun _ => list t).wp (fun _ => Finishes [t] s)
    (Finishes [t] s) mid :=
    wp_finish (fun after hone _ _ => hmid.finishes.trans hone) hlt
  simp only [wp_bind, wp_pure] at hend ⊢
  exact hend

end TypeSpace

/-! ### Modules -/

namespace Workshop

variable {w mid w' : Workshop} {more : List TypeId}

/-- New types were added to the module, each of them once, and no other generated type was
finished. -/
structure Produces (w : Workshop) (more : List TypeId) (w' : Workshop) : Prop where
  output : w'.output.toList = w.output.toList ++ more
  nodup : more.Nodup
  range : ∀ t ∈ more, w.space.program.types.size ≤ t.index ∧ t.index < w'.space.program.types.size
  space : w.space.Finishes more w'.space

theorem Produces.refl (w : Workshop) : Produces w [] w where
  output := (List.append_nil _).symm
  nodup := List.nodup_nil
  range := fun _ ht => absurd ht List.not_mem_nil
  space := (TypeSpace.Prepares.refl _).finishes

theorem Produces.finishes {space : TypeSpace} {done : List TypeId} (h : Produces w more mid)
    (hspace : mid.space.Finishes done space) (hdone : ∀ t ∈ done, t ∈ more) :
    Produces w more { mid with space } where
  output := h.output
  nodup := h.nodup
  range := fun t ht => ⟨(h.range t ht).1, Nat.lt_of_lt_of_le (h.range t ht).2 hspace.size⟩
  space := (h.space.trans hspace).mono fun t ht => (List.mem_append.mp ht).elim id (hdone t)

theorem Produces.declares {flags : UInt32} (h : Produces w more mid)
    (hspace : mid.space.Appends flags w'.space)
    (houtput : w'.output = mid.output.push mid.space.program.nextId) :
    Produces w (more ++ [mid.space.program.nextId]) w' := by
  have hold := h.finishes hspace.prepares.finishes fun _ ht => absurd ht List.not_mem_nil
  refine ⟨?_, ?_, fun t ht => ?_, hold.space.mono fun t ht => List.mem_append_left _ ht⟩
  · rw [houtput, Array.toList_push, h.output, List.append_assoc]
  · refine List.nodup_append.mpr ⟨h.nodup, List.nodup_singleton _, fun t ht t' ht' => ?_⟩
    rintro rfl
    obtain rfl := List.mem_singleton.mp ht'
    exact Nat.lt_irrefl _ (h.range _ ht).2
  · rcases List.mem_append.mp ht with ht | ht
    · exact hold.range t ht
    · obtain rfl := List.mem_singleton.mp ht
      refine ⟨h.space.size, ?_⟩
      rw [hspace.size]
      exact Nat.lt_succ_self _

end Workshop

/-! ### Generations -/

namespace Production

variable {w : Workshop} {p : Production}

/-- So far, what was declared for the batch was added to the module. -/
def Makes (w : Workshop) (p : Production) : Prop :=
  ∃ more, w.Produces more p.workshop ∧ ∀ h t, p.emitted.types.find? h = some t → t ∈ more

theorem makes_inSpace {act : Attempt TypeSpace α}
    (hact : ∀ s₀, Maintains (TypeSpace.Prepares s₀) act) :
    Maintains (Makes w) (inSpace act) := by
  rintro p ⟨more, hp, hrows⟩
  have hnext : ∀ space, p.workshop.space.Prepares space → Makes w (p.withSpace space) :=
      fun space h =>
        ⟨more, hp.finishes h.finishes fun _ ht => absurd ht List.not_mem_nil, hrows⟩
  rw [wp_inSpace]
  exact wp_mono (hact _ _ (.refl _)) (fun _ => hnext) hnext

theorem makes_inBatch (act : Attempt Batch α) : Maintains (Makes w) (inBatch act) :=
  fun _ hp => wp_const.mpr hp

theorem makes_lookUp (find : Emitted → Except Fault α) : Maintains (Makes w) (lookUp find) :=
  maintains_bind maintains_get fun _ => maintains_lift _

theorem makes_descriptor (h : TypeHandle) : Maintains (Makes w) (descriptor h) :=
  maintains_bind maintains_get fun _ => maintains_lift _

theorem makes_emit {add : Emitted → Except Fault Emitted}
    (hadd : ∀ e e', add e = .ok e' → e'.types = e.types) :
    Maintains (Makes w) (emit add) := by
  rintro p ⟨more, hp, hrows⟩
  rw [wp_emit]
  refine ⟨fun e he => ⟨more, hp, fun h t ht => hrows h t ?_⟩, fun _ _ => ⟨more, hp, hrows⟩⟩
  rwa [hadd _ _ he] at ht

theorem makes_emitMethod (h : MethodHandle) (m : MethodId) : Maintains (Makes w)
    (emit (·.addMethod h m)) := by
  refine makes_emit fun e e' he => ?_
  obtain ⟨methods, -, hend⟩ := bind_eq_ok.mp he
  cases hend
  rfl

theorem makes_declare (h : TypeHandle) : Maintains (Makes w) (declare h) := by
  refine maintains_bind (makes_descriptor h) fun d => maintains_bind maintains_get fun _ =>
    maintains_bind (makes_inBatch _) fun answer =>
      maintains_bind (maintains_option _ fun outer => makes_lookUp _) fun declaring => ?_
  rintro p ⟨more, hp, hrows⟩
  rw [wp_bind, inWorkshop, wp_within]
  refine wp_mono (Workshop.wp_defineType_appends _ _ _ _ _) ?_ ?_
  · rintro t w' ⟨rfl, hspace, houtput⟩
    have hp' := hp.declares hspace houtput
    rw [wp_emit]
    refine ⟨fun e he => ⟨_, hp', fun h' t ht => ?_⟩, fun _ _ =>
      ⟨_, hp', fun h' t ht => List.mem_append_left _ (hrows h' t ht)⟩⟩
    obtain rfl := addType_ok he
    by_cases hsame : h = h'
    · subst hsame
      obtain rfl := Option.some.inj ((Keyed.find?_put_self _ _ _).symm.trans ht)
      exact List.mem_append_right _ (List.mem_singleton_self _)
    · exact List.mem_append_left _
        (hrows h' t ((Keyed.find?_put_of_ne _ _ _ _ hsame).symm.trans ht))
  · rintro w' ⟨hspace, houtput⟩
    have hnext := hp.finishes hspace.prepares.finishes fun _ ht => absurd ht List.not_mem_nil
    rw [← houtput] at hnext
    exact ⟨more, hnext, hrows⟩

theorem makes_namedType (s : Signature) : Maintains (Makes w) (namedType s) :=
  maintains_bind maintains_get fun _ => maintains_lift _

theorem makes_registerMethod (m : DraftMethod) (method : MethodId) : Maintains (Makes w)
    (registerMethod m method) :=
  maintains_bind (makes_inSpace fun _ => TypeSpace.prepares_modifyMethod method _) fun _ =>
    makes_emitMethod _ _

theorem makes_defineBase (objectType : TypeId) (d : Descriptor) (t : TypeId) :
    Maintains (Makes w) (defineBase objectType d t) := by
  have hparent : ∀ base, Maintains (Makes w) (inSpace (TypeSpace.setParent t base)) := fun base =>
    makes_inSpace fun _ => TypeSpace.prepares_aside fun _ => TypeSpace.aside_setParent t base
  unfold defineBase
  cases d.base with
  | some base => exact maintains_bind (makes_namedType base) hparent
  | none => exact maintains_ite (hparent objectType) (maintains_pure _)

theorem makes_defineField (t : TypeId) (f : DraftField) : Maintains (Makes w)
    (defineField t f) := by
  refine maintains_bind (makes_lookUp _) fun signature =>
      maintains_bind (makes_inSpace fun _ => ?_) fun field =>
    maintains_bind (makes_inSpace fun _ => ?_) fun _ => makes_emit fun e e' he => ?_
  · exact TypeSpace.prepares_aside fun _ => TypeSpace.aside_defineField _ _ _ _
  · exact TypeSpace.prepares_aside fun _ => TypeSpace.aside_modifyField _ _
  · obtain ⟨fields, -, hend⟩ := bind_eq_ok.mp he
    cases hend
    rfl

theorem makes_defineConstructor (d : Descriptor) (t : TypeId) (c : DraftMethod) :
    Maintains (Makes w) (defineConstructor d t c) := by
  refine maintains_bind (makes_lookUp _) fun _ => ?_
  refine maintains_bind (makes_inSpace fun _ => TypeSpace.prepares_defineConstructor _ _ _) fun _ =>
    ?_
  refine maintains_bind (makes_registerMethod _ _) fun _ => ?_
  exact maintains_pure _

theorem makes_defineInitializer (d : Descriptor) (t : TypeId) : Maintains (Makes w)
    (defineInitializer d t) := by
  refine maintains_ite (maintains_pure _) (maintains_bind (makes_inSpace fun _ =>
    TypeSpace.prepares_defineInitializer t) fun m => ?_)
  cases d.typeInitializer with
  | some made => exact maintains_bind (makes_registerMethod made m) fun _ => maintains_pure _
  | none => exact maintains_bind (makes_emitMethod _ _) fun _ => maintains_pure _

theorem makes_defineMethod (t : TypeId) (m : DraftMethod) : Maintains (Makes w)
    (defineMethod t m) := by
  refine maintains_bind (makes_lookUp _) fun _ => ?_
  refine maintains_bind (makes_inSpace fun _ => TypeSpace.prepares_defineMethod _ _ _ _) fun _ => ?_
  refine maintains_bind (makes_registerMethod _ _) fun _ => ?_
  exact maintains_pure _

theorem makes_emittedMethod? (h : Option MethodHandle) : Maintains (Makes w) (emittedMethod? h) :=
  maintains_option h fun _ => makes_lookUp _

theorem makes_defineProperty (t : TypeId) (v : DraftProperty) : Maintains (Makes w)
    (defineProperty t v) := by
  refine maintains_bind (makes_emittedMethod? _) fun getter =>
      maintains_bind (makes_emittedMethod? _) fun setter =>
    maintains_bind (makes_lookUp _) fun signature =>
        maintains_bind (makes_inSpace fun _ => ?_) fun property =>
      makes_emit fun e e' he => ?_
  · exact TypeSpace.prepares_aside fun _ => TypeSpace.aside_defineProperty _ _ _ _ _
  · obtain ⟨properties, -, hend⟩ := bind_eq_ok.mp he
    cases hend
    rfl

theorem makes_defineEvent (t : TypeId) (v : DraftEvent) : Maintains (Makes w)
    (defineEvent t v) := by
  refine maintains_bind (makes_emittedMethod? _) fun raise =>
      maintains_bind (makes_lookUp _) fun type =>
    maintains_bind (makes_lookUp _) fun add => maintains_bind (makes_lookUp _) fun remove =>
      maintains_bind (makes_inSpace fun _ => ?_) fun event => makes_emit fun e e' he => ?_
  · exact TypeSpace.prepares_aside fun _ => TypeSpace.aside_defineEvent _ _ _ _ _ _
  · obtain ⟨events, -, hend⟩ := bind_eq_ok.mp he
    cases hend
    rfl

theorem makes_define (objectType : TypeId) (h : TypeHandle) : Maintains (Makes w)
    (define objectType h) := by
  refine maintains_bind (makes_descriptor h) fun d => maintains_bind (makes_lookUp _) fun t =>
    maintains_bind (makes_defineBase objectType d t) fun _ => ?_
  have hinterfaces : Maintains (Makes w) (forIn d.interfaces.toList PUnit.unit (fun s _ => do
      let _ ← (do let i ← namedType s; inSpace (TypeSpace.implementInterface t i))
      pure (.yield PUnit.unit)) : Attempt Production PUnit) :=
    maintains_forIn _ fun s _ => maintains_bind (makes_namedType s) fun i =>
      makes_inSpace fun _ => TypeSpace.prepares_aside fun _ =>
        TypeSpace.aside_implementInterface t i
  simp only [bind_assoc] at hinterfaces
  refine maintains_bind hinterfaces fun _ => maintains_bind (maintains_forIn _ fun a _ =>
      makes_inSpace fun _ =>
    TypeSpace.prepares_aside fun _ => TypeSpace.aside_setAttribute t a) fun _ => ?_
  refine maintains_bind (maintains_forIn _ fun f _ => makes_defineField t f) fun _ =>
    maintains_bind (maintains_mapM _ fun c _ => makes_defineConstructor d t c) fun _ =>
      maintains_bind (makes_defineInitializer d t) fun _ =>
        maintains_bind (maintains_mapM _ fun m _ => makes_defineMethod t m) fun _ => ?_
  refine maintains_bind (maintains_forIn _ fun v _ => makes_defineProperty t v) fun _ =>
    maintains_bind (maintains_forIn _ fun v _ => makes_defineEvent t v) fun _ => ?_
  exact maintains_bind (maintains_forIn _ fun a _ => maintains_modify fun _ hp => hp) fun _ =>
    maintains_pure _

theorem makes_attachOne (a : Attachment) : Maintains (Makes w) (attachOne a) := by
  cases a with
  | body t m body =>
    exact maintains_bind (makes_lookUp _) fun _ => makes_inSpace fun _ =>
      TypeSpace.prepares_defineBody _ _ _
  | override t body declaration =>
    exact makes_inSpace fun _ => TypeSpace.prepares_aside fun _ =>
      TypeSpace.aside_defineOverride _ _ _

theorem makes_create (h : TypeHandle) : Maintains (Makes w) (create h) := by
  rintro p ⟨more, hp, hrows⟩
  unfold create
  rw [wp_bind, wp_lookUp]
  refine ⟨fun t ht => ?_, fun _ _ => ⟨more, hp, hrows⟩⟩
  have hmem := hrows h t (Emitted.require_ok ht)
  have hnext : ∀ space, p.workshop.space.Finishes [t] space → Makes w (p.withSpace space) :=
      fun space hspace =>
        ⟨more, hp.finishes hspace fun other hother => List.mem_singleton.mp hother ▸ hmem, hrows⟩
  rw [wp_bind, wp_inSpace]
  exact wp_mono (TypeSpace.wp_createType t (hp.range t hmem).2) (fun _ => hnext) hnext

theorem makes_generate (objectType : TypeId) : Maintains (Makes w) (generate objectType) := by
  refine maintains_bind (maintains_modify fun _ hp => hp) fun _ => ?_
  refine maintains_bind maintains_get fun _ => ?_
  refine maintains_bind (maintains_lift _) fun _ => ?_
  refine maintains_bind (maintains_forIn _ fun h _ => makes_declare h) fun _ => ?_
  refine maintains_bind (maintains_forIn _ fun h _ => makes_define objectType h) fun _ => ?_
  refine maintains_bind maintains_get fun _ => ?_
  refine maintains_bind (maintains_forIn _ fun a _ => makes_attachOne a) fun _ => ?_
  refine maintains_bind (maintains_mapM _ fun h _ => makes_create h) fun _ => ?_
  refine maintains_bind maintains_get fun _ => ?_
  exact maintains_pure _

/-- However the generation of a batch ends, the module has got its types, and only those were
finished. -/
theorem generate_produces (objectType : TypeId) (b : Batch) (w : Workshop) :
    ∃ more, w.Produces more ((generate objectType).start
      { batch := b, workshop := w }).2.workshop := by
  have hstart : Makes w { batch := b, workshop := w } := ⟨[], .refl w, fun _ _ ht => by cases ht⟩
  obtain ⟨more, hp, -⟩ := wp_const.mp (makes_generate objectType _ hstart)
  exact ⟨more, hp⟩

end Production

end TypeLoom
