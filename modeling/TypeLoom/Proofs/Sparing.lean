import TypeLoom.Proofs.Output

/-!
# Finished types are left alone

Generating a batch and reading a document add types to a program. A type that was finished before
stays as it is, whether they succeed or fail; at most it encloses more types than before. A type on
its way gets no initializer but its own.
-/

namespace TypeLoom

open Attempt

variable {α : Type}

/-! ### Programs -/

namespace Universe

/-- Finished types are as they were, up to the types that they enclose, and who got an
initializer got its own. -/
structure Spares (u u' : Universe) : Prop where
  size : u.types.size ≤ u'.types.size
  record : ∀ t, (u.record t).complete = true → ∃ nested, u'.record t = { u.record t with nested }
  initializer : ∀ t m, (u'.record t).initializer = some m → (u.record t).initializer = some m
    ∨ m.owner = t

variable {u mid u' : Universe}

theorem Spares.refl (u : Universe) :
    u.Spares u := ⟨Nat.le_refl _, fun t _ => ⟨(u.record t).nested, rfl⟩, fun _ _ hm => .inl hm⟩

theorem Spares.complete (h : u.Spares u') {t : TypeId} (ht : (u.record t).complete = true) :
    (u'.record t).complete = true := by
  obtain ⟨nested, hrecord⟩ := h.record t ht
  rw [hrecord]
  exact ht

theorem Spares.unfinished (h : u.Spares u') {t : TypeId} (ht : (u'.record t).complete = false) :
    (u.record t).complete = false := by
  rw [Bool.eq_false_iff]
  intro hdone
  rw [h.complete hdone] at ht
  cases ht

theorem Spares.trans (h : u.Spares mid) (h' : mid.Spares u') : u.Spares u' where
  size := Nat.le_trans h.size h'.size
  record := fun t ht => by
    obtain ⟨nested, hmid⟩ := h.record t ht
    obtain ⟨nested', hafter⟩ := h'.record t (h.complete ht)
    exact ⟨nested', by rw [hafter, hmid]⟩
  initializer := fun t m hm => (h'.initializer t m hm).elim (h.initializer t m) .inr

theorem unfinished_of_le {t : TypeId} (h : u.types.size ≤ t.index) :
    (u.record t).complete = false := by
  rw [u.record_of_le t h]
  rfl

/-- An unfinished type may change in any way, if it gets no foreign initializer. -/
theorem Spares.modify (h : u.Spares mid) {t : TypeId} (ht : (u.record t).complete = false)
    {change : TypeRecord → TypeRecord}
    (hinitializer : ∀ r m, (change r).initializer = some m → r.initializer = some m ∨ m.owner = t) :
    u.Spares (mid.modify t change) where
  size := by
    rw [size_modify]
    exact h.size
  record := fun other hdone => by
    have hne : other ≠ t := by
      rintro rfl
      rw [ht] at hdone
      cases hdone
    rw [record_modify, if_neg fun heq => hne heq.1]
    exact h.record other hdone
  initializer := fun other m hm => by
    rw [record_modify] at hm
    split at hm
    · rename_i heq
      rw [heq.1]
      exact (hinitializer _ m hm).elim (h.initializer t m) .inr
    · exact h.initializer other m hm

theorem Spares.enclose (h : u.Spares mid) (outer t : TypeId) :
    u.Spares (mid.modify outer fun r => { r with nested := r.nested.push t }) := by
  refine h.trans ⟨Nat.le_of_eq (mid.size_modify _ _).symm, fun other _ => ?_,
    fun other m hm => .inl ?_⟩
  · rw [record_modify]
    split
    · rename_i heq
      exact ⟨_, by rw [heq.1]⟩
    · exact ⟨_, rfl⟩
  · rw [record_modify] at hm
    split at hm
    · rename_i heq
      rw [heq.1]
      exact hm
    · exact hm

theorem Spares.push (h : u.Spares mid) {r : TypeRecord} (hr : r.initializer = none) :
    u.Spares (mid.push r) := by
  refine h.trans ⟨?_, fun t ht => ?_, fun t m hm => ?_⟩
  · rw [size_push]
    exact Nat.le_succ _
  · rw [mid.record_push_of_lt r t (lt_of_complete ht)]
    exact ⟨_, rfl⟩
  · rcases Nat.lt_trichotomy t.index mid.types.size with hlt | heq | hgt
    · rw [mid.record_push_of_lt r t hlt] at hm
      exact .inl hm
    · obtain rfl : t = mid.nextId := by cases t; exact congrArg TypeId.mk heq
      rw [record_push_self, hr] at hm
      cases hm
    · rw [record_of_le _ _ (by rw [size_push]; omega)] at hm
      cases hm

theorem Spares.modifyMethod (h : u.Spares mid) {m : MethodId}
    (hm : (u.record m.owner).complete = false) (change : MethodRecord → MethodRecord) :
    u.Spares (mid.modifyMethod m change) := by
  have hsame : ∀ r : TypeRecord, (r.modifyMethod m.slot change).initializer = r.initializer :=
      fun r => by
    cases m.slot <;> rfl
  exact h.modify hm fun r _ hr => .inl (by rw [← hsame r]; exact hr)

theorem Spares.modifyField (h : u.Spares mid) {f : FieldId}
    (hf : (u.record f.owner).complete = false) (change : FieldRecord → FieldRecord) :
    u.Spares (mid.modifyField f change) :=
  h.modify hf fun _ _ hm => .inl hm

theorem Spares.dropAll (h : u.Spares mid) {types : List TypeId}
    (htypes : ∀ t ∈ types, (u.record t).complete = false) :
    u.Spares (types.foldl drop mid) := by
  induction types generalizing mid with
  | nil => exact h
  | cons t types ih =>
    obtain ⟨ht, hrest⟩ := List.forall_mem_cons.mp htypes
    exact ih (h.modify ht fun _ _ hm => .inl hm) hrest

end Universe

/-! ### Steps of a construction -/

namespace TypeSpace

structure Spares (start s : TypeSpace) : Prop where
  program : start.program.Spares s.program
  core : s.registry.core = start.registry.core

variable {start mid s : TypeSpace} {t : TypeId}

theorem Spares.refl (s : TypeSpace) : s.Spares s := ⟨.refl _, rfl⟩

theorem Spares.trans (h : start.Spares mid) (h' : mid.Spares s) : start.Spares s :=
  ⟨h.program.trans h'.program, h'.core.trans h.core⟩

theorem spares_nextToken (kind : TokenKind) : Maintains (Spares start) (nextToken kind) :=
  fun _ hs => ⟨hs.program, hs.core⟩

theorem spares_currentProgram : Maintains (Spares start) currentProgram := fun _ hs => hs

theorem spares_list (t : TypeId) : Maintains (Spares start) (list t) := by
  refine maintains_modify fun s hs => ⟨hs.program, ?_⟩
  show (s.registry.insert s.program t).core = _
  unfold Registry.insert
  split <;> exact hs.core

theorem spares_change {change : Universe → Universe}
    (h : ∀ u, start.program.Spares u → start.program.Spares (change u)) :
    Maintains (Spares start) (modify fun s : TypeSpace => { s with program := change s.program }) :=
  maintains_modify fun _ hs => ⟨h _ hs.program, hs.core⟩

theorem spares_apply {change : Universe → Except Fault Universe}
    (h : ∀ u u', start.program.Spares u → change u = .ok u' → start.program.Spares u') :
    Maintains (Spares start) (apply change) := by
  refine maintains_get_bind fun s hs => ?_
  split
  · rename_i u hu
    exact ⟨h _ _ hs.program hu, hs.core⟩
  · exact hs

section Unfinished

variable (ht : (start.program.record t).complete = false)
include ht

theorem spares_edit {change : TypeRecord → TypeRecord}
    (h : ∀ r, (change r).initializer = r.initializer) :
    Maintains (Spares start) (edit t change) :=
  spares_change fun _ hu => hu.modify ht fun r m hm => .inl (by rw [← h r]; exact hm)

theorem spares_setBase (base : TypeId) : Maintains (Spares start)
    (apply fun u => u.setBase t base) :=
  spares_apply fun u u' hu heq => by
    unfold Universe.setBase at heq
    split at heq
    · cases heq
    · cases heq
      exact hu.modify ht fun _ _ hm => .inl hm

theorem spares_setInitializer (slot : Slot) : Maintains (Spares start)
    (apply fun u => u.setInitializer t ⟨t, slot⟩) :=
  spares_apply fun u u' hu heq => by
    unfold Universe.setInitializer at heq
    split at heq
    · cases heq
    · cases heq
      exact hu.modify ht fun _ _ hm => .inr (by rw [← Option.some.inj hm])

theorem spares_nestIn (outer : TypeId) : Maintains (Spares start) (nestIn t outer) := by
  refine maintains_bind (spares_apply fun u u' hu heq => ?_) fun _ => spares_change fun _ hu =>
    hu.enclose outer t
  unfold Universe.setDeclaring at heq
  split at heq
  · cases heq
  · cases heq
    exact hu.modify ht fun _ _ hm => .inl hm

end Unfinished

theorem spares_setBody {m : MethodId} (hm : (start.program.record m.owner).complete = false)
    (body : Expr) :
    Maintains (Spares start) (setBody m body) :=
  spares_apply fun u u' hu heq => by
    unfold Universe.setBody at heq
    split at heq
    · cases heq
    · split at heq
      · cases heq
      · cases heq
        exact hu.modifyMethod hm _

theorem yields_newType (space name : String) (flags : UInt32) (origin : Origin) :
    Yields (Spares start) (fun t => (start.program.record t).complete = false)
    (newType space name flags origin) := by
  refine yields_bind (spares_nextToken _) fun token s hs => ⟨⟨hs.program.push rfl, hs.core⟩, ?_⟩
  exact Universe.unfinished_of_le hs.program.size

theorem spares_whenOpen {act : Attempt TypeSpace α}
    (h : (start.program.record t).complete = false → Maintains (Spares start) act) :
    Maintains (Spares start) (ensureOpen t >>= fun _ => act) := by
  intro s hs
  rw [wp_bind]
  exact wp_ensureOpen_of (fun hopen => h (hs.program.unfinished hopen) s hs) fun _ => hs

theorem yields_whenOpen {act : Attempt TypeSpace α} {Q : α → Prop}
    (h : (start.program.record t).complete = false → Yields (Spares start) Q act) :
    Yields (Spares start) Q (ensureOpen t >>= fun _ => act) := by
  intro s hs
  rw [wp_bind]
  exact wp_ensureOpen_of (fun hopen => h (hs.program.unfinished hopen) s hs) fun _ => hs

theorem spares_setParent (t base : TypeId) : Maintains (Spares start) (setParent t base) := by
  refine spares_whenOpen fun ht => maintains_bind spares_currentProgram fun u =>
    maintains_bind ?_ fun _ => spares_setBase ht base
  exact maintains_bind spares_currentProgram fun _ =>
    maintains_ite (maintains_throw _) (maintains_pure _)

theorem spares_implementInterface (t interface : TypeId) : Maintains (Spares start)
    (implementInterface t interface) := by
  refine spares_whenOpen fun ht => maintains_bind ?_ fun _ => spares_edit ht fun _ => rfl
  exact maintains_bind spares_currentProgram fun _ =>
    maintains_ite (maintains_throw _) (maintains_pure _)

theorem spares_setAttribute (t : TypeId) (a : Attribute) : Maintains (Spares start)
    (setAttribute t a) :=
  spares_whenOpen fun ht => spares_edit ht fun _ => rfl

def Mine (start : TypeSpace) (t owner : TypeId) : Prop :=
  owner = t ∧ (start.program.record t).complete = false

theorem yields_defineField (t : TypeId) (name : String) (signature : Signature) (flags : UInt32) :
    Yields (Spares start) (fun f => Mine start t f.owner) (defineField t name signature flags) :=
  yields_whenOpen fun ht => yields_bind (spares_nextToken _) fun _ =>
      yields_bind spares_currentProgram fun _ =>
    yields_bind (spares_edit ht fun _ => rfl) fun _ => yields_pure ⟨rfl, ht⟩

theorem yields_defineConstructor (t : TypeId) (flags : UInt32) (signature : MethodSignature) :
    Yields (Spares start) (fun m => Mine start t m.owner) (defineConstructor t flags signature) :=
  yields_whenOpen fun ht => yields_bind (spares_nextToken _) fun _ =>
      yields_bind spares_currentProgram fun _ =>
    yields_bind (spares_edit ht fun _ => rfl) fun _ => yields_pure ⟨rfl, ht⟩

theorem yields_defineMethod (t : TypeId) (name : String) (flags : UInt32)
    (signature : MethodSignature) :
    Yields (Spares start) (fun m => Mine start t m.owner) (defineMethod t name flags signature) :=
  yields_whenOpen fun ht => yields_bind (spares_nextToken _) fun _ =>
      yields_bind spares_currentProgram fun _ =>
    yields_bind (spares_edit ht fun _ => rfl) fun _ => yields_pure ⟨rfl, ht⟩

theorem yields_defineInitializer (t : TypeId) : Yields (Spares start)
    (fun m => Mine start t m.owner) (defineInitializer t) :=
  yields_whenOpen fun ht => yields_bind (spares_nextToken _) fun _ =>
      yields_bind (spares_setInitializer ht _) fun _ =>
    yields_bind (spares_edit ht fun _ => rfl) fun _ => yields_pure ⟨rfl, ht⟩

theorem spares_defineProperty (t : TypeId) (name : String) (signature : Signature)
    (getter setter : Option MethodId) :
    Maintains (Spares start) (defineProperty t name signature getter setter) := by
  refine spares_whenOpen fun ht => ?_
  refine maintains_bind (spares_nextToken _) fun _ => ?_
  refine maintains_bind spares_currentProgram fun _ => ?_
  refine maintains_bind (spares_edit ht fun _ => rfl) fun _ => ?_
  exact maintains_pure _

theorem spares_defineEvent (t : TypeId) (name : String) (type : Signature) (add remove : MethodId)
    (raise : Option MethodId) :
    Maintains (Spares start) (defineEvent t name type add remove raise) := by
  refine spares_whenOpen fun ht => ?_
  refine maintains_bind (spares_nextToken _) fun _ => ?_
  refine maintains_bind spares_currentProgram fun _ => ?_
  refine maintains_bind (spares_edit ht fun _ => rfl) fun _ => ?_
  exact maintains_pure _

theorem spares_ensureOwn (t : TypeId) (m : MethodId) : Maintains (Spares start)
    (ensureOwn t m) := by
  refine maintains_bind spares_currentProgram fun u => ?_
  split
  · split
    · exact maintains_pure _
    · exact maintains_throw _
  · exact maintains_throw _

theorem spares_defineBody {t : TypeId} {m : MethodId} (hown : m.owner = t) (body : Expr) :
    Maintains (Spares start) (defineBody t m body) := by
  subst hown
  exact spares_whenOpen fun ht => maintains_bind (spares_ensureOwn _ _) fun _ =>
    spares_setBody ht body

theorem spares_defineOverride (t : TypeId) (body declaration : MethodId) :
    Maintains (Spares start) (defineOverride t body declaration) := by
  refine spares_whenOpen fun ht => maintains_bind (spares_ensureOwn _ _) fun _ =>
    maintains_bind spares_currentProgram fun u => ?_
  exact maintains_ite (maintains_bind (maintains_throw _) fun _ => spares_edit ht fun _ => rfl)
    (spares_edit ht fun _ => rfl)

theorem spares_createType (t : TypeId) : Maintains (Spares start) (createType t) := by
  refine spares_whenOpen fun ht => ?_
  refine maintains_bind spares_currentProgram fun _ => ?_
  refine maintains_bind (maintains_lift _) fun _ => ?_
  refine maintains_bind (spares_edit ht fun _ => rfl) fun _ => ?_
  refine maintains_bind (spares_list t) fun _ => ?_
  exact maintains_pure _

end TypeSpace

/-! ### Generations -/

/-- A body is attached to a method of the type that it is attached for. -/
def Attachment.Own : Attachment → Prop
  | .body t m _ => m.owner = t
  | .override _ _ _ => True

namespace Production

variable {start : TypeSpace}

/-- Finished types are as they were, and what is to be attached is for own methods. -/
structure Spares (start : TypeSpace) (p : Production) : Prop where
  space : start.Spares p.workshop.space
  attachments : ∀ a ∈ p.attachments, a.Own

theorem spares_inWorkshop {act : Attempt Workshop α}
    (h : Maintains (fun w => start.Spares w.space) act) :
    Maintains (Spares start) (inWorkshop act) :=
  maintains_within h (fun _ hp => hp.space) fun _ _ hp hw => ⟨hw, hp.attachments⟩

theorem spares_inSpace {act : Attempt TypeSpace α} (h : Maintains start.Spares act) :
    Maintains (Spares start) (inSpace act) :=
  spares_inWorkshop (maintains_within h (fun _ hw => hw) fun _ _ _ hs => hs)

theorem yields_inSpace {Q : α → Prop} {act : Attempt TypeSpace α} (h : Yields start.Spares Q act) :
    Yields (Spares start) Q (inSpace act) := by
  intro p hp
  rw [wp_inSpace]
  exact wp_mono (h _ hp.space) (fun v space hv => ⟨⟨hv.1, hp.attachments⟩, hv.2⟩) fun space
    hspace => ⟨hspace, hp.attachments⟩

theorem spares_inBatch (act : Attempt Batch α) : Maintains (Spares start) (inBatch act) :=
  fun _ hp => wp_const.mpr ⟨hp.space, hp.attachments⟩

theorem spares_emit (add : Emitted → Except Fault Emitted) : Maintains (Spares start)
    (emit add) := fun p hp => by
  rw [wp_emit]
  exact ⟨fun _ _ => ⟨hp.space, hp.attachments⟩, fun _ _ => hp⟩

theorem spares_lookUp (find : Emitted → Except Fault α) : Maintains (Spares start) (lookUp find) :=
  maintains_bind maintains_get fun _ => maintains_lift _

theorem spares_descriptor (h : TypeHandle) : Maintains (Spares start) (descriptor h) :=
  maintains_bind maintains_get fun _ => maintains_lift _

theorem spares_namedType (s : Signature) : Maintains (Spares start) (namedType s) :=
  maintains_bind maintains_get fun _ => maintains_lift _

theorem spares_defineType (space name : String) (flags : UInt32) (declaring : Option TypeId) :
    Maintains (fun w : Workshop => start.Spares w.space)
    (Workshop.defineType space name flags declaring) := by
  have hnew : ∀ space, Yields (fun w : Workshop => start.Spares w.space) (fun t =>
    (start.program.record t).complete = false)
      (Workshop.inSpace (TypeSpace.newType space name flags .generated)) := fun space w hw => by
    rw [Workshop.inSpace, wp_within]
    exact TypeSpace.yields_newType space name flags .generated w.space hw
  refine maintains_answer (hnew _) fun t ht => ?_
  split
  · refine maintains_bind (maintains_within (TypeSpace.spares_nestIn ht _) (fun _ hw => hw) fun _ _
      _ hs => hs) fun _ => ?_
    exact maintains_bind (maintains_modify fun _ hw => hw) fun _ => maintains_pure _
  · exact maintains_bind (maintains_modify fun _ hw => hw) fun _ => maintains_pure _

theorem spares_declare (h : TypeHandle) : Maintains (Spares start) (declare h) := by
  refine maintains_bind (spares_descriptor h) fun _ => ?_
  refine maintains_bind maintains_get fun _ => ?_
  refine maintains_bind (spares_inBatch _) fun _ => ?_
  refine maintains_bind (maintains_option _ fun _ => spares_lookUp _) fun _ => ?_
  refine maintains_bind (spares_inWorkshop (spares_defineType _ _ _ _)) fun _ => ?_
  exact spares_emit _

theorem spares_registerMethod {t : TypeId} {method : MethodId}
    (hmine : TypeSpace.Mine start t method.owner) (m : DraftMethod) :
    Maintains (Spares start) (registerMethod m method) := by
  have hopen : (start.program.record method.owner).complete = false := hmine.1 ▸ hmine.2
  exact maintains_bind (spares_inSpace (TypeSpace.spares_change fun _ hu =>
    hu.modifyMethod hopen _)) fun _ => spares_emit _

theorem spares_defineBase (objectType : TypeId) (d : Descriptor) (t : TypeId) :
    Maintains (Spares start) (defineBase objectType d t) := by
  unfold defineBase
  cases d.base with
  | some base =>
    exact maintains_bind (spares_namedType base) fun _ =>
      spares_inSpace (TypeSpace.spares_setParent t _)
  | none =>
    exact maintains_ite (spares_inSpace (TypeSpace.spares_setParent t objectType))
      (maintains_pure _)

theorem spares_defineField (t : TypeId) (f : DraftField) : Maintains (Spares start)
    (defineField t f) := by
  refine maintains_bind (spares_lookUp _) fun signature =>
    maintains_answer (yields_inSpace (TypeSpace.yields_defineField t f.name signature f.flags))
      fun field hmine => ?_
  have hopen : (start.program.record field.owner).complete = false := hmine.1 ▸ hmine.2
  have hattributes : Maintains start.Spares (modify fun space : TypeSpace => { space with
      program := space.program.modifyField field fun r =>
        { r with attributes := r.attributes ++ f.attributes } }) :=
    TypeSpace.spares_change fun _ hu => hu.modifyField hopen _
  exact maintains_bind (spares_inSpace hattributes) fun _ => spares_emit _

theorem yields_defineConstructor (d : Descriptor) (t : TypeId) (c : DraftMethod) :
    Yields (Spares start) Attachment.Own (defineConstructor d t c) := by
  refine yields_bind (spares_lookUp _) fun signature => ?_
  refine yields_answer (yields_inSpace (TypeSpace.yields_defineConstructor t c.flags signature))
    fun _ hmine => ?_
  refine yields_bind (spares_registerMethod hmine c) fun _ => ?_
  exact yields_pure hmine.1

theorem yields_defineInitializer (d : Descriptor) (t : TypeId) :
    Yields (Spares start) (fun made => ∀ a ∈ made, a.Own) (defineInitializer d t) := by
  unfold defineInitializer
  split
  · exact yields_pure fun _ hnone => absurd hnone List.not_mem_nil
  · refine yields_answer (yields_inSpace (TypeSpace.yields_defineInitializer t)) fun method hmine =>
      ?_
    have hown : ∀ body, ∀ a ∈ [Attachment.body t method body], a.Own := by
      intro body a ha
      rw [List.mem_singleton.mp ha]
      exact hmine.1
    cases d.typeInitializer with
    | some m => exact yields_bind (spares_registerMethod hmine m) fun _ => yields_pure (hown _)
    | none => exact yields_bind (spares_emit _) fun _ => yields_pure (hown _)

theorem yields_defineMethod (t : TypeId) (m : DraftMethod) :
    Yields (Spares start) (fun made => ∀ a ∈ made.1 ++ made.2, a.Own) (defineMethod t m) := by
  refine yields_bind (spares_lookUp _) fun signature =>
    yields_answer (yields_inSpace (TypeSpace.yields_defineMethod t m.name m.flags signature))
        fun method hmine =>
      yields_bind (spares_registerMethod hmine m) fun _ => yields_pure fun a ha => ?_
  rcases List.mem_append.mp ha with hbody | hoverride
  · obtain ⟨body, -, rfl⟩ := List.mem_map.mp hbody
    exact hmine.1
  · obtain ⟨declaration, -, rfl⟩ := List.mem_map.mp hoverride
    trivial

theorem spares_emittedMethod? (h : Option MethodHandle) : Maintains (Spares start)
    (emittedMethod? h) :=
  maintains_option h fun _ => spares_lookUp _

theorem spares_defineProperty (t : TypeId) (v : DraftProperty) : Maintains (Spares start)
    (defineProperty t v) := by
  refine maintains_bind (spares_emittedMethod? _) fun _ => ?_
  refine maintains_bind (spares_emittedMethod? _) fun _ => ?_
  refine maintains_bind (spares_lookUp _) fun _ => ?_
  refine maintains_bind (spares_inSpace (TypeSpace.spares_defineProperty _ _ _ _ _)) fun _ => ?_
  exact spares_emit _

theorem spares_defineEvent (t : TypeId) (v : DraftEvent) : Maintains (Spares start)
    (defineEvent t v) := by
  refine maintains_bind (spares_emittedMethod? _) fun _ => ?_
  refine maintains_bind (spares_lookUp _) fun _ => ?_
  refine maintains_bind (spares_lookUp _) fun _ => ?_
  refine maintains_bind (spares_lookUp _) fun _ => ?_
  refine maintains_bind (spares_inSpace (TypeSpace.spares_defineEvent _ _ _ _ _ _)) fun _ => ?_
  exact spares_emit _

theorem spares_attach {a : Attachment} (ha : a.Own) : Maintains (Spares start) (attach a) :=
  maintains_modify fun p hp => ⟨hp.space, fun other hother => by
    rcases Array.mem_push.mp hother with hold | rfl
    · exact hp.attachments other hold
    · exact ha⟩

theorem spares_define (objectType : TypeId) (h : TypeHandle) : Maintains (Spares start)
    (define objectType h) := by
  refine maintains_bind (spares_descriptor h) fun d => maintains_bind (spares_lookUp _) fun t =>
    maintains_bind (spares_defineBase objectType d t) fun _ => ?_
  have hinterfaces : Maintains (Spares start) (forIn d.interfaces.toList PUnit.unit (fun s _ => do
      let _ ← (do let i ← namedType s; inSpace (TypeSpace.implementInterface t i))
      pure (.yield PUnit.unit)) : Attempt Production PUnit) :=
    maintains_forIn _ fun s _ => maintains_bind (spares_namedType s) fun i =>
      spares_inSpace (TypeSpace.spares_implementInterface t i)
  simp only [bind_assoc] at hinterfaces
  refine maintains_bind hinterfaces fun _ =>
    maintains_bind (maintains_forIn _ fun a _ => spares_inSpace (TypeSpace.spares_setAttribute t a))
        fun _ =>
      maintains_bind (maintains_forIn _ fun f _ => spares_defineField t f) fun _ => ?_
  refine maintains_answer (yields_mapM _ fun c _ => yields_defineConstructor d t c) fun constructors
    hconstructors => ?_
  refine maintains_answer (yields_defineInitializer d t) fun initializers hinitializers => ?_
  refine maintains_answer (yields_mapM _ fun m _ => yields_defineMethod t m) fun methods hmethods =>
    ?_
  refine maintains_bind (maintains_forIn _ fun v _ => spares_defineProperty t v) fun _ =>
    maintains_bind (maintains_forIn _ fun v _ => spares_defineEvent t v) fun _ =>
      maintains_bind (maintains_forIn _ fun a ha => spares_attach ?_) fun _ => maintains_pure _
  simp only [List.mem_append, List.mem_flatMap] at ha
  rcases ha with ((hc | hi) | ⟨made, hmade, hb⟩) | ⟨made, hmade, ho⟩
  · exact hconstructors a hc
  · exact hinitializers a hi
  · exact hmethods made hmade a (List.mem_append_left _ hb)
  · exact hmethods made hmade a (List.mem_append_right _ ho)

theorem spares_attachOne {a : Attachment} (ha : a.Own) : Maintains (Spares start)
    (attachOne a) := by
  cases a with
  | body t m body =>
    exact maintains_bind (spares_lookUp _) fun _ =>
      spares_inSpace (TypeSpace.spares_defineBody ha _)
  | override t body declaration => exact spares_inSpace (TypeSpace.spares_defineOverride _ _ _)

theorem spares_create (h : TypeHandle) : Maintains (Spares start) (create h) :=
  maintains_bind (spares_lookUp _) fun _ =>
    maintains_map (spares_inSpace (TypeSpace.spares_createType _))

/-- However a generation ends, finished types are as they were. -/
theorem wp_generate_spares (objectType : TypeId) (batch : Batch) (w : Workshop) :
    (generate objectType).wp (fun _ p => w.space.Spares p.workshop.space)
    (fun p => w.space.Spares p.workshop.space)
      { batch, workshop := w } := by
  have hall : Maintains (Spares w.space) (generate objectType) := by
    refine maintains_bind (maintains_modify fun _ hp => ⟨hp.space, hp.attachments⟩) fun _ =>
        maintains_bind maintains_get fun _ =>
      maintains_bind (maintains_lift _) fun order => maintains_bind (maintains_forIn _ fun h _ =>
          spares_declare h) fun _ =>
        maintains_bind (maintains_forIn _ fun h _ => spares_define objectType h) fun _ =>
          maintains_get_bind fun p hp => ?_
    refine maintains_bind (maintains_forIn _ fun a ha =>
      spares_attachOne (hp.attachments a (Array.mem_toList_iff.mp ha))) (fun _ => ?_) p hp
    exact maintains_bind (maintains_mapM _ fun h _ => spares_create h) fun _ =>
      maintains_bind maintains_get fun _ => maintains_pure _
  have hstart : Spares w.space { batch, workshop := w } :=
    ⟨.refl _, fun _ hnone => absurd hnone (Array.not_mem_empty _)⟩
  exact wp_mono (hall _ hstart) (fun _ _ hp => hp.space) fun _ hp => hp.space

end Production

/-! ### Reading -/

namespace Artifact.Loading

open Markup

variable {start : TypeSpace} {t : TypeId}

/-- Finished types are as they were, and only new types were declared. -/
structure Spares (start : TypeSpace) (l : Loading) : Prop where
  space : start.Spares l.space
  declared : ∀ t ∈ l.declared, start.program.types.size ≤ t.index

theorem spares_inSpace {act : Attempt TypeSpace α} (h : Maintains start.Spares act) :
    Maintains (Spares start) (inSpace act) :=
  maintains_within h (fun _ hl => hl.space) fun _ _ hl hs => ⟨hs, hl.declared⟩

theorem spares_resolve (find : Scope → Except Fault α) : Maintains (Spares start) (resolve find) :=
  maintains_bind maintains_get fun _ => maintains_lift _

theorem spares_classNamed (text : String) (fault : Fault) : Maintains (Spares start)
    (classNamed text fault) := by
  refine maintains_bind (spares_resolve _) fun signature => ?_
  split
  · exact maintains_pure _
  · exact maintains_throw _

theorem spares_nextToken (kind : TokenKind) : Maintains (Spares start)
    (inSpace (TypeSpace.nextToken kind)) :=
  spares_inSpace (TypeSpace.spares_nextToken kind)

theorem spares_methodRecord (kind : MethodKind) (n : Node) : Maintains (Spares start)
    (methodRecord kind n) := by
  refine maintains_bind (spares_nextToken _) fun _ => ?_
  refine maintains_bind (maintains_lift _) fun _ => ?_
  refine maintains_bind (maintains_lift _) fun _ => ?_
  refine maintains_bind (spares_resolve _) fun _ => ?_
  exact maintains_pure _

theorem yields_declare (n : Node) : Yields (Spares start)
    (fun t => start.program.types.size ≤ t.index) (declare n) := by
  have hadd : ∀ r : TypeRecord, r.initializer = none →
      Yields (Spares start) (fun t => start.program.types.size ≤ t.index)
      (inSpace (TypeSpace.addType r)) := fun r hr l hl =>
    ⟨⟨⟨hl.space.program.push hr, hl.space.core⟩, hl.declared⟩, hl.space.program.size⟩
  refine yields_bind (spares_nextToken _) fun token => yields_bind (maintains_lift _) fun space =>
    yields_bind (maintains_lift _) fun name => yields_bind (maintains_lift _) fun flags =>
      yields_answer (hadd _ rfl) fun t ht => ?_
  refine yields_bind (maintains_modify fun l hl => ⟨hl.space, fun other hother => ?_⟩) fun _ =>
    yields_bind ?_ fun _ => ?_
  · rcases Array.mem_push.mp hother with hold | rfl
    · exact hl.declared other hold
    · exact ht
  · unfold enclose
    split
    · exact maintains_pure _
    · exact maintains_bind (spares_resolve _) fun outer =>
        spares_inSpace (TypeSpace.spares_nestIn (Universe.unfinished_of_le ht) outer)
  · exact yields_bind (maintains_modify fun l hl => ⟨hl.space, hl.declared⟩) fun _ => yields_pure ht

section New

variable (ht : start.program.types.size ≤ t.index)
include ht

theorem spares_edit {change : TypeRecord → TypeRecord}
    (h : ∀ r, (change r).initializer = r.initializer) :
    Maintains (Spares start) (edit t change) :=
  spares_inSpace (TypeSpace.spares_edit (Universe.unfinished_of_le ht) h)

theorem spares_defineBase (n : Node) : Maintains (Spares start) (defineBase t n) := by
  unfold defineBase
  split
  · exact maintains_pure _
  · exact maintains_bind (spares_classNamed _ _) fun base =>
      spares_inSpace (TypeSpace.spares_setBase (Universe.unfinished_of_le ht) base)

theorem spares_defineInterface (n : Node) : Maintains (Spares start) (defineInterface t n) := by
  refine maintains_bind (maintains_lift _) fun _ => ?_
  refine maintains_bind (spares_classNamed _ _) fun _ => ?_
  exact spares_edit ht fun _ => rfl

theorem spares_defineField (n : Node) : Maintains (Spares start) (defineField t n) := by
  refine maintains_bind (spares_nextToken _) fun _ => ?_
  refine maintains_bind (maintains_lift _) fun _ => ?_
  refine maintains_bind (maintains_lift _) fun _ => ?_
  refine maintains_bind (spares_resolve _) fun _ => ?_
  refine maintains_bind (maintains_lift _) fun _ => ?_
  exact spares_edit ht fun _ => rfl

theorem spares_defineInitializer (n : Node) : Maintains (Spares start) (defineInitializer t n) := by
  unfold defineInitializer
  split
  · exact maintains_pure _
  · exact maintains_bind (spares_methodRecord _ _) fun _ =>
      maintains_bind (spares_inSpace
          (TypeSpace.spares_setInitializer (Universe.unfinished_of_le ht) _)) fun _ =>
        spares_edit ht fun _ => rfl

theorem spares_defineProperty (n : Node) : Maintains (Spares start) (defineProperty t n) := by
  refine maintains_bind (maintains_option _ fun _ => spares_resolve _) fun _ => ?_
  refine maintains_bind (maintains_option _ fun _ => spares_resolve _) fun _ => ?_
  refine maintains_bind (spares_nextToken _) fun _ => ?_
  refine maintains_bind (maintains_lift _) fun _ => ?_
  refine maintains_bind (maintains_lift _) fun _ => ?_
  refine maintains_bind (spares_resolve _) fun _ => ?_
  exact spares_edit ht fun _ => rfl

theorem spares_defineEvent (n : Node) : Maintains (Spares start) (defineEvent t n) := by
  refine maintains_bind (maintains_option _ fun _ => spares_resolve _) fun _ => ?_
  refine maintains_bind (spares_nextToken _) fun _ => ?_
  refine maintains_bind (maintains_lift _) fun _ => ?_
  refine maintains_bind (maintains_lift _) fun _ => ?_
  refine maintains_bind (spares_resolve _) fun _ => ?_
  refine maintains_bind (spares_resolve _) fun _ => ?_
  refine maintains_bind (spares_resolve _) fun _ => ?_
  exact spares_edit ht fun _ => rfl

theorem spares_define (n : Node) : Maintains (Spares start) (define n t) := by
  refine maintains_bind (spares_defineBase ht n) fun _ =>
    maintains_bind (maintains_forM _ fun i _ => spares_defineInterface ht i) fun _ => ?_
  refine maintains_bind (maintains_forM _ fun f _ => spares_defineField ht f) fun _ =>
    maintains_bind (maintains_forM _ fun c _ => ?_) fun _ => ?_
  · exact maintains_bind (spares_methodRecord _ c) fun _ => spares_edit ht fun _ => rfl
  refine maintains_bind (spares_defineInitializer ht n) fun _ =>
    maintains_bind (maintains_forM _ fun m _ => ?_) fun _ => ?_
  · exact maintains_bind (spares_methodRecord _ m) fun _ => spares_edit ht fun _ => rfl
  exact maintains_bind (maintains_forM _ fun p _ => spares_defineProperty ht p) fun _ =>
    maintains_forM _ fun e _ => spares_defineEvent ht e

theorem spares_attachMethod {m : MethodId} (hm : m.owner = t) (n : Node) : Maintains (Spares start)
    (attachMethod m n) := by
  have hopen : (start.program.record m.owner).complete = false :=
    Universe.unfinished_of_le (by rw [hm]; exact ht)
  have hbody : Maintains (Spares start) (attachBody m n) := by
    unfold attachBody
    split
    · exact maintains_pure _
    · exact maintains_bind (spares_resolve _) fun body =>
        spares_inSpace (TypeSpace.spares_setBody hopen body)
  refine maintains_bind (maintains_forM _ fun a _ => maintains_bind (spares_resolve _) fun _ =>
    ?_) fun _ => hbody
  exact spares_inSpace (TypeSpace.spares_change fun _ hu => hu.modifyMethod hopen _)

theorem spares_attachField {f : FieldId} (hf : f.owner = t) (n : Node) : Maintains (Spares start)
    (attachField f n) := by
  have hopen : (start.program.record f.owner).complete = false :=
    Universe.unfinished_of_le (by rw [hf]; exact ht)
  refine maintains_forM _ fun a _ => maintains_bind (spares_resolve _) fun _ => ?_
  exact spares_inSpace (TypeSpace.spares_change fun _ hu => hu.modifyField hopen _)

theorem spares_attach (n : Node) : Maintains (Spares start) (attach n t) := by
  refine maintains_bind (maintains_forM _ fun a _ => maintains_bind (spares_resolve _) fun _ =>
    spares_edit ht fun _ => rfl) fun _ => ?_
  refine maintains_get_bind fun l hl => ?_
  have hfield : ∀ f ∈ l.space.program.fieldsOf t, f.owner = t := fun f hf => by
    obtain ⟨i, -, rfl⟩ := List.mem_map.mp hf
    rfl
  -- A type that was declared here has no initializer but its own.
  have hinitializer : ∀ m ∈ (l.space.program.record t).initializer.toList, m.owner = t :=
      fun m hm => by
    refine (hl.space.program.initializer t m (Option.mem_toList.mp hm)).resolve_left fun hold => ?_
    rw [start.program.record_of_le t ht] at hold
    cases hold
  refine maintains_bind (maintains_forM _ fun p hp =>
    spares_attachField ht (hfield _ (List.of_mem_zip hp).2) p.1) (fun _ => ?_) l hl
  refine maintains_bind (maintains_forM _ fun p hp =>
    spares_attachMethod ht (Universe.owner_of_mem_constructorsOf _ (List.of_mem_zip hp).2)
      p.1) fun _ => ?_
  refine maintains_bind (maintains_forM _ fun p hp =>
    spares_attachMethod ht (hinitializer _ (List.of_mem_zip hp).2) p.1) fun _ => ?_
  refine maintains_bind (maintains_forM _ fun p hp =>
    spares_attachMethod ht (Universe.owner_of_mem_methodsOf _ (List.of_mem_zip hp).2) p.1) fun _ =>
      ?_
  refine maintains_forM _ fun o _ => maintains_bind (spares_resolve _) fun _ =>
    maintains_bind (spares_resolve _) fun _ => ?_
  exact spares_edit ht fun _ => rfl

theorem spares_finish : Maintains (Spares start) (finish t) :=
  maintains_bind (spares_inSpace (TypeSpace.spares_edit (Universe.unfinished_of_le ht) fun _ =>
      rfl)) fun _ =>
    spares_inSpace (TypeSpace.spares_list t)

end New

theorem spares_passes (nodes : List Node) : Maintains (Spares start) (passes nodes) := by
  refine maintains_answer (yields_mapM _ fun n _ => yields_declare n) fun types htypes => ?_
  refine maintains_bind (maintains_forM _ fun p hp =>
    spares_define (htypes _ (List.of_mem_zip hp).2) p.1) fun _ => ?_
  refine maintains_bind (maintains_forM _ fun p hp =>
    spares_attach (htypes _ (List.of_mem_zip hp).2) p.1) fun _ => ?_
  exact maintains_bind (maintains_forM _ fun t ht => spares_finish (htypes t ht)) fun _ =>
    maintains_pure _

/-- Only types that were declared here are given up when a module cannot be read. -/
theorem spares_load (nodes : List Node) : Maintains (Spares start) (load nodes) := by
  intro l hl
  rw [load, wp_onFault]
  refine wp_mono (spares_passes nodes l hl) (fun _ _ h => h) fun after hafter =>
    ⟨⟨?_, hafter.space.core⟩, hafter.declared⟩
  exact hafter.space.program.dropAll fun t ht =>
    Universe.unfinished_of_le (hafter.declared t (Array.mem_toList_iff.mp ht))

end Artifact.Loading

/-- However the reading of a document ends, finished types are as they were. -/
theorem Artifact.spares_decode {start : TypeSpace} (text : String) :
    Maintains start.Spares (decode text) := by
  refine maintains_bind (maintains_lift _) fun root =>
    maintains_bind (maintains_lift _) fun header => maintains_get_bind fun s hs => ?_
  have hstart : Loading.Spares s { space := s } :=
    ⟨.refl s, fun _ hnone => absurd hnone (Array.not_mem_empty _)⟩
  have hload : s.Spares ((Loading.load (root.childrenNamed "type")).start { space := s }).2.space :=
    (wp_const.mp (Loading.spares_load (root.childrenNamed "type") _ hstart)).space
  rcases hrun : (Loading.load (root.childrenNamed "type")).start { space := s } with ⟨fault | types,
    after⟩
  all_goals
    rw [hrun] at hload
    exact hs.trans hload

end TypeLoom
