import TypeLoom.Proofs.Growth

/-!
# Building types

Each step of building a type either leaves all outlines alone or adds one thing to one outline.
Whatever a class description asks for, and wherever building it stops, the universe stays
well-formed and the types that were there keep their outlines.
-/

namespace TypeLoom.TypeSpace

open Universe Attempt

variable {α β : Type} {post : α → TypeSpace → Prop} {fail : TypeSpace →
  Prop} {s : TypeSpace} {t : TypeId}

/-! ### Quiet steps -/

/-- No outline has changed, no token of a method was taken, and the core types are the same. -/
structure Idle (s after : TypeSpace) : Prop where
  same : s.program.Same after.program
  core : after.registry.core = s.registry.core
  row : after.registry.counters.rowOf .method = s.registry.counters.rowOf .method

theorem Idle.refl (s : TypeSpace) : Idle s s := ⟨.refl _, rfl, rfl⟩

theorem Idle.trans {mid after : TypeSpace} (h : Idle s mid) (h' : Idle mid after) : Idle s after :=
  ⟨h.same.trans h'.same, h'.core.trans h.core, h'.row.trans h.row⟩

/-- One outline has changed in a known way, and the core types are the same. -/
structure Shaped (s : TypeSpace) (t : TypeId) (change : TypeOutline → TypeOutline)
    (after : TypeSpace) :
    Prop where
  reshaped : s.program.Reshaped t change after.program
  core : after.registry.core = s.registry.core

/-- However the attempt ends, the space was idle. -/
def Quiet (act : Attempt TypeSpace α) : Prop := ∀ s, act.wp (fun _ => Idle s) (Idle s) s

theorem Quiet.wp {act : Attempt TypeSpace α} (h : Quiet act)
    (hpost : ∀ v after, Idle s after → post v after) (hfail : ∀ after, Idle s after → fail after) :
    act.wp post fail s :=
  wp_mono (h s) hpost hfail

theorem quiet_pure (v : α) : Quiet (pure v) := fun s => Idle.refl s

theorem quiet_throw (f : Fault) : Quiet (throw f : Attempt TypeSpace α) := fun s => Idle.refl s

theorem quiet_lift (r : Except Fault α) : Quiet (Attempt.lift r) := by
  intro s
  rw [wp_lift]
  exact ⟨fun _ _ => Idle.refl s, fun _ _ => Idle.refl s⟩

theorem quiet_bind {act : Attempt TypeSpace α} {next : α → Attempt TypeSpace β} (h : Quiet act)
    (hnext : ∀ v, Quiet (next v)) : Quiet (act >>= next) := by
  intro s
  rw [wp_bind]
  refine h.wp (fun v mid hs => ?_) fun _ hs => hs
  exact (hnext v).wp (fun _ _ hs' => hs.trans hs') fun _ hs' => hs.trans hs'

theorem quiet_ite {c : Prop} [Decidable c] {yes no : Attempt TypeSpace α} (hyes : Quiet yes)
    (hno : Quiet no) :
    Quiet (if c then yes else no) := by
  by_cases h : c
  · rwa [if_pos h]
  · rwa [if_neg h]

theorem quiet_edit (t : TypeId) {change : TypeRecord → TypeRecord}
    (h : ∀ r, (change r).outline = r.outline) :
    Quiet (edit t change) := fun _ => ⟨same_modify t h, rfl, rfl⟩

theorem quiet_apply {change : Universe → Except Fault Universe}
    (h : ∀ u after, change u = .ok after → u.Same after) : Quiet (apply change) := by
  intro s
  simp only [apply, wp_bind, wp_get]
  split
  · rename_i u hu
    exact ⟨h _ _ hu, rfl, rfl⟩
  · exact Idle.refl s

theorem quiet_nextToken {kind : TokenKind} (hkind : kind ≠ .method) :
    Quiet (nextToken kind) := fun s => by
  refine ⟨Same.refl s.program, rfl, ?_⟩
  show (s.registry.counters.bump kind).rowOf .method = _
  rw [TokenCounters.rowOf_bump, if_neg hkind]

theorem quiet_list (t : TypeId) : Quiet (list t) := by
  intro s
  have hinsert : (s.registry.insert s.program t).core = s.registry.core
      ∧ (s.registry.insert s.program t).counters = s.registry.counters := by
    unfold Registry.insert
    split <;> exact ⟨rfl, rfl⟩
  exact ⟨Same.refl s.program, hinsert.1, congrArg (·.rowOf .method) hinsert.2⟩

theorem quiet_currentProgram : Quiet currentProgram := fun s => Idle.refl s

theorem quiet_appendField (t : TypeId) (name : String) (signature : Signature) (flags : UInt32) :
    Quiet (appendField t name signature flags) := by
  refine quiet_bind (quiet_nextToken nofun) fun _ => ?_
  refine quiet_bind quiet_currentProgram fun _ => ?_
  refine quiet_bind (quiet_edit t fun _ => rfl) fun _ => ?_
  exact quiet_pure _

theorem quiet_appendProperty (t : TypeId) (name : String) (signature : Signature)
    (getter setter : Option MethodId) : Quiet (appendProperty t name signature getter setter) := by
  refine quiet_bind (quiet_nextToken nofun) fun _ => ?_
  refine quiet_bind quiet_currentProgram fun _ => ?_
  refine quiet_bind (quiet_edit t fun _ => rfl) fun _ => ?_
  exact quiet_pure _

theorem quiet_appendEvent (t : TypeId) (name : String) (type : Signature) (add remove : MethodId)
    (raise : Option MethodId) : Quiet (appendEvent t name type add remove raise) := by
  refine quiet_bind (quiet_nextToken nofun) fun _ => ?_
  refine quiet_bind quiet_currentProgram fun _ => ?_
  refine quiet_bind (quiet_edit t fun _ => rfl) fun _ => ?_
  exact quiet_pure _

theorem quiet_markComplete (t : TypeId) : Quiet (markComplete t) := quiet_edit t fun _ => rfl

/-- Changes of a method that its head does not show leave the outline of its type alone. -/
theorem outline_modifyMethod (r : TypeRecord) (slot : Slot) {change : MethodRecord → MethodRecord}
    (h : ∀ m, (change m).outline = m.outline) :
    (r.modifyMethod slot change).outline = r.outline := by
  have hmap : ∀ (methods : Array MethodRecord) (index : Nat),
      (methods.modify index change).toList.map MethodRecord.outline
        = methods.toList.map MethodRecord.outline := by
    intro methods index
    apply List.ext_getElem?
    intro i
    simp only [List.getElem?_map, Array.getElem?_toList, Array.getElem?_modify]
    split <;> cases methods[i]? <;> simp [h]
  cases slot with
  | method index => simp only [TypeRecord.modifyMethod, TypeRecord.outline, hmap]
  | constructor index => simp only [TypeRecord.modifyMethod, TypeRecord.outline, hmap]
  | typeInitializer =>
    simp only [TypeRecord.modifyMethod, TypeRecord.outline, Option.map_map]
    congr 1
    cases r.ownInitializer <;> simp [h]

theorem quiet_setBody (m : MethodId) (body : Expr) : Quiet (setBody m body) := by
  refine quiet_apply fun u after h => ?_
  unfold Universe.setBody at h
  split at h
  · cases h
  · split at h
    · cases h
    · cases h
      exact same_modify _ fun r => outline_modifyMethod r m.slot fun _ => rfl

theorem quiet_giveBody (t : TypeId) (m : MethodId) (source : BodySource) :
    Quiet (giveBody t m source) := by
  refine quiet_bind quiet_currentProgram fun u => quiet_bind (quiet_lift _) fun body => ?_
  cases body with
  | none => exact quiet_pure _
  | some body => exact quiet_setBody m body

theorem quiet_nestIn (t outer : TypeId) : Quiet (nestIn t outer) := by
  refine quiet_bind (quiet_apply fun u after h => ?_) fun _ => quiet_edit outer fun _ => rfl
  unfold setDeclaring at h
  split at h
  · cases h
  · cases h
    exact same_modify t fun _ => rfl

theorem quiet_checkBase (base : TypeId) (name : String) : Quiet (checkBase base name) :=
  quiet_bind quiet_currentProgram fun _ => quiet_ite (quiet_throw _) (quiet_pure _)

theorem quiet_checkInterface (interface : TypeId) : Quiet (checkInterface interface) :=
  quiet_bind quiet_currentProgram fun _ => quiet_ite (quiet_throw _) (quiet_pure _)

/-! ### Steps that add to an outline -/

theorem wp_newType {post : TypeId → TypeSpace → Prop} {space name : String} {flags : UInt32}
    {origin : Origin}
    (h : ∀ token after, after.program = s.program.push { token, space, name, flags, origin } →
      after.registry.core = s.registry.core → post s.program.nextId after) :
    (newType space name flags origin).wp post fail s :=
  h _ _ rfl rfl

theorem wp_appendMethod {post : MethodId → TypeSpace → Prop} {name : String} {flags : UInt32}
    {signature : MethodSignature} (ht : t.index < s.program.types.size)
    (h : ∀ after, Shaped s t (TypeOutline.addMethod ⟨(s.registry.counters.next .method).1, name,
      flags, signature⟩) after →
      after.registry.counters = s.registry.counters.bump .method →
      post ⟨t, .method (s.program.record t).methods.size⟩ after) :
    (appendMethod t name flags signature).wp post fail s := by
  refine h _ ⟨reshaped_modify ht fun r => ?_, rfl⟩ rfl
  simp [TypeRecord.outline, TypeOutline.addMethod, MethodRecord.outline, TokenCounters.next]

theorem wp_appendConstructor {post : MethodId → TypeSpace → Prop} {name : String} {flags : UInt32}
    {signature : MethodSignature} (ht : t.index < s.program.types.size)
    (h : ∀ after, Shaped s t (TypeOutline.addConstructor ⟨(s.registry.counters.next .method).1,
      name, flags, signature⟩) after →
      after.registry.counters = s.registry.counters.bump .method →
      post ⟨t, .constructor (s.program.record t).constructors.size⟩ after) :
    (appendConstructor t name flags signature).wp post fail s := by
  refine h _ ⟨reshaped_modify ht fun r => ?_, rfl⟩ rfl
  simp [TypeRecord.outline, TypeOutline.addConstructor, MethodRecord.outline, TokenCounters.next]

/-- The initializer of a type is set, if there is none yet. A token is taken either way. -/
theorem wp_placeInitializer {post : MethodId → TypeSpace → Prop} {name : String} {flags : UInt32}
    {signature : MethodSignature} (ht : t.index < s.program.types.size)
    (h : ∀ after, (s.program.outline t).initializer = none →
      Shaped s t (TypeOutline.setInitializer ⟨t, .typeInitializer⟩
        ⟨(s.registry.counters.next .method).1, name, flags, signature⟩) after →
      after.registry.counters = s.registry.counters.bump .method → post ⟨t, .typeInitializer⟩ after)
    (hfail : ∀ after, (s.program.outline t).initializer ≠ none → after.program = s.program →
      after.registry.core = s.registry.core →
      after.registry.counters = s.registry.counters.bump .method → fail after) :
    (placeInitializer t name flags signature).wp post fail s := by
  simp only [placeInitializer, nextToken, apply, wp_bind, wp_get, wp_set, wp_pure]
  split
  · rename_i u hu
    unfold setInitializer at hu
    split at hu
    · cases hu
    · rename_i hnone
      cases hu
      refine h _ (Option.not_isSome_iff_eq_none.mp hnone) ⟨⟨?_, fun other => ?_⟩, rfl⟩ rfl
      · exact (size_modify _ _ _).trans (size_modify _ _ _)
      · show (Universe.modify _ t _).outline other = _
        rw [outline_modify _ _ _ _ (by rw [size_modify]; exact ht)]
        by_cases ho : other = t
        · rw [if_pos ho, if_pos ho, record_modify, if_pos ⟨rfl, ht⟩]
          rfl
        · rw [if_neg ho, if_neg ho, outline_modify _ _ _ _ ht, if_neg ho]
  · rename_i f hf
    refine hfail _ (fun hnone => ?_) rfl rfl rfl
    have hnone' : (s.program.record t).initializer = none := hnone
    simp [setInitializer, hnone'] at hf

theorem wp_setBase {post : PUnit → TypeSpace → Prop} {b : TypeId}
    (ht : t.index < s.program.types.size)
    (h : ∀ after, Shaped s t (TypeOutline.setBase b) after → post ⟨⟩ after) (hfail : fail s) :
    (apply fun u => u.setBase t b).wp post fail s := by
  simp only [apply, wp_bind, wp_get]
  split
  · rename_i u hu
    unfold Universe.setBase at hu
    split at hu
    · cases hu
    · cases hu
      exact h _ ⟨reshaped_modify ht fun _ => rfl, rfl⟩
  · exact hfail

theorem wp_checkBase {post : PUnit → TypeSpace → Prop} {b : TypeId} {name : String}
    (h : (s.program.record b).isInterface = false → post ⟨⟩ s) (hfail : fail s) :
    (checkBase b name).wp post fail s := by
  simp only [checkBase, currentProgram, wp_bind, wp_get, wp_pure, wp_ite, wp_throw]
  refine ⟨fun _ => hfail, fun hn => h ?_⟩
  simp_all

theorem wp_appendInterface {post : PUnit → TypeSpace → Prop} {i : TypeId}
    (ht : t.index < s.program.types.size)
    (h : ∀ after, (s.program.record i).isInterface = true →
      Shaped s t (TypeOutline.addInterface i) after →
      post ⟨⟩ after) (hfail : fail s) : (appendInterface t i).wp post fail s := by
  simp only [appendInterface, checkInterface, currentProgram, wp_bind, wp_get, wp_pure,
    wp_ite, wp_throw]
  refine ⟨fun _ => hfail, fun hi => h _ (by simpa using hi) ⟨reshaped_modify ht fun r => ?_, rfl⟩⟩
  simp [TypeRecord.outline, TypeOutline.addInterface]

end TypeLoom.TypeSpace

/-! ### Class descriptions -/

namespace TypeLoom

/-- Everything that a description of a class refers to exists. -/
structure ClassSpec.Settled (size : Nat) (spec : ClassSpec) : Prop where
  base : ∀ b, spec.base = some b → b.index < size
  interfaces : ∀ i ∈ spec.interfaces, i.index < size
  methods : ∀ m ∈ spec.methods, m.spec.signature.Settled size
  properties : ∀ p ∈ spec.properties, p.2.Settled size

instance (size : Nat) (spec : ClassSpec) : Decidable (spec.Settled size) :=
  decidable_of_iff ((∀ b ∈ spec.base, b.index < size) ∧ (∀ i ∈ spec.interfaces, i.index < size)
      ∧ (∀ m ∈ spec.methods, m.spec.signature.Settled size) ∧ ∀ p ∈ spec.properties,
      p.2.Settled size)
    ⟨fun h => ⟨h.1, h.2.1, h.2.2.1, h.2.2.2⟩, fun h =>
      ⟨h.base, h.interfaces, h.methods, h.properties⟩⟩

namespace TypeSpace

open Universe Attempt

/-- One type with some flags is being built on top of a space. -/
structure Underway (ground : TypeSpace) (flags : UInt32) (s : TypeSpace) : Prop where
  wellFormed : s.program.WellFormed
  size : s.program.types.size = ground.program.types.size + 1
  agree : Agree ground.program.types.size ground.program s.program
  flags : (s.program.outline ground.program.nextId).flags = flags
  core : s.registry.core = ground.registry.core

namespace Underway

variable {α β : Type} {ground s : TypeSpace} {flags : UInt32}

theorem lt (h : Underway ground flags s) : ground.program.nextId.index < s.program.types.size := by
  rw [h.size]
  exact Nat.lt_succ_self _

theorem idle {after : TypeSpace} (h : Underway ground flags s) (hs : Idle s after) :
    Underway ground flags after where
  wellFormed := hs.same.wellFormed h.wellFormed
  size := hs.same.1.trans h.size
  agree := h.agree.trans (hs.same.agree _)
  flags := by rw [hs.same.2]; exact h.flags
  core := hs.core.trans h.core

theorem unmoved {after : TypeSpace} (h : Underway ground flags s)
    (hprogram : after.program = s.program) (hcore : after.registry.core = s.registry.core) :
    Underway ground flags after := by
  obtain ⟨hwellFormed, hsize, hagree, hflags, hground⟩ := h
  rw [← hprogram] at hwellFormed hsize hagree hflags
  exact ⟨hwellFormed, hsize, hagree, hflags, hcore.trans hground⟩

theorem shaped {after : TypeSpace} {change : TypeOutline → TypeOutline}
    (h : Underway ground flags s) (hr : Shaped s ground.program.nextId change after)
    (hk : TypeOutline.Keeps (s.program.outline ground.program.nextId)
      (change (s.program.outline ground.program.nextId)))
    (hfits : (s.program.outline ground.program.nextId).Fits s.program.outline s.program.types.size
        ground.program.nextId →
      (change (s.program.outline ground.program.nextId)).Fits s.program.outline s.program.types.size
        ground.program.nextId) : Underway ground flags after where
  wellFormed := hr.reshaped.wellFormed h.wellFormed hk (hfits (h.wellFormed _))
  size := hr.reshaped.1.trans h.size
  agree := h.agree.trans hr.reshaped.agree
  flags := by rw [hr.reshaped.self, hk.flags]; exact h.flags
  core := hr.core.trans h.core

/-- The building goes on, whether the attempt succeeds or fails. -/
def Carries (ground : TypeSpace) (flags : UInt32) (act : Attempt TypeSpace α) : Prop :=
  ∀ s, Underway ground flags s → act.wp (fun _ => Underway ground flags) (Underway ground flags) s

theorem carries_quiet {act : Attempt TypeSpace α} (h : Quiet act) : Carries ground flags act :=
  fun _ hs => h.wp (fun _ _ hidle => hs.idle hidle) fun _ hidle => hs.idle hidle

theorem carries_bind {act : Attempt TypeSpace α} {next : α → Attempt TypeSpace β}
    (h : Carries ground flags act) (hnext : ∀ v, Carries ground flags (next v)) :
    Carries ground flags (act >>= next) := by
  intro s hs
  rw [wp_bind]
  exact wp_mono (h s hs) (fun v after hafter => hnext v after hafter) fun _ hafter => hafter

theorem carries_forIn {body : β → Attempt TypeSpace α} (items : List β)
    (h : ∀ item ∈ items, Carries ground flags (body item)) :
    Carries ground flags
      (forIn items PUnit.unit fun item _ => do let _ ← body item; pure (.yield PUnit.unit)) := by
  intro s hs
  refine wp_forIn (I := fun _ => Underway ground flags) items (fun before item after heq mid hmid =>
    ?_) hs
  exact h item (by simp [heq]) mid hmid

theorem carries_mapM {body : β → Attempt TypeSpace α} (items : List β)
    (h : ∀ item ∈ items, Carries ground flags (body item)) :
    Carries ground flags (items.mapM body) := by
  intro s hs
  refine wp_mono (wp_mapM (I := fun _ => Underway ground flags) items ?_ hs) (fun _ _ hv => hv.2)
    fun _ hv => hv
  intro before item after heq mid hmid
  exact h item (by simp [heq]) mid hmid

theorem carries_appendMethod {name : String} {word : UInt32} {signature : MethodSignature}
    (hs : signature.Settled ground.program.types.size) :
    Carries ground flags (appendMethod ground.program.nextId name word signature) := by
  intro s h
  refine wp_appendMethod h.lt fun after hr _ =>
    h.shaped hr (TypeOutline.keeps_addMethod _ _) fun hfits => ?_
  exact hfits.addMethod (hs.mono (by rw [h.size]; omega))

theorem carries_appendConstructor {name : String} {word : UInt32} {signature : MethodSignature}
    (hs : signature.Settled ground.program.types.size) :
    Carries ground flags (appendConstructor ground.program.nextId name word signature) := by
  intro s h
  refine wp_appendConstructor h.lt fun after hr _ =>
    h.shaped hr (TypeOutline.keeps_addConstructor _ _) fun hfits => ?_
  exact hfits.addConstructor (hs.mono (by rw [h.size]; omega))

theorem carries_placeInitializer {name : String} {word : UInt32} :
    Carries ground flags (placeInitializer ground.program.nextId name word {}) := by
  intro s h
  refine wp_placeInitializer h.lt (fun after hnone hr _ => ?_) fun after _ hsame hcore _ => ?_
  have hfits := h.wellFormed ground.program.nextId
  exact h.shaped hr (TypeOutline.keeps_setInitializer _ _ (hfits.initializer hnone)) fun hfits =>
    hfits.setInitializer (MethodSignature.settled_default _) hnone
  exact h.unmoved hsame hcore

theorem carries_appendInterface {i : TypeId} (hi : i.index < ground.program.types.size) :
    Carries ground flags (appendInterface ground.program.nextId i) := by
  intro s h
  refine wp_appendInterface h.lt (fun after hint hr => ?_) h
  exact h.shaped hr (TypeOutline.keeps_addInterface _ _) fun hfits =>
    hfits.addInterface (Nat.le_of_lt hi) hint

theorem carries_setBase {b : TypeId} (name : String) (hb : b.index < ground.program.types.size)
    (hclass : hasBits flags TypeFlags.interface = false) :
    Carries ground flags (do checkBase b name; apply fun v => v.setBase ground.program.nextId b) := by
  intro s h
  rw [wp_bind]
  refine wp_checkBase (fun hbase => ?_) h
  refine wp_setBase h.lt (fun after hr => ?_) h
  refine h.shaped hr (TypeOutline.keeps_setBase _ _) fun hfits => hfits.setBase hb hbase ?_
  rw [TypeOutline.isInterface, h.flags, hclass]

theorem carries_autoProperty {name : String} {signature : Signature}
    (hs : signature.Settled ground.program.types.size) :
    Carries ground flags (autoProperty ground.program.nextId name signature) := by
  have hget : (MethodSignature.unnamed signature []).Settled ground.program.types.size :=
    ⟨hs, fun _ ht => absurd ht (by simp [MethodSignature.unnamed, MethodSignature.types])⟩
  have hset : (⟨.void, [⟨"value", signature⟩]⟩ : MethodSignature).Settled
      ground.program.types.size := by
    refine ⟨trivial, fun t ht => ?_⟩
    simp only [MethodSignature.types, List.map_cons, List.map_nil, List.mem_singleton] at ht
    rw [ht]
    exact hs
  exact carries_bind (carries_quiet (quiet_appendField _ _ _ _)) fun _ =>
    carries_bind (carries_appendMethod hget) fun _ =>
        carries_bind (carries_appendMethod hset) fun _ =>
      carries_bind (carries_quiet (quiet_appendProperty _ _ _ _ _)) fun _ =>
        carries_quiet (quiet_pure _)

theorem carries_describedMethod {described : NamedMethodSpec}
    (hs : described.spec.signature.Settled ground.program.types.size) :
    Carries ground flags (describedMethod ground.program.nextId described) := by
  unfold describedMethod
  split
  · exact carries_bind (carries_appendConstructor hs) fun _ => carries_quiet (quiet_pure _)
  · exact carries_bind (carries_appendMethod hs) fun _ => carries_quiet (quiet_pure _)

theorem carries_giveBase {spec : ClassSpec} {defaultBase : Option TypeId}
    (hspec : spec.Settled ground.program.types.size)
    (hdefault : ∀ b, defaultBase = some b → b.index < ground.program.types.size) :
    Carries ground spec.flags (giveBase ground.program.nextId spec defaultBase) := by
  unfold giveBase
  by_cases hclass : hasBits spec.flags TypeFlags.interface = true
  · simp only [hclass, Bool.not_true, Bool.false_eq_true, if_false]
    exact carries_quiet (quiet_pure _)
  · have hclass' : hasBits spec.flags TypeFlags.interface = false := by simpa using hclass
    simp only [hclass', Bool.not_false, if_true]
    cases hbase : spec.base.or defaultBase with
    | none => exact carries_quiet (quiet_pure _)
    | some base =>
      refine carries_setBase spec.name ?_ hclass'
      rcases Option.or_eq_some_iff.mp hbase with h | ⟨_, h⟩
      · exact hspec.base base h
      · exact hdefault base h

theorem carries_placeMembers {spec : ClassSpec} (hspec : spec.Settled ground.program.types.size) :
    Carries ground flags (placeMembers ground.program.nextId spec) := by
  unfold placeMembers
  refine carries_bind (carries_forIn _ fun field _ => carries_quiet (quiet_appendField _ _ _ _))
    fun _ => ?_
  refine carries_bind (carries_mapM _ fun p hp => carries_autoProperty (hspec.properties p hp))
    fun accessors => ?_
  refine carries_bind (carries_mapM _ fun m hm => carries_describedMethod (hspec.methods m hm))
    fun described => ?_
  refine carries_bind ?_ fun _ => carries_quiet (quiet_pure _)
  cases spec.typeInitializer with
  | none => exact carries_quiet (quiet_pure _)
  | some make => exact carries_bind carries_placeInitializer fun _ => carries_quiet (quiet_pure _)

theorem carries_completeWith {spec : ClassSpec} (hspec : spec.Settled ground.program.types.size) :
    Carries ground flags (completeWith ground.program.nextId spec) := by
  unfold completeWith
  refine carries_bind (carries_forIn _ fun i hi => carries_appendInterface (hspec.interfaces i hi))
    fun _ => ?_
  refine carries_bind (carries_placeMembers hspec) fun bodies => ?_
  refine carries_bind (carries_forIn bodies fun pair _ =>
    carries_quiet (quiet_giveBody _ pair.1 pair.2)) fun _ => ?_
  exact carries_bind (carries_quiet (quiet_edit _ fun _ => rfl)) fun _ =>
    carries_quiet (quiet_markComplete _)

theorem carries_fill {spec : ClassSpec} {defaultBase : Option TypeId}
    (hspec : spec.Settled ground.program.types.size)
    (hdefault : ∀ b, defaultBase = some b → b.index < ground.program.types.size) :
    Carries ground spec.flags (fill ground.program.nextId spec defaultBase) := by
  unfold fill
  refine carries_bind (carries_giveBase hspec hdefault) fun _ => ?_
  cases spec.declaring with
  | none => exact carries_completeWith hspec
  | some outer =>
    exact carries_bind (carries_quiet (quiet_nestIn _ _)) fun _ => carries_completeWith hspec

end Underway

open Underway

/-- Making a class, or failing to, adds one type and leaves the others as they were. -/
theorem wp_makeClass {s : TypeSpace} {spec : ClassSpec} {defaultBase : Option TypeId}
    (hs : s.program.WellFormed) (hspec : spec.Settled s.program.types.size)
    (hdefault : ∀ b, defaultBase = some b → b.index < s.program.types.size) :
    (makeClass spec defaultBase).wp (fun t after => t = s.program.nextId
      ∧ Underway s spec.flags after)
      (Underway s spec.flags) s := by
  unfold makeClass
  rw [wp_bind]
  refine wp_newType fun token mid hmid hcore => ?_
  have hstart : Underway s spec.flags mid := by
    refine ⟨?_, ?_, ?_, ?_, hcore⟩
    · rw [hmid]
      refine hs.push rfl rfl (fun slot => ?_) rfl
      cases slot <;> simp [TypeRecord.method?]
    · rw [hmid, size_push]
    · rw [hmid]
      exact Agree.push _
    · rw [hmid, outline_push, if_pos rfl]
      rfl
  have hfill := carries_fill hspec hdefault mid hstart
  rw [wp_bind, wp_onFault]
  refine wp_mono hfill (fun _ after hafter => ⟨rfl, hafter⟩) fun after hafter => ?_
  exact hafter.shaped ⟨reshaped_modify hafter.lt fun _ => rfl,
      rfl⟩ (TypeOutline.keeps_hide _) fun hfits =>
    hfits.hide

/-- Building a class keeps the universe well-formed and moves nothing that was there. -/
theorem wp_buildClass {s : TypeSpace} {spec : ClassSpec} (hs : s.program.WellFormed)
    (hspec : spec.Settled s.program.types.size)
    (hobject : s.registry.core.object.index < s.program.types.size) :
    (buildClass spec).wp (fun t after => t = s.program.nextId ∧ Underway s spec.flags after)
      (Underway s spec.flags) s := by
  unfold buildClass
  rw [wp_bind, wp_get, wp_bind]
  refine wp_mono (wp_makeClass hs hspec fun b hb => ?_) (fun t mid ht => ?_) fun _ h => h
  · cases hb
    exact hobject
  · rw [wp_bind]
    refine (quiet_list t).wp (fun _ after hidle => ⟨ht.1, ht.2.idle hidle⟩) fun after hidle =>
      ht.2.idle hidle

/-- The space is well-formed, and the root class is one of its types. -/
structure Sound (s : TypeSpace) : Prop where
  wellFormed : s.program.WellFormed
  object : s.registry.core.object.index < s.program.types.size

theorem Sound.idle {s after : TypeSpace} (h : s.Sound) (hi : Idle s after) : after.Sound where
  wellFormed := hi.same.wellFormed h.wellFormed
  object := by rw [hi.core, hi.same.1]; exact h.object

theorem Underway.sound {ground s : TypeSpace} {flags : UInt32} (h : Underway ground flags s)
    (hg : ground.Sound) : s.Sound where
  wellFormed := h.wellFormed
  object := by
    have := hg.object
    rw [h.core, h.size]
    omega

/-! ### New registries -/

/-- A description with a constructor only, and perhaps a base, refers to nothing else. -/
theorem settled_of_constructor {size : Nat} {spec : ClassSpec}
    (hbase : ∀ b, spec.base = some b → b.index < size) (hinterfaces : spec.interfaces = [])
    (hmethods : ∀ m ∈ spec.methods, m.spec.signature = {}) (hproperties : spec.properties = []) : spec.Settled size where
  base := hbase
  interfaces := by simp [hinterfaces]
  methods := fun m hm => by rw [hmethods m hm]; exact MethodSignature.settled_default size
  properties := by simp [hproperties]

/-- The core types of a new registry are well-formed on any well-formed universe. -/
theorem sound_fresh {u : Universe} (hu : u.WellFormed) : (fresh u).Sound := by
  let start : TypeSpace := { program := u }
  let Grown (s : TypeSpace) : Prop := s.program.WellFormed ∧ s.registry.core = default
    ∧ 0 < s.program.types.size
  have hsound : ∀ s, Grown s → s.Sound := fun s hs =>
    ⟨hs.1, by rw [hs.2.1]; exact hs.2.2⟩
  have hgrow : ∀ (ground after : TypeSpace) (flags : UInt32), ground.registry.core = default →
      Underway ground flags after → Grown after := fun ground after flags hcore h =>
    ⟨h.wellFormed, h.core.trans hcore, by rw [h.size]; exact Nat.succ_pos _⟩
  have hcore : makeCore.wp (fun core s => Grown s ∧ core.object.index < s.program.types.size)
      Grown start := by
    unfold makeCore
    rw [wp_bind]
    refine wp_mono (wp_makeClass hu (settled_of_constructor nofun rfl ?_ rfl) nofun) ?_ ?_
    · simp [ClassSpec.constructor, ClassSpec.isPublic, MethodSpec.signature]
    · rintro object first ⟨rfl, hfirst⟩
      have hf := hgrow start first _ rfl hfirst
      have hobject : start.program.nextId.index < first.program.types.size := hfirst.lt
      rw [wp_bind]
      refine wp_mono (wp_makeClass hf.1 (settled_of_constructor nofun rfl ?_ rfl) ?_) ?_ ?_
      · simp [ClassSpec.constructor, ClassSpec.isPublic, ClassSpec.abstract, MethodSpec.signature,
          MethodSpec.access]
      · rintro b hb
        cases hb
        exact hobject
      · rintro attributeType second ⟨rfl, hsecond⟩
        have hs := hgrow first second _ hf.2.1 hsecond
        have hsize := hsecond.size
        rw [wp_bind]
        refine wp_mono (wp_makeClass hs.1 (settled_of_constructor ?_ rfl ?_ rfl) ?_) ?_ ?_
        · rintro b hb
          cases hb
          exact hsecond.lt
        · simp [ClassSpec.constructor, ClassSpec.isPublic, ClassSpec.isSealed, ClassSpec.extending,
            MethodSpec.signature]
        · rintro b hb
          cases hb
          omega
        · rintro mark third ⟨rfl, hthird⟩
          have hsize' := hthird.size
          exact ⟨hgrow second third _ hs.2.1 hthird, show start.program.nextId.index < _ by omega⟩
        · intro after h
          exact hgrow second after _ hs.2.1 h
      · intro after h
        exact hgrow first after _ hf.2.1 h
    · intro after h
      exact hgrow start after _ rfl h
  have hestablish : establish.wp (fun _ => Sound) Sound start := by
    unfold establish
    rw [wp_bind]
    refine wp_mono hcore (fun core s hs => ?_) fun s hs => hsound s hs
    have hlisted : Quiet (do list core.object; list core.attributeType; list core.assembledTypeAttribute) :=
      quiet_bind (quiet_list _) fun _ => quiet_bind (quiet_list _) fun _ => quiet_list _
    rw [wp_bind, wp_modify]
    have hmid : Sound { s with registry := { s.registry with core } } := ⟨hs.1.1, hs.2⟩
    exact hlisted.wp (fun _ _ hidle => hmid.idle hidle) fun _ hidle => hmid.idle hidle
  exact wp_const.mp hestablish

end TypeSpace

end TypeLoom
