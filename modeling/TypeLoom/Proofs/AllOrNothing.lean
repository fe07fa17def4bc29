import TypeLoom.Proofs.Passes

/-!
# All or nothing

A generation that fails has listed nothing and finished no type: whatever goes wrong goes wrong
before the first type is created. This holds for every universe and every registry, and for every
batch that operations can make.
-/

namespace TypeLoom

open Attempt

/-! ### New types -/

namespace TypeSpace

structure Appends (s : TypeSpace) (flags : UInt32) (s' : TypeSpace) : Prop where
  listings : s'.registry.listings = s.registry.listings
  complete : ∀ t, (s'.program.record t).complete = (s.program.record t).complete
  size : s'.program.types.size = s.program.types.size + 1
  old : ∀ t : TypeId, t.index < s.program.types.size →
    (s.program.record t).Aside (s'.program.record t)
  new : ∃ token space name, ({ token, space, name, flags, origin := .generated } : TypeRecord).Aside
    (s'.program.record s.program.nextId)

variable {s mid s' : TypeSpace} {flags : UInt32}

theorem opened_nextId (u : Universe) : (u.record u.nextId).complete = false := by
  rw [u.record_of_le u.nextId (Nat.le_refl _)]
  rfl

theorem Appends.aside (h : Appends s flags mid) (ha : mid.Aside s') : Appends s flags s' where
  listings := ha.listings.trans h.listings
  complete := fun t => (ha.records t).complete.trans (h.complete t)
  size := ha.size.trans h.size
  old := fun t hlt => (h.old t hlt).trans (ha.records t)
  new := by
    obtain ⟨token, space, name, hnew⟩ := h.new
    exact ⟨token, space, name, hnew.trans (ha.records _)⟩

theorem wp_newType_appends {post : TypeId → TypeSpace → Prop} {fail : TypeSpace → Prop}
    {space name : String} (h : ∀ after, Appends s flags after → post s.program.nextId after) :
    (newType space name flags .generated).wp post fail s := by
  unfold newType
  rw [wp_bind]
  refine wp_nextToken fun token mid hprogram hlistings => ?_
  simp only [addType, wp_bind, wp_get, wp_set, wp_pure, hprogram]
  refine h _ ⟨hlistings, Universe.complete_push _ rfl, Universe.size_push _ _, fun t hlt => ?_,
    ⟨token, space, name, ?_⟩⟩
  · rw [Universe.record_push_of_lt _ _ _ hlt]
    exact .refl _
  · rw [Universe.record_push_self]
    exact .refl _

end TypeSpace

namespace Workshop

variable {w w' : Workshop} {flags : UInt32}

theorem wp_defineType_appends (w : Workshop) (space name : String) (flags : UInt32)
    (declaring : Option TypeId) :
    (defineType space name flags declaring).wp
      (fun t w' => t = w.space.program.nextId ∧ w.space.Appends flags w'.space
        ∧ w'.output = w.output.push t)
      (fun w' => w.space.Appends flags w'.space ∧ w'.output = w.output) w := by
  unfold defineType
  rw [wp_bind, inSpace, wp_within]
  refine TypeSpace.wp_newType_appends fun pushed hpushed => ?_
  cases declaring with
  | none => exact ⟨rfl, hpushed, rfl⟩
  | some outer =>
    rw [wp_bind, inSpace, wp_within]
    refine wp_mono (TypeSpace.aside_nestIn _ outer pushed (.refl _)) (fun _ last haside => ?_)
      fun last haside => ?_
    · exact ⟨rfl, hpushed.aside haside, rfl⟩
    · exact ⟨hpushed.aside haside, rfl⟩

theorem Withholds.append (h : w.space.Appends flags w'.space) (more : List TypeId)
    (houtput : w'.output.toList = w.output.toList ++ more)
    (hmore : ∀ t ∈ more, (w.space.program.record t).complete = false) : w.Withholds w' :=
  ⟨h.listings, h.complete, more, houtput, hmore⟩

end Workshop

namespace Production

variable {first ground p : Production} {A Q : List Attachment} {h : TypeHandle} {t : TypeId}
  {d : Descriptor}
  {α β : Type}

/-! ### Declaring -/

/-- The types of the first descriptors are declared and have no members. -/
structure Opened (ground : Production) (done : List TypeHandle) (p : Production) : Prop where
  withheld : Withheld ground p
  rows : ∀ h t, p.emitted.types.find? h = some t → ∃ d, p.batch.find? h = some d
    ∧ p.program.Row t d []
  distinct : ∀ h h' t, p.emitted.types.find? h = some t → p.emitted.types.find? h' = some t → h = h'
  nodup : done.Nodup
  found : ∀ h, h ∈ done ↔ (p.emitted.types.find? h).isSome
  attachments : p.attachments = #[]

theorem methods_of_forget {d d' : Descriptor} (h : d'.forget = d.forget) :
    d'.methods = d.methods := by
  have hforget : ∀ d : Descriptor, d.methods = d.forget.methods := fun _ => rfl
  rw [hforget d', hforget d, h]

theorem row_of_appends {s s' : TypeSpace} {b : Batch} (hd : d.Whole)
    (hs : s.Appends (if b.isAbstract u d then d.flags ||| TypeFlags.abstract else d.flags) s') :
    s'.program.Row s.program.nextId d [] := by
  obtain ⟨token, space, name, hnew⟩ := hs.new
  refine ⟨?_, hnew.complete, fun m hm habstract => ?_, ?_⟩
  · rw [hs.size]
    exact Nat.lt_succ_self _
  · have hanswer : b.isAbstract u d = true := by
      rw [Batch.isAbstract, hd.askAbstract_of_abstract hm habstract, Bool.true_or]
    rw [TypeRecord.isAbstract_of_flags hnew.flags, hanswer, if_pos rfl, TypeRecord.isAbstract,
      hasBits_or_self,
      Bool.true_or]
  · exact TypeRecord.covered_blank hnew.methods hnew.constructors hnew.ownInitializer
      hnew.initializer

theorem Opened.batch {done : List TypeHandle} {b' : Batch} (hp : Opened ground done p)
    (hb : p.batch.Remembers b') (hwhole : b'.Whole) :
    Opened ground done { p with batch := b' } where
  withheld := ⟨hp.withheld.workshop, hwhole⟩
  rows := fun h t ht => by
    obtain ⟨d, hd, hrow⟩ := hp.rows h t ht
    obtain ⟨d', hd', hforget⟩ := hb.find hd
    exact ⟨d', hd', hrow.of_methods (methods_of_forget hforget)⟩
  distinct := hp.distinct
  nodup := hp.nodup
  found := hp.found
  attachments := hp.attachments

theorem Withheld.declare {flags : UInt32} {w' : Workshop} (hp : Withheld ground p)
    (hw : p.workshop.space.Appends flags w'.space)
    (houtput : w'.output = p.workshop.output.push p.program.nextId) :
    Withheld ground { p with workshop := w' } where
  workshop := by
    refine hp.workshop.trans (.append hw [p.program.nextId] ?_ fun t ht => ?_)
    · rw [houtput, Array.toList_push]
    · rw [List.mem_singleton.mp ht]
      exact TypeSpace.opened_nextId _
  whole := hp.whole

theorem Opened.add {done : List TypeHandle} {flags : UInt32} {w' : Workshop} {e : Emitted}
    (hp : Opened ground done p) (hw : p.workshop.space.Appends flags w'.space)
    (houtput : w'.output = p.workshop.output.push p.program.nextId) (hd : p.batch.find? h = some d)
    (hrow : w'.space.program.Row p.program.nextId d [])
    (hadd : p.emitted.addType h p.program.nextId = .ok e) :
    Opened ground (done ++ [h]) { p with workshop := w', emitted := e } := by
  have hfree : p.emitted.types.find? h = none := by
    obtain ⟨types, htypes, -⟩ := bind_eq_ok.mp hadd
    unfold Emitted.addOnce at htypes
    split at htypes
    · cases htypes
    · rename_i hkey
      simpa [Keyed.hasKey] using hkey
  obtain rfl := addType_ok hadd
  have hself : (p.emitted.types.put h p.program.nextId).find? h = some p.program.nextId :=
    Keyed.find?_put_self _ _ _
  have hother : ∀ other, other ≠ h → (p.emitted.types.put h p.program.nextId).find? other
    = p.emitted.types.find? other :=
    fun other hne => Keyed.find?_put_of_ne _ _ _ _ (Ne.symm hne)
  have hfresh : ∀ other t, p.emitted.types.find? other = some t → t ≠ p.program.nextId := by
    rintro other t ht rfl
    obtain ⟨_, _, hold⟩ := hp.rows other _ ht
    exact Nat.lt_irrefl _ hold.lt
  have hwithheld := hp.withheld.declare hw houtput
  refine ⟨⟨hwithheld.workshop, hwithheld.whole⟩, fun other t ht => ?_, fun other other' t ht ht' =>
    ?_, ?_, fun other => ?_,
    hp.attachments⟩
  · by_cases hne : other = h
    · subst hne
      obtain rfl : p.program.nextId = t := Option.some.inj (hself.symm.trans ht)
      exact ⟨d, hd, hrow⟩
    · obtain ⟨e, he, hold⟩ := hp.rows other t ((hother other hne).symm.trans ht)
      have ha := hw.old t hold.lt
      refine ⟨e, he, ?_, ha.complete.trans hold.opened, fun m hm habstract => ?_,
        hold.covered.aside ha⟩
      · show t.index < w'.space.program.types.size
        rw [hw.size]
        exact Nat.lt_succ_of_lt hold.lt
      · rw [← hold.abstract m hm habstract]
        exact TypeRecord.isAbstract_of_flags ha.flags
  · by_cases hne : other = h <;> by_cases hne' : other' = h
    · rw [hne, hne']
    · rw [hne, hself] at ht
      rw [hother other' hne', ← Option.some.inj ht] at ht'
      exact absurd rfl (hfresh other' _ ht')
    · rw [hne', hself] at ht'
      rw [hother other hne, ← Option.some.inj ht'] at ht
      exact absurd rfl (hfresh other _ ht)
    · exact hp.distinct other other' t ((hother other hne).symm.trans ht)
        ((hother other' hne').symm.trans ht')
  · refine List.nodup_append.mpr ⟨hp.nodup, List.nodup_singleton h,
      fun other hmem other' hmem' => ?_⟩
    rintro rfl
    rw [List.mem_singleton.mp hmem', hp.found, hfree] at hmem
    cases hmem
  · by_cases hne : other = h
    · subst hne
      simp [hself]
    · rw [hother other hne, ← hp.found]
      simp [hne]

theorem wp_declare_opened {done : List TypeHandle} (h : TypeHandle) (hp : Opened ground done p) :
    (declare h).wp (fun _ => Opened ground (done ++ [h])) (Withheld ground) p := by
  unfold declare
  rw [wp_bind, wp_descriptor]
  refine ⟨fun d hd => ?_, fun _ => hp.withheld⟩
  rw [wp_bind, wp_get, wp_bind, inBatch, wp_within]
  have hasked : (Batch.askAbstract p.program h).wp
      (fun answer b' => answer = p.batch.isAbstract p.program d ∧ p.batch.Remembers b') (fun _ =>
        False) p.batch :=
    Batch.wp_askAbstract hd fun b' hb' _ => ⟨rfl, hb'⟩
  refine wp_mono (wp_and hasked (Batch.whole_askAbstract h _ hp.withheld.whole)) ?_ fun _ hfalse =>
    hfalse.1.elim
  rintro answer b' ⟨⟨rfl, hb'⟩, hwhole⟩
  have hp' := hp.batch hb' hwhole
  rw [wp_bind]
  refine wp_lookUpAll _ _ (fun declaring _ => ?_) hp'.withheld
  rw [wp_bind, inWorkshop, wp_within]
  refine wp_mono (Workshop.wp_defineType_appends _ _ _ _ _) ?_ fun w' hw => ?_
  · rintro t w' ⟨rfl, hw, houtput⟩
    obtain ⟨d', hd', hforget⟩ := hb'.find hd
    have hrow := (row_of_appends (hp.withheld.whole.of_find hd) hw).of_methods
      (methods_of_forget hforget)
    rw [wp_emit]
    exact ⟨fun e hadd => hp'.add hw houtput hd' hrow hadd, fun _ _ =>
      hp'.withheld.declare hw houtput⟩
  · exact ⟨hp.withheld.workshop.trans (.append hw.1 [] (by rw [hw.2, List.append_nil])
      fun _ ht => absurd ht List.not_mem_nil), hwhole⟩

/-! ### Defining -/

/-- A generation that has declared all types and has not created one. -/
def Unfinished (first p : Production) : Prop := ∃ A Q, Pending first A Q p

theorem Pending.mono {Q' : List Attachment} (hp : Pending first A Q p)
    (hsub : ∀ t m body, Attachment.body t m body ∈ Q → Attachment.body t m body ∈ Q') :
    Pending first A Q' p where
  workshop := hp.workshop
  batch := hp.batch
  types := hp.types
  attachments := hp.attachments
  rows := fun h t ht => by
    obtain ⟨d, hd, hrow⟩ := hp.rows h t ht
    exact ⟨d, hd, hrow.mono hsub⟩

theorem Pending.append (hp : Pending first A Q p) (more : List Attachment) :
    Pending first A (Q ++ more) p :=
  hp.mono fun _ _ _ hmem => List.mem_append_left _ hmem

/-- One type of the batch has changed, and the queue covers it as it is now. -/
theorem Pending.edited {Q' : List Attachment} {space : TypeSpace} {r : TypeRecord}
    (hp : Pending first A Q p) (he : p.workshop.space.Edited t r space)
    (hflags : r.flags = (p.program.record t).flags) (hcomplete : r.complete
      = (p.program.record t).complete)
    (hcovered : (p.program.record t).Covered t Q → r.Covered t Q')
    (hsub : ∀ t m body, Attachment.body t m body ∈ Q → Attachment.body t m body ∈ Q') :
    Pending first A Q' (p.withSpace space) where
  workshop := by
    refine hp.workshop.trans (.inSpace he.listings fun other => ?_)
    by_cases hother : other = t
    · rw [hother, he.self]
      exact hcomplete
    · rw [he.other other hother]
  batch := hp.batch
  types := hp.types
  attachments := hp.attachments
  rows := fun h other hfound => by
    obtain ⟨d, hd, hrow⟩ := hp.rows h other hfound
    have hlt : other.index < space.program.types.size := by
      rw [he.size]
      exact hrow.lt
    refine ⟨d, hd, ?_⟩
    by_cases hother : other = t
    · subst hother
      refine ⟨hlt, ?_, fun m hm habstract => ?_, ?_⟩
      · show (space.program.record other).complete = false
        rw [he.self, hcomplete]
        exact hrow.opened
      · show (space.program.record other).isAbstract = true
        rw [he.self, TypeRecord.isAbstract_of_flags hflags]
        exact hrow.abstract m hm habstract
      · show (space.program.record other).Covered other Q'
        rw [he.self]
        exact hcovered hrow.covered
    · have hsame : space.program.record other = p.program.record other := he.other other hother
      have haside : (p.program.record other).Aside (space.program.record other) := by
        rw [hsame]
        exact .refl _
      exact (hrow.aside he.size haside).mono hsub

section Members

variable (hp : Pending first A Q p) (hfound : first.emitted.types.find? h = some t)
include hp hfound

theorem Pending.lt : t.index < p.workshop.space.program.types.size := by
  obtain ⟨_, _, hrow⟩ := hp.rows h t hfound
  exact hrow.lt

theorem wp_defineConstructor_pending (d : Descriptor) (c : DraftMethod) :
    (defineConstructor d t c).wp (fun a => Pending first A (Q ++ [a])) (Unfinished first) p := by
  unfold defineConstructor
  rw [wp_bind, wp_lookUp]
  refine ⟨fun signature _ => ?_, fun _ _ => ⟨A, Q, hp⟩⟩
  rw [wp_bind, wp_inSpace]
  refine TypeSpace.wp_defineConstructor_edited (hp.lt hfound) (fun _ => ⟨A, Q, hp⟩)
    fun made space he => ?_
  let body := Expr.block (d.initializations.toList ++ c.body.toList)
  let m : MethodId := ⟨t, .constructor (p.program.record t).constructors.size⟩
  have hpending : Pending first A (Q ++ [.body t m body]) (p.withSpace space) :=
    hp.edited he rfl rfl (fun hcovered =>
      (hcovered.mono fun _ _ _ hmem => List.mem_append_left _ hmem).addConstructor
      (List.mem_append_right _ (List.mem_singleton_self _))) fun _ _ _ hmem =>
      List.mem_append_left _ hmem
  rw [wp_bind]
  exact wp_mono (pending_registerMethod c m _ hpending) (fun _ _ hafter => hafter) fun _ hafter =>
    ⟨A, _, hafter⟩

theorem wp_defineInitializer_pending (d : Descriptor) :
    (defineInitializer d t).wp (fun as => Pending first A (Q ++ as)) (Unfinished first) p := by
  unfold defineInitializer
  rw [wp_ite]
  refine ⟨fun _ => hp.append [], fun _ => ?_⟩
  rw [wp_bind, wp_inSpace]
  refine TypeSpace.wp_defineInitializer_edited (hp.lt hfound) (fun made space he => ?_) fun _ space
      hprogram hlistings =>
    ⟨A, Q, hp.aside ⟨hlistings, by rw [hprogram], fun _ => by rw [hprogram]; exact .refl _⟩⟩
  let m : MethodId := ⟨t, .typeInitializer⟩
  have hpending : ∀ body, Pending first A (Q ++ [.body t m body]) (p.withSpace space) := fun body =>
    hp.edited he rfl rfl (fun hcovered =>
      (hcovered.mono fun _ _ _ hmem => List.mem_append_left _ hmem).setInitializer
      (List.mem_append_right _ (List.mem_singleton_self _))) fun _ _ _ hmem =>
      List.mem_append_left _ hmem
  cases d.typeInitializer with
  | some made =>
    rw [wp_bind]
    exact wp_mono (pending_registerMethod made m _ (hpending _)) (fun _ _ hafter => hafter) fun _
      hafter => ⟨A, _, hafter⟩
  | none =>
    rw [wp_bind]
    refine wp_mono (pending_emit (fun e e' he => ?_) _ (hpending _)) (fun _ _ hafter => hafter)
      fun _ hafter => ⟨A, _, hafter⟩
    obtain ⟨methods, -, hend⟩ := bind_eq_ok.mp he
    cases hend
    rfl

/-- A method without a body is abstract, and then its type was declared abstract. -/
theorem wp_defineMethod_pending (hwhole : first.batch.Whole) (hd : first.batch.find? h = some d)
    {m : DraftMethod} (hm : m ∈ d.methods) :
    (defineMethod t m).wp (fun v => Pending first A (Q ++ v.1)) (Unfinished first) p := by
  unfold defineMethod
  rw [wp_bind, wp_lookUp]
  refine ⟨fun signature _ => ?_, fun _ _ => ⟨A, Q, hp⟩⟩
  rw [wp_bind, wp_inSpace]
  refine TypeSpace.wp_defineMethod_edited (hp.lt hfound) (fun _ => ⟨A, Q, hp⟩) fun token space he =>
    ?_
  let made : MethodId := ⟨t, .method (p.program.record t).methods.size⟩
  let bodies := m.body.toList.map fun body => Attachment.body t made body
  have hmade : ∀ r : MethodRecord, r.flags = m.flags → r.body = none →
      (p.program.record t).Passes r ∨ ∃ body, .body t made body ∈ Q ++ bodies := by
    intro r hflags hnone
    cases hbody : m.body with
    | some body => exact .inr ⟨body, List.mem_append_right _ (by simp [bodies, hbody])⟩
    | none =>
      obtain ⟨d', hd', hrow⟩ := hp.rows h t hfound
      obtain rfl : d = d' := Option.some.inj (hd.symm.trans hd')
      have habstract := (hwhole.of_find hd).bodiless m hm hbody
      have hsame : r.isAbstract = true := by
        rw [MethodRecord.isAbstract, hflags]
        exact habstract
      left
      rw [TypeRecord.Passes, if_pos hsame]
      exact hrow.abstract m hm habstract
  have hpending : Pending first A (Q ++ bodies) (p.withSpace space) :=
    hp.edited he rfl rfl (fun hcovered =>
      (hcovered.mono fun _ _ _ hmem => List.mem_append_left _ hmem).addMethod
      (hmade _ rfl rfl)) fun _ _ _ hmem => List.mem_append_left _ hmem
  rw [wp_bind]
  exact wp_mono (pending_registerMethod m made _ hpending) (fun _ _ hafter => hafter) fun _
    hafter => ⟨A, _, hafter⟩

end Members

theorem wp_collect {body : β → Attempt Production α} (queued : α → List Attachment) (items : List β)
    (hstep : ∀ item ∈ items, ∀ Q p, Pending first A Q p →
      (body item).wp (fun v => Pending first A (Q ++ queued v)) (Unfinished first) p)
    (hp : Pending first A Q p) :
    (items.mapM body).wp (fun vs => Pending first A (Q ++ vs.flatMap queued))
        (Unfinished first) p := by
  let inv (done : List (β × α)) (after : Production) : Prop :=
    Pending first A (Q ++ (done.map (·.2)).flatMap queued) after
  have hone : ∀ before item after, items = before.map (·.1) ++ item :: after →
    ∀ mid, inv before mid →
      (body item).wp (fun v => inv (before ++ [(item, v)])) (Unfinished first) mid := by
    intro before item after heq mid hmid
    have hitem : item ∈ items := by
      rw [heq]
      simp
    refine wp_mono (hstep item hitem _ mid hmid) (fun v next hnext => ?_) fun _ h => h
    simpa [inv] using hnext
  refine wp_mono (wp_mapM items hone (by simpa [inv] using hp)) (fun vs after hvs => ?_) fun _ h =>
    h
  have hafter : Pending first A (Q ++ ((items.zip vs).map (·.2)).flatMap queued) after := hvs.2
  rwa [List.map_snd_zip hvs.1.ge] at hafter

theorem wp_attachAll_pending (hp : Pending first A Q p) (items : List Attachment) :
    (forIn items PUnit.unit (fun a _ => do let _ ← attach a; pure (.yield PUnit.unit)) :
      Attempt Production PUnit).wp (fun _ => Pending first (A ++ items) Q)
      (Unfinished first) p := by
  refine wp_forIn (I := fun done => Pending first (A ++ done) Q) items
    (fun before a after _ mid hmid => ?_)
    (by simpa using hp)
  rw [attach, wp_modify]
  refine ⟨hmid.workshop, hmid.batch, hmid.types, ?_, hmid.rows⟩
  rw [Array.toList_push, hmid.attachments, List.append_assoc]

/-- Defining the members of one type queues the bodies of all its methods. -/
theorem wp_define_pending (objectType : TypeId) (h : TypeHandle) (hwhole : first.batch.Whole)
    (hp : Pending first A A p) :
    (define objectType h).wp (fun _ after => ∃ A', Pending first A' A' after)
    (Unfinished first) p := by
  have hkeep : ∀ {γ : Type} {act : Attempt Production γ} {next : γ → Attempt Production PUnit}
    {Q : List Attachment}
      {p : Production}, Maintains (Pending first A Q) act → Pending first A Q p →
      (∀ v p, Pending first A Q p → (next v).wp (fun _ after => ∃ A', Pending first A' A' after)
        (Unfinished first) p) →
      (act >>= next).wp (fun _ after => ∃ A', Pending first A' A' after) (Unfinished first) p :=
    fun hact hp hnext => wp_step (hact _ hp) hnext fun _ hafter => ⟨A, _, hafter⟩
  unfold define
  rw [wp_bind, wp_descriptor]
  refine ⟨fun d hd => ?_, fun _ => ⟨A, A, hp⟩⟩
  rw [hp.batch] at hd
  rw [wp_bind, wp_lookUp]
  refine ⟨fun t ht => ?_, fun _ _ => ⟨A, A, hp⟩⟩
  have hfound : first.emitted.types.find? h = some t := by
    rw [← hp.types]
    exact Emitted.require_ok ht
  refine hkeep (pending_defineBase objectType d t) hp fun _ p hp => ?_
  have hinterfaces :
      Maintains (Pending first A A) (forIn d.interfaces.toList PUnit.unit (fun s _ => do
      let _ ← (do let i ← namedType s; inSpace (TypeSpace.implementInterface t i))
      pure (.yield PUnit.unit)) : Attempt Production PUnit) :=
    maintains_forIn _ fun s _ => maintains_bind (pending_namedType s) fun i =>
      pending_inSpace fun _ => TypeSpace.aside_implementInterface t i
  simp only [bind_assoc] at hinterfaces
  refine hkeep hinterfaces hp fun _ p hp => ?_
  refine hkeep (maintains_forIn _ fun a _ => pending_inSpace fun _ =>
    TypeSpace.aside_setAttribute t a) hp fun _ p hp => ?_
  refine hkeep (maintains_forIn _ fun f _ => pending_defineField t f) hp fun _ p hp => ?_
  refine wp_step (wp_collect (fun a => [a]) _ (fun c _ Q p hp =>
    wp_defineConstructor_pending hp hfound d c) hp)
    (fun constructors p hp => ?_) fun _ hafter => hafter
  refine wp_step (wp_defineInitializer_pending hp hfound d) (fun initializers p hp => ?_) fun _
    hafter => hafter
  refine wp_step (wp_collect Prod.fst _ (fun m hm Q p hp =>
    wp_defineMethod_pending hp hfound hwhole hd (Array.mem_toList_iff.mp hm)) hp)
      (fun methods p hp => ?_)
    fun _ hafter => hafter
  refine hkeep (maintains_forIn _ fun v _ => pending_defineProperty t v) hp fun _ p hp => ?_
  refine hkeep (maintains_forIn _ fun v _ => pending_defineEvent t v) hp fun _ p hp => ?_
  refine wp_step (wp_attachAll_pending hp _) (fun _ after hafter => ?_) fun _ hafter => hafter
  refine ⟨_, hafter.mono fun t m body hmem => ?_⟩
  simp only [List.flatMap_singleton', List.mem_append] at hmem ⊢
  tauto

/-! ### Attaching -/

theorem wp_setBody_pending {m : MethodId} {body lowered : Expr}
    (hp : Pending first A (.body t m body :: Q) p) :
    (inSpace (TypeSpace.setBody m lowered)).wp (fun _ => Pending first A Q)
    (Unfinished first) p := by
  rw [wp_inSpace]
  simp only [TypeSpace.setBody, TypeSpace.apply, wp_bind, wp_get]
  split
  · rename_i u hu
    unfold Universe.setBody at hu
    split at hu
    · cases hu
    · rename_i hopen
      split at hu
      · cases hu
      · cases hu
        refine hp.modifyMethod m _ fun other hcovered => hcovered.attach fun own howner hown => ?_
        have hmethod : p.program.method m = own := by
          rw [Universe.method, Universe.method?, howner, hown, Option.getD_some]
        rw [← hmethod]
        exact Bool.eq_false_iff.mpr hopen
  · exact ⟨A, _, hp⟩

theorem wp_attachOne_pending (a : Attachment) (hp : Pending first A (a :: Q) p) :
    (attachOne a).wp (fun _ => Pending first A Q) (Unfinished first) p := by
  cases a with
  | body t m body =>
    refine wp_step (pending_lookUp _ _ hp) (fun lowered p hp => ?_) fun _ hafter => ⟨A, _, hafter⟩
    have hown : Maintains (Pending first A (.body t m body :: Q)) (inSpace (do
        TypeSpace.ensureOpen t
        TypeSpace.ensureOwn t m)) :=
      pending_inSpace fun _ => maintains_bind (TypeSpace.aside_ensureOpen t) fun _ =>
        TypeSpace.aside_ensureOwn t m
    have hstep : (inSpace (do TypeSpace.ensureOpen t; TypeSpace.ensureOwn t m) >>= fun _ =>
        inSpace (TypeSpace.setBody m lowered)).wp (fun _ => Pending first A Q)
          (Unfinished first) p :=
      wp_step (hown p hp) (fun _ p hp => wp_setBody_pending hp) fun _ hafter => ⟨A, _, hafter⟩
    unfold TypeSpace.defineBody
    simp only [wp_bind, wp_inSpace] at hstep ⊢
    exact hstep
  | override t body declaration =>
    refine wp_mono (pending_inSpace (fun _ => TypeSpace.aside_defineOverride t body declaration) p
      hp)
      (fun _ after hafter => ?_) fun _ hafter => ⟨A, _, hafter⟩
    exact hafter.mono fun s m e hmem => by simpa using hmem

/-! ### Creating -/

structure Creating (first : Production) (done : List TypeHandle) (p : Production) : Prop where
  batch : p.batch = first.batch
  types : p.emitted.types = first.emitted.types
  rows : ∀ h t, first.emitted.types.find? h = some t → h ∉ done → ∃ d, p.program.Row t d []

theorem wp_createType_covered {s : TypeSpace} {post : TypeId → TypeSpace → Prop}
    {fail : TypeSpace → Prop} (hopen : (s.program.record t).complete = false)
    (hcovered : (s.program.record t).Covered t []) (h : ∀ after,
      after.program = s.program.modify t (fun r => { r with complete := true }) → post t after) :
    (TypeSpace.createType t).wp post fail s := by
  have hstart : (TypeSpace.ensureOpen t).wp (fun _ after => after = s) (fun _ => False) s := by
    simp only [TypeSpace.ensureOpen, TypeSpace.currentProgram, wp_bind, wp_get, wp_pure, hopen,
      Bool.false_eq_true,
      if_false]
  refine wp_step hstart (fun _ after hafter => ?_) fun _ hfalse => hfalse.elim
  subst hafter
  simp only [TypeSpace.currentProgram, wp_bind, wp_get, wp_pure,
    TypeSpace.checkBodies_of_covered hcovered]
  exact h _ rfl

theorem wp_create_creating {done : List TypeHandle} (hfound : (first.emitted.types.find? h).isSome)
    (hnew : h ∉ done) (hdistinct : ∀ h h' t, first.emitted.types.find? h = some t →
      first.emitted.types.find? h' = some t → h = h')
    (hp : Creating first done p) :
    (create h).wp (fun _ => Creating first (done ++ [h])) (fun _ => False) p := by
  obtain ⟨t, ht⟩ := Option.isSome_iff_exists.mp hfound
  obtain ⟨d, hrow⟩ := hp.rows h t ht hnew
  have hrequire : p.emitted.type h = .ok t := by
    rw [Emitted.type, Emitted.require, hp.types, ht]
  unfold create
  rw [wp_bind, wp_lookUp, hrequire]
  refine ⟨fun t' ht' => ?_, fun f hf => by cases hf⟩
  cases ht'
  rw [wp_bind, wp_inSpace]
  refine wp_createType_covered hrow.opened hrow.covered fun space hspace => ?_
  refine ⟨hp.batch, hp.types, fun other s hs hother => ?_⟩
  rw [List.mem_append, List.mem_singleton, not_or] at hother
  obtain ⟨e, hold⟩ := hp.rows other s hs hother.1
  have hne : s ≠ t := by
    rintro rfl
    exact hother.2 (hdistinct other h s hs ht)
  have hsame : space.program.record s = p.program.record s := by
    rw [hspace, Universe.record_modify, if_neg fun h => hne h.1]
    rfl
  have hsize : space.program.types.size = p.program.types.size := by
    rw [hspace, Universe.size_modify]
    rfl
  have haside : (p.program.record s).Aside (space.program.record s) := by
    rw [hsame]
    exact .refl _
  exact ⟨e, hold.aside hsize haside⟩

/-! ### The whole generation -/

theorem wp_declareAll_opened (order : List TypeHandle) (hp : Opened ground [] p) :
    (forIn order PUnit.unit (fun h _ => do let _ ← declare h; pure (.yield PUnit.unit)) : Attempt
      Production PUnit).wp
      (fun _ => Opened ground order) (Withheld ground) p :=
  wp_forIn order (fun _ h _ _ _ hmid => wp_declare_opened h hmid) hp

theorem Opened.pending {order : List TypeHandle} (hp : Opened ground order p) : Pending p [] [] p :=
  ⟨.refl _, rfl, rfl, by rw [hp.attachments], hp.rows⟩

/-- The second pass leaves what covers the bodies that are missing. -/
theorem wp_defineAll_pending (objectType : TypeId) (order : List TypeHandle)
    (hwhole : first.batch.Whole) (hp : Pending first [] [] p) :
    (forIn order PUnit.unit (fun h _ => do let _ ← define objectType h; pure (.yield PUnit.unit)) :
      Attempt Production PUnit).wp (fun _ after => ∃ A, Pending first A A after)
      (Unfinished first) p := by
  let closed (_ : List TypeHandle) (p : Production) : Prop := ∃ A, Pending first A A p
  have hdefine : ∀ done h rest, order = done ++ h :: rest → ∀ mid, closed done mid →
      (define objectType h).wp (fun _ => closed (done ++ [h])) (Unfinished first) mid := by
    rintro done h rest - mid ⟨A, hmid⟩
    exact wp_define_pending objectType h hwhole hmid
  exact wp_forIn order hdefine ⟨[], hp⟩

/-- The third pass: what is still to be attached covers what lacks a body. -/
theorem wp_attachEach_pending (hp : Pending first A A p) :
    (forIn A PUnit.unit (fun a _ => do let _ ← attachOne a; pure (.yield PUnit.unit)) : Attempt
      Production PUnit).wp
      (fun _ => Pending first A []) (Unfinished first) p := by
  let owed (done : List Attachment) (p : Production) : Prop :=
    ∃ Q, A = done ++ Q ∧ Pending first A Q p
  have hattach : ∀ done a rest, A = done ++ a :: rest → ∀ mid, owed done mid →
      (attachOne a).wp (fun _ => owed (done ++ [a])) (Unfinished first) mid := by
    rintro done a rest heq mid ⟨Q, hQ, hmid⟩
    obtain rfl : Q = a :: rest := List.append_cancel_left (hQ.symm.trans heq)
    refine wp_mono (wp_attachOne_pending a hmid) (fun _ after hafter => ⟨rest, ?_, hafter⟩) fun _
      hafter => hafter
    rw [heq, List.append_assoc, List.singleton_append]
  refine wp_mono (wp_forIn A hattach ⟨A, rfl, hp⟩) (fun _ after hafter => ?_) fun _ hafter => hafter
  obtain ⟨Q, hQ, hafter⟩ := hafter
  obtain rfl : Q = [] := by simpa using hQ
  exact hafter

theorem wp_createAll_creating {order : List TypeHandle} (hfirst : Opened ground order first)
    (hp : Pending first A [] p) :
    (order.mapM create).wp (fun _ after => after.batch = first.batch) (fun _ => False) p := by
  let inv (done : List (TypeHandle × (TypeHandle × TypeId))) : Production → Prop :=
    Creating first (done.map (·.1))
  have hstart : Creating first [] p := by
    refine ⟨hp.batch, hp.types, fun h t ht _ => ?_⟩
    obtain ⟨d, -, hrow⟩ := hp.rows h t ht
    exact ⟨d, hrow⟩
  have hone : ∀ before h rest, order = before.map (·.1) ++ h :: rest → ∀ mid, inv before mid →
      (create h).wp (fun v => inv (before ++ [(h, v)])) (fun _ => False) mid := by
    intro before h rest heq mid hmid
    have hnew : h ∉ before.map (·.1) := by
      have hnodup := hfirst.nodup
      rw [heq] at hnodup
      exact fun hmem => List.disjoint_of_nodup_append hnodup hmem List.mem_cons_self
    have hfound := (hfirst.found h).mp (by rw [heq]; simp)
    simpa [inv] using wp_create_creating hfound hnew hfirst.distinct hmid
  exact wp_mono (wp_mapM order hone hstart) (fun _ _ hafter => hafter.2.batch) fun _ hfalse =>
    hfalse

theorem opened_start {b : Batch} (hb : b.Whole) (w : Workshop) :
    Opened { batch := b, workshop := w } [] { batch := b.closeAll, workshop := w } :=
  ⟨⟨.refl w, Batch.whole_closeAll hb⟩, fun _ _ ht => (by cases ht), fun _ _ _ ht =>
    (by cases ht), List.nodup_nil,
    fun _ => by simp [Keyed.find?], rfl⟩

theorem Opened.withheld_of_unfinished {order : List TypeHandle} {after : Production}
    (hfirst : Opened ground order first) (hafter : Unfinished first after) :
    Withheld ground after := by
  obtain ⟨A, Q, hafter⟩ := hafter
  exact ⟨hfirst.withheld.workshop.trans hafter.workshop,
    (hafter.withheld hfirst.withheld.whole).whole⟩

theorem wp_generate_withheld (objectType : TypeId) {b : Batch} (hb : b.Whole) (w : Workshop) :
    (generate objectType).wp (fun _ after => after.batch.Whole)
      (Withheld { batch := b, workshop := w }) { batch := b, workshop := w } := by
  unfold generate
  rw [wp_bind, wp_modify, wp_bind, wp_get, wp_bind, wp_lift]
  refine ⟨fun order _ => ?_, fun _ _ => (opened_start hb w).withheld⟩
  refine wp_step (wp_declareAll_opened order (opened_start hb w)) (fun _ first hfirst => ?_) fun _
    hafter => hafter
  have hfail : ∀ after, Unfinished first after → Withheld { batch := b, workshop := w } after :=
    fun _ hafter => hfirst.withheld_of_unfinished hafter
  refine wp_step (wp_defineAll_pending objectType order hfirst.withheld.whole hfirst.pending)
    (fun _ second hsecond => ?_)
    hfail
  obtain ⟨A, hsecond⟩ := hsecond
  rw [wp_bind, wp_get, hsecond.attachments]
  refine wp_step (wp_attachEach_pending hsecond) (fun _ third hthird => ?_) hfail
  refine wp_step (wp_createAll_creating hfirst hthird) (fun types last hlast => ?_) fun _ hfalse =>
    hfalse.elim
  rw [wp_bind, wp_get, wp_pure, hlast]
  exact hfirst.withheld.whole

end Production

/-- What comes of an empty batch: operations over universes that may change from one to the next,
and generations for any module, whether they succeed or fail. -/
inductive Batch.Drafted : Batch → Prop
  | empty : Drafted {}
  | edit (u : Universe) (e : Edit) {b : Batch} (h : Drafted b) : Drafted ((e.perform u).start b).2
  | proxy (u : Universe) (requested : TypeId) (name : String) {b : Batch} (h : Drafted b) :
      Drafted (b.createProxy u requested name).2
  | generate (objectType : TypeId) (w : Workshop) {b : Batch} (h : Drafted b) :
      Drafted ((Production.generate objectType).start { batch := b, workshop := w }).2.batch

theorem Batch.Drafted.whole {b : Batch} (h : b.Drafted) : b.Whole := by
  induction h with
  | empty => exact fun d hd => absurd hd (Array.not_mem_empty d)
  | edit u e h ih => exact wp_const.mp (Batch.whole_perform e _ ih)
  | proxy u requested name h ih => exact Batch.whole_createProxy ih requested name
  | generate objectType w h ih =>
    have hboth := Production.wp_generate_withheld objectType ih w
    exact wp_const.mp (wp_mono hboth (fun _ _ hwhole => hwhole) fun _ hwithheld => hwithheld.whole)

namespace Production

/-- Whatever operations made the batch and whatever it is generated into: when the generation
fails, the same types are listed under the same names, and the same types of the module are
finished. -/
theorem generate_all_or_nothing (objectType : TypeId) {b : Batch} (hb : b.Drafted)
    (w : Workshop) {f : Fault} {after : Production}
    (hfail : (generate objectType).start { batch := b, workshop := w } = (.error f, after)) :
    after.workshop.space.registry.listings = w.space.registry.listings
        ∧ after.workshop.finished = w.finished := by
  have hwithheld := (wp_iff.mp (wp_generate_withheld objectType hb.whole w)).2 f after hfail
  exact ⟨hwithheld.workshop.listings, hwithheld.workshop.finished⟩

/-- A class with a field whose type is a descriptor that the batch does not have. -/
def strayBatch : Batch :=
  let made := ((Edit.createType "App" "A" TypeFlags.isPublic none).perform {}).start {}
  ((Edit.addField ⟨0⟩ "f" (.draft ⟨7⟩) 0).perform {}).start made.2 |>.2

theorem drafted_strayBatch : strayBatch.Drafted := .edit {} _ (.edit {} _ .empty)

/-- A module of a fresh registry. -/
def freshWorkshop : Workshop := { space := TypeSpace.fresh {} }

/-- The class is declared before its generation fails, and yet it is neither listed nor finished. -/
theorem generate_stray :
    ∃ f after, (generate ⟨0⟩).start { batch := strayBatch, workshop := freshWorkshop }
    = (.error f, after)
      ∧ after.program.types.size = freshWorkshop.space.program.types.size + 1
      ∧ after.workshop.space.registry.listings = freshWorkshop.space.registry.listings
      ∧ after.workshop.finished = freshWorkshop.finished := by
  have hfails : ((generate ⟨0⟩).start { batch := strayBatch, workshop := freshWorkshop }).1.isOk
      = false := by
    decide +kernel
  have hgrows :
    ((generate ⟨0⟩).start { batch := strayBatch, workshop := freshWorkshop }).2.program.types.size
      = freshWorkshop.space.program.types.size + 1 := by
    decide +kernel
  rcases hend : (generate ⟨0⟩).start { batch := strayBatch, workshop := freshWorkshop } with ⟨f | g,
    after⟩
  · rw [hend] at hgrows
    exact ⟨f, after, rfl, hgrows, generate_all_or_nothing ⟨0⟩ drafted_strayBatch freshWorkshop hend⟩
  · rw [hend] at hfails
    cases hfails

end Production

end TypeLoom
