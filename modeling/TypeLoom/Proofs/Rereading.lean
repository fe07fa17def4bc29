import TypeLoom.Proofs.Attaching

/-!
# Modules read back

All types of a module are declared, then defined, then completed: what holds of one of them at a
stage is kept while the others are read. In the end the types that were read are written as the
elements that they were read from.
-/

namespace TypeLoom.Artifact

open Markup Attempt

variable {s s' : Scope} {first : Nat} {p p' u u₀ : Universe} {t outer : TypeId}
  {outer? : Option TypeId} {r : TypeRecord} {n : Node}
  {token : Token} {space name : String} {flags : UInt32}

/-! ### One more type -/

theorem SameMembers.proper {r' : TypeRecord} (h : SameMembers r r') (hr : r.Proper t) :
    r'.Proper t := by
  obtain ⟨nested, complete, rfl⟩ := h
  refine ⟨hr.constructors, fun m hm => ?_⟩
  obtain ⟨howner, c, hc, hproper⟩ := hr.initializer m hm
  refine ⟨howner, c, ?_, hproper⟩
  cases hslot : m.slot <;> rw [hslot] at hc <;> exact hc

theorem proper_of_empty (hconstructors : r.constructors = #[])
    (hinitializer : r.initializer = none) : r.Proper t :=
  ⟨fun _ _ hc => absurd hc (by simp [hconstructors]), fun _ hm =>
    absurd hm (by simp [hinitializer])⟩

/-- A new type at the end of the table; another type may have come to enclose it. -/
structure Added (p p' : Universe) (r : TypeRecord) : Prop where
  growth : p.Extends p'
  size : p'.types.size = p.types.size + 1
  enclosed : p'.Enclosed
  record : p'.record p.nextId = r
  others : ∀ other : TypeId, other.index < p.types.size →
    SameMembers (p.record other) (p'.record other)

theorem added_push (hp : p.Enclosed) (hr : r.declaring = none) : Added p (p.push r) r := by
  refine ⟨p.extends_push r, p.size_push r, hp.push fun outer houter => ?_, p.record_push_self r,
    fun other hother => ?_⟩
  · rw [hr] at houter
    cases houter
  · rw [p.record_push_of_lt r other hother]
    exact .refl _

theorem modify_push (change : TypeRecord → TypeRecord) :
    (p.push r).modify p.nextId change = p.push (change r) := by
  simp only [Universe.modify, Universe.push, Universe.nextId, Universe.mk.injEq]
  apply Array.ext_getElem?
  intro index
  rw [Array.getElem?_modify, Array.getElem?_push, Array.getElem?_push]
  by_cases h : index = p.types.size
  · simp [h]
  · simp [h, Ne.symm h]

theorem added_nested (hp : p.Enclosed) (houter : p.isPresent outer)
    (hr : r.declaring = some outer) :
    Added p ((p.push r).modify outer fun o => { o with nested := o.nested.push p.nextId }) r := by
  have hlt := p.lt_of_isPresent outer houter
  have hne : p.nextId ≠ outer := by
    rintro rfl
    exact Nat.lt_irrefl _ hlt
  have hpush : (p.push r).Enclosed := by
    refine hp.push fun other hother => ?_
    rw [hr] at hother
    cases hother
    exact hlt
  refine ⟨(p.extends_push r).trans
    (Universe.extends_modify (.of_outline rfl rfl rfl rfl rfl (.refl _))), ?_, hpush.modify rfl, ?_,
    fun other hother => ?_⟩
  · rw [Universe.size_modify, Universe.size_push]
  · rw [Universe.record_modify_of_ne _ hne, p.record_push_self r]
  · by_cases heq : other = outer
    · subst heq
      rw [Universe.record_modify_self ((p.extends_push r).isPresent houter),
        p.record_push_of_lt r other hother]
      exact ⟨_, _, rfl⟩
    · rw [Universe.record_modify_of_ne _ heq, p.record_push_of_lt r other hother]
      exact .refl _

/-- With a new type comes its full name. -/
theorem Scope.Ready.added (h : s.Ready first) (hadded : Added s.program s'.program r)
    (hnew : first ≤ s.program.types.size) (hr : r.Proper s.program.nextId)
    (hnamed : s'.program.Named s.program.nextId name) (hlistings : s'.registry.listings
      = s.registry.listings) (hhere : s'.here = s.here.put name s.program.nextId) :
    s'.Ready first := by
  refine ⟨hadded.enclosed, fun l hl => ?_, fun other t ht => ?_, fun t ht => ?_⟩
  · rw [hlistings] at hl
    exact (h.listed l hl).extend h.enclosed hadded.growth
  · rw [hhere] at ht
    by_cases heq : name = other
    · rw [heq, Keyed.find?_put_self] at ht
      cases ht
      rw [← heq]
      exact ⟨hnew, hnamed⟩
    · rw [Keyed.find?_put_of_ne _ _ _ _ heq] at ht
      obtain ⟨hfirst, hbefore⟩ := h.here other t ht
      exact ⟨hfirst, hbefore.extend h.enclosed hadded.growth⟩
  · have hknown : s.Known first t := by
      rw [Scope.Known, ← hlistings]
      exact ht
    by_cases hlt : t.index < s.program.types.size
    · exact (hadded.others t hlt).proper (h.proper t hknown)
    · by_cases heq : t = s.program.nextId
      · rw [heq, hadded.record]
        exact hr
      · have hne : t.index ≠ s.program.types.size :=
          fun hindex => heq (by cases t; simp_all [Universe.nextId])
        have hsize := hadded.size
        rw [s'.program.record_of_le t (by omega)]
        exact proper_of_empty rfl rfl

theorem Added.named (h : Added p p' r) (hp : p.Enclosed) (hpresent : r.present = true)
    (hr : ∀ outer, r.declaring = some outer → ∃ name, p.Named outer name) :
    p'.Named p.nextId (p'.fullName p.nextId) := by
  refine Universe.named_fullName (by rw [Universe.isPresent, h.record, hpresent])
    fun outer houter => ?_
  rw [Universe.declaring?, h.record] at houter
  obtain ⟨enclosing, hdeclaring, hsome⟩ := Option.bind_eq_some_iff.mp houter
  obtain ⟨name, hnamed⟩ := hr enclosing hdeclaring
  rw [Universe.present?, if_pos (hnamed.extend hp h.growth).present] at hsome
  cases hsome
  refine ⟨name, fun depth hdepth => ?_⟩
  have hsize := h.size
  rw [h.growth.fullNameWithin hp depth (p.lt_of_isPresent _ hnamed.present)]
  exact hnamed.settled depth (by omega)

/-- What the element says about the enclosing type. -/
def Placed (p : Universe) (n : Node) (outer : Option TypeId) : Prop :=
  match outer with
  | none => n.get? "declaring" = none
  | some t => ∃ name, n.get? "declaring" = some name ∧ p.Named t name

theorem Placed.declaring (h : Placed p n r.declaring) (hp : p.Enclosed) (hadded : Added p p' r)
    (hu : p'.Extends u) :
    (u.declaring? p.nextId).map u.fullName = n.get? "declaring" := by
  have hlt : p.nextId.index < p'.types.size := by
    rw [hadded.size]
    exact Nat.lt_succ_self _
  rw [Universe.declaring?, (hu.keeps _ hlt).declaring, hadded.record]
  cases houter : r.declaring with
  | none =>
    rw [houter] at h
    exact h.symm
  | some outer =>
    rw [houter] at h
    obtain ⟨name, hname, hnamed⟩ := h
    have hafter := hnamed.extend hp (hadded.growth.trans hu)
    rw [hname, Option.bind_some, Universe.present?, if_pos hafter.present, Option.map_some,
      hafter.fullName]

theorem holds_added (hp : p.Enclosed)
    (hadded : Added p p' { token, space, name, flags, origin := .loaded, declaring := outer? })
    (hplaced : Placed p n outer?) (hspace : n.get? "namespace" = some space)
    (hname : n.get? "name" = some name)
    (hflags : n.get? "flags" = some (flagsText flags)) : Holds p' p.nextId n none fun _ => [] := by
  refine ⟨⟨?_, ?_, ?_, ?_, fun u hu => hplaced.declaring hp hadded hu⟩, fun u _ => ?_,
    fun u _ sec => ?_, ?_⟩
  · rw [Universe.isPresent, hadded.record]
  · rw [hadded.record]
    exact hspace
  · rw [hadded.record]
    exact hname
  · rw [hadded.record]
    exact hflags
  · rw [hadded.record]
    rfl
  · rw [hadded.record]
    cases sec <;> rfl
  · rw [hadded.record]
    rfl

namespace Loading

variable {start l l' : Loading} {items : List (Node × TypeId)}

/-! ### The first pass -/

theorem wp_apply_ok {change : Universe → Except Fault Universe} {space : TypeSpace}
    {post : Unit → TypeSpace → Prop} {fail : TypeSpace → Prop} (h : change space.program = .ok u)
    (hpost : post () { space with program := u }) :
    (TypeSpace.apply change).wp post fail space := by
  rw [TypeSpace.apply, wp_bind, wp_get, h]
  exact hpost

theorem wp_enclose (h : l.scope.Ready first)
    (hprogram : l'.space.program
      = l.space.program.push { token, space, name, flags, origin := .loaded })
    (hlistings : l'.space.registry.listings = l.space.registry.listings)
    (hhere : l'.here = l.here) :
    (enclose l.space.program.nextId n).wp
      (fun _ after => ∃ outer, Added l.space.program after.space.program
        { token, space, name, flags, origin := .loaded, declaring := outer }
        ∧ Placed l.space.program n outer ∧ after.space.registry.listings = l.space.registry.listings
        ∧ after.here = l.here)
      (fun _ => True) l' := by
  unfold enclose
  split
  · rename_i hdeclaring
    refine ⟨none, ?_, hdeclaring, hlistings, hhere⟩
    rw [hprogram]
    exact added_push h.enclosed rfl
  · rename_i declaring hdeclaring
    rw [wp_bind]
    refine wp_resolve fun outer houter => ?_
    have htype : l.scope.type declaring = .ok outer := by
      rw [← houter, Scope.type, Scope.type, Registry.named, Registry.named]
      rw [show l'.scope.here = l.scope.here from hhere, show l'.scope.registry.listings
        = l.scope.registry.listings from hlistings]
    have hnamed := (h.type_ok htype).2
    have hset : l'.space.program.setDeclaring l.space.program.nextId outer =
        .ok (l.space.program.push
          { token, space, name, flags, origin := .loaded, declaring := some outer }) := by
      rw [hprogram, Universe.setDeclaring, Universe.record_push_self, if_neg (by simp), modify_push]
    rw [inSpace, wp_within, TypeSpace.nestIn, wp_bind]
    refine wp_apply_ok hset ?_
    exact ⟨some outer, added_nested h.enclosed hnamed.present rfl, ⟨declaring, hdeclaring, hnamed⟩,
      hlistings, hhere⟩

theorem wp_declare (hn : Written u₀ n) (h : l.scope.Ready first)
    (hnew : first ≤ l.space.program.types.size) :
    (declare n).wp
      (fun t after => t = l.space.program.nextId ∧ after.scope.Ready first
        ∧ (∃ r, Added l.space.program after.space.program r)
        ∧ (Holds after.space.program t n none fun _ => [])
        ∧ ∃ name, after.space.program.Named t name ∧ after.here = l.here.put name t)
      (fun _ => True) l := by
  obtain ⟨space, name, flags, declaring, base, hhead⟩ := hn.head
  have hlabels := get?_typeNode space name flags declaring base (Section.all.flatMap fun sec =>
    n.childrenNamed sec.element)
  rw [← hhead] at hlabels
  obtain ⟨hspace, hname, hflags, -, -⟩ := hlabels
  rw [declare, inSpace, wp_bind, wp_within, TypeSpace.nextToken, wp_bind, wp_get, wp_bind,
    wp_set, wp_pure]
  refine wp_lift_bind (require_of_get? hspace)
    (wp_lift_bind (require_of_get? hname) (wp_lift_bind (readFlags_of_get? hflags) ?_))
  rw [inSpace, wp_bind, wp_within, TypeSpace.addType, wp_bind, wp_get, wp_bind, wp_set, wp_pure,
    wp_bind, wp_modify]
  have henclose : ∀ (token : Token) (l' : Loading),
    l'.space.program = l.space.program.push { token, space, name, flags, origin := .loaded } →
      l'.space.registry.listings = l.space.registry.listings → l'.here = l.here →
      _ := fun token l' =>
    wp_enclose (n := n) h
  refine wp_step (henclose _ _ rfl rfl rfl) (fun _ after hafter => ?_) fun _ h => h
  obtain ⟨outer, hadded, hplaced, hlistings, hhere⟩ := hafter
  rw [wp_bind, wp_modify, wp_pure]
  have hnamed := hadded.named h.enclosed rfl fun t ht => by
    subst ht
    exact hplaced.imp fun _ h => h.2
  have hput : after.here.put (after.space.program.fullName l.space.program.nextId)
    l.space.program.nextId =
      l.here.put (after.space.program.fullName l.space.program.nextId) l.space.program.nextId := by
        rw [hhere]
  refine ⟨rfl, h.added hadded hnew (proper_of_empty rfl rfl) hnamed hlistings hput, ⟨_, hadded⟩, ?_,
    _, hnamed, hput⟩
  exact holds_added h.enclosed hadded hplaced hspace hname hflags

/-! ### Passes -/

structure Staged (first : Nat) (items : List (Node × TypeId)) (base : Node → Option String)
    (content : Node → Section → List Node) (l : Loading) : Prop where
  ready : l.scope.Ready first
  distinct : (items.map (·.2)).Nodup
  new : ∀ p ∈ items, first ≤ p.2.index
  holds : ∀ p ∈ items, Holds l.space.program p.2 p.1 (base p.1) (content p.1)

variable {nodes : List Node} {base : Node → Option String} {content : Node → Section → List Node}

theorem wp_declareAll (hnodes : ∀ n ∈ nodes, Written u₀ n) (h : l.scope.Ready first)
    (hroom : first ≤ l.space.program.types.size) :
    (nodes.mapM declare).wp
      (fun types after => nodes.length = types.length
        ∧ Staged first (nodes.zip types) (fun _ => none) (fun _ _ => []) after)
      (fun _ => True) l := by
  let inv (items : List (Node × TypeId)) (l : Loading) : Prop :=
    Staged first items (fun _ => none) (fun _ _ => []) l ∧ first ≤ l.space.program.types.size
  have hstep : ∀ (before : List (Node × TypeId)) n rest, nodes = before.map (·.1) ++ n :: rest →
    ∀ mid, inv before mid →
      (declare n).wp (fun t => inv (before ++ [(n, t)])) (fun _ => True) mid := by
    intro before n rest heq mid hmid
    obtain ⟨hstaged, hroom⟩ := hmid
    have hmem : n ∈ nodes := by
      rw [heq]
      exact List.mem_append_right _ List.mem_cons_self
    refine wp_mono (wp_declare (hnodes n hmem) hstaged.ready hroom) (fun t after hafter =>
      ?_) fun _ h => h
    obtain ⟨rfl, hready, ⟨r, hadded⟩, hholds, -⟩ := hafter
    have hlt : ∀ p ∈ before, p.2.index < mid.space.program.types.size := fun p hp =>
      mid.space.program.lt_of_isPresent _ (hstaged.holds p hp).labels.present
    refine ⟨⟨hready, ?_, ?_, ?_⟩, Nat.le_trans hroom hadded.growth.size⟩
    · rw [List.map_append, List.nodup_append]
      refine ⟨hstaged.distinct, by simp, fun t ht other hother heq => ?_⟩
      obtain ⟨p, hp, rfl⟩ := List.mem_map.mp ht
      have hbefore := hlt p hp
      rw [heq, List.mem_singleton.mp hother] at hbefore
      exact Nat.lt_irrefl _ hbefore
    · intro p hp
      rcases List.mem_append.mp hp with hp | hp
      · exact hstaged.new p hp
      · rw [List.mem_singleton.mp hp]
        exact hroom
    · intro p hp
      rcases List.mem_append.mp hp with hp | hp
      · exact (hstaged.holds p hp).carry hadded.growth (hadded.others p.2 (hlt p hp))
      · rw [List.mem_singleton.mp hp]
        exact hholds
  have hstart : inv [] l := ⟨⟨h, List.nodup_nil, nofun, nofun⟩, hroom⟩
  exact wp_mono (wp_mapM (I := inv) nodes hstep hstart) (fun _ _ hafter =>
    ⟨hafter.1, hafter.2.1⟩) fun _ h => h

/-- A pass over all types: each gets to the next stage, and no other type is touched. -/
theorem wp_pass (base' : Node → Option String) (content' : Node → Section → List Node)
    {step : Node × TypeId → Attempt Loading Unit}
    (hstep : ∀ p ∈ items, ∀ l, Stage first l p.2 p.1 (base p.1) (content p.1) l →
      (step p).wp (fun _ => Stage first l p.2 p.1 (base' p.1) (content' p.1)) (fun _ => True) l)
    (h : Staged first items base content l) :
    (items.forM step).wp
      (fun _ after => Staged first items base' content' after
        ∧ l.space.program.Extends after.space.program
        ∧ ∀ t, t ∉ items.map (·.2) → after.space.program.record t = l.space.program.record t)
      (fun _ => True) l := by
  induction items generalizing l with
  | nil => exact ⟨⟨h.ready, List.nodup_nil, nofun, nofun⟩, .refl _, fun _ _ => rfl⟩
  | cons item items ih =>
    obtain ⟨hitem, hitems⟩ := List.forall_mem_cons.mp hstep
    obtain ⟨hnew, hnews⟩ := List.forall_mem_cons.mp h.new
    obtain ⟨hholds, hrest⟩ := List.forall_mem_cons.mp h.holds
    obtain ⟨hnotin, hdistinct⟩ := List.nodup_cons.mp h.distinct
    refine wp_step (hitem l ⟨h.ready, hnew, .refl _, fun _ _ => rfl, hholds⟩) (fun _ mid hmid =>
      ?_) fun _ h => h
    have hstaged : Staged first items base content mid := by
      refine ⟨hmid.ready, hdistinct, hnews, fun p hp => (hrest p hp).carry hmid.growth ?_⟩
      have hne : p.2 ≠ item.2 := fun heq => hnotin (List.mem_map.mpr ⟨p, hp, heq⟩)
      rw [hmid.others _ hne]
      exact .refl _
    refine wp_mono (ih hitems hstaged) (fun _ after hafter => ?_) fun _ h => h
    obtain ⟨hready, hgrowth, hothers⟩ := hafter
    refine ⟨⟨hready.ready, h.distinct, h.new, List.forall_mem_cons.mpr ⟨?_, hready.holds⟩⟩,
      hmid.growth.trans hgrowth, fun t ht => ?_⟩
    · refine hmid.holds.carry hgrowth ?_
      rw [hothers _ hnotin]
      exact .refl _
    · rw [List.map_cons, List.mem_cons, not_or] at ht
      rw [hothers t ht.2, hmid.others t ht.1]

theorem wp_finishTypes (types : List TypeId) :
    (types.forM finish).wp
      (fun _ after => l.space.program.Extends after.space.program
        ∧ ∀ t, SameMembers (l.space.program.record t) (after.space.program.record t))
      (fun _ => True) l := by
  let inv (_ : List TypeId) (after : Loading) : Prop := l.space.program.Extends after.space.program
    ∧ ∀ t, SameMembers (l.space.program.record t) (after.space.program.record t)
  refine wp_forM (I := inv) types (fun _ t _ _ mid hmid => ?_) ⟨.refl _, fun _ => .refl _⟩
  rw [finish, inSpace, wp_bind, wp_within, TypeSpace.markComplete, TypeSpace.edit, wp_modify,
    inSpace, wp_within, TypeSpace.list,
    wp_modify]
  refine ⟨hmid.1.trans (Universe.extends_modify (.of_outline rfl rfl rfl rfl rfl (.refl _))),
    fun other => ?_⟩
  obtain ⟨nested, complete, hrecord⟩ := hmid.2 other
  show SameMembers _ ((mid.space.program.modify t _).record other)
  rw [Universe.record_modify]
  split
  · rename_i hother
    rw [← hother.1, hrecord]
    exact ⟨nested, true, rfl⟩
  · exact hmid.2 other

end Loading

/-! ### Elements of finished types -/

theorem Labelled.head (h : Labelled p t n) (hn : Written u₀ n) :
    n = (typeNode (p.record t).space (p.record t).name (p.record t).flags
    ((p.declaring? t).map p.fullName)
    (n.get? "base")).append (Section.all.flatMap fun sec => n.childrenNamed sec.element) := by
  obtain ⟨space, name, flags, declaring, base, hhead⟩ := hn.head
  have hlabels := get?_typeNode space name flags declaring base (Section.all.flatMap fun sec =>
    n.childrenNamed sec.element)
  rw [← hhead] at hlabels
  obtain ⟨hspace, hname, hflags, hdeclaring, hbase⟩ := hlabels
  rw [h.space] at hspace
  rw [h.name] at hname
  rw [h.flags] at hflags
  have hnode : typeNode (p.record t).space (p.record t).name (p.record t).flags declaring base
      = typeNode space name flags declaring base := by
    rw [typeNode, typeNode, Option.some.inj hspace, Option.some.inj hname, Option.some.inj hflags]
  rw [h.declaring p (.refl p), hdeclaring, hbase, hnode]
  exact hhead

theorem encodeInitializer_of_own (h : (p.record t).initializer = (p.record t).ownInitializer.map
      fun _ => ⟨t, .typeInitializer⟩) :
    encodeInitializer p (p.record t).initializer = Section.initializer.encode p (p.record t) := by
  rw [encodeInitializer, h]
  unfold Section.encode
  cases hown : (p.record t).ownInitializer with
  | none => rfl
  | some own =>
    have hmethod : p.method ⟨t, .typeInitializer⟩ = own := by
      rw [Universe.method, Universe.method?, TypeRecord.method?, hown, Option.getD_some]
    show [_].mapM _ = [own].mapM _
    simp only [List.mapM_cons, List.mapM_nil, hmethod]

theorem encodeType_of_holds (hn : Written u₀ n)
    (h : Holds p t n (n.get? "base") fun sec => n.childrenNamed sec.element) :
    encodeType p t = .ok n := by
  have hcontent := h.content p (.refl p)
  refine encodeType_eq_ok.mpr ⟨_, fun sec => n.childrenNamed sec.element,
    encodeTypeHead_eq_ok.mpr ⟨_, h.base p (.refl p), rfl⟩, ?_,
    fun sec _ => hcontent sec, h.labels.head hn⟩
  rw [encodeInitializer_of_own h.initializer]
  exact hcontent .initializer

/-! ### Modules -/

/-- Every listed type is there under the name it was listed with, and its constructors and type
initializer are named as usual. -/
structure Tidy (s : TypeSpace) : Prop where
  enclosed : s.program.Enclosed
  named : ∀ l ∈ s.registry.listings, s.program.Named l.type l.name
  proper : ∀ l ∈ s.registry.listings, (s.program.record l.type).Proper l.type

theorem Tidy.ready {space : TypeSpace} (h : Tidy space) :
    (Loading.scope { space }).Ready space.program.types.size := by
  refine ⟨h.enclosed, h.named, nofun, fun t ht => ?_⟩
  rcases ht with hnew | ⟨l, hl, rfl⟩
  · show (space.program.record t).Proper t
    rw [space.program.record_of_le t hnew]
    exact proper_of_empty rfl rfl
  · exact h.proper l hl

variable {nodes : List Node}

theorem mapM_of_zip {α β : Type} {f : β → Except Fault α} {as : List α} {bs : List β}
    (hlength : as.length = bs.length) (h : ∀ p ∈ as.zip bs, f p.2 = .ok p.1) :
    bs.mapM f = .ok as := by
  induction as generalizing bs with
  | nil =>
    obtain rfl := List.length_eq_zero_iff.mp hlength.symm
    rfl
  | cons a as ih =>
    cases bs with
    | nil => cases hlength
    | cons b bs =>
      obtain ⟨hfirst, hrest⟩ := List.forall_mem_cons.mp h
      exact mapM_cons_eq_ok.mpr ⟨a, as, hfirst, ih (Nat.succ.inj hlength) hrest, rfl⟩

theorem wp_load {space : TypeSpace} (hspace : Tidy space) (hnodes : ∀ n ∈ nodes, Written u₀ n)
    (hexact : ∀ n ∈ nodes, exactTree n = true) :
    (Loading.load nodes).wp (fun types after => types.mapM (encodeType after.space.program)
      = .ok nodes) (fun _ => True) { space } := by
  rw [Loading.load, wp_onFault, Loading.passes]
  refine wp_step (Loading.wp_declareAll hnodes hspace.ready (Nat.le_refl _)) (fun types l hl =>
    ?_) fun _ h => h
  obtain ⟨hlength, hdeclared⟩ := hl
  have hmem : ∀ p ∈ nodes.zip types, p.1 ∈ nodes := fun p hp => (List.of_mem_zip hp).1
  have hdefine := Loading.wp_pass (fun n => n.get? "base") (fun n sec =>
    sec.defined (n.childrenNamed sec.element))
    (fun p hp l h => Loading.stage_define (hnodes _ (hmem p hp)) (hexact _ (hmem p hp)) h) hdeclared
  refine wp_step hdefine (fun _ l hdefined => ?_) fun _ h => h
  have hattach := Loading.wp_pass (fun n => n.get? "base") (fun n sec =>
    n.childrenNamed sec.element)
    (fun p hp l h => Loading.stage_attach (hnodes _ (hmem p hp)) (hexact _ (hmem p hp)) h)
    hdefined.1
  refine wp_step hattach (fun _ l hattached => ?_) fun _ h => h
  refine wp_step (Loading.wp_finishTypes types) (fun _ after hafter => ?_) fun _ h => h
  refine mapM_of_zip hlength fun p hp => ?_
  exact encodeType_of_holds (hnodes _ (hmem p hp))
    ((hattached.1.holds p hp).carry hafter.1 (hafter.2 p.2))

theorem childrenNamed_module (h : Header) (hnodes : ∀ n ∈ nodes, Written u₀ n) :
    (h.node.append nodes).childrenNamed "type" = nodes := by
  show nodes.filter _ = nodes
  refine List.filter_eq_self.mpr fun n hn => ?_
  obtain ⟨space, name, flags, declaring, base, hhead⟩ := (hnodes n hn).head
  rw [hhead]
  cases declaring <;> cases base <;> rfl

/-- Types that are read from a module that was written are written as the same elements. -/
theorem encodeType_of_load {types loaded : List TypeId} {h : Header} {space : TypeSpace}
    {after : Loading} (hnames : ∀ t ∈ types, u.UsualNames t) (hspace : Tidy space)
    (hnodes : types.mapM (encodeType u) = .ok nodes) (hexact : ∀ n ∈ nodes, exactTree n = true)
    (hload : (Loading.load ((h.node.append nodes).childrenNamed "type")).start { space }
      = (.ok loaded, after)) :
    loaded.mapM (encodeType after.space.program) = .ok nodes := by
  have hwritten : ∀ n ∈ nodes, Written u n := by
    intro n hn
    obtain ⟨t, ht, hencode⟩ := exists_of_mem_mapM hnodes hn
    exact written_of_encodeType (hnames t ht) hencode
  rw [childrenNamed_module h hwritten] at hload
  have hafter := wp_load hspace hwritten hexact
  unfold wp at hafter
  rw [hload] at hafter
  exact hafter

/-! ### References to type initializers -/

def idle (name : String) (kind : MethodKind) (parameters : List Parameter) : MethodRecord :=
  { token := ⟨0x06000001⟩, name, kind, flags := MethodFlags.static, signature := { parameters },
    body := some .empty }

/-- `App.X` has a type initializer, and a method of the same name that takes a number. `App.K`
calls one of them. -/
def calling (slot : Slot) (arguments : List Expr) : Universe :=
  let label (row : UInt32) (name : String) : TypeRecord :=
    { token := .ofParts .type row, space := "App", name, flags := 1, origin := .native,
      complete := true }
  let call : MethodRecord :=
    { idle "Go" .method [] with
      body := some (.call none (.member ⟨⟨0⟩, slot⟩) arguments .nonVirtual) }
  let x : TypeRecord :=
    { label 1 "X" with
      ownInitializer := some (idle ".cctor" .typeInitializer [])
      initializer := some ⟨⟨0⟩, .typeInitializer⟩
      methods := #[idle ".cctor" .method [⟨"x", .i4⟩]] }
  ⟨#[x, { label 2 "K" with methods := #[call] }]⟩

/-- Both types are listed. -/
def callingSpace (slot : Slot) (arguments : List Expr) : TypeSpace :=
  { program := calling slot arguments
    registry := { listings := #[⟨.ofParts .type 1, "App.X", ⟨0⟩⟩, ⟨.ofParts .type 2, "App.K", ⟨1⟩⟩], counters := {} } }

def callingHeader : Header := ⟨"00000000-0000-4000-8000-000000000000", "M", "default"⟩

/-- The element of `App.K`, and what the type that is read from it is written as. -/
def callingRun (slot : Slot) (arguments : List Expr) : Except Fault (List Node × List Node) := do
  let nodes ← [⟨1⟩].mapM (encodeType (calling slot arguments))
  let run := (Loading.load ((callingHeader.node.append nodes).childrenNamed "type")).start
    { space := callingSpace slot arguments }
  let again ← (← run.1).mapM (encodeType run.2.space.program)
  return (nodes, again)

/-- The call of the type initializer is written exactly; the call of the method is written
differently once it was read. -/
theorem callingRun_ok : (callingRun .typeInitializer []).toOption.map (fun r => exactTrees r.1)
    = some true
    ∧ (callingRun (.method 0) [.constant (.i4 1)]).toOption.map (fun r => Node.eventsAll r.1
      == Node.eventsAll r.2) = some false := by
  decide +kernel

theorem steps_of_callingRun {slot : Slot} {arguments : List Expr} {r : List Node × List Node}
    (h : callingRun slot arguments = .ok r) :
    ∃ loaded after, [⟨1⟩].mapM (encodeType (calling slot arguments)) = .ok r.1
      ∧ (Loading.load ((callingHeader.node.append r.1).childrenNamed "type")).start
      { space := callingSpace slot arguments } =
        (.ok loaded, after)
      ∧ loaded.mapM (encodeType after.space.program) = .ok r.2 := by
  obtain ⟨nodes, hnodes, h⟩ := bind_eq_ok.mp h
  obtain ⟨loaded, hloaded, h⟩ := bind_eq_ok.mp h
  obtain ⟨again, hagain, h⟩ := bind_eq_ok.mp h
  obtain rfl := Except.ok.inj h
  exact ⟨loaded, _, hnodes, Prod.ext hloaded rfl, hagain⟩

theorem exists_of_toOption_map {α β : Type} {x : Except Fault α} {f : α → β} {v : β}
    (h : x.toOption.map f = some v) :
    ∃ a, x = .ok a ∧ f a = v := by
  obtain ⟨a, ha, hv⟩ := Option.map_eq_some_iff.mp h
  cases x with
  | error f => cases ha
  | ok a' =>
    cases ha
    exact ⟨_, rfl, hv⟩

theorem tidy_callingSpace : Tidy (callingSpace .typeInitializer []) := by
  have htypes : ∀ l ∈ (callingSpace .typeInitializer []).registry.listings,
    l = ⟨.ofParts .type 1, "App.X", ⟨0⟩⟩
      ∨ l = ⟨.ofParts .type 2, "App.K", ⟨1⟩⟩ := by simp [callingSpace]
  have hdeclaring : ∀ t, ((callingSpace .typeInitializer []).program.record t).declaring
      = none := by
    rintro ⟨_ | _ | index⟩ <;> rfl
  have hnamed : ∀ t, (callingSpace .typeInitializer []).program.isPresent t →
      (callingSpace .typeInitializer []).program.Named t
      ((callingSpace .typeInitializer []).program.fullName t) := by
    intro t ht
    refine Universe.named_fullName ht fun outer houter => ?_
    rw [Universe.declaring?, hdeclaring] at houter
    cases houter
  refine ⟨fun t outer houter => ?_, fun l hl => ?_, fun l hl => ?_⟩
  · rw [hdeclaring] at houter
    cases houter
  · rcases htypes l hl with rfl | rfl
    · exact hnamed ⟨0⟩ rfl
    · exact hnamed ⟨1⟩ rfl
  · rcases htypes l hl with rfl | rfl
    · refine ⟨fun _ _ hc => by simp [callingSpace, calling, Universe.record] at hc, fun m hm => ?_⟩
      cases hm
      exact ⟨rfl, _, rfl, rfl, rfl⟩
    · exact proper_of_empty rfl rfl

/-- `App.K` calls the type initializer of `App.X`, before and after. -/
theorem encodeType_of_load_initializer : ∃ nodes loaded after,
    [⟨1⟩].mapM (encodeType (calling .typeInitializer [])) = .ok nodes
      ∧ (Loading.load ((callingHeader.node.append nodes).childrenNamed "type")).start
      { space := callingSpace .typeInitializer [] } =
        (.ok loaded, after)
      ∧ loaded.mapM (encodeType after.space.program) = .ok nodes := by
  obtain ⟨r, hrun, hexact⟩ := exists_of_toOption_map callingRun_ok.1
  obtain ⟨loaded, after, hnodes, hload, -⟩ := steps_of_callingRun hrun
  have hnames : ∀ t ∈ [TypeId.mk 1], (calling .typeInitializer []).UsualNames t := by
    intro t ht
    rw [List.mem_singleton.mp ht]
    exact ⟨nofun, nofun⟩
  exact ⟨r.1, loaded, after, hnodes, hload, encodeType_of_load hnames tidy_callingSpace hnodes
    (exactTrees_iff.mp hexact) hload⟩

/-- Whatever types are written and read, if none of them has a regular method that is named like
a constructor or a type initializer, the types that were read are written as before. -/
def WrittenStays : Prop :=
  ∀ (u : Universe) (types : List TypeId) (nodes : List Node) (h : Header) (space : TypeSpace)
    (loaded : List TypeId) (after : Loading),
    (∀ t ∈ types, (u.record t).complete = true) →
    (∀ t ∈ types, ∀ m ∈ (u.record t).methods.toList, m.name ≠ ".ctor" ∧ m.name ≠ ".cctor") →
    types.mapM (encodeType u) = .ok nodes →
    (Loading.load ((h.node.append nodes).childrenNamed "type")).start { space }
      = (.ok loaded, after) →
      loaded.mapM (encodeType after.space.program) = .ok nodes

/-- `App.K` calls the method of `App.X` that is called `.cctor`; when it has been read it calls
the type initializer. -/
theorem not_writtenStays : ¬ WrittenStays := by
  intro hstays
  obtain ⟨r, hrun, hdiffer⟩ := exists_of_toOption_map callingRun_ok.2
  obtain ⟨loaded, after, hnodes, hload, hagain⟩ := steps_of_callingRun hrun
  have hsame := hstays _ _ _ _ _ _ _ (List.forall_mem_singleton.mpr rfl)
    (List.forall_mem_singleton.mpr (by decide)) hnodes hload
  rw [hagain] at hsame
  rw [Except.ok.inj hsame, beq_self_eq_true] at hdiffer
  cases hdiffer

end TypeLoom.Artifact
