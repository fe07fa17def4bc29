import TypeLoom.Artifact.Decode
import TypeLoom.Proofs.Attempts
import TypeLoom.Proofs.Outline

/-!
# What reading a document lists

The types of a document are listed together when all of it was read. A document that cannot be read
lists nothing.
-/

namespace TypeLoom

open Attempt

variable {α : Type}

/-! ### Names -/

namespace Universe

/-- What a type is listed under depends on its token and names, and on those of the types around
it. -/
structure SameLabels (u u' : Universe) : Prop where
  size : u'.types.size = u.types.size
  token : ∀ t, (u'.record t).token = (u.record t).token
  space : ∀ t, (u'.record t).space = (u.record t).space
  name : ∀ t, (u'.record t).name = (u.record t).name
  declaring : ∀ t, (u'.record t).declaring = (u.record t).declaring
  present : ∀ t, (u'.record t).present = (u.record t).present

variable {u u' : Universe}

theorem SameLabels.fullName (h : SameLabels u u') (t : TypeId) : u'.fullName t = u.fullName t := by
  have hpresent : u'.present? = u.present? := by
    funext outer
    rw [present?, present?, isPresent, isPresent, h.present]
  have hwithin : ∀ depth t, u'.fullNameWithin depth t = u.fullNameWithin depth t := by
    intro depth
    induction depth with
    | zero => exact h.name
    | succ depth ih =>
      intro t
      have hdeclaring : u'.declaring? t = u.declaring? t := by
        rw [declaring?, declaring?, h.declaring, hpresent]
      simp only [fullNameWithin, hdeclaring, h.name, h.space, ih]
  rw [Universe.fullName, h.size, hwithin, Universe.fullName]

theorem sameLabels_modify (u : Universe) (t : TypeId) {change : TypeRecord → TypeRecord}
    (h : ∀ r, (change r).token = r.token ∧ (change r).space = r.space ∧ (change r).name = r.name
      ∧ (change r).declaring = r.declaring ∧ (change r).present = r.present) :
      SameLabels u (u.modify t change) := by
  have hrecord : ∀ other, (u.modify t change).record other = change (u.record other)
      ∨ (u.modify t change).record other = u.record other := by
    intro other
    simp only [modify, record, Array.getD_eq_getD_getElem?, Array.getElem?_modify]
    by_cases hindex : t.index = other.index
    · cases u.types[other.index]? <;> simp [hindex]
    · simp [hindex]
  refine ⟨u.size_modify t change, ?_, ?_, ?_, ?_, ?_⟩
  all_goals
    intro other
    rcases hrecord other with heq | heq
    · rw [heq]
      simp only [h]
    · rw [heq]

end Universe

/-! ### Listing -/

namespace Registry

def insertAll (r : Registry) (u : Universe) (types : List TypeId) : Registry :=
  types.foldl (fun r t => r.insert u t) r

variable {r r' : Registry} {u u' : Universe}

theorem insertAll_append (types : List TypeId) (t : TypeId) :
    r.insertAll u (types ++ [t]) = (r.insertAll u types).insert u t := by
  rw [insertAll, insertAll, List.foldl_append]
  rfl

theorem listings_insert (hlistings : r'.listings = r.listings) (hu : u.SameLabels u') (t : TypeId) :
    (r'.insert u' t).listings = (r.insert u t).listings := by
  have hfind : r'.find? (u.record t).token = r.find? (u.record t).token := by
    rw [find?, hlistings, find?]
  rw [insert, insert, hu.token, hu.fullName, hfind]
  by_cases hfound : (r.find? (u.record t).token).isSome
  · rw [if_pos hfound, if_pos hfound]
    exact hlistings
  · rw [if_neg hfound, if_neg hfound]
    show r'.listings.push _ = r.listings.push _
    rw [hlistings]

theorem listings_insertAll (hlistings : r'.listings = r.listings) (hu : u.SameLabels u')
    (types : List TypeId) :
    (r'.insertAll u' types).listings = (r.insertAll u types).listings := by
  induction types generalizing r r' with
  | nil => exact hlistings
  | cons t types ih => exact ih (listings_insert hlistings hu t)

end Registry

/-! ### Types on their way -/

namespace Universe

/-- Types keep their origin, and the same types are finished; more types may be on their way. -/
structure Prepares (u u' : Universe) : Prop where
  size : u.types.size ≤ u'.types.size
  complete : ∀ t, (u'.record t).complete = (u.record t).complete
  origin : ∀ t : TypeId, t.index < u.types.size → (u'.record t).origin = (u.record t).origin

variable {u mid u' : Universe}

theorem Prepares.refl (u : Universe) : Prepares u u := ⟨Nat.le_refl _, fun _ => rfl, fun _ _ => rfl⟩

theorem Prepares.trans (h : Prepares u mid) (h' : Prepares mid u') : Prepares u u' where
  size := Nat.le_trans h.size h'.size
  complete := fun t => (h'.complete t).trans (h.complete t)
  origin := fun t ht => (h'.origin t (Nat.lt_of_lt_of_le ht h.size)).trans (h.origin t ht)

theorem prepares_modify (u : Universe) (t : TypeId) {change : TypeRecord → TypeRecord}
    (h : ∀ r, (change r).complete = r.complete ∧ (change r).origin = r.origin) :
    u.Prepares (u.modify t change) := by
  have hrecord : ∀ other, ((u.modify t change).record other).complete = (u.record other).complete
      ∧ ((u.modify t change).record other).origin = (u.record other).origin := by
    intro other
    rw [record_modify]
    split
    · rename_i heq
      rw [heq.1]
      exact h _
    · exact ⟨rfl, rfl⟩
  exact ⟨Nat.le_of_eq (u.size_modify t change).symm, fun other => (hrecord other).1, fun other _ =>
    (hrecord other).2⟩

theorem prepares_push (u : Universe) {r : TypeRecord} (hr : r.complete = false) :
    u.Prepares (u.push r) where
  size := by
    rw [size_push]
    exact Nat.le_succ _
  complete := u.complete_push hr
  origin := fun t ht => by rw [u.record_push_of_lt r t ht]

theorem prepares_drop (types : List TypeId) (u : Universe) : u.Prepares (types.foldl drop u) := by
  induction types generalizing u with
  | nil => exact .refl u
  | cons t types ih =>
    have hone : u.Prepares (u.drop t) := u.prepares_modify t fun _ => ⟨rfl, rfl⟩
    exact hone.trans (ih _)

theorem prepares_modifyMethod (u : Universe) (m : MethodId) (change : MethodRecord → MethodRecord) :
    u.Prepares (u.modifyMethod m change) :=
  u.prepares_modify m.owner fun r => by cases m.slot <;> exact ⟨rfl, rfl⟩

theorem prepares_setBase {t base : TypeId} (h : u.setBase t base = .ok u') : u.Prepares u' := by
  unfold setBase at h
  split at h
  · cases h
  · cases h
    exact u.prepares_modify t fun _ => ⟨rfl, rfl⟩

theorem prepares_setDeclaring {t outer : TypeId} (h : u.setDeclaring t outer = .ok u') :
    u.Prepares u' := by
  unfold setDeclaring at h
  split at h
  · cases h
  · cases h
    exact u.prepares_modify t fun _ => ⟨rfl, rfl⟩

theorem prepares_setInitializer {t : TypeId} {m : MethodId} (h : u.setInitializer t m = .ok u') :
    u.Prepares u' := by
  unfold setInitializer at h
  split at h
  · cases h
  · cases h
    exact u.prepares_modify t fun _ => ⟨rfl, rfl⟩

theorem prepares_setBody {m : MethodId} {body : Expr} (h : u.setBody m body = .ok u') :
    u.Prepares u' := by
  unfold setBody at h
  split at h
  · cases h
  · split at h
    · cases h
    · cases h
      exact u.prepares_modifyMethod m _

end Universe

namespace TypeSpace

/-- Nothing was listed or finished; more types may be on their way. -/
structure Prepares (start s : TypeSpace) : Prop where
  listings : s.registry.listings = start.registry.listings
  program : start.program.Prepares s.program

variable {start mid s : TypeSpace}

theorem Prepares.refl (s : TypeSpace) : Prepares s s := ⟨rfl, .refl _⟩

theorem Prepares.trans (h : Prepares start mid) (h' : Prepares mid s) : Prepares start s :=
  ⟨h'.listings.trans h.listings, h.program.trans h'.program⟩

theorem prepares_nextToken (kind : TokenKind) : Maintains (Prepares start) (nextToken kind) :=
  fun _ hs => hs.trans ⟨rfl, .refl _⟩

theorem prepares_edit (t : TypeId) {change : TypeRecord → TypeRecord}
    (h : ∀ r, (change r).complete = r.complete ∧ (change r).origin = r.origin) :
    Maintains (Prepares start) (edit t change) :=
  maintains_modify fun s hs => hs.trans ⟨rfl, s.program.prepares_modify t h⟩

theorem prepares_apply {change : Universe → Except Fault Universe}
    (h : ∀ u u', change u = .ok u' → u.Prepares u') :
    Maintains (Prepares start) (apply change) := by
  refine maintains_get_bind fun s hs => ?_
  split
  · rename_i u hu
    rw [wp_modify]
    exact hs.trans ⟨rfl, h _ _ hu⟩
  · exact hs

theorem prepares_nestIn (t outer : TypeId) : Maintains (Prepares start) (nestIn t outer) :=
  maintains_bind (prepares_apply fun _ _ => Universe.prepares_setDeclaring) fun _ =>
    prepares_edit outer fun _ => ⟨rfl, rfl⟩

end TypeSpace

namespace Artifact.Loading

open Markup

variable {start : TypeSpace} {types : List TypeId}

/-- Nothing was listed or finished, and these are types that were read. -/
structure Prepares (start : TypeSpace) (types : List TypeId) (l : Loading) : Prop where
  space : start.Prepares l.space
  read : ∀ t ∈ types, t.index < l.space.program.types.size
    ∧ (l.space.program.record t).origin = .loaded

theorem Prepares.trans {l l' : Loading} (h : Prepares start types l)
    (hspace : l.space.Prepares l'.space) :
    Prepares start types l' where
  space := h.space.trans hspace
  read := fun t ht => by
    obtain ⟨hlt, horigin⟩ := h.read t ht
    exact ⟨Nat.lt_of_lt_of_le hlt hspace.program.size, (hspace.program.origin t hlt).trans horigin⟩

theorem prepares_inSpace {act : Attempt TypeSpace α}
    (h : ∀ s₀, Maintains (TypeSpace.Prepares s₀) act) :
    Maintains (Prepares start types) (inSpace act) := by
  intro l hl
  rw [inSpace, wp_within]
  exact wp_mono (h l.space l.space (.refl _)) (fun _ space hspace => hl.trans hspace) fun space
    hspace => hl.trans hspace

theorem prepares_edit (t : TypeId) {change : TypeRecord → TypeRecord}
    (h : ∀ r, (change r).complete = r.complete ∧ (change r).origin = r.origin) :
    Maintains (Prepares start types) (edit t change) :=
  prepares_inSpace fun _ => TypeSpace.prepares_edit t h

theorem prepares_change {f : Universe → Universe} (h : ∀ u : Universe, u.Prepares (f u)) :
    Maintains (Prepares start types) (change f) :=
  prepares_inSpace fun _ => maintains_modify fun _ hs => hs.trans ⟨rfl, h _⟩

theorem prepares_resolve (find : Scope → Except Fault α) : Maintains (Prepares start types)
    (resolve find) :=
  maintains_bind maintains_get fun _ => maintains_lift _

theorem wp_declare_prepares (n : Node) {l : Loading} (hl : Prepares start types l) :
    (declare n).wp (fun t => Prepares start (types ++ [t])) (Prepares start types) l := by
  have hforget : ∀ {t l}, Prepares start (types ++ [t]) l → Prepares start types l := fun h =>
    ⟨h.space, fun t ht => h.read t (List.mem_append_left _ ht)⟩
  have henclose : ∀ t, Maintains (Prepares start (types ++ [t])) (enclose t n) := by
    intro t
    unfold enclose
    split
    · exact maintains_pure _
    · exact maintains_bind (prepares_resolve _) fun outer => prepares_inSpace fun _ =>
        TypeSpace.prepares_nestIn t outer
  unfold declare
  refine wp_step (prepares_inSpace (fun _ => TypeSpace.prepares_nextToken _) l hl)
    (fun token l hl => ?_) fun _ h => h
  refine wp_step (maintains_lift _ l hl) (fun space l hl => ?_) fun _ h => h
  refine wp_step (maintains_lift _ l hl) (fun name l hl => ?_) fun _ h => h
  refine wp_step (maintains_lift _ l hl) (fun flags l hl => ?_) fun _ h => h
  have hadd : ∀ r : TypeRecord, r.complete = false → r.origin = .loaded →
      (inSpace (TypeSpace.addType r)).wp (fun t => Prepares start (types ++ [t]))
      (Prepares start types) l := by
    intro r hcomplete horigin
    have hpush := l.space.program.prepares_push hcomplete
    have hold : Prepares start types
      { l with space := { l.space with program := l.space.program.push r } } :=
      hl.trans ⟨rfl, hpush⟩
    refine ⟨hold.space, fun t ht => ?_⟩
    rcases List.mem_append.mp ht with ht | ht
    · exact hold.read t ht
    · obtain rfl := List.mem_singleton.mp ht
      refine ⟨?_, ?_⟩
      · show l.space.program.types.size < (l.space.program.push r).types.size
        rw [Universe.size_push]
        exact Nat.lt_succ_self _
      · show ((l.space.program.push r).record l.space.program.nextId).origin = .loaded
        rw [Universe.record_push_self, horigin]
  refine wp_step (hadd _ rfl rfl) (fun t l hl => ?_) fun _ h => h
  rw [wp_bind, wp_modify]
  refine wp_step (henclose t _ ⟨hl.space, hl.read⟩) (fun _ l hl => ?_) fun _ h => hforget h
  rw [wp_bind, wp_modify, wp_pure]
  exact ⟨hl.space, hl.read⟩

theorem prepares_classNamed (text : String) (fault : Fault) : Maintains (Prepares start types)
    (classNamed text fault) := by
  refine maintains_bind (prepares_resolve _) fun signature => ?_
  split
  · exact maintains_pure _
  · exact maintains_throw _

theorem prepares_methodRecord (kind : MethodKind) (n : Node) : Maintains (Prepares start types)
    (methodRecord kind n) := by
  refine maintains_bind (prepares_inSpace (fun _ => TypeSpace.prepares_nextToken _)) fun _ => ?_
  refine maintains_bind (maintains_lift _) fun _ => ?_
  refine maintains_bind (maintains_lift _) fun _ => ?_
  refine maintains_bind (prepares_resolve _) fun _ => ?_
  exact maintains_pure _

theorem prepares_defineBase (t : TypeId) (n : Node) : Maintains (Prepares start types)
    (defineBase t n) := by
  unfold defineBase
  split
  · exact maintains_pure _
  · exact maintains_bind (prepares_classNamed _ _) fun _ =>
      prepares_inSpace (fun _ => TypeSpace.prepares_apply fun _ _ => Universe.prepares_setBase)

theorem prepares_defineInterface (t : TypeId) (n : Node) : Maintains (Prepares start types)
    (defineInterface t n) := by
  refine maintains_bind (maintains_lift _) fun _ => ?_
  refine maintains_bind (prepares_classNamed _ _) fun _ => ?_
  exact prepares_edit t fun _ => ⟨rfl, rfl⟩

theorem prepares_defineField (t : TypeId) (n : Node) : Maintains (Prepares start types)
    (defineField t n) := by
  refine maintains_bind (prepares_inSpace (fun _ => TypeSpace.prepares_nextToken _)) fun _ => ?_
  refine maintains_bind (maintains_lift _) fun _ => ?_
  refine maintains_bind (maintains_lift _) fun _ => ?_
  refine maintains_bind (prepares_resolve _) fun _ => ?_
  refine maintains_bind (maintains_lift _) fun _ => ?_
  exact prepares_edit t fun _ => ⟨rfl, rfl⟩

theorem prepares_defineInitializer (t : TypeId) (n : Node) : Maintains (Prepares start types)
    (defineInitializer t n) := by
  unfold defineInitializer
  split
  · exact maintains_pure _
  · exact maintains_bind (prepares_methodRecord _ _) fun _ =>
        maintains_bind (prepares_inSpace (fun _ => TypeSpace.prepares_apply fun _ _ =>
        Universe.prepares_setInitializer)) fun _ =>
      prepares_edit t fun _ => ⟨rfl, rfl⟩

theorem prepares_defineProperty (t : TypeId) (n : Node) : Maintains (Prepares start types)
    (defineProperty t n) := by
  refine maintains_bind (maintains_option _ fun _ => prepares_resolve _) fun _ => ?_
  refine maintains_bind (maintains_option _ fun _ => prepares_resolve _) fun _ => ?_
  refine maintains_bind (prepares_inSpace (fun _ => TypeSpace.prepares_nextToken _)) fun _ => ?_
  refine maintains_bind (maintains_lift _) fun _ => ?_
  refine maintains_bind (maintains_lift _) fun _ => ?_
  refine maintains_bind (prepares_resolve _) fun _ => ?_
  exact prepares_edit t fun _ => ⟨rfl, rfl⟩

theorem prepares_defineEvent (t : TypeId) (n : Node) : Maintains (Prepares start types)
    (defineEvent t n) := by
  refine maintains_bind (maintains_option _ fun _ => prepares_resolve _) fun _ => ?_
  refine maintains_bind (prepares_inSpace (fun _ => TypeSpace.prepares_nextToken _)) fun _ => ?_
  refine maintains_bind (maintains_lift _) fun _ => ?_
  refine maintains_bind (maintains_lift _) fun _ => ?_
  refine maintains_bind (prepares_resolve _) fun _ => ?_
  refine maintains_bind (prepares_resolve _) fun _ => ?_
  refine maintains_bind (prepares_resolve _) fun _ => ?_
  exact prepares_edit t fun _ => ⟨rfl, rfl⟩

theorem prepares_define (n : Node) (t : TypeId) : Maintains (Prepares start types)
    (define n t) := by
  refine maintains_bind (prepares_defineBase t n) fun _ =>
    maintains_bind (maintains_forM _ fun i _ => prepares_defineInterface t i) fun _ => ?_
  refine maintains_bind (maintains_forM _ fun f _ => prepares_defineField t f) fun _ =>
    maintains_bind (maintains_forM _ fun c _ => ?_) fun _ => ?_
  · exact maintains_bind (prepares_methodRecord _ c) fun _ => prepares_edit t fun _ => ⟨rfl, rfl⟩
  refine maintains_bind (prepares_defineInitializer t n) fun _ =>
    maintains_bind (maintains_forM _ fun m _ => ?_) fun _ => ?_
  · exact maintains_bind (prepares_methodRecord _ m) fun _ => prepares_edit t fun _ => ⟨rfl, rfl⟩
  exact maintains_bind (maintains_forM _ fun p _ => prepares_defineProperty t p) fun _ =>
    maintains_forM _ fun e _ => prepares_defineEvent t e

theorem prepares_attachMethod (m : MethodId) (n : Node) : Maintains (Prepares start types)
    (attachMethod m n) := by
  have hbody : Maintains (Prepares start types) (attachBody m n) := by
    unfold attachBody
    split
    · exact maintains_pure _
    · exact maintains_bind (prepares_resolve _) fun _ =>
        prepares_inSpace (fun _ => TypeSpace.prepares_apply fun _ _ => Universe.prepares_setBody)
  exact maintains_bind (maintains_forM _ fun a _ => maintains_bind (prepares_resolve _) fun _ =>
    prepares_change fun u => u.prepares_modifyMethod m _) fun _ => hbody

theorem prepares_attach (n : Node) (t : TypeId) : Maintains (Prepares start types)
    (attach n t) := by
  refine maintains_bind (maintains_forM _ fun a _ => maintains_bind (prepares_resolve _) fun _ =>
    prepares_edit t fun _ => ⟨rfl, rfl⟩) fun _ => ?_
  refine maintains_bind maintains_get fun l => maintains_bind (maintains_forM _ fun p _ =>
    maintains_forM _ fun a _ => ?_) fun _ => ?_
  · exact maintains_bind (prepares_resolve _) fun _ => prepares_change fun u =>
      u.prepares_modify _ fun _ => ⟨rfl, rfl⟩
  refine maintains_bind (maintains_forM _ fun p _ => prepares_attachMethod p.2 p.1) fun _ => ?_
  refine maintains_bind (maintains_forM _ fun p _ => prepares_attachMethod p.2 p.1) fun _ => ?_
  refine maintains_bind (maintains_forM _ fun p _ => prepares_attachMethod p.2 p.1) fun _ =>
    maintains_forM _ fun o _ => ?_
  exact maintains_bind (prepares_resolve _) fun _ => maintains_bind (prepares_resolve _) fun _ =>
    prepares_edit t fun _ => ⟨rfl, rfl⟩

end Artifact.Loading

/-! ### Finished types -/

theorem Universe.lt_of_complete {u : Universe} {t : TypeId} (h : (u.record t).complete = true) :
    t.index < u.types.size := by
  rcases Nat.lt_or_ge t.index u.types.size with hlt | hge
  · exact hlt
  · rw [u.record_of_le t hge] at h
    cases h

namespace TypeSpace

/-- Types stay finished and keep their origin. Among generated types only the given ones were
finished, and what was listed is finished. -/
structure Finishes (more : List TypeId) (s s' : TypeSpace) : Prop where
  size : s.program.types.size ≤ s'.program.types.size
  complete : ∀ t, (s.program.record t).complete = true → (s'.program.record t).complete = true
  origin : ∀ t : TypeId, t.index < s.program.types.size → (s'.program.record t).origin
    = (s.program.record t).origin
  made : ∀ t, (s'.program.record t).origin = .generated → (s'.program.record t).complete = true →
    (s.program.record t).complete = true ∨ t ∈ more
  listed : ∀ l ∈ s'.registry.listings, l ∈ s.registry.listings
    ∨ (s'.program.record l.type).complete = true

variable {s mid s' : TypeSpace} {more more' : List TypeId} {t : TypeId}

theorem Prepares.finishes (h : Prepares s s') : Finishes [] s s' where
  size := h.program.size
  complete := fun t ht => (h.program.complete t).trans ht
  origin := h.program.origin
  made := fun t _ ht => .inl ((h.program.complete t).symm.trans ht)
  listed := fun l hl => by
    rw [h.listings] at hl
    exact .inl hl

theorem Finishes.trans (h : Finishes more s mid) (h' : Finishes more' mid s') :
    Finishes (more ++ more') s s' where
  size := Nat.le_trans h.size h'.size
  complete := fun t ht => h'.complete t (h.complete t ht)
  origin := fun t ht => (h'.origin t (Nat.lt_of_lt_of_le ht h.size)).trans (h.origin t ht)
  made := fun t horigin ht => by
    rcases h'.made t horigin ht with hmid | hmore
    · rw [h'.origin t (Universe.lt_of_complete hmid)] at horigin
      exact (h.made t horigin hmid).imp id fun hmem => List.mem_append_left _ hmem
    · exact .inr (List.mem_append_right _ hmore)
  listed := fun l hl => by
    rcases h'.listed l hl with hmid | hdone
    · exact (h.listed l hmid).imp id fun hmid => h'.complete _ hmid
    · exact .inr hdone

theorem Finishes.mono (h : Finishes more s s') (hsub : ∀ t ∈ more, t ∈ more') :
    Finishes more' s s' where
  size := h.size
  complete := h.complete
  origin := h.origin
  made := fun t horigin ht => (h.made t horigin ht).imp id (hsub t)
  listed := h.listed

theorem wp_finish {post : PUnit → TypeSpace → Prop} {fail : TypeSpace → Prop}
    (h : ∀ after, Finishes [t] s after → after.registry = s.registry.insert after.program t
      → after.program = s.program.modify t (fun r => { r with complete := true }) → post ⟨⟩ after)
    (ht : t.index < s.program.types.size) :
        (markComplete t >>= fun _ => list t).wp post fail s := by
  let u := s.program.modify t fun r => { r with complete := true }
  have hself : (u.record t).complete = true := by
    rw [Universe.record_modify, if_pos ⟨rfl, ht⟩]
  have hother : ∀ other, other ≠ t → u.record other = s.program.record other := fun other hne => by
    rw [Universe.record_modify, if_neg fun h => hne h.1]
  simp only [markComplete, edit, list, wp_bind, wp_modify]
  refine h _ ⟨Nat.le_of_eq (Universe.size_modify _ _ _).symm, fun other hdone => ?_,
    fun other _ => ?_,
    fun other _ hdone => ?_, fun l hl => ?_⟩ rfl rfl
  · by_cases hne : other = t
    · show (u.record other).complete = true
      rw [hne]
      exact hself
    · exact (congrArg TypeRecord.complete (hother other hne)).trans hdone
  · by_cases hne : other = t
    · show (u.record other).origin = _
      rw [hne, Universe.record_modify, if_pos ⟨rfl, ht⟩]
    · exact congrArg TypeRecord.origin (hother other hne)
  · by_cases hne : other = t
    · exact .inr (List.mem_singleton.mpr hne)
    · exact .inl ((congrArg TypeRecord.complete (hother other hne)).symm.trans hdone)
  · unfold Registry.insert at hl
    split at hl
    · exact .inl hl
    · rcases Array.mem_push.mp hl with hold | rfl
      · exact .inl hold
      · exact .inr hself

end TypeSpace

namespace Artifact.Loading

open Markup

/-- Types that are finished one after the other are listed one after the other. They were read,
so that no generated type is finished. -/
theorem wp_finishAll {start : TypeSpace} (types : List TypeId) {l : Loading}
    (hl : Prepares start types l) :
    (types.forM finish).wp
      (fun _ after => after.space.registry.listings
        = (start.registry.insertAll after.space.program types).listings
        ∧ start.Finishes [] after.space) (fun _ => False) l := by
  let inv (done : List TypeId) (l : Loading) : Prop :=
    l.space.registry.listings = (start.registry.insertAll l.space.program done).listings
      ∧ start.Finishes [] l.space
      ∧ ∀ t ∈ types, t.index < l.space.program.types.size
      ∧ (l.space.program.record t).origin = .loaded
  refine wp_mono (wp_forM (I := inv) types (fun before t rest htypes mid hmid => ?_)
    ⟨hl.space.listings, hl.space.finishes, hl.read⟩)
    (fun _ _ h => ⟨h.1, h.2.1⟩) fun _ h => h
  obtain ⟨hlistings, hfinishes, hread⟩ := hmid
  obtain ⟨ht, horigin⟩ := hread t (by rw [htypes]; simp)
  have hsteps : (TypeSpace.markComplete t >>= fun _ => TypeSpace.list t).wp
      (fun _ space => inv (before ++ [t]) { mid with space }) (fun _ => False) mid.space := by
    refine TypeSpace.wp_finish (fun after hone hregistry hprogram =>
      ⟨?_, ?_, fun other hother => ?_⟩) ht
    · have hlabels : mid.space.program.SameLabels after.program := by
        rw [hprogram]
        exact mid.space.program.sameLabels_modify t fun _ => ⟨rfl, rfl, rfl, rfl, rfl⟩
      have hself : after.program.SameLabels after.program :=
        ⟨rfl, fun _ => rfl, fun _ => rfl, fun _ => rfl, fun _ => rfl, fun _ => rfl⟩
      show after.registry.listings = _
      rw [hregistry, Registry.insertAll_append]
      refine Registry.listings_insert ?_ hself t
      rw [hlistings]
      exact (Registry.listings_insertAll rfl hlabels before).symm
    · have hloaded : (after.program.record t).origin = .loaded := (hone.origin t ht).trans horigin
      have hboth := hfinishes.trans hone
      refine ⟨hboth.size, hboth.complete, hboth.origin, fun other hmade hdone => ?_, hboth.listed⟩
      rcases hboth.made other hmade hdone with hold | hmem
      · exact .inl hold
      · obtain rfl : other = t := by simpa using hmem
        rw [hloaded] at hmade
        cases hmade
    · obtain ⟨hlt, hloaded⟩ := hread other hother
      exact ⟨Nat.lt_of_lt_of_le hlt hone.size, (hone.origin other hlt).trans hloaded⟩
  simpa only [finish, inSpace, wp_bind, wp_within] using hsteps

theorem wp_load (nodes : List Node) (l : Loading) :
    (load nodes).wp
      (fun types after =>
        after.space.registry.listings
          = (l.space.registry.insertAll after.space.program types).listings
          ∧ l.space.Finishes [] after.space)
      (fun after => l.space.Prepares after.space) l := by
  let inv (done : List (Node × TypeId)) : Loading → Prop := Prepares l.space (done.map (·.2))
  have hone : ∀ before n rest, nodes = before.map (·.1) ++ n :: rest → ∀ mid, inv before mid →
      (declare n).wp (fun t => inv (before ++ [(n, t)])) (fun after =>
        l.space.Prepares after.space) mid := by
    rintro before n rest - mid hmid
    refine wp_mono (wp_declare_prepares n hmid) (fun t after hafter => ?_) fun _ hafter =>
      hafter.space
    simpa [inv] using hafter
  have hstart : inv [] l := ⟨.refl _, fun _ ht => absurd ht List.not_mem_nil⟩
  have hdrop : ∀ after : Loading, l.space.Prepares after.space →
      l.space.Prepares (TypeSpace.drop after.declared.toList after.space) := fun after h =>
    h.trans ⟨rfl, Universe.prepares_drop _ _⟩
  rw [load, wp_onFault]
  refine wp_step (wp_mapM nodes hone hstart) (fun types l' hl => ?_) fun after h => hdrop after h
  have hread : Prepares l.space types l' := by
    have hall := hl.2
    simp only [inv, List.map_snd_zip (Nat.le_of_eq hl.1.symm)] at hall
    exact hall
  refine wp_step (maintains_forM _ (fun p _ => prepares_define p.1 p.2) l' hread) (fun _ l' hl =>
    ?_) fun after h => hdrop after h.space
  refine wp_step (maintains_forM _ (fun p _ => prepares_attach p.1 p.2) l' hl) (fun _ l' hl => ?_)
    fun after h => hdrop after h.space
  refine wp_step (wp_finishAll types hl) (fun _ after hafter => ?_) fun _ hfalse => hfalse.elim
  exact hafter

end Artifact.Loading

/-- Reading a document lists all its types, in order, or nothing, and finishes no generated type. -/
theorem Artifact.wp_decode (text : String) (s : TypeSpace) :
    (decode text).wp
      (fun read after => after.registry.listings
        = (s.registry.insertAll after.program read.2).listings
        ∧ s.Finishes [] after)
      s.Prepares s := by
  have hstart : s.Prepares s := .refl s
  unfold decode
  rw [wp_bind, wp_lift]
  refine ⟨fun root _ => ?_, fun _ _ => hstart⟩
  rw [wp_bind, wp_lift]
  refine ⟨fun header _ => ?_, fun _ _ => hstart⟩
  rw [wp_bind, wp_get]
  have hload := wp_iff.mp (Loading.wp_load (root.childrenNamed "type") { space := s })
  rcases hrun : (Loading.load (root.childrenNamed "type")).start { space := s } with ⟨fault | types,
    after⟩
  · rw [wp_bind, wp_set, wp_throw]
    exact hload.2 _ _ hrun
  · rw [wp_bind, wp_set, wp_pure]
    exact hload.1 _ _ hrun

end TypeLoom
