import TypeLoom.Proofs.Elements

/-!
# How far a type has been read

While a type is read its record fills up. At each stage it is known what the record would be written
as: its labels, its base, and the elements of each section. The other types stay as they are, and
names still lead where they say.
-/

namespace TypeLoom.Artifact

open Markup Attempt

/-! ### Records -/

/-- The labels of a type are written as in an element, and will be when more is added to the
universe. -/
structure Labelled (p : Universe) (t : TypeId) (n : Node) : Prop where
  present : p.isPresent t
  space : n.get? "namespace" = some (p.record t).space
  name : n.get? "name" = some (p.record t).name
  flags : n.get? "flags" = some (flagsText (p.record t).flags)
  declaring : ∀ u, p.Extends u → (u.declaring? t).map u.fullName = n.get? "declaring"

/-- What the record of a type is written as, and will be when more is added to the universe. -/
structure Holds (p : Universe) (t : TypeId) (n : Node) (base : Option String)
    (content : Section → List Node) : Prop where
  labels : Labelled p t n
  base : ∀ u, p.Extends u → encodeBase u (p.record t).base = .ok base
  content : ∀ u, p.Extends u → ∀ sec : Section, sec.encode u (p.record t) = .ok (content sec)
  initializer : (p.record t).initializer = (p.record t).ownInitializer.map fun _ =>
    ⟨t, .typeInitializer⟩

variable {p p' : Universe} {t : TypeId} {n : Node} {base : Option String} {content : Section →
  List Node}

theorem Labelled.extend (h : Labelled p t n) (hext : p.Extends p') : Labelled p' t n := by
  have hkeeps := hext.keeps t (p.lt_of_isPresent t h.present)
  have hflags : (p'.record t).flags = (p.record t).flags := hkeeps.outline.flags
  refine ⟨hext.isPresent h.present, ?_, ?_, ?_, fun u hu => h.declaring u (hext.trans hu)⟩
  · rw [hkeeps.space]
    exact h.space
  · rw [hkeeps.name]
    exact h.name
  · rw [hflags]
    exact h.flags

/-- The records differ at most in the types that they enclose and in being finished. -/
def SameMembers (r r' : TypeRecord) : Prop := ∃ nested complete, r' = { r with nested, complete }

theorem SameMembers.refl (r : TypeRecord) : SameMembers r r := ⟨r.nested, r.complete, rfl⟩

theorem Holds.carry (h : Holds p t n base content) (hext : p.Extends p')
    (hsame : SameMembers (p.record t) (p'.record t)) :
    Holds p' t n base content := by
  obtain ⟨nested, complete, hrecord⟩ := hsame
  refine ⟨h.labels.extend hext, fun u hu => ?_, fun u hu sec => ?_, ?_⟩
  · rw [hrecord]
    exact h.base u (hext.trans hu)
  · rw [hrecord, ← h.content u (hext.trans hu) sec]
    cases sec <;> rfl
  · rw [hrecord]
    exact h.initializer

def Section.replace (content : Section → List Node) (sec : Section) (elements : List Node) :
    Section → List Node :=
  fun other => if other = sec then elements else content other

theorem Section.replace_self (content : Section → List Node) (sec : Section)
    (elements : List Node) :
    Section.replace content sec elements sec = elements := if_pos rfl

theorem Section.replace_replace (content : Section → List Node) (sec : Section)
    (first second : List Node) :
    Section.replace (Section.replace content sec first) sec second
    = Section.replace content sec second := by
  funext other
  by_cases h : other = sec <;> simp [Section.replace, h]

theorem Section.replace_same (content : Section → List Node) (sec : Section) :
    Section.replace content sec (content sec) = content := by
  funext other
  by_cases h : other = sec <;> simp [Section.replace, h]

/-! ### Scopes -/

variable {s s' : Scope} {first : Nat}

theorem Scope.Ready.same (h : s.Ready first) (hprogram : s'.program = s.program)
    (hlistings : s'.registry.listings = s.registry.listings) (hhere : s'.here = s.here) :
    s'.Ready first := by
  refine ⟨?_, ?_, ?_, ?_⟩
  · rw [hprogram]
    exact h.enclosed
  · rw [hprogram, hlistings]
    exact h.listed
  · rw [hprogram, hhere]
    exact h.here
  · intro t ht
    rw [hprogram]
    exact h.proper t (by rw [Scope.Known, ← hlistings]; exact ht)

theorem Scope.Ready.modify {change : TypeRecord → TypeRecord} (h : s.Ready first)
    (ht : s.program.isPresent t) (hprogram : s'.program = s.program.modify t change)
    (hlistings : s'.registry.listings = s.registry.listings) (hhere : s'.here = s.here)
    (hkeeps : TypeRecord.Keeps (s.program.record t) (change (s.program.record t)))
    (hproper : (s.program.record t).Proper t → (change (s.program.record t)).Proper t) :
        s'.Ready first := by
  have hext : s.program.Extends s'.program := by
    rw [hprogram]
    exact Universe.extends_modify hkeeps
  refine ⟨?_, ?_, ?_, ?_⟩
  · rw [hprogram]
    exact h.enclosed.modify hkeeps.declaring
  · intro l hl
    rw [hlistings] at hl
    exact (h.listed l hl).extend h.enclosed hext
  · intro name other hother
    rw [hhere] at hother
    obtain ⟨hnew, hnamed⟩ := h.here name other hother
    exact ⟨hnew, hnamed.extend h.enclosed hext⟩
  · intro other hother
    have hknown : s.Known first other := by
      rw [Scope.Known, ← hlistings]
      exact hother
    rw [hprogram]
    by_cases heq : other = t
    · rw [heq, Universe.record_modify_self ht]
      rw [heq] at hknown
      exact hproper (h.proper t hknown)
    · rw [Universe.record_modify_of_ne change heq]
      exact h.proper other hknown

/-! ### Stages -/

namespace Loading

/-- A stage of reading a type from its element, since a state of loading: what has been read of
it so far. -/
structure Stage (first : Nat) (start : Loading) (t : TypeId) (n : Node) (base : Option String)
    (content : Section → List Node) (l : Loading) : Prop where
  ready : l.scope.Ready first
  new : first ≤ t.index
  growth : start.space.program.Extends l.space.program
  others : ∀ other, other ≠ t → l.space.program.record other = start.space.program.record other
  holds : Holds l.space.program t n base content

variable {start l l' : Loading} {sec : Section} {elements : List Node}

theorem Stage.same (h : Stage first start t n base content l)
    (hprogram : l'.space.program = l.space.program)
    (hlistings : l'.space.registry.listings = l.space.registry.listings)
    (hhere : l'.here = l.here) :
    Stage first start t n base content l' := by
  refine ⟨h.ready.same hprogram hlistings hhere, h.new, ?_, ?_, ?_⟩
  · rw [hprogram]
    exact h.growth
  · rw [hprogram]
    exact h.others
  · rw [hprogram]
    exact h.holds

theorem Stage.modify {change : TypeRecord → TypeRecord} {base' : Option String}
    {content' : Section → List Node} (h : Stage first start t n base content l)
    (hprogram : l'.space.program = l.space.program.modify t change)
    (hlistings : l'.space.registry.listings = l.space.registry.listings)
    (hhere : l'.here = l.here)
    (hkeeps : TypeRecord.Keeps (l.space.program.record t) (change (l.space.program.record t)))
    (hproper : (l.space.program.record t).Proper t → (change (l.space.program.record t)).Proper t)
    (hbase : ∀ u, l.space.program.Extends u →
      encodeBase u (change (l.space.program.record t)).base = .ok base')
    (hcontent : ∀ u, l.space.program.Extends u → ∀ sec : Section,
      sec.encode u (change (l.space.program.record t)) = .ok (content' sec))
    (hinitializer : (change (l.space.program.record t)).initializer =
      (change (l.space.program.record t)).ownInitializer.map fun _ => ⟨t, .typeInitializer⟩) :
    Stage first start t n base' content' l' := by
  have hpresent := h.holds.labels.present
  have hext : l.space.program.Extends l'.space.program := by
    rw [hprogram]
    exact Universe.extends_modify hkeeps
  have hrecord : l'.space.program.record t = change (l.space.program.record t) := by
    rw [hprogram, Universe.record_modify_self hpresent]
  refine ⟨h.ready.modify hpresent hprogram hlistings hhere hkeeps hproper, h.new,
    h.growth.trans hext, ?_, ?_⟩
  · intro other hother
    rw [hprogram, Universe.record_modify_of_ne change hother]
    exact h.others other hother
  · refine ⟨h.holds.labels.extend hext, fun u hu => ?_, fun u hu sec => ?_, ?_⟩
    · rw [hrecord]
      exact hbase u (hext.trans hu)
    · rw [hrecord]
      exact hcontent u (hext.trans hu) sec
    · rw [hrecord]
      exact hinitializer

theorem Stage.touch {change : TypeRecord → TypeRecord} (h : Stage first start t n base content l)
    (hprogram : l'.space.program = l.space.program.modify t change)
    (hlistings : l'.space.registry.listings = l.space.registry.listings) (hhere : l'.here = l.here)
    (htouch : Touches t sec (l.space.program.record t) (change (l.space.program.record t)))
    (hself : ∀ u, l.space.program.Extends u → sec.encode u (l.space.program.record t)
      = .ok (content sec) →
      sec.encode u (change (l.space.program.record t)) = .ok elements) :
    Stage first start t n base (Section.replace content sec elements) l' := by
  refine h.modify hprogram hlistings hhere htouch.keeps htouch.proper (fun u hu => ?_)
    (fun u hu other => ?_) ?_
  · rw [htouch.base]
    exact h.holds.base u hu
  · by_cases hother : other = sec
    · rw [hother, Section.replace_self]
      exact hself u hu (h.holds.content u hu sec)
    · rw [htouch.others u other hother, Section.replace, if_neg hother]
      exact h.holds.content u hu other
  · have hown := htouch.own
    rw [htouch.initializer, h.holds.initializer]
    cases hafter : (change (l.space.program.record t)).ownInitializer <;>
      cases hbefore : (l.space.program.record t).ownInitializer <;> simp_all

theorem stage_edit {change : TypeRecord → TypeRecord} (h : Stage first start t n base content l)
    (htouch : Touches t sec (l.space.program.record t) (change (l.space.program.record t)))
    (hself : ∀ u, l.space.program.Extends u → sec.encode u (l.space.program.record t)
      = .ok (content sec) →
      sec.encode u (change (l.space.program.record t)) = .ok elements) :
    (edit t change).wp (fun _ => Stage first start t n base (Section.replace content sec elements))
        (fun _ => True) l := by
  rw [edit, inSpace, wp_within, TypeSpace.edit, wp_modify]
  exact h.touch rfl rfl rfl htouch hself

theorem stage_nextToken (kind : TokenKind) (h : Stage first start t n base content l) :
    (inSpace (TypeSpace.nextToken kind)).wp
      (fun _ l' => Stage first start t n base content l' ∧ l'.space.program = l.space.program)
      (fun _ => True) l := by
  rw [inSpace, wp_within, TypeSpace.nextToken, wp_bind, wp_get, wp_bind, wp_set, wp_pure]
  exact ⟨h.same rfl rfl rfl, rfl⟩

theorem wp_resolve {α : Type} {find : Scope → Except Fault α} {post : α → Loading → Prop}
    (h : ∀ v, find l.scope = .ok v → post v l) : (resolve find).wp post (fun _ => True) l := by
  rw [resolve, wp_bind, wp_get, wp_lift]
  exact ⟨h, fun _ _ => trivial⟩

theorem stage_forM (sec : Section) (written : Node → Node) {step : Node → Attempt Loading Unit}
    (elements : List Node)
    (hstep : ∀ m ∈ elements, ∀ content l, Stage first start t n base content l →
      (step m).wp (fun _ => Stage first start t n base
        (Section.replace content sec (content sec ++ [written m]))) (fun _ => True) l)
    (h : Stage first start t n base content l) :
    (elements.forM step).wp
      (fun _ => Stage first start t n base
        (Section.replace content sec (content sec ++ elements.map written))) (fun _ => True) l := by
  induction elements generalizing content l with
  | nil =>
    rw [List.map_nil, List.append_nil, Section.replace_same]
    exact h
  | cons m elements ih =>
    obtain ⟨hm, helements⟩ := List.forall_mem_cons.mp hstep
    refine wp_step (hm content l h) (fun _ l h => ?_) fun _ h => h
    have hrest := ih helements h
    rw [Section.replace_self, Section.replace_replace, List.append_assoc,
      List.singleton_append] at hrest
    exact hrest

end Loading

end TypeLoom.Artifact
