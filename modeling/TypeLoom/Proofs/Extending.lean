import TypeLoom.Proofs.Growth

/-!
# Universes that are built on

While types are read the universe grows around those that are there: types are added, and members to
types. Nothing that a reference says changes by that: names, enclosing types, methods with their
parameters, fields.
-/

namespace TypeLoom

/-! ### Records that gain members -/

theorem TypeOutline.Keeps.trans {o o' o'' : TypeOutline} (h : Keeps o o') (h' : Keeps o' o'') :
    Keeps o o'' :=
  ⟨h'.flags.trans h.flags, fun slot m hm => h'.method slot m (h.method slot m hm)⟩

/-- The labels are the same, methods are still at their places and fields still have their names. -/
structure TypeRecord.Keeps (r r' : TypeRecord) : Prop where
  space : r'.space = r.space
  name : r'.name = r.name
  declaring : r'.declaring = r.declaring
  present : r'.present = r.present
  outline : TypeOutline.Keeps r.outline r'.outline
  field : ∀ (index : Nat) (f : FieldRecord), r.fields[index]? = some f →
    ∃ f' : FieldRecord, r'.fields[index]? = some f' ∧ f'.name = f.name

namespace TypeRecord.Keeps

variable {r r' r'' : TypeRecord}

theorem refl (r : TypeRecord) : Keeps r r := ⟨rfl, rfl, rfl, rfl, .refl _, fun _ f h => ⟨f, h, rfl⟩⟩

theorem trans (h : Keeps r r') (h' : Keeps r' r'') : Keeps r r'' := by
  refine ⟨h'.space.trans h.space, h'.name.trans h.name, h'.declaring.trans h.declaring,
    h'.present.trans h.present,
    h.outline.trans h'.outline, fun index f hf => ?_⟩
  obtain ⟨f', hf', hname⟩ := h.field index f hf
  obtain ⟨f'', hf'', hname'⟩ := h'.field index f' hf'
  exact ⟨f'', hf'', hname'.trans hname⟩

theorem of_outline (hspace : r'.space = r.space) (hname : r'.name = r.name)
    (hdeclaring : r'.declaring = r.declaring) (hpresent : r'.present = r.present)
    (hfields : r'.fields = r.fields) (houtline : TypeOutline.Keeps r.outline r'.outline) :
    Keeps r r' :=
  ⟨hspace, hname, hdeclaring, hpresent, houtline, fun _ f h => ⟨f, by rw [hfields]; exact h, rfl⟩⟩

theorem method? (h : Keeps r r') {slot : Slot} {m : MethodRecord} (hm : r.method? slot = some m) :
    ∃ m', r'.method? slot = some m' ∧ m'.name = m.name ∧ m'.signature = m.signature := by
  have hold : r.outline.method? slot = some m.outline := by
    rw [r.outline_method?, hm, Option.map_some]
  have hnew := h.outline.method slot _ hold
  rw [r'.outline_method?, Option.map_eq_some_iff] at hnew
  obtain ⟨m', hm', houtline⟩ := hnew
  exact ⟨m', hm', congrArg MethodOutline.name houtline, congrArg MethodOutline.signature houtline⟩

end TypeRecord.Keeps

/-! ### Universes -/

namespace Universe

variable {u mid u' : Universe} {t : TypeId}

/-- Every type is still there, with all its members. -/
structure Extends (u u' : Universe) : Prop where
  size : u.types.size ≤ u'.types.size
  keeps : ∀ t : TypeId, t.index < u.types.size → TypeRecord.Keeps (u.record t) (u'.record t)

theorem Extends.refl (u : Universe) : u.Extends u := ⟨Nat.le_refl _, fun t _ => .refl (u.record t)⟩

theorem Extends.trans (h : u.Extends mid) (h' : mid.Extends u') : u.Extends u' :=
  ⟨Nat.le_trans h.size h'.size, fun t ht =>
    (h.keeps t ht).trans (h'.keeps t (Nat.lt_of_lt_of_le ht h.size))⟩

theorem extends_push (u : Universe) (r : TypeRecord) : u.Extends (u.push r) := by
  refine ⟨by rw [size_push]; omega, fun t ht => ?_⟩
  rw [u.record_push_of_lt r t ht]
  exact .refl _

theorem extends_modify {change : TypeRecord → TypeRecord}
    (h : TypeRecord.Keeps (u.record t) (change (u.record t))) :
    u.Extends (u.modify t change) := by
  refine ⟨Nat.le_of_eq (u.size_modify t change).symm, fun other _ => ?_⟩
  rw [record_modify]
  split
  · rename_i hother
    rw [hother.1]
    exact h
  · exact .refl _

theorem record_modify_self {change : TypeRecord → TypeRecord} (h : u.isPresent t) :
    (u.modify t change).record t = change (u.record t) := by
  rw [record_modify, if_pos ⟨rfl, u.lt_of_isPresent t h⟩]

theorem record_modify_of_ne {other : TypeId} (change : TypeRecord → TypeRecord) (h : other ≠ t) :
    (u.modify t change).record other = u.record other := by
  rw [record_modify, if_neg fun hother => h hother.1]

theorem modify_modify (u : Universe) (t : TypeId) (first second : TypeRecord → TypeRecord) :
    (u.modify t first).modify t second = u.modify t fun r => second (first r) := by
  simp only [modify, mk.injEq]
  apply Array.ext_getElem?
  intro index
  simp only [Array.getElem?_modify]
  split <;> simp [Function.comp_def]

theorem Extends.isPresent (h : u.Extends u') (ht : u.isPresent t) : u'.isPresent t := by
  rw [Universe.isPresent, (h.keeps t (u.lt_of_isPresent t ht)).present]
  exact ht

theorem Extends.method? (h : u.Extends u') {m : MethodId} {r : MethodRecord}
    (hm : u.method? m = some r) :
    ∃ r', u'.method? m = some r' ∧ r'.name = r.name ∧ r'.signature = r.signature := by
  have howner := u.lt_of_isSome_method? m (by rw [hm]; rfl)
  exact (h.keeps m.owner howner).method? hm

theorem Extends.field? (h : u.Extends u') {f : FieldId} {r : FieldRecord}
    (hf : u.field? f = some r) :
    ∃ r', u'.field? f = some r' ∧ r'.name = r.name := by
  by_cases howner : f.owner.index < u.types.size
  · exact (h.keeps f.owner howner).field f.index r hf
  · rw [Universe.field?, u.record_of_le _ (Nat.not_lt.mp howner)] at hf
    exact absurd hf (by simp [noType])

/-! ### Names -/

def Enclosed (u : Universe) : Prop :=
  ∀ t outer : TypeId, (u.record t).declaring = some outer → outer.index < u.types.size

theorem Extends.declaring? (h : u.Extends u') (hu : u.Enclosed) (ht : t.index < u.types.size) :
    u'.declaring? t = u.declaring? t := by
  rw [Universe.declaring?, Universe.declaring?, (h.keeps t ht).declaring]
  cases hdeclaring : (u.record t).declaring with
  | none => rfl
  | some outer =>
    have hpresent := (h.keeps outer (hu t outer hdeclaring)).present
    rw [Option.bind_some, Option.bind_some, present?, present?, Universe.isPresent,
      Universe.isPresent, hpresent]

theorem Extends.fullNameWithin (h : u.Extends u') (hu : u.Enclosed) (depth : Nat)
    (ht : t.index < u.types.size) :
    u'.fullNameWithin depth t = u.fullNameWithin depth t := by
  induction depth generalizing t with
  | zero => exact (h.keeps t ht).name
  | succ depth ih =>
    rw [Universe.fullNameWithin, Universe.fullNameWithin, h.declaring? hu ht, (h.keeps t ht).name,
      (h.keeps t ht).space]
    cases houter : u.declaring? t with
    | none => rfl
    | some outer =>
      obtain ⟨enclosing, hdeclaring, hpresent⟩ := Option.bind_eq_some_iff.mp houter
      have hsame : enclosing = outer := by
        unfold present? at hpresent
        split at hpresent
        · exact Option.some.inj hpresent
        · cases hpresent
      have hlt := hu t enclosing hdeclaring
      rw [hsame] at hlt
      show _ ++ _ ++ _ = _ ++ _ ++ _
      rw [ih hlt]

/-- The type is present and has this full name, whatever is added to the table. -/
structure Named (u : Universe) (t : TypeId) (name : String) : Prop where
  present : u.isPresent t
  settled : ∀ depth, u.types.size ≤ depth → u.fullNameWithin depth t = name

theorem Named.fullName {name : String} (h : u.Named t name) : u.fullName t = name :=
  h.settled _ (Nat.le_refl _)

theorem Named.extend {name : String} (h : u.Named t name) (hu : u.Enclosed) (hext : u.Extends u') :
    u'.Named t name := by
  refine ⟨hext.isPresent h.present, fun depth hdepth => ?_⟩
  rw [hext.fullNameWithin hu depth (u.lt_of_isPresent t h.present)]
  exact h.settled depth (Nat.le_trans hext.size hdepth)

theorem Enclosed.modify (hu : u.Enclosed) {change : TypeRecord → TypeRecord}
    (h : (change (u.record t)).declaring = (u.record t).declaring) :
    (u.modify t change).Enclosed := by
  intro other outer houter
  rw [size_modify]
  rw [record_modify] at houter
  split at houter
  · rename_i hother
    rw [h] at houter
    exact hu t outer houter
  · exact hu other outer houter

theorem Enclosed.push (hu : u.Enclosed) {r : TypeRecord}
    (h : ∀ outer, r.declaring = some outer → outer.index < u.types.size) :
    (u.push r).Enclosed := by
  intro other outer houter
  rw [size_push]
  by_cases hlt : other.index < u.types.size
  · rw [u.record_push_of_lt r other hlt] at houter
    exact Nat.lt_succ_of_lt (hu other outer houter)
  · by_cases heq : other = u.nextId
    · rw [heq, record_push_self] at houter
      exact Nat.lt_succ_of_lt (h outer houter)
    · have hne : other.index ≠ u.types.size := fun hindex => heq (by cases other; simp_all [nextId])
      rw [record_of_le _ other (by rw [size_push]; omega)] at houter
      cases houter

/-- A type inside one whose name is settled, or inside none. -/
theorem named_fullName (ht : u.isPresent t)
    (h : ∀ outer, u.declaring? t = some outer → ∃ name, ∀ depth, u.types.size ≤ depth + 1 →
      u.fullNameWithin depth outer = name) :
    u.Named t (u.fullName t) := by
  refine ⟨ht, fun depth hdepth => ?_⟩
  have hlt := u.lt_of_isPresent t ht
  obtain ⟨size, hsize⟩ : ∃ size, u.types.size = size + 1 := ⟨u.types.size - 1, by omega⟩
  obtain ⟨d, rfl⟩ : ∃ d, depth = d + 1 := ⟨depth - 1, by omega⟩
  rw [fullName, hsize, fullNameWithin, fullNameWithin]
  cases houter : u.declaring? t with
  | none => rfl
  | some outer =>
    obtain ⟨name, hname⟩ := h outer houter
    show _ ++ _ ++ _ = _ ++ _ ++ _
    rw [hname d (by omega), hname size (by omega)]

end Universe

end TypeLoom
