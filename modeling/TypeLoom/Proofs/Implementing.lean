import TypeLoom.Proofs.Histories

/-!
# Rows of implementations

What a descriptor registers for an interface method is a public method of its name and signature, or
a method that replaces an inherited one; and if it has that name and signature, then no other public
method with them stands in front of it. Registered rows stay.
-/

namespace TypeLoom

namespace DraftMethod

variable {own own' : DraftMethod} {r : MethodRecord}

/-- The methods that are found for an interface method by its name and signature. -/
def matching (r : MethodRecord) (own : DraftMethod) : Bool := own.isPublicVirtual r.name r.signature

theorem matching_iff : own.matching r = true ↔
    (own.isVirtual = true ∧ own.access = .isPublic) ∧ own.name = r.name
    ∧ own.signature.agrees r.signature = true := by
  simp [matching, isPublicVirtual, and_assoc]

theorem matching_congr {r' : MethodRecord} (hname : r'.name = r.name)
    (hsignature : r'.signature = r.signature) :
    own.matching r' = own.matching r := by
  rw [matching, hname, hsignature, matching]

theorem Revised.matching (h : own.Revised own') : own'.matching r = own.matching r := by
  rw [DraftMethod.matching, DraftMethod.matching, isPublicVirtual, isPublicVirtual, h.isVirtual,
    h.access, h.name, h.signature]

end DraftMethod

/-- What is found among revised methods has the handle of what was found before. -/
theorem map_find?_modify {methods : Array DraftMethod} {index : Nat}
    {change : DraftMethod → DraftMethod} {p : DraftMethod → Bool} (hp : ∀ m, p (change m) = p m)
    (hhandle : ∀ m, (change m).handle = m.handle) :
    ((methods.modify index change).find? p).map (·.handle) = (methods.find? p).map (·.handle) := by
  rw [← Array.find?_toList, ← Array.find?_toList, Array.toList_modify]
  generalize methods.toList = items
  induction items generalizing index with
  | nil => simp
  | cons item items ih =>
    cases index with
    | zero =>
      rw [List.modify_zero_cons, List.find?_cons, List.find?_cons, hp]
      cases p item with
      | true => exact congrArg some (hhandle item)
      | false => rfl
    | succ index =>
      rw [List.modify_succ_cons, List.find?_cons, List.find?_cons]
      cases p item with
      | true => rfl
      | false => exact ih

namespace Descriptor

open Universe MethodSignature

variable {u after : Universe} {d d' : Descriptor} {m : MethodId} {own : DraftMethod}

/-! ### Registered methods -/

/-- A method implements an interface method: it is found by name and signature, or it replaces an
inherited method. With that name and signature, it is the first one that is found if any is. -/
structure Implementer (u : Universe) (d : Descriptor) (m : MethodId) (own : DraftMethod) :
    Prop where
  mem : own ∈ d.methods
  kind : own.matching (u.method m) = true ∨ own.Replaces ∧ ∃ base, d.base = some (.ofClass base)
  first : own.name = (u.method m).name → own.signature.agrees (u.method m).signature →
    ∀ handle ∈ (d.methods.find? (·.matching (u.method m))).map (·.handle), handle = own.handle

theorem implementer_of_find? (h : d.methods.find? (·.matching (u.method m)) = some own) :
    d.Implementer u m own where
  mem := Array.mem_of_find?_eq_some h
  kind := .inl (Array.find?_some h :)
  first := fun _ _ handle hhandle => by
    rw [h, Option.map_some, Option.mem_some_iff] at hhandle
    exact hhandle.symm

theorem Implementer.of_same (h : d.Implementer u m own) (hbase : d'.base = d.base)
    (hmethods : d'.methods = d.methods) : d'.Implementer u m own :=
  ⟨hmethods ▸ h.mem, hbase ▸ h.kind, hmethods ▸ h.first⟩

/-- A new method does not come in front, and does not have the name and the signature of one that
replaces. -/
theorem Implementer.push (h : d.Implementer u m own) {new : DraftMethod} (hbase : d'.base = d.base)
    (hmethods : d'.methods = d.methods.push new)
    (hfree : own.Replaces → own.name = new.name → own.signature.agrees new.signature = false) :
    d'.Implementer u m own where
  mem := hmethods ▸ Array.mem_push_of_mem _ h.mem
  kind := hbase ▸ h.kind
  first := fun hname hsignature handle hhandle => by
    rw [hmethods, Array.find?_push] at hhandle
    cases hfind : d.methods.find? (·.matching (u.method m)) with
    | some other =>
      rw [hfind, Option.some_or] at hhandle
      exact h.first hname hsignature handle (hfind ▸ hhandle)
    | none =>
      rcases h.kind with hmatches | ⟨hreplaces, -⟩
      · exact absurd hmatches (Array.find?_eq_none.mp hfind own h.mem)
      · rw [hfind, Option.none_or] at hhandle
        split at hhandle
        · rename_i hnew
          obtain ⟨-, hname', hsignature'⟩ := DraftMethod.matching_iff.mp hnew
          have hagrees := hfree hreplaces (hname.trans hname'.symm)
          rw [agrees_trans hsignature (agrees_symm hsignature')] at hagrees
          cases hagrees
        · cases hhandle

theorem Implementer.revise (h : d.Implementer u m own) {index : Nat}
    {change : DraftMethod → DraftMethod} (hbase : d'.base = d.base)
    (hmethods : d'.methods = d.methods.modify index change)
    (revised : ∀ m : DraftMethod, m.Revised (change m)) :
    ∃ own', d'.Implementer u m own' ∧ own.Revised own' := by
  obtain ⟨i, hi⟩ := Array.mem_iff_getElem?.mp h.mem
  obtain ⟨own', hown', hr⟩ := getElem?_modify_exists revised hi
  refine ⟨own', ⟨hmethods ▸ Array.mem_of_getElem? hown', ?_, ?_⟩, hr⟩
  · rw [hr.matching, hr.replaces, hbase]
    exact h.kind
  · rw [hr.name, hr.signature, hr.handle, hmethods,
      map_find?_modify (fun m => (revised m).matching) fun m => (revised m).handle]
    exact h.first

/-! ### Rows -/

/-- What the rows of implementations say is true. -/
structure Implementing (u : Universe) (d : Descriptor) : Prop where
  explicit : ∀ own ∈ d.methods, ∀ m ∈ own.explicitOverrides,
    d.implementations.find? (u.method m).token = some own.handle
  rows : ∀ token handle, d.implementations.find? token = some handle →
    ∃ m own, m.owner.index < u.types.size
    ∧ (u.method m).token = token ∧ own.handle = handle ∧ d.Implementer u m own

theorem implementing_blank (hmethods : d.methods = #[]) (hrows : d.implementations = []) :
    d.Implementing u where
  explicit := by simp [hmethods]
  rows := by simp [hrows, Keyed.find?]

theorem Implementing.of_same (h : d.Implementing u) (hbase : d'.base = d.base)
    (hmethods : d'.methods = d.methods) (hrows : d'.implementations = d.implementations) :
    d'.Implementing u where
  explicit := by
    rw [hmethods, hrows]
    exact h.explicit
  rows := fun token handle hrow => by
    obtain ⟨m, own, hlt, htoken, hhandle, himplementer⟩ := h.rows token handle (hrows ▸ hrow)
    exact ⟨m, own, hlt, htoken, hhandle, himplementer.of_same hbase hmethods⟩

/-- One more method, with a row if it is made for an interface method. -/
theorem Implementing.push (h : d.Implementing u) {new : DraftMethod}
    {rows : Keyed Token MethodHandle} (hbase : d'.base = d.base)
    (hmethods : d'.methods = d.methods.push new) (hrows : d'.implementations = rows)
    (hfree : ∀ own ∈ d.methods, own.Replaces → own.name = new.name →
      own.signature.agrees new.signature = false)
    (hkeep : KeepsRows d.implementations rows)
    (hexplicit : ∀ m ∈ new.explicitOverrides, rows.find? (u.method m).token = some new.handle)
    (hnew : ∀ token handle, rows.find? token = some handle →
      d.implementations.find? token = some handle ∨
      ∃ m, m.owner.index < u.types.size ∧ (u.method m).token = token ∧ new.handle = handle
      ∧ d'.Implementer u m new) :
    d'.Implementing u where
  explicit := fun own hown m hm => by
    rw [hrows]
    rcases Array.mem_push.mp (hmethods ▸ hown) with hold | rfl
    · exact hkeep _ _ (h.explicit own hold m hm)
    · exact hexplicit m hm
  rows := fun token handle hrow => by
    rcases hnew token handle (hrows ▸ hrow) with hold | ⟨m, hlt, htoken, hhandle, himplementer⟩
    · obtain ⟨m, own, hlt, htoken, hhandle, himplementer⟩ := h.rows token handle hold
      exact ⟨m, own, hlt, htoken, hhandle,
        himplementer.push hbase hmethods (hfree own himplementer.mem)⟩
    · exact ⟨m, new, hlt, htoken, hhandle, himplementer⟩

theorem Implementing.putRow (h : d.Implementing u) (hbase : d'.base = d.base)
    (hmethods : d'.methods = d.methods) (free : d.implementations.find? (u.method m).token = none)
    (hrows : d'.implementations = d.implementations.put (u.method m).token own.handle)
    (hlt : m.owner.index < u.types.size)
    (himplementer : d.Implementer u m own) : d'.Implementing u where
  explicit := fun own' hown m' hm => by
    rw [hrows]
    exact keepsRows_put _ free _ _ (h.explicit own' (hmethods ▸ hown) m' hm)
  rows := fun token handle hrow => by
    rcases find?_put_cases (hrows ▸ hrow) with ⟨rfl, rfl⟩ | hold
    · exact ⟨m, own, hlt, rfl, rfl, himplementer.of_same hbase hmethods⟩
    · obtain ⟨m, own, hlt, htoken, hhandle, himplementer⟩ := h.rows token handle hold
      exact ⟨m, own, hlt, htoken, hhandle, himplementer.of_same hbase hmethods⟩

theorem Implementing.revise (h : d.Implementing u) {index : Nat}
    {change : DraftMethod → DraftMethod} (hbase : d'.base = d.base)
    (hmethods : d'.methods = d.methods.modify index change)
    (hrows : d'.implementations = d.implementations) (revised : ∀ m : DraftMethod,
        m.Revised (change m)) : d'.Implementing u where
  explicit := fun own hown m hm => by
    obtain ⟨i, hi⟩ := Array.mem_iff_getElem?.mp (hmethods ▸ hown)
    obtain ⟨old, hold, hr⟩ := getElem?_modify_cases revised hi
    rw [hrows, hr.handle]
    exact h.explicit old (Array.mem_of_getElem? hold) m (hr.explicitOverrides ▸ hm)
  rows := fun token handle hrow => by
    obtain ⟨m, own, hlt, htoken, hhandle, himplementer⟩ := h.rows token handle (hrows ▸ hrow)
    obtain ⟨own', himplementer', hr⟩ := himplementer.revise hbase hmethods revised
    exact ⟨m, own', hlt, htoken, hr.handle.trans hhandle, himplementer'⟩

/-! ### Steps -/

/-- A method whose parameters were checked shares no signature with one of its name. -/
theorem agrees_eq_false_of_check {name : String} {flags : UInt32} {s : MethodSignature}
    {hasBody : Bool} (h : d.checkMethod name flags s hasBody = .ok ()) (hown : own ∈ d.methods)
    (hname : own.name = name) :
    own.signature.agrees s = false := by
  rw [← Bool.not_eq_true]
  intro hagrees
  have hfree := (checkMethod_ok h).2 own hown hname
  rw [sameParameters_of_agrees hagrees] at hfree
  cases hfree

theorem owner_lt_of_check (h : d.checkImplementation u m = .ok ()) : m.owner.index < u.types.size :=
  u.lt_of_isInterface m.owner (checkImplementation_ok h)

theorem Implementing.change (h : d.Implementing u) (hs : d.Sound u) (hc : Change u d d') :
    d'.Implementing u := by
  cases hc with
  | aside ha => exact h.of_same ha.base ha.methods ha.implementations
  | constructor c known ha => exact h.of_same ha.base ha.methods ha.implementations
  | interface s exists' ha => exact h.of_same ha.base ha.methods ha.implementations
  | method name flags signature body known check ha =>
    exact h.push ha.base ha.methods ha.implementations (fun own hown _ hname =>
      agrees_eq_false_of_check check hown hname)
      (.refl _) nofun fun _ _ hrow => .inl hrow
  | revise index change revised ha => exact h.revise ha.base ha.methods ha.implementations revised
  | reuse m base own check free found ha => exact h.of_same ha.base ha.methods ha.implementations
  | override m base access check free missing allowed ha =>
    refine h.push ha.base ha.methods ha.implementations (fun own hown hreplaces hname => ?_)
      (.refl _)
      (fun _ hm => absurd hm (by simp [newOverride])) fun _ _ hrow => .inl hrow
    rw [← Bool.not_eq_true]
    intro hagrees
    exact Array.find?_eq_none.mp missing own hown ((DraftMethod.takesSlot_iff _ _ _).mpr ⟨hreplaces,
      hname, hagrees⟩)
  | claim m own check free found ha =>
    exact h.putRow ha.base ha.methods free ha.implementations (owner_lt_of_check check)
      (implementer_of_find? found)
  | inherit m inherited base handle check free isBase found row only ha =>
    obtain ⟨own, b, hown, rfl, -, -, -, htakes⟩ := hs.rows _ _ row
    have himplementer : d.Implementer u m own := by
      refine ⟨hown, .inr ⟨((DraftMethod.takesSlot_iff _ _ _).mp htakes).1, base,
        (baseType?_eq_some isBase).1⟩, fun _ _ handle hhandle => ?_⟩
      obtain ⟨other, hother, rfl⟩ := Option.map_eq_some_iff.mp hhandle
      exact only other hother
    exact h.putRow ha.base ha.methods free ha.implementations (owner_lt_of_check check) himplementer
  | implement m check free missing checkMethod ha =>
    let new : DraftMethod := {
      handle := d.nextMethod, name := (u.method m).name, kind := .method, flags :=
      newImplementationFlags
      signature := (u.method m).signature, body := none, explicitOverrides := #[m] }
    have hnew : (d.methods.push new).find? (·.matching (u.method m)) = some new := by
      have hmissing : d.methods.find? (·.matching (u.method m)) = none := missing
      rw [Array.find?_push, hmissing, Option.none_or, if_pos]
      have hflags : hasBits newImplementationFlags MethodFlags.virtual = true
        ∧ Access.ofBits newImplementationFlags = .isPublic := by decide
      exact DraftMethod.matching_iff.mpr ⟨hflags, rfl, agrees_refl _⟩
    refine h.push ha.base ha.methods ha.implementations (fun own hown _ hname =>
      agrees_eq_false_of_check checkMethod hown hname)
      (keepsRows_put _ free) (fun m' hm' => ?_) fun token handle hrow => ?_
    · obtain rfl := Array.mem_singleton.mp hm'
      exact Keyed.find?_put_self _ _ _
    · rcases find?_put_cases hrow with ⟨rfl, rfl⟩ | hold
      · refine .inr ⟨m, owner_lt_of_check check, rfl, rfl, implementer_of_find? ?_⟩
        rw [ha.methods]
        exact hnew
      · exact .inl hold

theorem Implementing.evolution (hu : u.WellFormed) (h : d.Implementing u) (hs : d.Sound u)
    (he : Evolution u d d') :
    d'.Implementing u := by
  induction he with
  | refl => exact h
  | tail hsteps step ih => exact ih.change (hs.evolution hu hsteps) step

theorem Change.keepsImplementations (hc : Change u d d') :
    KeepsRows d.implementations d'.implementations := by
  cases hc with
  | aside ha => rw [ha.implementations]; exact .refl _
  | constructor c known ha => rw [ha.implementations]; exact .refl _
  | interface s exists' ha => rw [ha.implementations]; exact .refl _
  | method name flags signature body known check ha => rw [ha.implementations]; exact .refl _
  | revise index change revised ha => rw [ha.implementations]; exact .refl _
  | reuse m base own check free found ha => rw [ha.implementations]; exact .refl _
  | override m base access check free missing allowed ha => rw [ha.implementations]; exact .refl _
  | claim m own check free found ha => rw [ha.implementations]; exact keepsRows_put _ free
  | inherit m inherited base handle check free isBase found row only ha =>
    rw [ha.implementations]; exact keepsRows_put _ free
  | implement m check free missing checkMethod ha =>
    rw [ha.implementations]; exact keepsRows_put _ free

theorem Evolution.keepsImplementations (he : Evolution u d d') :
    KeepsRows d.implementations d'.implementations := by
  induction he with
  | refl => exact .refl _
  | tail _ step ih =>
    exact fun slot handle hrow => step.keepsImplementations slot handle (ih slot handle hrow)

/-- Interface methods stay what they are while the universe grows. -/
theorem Implementing.grow (h : d.Implementing u) (hs : d.Sound u) (ha : Agree u.types.size u after)
    (hle : u.types.size ≤ after.types.size) : d.Implementing after where
  explicit := fun own hown m hm => by
    rw [ha.token (u.lt_of_isSome_method? m (hs.implements own hown m hm).2.1)]
    exact h.explicit own hown m hm
  rows := fun token handle hrow => by
    obtain ⟨m, own, hlt, htoken, hhandle, hmem, hkind, hfirst⟩ := h.rows token handle hrow
    have hmatching : DraftMethod.matching (after.method m) = DraftMethod.matching (u.method m) := by
      funext own
      exact DraftMethod.matching_congr (ha.name hlt) (ha.signature hlt)
    refine ⟨m, own, Nat.lt_of_lt_of_le hlt hle, (ha.token hlt).trans htoken, hhandle, hmem, ?_, ?_⟩
    · rw [hmatching]
      exact hkind
    · rw [ha.name hlt, ha.signature hlt, hmatching]
      exact hfirst

end Descriptor

/-! ### Batches and worlds -/

open Attempt

/-- What the rows of implementations of all descriptors say is true. -/
def Batch.Implementing (u : Universe) (b : Batch) : Prop :=
  ∀ (i : Nat) (d : Descriptor), b.types[i]? = some d → d.Implementing u

def Batch.RowsKept (b b' : Batch) : Prop := ∀ h d, b.find? h = some d →
  ∃ d', b'.find? h = some d' ∧ Descriptor.KeepsRows d.implementations d'.implementations

namespace Batch

variable {u : Universe} {b b' : Batch}

theorem Implementing.grown (hu : u.WellFormed) (h : b.Implementing u) (hs : b.Sound u)
    (hg : b.Grown u b') : b'.Implementing u := by
  intro i d hd
  by_cases hlt : i < b.types.size
  · have hold := Array.getElem?_eq_getElem hlt
    obtain ⟨d', hd', he⟩ := hg.old i _ hold
    obtain rfl : d' = d := Option.some.inj (hd'.symm.trans hd)
    exact (h i _ hold).evolution hu (hs.sound i _ hold) he
  · obtain ⟨blank, hblank, hmethods, hrows, he⟩ := hg.begun i d hd (Nat.not_lt.mp hlt)
    exact (Descriptor.implementing_blank hmethods hrows).evolution hu hblank he

theorem Grown.rowsKept (hg : b.Grown u b') : b.RowsKept b' := fun h d hd => by
  obtain ⟨d', hd', he⟩ := hg.old h.index d hd
  exact ⟨d', hd', Descriptor.Evolution.keepsImplementations he⟩

theorem alike_of_remembers (hr : b.closeAll.Remembers b') {h : TypeHandle} {d : Descriptor}
    (hd : b.find? h = some d) :
    ∃ d', b'.find? h = some d' ∧ Descriptor.Alike d.close d' := by
  have hclosed : b.closeAll.find? h = some d.close := by rw [find?_closeAll, hd, Option.map_some]
  obtain ⟨d', hd', hforget⟩ := hr.find hclosed
  exact ⟨d', hd', Descriptor.alike_of_forget hforget⟩

theorem rowsKept_of_remembers (hr : b.closeAll.Remembers b') : b.RowsKept b' := fun h d hd => by
  obtain ⟨d', hd', ha⟩ := alike_of_remembers hr hd
  exact ⟨d', hd', by rw [ha.implementations, (alike_close d).implementations]; exact .refl _⟩

theorem Implementing.remembers (hb : b.Implementing u) (hr : b.closeAll.Remembers b') :
    b'.Implementing u := fun i d' hd' => by
  obtain ⟨closed, hclosed, -⟩ := hr.symm.find (h := ⟨i⟩) hd'
  rw [find?_closeAll] at hclosed
  obtain ⟨d, hd, -⟩ := Option.map_eq_some_iff.mp hclosed
  obtain ⟨d'', hd'', ha⟩ := alike_of_remembers hr hd
  obtain rfl : d'' = d' := Option.some.inj (hd''.symm.trans hd')
  have hc := alike_close d
  exact (hb i d hd).of_same (ha.base.trans hc.base) (ha.methods.trans hc.methods)
    (ha.implementations.trans hc.implementations)

theorem Implementing.grow {after : Universe} (h : b.Implementing u) (hs : b.Sound u)
    (ha : Universe.Agree u.types.size u after) (hle : u.types.size ≤ after.types.size) :
    b.Implementing after := fun i d hd => (h i d hd).grow (hs.sound i d hd) ha hle

end Batch

namespace World

variable {w w' : World}

/-- What the rows of implementations of all batches say is true. -/
def Implementing (w : World) : Prop := ∀ (i : Nat) (b : Batch), w.batches[i]? = some b →
    b.Implementing w.program

def RowsKept (w w' : World) : Prop := ∀ (i : Nat) (b : Batch), w.batches[i]? = some b →
  ∃ b', w'.batches[i]? = some b' ∧ b.RowsKept b'

theorem RowsKept.refl (w : World) : RowsKept w w :=
  fun _ b hb => ⟨b, hb, fun _ d hd => ⟨d, hd, .refl _⟩⟩

theorem RowsKept.trans {mid : World} (h : RowsKept w mid) (h' : RowsKept mid w') : RowsKept w w' :=
    fun i b hb => by
  obtain ⟨b', hb', hkept⟩ := h i b hb
  obtain ⟨b'', hb'', hkept'⟩ := h' i b' hb'
  refine ⟨b'', hb'', fun handle d hd => ?_⟩
  obtain ⟨d', hd', hrows⟩ := hkept handle d hd
  obtain ⟨d'', hd'', hrows'⟩ := hkept' handle d' hd'
  exact ⟨d'', hd'', fun slot row hrow => hrows' slot row (hrows slot row hrow)⟩

theorem putBatch_implementing (hw : w.Sound) (hi : w.Implementing) {place : Nat} {b b' : Batch}
    {space : TypeSpace} (hb : w.batches[place]? = some b)
    (hsize : w.program.types.size ≤ space.program.types.size)
    (hagree : Universe.Agree w.program.types.size w.program space.program)
    (hb' : b'.Implementing space.program)
    (hkept : b.RowsKept b') :
    Implementing { w.putBatch place b' with space }
        ∧ RowsKept w { w.putBatch place b' with space } := by
  have hlt : place < w.batches.size := (Array.getElem?_eq_some_iff.mp hb).1
  have hrow : ∀ (i : Nat) e, (w.batches.setIfInBounds place b')[i]? = some e → i = place ∧ e = b'
      ∨ w.batches[i]? = some e := by
    intro i e he
    rw [Array.getElem?_setIfInBounds] at he
    split at he
    · rename_i heq
      exact .inl ⟨heq.symm, (Option.some.inj he).symm⟩
    · exact .inr he
  refine ⟨fun i e he => ?_, fun i e he => ?_⟩
  · rcases hrow i e he with ⟨-, rfl⟩ | hold
    · exact hb'
    · exact (hi i e hold).grow (hw.batches i e hold) hagree hsize
  · by_cases hplace : i = place
    · subst hplace
      obtain rfl : b = e := Option.some.inj (hb.symm.trans he)
      exact ⟨b', Array.getElem?_setIfInBounds_self_of_lt hlt, hkept⟩
    · refine ⟨e, ?_, fun _ d hd => ⟨d, hd, .refl _⟩⟩
      exact (Array.getElem?_setIfInBounds_ne (Ne.symm hplace)).trans he

theorem grown_implementing (hw : w.Sound) (hi : w.Implementing) {place : Nat} {b b' : Batch}
    (hb : w.batches[place]? = some b) (hg : b.Grown w.program b') :
    Implementing (w.putBatch place b') ∧ RowsKept w (w.putBatch place b') :=
  putBatch_implementing hw hi hb (Nat.le_refl _) (.refl _ _)
    ((hi place b hb).grown hw.space.wellFormed (hw.batches place b hb) hg) hg.rowsKept

/-- A move keeps the rows, and what they say is true afterwards. -/
theorem step_implementing (hw : w.Sound) (hi : w.Implementing) (hstep : Step w w') :
    Implementing w' ∧ RowsKept w w' := by
  have hsince := (step_sound hw hstep).2
  obtain ⟨move, hfits, rfl⟩ := hstep
  cases move with
  | build spec =>
    exact ⟨fun i b hb => (hi i b hb).grow (hw.batches i b hb) hsince.agree hsince.size,
        fun i b hb =>
      ⟨b, hb, fun _ d hd => ⟨d, hd, .refl _⟩⟩⟩
  | openBatch =>
    refine ⟨fun i b hb => ?_, fun i b hb => ?_⟩
    · rw [after, Array.getElem?_push] at hb
      split at hb
      · cases hb
        exact fun _ _ hd => absurd hd (by simp)
      · exact hi i b hb
    · have hlt : i < w.batches.size := (Array.getElem?_eq_some_iff.mp hb).1
      refine ⟨b, ?_, fun _ d hd => ⟨d, hd, .refl _⟩⟩
      rw [after, Array.getElem?_push, if_neg (by omega)]
      exact hb
  | propose place requested name =>
    simp only [after]
    cases hb : w.batches[place]? with
    | none => exact ⟨hi, .refl w⟩
    | some b =>
      exact grown_implementing hw hi hb
        (Batch.grown_push rfl (Batch.sound_proxy hw.space.wellFormed _ name hfits) rfl rfl)
  | edit place e =>
    simp only [after]
    cases hb : w.batches[place]? with
    | none => exact ⟨hi, .refl w⟩
    | some b =>
      exact grown_implementing hw hi hb
        (Attempt.wp_const.mp (Batch.growing_perform hw.space.wellFormed hfits b))
  | generate place output =>
    simp only [after]
    cases hb : w.batches[place]? with
    | none => exact ⟨hi, .refl w⟩
    | some b =>
      have hsound := hw.batches place b hb
      have hintact := intact_generation hw hsound output
      exact putBatch_implementing hw hi hb hintact.size hintact.agree
        (((hi place b hb).grow hsound hintact.agree hintact.size).remembers hintact.batch)
        (Batch.rowsKept_of_remembers hintact.batch)

theorem Later.implementing (hlater : Later w w') (hw : w.Sound) (hi : w.Implementing) :
    Implementing w' ∧ RowsKept w w' := by
  induction hlater with
  | refl => exact ⟨hi, .refl w⟩
  | tail hsteps hstep ih =>
    obtain ⟨himplementing, hkept⟩ := step_implementing (Later.sound hsteps hw).1 ih.1 hstep
    exact ⟨himplementing, ih.2.trans hkept⟩

theorem implementing_of_space (space : TypeSpace) : Implementing { space } :=
  fun _ _ hb => absurd hb (by simp)

end World

end TypeLoom
