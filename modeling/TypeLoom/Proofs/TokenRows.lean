import Mathlib.Algebra.BigOperators.Intervals
import TypeLoom.Proofs.Realms
import TypeLoom.Proofs.TokenSequences

/-!
# Rows of methods

Methods, constructors and type initializers take their tokens from one sequence of rows. The members
of a type are added in one go, so a type takes neighbouring rows: its methods have different tokens
as long as there are no more of them than a registry has rows. In a program of one registry all
methods lie in a row, and the same is true of all of them.
-/

namespace TypeLoom

open Attempt

/-- The token of the method with this number, when rows are taken one after another. -/
def tokenFrom (first : UInt32) (i : Nat) : Token := .ofParts .method (first + UInt32.ofNat i)

/-- So many rows were taken from the first one on, and what is found took a row of its own. -/
def InRows {κ : Type} (first : UInt32) (find : κ → Option MethodOutline) (rows : Nat) : Prop :=
  ∃ made : List κ, made.length = rows ∧
    ∀ key head, find key = some head → ∃ i, made[i]? = some key ∧ head.token = tokenFrom first i

section Rows

variable {κ κ' : Type} {first : UInt32} {find find' : κ → Option MethodOutline}
  {more : κ' → Option MethodOutline} {n k : Nat}

theorem row_add (first : UInt32) (n i : Nat) :
    first + UInt32.ofNat n + UInt32.ofNat i = first + UInt32.ofNat (n + i) := by
  apply UInt32.toNat_inj.mp
  simp only [UInt32.toNat_add, UInt32.toNat_ofNat']
  omega

theorem tokenFrom_add (first : UInt32) (n i : Nat) :
    tokenFrom (first + UInt32.ofNat n) i = tokenFrom first (n + i) := by
  rw [tokenFrom, tokenFrom, row_add]

theorem inRows_none (h : ∀ key, find key = none) : InRows first find 0 :=
  ⟨[], rfl, fun key head hfound => by simp [h key] at hfound⟩

theorem InRows.congr (h : InRows first find n) (hsame : ∀ key, find' key = find key) :
    InRows first find' n := by
  have heq : find' = find := funext hsame
  rwa [heq]

theorem InRows.append (h : InRows first find n) (h' : InRows (first + UInt32.ofNat n) more k)
    (place : κ' → κ) (hcases : ∀ key head, find' key = some head →
      find key = some head ∨ ∃ last, key = place last ∧ more last = some head) :
      InRows first find' (n + k) := by
  obtain ⟨made, hmade, hold⟩ := h
  obtain ⟨next, hnext, hnew⟩ := h'
  refine ⟨made ++ next.map place, by simp [hmade, hnext], fun key head hfound => ?_⟩
  cases hcases key head hfound with
  | inl hbefore =>
    obtain ⟨i, hi, htoken⟩ := hold key head hbefore
    have hlt : i < made.length := (List.getElem?_eq_some_iff.mp hi).1
    exact ⟨i, by rw [List.getElem?_append_left hlt, hi], htoken⟩
  | inr hlast =>
    obtain ⟨last, rfl, hmore⟩ := hlast
    obtain ⟨i, hi, htoken⟩ := hnew last head hmore
    refine ⟨n + i, ?_, htoken.trans (tokenFrom_add first n i)⟩
    rw [← hmade, List.getElem?_append_right (Nat.le_add_right _ _), Nat.add_sub_cancel_left,
      List.getElem?_map, hi]
    rfl

theorem InRows.eq_of_token (h : InRows first find n) (hfew : n ≤ 2 ^ 24) {key key' : κ}
    {head head' : MethodOutline} (hkey : find key = some head) (hkey' : find key' = some head')
    (htoken : head.token = head'.token) : key = key' := by
  obtain ⟨made, hmade, hall⟩ := h
  obtain ⟨i, hi, hrow⟩ := hall key head hkey
  obtain ⟨j, hj, hrow'⟩ := hall key' head' hkey'
  have hlt := (List.getElem?_eq_some_iff.mp hi).1
  have hlt' := (List.getElem?_eq_some_iff.mp hj).1
  rw [hrow, hrow'] at htoken
  have hsame := (Token.ofParts_inj.mp htoken).2
  simp only [UInt32.toNat_add, UInt32.toNat_ofNat'] at hsame
  have hij : i = j := by omega
  rw [hij, hj] at hi
  exact (Option.some.inj hi).symm

end Rows

/-! ### The rows of a type -/

namespace TypeOutline

variable {o o' mid : TypeOutline}

/-- As many rows as a type has methods, constructors and initializers. -/
def rows (o : TypeOutline) : Nat :=
  o.methods.length + o.constructors.length + o.ownInitializer.toList.length

/-- The type has no methods, constructors or initializer yet. -/
structure Bare (o : TypeOutline) : Prop where
  rows : o.rows = 0
  initializer : o.initializer = none

theorem Bare.ownInitializer (h : o.Bare) : o.ownInitializer = none := by
  have hrows := h.rows
  cases hinitializer : o.ownInitializer with
  | none => rfl
  | some head => simp [TypeOutline.rows, hinitializer] at hrows

theorem Bare.method? (h : o.Bare) (slot : Slot) : o.method? slot = none := by
  have hrows := h.rows
  unfold TypeOutline.rows at hrows
  have hmethods : o.methods = [] := List.length_eq_zero_iff.mp (by omega)
  have hconstructors : o.constructors = [] := List.length_eq_zero_iff.mp (by omega)
  cases slot with
  | method index => simp [TypeOutline.method?, hmethods]
  | constructor index => simp [TypeOutline.method?, hconstructors]
  | typeInitializer => exact h.ownInitializer

structure SameMethods (o o' : TypeOutline) : Prop where
  methods : o'.methods = o.methods
  constructors : o'.constructors = o.constructors
  ownInitializer : o'.ownInitializer = o.ownInitializer
  initializer : o'.initializer = o.initializer

theorem SameMethods.refl (o : TypeOutline) : SameMethods o o := ⟨rfl, rfl, rfl, rfl⟩

theorem SameMethods.trans (h : SameMethods o mid) (h' : SameMethods mid o') : SameMethods o o' where
  methods := h'.methods.trans h.methods
  constructors := h'.constructors.trans h.constructors
  ownInitializer := h'.ownInitializer.trans h.ownInitializer
  initializer := h'.initializer.trans h.initializer

theorem SameMethods.rows (h : SameMethods o o') : o'.rows = o.rows := by
  rw [TypeOutline.rows, TypeOutline.rows, h.methods, h.constructors, h.ownInitializer]

theorem SameMethods.method? (h : SameMethods o o') (slot : Slot) :
    o'.method? slot = o.method? slot := by
  cases slot <;> simp [TypeOutline.method?, h.methods, h.constructors, h.ownInitializer]

theorem SameMethods.bare (h : SameMethods o o') (hbare : o.Bare) : o'.Bare :=
  ⟨h.rows.trans hbare.rows, h.initializer.trans hbare.initializer⟩

/-! One more method, constructor or initializer -/

theorem getElem?_concat_cases {α : Type} {items : List α} {index : Nat} {a b : α}
    (h : (items ++ [b])[index]? = some a) :
    items[index]? = some a ∨ index = items.length ∧ a = b := by
  rw [List.getElem?_append] at h
  split at h
  · exact .inl h
  · obtain ⟨hindex, hlast⟩ := List.getElem?_eq_some_iff.mp h
    rw [List.length_singleton] at hindex
    exact .inr ⟨by omega, List.mem_singleton.mp (List.mem_of_getElem? h)⟩

structure Gains (o : TypeOutline) (slot : Slot) (new : MethodOutline) (o' : TypeOutline) :
    Prop where
  rows : o'.rows = o.rows + 1
  cases : ∀ other head, o'.method? other = some head → o.method? other = some head
    ∨ other = slot ∧ head = new

theorem gains_addMethod (new : MethodOutline) (o : TypeOutline) :
    o.Gains (.method o.methods.length) new (o.addMethod new) where
  rows := by
    simp only [TypeOutline.rows, addMethod, List.length_append, List.length_singleton]
    omega
  cases := fun other head h => by
    cases other with
    | method index =>
      cases getElem?_concat_cases h with
      | inl hold => exact .inl hold
      | inr hlast => exact .inr ⟨congrArg Slot.method hlast.1, hlast.2⟩
    | constructor index => exact .inl h
    | typeInitializer => exact .inl h

theorem gains_addConstructor (new : MethodOutline) (o : TypeOutline) :
    o.Gains (.constructor o.constructors.length) new (o.addConstructor new) where
  rows := by
    simp only [TypeOutline.rows, addConstructor, List.length_append, List.length_singleton]
    omega
  cases := fun other head h => by
    cases other with
    | method index => exact .inl h
    | constructor index =>
      cases getElem?_concat_cases h with
      | inl hold => exact .inl hold
      | inr hlast => exact .inr ⟨congrArg Slot.constructor hlast.1, hlast.2⟩
    | typeInitializer => exact .inl h

theorem gains_setInitializer (id : MethodId) (new : MethodOutline) (o : TypeOutline)
    (hnone : o.ownInitializer = none) :
    o.Gains .typeInitializer new (o.setInitializer id new) where
  rows := by simp [TypeOutline.rows, setInitializer, hnone]
  cases := fun other head h => by
    cases other with
    | method index => exact .inl h
    | constructor index => exact .inl h
    | typeInitializer => exact .inr ⟨rfl, (Option.some.inj h).symm⟩

theorem Gains.inRows {first : UInt32} {slot : Slot} {new : MethodOutline} (h : o.Gains slot new o')
    (hlined : InRows first o.method? o.rows) (htoken : new.token = tokenFrom first o.rows) :
    InRows first o'.method? o'.rows := by
  have hnew : InRows (first + UInt32.ofNat o.rows) (fun _ : Unit => some new) 1 := by
    refine ⟨[()], rfl, fun _ head hhead => ⟨0, rfl, ?_⟩⟩
    rw [← Option.some.inj hhead, htoken, tokenFrom_add, Nat.add_zero]
  rw [h.rows]
  refine hlined.append hnew (fun _ => slot) fun other head hfound => ?_
  cases h.cases other head hfound with
  | inl hold => exact .inl hold
  | inr hlast => exact .inr ⟨(), hlast.1, congrArg some hlast.2.symm⟩

end TypeOutline

/-! ### The rows of a program -/

namespace Universe

variable {u after : Universe} {t : TypeId}

def rows (u : Universe) : Nat := ∑ i ∈ Finset.range u.types.size, (u.outline ⟨i⟩).rows

def headAt (u : Universe) (m : MethodId) : Option MethodOutline :=
  (u.outline m.owner).method? m.slot

theorem headAt_of_method? {m : MethodId} (h : (u.method? m).isSome) :
    ∃ head, u.headAt m = some head ∧ head.token = (u.method m).token := by
  obtain ⟨head, hhead⟩ := Option.isSome_iff_exists.mp (u.isSome_method? m ▸ h)
  refine ⟨head, hhead, ?_⟩
  have hsame : u.head m = head := by rw [head_eq, hhead, Option.getD_some]
  exact congrArg MethodOutline.token hsame.symm

theorem rows_push {r : TypeRecord} (hr : r.outline.Bare) : (u.push r).rows = u.rows := by
  have hlast : (u.push r).outline u.nextId = r.outline := by rw [outline_push, if_pos rfl]
  have hnew : ((u.push r).outline ⟨u.types.size⟩).rows = 0 :=
    (congrArg TypeOutline.rows hlast).trans hr.rows
  rw [rows, size_push, Finset.sum_range_succ, hnew, rows, Nat.add_zero]
  refine Finset.sum_congr rfl fun i hi => congrArg TypeOutline.rows ?_
  exact Agree.push r ⟨i⟩ (Finset.mem_range.mp hi)

theorem rows_congr (hsize : after.types.size = u.types.size)
    (h : ∀ x, (after.outline x).rows = (u.outline x).rows) :
    after.rows = u.rows := by
  rw [rows, rows, hsize]
  exact Finset.sum_congr rfl fun i _ => h ⟨i⟩

theorem rows_fill (ht : t.index < u.types.size) (hsize : after.types.size = u.types.size)
    (hbare : (u.outline t).rows = 0)
    (hothers : ∀ x, x ≠ t → (after.outline x).rows = (u.outline x).rows) :
    after.rows = u.rows + (after.outline t).rows := by
  have hmem : t.index ∈ Finset.range u.types.size := Finset.mem_range.mpr ht
  have hsame : ∑ i ∈ (Finset.range u.types.size).erase t.index, (after.outline ⟨i⟩).rows
      = ∑ i ∈ (Finset.range u.types.size).erase t.index, (u.outline ⟨i⟩).rows := by
    refine Finset.sum_congr rfl fun i hi => hothers ⟨i⟩ fun heq => ?_
    exact (Finset.mem_erase.mp hi).1 (congrArg TypeId.index heq)
  have hafter := Finset.add_sum_erase (Finset.range u.types.size) (fun i =>
    (after.outline ⟨i⟩).rows) hmem
  have hbefore := Finset.add_sum_erase (Finset.range u.types.size) (fun i =>
    (u.outline ⟨i⟩).rows) hmem
  rw [rows, rows, hsize, ← hafter, ← hbefore, hsame]
  show (after.outline t).rows + _ = (u.outline t).rows + _ + _
  omega

/-- No type has more methods, constructors and initializers than a registry has rows. -/
def WithinRows (u : Universe) : Prop := ∀ t, (u.outline t).rows ≤ 2 ^ 24

instance (u : Universe) : Decidable u.WithinRows := by
  refine decidable_of_iff (∀ i ∈ List.range u.types.size, (u.outline ⟨i⟩).rows ≤ 2 ^ 24) ⟨fun h t =>
    ?_, fun h i _ => h ⟨i⟩⟩
  by_cases ht : t.index < u.types.size
  · exact h t.index (List.mem_range.mpr ht)
  · rw [outline_of_le u t (Nat.not_lt.mp ht)]
    exact Nat.zero_le _

end Universe

/-! ### What work on a space does to its methods -/

namespace TypeSpace

open Universe TypeOutline

variable {α β : Type} {start s mid after : TypeSpace} {t : TypeId} {bare : Prop}

/-- The row of the next method. -/
def row (s : TypeSpace) : UInt32 := s.registry.counters.rowOf .method

structure Kept (s after : TypeSpace) : Prop where
  size : after.program.types.size = s.program.types.size
  methods : ∀ x, SameMethods (s.program.outline x) (after.program.outline x)
  row : after.row = s.row

theorem Idle.kept (h : Idle s after) : Kept s after where
  size := h.same.1
  methods := fun x => by
    rw [h.same.2]
    exact .refl _
  row := h.row

theorem kept_edit {change : TypeRecord → TypeRecord}
    (h : ∀ r, SameMethods r.outline (change r).outline) (s : TypeSpace) (t : TypeId) :
    Kept s { s with program := s.program.modify t change } where
  size := size_modify _ _ _
  methods := fun x => by
    show SameMethods (s.program.outline x) ((s.program.modify t change).outline x)
    rw [outline, outline, record_modify]
    split
    · rename_i heq
      rw [heq.1]
      exact h _
    · exact .refl _
  row := rfl

/-- The members of one type are being added, from a space where it had none. A type that is still
bare has no initializer. -/
structure Filling (start : TypeSpace) (t : TypeId) (bare : Prop) (s : TypeSpace) : Prop where
  size : s.program.types.size = start.program.types.size
  others : ∀ x, x ≠ t → SameMethods (start.program.outline x) (s.program.outline x)
  lined : InRows start.row (s.program.outline t).method? (s.program.outline t).rows
  row : s.row = start.row + UInt32.ofNat (s.program.outline t).rows
  bare : bare → (s.program.outline t).initializer = none
    ∧ (s.program.outline t).ownInitializer = none

theorem filling_start (hbare : (s.program.outline t).Bare) : Filling s t True s where
  size := rfl
  others := fun _ _ => .refl _
  lined := by
    rw [hbare.rows]
    exact inRows_none hbare.method?
  row := by
    apply UInt32.toNat_inj.mp
    simp [hbare.rows]
  bare := fun _ => ⟨hbare.initializer, hbare.ownInitializer⟩

theorem Filling.kept (h : Filling start t bare s) (hkept : Kept s after) :
    Filling start t bare after where
  size := hkept.size.trans h.size
  others := fun x hx => (h.others x hx).trans (hkept.methods x)
  lined := by
    rw [(hkept.methods t).rows]
    exact h.lined.congr (hkept.methods t).method?
  row := by rw [hkept.row, h.row, (hkept.methods t).rows]
  bare := fun hstill => by
    rw [(hkept.methods t).initializer, (hkept.methods t).ownInitializer]
    exact h.bare hstill

theorem Filling.begun (h : Filling start t bare s) : Filling start t False s :=
  ⟨h.size, h.others, h.lined, h.row, nofun⟩

/-- A member that is added takes the next row. -/
theorem Filling.gain {change : TypeOutline → TypeOutline} {slot : Slot} {new : MethodOutline}
    {still : Prop} (h : Filling start t bare s) (hr : s.program.Reshaped t change after.program)
    (hcounters : after.registry.counters = s.registry.counters.bump .method)
    (hgains : (s.program.outline t).Gains slot new (change (s.program.outline t)))
    (htoken : new.token = (s.registry.counters.next .method).1)
    (hbare : still → (change (s.program.outline t)).initializer = none
      ∧ (change (s.program.outline t)).ownInitializer = none) :
    Filling start t still after where
  size := hr.1.trans h.size
  others := fun x hx => by
    rw [hr.other hx]
    exact h.others x hx
  lined := by
    rw [hr.self]
    refine hgains.inRows h.lined (htoken.trans ?_)
    exact congrArg (Token.ofParts .method) h.row
  row := by
    rw [hr.self, hgains.rows, ← row_add, ← h.row]
    show after.registry.counters.rowOf .method = _
    rw [hcounters, TokenCounters.rowOf_bump, if_pos rfl]
    rfl
  bare := by
    rw [hr.self]
    exact hbare

theorem Quiet.filling {act : Attempt TypeSpace α} (h : Quiet act) :
    Maintains (Filling start t bare) act := fun _ hs =>
  h.wp (fun _ _ hidle => hs.kept hidle.kept) fun _ hidle => hs.kept hidle.kept

theorem filling_edit {change : TypeRecord → TypeRecord}
    (h : ∀ r, SameMethods r.outline (change r).outline) (x : TypeId) :
    Maintains (Filling start t bare) (edit x change) :=
  maintains_modify fun s hs => hs.kept (kept_edit h s x)

/-! ### Members -/

section Members

variable (ht : t.index < start.program.types.size)
include ht

theorem filling_appendMethod (name : String) (flags : UInt32) (signature : MethodSignature) :
    Maintains (Filling start t bare) (appendMethod t name flags signature) := by
  intro s hs
  refine wp_appendMethod (hs.size ▸ ht) fun after hr hcounters => ?_
  exact hs.gain hr.reshaped hcounters (gains_addMethod _ _) rfl hs.bare

theorem filling_appendConstructor (name : String) (flags : UInt32) (signature : MethodSignature) :
    Maintains (Filling start t bare) (appendConstructor t name flags signature) := by
  intro s hs
  refine wp_appendConstructor (hs.size ▸ ht) fun after hr hcounters => ?_
  exact hs.gain hr.reshaped hcounters (gains_addConstructor _ _) rfl hs.bare

theorem filling_placeInitializer (name : String) (flags : UInt32) (signature : MethodSignature) :
    Leads (Filling start t True) (Filling start t False)
    (placeInitializer t name flags signature) := by
  intro s hs
  obtain ⟨hnone, hown⟩ := hs.bare trivial
  refine wp_placeInitializer (hs.size ▸ ht) (fun after _ hr hcounters => ?_) fun after hsome =>
    absurd hnone hsome
  exact hs.gain hr.reshaped hcounters (gains_setInitializer _ _ _ hown) rfl nofun

end Members

theorem filling_setBase (base : TypeId) : Maintains (Filling start t bare)
    (apply fun u => u.setBase t base) := by
  have hsame : ∀ r : TypeRecord, SameMethods r.outline { r with base := some base }.outline :=
    fun _ => ⟨rfl, rfl, rfl, rfl⟩
  refine maintains_get_bind fun s hs => ?_
  split
  · rename_i u hu
    simp only [Universe.setBase] at hu
    split at hu
    · cases hu
    · cases hu
      exact hs.kept (kept_edit hsame s t)
  · exact hs

theorem filling_appendInterface (interface : TypeId) : Maintains (Filling start t bare)
    (appendInterface t interface) := by
  have hsame : ∀ r : TypeRecord,
      SameMethods r.outline { r with interfaces := r.interfaces.push interface }.outline :=
    fun _ => ⟨rfl, rfl, rfl, rfl⟩
  exact maintains_bind (quiet_checkInterface interface).filling fun _ => filling_edit hsame t

/-! ### Classes -/

theorem filling_giveBase (spec : ClassSpec) (defaultBase : Option TypeId) :
    Maintains (Filling start t bare) (giveBase t spec defaultBase) := by
  unfold giveBase
  split
  · cases spec.base.or defaultBase with
    | none => exact maintains_pure _
    | some base =>
      exact maintains_bind (quiet_checkBase base _).filling fun _ => filling_setBase base
  · exact maintains_pure _

section Classes

variable (ht : t.index < start.program.types.size)
include ht

theorem filling_autoProperty (name : String) (signature : Signature) :
    Maintains (Filling start t bare) (autoProperty t name signature) := by
  refine maintains_bind (quiet_appendField _ _ _ _).filling fun _ => ?_
  refine maintains_bind (filling_appendMethod ht _ _ _) fun _ =>
    maintains_bind (filling_appendMethod ht _ _ _) fun _ => ?_
  exact maintains_bind (quiet_appendProperty _ _ _ _ _).filling fun _ => maintains_pure _

theorem filling_describedMethod (described : NamedMethodSpec) : Maintains (Filling start t bare)
    (describedMethod t described) := by
  unfold describedMethod
  split
  · exact maintains_bind (filling_appendConstructor ht _ _ _) fun _ => maintains_pure _
  · exact maintains_bind (filling_appendMethod ht _ _ _) fun _ => maintains_pure _

theorem filling_describedInitializer (make : Option (Universe → TypeId → Except Fault Expr)) :
    Leads (Filling start t True) (Filling start t False) (describedInitializer t make) := by
  cases make with
  | none => exact fun _ hs => hs.begun
  | some make => exact leads_bind (filling_placeInitializer ht _ _ _) fun _ => maintains_pure _

theorem filling_placeMembers (spec : ClassSpec) :
    Leads (Filling start t True) (Filling start t False) (placeMembers t spec) := by
  refine (maintains_forIn _ fun f _ =>
    (quiet_appendField t f.name f.signature f.flags).filling).leads_bind
    (fun _ hs => hs.begun) fun _ => ?_
  refine (maintains_mapM _ fun p _ => filling_autoProperty ht p.1 p.2).leads_bind (fun _ hs =>
    hs.begun) fun _ => ?_
  refine (maintains_mapM _ fun m _ => filling_describedMethod ht m).leads_bind (fun _ hs =>
    hs.begun) fun _ => ?_
  exact leads_bind (filling_describedInitializer ht _) fun _ => maintains_pure _

theorem filling_fill (spec : ClassSpec) (defaultBase : Option TypeId) :
    Leads (Filling start t True) (Filling start t False) (fill t spec defaultBase) := by
  have hattributes :
    Quiet (edit t fun r => { r with attributes := r.attributes ++ spec.attributes }) :=
    quiet_edit t fun _ => rfl
  have hcomplete : Leads (Filling start t True) (Filling start t False) (completeWith t spec) := by
    refine (maintains_forIn _ fun i _ => filling_appendInterface i).leads_bind (fun _ hs =>
      hs.begun) fun _ => ?_
    refine leads_bind (filling_placeMembers ht spec) fun bodies => ?_
    refine maintains_bind (maintains_forIn bodies fun pair _ =>
      (quiet_giveBody t pair.1 pair.2).filling) fun _ => ?_
    exact maintains_bind hattributes.filling fun _ => (quiet_markComplete t).filling
  refine (filling_giveBase spec defaultBase).leads_bind (fun _ hs => hs.begun) fun _ => ?_
  cases spec.declaring with
  | none => exact hcomplete
  | some outer =>
    exact (quiet_nestIn t outer).filling.leads_bind (fun _ hs => hs.begun) fun _ => hcomplete

end Classes

/-! ### Pieces of work -/

/-- One piece of work, as far as methods are concerned: they stay as they are, there is a new
type, or a type that is bare gets its members. -/
inductive Piece (s : TypeSpace) : TypeSpace → Prop
  | keep {after : TypeSpace} (h : Kept s after) : Piece s after
  | declare {after : TypeSpace} (r : TypeRecord) (hr : r.outline.Bare)
    (hprogram : after.program = s.program.push r) (hrow : after.row = s.row) : Piece s after
  | fill {after : TypeSpace} (t : TypeId) (ht : t.index < s.program.types.size)
    (hbare : (s.program.outline t).Bare) (h : Filling s t False after) : Piece s after

def Worked : TypeSpace → TypeSpace → Prop := Relation.ReflTransGen Piece

theorem Worked.keep (h : Worked start s) (hkept : Kept s after) : Worked start after :=
  h.tail (.keep hkept)

theorem Quiet.worked {act : Attempt TypeSpace α} (h : Quiet act) :
    Maintains (Worked start) act := fun _ hs =>
  h.wp (fun _ _ hidle => hs.keep hidle.kept) fun _ hidle => hs.keep hidle.kept

theorem worked_edit {change : TypeRecord → TypeRecord}
    (h : ∀ r, SameMethods r.outline (change r).outline) (x : TypeId) :
    Maintains (Worked start) (edit x change) :=
  maintains_modify fun s hs => hs.keep (kept_edit h s x)

/-- The methods of a type took neighbouring rows. -/
def Lined (u : Universe) : Prop :=
  ∀ t, ∃ first, InRows first (u.outline t).method? (u.outline t).rows

theorem Piece.lined (h : Piece s after) (hs : Lined s.program) : Lined after.program := by
  intro x
  obtain ⟨first, hx⟩ := hs x
  cases h with
  | keep h =>
    refine ⟨first, ?_⟩
    rw [(h.methods x).rows]
    exact hx.congr (h.methods x).method?
  | declare r hr hprogram hrow =>
    rw [hprogram, outline_push]
    split
    · refine ⟨first, ?_⟩
      rw [hr.rows]
      exact inRows_none hr.method?
    · exact ⟨first, hx⟩
  | fill t ht hbare h =>
    by_cases hxt : x = t
    · rw [hxt]
      exact ⟨s.row, h.lined⟩
    · refine ⟨first, ?_⟩
      rw [(h.others x hxt).rows]
      exact hx.congr (h.others x hxt).method?

theorem Worked.lined (h : Worked s after) (hs : Lined s.program) : Lined after.program := by
  induction h with
  | refl => exact hs
  | tail _ hpiece ih => exact hpiece.lined ih

/-- All methods of the program took rows of the registry, from the first one on. -/
structure Numbered (first : UInt32) (s : TypeSpace) : Prop where
  row : s.row = first + UInt32.ofNat s.program.rows
  all : InRows first s.program.headAt s.program.rows

theorem Piece.numbered {first : UInt32} (h : Piece s after) (hs : Numbered first s) :
    Numbered first after := by
  cases h with
  | keep h =>
    have hrows : after.program.rows = s.program.rows :=
      rows_congr h.size fun x => (h.methods x).rows
    refine ⟨by rw [h.row, hs.row, hrows], ?_⟩
    rw [hrows]
    exact hs.all.congr fun m => (h.methods m.owner).method? m.slot
  | declare r hr hprogram hrow =>
    have hrows : after.program.rows = s.program.rows := by rw [hprogram, rows_push hr]
    refine ⟨by rw [hrow, hs.row, hrows], ?_⟩
    rw [hrows]
    refine hs.all.congr fun m => ?_
    rw [headAt, hprogram, outline_push]
    split
    · rename_i hnew
      rw [hr.method?, headAt, outline_of_le _ _ (Nat.le_of_eq (congrArg TypeId.index hnew).symm)]
      cases m.slot <;> rfl
    · rfl
  | fill t ht hbare h =>
    have hrows : after.program.rows = s.program.rows + (after.program.outline t).rows :=
      rows_fill ht h.size hbare.rows fun x hx => (h.others x hx).rows
    refine ⟨by rw [h.row, hs.row, row_add, hrows], ?_⟩
    have hnew := h.lined
    rw [hs.row] at hnew
    rw [hrows]
    refine hs.all.append hnew (MethodId.mk t) fun m head hfound => ?_
    by_cases howner : m.owner = t
    · refine .inr ⟨m.slot, by rw [← howner], ?_⟩
      rw [← howner]
      exact hfound
    · rw [headAt, (h.others m.owner howner).method?] at hfound
      exact .inl hfound

theorem Worked.numbered {first : UInt32} (h : Worked s after) (hs : Numbered first s) :
    Numbered first after := by
  induction h with
  | refl => exact hs
  | tail _ hpiece ih => exact hpiece.numbered ih

theorem Lined.localTokens {u : Universe} (h : Lined u) (hfew : u.WithinRows) : u.LocalTokens := by
  rintro ⟨owner, slot⟩ ⟨owner', slot'⟩ howner hm hm' htoken
  obtain rfl : owner = owner' := howner
  obtain ⟨first, hlined⟩ := h owner
  obtain ⟨head, hhead, hsame⟩ := headAt_of_method? hm
  obtain ⟨head', hhead', hsame'⟩ := headAt_of_method? hm'
  rw [← hsame, ← hsame'] at htoken
  exact congrArg (MethodId.mk owner) (hlined.eq_of_token (hfew owner) hhead hhead' htoken)

theorem Numbered.distinctTokens {first : UInt32} (h : Numbered first s)
    (hfew : s.program.rows ≤ 2 ^ 24) : s.program.DistinctTokens := by
  intro m m' hm hm' htoken
  obtain ⟨head, hhead, hsame⟩ := headAt_of_method? hm
  obtain ⟨head', hhead', hsame'⟩ := headAt_of_method? hm'
  rw [← hsame, ← hsame'] at htoken
  exact h.all.eq_of_token hfew hhead hhead' htoken

/-! ### Classes that are made -/

structure Enlarged (s after : TypeSpace) : Prop where
  worked : Worked s after
  size : after.program.types.size = s.program.types.size + 1
  old : ∀ x, x.index < s.program.types.size →
    SameMethods (s.program.outline x) (after.program.outline x)
  bare : (after.program.outline s.program.nextId).Bare

theorem Enlarged.kept (h : Enlarged s mid) (hkept : Kept mid after) : Enlarged s after where
  worked := h.worked.keep hkept
  size := hkept.size.trans h.size
  old := fun x hx => (h.old x hx).trans (hkept.methods x)
  bare := (hkept.methods _).bare h.bare

theorem Enlarged.lt (h : Enlarged s after) : s.program.nextId.index < after.program.types.size := by
  rw [h.size]
  exact Nat.lt_succ_self _

theorem wp_newType_enlarged {post : TypeId → TypeSpace → Prop} {fail : TypeSpace → Prop}
    {space name : String} {flags : UInt32} {origin : Origin}
    (h : ∀ after, Enlarged s after → post s.program.nextId after) :
    (newType space name flags origin).wp post fail s := by
  let r : TypeRecord := { token := (s.registry.counters.next .type).1, space, name, flags, origin }
  have hr : r.outline.Bare := ⟨rfl, rfl⟩
  refine h _ ⟨.single (.declare r hr rfl ?_), size_push s.program r, fun x hx => ?_, ?_⟩
  · show (s.registry.counters.bump .type).rowOf .method = _
    rw [TokenCounters.rowOf_bump, if_neg nofun]
    rfl
  · show SameMethods (s.program.outline x) ((s.program.push r).outline x)
    rw [Agree.push r x hx]
    exact .refl _
  · show ((s.program.push r).outline s.program.nextId).Bare
    rw [outline_push, if_pos rfl]
    exact hr

theorem worked_makeClass (spec : ClassSpec) (defaultBase : Option TypeId) : Maintains (Worked start)
    (makeClass spec defaultBase) := by
  intro s hs
  have hsame : ∀ r : TypeRecord, SameMethods r.outline { r with present := false }.outline :=
    fun _ => ⟨rfl, rfl, rfl, rfl⟩
  unfold makeClass
  rw [wp_bind]
  refine wp_newType_enlarged fun mid hmid => ?_
  have hfilled : ∀ after, Filling mid s.program.nextId False after → Worked start after :=
      fun after h =>
        (hs.trans hmid.worked).tail (.fill _ hmid.lt hmid.bare h)
  rw [wp_bind, wp_onFault]
  refine wp_mono (filling_fill hmid.lt spec defaultBase mid (filling_start hmid.bare))
    (fun _ after h => hfilled after h) fun after h => ?_
  exact worked_edit hsame _ after (hfilled after h)

theorem worked_buildClass (spec : ClassSpec) : Maintains (Worked start) (buildClass spec) := by
  refine maintains_bind maintains_get fun _ => ?_
  refine maintains_bind (worked_makeClass spec _) fun t => ?_
  refine maintains_bind (quiet_list t).worked fun _ => ?_
  exact maintains_pure _

theorem worked_establish : Maintains (Worked start) establish := by
  have hcore : Maintains (Worked start) makeCore :=
    maintains_bind (worked_makeClass _ _) fun _ => maintains_bind (worked_makeClass _ _) fun _ =>
      maintains_bind (worked_makeClass _ _) fun _ => maintains_pure _
  refine maintains_bind hcore fun core =>
    maintains_bind (maintains_modify fun s hs => ?_) fun _ => ?_
  · exact hs.keep ⟨rfl, fun _ => .refl _, rfl⟩
  · exact maintains_bind (quiet_list _).worked fun _ =>
      maintains_bind (quiet_list _).worked fun _ => (quiet_list _).worked

end TypeSpace

/-! ### Generations -/

namespace Production

open Universe TypeOutline TypeSpace

variable {α : Type} {start : TypeSpace} {first p : Production} {t : TypeId} {bare : Prop}

/-- The members of one of the types of a batch are being defined. -/
structure Filling (first : Production) (t : TypeId) (bare : Prop) (p : Production) : Prop where
  space : TypeSpace.Filling first.workshop.space t bare p.workshop.space
  types : p.emitted.types = first.emitted.types

theorem Filling.begun (h : Filling first t bare p) : Filling first t False p :=
  ⟨h.space.begun, h.types⟩

theorem Still.filling {act : Attempt Production α} (h : Still act) :
    Maintains (Filling first t bare) act := by
  intro p hp
  have hcalm : ∀ after, Calm p after → Filling first t bare after := fun after hcalm =>
    ⟨hp.space.kept hcalm.space.kept, hcalm.types.trans hp.types⟩
  exact wp_mono (h p) (fun _ after hafter => hcalm after hafter) hcalm

theorem filling_inSpace {act : Attempt TypeSpace α}
    (h : Maintains (TypeSpace.Filling first.workshop.space t bare) act) :
    Maintains (Filling first t bare) (inSpace act) := by
  intro p hp
  rw [wp_inSpace]
  exact wp_mono (h _ hp.space) (fun _ _ hspace => ⟨hspace, hp.types⟩) fun _ hspace =>
    ⟨hspace, hp.types⟩

theorem filling_addMethod (handle : MethodHandle) (m : MethodId) : Maintains (Filling first t bare)
    (emit (·.addMethod handle m)) := by
  intro p hp
  rw [wp_emit]
  refine ⟨fun e he => ⟨hp.space, ?_⟩, fun _ _ => hp⟩
  obtain ⟨methods, -, hend⟩ := bind_eq_ok.mp he
  cases hend
  exact hp.types

theorem filling_registerMethod (m : DraftMethod) (method : MethodId) :
    Maintains (Filling first t bare) (registerMethod m method) := by
  refine maintains_bind (filling_inSpace (Quiet.filling ?_)) fun _ => filling_addMethod _ _
  exact quiet_modifyMethod method fun _ => rfl

theorem filling_setParent (base : TypeId) : Maintains (TypeSpace.Filling start t bare)
    (setParent t base) := by
  refine maintains_bind (quiet_ensureOpen t).filling fun _ =>
    maintains_bind quiet_currentProgram.filling fun u => ?_
  exact maintains_bind (quiet_checkBase base _).filling fun _ => filling_setBase base

theorem still_namedType (s : Signature) : Still (namedType s) := by
  refine still_bind (fun p => .refl p) fun p => fun q => ?_
  rw [wp_lift]
  exact ⟨fun _ _ => .refl q, fun _ _ => .refl q⟩

theorem filling_defineBase (objectType : TypeId) (d : Descriptor) : Maintains (Filling first t bare)
    (defineBase objectType d t) := by
  unfold defineBase
  cases d.base with
  | some base =>
    exact maintains_bind (still_namedType base).filling fun _ =>
      filling_inSpace (filling_setParent _)
  | none => exact maintains_ite (filling_inSpace (filling_setParent objectType)) (maintains_pure _)

theorem filling_defineInterfaces (interfaces : List Signature) :
    Maintains (Filling first t bare) (forIn interfaces PUnit.unit fun s _ => do
      let interface ← namedType s
      inSpace (implementInterface t interface)
      pure (.yield PUnit.unit)) := by
  have hone : ∀ s, Maintains (Filling first t bare) (do
      let i ← namedType s
      inSpace (implementInterface t i)) := fun s =>
    maintains_bind (still_namedType s).filling fun i =>
      filling_inSpace (maintains_bind (quiet_ensureOpen t).filling fun _ =>
        filling_appendInterface i)
  have hall := maintains_forIn interfaces fun s _ => hone s
  simp only [bind_assoc] at hall
  exact hall

section Members

variable (ht : t.index < first.program.types.size)
include ht

theorem filling_defineConstructor (d : Descriptor) (c : DraftMethod) :
    Maintains (Filling first t bare) (defineConstructor d t c) := by
  refine maintains_bind (still_lookUp _).filling fun signature =>
    maintains_bind (filling_inSpace ?_) fun method => ?_
  · exact maintains_bind (quiet_ensureOpen t).filling fun _ => filling_appendConstructor ht _ _ _
  · exact maintains_bind (filling_registerMethod c method) fun _ => maintains_pure _

theorem filling_defineMethod (m : DraftMethod) : Maintains (Filling first t bare)
    (defineMethod t m) := by
  refine maintains_bind (still_lookUp _).filling fun signature =>
    maintains_bind (filling_inSpace ?_) fun method => ?_
  · exact maintains_bind (quiet_ensureOpen t).filling fun _ => filling_appendMethod ht _ _ _
  · exact maintains_bind (filling_registerMethod m method) fun _ => maintains_pure _

theorem filling_defineInitializer (d : Descriptor) :
    Leads (Filling first t True) (Filling first t False) (defineInitializer d t) := by
  have hplaced : Leads (Filling first t True) (Filling first t False)
      (inSpace (TypeSpace.defineInitializer t)) := by
    intro p hp
    rw [wp_inSpace]
    have hspace : Leads (TypeSpace.Filling first.workshop.space t True)
        (TypeSpace.Filling first.workshop.space t False) (TypeSpace.defineInitializer t) :=
      (quiet_ensureOpen t).filling.leads_bind (fun _ hs => hs.begun) fun _ =>
        filling_placeInitializer ht _ _ _
    exact wp_mono (hspace _ hp.space) (fun _ _ hs => ⟨hs, hp.types⟩) fun _ hs => ⟨hs, hp.types⟩
  unfold defineInitializer
  split
  · exact fun _ hp => hp.begun
  · refine leads_bind hplaced fun method => ?_
    cases d.typeInitializer with
    | some m => exact maintains_bind (filling_registerMethod m method) fun _ => maintains_pure _
    | none => exact maintains_bind (filling_addMethod _ _) fun _ => maintains_pure _

theorem filling_defineMembers (d : Descriptor) :
    Leads (Filling first t True) (Filling first t False) (do
      for f in d.fields.toList do defineField t f
      let constructors ← d.constructors.toList.mapM (defineConstructor d t)
      let initializers ← defineInitializer d t
      let methods ← d.methods.toList.mapM (defineMethod t)
      for p in d.properties.toList do defineProperty t p
      for v in d.events.toList do defineEvent t v
      for a in constructors ++ initializers ++ methods.flatMap (·.1)
          ++ methods.flatMap (·.2) do attach a) := by
  have hattach : ∀ a, Maintains (Filling first t False) (attach a) :=
    fun a => maintains_modify fun _ hp => ⟨hp.space, hp.types⟩
  refine (maintains_forIn _ fun f _ => (still_defineField t f).filling).leads_bind (fun _ hp =>
    hp.begun) fun _ => ?_
  refine (maintains_mapM _ fun c _ => filling_defineConstructor ht d c).leads_bind (fun _ hp =>
    hp.begun) fun _ => ?_
  refine leads_bind (filling_defineInitializer ht d) fun _ => ?_
  refine maintains_bind (maintains_mapM _ fun m _ => filling_defineMethod ht m) fun _ => ?_
  refine maintains_bind (maintains_forIn _ fun v _ => (still_defineProperty t v).filling) fun _ =>
    ?_
  refine maintains_bind (maintains_forIn _ fun v _ => (still_defineEvent t v).filling) fun _ => ?_
  exact maintains_bind (maintains_forIn _ fun a _ => hattach a) fun _ => maintains_pure _

end Members

/-! ### Types of a batch -/

/-- The types of these descriptors, as far as there are any, are still bare. -/
structure Awaiting (start : TypeSpace) (rest : TypeHandle → Prop) (p : Production) : Prop where
  worked : Worked start p.workshop.space
  lt : ∀ h t, p.emitted.types.find? h = some t → t.index < p.program.types.size
  bare : ∀ h t, rest h → p.emitted.types.find? h = some t → (p.program.outline t).Bare
  apart : ∀ h h' t, p.emitted.types.find? h = some t → p.emitted.types.find? h' = some t → h = h'

theorem wp_define_awaiting (objectType : TypeId) (h : TypeHandle) {rest : TypeHandle → Prop}
    (hrest : ¬ rest h) (hp : Awaiting start (fun other => other = h ∨ rest other) p) :
    (define objectType h).wp (fun _ => Awaiting start rest) (fun after =>
        Worked start after.workshop.space) p := by
  unfold define
  rw [wp_bind, wp_descriptor]
  refine ⟨fun d _ => ?_, fun _ => hp.worked⟩
  rw [wp_bind, wp_lookUp]
  refine ⟨fun t ht => ?_, fun _ _ => hp.worked⟩
  have hfound : p.emitted.types.find? h = some t := Emitted.require_ok ht
  have hlt := hp.lt h t hfound
  have hbare := hp.bare h t (.inl rfl) hfound
  have hfilled : ∀ after, Filling p t False after → Worked start after.workshop.space :=
      fun after hafter =>
        hp.worked.tail (.fill t hlt hbare hafter.space)
  have hsteps : Leads (Filling p t True) (Filling p t False) _ :=
    (filling_defineBase objectType d).leads_bind (fun _ hp => hp.begun) fun _ =>
      (filling_defineInterfaces d.interfaces.toList).leads_bind (fun _ hp => hp.begun) fun _ =>
        (maintains_forIn d.attributes.toList fun a _ => (still_setAttribute t a).filling).leads_bind
          (fun _ hp => hp.begun) fun _ => filling_defineMembers hlt d
  refine wp_mono (hsteps p ⟨filling_start hbare, rfl⟩) (fun _ after hafter => ?_) fun after
    hafter => hfilled after hafter
  refine ⟨hfilled after hafter, fun other t' hother => ?_, fun other t' hmem hother => ?_,
    fun other other' t' hother hother' => ?_⟩
  · rw [hafter.types] at hother
    show t'.index < after.workshop.space.program.types.size
    rw [hafter.space.size]
    exact hp.lt other t' hother
  · rw [hafter.types] at hother
    have hne : t' ≠ t := fun heq => by
      rw [heq] at hother
      rw [hp.apart other h t hother hfound] at hmem
      exact hrest hmem
    exact (hafter.space.others t' hne).bare (hp.bare other t' (.inr hmem) hother)
  · rw [hafter.types] at hother hother'
    exact hp.apart other other' t' hother hother'

theorem Awaiting.calm {rest : TypeHandle → Prop} {after : Production} (hp : Awaiting start rest p)
    (h : Calm p after) :
    Awaiting start rest after where
  worked := hp.worked.keep h.space.kept
  lt := fun other t ht => by
    rw [h.types] at ht
    show t.index < after.workshop.space.program.types.size
    rw [h.space.same.1]
    exact hp.lt other t ht
  bare := fun other t hmem ht => by
    rw [h.types] at ht
    exact (h.space.kept.methods t).bare (hp.bare other t hmem ht)
  apart := by
    rw [h.types]
    exact hp.apart

theorem Still.awaiting {rest : TypeHandle → Prop} {act : Attempt Production α} (h : Still act) :
    Maintains (Awaiting start rest) act :=
  fun p hp => wp_mono (h p) (fun _ _ hcalm => hp.calm hcalm) fun _ hcalm => hp.calm hcalm

theorem wp_defineType_enlarged (w : Workshop) (space name : String) (flags : UInt32)
    (declaring : Option TypeId) :
    (Workshop.defineType space name flags declaring).wp
      (fun t after => t = w.space.program.nextId ∧ Enlarged w.space after.space)
      (fun after => Enlarged w.space after.space) w := by
  unfold Workshop.defineType
  rw [wp_bind, Workshop.inSpace, wp_within]
  refine wp_newType_enlarged fun after hafter => ?_
  cases declaring with
  | none => exact ⟨rfl, hafter⟩
  | some outer =>
    rw [wp_bind, Workshop.inSpace, wp_within]
    exact (quiet_nestIn _ outer).wp (fun _ _ hidle => ⟨rfl, hafter.kept hidle.kept⟩) fun _ hidle =>
      hafter.kept hidle.kept

theorem wp_declare_awaiting (h : TypeHandle) (hp : Awaiting start (fun _ => True) p) :
    (declare h).wp (fun _ => Awaiting start fun _ => True)
    (fun after => Worked start after.workshop.space) p := by
  have hfail : ∀ p, Awaiting start (fun _ => True) p → Worked start p.workshop.space :=
    fun _ hp => hp.worked
  have hdescriptor : Maintains (Awaiting start fun _ => True) (descriptor h) :=
    maintains_bind maintains_get fun _ => maintains_lift _
  have hbatch : ∀ u, Maintains (Awaiting start fun _ => True) (inBatch (Batch.askAbstract u h)) :=
      fun u p hp => by
    rw [inBatch, wp_within]
    exact wp_const.mpr ⟨hp.worked, hp.lt, hp.bare, hp.apart⟩
  refine wp_step (hdescriptor p hp) (fun d p₁ h₁ => ?_) hfail
  rw [wp_bind, wp_get]
  refine wp_step (hbatch _ p₁ h₁) (fun isAbstract p₂ h₂ => ?_) hfail
  have houter : Maintains (Awaiting start fun _ => True) (d.declaring.mapM fun outer =>
    lookUp (·.type outer)) :=
    maintains_option _ fun outer => (still_lookUp _).awaiting
  refine wp_step (houter p₂ h₂) (fun declaring p₃ h₃ => ?_) hfail
  rw [wp_bind, inWorkshop, wp_within]
  refine wp_mono (wp_defineType_enlarged _ _ _ _ _) (fun t w hw => ?_) fun w hw =>
    h₃.worked.trans hw.worked
  obtain ⟨rfl, henlarged⟩ := hw
  have hworked : Worked start w.space := h₃.worked.trans henlarged.worked
  rw [wp_emit]
  refine ⟨fun e he => ?_, fun _ _ => hworked⟩
  obtain rfl := addType_ok he
  -- A type is the new one, or it was there and has stayed as it was.
  have hcases : ∀ other t, (p₃.emitted.types.put h p₃.program.nextId).find? other = some t →
      other = h ∧ t = p₃.program.nextId ∨ p₃.emitted.types.find? other = some t
      ∧ t.index < p₃.program.types.size := by
    intro other t hfound
    by_cases hother : h = other
    · subst hother
      rw [Keyed.find?_put_self] at hfound
      exact .inl ⟨rfl, (Option.some.inj hfound).symm⟩
    · rw [Keyed.find?_put_of_ne _ _ _ _ hother] at hfound
      exact .inr ⟨hfound, h₃.lt other t hfound⟩
  refine ⟨hworked, fun other t hother => ?_, fun other t _ hother => ?_,
    fun other other' t hother hother' => ?_⟩
  · show t.index < w.space.program.types.size
    cases hcases other t hother with
    | inl hnew =>
      rw [hnew.2]
      exact henlarged.lt
    | inr hold =>
      rw [henlarged.size]
      exact Nat.lt_succ_of_lt hold.2
  · cases hcases other t hother with
    | inl hnew =>
      rw [hnew.2]
      exact henlarged.bare
    | inr hold => exact (henlarged.old t hold.2).bare (h₃.bare other t trivial hold.1)
  · have hnext : p₃.program.nextId.index = p₃.program.types.size := rfl
    cases hcases other t hother with
    | inl hnew =>
      cases hcases other' t hother' with
      | inl hnew' => rw [hnew.1, hnew'.1]
      | inr hold' => exact absurd hold'.2 (by rw [hnew.2, hnext]; exact Nat.lt_irrefl _)
    | inr hold =>
      cases hcases other' t hother' with
      | inl hnew' => exact absurd hold.2 (by rw [hnew'.2, hnext]; exact Nat.lt_irrefl _)
      | inr hold' => exact h₃.apart other other' t hold.1 hold'.1

/-! ### Batches that are generated -/

theorem worked_inSpace {act : Attempt TypeSpace α} (h : Maintains (Worked start) act) :
    Maintains (fun p => Worked start p.workshop.space) (inSpace act) := by
  intro p hp
  rw [wp_inSpace]
  exact h _ hp

theorem Still.worked {act : Attempt Production α} (h : Still act) :
    Maintains (fun p => Worked start p.workshop.space) act :=
  fun p hp => wp_mono (h p) (fun _ _ hcalm => hp.keep hcalm.space.kept) fun _ hcalm =>
    hp.keep hcalm.space.kept

theorem worked_attachOne (a : Attachment) : Maintains (fun p => Worked start p.workshop.space)
    (attachOne a) := by
  cases a with
  | body t m body => exact (still_attachBody t m body).worked
  | override t body declaration =>
    have hsame : ∀ r : TypeRecord,
        SameMethods r.outline
          { r with overrides := r.overrides.push { declaration, body } }.outline :=
      fun _ => ⟨rfl, rfl, rfl, rfl⟩
    have hown : Quiet (ensureOwn t body) := fun s => wp_ensureOwn (.refl s) (.refl s)
    refine worked_inSpace (maintains_bind (quiet_ensureOpen t).worked fun _ =>
      maintains_bind hown.worked fun _ => ?_)
    refine maintains_bind quiet_currentProgram.worked fun u => ?_
    exact maintains_ite (maintains_bind (maintains_throw _) fun _ => worked_edit hsame t)
      (worked_edit hsame t)

/-- However the generation of a batch ends, it was work on the space; the descriptors stand at
their handles and nothing has come out of the batch yet. -/
theorem worked_generate (objectType : TypeId)
    (hhandles : ∀ (i : Nat) (d : Descriptor), p.batch.closeAll.types[i]? = some d → d.handle = ⟨i⟩)
    (hnone : p.emitted.types = []) :
    (generate objectType).wp (fun _ after => Worked p.workshop.space after.workshop.space)
      (fun after => Worked p.workshop.space after.workshop.space) p := by
  unfold generate
  rw [wp_bind, wp_modify, wp_bind, wp_get, wp_bind, wp_lift]
  refine ⟨fun order horder => ?_, fun _ _ => .refl⟩
  have hnodup : order.Nodup := (Batch.order_ok hhandles horder).nodup
  have hstart : Awaiting p.workshop.space (fun _ => True) { p with batch := p.batch.closeAll } := by
    refine ⟨.refl, ?_, ?_, ?_⟩ <;> simp [hnone, Keyed.find?]
  have hdeclare : ∀ done h rest, order = done ++ h :: rest →
    ∀ mid, Awaiting p.workshop.space (fun _ => True) mid →
      (declare h).wp (fun _ => Awaiting p.workshop.space fun _ => True)
        (fun after => Worked p.workshop.space after.workshop.space) mid :=
        fun _ h _ _ _ hmid => wp_declare_awaiting h hmid
  refine wp_step (wp_forIn (I := fun _ => Awaiting p.workshop.space fun _ => True) order
    hdeclare hstart)
    (fun _ p₁ h₁ => ?_) fun _ h => h
  have hrest : ∀ done h rest, order = done ++ h :: rest →
    ∀ mid, Awaiting p.workshop.space (fun other => other ∉ done) mid →
      (define objectType h).wp (fun _ => Awaiting p.workshop.space fun other => other ∉ done ++ [h])
        (fun after => Worked p.workshop.space after.workshop.space) mid := by
    intro done h rest heq mid hmid
    have hfresh : h ∉ done := by
      rw [heq] at hnodup
      exact fun hmem => (List.nodup_append.mp hnodup).2.2 h hmem h List.mem_cons_self rfl
    refine wp_define_awaiting objectType h (by simp) ⟨hmid.worked, hmid.lt, fun other t hmem =>
      hmid.bare other t ?_, hmid.apart⟩
    cases hmem with
    | inl hself => exact hself ▸ hfresh
    | inr hout => exact fun hin => hout (List.mem_append_left _ hin)
  have hbare : Awaiting p.workshop.space (fun other => other ∉ []) p₁ :=
    ⟨h₁.worked, h₁.lt, fun other t _ => h₁.bare other t trivial, h₁.apart⟩
  refine wp_step (wp_forIn (I := fun done => Awaiting p.workshop.space fun other => other ∉ done)
    order hrest hbare)
    (fun _ p₂ h₂ => ?_) fun _ h => h
  rw [wp_bind, wp_get]
  refine maintains_bind (maintains_forIn _ fun a _ => worked_attachOne a) (fun _ => ?_) p₂ h₂.worked
  refine maintains_bind (maintains_mapM _ fun h _ => (still_create h).worked) fun _ => ?_
  exact maintains_bind maintains_get fun _ => maintains_pure _

end Production

/-! ### Worlds and realms -/

theorem TypeSpace.worked_fresh (u : Universe) : Worked { program := u } (fresh u) :=
  wp_const.mp (worked_establish _ .refl)

namespace World

theorem worked_after {w : World} (h : w.Sound) (m : Move) :
    TypeSpace.Worked w.space (w.after m).space := by
  cases m with
  | build spec => exact wp_const.mp (TypeSpace.worked_buildClass spec w.space .refl)
  | openBatch => exact .refl
  | propose place requested name =>
    simp only [after]
    split <;> exact .refl
  | edit place e =>
    simp only [after]
    split <;> exact .refl
  | generate place output =>
    simp only [after]
    split
    · rename_i b hb
      have hbatch := (h.batches place b hb).close
      exact wp_const.mp
        (Production.worked_generate _ (p := w.production b output) hbatch.handles rfl)
    · exact .refl

end World

namespace Realm

open TypeSpace

variable {r r' : Realm}

/-- The methods of each type take neighbouring rows, whichever registry they come from. -/
theorem step_lined (h : r.Upright) (hstep : Step r r') (hlined : Lined r.program) :
    Lined r'.program := by
  obtain ⟨e, -, rfl⟩ := hstep
  cases e with
  | establish => exact (worked_fresh r.program).lined hlined
  | move place m =>
    simp only [after]
    cases hg : r.registries[place]? with
    | none => exact hlined
    | some g => exact (World.worked_after (h.view hg).sound m).lined hlined

theorem Reachable.lined (h : Reachable r) : Lined r.program := by
  suffices hall : r.Upright ∧ Lined r.program from hall.2
  induction h with
  | refl =>
    refine ⟨upright_empty, fun t => ⟨0, inRows_none fun slot => ?_⟩⟩
    cases slot <;> rfl
  | tail _ hstep ih => exact ⟨(step_upright ih.1 hstep).1, step_lined ih.1 hstep ih.2⟩

/-- In a realm no type has two methods of one token, as long as none has more than a registry has
rows. -/
theorem Reachable.localTokens (h : Reachable r) (hfew : r.program.WithinRows) :
    r.program.LocalTokens := h.lined.localTokens hfew

inductive Sole (r : Realm) : Prop
  | nothing (hregistries : r.registries = #[]) (hprogram : r.program = {})
  | one (g : Registry) (hregistries : r.registries = #[g])
    (hnumbered : Numbered ({} : TypeSpace).row (r.view g).space)

theorem size_step (hstep : Step r r') : r.registries.size ≤ r'.registries.size := by
  obtain ⟨e, -, rfl⟩ := hstep
  cases e with
  | establish => simp [after]
  | move place m =>
    simp only [after]
    split <;> simp [putWorld]

theorem step_sole (h : r.Upright) (hstep : Step r r') (hone : r'.registries.size ≤ 1)
    (hsole : Sole r) : Sole r' := by
  obtain ⟨e, -, rfl⟩ := hstep
  cases hsole with
  | nothing hregistries hprogram =>
    cases e with
    | establish =>
      have hstart : Numbered ({} : TypeSpace).row { program := r.program } := by
        rw [hprogram]
        exact ⟨rfl, inRows_none fun m => by cases m with | mk owner slot => cases slot <;> rfl⟩
      exact .one (fresh r.program).registry (by simp [after, hregistries])
        ((worked_fresh r.program).numbered hstart)
    | move place m =>
      exact .nothing (by simp [after, hregistries]) (by simp [after, hregistries, hprogram])
  | one g hregistries hnumbered =>
    cases e with
    | establish => simp [after, hregistries] at hone
    | move place m =>
      simp only [after]
      cases hg : r.registries[place]? with
      | none => exact .one g hregistries hnumbered
      | some g' =>
        obtain ⟨rfl, rfl⟩ : place = 0 ∧ g' = g := by
          rw [hregistries] at hg
          cases place with
          | zero => exact ⟨rfl, (Option.some.inj hg).symm⟩
          | succ place => simp at hg
        refine .one ((r.view g').after m).space.registry (by simp [putWorld, hregistries]) ?_
        exact (World.worked_after (h.view hg).sound m).numbered hnumbered

/-- As long as one registry is not out of rows, no two methods of its program have one token. -/
theorem Reachable.distinctTokens (h : Reachable r) (hone : r.registries.size ≤ 1)
    (hfew : r.program.rows ≤ 2 ^ 24) :
    r.program.DistinctTokens := by
  suffices hall : r.Upright ∧ (r.registries.size ≤ 1 → Sole r) by
    cases hall.2 hone with
    | nothing hregistries hprogram =>
      rw [hprogram]
      exact fun m m' hm => absurd (Universe.lt_of_isSome_method? {} m hm) (Nat.not_lt_zero _)
    | one g hregistries hnumbered => exact hnumbered.distinctTokens hfew
  clear hone hfew
  induction h with
  | refl => exact ⟨upright_empty, fun _ => .nothing rfl rfl⟩
  | tail _ hstep ih =>
    exact ⟨(step_upright ih.1 hstep).1, fun hone =>
      step_sole ih.1 hstep hone (ih.2 ((size_step hstep).trans hone))⟩

end Realm

end TypeLoom
