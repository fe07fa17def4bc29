import TypeLoom.Proofs.Building

/-!
# Classes beside other types

Building a class, or failing to, and setting up a registry add types to a program. The types that
were there stay as they are, up to the types that they enclose, and what is added overrides nothing
explicitly.
-/

namespace TypeLoom

open Attempt

/-! ### Programs -/

namespace Universe

/-- There are only more types: the others are as they were, up to the types that they enclose,
and the new ones have no explicit overrides. -/
structure Widens (u u' : Universe) : Prop where
  size : u.types.size ≤ u'.types.size
  old : ∀ t : TypeId, t.index < u.types.size → ∃ nested, u'.record t = { u.record t with nested }
  new : ∀ t : TypeId, u.types.size ≤ t.index → (u'.record t).overrides = #[]

variable {u mid u' : Universe} {t : TypeId}

theorem Widens.refl (u : Universe) : u.Widens u where
  size := Nat.le_refl _
  old := fun t _ => ⟨(u.record t).nested, rfl⟩
  new := fun t ht => by rw [u.record_of_le t ht]; rfl

theorem Widens.agree (h : u.Widens u') : Agree u.types.size u u' := fun t ht => by
  obtain ⟨nested, hrecord⟩ := h.old t ht
  rw [outline, hrecord, outline]
  rfl

theorem Widens.push (h : u.Widens mid) {r : TypeRecord} (hr : r.overrides = #[]) :
    u.Widens (mid.push r) where
  size := by
    rw [size_push]
    exact Nat.le_succ_of_le h.size
  old := fun t ht => by
    rw [mid.record_push_of_lt r t (Nat.lt_of_lt_of_le ht h.size)]
    exact h.old t ht
  new := fun t ht => by
    rcases Nat.lt_trichotomy t.index mid.types.size with hlt | heq | hgt
    · rw [mid.record_push_of_lt r t hlt]
      exact h.new t ht
    · obtain rfl : t = mid.nextId := by cases t; exact congrArg TypeId.mk heq
      rw [record_push_self, hr]
    · rw [record_of_le _ t (by rw [size_push]; omega)]
      rfl

/-- A new type may change in any way, if it gets no explicit overrides. -/
theorem Widens.modify (h : u.Widens mid) (ht : u.types.size ≤ t.index)
    {change : TypeRecord → TypeRecord} (hchange : ∀ r, (change r).overrides = r.overrides) :
    u.Widens (mid.modify t change) where
  size := by
    rw [size_modify]
    exact h.size
  old := fun other hother => by
    have hne : other ≠ t := by
      rintro rfl
      omega
    rw [record_modify, if_neg fun heq => hne heq.1]
    exact h.old other hother
  new := fun other hother => by
    rw [record_modify]
    split
    · rename_i heq
      rw [hchange, ← heq.1]
      exact h.new other hother
    · exact h.new other hother

theorem Widens.enclose (h : u.Widens mid) (outer t : TypeId) :
    u.Widens (mid.modify outer fun r => { r with nested := r.nested.push t }) where
  size := by
    rw [size_modify]
    exact h.size
  old := fun other hother => by
    obtain ⟨nested, hrecord⟩ := h.old other hother
    rw [record_modify]
    split
    · rename_i heq
      rw [← heq.1, hrecord]
      exact ⟨nested.push t, rfl⟩
    · exact ⟨nested, hrecord⟩
  new := fun other hother => by
    rw [record_modify]
    split
    · rename_i heq
      rw [← heq.1]
      exact h.new other hother
    · exact h.new other hother

theorem overrides_modifyMethod (r : TypeRecord) (slot : Slot)
    (change : MethodRecord → MethodRecord) :
    (r.modifyMethod slot change).overrides = r.overrides := by
  cases slot <;> rfl

end Universe

/-! ### Steps of a construction -/

namespace TypeSpace

variable {α : Type} {ground : Universe} {t : TypeId}

def Widening (ground : Universe) (s : TypeSpace) : Prop := ground.Widens s.program

theorem widening_nextToken (kind : TokenKind) : Maintains (Widening ground)
    (nextToken kind) := fun _ hs => hs

theorem widening_currentProgram : Maintains (Widening ground) currentProgram := fun _ hs => hs

theorem widening_list (t : TypeId) : Maintains (Widening ground) (list t) :=
  maintains_modify fun _ hs => hs

theorem widening_apply {change : Universe → Except Fault Universe}
    (h : ∀ u u', ground.Widens u → change u = .ok u' → ground.Widens u') :
    Maintains (Widening ground) (apply change) := by
  refine maintains_get_bind fun s hs => ?_
  split
  · rename_i u hu
    exact h _ _ hs hu
  · exact hs

theorem widening_checkBase (base : TypeId) (name : String) : Maintains (Widening ground)
    (checkBase base name) :=
  maintains_bind widening_currentProgram fun _ =>
    maintains_ite (maintains_throw _) (maintains_pure _)

theorem widening_setBody {m : MethodId} (hm : ground.types.size ≤ m.owner.index) (body : Expr) :
    Maintains (Widening ground) (setBody m body) :=
  widening_apply fun u u' hu heq => by
    unfold Universe.setBody at heq
    split at heq
    · cases heq
    · split at heq
      · cases heq
      · cases heq
        exact hu.modify hm fun r => Universe.overrides_modifyMethod r m.slot _

section New

variable (ht : ground.types.size ≤ t.index)
include ht

theorem widening_edit {change : TypeRecord → TypeRecord}
    (h : ∀ r, (change r).overrides = r.overrides) :
    Maintains (Widening ground) (edit t change) :=
  maintains_modify fun _ hs => hs.modify ht h

theorem widening_appendField (name : String) (signature : Signature) (flags : UInt32) :
    Maintains (Widening ground) (appendField t name signature flags) := by
  refine maintains_bind (widening_nextToken _) fun _ => ?_
  refine maintains_bind widening_currentProgram fun _ => ?_
  refine maintains_bind (widening_edit ht fun _ => rfl) fun _ => ?_
  exact maintains_pure _

theorem widening_appendProperty (name : String) (signature : Signature)
    (getter setter : Option MethodId) :
    Maintains (Widening ground) (appendProperty t name signature getter setter) := by
  refine maintains_bind (widening_nextToken _) fun _ => ?_
  refine maintains_bind widening_currentProgram fun _ => ?_
  refine maintains_bind (widening_edit ht fun _ => rfl) fun _ => ?_
  exact maintains_pure _

theorem yields_appendMethod (name : String) (flags : UInt32) (signature : MethodSignature) :
    Yields (Widening ground) (fun m => ground.types.size ≤ m.owner.index)
    (appendMethod t name flags signature) := by
  refine yields_bind (widening_nextToken _) fun _ => ?_
  refine yields_bind widening_currentProgram fun _ => ?_
  refine yields_bind (widening_edit ht fun _ => rfl) fun _ => ?_
  exact yields_pure ht

theorem yields_appendConstructor (name : String) (flags : UInt32) (signature : MethodSignature) :
    Yields (Widening ground) (fun m => ground.types.size ≤ m.owner.index)
    (appendConstructor t name flags signature) := by
  refine yields_bind (widening_nextToken _) fun _ => ?_
  refine yields_bind widening_currentProgram fun _ => ?_
  refine yields_bind (widening_edit ht fun _ => rfl) fun _ => ?_
  exact yields_pure ht

theorem yields_placeInitializer (name : String) (flags : UInt32) (signature : MethodSignature) :
    Yields (Widening ground) (fun m => ground.types.size ≤ m.owner.index)
    (placeInitializer t name flags signature) := by
  refine yields_bind (widening_nextToken _) fun _ =>
      yields_bind (widening_apply fun u u' hu heq => ?_) fun _ =>
    yields_bind (widening_edit ht fun _ => rfl) fun _ => yields_pure ht
  unfold Universe.setInitializer at heq
  split at heq
  · cases heq
  · cases heq
    exact hu.modify ht fun _ => rfl

theorem widening_nestIn (outer : TypeId) : Maintains (Widening ground) (nestIn t outer) := by
  refine maintains_bind (widening_apply fun u u' hu heq => ?_) fun _ => maintains_modify fun _ hs =>
    hs.enclose outer t
  unfold Universe.setDeclaring at heq
  split at heq
  · cases heq
  · cases heq
    exact hu.modify ht fun _ => rfl

theorem widening_appendInterface (interface : TypeId) : Maintains (Widening ground)
    (appendInterface t interface) := by
  refine maintains_bind ?_ fun _ => widening_edit ht fun _ => rfl
  exact maintains_bind widening_currentProgram fun _ =>
    maintains_ite (maintains_throw _) (maintains_pure _)

theorem widening_giveBase (spec : ClassSpec) (defaultBase : Option TypeId) :
    Maintains (Widening ground) (giveBase t spec defaultBase) := by
  unfold giveBase
  split
  · cases spec.base.or defaultBase with
    | none => exact maintains_pure _
    | some base =>
      refine maintains_bind (widening_checkBase base _) fun _ => widening_apply fun u u' hu heq =>
        ?_
      unfold Universe.setBase at heq
      split at heq
      · cases heq
      · cases heq
        exact hu.modify ht fun _ => rfl
  · exact maintains_pure _

/-! ### Members -/

theorem yields_autoProperty (name : String) (signature : Signature) :
    Yields (Widening ground) (fun bodies => ∀ pair ∈ bodies, ground.types.size ≤ pair.1.owner.index)
      (autoProperty t name signature) := by
  refine yields_bind (widening_appendField ht _ _ _) fun _ =>
      yields_answer (yields_appendMethod ht _ _ _) fun getter hgetter =>
    yields_answer (yields_appendMethod ht _ _ _) fun setter hsetter =>
        yields_bind (widening_appendProperty ht _ _ _ _) fun _ =>
      yields_pure fun pair hpair => ?_
  rcases List.mem_cons.mp hpair with rfl | hlast
  · exact hgetter
  · rw [List.mem_singleton.mp hlast]
    exact hsetter

theorem yields_describedMethod (described : NamedMethodSpec) :
    Yields (Widening ground) (fun pair => ground.types.size ≤ pair.1.owner.index)
    (describedMethod t described) := by
  unfold describedMethod
  split
  · exact yields_answer (yields_appendConstructor ht _ _ _) fun _ hm => yields_pure hm
  · exact yields_answer (yields_appendMethod ht _ _ _) fun _ hm => yields_pure hm

theorem yields_describedInitializer (make : Option (Universe → TypeId → Except Fault Expr)) :
    Yields (Widening ground) (fun bodies => ∀ pair ∈ bodies, ground.types.size ≤ pair.1.owner.index)
      (describedInitializer t make) := by
  cases make with
  | none => exact yields_pure fun _ hnone => absurd hnone List.not_mem_nil
  | some make =>
    refine yields_answer (yields_placeInitializer ht _ _ _) fun m hm =>
      yields_pure fun pair hpair => ?_
    rw [List.mem_singleton.mp hpair]
    exact hm

theorem yields_placeMembers (spec : ClassSpec) :
    Yields (Widening ground) (fun bodies => ∀ pair ∈ bodies, ground.types.size ≤ pair.1.owner.index)
    (placeMembers t spec) := by
  refine yields_bind (maintains_forIn _ fun field _ => widening_appendField ht _ _ _) fun _ =>
    yields_answer (yields_mapM _ fun p _ => yields_autoProperty ht p.1 p.2)
        fun accessors haccessors =>
      yields_answer (yields_mapM _ fun m _ => yields_describedMethod ht m)
          fun described hdescribed =>
        yields_answer (yields_describedInitializer ht _) fun initializers hinitializers =>
          yields_pure fun pair hpair => ?_
  rcases List.mem_append.mp hpair with hfirst | hlast
  · rcases List.mem_append.mp hfirst with haccessor | hmethod
    · obtain ⟨pairs, hpairs, hmem⟩ := List.mem_flatten.mp haccessor
      exact haccessors pairs hpairs pair hmem
    · exact hdescribed pair hmethod
  · exact hinitializers pair hlast

theorem widening_completeWith (spec : ClassSpec) : Maintains (Widening ground)
    (completeWith t spec) := by
  refine maintains_bind (maintains_forIn _ fun i _ => widening_appendInterface ht i) fun _ =>
    maintains_answer (yields_placeMembers ht spec) fun bodies hbodies =>
      maintains_bind (maintains_forIn bodies fun pair hpair => ?_) fun _ =>
        maintains_bind (widening_edit ht fun _ => rfl) fun _ => widening_edit ht fun _ => rfl
  refine maintains_bind widening_currentProgram fun u =>
    maintains_bind (maintains_lift _) fun body => ?_
  cases body with
  | none => exact maintains_pure _
  | some body => exact widening_setBody (hbodies pair hpair) body

theorem widening_fill (spec : ClassSpec) (defaultBase : Option TypeId) :
    Maintains (Widening ground) (fill t spec defaultBase) := by
  refine maintains_bind (widening_giveBase ht spec defaultBase) fun _ => ?_
  cases spec.declaring with
  | none => exact widening_completeWith ht spec
  | some outer =>
    exact maintains_bind (widening_nestIn ht outer) fun _ => widening_completeWith ht spec

end New

/-! ### Classes and registries -/

/-- A class that cannot be finished is given up, and nothing else changes. -/
theorem widening_makeClass (spec : ClassSpec) (defaultBase : Option TypeId) :
    Maintains (Widening ground) (makeClass spec defaultBase) := by
  intro s hs
  unfold makeClass
  rw [wp_bind]
  refine wp_newType fun token mid hmid _ => ?_
  have hstart : Widening ground mid := by
    rw [Widening, hmid]
    exact hs.push rfl
  have ht : ground.types.size ≤ s.program.nextId.index := hs.size
  rw [wp_bind, wp_onFault]
  exact wp_mono (widening_fill ht spec defaultBase mid hstart) (fun _ _ hafter => hafter) fun _
    hafter => hafter.modify ht fun _ => rfl

theorem widening_buildClass (spec : ClassSpec) : Maintains (Widening ground) (buildClass spec) := by
  refine maintains_bind maintains_get fun _ => ?_
  refine maintains_bind (widening_makeClass spec _) fun t => ?_
  refine maintains_bind (widening_list t) fun _ => ?_
  exact maintains_pure _

theorem widening_makeCore : Maintains (Widening ground) makeCore := by
  refine maintains_bind (widening_makeClass _ _) fun _ => ?_
  refine maintains_bind (widening_makeClass _ _) fun _ => ?_
  refine maintains_bind (widening_makeClass _ _) fun _ => ?_
  exact maintains_pure _

theorem widening_establish : Maintains (Widening ground) establish := by
  refine maintains_bind widening_makeCore fun _ => ?_
  refine maintains_bind (maintains_modify fun _ hs => hs) fun _ => ?_
  refine maintains_bind (widening_list _) fun _ => ?_
  refine maintains_bind (widening_list _) fun _ => ?_
  exact widening_list _

theorem widens_buildClass (spec : ClassSpec) (s : TypeSpace) :
    s.program.Widens ((buildClass spec).start s).2.program :=
  wp_const.mp (widening_buildClass spec s (.refl _))

theorem widens_fresh (u : Universe) : u.Widens (fresh u).program :=
  wp_const.mp (widening_establish { program := u } (.refl u))

end TypeSpace

end TypeLoom
