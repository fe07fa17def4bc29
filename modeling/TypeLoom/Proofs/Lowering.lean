import Mathlib.Data.List.Basic
import TypeLoom.Emit.Lower
import TypeLoom.Proofs.Attempts

/-!
# Lowered expressions

Lowering an expression succeeds just when each member that some expression inside names has come out
already. What it gives is the same expression with what came out in the place of each handle: it
reaches each expression inside another one, keeps all but targets as they are, and has nothing left
to do on its result.
-/

namespace TypeLoom

namespace Expr

/-! ### Expressions inside an expression -/

/-- The expressions directly inside: items, receivers, arguments, stored values, operands and
branches. -/
def parts : Expr → List Expr
  | block items => items
  | call receiver _ arguments _ => receiver.toList ++ arguments
  | new _ arguments => arguments
  | load receiver _ => receiver.toList
  | store receiver _ value => receiver.toList ++ [value]
  | binary _ left right => [left, right]
  | choose condition positive negative => [condition, positive, negative]
  | _ => []

theorem nodes_eq_cons (x : Expr) : x.nodes = x :: x.parts.flatMap nodes := by
  cases x <;> simp [nodes, parts, nodesAll_eq_flatMap, nodesOpt_eq_flatMap]

/-- Induction over the expressions inside, whatever kind of expression they are inside of. -/
theorem parts_induction {motive : Expr → Prop}
    (step : ∀ whole, (∀ part ∈ whole.parts, motive part) → motive whole) (x : Expr) : motive x := by
  induction x using Expr.induction with
  | constant value => exact step _ (List.forall_mem_nil _)
  | this => exact step _ (List.forall_mem_nil _)
  | argument index => exact step _ (List.forall_mem_nil _)
  | block items ih => exact step _ ih
  | call receiver method arguments dispatch hreceiver harguments =>
    exact step _ (List.forall_mem_append.mpr ⟨fun x hx => hreceiver x (Option.mem_toList.mp hx),
      harguments⟩)
  | new constructor arguments ih => exact step _ ih
  | load receiver field ih => exact step _ fun x hx => ih x (Option.mem_toList.mp hx)
  | store receiver field value hreceiver hvalue =>
    exact step _ (List.forall_mem_append.mpr
      ⟨fun x hx => hreceiver x (Option.mem_toList.mp hx), List.forall_mem_singleton.mpr hvalue⟩)
  | binary op left right hleft hright =>
    exact step _ (List.forall_mem_cons.mpr ⟨hleft, List.forall_mem_singleton.mpr hright⟩)
  | choose condition positive negative hcondition hpositive hnegative =>
    exact step _ (List.forall_mem_cons.mpr
      ⟨hcondition, List.forall_mem_cons.mpr ⟨hpositive, List.forall_mem_singleton.mpr hnegative⟩⟩)

/-- The first expression is the second one or occurs in it, at whatever depth. -/
inductive Occurs (n : Expr) : Expr → Prop
  | self : Occurs n n
  | inside {part whole : Expr} (hpart : part ∈ whole.parts) (h : Occurs n part) : Occurs n whole

/-- The walk over an expression comes to all that occurs in it, and to nothing else. -/
theorem mem_nodes_iff {n : Expr} (x : Expr) : n ∈ x.nodes ↔ n.Occurs x := by
  constructor
  · intro hn
    induction x using parts_induction with
    | step whole ih =>
      rw [nodes_eq_cons] at hn
      rcases List.mem_cons.mp hn with rfl | hn
      · exact .self
      · obtain ⟨part, hpart, hn⟩ := List.mem_flatMap.mp hn
        exact .inside hpart (ih part hpart hn)
  · intro hn
    induction hn with
    | self => exact n.mem_nodes_self
    | @inside part whole hpart _ ih =>
      rw [nodes_eq_cons]
      exact List.mem_cons_of_mem _ (List.mem_flatMap.mpr ⟨part, hpart, ih⟩)

/-- What the expression itself names has come out already. -/
def Resolves (e : Emitted) : Expr → Prop
  | call _ method _ _ => ∃ target, Lower.methodTarget e method = .ok target
  | new constructor _ => ∃ target, Lower.methodTarget e constructor = .ok target
  | load _ field => ∃ target, Lower.fieldTarget e field = .ok target
  | store _ field _ => ∃ target, Lower.fieldTarget e field = .ok target
  | _ => True

/-! ### Handles -/

/-- The method of a descriptor that the expression itself names. -/
def methodHandle? : Expr → Option MethodHandle
  | call _ (.draft h) _ _ => some h
  | new (.draft h) _ => some h
  | _ => none

/-- The field of a descriptor that the expression itself names. -/
def fieldHandle? : Expr → Option FieldHandle
  | load _ (.draft h) => some h
  | store _ (.draft h) _ => some h
  | _ => none

/-- A call or an instantiation somewhere in the expression names the method of a descriptor. -/
def NamesMethod (x : Expr) (h : MethodHandle) : Prop := ∃ n :
    Expr, n.Occurs x ∧ n.methodHandle? = some h

/-- An access somewhere in the expression names the field of a descriptor. -/
def NamesField (x : Expr) (h : FieldHandle) : Prop := ∃ n :
    Expr, n.Occurs x ∧ n.fieldHandle? = some h

theorem namesDraft_iff (n : Expr) : n.namesDraft = true ↔ (∃ h, n.methodHandle? = some h)
    ∨ ∃ h, n.fieldHandle? = some h := by
  cases n with
  | call receiver method arguments dispatch =>
    cases method <;> simp [namesDraft, methodHandle?, fieldHandle?, MethodTarget.isDraft]
  | new constructor arguments =>
    cases constructor <;> simp [namesDraft, methodHandle?, fieldHandle?, MethodTarget.isDraft]
  | load receiver field =>
    cases field <;> simp [namesDraft, methodHandle?, fieldHandle?, FieldTarget.isDraft]
  | store receiver field value =>
    cases field <;> simp [namesDraft, methodHandle?, fieldHandle?, FieldTarget.isDraft]
  | _ => simp [namesDraft, methodHandle?, fieldHandle?]

/-- An expression has references to descriptors just when something in it names a method or a
field of one. -/
theorem hasDraftReferences_iff (x : Expr) :
    x.hasDraftReferences = true ↔ (∃ h, x.NamesMethod h) ∨ ∃ h, x.NamesField h := by
  rw [hasDraftReferences, List.any_eq_true]
  constructor
  · rintro ⟨n, hn, hdraft⟩
    have hoccurs := (mem_nodes_iff x).mp hn
    rcases (namesDraft_iff n).mp hdraft with ⟨h, hh⟩ | ⟨h, hh⟩
    · exact .inl ⟨h, n, hoccurs, hh⟩
    · exact .inr ⟨h, n, hoccurs, hh⟩
  · rintro (⟨h, n, hoccurs, hh⟩ | ⟨h, n, hoccurs, hh⟩)
    · exact ⟨n, (mem_nodes_iff x).mpr hoccurs, (namesDraft_iff n).mpr (.inl ⟨h, hh⟩)⟩
    · exact ⟨n, (mem_nodes_iff x).mpr hoccurs, (namesDraft_iff n).mpr (.inr ⟨h, hh⟩)⟩

/-! ### Other targets -/

section Retarget

variable (method : MethodTarget → MethodTarget) (field : FieldTarget → FieldTarget)

mutual

/-- The same expression with other targets of calls, instantiations and accesses. -/
def retarget : Expr → Expr
  | constant value => constant value
  | this => this
  | argument index => argument index
  | block items => block (retargetAll items)
  | call receiver target arguments dispatch =>
    call (retargetOpt receiver) (method target) (retargetAll arguments) dispatch
  | new target arguments => new (method target) (retargetAll arguments)
  | load receiver target => load (retargetOpt receiver) (field target)
  | store receiver target value => store (retargetOpt receiver) (field target) (retarget value)
  | binary op left right => binary op (retarget left) (retarget right)
  | choose condition positive negative =>
    choose (retarget condition) (retarget positive) (retarget negative)

def retargetAll : List Expr → List Expr
  | [] => []
  | item :: items => retarget item :: retargetAll items

def retargetOpt : Option Expr → Option Expr
  | none => none
  | some item => some (retarget item)

end

theorem retargetAll_eq_map (items : List Expr) :
    retargetAll method field items = items.map (retarget method field) := by
  induction items with
  | nil => rfl
  | cons item items ih => rw [retargetAll, ih, List.map_cons]

theorem parts_retarget (x : Expr) :
    (x.retarget method field).parts = x.parts.map (retarget method field) := by
  cases x with
  | call receiver _ _ _ =>
    cases receiver <;> simp [retarget, parts, retargetAll_eq_map, retargetOpt]
  | load receiver _ => cases receiver <;> simp [retarget, parts, retargetOpt]
  | store receiver _ _ => cases receiver <;> simp [retarget, parts, retargetOpt]
  | _ => simp [retarget, parts, retargetAll_eq_map]

theorem nodes_retarget (x : Expr) :
    (x.retarget method field).nodes = x.nodes.map (retarget method field) := by
  induction x using parts_induction with
  | step whole ih =>
    rw [nodes_eq_cons, nodes_eq_cons whole, List.map_cons, parts_retarget, List.flatMap_map,
      List.map_flatMap]
    exact congrArg _ (List.flatMap_congr ih)

end Retarget

theorem retargetAll_eq_self {items : List Expr} (h : ∀ x ∈ items, x.retarget id id = x) :
    retargetAll id id items = items := by
  rw [retargetAll_eq_map, List.map_congr_left h, List.map_id']

theorem retargetOpt_eq_self {item : Option Expr} (h : ∀ x ∈ item.toList, x.retarget id id = x) :
    retargetOpt id id item = item := by
  cases item with
  | none => rfl
  | some x => exact congrArg some (h x List.mem_cons_self)

theorem retarget_id (x : Expr) : x.retarget id id = x := by
  induction x using parts_induction with
  | step whole ih =>
    cases whole with
    | constant value => rfl
    | this => rfl
    | argument index => rfl
    | block items => exact congrArg block (retargetAll_eq_self ih)
    | call receiver target arguments dispatch =>
      obtain ⟨hreceiver, harguments⟩ := List.forall_mem_append.mp ih
      rw [retarget, retargetOpt_eq_self hreceiver, retargetAll_eq_self harguments, id]
    | new target arguments => exact congrArg (new target) (retargetAll_eq_self ih)
    | load receiver target => exact congrArg (load · target) (retargetOpt_eq_self ih)
    | store receiver target value =>
      obtain ⟨hreceiver, hvalue⟩ := List.forall_mem_append.mp ih
      rw [retarget, retargetOpt_eq_self hreceiver, List.forall_mem_singleton.mp hvalue, id]
    | binary op left right =>
      obtain ⟨hleft, hright⟩ := List.forall_mem_cons.mp ih
      rw [retarget, hleft, List.forall_mem_singleton.mp hright]
    | choose condition positive negative =>
      obtain ⟨hcondition, hbranches⟩ := List.forall_mem_cons.mp ih
      obtain ⟨hpositive, hnegative⟩ := List.forall_mem_cons.mp hbranches
      rw [retarget, hcondition, hpositive, List.forall_mem_singleton.mp hnegative]

end Expr

namespace Emitted

/-- What a method stands for once members have come out: handles with a row become what came out
of them. -/
def methodFor (e : Emitted) : MethodTarget → MethodTarget
  | .member m => .member m
  | .draft h => ((e.methods.find? h).map .member).getD (.draft h)

/-- What a field stands for once members have come out. -/
def fieldFor (e : Emitted) : FieldTarget → FieldTarget
  | .member f => .member f
  | .draft h => ((e.fields.find? h).map .member).getD (.draft h)

end Emitted

namespace Lower

variable {e : Emitted}

/-! ### Rows -/

theorem methodTarget_draft_iff {h : MethodHandle} :
    (∃ t, methodTarget e (.draft h) = .ok t) ↔ ∃ m, e.methods.find? h = some m := by
  rw [methodTarget, Emitted.method, Emitted.require]
  cases e.methods.find? h <;> simp [Except.map]

theorem fieldTarget_draft_iff {h : FieldHandle} :
    (∃ t, fieldTarget e (.draft h) = .ok t) ↔ ∃ f, e.fields.find? h = some f := by
  rw [fieldTarget, Emitted.field, Emitted.require]
  cases e.fields.find? h <;> simp [Except.map]

theorem methodTarget_eq {t : MethodTarget} (h : ∃ t', methodTarget e t = .ok t') :
    methodTarget e t = .ok (e.methodFor t) := by
  cases t with
  | member m => rfl
  | draft handle =>
    obtain ⟨m, hm⟩ := methodTarget_draft_iff.mp h
    simp only [methodTarget, Emitted.method, Emitted.require, Emitted.methodFor, hm]
    rfl

theorem fieldTarget_eq {t : FieldTarget} (h : ∃ t', fieldTarget e t = .ok t') :
    fieldTarget e t = .ok (e.fieldFor t) := by
  cases t with
  | member f => rfl
  | draft handle =>
    obtain ⟨f, hf⟩ := fieldTarget_draft_iff.mp h
    simp only [fieldTarget, Emitted.field, Emitted.require, Emitted.fieldFor, hf]
    rfl

theorem isDraft_methodFor {t : MethodTarget} (h : ∃ t', methodTarget e t = .ok t') :
    (e.methodFor t).isDraft = false := by
  cases t with
  | member m => rfl
  | draft handle =>
    obtain ⟨m, hm⟩ := methodTarget_draft_iff.mp h
    rw [Emitted.methodFor, hm]
    rfl

theorem isDraft_fieldFor {t : FieldTarget} (h : ∃ t', fieldTarget e t = .ok t') :
    (e.fieldFor t).isDraft = false := by
  cases t with
  | member f => rfl
  | draft handle =>
    obtain ⟨f, hf⟩ := fieldTarget_draft_iff.mp h
    rw [Emitted.fieldFor, hf]
    rfl

/-- What an expression itself names has come out just when its handle, if it is one, has a row. -/
theorem resolves_iff (n : Expr) : n.Resolves e ↔
    (∀ h, n.methodHandle? = some h → ∃ m, e.methods.find? h = some m)
      ∧ ∀ h, n.fieldHandle? = some h → ∃ f, e.fields.find? h = some f := by
  cases n with
  | call receiver method arguments dispatch =>
    cases method with
    | member m => simp [Expr.Resolves, Expr.methodHandle?, Expr.fieldHandle?, methodTarget]
    | draft h => simp [Expr.Resolves, Expr.methodHandle?, Expr.fieldHandle?, methodTarget_draft_iff]
  | new constructor arguments =>
    cases constructor with
    | member m => simp [Expr.Resolves, Expr.methodHandle?, Expr.fieldHandle?, methodTarget]
    | draft h => simp [Expr.Resolves, Expr.methodHandle?, Expr.fieldHandle?, methodTarget_draft_iff]
  | load receiver field =>
    cases field with
    | member f => simp [Expr.Resolves, Expr.methodHandle?, Expr.fieldHandle?, fieldTarget]
    | draft h => simp [Expr.Resolves, Expr.methodHandle?, Expr.fieldHandle?, fieldTarget_draft_iff]
  | store receiver field value =>
    cases field with
    | member f => simp [Expr.Resolves, Expr.methodHandle?, Expr.fieldHandle?, fieldTarget]
    | draft h => simp [Expr.Resolves, Expr.methodHandle?, Expr.fieldHandle?, fieldTarget_draft_iff]
  | _ => simp [Expr.Resolves, Expr.methodHandle?, Expr.fieldHandle?]

/-! ### Attempts -/

theorem exprAll_eq_mapM (e : Emitted) (items : List Expr) :
    exprAll e items = items.mapM (expr e) := by
  induction items with
  | nil => rfl
  | cons item items ih => rw [exprAll, ih, List.mapM_cons]

theorem exists_expr_of_exprAll {items ys : List Expr} (h : exprAll e items = .ok ys) :
    ∀ x ∈ items, ∃ y, expr e x = .ok y := by
  intro x hx
  rw [exprAll_eq_mapM] at h
  obtain ⟨y, -, hy⟩ := exists_mem_of_mapM h hx
  exact ⟨y, hy⟩

theorem exists_expr_of_exprOpt {item r : Option Expr} (h : exprOpt e item = .ok r) :
    ∀ x ∈ item.toList, ∃ y, expr e x = .ok y := by
  cases item with
  | none => exact List.forall_mem_nil _
  | some x =>
    obtain ⟨y, hy, -⟩ := bind_eq_ok.mp h
    exact List.forall_mem_singleton.mpr ⟨y, hy⟩

/-- Where an expression is lowered, so are those inside, and what it names has come out. -/
theorem parts_of_lowered {whole y : Expr} (h : expr e whole = .ok y) :
    whole.Resolves e ∧ ∀ part ∈ whole.parts, ∃ z, expr e part = .ok z := by
  cases whole with
  | constant value => exact ⟨trivial, List.forall_mem_nil _⟩
  | this => exact ⟨trivial, List.forall_mem_nil _⟩
  | argument index => exact ⟨trivial, List.forall_mem_nil _⟩
  | block items =>
    obtain ⟨vs, hvs, -⟩ := bind_eq_ok.mp h
    exact ⟨trivial, exists_expr_of_exprAll hvs⟩
  | call receiver method arguments dispatch =>
    obtain ⟨r, hr, h⟩ := bind_eq_ok.mp h
    obtain ⟨m, hm, h⟩ := bind_eq_ok.mp h
    obtain ⟨vs, hvs, -⟩ := bind_eq_ok.mp h
    exact ⟨⟨m, hm⟩, List.forall_mem_append.mpr ⟨exists_expr_of_exprOpt hr,
      exists_expr_of_exprAll hvs⟩⟩
  | new constructor arguments =>
    obtain ⟨m, hm, h⟩ := bind_eq_ok.mp h
    obtain ⟨vs, hvs, -⟩ := bind_eq_ok.mp h
    exact ⟨⟨m, hm⟩, exists_expr_of_exprAll hvs⟩
  | load receiver field =>
    obtain ⟨r, hr, h⟩ := bind_eq_ok.mp h
    obtain ⟨f, hf, -⟩ := bind_eq_ok.mp h
    exact ⟨⟨f, hf⟩, exists_expr_of_exprOpt hr⟩
  | store receiver field value =>
    obtain ⟨r, hr, h⟩ := bind_eq_ok.mp h
    obtain ⟨f, hf, h⟩ := bind_eq_ok.mp h
    obtain ⟨v, hv, -⟩ := bind_eq_ok.mp h
    exact ⟨⟨f, hf⟩, List.forall_mem_append.mpr ⟨exists_expr_of_exprOpt hr,
      List.forall_mem_singleton.mpr ⟨v, hv⟩⟩⟩
  | binary op left right =>
    obtain ⟨a, ha, h⟩ := bind_eq_ok.mp h
    obtain ⟨b, hb, -⟩ := bind_eq_ok.mp h
    exact ⟨trivial, List.forall_mem_cons.mpr ⟨⟨a, ha⟩, List.forall_mem_singleton.mpr ⟨b, hb⟩⟩⟩
  | choose condition positive negative =>
    obtain ⟨c, hc, h⟩ := bind_eq_ok.mp h
    obtain ⟨a, ha, h⟩ := bind_eq_ok.mp h
    obtain ⟨b, hb, -⟩ := bind_eq_ok.mp h
    exact ⟨trivial, List.forall_mem_cons.mpr
      ⟨⟨c, hc⟩, List.forall_mem_cons.mpr ⟨⟨a, ha⟩, List.forall_mem_singleton.mpr ⟨b, hb⟩⟩⟩⟩

/-! ### Results -/

section Result

variable {method : MethodTarget → MethodTarget} {field : FieldTarget → FieldTarget}

theorem exprAll_eq_retargetAll (items : List Expr)
    (h : ∀ x ∈ items, expr e x = .ok (x.retarget method field)) :
    exprAll e items = .ok (Expr.retargetAll method field items) := by
  induction items with
  | nil => rfl
  | cons item items ih =>
    obtain ⟨hitem, hitems⟩ := List.forall_mem_cons.mp h
    rw [exprAll, hitem, ih hitems]
    rfl

theorem exprOpt_eq_retargetOpt (item : Option Expr)
    (h : ∀ x ∈ item.toList, expr e x = .ok (x.retarget method field)) :
    exprOpt e item = .ok (Expr.retargetOpt method field item) := by
  cases item with
  | none => rfl
  | some item =>
    rw [exprOpt, h item (by simp)]
    rfl

/-- What the expression itself names becomes what the functions say. -/
def Becomes (e : Emitted) (method : MethodTarget → MethodTarget)
    (field : FieldTarget → FieldTarget) : Expr → Prop
  | .call _ t _ _ => methodTarget e t = .ok (method t)
  | .new t _ => methodTarget e t = .ok (method t)
  | .load _ t => fieldTarget e t = .ok (field t)
  | .store _ t _ => fieldTarget e t = .ok (field t)
  | _ => True

/-- When each target becomes what the functions say, lowering gives the expression with these
targets. -/
theorem expr_eq_retarget {x : Expr} (h : ∀ n ∈ x.nodes, Becomes e method field n) :
    expr e x = .ok (x.retarget method field) := by
  induction x using Expr.parts_induction with
  | step whole ih =>
    rw [Expr.nodes_eq_cons, List.forall_mem_cons, List.forall_mem_flatMap] at h
    obtain ⟨hself, hinside⟩ := h
    have hparts : ∀ part ∈ whole.parts, expr e part = .ok (part.retarget method field) :=
      fun part hpart => ih part hpart (hinside part hpart)
    cases whole with
    | constant value => rfl
    | this => rfl
    | argument index => rfl
    | block items =>
      rw [expr, exprAll_eq_retargetAll items hparts]
      rfl
    | call receiver t arguments dispatch =>
      obtain ⟨hreceiver, harguments⟩ := List.forall_mem_append.mp hparts
      rw [expr, exprOpt_eq_retargetOpt receiver hreceiver, show methodTarget e t = _ from hself,
        exprAll_eq_retargetAll arguments harguments]
      rfl
    | new t arguments =>
      rw [expr, show methodTarget e t = _ from hself, exprAll_eq_retargetAll arguments hparts]
      rfl
    | load receiver t =>
      rw [expr, exprOpt_eq_retargetOpt receiver hparts, show fieldTarget e t = _ from hself]
      rfl
    | store receiver t value =>
      obtain ⟨hreceiver, hvalue⟩ := List.forall_mem_append.mp hparts
      rw [expr, exprOpt_eq_retargetOpt receiver hreceiver, show fieldTarget e t = _ from hself,
        List.forall_mem_singleton.mp hvalue]
      rfl
    | binary op left right =>
      obtain ⟨hleft, hright⟩ := List.forall_mem_cons.mp hparts
      rw [expr, hleft, List.forall_mem_singleton.mp hright]
      rfl
    | choose condition positive negative =>
      obtain ⟨hcondition, hbranches⟩ := List.forall_mem_cons.mp hparts
      obtain ⟨hpositive, hnegative⟩ := List.forall_mem_cons.mp hbranches
      rw [expr, hcondition, hpositive, List.forall_mem_singleton.mp hnegative]
      rfl

end Result

theorem becomes_of_resolves {n : Expr} (h : n.Resolves e) : Becomes e e.methodFor e.fieldFor n := by
  cases n with
  | call receiver t arguments dispatch => exact methodTarget_eq h
  | new t arguments => exact methodTarget_eq h
  | load receiver t => exact fieldTarget_eq h
  | store receiver t value => exact fieldTarget_eq h
  | _ => trivial

/-- Lowering an expression succeeds just when all expressions inside name what has come out. -/
theorem exists_expr_iff (x : Expr) : (∃ y, expr e x = .ok y) ↔ ∀ n ∈ x.nodes, n.Resolves e := by
  refine ⟨fun hlowered => ?_, fun h =>
    ⟨_, expr_eq_retarget fun n hn => becomes_of_resolves (h n hn)⟩⟩
  induction x using Expr.parts_induction with
  | step whole ih =>
    obtain ⟨y, hy⟩ := hlowered
    obtain ⟨hself, hparts⟩ := parts_of_lowered hy
    rw [Expr.nodes_eq_cons, List.forall_mem_cons, List.forall_mem_flatMap]
    exact ⟨hself, fun part hpart => ih part hpart (hparts part hpart)⟩

theorem exists_expr_iff_named (x : Expr) : (∃ y, expr e x = .ok y) ↔
    (∀ h, x.NamesMethod h → ∃ m, e.methods.find? h = some m) ∧ ∀ h, x.NamesField h →
    ∃ f, e.fields.find? h = some f := by
  rw [exists_expr_iff]
  constructor
  · intro hnodes
    have hrow := fun n (hn : n.Occurs x) =>
      (resolves_iff n).mp (hnodes n ((Expr.mem_nodes_iff x).mpr hn))
    exact ⟨fun h ⟨n, hn, hh⟩ => (hrow n hn).1 h hh, fun h ⟨n, hn, hh⟩ => (hrow n hn).2 h hh⟩
  · intro ⟨hmethods, hfields⟩ n hn
    have hoccurs := (Expr.mem_nodes_iff x).mp hn
    exact (resolves_iff n).mpr ⟨fun h hh => hmethods h ⟨n, hoccurs, hh⟩, fun h hh =>
      hfields h ⟨n, hoccurs, hh⟩⟩

theorem eq_retarget_of_lowered {x y : Expr} (h : expr e x = .ok y) :
    y = x.retarget e.methodFor e.fieldFor := by
  have hresolves := (exists_expr_iff x).mp ⟨y, h⟩
  exact Except.ok.inj (h.symm.trans (expr_eq_retarget fun n hn =>
    becomes_of_resolves (hresolves n hn)))

theorem namesDraft_retarget {n : Expr} (h : n.Resolves e) :
    (n.retarget e.methodFor e.fieldFor).namesDraft = false := by
  cases n with
  | call receiver t arguments dispatch => exact isDraft_methodFor h
  | new t arguments => exact isDraft_methodFor h
  | load receiver t => exact isDraft_fieldFor h
  | store receiver t value => exact isDraft_fieldFor h
  | _ => rfl

theorem hasDraftReferences_of_lowered {x y : Expr} (h : expr e x = .ok y) :
    y.hasDraftReferences = false := by
  rw [Expr.hasDraftReferences, eq_retarget_of_lowered h, Expr.nodes_retarget, List.any_eq_false]
  intro n' hn'
  obtain ⟨n, hn, rfl⟩ := List.mem_map.mp hn'
  exact Bool.eq_false_iff.mp (namesDraft_retarget ((exists_expr_iff x).mp ⟨y, h⟩ n hn))

/-- An expression without references to descriptors is lowered to itself, whatever has come out. -/
theorem expr_of_not_hasDraftReferences {x : Expr} (h : x.hasDraftReferences = false) :
    expr e x = .ok x := by
  have hbecomes : ∀ n ∈ x.nodes, Becomes e id id n := by
    intro n hn
    have hdraft : n.namesDraft = false := Bool.eq_false_iff.mpr (List.any_eq_false.mp h n hn)
    cases n with
    | call receiver t arguments dispatch => cases t with | member m => rfl | draft h => cases hdraft
    | new t arguments => cases t with | member m => rfl | draft h => cases hdraft
    | load receiver t => cases t with | member f => rfl | draft h => cases hdraft
    | store receiver t value => cases t with | member f => rfl | draft h => cases hdraft
    | _ => trivial
  rw [expr_eq_retarget hbecomes, Expr.retarget_id]

/-- Lowering succeeds just when each handle in the expression has a row, wherever it stands;
having references to descriptors means that a handle stands somewhere. What comes out is the same
expression with members of the program in place of the handles, and no row of any batch changes
it again. -/
theorem expr_substitutes (e : Emitted) (x : Expr) :
    ((∃ y, expr e x = .ok y) ↔
        (∀ h, x.NamesMethod h → ∃ m, e.methods.find? h = some m) ∧ ∀ h, x.NamesField h →
        ∃ f, e.fields.find? h = some f)
      ∧ (x.hasDraftReferences = true ↔ (∃ h, x.NamesMethod h) ∨ ∃ h, x.NamesField h)
      ∧ ∀ y, expr e x = .ok y →
        y = x.retarget e.methodFor e.fieldFor
          ∧ y.nodes = x.nodes.map (Expr.retarget e.methodFor e.fieldFor)
          ∧ y.hasDraftReferences = false
          ∧ ∀ other, expr other y = .ok y := by
  refine ⟨exists_expr_iff_named x, x.hasDraftReferences_iff, fun y hy => ?_⟩
  have hreplaced := eq_retarget_of_lowered hy
  have hnone := hasDraftReferences_of_lowered hy
  refine ⟨hreplaced, ?_, hnone, fun other => expr_of_not_hasDraftReferences hnone⟩
  rw [hreplaced, Expr.nodes_retarget]

/-- A field of a descriptor is set, under a condition, to what a method of it answers. -/
def guardedStore : Expr :=
  .choose (.binary .equal (.argument 0) (.constant (.i4 7)))
    (.storeThis (.draft ⟨⟨0⟩, 1⟩)
      (.block [.call (some .this) (.draft ⟨⟨0⟩, .method 2⟩) [.argument 1] .virtual]))
    .empty

/-- The field and the method have come out. -/
def guardedRows : Emitted :=
  { fields := [(⟨⟨0⟩, 1⟩, ⟨⟨5⟩, 1⟩)], methods := [(⟨⟨0⟩, .method 2⟩, ⟨⟨5⟩, .method 3⟩)] }

/-- Both handles are replaced, and nothing is left to be replaced. -/
theorem expr_substitutes_guarded :
    expr guardedRows guardedStore
    = .ok (guardedStore.retarget guardedRows.methodFor guardedRows.fieldFor)
      ∧ ∀ other, expr other (guardedStore.retarget guardedRows.methodFor guardedRows.fieldFor)
        = .ok (guardedStore.retarget guardedRows.methodFor guardedRows.fieldFor) := by
  have hlowered : expr guardedRows guardedStore
    = .ok (guardedStore.retarget guardedRows.methodFor guardedRows.fieldFor) := rfl
  exact ⟨hlowered, ((expr_substitutes guardedRows guardedStore).2.2 _ hlowered).2.2.2⟩

end Lower

end TypeLoom
