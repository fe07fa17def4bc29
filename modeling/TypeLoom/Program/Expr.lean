import TypeLoom.Program.Value

/-!
# Expressions

Bodies of methods. Calls and field accesses name a member of the program or, before generation, a
member of a descriptor.
-/

namespace TypeLoom

/-- The method that a call or an instantiation names. -/
inductive MethodTarget
  | member (method : MethodId)
  | draft (handle : MethodHandle)
  deriving DecidableEq, Repr, Inhabited

inductive FieldTarget
  | member (field : FieldId)
  | draft (handle : FieldHandle)
  deriving DecidableEq, Repr, Inhabited

def MethodTarget.isDraft : MethodTarget → Bool
  | draft _ => true
  | member _ => false

def FieldTarget.isDraft : FieldTarget → Bool
  | draft _ => true
  | member _ => false

/-- Whether a call looks for the most derived override. -/
inductive Dispatch
  | virtual
  | nonVirtual
  deriving DecidableEq, Repr, Inhabited

namespace Dispatch

def text : Dispatch → String
  | virtual => "Virtual"
  | nonVirtual => "NonVirtual"

def ofText? (name : String) : Option Dispatch := [virtual, nonVirtual].find? (·.text == name)

theorem ofText?_text (dispatch : Dispatch) : ofText? dispatch.text = some dispatch := by
  cases dispatch <;> rfl

end Dispatch

/-- The operators on two values. -/
inductive Operator
  | add
  | subtract
  | multiply
  | concat
  | equal
  deriving DecidableEq, Repr, Inhabited

namespace Operator

def text : Operator → String
  | add => "Add"
  | subtract => "Subtract"
  | multiply => "Multiply"
  | concat => "Concat"
  | equal => "Equal"

def ofText? (name : String) : Option Operator :=
  [add, subtract, multiply, concat, equal].find? (·.text == name)

theorem ofText?_text (op : Operator) : ofText? op.text = some op := by
  cases op <;> rfl

end Operator

/-- Bodies of methods. -/
inductive Expr
  | constant (value : Value)
  | this
  | argument (index : UInt16)
  | block (items : List Expr)
  | call (receiver : Option Expr) (method : MethodTarget) (arguments : List Expr)
    (dispatch : Dispatch)
  | new (constructor : MethodTarget) (arguments : List Expr)
  | load (receiver : Option Expr) (field : FieldTarget)
  | store (receiver : Option Expr) (field : FieldTarget) (value : Expr)
  | binary (op : Operator) (left right : Expr)
  | choose (condition positive negative : Expr)
  deriving Repr, Inhabited

namespace Expr

def empty : Expr := block []

/-- The arguments of the running method, as many as told; places beyond sixteen bits stay at the
last. -/
def forwardArguments (arity : Nat) : List Expr :=
  (List.range arity).map fun index => argument (if index < 65536 then index.toUInt16 else 65535)

def callBase (receiver : Expr) (method : MethodTarget) (arguments : List Expr) : Expr :=
  call (some receiver) method arguments .nonVirtual

def loadThis (field : FieldTarget) : Expr := load (some this) field

def storeThis (field : FieldTarget) (value : Expr) : Expr := store (some this) field value

def storeStatic (field : FieldTarget) (value : Expr) : Expr := store none field value

/-- Induction over an expression: what holds of the expressions directly inside one holds of it. -/
theorem induction {motive : Expr → Prop} (constant : ∀ value, motive (.constant value))
    (this : motive .this) (argument : ∀ index, motive (.argument index))
    (block : ∀ items, (∀ e ∈ items, motive e) → motive (.block items))
    (call : ∀ receiver method arguments dispatch, (∀ e ∈ receiver, motive e) →
      (∀ e ∈ arguments, motive e) →
      motive (.call receiver method arguments dispatch))
    (new : ∀ constructor arguments, (∀ e ∈ arguments, motive e) →
      motive (.new constructor arguments))
    (load : ∀ receiver field, (∀ e ∈ receiver, motive e) → motive (.load receiver field))
    (store : ∀ receiver field value, (∀ e ∈ receiver, motive e) → motive value →
      motive (.store receiver field value))
    (binary : ∀ op left right, motive left → motive right → motive (.binary op left right))
    (choose : ∀ condition positive negative, motive condition → motive positive → motive negative →
      motive (.choose condition positive negative)) (e : Expr) : motive e := by
  refine @Expr.rec motive (fun items => ∀ e ∈ items, motive e) (fun receiver =>
    ∀ e ∈ receiver, motive e)
    constant this argument block call new load store binary choose ?_ ?_ ?_ ?_ e
  · exact fun _ h => absurd h List.not_mem_nil
  · exact fun _ _ he hes => List.forall_mem_cons.mpr ⟨he, hes⟩
  · intro e h
    cases h
  · intro receiver hreceiver e h
    cases h
    exact hreceiver

/-! ### All expressions inside an expression -/

mutual

/-- The expression and all inside it; an expression comes before its parts, the parts in order. -/
def nodes : Expr → List Expr
  | constant value => [constant value]
  | this => [this]
  | argument index => [argument index]
  | block items => block items :: nodesAll items
  | call receiver method arguments dispatch =>
    call receiver method arguments dispatch :: (nodesOpt receiver ++ nodesAll arguments)
  | new constructor arguments => new constructor arguments :: nodesAll arguments
  | load receiver field => load receiver field :: nodesOpt receiver
  | store receiver field value => store receiver field value :: (nodesOpt receiver ++ nodes value)
  | binary op left right => binary op left right :: (nodes left ++ nodes right)
  | choose condition positive negative =>
    choose condition positive negative :: (nodes condition ++ nodes positive ++ nodes negative)

def nodesAll : List Expr → List Expr
  | [] => []
  | item :: items => nodes item ++ nodesAll items

def nodesOpt : Option Expr → List Expr
  | none => []
  | some item => nodes item

end

def namesDraft : Expr → Bool
  | call _ method _ _ => method.isDraft
  | new constructor _ => constructor.isDraft
  | load _ field => field.isDraft
  | store _ field _ => field.isDraft
  | _ => false

def hasDraftReferences (e : Expr) : Bool := e.nodes.any namesDraft

theorem mem_nodes_self (e : Expr) : e ∈ e.nodes := by
  cases e <;> simp [nodes]

theorem nodesAll_eq_flatMap (items : List Expr) : nodesAll items = items.flatMap nodes := by
  induction items with
  | nil => rfl
  | cons item items ih => rw [nodesAll, ih, List.flatMap_cons]

theorem nodesOpt_eq_flatMap (item : Option Expr) : nodesOpt item = item.toList.flatMap nodes := by
  cases item with
  | none => rfl
  | some item => simp [nodesOpt]

theorem mem_nodesAll {e n : Expr} {items : List Expr} (he : e ∈ items) (hn : n ∈ e.nodes) :
    n ∈ nodesAll items := by
  rw [nodesAll_eq_flatMap]
  exact List.mem_flatMap.mpr ⟨e, he, hn⟩

theorem mem_nodesOpt {e n : Expr} {item : Option Expr} (he : e ∈ item) (hn : n ∈ e.nodes) :
    n ∈ nodesOpt item := by
  rw [nodesOpt_eq_flatMap]
  exact List.mem_flatMap.mpr ⟨e, Option.mem_toList.mpr he, hn⟩

end Expr

end TypeLoom
