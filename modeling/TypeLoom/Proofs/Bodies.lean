import TypeLoom.Artifact.Decode
import TypeLoom.Proofs.References

/-!
# Bodies read back

A value, an expression or an attribute that was written, and is read in another universe, is written
as the same element there. Two things are taken for granted of what was written, and can be seen in
it: doubles read back as doubles with the same text, and references to a type initializer pass no
parameters.
-/

namespace TypeLoom

theorem Part.induction {motive : Part → Prop} (bool : ∀ value, motive (.bool value))
    (int : ∀ value, motive (.int value)) (text : ∀ value, motive (.text value))
    (list : ∀ items, (∀ p ∈ items, motive p) → motive (.list items)) (p : Part) : motive p :=
  @Part.rec motive (fun items => ∀ p ∈ items, motive p) bool int text list (fun _ h =>
    absurd h List.not_mem_nil)
    (fun _ _ hp hps => List.forall_mem_cons.mpr ⟨hp, hps⟩) p

namespace Artifact

open Markup

/-! ### What reading cannot lose -/

/-- Reading the text as a double gives a double with this text. -/
def readsBack (text : String) : Bool := (Decimal.double? text).map Decimal.doubleText == some text

/-- An element for a double reads back, and a reference to a type initializer is one without
parameters. -/
def isExact (n : Node) : Bool :=
  (n.get? "kind" != some "float64" || (n.get? "value").all readsBack) &&
    (n.get? "name" != some ".cctor" || (n.get? "params").all (· == ""))

mutual

/-- The same of all elements of a tree. -/
def exactTree : Node → Bool
  | .element name attributes children =>
    isExact (.element name attributes children) && exactTrees children

def exactTrees : List Node → Bool
  | [] => true
  | n :: ns => exactTree n && exactTrees ns

end

theorem exactTrees_iff {ns : List Node} : exactTrees ns = true ↔ ∀ n ∈ ns, exactTree n = true := by
  induction ns with
  | nil => simp [exactTrees]
  | cons n ns ih => simp [exactTrees, ih]

theorem exactTree_iff {n : Node} : exactTree n = true ↔ isExact n = true ∧ ∀ c ∈ n.children,
    exactTree c = true := by
  cases n with
  | element name attributes children =>
    rw [exactTree, Bool.and_eq_true, exactTrees_iff]
    rfl

theorem readsBack_of_exactTree {n : Node} {text : String} (h : exactTree n = true)
    (hkind : n.get? "kind" = some "float64") (hvalue : n.get? "value" = some text) :
    readsBack text = true := by
  have hexact := (exactTree_iff.mp h).1
  rw [isExact, hkind, hvalue, Bool.and_eq_true] at hexact
  simpa using hexact.1

theorem params_of_exactTree {n : Node} {name params : String} (h : exactTree n = true)
    (hname : n.get? "name" = some name) (hparams : n.get? "params" = some params)
    (hinitializer : name = ".cctor") : params = "" := by
  have hexact := (exactTree_iff.mp h).1
  rw [isExact, hname, hparams, hinitializer, Bool.and_eq_true] at hexact
  simpa using hexact.2

/-! ### Parts of identifiers -/

theorem decodeParts_encodeParts {items : List Part}
    (h : ∀ p ∈ items, decodePart (encodePart p) = .ok (some p)) :
    decodeParts (encodeParts items) = .ok items := by
  induction items with
  | nil => rfl
  | cons p items ih =>
    obtain ⟨hp, hitems⟩ := List.forall_mem_cons.mp h
    have hname : (encodePart p).name = "part" := by cases p <;> rfl
    rw [encodeParts, decodeParts, if_pos hname, hp, ok_bind]
    show (do return p :: (← decodeParts (encodeParts items))) = _
    rw [ih hitems]
    rfl

theorem readAttribute_partNode {α : Type} {read : String → Option α} {value : α}
    {kind text : String} (h : read text = some value) :
    readAttribute (partNode kind text) "value" read = .ok value :=
  readAttribute_of_get? rfl h

theorem decodePart_encodePart (p : Part) : decodePart (encodePart p) = .ok (some p) := by
  induction p using Part.induction with
  | bool value =>
    show (do return some (Part.bool (← readAttribute (partNode "bool" (boolText value)) "value"
      Decimal.boolean?))) = _
    rw [readAttribute_partNode (Decimal.boolean?_boolText value)]
    rfl
  | int value =>
    show (do return some (Part.int (← readAttribute (partNode "int" (toString value.toInt)) "value"
      readInt64))) = _
    rw [readAttribute_partNode (readInt64_toString value)]
    rfl
  | text value => rfl
  | list items ih =>
    show (do return some (Part.list (← decodeParts ([] ++ encodeParts items)))) = _
    rw [List.nil_append, decodeParts_encodeParts ih]
    rfl

theorem decodePart_encodePart? (p : Option Part) : decodePart (encodePart? p) = .ok p := by
  cases p with
  | none => rfl
  | some p => exact decodePart_encodePart p

theorem name_of_encodePart? (p : Option Part) : (encodePart? p).name = "part" := by
  cases p with
  | none => rfl
  | some p => cases p <;> rfl

theorem mapM_decodePart (parts : List (Option Part)) :
    (parts.map encodePart?).mapM decodePart = .ok parts := by
  induction parts with
  | nil => rfl
  | cons p parts ih => exact mapM_cons_eq_ok.mpr ⟨p, parts, decodePart_encodePart? p, ih, rfl⟩

/-! ### Values -/

variable {s : Scope} {first : Nat} {u₀ u : Universe} {n : Node}

theorem name_of_encodeValue {v : Value} (hn : encodeValue u₀ v = .ok n) : n.name = "value" := by
  cases v <;> cases hn <;> rfl

theorem requireChild_value {name : String} {attributes : List (String × String)} {v : Value}
    (hn : encodeValue u₀ v = .ok n) :
    Node.requireChild (.element name attributes [n]) "value" = .ok n := by
  simp [Node.requireChild, Node.childNamed?, Node.children, name_of_encodeValue hn]

theorem readAttribute_valueNode {α : Type} {read : String → Option α} {value : α}
    {kind text : String} (h : read text = some value) :
    readAttribute ((valueNode kind).attr "value" text) "value" read = .ok value :=
  readAttribute_of_get? rfl h

section Printing

variable (h : s.Ready first) (hu : s.program.Extends u)
include h hu

theorem encodeValue_of_decodeValue {v₀ v : Value} (hn : encodeValue u₀ v₀ = .ok n)
    (hexact : exactTree n = true) (hv : decodeValue s n = .ok v) : encodeValue u v = .ok n := by
  cases v₀ with
  | void =>
    cases hn
    cases hv
    rfl
  | null =>
    cases hn
    cases hv
    rfl
  | boolean value =>
    cases hn
    change (do return Value.boolean (← readAttribute _ "value" Decimal.boolean?)) = _ at hv
    rw [readAttribute_valueNode (Decimal.boolean?_boolText value)] at hv
    cases hv
    rfl
  | i4 value =>
    cases hn
    change (do return Value.i4 (← readAttribute _ "value" readInt32)) = _ at hv
    rw [readAttribute_valueNode (readInt32_toString value)] at hv
    cases hv
    rfl
  | i8 value =>
    cases hn
    change (do return Value.i8 (← readAttribute _ "value" readInt64)) = _ at hv
    rw [readAttribute_valueNode (readInt64_toString value)] at hv
    cases hv
    rfl
  | r8 value =>
    cases hn
    have hreads : readsBack (Decimal.doubleText value) = true :=
      readsBack_of_exactTree hexact rfl rfl
    rw [readsBack, beq_iff_eq, Option.map_eq_some_iff] at hreads
    obtain ⟨read, hread, htext⟩ := hreads
    change (do return Value.r8 (← readAttribute _ "value" Decimal.double?)) = _ at hv
    rw [readAttribute_valueNode hread] at hv
    cases hv
    rw [encodeValue, htext]
  | string value =>
    cases hn
    cases hv
    rfl
  | object reference => cases hn
  | type t =>
    cases hn
    change (do return Value.type (← s.type (u₀.fullName t))) = _ at hv
    obtain ⟨t', ht', hv⟩ := bind_eq_ok.mp hv
    cases hv
    rw [encodeValue, ((h.type_ok ht').2.extend h.enclosed hu).fullName]
  | identifier id =>
    cases hn
    have hnames : (id.parts.map encodePart?).filter (fun c : Node => c.name == "part")
        = id.parts.map encodePart? := by
      rw [List.filter_eq_self]
      intro c hc
      obtain ⟨p, -, rfl⟩ := List.mem_map.mp hc
      rw [name_of_encodePart?]
      rfl
    change (do
      let requested ← s.type (u₀.fullName id.requested)
      let parts ← ((id.parts.map encodePart?).filter fun c : Node =>
        c.name == "part").mapM decodePart
      return Value.identifier ⟨requested, parts⟩) = _ at hv
    obtain ⟨t', ht', hv⟩ := bind_eq_ok.mp hv
    rw [hnames, mapM_decodePart, ok_bind] at hv
    cases hv
    rw [encodeValue, ((h.type_ok ht').2.extend h.enclosed hu).fullName]

end Printing

/-! ### Expressions -/

theorem node_of_encodeMethodReference {element : String} {m : MethodId}
    (hn : encodeMethodReference u₀ element m = .ok n) :
    ∃ declaring name params, n = .element element [("declaring", declaring), ("name", name),
      ("params", params)] [] := by
  unfold encodeMethodReference at hn
  split at hn
  · cases hn
  · obtain ⟨params, -, hn⟩ := bind_eq_ok.mp hn
    cases hn
    exact ⟨_, _, params, rfl⟩

theorem node_of_encodeFieldReference {element : String} {f : FieldId}
    (hn : encodeFieldReference u₀ element f = .ok n) :
    ∃ declaring name, n = .element element [("declaring", declaring), ("name", name)] [] := by
  unfold encodeFieldReference at hn
  split at hn
  · cases hn
  · cases hn
    exact ⟨_, _, rfl⟩

section Equations

variable (attributes : List (String × String)) (children : List Node)

theorem decodeExpr_call :
    decodeExpr s (.element "call" attributes children) = (do
      let receiver ← decodeReceiver s children
      let method ← s.method (.element "call" attributes children)
      let arguments ← decodeArguments s children
      let dispatch ← readAttribute (.element "call" attributes children) "dispatch" Dispatch.ofText?
      return .call receiver (.member method) arguments dispatch) := rfl

theorem decodeExpr_new :
    decodeExpr s (.element "new" attributes children) = (do
      let constructor ← s.method (.element "new" attributes children)
      let arguments ← decodeArguments s children
      return .new (.member constructor) arguments) := rfl

theorem decodeExpr_load :
    decodeExpr s (.element "load" attributes children) = (do
      let receiver ← decodeReceiver s children
      let field ← s.field (.element "load" attributes children)
      return .load receiver (.member field)) := rfl

theorem decodeExpr_store :
    decodeExpr s (.element "store" attributes children) = (do
      let receiver ← decodeReceiver s children
      let field ← s.field (.element "store" attributes children)
      let some value := ← decodeStored s children
        | throw (Node.missingChild (.element "store" attributes children) "value-of")
      return .store receiver (.member field) value) := rfl

theorem decodeExpr_binary (left right : Node) :
    decodeExpr s (.element "binary" attributes [left, right]) = (do
      let l ← decodeExpr s left
      let r ← decodeExpr s right
      let op ← readAttribute (.element "binary" attributes [left, right]) "op" Operator.ofText?
      return .binary op l r) := by
  show (decodeAll s [left, right] >>= _) = _
  simp only [decodeAll]
  cases decodeExpr s left with
  | error f => rfl
  | ok l => cases decodeExpr s right <;> rfl

theorem decodeExpr_choose (condition positive negative : Node) :
    decodeExpr s (.element "condition" attributes [condition, positive, negative]) = (do
      let c ← decodeExpr s condition
      let p ← decodeExpr s positive
      let m ← decodeExpr s negative
      return .choose c p m) := by
  show (decodeAll s [condition, positive, negative] >>= _) = _
  simp only [decodeAll]
  cases decodeExpr s condition with
  | error f => rfl
  | ok c =>
    cases decodeExpr s positive with
    | error f => rfl
    | ok p => cases decodeExpr s negative <;> rfl

end Equations

/-- What is read from the element of an expression is written as this element. -/
def Rereads (s : Scope) (u₀ u : Universe) (e₀ : Expr) : Prop :=
  ∀ n e, encodeExpr u₀ e₀ = .ok n → exactTree n = true → decodeExpr s n = .ok e →
    encodeExpr u e = .ok n

theorem encodeAll_of_decodeAll {items es : List Expr} {ns : List Node}
    (h : ∀ e ∈ items, Rereads s u₀ u e) (hns : encodeAll u₀ items = .ok ns)
    (hexact : exactTrees ns = true) (hes : decodeAll s ns = .ok es) :
    encodeAll u es = .ok ns := by
  induction items generalizing ns es with
  | nil =>
    cases hns
    cases hes
    rfl
  | cons item items ih =>
    obtain ⟨hitem, hitems⟩ := List.forall_mem_cons.mp h
    rw [encodeAll] at hns
    obtain ⟨n, hn, hns⟩ := bind_eq_ok.mp hns
    obtain ⟨rest, hrest, hns⟩ := bind_eq_ok.mp hns
    cases hns
    rw [exactTrees, Bool.and_eq_true] at hexact
    rw [decodeAll] at hes
    obtain ⟨e, he, hes⟩ := bind_eq_ok.mp hes
    obtain ⟨others, hothers, hes⟩ := bind_eq_ok.mp hes
    cases hes
    rw [encodeAll, hitem n e hn hexact.1 he, ok_bind, ih hitems hrest hexact.2 hothers]
    rfl

theorem encodeReceiver_of_decodeReceiver {receiver r : Option Expr} {ns rest : List Node}
    (h : ∀ e ∈ receiver, Rereads s u₀ u e) (hns : encodeReceiver u₀ receiver = .ok ns)
    (hexact : exactTrees ns = true) (hrest : decodeReceiver s rest = .ok none)
    (hr : decodeReceiver s (ns ++ rest) = .ok r) : encodeReceiver u r = .ok ns := by
  cases receiver with
  | none =>
    cases hns
    rw [List.nil_append, hrest] at hr
    cases hr
    rfl
  | some e₀ =>
    rw [encodeReceiver] at hns
    obtain ⟨n, hn, hns⟩ := bind_eq_ok.mp hns
    cases hns
    change (do return some (← decodeExpr s n)) = _ at hr
    obtain ⟨e, he, hr⟩ := bind_eq_ok.mp hr
    cases hr
    have hinside : exactTree n = true :=
      (exactTree_iff.mp (exactTrees_iff.mp hexact _ List.mem_cons_self)).2 n List.mem_cons_self
    rw [encodeReceiver, h e₀ rfl n e hn hinside he]
    rfl

theorem decodeArguments_append {receiver : Option Expr} {ns arguments : List Node}
    (hns : encodeReceiver u₀ receiver = .ok ns) :
    decodeArguments s (ns ++ [.element "arguments" [] arguments]) = decodeAll s arguments := by
  cases receiver with
  | none =>
    cases hns
    rfl
  | some e₀ =>
    rw [encodeReceiver] at hns
    obtain ⟨n, -, hns⟩ := bind_eq_ok.mp hns
    cases hns
    rfl

theorem decodeStored_append {receiver : Option Expr} {ns : List Node} {value : Node}
    (hns : encodeReceiver u₀ receiver = .ok ns) :
    decodeStored s (ns ++ [.element "value-of" [] [value]])
    = (do return some (← decodeExpr s value)) := by
  cases receiver with
  | none =>
    cases hns
    rfl
  | some e₀ =>
    rw [encodeReceiver] at hns
    obtain ⟨n, -, hns⟩ := bind_eq_ok.mp hns
    cases hns
    rfl

section Printing

variable (h : s.Ready first) (hu : s.program.Extends u)
include h hu

theorem rereads (e₀ : Expr) : Rereads s u₀ u e₀ := by
  induction e₀ using Expr.induction with
  | constant value =>
    intro n e hn hexact he
    rw [encodeExpr] at hn
    obtain ⟨inner, hinner, hn⟩ := bind_eq_ok.mp hn
    obtain rfl : n = .element "constant" [] [inner] := (Except.ok.inj hn).symm
    change (do return Expr.constant (← decodeValue s (← Node.requireChild (.element "constant" [] [inner]) "value"))) = _ at he
    rw [requireChild_value hinner, ok_bind] at he
    obtain ⟨v, hv, he⟩ := bind_eq_ok.mp he
    cases he
    have hinside : exactTree inner = true := (exactTree_iff.mp hexact).2 inner List.mem_cons_self
    rw [encodeExpr, encodeValue_of_decodeValue h hu hinner hinside hv]
    rfl
  | this =>
    intro n e hn _ he
    cases hn
    cases he
    rfl
  | argument index =>
    intro n e hn _ he
    obtain rfl : n = .element "argument" [("index", toString index.toNat)] [] :=
      (Except.ok.inj hn).symm
    change (do return Expr.argument (← readAttribute (.element "argument" _ []) "index" readIndex))
      = _ at he
    rw [readAttribute_of_get? rfl (readIndex_toString index)] at he
    cases he
    rfl
  | block items ih =>
    intro n e hn hexact he
    rw [encodeExpr] at hn
    obtain ⟨ns, hns, hn⟩ := bind_eq_ok.mp hn
    cases hn
    change (do return Expr.block (← decodeAll s ([] ++ ns))) = _ at he
    obtain ⟨es, hes, he⟩ := bind_eq_ok.mp he
    cases he
    have hinside : exactTrees ns = true := exactTrees_iff.mpr (exactTree_iff.mp hexact).2
    rw [encodeExpr, encodeAll_of_decodeAll ih hns hinside hes]
    rfl
  | call receiver method arguments dispatch hreceiver harguments =>
    intro n e hn hexact he
    rw [encodeExpr] at hn
    obtain ⟨m₀, -, hn⟩ := bind_eq_ok.mp hn
    obtain ⟨reference, hreference, hn⟩ := bind_eq_ok.mp hn
    obtain ⟨rs, hrs, hn⟩ := bind_eq_ok.mp hn
    obtain ⟨as, has, hn⟩ := bind_eq_ok.mp hn
    obtain ⟨declaring, name, params, rfl⟩ := node_of_encodeMethodReference hreference
    let children := rs ++ [Node.element "arguments" [] as]
    obtain rfl : n = .element "call" [("declaring", declaring), ("name", name), ("params", params),
        ("dispatch", dispatch.text)] children := (Except.ok.inj hn).symm
    have hinside := (exactTree_iff.mp hexact).2
    have hreceivers : exactTrees rs = true :=
      exactTrees_iff.mpr fun c hc => hinside c (List.mem_append_left _ hc)
    have hinner : exactTrees as = true :=
      exactTrees_iff.mpr (exactTree_iff.mp
        (hinside _ (List.mem_append_right _ List.mem_cons_self))).2
    rw [decodeExpr_call] at he
    obtain ⟨r, hr, he⟩ := bind_eq_ok.mp he
    obtain ⟨m, hm, he⟩ := bind_eq_ok.mp he
    obtain ⟨es, hes, he⟩ := bind_eq_ok.mp he
    rw [readAttribute_of_get? rfl dispatch.ofText?_text, ok_bind] at he
    cases he
    obtain ⟨hpresent, hmethod⟩ := encodeMethodReference_of_method h hu "call" rfl rfl rfl
      (params_of_exactTree hexact rfl rfl) hm
    rw [decodeArguments_append hrs] at hes
    rw [encodeExpr, requireMethodTarget, if_pos hpresent, ok_bind, hmethod, ok_bind,
      encodeReceiver_of_decodeReceiver hreceiver hrs hreceivers rfl hr, ok_bind,
      encodeAll_of_decodeAll harguments has hinner hes]
    rfl
  | new constructor arguments harguments =>
    intro n e hn hexact he
    rw [encodeExpr] at hn
    obtain ⟨m₀, -, hn⟩ := bind_eq_ok.mp hn
    obtain ⟨reference, hreference, hn⟩ := bind_eq_ok.mp hn
    obtain ⟨as, has, hn⟩ := bind_eq_ok.mp hn
    obtain ⟨declaring, name, params, rfl⟩ := node_of_encodeMethodReference hreference
    obtain rfl : n = .element "new" [("declaring", declaring), ("name", name), ("params", params)]
        [.element "arguments" [] as] := (Except.ok.inj hn).symm
    have hinner : exactTrees as = true :=
      exactTrees_iff.mpr (exactTree_iff.mp ((exactTree_iff.mp hexact).2 _ List.mem_cons_self)).2
    rw [decodeExpr_new] at he
    obtain ⟨m, hm, he⟩ := bind_eq_ok.mp he
    obtain ⟨es, hes, he⟩ := bind_eq_ok.mp he
    cases he
    obtain ⟨hpresent, hmethod⟩ := encodeMethodReference_of_method h hu "new" rfl rfl rfl
      (params_of_exactTree hexact rfl rfl) hm
    rw [encodeExpr, requireMethodTarget, if_pos hpresent, ok_bind, hmethod, ok_bind,
      encodeAll_of_decodeAll harguments has hinner hes]
    rfl
  | load receiver field hreceiver =>
    intro n e hn hexact he
    rw [encodeExpr] at hn
    obtain ⟨f₀, -, hn⟩ := bind_eq_ok.mp hn
    obtain ⟨reference, hreference, hn⟩ := bind_eq_ok.mp hn
    obtain ⟨rs, hrs, hn⟩ := bind_eq_ok.mp hn
    obtain ⟨declaring, name, rfl⟩ := node_of_encodeFieldReference hreference
    obtain rfl : n = .element "load" [("declaring", declaring), ("name", name)] rs :=
      (Except.ok.inj hn).symm
    have hreceivers : exactTrees rs = true := exactTrees_iff.mpr (exactTree_iff.mp hexact).2
    rw [decodeExpr_load] at he
    obtain ⟨r, hr, he⟩ := bind_eq_ok.mp he
    obtain ⟨f, hf, he⟩ := bind_eq_ok.mp he
    cases he
    obtain ⟨hpresent, hfield⟩ := encodeFieldReference_of_field h hu "load" rfl rfl hf
    rw [← List.append_nil rs] at hr
    rw [encodeExpr, requireFieldTarget, if_pos hpresent, ok_bind, hfield, ok_bind,
      encodeReceiver_of_decodeReceiver hreceiver hrs hreceivers rfl hr]
    rfl
  | store receiver field value hreceiver hvalue =>
    intro n e hn hexact he
    rw [encodeExpr] at hn
    obtain ⟨f₀, -, hn⟩ := bind_eq_ok.mp hn
    obtain ⟨reference, hreference, hn⟩ := bind_eq_ok.mp hn
    obtain ⟨rs, hrs, hn⟩ := bind_eq_ok.mp hn
    obtain ⟨inner, hinner, hn⟩ := bind_eq_ok.mp hn
    obtain ⟨declaring, name, rfl⟩ := node_of_encodeFieldReference hreference
    obtain rfl : n = .element "store" [("declaring", declaring), ("name", name)]
        (rs ++ [Node.element "value-of" [] [inner]]) := (Except.ok.inj hn).symm
    have hinside := (exactTree_iff.mp hexact).2
    have hreceivers : exactTrees rs = true :=
      exactTrees_iff.mpr fun c hc => hinside c (List.mem_append_left _ hc)
    have hstored : exactTree inner = true :=
      (exactTree_iff.mp (hinside _ (List.mem_append_right _ List.mem_cons_self))).2 inner
        List.mem_cons_self
    rw [decodeExpr_store, decodeStored_append hrs] at he
    obtain ⟨r, hr, he⟩ := bind_eq_ok.mp he
    obtain ⟨f, hf, he⟩ := bind_eq_ok.mp he
    obtain ⟨stored, hread, he⟩ := bind_eq_ok.mp he
    obtain ⟨v, hv, hread⟩ := bind_eq_ok.mp hread
    cases hread
    cases he
    obtain ⟨hpresent, hfield⟩ := encodeFieldReference_of_field h hu "store" rfl rfl hf
    rw [encodeExpr, requireFieldTarget, if_pos hpresent, ok_bind, hfield, ok_bind,
      encodeReceiver_of_decodeReceiver hreceiver hrs hreceivers rfl hr, ok_bind,
      hvalue inner v hinner hstored hv]
    rfl
  | binary op left right hleft hright =>
    intro n e hn hexact he
    rw [encodeExpr] at hn
    obtain ⟨l, hl, hn⟩ := bind_eq_ok.mp hn
    obtain ⟨r, hr, hn⟩ := bind_eq_ok.mp hn
    obtain rfl : n = .element "binary" [("op", op.text)] [l, r] := (Except.ok.inj hn).symm
    have hinside := (exactTree_iff.mp hexact).2
    rw [decodeExpr_binary, readAttribute_of_get? rfl op.ofText?_text] at he
    obtain ⟨e₁, he₁, he⟩ := bind_eq_ok.mp he
    obtain ⟨e₂, he₂, he⟩ := bind_eq_ok.mp he
    cases he
    rw [encodeExpr, hleft l e₁ hl (hinside l (by simp [Node.children])) he₁, ok_bind,
      hright r e₂ hr (hinside r (by simp [Node.children])) he₂]
    rfl
  | choose condition positive negative hcondition hpositive hnegative =>
    intro n e hn hexact he
    rw [encodeExpr] at hn
    obtain ⟨c, hc, hn⟩ := bind_eq_ok.mp hn
    obtain ⟨p, hp, hn⟩ := bind_eq_ok.mp hn
    obtain ⟨m, hm, hn⟩ := bind_eq_ok.mp hn
    obtain rfl : n = .element "condition" [] [c, p, m] := (Except.ok.inj hn).symm
    have hinside := (exactTree_iff.mp hexact).2
    rw [decodeExpr_choose] at he
    obtain ⟨e₁, he₁, he⟩ := bind_eq_ok.mp he
    obtain ⟨e₂, he₂, he⟩ := bind_eq_ok.mp he
    obtain ⟨e₃, he₃, he⟩ := bind_eq_ok.mp he
    cases he
    rw [encodeExpr, hcondition c e₁ hc (hinside c (by simp [Node.children])) he₁, ok_bind,
      hpositive p e₂ hp (hinside p (by simp [Node.children])) he₂, ok_bind,
      hnegative m e₃ hm (hinside m (by simp [Node.children])) he₃]
    rfl

end Printing

/-! ### Attributes -/

theorem filter_name {ns : List Node} {name : String} (h : ∀ n ∈ ns, n.name = name) (key : String) :
    ns.filter (fun c => c.name == key) = if name = key then ns else [] := by
  split
  · rename_i hkey
    rw [List.filter_eq_self]
    exact fun n hn => by rw [h n hn, hkey, beq_self_eq_true]
  · rename_i hkey
    rw [List.filter_eq_nil_iff]
    exact fun n hn => by rw [h n hn, beq_iff_eq]; exact hkey

theorem node_of_encodePositional {v : Value} (hn : encodePositional u₀ v = .ok n) :
    ∃ inner, encodeValue u₀ v = .ok inner ∧ n = .element "positional" [] [inner] := by
  obtain ⟨inner, hinner, hn⟩ := bind_eq_ok.mp hn
  exact ⟨inner, hinner, (Except.ok.inj hn).symm⟩

theorem node_of_encodeNamed {v : String × Value} (hn : encodeNamed u₀ v = .ok n) :
    ∃ inner, encodeValue u₀ v.2 = .ok inner ∧ n = .element "named" [("name", v.1)] [inner] := by
  obtain ⟨inner, hinner, hn⟩ := bind_eq_ok.mp hn
  exact ⟨inner, hinner, (Except.ok.inj hn).symm⟩

section Printing

variable (h : s.Ready first) (hu : s.program.Extends u)
include h hu

theorem encodePositional_of_decodePositional {v₀ v : Value} (hn : encodePositional u₀ v₀ = .ok n)
    (hexact : exactTree n = true) (hv : decodePositional s n = .ok v) :
    encodePositional u v = .ok n := by
  obtain ⟨inner, hinner, rfl⟩ := node_of_encodePositional hn
  rw [decodePositional, requireChild_value hinner, ok_bind] at hv
  have hinside : exactTree inner = true := (exactTree_iff.mp hexact).2 inner List.mem_cons_self
  rw [encodePositional, encodeValue_of_decodeValue h hu hinner hinside hv]
  rfl

theorem encodeNamed_of_decodeNamed {v₀ v : String × Value} (hn : encodeNamed u₀ v₀ = .ok n)
    (hexact : exactTree n = true) (hv : decodeNamed s n = .ok v) : encodeNamed u v = .ok n := by
  obtain ⟨inner, hinner, rfl⟩ := node_of_encodeNamed hn
  rw [decodeNamed, require_of_get? rfl, ok_bind, requireChild_value hinner, ok_bind] at hv
  obtain ⟨value, hvalue, hv⟩ := bind_eq_ok.mp hv
  cases hv
  have hinside : exactTree inner = true := (exactTree_iff.mp hexact).2 inner List.mem_cons_self
  rw [encodeNamed, encodeValue_of_decodeValue h hu hinner hinside hvalue]
  rfl

theorem encodeAttribute_of_decodeAttribute {a₀ a : Attribute} (hn : encodeAttribute u₀ a₀ = .ok n)
    (hexact : exactTree n = true) (ha : decodeAttribute s n = .ok a) :
    encodeAttribute u a = .ok n := by
  obtain ⟨reference, hreference, hn⟩ := bind_eq_ok.mp hn
  obtain ⟨ps, hps, hn⟩ := bind_eq_ok.mp hn
  obtain ⟨ns, hns, hn⟩ := bind_eq_ok.mp hn
  obtain ⟨declaring, name, params, rfl⟩ := node_of_encodeMethodReference hreference
  obtain rfl : n = .element "attribute" [("declaring", declaring), ("name", name),
    ("params", params)] (ps ++ ns) :=
    (Except.ok.inj hn).symm
  have hpositional : ∀ p ∈ ps, p.name = "positional" := by
    intro p hp
    obtain ⟨v, -, hv⟩ := exists_of_mem_mapM hps hp
    obtain ⟨inner, -, rfl⟩ := node_of_encodePositional hv
    rfl
  have hnamed : ∀ p ∈ ns, p.name = "named" := by
    intro p hp
    obtain ⟨v, -, hv⟩ := exists_of_mem_mapM hns hp
    obtain ⟨inner, -, rfl⟩ := node_of_encodeNamed hv
    rfl
  have hfirst : (ps ++ ns).filter (fun c => c.name == "positional") = ps := by
    simp [List.filter_append, filter_name hpositional, filter_name hnamed]
  have hsecond : (ps ++ ns).filter (fun c => c.name == "named") = ns := by
    simp [List.filter_append, filter_name hpositional, filter_name hnamed]
  have hinside := (exactTree_iff.mp hexact).2
  simp only [decodeAttribute, Node.childrenNamed, Node.children, hfirst, hsecond] at ha
  obtain ⟨arguments, harguments, ha⟩ := bind_eq_ok.mp ha
  obtain ⟨named, hread, ha⟩ := bind_eq_ok.mp ha
  obtain ⟨m, hm, ha⟩ := bind_eq_ok.mp ha
  cases ha
  obtain ⟨-, hmethod⟩ := encodeMethodReference_of_method h hu "attribute" rfl rfl rfl
    (params_of_exactTree hexact rfl rfl) hm
  have hps' : arguments.mapM (encodePositional u) = .ok ps :=
      mapM_inverse harguments fun p hp v hv => by
    obtain ⟨v₀, -, hv₀⟩ := exists_of_mem_mapM hps hp
    exact encodePositional_of_decodePositional h hu hv₀ (hinside p (List.mem_append_left _ hp)) hv
  have hns' : named.mapM (encodeNamed u) = .ok ns := mapM_inverse hread fun p hp v hv => by
    obtain ⟨v₀, -, hv₀⟩ := exists_of_mem_mapM hns hp
    exact encodeNamed_of_decodeNamed h hu hv₀ (hinside p (List.mem_append_right _ hp)) hv
  rw [encodeAttribute, hmethod, ok_bind, hps', ok_bind, hns']
  rfl

end Printing

end Artifact

end TypeLoom
