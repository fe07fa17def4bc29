import TypeLoom.Proofs.Rereading

/-!
# What elements mention

A type refers to methods and fields of types, and to methods of its own. Its element says each of
them in words and in the same order: the full name of the type, the name of the member, its
parameters.
-/

namespace TypeLoom

/-! ### References -/

/-- A reference to a member of any type, or to a method of the type at hand. -/
inductive Reference
  | method (m : MethodId)
  | field (f : FieldId)
  | accessor (m : MethodId)
  deriving DecidableEq

namespace Expr

/-- The member that the expression itself names. -/
def member : Expr → List Reference
  | call _ (.member m) _ _ => [.method m]
  | new (.member m) _ => [.method m]
  | load _ (.member f) => [.field f]
  | store _ (.member f) _ => [.field f]
  | _ => []

/-- The members that the expression and all inside it name. -/
def references (e : Expr) : List Reference := e.nodes.flatMap member

theorem references_nodesAll (items : List Expr) :
    (nodesAll items).flatMap member = items.flatMap references := by
  rw [nodesAll_eq_flatMap, List.flatMap_assoc]
  rfl

theorem references_nodesOpt (item : Option Expr) :
    (nodesOpt item).flatMap member = item.toList.flatMap references := by
  rw [nodesOpt_eq_flatMap, List.flatMap_assoc]
  rfl

@[simp] theorem references_block (items : List Expr) :
    (block items).references = items.flatMap references :=
  references_nodesAll items

@[simp] theorem references_call (receiver : Option Expr) (m : MethodId) (arguments : List Expr)
    (dispatch : Dispatch) :
    (call receiver (.member m) arguments dispatch).references =
      .method m :: (receiver.toList.flatMap references ++ arguments.flatMap references) := by
  show .method m :: (nodesOpt receiver ++ nodesAll arguments).flatMap member = _
  rw [List.flatMap_append, references_nodesOpt, references_nodesAll]

@[simp] theorem references_new (m : MethodId) (arguments : List Expr) :
    (new (.member m) arguments).references = .method m :: arguments.flatMap references :=
  congrArg (Reference.method m :: ·) (references_nodesAll arguments)

@[simp] theorem references_load (receiver : Option Expr) (f : FieldId) :
    (load receiver (.member f)).references = .field f :: receiver.toList.flatMap references :=
  congrArg (Reference.field f :: ·) (references_nodesOpt receiver)

@[simp] theorem references_store (receiver : Option Expr) (f : FieldId) (value : Expr) :
    (store receiver (.member f) value).references = .field f
    :: (receiver.toList.flatMap references ++ value.references) := by
  show .field f :: (nodesOpt receiver ++ nodes value).flatMap member = _
  rw [List.flatMap_append, references_nodesOpt]
  rfl

@[simp] theorem references_binary (op : Operator) (left right : Expr) :
    (binary op left right).references = left.references ++ right.references :=
  List.flatMap_append

@[simp] theorem references_choose (condition positive negative : Expr) :
    (choose condition positive negative).references = condition.references ++ positive.references
    ++ negative.references := by
  show (nodes condition ++ nodes positive ++ nodes negative).flatMap member = _
  rw [List.flatMap_append, List.flatMap_append]
  rfl

end Expr

def Attribute.reference (a : Attribute) : Reference := .method a.constructor

def FieldRecord.references (f : FieldRecord) : List Reference :=
  f.attributes.toList.map Attribute.reference

def MethodRecord.references (m : MethodRecord) : List Reference :=
  m.attributes.toList.map Attribute.reference ++ m.body.toList.flatMap Expr.references

def PropertyRecord.references (p : PropertyRecord) : List Reference :=
  (p.getter.toList ++ p.setter.toList).map .accessor

def EventRecord.references (e : EventRecord) : List Reference :=
  ([e.add, e.remove] ++ e.raise.toList).map .accessor

def Override.references (o : Override) : List Reference := [.method o.declaration, .accessor o.body]

def TypeRecord.OwnInitializer (r : TypeRecord) (t : TypeId) : Prop :=
  r.initializer = r.ownInitializer.map fun _ => ⟨t, .typeInitializer⟩

/-- What the members of a section refer to. -/
def Artifact.Section.references (r : TypeRecord) : Artifact.Section → List Reference
  | .interfaces => []
  | .attributes => r.attributes.toList.map Attribute.reference
  | .fields => r.fields.toList.flatMap FieldRecord.references
  | .constructors => r.constructors.toList.flatMap MethodRecord.references
  | .initializer => r.ownInitializer.toList.flatMap MethodRecord.references
  | .methods => r.methods.toList.flatMap MethodRecord.references
  | .properties => r.properties.toList.flatMap PropertyRecord.references
  | .events => r.events.toList.flatMap EventRecord.references
  | .overrides => r.overrides.toList.flatMap Override.references

/-- What a type refers to: targets of calls, instantiations and attributes, fields that are
accessed, accessors of properties and events, and both sides of explicit overrides. -/
def TypeRecord.references (r : TypeRecord) : List Reference :=
  Artifact.Section.all.flatMap (Artifact.Section.references r)

/-! ### Words -/

namespace Artifact

open Markup

inductive Mention
  | method (declaring name params : Option String)
  | field (declaring name : Option String)
  | accessor (name params : Option String)
  deriving DecidableEq

def wording (u : Universe) : Reference → Mention
  | .method m =>
    .method (some (u.fullName m.owner)) (some (u.method m).name)
      (encodeParameters u (u.method m).signature).toOption
  | .field f => .field (some (u.fullName f.owner)) (some (u.field f).name)
  | .accessor m =>
    .accessor (some (u.method m).name) (encodeParameters u (u.method m).signature).toOption

def mentionsHere (n : Node) : List Mention :=
  match n.name with
  | "call" | "new" | "attribute" | "declaration" =>
    [.method (n.get? "declaring") (n.get? "name") (n.get? "params")]
  | "load" | "store" => [.field (n.get? "declaring") (n.get? "name")]
  | "getter" | "setter" | "add" | "remove" | "raise" | "implementation" =>
    [.accessor (n.get? "name") (n.get? "params")]
  | _ => []

mutual

def mentions : Node → List Mention
  | .element name attributes children =>
    mentionsHere (.element name attributes []) ++ mentionsAll children

def mentionsAll : List Node → List Mention
  | [] => []
  | n :: ns => mentions n ++ mentionsAll ns

end

theorem mentionsAll_eq_flatMap (ns : List Node) : mentionsAll ns = ns.flatMap mentions := by
  induction ns with
  | nil => rfl
  | cons n ns ih => rw [mentionsAll, ih, List.flatMap_cons]

@[simp] theorem mentionsAll_append (ns more : List Node) :
    mentionsAll (ns ++ more) = mentionsAll ns ++ mentionsAll more := by
  simp [mentionsAll_eq_flatMap]

theorem mentionsAll_eq_nil {ns : List Node} (h : ∀ n ∈ ns, mentions n = []) :
    mentionsAll ns = [] := by
  rw [mentionsAll_eq_flatMap, List.flatMap_eq_nil_iff]
  exact h

variable {u : Universe} {n : Node} {α : Type}

theorem mentionsAll_of_mapM {f : α → Except Fault Node} {g : α → List Reference} {items : List α}
    {ns : List Node} (h : items.mapM f = .ok ns)
    (hitem : ∀ item ∈ items, ∀ n, f item = .ok n → mentions n = (g item).map (wording u)) :
    mentionsAll ns = (items.flatMap g).map (wording u) := by
  induction items generalizing ns with
  | nil =>
    cases h
    rfl
  | cons item items ih =>
    obtain ⟨hfirst, hrest⟩ := List.forall_mem_cons.mp hitem
    obtain ⟨n, rest, hn, hns, rfl⟩ := mapM_cons_eq_ok.mp h
    rw [mentionsAll, hfirst n hn, ih hns hrest, List.flatMap_cons, List.map_append]

/-! ### Values -/

theorem mentions_encodePart (p : Part) : mentions (encodePart p) = [] := by
  induction p using Part.induction with
  | bool value => rfl
  | int value => rfl
  | text value => rfl
  | list items ih =>
    show mentionsAll ([] ++ encodeParts items) = []
    rw [List.nil_append]
    induction items with
    | nil => rfl
    | cons p items ih' =>
      obtain ⟨hp, hitems⟩ := List.forall_mem_cons.mp ih
      rw [encodeParts, mentionsAll, hp, ih' hitems, List.nil_append]

theorem mentions_of_encodeValue {v : Value} (hn : encodeValue u v = .ok n) : mentions n = [] := by
  cases v with
  | identifier id =>
    cases hn
    show mentionsAll ([] ++ id.parts.map encodePart?) = []
    rw [List.nil_append]
    refine mentionsAll_eq_nil fun n hn => ?_
    obtain ⟨p, -, rfl⟩ := List.mem_map.mp hn
    cases p with
    | none => rfl
    | some p => exact mentions_encodePart p
  | object o => cases hn
  | void | null | boolean | i4 | i8 | r8 | string | type =>
    cases hn
    rfl

/-! ### Expressions -/

theorem wording_of_encodeMethodReference {element : String} {m : MethodId}
    (hn : encodeMethodReference u element m = .ok n) :
    wording u (.method m) = .method (n.get? "declaring") (n.get? "name") (n.get? "params") := by
  unfold encodeMethodReference at hn
  split at hn
  · cases hn
  · rename_i owner howner
    obtain ⟨params, hparams, hn⟩ := bind_eq_ok.mp hn
    cases hn
    rw [wording, hparams]
    have hsame : m.owner = owner := by
      unfold Universe.methodOwner? Universe.present? at howner
      split at howner
      · exact Option.some.inj howner
      · cases howner
    rw [hsame]
    rfl

theorem wording_of_encodeFieldReference {element : String} {f : FieldId}
    (hn : encodeFieldReference u element f = .ok n) :
    wording u (.field f) = .field (n.get? "declaring") (n.get? "name") := by
  unfold encodeFieldReference at hn
  split at hn
  · cases hn
  · rename_i owner howner
    cases hn
    have hsame : f.owner = owner := by
      unfold Universe.fieldOwner? Universe.present? at howner
      split at howner
      · exact Option.some.inj howner
      · cases howner
    rw [wording, hsame]
    rfl

theorem mentions_of_encodeAccessor {element : String} {m : MethodId}
    (hn : encodeAccessor u element m = .ok n)
    (helement : ∀ attributes, mentionsHere (.element element attributes []) =
      [.accessor (Node.get? (.element element attributes []) "name")
        (Node.get? (.element element attributes []) "params")]) :
    mentions n = [wording u (.accessor m)] := by
  obtain ⟨params, hparams, hn⟩ := bind_eq_ok.mp hn
  cases hn
  show mentionsHere (.element element [("name", (u.method m).name), ("params", params)] []) ++ []
    = _
  rw [helement, wording, hparams]
  rfl

theorem member_of_requireMethodTarget {target : MethodTarget} {m : MethodId}
    (h : requireMethodTarget u target = .ok m) :
    target = .member m := by
  cases target with
  | draft handle => cases h
  | member other =>
    change (if u.isPresent other.owner then Except.ok other else _) = .ok m at h
    split at h
    · cases h
      rfl
    · cases h

theorem member_of_requireFieldTarget {target : FieldTarget} {f : FieldId}
    (h : requireFieldTarget u target = .ok f) :
    target = .member f := by
  cases target with
  | draft handle => cases h
  | member other =>
    change (if u.isPresent other.owner then Except.ok other else _) = .ok f at h
    split at h
    · cases h
      rfl
    · cases h

def Mentions (u : Universe) (e : Expr) : Prop :=
  ∀ n, encodeExpr u e = .ok n → mentions n = e.references.map (wording u)

theorem mentions_of_encodeAll {items : List Expr} {ns : List Node} (h : ∀ e ∈ items, Mentions u e)
    (hns : encodeAll u items = .ok ns) :
    mentionsAll ns = (items.flatMap Expr.references).map (wording u) := by
  induction items generalizing ns with
  | nil =>
    cases hns
    rfl
  | cons item items ih =>
    obtain ⟨hitem, hitems⟩ := List.forall_mem_cons.mp h
    rw [encodeAll] at hns
    obtain ⟨n, hn, hns⟩ := bind_eq_ok.mp hns
    obtain ⟨rest, hrest, hns⟩ := bind_eq_ok.mp hns
    cases hns
    rw [mentionsAll, hitem n hn, ih hitems hrest, List.flatMap_cons, List.map_append]

theorem mentions_of_encodeReceiver {receiver : Option Expr} {ns : List Node}
    (h : ∀ e ∈ receiver, Mentions u e) (hns : encodeReceiver u receiver = .ok ns) :
    mentionsAll ns = (receiver.toList.flatMap Expr.references).map (wording u) := by
  cases receiver with
  | none =>
    cases hns
    rfl
  | some e =>
    rw [encodeReceiver] at hns
    obtain ⟨n, hn, hns⟩ := bind_eq_ok.mp hns
    cases hns
    have hmention := h e rfl n hn
    show (mentions n ++ []) ++ [] = _
    rw [List.append_nil, List.append_nil, hmention]
    simp

theorem mentions_of_encodeExpr (e : Expr) : Mentions u e := by
  induction e using Expr.induction with
  | constant value =>
    intro n hn
    rw [encodeExpr] at hn
    obtain ⟨inner, hinner, hn⟩ := bind_eq_ok.mp hn
    cases hn
    show mentions inner ++ [] = []
    rw [mentions_of_encodeValue hinner]
    rfl
  | this =>
    intro n hn
    cases hn
    rfl
  | argument index =>
    intro n hn
    cases hn
    rfl
  | block items ih =>
    intro n hn
    rw [encodeExpr] at hn
    obtain ⟨ns, hns, hn⟩ := bind_eq_ok.mp hn
    cases hn
    rw [Expr.references_block]
    exact mentions_of_encodeAll ih hns
  | call receiver method arguments dispatch hreceiver harguments =>
    intro n hn
    rw [encodeExpr] at hn
    obtain ⟨m, hm, hn⟩ := bind_eq_ok.mp hn
    obtain ⟨reference, hreference, hn⟩ := bind_eq_ok.mp hn
    obtain ⟨rs, hrs, hn⟩ := bind_eq_ok.mp hn
    obtain ⟨as, has, hn⟩ := bind_eq_ok.mp hn
    obtain ⟨declaring, name, params, rfl⟩ := node_of_encodeMethodReference hreference
    obtain rfl : n = .element "call" [("declaring", declaring), ("name", name), ("params", params),
      ("dispatch", dispatch.text)]
        (rs ++ [Node.element "arguments" [] as]) := (Except.ok.inj hn).symm
    obtain rfl := member_of_requireMethodTarget hm
    show [Mention.method (some declaring) (some name) (some params)]
      ++ mentionsAll (rs ++ [.element "arguments" [] as]) = _
    rw [mentionsAll_append, mentions_of_encodeReceiver hreceiver hrs]
    have hwording : wording u (.method m) = .method (some declaring) (some name) (some params) :=
      wording_of_encodeMethodReference hreference
    have hinside : mentionsAll [.element "arguments" [] as] = mentionsAll as := List.append_nil _
    rw [hinside, mentions_of_encodeAll harguments has, ← hwording]
    simp
  | new constructor arguments harguments =>
    intro n hn
    rw [encodeExpr] at hn
    obtain ⟨m, hm, hn⟩ := bind_eq_ok.mp hn
    obtain ⟨reference, hreference, hn⟩ := bind_eq_ok.mp hn
    obtain ⟨as, has, hn⟩ := bind_eq_ok.mp hn
    obtain ⟨declaring, name, params, rfl⟩ := node_of_encodeMethodReference hreference
    obtain rfl : n = .element "new" [("declaring", declaring), ("name", name), ("params", params)]
        [.element "arguments" [] as] := (Except.ok.inj hn).symm
    obtain rfl := member_of_requireMethodTarget hm
    show [Mention.method (some declaring) (some name) (some params)]
      ++ mentionsAll [.element "arguments" [] as] = _
    have hwording : wording u (.method m) = .method (some declaring) (some name) (some params) :=
      wording_of_encodeMethodReference hreference
    have hinside : mentionsAll [.element "arguments" [] as] = mentionsAll as := List.append_nil _
    rw [hinside, mentions_of_encodeAll harguments has, ← hwording]
    simp
  | load receiver field hreceiver =>
    intro n hn
    rw [encodeExpr] at hn
    obtain ⟨f, hf, hn⟩ := bind_eq_ok.mp hn
    obtain ⟨reference, hreference, hn⟩ := bind_eq_ok.mp hn
    obtain ⟨rs, hrs, hn⟩ := bind_eq_ok.mp hn
    obtain ⟨declaring, name, rfl⟩ := node_of_encodeFieldReference hreference
    obtain rfl : n = .element "load" [("declaring", declaring), ("name", name)] rs :=
      (Except.ok.inj hn).symm
    obtain rfl := member_of_requireFieldTarget hf
    show [Mention.field (some declaring) (some name)] ++ mentionsAll rs = _
    have hwording : wording u (.field f) = .field (some declaring) (some name) :=
      wording_of_encodeFieldReference hreference
    rw [mentions_of_encodeReceiver hreceiver hrs, ← hwording]
    simp
  | store receiver field value hreceiver hvalue =>
    intro n hn
    rw [encodeExpr] at hn
    obtain ⟨f, hf, hn⟩ := bind_eq_ok.mp hn
    obtain ⟨reference, hreference, hn⟩ := bind_eq_ok.mp hn
    obtain ⟨rs, hrs, hn⟩ := bind_eq_ok.mp hn
    obtain ⟨stored, hstored, hn⟩ := bind_eq_ok.mp hn
    obtain ⟨declaring, name, rfl⟩ := node_of_encodeFieldReference hreference
    obtain rfl : n = .element "store" [("declaring", declaring), ("name", name)]
      (rs ++ [Node.element "value-of" [] [stored]]) :=
      (Except.ok.inj hn).symm
    obtain rfl := member_of_requireFieldTarget hf
    show [Mention.field (some declaring) (some name)]
      ++ mentionsAll (rs ++ [.element "value-of" [] [stored]]) = _
    have hwording : wording u (.field f) = .field (some declaring) (some name) :=
      wording_of_encodeFieldReference hreference
    have hinside : mentionsAll [.element "value-of" [] [stored]] = mentions stored := by
      show (mentions stored ++ []) ++ [] = _
      rw [List.append_nil, List.append_nil]
    rw [mentionsAll_append, mentions_of_encodeReceiver hreceiver hrs, hinside,
      hvalue stored hstored, ← hwording]
    simp
  | binary op left right hleft hright =>
    intro n hn
    rw [encodeExpr] at hn
    obtain ⟨l, hl, hn⟩ := bind_eq_ok.mp hn
    obtain ⟨r, hr, hn⟩ := bind_eq_ok.mp hn
    cases hn
    show mentions l ++ (mentions r ++ []) = _
    rw [hleft l hl, hright r hr]
    simp
  | choose condition positive negative hcondition hpositive hnegative =>
    intro n hn
    rw [encodeExpr] at hn
    obtain ⟨c, hc, hn⟩ := bind_eq_ok.mp hn
    obtain ⟨p, hp, hn⟩ := bind_eq_ok.mp hn
    obtain ⟨m, hm, hn⟩ := bind_eq_ok.mp hn
    cases hn
    show mentions c ++ (mentions p ++ (mentions m ++ [])) = _
    rw [hcondition c hc, hpositive p hp, hnegative m hm]
    simp

/-! ### Members -/

theorem mentions_of_encodeAttribute {a : Attribute} (hn : encodeAttribute u a = .ok n) :
    mentions n = [wording u a.reference] := by
  obtain ⟨reference, hreference, hn⟩ := bind_eq_ok.mp hn
  obtain ⟨ps, hps, hn⟩ := bind_eq_ok.mp hn
  obtain ⟨ns, hns, hn⟩ := bind_eq_ok.mp hn
  obtain ⟨declaring, name, params, rfl⟩ := node_of_encodeMethodReference hreference
  obtain rfl : n = .element "attribute" [("declaring", declaring), ("name", name),
    ("params", params)] (ps ++ ns) :=
    (Except.ok.inj hn).symm
  have hpositional : mentionsAll ps = [] := mentionsAll_eq_nil fun p hp => by
    obtain ⟨v, -, hv⟩ := exists_of_mem_mapM hps hp
    obtain ⟨inner, hinner, rfl⟩ := node_of_encodePositional hv
    show mentions inner ++ [] = []
    rw [mentions_of_encodeValue hinner, List.append_nil]
  have hnamed : mentionsAll ns = [] := mentionsAll_eq_nil fun p hp => by
    obtain ⟨v, -, hv⟩ := exists_of_mem_mapM hns hp
    obtain ⟨inner, hinner, rfl⟩ := node_of_encodeNamed hv
    show mentions inner ++ [] = []
    rw [mentions_of_encodeValue hinner, List.append_nil]
  show [Mention.method (some declaring) (some name) (some params)] ++ mentionsAll (ps ++ ns) = _
  rw [mentionsAll_append, hpositional, hnamed]
  exact congrArg (fun w => [w]) (wording_of_encodeMethodReference hreference).symm

theorem mentions_of_encodeAttributes {attributes : Array Attribute} {ns : List Node}
    (hns : encodeAttributes u attributes = .ok ns) :
    mentionsAll ns = (attributes.toList.map Attribute.reference).map (wording u) := by
  have hall : mentionsAll ns = (attributes.toList.flatMap fun a => [a.reference]).map (wording u) :=
    mentionsAll_of_mapM hns fun a _ n hn => mentions_of_encodeAttribute hn
  rw [hall, ← List.map_eq_flatMap]

theorem mentions_of_encodeField {f : FieldRecord} (hn : encodeField u f = .ok n) :
    mentions n = f.references.map (wording u) := by
  obtain ⟨type, -, hn⟩ := bind_eq_ok.mp hn
  obtain ⟨attributes, hattributes, hn⟩ := bind_eq_ok.mp hn
  cases hn
  exact mentions_of_encodeAttributes hattributes

theorem mentions_of_encodeMethod {element : String} {m : MethodRecord}
    (helement : ∀ attributes, mentionsHere (.element element attributes []) = [])
    (hn : encodeMethod u element m = .ok n) :
    mentions n = m.references.map (wording u) := by
  obtain ⟨returns, parameters, attributes, body, -, hparameters, hattributes, hbody, rfl⟩ :=
    encodeMethod_eq_ok.mp hn
  have hnone : mentionsAll parameters = [] := mentionsAll_eq_nil fun p hp => by
    obtain ⟨p₀, -, hp₀⟩ := exists_of_mem_mapM hparameters hp
    obtain ⟨type, -, rfl⟩ := node_of_encodeParameter hp₀
    rfl
  have hinside : mentionsAll body = (m.body.toList.flatMap Expr.references).map (wording u) :=
    mentionsAll_of_mapM hbody fun e _ b hb => by
      obtain ⟨inner, hinner, rfl⟩ := node_of_encodeBody hb
      show mentions inner ++ [] = _
      rw [List.append_nil, mentions_of_encodeExpr e inner hinner]
  show mentionsHere (.element element _ []) ++ mentionsAll (parameters ++ attributes ++ body) = _
  rw [helement, mentionsAll_append, mentionsAll_append, hnone,
    mentions_of_encodeAttributes hattributes, hinside, MethodRecord.references,
    List.map_append]
  rfl

theorem mentions_of_accessors {element : String} {found : Option MethodId} {ns : List Node}
    (helement : ∀ attributes, mentionsHere (.element element attributes []) =
      [.accessor (Node.get? (.element element attributes []) "name")
        (Node.get? (.element element attributes []) "params")])
    (hns : found.toList.mapM (encodeAccessor u element) = .ok ns) :
    mentionsAll ns = (found.toList.map Reference.accessor).map (wording u) := by
  have hall : mentionsAll ns = (found.toList.flatMap fun m =>
    [Reference.accessor m]).map (wording u) :=
    mentionsAll_of_mapM hns fun m _ n hn => mentions_of_encodeAccessor hn helement
  rw [hall, ← List.map_eq_flatMap]

theorem mentions_of_encodeProperty {p : PropertyRecord} (hn : encodeProperty u p = .ok n) :
    mentions n = p.references.map (wording u) := by
  obtain ⟨type, -, hn⟩ := bind_eq_ok.mp hn
  obtain ⟨gs, hgs, hn⟩ := bind_eq_ok.mp hn
  obtain ⟨ss, hss, hn⟩ := bind_eq_ok.mp hn
  cases hn
  show mentionsAll ([] ++ (gs ++ ss)) = _
  rw [List.nil_append, mentionsAll_append, mentions_of_accessors (fun _ => rfl) hgs,
    mentions_of_accessors (fun _ => rfl) hss,
    PropertyRecord.references, List.map_append, List.map_append]

theorem mentions_of_encodeEvent {e : EventRecord} (hn : encodeEvent u e = .ok n) :
    mentions n = e.references.map (wording u) := by
  obtain ⟨type, -, hn⟩ := bind_eq_ok.mp hn
  obtain ⟨a, ha, hn⟩ := bind_eq_ok.mp hn
  obtain ⟨r, hr, hn⟩ := bind_eq_ok.mp hn
  obtain ⟨rs, hrs, hn⟩ := bind_eq_ok.mp hn
  cases hn
  show mentions a ++ (mentions r ++ mentionsAll rs) = _
  rw [mentions_of_encodeAccessor ha fun _ => rfl, mentions_of_encodeAccessor hr fun _ => rfl,
    mentions_of_accessors (fun _ => rfl) hrs]
  rfl

theorem mentions_of_encodeOverride {o : Override} (hn : encodeOverride u o = .ok n) :
    mentions n = o.references.map (wording u) := by
  obtain ⟨d, hd, hn⟩ := bind_eq_ok.mp hn
  obtain ⟨i, hi, hn⟩ := bind_eq_ok.mp hn
  obtain ⟨declaring, name, params, rfl⟩ := node_of_encodeMethodReference hd
  cases hn
  show [Mention.method (some declaring) (some name) (some params)] ++ (mentions i ++ []) = _
  rw [mentions_of_encodeAccessor hi fun _ => rfl]
  exact congrArg (fun w => [w, wording u (.accessor o.body)])
    (wording_of_encodeMethodReference hd).symm

/-! ### Types -/

theorem mentions_of_section {r : TypeRecord} {sec : Section} {ns : List Node}
    (hns : sec.encode u r = .ok ns) :
    mentionsAll ns = (sec.references r).map (wording u) := by
  cases sec with
  | interfaces =>
    refine mentionsAll_eq_nil fun n hn => ?_
    obtain ⟨i, -, hi⟩ := exists_of_mem_mapM hns hn
    obtain ⟨text, -, hi⟩ := bind_eq_ok.mp hi
    cases hi
    rfl
  | attributes => exact mentions_of_encodeAttributes hns
  | fields => exact mentionsAll_of_mapM hns fun f _ n hn => mentions_of_encodeField hn
  | constructors | initializer | methods =>
    exact mentionsAll_of_mapM hns fun m _ n hn => mentions_of_encodeMethod (fun _ => rfl) hn
  | properties => exact mentionsAll_of_mapM hns fun p _ n hn => mentions_of_encodeProperty hn
  | events => exact mentionsAll_of_mapM hns fun e _ n hn => mentions_of_encodeEvent hn
  | overrides => exact mentionsAll_of_mapM hns fun o _ n hn => mentions_of_encodeOverride hn

theorem mentionsAll_flatMap {β : Type} (items : List β) (f : β → List Node) :
    mentionsAll (items.flatMap f) = items.flatMap fun item => mentionsAll (f item) := by
  simp only [mentionsAll_eq_flatMap, List.flatMap_assoc]

theorem mentions_of_encodeType {t : TypeId} (hown : (u.record t).OwnInitializer t)
    (hn : encodeType u t = .ok n) :
    mentions n = (u.record t).references.map (wording u) := by
  obtain ⟨head, content, hhead, hinitializer, hcontent, rfl⟩ := encodeType_eq_ok.mp hn
  obtain ⟨base, -, rfl⟩ := encodeTypeHead_eq_ok.mp hhead
  rw [encodeInitializer_of_own hown] at hinitializer
  have hsection : ∀ sec : Section, mentionsAll (content sec) = (sec.references (u.record t)).map
      (wording u) := by
    intro sec
    by_cases hsec : sec = .initializer
    · subst hsec
      exact mentions_of_section hinitializer
    · exact mentions_of_section (hcontent sec hsec)
  have hhead : ∀ space name flags declaring base children,
      mentions ((typeNode space name flags declaring base).append children)
      = mentionsAll children := by
    intro space name flags declaring base children
    cases declaring <;> cases base <;> rfl
  rw [hhead, mentionsAll_flatMap, TypeRecord.references, List.map_flatMap]
  simp only [hsection]

end Artifact

end TypeLoom
