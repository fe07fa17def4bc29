import TypeLoom.Proofs.Bodies
import TypeLoom.Proofs.Building

/-!
# Records by kinds of elements

The element of a type holds its members in sections, one kind of element after the other. Reading a
type changes its record in one section at a time; the others are still written as before.
-/

namespace TypeLoom.Artifact

open Markup

/-- The kinds of elements inside the element of a type, in their order. -/
inductive Section
  | interfaces
  | attributes
  | fields
  | constructors
  | initializer
  | methods
  | properties
  | events
  | overrides
  deriving DecidableEq

namespace Section

def all : List Section :=
  [interfaces, attributes, fields, constructors, initializer, methods, properties,
    events, overrides]

def element : Section → String
  | interfaces => "interface"
  | attributes => "attribute"
  | fields => "field"
  | constructors => "constructor"
  | initializer => "initializer"
  | methods => "method"
  | properties => "property"
  | events => "event"
  | overrides => "override"

/-- What a record is written as in a section. -/
def encode (u : Universe) (r : TypeRecord) : Section → Except Fault (List Node)
  | interfaces => r.interfaces.toList.mapM (encodeInterface u)
  | attributes => r.attributes.toList.mapM (encodeAttribute u)
  | fields => r.fields.toList.mapM (encodeField u)
  | constructors => r.constructors.toList.mapM (encodeMethod u "constructor")
  | initializer => r.ownInitializer.toList.mapM (encodeMethod u "initializer")
  | methods => r.methods.toList.mapM (encodeMethod u "method")
  | properties => r.properties.toList.mapM (encodeProperty u)
  | events => r.events.toList.mapM (encodeEvent u)
  | overrides => r.overrides.toList.mapM (encodeOverride u)

end Section

def slotSection : Slot → Section
  | .method _ => .methods
  | .constructor _ => .constructors
  | .typeInitializer => .initializer

def slotPosition : Slot → Nat
  | .method index => index
  | .constructor index => index
  | .typeInitializer => 0

/-! ### One section at a time -/

/-- Nothing but one section of a record has changed, and what was there is still in place. -/
structure Touches (t : TypeId) (sec : Section) (r r' : TypeRecord) : Prop where
  keeps : TypeRecord.Keeps r r'
  proper : r.Proper t → r'.Proper t
  base : r'.base = r.base
  initializer : r'.initializer = r.initializer
  own : r'.ownInitializer.isSome = r.ownInitializer.isSome
  others : ∀ u other, other ≠ sec → other.encode u r' = other.encode u r

variable {t : TypeId} {r r' : TypeRecord} {u : Universe}

theorem touches_of {sec : Section} (hkeeps : TypeRecord.Keeps r r') (hbase : r'.base = r.base)
    (hconstructors : ∀ (index : Nat) (c : MethodRecord), r'.constructors[index]? = some c →
      c.name = ".ctor" ∨ ∃ c' : MethodRecord, r.constructors[index]? = some c' ∧ c.name = c'.name)
    (hinitializer : r'.initializer = r.initializer) (hown : r'.ownInitializer.isSome
      = r.ownInitializer.isSome)
    (hothers : ∀ u other, other ≠ sec → other.encode u r' = other.encode u r) :
      Touches t sec r r' :=
  ⟨hkeeps, fun h => h.keep hkeeps hconstructors hinitializer, hbase, hinitializer, hown, hothers⟩

theorem touches_interfaces (i : TypeId) (r : TypeRecord) :
    Touches t .interfaces r { r with interfaces := r.interfaces.push i } := by
  have houtline : TypeRecord.outline { r with interfaces := r.interfaces.push i }
      = r.outline.addInterface i := by
    simp [TypeRecord.outline, TypeOutline.addInterface]
  refine touches_of (.of_outline rfl rfl rfl rfl rfl ?_) rfl (fun _ c hc =>
    .inr ⟨c, hc, rfl⟩) rfl rfl ?_
  · rw [houtline]
    exact TypeOutline.keeps_addInterface i _
  · intro u other hother
    cases other <;> first | rfl | exact absurd rfl hother

theorem touches_attributes (a : Attribute) (r : TypeRecord) :
    Touches t .attributes r { r with attributes := r.attributes.push a } := by
  refine touches_of (.of_outline rfl rfl rfl rfl rfl (.refl _)) rfl (fun _ c hc =>
    .inr ⟨c, hc, rfl⟩) rfl rfl ?_
  intro u other hother
  cases other <;> first | rfl | exact absurd rfl hother

theorem touches_fields {fields : Array FieldRecord} (r : TypeRecord)
    (h : ∀ (index : Nat) (f : FieldRecord),
      r.fields[index]? = some f → ∃ f' : FieldRecord, fields[index]? = some f' ∧ f'.name = f.name) :
    Touches t .fields r { r with fields } := by
  refine touches_of ⟨rfl, rfl, rfl, rfl, .refl _, h⟩ rfl (fun _ c hc =>
    .inr ⟨c, hc, rfl⟩) rfl rfl ?_
  intro u other hother
  cases other <;> first | rfl | exact absurd rfl hother

theorem touches_pushField (f : FieldRecord) (r : TypeRecord) :
    Touches t .fields r { r with fields := r.fields.push f } := by
  refine touches_fields r fun index f' hf' => ⟨f', ?_, rfl⟩
  obtain ⟨hlt, rfl⟩ := Array.getElem?_eq_some_iff.mp hf'
  exact Array.getElem?_push_lt hlt

theorem touches_modifyField (index : Nat) {change : FieldRecord → FieldRecord} (r : TypeRecord)
    (h : ∀ f, (change f).name = f.name) :
    Touches t .fields r { r with fields := r.fields.modify index change } := by
  refine touches_fields r fun other f hf => ?_
  rw [Array.getElem?_modify, hf]
  by_cases hindex : index = other
  · exact ⟨change f, by simp [hindex], h f⟩
  · exact ⟨f, by simp [hindex], rfl⟩

theorem touches_pushConstructor {c : MethodRecord} (hname : c.name = ".ctor") (r : TypeRecord) :
    Touches t .constructors r { r with constructors := r.constructors.push c } := by
  have houtline : TypeRecord.outline { r with constructors := r.constructors.push c }
      = r.outline.addConstructor c.outline := by
    simp [TypeRecord.outline, TypeOutline.addConstructor]
  refine touches_of (.of_outline rfl rfl rfl rfl rfl ?_) rfl (fun index c' hc' => ?_) rfl rfl ?_
  · rw [houtline]
    exact TypeOutline.keeps_addConstructor _ _
  · rw [Array.getElem?_push] at hc'
    split at hc'
    · cases hc'
      exact .inl hname
    · exact .inr ⟨c', hc', rfl⟩
  · intro u other hother
    cases other <;> first | rfl | exact absurd rfl hother

theorem touches_pushMethod (m : MethodRecord) (r : TypeRecord) :
    Touches t .methods r { r with methods := r.methods.push m } := by
  have houtline : TypeRecord.outline { r with methods := r.methods.push m }
      = r.outline.addMethod m.outline := by
    simp [TypeRecord.outline, TypeOutline.addMethod]
  refine touches_of (.of_outline rfl rfl rfl rfl rfl ?_) rfl (fun _ c hc =>
    .inr ⟨c, hc, rfl⟩) rfl rfl ?_
  · rw [houtline]
    exact TypeOutline.keeps_addMethod _ _
  · intro u other hother
    cases other <;> first | rfl | exact absurd rfl hother

theorem touches_modifyMethod (slot : Slot) {change : MethodRecord → MethodRecord} (r : TypeRecord)
    (h : ∀ m, (change m).outline = m.outline) :
    Touches t (slotSection slot) r (r.modifyMethod slot change) := by
  have hname : ∀ m, (change m).name = m.name := fun m => congrArg MethodOutline.name (h m)
  have houtline : TypeOutline.Keeps r.outline (r.modifyMethod slot change).outline := by
    rw [TypeSpace.outline_modifyMethod r slot h]
    exact .refl _
  cases slot with
  | method index =>
    refine touches_of (.of_outline rfl rfl rfl rfl rfl houtline) rfl (fun _ c hc =>
      .inr ⟨c, hc, rfl⟩) rfl rfl ?_
    intro u other hother
    cases other <;> first | rfl | exact absurd rfl hother
  | constructor index =>
    refine touches_of (.of_outline rfl rfl rfl rfl rfl houtline) rfl (fun place c hc =>
      .inr ?_) rfl rfl ?_
    · change (r.constructors.modify index change)[place]? = some c at hc
      rw [Array.getElem?_modify] at hc
      split at hc
      · obtain ⟨c', hc', rfl⟩ := Option.map_eq_some_iff.mp hc
        exact ⟨c', hc', hname c'⟩
      · exact ⟨c, hc, rfl⟩
    · intro u other hother
      cases other <;> first | rfl | exact absurd rfl hother
  | typeInitializer =>
    refine touches_of (.of_outline rfl rfl rfl rfl rfl houtline) rfl (fun _ c hc =>
      .inr ⟨c, hc, rfl⟩) rfl ?_ ?_
    · exact Option.isSome_map
    · intro u other hother
      cases other <;> first | rfl | exact absurd rfl hother

theorem touches_properties (p : PropertyRecord) (r : TypeRecord) :
    Touches t .properties r { r with properties := r.properties.push p } := by
  refine touches_of (.of_outline rfl rfl rfl rfl rfl (.refl _)) rfl (fun _ c hc =>
    .inr ⟨c, hc, rfl⟩) rfl rfl ?_
  intro u other hother
  cases other <;> first | rfl | exact absurd rfl hother

theorem touches_events (e : EventRecord) (r : TypeRecord) :
    Touches t .events r { r with events := r.events.push e } := by
  refine touches_of (.of_outline rfl rfl rfl rfl rfl (.refl _)) rfl (fun _ c hc =>
    .inr ⟨c, hc, rfl⟩) rfl rfl ?_
  intro u other hother
  cases other <;> first | rfl | exact absurd rfl hother

theorem touches_overrides (o : Override) (r : TypeRecord) :
    Touches t .overrides r { r with overrides := r.overrides.push o } := by
  refine touches_of (.of_outline rfl rfl rfl rfl rfl ?_) rfl (fun _ c hc =>
    .inr ⟨c, hc, rfl⟩) rfl rfl ?_
  · rw [TypeOutline.outline_pushOverride]
    exact TypeOutline.keeps_addOverride o _
  · intro u other hother
    cases other <;> first | rfl | exact absurd rfl hother

/-! ### What a section is written as after a change -/

section Lists

variable {α : Type} {f : α → Except Fault Node} {ns before after : List Node}
  {n n' : Node} {item : α}

theorem mapM_append_eq_ok {items more : List α} {ms : List Node} (h : items.mapM f = .ok ns)
    (hmore : more.mapM f = .ok ms) :
    (items ++ more).mapM f = .ok (ns ++ ms) := by
  rw [List.mapM_append, h, ok_bind, hmore]
  rfl

theorem mapM_push {items : Array α} (h : items.toList.mapM f = .ok ns) (hitem : f item = .ok n) :
    (items.push item).toList.mapM f = .ok (ns ++ [n]) := by
  rw [Array.toList_push]
  exact mapM_append_eq_ok h (mapM_cons_eq_ok.mpr ⟨n, [], hitem, rfl, rfl⟩)

/-- A change of the item at a place changes the element at this place. -/
theorem mapM_modify {items : List α} {change : α → α}
    (h : items.mapM f = .ok (before ++ n :: after))
    (hchange : ∀ item, f item = .ok n → f (change item) = .ok n') :
    (items.modify before.length change).mapM f = .ok (before ++ n' :: after) := by
  induction before generalizing items with
  | nil =>
    cases items with
    | nil => cases h
    | cons item items =>
      obtain ⟨v, rest, hv, hrest, heq⟩ := mapM_cons_eq_ok.mp h
      cases heq
      exact mapM_cons_eq_ok.mpr ⟨n', after, hchange item hv, hrest, rfl⟩
  | cons first before ih =>
    cases items with
    | nil => cases h
    | cons item items =>
      obtain ⟨v, rest, hv, hrest, heq⟩ := mapM_cons_eq_ok.mp h
      cases heq
      rw [List.length_cons, List.modify_succ_cons]
      exact mapM_cons_eq_ok.mpr ⟨first, _, hv, ih hrest, rfl⟩

end Lists

theorem encode_modifyMethod (slot : Slot) {change : MethodRecord → MethodRecord}
    {before after : List Node} {n n' : Node}
    (h : (slotSection slot).encode u r = .ok (before ++ n :: after))
    (hplace : slotPosition slot = before.length) (hchange : ∀ m,
      encodeMethod u (slotSection slot).element m = .ok n →
      encodeMethod u (slotSection slot).element (change m) = .ok n') :
    (slotSection slot).encode u (r.modifyMethod slot change) = .ok (before ++ n' :: after) := by
  cases slot with
  | method index =>
    obtain rfl : index = before.length := hplace
    show (r.methods.modify before.length change).toList.mapM _ = _
    rw [Array.toList_modify]
    exact mapM_modify h hchange
  | constructor index =>
    obtain rfl : index = before.length := hplace
    show (r.constructors.modify before.length change).toList.mapM _ = _
    rw [Array.toList_modify]
    exact mapM_modify h hchange
  | typeInitializer =>
    obtain rfl : before = [] := List.length_eq_zero_iff.mp hplace.symm
    show (r.ownInitializer.map change).toList.mapM _ = _
    change r.ownInitializer.toList.mapM _ = _ at h
    cases hown : r.ownInitializer with
    | none =>
      rw [hown] at h
      cases h
    | some m =>
      rw [hown] at h
      obtain ⟨v, rest, hv, hrest, heq⟩ := mapM_cons_eq_ok.mp h
      cases heq
      exact mapM_cons_eq_ok.mpr ⟨n', after, hchange m hv, hrest, rfl⟩

/-! ### Elements of methods and fields -/

theorem name_of_encodeAttribute {a : Attribute} {n : Node} (hn : encodeAttribute u a = .ok n) :
    n.name = "attribute" := by
  obtain ⟨reference, hreference, hn⟩ := bind_eq_ok.mp hn
  obtain ⟨ps, -, hn⟩ := bind_eq_ok.mp hn
  obtain ⟨ns, -, hn⟩ := bind_eq_ok.mp hn
  obtain ⟨declaring, name, params, rfl⟩ := node_of_encodeMethodReference hreference
  cases hn
  rfl

theorem node_of_encodeParameter {p : Parameter} {n : Node} (hn : encodeParameter u p = .ok n) :
    ∃ type, encodeSignature u p.type = .ok type
    ∧ n = .element "param" [("name", p.name), ("type", type)] [] := by
  obtain ⟨type, htype, hn⟩ := bind_eq_ok.mp hn
  exact ⟨type, htype, (Except.ok.inj hn).symm⟩

theorem node_of_encodeBody {body : Expr} {n : Node} (hn : encodeBody u body = .ok n) :
    ∃ inner, encodeExpr u body = .ok inner ∧ n = .element "body" [] [inner] := by
  obtain ⟨inner, hinner, hn⟩ := bind_eq_ok.mp hn
  exact ⟨inner, hinner, (Except.ok.inj hn).symm⟩

def methodNode (element name returns : String) (flags : UInt32) (children : List Node) : Node :=
  .element element [("name", name), ("flags", flagsText flags), ("returns", returns)] children

theorem encodeMethod_eq_ok {element : String} {m : MethodRecord} {n : Node} :
    encodeMethod u element m = .ok n ↔ ∃ returns parameters attributes body,
      encodeSignature u m.signature.returns = .ok returns
      ∧ m.signature.parameters.mapM (encodeParameter u) = .ok parameters
        ∧ encodeAttributes u m.attributes = .ok attributes
        ∧ m.body.toList.mapM (encodeBody u) = .ok body
        ∧ n = methodNode element m.name returns m.flags (parameters ++ attributes ++ body) := by
  constructor
  · intro hn
    obtain ⟨returns, hreturns, hn⟩ := bind_eq_ok.mp hn
    obtain ⟨parameters, hparameters, hn⟩ := bind_eq_ok.mp hn
    obtain ⟨attributes, hattributes, hn⟩ := bind_eq_ok.mp hn
    obtain ⟨body, hbody, hn⟩ := bind_eq_ok.mp hn
    exact ⟨returns, parameters, attributes, body, hreturns, hparameters, hattributes, hbody,
      (Except.ok.inj hn).symm⟩
  · rintro ⟨returns, parameters, attributes, body, hreturns, hparameters, hattributes, hbody, rfl⟩
    rw [encodeMethod, hreturns, ok_bind, hparameters, ok_bind, hattributes, ok_bind, hbody]
    rfl

structure MethodChildren (parameters attributes body : List Node) : Prop where
  parameters : ∀ c ∈ parameters, c.name = "param"
  attributes : ∀ c ∈ attributes, c.name = "attribute"
  body : ∀ c ∈ body, c.name = "body"

theorem methodChildren {m : MethodRecord} {parameters attributes body : List Node}
    (hparameters : m.signature.parameters.mapM (encodeParameter u) = .ok parameters)
    (hattributes : encodeAttributes u m.attributes = .ok attributes)
    (hbody : m.body.toList.mapM (encodeBody u) = .ok body) :
    MethodChildren parameters attributes body := by
  refine ⟨fun c hc => ?_, fun c hc => ?_, fun c hc => ?_⟩
  · obtain ⟨p, -, hp⟩ := exists_of_mem_mapM hparameters hc
    obtain ⟨_, -, rfl⟩ := node_of_encodeParameter hp
    rfl
  · obtain ⟨a, -, ha⟩ := exists_of_mem_mapM hattributes hc
    exact name_of_encodeAttribute ha
  · obtain ⟨e, -, he⟩ := exists_of_mem_mapM hbody hc
    obtain ⟨_, -, rfl⟩ := node_of_encodeBody he
    rfl

namespace MethodChildren

variable {parameters attributes body : List Node} (h : MethodChildren parameters attributes body)
include h

theorem filter_param : (parameters ++ attributes ++ body).filter (fun c => c.name == "param")
    = parameters := by
  simp [List.filter_append, filter_name h.parameters, filter_name h.attributes, filter_name h.body]

theorem filter_attribute :
    (parameters ++ attributes ++ body).filter (fun c => c.name == "attribute") = attributes := by
  simp [List.filter_append, filter_name h.parameters, filter_name h.attributes, filter_name h.body]

theorem filter_body : (parameters ++ attributes ++ body).filter (fun c => c.name == "body")
    = body := by
  simp [List.filter_append, filter_name h.parameters, filter_name h.attributes, filter_name h.body]

theorem name_ne_body {c : Node} (hc : c ∈ parameters ++ attributes) : c.name ≠ "body" := by
  rcases List.mem_append.mp hc with hc | hc
  · rw [h.parameters c hc]
    decide
  · rw [h.attributes c hc]
    decide

end MethodChildren

theorem body_eq_none {element : String} {m : MethodRecord} {n : Node}
    (hn : encodeMethod u element m = .ok n) (hbody : ∀ c ∈ n.children, c.name ≠ "body") :
    m.body = none := by
  obtain ⟨returns, parameters, attributes, body, -, -, -, hb, rfl⟩ := encodeMethod_eq_ok.mp hn
  cases hm : m.body with
  | none => rfl
  | some e =>
    rw [hm] at hb
    obtain ⟨b, rest, hfirst, -, rfl⟩ := mapM_cons_eq_ok.mp hb
    obtain ⟨inner, -, rfl⟩ := node_of_encodeBody hfirst
    exact absurd rfl (hbody _ (List.mem_append_right _ List.mem_cons_self))

theorem encodeMethod_pushAttribute {element : String} {m : MethodRecord} {a : Attribute}
    {n added : Node} (hn : encodeMethod u element m = .ok n)
    (hbody : ∀ c ∈ n.children, c.name ≠ "body") (ha : encodeAttribute u a = .ok added) :
    encodeMethod u element { m with attributes := m.attributes.push a }
        = .ok (n.append [added]) := by
  have hnone := body_eq_none hn hbody
  obtain ⟨returns, parameters, attributes, body, hreturns, hparameters, hattributes, hb, rfl⟩ :=
    encodeMethod_eq_ok.mp hn
  rw [hnone] at hb
  cases hb
  refine encodeMethod_eq_ok.mpr ⟨returns, parameters, attributes ++ [added], [],
    hreturns, hparameters,
    mapM_push hattributes ha, ?_, ?_⟩
  · show m.body.toList.mapM _ = _
    rw [hnone]
    rfl
  · simp [Node.append, methodNode, Node.name, Node.attributes, Node.children]

theorem encodeMethod_setBody {element : String} {m : MethodRecord} {e : Expr} {n body : Node}
    (hn : encodeMethod u element m = .ok n) (hbody : ∀ c ∈ n.children, c.name ≠ "body")
    (he : encodeBody u e = .ok body) :
    encodeMethod u element { m with body := some e } = .ok (n.append [body]) := by
  have hnone := body_eq_none hn hbody
  obtain ⟨returns, parameters, attributes, none, hreturns, hparameters, hattributes, hb, rfl⟩ :=
    encodeMethod_eq_ok.mp hn
  rw [hnone] at hb
  cases hb
  refine encodeMethod_eq_ok.mpr ⟨returns, parameters, attributes, [body], hreturns,
    hparameters, hattributes,
    mapM_cons_eq_ok.mpr ⟨body, [], he, rfl, rfl⟩, ?_⟩
  simp [Node.append, methodNode, Node.name, Node.attributes, Node.children]

theorem encodeField_pushAttribute {f : FieldRecord} {a : Attribute} {n added : Node}
    (hn : encodeField u f = .ok n) (ha : encodeAttribute u a = .ok added) :
    encodeField u { f with attributes := f.attributes.push a } = .ok (n.append [added]) := by
  obtain ⟨type, htype, hn⟩ := bind_eq_ok.mp hn
  obtain ⟨attributes, hattributes, hn⟩ := bind_eq_ok.mp hn
  cases hn
  have hpush : encodeAttributes u (f.attributes.push a) = .ok (attributes ++ [added]) :=
    mapM_push hattributes ha
  rw [encodeField, htype, ok_bind, hpush]
  refine congrArg Except.ok ?_
  simp [Node.append, Node.attr, Node.named, Node.name, Node.attributes, Node.children]

end TypeLoom.Artifact
