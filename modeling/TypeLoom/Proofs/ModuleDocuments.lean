import TypeLoom.Proofs.Documents
import TypeLoom.Proofs.CopiedStamps

/-!
# Documents of modules

Whatever types a module has, its document is read as the elements that the types were written as.
-/

namespace TypeLoom

open Markup

namespace Markup

theorem plain_of_keys {n : Node} (name : String) (keys : List String) (hname : n.name = name)
    (hkeys : n.attributes.map Prod.fst = keys) (hword : isWord name = true)
    (hwords : keys.all isWord = true) (hdistinct : keys.Nodup)
    (hchildren : ∀ c ∈ n.children, Plain c) :
    Plain n := by
  obtain ⟨_, attributes, children⟩ := n
  obtain rfl : _ = name := hname
  have hplain : PlainAttributes attributes :=
    ⟨fun a ha => List.all_eq_true.mp hwords a.1 (hkeys ▸ List.mem_map_of_mem ha), hkeys ▸ hdistinct⟩
  exact .element hword hplain hchildren

theorem plain_of_words {n : Node} (name : String) (keys : List String) (hname : n.name = name)
    (hkeys : n.attributes.map Prod.fst = keys)
    (hwords : (isWord name && keys.all isWord && decide keys.Nodup) = true)
    (hchildren : ∀ c ∈ n.children, Plain c) : Plain n := by
  rw [Bool.and_eq_true, Bool.and_eq_true, decide_eq_true_iff] at hwords
  exact plain_of_keys name keys hname hkeys hwords.1.1 hwords.1.2 hwords.2 hchildren

theorem Plain.append {n : Node} {more : List Node} (h : Plain n) (hmore : ∀ c ∈ more, Plain c) :
    Plain (n.append more) := by
  obtain ⟨hname, hattributes, hchildren⟩ := h
  refine .element hname hattributes fun c hc => ?_
  exact (List.mem_append.mp hc).elim (hchildren c) (hmore c)

theorem forall_plain_nil : ∀ c ∈ ([] : List Node), Plain c := fun _ hc => absurd hc List.not_mem_nil

theorem forall_plain_append {cs ds : List Node} (hcs : ∀ c ∈ cs, Plain c)
    (hds : ∀ c ∈ ds, Plain c) : ∀ c ∈ cs ++ ds, Plain c :=
  fun c hc => (List.mem_append.mp hc).elim (hcs c) (hds c)

theorem forall_plain_singleton {n : Node} (h : Plain n) : ∀ c ∈ [n], Plain c := fun c hc => by
  rw [List.mem_singleton.mp hc]
  exact h

end Markup

namespace Artifact

variable {u : Universe} {n : Node} {ns : List Node} {element : String}

theorem forall_plain_of_mapM {α : Type} {f : α → Except Fault Node} {items : List α}
    (h : ∀ item n, f item = .ok n → Plain n) (hns : items.mapM f = .ok ns) :
    ∀ c ∈ ns, Plain c := fun c hc => by
  obtain ⟨item, -, hitem⟩ := exists_of_mem_mapM hns hc
  exact h item c hitem

/-! ### Values and references -/

theorem plain_of_encodeMethodReference {m : MethodId} (helement : isWord element = true)
    (h : encodeMethodReference u element m = .ok n) :
    Plain n := by
  obtain ⟨declaring, name, params, rfl⟩ := node_of_encodeMethodReference h
  exact plain_of_keys element ["declaring", "name", "params"] rfl rfl helement (by decide)
    (by decide) forall_plain_nil

theorem plain_of_encodeFieldReference {f : FieldId} (helement : isWord element = true)
    (h : encodeFieldReference u element f = .ok n) :
    Plain n := by
  obtain ⟨declaring, name, rfl⟩ := node_of_encodeFieldReference h
  exact plain_of_keys element ["declaring", "name"] rfl rfl helement (by decide) (by decide)
    forall_plain_nil

theorem plain_of_encodeAccessor {m : MethodId} (helement : isWord element = true)
    (h : encodeAccessor u element m = .ok n) : Plain n := by
  obtain ⟨name, params, rfl⟩ := node_of_encodeAccessor h
  exact plain_of_keys element ["name", "params"] rfl rfl helement (by decide) (by decide)
    forall_plain_nil

theorem encodeParts_eq_map (items : List Part) : encodeParts items = items.map encodePart := by
  induction items with
  | nil => rfl
  | cons item items ih => rw [encodeParts, ih, List.map_cons]

theorem plain_encodePart (part : Part) : Plain (encodePart part) := by
  have hvalue : ∀ kind value, Plain (partNode kind value) := fun kind value =>
    plain_of_words "part" ["kind", "value"] rfl rfl (by decide) forall_plain_nil
  induction part using Part.induction with
  | bool value => exact hvalue _ _
  | int value => exact hvalue _ _
  | text value => exact hvalue _ _
  | list items ih =>
    rw [encodePart, encodeParts_eq_map]
    refine plain_of_words "part" ["kind"] rfl rfl (by decide) fun c hc => ?_
    obtain ⟨item, hitem, rfl⟩ := List.mem_map.mp hc
    exact ih item hitem

theorem plain_encodePart? (part : Option Part) : Plain (encodePart? part) := by
  cases part with
  | none => exact plain_of_words "part" ["kind"] rfl rfl (by decide) forall_plain_nil
  | some part => exact plain_encodePart part

theorem plain_of_encodeValue {value : Value} (h : encodeValue u value = .ok n) : Plain n := by
  have hbare : ∀ kind, Plain (valueNode kind) := fun kind =>
    plain_of_words "value" ["kind"] rfl rfl (by decide) forall_plain_nil
  have hvalued : ∀ kind text, Plain ((valueNode kind).attr "value" text) := fun kind text =>
    plain_of_words "value" ["kind", "value"] rfl rfl (by decide) forall_plain_nil
  cases value with
  | object o => cases h
  | type t =>
    cases h
    exact plain_of_words "value" ["kind", "type"] rfl rfl (by decide) forall_plain_nil
  | identifier id =>
    cases h
    refine plain_of_words "value" ["kind", "requested"] rfl rfl (by decide) fun c hc => ?_
    obtain ⟨part, -, rfl⟩ := List.mem_map.mp hc
    exact plain_encodePart? part
  | _ =>
    cases h
    first | exact hvalued _ _ | exact hbare _

/-! ### Expressions -/

theorem plain_of_encodeAll {items : List Expr}
    (h : ∀ e ∈ items, ∀ n, encodeExpr u e = .ok n → Plain n) (hns : encodeAll u items = .ok ns) :
    ∀ c ∈ ns, Plain c := fun c hc => by
  rw [encodeAll_eq_mapM] at hns
  obtain ⟨item, hitem, hn⟩ := exists_of_mem_mapM hns hc
  exact h item hitem c hn

theorem plain_of_encodeReceiver {receiver : Option Expr}
    (h : ∀ e ∈ receiver, ∀ n, encodeExpr u e = .ok n → Plain n)
    (hns : encodeReceiver u receiver = .ok ns) : ∀ c ∈ ns, Plain c := by
  cases receiver with
  | none =>
    cases hns
    exact forall_plain_nil
  | some e =>
    rw [encodeReceiver] at hns
    obtain ⟨inner, hinner, hns⟩ := bind_eq_ok.mp hns
    cases hns
    refine forall_plain_singleton ?_
    exact plain_of_words "instance" [] rfl rfl (by decide)
      (forall_plain_singleton (h e rfl inner hinner))

theorem plain_arguments {children : List Node} (h : ∀ c ∈ children, Plain c) :
    Plain ((Node.named "arguments").append children) :=
  plain_of_words "arguments" [] rfl rfl (by decide) h

theorem plain_of_encodeExpr (e : Expr) : ∀ n, encodeExpr u e = .ok n → Plain n := by
  induction e using Expr.induction with
  | constant value =>
    intro n hn
    rw [encodeExpr] at hn
    obtain ⟨inner, hinner, hn⟩ := bind_eq_ok.mp hn
    cases hn
    exact plain_of_words "constant" [] rfl rfl (by decide)
      (forall_plain_singleton (plain_of_encodeValue hinner))
  | this =>
    intro n hn
    cases hn
    exact plain_of_words "this" [] rfl rfl (by decide) forall_plain_nil
  | argument index =>
    intro n hn
    cases hn
    exact plain_of_words "argument" ["index"] rfl rfl (by decide) forall_plain_nil
  | block items ih =>
    intro n hn
    rw [encodeExpr] at hn
    obtain ⟨ns, hns, hn⟩ := bind_eq_ok.mp hn
    cases hn
    exact plain_of_words "block" [] rfl rfl (by decide) (plain_of_encodeAll ih hns)
  | call receiver method arguments dispatch hreceiver harguments =>
    intro n hn
    rw [encodeExpr] at hn
    obtain ⟨m, -, hn⟩ := bind_eq_ok.mp hn
    obtain ⟨reference, hreference, hn⟩ := bind_eq_ok.mp hn
    obtain ⟨rs, hrs, hn⟩ := bind_eq_ok.mp hn
    obtain ⟨as, has, hn⟩ := bind_eq_ok.mp hn
    obtain ⟨declaring, name, params, rfl⟩ := node_of_encodeMethodReference hreference
    cases hn
    have hinside := forall_plain_append (plain_of_encodeReceiver hreceiver hrs)
      (forall_plain_singleton (plain_arguments (plain_of_encodeAll harguments has)))
    exact plain_of_words "call" ["declaring", "name", "params", "dispatch"] rfl rfl
      (by decide) hinside
  | new constructor arguments harguments =>
    intro n hn
    rw [encodeExpr] at hn
    obtain ⟨m, -, hn⟩ := bind_eq_ok.mp hn
    obtain ⟨reference, hreference, hn⟩ := bind_eq_ok.mp hn
    obtain ⟨as, has, hn⟩ := bind_eq_ok.mp hn
    cases hn
    have hinside := forall_plain_singleton (plain_arguments (plain_of_encodeAll harguments has))
    exact (plain_of_encodeMethodReference (by decide) hreference).append hinside
  | load receiver field hreceiver =>
    intro n hn
    rw [encodeExpr] at hn
    obtain ⟨f, -, hn⟩ := bind_eq_ok.mp hn
    obtain ⟨reference, hreference, hn⟩ := bind_eq_ok.mp hn
    obtain ⟨rs, hrs, hn⟩ := bind_eq_ok.mp hn
    cases hn
    exact (plain_of_encodeFieldReference (by decide) hreference).append
      (plain_of_encodeReceiver hreceiver hrs)
  | store receiver field value hreceiver hvalue =>
    intro n hn
    rw [encodeExpr] at hn
    obtain ⟨f, -, hn⟩ := bind_eq_ok.mp hn
    obtain ⟨reference, hreference, hn⟩ := bind_eq_ok.mp hn
    obtain ⟨rs, hrs, hn⟩ := bind_eq_ok.mp hn
    obtain ⟨stored, hstored, hn⟩ := bind_eq_ok.mp hn
    cases hn
    have hinside : Plain ((Node.named "value-of").child stored) :=
      plain_of_words "value-of" [] rfl rfl (by decide)
        (forall_plain_singleton (hvalue stored hstored))
    exact ((plain_of_encodeFieldReference (by decide) hreference).append
      (plain_of_encodeReceiver hreceiver hrs)).append
      (forall_plain_singleton hinside)
  | binary op left right hleft hright =>
    intro n hn
    rw [encodeExpr] at hn
    obtain ⟨l, hl, hn⟩ := bind_eq_ok.mp hn
    obtain ⟨r, hr, hn⟩ := bind_eq_ok.mp hn
    cases hn
    have hinside : ∀ c ∈ [l, r], Plain c :=
      forall_plain_append (forall_plain_singleton (hleft l hl))
        (forall_plain_singleton (hright r hr))
    exact plain_of_words "binary" ["op"] rfl rfl (by decide) hinside
  | choose condition positive negative hcondition hpositive hnegative =>
    intro n hn
    rw [encodeExpr] at hn
    obtain ⟨c, hc, hn⟩ := bind_eq_ok.mp hn
    obtain ⟨p, hp, hn⟩ := bind_eq_ok.mp hn
    obtain ⟨m, hm, hn⟩ := bind_eq_ok.mp hn
    cases hn
    have hinside : ∀ d ∈ [c, p, m], Plain d :=
      forall_plain_append (forall_plain_singleton (hcondition c hc))
      (forall_plain_append (forall_plain_singleton (hpositive p hp))
        (forall_plain_singleton (hnegative m hm)))
    exact plain_of_words "condition" [] rfl rfl (by decide) hinside

/-! ### Members -/

theorem plain_of_encodeAttribute (a : Attribute) (n : Node) (h : encodeAttribute u a = .ok n) :
    Plain n := by
  obtain ⟨reference, hreference, h⟩ := bind_eq_ok.mp h
  obtain ⟨positional, hpositional, h⟩ := bind_eq_ok.mp h
  obtain ⟨named, hnamed, h⟩ := bind_eq_ok.mp h
  cases h
  refine (plain_of_encodeMethodReference (by decide) hreference).append (forall_plain_append ?_ ?_)
  · refine forall_plain_of_mapM (fun value n hn => ?_) hpositional
    obtain ⟨inner, hinner, rfl⟩ := node_of_encodePositional hn
    exact plain_of_words "positional" [] rfl rfl (by decide)
      (forall_plain_singleton (plain_of_encodeValue hinner))
  · refine forall_plain_of_mapM (fun value n hn => ?_) hnamed
    obtain ⟨inner, hinner, rfl⟩ := node_of_encodeNamed hn
    exact plain_of_words "named" ["name"] rfl rfl (by decide)
      (forall_plain_singleton (plain_of_encodeValue hinner))

theorem plain_of_encodeField (f : FieldRecord) (n : Node) (h : encodeField u f = .ok n) :
    Plain n := by
  obtain ⟨type, -, h⟩ := bind_eq_ok.mp h
  obtain ⟨attributes, hattributes, h⟩ := bind_eq_ok.mp h
  cases h
  exact plain_of_words "field" ["name", "type", "flags"] rfl rfl (by decide)
    (forall_plain_of_mapM plain_of_encodeAttribute hattributes)

theorem plain_of_encodeMethod (helement : isWord element = true) (m : MethodRecord) (n : Node)
    (h : encodeMethod u element m = .ok n) :
    Plain n := by
  obtain ⟨returns, -, h⟩ := bind_eq_ok.mp h
  obtain ⟨parameters, hparameters, h⟩ := bind_eq_ok.mp h
  obtain ⟨attributes, hattributes, h⟩ := bind_eq_ok.mp h
  obtain ⟨body, hbody, h⟩ := bind_eq_ok.mp h
  cases h
  have hplain : ∀ c ∈ parameters ++ attributes ++ body, Plain c := by
    refine forall_plain_append
      (forall_plain_append ?_ (forall_plain_of_mapM plain_of_encodeAttribute hattributes)) ?_
    · refine forall_plain_of_mapM (fun p n hn => ?_) hparameters
      obtain ⟨type, -, rfl⟩ := node_of_encodeParameter hn
      exact plain_of_words "param" ["name", "type"] rfl rfl (by decide) forall_plain_nil
    · refine forall_plain_of_mapM (fun e n hn => ?_) hbody
      obtain ⟨inner, hinner, rfl⟩ := node_of_encodeBody hn
      exact plain_of_words "body" [] rfl rfl (by decide)
        (forall_plain_singleton (plain_of_encodeExpr e inner hinner))
  exact plain_of_keys element ["name", "flags", "returns"] rfl rfl helement (by decide)
    (by decide) hplain

theorem plain_of_encodeProperty (p : PropertyRecord) (n : Node) (h : encodeProperty u p = .ok n) :
    Plain n := by
  obtain ⟨type, -, h⟩ := bind_eq_ok.mp h
  obtain ⟨getter, hgetter, h⟩ := bind_eq_ok.mp h
  obtain ⟨setter, hsetter, h⟩ := bind_eq_ok.mp h
  cases h
  have haccessors : ∀ c ∈ getter ++ setter, Plain c :=
    forall_plain_append (forall_plain_of_mapM (fun _ _ => plain_of_encodeAccessor (by decide))
      hgetter)
      (forall_plain_of_mapM (fun _ _ => plain_of_encodeAccessor (by decide)) hsetter)
  exact plain_of_words "property" ["name", "type"] rfl rfl (by decide) haccessors

theorem plain_of_encodeEvent (e : EventRecord) (n : Node) (h : encodeEvent u e = .ok n) :
    Plain n := by
  obtain ⟨type, -, h⟩ := bind_eq_ok.mp h
  obtain ⟨add, hadd, h⟩ := bind_eq_ok.mp h
  obtain ⟨remove, hremove, h⟩ := bind_eq_ok.mp h
  obtain ⟨raise, hraise, h⟩ := bind_eq_ok.mp h
  cases h
  have haccessors : ∀ c ∈ [add, remove] ++ raise, Plain c :=
    forall_plain_append (forall_plain_append
      (forall_plain_singleton (plain_of_encodeAccessor (by decide) hadd))
      (forall_plain_singleton (plain_of_encodeAccessor (by decide) hremove)))
      (forall_plain_of_mapM (fun _ _ => plain_of_encodeAccessor (by decide)) hraise)
  exact plain_of_words "event" ["name", "type"] rfl rfl (by decide) haccessors

theorem plain_of_encodeOverride (o : Override) (n : Node) (h : encodeOverride u o = .ok n) :
    Plain n := by
  obtain ⟨declaration, hdeclaration, h⟩ := bind_eq_ok.mp h
  obtain ⟨implementation, himplementation, h⟩ := bind_eq_ok.mp h
  cases h
  have hinside : ∀ c ∈ [declaration, implementation], Plain c :=
    forall_plain_append (forall_plain_singleton
      (plain_of_encodeMethodReference (by decide) hdeclaration))
      (forall_plain_singleton (plain_of_encodeAccessor (by decide) himplementation))
  exact plain_of_words "override" [] rfl rfl (by decide) hinside

/-! ### Types -/

theorem plain_of_section {r : TypeRecord} {sec : Section} (h : sec.encode u r = .ok ns) :
    ∀ c ∈ ns, Plain c := by
  cases sec with
  | interfaces =>
    refine forall_plain_of_mapM (fun i n hn => ?_) h
    obtain ⟨type, -, hn⟩ := bind_eq_ok.mp hn
    cases hn
    exact plain_of_words "interface" ["type"] rfl rfl (by decide) forall_plain_nil
  | attributes => exact forall_plain_of_mapM plain_of_encodeAttribute h
  | fields => exact forall_plain_of_mapM plain_of_encodeField h
  | constructors => exact forall_plain_of_mapM (plain_of_encodeMethod (by decide)) h
  | initializer => exact forall_plain_of_mapM (plain_of_encodeMethod (by decide)) h
  | methods => exact forall_plain_of_mapM (plain_of_encodeMethod (by decide)) h
  | properties => exact forall_plain_of_mapM plain_of_encodeProperty h
  | events => exact forall_plain_of_mapM plain_of_encodeEvent h
  | overrides => exact forall_plain_of_mapM plain_of_encodeOverride h

theorem plain_typeNode (space name : String) (flags : UInt32) (declaring base : Option String) :
    Plain (typeNode space name flags declaring base) := by
  cases declaring <;> cases base
  · exact plain_of_words "type" ["namespace", "name", "flags"] rfl rfl (by decide) forall_plain_nil
  · exact plain_of_words "type" ["namespace", "name", "flags", "base"] rfl rfl (by decide)
      forall_plain_nil
  · exact plain_of_words "type" ["namespace", "name", "flags", "declaring"] rfl rfl (by decide)
      forall_plain_nil
  · exact plain_of_words "type" ["namespace", "name", "flags", "declaring", "base"] rfl rfl
      (by decide) forall_plain_nil

theorem plain_of_encodeType (t : TypeId) (n : Node) (h : encodeType u t = .ok n) : Plain n := by
  obtain ⟨head, content, hhead, hinitializer, hcontent, rfl⟩ := encodeType_eq_ok.mp h
  obtain ⟨base, -, rfl⟩ := encodeTypeHead_eq_ok.mp hhead
  refine (plain_typeNode _ _ _ _ _).append fun c hc => ?_
  obtain ⟨sec, -, hc⟩ := List.mem_flatMap.mp hc
  by_cases hsec : sec = .initializer
  · subst hsec
    obtain ⟨m, -, hm⟩ := exists_of_mem_mapM hinitializer hc
    exact plain_of_encodeMethod (by decide) _ c hm
  · exact plain_of_section (hcontent sec hsec) c hc

theorem parse_render_module {header : Header} {types : List TypeId}
    (h : types.mapM (encodeType u) = .ok ns) :
    Node.parse (header.node.append ns).render = .ok (header.node.append ns) := by
  have hheader : Plain header.node :=
    plain_of_words "module" ["id", "name", "configuration"] rfl rfl (by decide) forall_plain_nil
  exact (hheader.append (forall_plain_of_mapM plain_of_encodeType h)).parse_render

end Artifact

end TypeLoom
