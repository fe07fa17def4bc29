import TypeLoom.Proofs.Carrying
import TypeLoom.Proofs.Copies

/-!
# Copies of stamped types

Types of two programs that are written as the same element say the same in words. So the copy of a
type that carries an identifier carries one too: the identifier that the words stand for where the
copy is read.
-/

namespace TypeLoom.Artifact

open Markup

variable {u u' : Universe} {n : Node} {e : Expr}

/-! ### Elements of expressions -/

def elementName : Expr → String
  | .constant _ => "constant"
  | .this => "this"
  | .argument _ => "argument"
  | .block _ => "block"
  | .call .. => "call"
  | .new .. => "new"
  | .load .. => "load"
  | .store .. => "store"
  | .binary .. => "binary"
  | .choose .. => "condition"

theorem name_of_encodeMethodReference {element : String} {m : MethodId}
    (h : encodeMethodReference u element m = .ok n) :
    n.name = element := by
  unfold encodeMethodReference at h
  split at h
  · cases h
  · obtain ⟨parameters, -, h⟩ := bind_eq_ok.mp h
    cases h
    rfl

theorem name_of_encodeFieldReference {element : String} {f : FieldId}
    (h : encodeFieldReference u element f = .ok n) :
    n.name = element := by
  unfold encodeFieldReference at h
  split at h
  · cases h
  · cases h
    rfl

theorem name_of_encodeExpr (h : encodeExpr u e = .ok n) : n.name = elementName e := by
  cases e with
  | this =>
    rw [encodeExpr] at h
    cases h
    rfl
  | argument index =>
    rw [encodeExpr] at h
    cases h
    rfl
  | call receiver method arguments dispatch =>
    rw [encodeExpr] at h
    obtain ⟨m, -, h⟩ := bind_eq_ok.mp h
    obtain ⟨reference, hreference, h⟩ := bind_eq_ok.mp h
    obtain ⟨receiver, -, h⟩ := bind_eq_ok.mp h
    obtain ⟨arguments, -, h⟩ := bind_eq_ok.mp h
    cases h
    show reference.name = "call"
    exact name_of_encodeMethodReference hreference
  | new constructor arguments =>
    rw [encodeExpr] at h
    obtain ⟨m, -, h⟩ := bind_eq_ok.mp h
    obtain ⟨reference, hreference, h⟩ := bind_eq_ok.mp h
    obtain ⟨arguments, -, h⟩ := bind_eq_ok.mp h
    cases h
    show reference.name = "new"
    exact name_of_encodeMethodReference hreference
  | load receiver field =>
    rw [encodeExpr] at h
    obtain ⟨f, -, h⟩ := bind_eq_ok.mp h
    obtain ⟨reference, hreference, h⟩ := bind_eq_ok.mp h
    obtain ⟨receiver, -, h⟩ := bind_eq_ok.mp h
    cases h
    show reference.name = "load"
    exact name_of_encodeFieldReference hreference
  | store receiver field value =>
    rw [encodeExpr] at h
    obtain ⟨f, -, h⟩ := bind_eq_ok.mp h
    obtain ⟨reference, hreference, h⟩ := bind_eq_ok.mp h
    obtain ⟨receiver, -, h⟩ := bind_eq_ok.mp h
    obtain ⟨value, -, h⟩ := bind_eq_ok.mp h
    cases h
    show reference.name = "store"
    exact name_of_encodeFieldReference hreference
  | constant value =>
    rw [encodeExpr] at h
    obtain ⟨value, -, h⟩ := bind_eq_ok.mp h
    cases h
    rfl
  | block items =>
    rw [encodeExpr] at h
    obtain ⟨items, -, h⟩ := bind_eq_ok.mp h
    cases h
    rfl
  | binary op left right =>
    rw [encodeExpr] at h
    obtain ⟨left, -, h⟩ := bind_eq_ok.mp h
    obtain ⟨right, -, h⟩ := bind_eq_ok.mp h
    cases h
    rfl
  | choose condition positive negative =>
    rw [encodeExpr] at h
    obtain ⟨condition, -, h⟩ := bind_eq_ok.mp h
    obtain ⟨positive, -, h⟩ := bind_eq_ok.mp h
    obtain ⟨negative, -, h⟩ := bind_eq_ok.mp h
    cases h
    rfl

theorem encodeAll_eq_mapM (items : List Expr) : encodeAll u items = items.mapM (encodeExpr u) := by
  induction items with
  | nil => rfl
  | cons item items ih =>
    rw [encodeAll, List.mapM_cons, ih]

theorem eq_block_of_name (h : encodeExpr u e = .ok n) (hname : n.name = "block") :
    ∃ items, e = .block items ∧ items.mapM (encodeExpr u) = .ok n.children := by
  have hsame := (name_of_encodeExpr h).symm.trans hname
  cases e with
  | block items =>
    rw [encodeExpr] at h
    obtain ⟨ns, hns, h⟩ := bind_eq_ok.mp h
    cases h
    rw [encodeAll_eq_mapM] at hns
    exact ⟨items, rfl, hns⟩
  | _ => simp [elementName] at hsame

theorem eq_constant_of_name (h : encodeExpr u e = .ok n) (hname : n.name = "constant") :
    ∃ v m, e = .constant v ∧ encodeValue u v = .ok m ∧ n.children = [m] := by
  have hsame := (name_of_encodeExpr h).symm.trans hname
  cases e with
  | constant v =>
    rw [encodeExpr] at h
    obtain ⟨m, hm, h⟩ := bind_eq_ok.mp h
    cases h
    exact ⟨v, m, rfl, hm, rfl⟩
  | _ => simp [elementName] at hsame

theorem eq_identifier_of_kind {v : Value} (h : encodeValue u v = .ok n)
    (hkind : n.get? "kind" = some "identifier") :
    ∃ id, v = .identifier id ∧ n.get? "requested" = some (u.fullName id.requested)
    ∧ n.children = id.parts.map encodePart? := by
  cases v with
  | identifier id =>
    cases h
    exact ⟨id, rfl, rfl, rfl⟩
  | object o => cases h
  | _ =>
    cases h
    simp [Node.get?, Node.attr, valueNode, Node.named, Node.attributes] at hkind

theorem eq_store_of_name (h : encodeExpr u e = .ok n) (hname : n.name = "store") :
    ∃ receiver f value rs m, e = .store receiver (.member f) value
    ∧ n.get? "declaring" = some (u.fullName f.owner)
      ∧ n.get? "name" = some (u.field f).name ∧ encodeReceiver u receiver = .ok rs
      ∧ encodeExpr u value = .ok m
      ∧ n.children = rs ++ [.element "value-of" [] [m]] := by
  have hsame := (name_of_encodeExpr h).symm.trans hname
  cases e with
  | store receiver field value =>
    rw [encodeExpr] at h
    obtain ⟨f, hf, h⟩ := bind_eq_ok.mp h
    obtain ⟨reference, hreference, h⟩ := bind_eq_ok.mp h
    obtain ⟨rs, hrs, h⟩ := bind_eq_ok.mp h
    obtain ⟨m, hm, h⟩ := bind_eq_ok.mp h
    cases h
    cases field with
    | draft h => cases hf
    | member g =>
      rw [requireFieldTarget] at hf
      split at hf
      · cases hf
        rename_i hpresent
        rw [encodeFieldReference, Universe.fieldOwner?, Universe.present?,
          if_pos hpresent] at hreference
        cases hreference
        exact ⟨receiver, f, value, rs, m, rfl, rfl, rfl, hrs, hm, rfl⟩
      · cases hf
  | _ => simp [elementName] at hsame

/-! ### Elements of types -/

theorem text_of_class {b : TypeId} {text : String} (h : encodeSignature u (.ofClass b) = .ok text) :
    text = "class:" ++ u.fullName b := by
  rw [encodeSignature] at h
  split at h
  · exact (Except.ok.inj h).symm
  · cases h

theorem base_of_encodeType {t c b : TypeId} (hn : encodeType u t = .ok n)
    (hn' : encodeType u' c = .ok n) (hb : (u.record t).base = some b) :
    ∃ b', (u'.record c).base = some b' ∧ u'.fullName b' = u.fullName b := by
  obtain ⟨head, content, hhead, -, -, rfl⟩ := encodeType_eq_ok.mp hn
  obtain ⟨head', content', hhead', -, -, hsame⟩ := encodeType_eq_ok.mp hn'
  obtain ⟨base, hbase, rfl⟩ := encodeTypeHead_eq_ok.mp hhead
  obtain ⟨base', hbase', rfl⟩ := encodeTypeHead_eq_ok.mp hhead'
  have hsame : base' = base := by
    rw [← (get?_typeNode _ _ _ _ base' (Section.all.flatMap content')).2.2.2.2, ← hsame]
    exact (get?_typeNode _ _ _ _ base (Section.all.flatMap content)).2.2.2.2
  subst hsame
  rw [hb] at hbase
  obtain ⟨text, htext, hbase⟩ := bind_eq_ok.mp hbase
  cases hbase
  cases hbase'' : (u'.record c).base with
  | none =>
    rw [hbase''] at hbase'
    cases hbase'
  | some b' =>
    rw [hbase''] at hbase'
    obtain ⟨text', htext', hbase'⟩ := bind_eq_ok.mp hbase'
    cases hbase'
    refine ⟨b', rfl, ?_⟩
    have heq := (text_of_class htext').symm.trans (text_of_class htext)
    simpa using heq

theorem eq_stamp_of_encode {f : FieldId} {id : Identifier}
    (h : encodeExpr u (.storeStatic (.member f) (.constant (.identifier id))) = .ok n)
    (h' : encodeExpr u' e = .ok n) :
    ∃ f' id', e = .storeStatic (.member f') (.constant (.identifier id'))
      ∧ u'.fullName f'.owner = u.fullName f.owner
      ∧ (u'.field f').name = (u.field f).name ∧ u'.fullName id'.requested = u.fullName id.requested
      ∧ id'.parts = id.parts := by
  have hname := name_of_encodeExpr h
  obtain ⟨receiver, g, value, rs, m, heq, hdeclaring, hfield, hrs, hm, hchildren⟩ :=
    eq_store_of_name h hname
  obtain ⟨receiver', f', value', rs', m', rfl, hdeclaring', hfield', hrs', hm', hchildren'⟩ :=
    eq_store_of_name h' hname
  cases heq
  cases hrs
  rw [hchildren] at hchildren'
  have hreceiver : receiver' = none ∧ m' = m := by
    cases receiver' with
    | none =>
      cases hrs'
      simp at hchildren'
      exact ⟨rfl, hchildren'.symm⟩
    | some inner =>
      obtain ⟨r, -, hrs'⟩ := bind_eq_ok.mp hrs'
      cases hrs'
      simp at hchildren'
  obtain ⟨rfl, rfl⟩ := hreceiver
  obtain ⟨v, w, hv, hw, hinside⟩ := eq_constant_of_name hm (name_of_encodeExpr hm)
  cases hv
  obtain ⟨v', w', rfl, hw', hinside'⟩ := eq_constant_of_name hm' (name_of_encodeExpr hm)
  rw [hinside] at hinside'
  cases hinside'
  have hkind : w.get? "kind" = some "identifier" := by
    cases hw
    rfl
  obtain ⟨id₁, hid₁, hrequested, hparts⟩ := eq_identifier_of_kind hw hkind
  cases hid₁
  obtain ⟨id', rfl, hrequested', hparts'⟩ := eq_identifier_of_kind hw' hkind
  refine ⟨f', id', rfl, ?_, ?_, ?_, ?_⟩
  · exact Option.some.inj (hdeclaring'.symm.trans hdeclaring)
  · exact Option.some.inj (hfield'.symm.trans hfield)
  · exact Option.some.inj (hrequested'.symm.trans hrequested)
  · have hread := mapM_decodePart id'.parts
    rw [← hparts', hparts, mapM_decodePart] at hread
    exact (Except.ok.inj hread).symm

theorem body_of_encodeMethod {element : String} {m m' : MethodRecord}
    (h : encodeMethod u element m = .ok n) (h' : encodeMethod u' element m' = .ok n) {body : Expr}
    (hbody : m.body = some body) :
    ∃ body' inner, m'.body = some body' ∧ encodeExpr u body = .ok inner
        ∧ encodeExpr u' body' = .ok inner := by
  obtain ⟨returns, parameters, attributes, bodies, -, hparameters, hattributes, hbodies, rfl⟩ :=
    encodeMethod_eq_ok.mp h
  obtain ⟨returns', parameters', attributes', bodies', -, hparameters', hattributes', hbodies',
    hsame⟩ := encodeMethod_eq_ok.mp h'
  have hchildren : parameters ++ attributes ++ bodies = parameters' ++ attributes' ++ bodies' :=
    congrArg Node.children hsame
  have hsame : bodies' = bodies := by
    rw [← (methodChildren hparameters' hattributes' hbodies').filter_body, ← hchildren,
      (methodChildren hparameters hattributes hbodies).filter_body]
  subst hsame
  obtain ⟨hsome, hpair⟩ := pairs_of_mapM hbodies hbodies' 0
  cases hbody' : m'.body with
  | none => simp [hbody, hbody'] at hsome
  | some body' =>
    obtain ⟨v, hv, hv'⟩ := hpair body body' (by simp [hbody]) (by simp [hbody'])
    obtain ⟨inner, hinner, rfl⟩ := node_of_encodeBody hv
    obtain ⟨inner', hinner', hsame⟩ := node_of_encodeBody hv'
    cases hsame
    exact ⟨body', inner, rfl, hinner, hinner'⟩

theorem stamp_of_encode {items : List Expr} {f : FieldId} {id : Identifier}
    (h : encodeExpr u (.block items) = .ok n) (h' : encodeExpr u' e = .ok n)
    (hmem : .storeStatic (.member f) (.constant (.identifier id)) ∈ items) :
    ∃ items' f' id', e = .block items'
      ∧ .storeStatic (.member f') (.constant (.identifier id')) ∈ items'
      ∧ u'.fullName f'.owner = u.fullName f.owner ∧ (u'.field f').name = (u.field f).name
      ∧ u'.fullName id'.requested = u.fullName id.requested ∧ id'.parts = id.parts := by
  have hname := name_of_encodeExpr h
  obtain ⟨items₁, heq, hitems⟩ := eq_block_of_name h hname
  cases heq
  obtain ⟨items', rfl, hitems'⟩ := eq_block_of_name h' hname
  obtain ⟨index, hindex⟩ := List.mem_iff_getElem?.mp hmem
  obtain ⟨hsome, hpair⟩ := pairs_of_mapM hitems hitems' index
  rw [hindex, Option.isSome_some] at hsome
  obtain ⟨item', hitem'⟩ := Option.isSome_iff_exists.mp hsome
  obtain ⟨v, hv, hv'⟩ := hpair _ _ hindex hitem'
  obtain ⟨f', id', rfl, hrest⟩ := eq_stamp_of_encode hv hv'
  exact ⟨items', f', id', rfl, List.mem_of_getElem? hitem', hrest⟩

/-! ### Copies -/

variable {s : Scope} {t c b : TypeId} {space : TypeSpace} {copies : List TypeId} {name : String}

theorem Scope.Ready.eq_of_finds {first : Nat} (h : s.Ready first) (hb : s.Finds b)
    (hname : s.program.fullName b = name) (hc : s.type name = .ok c) : b = c := by
  obtain ⟨found, hfound⟩ := hb
  rw [← hname, (h.type_ok hfound).2.fullName, hfound] at hc
  exact Except.ok.inj hc

theorem Scope.Ready.finds_of_method {first : Nat} (h : s.Ready first) {m : MethodId}
    (hm : s.Binds c (.method m)) :
    s.Finds m.owner := by
  obtain ⟨declaring, owner, name, types, howner, hm⟩ := hm
  rw [(sought?_of_methodOn? (h.proper owner (h.type_ok howner).1) hm).1]
  exact ⟨declaring, howner⟩

theorem finds_of_field {f : FieldId} (hf : s.Binds c (.field f)) :
    s.Finds f.owner ∧ f ∈ s.program.fieldsOf f.owner := by
  obtain ⟨declaring, owner, name, howner, hf⟩ := hf
  have hsame := (ownField?_of_found hf).1
  subst hsame
  exact ⟨⟨declaring, howner⟩, List.mem_of_find?_eq_some hf⟩

theorem owner_of_encodeMethodReference {element : String} {m : MethodId}
    (h : encodeMethodReference u element m = .ok n) :
    n.get? "declaring" = some (u.fullName m.owner) := by
  unfold encodeMethodReference at h
  split at h
  · cases h
  · rename_i owner howner
    obtain ⟨parameters, -, h⟩ := bind_eq_ok.mp h
    cases h
    unfold Universe.methodOwner? Universe.present? at howner
    split at howner
    · cases howner
      rfl
    · cases howner

theorem owner_of_encodeAttribute {a : Attribute} (h : encodeAttribute u a = .ok n) :
    n.get? "declaring" = some (u.fullName a.constructor.owner) := by
  obtain ⟨reference, hreference, h⟩ := bind_eq_ok.mp h
  obtain ⟨positional, -, h⟩ := bind_eq_ok.mp h
  obtain ⟨named, -, h⟩ := bind_eq_ok.mp h
  cases h
  show reference.get? "declaring" = _
  exact owner_of_encodeMethodReference hreference

/-- What names stand for where a copy is read: the copy itself, the mark, and the type that was
requested. -/
structure Scope.Recognizes (s : Scope) (u : Universe) (t c mark mark' : TypeId)
    (id id' : Identifier) : Prop where
  copy : s.type (u.fullName t) = .ok c
  mark : s.type (u.fullName mark) = .ok mark'
  requested : s.type (u.fullName id.requested) = .ok id'.requested
  parts : id'.parts = id.parts

section Carrying

variable {mark mark' : TypeId} {id id' : Identifier} {f : FieldId} (hread : ReadInto space copies s)
  (hc : c ∈ copies)
  (hknown : s.Recognizes u f.owner c mark mark' id id')
include hread hc hknown

theorem mark_of_copy (h : Section.attributes.encode u (u.record f.owner)
      = .ok (n.childrenNamed "attribute"))
    (h' : Section.attributes.encode s.program (s.program.record c)
      = .ok (n.childrenNamed "attribute"))
    (hmark : ∃ a ∈ (u.record f.owner).attributes, a.constructor.owner = mark) :
    ∃ a ∈ (s.program.record c).attributes, a.constructor.owner = mark' := by
  obtain ⟨a, ha, hmark⟩ := hmark
  obtain ⟨index, hindex⟩ := List.mem_iff_getElem?.mp (Array.mem_toList_iff.mpr ha)
  obtain ⟨hsome, hpair⟩ := pairs_of_mapM h h' index
  rw [hindex, Option.isSome_some] at hsome
  obtain ⟨a', ha'⟩ := Option.isSome_iff_exists.mp hsome
  obtain ⟨v, hv, hv'⟩ := hpair a a' hindex ha'
  have hmem := List.mem_of_getElem? ha'
  refine ⟨a', Array.mem_toList_iff.mp hmem, ?_⟩
  have hbinds :=
    hread.references c hc _ (mem_references.mpr ⟨.attributes, List.mem_map.mpr ⟨a', hmem, rfl⟩⟩)
  have hname : s.program.fullName a'.constructor.owner = u.fullName mark := by
    rw [← hmark]
    exact Option.some.inj ((owner_of_encodeAttribute hv').symm.trans (owner_of_encodeAttribute hv))
  exact hread.ready.eq_of_finds (hread.ready.finds_of_method hbinds) hname hknown.mark

theorem stores_of_copy (h : Section.initializer.encode u (u.record f.owner)
      = .ok (n.childrenNamed "initializer"))
    (h' : Section.initializer.encode s.program (s.program.record c)
      = .ok (n.childrenNamed "initializer"))
    (hfield : (u.field f).name = identifierFieldName)
    (halone : ∀ (i : Nat) own, (s.program.record c).fields[i]? = some own →
      own.name = identifierFieldName → i = f.index)
    (hstores : ∃ own items, (u.record f.owner).ownInitializer = some own
      ∧ own.body = some (.block items)
      ∧ .storeStatic (.member f) (.constant (.identifier id)) ∈ items) :
    ∃ own items, (s.program.record c).ownInitializer = some own ∧ own.body = some (.block items)
      ∧ .storeStatic (.member ⟨c, f.index⟩) (.constant (.identifier id')) ∈ items := by
  obtain ⟨own, items, hown, hbody, hstamp⟩ := hstores
  obtain ⟨hsome, hpair⟩ := pairs_of_mapM h h' 0
  cases hown' : (s.program.record c).ownInitializer with
  | none => simp [hown, hown'] at hsome
  | some own' =>
    obtain ⟨v, hv, hv'⟩ := hpair own own' (by simp [hown]) (by simp [hown'])
    obtain ⟨body', inner, hbody', hinner, hinner'⟩ := body_of_encodeMethod hv hv' hbody
    obtain ⟨items', f', id₁, rfl, hstamp', howner, hname, hrequested, hparts⟩ :=
      stamp_of_encode hinner hinner' hstamp
    have hfound : s.Binds c (.field f') := by
      refine hread.references c hc _
        (mem_references.mpr ⟨.initializer, List.mem_flatMap.mpr ⟨own', by simp [hown'], ?_⟩⟩)
      refine List.mem_append_right _ (List.mem_flatMap.mpr ⟨.block items',
        Option.mem_toList.mpr hbody', ?_⟩)
      rw [Expr.references_block]
      exact List.mem_flatMap.mpr ⟨_, hstamp', by
        rw [Expr.storeStatic, Expr.references_store]; exact List.mem_cons_self⟩
    have hrequested' : s.Finds id₁.requested := by
      refine hread.named c hc _ (List.mem_append_right _ (List.mem_flatMap.mpr ⟨own', by
        simp [hown'], ?_⟩))
      refine List.mem_flatMap.mpr ⟨.block items', Option.mem_toList.mpr hbody',
        List.mem_filterMap.mpr ⟨.constant (.identifier id₁), ?_, rfl⟩⟩
      exact List.mem_cons_of_mem _
        (Expr.mem_nodesAll hstamp'
        (List.mem_cons_of_mem _ (List.mem_append_right _ List.mem_cons_self)))
    have hid : id₁ = id' := by
      have hsame := hread.ready.eq_of_finds hrequested' hrequested hknown.requested
      obtain ⟨requested, parts⟩ := id₁
      obtain ⟨requested', parts'⟩ := id'
      obtain rfl : requested = requested' := hsame
      obtain rfl : parts = parts' := hparts.trans hknown.parts.symm
      rfl
    have hself : f' = ⟨c, f.index⟩ := by
      obtain ⟨hfinds, hmem⟩ := finds_of_field hfound
      obtain ⟨owner, index⟩ := f'
      obtain rfl : owner = c := hread.ready.eq_of_finds hfinds howner hknown.copy
      obtain ⟨i, hi, hsame⟩ := List.mem_map.mp hmem
      cases hsame
      have hlt : index < (s.program.record owner).fields.size := List.mem_range.mp hi
      have hrow : (s.program.record owner).fields[index]?
        = some (s.program.record owner).fields[index] := Array.getElem?_eq_getElem hlt
      have hnamed : (s.program.field ⟨owner, index⟩).name = identifierFieldName :=
        hname.trans hfield
      rw [Universe.field, Universe.field?, hrow, Option.getD_some] at hnamed
      rw [halone index _ hrow hnamed]
    subst hid hself
    exact ⟨own', items', rfl, hbody', hstamp'⟩

/-- The copy of a type that carries an identifier carries it, as far as names tell. -/
theorem carries_of_copy (hnames : u.UsualNames f.owner) (hn : encodeType u f.owner = .ok n)
    (hn' : encodeType s.program c = .ok n) (hcarries : (u.record f.owner).Carries mark id f) :
    (s.program.record c).Carries mark' id' ⟨c, f.index⟩ := by
  have hown : (u.record f.owner).OwnInitializer f.owner := by
    obtain ⟨own, -, hown, -⟩ := hcarries.stores
    rw [TypeRecord.OwnInitializer, hcarries.initializer, hown]
    rfl
  have hsections := sections_of_encodeType hnames hown hn
  have hsections' :=
    sections_of_encodeType (usualNames_of_proper (hread.ready.proper c (.inl (hread.new c hc))))
    (hread.own c hc) hn'
  have hfields := fieldHeads_of_encodeType (hsections .fields) (hsections' .fields)
  have halone : ∀ (i : Nat) own, (s.program.record c).fields[i]? = some own →
      own.name = identifierFieldName → i = f.index := by
    intro i own hrow hname
    have hsame := hfields i
    rw [hrow] at hsame
    obtain ⟨first, hfirst, hheads⟩ := Option.map_eq_some_iff.mp hsame.symm
    exact hcarries.alone i first hfirst ((congrArg Prod.fst hheads).trans hname)
  have hstores := stores_of_copy hread hc hknown (hsections .initializer) (hsections' .initializer)
    hcarries.field_eq.1 halone hcarries.stores
  refine ⟨hread.complete c hc, ?_, ?_, halone, ?_, ?_, hstores⟩
  · obtain ⟨b, hb, hname⟩ := base_of_encodeType hn hn' hcarries.base
    have hfinds : s.Finds b := hread.named c hc b (List.mem_append_left _ (by simp [hb]))
    rw [hb, hread.ready.eq_of_finds hfinds hname hknown.requested]
  · obtain ⟨own, hrow, hname, hflags⟩ := hcarries.field
    have hsame := hfields f.index
    rw [hrow] at hsame
    obtain ⟨own', hrow', hheads⟩ := Option.map_eq_some_iff.mp hsame
    exact ⟨own', hrow', (congrArg Prod.fst hheads).trans hname,
      (congrArg Prod.snd hheads).trans hflags⟩
  · exact mark_of_copy hread hc hknown (hsections .attributes)
      (hsections' .attributes) hcarries.mark
  · obtain ⟨own', -, hown', -⟩ := hstores
    rw [hread.own c hc, hown']
    rfl

end Carrying

end TypeLoom.Artifact
