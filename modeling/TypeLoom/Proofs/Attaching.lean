import TypeLoom.Proofs.Members

/-!
# The third pass

Attributes and bodies are added to the members, which are known by their places. With them each
member is written as its whole element.
-/

namespace TypeLoom.Artifact.Loading

open Markup Attempt

variable {s : Scope} {first : Nat} {u₀ u : Universe} {t : TypeId} {n m : Node} {start l : Loading}
  {base : Option String}
  {content : Section → List Node} {before after : List Node}

/-! ### Attributes -/

theorem Stage.alter {sec : Section} {old new : List Node} {l' : Loading}
    {alter : TypeRecord → TypeRecord}
    (h : Stage first start t n base (Section.replace content sec old) l)
    (hprogram : l'.space.program = l.space.program.modify t alter)
    (hlistings : l'.space.registry.listings = l.space.registry.listings) (hhere : l'.here = l.here)
    (htouch : Touches t sec (l.space.program.record t) (alter (l.space.program.record t)))
    (hself : ∀ u, l.space.program.Extends u → sec.encode u (l.space.program.record t) = .ok old →
      sec.encode u (alter (l.space.program.record t)) = .ok new) :
    Stage first start t n base (Section.replace content sec new) l' := by
  rw [← Section.replace_replace content sec old new]
  refine h.touch hprogram hlistings hhere htouch fun u hu hbefore => ?_
  rw [Section.replace_self] at hbefore
  exact hself u hu hbefore

theorem stage_attachAttribute {a : Attribute} (hm : encodeAttribute u₀ a = .ok m)
    (hexact : exactTree m = true) (h : Stage first start t n base content l) :
    (attachAttribute t m).wp
      (fun _ => Stage first start t n base (Section.replace content .attributes (content .attributes
        ++ [m]))) (fun _ => True) l := by
  rw [attachAttribute, wp_bind]
  refine wp_resolve fun read hread => ?_
  exact stage_edit h (touches_attributes read _) fun u hu hself =>
    mapM_push hself (encodeAttribute_of_decodeAttribute h.ready hu hm hexact hread)

theorem stage_attachFieldAttribute {a : Attribute} {x : Node} (hm : encodeAttribute u₀ a = .ok m)
    (hexact : exactTree m = true)
    (h : Stage first start t n base (Section.replace content .fields (before ++ x :: after)) l) :
    (attachFieldAttribute ⟨t, before.length⟩ m).wp
      (fun _ => Stage first start t n base (Section.replace content .fields (before ++ x.append [m]
        :: after))) (fun _ => True) l := by
  rw [attachFieldAttribute, wp_bind]
  refine wp_resolve fun read hread => ?_
  rw [change, inSpace, wp_within, wp_modify]
  refine h.alter rfl rfl rfl (touches_modifyField before.length _ fun _ => rfl) fun u hu hself => ?_
  show (Array.modify _ _ _).toList.mapM _ = _
  rw [Array.toList_modify]
  exact mapM_modify hself fun f hf =>
    encodeField_pushAttribute hf (encodeAttribute_of_decodeAttribute h.ready hu hm hexact hread)

theorem append_append (x : Node) (first second : List Node) :
    (x.append first).append second = x.append (first ++ second) := by
  simp [Node.append, Node.name, Node.attributes, Node.children]

theorem append_nil (x : Node) : x.append [] = x := by
  cases x
  simp [Node.append, Node.name, Node.attributes, Node.children]

theorem stage_attachField {f : FieldRecord} (hm : encodeField u₀ f = .ok m)
    (hexact : exactTree m = true)
    (h : Stage first start t n base (Section.replace content .fields (before ++ bare m :: after))
      l) :
    (attachField ⟨t, before.length⟩ m).wp
      (fun _ => Stage first start t n base (Section.replace content .fields (before ++ m :: after)))
      (fun _ => True) l := by
  obtain ⟨type, -, hm⟩ := bind_eq_ok.mp hm
  obtain ⟨attributes, hattributes, hm⟩ := bind_eq_ok.mp hm
  obtain rfl : m = .element "field" [("name", f.name), ("type", type),
    ("flags", flagsText f.flags)] attributes :=
    (Except.ok.inj hm).symm
  have hnames : ∀ c ∈ attributes, c.name = "attribute" := by
    intro c hc
    obtain ⟨a, -, ha⟩ := exists_of_mem_mapM hattributes hc
    exact name_of_encodeAttribute ha
  rw [bare_element, filter_name hnames, if_neg (by decide)] at h
  let empty := Node.element "field" [("name", f.name), ("type", type),
    ("flags", flagsText f.flags)] []
  let inv (done : List Node) (l : Loading) : Prop :=
    Stage first start t n base
      (Section.replace content .fields (before ++ empty.append done :: after)) l
  have hloop : (attributes.forM (attachFieldAttribute ⟨t, before.length⟩)).wp (fun _ =>
      inv attributes) (fun _ => True) l := by
    refine wp_forM (I := inv) attributes (fun done a rest heq mid hmid => ?_) h
    have hmem : a ∈ attributes := by
      rw [heq]
      exact List.mem_append_right _ List.mem_cons_self
    obtain ⟨a₀, -, ha⟩ := exists_of_mem_mapM hattributes hmem
    have hstep := stage_attachFieldAttribute ha ((exactTree_iff.mp hexact).2 a hmem) hmid
    rw [append_append] at hstep
    exact hstep
  have hlist : Node.childrenNamed (.element "field" [("name", f.name), ("type", type),
    ("flags", flagsText f.flags)] attributes)
      "attribute" = attributes := (filter_name hnames "attribute").trans (if_pos rfl)
  rw [attachField, hlist]
  exact hloop

/-! ### Methods -/

variable {slot : Slot} {x : Node}

theorem stage_attachMethodAttribute {a : Attribute} (hm : encodeAttribute u₀ a = .ok m)
    (hexact : exactTree m = true) (hplace : slotPosition slot = before.length)
    (hx : ∀ c ∈ x.children, c.name ≠ "body")
    (h : Stage first start t n base (Section.replace content (slotSection slot)
      (before ++ x :: after)) l) :
    (attachMethodAttribute ⟨t, slot⟩ m).wp
      (fun _ => Stage first start t n base (Section.replace content (slotSection slot)
        (before ++ x.append [m] :: after)))
      (fun _ => True) l := by
  rw [attachMethodAttribute, wp_bind]
  refine wp_resolve fun read hread => ?_
  rw [change, inSpace, wp_within, wp_modify]
  refine h.alter rfl rfl rfl (touches_modifyMethod slot _ fun _ => rfl) fun u hu hself => ?_
  exact encode_modifyMethod slot hself hplace fun r hr =>
    encodeMethod_pushAttribute hr hx (encodeAttribute_of_decodeAttribute h.ready hu hm hexact hread)

theorem stage_attachBody {e : Expr} {b : Node} (hb : encodeBody u₀ e = .ok b)
    (hexact : exactTree b = true) (hm : m.childNamed? "body" = some b)
    (hplace : slotPosition slot = before.length) (hx : ∀ c ∈ x.children, c.name ≠ "body")
    (h : Stage first start t n base (Section.replace content (slotSection slot)
      (before ++ x :: after)) l) :
    (attachBody ⟨t, slot⟩ m).wp
      (fun _ => Stage first start t n base (Section.replace content (slotSection slot)
        (before ++ x.append [b] :: after)))
      (fun _ => True) l := by
  obtain ⟨inner, hinner, rfl⟩ := node_of_encodeBody hb
  have hinside : exactTree inner = true := (exactTree_iff.mp hexact).2 inner List.mem_cons_self
  unfold attachBody
  rw [hm]
  show (resolve (fun s => decodeExpr s inner) >>= _).wp _ _ _
  rw [wp_bind]
  refine wp_resolve fun read hread => ?_
  rw [inSpace, wp_within, TypeSpace.setBody, TypeSpace.apply, wp_bind, wp_get]
  unfold Universe.setBody
  split
  · rename_i hset
    split at hset
    · cases hset
    split at hset
    · cases hset
    cases hset
    rw [wp_modify]
    refine h.alter rfl rfl rfl (touches_modifyMethod slot _ fun _ => rfl) fun u hu hself => ?_
    refine encode_modifyMethod slot hself hplace fun r hr => encodeMethod_setBody hr hx ?_
    rw [encodeBody, rereads h.ready hu e inner read hinner hinside hread]
    rfl
  · trivial

theorem stage_attachMethod {m₀ : MethodRecord}
    (hm : encodeMethod u₀ (slotSection slot).element m₀ = .ok m) (hexact : exactTree m = true)
    (hplace : slotPosition slot = before.length)
    (h : Stage first start t n base (Section.replace content (slotSection slot)
      (before ++ bare m :: after)) l) :
    (attachMethod ⟨t, slot⟩ m).wp
      (fun _ => Stage first start t n base (Section.replace content (slotSection slot) (before ++ m
        :: after))) (fun _ => True) l := by
  obtain ⟨returns, parameters, attributes, body, -, hparameters, hattributes, hbody, rfl⟩ :=
    encodeMethod_eq_ok.mp hm
  have hchildren := methodChildren hparameters hattributes hbody
  have hinside := (exactTree_iff.mp hexact).2
  let element := (slotSection slot).element
  let head := methodNode element m₀.name returns m₀.flags parameters
  have hhead : bare (methodNode element m₀.name returns m₀.flags (parameters ++ attributes ++ body))
      = head := by
    rw [methodNode, bare_element, hchildren.filter_param]
    rfl
  rw [hhead] at h
  let inv (done : List Node) (l : Loading) : Prop :=
    Stage first start t n base (Section.replace content (slotSection slot)
      (before ++ head.append done :: after)) l
  have hloop : (attributes.forM (attachMethodAttribute ⟨t, slot⟩)).wp (fun _ => inv attributes)
      (fun _ => True) l := by
    refine wp_forM (I := inv) attributes (fun done a rest heq mid hmid => ?_) ?_
    · have hmem : a ∈ attributes := by
        rw [heq]
        exact List.mem_append_right _ List.mem_cons_self
      obtain ⟨a₀, -, ha⟩ := exists_of_mem_mapM hattributes hmem
      have hdone : ∀ c ∈ (head.append done).children, c.name ≠ "body" := by
        intro c hc
        refine hchildren.name_ne_body ?_
        rw [heq]
        rcases List.mem_append.mp hc with hc | hc
        · exact List.mem_append_left _ hc
        · exact List.mem_append_right _ (List.mem_append_left _ hc)
      have hexacta : exactTree a = true :=
        hinside a (List.mem_append_left _ (List.mem_append_right _ hmem))
      have hstep := stage_attachMethodAttribute ha hexacta hplace hdone hmid
      rw [append_append] at hstep
      exact hstep
    · show Stage first start t n base (Section.replace content (slotSection slot)
        (before ++ head.append [] :: after)) l
      rw [append_nil]
      exact h
  have hlist :
    Node.childrenNamed (methodNode element m₀.name returns m₀.flags (parameters ++ attributes
    ++ body)) "attribute" =
      attributes := hchildren.filter_attribute
  rw [← hlist] at hloop
  refine wp_step hloop (fun _ l h => ?_) fun _ h => h
  rw [hlist] at h
  have hfound :
      (methodNode element m₀.name returns m₀.flags (parameters ++ attributes ++ body)).childNamed?
      "body" = body.head? := by
    rw [childNamed?_eq]
    exact congrArg List.head? hchildren.filter_body
  have hdone : ∀ c ∈ (head.append attributes).children, c.name ≠ "body" :=
    fun c hc => hchildren.name_ne_body hc
  cases hb : m₀.body with
  | none =>
    rw [hb] at hbody
    obtain rfl : body = [] := (Except.ok.inj hbody).symm
    unfold attachBody
    rw [hfound]
    show Stage _ _ _ _ _ _ _
    rw [List.append_nil]
    exact h
  | some e =>
    rw [hb] at hbody
    obtain ⟨b, rest, hb, hrest, rfl⟩ := mapM_cons_eq_ok.mp hbody
    cases hrest
    have hexactb : exactTree b = true := hinside b (List.mem_append_right _ List.mem_cons_self)
    exact stage_attachBody hb hexactb hfound hplace hdone h

theorem stage_attachOverride {o : Override} (hm : encodeOverride u₀ o = .ok m)
    (hexact : exactTree m = true) (h : Stage first start t n base content l) :
    (attachOverride t m).wp
      (fun _ => Stage first start t n base (Section.replace content .overrides (content .overrides
        ++ [m]))) (fun _ => True) l := by
  obtain ⟨d, hd, hm⟩ := bind_eq_ok.mp hm
  obtain ⟨i, hi, hm⟩ := bind_eq_ok.mp hm
  obtain rfl : m = .element "override" [] [d, i] := (Except.ok.inj hm).symm
  obtain ⟨declaring, name, params, rfl⟩ := node_of_encodeMethodReference hd
  obtain ⟨iname, iparams, rfl⟩ := node_of_encodeAccessor hi
  let declaration := Node.element "declaration" [("declaring", declaring), ("name", name),
    ("params", params)] []
  let implementation := Node.element "implementation" [("name", iname), ("params", iparams)] []
  have hinside := (exactTree_iff.mp hexact).2
  have hexactd : exactTree declaration = true := hinside declaration List.mem_cons_self
  have hexacti : exactTree implementation = true :=
    hinside implementation (List.mem_cons_of_mem _ List.mem_cons_self)
  rw [attachOverride, wp_bind]
  refine wp_resolve fun declared hdeclared => ?_
  rw [wp_bind]
  refine wp_resolve fun body hbody => ?_
  change l.scope.method declaration = .ok declared at hdeclared
  change l.scope.methodOn t implementation = .ok body at hbody
  refine stage_edit h (touches_overrides _ _) fun u hu hself => mapM_push hself ?_
  obtain ⟨-, hreference⟩ := encodeMethodReference_of_method h.ready hu "declaration" rfl rfl rfl
    (params_of_exactTree hexactd rfl rfl) hdeclared
  rw [encodeOverride, hreference, ok_bind, encodeAccessor_reads h.ready hu h.new hi hexacti hbody]
  rfl

/-! ### All members -/

theorem stage_places {β : Type} (sec : Section) {step : β → Node → Attempt Loading Unit}
    {elements : List Node} {places : List β} (hlength : places.length = elements.length)
    (hstep : ∀ before m after b, elements = before ++ m :: after → places[before.length]? = some b →
      ∀ l,
      Stage first start t n base (Section.replace content sec (before ++ bare m :: after.map bare))
      l →
      (step b m).wp (fun _ => Stage first start t n base
        (Section.replace content sec (before ++ m :: after.map bare)))
        (fun _ => True) l)
    (hcontent : content sec = elements.map bare) (h : Stage first start t n base content l) :
    ((elements.zip places).forM fun p => step p.2 p.1).wp
      (fun _ => Stage first start t n base (Section.replace content sec elements))
      (fun _ => True) l := by
  let inv (done : List (Node × β)) (l : Loading) : Prop := Stage first start t n base
    (Section.replace content sec (done.map (·.1) ++ (elements.drop done.length).map bare)) l
  refine wp_mono (wp_forM (I := inv) (elements.zip places) (fun done item rest heq mid hmid => ?_)
    ?_) (fun _ l h => ?_) fun _ h => h
  · have helements : elements = done.map (·.1) ++ item.1 :: rest.map (·.1) := by
      rw [← List.map_fst_zip (Nat.le_of_eq hlength.symm), heq, List.map_append, List.map_cons]
    have hplaces : places = done.map (·.2) ++ item.2 :: rest.map (·.2) := by
      rw [← List.map_snd_zip (Nat.le_of_eq hlength), heq, List.map_append, List.map_cons]
    have hplace : places[(done.map (·.1)).length]? = some item.2 := by
      rw [hplaces, List.length_map, List.getElem?_append_right (by simp)]
      simp
    have hdrop : elements.drop done.length = item.1 :: rest.map (·.1) := by
      rw [helements]
      exact List.drop_left' (by simp)
    have hdrop' : elements.drop (done ++ [item]).length = rest.map (·.1) := by
      rw [helements, List.length_append, ← List.drop_drop]
      rw [List.drop_left' (by simp)]
      rfl
    have hbefore :
      Stage first start t n base (Section.replace content sec (done.map (·.1) ++ bare item.1
      :: (rest.map (·.1)).map bare))
        mid := by
      have := hmid
      simp only [inv, hdrop, List.map_cons] at this
      exact this
    refine wp_mono (hstep _ item.1 _ item.2 helements hplace mid hbefore) (fun _ l h =>
      ?_) fun _ h => h
    simp only [inv, hdrop', List.map_append, List.map_cons, List.map_nil, List.append_assoc,
      List.singleton_append]
    exact h
  · simp only [inv, List.map_nil, List.length_nil, List.drop_zero, List.nil_append, ← hcontent,
      Section.replace_same]
    exact h
  · have hall : (elements.zip places).map (·.1) ++ (elements.drop (elements.zip places).length).map
        bare = elements := by
      rw [List.map_fst_zip (Nat.le_of_eq hlength.symm), List.length_zip, hlength, Nat.min_self,
        List.drop_length, List.map_nil,
        List.append_nil]
    simp only [inv, hall] at h
    exact h

theorem stage_attachMethods {elements : List Node} {places : List MethodId} (sec : Section)
    (hplaces : ∀ (index : Nat) (place : MethodId), places[index]? = some place →
      place.owner = t ∧ slotSection place.slot = sec ∧ slotPosition place.slot = index)
    (hwrote : ∀ m ∈ elements, ∃ m₀, encodeMethod u₀ sec.element m₀ = .ok m)
    (hexact : ∀ m ∈ elements, exactTree m = true)
    (hlength : places.length = elements.length) (hcontent : content sec = elements.map bare)
    (h : Stage first start t n base content l) :
    ((elements.zip places).forM fun p => attachMethod p.2 p.1).wp
      (fun _ => Stage first start t n base (Section.replace content sec elements))
      (fun _ => True) l := by
  refine stage_places sec hlength (fun before m after place heq hplace l h => ?_) hcontent h
  obtain ⟨howner, hsec, hposition⟩ := hplaces _ place hplace
  have hmem : m ∈ elements := by
    rw [heq]
    exact List.mem_append_right _ List.mem_cons_self
  obtain ⟨m₀, hm⟩ := hwrote m hmem
  obtain ⟨owner, slot⟩ := place
  subst howner hsec
  exact stage_attachMethod hm (hexact m hmem) hposition h

section Places

variable (h : Stage first start t n base content l)
include h

theorem Stage.length_fieldsOf : (l.space.program.fieldsOf t).length = (content .fields).length := by
  have hfields : (l.space.program.record t).fields.toList.mapM (encodeField l.space.program)
    = .ok (content .fields) :=
    h.holds.content _ (.refl _) .fields
  simp [length_mapM hfields, Universe.fieldsOf]

theorem Stage.length_constructorsOf :
    (l.space.program.constructorsOf t).length = (content .constructors).length := by
  have hconstructors : (l.space.program.record t).constructors.toList.mapM
    (encodeMethod l.space.program "constructor") =
      .ok (content .constructors) := h.holds.content _ (.refl _) .constructors
  simp [length_mapM hconstructors, Universe.constructorsOf]

theorem Stage.length_initializer :
    (l.space.program.record t).initializer.toList.length = (content .initializer).length := by
  have hinitializer : (l.space.program.record t).ownInitializer.toList.mapM
    (encodeMethod l.space.program "initializer") =
      .ok (content .initializer) := h.holds.content _ (.refl _) .initializer
  rw [length_mapM hinitializer, h.holds.initializer]
  cases (l.space.program.record t).ownInitializer <;> rfl

theorem Stage.length_methodsOf :
    (l.space.program.methodsOf t).length = (content .methods).length := by
  have hmethods : (l.space.program.record t).methods.toList.mapM
    (encodeMethod l.space.program "method") =
      .ok (content .methods) := h.holds.content _ (.refl _) .methods
  simp [length_mapM hmethods, Universe.methodsOf]

end Places

theorem eq_of_getElem?_map_range {β : Type} {f : Nat → β} {size index : Nat} {b : β}
    (h : ((List.range size).map f)[index]? = some b) : b = f index := by
  rw [List.getElem?_map, Option.map_eq_some_iff] at h
  obtain ⟨i, hi, rfl⟩ := h
  obtain ⟨hlt, rfl⟩ := List.getElem?_eq_some_iff.mp hi
  rw [List.getElem_range]

theorem stage_attach (hn : Written u₀ n) (hexact : exactTree n = true)
    (h : Stage first start t n base (fun sec => sec.defined (n.childrenNamed sec.element)) l) :
    (attach n t).wp (fun _ => Stage first start t n base fun sec => n.childrenNamed sec.element)
        (fun _ => True) l := by
  have hinside : ∀ name, ∀ m ∈ n.childrenNamed name, exactTree m = true := by
    intro name m hm
    exact (exactTree_iff.mp hexact).2 m (List.mem_filter.mp hm).1
  refine wp_step (stage_forM .attributes (fun m => m) _ (fun m hm content l h => ?_) h)
    (fun _ l h => ?_) fun _ h => h
  · obtain ⟨a, ha⟩ := hn.wrote .attributes m hm
    exact stage_attachAttribute ha (hinside _ m hm) h
  rw [wp_bind, wp_get]
  -- the members are counted here; completing them adds none
  have hfields : (l.space.program.fieldsOf t).length = (n.childrenNamed "field").length :=
    h.length_fieldsOf.trans (List.length_map bare)
  have hconstructors : (l.space.program.constructorsOf t).length
    = (n.childrenNamed "constructor").length :=
    h.length_constructorsOf.trans (List.length_map bare)
  have hinitializer : (l.space.program.record t).initializer.toList.length
    = (n.childrenNamed "initializer").length :=
    h.length_initializer.trans (List.length_map bare)
  have hmethods : (l.space.program.methodsOf t).length = (n.childrenNamed "method").length :=
    h.length_methodsOf.trans (List.length_map bare)
  have hslot : ∀ index place, (l.space.program.record t).initializer.toList[index]? = some place →
      index = 0 ∧ place = ⟨t, .typeInitializer⟩ := by
    intro index place hplace
    rw [h.holds.initializer] at hplace
    cases hown : (l.space.program.record t).ownInitializer with
    | none =>
      rw [hown] at hplace
      cases hplace
    | some own =>
      rw [hown] at hplace
      cases index <;> cases hplace
      exact ⟨rfl, rfl⟩
  have hlist : (n.childNamed? "initializer").toList = n.childrenNamed "initializer" := by
    rw [childNamed?_eq]
    cases hchildren : n.childrenNamed "initializer" with
    | nil => rfl
    | cons first rest =>
      have hone := hn.initializer
      rw [hchildren] at hone
      rw [List.length_eq_zero_iff.mp (Nat.le_zero.mp (Nat.le_of_succ_le_succ hone))]
      rfl
  refine wp_step (stage_places .fields hfields (fun before m after f heq hplace l h => ?_) rfl h)
    (fun _ l h => ?_) fun _ h => h
  · obtain rfl := eq_of_getElem?_map_range hplace
    have hmem : m ∈ n.childrenNamed "field" := by
      rw [heq]
      exact List.mem_append_right _ List.mem_cons_self
    obtain ⟨f, hf⟩ := hn.wrote .fields m hmem
    exact stage_attachField hf (hinside _ m hmem) h
  have hwrote : ∀ m ∈ n.childrenNamed "constructor", ∃ m₀,
      encodeMethod u₀ "constructor" m₀ = .ok m := by
    intro m hm
    obtain ⟨m₀, -, hm₀⟩ := hn.wrote .constructors m hm
    exact ⟨m₀, hm₀⟩
  refine wp_step (stage_attachMethods .constructors (fun index place hplace => ?_) hwrote
    (hinside _) hconstructors rfl h)
    (fun _ l h => ?_) fun _ h => h
  · obtain rfl := eq_of_getElem?_map_range hplace
    exact ⟨rfl, rfl, rfl⟩
  have hwrote : ∀ m ∈ n.childrenNamed "initializer", ∃ m₀,
      encodeMethod u₀ "initializer" m₀ = .ok m := by
    intro m hm
    obtain ⟨m₀, -, -, hm₀⟩ := hn.wrote .initializer m hm
    exact ⟨m₀, hm₀⟩
  rw [hlist]
  refine wp_step (stage_attachMethods .initializer (fun index place hplace => ?_) hwrote (hinside _)
    hinitializer rfl h)
    (fun _ l h => ?_) fun _ h => h
  · obtain ⟨rfl, rfl⟩ := hslot index place hplace
    exact ⟨rfl, rfl, rfl⟩
  refine wp_step (stage_attachMethods .methods (fun index place hplace => ?_) (hn.wrote .methods)
    (hinside _) hmethods rfl h)
    (fun _ l h => ?_) fun _ h => h
  · obtain rfl := eq_of_getElem?_map_range hplace
    exact ⟨rfl, rfl, rfl⟩
  refine wp_mono (stage_forM .overrides (fun m => m) _ (fun m hm content l h => ?_) h) (fun _ l h =>
    ?_) fun _ h => h
  · obtain ⟨o, ho⟩ := hn.wrote .overrides m hm
    exact stage_attachOverride ho (hinside _ m hm) h
  · refine cast (congrArg (fun content => Stage first start t n base content l)
      (funext fun sec => ?_)) h
    cases sec <;> simp [Section.replace, Section.defined, Section.element]

end TypeLoom.Artifact.Loading
