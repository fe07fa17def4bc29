import TypeLoom.Proofs.Stages

/-!
# The second pass

Members are read without their attributes and bodies. What has been read of a member is written as
its element without these.
-/

namespace TypeLoom.Artifact

open Markup Attempt

/-- The element of a field or method without attributes and body. -/
def bare (n : Node) : Node := .element n.name n.attributes (n.childrenNamed "param")

/-- What the second pass knows of the elements of a section. -/
def Section.defined (elements : List Node) : Section → List Node
  | .interfaces | .properties | .events => elements
  | .fields | .constructors | .initializer | .methods => elements.map bare
  | .attributes | .overrides => []

variable {s : Scope} {first : Nat} {u₀ u : Universe} {t : TypeId} {n m : Node}

theorem childNamed?_eq (n : Node) (name : String) :
    n.childNamed? name = (n.childrenNamed name).head? := List.head?_filter.symm

/-! ### Signatures -/

theorem node_of_encodeAccessor {element : String} {m₀ : MethodId}
    (hn : encodeAccessor u₀ element m₀ = .ok n) :
    ∃ name params, n = .element element [("name", name), ("params", params)] [] := by
  obtain ⟨params, -, hn⟩ := bind_eq_ok.mp hn
  exact ⟨_, params, (Except.ok.inj hn).symm⟩

section Printing

variable (h : s.Ready first) (hu : s.program.Extends u)
include h hu

theorem encodeParameter_of_parameter {p₀ p : Parameter} (hn : encodeParameter u₀ p₀ = .ok n)
    (hp : s.parameter n = .ok p) :
    encodeParameter u p = .ok n := by
  obtain ⟨type, -, rfl⟩ := node_of_encodeParameter hn
  rw [Scope.parameter, require_of_get? rfl, ok_bind, require_of_get? rfl, ok_bind] at hp
  obtain ⟨signature, hsignature, hp⟩ := bind_eq_ok.mp hp
  cases hp
  rw [encodeParameter, encodeSignature_of_signature h hu hsignature]
  rfl

theorem encodeAccessor_reads {element : String} {m₀ found : MethodId} (ht : first ≤ t.index)
    (hn : encodeAccessor u₀ element m₀ = .ok n) (hexact : exactTree n = true)
    (hfound : s.methodOn t n = .ok found) :
    encodeAccessor u element found = .ok n := by
  obtain ⟨name, params, rfl⟩ := node_of_encodeAccessor hn
  exact encodeAccessor_of_methodOn h hu element (h.proper t (.inl ht)) rfl rfl
    (params_of_exactTree hexact rfl rfl) hfound

end Printing

namespace Loading

variable {start l : Loading} {base : Option String} {content : Section → List Node}

/-! ### Bases and interfaces -/

theorem stage_classNamed {text : String} {fault : Fault}
    (h : Stage first start t n base content l) :
    (classNamed text fault).wp
      (fun c l' => l' = l ∧ ∀ u, l.space.program.Extends u → encodeSignature u (.ofClass c)
        = .ok text) (fun _ => True) l := by
  rw [classNamed, wp_bind]
  refine wp_resolve fun signature hsignature => ?_
  split
  · exact ⟨rfl, fun u hu => encodeSignature_of_signature h.ready hu hsignature⟩
  · trivial

theorem stage_defineBase (h : Stage first start t n none content l) :
    (defineBase t n).wp (fun _ => Stage first start t n (n.get? "base") content)
    (fun _ => True) l := by
  unfold defineBase
  split
  · rename_i hnone
    rw [hnone]
    exact h
  · rename_i text htext
    rw [htext]
    refine wp_step (stage_classNamed h) ?_ fun _ h => h
    rintro b l' ⟨rfl, hb⟩
    rw [inSpace, wp_within, TypeSpace.apply, wp_bind, wp_get]
    unfold Universe.setBase
    split
    · rename_i hset
      split at hset
      · cases hset
      · cases hset
        rw [wp_modify]
        have hkeeps : ∀ r : TypeRecord, TypeRecord.Keeps r { r with base := some b } := fun r =>
          .of_outline rfl rfl rfl rfl rfl (TypeOutline.keeps_setBase b _)
        refine h.modify rfl rfl rfl (hkeeps _) (fun hp =>
          hp.keep (hkeeps _) (fun _ c hc => .inr ⟨c, hc, rfl⟩) rfl)
          (fun u hu => ?_) (fun u hu sec => ?_) h.holds.initializer
        · rw [encodeBase, Option.mapM_some, hb u hu]
          rfl
        · rw [← h.holds.content u hu sec]
          cases sec <;> rfl
    · trivial

theorem stage_defineInterface {i : TypeId} (hm : encodeInterface u₀ i = .ok m)
    (h : Stage first start t n base content l) :
    (defineInterface t m).wp
      (fun _ => Stage first start t n base (Section.replace content .interfaces (content .interfaces
        ++ [m]))) (fun _ => True) l := by
  obtain ⟨text, -, hm⟩ := bind_eq_ok.mp hm
  obtain rfl : m = .element "interface" [("type", text)] [] := (Except.ok.inj hm).symm
  rw [defineInterface, require_of_get? rfl, wp_bind, wp_lift]
  refine ⟨?_, fun _ _ => trivial⟩
  rintro _ ⟨⟩
  refine wp_step (stage_classNamed h) ?_ fun _ h => h
  rintro c l' ⟨rfl, hc⟩
  refine stage_edit h (touches_interfaces c _) fun u hu hself => mapM_push hself ?_
  rw [encodeInterface, hc u hu]
  rfl

/-! ### Fields and methods -/

theorem bare_element (name : String) (attributes : List (String × String)) (children : List Node) :
    bare (.element name attributes children) = .element name attributes (children.filter fun c =>
      c.name == "param") := rfl

theorem stage_defineField {f : FieldRecord} (hm : encodeField u₀ f = .ok m)
    (h : Stage first start t n base content l) :
    (defineField t m).wp
      (fun _ => Stage first start t n base
        (Section.replace content .fields (content .fields ++ [bare m]))) (fun _ => True) l := by
  obtain ⟨type, -, hm⟩ := bind_eq_ok.mp hm
  obtain ⟨attributes, hattributes, hm⟩ := bind_eq_ok.mp hm
  obtain rfl : m = .element "field" [("name", f.name), ("type", type),
    ("flags", flagsText f.flags)] attributes :=
    (Except.ok.inj hm).symm
  have hnames : ∀ c ∈ attributes, c.name = "attribute" := by
    intro c hc
    obtain ⟨a, -, ha⟩ := exists_of_mem_mapM hattributes hc
    exact name_of_encodeAttribute ha
  rw [bare_element, filter_name hnames, if_neg (by decide), defineField]
  refine wp_step (stage_nextToken .field h) ?_ fun _ h => h
  rintro token l' ⟨h, -⟩
  refine wp_lift_bind (require_of_get? rfl) (wp_lift_bind (require_of_get? rfl) ?_)
  rw [wp_bind]
  refine wp_resolve fun signature hsignature => wp_lift_bind (readFlags_of_get? rfl) ?_
  refine stage_edit h (touches_pushField _ _) fun u hu hself => mapM_push hself ?_
  rw [encodeField, encodeSignature_of_signature h.ready hu hsignature]
  rfl

structure ReadsAs (p : Universe) (element : String) (m₀ : MethodRecord) (n : Node)
    (m : MethodRecord) : Prop where
  name : m.name = m₀.name
  parameters : m₀.signature.parameters = [] → m.signature.parameters = []
  encode : ∀ u, p.Extends u → encodeMethod u element m = .ok (bare n)

theorem stage_methodRecord (kind : MethodKind) {element : String} {m₀ : MethodRecord}
    (hm : encodeMethod u₀ element m₀ = .ok m) (h : Stage first start t n base content l) :
    (methodRecord kind m).wp
      (fun r l' => Stage first start t n base content l' ∧ ReadsAs l'.space.program element m₀ m r)
      (fun _ => True) l := by
  obtain ⟨returns, parameters, attributes, body, -, hparameters, hattributes, hbody, rfl⟩ :=
    encodeMethod_eq_ok.mp hm
  have hfilter := (methodChildren hparameters hattributes hbody).filter_param
  rw [methodRecord]
  refine wp_step (stage_nextToken .method h) ?_ fun _ h => h
  rintro token l' ⟨h, -⟩
  refine wp_lift_bind (require_of_get? rfl) (wp_lift_bind (readFlags_of_get? rfl) ?_)
  rw [wp_bind]
  refine wp_resolve fun signature hsignature => ?_
  obtain ⟨types, htypes, hsignature⟩ := bind_eq_ok.mp hsignature
  change ((parameters ++ attributes ++ body).filter fun c => c.name == "param").mapM
    l'.scope.parameter = .ok types at htypes
  rw [hfilter] at htypes
  rw [require_of_get? rfl, ok_bind] at hsignature
  obtain ⟨result, hresult, hsignature⟩ := bind_eq_ok.mp hsignature
  cases hsignature
  refine ⟨h, rfl, fun hnone => ?_, fun u hu => ?_⟩
  · rw [hnone] at hparameters
    cases hparameters
    cases htypes
    rfl
  · have hparameters' : types.mapM (encodeParameter u) = .ok parameters :=
        mapM_inverse htypes fun c hc p hp => by
      obtain ⟨p₀, -, hp₀⟩ := exists_of_mem_mapM hparameters hc
      exact encodeParameter_of_parameter h.ready hu hp₀ hp
    refine encodeMethod_eq_ok.mpr ⟨returns, parameters, [], [],
      encodeSignature_of_signature h.ready hu hresult, hparameters',
      rfl, rfl, ?_⟩
    rw [methodNode, bare_element, hfilter, List.append_nil, List.append_nil]
    rfl

theorem stage_defineConstructor {m₀ : MethodRecord} (hname : m₀.name = ".ctor")
    (hm : encodeMethod u₀ "constructor" m₀ = .ok m) (h : Stage first start t n base content l) :
    (defineConstructor t m).wp
      (fun _ => Stage first start t n base
        (Section.replace content .constructors (content .constructors ++ [bare m])))
      (fun _ => True) l := by
  refine wp_step (stage_methodRecord .constructor hm h) ?_ fun _ h => h
  rintro r l' ⟨h, hr⟩
  exact stage_edit h (touches_pushConstructor (hr.name.trans hname) _) fun u hu hself =>
    mapM_push hself (hr.encode u hu)

theorem stage_defineMethod {m₀ : MethodRecord} (hm : encodeMethod u₀ "method" m₀ = .ok m)
    (h : Stage first start t n base content l) :
    (defineMethod t m).wp
      (fun _ => Stage first start t n base
        (Section.replace content .methods (content .methods ++ [bare m]))) (fun _ => True) l := by
  refine wp_step (stage_methodRecord .method hm h) ?_ fun _ h => h
  rintro r l' ⟨h, hr⟩
  exact stage_edit h (touches_pushMethod r _) fun u hu hself => mapM_push hself (hr.encode u hu)

/-- The type initializer is set and given its record at once. -/
theorem stage_defineInitializer (hwrote : ∀ m ∈ n.childrenNamed "initializer",
      Wrote u₀ m .initializer)
    (hone : (n.childrenNamed "initializer").length ≤ 1) (hempty : content .initializer = [])
    (h : Stage first start t n base content l) :
    (defineInitializer t n).wp
      (fun _ => Stage first start t n base
        (Section.replace content .initializer ((n.childrenNamed "initializer").map bare)))
        (fun _ => True) l := by
  unfold defineInitializer
  rw [childNamed?_eq]
  split
  · rename_i hnone
    rw [List.head?_eq_none_iff.mp hnone, List.map_nil, ← hempty, Section.replace_same]
    exact h
  · rename_i i hi
    have hlist : n.childrenNamed "initializer" = [i] := by
      cases hchildren : n.childrenNamed "initializer" with
      | nil => rw [hchildren] at hi; cases hi
      | cons first rest =>
        rw [hchildren] at hi hone
        cases hi
        rw [List.length_eq_zero_iff.mp (Nat.le_zero.mp (Nat.le_of_succ_le_succ hone))]
    obtain ⟨m₀, hname, hparameters, hm⟩ := hwrote i (by rw [hlist]; exact List.mem_cons_self)
    rw [hlist]
    refine wp_step (stage_methodRecord .typeInitializer hm h) ?_ fun _ h => h
    rintro r l' ⟨h, hr⟩
    have hnone : (l'.space.program.record t).ownInitializer = none := by
      have hcontent := h.holds.content _ (.refl _) .initializer
      rw [hempty] at hcontent
      cases hown : (l'.space.program.record t).ownInitializer with
      | none => rfl
      | some own =>
        rw [Section.encode, hown] at hcontent
        obtain ⟨_, _, -, -, heq⟩ := mapM_cons_eq_ok.mp hcontent
        cases heq
    rw [inSpace, wp_bind, wp_within, TypeSpace.apply, wp_bind, wp_get]
    unfold Universe.setInitializer
    split
    · rename_i hset
      split at hset
      · cases hset
      · cases hset
        rw [wp_modify, edit, inSpace, wp_within, TypeSpace.edit, wp_modify]
        have hkeeps : TypeRecord.Keeps (l'.space.program.record t)
            { l'.space.program.record t with
              initializer := some ⟨t, .typeInitializer⟩, ownInitializer := some r } :=
          .of_outline rfl rfl rfl rfl rfl (TypeOutline.keeps_setInitializer _ r.outline (by
            rw [TypeRecord.outline, hnone]
            rfl))
        refine h.modify (Universe.modify_modify _ _ _ _) rfl rfl hkeeps (fun hp =>
          ⟨hp.constructors, ?_⟩) (fun u hu => ?_)
          (fun u hu sec => ?_) rfl
        · rintro _ ⟨⟩
          exact ⟨rfl, r, rfl, hr.name.trans hname, hr.parameters hparameters⟩
        · exact h.holds.base u hu
        · by_cases hsec : sec = .initializer
          · subst hsec
            rw [Section.replace_self]
            exact mapM_cons_eq_ok.mpr ⟨bare i, [], hr.encode u hu, rfl, rfl⟩
          · rw [Section.replace, if_neg hsec, ← h.holds.content u hu sec]
            cases sec <;> first | rfl | exact absurd rfl hsec
    · trivial

/-! ### Properties and events -/

theorem stage_accessor {element : String} {member : Option MethodId} {found : Option Node}
    (hfound : member.toList.mapM (encodeAccessor u₀ element) = .ok found.toList)
    (hexact : ∀ g ∈ found, exactTree g = true) (h : Stage first start t n base content l) :
    (found.mapM fun g => resolve (·.methodOn t g)).wp
      (fun m l' => l' = l ∧ ∀ u, l.space.program.Extends u →
        m.toList.mapM (encodeAccessor u element) = .ok found.toList)
      (fun _ => True) l := by
  cases found with
  | none => exact ⟨rfl, fun _ _ => rfl⟩
  | some g =>
    obtain ⟨m₀, -, hg⟩ := exists_of_mem_mapM hfound List.mem_cons_self
    rw [Option.mapM_some, wp_map]
    refine wp_resolve fun m hm => ⟨rfl, fun u hu => ?_⟩
    exact mapM_cons_eq_ok.mpr ⟨g, [], encodeAccessor_reads h.ready hu h.new hg (hexact g rfl) hm,
      rfl, rfl⟩

theorem accessor_list {element : String} {member : Option MethodId} {ns : List Node}
    (h : member.toList.mapM (encodeAccessor u₀ element) = .ok ns) :
    ns.head?.toList = ns ∧ ∀ c ∈ ns, c.name = element := by
  cases member with
  | none =>
    cases h
    exact ⟨rfl, fun _ hc => absurd hc List.not_mem_nil⟩
  | some m =>
    obtain ⟨g, rest, hg, hrest, rfl⟩ := mapM_cons_eq_ok.mp h
    cases hrest
    obtain ⟨_, _, rfl⟩ := node_of_encodeAccessor hg
    refine ⟨rfl, fun c hc => ?_⟩
    rw [List.mem_singleton.mp hc]
    rfl

theorem stage_defineProperty {p : PropertyRecord} (hm : encodeProperty u₀ p = .ok m)
    (hexact : exactTree m = true) (h : Stage first start t n base content l) :
    (defineProperty t m).wp
      (fun _ => Stage first start t n base (Section.replace content .properties (content .properties
        ++ [m]))) (fun _ => True) l := by
  obtain ⟨type, -, hm⟩ := bind_eq_ok.mp hm
  obtain ⟨gs, hgs, hm⟩ := bind_eq_ok.mp hm
  obtain ⟨ss, hss, hm⟩ := bind_eq_ok.mp hm
  obtain rfl : m = .element "property" [("name", p.name), ("type", type)] (gs ++ ss) :=
    (Except.ok.inj hm).symm
  obtain ⟨hgsingle, hgnames⟩ := accessor_list hgs
  obtain ⟨hssingle, hsnames⟩ := accessor_list hss
  have hgetter :
      Node.childNamed? (.element "property" [("name", p.name), ("type", type)] (gs ++ ss)) "getter"
      = gs.head? := by
    rw [childNamed?_eq]
    show ((gs ++ ss).filter fun c => c.name == "getter").head? = _
    simp [List.filter_append, filter_name hgnames, filter_name hsnames]
  have hsetter :
      Node.childNamed? (.element "property" [("name", p.name), ("type", type)] (gs ++ ss)) "setter"
      = ss.head? := by
    rw [childNamed?_eq]
    show ((gs ++ ss).filter fun c => c.name == "setter").head? = _
    simp [List.filter_append, filter_name hgnames, filter_name hsnames]
  have hinside := (exactTree_iff.mp hexact).2
  rw [← hgsingle] at hgs
  rw [← hssingle] at hss
  rw [defineProperty, hgetter, hsetter]
  refine wp_step (stage_accessor hgs (fun g hg =>
    hinside g (List.mem_append_left _ (List.mem_of_head? hg))) h) ?_ fun _ h => h
  rintro getter l' ⟨rfl, hget⟩
  refine wp_step (stage_accessor hss (fun g hg =>
    hinside g (List.mem_append_right _ (List.mem_of_head? hg))) h) ?_ fun _ h => h
  rintro setter l'' ⟨rfl, hset⟩
  refine wp_step (stage_nextToken .property h) ?_ fun _ h => h
  rintro token l' ⟨h, hprogram⟩
  refine wp_lift_bind (require_of_get? rfl) (wp_lift_bind (require_of_get? rfl) ?_)
  rw [wp_bind]
  refine wp_resolve fun signature hsignature => ?_
  refine stage_edit h (touches_properties _ _) fun u hu hself => mapM_push hself ?_
  have hbefore : l''.space.program.Extends u := by
    rw [← hprogram]
    exact hu
  rw [encodeProperty, encodeSignature_of_signature h.ready hu hsignature, ok_bind, hget u hbefore,
    ok_bind, hset u hbefore, hgsingle,
    hssingle]
  rfl

theorem stage_defineEvent {e : EventRecord} (hm : encodeEvent u₀ e = .ok m)
    (hexact : exactTree m = true) (h : Stage first start t n base content l) :
    (defineEvent t m).wp
      (fun _ => Stage first start t n base
        (Section.replace content .events (content .events ++ [m]))) (fun _ => True) l := by
  obtain ⟨type, -, hm⟩ := bind_eq_ok.mp hm
  obtain ⟨a, ha, hm⟩ := bind_eq_ok.mp hm
  obtain ⟨r, hr, hm⟩ := bind_eq_ok.mp hm
  obtain ⟨rs, hrs, hm⟩ := bind_eq_ok.mp hm
  obtain rfl : m = .element "event" [("name", e.name), ("type", type)] ([a, r] ++ rs) :=
    (Except.ok.inj hm).symm
  obtain ⟨hsingle, hnames⟩ := accessor_list hrs
  obtain ⟨aname, aparams, rfl⟩ := node_of_encodeAccessor ha
  obtain ⟨rname, rparams, rfl⟩ := node_of_encodeAccessor hr
  let add := Node.element "add" [("name", aname), ("params", aparams)] []
  let remove := Node.element "remove" [("name", rname), ("params", rparams)] []
  have hraise :
      Node.childNamed? (.element "event" [("name", e.name), ("type", type)] ([add, remove] ++ rs))
      "raise" = rs.head? := by
    rw [childNamed?_eq]
    show (([add, remove] ++ rs).filter fun c => c.name == "raise").head? = _
    rw [List.filter_append, filter_name hnames]
    rfl
  have hinside := (exactTree_iff.mp hexact).2
  rw [← hsingle] at hrs
  rw [defineEvent, hraise]
  refine wp_step (stage_accessor hrs (fun g hg =>
    hinside g (List.mem_append_right _ (List.mem_of_head? hg))) h) ?_ fun _ h => h
  rintro raise l' ⟨rfl, hraised⟩
  refine wp_step (stage_nextToken .event h) ?_ fun _ h => h
  rintro token l'' ⟨h, hprogram⟩
  refine wp_lift_bind (require_of_get? rfl) (wp_lift_bind (require_of_get? rfl) ?_)
  rw [wp_bind]
  refine wp_resolve fun signature hsignature => ?_
  rw [wp_bind]
  refine wp_resolve fun added hadded => ?_
  rw [wp_bind]
  refine wp_resolve fun removed hremoved => ?_
  change l''.scope.methodOn t add = .ok added at hadded
  change l''.scope.methodOn t remove = .ok removed at hremoved
  refine stage_edit h (touches_events _ _) fun u hu hself => mapM_push hself ?_
  have hbefore : l'.space.program.Extends u := by
    rw [← hprogram]
    exact hu
  have haddexact : exactTree add = true := hinside add List.mem_cons_self
  have hremoveexact : exactTree remove = true :=
    hinside remove (List.mem_cons_of_mem _ List.mem_cons_self)
  rw [encodeEvent, encodeSignature_of_signature h.ready hu hsignature, ok_bind,
    encodeAccessor_reads h.ready hu h.new ha haddexact hadded, ok_bind,
    encodeAccessor_reads h.ready hu h.new hr hremoveexact hremoved, ok_bind,
      hraised u hbefore, hsingle]
  rfl

/-! ### All members -/

theorem stage_define (hn : Written u₀ n) (hexact : exactTree n = true)
    (h : Stage first start t n none (fun _ => []) l) :
    (define n t).wp
      (fun _ => Stage first start t n (n.get? "base") fun sec =>
        sec.defined (n.childrenNamed sec.element)) (fun _ => True) l := by
  have hinside : ∀ name, ∀ m ∈ n.childrenNamed name, exactTree m = true := by
    intro name m hm
    exact (exactTree_iff.mp hexact).2 m (List.mem_filter.mp hm).1
  refine wp_step (stage_defineBase h) (fun _ l h => ?_) fun _ h => h
  refine wp_step (stage_forM .interfaces (fun m => m) _ (fun m hm content l h => ?_) h)
    (fun _ l h => ?_) fun _ h => h
  · obtain ⟨i, hi⟩ := hn.wrote .interfaces m hm
    exact stage_defineInterface hi h
  refine wp_step (stage_forM .fields bare _ (fun m hm content l h => ?_) h) (fun _ l h =>
    ?_) fun _ h => h
  · obtain ⟨f, hf⟩ := hn.wrote .fields m hm
    exact stage_defineField hf h
  refine wp_step (stage_forM .constructors bare _ (fun m hm content l h => ?_) h) (fun _ l h =>
    ?_) fun _ h => h
  · obtain ⟨c, hname, hc⟩ := hn.wrote .constructors m hm
    exact stage_defineConstructor hname hc h
  refine wp_step (stage_defineInitializer (hn.wrote .initializer) hn.initializer rfl h)
    (fun _ l h => ?_) fun _ h => h
  refine wp_step (stage_forM .methods bare _ (fun m hm content l h => ?_) h) (fun _ l h =>
    ?_) fun _ h => h
  · obtain ⟨m₀, hm₀⟩ := hn.wrote .methods m hm
    exact stage_defineMethod hm₀ h
  refine wp_step (stage_forM .properties (fun m => m) _ (fun m hm content l h => ?_) h)
    (fun _ l h => ?_) fun _ h => h
  · obtain ⟨p, hp⟩ := hn.wrote .properties m hm
    exact stage_defineProperty hp (hinside _ m hm) h
  refine wp_mono (stage_forM .events (fun m => m) _ (fun m hm content l h => ?_) h) (fun _ l h =>
    ?_) fun _ h => h
  · obtain ⟨e, he⟩ := hn.wrote .events m hm
    exact stage_defineEvent he (hinside _ m hm) h
  · refine cast (congrArg (fun content => Stage first start t n (n.get? "base") content l)
      (funext fun sec => ?_)) h
    cases sec <;> simp [Section.replace, Section.defined, Section.element]

end Loading

end TypeLoom.Artifact
