import TypeLoom.Proofs.Linking

/-!
# Modules that were read

When all passes are done the names of a module lead to its types, what these refer to was found by
its words, and the types that were there before are as they were.
-/

namespace TypeLoom.Artifact

open Markup Attempt

variable {first : Nat} {p : Universe} {t : TypeId} {n : Node} {u₀ : Universe} {nodes : List Node}

/-! ### Before members are read -/

theorem nil_of_mapM {α : Type} {f : α → Except Fault Node} {items : List α}
    (h : items.mapM f = .ok []) : items = [] :=
  List.length_eq_zero_iff.mp (length_mapM h).symm

/-- A type of which nothing has been read refers to nothing. -/
theorem Holds.memberless (h : Holds p t n none fun _ => []) :
    (p.record t).references = [] ∧ (p.record t).signatures = [] ∧ (p.record t).named = []
    ∧ (p.record t).OwnInitializer t := by
  have hcontent := h.content p (.refl p)
  have hattributes : (p.record t).attributes.toList = [] := nil_of_mapM (hcontent .attributes)
  have hfields : (p.record t).fields.toList = [] := nil_of_mapM (hcontent .fields)
  have hconstructors : (p.record t).constructors.toList = [] := nil_of_mapM (hcontent .constructors)
  have hinitializer : (p.record t).ownInitializer.toList = [] := nil_of_mapM (hcontent .initializer)
  have hmethods : (p.record t).methods.toList = [] := nil_of_mapM (hcontent .methods)
  have hproperties : (p.record t).properties.toList = [] := nil_of_mapM (hcontent .properties)
  have hevents : (p.record t).events.toList = [] := nil_of_mapM (hcontent .events)
  have hoverrides : (p.record t).overrides.toList = [] := nil_of_mapM (hcontent .overrides)
  have hbase : (p.record t).base = none := by
    have hencoded := h.base p (.refl p)
    cases hb : (p.record t).base with
    | none => rfl
    | some b =>
      rw [hb] at hencoded
      obtain ⟨text, -, htext⟩ := bind_eq_ok.mp hencoded
      cases htext
  refine ⟨?_, ?_, ?_, h.initializer⟩
  · rw [TypeRecord.references, List.flatMap_eq_nil_iff]
    intro sec _
    cases sec <;> simp only [Section.references, hattributes, hfields, hconstructors, hinitializer,
      hmethods, hproperties, hevents,
      hoverrides, List.map_nil, List.flatMap_nil]
  · rw [TypeRecord.signatures, hconstructors, hmethods]
    rfl
  · rw [TypeRecord.named, hbase, hinitializer]
    rfl

theorem SameMembers.trans {r r' r'' : TypeRecord} (h : SameMembers r r') (h' : SameMembers r' r'') :
    SameMembers r r'' := by
  obtain ⟨nested, complete, rfl⟩ := h
  obtain ⟨nested', complete', rfl⟩ := h'
  exact ⟨nested', complete', rfl⟩

namespace Loading

variable {space : TypeSpace} {l : Loading} {items : List (Node × TypeId)}

/-- The full names of the types that were declared stand for something, and the types from before
are as they were. -/
structure Found (space : TypeSpace) (items : List (Node × TypeId)) (l : Loading) : Prop where
  ready : l.scope.Ready space.program.types.size
  room : space.program.types.size ≤ l.space.program.types.size
  found : ∀ q ∈ items, ∃ name, l.space.program.Named q.2 name ∧ (l.here.find? name).isSome
  old : ∀ t : TypeId, t.index < space.program.types.size →
    SameMembers (space.program.record t) (l.space.program.record t)

theorem wp_declareFound (hspace : Tidy space) (hnodes : ∀ n ∈ nodes, Written u₀ n) :
    (nodes.mapM declare).wp (fun types after => Found space (nodes.zip types) after)
    (fun _ => True) { space } := by
  have hstart : Found space [] { space } := ⟨hspace.ready, Nat.le_refl _, nofun, fun _ _ => .refl _⟩
  refine wp_mono (wp_mapM (I := Found space) nodes (fun before n rest heq mid hmid => ?_) hstart)
    (fun _ _ h => h.2) fun _ h => h
  have hmem : n ∈ nodes := by
    rw [heq]
    exact List.mem_append_right _ List.mem_cons_self
  refine wp_mono (wp_declare (hnodes n hmem) hmid.ready hmid.room) (fun t after hafter =>
    ?_) fun _ h => h
  obtain ⟨rfl, hready, ⟨r, hadded⟩, -, name, hnamed, hhere⟩ := hafter
  refine ⟨hready, Nat.le_trans hmid.room hadded.growth.size, fun q hq => ?_, fun t ht => ?_⟩
  · rw [hhere]
    rcases List.mem_append.mp hq with hq | hq
    · obtain ⟨other, hother, hfound⟩ := hmid.found q hq
      refine ⟨other, hother.extend hmid.ready.enclosed hadded.growth, ?_⟩
      by_cases heq : name = other
      · rw [heq, Keyed.find?_put_self]
        rfl
      · rw [Keyed.find?_put_of_ne _ _ _ _ heq]
        exact hfound
    · rw [List.mem_singleton.mp hq]
      refine ⟨name, hnamed, ?_⟩
      rw [Keyed.find?_put_self]
      rfl
  · exact (hmid.old t ht).trans (hadded.others t (Nat.lt_of_lt_of_le ht hmid.room))

/-! ### When everything is read -/

end Loading

/-- What is known when types have been read into a space: names of the module lead to them, and
so on. -/
structure ReadInto (space : TypeSpace) (loaded : List TypeId) (s : Scope) : Prop where
  listings : s.registry.listings = space.registry.listings
  ready : s.Ready space.program.types.size
  here : ∀ name t, s.here.find? name = some t → t ∈ loaded
  found : ∀ t ∈ loaded, ∃ name, s.program.Named t name ∧ (s.here.find? name).isSome
  new : ∀ t ∈ loaded, space.program.types.size ≤ t.index
  growth : space.program.Extends s.program
  old : ∀ t : TypeId, t.index < space.program.types.size →
    SameMembers (space.program.record t) (s.program.record t)
  complete : ∀ t ∈ loaded, (s.program.record t).complete = true
  own : ∀ t ∈ loaded, (s.program.record t).OwnInitializer t
  references : ∀ t ∈ loaded, ∀ x ∈ (s.program.record t).references, s.Binds t x
  signatures : ∀ t ∈ loaded, ∀ g ∈ (s.program.record t).signatures, s.Resolves g
  named : ∀ t ∈ loaded, ∀ b ∈ (s.program.record t).named, s.Finds b

theorem SameMembers.keeps {r r' : TypeRecord} (h : SameMembers r r') : TypeRecord.Keeps r r' := by
  obtain ⟨nested, complete, rfl⟩ := h
  exact .of_outline rfl rfl rfl rfl rfl (.refl _)

theorem gains_complete {s : Scope} (r : TypeRecord) : Gains s t r { r with complete := true } :=
  gains_of_section .interfaces (.of_outline rfl rfl rfl rfl rfl (.refl _)) rfl rfl (fun _ _ => rfl)
    (fun _ h => .inl h) (fun _ h => .inl h)
    fun _ h => .inl h

namespace Loading

variable {space : TypeSpace} {l start : Loading} {items : List (Node × TypeId)}

theorem wp_finishLinked {types : List TypeId} (hready : l.scope.Ready first)
    (hlinked : Linked first start l) (hpresent : ∀ t ∈ types, l.space.program.isPresent t)
    (hnew : ∀ t ∈ types, first ≤ t.index) :
    (types.forM finish).wp
      (fun _ after => ∃ last : Loading, last.scope.Ready first ∧ Linked first start last
        ∧ (∀ t ∈ types, (last.space.program.record t).complete = true)
        ∧ last.space.program = after.space.program ∧ last.here = after.here)
      (fun _ => True) l := by
  let inv (done : List TypeId) (after : Loading) : Prop := ∃ last : Loading, last.scope.Ready first
    ∧ Linked first start last
    ∧ (∀ t ∈ types, last.space.program.isPresent t)
    ∧ (∀ t ∈ done, (last.space.program.record t).complete = true)
    ∧ last.space.program = after.space.program ∧ last.here = after.here
  refine wp_mono (wp_forM (I := inv) types (fun before t rest heq mid hmid => ?_) ⟨l, hready,
    hlinked, hpresent, nofun, rfl, rfl⟩)
    (fun _ after hafter => ?_) fun _ h => h
  · have hmem : t ∈ types := by
      rw [heq]
      exact List.mem_append_right _ List.mem_cons_self
    obtain ⟨last, hready, hlinked, hpresent, hcomplete, hprogram, hhere⟩ := hmid
    have hkeeps : ∀ r : TypeRecord, TypeRecord.Keeps r { r with complete := true } :=
      fun r => (gains_complete (s := l.scope) (t := t) r).keeps
    have hgrowth : last.space.program.Extends (last.edited t fun r =>
      { r with complete := true }).space.program :=
      Universe.extends_modify (hkeeps _)
    refine ⟨last.edited t fun r => { r with complete := true }, ?_,
      hlinked.edited (hnew t hmem) (gains_complete _),
      fun other hother => hgrowth.isPresent (hpresent other hother),
      fun other hother => ?_, ?_, hhere⟩
    · exact hready.modify (hpresent t hmem) rfl rfl rfl (hkeeps _) fun hproper =>
        SameMembers.proper ⟨_, _, rfl⟩ hproper
    · show ((last.space.program.modify t _).record other).complete = true
      rw [Universe.record_modify]
      split
      · rfl
      · rename_i hne
        rcases List.mem_append.mp hother with hbefore | hself
        · exact hcomplete other hbefore
        · exact absurd ⟨List.mem_singleton.mp hself,
            last.space.program.lt_of_isPresent t (hpresent t hmem)⟩ hne
    · show last.space.program.modify t _ = mid.space.program.modify t _
      rw [hprogram]
  · obtain ⟨last, hready, hlinked, -, hcomplete, hprogram, hhere⟩ := hafter
    exact ⟨last, hready, hlinked, hcomplete, hprogram, hhere⟩

theorem linked_start (hdeclared : Declared space items l)
    (hholds : ∀ q ∈ items, Holds l.space.program q.2 q.1 none fun _ => []) :
    Linked space.program.types.size l l := by
  have hbare : ∀ t : TypeId, space.program.types.size ≤ t.index →
    (l.space.program.record t).references = []
      ∧ (l.space.program.record t).signatures = [] ∧ (l.space.program.record t).named = []
      ∧ (l.space.program.record t).OwnInitializer t := by
    intro t ht
    by_cases hlt : t.index < l.space.program.types.size
    · obtain ⟨q, hq, rfl⟩ := List.mem_map.mp ((hdeclared.types t).mpr ⟨ht, hlt⟩)
      exact (hholds q hq).memberless
    · rw [l.space.program.record_of_le t (Nat.not_lt.mp hlt)]
      exact ⟨rfl, rfl, rfl, rfl⟩
  refine ⟨.refl _, fun _ _ => rfl, fun t ht => (hbare t ht).2.2.2, fun t ht x hx => ?_,
    fun t ht g hg => ?_, fun t ht b hb => ?_⟩
  · rw [(hbare t ht).1] at hx
    exact absurd hx List.not_mem_nil
  · rw [(hbare t ht).2.1] at hg
    exact absurd hg List.not_mem_nil
  · rw [(hbare t ht).2.2.1] at hb
    exact absurd hb List.not_mem_nil

theorem wp_passesRead (hspace : Tidy space) (hnodes : ∀ n ∈ nodes, Written u₀ n)
    (hexact : ∀ n ∈ nodes, exactTree n = true) :
    (passes nodes).wp (fun loaded after => ReadInto space loaded ⟨after.space.program,
      space.registry, after.here⟩)
      (fun _ => True) { space } := by
  rw [passes]
  have hfirst := wp_and (wp_declareAll hnodes hspace.ready (Nat.le_refl _))
    (wp_and (wp_declareNodes space nodes) (wp_declareFound hspace hnodes))
  refine wp_step hfirst (fun types l₁ h₁ => ?_) fun _ _ => trivial
  obtain ⟨⟨hlength, hstaged⟩, ⟨-, hdeclared⟩, hfound⟩ := h₁
  have hmem : ∀ q ∈ nodes.zip types, q.1 ∈ nodes := fun q hq => (List.of_mem_zip hq).1
  have hmap : (nodes.zip types).map (·.2) = types := List.map_snd_zip (Nat.le_of_eq hlength.symm)
  have hnew : ∀ t ∈ types, space.program.types.size ≤ t.index := fun t ht => by
    rw [← hmap] at ht
    obtain ⟨q, hq, rfl⟩ := List.mem_map.mp ht
    exact hstaged.new q hq
  have hstart := linked_start hdeclared hstaged.holds
  have hsecond :=
    wp_and (wp_pass (fun n => n.get? "base") (fun n sec =>
    sec.defined (n.childrenNamed sec.element))
    (fun q hq l h => stage_define (hnodes _ (hmem q hq)) (hexact _ (hmem q hq)) h) hstaged)
    (links_forM (fun q : Node × TypeId => define q.1 q.2) (nodes.zip types)
      (fun q hq => links_define (hstaged.new q hq) q.1) l₁ hstart)
  refine wp_step hsecond (fun _ l₂ h₂ => ?_) fun _ _ => trivial
  obtain ⟨⟨hdefined, -, -⟩, hlinked⟩ := h₂
  have hthird := wp_and (wp_pass (fun n => n.get? "base") (fun n sec => n.childrenNamed sec.element)
    (fun q hq l h => stage_attach (hnodes _ (hmem q hq)) (hexact _ (hmem q hq)) h) hdefined)
    (links_forM (fun q : Node × TypeId => attach q.1 q.2) (nodes.zip types)
      (fun q hq => links_attach (hstaged.new q hq) q.1) l₂ hlinked)
  refine wp_step hthird (fun _ l₃ h₃ => ?_) fun _ _ => trivial
  obtain ⟨⟨hattached, -, -⟩, hlinked⟩ := h₃
  have hpresent : ∀ t ∈ types, l₃.space.program.isPresent t := fun t ht => by
    rw [← hmap] at ht
    obtain ⟨q, hq, rfl⟩ := List.mem_map.mp ht
    exact (hattached.holds q hq).labels.present
  refine wp_step (wp_finishLinked hattached.ready hlinked hpresent hnew) (fun _ after hafter =>
    ?_) fun _ h => h
  obtain ⟨last, hready, hlast, hcomplete, hprogram, hhere⟩ := hafter
  show ReadInto space types ⟨after.space.program, space.registry, after.here⟩
  rw [← hprogram, ← hhere]
  -- listing the types at the end left the names as they were when the types were declared
  have hlistings : last.space.registry.listings = space.registry.listings :=
    hlast.later.names.listings.trans hdeclared.listings
  have hlater : last.scope.Later ⟨last.space.program, space.registry, last.here⟩ :=
    ⟨⟨rfl, hlistings.symm⟩, .refl _, fun _ _ h => h⟩
  have hnames : last.here = l₁.here := hlast.later.names.here
  have hold : ∀ t : TypeId, t.index < space.program.types.size →
      SameMembers (space.program.record t) (last.space.program.record t) := by
    intro t ht
    rw [hlast.old t ht]
    exact hfound.old t ht
  refine ⟨rfl, hready.same rfl hlistings.symm rfl, fun name t ht => ?_, fun t ht => ?_, hnew,
    ⟨?_, fun t ht => (hold t ht).keeps⟩, hold,
    hcomplete, fun t ht => hlast.own t (hnew t ht), fun t ht x hx =>
    hlater.binds (hlast.references t (hnew t ht) x hx),
    fun t ht g hg => hlater.resolves (hlast.signatures t (hnew t ht) g hg),
    fun t ht b hb => hlater.finds (hlast.named t (hnew t ht) b hb)⟩
  · rw [← hmap]
    exact hdeclared.here name t (hnames ▸ ht)
  · rw [← hmap] at ht
    obtain ⟨q, hq, rfl⟩ := List.mem_map.mp ht
    obtain ⟨name, hnamed, hsome⟩ := hfound.found q hq
    exact ⟨name, hnamed.extend hfound.ready.enclosed hlast.later.growth, hnames ▸ hsome⟩
  · exact Nat.le_trans hfound.room hlast.later.growth.size

theorem wp_loadRead (hspace : Tidy space) (hnodes : ∀ n ∈ nodes, Written u₀ n)
    (hexact : ∀ n ∈ nodes, exactTree n = true) :
    (load nodes).wp (fun loaded after => loaded.mapM (encodeType after.space.program) = .ok nodes
        ∧ ReadInto space loaded ⟨after.space.program, space.registry, after.here⟩)
      (fun _ => True) { space } := by
  have hread : (load nodes).wp (fun loaded after => ReadInto space loaded ⟨after.space.program,
    space.registry, after.here⟩)
      (fun _ => True) { space } := by
    rw [load, wp_onFault]
    exact wp_mono (wp_passesRead hspace hnodes hexact) (fun _ _ h => h) fun _ _ => trivial
  exact wp_mono (wp_and (Artifact.wp_load hspace hnodes hexact) hread) (fun _ _ h => h) fun _ _ =>
    trivial

end Loading

end TypeLoom.Artifact
