import TypeLoom.Proofs.Spelling

/-!
# Modules as they are spelled

All types of a module are declared before any of them is defined, so an element may name any of
them. When all passes are done each type is as its own element spells it, and what was there before
is as it was.
-/

namespace TypeLoom.Artifact.Loading

open Markup Attempt

variable {l : Loading} {n : Node} {flags : UInt32}

/-! ### The first pass -/

/-- The types of the items are the new ones. They have the flags of their elements, and say
nothing of other types. -/
structure Declared (space : TypeSpace) (items : List (Node × TypeId)) (l : Loading) : Prop where
  listings : l.space.registry.listings = space.registry.listings
  here : ∀ name t, l.here.find? name = some t → t ∈ items.map (·.2)
  old : Universe.Agree space.program.types.size space.program l.space.program
  types : ∀ t, t ∈ items.map (·.2) ↔ space.program.types.size ≤ t.index
    ∧ t.index < l.space.program.types.size
  distinct : (items.map (·.2)).Nodup
  size : space.program.types.size ≤ l.space.program.types.size
  fresh : ∀ p ∈ items, ∃ flags, readFlags p.1 = .ok flags ∧ (l.space.program.outline p.2).wiring
    = ⟨flags, none, [], []⟩

namespace Declared

variable {space : TypeSpace} {items : List (Node × TypeId)}

theorem start (space : TypeSpace) : Declared space [] { space } where
  listings := rfl
  here := nofun
  old := .refl _ _
  types := fun _ => ⟨nofun, fun h => absurd h.1 (Nat.not_le.mpr h.2)⟩
  distinct := List.nodup_nil
  size := Nat.le_refl _
  fresh := nofun

/-- What changes no outline changes nothing here. -/
theorem same (h : Declared space items l) {l' : Loading}
    (hsame : l.space.program.Same l'.space.program)
    (hlistings : l'.space.registry.listings = l.space.registry.listings)
    (hhere : l'.here = l.here) :
    Declared space items l' where
  listings := hlistings.trans h.listings
  here := by
    rw [hhere]
    exact h.here
  old := h.old.trans (hsame.agree _)
  types := by
    rw [hsame.1]
    exact h.types
  distinct := h.distinct
  size := by
    rw [hsame.1]
    exact h.size
  fresh := fun p hp => by
    rw [hsame.2]
    exact h.fresh p hp

theorem push (h : Declared space items l) {r : TypeRecord} {l' : Loading}
    (hprogram : l'.space.program = l.space.program.push r)
    (hlistings : l'.space.registry.listings = l.space.registry.listings) (hhere : l'.here = l.here)
    (hflags : readFlags n = .ok flags) (hr : r.outline.wiring = ⟨flags, none, [], []⟩) :
    Declared space (items ++ [(n, l.space.program.nextId)]) l' := by
  have hmap : (items ++ [(n, l.space.program.nextId)]).map (·.2) = items.map (·.2)
    ++ [l.space.program.nextId] := by simp
  have hagree : Universe.Agree l.space.program.types.size l.space.program l'.space.program := by
    rw [hprogram]
    exact .push r
  have hsize : l'.space.program.types.size = l.space.program.types.size + 1 := by
    rw [hprogram, Universe.size_push]
  refine ⟨hlistings.trans h.listings, fun name t ht => ?_, h.old.trans (hagree.mono h.size),
    fun t => ?_, ?_, ?_, fun p hp => ?_⟩
  · rw [hmap]
    exact List.mem_append_left _ (h.here name t (hhere ▸ ht))
  · rw [hmap, List.mem_append, h.types, List.mem_singleton, hsize]
    constructor
    · rintro (hold | rfl)
      · omega
      · exact ⟨h.size, Nat.lt_succ_self _⟩
    · intro ht
      rcases Nat.lt_succ_iff_lt_or_eq.mp ht.2 with hlt | heq
      · exact .inl ⟨ht.1, hlt⟩
      · exact .inr (by cases t; exact congrArg TypeId.mk heq)
  · rw [hmap, List.nodup_append]
    refine ⟨h.distinct, by simp, fun t ht other hother heq => ?_⟩
    have hlt := ((h.types t).mp ht).2
    rw [heq, List.mem_singleton.mp hother] at hlt
    exact Nat.lt_irrefl _ hlt
  · rw [hsize]
    exact Nat.le_succ_of_le h.size
  · rcases List.mem_append.mp hp with hp | hp
    · rw [hagree p.2 ((h.types p.2).mp (List.mem_map_of_mem hp)).2]
      exact h.fresh p hp
    · obtain rfl := List.mem_singleton.mp hp
      refine ⟨flags, hflags, ?_⟩
      rw [hprogram, Universe.outline_push, if_pos rfl, hr]

end Declared

theorem declared_enclose {space : TypeSpace} {items : List (Node × TypeId)}
    (t : TypeId) (n : Node) :
    Maintains (Declared space items) (enclose t n) := by
  unfold enclose
  split
  · exact maintains_pure _
  refine maintains_bind (maintains_resolve _) fun outer l hl => ?_
  have hsteps : Maintains (fun now : TypeSpace => Declared space items { l with space := now })
      (TypeSpace.nestIn t outer) := by
    refine maintains_bind (maintains_get_bind fun now hnow => ?_) fun _ now hnow => ?_
    · split
      · rename_i u hu
        replace hu : now.program.setDeclaring t outer = .ok u := hu
        unfold Universe.setDeclaring at hu
        split at hu
        · cases hu
        · cases hu
          exact hnow.same (Universe.same_modify t fun _ => rfl) rfl rfl
      · exact hnow
    · exact hnow.same (Universe.same_modify outer fun _ => rfl) rfl rfl
  rw [inSpace, wp_within]
  exact hsteps l.space hl

theorem wp_declare_new {space : TypeSpace} {items : List (Node × TypeId)}
    (h : Declared space items l) :
    (declare n).wp (fun t => Declared space (items ++ [(n, t)])) (fun _ => True) l := by
  rw [declare, inSpace, wp_bind, wp_within, TypeSpace.nextToken, wp_bind, wp_get, wp_bind, wp_set,
    wp_pure, wp_bind, wp_lift]
  refine ⟨fun space' _ => ?_, fun _ _ => trivial⟩
  rw [wp_bind, wp_lift]
  refine ⟨fun name _ => ?_, fun _ _ => trivial⟩
  rw [wp_bind, wp_lift]
  refine ⟨fun flags hflags => ?_, fun _ _ => trivial⟩
  rw [inSpace, wp_bind, wp_within, TypeSpace.addType, wp_bind, wp_get, wp_bind, wp_set, wp_pure,
    wp_bind, wp_modify]
  refine wp_step (declared_enclose _ n _ (h.push (n := n) rfl rfl rfl hflags rfl))
    (fun _ mid hmid => ?_) fun _ _ => trivial
  rw [wp_bind, wp_modify, wp_pure]
  refine { hmid with here := fun name t ht => ?_ }
  by_cases heq : mid.space.program.fullName l.space.program.nextId = name
  · rw [heq, Keyed.find?_put_self] at ht
    cases ht
    simp
  · rw [Keyed.find?_put_of_ne _ _ _ _ heq] at ht
    exact hmid.here name t ht

theorem wp_declareNodes (space : TypeSpace) (nodes : List Node) :
    (nodes.mapM declare).wp (fun types after => nodes.length = types.length
      ∧ Declared space (nodes.zip types) after)
      (fun _ => True) { space } :=
  wp_mapM (I := Declared space) nodes (fun _ _ _ _ _ hmid => wp_declare_new hmid) (.start space)

/-! ### All passes -/

/-- A pass over all types: as no step changes another type, each is in the end as its own step
left it. -/
theorem wp_each {items : List (Node × TypeId)} {step : Node × TypeId → Attempt Loading Unit}
    {done : Node × TypeId → TypeOutline → Prop} (hdistinct : (items.map (·.2)).Nodup)
    (hstep : ∀ p ∈ items, ∀ (before : List (Node × TypeId)) (mid : Loading),
      Only l (before.map (·.2)) mid →
      (∀ q ∈ before, done q (mid.space.program.outline q.2)) → mid.space.program.outline p.2
      = l.space.program.outline p.2 →
      (step p).wp (fun _ after => Only mid [p.2] after ∧ done p (after.space.program.outline p.2))
        (fun _ => True) mid) :
    (items.forM step).wp
      (fun _ after => Only l (items.map (·.2)) after ∧ ∀ p ∈ items,
        done p (after.space.program.outline p.2))
      (fun _ => True) l := by
  let inv (before : List (Node × TypeId)) (mid : Loading) : Prop :=
    Only l (before.map (·.2)) mid ∧ ∀ p ∈ before, done p (mid.space.program.outline p.2)
  refine wp_forM (I := inv) items (fun before p rest heq mid hmid => ?_) ⟨.refl l, nofun⟩
  obtain ⟨honly, hbefore⟩ := hmid
  rw [heq, List.map_append, List.map_cons] at hdistinct
  have hnew : p.2 ∉ before.map (·.2) := fun hold =>
    (List.nodup_append.mp hdistinct).2.2 _ hold _ List.mem_cons_self rfl
  have hmem : p ∈ items := by
    rw [heq]
    exact List.mem_append_right _ List.mem_cons_self
  refine wp_mono (hstep p hmem before mid honly hbefore (honly.others p.2 hnew))
    (fun _ after hafter => ?_) fun _ h => h
  obtain ⟨hone, hdone⟩ := hafter
  refine ⟨by simpa using honly.trans hone, fun q hq => ?_⟩
  rcases List.mem_append.mp hq with hq | hq
  · have hne : q.2 ≠ p.2 := fun heq => hnew (heq ▸ List.mem_map_of_mem hq)
    rw [hone.others q.2 (by simpa using hne)]
    exact hbefore q hq
  · obtain rfl := List.mem_singleton.mp hq
    exact hdone

def IsDefined (s : Scope) (p : Node × TypeId) (o : TypeOutline) : Prop :=
  ∃ flags base listed, readFlags p.1 = .ok flags ∧ Option.Rel s.Means (p.1.get? "base") base
    ∧ List.Forall₂ s.Lists (p.1.childrenNamed "interface") listed
    ∧ o.wiring = ⟨flags, base, listed, []⟩

def IsAttached (l : Loading) (p : Node × TypeId) (o : TypeOutline) : Prop :=
  ∃ overrides, List.Forall₂ (l.scope.Overrides p.2) (p.1.childrenNamed "override") overrides
    ∧ o = (l.space.program.outline p.2).withOverrides overrides

variable {space : TypeSpace} {items : List (Node × TypeId)}

theorem wp_defineAll (h : Declared space items l) :
    (items.forM fun p => define p.1 p.2).wp
      (fun _ after => Only l (items.map (·.2)) after ∧ ∀ p ∈ items,
        IsDefined l.scope p (after.space.program.outline p.2))
      (fun _ => True) l := by
  refine wp_each h.distinct fun p hp before mid honly _ houtline => ?_
  obtain ⟨flags, hflags, hwiring⟩ := h.fresh p hp
  have hlt : p.2.index < mid.space.program.types.size := by
    rw [honly.size]
    exact ((h.types p.2).mp (List.mem_map_of_mem hp)).2
  have hstart : Wired mid p.2 ⟨flags, none, [], []⟩ mid := ⟨.refl mid, by rw [houtline, hwiring]⟩
  refine wp_mono (wp_define hlt hstart) (fun _ after hafter => ?_) fun _ h => h
  obtain ⟨base, listed, hbase, hlisted, hafter⟩ := hafter
  exact ⟨hafter.toOnly, flags, base, listed, hflags, honly.names.means ▸ hbase,
    honly.names.lists ▸ hlisted, hafter.wiring⟩

theorem sameHeads_of_attached {types : List TypeId} {before : List (Node × TypeId)} {mid : Loading}
    (honly : Only l types mid) (htypes : ∀ t ∈ types, t ∈ before.map (·.2))
    (h : ∀ p ∈ before, IsAttached l p (mid.space.program.outline p.2)) :
    l.space.program.SameHeads mid.space.program := by
  intro t
  by_cases ht : t ∈ before.map (·.2)
  · obtain ⟨p, hp, rfl⟩ := List.mem_map.mp ht
    obtain ⟨overrides, -, houtline⟩ := h p hp
    rw [houtline]
    rfl
  · rw [honly.others t fun hmem => ht (htypes t hmem)]

theorem wp_attachAll (hdistinct : (items.map (·.2)).Nodup)
    (hlt : ∀ p ∈ items, p.2.index < l.space.program.types.size)
    (hnone : ∀ p ∈ items, (l.space.program.outline p.2).overrides = []) :
    (items.forM fun p => attach p.1 p.2).wp
      (fun _ after => Only l (items.map (·.2)) after ∧ ∀ p ∈ items,
        IsAttached l p (after.space.program.outline p.2))
      (fun _ => True) l := by
  refine wp_each hdistinct fun p hp before mid honly hbefore houtline => ?_
  have hattach := wp_attach (n := p.1) (honly.size ▸ hlt p hp) (by rw [houtline, hnone p hp])
  refine wp_mono hattach (fun _ after hafter => ?_) fun _ h => h
  obtain ⟨overrides, hoverrides, hafter⟩ := hafter
  have hheads := sameHeads_of_attached honly (fun _ ht => ht) hbefore
  have hnames : SameNames mid.scope l.scope := ⟨honly.names.here.symm, honly.names.listings.symm⟩
  exact ⟨hafter.toOnly, overrides, hoverrides.imp fun _ _ hv => hv.congr hnames hheads.symm,
    houtline ▸ hafter.outline⟩

theorem wp_finishTypes_same (types : List TypeId) :
    (types.forM finish).wp (fun _ after => l.space.program.Same after.space.program)
    (fun _ => True) l := by
  let inv (_ : List TypeId) (after : Loading) : Prop := l.space.program.Same after.space.program
  refine wp_forM (I := inv) types (fun _ t _ _ mid hmid => ?_) (.refl _)
  exact hmid.trans (Universe.same_modify t fun _ => rfl)

/-- The universe has the types of these items besides the ones that were there, each as its
element spells it. -/
structure Spelled (space : TypeSpace) (items : List (Node × TypeId)) (here : Keyed String TypeId)
    (program : Universe) : Prop where
  names : ∀ name t, here.find? name = some t → t ∈ items.map (·.2)
  old : Universe.Agree space.program.types.size space.program program
  types : ∀ t, t ∈ items.map (·.2) ↔ space.program.types.size ≤ t.index
    ∧ t.index < program.types.size
  size : space.program.types.size ≤ program.types.size
  spells : ∀ p ∈ items, Scope.Spells ⟨program, space.registry, here⟩ p.1 p.2
    (program.outline p.2).wiring

theorem wp_passes (nodes : List Node) :
    (passes nodes).wp
      (fun types after => nodes.length = types.length
        ∧ ∃ here, Spelled space (nodes.zip types) here after.space.program)
      (fun _ => True) { space } := by
  rw [passes]
  refine wp_step (wp_declareNodes space nodes) (fun types l₁ h₁ => ?_) fun _ h => h
  obtain ⟨hlength, hdeclared⟩ := h₁
  refine wp_step (wp_defineAll hdeclared) (fun _ l₂ h₂ => ?_) fun _ h => h
  obtain ⟨hsecond, hdefined⟩ := h₂
  have hlt : ∀ p ∈ nodes.zip types, p.2.index < l₂.space.program.types.size := fun p hp => by
    rw [hsecond.size]
    exact ((hdeclared.types p.2).mp (List.mem_map_of_mem hp)).2
  have hnone : ∀ p ∈ nodes.zip types, (l₂.space.program.outline p.2).overrides = [] :=
      fun p hp => by
    obtain ⟨flags, base, listed, -, -, -, hwiring⟩ := hdefined p hp
    exact congrArg Wiring.overrides hwiring
  refine wp_step (wp_attachAll hdeclared.distinct hlt hnone) (fun _ l₃ h₃ => ?_) fun _ h => h
  obtain ⟨hthird, hattached⟩ := h₃
  refine wp_step (wp_finishTypes_same types) (fun _ after hsame => ?_) fun _ h => h
  have honly : Only l₁ ((nodes.zip types).map (·.2) ++ (nodes.zip types).map (·.2)) l₃ :=
    hsecond.trans hthird
  have hheads : l₂.space.program.SameHeads after.space.program := fun t => by
    rw [hsame.2]
    exact sameHeads_of_attached hthird (fun _ ht => ht) hattached t
  have hnames : SameNames l₁.scope ⟨after.space.program, space.registry, l₃.here⟩ :=
    ⟨honly.names.here, hdeclared.listings.symm⟩
  refine ⟨hlength, l₃.here, ?_, ?_, ?_, ?_, fun p hp => ?_⟩
  · rw [show l₃.here = l₁.here from honly.names.here]
    exact hdeclared.here
  · refine hdeclared.old.trans fun t ht => ?_
    have hnot : t ∉ (nodes.zip types).map (·.2) :=
      fun hmem => Nat.not_lt.mpr ((hdeclared.types t).mp hmem).1 ht
    rw [hsame.2, honly.others t (by simpa using hnot)]
  · rw [hsame.1, honly.size]
    exact hdeclared.types
  · rw [hsame.1, honly.size]
    exact hdeclared.size
  obtain ⟨flags, base, listed, hflags, hbase, hlisted, hwiring⟩ := hdefined p hp
  obtain ⟨overrides, hoverrides, houtline⟩ := hattached p hp
  have hend : (after.space.program.outline p.2).wiring = ⟨flags, base, listed, overrides⟩ := by
    rw [hsame.2, houtline]
    exact congrArg (fun w : Wiring => { w with overrides }) hwiring
  rw [hend]
  refine ⟨hflags, hnames.means ▸ hbase, hnames.lists ▸ hlisted, hoverrides.imp fun _ _ hv =>
    hv.congr ⟨hthird.names.here, ?_⟩ hheads⟩
  exact hdeclared.listings.symm.trans hsecond.names.listings.symm

end TypeLoom.Artifact.Loading
