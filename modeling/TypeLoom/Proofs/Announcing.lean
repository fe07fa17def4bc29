import TypeLoom.Proofs.Drawing

/-!
# The portraits that generation begins with

When all types of a batch are declared, each has the portrait of a type without members: its names,
its flags, perhaps with the one for abstract types, and the type that encloses it.
-/

namespace TypeLoom

open Attempt

/-! ### New types -/

structure Workshop.Adds (w : Workshop) (r : TypeRecord) (outer : Option TypeId) (w' : Workshop) :
    Prop where
  size : w'.space.program.types.size = w.space.program.types.size + 1
  self : (w'.space.program.record w.space.program.nextId).portrait = r
  other : ∀ t : TypeId, t.index < w.space.program.types.size → outer ≠ some t →
    w'.space.program.record t = w.space.program.record t
  kept : ∀ t : TypeId, t.index < w.space.program.types.size →
    (w'.space.program.record t).portrait = (w.space.program.record t).portrait
  overrides : ∀ t, (w'.space.program.outline t).overrides = (w.space.program.outline t).overrides

theorem Universe.overrides_push {u : Universe} {r : TypeRecord}
    (hr : r.overrides = #[]) (t : TypeId) :
    ((u.push r).outline t).overrides = (u.outline t).overrides := by
  rw [outline_push]
  split
  · rename_i hnew
    rw [hnew, outline_of_le u u.nextId (Nat.le_refl _)]
    exact congrArg Array.toList hr
  · rfl

namespace TypeSpace

variable {s mid : TypeSpace} {t : TypeId} {r : TypeRecord} {fail : TypeSpace → Prop}

theorem Edited.overrides (h : s.Edited t r mid) (hr : r.overrides = (s.program.record t).overrides)
    (x : TypeId) :
    (mid.program.outline x).overrides = (s.program.outline x).overrides := by
  by_cases hx : x = t
  · rw [hx, Universe.outline, h.self]
    exact congrArg Array.toList hr
  · rw [Universe.outline, h.other x hx, Universe.outline]

theorem wp_nestIn_edited {post : PUnit → TypeSpace → Prop} {outer : TypeId}
    (ht : t.index < s.program.types.size) (houter : outer.index < s.program.types.size)
    (hnone : (s.program.record t).declaring = none) (h : ∀ mid after,
      s.Edited t { s.program.record t with declaring := some outer } mid →
      mid.Edited outer
      { mid.program.record outer with nested := (mid.program.record outer).nested.push t } after →
      post ⟨⟩ after) : (nestIn t outer).wp post fail s := by
  simp only [nestIn, apply, wp_bind, wp_get, Universe.setDeclaring, hnone, Option.isSome_none,
    Bool.false_eq_true, if_false]
  have hfirst := edited_modify ht rfl fun r => { r with declaring := some outer }
  have hlt := houter
  rw [← hfirst.size] at hlt
  have hlast : (edit outer fun r => { r with nested := r.nested.push t }).wp post fail _ :=
    wp_edit hlt fun after hafter => h _ after hfirst hafter
  exact hlast

end TypeSpace

theorem Workshop.wp_defineType_adds {w : Workshop} {space name : String} {flags : UInt32}
    {declaring : Option TypeId} {fail : Workshop → Prop}
    (houter : ∀ outer ∈ declaring, outer.index < w.space.program.types.size) :
    (defineType space name flags declaring).wp (fun t w' => t = w.space.program.nextId ∧ w.Adds
      { token := ⟨0⟩, space := if declaring.isSome then "" else space, name, flags,
        origin := .generated, declaring }
      declaring w') fail w := by
  unfold defineType
  rw [wp_bind, inSpace, wp_within]
  refine TypeSpace.wp_newType fun token pushed hpushed _ => ?_
  have hsize : pushed.program.types.size = w.space.program.types.size + 1 := by
    rw [hpushed, Universe.size_push]
  have hnew : pushed.program.record w.space.program.nextId =
      { token, space := if declaring.isSome then "" else space, name, flags,
        origin := .generated } := by
    rw [hpushed, Universe.record_push_self]
  have hold : ∀ t : TypeId, t.index < w.space.program.types.size →
    pushed.program.record t = w.space.program.record t :=
    fun t ht => by rw [hpushed, Universe.record_push_of_lt _ _ _ ht]
  have hoverrides : ∀ t, (pushed.program.outline t).overrides
      = (w.space.program.outline t).overrides := fun t => by
    rw [hpushed, Universe.overrides_push rfl]
  cases declaring with
  | none =>
    refine ⟨rfl, hsize, ?_, fun t ht _ => hold t ht, fun t ht => by rw [← hold t ht], hoverrides⟩
    show (pushed.program.record _).portrait = _
    rw [hnew]
    simp [TypeRecord.portrait]
  | some outer =>
    have hlt : w.space.program.nextId.index < pushed.program.types.size := by
      rw [hsize]
      exact Nat.lt_succ_self _
    have hout := houter outer rfl
    rw [wp_bind, inSpace, wp_within]
    refine TypeSpace.wp_nestIn_edited hlt (by rw [hsize]; exact Nat.lt_succ_of_lt hout)
      (by rw [hnew]) fun mid after h₁ h₂ => ?_
    have hne : ∀ t : TypeId, t.index < w.space.program.types.size → t ≠ w.space.program.nextId := by
      rintro t ht rfl
      exact Nat.lt_irrefl _ ht
    have hfar : ∀ t : TypeId, t.index < w.space.program.types.size → t ≠ outer →
      after.program.record t = w.space.program.record t :=
      fun t ht hother => (h₂.other t hother).trans ((h₁.other t (hne t ht)).trans (hold t ht))
    refine ⟨rfl, (h₂.size.trans h₁.size).trans hsize, ?_, fun t ht hother => ?_, fun t ht =>
      ?_, fun t => ?_⟩
    · show (after.program.record _).portrait = _
      rw [h₂.other _ (Ne.symm (hne outer hout)), h₁.self, hnew]
      simp [TypeRecord.portrait]
    · exact hfar t ht fun heq => hother (by rw [heq])
    · by_cases heq : t = outer
      · show (after.program.record t).portrait = _
        rw [heq, h₂.self, h₁.other outer (hne outer hout), hold outer hout]
        rfl
      · exact congrArg TypeRecord.portrait (hfar t ht heq)
    · exact ((h₂.overrides rfl t).trans (h₁.overrides rfl t)).trans (hoverrides t)

/-! ### The first pass -/

def Descriptor.Flagged (d : Descriptor) (flags : UInt32) : Prop :=
  flags = d.flags ∨ flags = d.flags ||| TypeFlags.abstract

theorem Descriptor.blankPortrait_of_forget {d d' : Descriptor} (h : d'.forget = d.forget)
    (l : Layout) (flags : UInt32) :
    d'.blankPortrait l flags = d.blankPortrait l flags := by
  have hforget : ∀ e : Descriptor, e.blankPortrait l flags = e.forget.blankPortrait l flags :=
    fun _ => rfl
  rw [hforget d', hforget d, h]

namespace Production

variable {u : Universe} {b : Batch} {l : Layout} {done rest : List TypeHandle} {h : TypeHandle}
  {p : Production} {G : Prop}

/-- The types of the first descriptors are declared. -/
structure Begun (u : Universe) (b : Batch) (l : Layout) (done : List TypeHandle) (p : Production) :
    Prop where
  remembers : b.Remembers p.batch
  size : p.program.types.size = l.start + done.length
  old : ∀ t : TypeId, t.index < l.start → p.program.record t = u.record t
  records : ∀ h ∈ done, ∃ d flags, b.find? h = some d ∧ d.Flagged flags
    ∧ (p.program.record (l.place h)).portrait = d.blankPortrait l flags
  types : p.emitted.types.Tabulates (· ∈ done) l.place
  others : p.emitted = { types := p.emitted.types }
  attachments : p.attachments = #[]
  overrides : ∀ t, (p.program.outline t).overrides = (u.outline t).overrides

theorem Begun.place_lt (hp : Begun u b l done p) (horder : l.order = done ++ rest)
    (hmem : h ∈ done) :
    (l.place h).index < p.program.types.size := by
  rw [hp.size, Layout.place_of_mem (by rw [horder]; exact List.mem_append_left _ hmem), horder,
    List.idxOf_append_of_mem hmem]
  exact Nat.add_lt_add_left (List.idxOf_lt_length_of_mem hmem) _

theorem wp_lookUp_declaring {post : Option TypeId → Production → Prop} {fail : Production → Prop}
    {item : Option TypeHandle} (he : p.emitted.types.Tabulates (· ∈ done) l.place)
    (hpost : (∀ outer ∈ item, outer ∈ done) → post (item.map l.place) p)
    (hfail : ¬ (∀ outer ∈ item, outer ∈ done) → fail p) :
        (item.mapM fun outer => lookUp (·.type outer)).wp post fail p := by
  cases item with
  | none => exact hpost nofun
  | some outer =>
    rw [Option.mapM_some, wp_map]
    refine wp_lookUp_of (fun _ => Emitted.type_eq_ok he) (fun hmem => hpost fun other hother => ?_)
        fun hbad => hfail fun hall =>
      hbad (hall outer rfl)
    cases hother
    exact hmem

theorem wp_declare_begun (hnodup : l.order.Nodup) (horder : l.order = done ++ h :: rest)
    (good : G → ∃ d, b.find? h = some d ∧ ∀ outer ∈ d.declaring, outer ∈ done)
    (hp : Begun u b l done p) :
    (declare h).wp (fun _ => Begun u b l (done ++ [h])) (fun _ => ¬ G) p := by
  have hfresh : h ∉ done := by
    rw [horder] at hnodup
    exact fun hmem => List.disjoint_of_nodup_append hnodup hmem List.mem_cons_self
  have hplace : l.place h = p.program.nextId := by
    rw [Layout.place_of_getElem? hnodup (i := done.length) (by simp [horder]),
      Universe.nextId, hp.size]
  unfold declare
  rw [wp_bind, wp_descriptor]
  refine ⟨fun d hd => ?_, fun hnone g => ?_⟩
  swap
  · obtain ⟨d, hd, -⟩ := good g
    obtain ⟨d', hd', -⟩ := hp.remembers.find hd
    rw [hnone] at hd'
    cases hd'
  obtain ⟨known, hknown, hforget⟩ := hp.remembers.symm.find hd
  rw [wp_bind, wp_get, wp_bind, inBatch, wp_within]
  refine Batch.wp_askAbstract hd fun b' hb' _ => ?_
  rw [wp_bind]
  refine wp_lookUp_declaring hp.types (fun hdeclaring => ?_) fun hbad g => hbad ?_
  swap
  · obtain ⟨d', hd', hall⟩ := good g
    obtain rfl : known = d' := Option.some.inj (hknown.symm.trans hd')
    have hread : ∀ e : Descriptor, e.declaring = e.forget.declaring := fun _ => rfl
    rw [hread d, ← hforget]
    exact hall
  have houter : ∀ outer ∈ d.declaring.map l.place,
      outer.index < p.workshop.space.program.types.size := by
    intro outer houter
    obtain ⟨handle, hhandle, rfl⟩ := Option.map_eq_some_iff.mp houter
    exact hp.place_lt horder (hdeclaring handle hhandle)
  rw [wp_bind, inWorkshop, wp_within]
  refine wp_mono (Workshop.wp_defineType_adds houter) ?_ fun _ hbad => hbad
  rintro t w' ⟨rfl, hw⟩
  have hsize : w'.space.program.types.size = p.program.types.size + 1 := hw.size
  have hadd : Emitted.addType p.emitted h p.program.nextId
      = .ok { p.emitted with types := p.emitted.types.put h (l.place h) } := by
    rw [← hplace]
    exact bind_eq_ok.mpr ⟨_, Emitted.addOnce_of_tabulates hp.types hfresh _, rfl⟩
  refine wp_emit_of hadd ⟨hp.remembers.trans hb', ?_, fun t ht => ?_, fun other hother => ?_, ?_,
    ?_, hp.attachments,
    fun t => (hw.overrides t).trans (hp.overrides t)⟩
  · show w'.space.program.types.size = _
    rw [hsize, hp.size, List.length_append, List.length_singleton, Nat.add_assoc]
  · have hlt : t.index < p.program.types.size := by
      rw [hp.size]
      exact Nat.lt_add_right _ ht
    refine (hw.other t hlt fun heq => ?_).trans (hp.old t ht)
    obtain ⟨handle, -, rfl⟩ := Option.map_eq_some_iff.mp heq
    exact Nat.not_le.mpr ht (l.start_le_place handle)
  · show ∃ d flags, _ ∧ _ ∧ (w'.space.program.record (l.place other)).portrait = _
    rcases List.mem_append.mp hother with hold | hnew
    · obtain ⟨e, flags, he, hflags, hrecord⟩ := hp.records other hold
      exact ⟨e, flags, he, hflags, (hw.kept _ (hp.place_lt horder hold)).trans hrecord⟩
    · obtain rfl := List.mem_singleton.mp hnew
      refine ⟨known, if p.batch.isAbstract p.workshop.space.program d then d.flags |||
        TypeFlags.abstract else d.flags,
        hknown, ?_, ?_⟩
      · have hread : ∀ e : Descriptor, e.flags = e.forget.flags := fun _ => rfl
        rw [Descriptor.Flagged, hread known, hforget]
        split
        · exact .inr rfl
        · exact .inl rfl
      · rw [hplace, ← Descriptor.blankPortrait_of_forget hforget.symm]
        refine hw.self.trans ?_
        rw [Descriptor.blankPortrait, Option.isSome_map]
  · refine Keyed.Tabulates.put hp.types fun other => ?_
    rw [List.mem_append, List.mem_singleton, or_comm]
  · show ({ p.emitted with types := _ } : Emitted) = _
    rw [hp.others]

theorem enclosing_done (hordered : b.Ordered l.order) (horder : l.order = done ++ h :: rest)
    {d : Descriptor} (hd : b.find? h = some d)
    (houter : ∀ outer ∈ d.declaring, outer ≠ h ∧ outer ∈ l.order) :
    ∀ outer ∈ d.declaring, outer ∈ done := by
  intro outer hdeclaring
  obtain ⟨hne, hmem⟩ := houter outer hdeclaring
  rw [horder, List.mem_append, List.mem_cons] at hmem
  refine hmem.resolve_right fun hlater => ?_
  have hpair := hordered.hard
  rw [horder, List.pairwise_append, List.pairwise_cons] at hpair
  refine hpair.2.1.1 outer (hlater.resolve_left hne) ⟨hne, d, hd, ?_⟩
  simp [Descriptor.hardDependencies, show d.declaring = some outer from hdeclaring]

theorem wp_declareAll_begun (hordered : b.Ordered l.order)
    (good : G → ∀ h ∈ l.order, ∃ d, b.find? h = some d ∧ ∀ outer ∈ d.declaring, outer ≠ h
      ∧ outer ∈ l.order)
    (hp : Begun u b l [] p) :
    (forIn l.order PUnit.unit (fun h _ => do let _ ← declare h; pure (.yield PUnit.unit)) : Attempt
      Production PUnit).wp
      (fun _ => Begun u b l l.order) (fun _ => ¬ G) p := by
  refine wp_forIn l.order (fun done h rest horder mid hmid =>
    wp_declare_begun hordered.nodup horder (fun g => ?_) hmid) hp
  obtain ⟨d, hd, houter⟩ := good g h (by rw [horder]; simp)
  exact ⟨d, hd, enclosing_done hordered horder hd houter⟩

def blueprint (u : Universe) (l : Layout) (p : Production) : Blueprint where
  program := u
  batch := p.batch
  layout := l
  flags := fun h => (p.program.record (l.place h)).flags

theorem Begun.drawn (hnodup : l.order.Nodup) (hstart : l.start = u.types.size) (hp : Begun u b l l.order p) :
    Drawn (blueprint u l p) (blueprint u l p).blank (fun _ => none) [] p := by
  have hrecords : ∀ h ∈ l.order, (p.program.record (l.place h)).portrait
      = (blueprint u l p).blank h := by
    intro h hmem
    obtain ⟨d, flags, hd, -, hrecord⟩ := hp.records h hmem
    obtain ⟨d', hd', hforget⟩ := hp.remembers.find hd
    have hflags : (p.program.record (l.place h)).flags = flags := congrArg TypeRecord.flags hrecord
    rw [Blueprint.blank, Blueprint.descriptor_of_find hd',
      Descriptor.blankPortrait_of_forget hforget]
    show _ = d.blankPortrait l (p.program.record (l.place h)).flags
    rw [hflags, hrecord]
  have hslots : ∀ h slot, ((blueprint u l p).blank h).method? slot = none := by
    intro h slot
    cases slot <;> simp [TypeRecord.method?, Blueprint.blank, Descriptor.blankPortrait]
  refine ⟨⟨hstart, rfl, hp.old, fun h hmem => hp.place_lt (List.append_nil _).symm hmem, hrecords,
    fun _ _ => rfl, ?_, ?_⟩, ?_⟩
  · intro m hle
    rw [Option.bind_eq_none_iff]
    intro own hown
    by_cases hlt : m.owner.index < l.start + l.order.length
    · obtain ⟨h, hmem, hplace⟩ := Layout.exists_place hnodup hle hlt
      have hportrait := (p.program.record m.owner).method?_portrait m.slot
      rw [← hplace, hrecords h hmem, hplace, show (p.program.record m.owner).method? m.slot
        = some own from hown, hslots]
        at hportrait
      cases hportrait
    · rw [Universe.method?, Universe.record_of_le _ _ (by rw [hp.size]; exact Nat.not_lt.mp hlt)] at hown
      have hnone : Universe.noType.method? m.slot = none := by cases m.slot <;> rfl
      rw [hnone] at hown
      cases hown
  · rw [hp.attachments]
  · have hnone : ∀ {κ ν τ : Type} [DecidableEq κ] {owner : κ → TypeHandle} {place : κ →
      τ} {has : TypeRecord → τ → Prop}
        {image : κ → ν}, (∀ h x, ¬ has ((blueprint u l p).blank h) x) →
        Keyed.ListsMembers [] l.order owner place has (blueprint u l p).blank image :=
      fun hhas => Keyed.tabulates_nil fun key hkey => hhas _ _ hkey.2
    rw [hp.others]
    exact ⟨hp.types, hnone fun _ _ => Nat.not_lt_zero _, hnone fun h slot => by
      rw [hslots]; exact Bool.false_ne_true, hnone fun _ _ => Nat.not_lt_zero _,
      hnone fun _ _ => Nat.not_lt_zero _⟩

end Production

end TypeLoom
