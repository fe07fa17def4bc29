import TypeLoom.Proofs.Image
import TypeLoom.Proofs.ProxyDrafts
import TypeLoom.Proofs.Sparing
import TypeLoom.Proofs.StampedFields

/-!
# Types that carry an identifier

A stamped descriptor becomes a type that derives from the requested type, has the mark and a field
of its own for the identifier, and whose initializer stores the identifier there. Nothing takes this
from a finished type.
-/

namespace TypeLoom

open Attempt

structure TypeRecord.Carries (mark : TypeId) (id : Identifier) (f : FieldId) (r : TypeRecord) :
    Prop where
  complete : r.complete = true
  base : r.base = some id.requested
  field : ∃ own, r.fields[f.index]? = some own ∧ own.name = identifierFieldName
    ∧ own.flags = identifierFieldFlags
  alone : ∀ (i : Nat) own, r.fields[i]? = some own → own.name = identifierFieldName → i = f.index
  mark : ∃ a ∈ r.attributes, a.constructor.owner = mark
  initializer : r.initializer = some ⟨f.owner, .typeInitializer⟩
  stores : ∃ own items, r.ownInitializer = some own ∧ own.body = some (.block items)
    ∧ .storeStatic (.member f) (.constant (.identifier id)) ∈ items

theorem Universe.Spares.carries {u u' : Universe} {mark : TypeId} {id : Identifier} {f : FieldId}
    (h : u.Spares u') (hf : (u.record f.owner).Carries mark id f) :
    (u'.record f.owner).Carries mark id f := by
  obtain ⟨nested, hrecord⟩ := h.record f.owner hf.complete
  rw [hrecord]
  exact { hf with }

namespace TypeRecord.Carries

variable {u u' : Universe} {mark : TypeId} {id : Identifier} {f : FieldId}

theorem field_eq (hf : (u.record f.owner).Carries mark id f) :
    (u.field f).name = identifierFieldName ∧ (u.field f).flags = identifierFieldFlags := by
  obtain ⟨own, hown, hname, hflags⟩ := hf.field
  have hfield : u.field f = own := by rw [Universe.field, Universe.field?, hown, Option.getD_some]
  rw [hfield]
  exact ⟨hname, hflags⟩

theorem cell_eq (hf : (u.record f.owner).Carries mark id f) (h : u.Spares u') :
    u'.cell f = u.cell f := by
  obtain ⟨nested, hrecord⟩ := h.record f.owner hf.complete
  rw [Universe.cell, Universe.field, Universe.field?, hrecord]
  rfl

theorem stamp (hf : (u.record f.owner).Carries mark id f) :
    ∃ m items, (u.record f.owner).initializer = some m ∧ (u.method m).body = some (.block items)
      ∧ .storeStatic (.member f) (.constant (.identifier id)) ∈ items := by
  obtain ⟨own, items, hown, hbody, hstore⟩ := hf.stores
  refine ⟨⟨f.owner, .typeInitializer⟩, items, hf.initializer, ?_, hstore⟩
  rw [Universe.method, Universe.method?, TypeRecord.method?, hown, Option.getD_some, hbody]

end TypeRecord.Carries

/-! ### Generation -/

theorem Lower.exists_mem_of_block {e : Emitted} {items : List Expr} {lowered : Expr}
    (h : expr e (.block items) = .ok lowered) :
    ∃ made, lowered = .block made ∧ ∀ item ∈ items, ∃ v ∈ made, expr e item = .ok v := by
  rw [expr] at h
  obtain ⟨made, hmade, hend⟩ := bind_eq_ok.mp h
  rw [exprAll_eq_mapM] at hmade
  exact ⟨made, (Except.ok.inj hend).symm, fun item hitem => exists_mem_of_mapM hmade hitem⟩

theorem Lower.expr_storeStatic {e : Emitted} {f : FieldHandle} {placed : FieldId}
    (hf : e.field f = .ok placed) (v : Value) :
    expr e (.storeStatic (.draft f) (.constant v))
    = .ok (.storeStatic (.member placed) (.constant v)) := by
  simp only [Expr.storeStatic, expr, exprOpt, fieldTarget, hf]
  rfl

namespace Production

variable {u : Universe} {b : Batch} {objectType mark : TypeId} {P : Blueprint} {g : Generated}
  {p : Production}
  {h : TypeHandle} {d : Descriptor} {id : Identifier} {f : FieldHandle}

theorem Finished.queued_body (hwf : b.WellFormed) (hfor : P.For u b.closeAll)
    (hp : Finished objectType P g p) (hd : b.find? h = some d) {slot : Slot} {body : Expr}
    (hqueued : .body (P.layout.place h) ⟨P.layout.place h, slot⟩ body ∈ d.queued P.layout) :
    ∃ own lowered, (p.program.record (P.layout.place h)).method? slot = some own
      ∧ own.body = some lowered
      ∧ Lower.expr g.emitted body = .ok lowered := by
  obtain ⟨B, hlowered, hdrawn⟩ := hp.drawn
  have hall : .body (P.layout.place h) ⟨P.layout.place h, slot⟩ body ∈
      P.layout.order.flatMap P.queued := by
    refine List.mem_flatMap.mpr ⟨h, mem_of_find hwf hfor hd, ?_⟩
    rw [hfor.queued hd]
    exact hqueued
  obtain ⟨lowered, hB, hlower⟩ := hlowered.target ⟨P.layout.place h, slot⟩ _ hall
  have hbody := hdrawn.bodies ⟨P.layout.place h, slot⟩ (P.layout.start_le_place h)
  rw [hB] at hbody
  obtain ⟨own, hown, hlast⟩ := Option.bind_eq_some_iff.mp hbody
  exact ⟨own, lowered, hown, hlast, hp.emitted ▸ hlower⟩

theorem Finished.initializer_body (hwf : b.WellFormed) (hfor : P.For u b.closeAll)
    (hp : Finished objectType P g p) (hd : b.find? h = some d) (hi : d.Initializes) :
    ∃ own lowered, (p.program.record (P.layout.place h)).ownInitializer = some own
      ∧ own.body = some lowered
      ∧ Lower.expr g.emitted d.initializerBody = .ok lowered := by
  have hhandle : d.handle = h := (hwf h d hd).handle
  have hqueued : .body (P.layout.place h) ⟨P.layout.place h, .typeInitializer⟩ d.initializerBody ∈
      d.queued P.layout := by
    rw [Descriptor.mem_queued, hhandle]
    exact .inr (.inl ⟨hi, rfl⟩)
  exact hp.queued_body hwf hfor hd hqueued

theorem Finished.carries (hwf : b.WellFormed) (hfor : P.For u b.closeAll)
    (hp : Finished objectType P g p) (hd : b.find? f.owner = some d)
    (hstamped : d.Stamped mark id f) :
    (p.program.record (P.layout.place f.owner)).Carries mark id (P.layout.placeField f) := by
  have hshows := hp.shows hwf hfor hd
  have hinitializes : d.Initializes := .inr (by
    rw [Array.isEmpty_eq_false_iff]
    exact Array.ne_empty_of_mem hstamped.initialization)
  refine ⟨congrArg TypeRecord.complete hshows, ?_, ?_, fun i own hown hname => ?_, ?_, ?_, ?_⟩
  · refine (congrArg TypeRecord.base hshows).trans ?_
    show d.emittedBase P.layout objectType = _
    rw [Descriptor.emittedBase, hstamped.base]
    rfl
  · obtain ⟨own, hown, hportrait⟩ := TypeRecord.exists_of_map_eq hshows.fields hstamped.field
    exact ⟨own, hown, congrArg FieldRecord.name hportrait, congrArg FieldRecord.flags hportrait⟩
  · obtain ⟨draft, hdraft, hportrait⟩ := TypeRecord.exists_of_map_eq hshows.fields.symm hown
    have hdrafted : draft.name = identifierFieldName :=
      (congrArg FieldRecord.name hportrait).trans hname
    have hnames := (hwf f.owner d hd).fieldNames
    have hlt : i < (d.fields.toList.map (·.name)).length := by
      rw [List.length_map, Array.length_toList]
      exact (Array.getElem?_eq_some_iff.mp hdraft).1
    refine (List.getElem?_inj (j := f.index) hlt hnames).mp ?_
    simp only [List.getElem?_map, Array.getElem?_toList, hdraft, hstamped.field,
      Option.map_some, hdrafted]
  · obtain ⟨a, ha, hmark⟩ := hstamped.mark
    have hsame : (p.program.record (P.layout.place f.owner)).attributes = d.attributes :=
      congrArg TypeRecord.attributes hshows
    rw [hsame]
    exact ⟨a, ha, hmark⟩
  · refine (congrArg TypeRecord.initializer hshows).trans ?_
    show (if d.Initializes then some (⟨P.layout.place d.handle, .typeInitializer⟩ : MethodId)
      else none) = _
    rw [if_pos hinitializes, (hwf f.owner d hd).handle]
    rfl
  · obtain ⟨own, lowered, hown, hbody, hlower⟩ := hp.initializer_body hwf hfor hd hinitializes
    obtain ⟨made, rfl, hmade⟩ := Lower.exists_mem_of_block hlower
    obtain ⟨v, hv, hstore⟩ :=
      hmade _ (List.mem_append_left _ (Array.mem_toList_iff.mpr hstamped.initialization))
    have hfield : g.emitted.field f = .ok (P.layout.placeField f) :=
      Emitted.require_eq_ok.mpr (hp.shown_field hwf hfor hd hstamped.field).1
    rw [Lower.expr_storeStatic hfield] at hstore
    cases hstore
    exact ⟨own, made, hown, hbody, hv⟩

/-- When a batch with a stamped descriptor is generated, a new type comes out of it that carries
the identifier. -/
theorem wp_generate_carries (objectType : TypeId) (w : Workshop)
    (hb : b.Holds f.owner (Descriptor.Stamped mark id f)) :
    (generate objectType).wp
      (fun g after => ∃ placed : FieldId, g.emitted.type f.owner = .ok placed.owner
        ∧ (f.owner, placed.owner) ∈ g.types
        ∧ w.space.program.types.size ≤ placed.owner.index
        ∧ (after.program.record placed.owner).Carries mark id placed)
      (fun _ => True) { batch := b, workshop := w } := by
  obtain ⟨d, hd, hstamped⟩ := hb.proxy
  refine wp_mono (wp_generate_finished (G := False) objectType hb.wellFormed hb.whole w False.elim)
    ?_ fun _ _ => trivial
  rintro g after ⟨P, hfor, hfinished⟩
  have hmem := mem_of_find hb.wellFormed hfor hd
  refine ⟨P.layout.placeField f, ?_, ?_, ?_, hfinished.carries hb.wellFormed hfor hd hstamped⟩
  · exact (Emitted.type_eq_ok hfinished.lists.types).mpr ⟨hmem, rfl⟩
  · rw [hfinished.types]
    exact List.mem_map.mpr ⟨f.owner, hmem, rfl⟩
  · rw [← hfor.start]
    exact P.layout.start_le_place f.owner

end Production

end TypeLoom
