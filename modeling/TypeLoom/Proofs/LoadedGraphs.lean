import TypeLoom.Proofs.DispatchSearches
import TypeLoom.Proofs.InterfaceGraphs
import TypeLoom.Proofs.Listing
import TypeLoom.Proofs.SpelledModules

/-!
# Graphs of loaded types

Reading a module checks nothing of what its types say of each other. The graph of types is sound
afterwards just when the document spells a sound one, and then all searches that start from a loaded
type end.
-/

namespace TypeLoom

open Relation (TransGen)

/-! ### Old and new types -/

section Layers

variable {size : Nat} {r r₀ r₁ : TypeId → TypeId → Prop}
  (hold : ∀ t x, t.index < size → r t x → r₀ t x ∧ x.index < size)

include hold

theorem path_of_old {t x : TypeId} (ht : t.index < size) (hpath : TransGen r t x) :
    TransGen r₀ t x ∧ x.index < size := by
  induction hpath with
  | single hone =>
    obtain ⟨hone, hlt⟩ := hold t _ ht hone
    exact ⟨.single hone, hlt⟩
  | tail _ hlast ih =>
    obtain ⟨hlast, hlt⟩ := hold _ _ ih.2 hlast
    exact ⟨.tail ih.1 hlast, hlt⟩

/-- When nothing leads from old types to new ones, a way back is among the old types or among the
new ones. -/
theorem not_transGen_of_layers (hnew : ∀ t x, size ≤ t.index → r t x → r₁ t x)
    (h₀ : ∀ t, ¬ TransGen r₀ t t) (h₁ : ∀ t, ¬ TransGen r₁ t t) (t : TypeId) :
    ¬ TransGen r t t := by
  intro hcycle
  by_cases ht : t.index < size
  · exact h₀ t (path_of_old hold ht hcycle).1
  have hpath : ∀ x, TransGen r t x → x.index < size ∨ TransGen r₁ t x := by
    intro x hx
    induction hx with
    | single hone => exact .inr (.single (hnew t _ (Nat.not_lt.mp ht) hone))
    | @tail mid x _ hlast ih =>
      by_cases hmid : mid.index < size
      · exact .inl (hold mid x hmid hlast).2
      · exact (ih.resolve_left hmid).tail (hnew mid x (Nat.not_lt.mp hmid) hlast) |> .inr
  exact (hpath t hcycle).elim ht (h₁ t)

end Layers

namespace TypeSpace

/-- What types refer to, and what is listed, are types of the universe. -/
structure Linked (s : TypeSpace) : Prop where
  refers : s.program.RefersWithin
  listed : ∀ l ∈ s.registry.listings, l.type.index < s.program.types.size

end TypeSpace

namespace Artifact

open Markup Attempt

/-! ### Documents -/

/-- The elements of a document with the types that were read from them, and where names are
looked up. -/
structure Document where
  scope : Scope
  items : List (Node × TypeId)

namespace Document

variable (d : Document)

/-- The element of the first type names the second one as its base. -/
def HasBase (t b : TypeId) : Prop := ∃ n text, (n, t) ∈ d.items ∧ n.get? "base" = some text
    ∧ d.scope.Means text b

/-- The element of the first type names the second one as an interface. -/
def Lists (t i : TypeId) : Prop := ∃ n e, (n, t) ∈ d.items ∧ e ∈ n.childrenNamed "interface"
    ∧ d.scope.Lists e i

/-- What the elements say makes a sound graph: no base is sealed or an interface, all interfaces
are interfaces, overrides of class methods name virtual methods of proper bases, and neither
bases nor interfaces lead back. -/
structure Consistent : Prop where
  base : ∀ t b, d.HasBase t b → (d.scope.program.record b).isSealed = false
    ∧ (d.scope.program.record b).isInterface = false
  interfaces : ∀ t i, d.Lists t i → (d.scope.program.record i).isInterface = true
  overrides : ∀ n t e v, (n, t) ∈ d.items → e ∈ n.childrenNamed "override" →
    d.scope.Overrides t e v →
    (d.scope.program.record v.declaration.owner).isInterface = false →
      (d.scope.program.method v.declaration).isVirtual = true
      ∧ TransGen d.scope.program.HasBase t v.declaration.owner
  bases_end : ∀ t, ¬ TransGen d.HasBase t t
  interfaces_end : ∀ t, ¬ TransGen d.Lists t t

/-- The document is what the text was read as: elements with the types that came of them, whose
names stand for these types before they stand for listed ones. -/
structure IsReadFrom (text : String) (space : TypeSpace) (program : Universe)
    (types : List TypeId) : Prop where
  elements : ∃ root, Node.parse text = .ok root ∧ (root.childrenNamed "type").length = types.length
    ∧ d.items = (root.childrenNamed "type").zip types
  program : d.scope.program = program
  registry : d.scope.registry = space.registry
  names : ∀ name t, d.scope.here.find? name = some t → t ∈ types

end Document

/-! ### What an element says -/

theorem mem_iff_of_forall₂ {α β : Type} {R : α → β → Prop} {as : List α} {bs : List β}
    (h : List.Forall₂ R as bs) (hunique : ∀ a b b', R a b → R a b' → b = b') (b : β) :
    b ∈ bs ↔ ∃ a ∈ as, R a b := by
  induction h with
  | nil => simp
  | @cons a b' as bs hab _ ih =>
    rw [List.mem_cons, ih]
    constructor
    · rintro (rfl | ⟨c, hc, hcb⟩)
      · exact ⟨a, List.mem_cons_self, hab⟩
      · exact ⟨c, List.mem_cons_of_mem a hc, hcb⟩
    · rintro ⟨c, hc, hcb⟩
      rcases List.mem_cons.mp hc with rfl | hc
      · exact .inl (hunique c b b' hcb hab)
      · exact .inr ⟨c, hc, hcb⟩

namespace Scope

variable {s : Scope} {n : Node} {t b : TypeId} {w : Wiring} {text : String}

theorem Means.unique {b' : TypeId} (h : s.Means text b) (h' : s.Means text b') : b = b' := by
  rw [Means, h] at h'
  cases h'
  rfl

theorem Lists.unique {b' : TypeId} (h : s.Lists n b) (h' : s.Lists n b') : b = b' := by
  obtain ⟨text, htext, hmeans⟩ := h
  obtain ⟨text', htext', hmeans'⟩ := h'
  rw [htext] at htext'
  cases htext'
  exact hmeans.unique hmeans'

theorem Overrides.unique {v v' : Override} (h : s.Overrides t n v) (h' : s.Overrides t n v') :
    v = v' := by
  obtain ⟨declaration, body⟩ := v
  obtain ⟨declaration', body'⟩ := v'
  obtain ⟨⟨d, hd, hdeclaration⟩, ⟨i, hi, hbody⟩⟩ := h
  obtain ⟨⟨d', hd', hdeclaration'⟩, ⟨i', hi', hbody'⟩⟩ := h'
  cases hd.symm.trans hd'
  cases hi.symm.trans hi'
  cases hdeclaration.symm.trans hdeclaration'
  cases hbody.symm.trans hbody'
  rfl

theorem Spells.base_iff (h : s.Spells n t w) : w.base = some b ↔ ∃ text, n.get? "base" = some text
    ∧ s.Means text b := by
  have hrel := h.base
  cases htext : n.get? "base" with
  | none =>
    rw [htext] at hrel
    cases hbase : w.base with
    | none => simp
    | some b' => rw [hbase] at hrel; cases hrel
  | some text =>
    rw [htext] at hrel
    cases hbase : w.base with
    | none => rw [hbase] at hrel; cases hrel
    | some b' =>
      rw [hbase] at hrel
      cases hrel with
      | some hmeans =>
        simp only [Option.some.injEq]
        exact ⟨fun heq => ⟨text, rfl, heq ▸ hmeans⟩, fun ⟨_, rfl, hmeans'⟩ => hmeans.unique hmeans'⟩

theorem Spells.interface_iff (h : s.Spells n t w) :
    b ∈ w.interfaces ↔ ∃ e ∈ n.childrenNamed "interface", s.Lists e b :=
  mem_iff_of_forall₂ h.interfaces (fun _ _ _ => Lists.unique) b

theorem Spells.override_iff (h : s.Spells n t w) {v : Override} :
    v ∈ w.overrides ↔ ∃ e ∈ n.childrenNamed "override", s.Overrides t e v :=
  mem_iff_of_forall₂ h.overrides (fun _ _ _ => Overrides.unique) v

end Scope

namespace Loading.Spelled

variable {space : TypeSpace} {items : List (Node × TypeId)} {here : Keyed String TypeId}
  {program : Universe}
  (h : Spelled space items here program) {t b i : TypeId} {v : Override}
include h

def document (_h : Spelled space items here program) : Document :=
  ⟨⟨program, space.registry, here⟩, items⟩

theorem mem_of_le (ht : space.program.types.size ≤ t.index) (hlt : t.index < program.types.size) :
    ∃ n, (n, t) ∈ items := by
  obtain ⟨⟨n, t⟩, hn, rfl⟩ := List.mem_map.mp ((h.types t).mpr ⟨ht, hlt⟩)
  exact ⟨n, hn⟩

theorem hasBase_of_document (hbase : h.document.HasBase t b) : program.HasBase t b := by
  obtain ⟨n, text, hn, htext, hmeans⟩ := hbase
  exact (h.spells (n, t) hn).base_iff.mpr ⟨text, htext, hmeans⟩

theorem document_hasBase (ht : space.program.types.size ≤ t.index) (hbase : program.HasBase t b) :
    h.document.HasBase t b := by
  obtain ⟨n, hn⟩ := h.mem_of_le ht (Universe.lt_of_hasBase hbase)
  obtain ⟨text, htext, hmeans⟩ := (h.spells (n, t) hn).base_iff.mp hbase
  exact ⟨n, text, hn, htext, hmeans⟩

theorem lists_of_document (hlists : h.document.Lists t i) : program.Lists t i := by
  obtain ⟨n, e, hn, he, hlists⟩ := hlists
  exact Array.mem_toList_iff.mp ((h.spells (n, t) hn).interface_iff.mpr ⟨e, he, hlists⟩)

theorem document_lists (ht : space.program.types.size ≤ t.index) (hlists : program.Lists t i) :
    h.document.Lists t i := by
  obtain ⟨n, hn⟩ := h.mem_of_le ht (Universe.lt_of_lists hlists)
  obtain ⟨e, he, hnamed⟩ := (h.spells (n, t) hn).interface_iff.mp (Array.mem_toList_iff.mpr hlists)
  exact ⟨n, e, hn, he, hnamed⟩

/-! ### The graph -/

theorem old_hasBase (hwithin : space.program.RefersWithin) (ht : t.index < space.program.types.size)
    (hbase : program.HasBase t b) :
    space.program.HasBase t b ∧ b.index < space.program.types.size := by
  rw [Universe.HasBase, h.old.base ht] at hbase
  exact ⟨hbase, hwithin.bases t b hbase⟩

theorem old_lists (hwithin : space.program.RefersWithin) (ht : t.index < space.program.types.size)
    (hlists : program.Lists t i) :
    space.program.Lists t i ∧ i.index < space.program.types.size := by
  have hinterfaces := congrArg TypeOutline.interfaces (h.old t ht)
  have hlists' : space.program.Lists t i := by
    have hlisted : i ∈ (program.outline t).interfaces := Array.mem_toList_iff.mpr hlists
    rw [hinterfaces] at hlisted
    exact Array.mem_toList_iff.mp hlisted
  exact ⟨hlists', hwithin.interfaces t i hlists'⟩

theorem old_isSealed (ht : t.index < space.program.types.size) :
    (program.record t).isSealed = (space.program.record t).isSealed :=
  congrArg (fun o : TypeOutline => hasBits o.flags TypeFlags.isSealed) (h.old t ht)

theorem regular_old (hwithin : space.program.RefersWithin) (hsound : space.program.SoundGraph)
    (ht : t.index < space.program.types.size) : program.Regular t := by
  have hregular := hsound.regular t
  refine ⟨fun b hb => ?_, fun i hi => ?_, fun v hv hclass => ?_⟩
  · obtain ⟨hbase, hlt⟩ := h.old_hasBase hwithin ht hb
    rw [h.old_isSealed hlt, h.old.isInterface hlt]
    exact hregular.base b hbase
  · obtain ⟨hlists, hlt⟩ := h.old_lists hwithin ht hi
    rw [h.old.isInterface hlt]
    exact hregular.interfaces i hlists
  · rw [h.old.overrides ht] at hv
    have hclass' : (space.program.record v.declaration.owner).isInterface = false := by
      by_cases hlt : v.declaration.owner.index < space.program.types.size
      · rwa [h.old.isInterface hlt] at hclass
      · rw [space.program.record_of_le _ (Nat.not_lt.mp hlt)]
        rfl
    obtain ⟨hvirtual, hpath⟩ := hregular.overrides v hv hclass'
    obtain ⟨-, hlt⟩ := path_of_old (fun t b _ hb => ⟨hb, hwithin.bases t b hb⟩) ht hpath
    exact ⟨(h.old.isVirtual hlt).trans hvirtual,
      TransGen.mono (fun t b hb => (h.old.base (Universe.lt_of_hasBase hb)).trans hb) _ _ hpath⟩

theorem regular_new (hd : h.document.Consistent) (ht : space.program.types.size ≤ t.index) :
    program.Regular t := by
  refine ⟨fun b hb => hd.base t b (h.document_hasBase ht hb), fun i hi =>
    hd.interfaces t i (h.document_lists ht hi), fun v hv => ?_⟩
  have hlt : t.index < program.types.size := by
    by_contra hge
    rw [program.record_of_le t (Nat.not_lt.mp hge)] at hv
    exact absurd hv (Array.not_mem_empty _)
  obtain ⟨n, hn⟩ := h.mem_of_le ht hlt
  obtain ⟨e, he, hoverrides⟩ := (h.spells (n, t) hn).override_iff.mp (Array.mem_toList_iff.mpr hv)
  exact hd.overrides n t e v hn he hoverrides

theorem soundGraph_of_consistent (hwithin : space.program.RefersWithin)
    (hsound : space.program.SoundGraph) (hd : h.document.Consistent) : program.SoundGraph where
  regular := fun t => by
    by_cases ht : t.index < space.program.types.size
    · exact h.regular_old hwithin hsound ht
    · exact h.regular_new hd (Nat.not_lt.mp ht)
  bases := not_transGen_of_layers (fun _ _ => h.old_hasBase hwithin) (fun _ _ => h.document_hasBase)
    hsound.bases hd.bases_end
  interfaces := not_transGen_of_layers (fun _ _ => h.old_lists hwithin) (fun _ _ =>
    h.document_lists) hsound.interfaces
    hd.interfaces_end

theorem consistent_of_soundGraph (hsound : program.SoundGraph) : h.document.Consistent where
  base := fun t b hb => (hsound.regular t).base b (h.hasBase_of_document hb)
  interfaces := fun t i hi => (hsound.regular t).interfaces i (h.lists_of_document hi)
  overrides := fun n t e v hn he hv => (hsound.regular t).overrides v
    (Array.mem_toList_iff.mp ((h.spells (n, t) hn).override_iff.mpr ⟨e, he, hv⟩))
  bases_end := fun t hcycle =>
    hsound.bases t (TransGen.mono (fun _ _ => h.hasBase_of_document) _ _ hcycle)
  interfaces_end := fun t hcycle =>
    hsound.interfaces t (TransGen.mono (fun _ _ => h.lists_of_document) _ _ hcycle)

theorem lt_of_means (hlisted : ∀ l ∈ space.registry.listings,
      l.type.index < space.program.types.size) {text : String}
    (hmeans : h.document.scope.Means text b) : b.index < program.types.size := by
  have htype : ∀ name, h.document.scope.type name = .ok b → b.index < program.types.size := by
    intro name hname
    unfold Scope.type at hname
    split at hname
    · rename_i found hfound
      cases hname
      exact ((h.types b).mp (h.names name b hfound)).2
    · split at hname
      · rename_i found hfound
        cases hname
        have hmem := List.mem_of_head? hfound
        obtain ⟨l, hl, rfl⟩ := List.mem_map.mp hmem
        exact Nat.lt_of_lt_of_le (hlisted l (Array.mem_toList_iff.mp (List.mem_of_mem_filter hl)))
          h.size
      · cases hname
  unfold Scope.Means Scope.signature at hmeans
  split at hmeans
  · rename_i plain hplain
    cases hmeans
    exact absurd (List.mem_of_find?_eq_some hplain) (by simp)
  · split at hmeans
    · cases hfound : h.document.scope.type (String.ofList (text.toList.drop 6)) with
      | error fault =>
        rw [hfound] at hmeans
        cases hmeans
      | ok found =>
        rw [hfound] at hmeans
        cases hmeans
        exact htype _ hfound
    · cases hmeans

theorem refersWithin (hlinked : space.Linked) : program.RefersWithin where
  bases := fun t b hb => by
    by_cases ht : t.index < space.program.types.size
    · exact Nat.lt_of_lt_of_le (h.old_hasBase hlinked.refers ht hb).2 h.size
    · obtain ⟨_, _, -, -, hmeans⟩ := h.document_hasBase (Nat.not_lt.mp ht) hb
      exact h.lt_of_means hlinked.listed hmeans
  interfaces := fun t i hi => by
    by_cases ht : t.index < space.program.types.size
    · exact Nat.lt_of_lt_of_le (h.old_lists hlinked.refers ht hi).2 h.size
    · obtain ⟨_, _, -, -, _, -, hmeans⟩ := h.document_lists (Nat.not_lt.mp ht) hi
      exact h.lt_of_means hlinked.listed hmeans

end Loading.Spelled

/-! ### Reading -/

theorem mem_listings_insertAll {r : Registry} {u : Universe} {types : List TypeId} {l : Listing}
    (h : l ∈ (r.insertAll u types).listings) : l ∈ r.listings ∨ l.type ∈ types := by
  induction types generalizing r with
  | nil => exact .inl h
  | cons t types ih =>
    rcases ih (r := r.insert u t) h with hinsert | hrest
    · unfold Registry.insert at hinsert
      split at hinsert
      · exact .inl hinsert
      · rcases Array.mem_push.mp hinsert with hold | rfl
        · exact .inl hold
        · exact .inr List.mem_cons_self
    · exact .inr (List.mem_cons_of_mem t hrest)

variable {text : String} {space after : TypeSpace} {header : Header} {types : List TypeId}

theorem spelled_of_decode (h : (decode text).start space = (.ok (header, types), after)) :
    ∃ root here, Node.parse text = .ok root ∧ (root.childrenNamed "type").length = types.length
      ∧ Loading.Spelled space ((root.childrenNamed "type").zip types) here after.program := by
  unfold decode at h
  obtain ⟨root, _, hroot, h⟩ := start_bind_ok.mp h
  rw [start_lift] at hroot
  obtain ⟨hroot, rfl⟩ := Prod.ext_iff.mp hroot
  obtain ⟨header, _, hheader, h⟩ := start_bind_ok.mp h
  rw [start_lift] at hheader
  obtain ⟨-, rfl⟩ := Prod.ext_iff.mp hheader
  obtain ⟨_, _, hget, h⟩ := start_bind_ok.mp h
  cases hget
  have hload : (Loading.load (root.childrenNamed "type")).wp
      (fun types l => (root.childrenNamed "type").length = types.length
        ∧ ∃ here, Loading.Spelled space ((root.childrenNamed "type").zip types) here
        l.space.program)
      (fun _ => True) { space } := by
    rw [Loading.load, wp_onFault]
    exact Loading.wp_passes _
  rcases hrun : (Loading.load (root.childrenNamed "type")).start { space } with ⟨fault | loaded, l⟩
  · rw [hrun] at h
    cases h
  · rw [hrun] at h
    cases h
    obtain ⟨hlength, here, hspelled⟩ := wp_ok hload hrun
    exact ⟨root, here, hroot, hlength, hspelled⟩

/-- Every type that was read is what its element spells. The graph of all types is sound just
when the document is consistent, and then all searches that start from a type that was read end,
with the answers that are found within the bounds. -/
theorem decode_soundGraph_iff (hlinked : space.Linked) (hsound : space.program.SoundGraph)
    (h : (decode text).start space = (.ok (header, types), after)) :
    ∃ d : Document, d.IsReadFrom text space after.program types
      ∧ (∀ p ∈ d.items, d.scope.Spells p.1 p.2 (after.program.outline p.2).wiring)
      ∧ after.Linked
      ∧ (after.program.SoundGraph ↔ d.Consistent)
      ∧ (d.Consistent → ∀ t ∈ types, after.program.Settles t) := by
  obtain ⟨root, here, hroot, hlength, hspelled⟩ := spelled_of_decode h
  have hlistings := ((wp_iff.mp (wp_decode text space)).1 _ _ h).1
  have hitems : ((root.childrenNamed "type").zip types).map (·.2) = types :=
    List.map_snd_zip (Nat.le_of_eq hlength.symm)
  have htypes := hspelled.types
  have hnames := hspelled.names
  rw [hitems] at htypes hnames
  have hafter : after.Linked := by
    refine ⟨hspelled.refersWithin hlinked, fun l hl => ?_⟩
    rw [hlistings] at hl
    rcases mem_listings_insertAll hl with hold | hnew
    · exact Nat.lt_of_lt_of_le (hlinked.listed l hold) hspelled.size
    · exact ((htypes l.type).mp hnew).2
  have hconsistent := hspelled.soundGraph_of_consistent hlinked.refers hsound
  exact ⟨hspelled.document, ⟨⟨root, hroot, hlength, rfl⟩, rfl, rfl, hnames⟩,
    hspelled.spells, hafter,
    ⟨hspelled.consistent_of_soundGraph, hconsistent⟩, fun hd t _ => (hconsistent hd).settles t⟩

/-! ### Two modules -/

/-- Bases and interfaces come first, and nothing is overridden. -/
def Layered (u : Universe) : Prop :=
  ∀ index < u.types.size, (u.record ⟨index⟩).overrides = #[]
    ∧ (∀ b ∈ (u.record ⟨index⟩).base, b.index < index ∧ (u.record b).isSealed = false
      ∧ (u.record b).isInterface = false)
    ∧ ∀ i ∈ (u.record ⟨index⟩).interfaces.toList, i.index < index ∧ (u.record i).isInterface = true

instance (u : Universe) : Decidable (Layered u) :=
  inferInstanceAs (Decidable (∀ index < u.types.size, _))

theorem Layered.soundGraph {u : Universe} (h : Layered u) : u.SoundGraph where
  regular := fun t => by
    refine ⟨fun b hb => ((h t.index (Universe.lt_of_hasBase hb)).2.1 b hb).2, fun i hi => ?_,
      fun v hv _ => ?_⟩
    · exact ((h t.index (Universe.lt_of_lists hi)).2.2 i (Array.mem_toList_iff.mpr hi)).2
    · by_cases ht : t.index < u.types.size
      · rw [(h t.index ht).1] at hv
        exact absurd hv (Array.not_mem_empty _)
      · rw [u.record_of_le t (Nat.not_lt.mp ht)] at hv
        exact absurd hv (Array.not_mem_empty _)
  bases := not_transGen_of_lt fun t b hb => ((h t.index (Universe.lt_of_hasBase hb)).2.1 b hb).1
  interfaces := not_transGen_of_lt fun t i hi =>
    ((h t.index (Universe.lt_of_lists hi)).2.2 i (Array.mem_toList_iff.mpr hi)).1

/-- The core types. -/
def coreSpace : TypeSpace := TypeSpace.fresh {}

theorem linked_coreSpace : coreSpace.Linked :=
  ⟨Universe.refersWithin_of_types (by decide +kernel), by decide +kernel⟩

theorem soundGraph_coreSpace : coreSpace.program.SoundGraph :=
  Layered.soundGraph (by decide +kernel)

def moduleText (types : String) : String :=
  "<module id='00000000-0000-4000-8000-000000000000' name='M' configuration='c'>"
    ++ types ++ "</module>"

/-- An interface, and a class that derives from the root type and lists it. -/
def counterModule : String :=
  moduleText "<type namespace='' name='I' flags='33'/><type namespace='' name='A' flags='1' base='class:System.Object'><interface type='class:I'/></type>"

/-- Over the core types the text is read as these types, and the universe then passes the check. -/
def readsAs (text : String) (types : List TypeId) (check : Universe → Bool) : Bool :=
  match (decode text).start coreSpace with
  | (.ok (_, read), after) => read == types && check after.program
  | (.error _, _) => false

theorem ends_of_readsAs {check : Universe → Bool} (h : readsAs text types check = true) :
    ∃ header after, (decode text).start coreSpace = (.ok (header, types), after)
    ∧ check after.program = true := by
  unfold readsAs at h
  split at h
  · rename_i header read after hrun
    obtain ⟨htypes, hcheck⟩ := Bool.and_eq_true_iff.mp h
    exact ⟨header, after, beq_iff_eq.mp htypes ▸ hrun, hcheck⟩
  · cases h

/-- The interface and the class are read, and all searches that start from the class end. -/
theorem decode_soundGraph_counter :
    ∃ header after, (decode counterModule).start coreSpace = (.ok (header, [⟨3⟩, ⟨4⟩]), after)
      ∧ after.Linked ∧ after.program.Settles ⟨4⟩ := by
  have hreads : readsAs counterModule [⟨3⟩, ⟨4⟩] (fun u => decide (Layered u)) = true := by
    decide +kernel
  obtain ⟨header, after, hrun, hlayered⟩ := ends_of_readsAs hreads
  obtain ⟨d, -, -, hlinked, hsound, hsettles⟩ :=
    decode_soundGraph_iff linked_coreSpace soundGraph_coreSpace hrun
  have hgraph : after.program.SoundGraph := (of_decide_eq_true hlayered).soundGraph
  exact ⟨header, after, hrun, hlinked, hsettles (hsound.mp hgraph) ⟨4⟩ (by decide)⟩

/-- Whatever text is read over a sound graph, no type that was read leads back to itself, its
base can be derived from, what it lists are interfaces, and its explicit overrides of class
methods name virtual methods of proper bases. -/
def LoadedGraphsSound : Prop :=
  ∀ (text : String) (space : TypeSpace) (header : Header) (types : List TypeId) (after : TypeSpace),
    space.Linked →
    space.program.SoundGraph → (decode text).start space = (.ok (header, types), after) →
    ∀ t ∈ types, ¬ TransGen after.program.HasBase t t ∧ ¬ TransGen after.program.Lists t t
      ∧ after.program.Regular t

def circularModule : String :=
  moduleText "<type namespace='App' name='A' flags='1' base='class:App.A'/>"

/-- The class is read, and is its own base. -/
theorem not_loadedGraphsSound : ¬ LoadedGraphsSound := by
  intro hsound
  have hreads : readsAs circularModule [⟨3⟩] (fun u => (u.record ⟨3⟩).base == some ⟨3⟩) = true := by
    decide +kernel
  obtain ⟨header, after, hrun, hself⟩ := ends_of_readsAs hreads
  exact (hsound _ _ _ _ _ linked_coreSpace soundGraph_coreSpace hrun ⟨3⟩ (by decide)).1
    (.single (beq_iff_eq.mp hself))

end Artifact

end TypeLoom
