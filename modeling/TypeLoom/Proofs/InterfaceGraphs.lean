import TypeLoom.Proofs.Completeness
import TypeLoom.Proofs.Generating
import TypeLoom.Proofs.Searches

/-!
# Interface graphs of generated types

The order of a batch puts bases and interfaces before what refers to them, so no type that comes out
of it reaches itself over others. It may list itself: a descriptor may be listed as an interface of
its own, and the order does not look at that. Where no descriptor does, every search for a base or
an interface ends.
-/

namespace TypeLoom

open Attempt

namespace Production

variable {u : Universe} {b : Batch} {objectType : TypeId} {P : Blueprint} {g : Generated}
  {p : Production}
  {h : TypeHandle} {d : Descriptor}

section Layers

variable {size : Nat} {place : TypeHandle → TypeId} {r₀ r : TypeId → TypeId →
  Prop} (hground : ∀ t, Grounded r₀ t)
  (hold : ∀ t x, t.index < size → r t x → r₀ t x ∧ x.index < size)
include hground hold

theorem grounded_old {t : TypeId} (ht : t.index < size) : Grounded r t := by
  induction hground t with
  | intro t _ ih =>
    refine Acc.intro t fun x hx => ?_
    obtain ⟨hx₀, hlt⟩ := hold t x ht hx
    exact ih x hx₀ hlt

/-- Paths from a type that came out end when each step leads to an old type or to one that came
out earlier. -/
theorem grounded_place
    (hplaced : ∀ h d x, b.find? h = some d → r (place h) x →
      x.index < size ∨ ∃ h' d', b.find? h' = some d' ∧ x = place h' ∧ x.index < (place h).index)
    (hd : b.find? h = some d) : Grounded r (place h) := by
  induction hn : (place h).index using Nat.strongRecOn generalizing h d with
  | ind n ih =>
    refine Acc.intro _ fun x hx => ?_
    rcases hplaced h d x hd hx with hlt | ⟨h', d', hd', rfl, hlt⟩
    · exact grounded_old hground hold hlt
    · exact ih _ (hn ▸ hlt) hd' rfl

end Layers

section Graph

variable (hb : b.Built u) (hfor : P.For u b.closeAll)
include hb hfor

theorem place_lt_place {x : TypeHandle} {e : Descriptor} (hd : b.find? h = some d)
    (he : b.find? x = some e) (hne : x ≠ h) (hdep : x ∈ d.hardDependencies) :
    (P.layout.place x).index < (P.layout.place h).index := by
  have hwf := hb.formed.wellFormed
  have hordered := Batch.order_ok (fun i d hd => (hwf.closeAll ⟨i⟩ d hd).handle) hfor.order
  have hmem := mem_of_find hwf hfor hd
  have hon := mem_of_find hwf hfor he
  have hclosed : b.closeAll.find? h = some d.close := by
    rw [Batch.find?_closeAll, hd, Option.map_some]
  rw [Layout.place_of_mem hmem, Layout.place_of_mem hon]
  exact Nat.add_lt_add_left (hordered.before hmem hon ⟨hne, d.close, hclosed, hdep⟩) _

variable (hp : Finished objectType P g p)
include hp

omit hb in
theorem record_old {t : TypeId} (ht : t.index < u.types.size) :
    p.program.record t = u.record t := by
  obtain ⟨B, -, hdrawn⟩ := hp.drawn
  rw [hdrawn.old t (hfor.start ▸ ht), hfor.program]

/-- What a type that came out lists: what came out of the listed descriptors, and the listed
types. -/
theorem lists_place_iff (hd : b.find? h = some d) {i : TypeId} :
    p.program.Lists (P.layout.place h) i ↔ (∃ x, .draft x ∈ d.interfaces ∧ P.layout.place x = i)
    ∨ .ofClass i ∈ d.interfaces := by
  have hshown : (p.program.record (P.layout.place h)).interfaces
    = (d.emittedInterfaces P.layout).toArray :=
    congrArg TypeRecord.interfaces (hp.shows hb.formed.wellFormed hfor hd)
  rw [Universe.Lists, hshown, List.mem_toArray, Descriptor.emittedInterfaces, List.mem_filterMap]
  constructor
  · rintro ⟨s, hs, hplaced⟩
    rw [Array.mem_toList_iff] at hs
    cases s with
    | draft x => exact .inl ⟨x, hs, Option.some.inj hplaced⟩
    | ofClass t =>
      obtain rfl := Option.some.inj hplaced
      exact .inr hs
    | _ => cases hplaced
  · rintro (⟨x, hx, rfl⟩ | hi)
    · exact ⟨.draft x, Array.mem_toList_iff.mpr hx, rfl⟩
    · exact ⟨.ofClass i, Array.mem_toList_iff.mpr hi, rfl⟩

/-- A listed type is an old one or came out earlier, unless the type lists itself. -/
theorem lists_place_cases (hd : b.find? h = some d) {i : TypeId}
    (hi : p.program.Lists (P.layout.place h) i) :
    i.index < u.types.size
      ∨ (∃ x e, b.find? x = some e ∧ i = P.layout.place x ∧ i.index < (P.layout.place h).index)
      ∨ i = P.layout.place h ∧ .draft h ∈ d.interfaces := by
  have hvetted := hb.vetted h d hd
  rcases (lists_place_iff hb hfor hp hd).mp hi with ⟨x, hx, rfl⟩ | hclass
  · obtain ⟨e, he, -⟩ := hvetted.interfaces _ hx
    by_cases hne : x = h
    · subst hne
      exact .inr (.inr ⟨rfl, hx⟩)
    · have hdep : x ∈ d.hardDependencies :=
        List.mem_append_right _ (List.mem_filterMap.mpr ⟨.draft x,
          Array.mem_toList_iff.mpr hx, rfl⟩)
      exact .inr (.inl ⟨x, e, he, rfl, place_lt_place hb hfor hd he hne hdep⟩)
  · exact .inl (hvetted.interfaces _ hclass).1

theorem hasBase_place_cases (hobject : objectType.index < u.types.size)
    (hd : b.find? h = some d) {base : TypeId} (hbase : p.program.HasBase (P.layout.place h) base) :
    base.index < u.types.size
      ∨ ∃ x e, b.find? x = some e ∧ base = P.layout.place x
      ∧ base.index < (P.layout.place h).index := by
  have hvetted := hb.vetted h d hd
  have hshown : (p.program.record (P.layout.place h)).base = d.emittedBase P.layout objectType :=
    congrArg TypeRecord.base (hp.shows hb.formed.wellFormed hfor hd)
  rw [Universe.HasBase, hshown, Descriptor.emittedBase] at hbase
  cases hdrafted : d.base with
  | none =>
    rw [hdrafted] at hbase
    dsimp only at hbase
    split at hbase
    · cases hbase
    · obtain rfl := Option.some.inj hbase
      exact .inl hobject
  | some s =>
    rw [hdrafted] at hbase
    have hsuits := hvetted.base s hdrafted
    cases s with
    | draft x =>
      obtain rfl := Option.some.inj hbase
      obtain ⟨e, he, -⟩ := hsuits
      have hne : x ≠ h := fun heq => Nat.lt_irrefl _ (heq ▸ hvetted.earlier x hdrafted)
      have hdep : x ∈ d.hardDependencies := by
        simp [Descriptor.hardDependencies, hdrafted, Signature.draft?]
      exact .inr ⟨x, e, he, rfl, place_lt_place hb hfor hd he hne hdep⟩
    | ofClass t =>
      obtain rfl := Option.some.inj hbase
      exact .inl hsuits.1
    | _ => cases hbase

theorem reaches_itself_iff (hwithin : u.RefersWithin) (hd : b.find? h = some d) :
    Relation.TransGen p.program.Lists (P.layout.place h)
    (P.layout.place h) ↔ .draft h ∈ d.interfaces := by
  have hstart : u.types.size ≤ (P.layout.place h).index := hfor.start ▸ P.layout.start_le_place h
  have hpath : ∀ x, Relation.TransGen p.program.Lists (P.layout.place h) x →
      x.index < u.types.size ∨ (∃ k e, b.find? k = some e ∧ x = P.layout.place k
        ∧ x.index < (P.layout.place h).index)
        ∨ x = P.layout.place h ∧ .draft h ∈ d.interfaces := by
    intro x hx
    induction hx with
    | single hone => exact lists_place_cases hb hfor hp hd hone
    | @tail mid x _ hlast ih =>
      rcases ih with hold | ⟨k, e, he, rfl, hlt⟩ | ⟨rfl, hself⟩
      · rw [Universe.Lists, record_old hfor hp hold] at hlast
        exact .inl (hwithin.interfaces mid x hlast)
      · rcases lists_place_cases hb hfor hp he hlast with hold | ⟨k', e', he', hplace,
          hless⟩ | ⟨hsame, -⟩
        · exact .inl hold
        · exact .inr (.inl ⟨k', e', he', hplace, Nat.lt_trans hless hlt⟩)
        · exact .inr (.inl ⟨k, e, he, hsame, hsame ▸ hlt⟩)
      · exact lists_place_cases hb hfor hp hd hlast
  constructor
  · intro hcycle
    rcases hpath _ hcycle with hold | ⟨_, _, _, _, hlt⟩ | ⟨-, hself⟩
    · omega
    · exact absurd hlt (Nat.lt_irrefl _)
    · exact hself
  · exact fun hself => .single ((lists_place_iff hb hfor hp hd).mpr (.inl ⟨h, hself, rfl⟩))

/-- When no descriptor lists itself, all searches from what came out end. -/
theorem traversable_place (hwithin : u.RefersWithin) (hlists : ∀ t, ¬ Relation.TransGen u.Lists t t)
    (hbases : ∀ t, ¬ Relation.TransGen u.HasBase t t) (hobject : objectType.index < u.types.size)
    (hnone : ∀ h d, b.find? h = some d → .draft h ∉ d.interfaces) (hd : b.find? h = some d) :
    p.program.Traversable (P.layout.place h) := by
  have hgroundLists : ∀ t, Grounded u.Lists t :=
    Grounded.of_acyclic (fun _ _ => Universe.lt_of_lists) hlists
  have hgroundHasBase : ∀ t, Grounded u.HasBase t :=
    Grounded.of_acyclic (fun _ _ => Universe.lt_of_hasBase) hbases
  have holdLists : ∀ t x : TypeId, t.index < u.types.size → p.program.Lists t x → u.Lists t x
      ∧ x.index < u.types.size := by
    intro t x ht hx
    rw [Universe.Lists, record_old hfor hp ht] at hx
    exact ⟨hx, hwithin.interfaces t x hx⟩
  have holdHasBase : ∀ t x : TypeId, t.index < u.types.size → p.program.HasBase t x →
      u.HasBase t x ∧ x.index < u.types.size := by
    intro t x ht hx
    rw [Universe.HasBase, record_old hfor hp ht] at hx
    exact ⟨hx, hwithin.bases t x hx⟩
  have hinterfaces : ∀ h d, b.find? h = some d → Grounded p.program.Lists (P.layout.place h) :=
      fun h d hd =>
        grounded_place hgroundLists holdLists (fun h d x hd hx =>
          (lists_place_cases hb hfor hp hd hx).imp_right (Or.resolve_right · fun hself =>
            hnone h d hd hself.2)) hd
  refine ⟨grounded_place hgroundHasBase holdHasBase (fun h d x hd =>
    hasBase_place_cases hb hfor hp hobject hd) hd, ?_⟩
  have hlevels : ∀ level, Relation.ReflTransGen p.program.HasBase (P.layout.place h) level →
      level.index < u.types.size ∨ ∃ x e, b.find? x = some e ∧ level = P.layout.place x := by
    intro level hpath
    induction hpath with
    | refl => exact .inr ⟨h, d, hd, rfl⟩
    | @tail mid level _ hlast ih =>
      rcases ih with hold | ⟨x, e, he, rfl⟩
      · exact .inl (holdHasBase mid level hold hlast).2
      · refine (hasBase_place_cases hb hfor hp hobject he hlast).imp_right fun hnew => ?_
        obtain ⟨k, e', he', hplace, -⟩ := hnew
        exact ⟨k, e', he', hplace⟩
  intro level hpath
  rcases hlevels level hpath with hold | ⟨x, e, he, rfl⟩
  · exact grounded_old hgroundLists holdLists hold
  · exact hinterfaces x e he

/-- Tests of a type whose descriptor lists itself do not end for what they do not meet. -/
theorem not_assigning_place (hd : b.find? h = some d) (hself : .draft h ∈ d.interfaces)
    {other : TypeId}
    (hother : (p.program.record (P.layout.place h)).token ≠ (p.program.record other).token)
    (hbases : ∀ x, Relation.TransGen p.program.HasBase (P.layout.place h) x →
      (p.program.record x).token ≠ (p.program.record other).token)
    (hmeets : ∀ x, p.program.Meets (P.layout.place h) x →
      (p.program.record x).token ≠ (p.program.record other).token) :
    ¬ ∃ answer, p.program.Assigning (P.layout.place h) other answer := by
  rw [Universe.exists_assigning_iff hother hbases hmeets]
  intro htraversable
  refine (htraversable.interfaces _ .refl).not_again (.single ?_)
  exact (lists_place_iff hb hfor hp hd).mpr (.inl ⟨h, hself, rfl⟩)

end Graph

/-- A type that is generated reaches itself over interfaces just when its descriptor lists
itself. When none does, and neither bases nor interfaces of the types that were there lead back
to them, every subtype test of a generated type has an answer, the one that is found with a
bound. -/
theorem generated_reaches_itself_iff {w : Workshop} {after : Production}
    (hb : b.Built w.space.program) (hwithin : w.space.program.RefersWithin)
    (hpresent : w.space.program.isPresent objectType)
    (hrun : (generate objectType).start { batch := b, workshop := w } = (.ok g, after)) :
    (∀ h d t, b.find? h = some d → (h, t) ∈ g.types →
      (Relation.TransGen after.program.Lists t t ↔ .draft h ∈ d.interfaces))
    ∧ ((∀ h d, b.find? h = some d → .draft h ∉ d.interfaces) →
      (∀ t, ¬ Relation.TransGen w.space.program.Lists t t) →
      (∀ t, ¬ Relation.TransGen w.space.program.HasBase t t) →
      ∀ h t, (h, t) ∈ g.types → ∀ other,
        after.program.Implementing (after.program.record other).token t
        (after.program.implements t other)
          ∧ after.program.Assigning t other (after.program.isAssignableTo t other)) := by
  have hwf := hb.formed.wellFormed
  have hfinished := wp_generate_finished (G := False) objectType hwf hb.formed.drafted.whole w nofun
  obtain ⟨P, hfor, hp⟩ := (wp_iff.mp hfinished).1 g after hrun
  have hplace : ∀ h t, (h, t) ∈ g.types → t = P.layout.place h ∧ (b.find? h).isSome := by
    intro h t hmem
    rw [hp.types] at hmem
    obtain ⟨x, hx, heq⟩ := List.mem_map.mp hmem
    cases heq
    exact ⟨rfl, (hfor.mem_order hwf).mp hx⟩
  refine ⟨fun h d t hd hmem => ?_, fun hnone hlists hbases h t hmem other => ?_⟩
  · obtain ⟨rfl, -⟩ := hplace h t hmem
    exact reaches_itself_iff hb hfor hp hwithin hd
  · obtain ⟨rfl, hsome⟩ := hplace h t hmem
    obtain ⟨d, hd⟩ := Option.isSome_iff_exists.mp hsome
    have htraversable := traversable_place hb hfor hp hwithin hlists hbases
      (w.space.program.lt_of_isPresent objectType hpresent) hnone hd
    exact ⟨htraversable.implementing other, htraversable.assigning other⟩

/-! ### Two batches -/

/-- The interface and the class that counts: the class does not lead back to itself, and its
tests have answers. -/
theorem generated_reaches_itself_counter :
    ∃ g after, (generate ⟨0⟩).start
        { batch := Edit.run freshWorkshop.space.program {} Batch.counterEdits,
          workshop := freshWorkshop } = (.ok g, after)
      ∧ g.types = [(⟨0⟩, ⟨3⟩), (⟨1⟩, ⟨4⟩)] ∧ ¬ Relation.TransGen after.program.Lists ⟨4⟩ ⟨4⟩
      ∧ ∀ other, after.program.Assigning ⟨4⟩ other (after.program.isAssignableTo ⟨4⟩ other) := by
  let b := Edit.run freshWorkshop.space.program {} Batch.counterEdits
  have hbuilt : b.Built freshWorkshop.space.program :=
    (Batch.Built.empty _).run (by simp [Batch.counterEdits, Edit.Held])
  have hnone : ∀ d ∈ b.types.toList, Signature.draft d.handle ∉ d.interfaces := by decide +kernel
  have hother : ∀ h d, b.find? h = some d → Signature.draft h ∉ d.interfaces := fun h d hd =>
    (hbuilt.formed.wellFormed h d hd).handle ▸ Batch.of_types hnone h d hd
  have hsome : (b.find? ⟨1⟩).isSome := by decide +kernel
  have htypes : ((generate ⟨0⟩).start { batch := b, workshop := freshWorkshop }).1.toOption.map
    (·.types)
      = some [(⟨0⟩, ⟨3⟩), (⟨1⟩, ⟨4⟩)] := by decide +kernel
  obtain ⟨d, hd⟩ := Option.isSome_iff_exists.mp hsome
  rcases hrun : (generate ⟨0⟩).start { batch := b, workshop := freshWorkshop } with ⟨f | g, after⟩
  · rw [hrun] at htypes
    cases htypes
  · rw [hrun] at htypes
    replace htypes : g.types = [(⟨0⟩, ⟨3⟩), (⟨1⟩, ⟨4⟩)] := Option.some.inj htypes
    have hmem : (⟨1⟩, ⟨4⟩) ∈ g.types := by rw [htypes]; decide
    obtain ⟨hself, hends⟩ := generated_reaches_itself_iff hbuilt refersWithin_fresh
      (by decide +kernel) hrun
    refine ⟨g, after, rfl, htypes, fun hcycle =>
      hother ⟨1⟩ d hd ((hself ⟨1⟩ d ⟨4⟩ hd hmem).mp hcycle), fun other => ?_⟩
    exact (hends hother not_lists_fresh not_hasBase_fresh ⟨1⟩ ⟨4⟩ hmem other).2

/-- What comes out of a batch over types whose bases and interfaces do not lead back to them does
not lead back to itself over interfaces, and every test whether it implements a type has an
answer. -/
def InterfacesEnd : Prop :=
  ∀ (objectType : TypeId) (edits : List Edit) (w : Workshop) (g : Generated) (after : Production),
    (∀ e ∈ edits, e.Held w.space.program) → w.space.program.RefersWithin →
    w.space.program.isPresent objectType →
    (∀ t, ¬ Relation.TransGen w.space.program.Lists t t) →
      (∀ t, ¬ Relation.TransGen w.space.program.HasBase t t) →
    (generate objectType).start { batch := Edit.run w.space.program {} edits, workshop := w }
      = (.ok g, after) →
    ∀ h t, (h, t) ∈ g.types → ¬ Relation.TransGen after.program.Lists t t
      ∧ ∀ other, ∃ answer, after.program.Implementing (after.program.record other).token t answer

def circularEdits : List Edit := [.createInterface "App" "I", .addBatchInterface ⟨0⟩ ⟨0⟩]

/-- The interface is generated, and lists itself. -/
theorem not_interfacesEnd : ¬ InterfacesEnd := by
  intro hends
  let b := Edit.run freshWorkshop.space.program {} circularEdits
  have htypes : ((generate ⟨0⟩).start { batch := b, workshop := freshWorkshop }).1.toOption.map
    (·.types)
      = some [(⟨0⟩, ⟨3⟩)] := by decide +kernel
  have hlists : ((generate ⟨0⟩).start { batch := b, workshop := freshWorkshop }).2.program.Lists ⟨3⟩
      ⟨3⟩ := by
    show _ ∈ _
    decide +kernel
  rcases hrun : (generate ⟨0⟩).start { batch := b, workshop := freshWorkshop } with ⟨f | g, after⟩
  · rw [hrun] at htypes
    cases htypes
  · rw [hrun] at htypes hlists
    have hmem : (⟨0⟩, ⟨3⟩) ∈ g.types := by rw [show g.types = _ from Option.some.inj htypes]; decide
    have hnever :=
      (hends ⟨0⟩ circularEdits freshWorkshop g after (by simp [circularEdits, Edit.Held])
      refersWithin_fresh
      (by decide +kernel) not_lists_fresh not_hasBase_fresh hrun ⟨0⟩ ⟨3⟩ hmem).1
    exact hnever (.single hlists)

end Production

end TypeLoom
