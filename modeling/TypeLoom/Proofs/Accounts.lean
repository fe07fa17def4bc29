import TypeLoom.Proofs.Commands
import TypeLoom.Proofs.Leasing
import TypeLoom.Proofs.Numerals
import TypeLoom.Proofs.Output

/-!
# Where generated types go

A generated type that is finished is in a module under construction or in a module that was written,
and in no other place. This holds at every moment of what a pipeline does: requests, nested
requests, failures, flushes and loads. Each module has a name of its own: it shows the counter
between two pieces of the pattern.
-/

namespace TypeLoom

open Attempt

/-! ### Texts between pieces -/

section Pieces

variable {α : Type} {a b : List α}

theorem length_intercalate_cons (a first : List α) (rest : List (List α)) :
    (a.intercalate (first :: rest)).length = first.length + rest.length * a.length
    + rest.flatten.length := by
  induction rest generalizing first with
  | nil => simp
  | cons second rest ih =>
    rw [List.intercalate_cons_cons, List.length_append, List.length_append, ih, List.flatten_cons,
      List.length_append,
      List.length_cons, Nat.succ_mul]
    omega

theorem intercalate_injective {first second : List α} {rest : List (List α)}
    (h : a.intercalate (first :: second :: rest) = b.intercalate (first :: second :: rest)) :
    a = b := by
  have hlength := congrArg List.length h
  rw [length_intercalate_cons, length_intercalate_cons] at hlength
  have hsame : a.length = b.length := by
    have hproduct : (second :: rest).length * a.length = (second :: rest).length * b.length := by
      omega
    exact Nat.eq_of_mul_eq_mul_left (by simp) hproduct
  rw [List.intercalate_cons_cons, List.intercalate_cons_cons, List.append_assoc,
    List.append_assoc] at h
  exact (List.append_inj (List.append_cancel_left h) hsame).1

end Pieces

/-! ### Names of modules -/

theorem piecesAfter_ne_nil (mark : List Char) (skip : Nat) (chars : List Char) :
    piecesAfter mark skip chars ≠ [] := by
  induction chars generalizing skip with
  | nil => simp [piecesAfter]
  | cons c rest ih =>
    cases skip with
    | succ skip => exact ih skip
    | zero =>
      unfold piecesAfter
      split
      · exact List.cons_ne_nil _ _
      · split <;> exact List.cons_ne_nil _ _

def Naming.Counts (n : Naming) : Prop := (patternPieces n.pattern).length ≠ 1

theorem Settings.counts_of_validate {settings : Settings} {directory : DirectoryId}
    (h : settings.validate = .ok ()) :
    Naming.Counts { directory, pattern := settings.pattern } := by
  unfold validate at h
  split at h
  · cases h
  · split at h
    · cases h
    · rename_i hplaceholder
      simpa [hasPlaceholder, Naming.Counts] using hplaceholder

theorem toString_injective {k m : Nat} (h : (toString k).toList = (toString m).toList) : k = m := by
  refine Decimal.toDigits_injective ?_
  simpa only [Nat.toString_eq_repr, Nat.toList_repr] using h

theorem Naming.nameAt_injective {n : Naming} (hn : n.Counts) {k m : Nat}
    (h : n.nameAt k = n.nameAt m) : k = m := by
  have hchars := congrArg String.toList h
  simp only [nameAt, String.toList_ofList] at hchars
  unfold Counts at hn
  cases hpieces : patternPieces n.pattern with
  | nil => exact absurd hpieces (piecesAfter_ne_nil _ _ _)
  | cons first rest =>
    cases rest with
    | nil =>
      rw [hpieces] at hn
      exact absurd rfl hn
    | cons second rest =>
      rw [hpieces] at hchars
      exact toString_injective (intercalate_injective hchars)

/-! ### Accounts -/

/-- A module that was written, with the types in it. -/
structure Volume where
  module : Session.WrittenModule
  types : List TypeId

def Naming.fileAt (n : Naming) (k : Nat) : String := n.nameAt k ++ ".xml"

theorem Naming.fileAt_injective {n : Naming} (hn : n.Counts) {k m : Nat}
    (h : n.fileAt k = n.fileAt m) : k = m := by
  have hchars := congrArg String.toList h
  simp only [fileAt, String.toList_append] at hchars
  exact nameAt_injective hn (String.toList_inj.mp (List.append_cancel_right hchars))

/-- Of the types from a number on, the finished ones that were generated are among those that
were declared for the modules under construction or among those on the shelf, where each has one
place. Each number has named one module at most. -/
structure Balanced (start : Nat) (shelf : List Volume) (u : Universe) (files : Keyed String String)
    (naming : Naming) (names : List String) (declared : List TypeId) : Prop where
  counts : naming.Counts
  numbered : ∀ v ∈ shelf, ∃ k < naming.counter, v.module.file = naming.fileAt k
  distinct : (shelf.map (·.module.file)).Nodup
  current : ∀ name ∈ names, ∃ k < naming.counter, name = naming.nameAt k ∧ ∀ v ∈ shelf,
    v.module.file ≠ naming.fileAt k
  stored : ∀ v ∈ shelf, files.find? v.module.file = some v.module.text
  nodup : (declared ++ shelf.flatMap (·.types)).Nodup
  range : ∀ t ∈ declared ++ shelf.flatMap (·.types), start ≤ t.index ∧ t.index < u.types.size
  finished : ∀ t ∈ shelf.flatMap (·.types), (u.record t).complete = true
  covered : ∀ t : TypeId, start ≤ t.index → (u.record t).origin = .generated →
    (u.record t).complete = true →
    t ∈ declared ++ shelf.flatMap (·.types)

namespace Balanced

variable {start : Nat} {shelf : List Volume} {u u' : Universe} {files : Keyed String String}
  {naming : Naming}
  {names : List String} {name text : String} {declared more : List TypeId}

theorem produces {space space' : TypeSpace}
    (h : Balanced start shelf space.program files naming names declared)
    (hspace : space.Finishes more space') (hmore : more.Nodup)
    (hstart : start ≤ space.program.types.size) (hrange : ∀ t ∈ more, space.program.types.size
      ≤ t.index ∧ t.index < space'.program.types.size) :
    Balanced start shelf space'.program files naming names (declared ++ more) := by
  have hold : ∀ t, t ∈ declared ++ shelf.flatMap (·.types) →
      t ∈ (declared ++ more) ++ shelf.flatMap (·.types) := by
    intro t ht
    rcases List.mem_append.mp ht with ht | ht
    · exact List.mem_append_left _ (List.mem_append_left _ ht)
    · exact List.mem_append_right _ ht
  have hsplit : ∀ t, t ∈ (declared ++ more) ++ shelf.flatMap (·.types) →
      t ∈ declared ++ shelf.flatMap (·.types) ∨ t ∈ more := by
    intro t ht
    simp only [List.mem_append] at ht ⊢
    tauto
  refine ⟨h.counts, h.numbered, h.distinct, h.current, h.stored, ?_, fun t ht => ?_,
    fun t ht => hspace.complete t (h.finished t ht), fun t hle horigin hdone => ?_⟩
  · have hperm : ((declared ++ more) ++ shelf.flatMap (·.types)).Perm
        ((declared ++ shelf.flatMap (·.types)) ++ more) := by
      rw [List.append_assoc, List.append_assoc]
      exact List.Perm.append_left _ List.perm_append_comm
    rw [hperm.nodup_iff]
    refine List.nodup_append.mpr ⟨h.nodup, hmore, fun t ht t' ht' => ?_⟩
    rintro rfl
    exact absurd (h.range t ht).2 (Nat.not_lt.mpr (hrange t ht').1)
  · rcases hsplit t ht with ht | ht
    · exact ⟨(h.range t ht).1, Nat.lt_of_lt_of_le (h.range t ht).2 hspace.size⟩
    · exact ⟨Nat.le_trans hstart (hrange t ht).1, (hrange t ht).2⟩
  · rcases hspace.made t horigin hdone with hbefore | hmem
    · rw [hspace.origin t (Universe.lt_of_complete hbefore)] at horigin
      exact hold t (h.covered t hle horigin hbefore)
    · exact List.mem_append_left _ (List.mem_append_right _ hmem)

theorem next (h : Balanced start shelf u files naming names declared) :
    ∀ v ∈ shelf, v.module.file ≠ naming.fileAt naming.counter := by
  intro v hv heq
  obtain ⟨k, hk, hfile⟩ := h.numbered v hv
  have hsame := naming.fileAt_injective h.counts (hfile.symm.trans heq)
  exact Nat.lt_irrefl _ (hsame ▸ hk)

/-- The first context begins its first module. -/
theorem opens (h : Balanced start shelf u files naming [] []) :
    Balanced start shelf u files { naming with counter := naming.counter + 1 }
    [naming.name] [] where
  counts := h.counts
  numbered := fun v hv => by
    obtain ⟨k, hk, hfile⟩ := h.numbered v hv
    exact ⟨k, Nat.lt_succ_of_lt hk, hfile⟩
  distinct := h.distinct
  current := fun name hname => by
    obtain rfl := List.mem_singleton.mp hname
    exact ⟨naming.counter, Nat.lt_succ_self _, rfl, h.next⟩
  stored := h.stored
  nodup := h.nodup
  range := h.range
  finished := h.finished
  covered := h.covered

/-- The finished types go to the shelf, in a file of their own, and the next module begins. -/
theorem flushes (h : Balanced start shelf u files naming [name] declared)
    (hu : u.Prepares u') {v : Volume} (hfile : v.module.file = name ++ ".xml")
    (htypes : v.types = declared.filter fun t => (u.record t).complete) :
    Balanced start (shelf ++ [v]) u' (files.put v.module.file v.module.text)
      { naming with counter := naming.counter + 1 } [naming.name] [] := by
  obtain ⟨k, hk, rfl, hother⟩ := h.current name (List.mem_singleton_self _)
  have hnew : ∀ w ∈ shelf, w.module.file ≠ v.module.file := fun w hw => hfile ▸ hother w hw
  have hflat : (shelf ++ [v]).flatMap (·.types) = shelf.flatMap (·.types) ++ v.types := by simp
  have hsub : v.types.Sublist declared := htypes ▸ List.filter_sublist
  have hplaces : ∀ t, t ∈ [] ++ (shelf ++ [v]).flatMap (·.types) →
      t ∈ declared ++ shelf.flatMap (·.types) := by
    intro t ht
    rw [hflat, List.nil_append] at ht
    rcases List.mem_append.mp ht with ht | ht
    · exact List.mem_append_right _ ht
    · exact List.mem_append_left _ (hsub.subset ht)
  refine ⟨h.counts, fun w hw => ?_, ?_, fun next hnext => ?_, fun w hw => ?_, ?_, fun t ht => ?_,
    fun t ht => ?_, fun t hle horigin hdone => ?_⟩
  · rcases List.mem_append.mp hw with hw | hw
    · obtain ⟨m, hm, hwfile⟩ := h.numbered w hw
      exact ⟨m, Nat.lt_succ_of_lt hm, hwfile⟩
    · obtain rfl := List.mem_singleton.mp hw
      exact ⟨k, Nat.lt_succ_of_lt hk, hfile⟩
  · rw [List.map_append, List.nodup_append]
    refine ⟨h.distinct, List.nodup_singleton _, fun file hmem file' hmem' => ?_⟩
    obtain ⟨w, hw, rfl⟩ := List.mem_map.mp hmem
    rw [List.mem_singleton.mp hmem']
    exact hnew w hw
  · obtain rfl := List.mem_singleton.mp hnext
    refine ⟨naming.counter, Nat.lt_succ_self _, rfl, fun w hw => ?_⟩
    rcases List.mem_append.mp hw with hw | hw
    · exact h.next w hw
    · obtain rfl := List.mem_singleton.mp hw
      intro heq
      have hsame := naming.fileAt_injective h.counts (hfile.symm.trans heq)
      exact Nat.lt_irrefl _ (hsame ▸ hk)
  · rcases List.mem_append.mp hw with hw | hw
    · rw [Keyed.find?_put_of_ne _ _ _ _ (Ne.symm (hnew w hw))]
      exact h.stored w hw
    · obtain rfl := List.mem_singleton.mp hw
      exact Keyed.find?_put_self _ _ _
  · have hperm : (shelf.flatMap (·.types) ++ v.types).Perm (v.types ++ shelf.flatMap (·.types)) :=
      List.perm_append_comm
    rw [List.nil_append, hflat, hperm.nodup_iff]
    exact h.nodup.sublist (hsub.append_right _)
  · obtain ⟨hle, hlt⟩ := h.range t (hplaces t ht)
    exact ⟨hle, Nat.lt_of_lt_of_le hlt hu.size⟩
  · rw [hu.complete]
    rw [hflat] at ht
    rcases List.mem_append.mp ht with ht | ht
    · exact h.finished t ht
    · rw [htypes] at ht
      simpa using (List.mem_filter.mp ht).2
  · rw [hu.complete] at hdone
    rw [hu.origin t (Universe.lt_of_complete hdone)] at horigin
    rw [List.nil_append, hflat]
    rcases List.mem_append.mp (h.covered t hle horigin hdone) with hmem | hmem
    · refine List.mem_append_right _ ?_
      rw [htypes]
      exact List.mem_filter.mpr ⟨hmem, hdone⟩
    · exact List.mem_append_left _ hmem

end Balanced

end TypeLoom
