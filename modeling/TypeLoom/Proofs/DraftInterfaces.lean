import Mathlib.Algebra.BigOperators.Intervals
import Mathlib.Algebra.Order.BigOperators.Group.List
import Mathlib.Logic.Relation
import TypeLoom.Draft.Batch

/-!
# Interfaces within a batch

The check of a descriptor walks over the interfaces of its batch with a list of what is still to be
visited. Its bound is more than the walk takes, so that it comes to all interfaces that are reached.
-/

namespace TypeLoom.Batch

open Relation

variable {b : Batch} {h i start : TypeHandle} {d : Descriptor}
  {todo seen : List TypeHandle} {fuel : Nat}

def ListsDraft (b : Batch) (h i : TypeHandle) : Prop :=
  ∃ d, b.find? h = some d ∧ i ∈ d.interfaceDrafts

/-! ### What is come to is reached -/

theorem reached_of_mem (h' : h ∈ b.reachInterfaces fuel todo seen) :
    h ∈ seen ∨ (b.find? h).isSome ∧ ∃ start ∈ todo, ReflTransGen b.ListsDraft start h := by
  induction fuel generalizing todo seen with
  | zero => exact .inl h'
  | succ fuel ih =>
    cases todo with
    | nil => exact .inl h'
    | cons next rest =>
      have hskip : (h ∈ seen ∨ (b.find? h).isSome ∧ ∃ start ∈ rest,
        ReflTransGen b.ListsDraft start h) →
          h ∈ seen ∨ (b.find? h).isSome ∧ ∃ start ∈ next :: rest,
          ReflTransGen b.ListsDraft start h := by
        rintro (hseen | ⟨hknown, start, hstart, hpath⟩)
        · exact .inl hseen
        · exact .inr ⟨hknown, start, List.mem_cons_of_mem _ hstart, hpath⟩
      rw [reachInterfaces] at h'
      split at h'
      · exact hskip (ih h')
      · cases hd : b.find? next with
        | none =>
          rw [hd] at h'
          exact hskip (ih h')
        | some d =>
          rw [hd] at h'
          rcases ih h' with hseen | ⟨hknown, start, hstart, hpath⟩
          · rcases List.mem_append.mp hseen with hold | hnew
            · exact .inl hold
            · obtain rfl := List.mem_singleton.mp hnew
              exact .inr ⟨by rw [hd]; rfl, h, List.mem_cons_self, .refl⟩
          · rcases List.mem_append.mp hstart with hlisted | hrest
            · exact .inr ⟨hknown, next, List.mem_cons_self, .head ⟨d, hd, hlisted⟩ hpath⟩
            · exact .inr ⟨hknown, start, List.mem_cons_of_mem _ hrest, hpath⟩

/-! ### What is reached is come to -/

/-- How many interfaces of the batch are listed at a place. -/
def listedAt (b : Batch) (index : Nat) : Nat :=
  (b.types[index]?.map fun d => d.interfaceDrafts.length).getD 0

/-- What the walk may still visit: what is to be visited, and all that unseen descriptors list. -/
def ahead (b : Batch) (todo seen : List TypeHandle) : Nat :=
  todo.length + ∑ index ∈ (Finset.range b.types.size).filter (fun index => ⟨index⟩ ∉ seen),
    b.listedAt index

theorem ahead_visit (hd : b.find? h = some d) (hnew : h ∉ seen) (rest : List TypeHandle) :
    b.ahead (d.interfaceDrafts ++ rest) (seen ++ [h]) + 1 = b.ahead (h :: rest) seen := by
  have hlisted : b.listedAt h.index = d.interfaceDrafts.length := by
    have hplace : b.types[h.index]? = some d := hd
    rw [listedAt, hplace, Option.map_some, Option.getD_some]
  have hmem : h.index ∈ (Finset.range b.types.size).filter (fun index => ⟨index⟩ ∉ seen) :=
    Finset.mem_filter.mpr ⟨Finset.mem_range.mpr (Array.getElem?_eq_some_iff.mp hd).1, hnew⟩
  have herase : (Finset.range b.types.size).filter (fun index => ⟨index⟩ ∉ seen ++ [h])
      = ((Finset.range b.types.size).filter fun index => ⟨index⟩ ∉ seen).erase h.index := by
    ext index
    have hsame : (⟨index⟩ : TypeHandle) = h ↔ index = h.index :=
      ⟨fun heq => heq ▸ rfl, fun heq => by cases h; cases heq; rfl⟩
    simp only [Finset.mem_filter, Finset.mem_erase, List.mem_append, List.mem_singleton, hsame]
    tauto
  have hsum := Finset.add_sum_erase _ b.listedAt hmem
  rw [ahead, ahead, herase, List.length_append, List.length_cons, ← hsum, hlisted]
  omega

/-- With enough fuel nothing is left out: what is seen and what is to be visited is come to, and
so is all that is listed on the way. -/
theorem mem_reachInterfaces (hfuel : b.ahead todo seen < fuel) :
    (∀ h ∈ seen, h ∈ b.reachInterfaces fuel todo seen)
      ∧ (∀ h ∈ todo, (b.find? h).isSome → h ∈ b.reachInterfaces fuel todo seen)
      ∧ ∀ h ∈ b.reachInterfaces fuel todo seen, h ∉ seen → ∀ i, b.ListsDraft h i →
        (b.find? i).isSome →
        i ∈ b.reachInterfaces fuel todo seen := by
  induction fuel generalizing todo seen with
  | zero => omega
  | succ fuel ih =>
    cases todo with
    | nil =>
      exact ⟨fun _ h => h, fun _ h => absurd h List.not_mem_nil, fun h hmem hnew =>
        absurd hmem hnew⟩
    | cons next rest =>
      have hrest : b.ahead rest seen < fuel := by
        rw [ahead, List.length_cons] at hfuel
        rw [ahead]
        omega
      rw [reachInterfaces]
      split
      · rename_i hseen
        obtain ⟨hkept, hcome, hclosed⟩ := ih hrest
        refine ⟨hkept, fun h hmem hknown => ?_, hclosed⟩
        rcases List.mem_cons.mp hmem with rfl | hmem
        · exact hkept h (List.contains_iff_mem.mp hseen)
        · exact hcome h hmem hknown
      · rename_i hnew
        have hnew' : next ∉ seen := fun hmem => hnew (List.contains_iff_mem.mpr hmem)
        cases hd : b.find? next with
        | none =>
          obtain ⟨hkept, hcome, hclosed⟩ := ih hrest
          refine ⟨hkept, fun h hmem hknown => ?_, hclosed⟩
          rcases List.mem_cons.mp hmem with rfl | hmem
          · rw [hd] at hknown
            cases hknown
          · exact hcome h hmem hknown
        | some d =>
          have hvisit := ahead_visit hd hnew' rest
          have hleft : b.ahead (d.interfaceDrafts ++ rest) (seen ++ [next]) < fuel := by omega
          obtain ⟨hkept, hcome, hclosed⟩ := ih hleft
          refine ⟨fun h hmem => hkept h (List.mem_append_left _ hmem), fun h hmem hknown => ?_,
            fun h hmem hfresh i hlists hknown => ?_⟩
          · rcases List.mem_cons.mp hmem with rfl | hmem
            · exact hkept h (List.mem_append_right _ (List.mem_singleton_self h))
            · exact hcome h (List.mem_append_right _ hmem) hknown
          · by_cases hsame : h = next
            · subst hsame
              obtain ⟨d', hd', hlisted⟩ := hlists
              obtain rfl := Option.some.inj (hd.symm.trans hd')
              exact hcome i (List.mem_append_left _ hlisted) hknown
            · refine hclosed h hmem (fun hmem' => ?_) i hlists hknown
              rcases List.mem_append.mp hmem' with hold | hlast
              · exact hfresh hold
              · exact hsame (List.mem_singleton.mp hlast)

/-! ### The bound -/

theorem sum_range_listed (items : List Descriptor) (f : Descriptor → Nat) :
    ∑ index ∈ Finset.range items.length, (items[index]?.map f).getD 0 = (items.map f).sum := by
  induction items with
  | nil => rfl
  | cons item items ih =>
    rw [List.length_cons, Finset.sum_range_succ', List.map_cons, List.sum_cons, ← ih, Nat.add_comm]
    rfl

theorem foldl_bound (items : List Descriptor) (total : Nat) :
    items.foldl (fun total d => total + 2 * d.interfaces.size + 1) total
      = total + 2 * (items.map fun d => d.interfaces.size).sum + items.length := by
  induction items generalizing total with
  | nil => rfl
  | cons item items ih =>
    rw [List.foldl_cons, ih, List.map_cons, List.sum_cons, List.length_cons]
    omega

/-- A walk from the interfaces of a descriptor of the batch ends within its bound. -/
theorem ahead_lt_walkBound (hd : b.find? h = some d) :
    b.ahead d.interfaceDrafts [] < b.walkBound := by
  have hcount : ∀ d : Descriptor, d.interfaceDrafts.length ≤ d.interfaces.size := fun d => by
    rw [Descriptor.interfaceDrafts, ← Array.length_toList]
    exact List.length_filterMap_le _ _
  have hown : d.interfaces.size ≤ (b.types.toList.map fun d => d.interfaces.size).sum :=
    List.single_le_sum (fun _ _ => Nat.zero_le _) _
      (List.mem_map.mpr ⟨d, Array.mem_toList_iff.mpr (Array.mem_of_getElem? hd), rfl⟩)
  have hsum : ∑ index ∈ Finset.range b.types.size, b.listedAt index = (b.types.toList.map fun d =>
      d.interfaceDrafts.length).sum := by
    rw [← sum_range_listed, Array.length_toList]
    exact Finset.sum_congr rfl fun index _ => by rw [listedAt, Array.getElem?_toList]
  have hall : (b.types.toList.map fun d => d.interfaceDrafts.length).sum
    ≤ (b.types.toList.map fun d => d.interfaces.size).sum :=
    List.sum_le_sum fun d _ => hcount d
  have hbound : b.walkBound = 1 + 2 * (b.types.toList.map fun d => d.interfaces.size).sum
      + b.types.toList.length := by
    rw [walkBound, ← Array.foldl_toList, foldl_bound]
  have hnone : (Finset.range b.types.size).filter (fun index => (⟨index⟩ : TypeHandle) ∉ [])
      = Finset.range b.types.size := by
    simp
  have := hcount d
  rw [ahead, hnone, hsum, hbound]
  omega

theorem mem_reachInterfaces_iff (hd : b.find? h = some d) :
    i ∈ b.reachInterfaces b.walkBound d.interfaceDrafts []
      ↔ (b.find? i).isSome ∧ ∃ start ∈ d.interfaceDrafts, ReflTransGen b.ListsDraft start i := by
  constructor
  · intro hmem
    exact (reached_of_mem hmem).resolve_left List.not_mem_nil
  · rintro ⟨hknown, start, hstart, hpath⟩
    obtain ⟨-, hcome, hclosed⟩ := mem_reachInterfaces (ahead_lt_walkBound hd)
    induction hpath with
    | refl => exact hcome start hstart hknown
    | @tail mid i _ hlists ih =>
      obtain ⟨d', hd', -⟩ := id hlists
      exact hclosed mid (ih (by rw [hd']; rfl)) List.not_mem_nil i hlists hknown

end TypeLoom.Batch
