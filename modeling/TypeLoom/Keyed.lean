/-!
# Keyed rows

A table of keys and values in the order in which the keys first came.
-/

namespace TypeLoom

abbrev Keyed (κ ν : Type) := List (κ × ν)

namespace Keyed

variable {κ ν : Type} [DecidableEq κ]

def find? (rows : Keyed κ ν) (key : κ) : Option ν :=
  (List.find? (fun row => row.1 == key) rows).map (·.2)

def hasKey (rows : Keyed κ ν) (key : κ) : Bool := (rows.find? key).isSome

def put : Keyed κ ν → κ → ν → Keyed κ ν
  | [], key, value => [(key, value)]
  | row :: rows, key, value =>
    if row.1 = key then (key, value) :: rows else row :: put rows key value

def erase (rows : Keyed κ ν) (key : κ) : Keyed κ ν := rows.filter fun row => row.1 != key

theorem find?_put_self (rows : Keyed κ ν) (key : κ) (value : ν) :
    (rows.put key value).find? key = some value := by
  induction rows with
  | nil => simp [put, find?]
  | cons row rows ih =>
    unfold put
    split
    · simp [find?]
    · rename_i h
      simpa [find?, h] using ih

theorem find?_put_of_ne (rows : Keyed κ ν) (key other : κ) (value : ν) (h : key ≠ other) :
    (rows.put key value).find? other = rows.find? other := by
  induction rows with
  | nil => simp [put, find?, h]
  | cons row rows ih =>
    unfold put
    split
    · rename_i hk
      simp [find?, h, hk]
    · simp only [find?, List.find?_cons] at ih ⊢
      split
      · rfl
      · exact ih

/-! ### Keys -/

theorem hasKey_iff {rows : Keyed κ ν} {key : κ} :
    rows.hasKey key = true ↔ key ∈ rows.map (·.1) := by
  rw [hasKey, find?, Option.isSome_map, List.find?_isSome, List.mem_map]
  exact exists_congr fun row => and_congr_right fun _ => beq_iff_eq

/-- A key with a value keeps its place, a new one comes last. -/
theorem keys_put (rows : Keyed κ ν) (key : κ) (value : ν) :
    (rows.put key value).map (·.1) = if key ∈ rows.map (·.1) then rows.map (·.1)
    else rows.map (·.1) ++ [key] := by
  induction rows with
  | nil => rfl
  | cons row rows ih =>
    rw [put]
    by_cases hrow : row.1 = key
    · simp [hrow]
    · have hother : key ∈ row.1 :: rows.map (·.1) ↔ key ∈ rows.map (·.1) := by
        rw [List.mem_cons, or_iff_right (Ne.symm hrow)]
      rw [if_neg hrow, List.map_cons, ih, List.map_cons]
      by_cases hkey : key ∈ rows.map (·.1)
      · rw [if_pos hkey, if_pos (hother.mpr hkey)]
      · rw [if_neg hkey, if_neg fun h => hkey (hother.mp h)]
        rfl

theorem nodup_put {rows : Keyed κ ν} (h : (rows.map (·.1)).Nodup) (key : κ) (value : ν) :
    ((rows.put key value).map (·.1)).Nodup := by
  rw [keys_put]
  split
  · exact h
  · rename_i hnew
    exact List.nodup_append.mpr ⟨h, List.pairwise_singleton _ key, fun a ha b hb => by
      rintro rfl
      exact hnew (List.mem_singleton.mp hb ▸ ha)⟩

theorem mem_keys_put {rows : Keyed κ ν} {key other : κ} {value : ν} :
    other ∈ (rows.put key value).map (·.1) ↔ other = key ∨ other ∈ rows.map (·.1) := by
  rw [keys_put]
  split
  · rename_i hold
    exact ⟨.inr, fun h => h.elim (fun heq => heq ▸ hold) id⟩
  · rw [List.mem_append, List.mem_singleton, or_comm]

theorem mem_put {rows : Keyed κ ν} {key : κ} {value : ν} {row : κ × ν}
    (h : row ∈ rows.put key value) :
    row = (key, value) ∨ row ∈ rows := by
  induction rows with
  | nil => exact .inl (List.mem_singleton.mp h)
  | cons first rows ih =>
    rw [put] at h
    split at h
    · rcases List.mem_cons.mp h with rfl | hrest
      · exact .inl rfl
      · exact .inr (List.mem_cons_of_mem _ hrest)
    · rcases List.mem_cons.mp h with rfl | hrest
      · exact .inr List.mem_cons_self
      · exact (ih hrest).imp id (List.mem_cons_of_mem _)

theorem put_of_not_mem {rows : Keyed κ ν} {key : κ} (value : ν) (h : key ∉ rows.map (·.1)) :
    rows.put key value = rows ++ [(key, value)] := by
  induction rows with
  | nil => rfl
  | cons row rows ih =>
    rw [List.map_cons, List.mem_cons, not_or] at h
    rw [put, if_neg (Ne.symm h.1), ih h.2, List.cons_append]

theorem find?_eq_none_iff {rows : Keyed κ ν} {key : κ} :
    rows.find? key = none ↔ key ∉ rows.map (·.1) := by
  rw [← hasKey_iff, hasKey, Bool.not_eq_true, Option.isSome_eq_false_iff, Option.isNone_iff_eq_none]

/-- The value of a key, if the key has one row only, is that of any row with the key. -/
theorem find?_eq_some_iff {rows : Keyed κ ν} (h : (rows.map (·.1)).Nodup) {key : κ} {value : ν} :
    rows.find? key = some value ↔ (key, value) ∈ rows := by
  induction rows with
  | nil => simp [find?]
  | cons row rows ih =>
    rw [List.map_cons, List.nodup_cons] at h
    simp only [find?, List.find?_cons, List.mem_cons] at ih ⊢
    by_cases hrow : row.1 = key
    · have hbeyond : (key, value) ∉ rows := fun hmem => h.1 (hrow ▸ List.mem_map.mpr ⟨_, hmem, rfl⟩)
      rw [beq_iff_eq.mpr hrow, Option.map_some, Option.some.injEq, or_iff_left hbeyond, ← hrow]
      exact ⟨fun heq => by rw [← heq], fun heq => (congrArg Prod.snd heq).symm⟩
    · have hother : (key, value) ≠ row := fun heq => hrow (congrArg Prod.fst heq).symm
      rw [beq_eq_false_iff_ne.mpr hrow, or_iff_right hother, ← ih h.2]

theorem find?_erase_self (rows : Keyed κ ν) (key : κ) : (rows.erase key).find? key = none := by
  rw [find?_eq_none_iff, List.mem_map]
  rintro ⟨row, hrow, heq⟩
  simp [erase, heq] at hrow

theorem find?_erase_of_ne (rows : Keyed κ ν) {key other : κ} (h : key ≠ other) :
    (rows.erase key).find? other = rows.find? other := by
  induction rows with
  | nil => rfl
  | cons row rows ih =>
    simp only [find?, erase, List.filter_cons] at ih ⊢
    by_cases hrow : row.1 = key
    · rw [if_neg (by simp [hrow]), ih, List.find?_cons_of_neg (by simp [hrow, h])]
    · rw [if_pos (by simp [hrow]), List.find?_cons, List.find?_cons]
      split
      · rfl
      · exact ih

end Keyed

end TypeLoom
