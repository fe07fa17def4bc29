import Mathlib.Algebra.Order.Field.Power
import Mathlib.Data.Nat.Log
import Mathlib.Data.Rat.Cast.Order
import Mathlib.Tactic.FieldSimp
import Mathlib.Tactic.Linarith
import Mathlib.Tactic.Positivity
import Mathlib.Tactic.Ring
import TypeLoom.Decimal.Double

/-!
# Rounding to doubles

A quotient that is nearer to a double than to its neighbours, or halfway with an even significand,
is rounded to this double.
-/

namespace TypeLoom.Double

open Decimal

/-! ### Rounding to whole numbers -/

/-- The number is within one half of the whole number; only even numbers round what is halfway. -/
structure RoundsTo (r : ℚ) (m : ℕ) : Prop where
  low : (m : ℚ) - 1 / 2 ≤ r
  high : r ≤ m + 1 / 2
  tie : r = m - 1 / 2 ∨ r = m + 1 / 2 → m % 2 = 0

theorem roundedQuotient_eq {num den m : ℕ} (hden : 0 < den) (h : RoundsTo (num / den) m) :
    roundedQuotient num den = m := by
  have hpos : (0 : ℚ) < den := by exact_mod_cast hden
  have hlow : 2 * m * den ≤ 2 * num + den := by
    have hlow := (le_div_iff₀ hpos).mp h.low
    exact_mod_cast (by linarith : (2 * m * den : ℚ) ≤ 2 * num + den)
  have hhigh : 2 * num ≤ 2 * m * den + den := by
    have hhigh := (div_le_iff₀ hpos).mp h.high
    exact_mod_cast (by linarith : (2 * num : ℚ) ≤ 2 * m * den + den)
  have htie : 2 * m * den = 2 * num + den ∨ 2 * num = 2 * m * den + den → m % 2 = 0 := by
    rintro (heq | heq)
    · have hcast : (2 * m * den : ℚ) = 2 * num + den := by exact_mod_cast heq
      refine h.tie (.inl ?_)
      rw [div_eq_iff hpos.ne']
      linarith
    · have hcast : (2 * num : ℚ) = 2 * m * den + den := by exact_mod_cast heq
      refine h.tie (.inr ?_)
      rw [div_eq_iff hpos.ne']
      linarith
  clear h
  obtain ⟨quotient, hquotient⟩ : ∃ quotient, num / den = quotient := ⟨_, rfl⟩
  obtain ⟨rest, hrest⟩ : ∃ rest, num % den = rest := ⟨_, rfl⟩
  have hnum : num = den * quotient + rest := by rw [← hquotient, ← hrest, Nat.div_add_mod]
  have hlt : rest < den := by
    rw [← hrest]
    exact Nat.mod_lt num hden
  -- only the quotient and its successor are near enough
  have hupper : quotient < m + 1 := by
    refine Nat.lt_of_mul_lt_mul_left (a := den) ?_
    nlinarith
  have hlower : m < quotient + 2 := by
    refine Nat.lt_of_mul_lt_mul_left (a := den) ?_
    nlinarith
  unfold roundedQuotient
  rw [hquotient, hrest]
  obtain rfl | rfl : m = quotient ∨ m = quotient + 1 := by omega
  · have hhalf : 2 * rest ≤ den := by nlinarith
    rcases Nat.lt_or_eq_of_le hhalf with hhalf | hhalf
    · simp only [hhalf, if_true]
    · have heven := htie (.inr (by rw [hnum, ← hhalf]; ring))
      simp [hhalf, heven]
  · have hhalf : den ≤ 2 * rest := by nlinarith
    rcases Nat.lt_or_eq_of_le hhalf with hhalf | hhalf
    · simp [Nat.not_lt.mpr hhalf.le, hhalf.ne']
    · have heven := htie (.inl (by rw [hnum, hhalf]; ring))
      simp only [← hhalf, Nat.lt_irrefl, if_false, if_true]
      omega

theorem scaledQuotient_eq {num den m : ℕ} {power : ℤ} (hden : 0 < den)
    (h : RoundsTo (num / den / 2 ^ power) m) :
    scaledQuotient num den power = m := by
  unfold scaledQuotient
  split
  · rename_i hneg
    refine roundedQuotient_eq hden (cast (congrArg (RoundsTo · m) ?_) h)
    obtain ⟨n, rfl⟩ : ∃ n : ℕ, power = -n := ⟨power.natAbs, by omega⟩
    simp [twoTo, zpow_neg, div_eq_mul_inv, mul_right_comm]
  · rename_i hpos
    obtain ⟨n, rfl⟩ : ∃ n : ℕ, power = n := ⟨power.natAbs, by omega⟩
    refine roundedQuotient_eq (Nat.mul_pos hden (Nat.pow_pos Nat.two_pos))
      (cast (congrArg (RoundsTo · m) ?_) h)
    simp [twoTo, div_div]

/-! ### Exponents -/

theorem two_zpow_le {a b : ℤ} (h : a ≤ b) : (2 : ℚ) ^ a ≤ 2 ^ b :=
  zpow_le_zpow_right₀ (by norm_num) h

theorem lt_of_two_zpow_lt {a b : ℤ} (h : (2 : ℚ) ^ a < 2 ^ b) :
    a < b := (zpow_lt_zpow_iff_right₀ (by norm_num)).mp h

theorem log2_bounds {n : ℕ} (hn : 0 < n) :
    (2 : ℚ) ^ (Nat.log2 n : ℤ) ≤ n ∧ (n : ℚ) < 2 ^ ((Nat.log2 n : ℤ) + 1) := by
  have hlow : 2 ^ Nat.log2 n ≤ n := Nat.log2_self_le hn.ne'
  have hhigh : n < 2 ^ (Nat.log2 n + 1) := Nat.lt_log2_self
  refine ⟨?_, ?_⟩
  · rw [zpow_natCast]
    exact_mod_cast hlow
  · have hcast : ((Nat.log2 n : ℤ) + 1) = ((Nat.log2 n + 1 : ℕ) : ℤ) := rfl
    rw [hcast, zpow_natCast]
    exact_mod_cast hhigh

/-- The power of two below the quotient has the fifty-third digit. -/
theorem exponentFor_spec {num den : ℕ} (hnum : 0 < num) (hden : 0 < den) :
    ∃ power : ℤ, exponentFor num den = max (-1074) power ∧ (2 : ℚ) ^ (power + 52) ≤ num / den
    ∧ (num / den : ℚ) < 2 ^ (power + 53) := by
  have hpos : (0 : ℚ) < den := by exact_mod_cast hden
  obtain ⟨hnumLow, hnumHigh⟩ := log2_bounds hnum
  obtain ⟨hdenLow, hdenHigh⟩ := log2_bounds hden
  obtain ⟨guess, hguess⟩ : ∃ guess : ℤ, guess = (Nat.log2 num : ℤ) - (Nat.log2 den : ℤ) - 53 :=
    ⟨_, rfl⟩
  have hlow : (2 : ℚ) ^ (guess + 52) ≤ num / den := by
    rw [le_div_iff₀ hpos]
    calc (2 : ℚ) ^ (guess + 52) * den ≤ 2 ^ (guess + 52) * 2 ^ ((Nat.log2 den : ℤ) + 1) := by gcongr
      _ = 2 ^ (Nat.log2 num : ℤ) := by
        rw [← zpow_add₀ (by norm_num), hguess]
        ring_nf
      _ ≤ num := hnumLow
  have hhigh : (num / den : ℚ) < 2 ^ (guess + 54) := by
    rw [div_lt_iff₀ hpos]
    calc (num : ℚ) < 2 ^ ((Nat.log2 num : ℤ) + 1) := hnumHigh
      _ = 2 ^ (guess + 54) * 2 ^ (Nat.log2 den : ℤ) := by
        rw [← zpow_add₀ (by norm_num), hguess]
        ring_nf
      _ ≤ 2 ^ (guess + 54) * den := by gcongr
  have hfits : (if guess + 53 < 0 then decide (num * twoTo (guess + 53).natAbs < den)
    else decide (num < den * twoTo (guess + 53).natAbs)) =
      decide ((num / den : ℚ) < 2 ^ (guess + 53)) := by
    obtain ⟨top, htop⟩ : ∃ top : ℤ, top = guess + 53 := ⟨_, rfl⟩
    rw [← htop]
    split
    · obtain ⟨n, rfl⟩ : ∃ n : ℕ, top = -n := ⟨top.natAbs, by omega⟩
      rw [decide_eq_decide, div_lt_iff₀ hpos, zpow_neg, zpow_natCast, inv_mul_eq_div,
        lt_div_iff₀ (by positivity)]
      simp only [Int.natAbs_neg, Int.natAbs_natCast, twoTo, Nat.pow_eq]
      exact_mod_cast Iff.rfl
    · obtain ⟨n, rfl⟩ : ∃ n : ℕ, top = n := ⟨top.natAbs, by omega⟩
      rw [decide_eq_decide, div_lt_iff₀ hpos, zpow_natCast, mul_comm]
      simp only [Int.natAbs_natCast, twoTo, Nat.pow_eq]
      exact_mod_cast Iff.rfl
  unfold exponentFor
  rw [← hguess]
  simp only [hfits, decide_eq_true_eq]
  split
  · rename_i h
    exact ⟨guess, rfl, hlow, h⟩
  · rename_i h
    refine ⟨guess + 1, rfl, ?_, ?_⟩
    · rw [show guess + 1 + 52 = guess + 53 by ring]
      exact not_lt.mp h
    · rw [show guess + 1 + 53 = guess + 54 by ring]
      exact hhigh

/-! ### The nearest double -/

theorem bits_nearest {num den q : ℕ} (hnum : 0 < num) (hden : 0 < den)
    (h : RoundsTo (num / den / 2 ^ exponentFor num den) q)
    (hfinite : (exponentFor num den + 1074).toNat * 2 ^ 52 + q < 0x7FF0000000000000) :
    (nearest num den).bits.toNat = (exponentFor num den + 1074).toNat * 2 ^ 52 + q := by
  have hword : (exponentFor num den + 1074).toNat * twoTo 52
    + scaledQuotient num den (exponentFor num den) =
      (exponentFor num den + 1074).toNat * 2 ^ 52 + q := by
        rw [scaledQuotient_eq hden h, twoTo, Nat.pow_eq]
  unfold nearest
  simp only [hnum.ne', if_false, hword, if_neg (Nat.not_le.mpr hfinite)]
  exact UInt64.toNat_ofNat_of_lt' (Nat.lt_trans hfinite (by norm_num [UInt64.size]))

/-- Significand and exponent of a finite double that is not zero. -/
structure Significant (m : ℕ) (e : ℤ) : Prop where
  pos : 0 < m
  small : m < 2 ^ 53
  normal : e = -1074 ∨ 2 ^ 52 ≤ m
  low : -1074 ≤ e
  high : e ≤ 971

/-- The numbers that round to `m · 2 ^ e`, in units of `2 ^ e`: halfway to both neighbours, one
of which is twice as near below a power of two. -/
structure Near (m : ℕ) (e : ℤ) (r : ℚ) : Prop where
  low : (m : ℚ) - (if m = 2 ^ 52 ∧ -1074 < e then 1 / 4 else 1 / 2) ≤ r
  high : r ≤ m + 1 / 2
  tie : m % 2 = 1 → (m : ℚ) - 1 / 2 < r ∧ r < m + 1 / 2

theorem Near.roundsTo {m : ℕ} {e : ℤ} {r : ℚ} (h : Near m e r) : RoundsTo r m := by
  refine ⟨le_trans ?_ h.low, h.high, fun htie => ?_⟩
  · split <;> linarith
  · by_contra hodd
    obtain ⟨hlow, hhigh⟩ := h.tie (by omega)
    rcases htie with heq | heq <;> linarith

theorem bits_nearest_of_near {m num den : ℕ} {e : ℤ} {r : ℚ} (hm : Significant m e) (hnum : 0 < num)
    (hden : 0 < den) (h : Near m e r) (hr : (num / den : ℚ) = r * 2 ^ e) :
    (nearest num den).bits.toNat = (e + 1074).toNat * 2 ^ 52 + m := by
  have hscale : (0 : ℚ) < 2 ^ e := by positivity
  obtain ⟨power, hpower, hbelow, habove⟩ := exponentFor_spec hnum hden
  have hsmall : (m : ℚ) + 1 ≤ 2 ^ 53 := by exact_mod_cast hm.small
  have hhigh := h.high
  have hlow := h.low
  have hfits : power + 52 < e + 53 := by
    refine lt_of_two_zpow_lt (lt_of_le_of_lt hbelow ?_)
    rw [hr, zpow_add₀ (by norm_num), mul_comm ((2 : ℚ) ^ e)]
    exact mul_lt_mul_of_pos_right (lt_of_le_of_lt hhigh (by norm_num at hsmall ⊢; linarith)) hscale
  have hlt := hm.small
  have hlowest := hm.low
  have hhighest := hm.high
  by_cases hbinade : e = -1074 ∨ (2 : ℚ) ^ (52 : ℤ) ≤ r
  · have hexponent : exponentFor num den = e := by
      rw [hpower]
      rcases hbinade with heq | hbinade
      · omega
      · have hreach : e + 52 < power + 53 := by
          refine lt_of_two_zpow_lt (lt_of_le_of_lt ?_ habove)
          rw [hr, zpow_add₀ (by norm_num), mul_comm]
          exact mul_le_mul_of_nonneg_right hbinade hscale.le
        omega
    have hrounds : RoundsTo (num / den / 2 ^ exponentFor num den) m := by
      rw [hexponent, hr, mul_div_assoc, div_self hscale.ne', mul_one]
      exact h.roundsTo
    rw [← hexponent]
    refine bits_nearest hnum hden hrounds ?_
    rw [hexponent]
    have hexp : (e + 1074).toNat ≤ 2045 := by omega
    norm_num at hlt ⊢
    omega
  · -- just below a power of two: rounded up to it from the finer grid
    rw [not_or, not_le] at hbinade
    obtain ⟨hne, hbinade⟩ := hbinade
    have hnormal : 2 ^ 52 ≤ m := hm.normal.resolve_left hne
    have hm52 : m = 2 ^ 52 := by
      refine Nat.le_antisymm (Nat.not_lt.mp fun hgt => ?_) hnormal
      have hcast : (2 : ℚ) ^ 52 + 1 ≤ m := by exact_mod_cast hgt
      have hbin : r < 2 ^ 52 := by exact_mod_cast hbinade
      rw [if_neg fun hcond => absurd hcond.1 hgt.ne'] at hlow
      linarith
    have hcond : m = 2 ^ 52 ∧ -1074 < e := ⟨hm52, by omega⟩
    rw [if_pos hcond] at hlow
    have hm52' : (m : ℚ) = 2 ^ 52 := by exact_mod_cast hm52
    have hbin : r < 2 ^ 52 := by exact_mod_cast hbinade
    have hfiner : (2 : ℚ) ^ e = 2 * 2 ^ (e - 1) := by
      rw [mul_comm, ← zpow_add_one₀ (by norm_num), sub_add_cancel]
    have hscale' : (0 : ℚ) < 2 ^ (e - 1) := by positivity
    have hr' : (num / den : ℚ) = 2 * r * 2 ^ (e - 1) := by
      rw [hr, hfiner]
      ring
    have hexponent : exponentFor num den = e - 1 := by
      have hreach : e + 51 < power + 53 := by
        refine lt_of_two_zpow_lt (lt_of_le_of_lt ?_ habove)
        rw [hr', show e + 51 = e - 1 + 52 by ring, zpow_add₀ (by norm_num), mul_comm]
        refine mul_le_mul_of_nonneg_right ?_ hscale'.le
        norm_num at hm52' ⊢
        linarith
      have hfits' : power + 52 < e + 52 := by
        refine lt_of_two_zpow_lt (lt_of_le_of_lt hbelow ?_)
        rw [hr, zpow_add₀ (by norm_num), mul_comm ((2 : ℚ) ^ e)]
        exact mul_lt_mul_of_pos_right hbinade hscale
      omega
    have hrounds : RoundsTo (num / den / 2 ^ exponentFor num den) (2 ^ 53) := by
      rw [hexponent, hr', mul_div_assoc, div_self hscale'.ne', mul_one]
      refine ⟨?_, ?_, fun _ => by norm_num⟩
      · norm_num at hm52' ⊢
        linarith
      · norm_num at hbin ⊢
        linarith
    have hword : (exponentFor num den + 1074).toNat * 2 ^ 52 + 2 ^ 53
        = (e + 1074).toNat * 2 ^ 52 + m := by
      rw [hexponent, hm52]
      norm_num
      omega
    rw [← hword]
    refine bits_nearest hnum hden hrounds ?_
    rw [hexponent]
    norm_num
    omega

end TypeLoom.Double
