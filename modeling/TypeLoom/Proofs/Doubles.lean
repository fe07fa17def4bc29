import Mathlib.Data.List.TakeWhile
import TypeLoom.Decimal.Read
import TypeLoom.Decimal.Shortest
import TypeLoom.Proofs.Numerals
import TypeLoom.Proofs.Rounding

/-!
# Doubles read back

The shortest decimal of a double lies in the interval of numbers that round to it, so that its text
reads back as the same double.
-/

namespace TypeLoom

open Decimal

/-! ### Words -/

namespace Double

variable {x y : Double}

theorem exponentField_eq (x : Double) : x.exponentField = x.bits.toNat / 2 ^ 52 % 2 ^ 11 := by
  rw [exponentField, UInt64.toNat_and, UInt64.toNat_shiftRight]
  show (x.bits.toNat >>> 52) &&& (2 ^ 11 - 1) = _
  rw [Nat.and_two_pow_sub_one_eq_mod, Nat.shiftRight_eq_div_pow]

theorem fraction_eq (x : Double) : x.fraction = x.bits.toNat % 2 ^ 52 := by
  rw [fraction, UInt64.toNat_and]
  show x.bits.toNat &&& (2 ^ 52 - 1) = _
  rw [Nat.and_two_pow_sub_one_eq_mod]

theorem isNegative_iff (x : Double) : x.isNegative = true ↔ 2 ^ 63 ≤ x.bits.toNat := by
  have hlt : x.bits.toNat < 2 ^ 64 := x.bits.toNat_lt
  have hshift : (x.bits >>> 63).toNat = x.bits.toNat / 2 ^ 63 := by
    rw [UInt64.toNat_shiftRight]
    show x.bits.toNat >>> 63 = _
    rw [Nat.shiftRight_eq_div_pow]
  rw [isNegative, beq_iff_eq, ← UInt64.toNat_inj, hshift]
  show x.bits.toNat / 2 ^ 63 = 1 ↔ _
  omega

/-- Turning the sign bit of a word over that has it takes it away. -/
theorem negate_of_isNegative (hx : x.isNegative = true)
    (hy : y.bits.toNat = x.bits.toNat % 2 ^ 63) : y.negate = x := by
  have hlt : x.bits.toNat < 2 ^ 64 := x.bits.toNat_lt
  have hle := (isNegative_iff x).mp hx
  have hbits : y.bits ^^^ 0x8000000000000000 = x.bits := by
    apply UInt64.toNat_inj.mp
    rw [UInt64.toNat_xor, hy]
    show (x.bits.toNat % 2 ^ 63) ^^^ 2 ^ 63 = _
    have hhigh := Nat.xor_div_two_pow (a := x.bits.toNat % 2 ^ 63) (b := 2 ^ 63) (n := 63)
    have hlow := Nat.xor_mod_two_pow (a := x.bits.toNat % 2 ^ 63) (b := 2 ^ 63) (n := 63)
    rw [Nat.mod_div_self, Nat.div_self (by norm_num), Nat.zero_xor] at hhigh
    rw [Nat.mod_mod, Nat.mod_self, Nat.xor_zero] at hlow
    omega
  cases x
  cases y
  exact congrArg Double.mk hbits

/-- One double for all that is no number. -/
def canonical (x : Double) : Double := if x.isNaN then nan else x

theorem eq_of_toNat (h : x.bits.toNat = y.bits.toNat) : x = y := by
  cases x
  cases y
  exact congrArg Double.mk (UInt64.toNat_inj.mp h)

theorem magnitude_of_isInfinite (h : x.isInfinite = true) :
    x.bits.toNat % 2 ^ 63 = infinity.bits.toNat := by
  simp only [isInfinite, Bool.and_eq_true, beq_iff_eq, exponentField_eq, fraction_eq] at h
  show _ = 0x7FF0000000000000
  omega

theorem magnitude_of_significand (h : x.significand = 0) :
    x.bits.toNat % 2 ^ 63 = zero.bits.toNat := by
  have hfield : x.exponentField = 0 := by
    by_contra hne
    simp [significand, hne, twoTo] at h
  have hfraction : x.fraction = 0 := by simpa [significand, hfield] using h
  rw [exponentField_eq] at hfield
  rw [fraction_eq] at hfraction
  show _ = 0
  omega

structure IsSignificant (x : Double) : Prop where
  finite : x.exponentField < 0x7FF
  nonzero : x.significand ≠ 0

theorem IsSignificant.significant (h : x.IsSignificant) : Significant x.significand x.exponent := by
  have hfraction : x.fraction < 2 ^ 52 := by
    rw [fraction_eq]
    exact Nat.mod_lt _ (by norm_num)
  have hfinite := h.finite
  have hnonzero := h.nonzero
  by_cases hfield : x.exponentField = 0
  · have hexponent : x.exponent = -1074 := by simp [exponent, hfield]
    have hsignificand : x.significand = x.fraction := by simp [significand, hfield]
    refine ⟨Nat.pos_of_ne_zero hnonzero, ?_, .inl hexponent, hexponent.ge, ?_⟩
    · rw [hsignificand]
      exact Nat.lt_trans hfraction (by norm_num)
    · rw [hexponent]
      norm_num
  · have hexponent : x.exponent = (x.exponentField : Int) - 1075 := by simp [exponent, hfield]
    have hsignificand : x.significand = x.fraction + 2 ^ 52 := by simp [significand, hfield, twoTo]
    refine ⟨Nat.pos_of_ne_zero hnonzero, ?_, .inr ?_, ?_, ?_⟩
    · rw [hsignificand]
      norm_num at hfraction ⊢
      omega
    · rw [hsignificand]
      exact Nat.le_add_left _ _
    · rw [hexponent]
      omega
    · rw [hexponent]
      omega

/-- The word without its sign, put together from significand and exponent. -/
theorem IsSignificant.word (h : x.IsSignificant) :
    x.bits.toNat % 2 ^ 63 = (x.exponent + 1074).toNat * 2 ^ 52 + x.significand := by
  have hparts : x.bits.toNat % 2 ^ 63 = x.exponentField * 2 ^ 52 + x.fraction := by
    rw [exponentField_eq, fraction_eq]
    omega
  have hfinite := h.finite
  rw [hparts]
  by_cases hfield : x.exponentField = 0
  · simp [exponent, significand, hfield]
  · have hexponent : x.exponent = (x.exponentField : Int) - 1075 := by simp [exponent, hfield]
    have hsignificand : x.significand = x.fraction + 2 ^ 52 := by simp [significand, hfield, twoTo]
    rw [hexponent, hsignificand]
    omega

end Double

/-! ### Grids -/

namespace Decimal

open Double

variable {x y : Double} {near : Neighbourhood} {power step : Int} {point : Nat}

theorem scales_spec (power step : Int) :
    ((scales power step).1 : ℚ) * 10 ^ step = (scales power step).2 * 2 ^ power
    ∧ 0 < (scales power step).1 ∧ 0 < (scales power step).2 := by
  have htwo : (2 : ℚ) ^ power.toNat = 2 ^ power * 2 ^ (-power).toNat := by
    rw [← zpow_natCast, ← zpow_natCast, ← zpow_add₀ (by norm_num)]
    congr 1
    omega
  have hten : (10 : ℚ) ^ step.toNat = 10 ^ step * 10 ^ (-step).toNat := by
    rw [← zpow_natCast, ← zpow_natCast, ← zpow_add₀ (by norm_num)]
    congr 1
    omega
  refine ⟨?_, ?_, ?_⟩
  · simp only [scales, twoTo, tenTo, Nat.pow_eq]
    push_cast
    rw [htwo, hten]
    ring
  · exact Nat.mul_pos (Nat.pow_pos (by norm_num)) (Nat.pow_pos (by norm_num))
  · exact Nat.mul_pos (Nat.pow_pos (by norm_num)) (Nat.pow_pos (by norm_num))

section Scales

variable (power step) (a b : Nat)

theorem mul_scale (a : Nat) :
    (a * (scales power step).1 : ℚ) * 10 ^ step = a * 2 ^ power * (scales power step).2 := by
  rw [mul_assoc, (scales_spec power step).1]
  ring

theorem scale_le_iff : a * (scales power step).1 ≤ b * (scales power step).2 ↔
    (a * 2 ^ power : ℚ) ≤ b * 10 ^ step := by
  have hten : (0 : ℚ) < 10 ^ step := by positivity
  have hgap : (0 : ℚ) < (scales power step).2 := by exact_mod_cast (scales_spec power step).2.2
  rw [← Nat.cast_le (α := ℚ), Nat.cast_mul, Nat.cast_mul, ← mul_le_mul_iff_of_pos_right hten,
    mul_scale, mul_right_comm (b : ℚ),
    mul_le_mul_iff_of_pos_right hgap]

theorem le_scale_iff : b * (scales power step).2 ≤ a * (scales power step).1 ↔
    (b * 10 ^ step : ℚ) ≤ a * 2 ^ power := by
  have hten : (0 : ℚ) < 10 ^ step := by positivity
  have hgap : (0 : ℚ) < (scales power step).2 := by exact_mod_cast (scales_spec power step).2.2
  rw [← Nat.cast_le (α := ℚ), Nat.cast_mul, Nat.cast_mul, ← mul_le_mul_iff_of_pos_right hten,
    mul_scale, mul_right_comm (b : ℚ),
    mul_le_mul_iff_of_pos_right hgap]

end Scales

/-- The point is in the interval, with both in a common unit. -/
def inside (near : Neighbourhood) (scale : Nat × Nat) (point : Nat) : Bool :=
  if near.closed then near.low * scale.1 ≤ point * scale.2 && point * scale.2 ≤ near.high * scale.1
  else near.low * scale.1 < point * scale.2 && point * scale.2 < near.high * scale.1

theorem gridPoint_eq (near : Neighbourhood) (step : Int) : gridPoint near step =
    let scale := scales near.power step
    let below := near.value * scale.1 / scale.2
    let lower := below > 0 && inside near scale below
    let upper := inside near scale (below + 1)
    if lower && upper then if 2 * (near.value * scale.1) < (2 * below + 1) * scale.2 then some below
      else some (below + 1)
    else if lower then some below
    else if upper then some (below + 1)
    else none := rfl

/-- The point lies in the interval. -/
structure Neighbourhood.Holds (near : Neighbourhood) (r : ℚ) : Prop where
  low : (near.low * 2 ^ near.power : ℚ) ≤ r
  high : r ≤ near.high * 2 ^ near.power
  inside : near.closed = false → (near.low * 2 ^ near.power : ℚ) < r
    ∧ r < near.high * 2 ^ near.power

theorem gridPoint_sound (h : gridPoint near step = some point) :
    0 < point ∧ near.Holds (point * 10 ^ step) := by
  have hpoint : 0 < point ∧ inside near (scales near.power step) point = true := by
    rw [gridPoint_eq] at h
    simp only at h
    split at h
    · rename_i hboth
      simp only [Bool.and_eq_true, decide_eq_true_eq] at hboth
      split at h
      · cases h
        exact hboth.1
      · cases h
        exact ⟨Nat.succ_pos _, hboth.2⟩
    split at h
    · rename_i hlower
      simp only [Bool.and_eq_true, decide_eq_true_eq] at hlower
      cases h
      exact hlower
    split at h
    · rename_i hupper
      cases h
      exact ⟨Nat.succ_pos _, hupper⟩
    · cases h
  refine ⟨hpoint.1, ?_⟩
  have hheld := hpoint.2
  unfold inside at hheld
  cases hclosed : near.closed with
  | true =>
    simp only [hclosed, if_true, Bool.and_eq_true, decide_eq_true_eq] at hheld
    refine ⟨(scale_le_iff _ _ _ _).mp hheld.1, (le_scale_iff _ _ _ _).mp hheld.2, fun hopen => ?_⟩
    rw [hclosed] at hopen
    cases hopen
  | false =>
    simp only [hclosed, Bool.false_eq_true, if_false, Bool.and_eq_true, decide_eq_true_eq] at hheld
    have hlow : (near.low * 2 ^ near.power : ℚ) < point * 10 ^ step := by
      rw [← not_le, ← le_scale_iff, not_le]
      exact hheld.1
    have hhigh : (point * 10 ^ step : ℚ) < near.high * 2 ^ near.power := by
      rw [← not_le, ← scale_le_iff, not_le]
      exact hheld.2
    exact ⟨hlow.le, hhigh.le, fun _ => ⟨hlow, hhigh⟩⟩

theorem isSome_gridPoint (hvalue : 0 < near.value) (hlow : near.low < near.value)
    (hhigh : near.value < near.high) (hfine : (10 : ℚ) ^ step ≤ 2 ^ near.power) :
    (gridPoint near step).isSome = true := by
  obtain ⟨-, hunit, hgap⟩ := scales_spec near.power step
  have hle : (scales near.power step).2 ≤ (scales near.power step).1 := by
    have hone := (le_scale_iff near.power step 1 1).mpr (by simpa using hfine)
    simpa using hone
  generalize hscale : scales near.power step = scale at *
  obtain ⟨unit, gap⟩ := scale
  simp only at hunit hgap hle
  have hbelow : near.value * unit / gap * gap ≤ near.value * unit := Nat.div_mul_le_self _ _
  have habove : near.value * unit < near.value * unit / gap * gap + gap := by
    have hmod := Nat.div_add_mod (near.value * unit) gap
    have hlt := Nat.mod_lt (near.value * unit) hgap
    rw [Nat.mul_comm gap] at hmod
    omega
  have hpositive : 0 < near.value * unit / gap :=
    Nat.div_pos (Nat.le_trans hle (Nat.le_mul_of_pos_left unit hvalue)) hgap
  have hunder : near.low * unit < near.value * unit / gap * gap := by
    have hstep : near.low * unit + unit ≤ near.value * unit := by
      rw [← Nat.succ_mul]
      exact Nat.mul_le_mul_right unit hlow
    omega
  have hover : near.value * unit / gap * gap < near.high * unit :=
    Nat.lt_of_le_of_lt hbelow (Nat.mul_lt_mul_of_pos_right hhigh hunit)
  have hlower :
      (decide (near.value * unit / gap > 0) && inside near (unit, gap) (near.value * unit / gap))
      = true := by
    simp [inside, hpositive, hunder.le, hover.le, hunder, hover]
  rw [gridPoint_eq, hscale]
  simp only [hlower, Bool.true_and, if_true]
  split
  · split <;> rfl
  · rfl

/-- The first grid with a point is found within so many steps. -/
theorem coarsest_sound {fuel : Nat} {start fine : Int} (hfine : (gridPoint near fine).isSome = true)
    (hstart : fine ≤ start) (hfuel : start < fine + fuel) :
    ∃ point step, coarsest near fuel start = (point, step) ∧ gridPoint near step = some point := by
  induction fuel generalizing start with
  | zero => omega
  | succ fuel ih =>
    unfold coarsest
    cases hpoint : gridPoint near start with
    | some point => exact ⟨point, start, rfl, hpoint⟩
    | none =>
      have hne : start ≠ fine := by
        rintro rfl
        rw [hpoint] at hfine
        cases hfine
      exact ih (by omega) (by omega)

/-! ### The shortest decimal -/

theorem ten_zpow_le_two_zpow (power : Int) :
    (10 : ℚ) ^ (if 0 ≤ power then power / 4 else power / 3) ≤ 2 ^ power := by
  split
  · rename_i hpos
    have hquarter : 0 ≤ power / 4 := by omega
    calc (10 : ℚ) ^ (power / 4) ≤ 16 ^ (power / 4) :=
      zpow_le_zpow_left₀ hquarter (by norm_num) (by norm_num)
      _ = 2 ^ (4 * (power / 4)) := by
        rw [zpow_mul]
        norm_num
      _ ≤ 2 ^ power := two_zpow_le (by omega)
  · rename_i hneg
    obtain ⟨n, hn⟩ : ∃ n : ℕ, power / 3 = -n := ⟨(power / 3).natAbs, by omega⟩
    calc (10 : ℚ) ^ (power / 3) = (10 ^ n)⁻¹ := by rw [hn, zpow_neg, zpow_natCast]
      _ ≤ (8 ^ n)⁻¹ := by gcongr; norm_num
      _ = 2 ^ (3 * (power / 3)) := by
        rw [hn, zpow_mul, zpow_neg, zpow_natCast]
        norm_num
      _ ≤ 2 ^ power := two_zpow_le (by omega)

theorem shortest_sound (h : x.IsSignificant) :
    ∃ point step, shortest x = (point, step) ∧ 0 < point
    ∧ (neighbourhood x).Holds (point * 10 ^ step) := by
  have hsignificant := h.significant
  have hpos := hsignificant.pos
  have hlow := hsignificant.low
  have hhigh := hsignificant.high
  have hlog : Nat.log2 x.significand < 53 := (Nat.log2_lt hpos.ne').mpr hsignificant.small
  obtain ⟨fine, hfine⟩ : ∃ fine : Int, fine = if 0 ≤ x.exponent - 2 then (x.exponent - 2) / 4
    else (x.exponent - 2) / 3 := ⟨_, rfl⟩
  have hbase : (10 : ℚ) ^ fine ≤ 2 ^ (x.exponent - 2) := by
    rw [hfine]
    exact ten_zpow_le_two_zpow _
  have hreach : topStep x < fine + 400 := by
    have hlog' : (Nat.log2 x.significand : Int) ≤ 52 := by exact_mod_cast Nat.le_of_lt_succ hlog
    unfold topStep
    generalize (Nat.log2 x.significand : Int) = log at *
    split at hfine <;> omega
  have hpoint : (gridPoint (neighbourhood x) (min fine (topStep x))).isSome = true := by
    refine isSome_gridPoint ?_ ?_ ?_ ?_
    · show 0 < 4 * x.significand
      omega
    · simp only [neighbourhood]
      split <;> exact Nat.sub_lt (by omega) (by decide)
    · show 4 * x.significand < 4 * x.significand + 2
      omega
    · exact le_trans (zpow_le_zpow_right₀ (by norm_num) (min_le_left _ _)) hbase
  have hfuel : topStep x < min fine (topStep x) + (400 : ℕ) := by omega
  obtain ⟨point, step, hshortest, hgrid⟩ := coarsest_sound hpoint (min_le_right _ _) hfuel
  obtain ⟨hpositive, hholds⟩ := gridPoint_sound hgrid
  exact ⟨point, step, hshortest, hpositive, hholds⟩

theorem near_of_holds (h : x.IsSignificant) {r : ℚ} (hr : (neighbourhood x).Holds r) :
    Near x.significand x.exponent (r / 2 ^ x.exponent) := by
  have hpos := h.significant.pos
  have hscale : (0 : ℚ) < 2 ^ x.exponent := by positivity
  have hpower : (2 : ℚ) ^ (x.exponent - 2) = 2 ^ x.exponent / 4 := by
    rw [zpow_sub₀ (by norm_num)]
    norm_num
  have hnarrow : (x.significand = twoTo 52 ∧ x.exponentField > 1) ↔ x.significand = 2 ^ 52
      ∧ -1074 < x.exponent := by
    refine and_congr Iff.rfl ?_
    by_cases hfield : x.exponentField = 0
    · simp [exponent, hfield]
    · simp only [exponent, beq_iff_eq, hfield, if_false]
      omega
  have hfour : ((4 * x.significand - 1 : ℕ) : ℚ) = 4 * x.significand - 1 := by
    rw [Nat.cast_sub (by omega)]
    norm_num
  have hfour' : ((4 * x.significand - 2 : ℕ) : ℚ) = 4 * x.significand - 2 := by
    rw [Nat.cast_sub (by omega)]
    norm_num
  obtain ⟨hlow, hhigh, hinside⟩ := hr
  have hsix : ((4 * x.significand + 2 : ℕ) : ℚ) = 4 * x.significand + 2 := by push_cast; rfl
  simp only [neighbourhood, hpower, hnarrow, hsix] at hlow hhigh hinside
  refine ⟨?_, ?_, fun hodd => ?_⟩
  · rw [le_div_iff₀ hscale]
    refine le_trans (le_of_eq ?_) hlow
    split
    · rw [hfour]
      ring
    · rw [hfour']
      ring
  · rw [div_le_iff₀ hscale]
    linarith
  · obtain ⟨hbelow, habove⟩ := hinside (by simp [hodd])
    have hwide : ¬ (x.significand = 2 ^ 52 ∧ -1074 < x.exponent) := by
      rintro ⟨heq, -⟩
      rw [heq] at hodd
      norm_num at hodd
    rw [if_neg hwide, hfour'] at hbelow
    rw [lt_div_iff₀ hscale, div_lt_iff₀ hscale]
    constructor <;> linarith

/-! ### Text -/

variable {c : Char} {cs ds part : List Char} {n : Nat} {body : String}

theorem isSome_digit? (h : c.isDigit = true) : (digit? c).isSome = true := by
  rw [digit?_of_isDigit h]
  rfl

theorem digits?_append_zeros (n count : Nat) :
    digits? (Nat.toDigits 10 n ++ List.replicate count '0') = some (n * 10 ^ count) := by
  rw [digits?_eq_ofDigitChars]
  · induction count with
    | zero => simp
    | succ count ih =>
      rw [List.replicate_succ', ← List.append_assoc, Nat.ofDigitChars_append, Option.some.inj ih]
      simp [Nat.ofDigitChars_cons, Nat.pow_succ]
      ring
  · exact fun h => absurd (List.append_eq_nil_iff.mp h).1 Nat.toDigits_ne_nil
  · intro c hc
    rcases List.mem_append.mp hc with hc | hc
    · exact isDigit_of_mem_toDigits hc
    · rw [List.eq_of_mem_replicate hc]
      rfl

theorem digits?_zeros_append (n count : Nat) :
    digits? (List.replicate count '0' ++ Nat.toDigits 10 n) = some n := by
  rw [digits?_eq_ofDigitChars]
  · induction count with
    | zero => simp
    | succ count ih =>
      rw [List.replicate_succ, List.cons_append, Nat.ofDigitChars_cons]
      exact ih
  · exact fun h => absurd (List.append_eq_nil_iff.mp h).2 Nat.toDigits_ne_nil
  · intro c hc
    rcases List.mem_append.mp hc with hc | hc
    · rw [List.eq_of_mem_replicate hc]
      rfl
    · exact isDigit_of_mem_toDigits hc

theorem nearestDecimal_eq {digits : Nat} (length : Nat) (power : Int) (hdigits : 0 < digits)
    (hhigh : power + length ≤ 400) (hlow : -400 ≤ power + length) :
    nearestDecimal digits length power = .nearest (digits * tenTo power.toNat)
        (tenTo (-power).toNat) := by
  rw [nearestDecimal, if_neg hdigits.ne', if_neg (not_lt.mpr hhigh), if_neg (not_lt.mpr hlow)]

theorem lowerAscii_of_isDigit (h : c.isDigit = true) : lowerAscii c = c := by
  have hrange : '0' ≤ c ∧ c ≤ '9' := by simpa [Char.isDigit, Char.le_def] using h
  unfold lowerAscii Char.toLower
  rw [dif_neg]
  intro hupper
  exact absurd (UInt32.le_trans hupper.1 hrange.2) (by decide)

/-- A text that starts like none of the words is not one of them. -/
theorem magnitude?_eq_decimalDouble? (hinf : lowerAscii c ≠ 'i') (hnan : lowerAscii c ≠ 'n') :
    magnitude? (c :: cs) = decimalDouble? (c :: cs) := by
  have hword : ∀ d ds, lowerAscii c ≠ d → String.ofList ((c :: cs).map lowerAscii)
    ≠ String.ofList (d :: ds) :=
    fun d ds hne heq => hne (List.cons.inj (String.ofList_injective heq)).1
  unfold magnitude?
  simp only
  rw [if_neg, if_neg]
  · exact hword 'n' ['a', 'n'] hnan
  · rintro (heq | heq)
    · exact hword 'i' ['n', 'f'] hinf heq
    · exact hword 'i' ['n', 'f', 'i', 'n', 'i', 't', 'y'] hinf heq

theorem magnitude?_of_digits (hne : ds ≠ []) (h : ∀ c ∈ ds, c.isDigit = true) (rest : List Char) :
    magnitude? (ds ++ rest) = decimalDouble? (ds ++ rest) := by
  obtain ⟨c, cs, rfl⟩ := List.exists_cons_of_ne_nil hne
  have hdigit : c.isDigit = true := h c List.mem_cons_self
  refine magnitude?_eq_decimalDouble? ?_ ?_ <;>
  · rw [lowerAscii_of_isDigit hdigit]
    rintro rfl
    cases hdigit

theorem magnitude?_of_sign (h : c = '-' ∨ c = '+') : magnitude? (c :: cs) = none := by
  rcases h with rfl | rfl
  · rw [magnitude?_eq_decimalDouble? (by decide) (by decide)]
    rfl
  · rw [magnitude?_eq_decimalDouble? (by decide) (by decide)]
    rfl

theorem ten_pow_le_of_length (hn : 0 < n) : 10 ^ ((Nat.toDigits 10 n).length - 1) ≤ n := by
  by_cases hshort : (Nat.toDigits 10 n).length - 1 = 0
  · rw [hshort]
    exact hn
  · rw [← Nat.not_lt, ← Nat.length_toDigits_le_iff (by norm_num) (Nat.pos_of_ne_zero hshort)]
    omega

/-- The digits before the point are as many as the number is large. -/
theorem length_add_step_le (hn : 0 < n) (hsmall : (n * 10 ^ step : ℚ) < 10 ^ (400 : ℤ)) :
    (Nat.toDigits 10 n).length + step ≤ 400 := by
  have hlength : 0 < (Nat.toDigits 10 n).length := List.length_pos_iff.mpr Nat.toDigits_ne_nil
  have hdigits : (10 : ℚ) ^ (((Nat.toDigits 10 n).length : ℤ) - 1) ≤ n := by
    have hcast : (((Nat.toDigits 10 n).length - 1 : ℕ) : ℤ)
      = ((Nat.toDigits 10 n).length : ℤ) - 1 := by omega
    rw [← hcast, zpow_natCast]
    exact_mod_cast ten_pow_le_of_length hn
  have hpower : (10 : ℚ) ^ (((Nat.toDigits 10 n).length : ℤ) - 1 + step) < 10 ^ (400 : ℤ) := by
    rw [zpow_add₀ (by norm_num)]
    exact lt_of_le_of_lt (mul_le_mul_of_nonneg_right hdigits (by positivity)) hsmall
  have hlt := (zpow_lt_zpow_iff_right₀ (by norm_num)).mp hpower
  omega

theorem decimalDouble?_whole (h : ∀ c ∈ ds, c.isDigit = true) (hn : digits? ds = some n) :
    decimalDouble? ds = some (nearestDecimal n ds.length 0) := by
  have htake : ds.takeWhile (fun c => (digit? c).isSome) = ds := by
    rw [List.takeWhile_eq_self_iff]
    exact fun c hc => isSome_digit? (h c hc)
  have hdrop : ds.dropWhile (fun c => (digit? c).isSome) = [] := by
    rw [List.dropWhile_eq_nil_iff]
    exact fun c hc => isSome_digit? (h c hc)
  simp only [decimalDouble?, htake, hdrop, List.append_nil, hn]
  rfl

theorem decimalDouble?_point (h : ∀ c ∈ ds, c.isDigit = true) (hpart : ∀ c ∈ part, c.isDigit = true)
    (hn : digits? (ds ++ part) = some n) :
    decimalDouble? (ds ++ '.' :: part)
        = some (nearestDecimal n (ds ++ part).length (-part.length)) := by
  have htake : (ds ++ '.' :: part).takeWhile (fun c => (digit? c).isSome) = ds := by
    rw [List.takeWhile_append_of_pos fun c hc => isSome_digit? (h c hc)]
    exact List.append_nil ds
  have hdrop : (ds ++ '.' :: part).dropWhile (fun c => (digit? c).isSome) = '.' :: part := by
    rw [List.dropWhile_append_of_pos fun c hc => isSome_digit? (h c hc)]
    rfl
  have htake' : part.takeWhile (fun c => (digit? c).isSome) = part := by
    rw [List.takeWhile_eq_self_iff]
    exact fun c hc => isSome_digit? (hpart c hc)
  have hdrop' : part.dropWhile (fun c => (digit? c).isSome) = [] := by
    rw [List.dropWhile_eq_nil_iff]
    exact fun c hc => isSome_digit? (hpart c hc)
  simp only [decimalDouble?, htake, hdrop, htake', hdrop', hn]
  simp [tenPower?]

/-- The double nearest to a positive number is read from the text. -/
def ReadsNear (cs : List Char) (r : ℚ) : Prop :=
  ∃ num den, magnitude? cs = some (.nearest num den) ∧ 0 < num ∧ 0 < den ∧ (num / den : ℚ) = r

theorem isDigit_of_mem_zeros {count : Nat} (h : c ∈ List.replicate count '0') :
    c.isDigit = true := by
  rw [List.eq_of_mem_replicate h]
  rfl

theorem readsNear_append_zeros {count : Nat} (hn : 0 < n)
    (hreach : (Nat.toDigits 10 n).length + (count : ℤ) ≤ 400) :
    ReadsNear (Nat.toDigits 10 n ++ List.replicate count '0') (n * 10 ^ count) := by
  have hpos : 0 < n * 10 ^ count := Nat.mul_pos hn (Nat.pow_pos (by norm_num))
  have hdigit : ∀ c ∈ Nat.toDigits 10 n ++ List.replicate count '0', c.isDigit = true := fun c hc =>
    (List.mem_append.mp hc).elim isDigit_of_mem_toDigits isDigit_of_mem_zeros
  have hnearest := nearestDecimal_eq (Nat.toDigits 10 n ++ List.replicate count '0').length 0 hpos
    (by simpa using hreach) (by omega)
  refine ⟨n * 10 ^ count, 1, ?_, hpos, one_pos, by simp⟩
  rw [magnitude?_of_digits Nat.toDigits_ne_nil fun _ => isDigit_of_mem_toDigits,
    decimalDouble?_whole hdigit (digits?_append_zeros n count),
    hnearest]
  simp [tenTo]

theorem readsNear_point {places : Nat} (hn : 0 < n) (hds : ds ≠ []) (hpart : part.length = places)
    (hdigit : ∀ c ∈ ds ++ part, c.isDigit = true) (hvalue : digits? (ds ++ part) = some n) (hreach : ds.length ≤ 400) :
    ReadsNear (ds ++ '.' :: part) (n * 10 ^ (-(places : ℤ))) := by
  have hwhole : ∀ c ∈ ds, c.isDigit = true := fun c hc => hdigit c (List.mem_append_left _ hc)
  have hnearest := nearestDecimal_eq (ds ++ part).length (-places) hn (by simp; omega) (by simp; omega)
  refine ⟨n, 10 ^ places, ?_, hn, Nat.pow_pos (by norm_num), ?_⟩
  · rw [magnitude?_of_digits hds hwhole,
      decimalDouble?_point hwhole (fun c hc => hdigit c (List.mem_append_right _ hc)) hvalue, hpart,
      hnearest]
    simp [tenTo]
  · rw [zpow_neg, zpow_natCast, div_eq_mul_inv, Nat.cast_pow, Nat.cast_ofNat]

theorem readsNear_positional (hn : 0 < n) (hsmall : (n * 10 ^ step : ℚ) < 10 ^ (400 : ℤ)) :
    ReadsNear (positional n step).toList (n * 10 ^ step) := by
  have hreach := length_add_step_le hn hsmall
  unfold positional
  split
  · obtain ⟨count, rfl⟩ : ∃ count : ℕ, step = count := ⟨step.toNat, by omega⟩
    rw [String.toList_ofList, Int.toNat_natCast, zpow_natCast]
    exact readsNear_append_zeros hn hreach
  · obtain ⟨places, rfl⟩ : ∃ places : ℕ, step = -places := ⟨(-step).toNat, by omega⟩
    -- zeros in front leave the value alone, and leave at least one digit before the point
    obtain ⟨missing, hmissing⟩ : ∃ missing, missing = places + 1 - (Nat.toDigits 10 n).length :=
      ⟨_, rfl⟩
    obtain ⟨padded, hpadded⟩ : ∃ padded, padded = List.replicate missing '0' ++ Nat.toDigits 10 n :=
      ⟨_, rfl⟩
    have hlength : padded.length = missing + (Nat.toDigits 10 n).length := by simp [hpadded]
    have hdigit : ∀ c ∈ padded, c.isDigit = true := by
      rw [hpadded]
      exact fun c hc => (List.mem_append.mp hc).elim isDigit_of_mem_zeros isDigit_of_mem_toDigits
    have hvalue : digits? padded = some n := by
      rw [hpadded]
      exact digits?_zeros_append n missing
    have hwhole : padded.take (padded.length - places) ++ padded.drop (padded.length - places)
      = padded :=
      List.take_append_drop _ _
    simp only [neg_neg, Int.toNat_natCast, ← hmissing, ← hpadded, String.toList_ofList]
    refine readsNear_point hn ?_ ?_ (by rwa [hwhole]) (by rwa [hwhole]) ?_
    · rw [← List.length_pos_iff, List.length_take]
      omega
    · rw [List.length_drop]
      omega
    · rw [List.length_take]
      omega

theorem high_lt_ten_pow (h : x.IsSignificant) :
    ((neighbourhood x).high * 2 ^ (neighbourhood x).power : ℚ) < 10 ^ (400 : ℤ) := by
  have hsmall : 4 * x.significand + 2 ≤ 2 ^ 56 := by
    have hlt := h.significant.small
    norm_num at hlt ⊢
    omega
  have hexponent : x.exponent - 2 ≤ 969 := by
    have hle := h.significant.high
    omega
  calc ((4 * x.significand + 2 : ℕ) * 2 ^ (x.exponent - 2) : ℚ) ≤ 2 ^ (56 : ℤ) * 2 ^ (969 : ℤ) := by
        refine mul_le_mul ?_ (two_zpow_le hexponent) (by positivity) (by positivity)
        exact_mod_cast hsmall
    _ = 2 ^ (1025 : ℤ) := by rw [← zpow_add₀ (by norm_num)]; rfl
    _ < 2 ^ (3 * 400 : ℤ) := (zpow_lt_zpow_iff_right₀ (by norm_num)).mpr (by norm_num)
    _ ≤ 10 ^ (400 : ℤ) := by
        rw [zpow_mul]
        exact zpow_le_zpow_left₀ (by norm_num) (by norm_num) (by norm_num)

/-- The text of the magnitude of a double is read as its word without the sign. -/
theorem magnitude?_shortest (h : x.IsSignificant) :
    ∃ y, magnitude? (positional (shortest x).1 (shortest x).2).toList = some y
    ∧ y.bits.toNat = x.bits.toNat % 2 ^ 63 := by
  obtain ⟨point, step, hshortest, hpoint, hholds⟩ := shortest_sound h
  rw [hshortest]
  obtain ⟨num, den, hread, hnum, hden, hvalue⟩ :=
    readsNear_positional hpoint (lt_of_le_of_lt hholds.high (high_lt_ten_pow h))
  refine ⟨_, hread, ?_⟩
  rw [h.word]
  refine bits_nearest_of_near h.significant hnum hden (near_of_holds h hholds) ?_
  rw [hvalue, div_mul_cancel₀ _ (by positivity)]

theorem double?_signed (hbody : magnitude? body.toList = some y)
    (hbits : y.bits.toNat = x.bits.toNat % 2 ^ 63) :
    double? ((if x.isNegative then "-" else "") ++ body) = some x := by
  cases hnegative : x.isNegative with
  | true =>
    have htext : ("-" ++ body).toList = '-' :: body.toList := by rw [String.toList_append]; rfl
    rw [if_pos rfl, double?, htext]
    show (magnitude? body.toList).map negate = _
    rw [hbody, Option.map_some, negate_of_isNegative hnegative hbits]
  | false =>
    have hlt : x.bits.toNat < 2 ^ 63 := by
      rw [← Nat.not_le, ← isNegative_iff, hnegative]
      exact Bool.false_ne_true
    have hsame : y = x := eq_of_toNat (hbits.trans (Nat.mod_eq_of_lt hlt))
    rw [if_neg Bool.false_ne_true, String.empty_append, double?]
    split
    · rename_i cs htext
      rw [htext, magnitude?_of_sign (.inl rfl)] at hbody
      cases hbody
    · rename_i cs htext
      rw [htext, magnitude?_of_sign (.inr rfl)] at hbody
      cases hbody
    · rw [hbody, hsame]

theorem double?_doubleText (x : Double) : double? (doubleText x) = some x.canonical := by
  unfold doubleText canonical
  split
  · rfl
  simp only
  rename_i hnumber
  split
  · rename_i hinfinite
    exact double?_signed rfl (magnitude_of_isInfinite hinfinite).symm
  rename_i hfinite
  split
  · rename_i hzero
    exact double?_signed rfl (magnitude_of_significand hzero).symm
  · rename_i hnonzero
    have hsignificant : x.IsSignificant := by
      refine ⟨?_, hnonzero⟩
      have hlt : x.exponentField < 2 ^ 11 := by
        rw [exponentField_eq]
        exact Nat.mod_lt _ (by norm_num)
      simp only [isNaN, isInfinite] at hnumber hfinite
      by_contra hge
      have hfield : x.exponentField = 0x7FF := by omega
      simp [hfield] at hnumber hfinite
      exact hfinite hnumber
    obtain ⟨y, hread, hbits⟩ := magnitude?_shortest hsignificant
    exact double?_signed hread hbits

end Decimal

end TypeLoom
