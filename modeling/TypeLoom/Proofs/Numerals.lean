import TypeLoom.Program.Display
import TypeLoom.Artifact.Reference
import TypeLoom.Proofs.Attempts

/-!
# Numbers read back

Whole numbers are written in decimal digits, and reading the digits gives the number again.
-/

namespace TypeLoom

namespace Decimal

/-! ### Digits -/

theorem digit?_of_isDigit {c : Char} (h : c.isDigit = true) :
    digit? c = some (c.toNat - '0'.toNat) := by
  have hrange : '0' ≤ c ∧ c ≤ '9' := by simpa [Char.isDigit, Char.le_def] using h
  rw [digit?, if_pos hrange]

theorem digits?_eq_ofDigitChars {cs : List Char} (hne : cs ≠ []) (h : ∀ c ∈ cs, c.isDigit = true) :
    digits? cs = some (Nat.ofDigitChars 10 cs 0) := by
  have hfold : ∀ (cs : List Char) (total : Nat), (∀ c ∈ cs, c.isDigit = true) →
      cs.foldl (fun total c => do return 10 * (← total) + (← digit? c)) (some total) =
        some (Nat.ofDigitChars 10 cs total) := by
    intro cs
    induction cs with
    | nil => exact fun _ _ => rfl
    | cons c cs ih =>
      intro total h
      obtain ⟨hc, hcs⟩ := List.forall_mem_cons.mp h
      have hstep : (do return 10 * (← some total) + (← digit? c))
          = some (10 * total + (c.toNat - '0'.toNat)) := by
        rw [digit?_of_isDigit hc]
        rfl
      rw [List.foldl_cons, hstep, ih _ hcs, Nat.ofDigitChars_cons]
  cases cs with
  | nil => exact absurd rfl hne
  | cons c cs => exact hfold (c :: cs) 0 h

theorem isDigit_of_mem_toDigits {n : Nat} {c : Char} (h : c ∈ Nat.toDigits 10 n) :
    c.isDigit = true :=
  Nat.isDigit_of_mem_toDigits (by decide) (by decide) h

theorem toDigits_injective {k m : Nat} (h : Nat.toDigits 10 k = Nat.toDigits 10 m) : k = m :=
  calc
    k = Nat.ofDigitChars 10 (Nat.toDigits 10 k) 0 := Nat.ofDigitChars_ten_toDigits.symm
    _ = Nat.ofDigitChars 10 (Nat.toDigits 10 m) 0 := by rw [h]
    _ = m := Nat.ofDigitChars_ten_toDigits

theorem digits?_toDigits (n : Nat) : digits? (Nat.toDigits 10 n) = some n := by
  rw [digits?_eq_ofDigitChars Nat.toDigits_ne_nil fun _ => isDigit_of_mem_toDigits,
    Nat.ofDigitChars_ten_toDigits]

/-! ### Whole numbers -/

-- digits never start with a sign, so the cases for signs do not apply to them

theorem natural?_toDigits (n : Nat) : natural? (Nat.toDigits 10 n) = some n := by
  unfold natural?
  split
  · rename_i cs heq
    have hplus : '+'.isDigit = true :=
      isDigit_of_mem_toDigits (n := n) (by rw [heq]; exact List.mem_cons_self)
    exact absurd hplus (by decide)
  · exact digits?_toDigits n

theorem integer?_toDigits (n : Nat) : integer? (Nat.toDigits 10 n) = some (n : Int) := by
  unfold integer?
  split
  · rename_i cs heq
    have hminus : '-'.isDigit = true :=
      isDigit_of_mem_toDigits (n := n) (by rw [heq]; exact List.mem_cons_self)
    exact absurd hminus (by decide)
  · rw [natural?_toDigits]
    rfl

theorem integer?_toString (z : Int) : integer? (toString z).toList = some z := by
  cases z with
  | ofNat n =>
    have htext : (toString (Int.ofNat n)).toList = Nat.toDigits 10 n := Nat.toList_repr
    rw [htext, integer?_toDigits]
    rfl
  | negSucc n =>
    have htext : (toString (Int.negSucc n)).toList = '-' :: Nat.toDigits 10 (n + 1) := by
      rw [← Nat.toList_repr, Int.toString_eq_repr, Int.repr, String.toList_append]
      rfl
    rw [htext, integer?, digits?_toDigits]
    rfl

theorem boundedNatural?_toString {bound n : Nat} (h : n < bound) :
    boundedNatural? bound (toString n) = some n := by
  have htext : (toString n).toList = Nat.toDigits 10 n := Nat.toList_repr
  rw [boundedNatural?, htext, natural?_toDigits]
  simp [Option.filter, h]

theorem boundedInteger?_toString {bits : Nat} {z : Int} (hlow : -(twoTo (bits - 1) : Int) ≤ z)
    (hhigh : z < twoTo (bits - 1)) : boundedInteger? bits (toString z) = some z := by
  rw [boundedInteger?, integer?_toString]
  simp [Option.filter, hlow, hhigh]

theorem boolean?_boolText (b : Bool) : boolean? (boolText b) = some b := by
  cases b <;> rfl

end Decimal

/-! ### Attributes -/

namespace Artifact

open Decimal Markup

theorem readIndex_toString (index : UInt16) : readIndex (toString index.toNat) = some index := by
  have hlt : index.toNat < twoTo 16 := index.toNat_lt
  rw [readIndex, boundedNatural?_toString hlt, Option.map_some, UInt16.ofNat_toNat]

theorem readInt32_toString (value : Int32) : readInt32 (toString value.toInt) = some value := by
  rw [readInt32, boundedInteger?_toString value.le_toInt value.toInt_lt, Option.map_some,
    Int32.ofInt_toInt]

theorem readInt64_toString (value : Int64) : readInt64 (toString value.toInt) = some value := by
  rw [readInt64, boundedInteger?_toString value.le_toInt value.toInt_lt, Option.map_some,
    Int64.ofInt_toInt]

variable {α : Type} {n : Node} {key text : String}

theorem require_of_get? (h : n.get? key = some text) : n.require key = .ok text := by
  rw [Node.require, h]

theorem readAttribute_of_get? {read : String → Option α} {value : α} (h : n.get? key = some text)
    (hread : read text = some value) : readAttribute n key read = .ok value := by
  refine bind_eq_ok.mpr ⟨text, require_of_get? h, ?_⟩
  rw [hread]
  rfl

theorem readFlags_of_get? {flags : UInt32} (h : n.get? "flags" = some (toString flags.toNat)) :
    readFlags n = .ok flags := by
  have hlt : flags.toNat < twoTo 32 := flags.toNat_lt
  refine bind_eq_ok.mpr ⟨_, require_of_get? h, ?_⟩
  rw [boundedNatural?_toString hlt]
  exact congrArg Except.ok UInt32.ofNat_toNat

end Artifact

end TypeLoom
