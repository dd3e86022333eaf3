import Formula.Decimal.Notation
import Formula.Decimal.Shortest
import Formula.Proofs.Grammar
import Mathlib.Tactic.Ring

/-!
# Digits

The digits of a number spell that number, and none of them is a zero in front of another. Zeros
behind the digits count as powers of ten, so that the normal form of a decimal is not changed by
moving them into the exponent.
-/

namespace Formula.Decimal

variable {d : Decimal}

theorem isDigits_digitsOf (n : Nat) : Lexeme.IsDigits (digitsOf n) :=
  ⟨Nat.toDigits_ne_nil, fun _ hc => Nat.isDigit_of_mem_toDigits (by decide) (by decide) hc⟩

/-- The digits of a number spell it. -/
@[simp] theorem ofDigits_digitsOf (n : Nat) : ofDigits (digitsOf n) = n := by
  have hspelled := Nat.ofDigitChars_toDigits (b := 10) (n := n) (by decide) (by decide)
  rwa [Nat.ofDigitChars_eq_foldl] at hspelled

@[simp] theorem ofDigits_zeros (k : Nat) (cs : List Char) :
    ofDigits (List.replicate k '0' ++ cs) = ofDigits cs := by
  induction k with
  | zero => rfl
  | succ k ih => exact ih

theorem ofDigits_append_zeros (cs : List Char) (k : Nat) :
    ofDigits (cs ++ List.replicate k '0') = ofDigits cs * 10 ^ k := by
  induction k with
  | zero => simp
  | succ k ih =>
    rw [List.replicate_succ', ← List.append_assoc]
    unfold ofDigits at ih ⊢
    rw [List.foldl_append, ih]
    simp [Nat.pow_succ]
    ring

/-- The leading digit is not zero, unless the number is. -/
theorem head?_digitsOf {n : Nat} (hn : n ≠ 0) : (digitsOf n).head? ≠ some '0' := by
  induction n using Nat.strongRecOn with
  | ind n ih =>
    unfold digitsOf at ih ⊢
    by_cases hsmall : n < 10
    · rw [Nat.toDigits_of_lt_base hsmall]
      have hdigit : ∀ m < 10, m ≠ 0 → Nat.digitChar m ≠ '0' := by decide
      simpa using hdigit n hsmall hn
    · have hlarge : 10 ≤ n := Nat.le_of_not_lt hsmall
      have hhead := ih (n / 10) (by omega) (by omega)
      obtain ⟨c, tail, heq⟩ := List.exists_cons_of_ne_nil (Nat.toDigits_ne_nil (n := n / 10))
      rw [Nat.toDigits_of_base_le (by decide) hlarge, heq]
      rw [heq] at hhead
      exact hhead

theorem normalize_ten_mul (n : Nat) (e : Int) :
    normalize ⟨10 * n, e⟩ = normalize ⟨n, e + 1⟩ := by
  by_cases hn : n = 0
  · simp [hn, normalize]
  · rw [normalize, if_neg (by simpa using hn), if_pos (by simp)]
    simp

/-- Zeros at the end of the digits count as powers of ten. -/
theorem normalize_mul_pow (n k : Nat) (e : Int) :
    normalize ⟨n * 10 ^ k, e⟩ = normalize ⟨n, e + k⟩ := by
  induction k generalizing e with
  | zero => simp
  | succ k ih =>
    have hshift : n * 10 ^ (k + 1) = 10 * (n * 10 ^ k) := by
      rw [Nat.pow_succ]
      ring
    rw [hshift, normalize_ten_mul, ih]
    congr 2
    push_cast
    ring

@[simp] theorem normalize_normalize (d : Decimal) : d.normalize.normalize = d.normalize := by
  fun_induction normalize d with
  | case1 d hzero => simp [normalize]
  | case2 d hsome hten ih => exact ih
  | case3 d hsome hten => rw [normalize, if_neg hsome, if_neg hten]

theorem normalize_shortest (tie : Tie) (bits : Nat) :
    (shortest tie bits).normalize = shortest tie bits :=
  normalize_normalize _

/-- The normal form of zero has no exponent. -/
theorem exponent_eq_zero (hd : d.normalize = d) (hzero : d.digits = 0) : d.exponent = 0 := by
  rw [normalize, if_pos hzero] at hd
  rw [← hd]

/-- The normal form of a whole number is the same number. -/
theorem fraction_normalize (h : 0 ≤ d.exponent) : d.normalize.fraction = d.fraction := by
  fun_induction normalize d with
  | case1 d hzero =>
    have hden : (-d.exponent).toNat = 0 := by omega
    simp [fraction, hzero, hden]
  | case2 d hsome hten ih =>
    have hexponent : (d.exponent + 1).toNat = d.exponent.toNat + 1 := by omega
    have hnum : d.digits / 10 * 10 ^ (d.exponent + 1).toNat = d.digits * 10 ^ d.exponent.toNat := by
      rw [hexponent, Nat.pow_succ', ← Nat.mul_assoc,
        Nat.div_mul_cancel (Nat.dvd_of_mod_eq_zero hten)]
    have hden : (-(d.exponent + 1)).toNat = (-d.exponent).toNat := by omega
    rw [ih (by dsimp only; omega)]
    exact Prod.ext hnum (congrArg (Nat.pow 10) hden)
  | case3 d hsome hten => rfl

/-- Whole numbers are told apart by their normal forms. -/
theorem normalize_natural_injective {m n : Nat} (h : normalize ⟨m, 0⟩ = normalize ⟨n, 0⟩) :
    m = n := by
  have hfraction := congrArg Decimal.fraction h
  rw [fraction_normalize (Int.le_refl 0), fraction_normalize (Int.le_refl 0)] at hfraction
  simpa [fraction] using hfraction

end Formula.Decimal
