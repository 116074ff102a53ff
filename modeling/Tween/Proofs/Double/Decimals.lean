/-
Doubles in decimal places. The text of a double has its sign, so far as it is
not rounded to zero, and the texts of zero and one are exact.
-/
import Tween.Proofs.Double.Rounding

namespace Tween.Double

open Float.Model Float.Model.UnpackedFloat

variable {x : Float} (k : Nat)

theorem toDecimal_eq : Scalar.toDecimal k x = (exact (unpacked x)).toDecimal k := by
  rw [← ofDouble_eq]
  rfl

theorem toDecimal_finite (negative : Bool) (m : Nat) (e : Int) :
    (Exact.finite negative m e).toDecimal k =
      .finite negative (roundHalfEven (m * 2 ^ e.toNat * 10 ^ k) (2 ^ (-e).toNat)) := rfl

theorem roundHalfEven_zero {den : Nat} (h : 0 < den) : roundHalfEven 0 den = 0 := by
  simp [roundHalfEven, h]

theorem toDecimal_zero (negative : Bool) (e : Int) :
    (Exact.finite negative 0 e).toDecimal k = .finite negative 0 := by
  rw [toDecimal_finite, Nat.zero_mul, Nat.zero_mul, roundHalfEven_zero (Nat.two_pow_pos _)]

theorem lt_zero_iff (hx : IsNum x) : x < 0.0 ↔ level (unpacked x) < 0 := by
  rw [lt_iff, unpacked_zero]
  exact ⟨fun h => h.2.2, fun h => ⟨hx, isNum_zero, h⟩⟩

theorem toDecimal_of_not_neg (hx : x.isFinite = true) (h : ¬ x < 0.0) :
    ∃ negative units, Scalar.toDecimal k x = .finite negative units ∧
      (negative = true → units = 0) := by
  rw [lt_zero_iff (isNum_of_isFinite hx)] at h
  rw [toDecimal_eq]
  rcases finite_cases (u := unpacked x) hx with ⟨s, hzero⟩ | ⟨s, m, e, hpos, hm⟩
  · rw [hzero, exact, toDecimal_zero]
    exact ⟨_, _, rfl, fun _ => rfl⟩
  · rw [hm] at h ⊢
    cases s with
    | positive => exact ⟨_, _, toDecimal_finite k _ m e, fun h => absurd h Bool.false_ne_true⟩
    | negative =>
      have hmpos := magnitude_pos (e := e) hpos
      simp only [level, Sign.apply] at h
      omega

theorem toDecimal_of_neg (hx : x.isFinite = true) (h : x < 0.0) :
    ∃ units, Scalar.toDecimal k x = .finite true units ∧
      Scalar.toDecimal k (-x) = .finite false units := by
  rw [lt_zero_iff (isNum_of_isFinite hx)] at h
  rw [toDecimal_eq, toDecimal_eq, unpacked_neg]
  rcases finite_cases (u := unpacked x) hx with ⟨s, hzero⟩ | ⟨s, m, e, hpos, hm⟩
  · rw [hzero] at h
    exact absurd h (Int.lt_irrefl 0)
  · rw [hm] at h ⊢
    cases s with
    | positive => exact absurd h (Int.not_lt.2 (Int.natCast_nonneg _))
    | negative => exact ⟨_, toDecimal_finite k _ m e, toDecimal_finite k _ m e⟩

theorem toDecimal_of_beq_zero (h : (x == 0.0) = true) :
    ∃ negative, Scalar.toDecimal k x = .finite negative 0 := by
  obtain ⟨hx, -, hlevel⟩ := beq_iff.1 h
  obtain ⟨s, hzero⟩ := zero_of_level hx hlevel
  rw [toDecimal_eq, hzero]
  exact ⟨_, toDecimal_zero k _ _⟩

theorem eq_one_of_beq (h : (x == 1.0) = true) : x = 1.0 := by
  obtain ⟨-, -, heq | ⟨-, hzero⟩ | ⟨-, hzero⟩⟩ := Float.beq_iff_ne_nan_and_eq.1 h
  · exact heq
  · exact absurd hzero (by decide +kernel)
  · exact absurd hzero (by decide +kernel)

theorem unpacked_one : unpacked 1.0 = .finite .positive (2 ^ 52) (-52) (by decide) := rfl

theorem toDecimal_of_beq_one (h : (x == 1.0) = true) :
    Scalar.toDecimal k x = .finite false (10 ^ k) := by
  have hexact : roundHalfEven (10 ^ k * 2 ^ 52) (1 * 2 ^ 52) = 10 ^ k := by
    rw [roundHalfEven_scale _ 1 (Nat.two_pow_pos 52)]
    simp [roundHalfEven, Nat.mod_one]
  rw [Nat.mul_comm, Nat.one_mul] at hexact
  rw [toDecimal_eq, eq_one_of_beq h, unpacked_one, exact, toDecimal_finite]
  exact congrArg (Decimal.finite false) hexact

instance : DecimalScalar Float where
  toDecimal_of_not_neg k hx h := toDecimal_of_not_neg k hx h
  toDecimal_of_neg k hx h := toDecimal_of_neg k hx h
  toDecimal_zero k h := toDecimal_of_beq_zero k h
  toDecimal_one k h := toDecimal_of_beq_one k h

end Tween.Double
