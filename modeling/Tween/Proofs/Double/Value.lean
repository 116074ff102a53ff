/-
The real number a finite double stands for. It is the place of the double among
all doubles, counted in units of the number one (`toReal_eq`), so a double that
is a whole number stands for its integer (`IsWhole.toReal`).
-/
import Tween.Proofs.Double.Whole

namespace Tween

/-- The real number that a finite value stands for. -/
noncomputable def Exact.toReal : Exact → ℝ
  | .finite negative mantissa exponent =>
    (if negative then -1 else 1) * mantissa * ((2 : ℕ) : ℝ) ^ exponent
  | _ => 0

namespace Double

open Float.Model Float.Model.UnpackedFloat

/-- The real number that a finite double stands for. -/
noncomputable def toReal (x : Float) : ℝ := (Exact.ofDouble x).toReal

variable {x : Float} {z : Int}

theorem apply_cast (s : Sign) (n : Nat) :
    ((s.apply n : Int) : ℝ) = (if isNegative s then -1 else 1) * n := by
  cases s <;> simp [Sign.apply, isNegative]

theorem unit_ne_zero : (unit : ℝ) ≠ 0 :=
  Nat.cast_ne_zero.2 (magnitude_pos one_pos).ne'

theorem magnitude_div_unit {m : Nat} {e : Int} (h : -1074 ≤ e) :
    (magnitude m e : ℝ) / unit = m * (2 : ℝ) ^ e := by
  have hunit : (unit : ℝ) = (2 : ℝ) ^ ((0 : Int) + 1074) := by
    rw [unit, magnitude, Nat.one_mul, Nat.cast_pow, Nat.cast_ofNat, ← zpow_natCast]
    rfl
  have hpower : (2 : ℝ) ^ (e + 1074).toNat = (2 : ℝ) ^ e * unit := by
    rw [hunit, ← zpow_natCast, Int.toNat_of_nonneg (by omega), zero_add, zpow_add₀ two_ne_zero]
  rw [div_eq_iff unit_ne_zero, magnitude, Nat.cast_mul, Nat.cast_pow, Nat.cast_ofNat, hpower,
    mul_assoc]

/-- **A finite double counts its real number** in units of one. -/
theorem toReal_eq (h : x.isFinite = true) : toReal x = level (unpacked x) / unit := by
  have hbounds := unpacked_canonical x
  have hfinite : (unpacked x).isFinite = true := h
  unfold toReal
  rw [ofDouble_eq]
  generalize unpacked x = u at hbounds hfinite
  rcases finite_cases hfinite with ⟨s, rfl⟩ | ⟨s, m, e, hpos, rfl⟩
  · rw [exact, Exact.toReal, level, Nat.cast_zero, mul_zero, zero_mul, Int.cast_zero, zero_div]
  · rw [exact, Exact.toReal, level, apply_cast, mul_div_assoc, magnitude_div_unit hbounds.least_le,
      mul_assoc, Nat.cast_ofNat]

/-! ## Whole numbers -/

theorem IsWhole.isFinite (h : IsWhole x z) (hz : z.natAbs < 2 ^ 53) : x.isFinite = true := by
  rcases num_cases h.isNum with ⟨s, hinf⟩ | hfinite
  · have hlevel := congrArg Int.natAbs h.level
    rw [hinf, Double.level, natAbs_apply, Int.natAbs_mul, Int.natAbs_natCast] at hlevel
    exact absurd hlevel (mul_unit_lt_ceiling hz).ne'
  · exact hfinite

/-- **A whole number stands for its integer.** -/
theorem IsWhole.toReal (h : IsWhole x z) (hz : z.natAbs < 2 ^ 53) : toReal x = z := by
  rw [toReal_eq (h.isFinite hz), h.level, Int.cast_mul, Int.cast_natCast,
    mul_div_cancel_right₀ _ unit_ne_zero]

theorem IsWhole.neg (h : IsWhole x z) : IsWhole (-x) (-z) :=
  ⟨isNum_neg h.isNum, by rw [level_neg, h.level, Int.neg_mul]⟩

end Double

end Tween
