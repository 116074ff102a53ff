/-
Exact numbers for a timeline. The numbers of an arithmetic are the real numbers
with its functions (`Arithmetic.Number`), so that what is computed in any
scalars can be read without rounding. They are an ordered field, and obey the
laws that windows rest on. What is asked of the functions is
`Arithmetic.Usual`; the real functions satisfy it (`Arithmetic.usual_real`).
-/
import Mathlib.Analysis.SpecialFunctions.Pow.Real
import Mathlib.Analysis.SpecialFunctions.Trigonometric.Basic
import Tween.Proofs.Checked
import Tween.Proofs.Formula
import Tween.Proofs.Scalar

namespace Tween

namespace Arithmetic

/-- The numbers of an arithmetic: the real numbers. -/
def Number (_ : Arithmetic) : Type := ℝ

namespace Number

variable {A : Arithmetic}

noncomputable instance : Field A.Number := inferInstanceAs (Field ℝ)

noncomputable instance : LinearOrder A.Number := inferInstanceAs (LinearOrder ℝ)

instance : IsStrictOrderedRing A.Number := inferInstanceAs (IsStrictOrderedRing ℝ)

noncomputable instance : FloorRing A.Number := inferInstanceAs (FloorRing ℝ)

/-- The scalars are those of the arithmetic. Its operations are named here as
those of the field, so that the two are seen to be the same. -/
noncomputable instance : Scalar A.Number :=
  { A.scalar with
    toAdd := inferInstance
    toSub := inferInstance
    toMul := inferInstance
    toNeg := inferInstance
    toOfScientific := inferInstance
    toLT := inferInstance
    toLE := inferInstance }

theorem div_eq (x : A.Number) {y : A.Number} (h : y ≠ 0) :
    @HDiv.hDiv _ _ _ (@instHDiv A.Number Scalar.toDiv) x y = x * y⁻¹ :=
  (A.div_of_ne x h).trans (div_eq_mul_inv (G := ℝ) x y)

theorem half_eq (x : A.Number) :
    @HDiv.hDiv _ _ _ (@instHDiv A.Number Scalar.toDiv) x 2.0 = x * 2⁻¹ := by
  rw [div_eq x (by norm_num)]
  norm_num

@[simp] theorem isFinite (x : A.Number) : Scalar.isFinite x = true := rfl

@[simp] theorem isNumber (x : A.Number) : IsNumber x := le_refl x

theorem beq_iff {x y : A.Number} : (Scalar.toBEq.beq x y) = true ↔ x = y := by
  change decide ((x : ℝ) = y) = true ↔ _
  exact decide_eq_true_iff

theorem positivePart_of_nonneg {x : A.Number} (h : 0 ≤ x) : Scalar.positivePart x = x := by
  unfold Scalar.positivePart
  split
  · rfl
  · rename_i hneg
    norm_num at hneg ⊢
    linarith

theorem centiseconds_eq (x : A.Number) :
    centiseconds x = (⌊x * 100 + 1e-6⌋ : ℤ) * (100 : A.Number)⁻¹ := by
  have hfloor : Scalar.floor (x * 100.0 + 1e-6) = ((⌊x * 100.0 + 1e-6⌋ : ℤ) : A.Number) := rfl
  unfold centiseconds
  rw [hfloor, div_eq _ (by norm_num)]
  norm_num

theorem centiseconds_natCast (n : ℕ) : centiseconds (n : A.Number) = n := by
  have hfloor : ⌊(n : A.Number) * 100 + 1e-6⌋ = (n * 100 : ℕ) := by
    rw [Int.floor_eq_iff]
    push_cast
    constructor <;> norm_num
  rw [centiseconds_eq, hfloor]
  push_cast
  ring

/-- A descriptor that lasts a whole number of seconds is checked as it is made. -/
theorem normalize_make {word : String} {k : Kind} (hk : Kind.ofWord? word = some k) (p : Phase)
    {n : ℕ} (hn : 0 < n) (delay : A.Number) :
    (Descriptor.make word p (n : A.Number) delay).normalize =
      .ok ⟨k, p, n, delay, .linear, false, none, false, none, none⟩ := by
  have hpos : ¬ centiseconds (n : A.Number) ≤ 0.0 := by
    rw [centiseconds_natCast]
    norm_num
    omega
  rw [Descriptor.normalize_make hk p rfl rfl hpos, centiseconds_natCast]

instance : EqualScalar A.Number where
  beq_symm h := beq_iff.2 (beq_iff.1 h).symm
  beq_trans h h' := beq_iff.2 ((beq_iff.1 h).trans (beq_iff.1 h'))

instance : WindowScalar A.Number where
  number_left _ := le_refl _
  number_right _ := le_refl _
  le_total _ _ := le_total _ _
  le_trans := le_trans
  lt_iff := lt_iff_le_not_ge
  isFinite_zero := rfl
  isFinite_one := rfl
  one_beq_one := beq_iff.2 rfl
  zero_le_tolerance := by unfold windowTolerance; norm_num
  le_add _ h := by norm_num at h; linarith
  add_le_add _ h := by linarith
  tolerance_le_centiseconds := by
    intro x _ h
    rw [centiseconds_eq] at h ⊢
    generalize ⌊x * 100 + 1e-6⌋ = n at h ⊢
    -- A positive whole number of hundredths is at least one.
    have hpos : 0 < n := by
      by_contra hn
      have hcast : (n : A.Number) ≤ 0 := Int.cast_nonpos.2 (not_lt.1 hn)
      refine h ?_
      norm_num
      linarith
    have hone : (1 : A.Number) ≤ n := by exact_mod_cast hpos
    unfold windowTolerance
    norm_num
    linarith

end Number

/-- Whole powers are repeated products. -/
def HasWholePowers (A : Arithmetic) : Prop := ∀ (x : ℝ) (n : ℕ), A.pow x n = x ^ n

/-- The functions are the usual ones, as far as their values at the ends of the
intervals on which curves use them, their direction there, and whole powers
are concerned. -/
structure Usual (A : Arithmetic) : Prop where
  pow_whole : ∀ (x : ℝ) (n : ℕ), A.pow x n = x ^ n
  pi_pos : 0 < A.pi
  cos_antitone : AntitoneOn A.cos (Set.Icc 0 A.pi)
  cos_zero : A.cos 0 = 1
  cos_half_pi : A.cos (A.pi / 2) = 0
  cos_pi : A.cos A.pi = -1
  sin_monotone : MonotoneOn A.sin (Set.Icc 0 (A.pi / 2))
  sin_zero : A.sin 0 = 0
  sin_half_pi : A.sin (A.pi / 2) = 1
  sqrt_monotone : MonotoneOn A.sqrt (Set.Ici 0)
  sqrt_zero : A.sqrt 0 = 0
  sqrt_one : A.sqrt 1 = 1
  exp_monotone : Monotone (A.pow 2)
  exp_neg_ten : A.pow 2 (-10) = 1 / 1024

/-- The arithmetic with the real functions. -/
noncomputable def real : Arithmetic where
  pi := Real.pi
  pow x y := x ^ y
  sin := Real.sin
  cos := Real.cos
  sqrt := Real.sqrt
  overZero _ := 0

/-- The real functions are the usual ones. -/
theorem usual_real : real.Usual where
  pow_whole := Real.rpow_natCast
  pi_pos := Real.pi_pos
  cos_antitone := Real.strictAntiOn_cos.antitoneOn
  cos_zero := Real.cos_zero
  cos_half_pi := Real.cos_pi_div_two
  cos_pi := Real.cos_pi
  sin_monotone := Real.strictMonoOn_sin.monotoneOn.mono
    (Set.Icc_subset_Icc_left (by linarith [Real.pi_pos]))
  sin_zero := Real.sin_zero
  sin_half_pi := Real.sin_pi_div_two
  sqrt_monotone := Real.sqrt_monotone.monotoneOn _
  sqrt_zero := Real.sqrt_zero
  sqrt_one := Real.sqrt_one
  exp_monotone _ _ h := Real.rpow_le_rpow_of_exponent_le (by norm_num) h
  exp_neg_ten := by
    change (2 : ℝ) ^ (-10 : ℝ) = 1 / 1024
    rw [Real.rpow_neg (by norm_num)]
    norm_num

end Arithmetic

end Tween
