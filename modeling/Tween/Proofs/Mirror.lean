/-
The curves of a family over exact numbers. The curve that is slow at the end is
the one that is slow at the start, run backwards, and the one that is slow on
both sides is made of two halves of it (`Ease.family_mirrored`). So every family
rises from 0 to 1 as its first curve does (`Ease.apply_rises`).
-/
import Tween.Proofs.Curve

namespace Tween

open Set (Icc)

variable {A : Arithmetic} {p q u v x y : A.Number}

/-! ## Progress on either side -/

namespace Arithmetic

namespace Number

theorem clampUnit_eq (p : A.Number) : Scalar.clampUnit p = min (max p 0) 1 := by
  unfold Scalar.clampUnit
  norm_num
  by_cases hneg : p < 0
  · simp [hneg, hneg.le, not_lt.2 (zero_le_one' A.Number)]
  · by_cases hlarge : 1 < p
    · simp [hneg, hlarge, hlarge.le]
    · simp [hneg, hlarge, not_lt.1 hneg, not_lt.1 hlarge]

theorem clampUnit_mono (h : p ≤ q) : Scalar.clampUnit p ≤ Scalar.clampUnit q := by
  rw [clampUnit_eq, clampUnit_eq]
  exact min_le_min_right 1 (max_le_max_right 0 h)

theorem clampUnit_of_nonpos (h : p ≤ 0) : Scalar.clampUnit p = 0 := by
  rw [clampUnit_eq, max_eq_right h, min_eq_left zero_le_one]

theorem clampUnit_of_one_le (h : 1 ≤ p) : Scalar.clampUnit p = 1 := by
  rw [clampUnit_eq, max_eq_left (zero_le_one.trans h), min_eq_right h]

theorem clampUnit_rest (p : A.Number) : Scalar.clampUnit (1 - p) = 1 - Scalar.clampUnit p := by
  rcases le_total p 0 with hneg | hpos
  · rw [clampUnit_of_nonpos hneg, clampUnit_of_one_le (by linarith), sub_zero]
  · rcases le_total 1 p with hlarge | hsmall
    · rw [clampUnit_of_one_le hlarge, clampUnit_of_nonpos (by linarith), sub_self]
    · rw [clampUnit_of_mem ⟨hpos, hsmall⟩,
        clampUnit_of_mem ⟨by linarith, by linarith⟩]

theorem clampUnit_double (h : p < 2⁻¹) : Scalar.clampUnit (2 * p) = 2 * Scalar.clampUnit p := by
  rcases le_total p 0 with hneg | hpos
  · rw [clampUnit_of_nonpos hneg, clampUnit_of_nonpos (by linarith), mul_zero]
  · norm_num at h
    rw [clampUnit_of_mem ⟨hpos, by linarith⟩, clampUnit_of_mem ⟨by linarith, by linarith⟩]

end Number

/-- Sine and cosine take the same values in opposite order, and cosine the
opposite values beyond a right angle. -/
structure MirrorsAngles (A : Arithmetic) : Prop where
  sin_eq : ∀ x, A.sin x = A.cos (A.pi / 2 - x)
  cos_pi_sub : ∀ x, A.cos (A.pi - x) = -A.cos x

theorem mirrorsAngles_real : real.MirrorsAngles where
  sin_eq x := (Real.cos_pi_div_two_sub x).symm
  cos_pi_sub := Real.cos_pi_sub

namespace MirrorsAngles

theorem sin_quarter (hA : A.MirrorsAngles) (u : A.Number) :
    Scalar.sin (u * (Scalar.pi * 2⁻¹)) = Scalar.cos ((1 - u) * (Scalar.pi * 2⁻¹)) := by
  have hangle (x : ℝ) : A.pi / 2 - x * (A.pi * 2⁻¹) = (1 - x) * (A.pi * 2⁻¹) := by ring
  exact (hA.sin_eq _).trans (congrArg A.cos (hangle u))

theorem cos_half (hA : A.MirrorsAngles) (u : A.Number) :
    Scalar.cos (Scalar.pi * (1 - u)) = -Scalar.cos (Scalar.pi * u) := by
  have hangle (x : ℝ) : A.pi * (1 - x) = A.pi - A.pi * x := by ring
  exact (congrArg A.cos (hangle u)).trans (hA.cos_pi_sub _)

end MirrorsAngles

end Arithmetic

namespace Ease

variable {f : Family} {i o b : Ease}

theorem exists_into (f : Family) : ∃ i, of? f .into = some i := by cases f <;> exact ⟨_, rfl⟩

theorem exists_outOf (f : Family) : ∃ o, of? f .outOf = some o := by cases f <;> exact ⟨_, rfl⟩

/-- **The curve that is slow at the end** is the one that is slow at the start,
run backwards. Only for the sine this rests on the functions. -/
theorem apply_outOf (hA : f = .sine → A.MirrorsAngles) (hi : of? f .into = some i)
    (ho : of? f .outOf = some o) (hu : u ∈ Icc (0 : A.Number) 1) :
    o.apply u = 1 - i.apply (1 - u) := by
  have hrest : 1 - u ∈ Icc (0 : A.Number) 1 := ⟨by linarith [hu.2], by linarith [hu.1]⟩
  have hclamp := Arithmetic.Number.clampUnit_of_mem hu
  have hclampRest := Arithmetic.Number.clampUnit_of_mem hrest
  cases f with
  | quad =>
    cases hi
    cases ho
    norm_num [apply, hclamp, hclampRest]
  | cubic =>
    cases hi
    cases ho
    norm_num [apply, hclamp, hclampRest, cube]
    ring
  | quart =>
    cases hi
    cases ho
    norm_num [apply, hclamp, hclampRest, fourth]
  | sine =>
    cases hi
    cases ho
    have hsin := (hA rfl).sin_quarter u
    simp only [apply, hclamp, hclampRest, Arithmetic.Number.half_eq, mul_assoc, hsin]
    norm_num
  | expo =>
    cases hi
    cases ho
    have hexponent : 10 * (1 - u) - 10 = -(10 * u) := by ring
    norm_num [apply, hclamp, hclampRest, hexponent]
    split <;> simp
  | circ =>
    cases hi
    cases ho
    have hsquare : (u - 1) * (u - 1) = (1 - u) * (1 - u) := by ring
    norm_num [apply, hclamp, hclampRest, square, hsquare]
  | back =>
    cases hi
    cases ho
    exact apply_outBack hu

/-- **Before the middle** the curve that is slow on both sides is the one that
is slow at the start, at twice the pace and half the height. -/
theorem apply_both_early (hi : of? f .into = some i) (hb : of? f .both = some b) (h0 : 0 ≤ u)
    (h : u < 2⁻¹) : b.apply u = i.apply (2 * u) * 2⁻¹ := by
  have h' := h
  norm_num at h'
  have hclamp : Scalar.clampUnit u = u :=
    Arithmetic.Number.clampUnit_of_mem ⟨h0, by linarith⟩
  have hclampDouble : Scalar.clampUnit (2 * u) = 2 * u :=
    Arithmetic.Number.clampUnit_of_mem ⟨by linarith, by linarith⟩
  have hearly : u < 0.5 := by
    norm_num
    exact h'
  cases f with
  | quad =>
    cases hi
    cases hb
    simp only [apply, hclamp, hclampDouble, if_pos hearly]
    norm_num
    ring
  | cubic =>
    cases hi
    cases hb
    simp only [apply, hclamp, hclampDouble, if_pos hearly]
    norm_num
    ring
  | quart =>
    cases hi
    cases hb
    simp only [apply, hclamp, hclampDouble, if_pos hearly, fourth]
    norm_num
    ring
  | sine =>
    cases hi
    cases hb
    have hangle : Scalar.pi * u = 2 * u * Scalar.pi * 2⁻¹ := by ring
    simp only [apply, hclamp, hclampDouble, Arithmetic.Number.half_eq, hangle]
    norm_num
  | expo | circ | back => cases hb

/-- **From the middle on** it is the same curve, run backwards. -/
theorem apply_both_late (hA : f = .sine → A.MirrorsAngles) (hi : of? f .into = some i)
    (hb : of? f .both = some b) (h : 2⁻¹ ≤ u) (h1 : u ≤ 1) :
    b.apply u = 1 - i.apply (2 * (1 - u)) * 2⁻¹ := by
  have h' := h
  norm_num at h'
  have hclamp : Scalar.clampUnit u = u :=
    Arithmetic.Number.clampUnit_of_mem ⟨by linarith, h1⟩
  have hclampDouble : Scalar.clampUnit (2 * (1 - u)) = 2 * (1 - u) :=
    Arithmetic.Number.clampUnit_of_mem ⟨by linarith, by linarith⟩
  have hlate : ¬ u < 0.5 := by
    norm_num
    exact h'
  cases f with
  | quad =>
    cases hi
    cases hb
    simp only [apply, hclamp, hclampDouble, if_neg hlate, Arithmetic.Number.half_eq, square]
    norm_num
    ring
  | cubic =>
    cases hi
    cases hb
    simp only [apply, hclamp, hclampDouble, if_neg hlate, Arithmetic.Number.half_eq, cube]
    norm_num
    ring
  | quart =>
    cases hi
    cases hb
    simp only [apply, hclamp, hclampDouble, if_neg hlate, Arithmetic.Number.half_eq, fourth]
    norm_num
    ring
  | sine =>
    cases hi
    cases hb
    have hangle : 2 * (1 - u) * Scalar.pi * 2⁻¹ = Scalar.pi * (1 - u) := by ring
    have hcos := (hA rfl).cos_half u
    simp only [apply, hclamp, hclampDouble, Arithmetic.Number.half_eq, hangle, hcos]
    norm_num
    ring
  | expo | circ | back => cases hb

theorem apply_into_one (hA : f = .sine → A.MirrorsAngles) (hi : of? f .into = some i)
    (hb : of? f .both = some b) : i.apply (1 : A.Number) = 1 := by
  have hclamp : Scalar.clampUnit (1 : A.Number) = 1 :=
    Arithmetic.Number.clampUnit_of_one_le (le_refl 1)
  cases f with
  | quad | cubic | quart =>
    cases hi
    norm_num [apply, hclamp, fourth]
  | sine =>
    cases hi
    -- The right angle lies as far from its own supplement as from nothing.
    have hhalf : (1 : A.Number) - 2⁻¹ = 2⁻¹ := by norm_num
    have hcos := (hA rfl).cos_half (2⁻¹ : A.Number)
    rw [hhalf, self_eq_neg] at hcos
    simp only [apply, hclamp, Arithmetic.Number.half_eq, one_mul, hcos]
    norm_num
  | expo | circ | back => cases hb

/-- A curve that is slow on both sides stays the same when it is run
backwards. -/
theorem apply_both (hA : f = .sine → A.MirrorsAngles) (hb : of? f .both = some b)
    (hu : u ∈ Icc (0 : A.Number) 1) : b.apply u = 1 - b.apply (1 - u) := by
  obtain ⟨h0, h1⟩ := hu
  obtain ⟨i, hi⟩ := exists_into f
  have hhalf : (1 : A.Number) - 2⁻¹ = 2⁻¹ := by norm_num
  rcases lt_trichotomy u 2⁻¹ with hlt | rfl | hgt
  · rw [apply_both_early hi hb h0 hlt, apply_both_late hA hi hb (by linarith) (by linarith),
      sub_sub_cancel, sub_sub_cancel]
  · rw [hhalf, apply_both_late hA hi hb (le_refl _) h1, hhalf]
    norm_num [apply_into_one hA hi hb]
  · rw [apply_both_late hA hi hb hgt.le h1,
      apply_both_early hi hb (by linarith) (by linarith)]

/-- **The curves of a family mirror each other.** At every progress, the curve
that is slow at the end is the one that is slow at the start, run backwards. One
that is slow on both sides stays the same when it is run backwards, and before
the middle it is the curve that is slow at the start, at twice the pace and half
the height. Of the functions this needs that sine and cosine mirror each other. -/
theorem family_mirrored (hA : A.MirrorsAngles) (f : Family) (p : A.Number) :
    ∃ i o, of? f .into = some i ∧ of? f .outOf = some o ∧ o.apply p = 1 - i.apply (1 - p) ∧
      ∀ b, of? f .both = some b → b.apply p = 1 - b.apply (1 - p) ∧
        (p < 2⁻¹ → b.apply p = i.apply (2 * p) * 2⁻¹) := by
  obtain ⟨i, hi⟩ := exists_into f
  obtain ⟨o, ho⟩ := exists_outOf f
  have hu := Arithmetic.Number.clampUnit_mem p
  refine ⟨i, o, hi, ho, ?_, fun b hb => ⟨?_, fun hp => ?_⟩⟩
  · rw [← apply_clampUnit o, apply_outOf (fun _ => hA) hi ho hu,
      ← Arithmetic.Number.clampUnit_rest, apply_clampUnit]
  · rw [← apply_clampUnit b, apply_both (fun _ => hA) hb hu,
      ← Arithmetic.Number.clampUnit_rest, apply_clampUnit]
  · have hearly : Scalar.clampUnit p < 2⁻¹ := by
      rw [Arithmetic.Number.clampUnit_eq]
      exact min_lt_of_left_lt (max_lt hp (by norm_num))
    rw [← apply_clampUnit b, apply_both_early hi hb hu.1 hearly,
      ← Arithmetic.Number.clampUnit_double hp, apply_clampUnit]

/-- A quarter of the way along the sine, the three curves of the family. -/
theorem family_mirrored_sine :
    Arithmetic.real.MirrorsAngles ∧ (0.25 : Arithmetic.real.Number) < 2⁻¹ ∧
      outSine.apply (0.25 : Arithmetic.real.Number) = 1 - inSine.apply (1 - 0.25) ∧
      inOutSine.apply (0.25 : Arithmetic.real.Number) = 1 - inOutSine.apply (1 - 0.25) ∧
      inOutSine.apply (0.25 : Arithmetic.real.Number) = inSine.apply (2 * 0.25) * 2⁻¹ := by
  have hearly : (0.25 : Arithmetic.real.Number) < 2⁻¹ := by norm_num
  obtain ⟨i, o, hi, ho, hout, hboth⟩ :=
    family_mirrored Arithmetic.mirrorsAngles_real .sine (0.25 : Arithmetic.real.Number)
  cases hi
  cases ho
  obtain ⟨hsame, hhalf⟩ := hboth inOutSine rfl
  exact ⟨Arithmetic.mirrorsAngles_real, hearly, hout, hsame, hhalf hearly⟩

end Ease

/-! ## Rising -/

namespace Arithmetic

theorem Usual.cos_half_anti (hA : A.Usual) (hu : u ∈ Icc (0 : A.Number) 1)
    (hv : v ∈ Icc (0 : A.Number) 1) (h : u ≤ v) :
    Scalar.cos (v * Scalar.pi) ≤ Scalar.cos (u * Scalar.pi) := by
  have hangle : u * Scalar.pi ≤ v * Scalar.pi := mul_le_mul_of_nonneg_right h hA.pi_nonneg
  exact hA.cos_antitone (mul_mem_Icc hA.pi_nonneg hu) (mul_mem_Icc hA.pi_nonneg hv) hangle

theorem Usual.cos_quarter_anti (hA : A.Usual) (hu : u ∈ Icc (0 : A.Number) 1)
    (hv : v ∈ Icc (0 : A.Number) 1) (h : u ≤ v) :
    Scalar.cos (v * (Scalar.pi * 2⁻¹)) ≤ Scalar.cos (u * (Scalar.pi * 2⁻¹)) := by
  have hhalf : (2⁻¹ : A.Number) ∈ Icc (0 : A.Number) 1 := by constructor <;> norm_num
  have hmem (w : A.Number) (hw : w ∈ Icc (0 : A.Number) 1) := Ease.mul_mem_unit hw hhalf
  have hcos := hA.cos_half_anti (hmem u hu) (hmem v hv) (mul_le_mul_of_nonneg_right h hhalf.1)
  simpa only [mul_assoc, mul_comm Scalar.pi] using hcos

theorem Usual.sin_quarter_mono (hA : A.Usual) (hu : u ∈ Icc (0 : A.Number) 1)
    (hv : v ∈ Icc (0 : A.Number) 1) (h : u ≤ v) :
    Scalar.sin (u * (Scalar.pi * 2⁻¹)) ≤ Scalar.sin (v * (Scalar.pi * 2⁻¹)) := by
  have hangle : u * (Scalar.pi * 2⁻¹) ≤ v * (Scalar.pi * 2⁻¹) :=
    mul_le_mul_of_nonneg_right h hA.half_pi_nonneg
  exact hA.sin_monotone (mul_mem_Icc hA.half_pi_nonneg hu) (mul_mem_Icc hA.half_pi_nonneg hv)
    hangle

theorem Usual.sqrt_mono (hA : A.Usual) (hx : 0 ≤ x) (h : x ≤ y) :
    Scalar.sqrt x ≤ Scalar.sqrt y :=
  hA.sqrt_monotone hx (hx.trans h) h

theorem Usual.exp_mono (hA : A.Usual) (h : x ≤ y) :
    Scalar.pow (2.0 : A.Number) x ≤ Scalar.pow 2.0 y := by
  have htwo : (2.0 : A.Number) = 2 := by norm_num
  rw [htwo]
  exact hA.exp_monotone h

end Arithmetic

namespace Ease

variable {f : Family} {i o b e : Ease}

/-- The curve that is slow at the start rises, in every family that does not
overshoot. -/
theorem apply_into_mono (hA : A.Usual) (hback : f ≠ .back) (hi : of? f .into = some i)
    (hu : u ∈ Icc (0 : A.Number) 1) (hv : v ∈ Icc (0 : A.Number) 1) (h : u ≤ v) :
    i.apply u ≤ i.apply v := by
  have h0 : 0 ≤ u := hu.1
  have hclamp := Arithmetic.Number.clampUnit_of_mem hu
  have hclampLater := Arithmetic.Number.clampUnit_of_mem hv
  have hsquare : u * u ≤ v * v := mul_self_le_mul_self h0 h
  cases f with
  | quad =>
    cases hi
    simp only [apply, hclamp, hclampLater]
    exact hsquare
  | cubic =>
    cases hi
    simp only [apply, hclamp, hclampLater]
    exact mul_le_mul hsquare h h0 (mul_self_nonneg v)
  | quart =>
    cases hi
    simp only [apply, hclamp, hclampLater, fourth]
    exact mul_self_le_mul_self (mul_self_nonneg u) hsquare
  | sine =>
    cases hi
    simp only [apply, hclamp, hclampLater, Arithmetic.Number.half_eq, mul_assoc]
    exact sub_le_sub_left (hA.cos_quarter_anti hu hv h) _
  | expo =>
    cases hi
    -- At its start the curve is 0, though the exponential there is not.
    by_cases hstart : u ≤ 0.0
    · have hzero : inExpo.apply u = 0 := by
        simp only [apply, hclamp, if_pos hstart]
        norm_num
      rw [hzero]
      exact (apply_mem_unit hA (by decide) (by decide) v).1
    · have hlater : ¬ v ≤ 0.0 := fun hle => hstart (h.trans hle)
      simp only [apply, hclamp, hclampLater, if_neg hstart, if_neg hlater]
      refine hA.exp_mono (sub_le_sub_right (mul_le_mul_of_nonneg_left h ?_) _)
      norm_num
  | circ =>
    cases hi
    simp only [apply, hclamp, hclampLater]
    exact sub_le_sub_left (hA.sqrt_mono (rest_mem_unit (mul_mem_unit hv hv)).1
      (sub_le_sub_left hsquare _)) _
  | back => exact absurd rfl hback

/-- So does the one that is slow at the end. -/
theorem apply_outOf_mono (hA : A.Usual) (hback : f ≠ .back) (ho : of? f .outOf = some o)
    (hu : u ∈ Icc (0 : A.Number) 1) (hv : v ∈ Icc (0 : A.Number) 1) (h : u ≤ v) :
    o.apply u ≤ o.apply v := by
  by_cases hsine : f = .sine
  · subst hsine
    cases ho
    simp only [apply, Arithmetic.Number.clampUnit_of_mem hu, Arithmetic.Number.clampUnit_of_mem hv,
      Arithmetic.Number.half_eq, mul_assoc]
    exact hA.sin_quarter_mono hu hv h
  · obtain ⟨i, hi⟩ := exists_into f
    have hmirror (w : A.Number) (hw : w ∈ Icc (0 : A.Number) 1) :=
      apply_outOf (fun hf => absurd hf hsine) hi ho hw
    have hrest (w : A.Number) (hw : w ∈ Icc (0 : A.Number) 1) : 1 - w ∈ Icc (0 : A.Number) 1 :=
      ⟨by linarith [hw.2], by linarith [hw.1]⟩
    rw [hmirror u hu, hmirror v hv]
    exact sub_le_sub_left
      (apply_into_mono hA hback hi (hrest v hv) (hrest u hu) (sub_le_sub_left h 1)) 1

/-- So does the one that is slow on both sides, across the middle too. -/
theorem apply_both_mono (hA : A.Usual) (hb : of? f .both = some b)
    (hu : u ∈ Icc (0 : A.Number) 1) (hv : v ∈ Icc (0 : A.Number) 1) (h : u ≤ v) :
    b.apply u ≤ b.apply v := by
  by_cases hsine : f = .sine
  · subst hsine
    cases hb
    have hcos := hA.cos_half_anti hu hv h
    simp only [apply, Arithmetic.Number.clampUnit_of_mem hu, Arithmetic.Number.clampUnit_of_mem hv,
      Arithmetic.Number.half_eq, mul_comm Scalar.pi]
    norm_num
    linarith
  · have hangles : f = .sine → A.MirrorsAngles := fun hf => absurd hf hsine
    obtain ⟨i, hi⟩ := exists_into f
    have hback : f ≠ .back := by
      rintro rfl
      cases hb
    have hi' : i ≠ .inBack ∧ i ≠ .outBack := by
      cases f <;> cases hi <;> first | decide | exact absurd rfl hback
    have hunit (w : A.Number) : i.apply w ∈ Icc (0 : A.Number) 1 :=
      apply_mem_unit hA hi'.1 hi'.2 w
    by_cases hv' : v < 2⁻¹
    · have hu' : u < 2⁻¹ := h.trans_lt hv'
      have hrise : i.apply (2 * u) ≤ i.apply (2 * v) := by
        norm_num at hu' hv'
        exact apply_into_mono hA hback hi ⟨by linarith [hu.1], by linarith⟩
          ⟨by linarith [hv.1], by linarith⟩ (by linarith)
      rw [apply_both_early hi hb hu.1 hu', apply_both_early hi hb hv.1 hv']
      exact mul_le_mul_of_nonneg_right hrise (by norm_num)
    · rw [apply_both_late hangles hi hb (not_lt.1 hv') hv.2]
      by_cases hu' : u < 2⁻¹
      -- The middle lies between the two, at half the height.
      · rw [apply_both_early hi hb hu.1 hu']
        have hbefore := (hunit (2 * u)).2
        have hafter := (hunit (2 * (1 - v))).2
        norm_num
        linarith
      · have hrise : i.apply (2 * (1 - v)) ≤ i.apply (2 * (1 - u)) := by
          norm_num at hu' hv'
          exact apply_into_mono hA hback hi ⟨by linarith [hv.2], by linarith⟩
            ⟨by linarith [hu.2], by linarith⟩ (by linarith)
        rw [apply_both_late hangles hi hb (not_lt.1 hu') hu.2]
        exact sub_le_sub_left (mul_le_mul_of_nonneg_right hrise (by norm_num)) 1

theorem eq_linear_or_of? (e : Ease) :
    e = linear ∨ ∃ f ∈ Family.all, ∃ d ∈ [Direction.into, .outOf, .both], of? f d = some e := by
  cases e <;> decide

theorem apply_mono (hA : A.Usual) (hinBack : e ≠ .inBack) (houtBack : e ≠ .outBack) (h : p ≤ q) :
    e.apply p ≤ e.apply q := by
  rw [← apply_clampUnit e p, ← apply_clampUnit e q]
  have hu := Arithmetic.Number.clampUnit_mem p
  have hv := Arithmetic.Number.clampUnit_mem q
  have h := Arithmetic.Number.clampUnit_mono h
  rcases eq_linear_or_of? e with rfl | ⟨f, -, d, -, he⟩
  · simpa only [apply, Arithmetic.Number.clampUnit_of_mem hu,
      Arithmetic.Number.clampUnit_of_mem hv] using h
  · have hback : f ≠ .back := by
      rintro rfl
      cases d <;> cases he <;> contradiction
    cases d with
    | into => exact apply_into_mono hA hback he hu hv h
    | outOf => exact apply_outOf_mono hA hback he hu hv h
    | both => exact apply_both_mono hA he hu hv h

/-- **Every curve rises from 0 to 1.** Progress is 0 until it begins and 1 once
it is over. Along a curve that does not overshoot it never falls, and so it
stays between the two. -/
theorem apply_rises (hA : A.Usual) (e : Ease) :
    (∀ p : A.Number, p ≤ 0 → e.apply p = 0) ∧ (∀ p : A.Number, 1 ≤ p → e.apply p = 1) ∧
      (e ≠ .inBack → e ≠ .outBack → ∀ p q : A.Number, p ≤ q →
        0 ≤ e.apply p ∧ e.apply p ≤ e.apply q ∧ e.apply q ≤ 1) := by
  refine ⟨fun p hp => ?_, fun p hp => ?_, fun hinBack houtBack p q h => ⟨?_, ?_, ?_⟩⟩
  · rw [← apply_clampUnit, Arithmetic.Number.clampUnit_of_nonpos hp]
    exact apply_zero hA e
  · rw [← apply_clampUnit, Arithmetic.Number.clampUnit_of_one_le hp]
    exact apply_one hA e
  · exact (apply_mem_unit hA hinBack houtBack p).1
  · exact apply_mono hA hinBack houtBack h
  · exact (apply_mem_unit hA hinBack houtBack q).2

/-- The exponential curve starts at 0, jumps to the exponential and ends at 1. -/
theorem apply_rises_inExpo :
    Arithmetic.real.Usual ∧ inExpo ≠ inBack ∧ inExpo ≠ outBack ∧
      inExpo.apply (-1 : Arithmetic.real.Number) = 0 ∧
      inExpo.apply (2 : Arithmetic.real.Number) = 1 ∧
      0 ≤ inExpo.apply (0 : Arithmetic.real.Number) ∧
      inExpo.apply (0 : Arithmetic.real.Number) ≤ inExpo.apply 0.5 ∧
      inExpo.apply (0.5 : Arithmetic.real.Number) ≤ 1 := by
  obtain ⟨hbefore, hafter, hrise⟩ := apply_rises Arithmetic.usual_real inExpo
  have hle : (0 : Arithmetic.real.Number) ≤ 0.5 := by norm_num
  exact ⟨Arithmetic.usual_real, by decide, by decide, hbefore (-1) (by norm_num),
    hafter 2 (by norm_num), hrise (by decide) (by decide) 0 0.5 hle⟩

end Ease

end Tween
