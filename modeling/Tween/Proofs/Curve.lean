/-
Easing curves over exact numbers. The expression of a curve has the value of the
curve (`Ease.eval_curve`), so the value inside a window is the first value and
the eased part of the change (`Ease.valueExpr_follows_apply`). Progress stays
between 0 and 1 along every curve but the two that overshoot
(`Ease.apply_mem_unit`), and these go beyond by about a tenth of the way and no
more (`Ease.apply_mem_range`).
-/
import Tween.Proofs.Exact
import Tween.Proofs.Closed

namespace Tween

open Set (Icc)

variable {A : Arithmetic} {t u v x y : A.Number}

/-! ## Values -/

namespace Arithmetic

theorem Number.clampUnit_of_mem (h : u ∈ Icc (0 : A.Number) 1) : Scalar.clampUnit u = u := by
  have h0 : ¬ u < 0.0 := by
    norm_num
    exact h.1
  have h1 : ¬ 1.0 < u := by
    norm_num
    exact h.2
  unfold Scalar.clampUnit
  rw [if_neg h0]
  exact if_neg h1

theorem Number.clampUnit_mem (x : A.Number) : Scalar.clampUnit x ∈ Icc (0 : A.Number) 1 := by
  unfold Scalar.clampUnit
  norm_num
  by_cases hneg : x < 0
  · simp [hneg, not_lt.2 (zero_le_one' A.Number)]
  · by_cases hlarge : 1 < x
    · simp [hneg, hlarge]
    · simpa [hneg, hlarge] using ⟨not_lt.1 hneg, not_lt.1 hlarge⟩

theorem HasWholePowers.pow_natCast (hpow : A.HasWholePowers) (x : A.Number) (n : ℕ) :
    Scalar.pow x (n : A.Number) = x ^ n :=
  hpow x n

end Arithmetic

namespace Ease

variable {p : Expr A.Number}

theorem eval_pow_natCast (hpow : A.HasWholePowers) (hp : p.eval t = .ok x) {c : A.Number} {n : ℕ}
    (hc : c = n) : (p.pow (.const c)).eval t = .ok (x ^ n) := by
  refine (Expr.eval_pow hp rfl).trans (congrArg _ ?_)
  rw [hc, hpow.pow_natCast]

theorem eval_pow_two (hpow : A.HasWholePowers) (hp : p.eval t = .ok x) :
    (p.pow 2.0).eval t = .ok (square x) := by
  refine (eval_pow_natCast hpow hp (n := 2) (by norm_num)).trans (congrArg _ ?_)
  rw [square, sq]

theorem eval_pow_three (hpow : A.HasWholePowers) (hp : p.eval t = .ok x) :
    (p.pow 3.0).eval t = .ok (cube x) := by
  refine (eval_pow_natCast hpow hp (n := 3) (by norm_num)).trans (congrArg _ ?_)
  rw [cube]
  ring

theorem eval_pow_four (hpow : A.HasWholePowers) (hp : p.eval t = .ok x) :
    (p.pow 4.0).eval t = .ok (fourth x) := by
  refine (eval_pow_natCast hpow hp (n := 4) (by norm_num)).trans (congrArg _ ?_)
  rw [fourth]
  ring

/-- **The expression of a curve has the value of the curve** at the progress. -/
theorem eval_curve (hpow : A.HasWholePowers) (e : Ease) (hp : p.eval t = .ok u)
    (hu : u ∈ Icc (0 : A.Number) 1) : (e.curve p).eval t = .ok (e.apply u) := by
  have hrest : ((1.0 : Expr A.Number) - p).eval t = .ok (1.0 - u) := Expr.eval_sub rfl hp
  have hbefore : (p - (1.0 : Expr A.Number)).eval t = .ok (u - 1.0) := Expr.eval_sub hp rfl
  have hmirrored : (Expr.const (-2.0) * p + 2.0 : Expr A.Number).eval t = .ok (-2.0 * u + 2.0) :=
    Expr.eval_add (Expr.eval_mul rfl hp) rfl
  have hangle (c : A.Number) : (p * Expr.const c).eval t = .ok (u * c) := Expr.eval_mul hp rfl
  unfold apply
  rw [Arithmetic.Number.clampUnit_of_mem hu]
  cases e with
  | linear => exact hp
  | inQuad => exact eval_pow_two hpow hp
  | outQuad => exact Expr.eval_sub rfl (eval_pow_two hpow hrest)
  | inOutQuad =>
    refine (Expr.eval_ifLt hp rfl).trans ?_
    dsimp only
    split
    · refine (Expr.eval_mul rfl (eval_pow_two hpow hp)).trans ?_
      simp only [square, mul_assoc]
    · exact Expr.eval_sub rfl (Expr.eval_div (eval_pow_two hpow hmirrored) rfl)
  | inCubic =>
    refine (eval_pow_three hpow hp).trans ?_
    simp only [cube, mul_assoc]
  | outCubic => exact Expr.eval_sub rfl (eval_pow_three hpow hrest)
  | inOutCubic =>
    refine (Expr.eval_ifLt hp rfl).trans ?_
    dsimp only
    split
    · refine (Expr.eval_mul rfl (eval_pow_three hpow hp)).trans ?_
      simp only [cube, mul_assoc]
    · exact Expr.eval_sub rfl (Expr.eval_div (eval_pow_three hpow hmirrored) rfl)
  | inQuart => exact eval_pow_four hpow hp
  | outQuart => exact Expr.eval_sub rfl (eval_pow_four hpow hrest)
  | inOutQuart =>
    refine (Expr.eval_ifLt hp rfl).trans ?_
    dsimp only
    split
    · exact Expr.eval_mul rfl (eval_pow_four hpow hp)
    · exact Expr.eval_sub rfl (Expr.eval_div (eval_pow_four hpow hmirrored) rfl)
  | inSine =>
    refine (Expr.eval_sub rfl (Expr.eval_cos (hangle _))).trans ?_
    simp only [Arithmetic.Number.half_eq, mul_assoc]
  | outSine =>
    refine (Expr.eval_sin (hangle _)).trans ?_
    simp only [Arithmetic.Number.half_eq, mul_assoc]
  | inOutSine =>
    have hcos := Expr.eval_neg (Expr.eval_sub (b := 1.0) (Expr.eval_cos (hangle Scalar.pi)) rfl)
    refine (Expr.eval_div hcos rfl).trans ?_
    simp only [mul_comm]
  | inExpo =>
    refine (Expr.eval_ifLe hp rfl).trans ?_
    dsimp only
    split
    · rfl
    · exact Expr.eval_pow rfl (Expr.eval_sub (Expr.eval_mul rfl hp) rfl)
  | outExpo =>
    refine (Expr.eval_ifLt hp rfl).trans ?_
    dsimp only
    split
    · rename_i hlt
      rw [if_neg (not_le.2 hlt)]
      exact Expr.eval_sub rfl (Expr.eval_pow rfl (Expr.eval_mul rfl hp))
    · rename_i hge
      rw [if_pos (not_lt.1 hge)]
      rfl
  | inCirc => exact Expr.eval_sub rfl (Expr.eval_sqrt (Expr.eval_sub rfl (eval_pow_two hpow hp)))
  | outCirc => exact Expr.eval_sqrt (Expr.eval_sub rfl (eval_pow_two hpow hbefore))
  | inBack =>
    refine (Expr.eval_sub (Expr.eval_mul rfl (eval_pow_three hpow hp))
      (Expr.eval_mul rfl (eval_pow_two hpow hp))).trans ?_
    simp only [square, mul_assoc]
  | outBack =>
    exact Expr.eval_add (Expr.eval_add rfl (Expr.eval_mul rfl (eval_pow_three hpow hbefore)))
      (Expr.eval_mul rfl (eval_pow_two hpow hbefore))

/-- **The value inside a window** is the first value and the eased part of the
change. -/
theorem eval_valueExpr (hpow : A.HasWholePowers) (e : Ease) (base change : A.Number)
    {duration delay : A.Number} (hduration : 0 < duration) (hopen : delay ≤ t)
    (hclose : t ≤ delay + duration) :
    (e.valueExpr base change duration delay).eval t =
      .ok (base + change * e.apply ((t - delay) * duration⁻¹)) := by
  have hu : (t - delay) * duration⁻¹ ∈ Icc (0 : A.Number) 1 := by
    rw [← div_eq_mul_inv]
    exact ⟨div_nonneg (by linarith) hduration.le, (div_le_one hduration).2 (by linarith)⟩
  have hprogress : ((.time - .const delay) / .const duration : Expr A.Number).eval t =
      .ok ((t - delay) * duration⁻¹) :=
    (Expr.eval_div (Expr.eval_sub rfl rfl) rfl).trans
      (congrArg _ (Arithmetic.Number.div_eq _ hduration.ne'))
  have hscaled := Expr.eval_mul (a := .const change) rfl (e.eval_curve hpow hprogress hu)
  unfold valueExpr
  split
  · refine congrArg Except.ok ?_
    unfold linearValue
    rw [Arithmetic.Number.div_eq _ hduration.ne', apply, Arithmetic.Number.clampUnit_of_mem hu,
      mul_assoc]
  · dsimp only
    split
    · rename_i hbase
      have hzero : base = 0 := by
        have := Arithmetic.Number.beq_iff.1 hbase
        rw [this]
        norm_num
      rw [hscaled, hzero, zero_add]
    · exact Expr.eval_add rfl hscaled

/-- **The written value of a window is its numeric value.** For every curve, the
expression written for a window leaves nothing open, and at every time inside
the window, its two ends included, it has the value computed from the curve at
the part of the window that has passed. Of the functions this needs only that
whole powers are repeated products. -/
theorem valueExpr_follows_apply (hpow : A.HasWholePowers) (e : Ease) (base change : A.Number)
    {duration delay : A.Number} (hduration : 0 < duration) (hopen : delay ≤ t)
    (hclose : t ≤ delay + duration) :
    (e.valueExpr base change duration delay).IsClosed ∧
      (e.valueExpr base change duration delay).eval t =
        .ok (base + change * e.apply ((t - delay) * duration⁻¹)) :=
  ⟨e.valueExpr_closed base change duration delay,
    e.eval_valueExpr hpow base change hduration hopen hclose⟩

/-- Half way through its window, at the split of a curve that is slow on both
sides, a value from two to five is half way too. -/
theorem valueExpr_follows_apply_midway :
    Arithmetic.real.HasWholePowers ∧
      (inOutQuad.valueExpr 2 3 2 1 : Expr Arithmetic.real.Number).IsClosed ∧
      (inOutQuad.valueExpr 2 3 2 1 : Expr Arithmetic.real.Number).eval 2 = .ok 3.5 := by
  have hpow := Arithmetic.usual_real.pow_whole
  have hduration : (0 : Arithmetic.real.Number) < 2 := by norm_num
  have hopen : (1 : Arithmetic.real.Number) ≤ 2 := by norm_num
  have hclose : (2 : Arithmetic.real.Number) ≤ 1 + 2 := by norm_num
  obtain ⟨hclosed, hvalue⟩ :=
    valueExpr_follows_apply hpow inOutQuad 2 3 hduration hopen hclose
  refine ⟨hpow, hclosed, hvalue.trans (congrArg Except.ok ?_)⟩
  have hprogress : ((2 : Arithmetic.real.Number) - 1) * 2⁻¹ = 2⁻¹ := by norm_num
  have hmem : (2⁻¹ : Arithmetic.real.Number) ∈ Icc 0 1 := by constructor <;> norm_num
  have hlater : ¬ (2⁻¹ : Arithmetic.real.Number) < 0.5 := by norm_num
  have hhalf : inOutQuad.apply (2⁻¹ : Arithmetic.real.Number) = 2⁻¹ := by
    unfold apply
    rw [Arithmetic.Number.clampUnit_of_mem hmem]
    simp only [if_neg hlater]
    rw [Arithmetic.Number.half_eq, square]
    norm_num
  rw [hprogress, hhalf]
  norm_num

end Ease

/-! ## Ranges -/

namespace Arithmetic

theorem mul_mem_Icc {c : A.Number} (hc : 0 ≤ c) (hu : u ∈ Icc (0 : A.Number) 1) : u * c ∈ Icc 0 c :=
  ⟨mul_nonneg hu.1 hc, mul_le_of_le_one_left hc hu.2⟩

theorem Usual.pi_nonneg (hA : A.Usual) : (0 : A.Number) ≤ Scalar.pi := hA.pi_pos.le

theorem Usual.half_pi_nonneg (hA : A.Usual) : (0 : A.Number) ≤ Scalar.pi * 2⁻¹ :=
  mul_nonneg hA.pi_nonneg (by norm_num)

theorem Usual.cos_mem (hA : A.Usual) (hu : u ∈ Icc (0 : A.Number) 1) :
    Scalar.cos (u * Scalar.pi) ∈ Icc (-1 : A.Number) 1 := by
  have hcos := hA.cos_antitone.mapsTo_Icc (mul_mem_Icc hA.pi_nonneg hu)
  rwa [hA.cos_pi, hA.cos_zero] at hcos

theorem Usual.cos_mem_unit (hA : A.Usual) (hu : u ∈ Icc (0 : A.Number) 1) :
    Scalar.cos (u * (Scalar.pi * 2⁻¹)) ∈ Icc (0 : A.Number) 1 := by
  have hle : A.pi / 2 ≤ A.pi := by linarith [hA.pi_pos]
  have hcos := (hA.cos_antitone.mono (Set.Icc_subset_Icc_right hle)).mapsTo_Icc
    (mul_mem_Icc hA.half_pi_nonneg hu)
  rwa [hA.cos_half_pi, hA.cos_zero] at hcos

theorem Usual.sin_mem_unit (hA : A.Usual) (hu : u ∈ Icc (0 : A.Number) 1) :
    Scalar.sin (u * (Scalar.pi * 2⁻¹)) ∈ Icc (0 : A.Number) 1 := by
  have hsin := hA.sin_monotone.mapsTo_Icc (mul_mem_Icc hA.half_pi_nonneg hu)
  rwa [hA.sin_zero, hA.sin_half_pi] at hsin

theorem Usual.sqrt_mem_unit (hA : A.Usual) (hu : u ∈ Icc (0 : A.Number) 1) :
    Scalar.sqrt u ∈ Icc (0 : A.Number) 1 := by
  have hunit : Icc (0 : ℝ) 1 ⊆ Set.Ici 0 := Set.Icc_subset_Ici_self
  have hsqrt := (hA.sqrt_monotone.mono hunit).mapsTo_Icc hu
  rwa [hA.sqrt_zero, hA.sqrt_one] at hsqrt

theorem Usual.exp_zero (hA : A.Usual) : Scalar.pow (2 : A.Number) 0 = 1 := by
  have hpow : A.HasWholePowers := hA.pow_whole
  simpa using hpow.pow_natCast 2 0

theorem Usual.exp_mem_unit (hA : A.Usual) (hx : x ∈ Icc (-10 : A.Number) 0) :
    Scalar.pow 2.0 x ∈ Icc (0 : A.Number) 1 := by
  have hpow : A.pow 2 x ∈ Icc (A.pow 2 (-10)) (A.pow 2 0) :=
    (hA.exp_monotone.monotoneOn (Icc (-10) 0)).mapsTo_Icc hx
  have hzero : A.pow 2 0 = 1 := hA.exp_zero
  rw [hA.exp_neg_ten, hzero] at hpow
  have htwo : (2.0 : A.Number) = 2 := by norm_num
  rw [htwo]
  have hpos : (0 : ℝ) ≤ 1 / 1024 := by norm_num
  exact ⟨hpos.trans hpow.1, hpow.2⟩

end Arithmetic

namespace Ease

theorem mul_mem_unit (hx : x ∈ Icc (0 : A.Number) 1) (hy : y ∈ Icc (0 : A.Number) 1) :
    x * y ∈ Icc (0 : A.Number) 1 :=
  ⟨mul_nonneg hx.1 hy.1, mul_le_one₀ hx.2 hy.1 hy.2⟩

theorem rest_mem_unit (hx : x ∈ Icc (0 : A.Number) 1) : 1.0 - x ∈ Icc (0 : A.Number) 1 := by
  obtain ⟨h0, h1⟩ := hx
  norm_num
  exact ⟨h1, h0⟩

theorem square_mem_unit (hx : x ∈ Icc (0 : A.Number) 1) : square x ∈ Icc (0 : A.Number) 1 :=
  mul_mem_unit hx hx

theorem cube_mem_unit (hx : x ∈ Icc (0 : A.Number) 1) : cube x ∈ Icc (0 : A.Number) 1 :=
  mul_mem_unit hx (mul_mem_unit hx hx)

theorem fourth_mem_unit (hx : x ∈ Icc (0 : A.Number) 1) : fourth x ∈ Icc (0 : A.Number) 1 :=
  mul_mem_unit (mul_mem_unit hx hx) (mul_mem_unit hx hx)

theorem later_mem_unit (hx : x ∈ Icc (0 : A.Number) 1) :
    1.0 - @HDiv.hDiv _ _ _ (@instHDiv A.Number Scalar.toDiv) x 2.0 ∈ Icc (0 : A.Number) 1 := by
  rw [Arithmetic.Number.half_eq]
  refine rest_mem_unit (mul_mem_unit hx ⟨?_, ?_⟩) <;> norm_num

/-- **Progress stays between 0 and 1** along every curve that does not
overshoot. -/
theorem apply_mem_unit (hA : A.Usual) {e : Ease} (hinBack : e ≠ .inBack) (houtBack : e ≠ .outBack)
    (p : A.Number) : e.apply p ∈ Icc (0 : A.Number) 1 := by
  unfold apply
  have hu := Arithmetic.Number.clampUnit_mem p
  generalize Scalar.clampUnit p = u at hu
  obtain ⟨h0, h1⟩ := hu
  have hu : u ∈ Icc (0 : A.Number) 1 := ⟨h0, h1⟩
  have hrest := rest_mem_unit hu
  -- On either side of the middle, the distance to the end that is used, doubled.
  have hdouble : u < 0.5 → 2.0 * u ∈ Icc (0 : A.Number) 1 := by
    intro h
    norm_num at h ⊢
    constructor <;> linarith
  have hmirrored : ¬ u < 0.5 → -2.0 * u + 2.0 ∈ Icc (0 : A.Number) 1 := by
    intro h
    norm_num at h ⊢
    constructor <;> linarith
  cases e with
  | linear => exact hu
  | inQuad => exact mul_mem_unit hu hu
  | outQuad => exact rest_mem_unit (mul_mem_unit hrest hrest)
  | inOutQuad =>
    dsimp only
    split
    · rename_i h
      exact mul_mem_unit (hdouble h) hu
    · rename_i h
      exact later_mem_unit (square_mem_unit (hmirrored h))
  | inCubic => exact mul_mem_unit (mul_mem_unit hu hu) hu
  | outCubic => exact rest_mem_unit (cube_mem_unit hrest)
  | inOutCubic =>
    dsimp only
    split
    · rename_i h
      have hdoubles : 4.0 * u * u * u = 2.0 * u * (2.0 * u) * u := by
        have hfour : (4.0 : A.Number) = 2.0 * 2.0 := by norm_num
        rw [hfour, mul_mul_mul_comm, ← mul_assoc]
      rw [hdoubles]
      exact mul_mem_unit (mul_mem_unit (hdouble h) (hdouble h)) hu
    · rename_i h
      exact later_mem_unit (cube_mem_unit (hmirrored h))
  | inQuart => exact fourth_mem_unit hu
  | outQuart => exact rest_mem_unit (fourth_mem_unit hrest)
  | inOutQuart =>
    dsimp only
    split
    · rename_i h
      have hdoubles : 8.0 * fourth u = cube (2.0 * u) * u := by
        norm_num [fourth, cube]
        ring
      rw [hdoubles]
      exact mul_mem_unit (cube_mem_unit (hdouble h)) hu
    · rename_i h
      exact later_mem_unit (fourth_mem_unit (hmirrored h))
  | inSine =>
    have hcos := hA.cos_mem_unit hu
    rw [← mul_assoc, ← Arithmetic.Number.half_eq] at hcos
    exact rest_mem_unit hcos
  | outSine =>
    have hsin := hA.sin_mem_unit hu
    rwa [← mul_assoc, ← Arithmetic.Number.half_eq] at hsin
  | inOutSine =>
    obtain ⟨hlow, hhigh⟩ := hA.cos_mem hu
    dsimp only
    rw [Arithmetic.Number.half_eq, mul_comm Scalar.pi]
    constructor
    · norm_num
      linarith
    · norm_num
      linarith
  | inExpo =>
    dsimp only
    split
    · norm_num
    · refine hA.exp_mem_unit ⟨?_, ?_⟩
      · norm_num
        linarith
      · norm_num
        linarith
  | outExpo =>
    dsimp only
    split
    · norm_num
    · refine rest_mem_unit (hA.exp_mem_unit ⟨?_, ?_⟩)
      · norm_num
        linarith
      · norm_num
        linarith
  | inCirc => exact rest_mem_unit (hA.sqrt_mem_unit (rest_mem_unit (mul_mem_unit hu hu)))
  | outCirc =>
    have hsquare : square (u - 1.0) = square (1.0 - u) := by
      norm_num [square]
      ring
    dsimp only
    rw [hsquare]
    exact hA.sqrt_mem_unit (rest_mem_unit (square_mem_unit hrest))
  | inBack => exact absurd rfl hinBack
  | outBack => exact absurd rfl houtBack

/-! ## Overshooting -/

/-- The progress at which a back curve turns around. -/
noncomputable def turn : A.Number := 2.0 * overshoot * (3.0 * (overshoot + 1))⁻¹

/-- How far a back curve goes the wrong way: about a tenth of the change. -/
noncomputable def dip : A.Number := (overshoot + 1) * cube turn * 2.0⁻¹

/-- The lowest progress along a curve. -/
noncomputable def lowest : Ease → A.Number
  | inBack => -dip
  | _ => 0

/-- The highest progress along a curve. -/
noncomputable def highest : Ease → A.Number
  | outBack => 1 + dip
  | _ => 1

theorem lowest_eq_zero {e : Ease} (h : e ≠ .inBack) : e.lowest = (0 : A.Number) := by
  cases e <;> first | rfl | exact absurd rfl h

theorem highest_eq_one {e : Ease} (h : e ≠ .outBack) : e.highest = (1 : A.Number) := by
  cases e <;> first | rfl | exact absurd rfl h

theorem overshoot_pos : (0 : A.Number) < overshoot := by
  unfold overshoot
  norm_num

theorem turn_mem_unit : (turn : A.Number) ∈ Icc 0 1 := by
  unfold turn overshoot
  norm_num

/-- The back curve is at its lowest where it turns around, and rises on both
sides. -/
theorem back_eq (u : A.Number) :
    (overshoot + 1) * u ^ 3 - overshoot * u ^ 2 =
      (overshoot + 1) * ((u - turn) ^ 2 * (u + turn * 2⁻¹)) - dip := by
  have hthree : (3.0 : A.Number) * (overshoot + 1) ≠ 0 := by
    norm_num
    linarith [overshoot_pos (A := A)]
  have hturn : (turn : A.Number) * (3.0 * (overshoot + 1)) = 2.0 * overshoot :=
    inv_mul_cancel_right₀ hthree _
  norm_num at hturn
  norm_num [dip, cube]
  linear_combination u ^ 2 * 2⁻¹ * hturn

theorem apply_inBack (hu : u ∈ Icc (0 : A.Number) 1) :
    inBack.apply u = (overshoot + 1) * ((u - turn) ^ 2 * (u + turn * 2⁻¹)) - dip := by
  rw [← back_eq]
  unfold apply
  rw [Arithmetic.Number.clampUnit_of_mem hu]
  norm_num [cube]
  ring

/-- One back curve is the other one, run backwards. -/
theorem apply_outBack (hu : u ∈ Icc (0 : A.Number) 1) :
    outBack.apply u = 1 - inBack.apply (1 - u) := by
  have hrest : 1 - u ∈ Icc (0 : A.Number) 1 := by
    obtain ⟨h0, h1⟩ := hu
    constructor <;> linarith
  unfold apply
  rw [Arithmetic.Number.clampUnit_of_mem hu, Arithmetic.Number.clampUnit_of_mem hrest]
  norm_num [cube, square]
  ring

theorem apply_inBack_mem (hu : u ∈ Icc (0 : A.Number) 1) :
    inBack.apply u ∈ Icc (-dip : A.Number) 1 := by
  obtain ⟨h0, h1⟩ := hu
  have hover := overshoot_pos (A := A)
  constructor
  · have hturn : (0 : A.Number) ≤ turn := turn_mem_unit.1
    have hside : 0 ≤ (overshoot + 1) * ((u - turn) ^ 2 * (u + turn * 2⁻¹)) := by positivity
    rw [apply_inBack ⟨h0, h1⟩]
    linarith
  · have hsquare : u ^ 2 ≤ 1 := pow_le_one₀ h0 h1
    have hfactor : (overshoot + 1) * u - overshoot ≤ 1 := by
      linarith [mul_le_mul_of_nonneg_left h1 (by linarith : (0 : A.Number) ≤ overshoot + 1)]
    calc inBack.apply u = u ^ 2 * ((overshoot + 1) * u - overshoot) := by
          rw [apply_inBack ⟨h0, h1⟩, ← back_eq]
          ring
      _ ≤ u ^ 2 * 1 := mul_le_mul_of_nonneg_left hfactor (sq_nonneg u)
      _ ≤ 1 := by linarith

theorem apply_clampUnit (e : Ease) (p : A.Number) : e.apply (Scalar.clampUnit p) = e.apply p := by
  unfold apply
  rw [Arithmetic.Number.clampUnit_of_mem (Arithmetic.Number.clampUnit_mem p)]

/-- **Progress stays between the lowest and the highest** along every curve. -/
theorem apply_mem_range (hA : A.Usual) (e : Ease) (p : A.Number) :
    e.apply p ∈ Icc e.lowest e.highest := by
  rw [← apply_clampUnit]
  have hu := Arithmetic.Number.clampUnit_mem p
  by_cases hinBack : e = .inBack
  · subst hinBack
    exact apply_inBack_mem hu
  · by_cases houtBack : e = .outBack
    · subst houtBack
      have hrest := apply_inBack_mem (A := A) (u := 1 - Scalar.clampUnit p)
        ⟨by linarith [hu.2], by linarith [hu.1]⟩
      rw [apply_outBack hu]
      constructor
      · change 0 ≤ _
        linarith [hrest.2]
      · change _ ≤ 1 + dip
        linarith [hrest.1]
    · rw [lowest_eq_zero hinBack, highest_eq_one houtBack]
      exact apply_mem_unit hA hinBack houtBack _

theorem apply_zero (hA : A.Usual) (e : Ease) : e.apply (0 : A.Number) = 0 := by
  have hcos : Scalar.cos (0 : A.Number) = 1 := hA.cos_zero
  have hsin : Scalar.sin (0 : A.Number) = 0 := hA.sin_zero
  have hsqrt0 : Scalar.sqrt (0 : A.Number) = 0 := hA.sqrt_zero
  have hsqrt1 : Scalar.sqrt (1 : A.Number) = 1 := hA.sqrt_one
  have hexp := hA.exp_zero
  unfold apply
  rw [Arithmetic.Number.clampUnit_of_mem ⟨le_refl 0, zero_le_one⟩]
  simp only [Arithmetic.Number.half_eq]
  cases e <;> norm_num [square, cube, fourth, hcos, hsin, hsqrt0, hsqrt1, hexp]

theorem apply_one (hA : A.Usual) (e : Ease) : e.apply (1 : A.Number) = 1 := by
  have hcos : Scalar.cos (Scalar.pi * 2⁻¹ : A.Number) = 0 := hA.cos_half_pi
  have hcospi : Scalar.cos (Scalar.pi : A.Number) = -1 := hA.cos_pi
  have hsin : Scalar.sin (Scalar.pi * 2⁻¹ : A.Number) = 1 := hA.sin_half_pi
  have hsqrt0 : Scalar.sqrt (0 : A.Number) = 0 := hA.sqrt_zero
  have hsqrt1 : Scalar.sqrt (1 : A.Number) = 1 := hA.sqrt_one
  have hexp := hA.exp_zero
  norm_num at hcos hsin
  unfold apply
  rw [Arithmetic.Number.clampUnit_of_mem ⟨zero_le_one, le_refl 1⟩]
  simp only [Arithmetic.Number.half_eq]
  cases e <;> norm_num [square, cube, fourth, hcos, hcospi, hsin, hsqrt0, hsqrt1, hexp]

theorem apply_turn : inBack.apply (turn : A.Number) = -dip := by
  rw [apply_inBack turn_mem_unit]
  ring

/-- The lowest progress is reached: where the curve starts, or where it turns
around. -/
theorem exists_apply_lowest (hA : A.Usual) (e : Ease) :
    ∃ p ∈ Icc (0 : A.Number) 1, e.apply p = e.lowest := by
  by_cases hinBack : e = .inBack
  · subst hinBack
    exact ⟨turn, turn_mem_unit, apply_turn⟩
  · exact ⟨0, ⟨le_refl 0, zero_le_one⟩, (apply_zero hA e).trans (lowest_eq_zero hinBack).symm⟩

/-- The highest progress is reached: where the curve ends, or where it turns
around. -/
theorem exists_apply_highest (hA : A.Usual) (e : Ease) :
    ∃ p ∈ Icc (0 : A.Number) 1, e.apply p = e.highest := by
  by_cases houtBack : e = .outBack
  · subst houtBack
    obtain ⟨h0, h1⟩ := turn_mem_unit (A := A)
    have hmem : 1 - turn ∈ Icc (0 : A.Number) 1 := ⟨by linarith, by linarith⟩
    refine ⟨1 - turn, hmem, ?_⟩
    rw [apply_outBack hmem, sub_sub_cancel, apply_turn, sub_neg_eq_add]
    rfl
  · exact ⟨1, ⟨zero_le_one, le_refl 1⟩, (apply_one hA e).trans (highest_eq_one houtBack).symm⟩

end Ease

end Tween
