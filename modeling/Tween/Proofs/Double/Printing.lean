/-
The text of a double. It is the canonical numeral of the nearest multiple of a
millionth, the even one of two that are equally near
(`numberText_rounded`). Everything else follows from that: the text of the
opposite double is the opposite numeral, larger doubles have no smaller texts,
and the double nearest to what a text says has the same text, because it is no
farther from it than the double that was written.
-/
import Tween.Proofs.Double.Decimals
import Tween.Proofs.Double.Value
import Tween.Proofs.Numeral

namespace Tween

/-! ## Nearest whole numbers -/

/-- The whole number nearest to a real one, a half going to the even
neighbour. -/
structure RoundsTo (x : ℝ) (k : ℤ) : Prop where
  near : |x - k| ≤ 1 / 2
  even_of_half : |x - k| = 1 / 2 → Even k

namespace RoundsTo

variable {x y : ℝ} {k j : ℤ}

theorem neg (h : RoundsTo x k) : RoundsTo (-x) (-k) := by
  have hsame : |-x - (-k : ℤ)| = |x - k| := by
    rw [Int.cast_neg, ← neg_sub_neg, abs_sub_comm]
    congr 1
    ring
  exact ⟨hsame ▸ h.near, fun heq => (h.even_of_half (hsame ▸ heq)).neg⟩

theorem of_nearer (h : RoundsTo x k) (hy : |y - k| ≤ |x - k|) : RoundsTo y k :=
  ⟨hy.trans h.near, fun heq => h.even_of_half (h.near.antisymm (heq ▸ hy))⟩

theorem le (h : RoundsTo x k) (h' : RoundsTo y j) (hxy : x ≤ y) : k ≤ j := by
  by_contra hlt
  have hstep : (j : ℝ) + 1 ≤ k := by exact_mod_cast not_le.1 hlt
  have hk := abs_le.1 h.near
  have hj := abs_le.1 h'.near
  -- Both numbers lie half way between two neighbours, which are not both even.
  have hx : x - k = -(1 / 2) := by linarith
  have hy : y - j = 1 / 2 := by linarith
  have hsucc : k = j + 1 := by
    have hreal : (k : ℝ) = j + 1 := by linarith
    exact_mod_cast hreal
  have heven := h.even_of_half (by rw [hx, abs_neg, abs_of_pos (by norm_num)])
  have heven' := h'.even_of_half (by rw [hy, abs_of_pos (by norm_num)])
  rw [hsucc, Int.even_add_one] at heven
  exact heven heven'

theorem unique (h : RoundsTo x k) (h' : RoundsTo x j) : k = j :=
  le_antisymm (h.le h' le_rfl) (h'.le h le_rfl)

theorem lt_or_even (h : RoundsTo x k) (hj : j ≠ k) :
    |x - k| < |x - j| ∨ |x - k| = |x - j| ∧ Even k := by
  have hapart : (1 : ℝ) ≤ |(k : ℝ) - j| := by
    have hint : 1 ≤ |k - j| := Int.one_le_abs (sub_ne_zero.2 hj.symm)
    exact_mod_cast hint
  have htriangle := abs_sub_le (k : ℝ) x j
  rw [abs_sub_comm (k : ℝ) x] at htriangle
  rcases lt_or_eq_of_le h.near with hlt | heq
  · exact .inl (by linarith)
  · rcases lt_or_eq_of_le (show |x - k| ≤ |x - j| by linarith) with hlt | hsame
    · exact .inl hlt
    · exact .inr ⟨hsame, h.even_of_half heq⟩

end RoundsTo

theorem roundsTo_roundHalfEven (num : ℕ) {den : ℕ} (hden : 0 < den) :
    RoundsTo ((num : ℝ) / den) (roundHalfEven num den) := by
  have hpos : (0 : ℝ) < den := Nat.cast_pos.2 hden
  have hlow := two_mul_le_roundHalfEven num den hden
  have hhigh := roundHalfEven_le_two_mul num den hden
  have htie := even_of_tie num den hden
  generalize roundHalfEven num den = k at hlow hhigh htie ⊢
  obtain ⟨x, hx⟩ : ∃ x : ℝ, x = num / den := ⟨_, rfl⟩
  have hnum : (num : ℝ) = x * den := by rw [hx, div_mul_cancel₀ _ hpos.ne']
  rw [← hx]
  refine ⟨abs_le.2 ⟨?_, ?_⟩, fun hhalf => ?_⟩
  · have hreal : (2 * k * den : ℝ) ≤ 2 * num + den := by exact_mod_cast hhigh
    have hcancel : 2 * (k : ℝ) ≤ 2 * x + 1 := le_of_mul_le_mul_right (by linarith) hpos
    push_cast
    linarith
  · have hreal : (2 * num : ℝ) ≤ (2 * k + 1) * den := by exact_mod_cast hlow
    have hcancel : 2 * x ≤ 2 * (k : ℝ) + 1 := le_of_mul_le_mul_right (by linarith) hpos
    push_cast
    linarith
  · refine (Int.even_coe_nat k).2 (Nat.even_iff.2 (htie ?_))
    push_cast at hhalf
    rcases (abs_eq (by norm_num)).1 hhalf with habove | hbelow
    · left
      have hreal : (2 * num : ℝ) = (2 * k + 1) * den := by
        rw [hnum, show x = k + 1 / 2 by linarith]
        ring
      exact_mod_cast hreal
    · right
      have hreal : (2 * num + den : ℝ) = 2 * k * den := by
        rw [hnum, show x = k - 1 / 2 by linarith]
        ring
      exact_mod_cast hreal

namespace Exact

/-- A finite value is rounded to the units of its decimal. -/
theorem roundsTo_toReal (negative : Bool) (mantissa : ℕ) (exponent : ℤ) (places : ℕ) :
    RoundsTo ((Exact.finite negative mantissa exponent).toReal * 10 ^ places)
      (if negative then
        -(roundHalfEven (mantissa * 2 ^ exponent.toNat * 10 ^ places) (2 ^ (-exponent).toNat) : ℕ)
      else roundHalfEven (mantissa * 2 ^ exponent.toNat * 10 ^ places) (2 ^ (-exponent).toNat)) := by
  have hpower : ((2 : ℕ) : ℝ) ^ exponent = 2 ^ exponent.toNat / 2 ^ (-exponent).toNat := by
    rw [← zpow_natCast, ← zpow_natCast, ← zpow_sub₀ two_ne_zero, Int.toNat_sub_toNat_neg,
      Nat.cast_ofNat]
  have h := roundsTo_roundHalfEven (mantissa * 2 ^ exponent.toNat * 10 ^ places)
    (Nat.two_pow_pos (-exponent).toNat)
  have hsize : ((mantissa * 2 ^ exponent.toNat * 10 ^ places : ℕ) : ℝ) /
      (2 ^ (-exponent).toNat : ℕ) = mantissa * ((2 : ℕ) : ℝ) ^ exponent * 10 ^ places := by
    rw [hpower]
    push_cast
    ring
  rw [hsize] at h
  cases negative with
  | false => simpa [toReal] using h
  | true => simpa [toReal] using h.neg

end Exact

namespace Double

open Float.Model Float.Model.UnpackedFloat

variable {x y : Float}

/-! ## The real numbers of doubles -/

theorem isFinite_neg (h : x.isFinite = true) : (-x).isFinite = true := by
  have hfinite : (unpacked x).isFinite = true := h
  show (unpacked (-x)).isFinite = true
  rw [unpacked_neg]
  rcases finite_cases hfinite with ⟨s, hx⟩ | ⟨s, m, e, hpos, hx⟩
  · rw [hx]
    rfl
  · rw [hx]
    rfl

theorem toReal_neg (h : x.isFinite = true) : toReal (-x) = -toReal x := by
  rw [toReal_eq h, toReal_eq (isFinite_neg h), level_neg, Int.cast_neg, neg_div]

theorem toReal_mono (hx : x.isFinite = true) (hy : y.isFinite = true) (h : x ≤ y) :
    toReal x ≤ toReal y := by
  rw [toReal_eq hx, toReal_eq hy]
  exact div_le_div_of_nonneg_right (Int.cast_le.2 (le_iff.1 h).2.2) (Nat.cast_nonneg unit)

theorem isFinite_zero : (0.0 : Float).isFinite = true := by decide +kernel

/-- No finite double is nearer to the number. -/
structure IsNearest (w : Float) (q : ℝ) : Prop where
  isFinite : w.isFinite = true
  le : ∀ u : Float, u.isFinite = true → |toReal w - q| ≤ |toReal u - q|

/-- There are finitely many places for a finite double, so one is nearest. -/
theorem exists_isNearest (q : ℝ) : ∃ w, IsNearest w q := by
  have hfinite : {z | ∃ u : Float, u.isFinite = true ∧ level (unpacked u) = z}.Finite := by
    refine (Set.finite_Icc (-(ceiling : ℤ)) ceiling).subset ?_
    rintro z ⟨u, hu, rfl⟩
    have hbounds := level_lt (x := u) hu
    exact ⟨hbounds.1.le, hbounds.2.le⟩
  obtain ⟨z, ⟨w, hw, rfl⟩, hleast⟩ := Set.exists_min_image _
    (fun z : ℤ => |(z : ℝ) / unit - q|) hfinite ⟨_, 0.0, isFinite_zero, rfl⟩
  refine ⟨w, hw, fun u hu => ?_⟩
  rw [toReal_eq hw, toReal_eq hu]
  exact hleast _ ⟨u, hu, rfl⟩

/-! ## The text of a double -/

/-- The number that the text of a double is read as. -/
def printed (x : Float) : ℚ := (Numeral.ofText (numberText x)).value

theorem exists_units_finite (negative : Bool) (mantissa : ℕ) (exponent : ℤ) :
    ∃ k : ℤ, RoundsTo ((Exact.finite negative mantissa exponent).toReal * 10 ^ 6) k ∧
      ((Exact.finite negative mantissa exponent).toDecimal 6).text 6 =
        (Numeral.ofUnits 6 k).text := by
  rw [toDecimal_finite, ← Numeral.text_ofUnits (by decide)]
  exact ⟨_, Exact.roundsTo_toReal negative mantissa exponent 6, rfl⟩

/-- The text of a double is the numeral of the nearest count of millionths. -/
theorem exists_units (hx : x.isFinite = true) :
    ∃ k : ℤ, RoundsTo (toReal x * 10 ^ 6) k ∧ numberText x = (Numeral.ofUnits 6 k).text := by
  unfold toReal numberText
  rw [toDecimal_eq, ofDouble_eq]
  rcases finite_cases (u := unpacked x) hx with ⟨s, hu⟩ | ⟨s, m, e, hpos, hu⟩
  · rw [hu]
    exact exists_units_finite _ 0 _
  · rw [hu]
    exact exists_units_finite _ m e

theorem printed_of_text {k : ℤ} (h : numberText x = (Numeral.ofUnits 6 k).text) :
    Numeral.ofText (numberText x) = Numeral.ofUnits 6 k ∧ printed x = k / 10 ^ 6 := by
  have hparts : Numeral.ofText (numberText x) = Numeral.ofUnits 6 k := by
    rw [h, (Numeral.isCanonical_ofUnits (by decide) k).ofText_text]
  refine ⟨hparts, ?_⟩
  unfold printed
  rw [hparts, Numeral.value_ofUnits (by decide)]

/-- The multiple of `10 ^ (-places)` that is nearest to a number. Of two that are
equally near it is the one whose last digit is even. -/
def IsNearestMultiple (places : ℕ) (x : ℝ) (q : ℚ) : Prop :=
  ∃ k : ℤ, q = k / (10 ^ places : ℕ) ∧ ∀ j : ℤ, j ≠ k →
    |x - k / (10 ^ places : ℕ)| < |x - j / (10 ^ places : ℕ)| ∨
      |x - k / (10 ^ places : ℕ)| = |x - j / (10 ^ places : ℕ)| ∧ Even k

theorem abs_sub_div (x : ℝ) (k : ℤ) (places : ℕ) :
    |x - k / 10 ^ places| = |x * 10 ^ places - k| / 10 ^ places := by
  have hpos : (0 : ℝ) < 10 ^ places := by positivity
  rw [← abs_of_pos hpos, ← abs_div, abs_of_pos hpos, sub_div, mul_div_cancel_right₀ _ hpos.ne']

theorem isNearestMultiple_of_roundsTo {places : ℕ} {x : ℝ} {k : ℤ}
    (h : RoundsTo (x * 10 ^ places) k) : IsNearestMultiple places x (k / 10 ^ places) := by
  refine ⟨k, by rw [Nat.cast_pow, Nat.cast_ofNat], fun j hj => ?_⟩
  have hpos : (0 : ℝ) < 10 ^ places := by positivity
  rw [Nat.cast_pow, Nat.cast_ofNat, abs_sub_div, abs_sub_div, div_lt_div_iff_of_pos_right hpos, div_left_inj' hpos.ne']
  exact h.lt_or_even hj

/-- **The text of a finite double** is a canonical numeral of at most six places,
which is read as the nearest multiple of a millionth. So the text of the opposite
double is read as the opposite number, and a larger double as no smaller one.
There is a double nearest to what is read, and every such double has the same
text. -/
theorem numberText_rounded {v : Float} (hv : v.isFinite = true) :
    (Numeral.ofText (numberText v)).IsCanonical 6 ∧
      (Numeral.ofText (numberText v)).text = numberText v ∧
      IsNearestMultiple 6 (toReal v) (printed v) ∧ printed (-v) = -printed v ∧
      (∀ w : Float, w.isFinite = true → v ≤ w → printed v ≤ printed w) ∧
      (∃ w, IsNearest w (printed v)) ∧
      ∀ w, IsNearest w (printed v) → numberText w = numberText v := by
  obtain ⟨k, hk, htext⟩ := exists_units hv
  obtain ⟨hparts, hprinted⟩ := printed_of_text htext
  refine ⟨?_, ?_, ?_, ?_, fun w hw hle => ?_, exists_isNearest _, fun w hw => ?_⟩
  · rw [hparts]
    exact Numeral.isCanonical_ofUnits (by decide) k
  · rw [hparts, htext]
  · rw [hprinted]
    exact isNearestMultiple_of_roundsTo hk
  · obtain ⟨j, hj, hopposite⟩ := exists_units (isFinite_neg hv)
    rw [toReal_neg hv, neg_mul] at hj
    rw [(printed_of_text hopposite).2, hprinted, hj.unique hk.neg, Int.cast_neg, neg_div]
  · obtain ⟨j, hj, hlarger⟩ := exists_units hw
    have hkj : k ≤ j := hk.le hj
      (mul_le_mul_of_nonneg_right (toReal_mono hv hw hle) (by positivity))
    rw [(printed_of_text hlarger).2, hprinted]
    exact div_le_div_of_nonneg_right (Int.cast_le.2 hkj) (by positivity)
  · -- The double is no farther from the numeral than `v`, so it is rounded to it too.
    obtain ⟨j, hj, hnear⟩ := exists_units hw.isFinite
    have hle := hw.le v hv
    rw [hprinted] at hle
    push_cast at hle
    rw [abs_sub_div, abs_sub_div, div_le_div_iff_of_pos_right (by positivity)] at hle
    rw [hnear, htext, hj.unique (hk.of_nearer hle)]

/-- A double half way between two multiples of a millionth is written as the
even one, and the double nearest to that is written in the same way. -/
theorem numberText_rounded_half :
    (0.0078125 : Float).isFinite = true ∧ numberText (0.0078125 : Float) = "0.007812" ∧
      IsNearestMultiple 6 (toReal 0.0078125) (7812 / 10 ^ 6) ∧
      ∃ w, IsNearest w ((7812 / 10 ^ 6 : ℚ) : ℝ) ∧ numberText w = "0.007812" := by
  have hfinite : (0.0078125 : Float).isFinite = true := by decide +kernel
  have htext : numberText (0.0078125 : Float) = "0.007812" := by decide +kernel
  have hprinted : printed 0.0078125 = 7812 / 10 ^ 6 := by
    unfold printed
    rw [htext]
    decide +kernel
  obtain ⟨-, -, hnearest, -, -, ⟨w, hw⟩, hstable⟩ := numberText_rounded hfinite
  have hsame := hstable w hw
  rw [hprinted] at hnearest hw
  exact ⟨hfinite, htext, hnearest, w, hw, hsame.trans htext⟩

end Double

end Tween
