/-
Lengths cut to hundredths, in doubles: the cut of a finite length is not above
zero, or it is longer than the tolerance between two windows. Together with
the order of sums this makes doubles the numbers windows are computed in.
-/
import Tween.Proofs.Double.Whole

namespace Tween.Double

open Float.Model Float.Model.UnpackedFloat

/-- The mantissa of one hundred, at exponent `-46`. -/
def hundred : Nat := 100 * 2 ^ 46

theorem unpacked_hundred : unpacked 100.0 = .finite .positive hundred (-46) (by decide) := rfl

theorem IsRounded.pack {u : UnpackedFloat} {s : Sign} {n : Nat} (h : IsRounded u s n) :
    IsNum (.ofModel (.pack u)) ∧ Double.level (unpacked (.ofModel (.pack u))) = cut (s.apply n) :=
  Counts.pack ⟨h.canonical, h.isFinite, h.level⟩

/-! ## Products -/

variable {x y : Float}

theorem mul_hundred_isNum (hx : x.isFinite = true) : IsNum (x * 100.0) := by
  show IsNum (.ofModel (.pack (UnpackedFloat.mul Format.binary64 (unpacked x) (unpacked 100.0))))
  rw [unpacked_hundred]
  rcases finite_cases (u := unpacked x) hx with ⟨s, hzero⟩ | ⟨s, m, e, hpos, hm⟩
  · rw [hzero]
    have hcounts : Counts (UnpackedFloat.zero (s * .positive)) 0 := ⟨trivial, rfl, rfl⟩
    exact hcounts.pack.1
  · rw [hm]
    have hbits : 2 ^ 52 ≤ m * hundred := by
      calc 2 ^ 52 ≤ 1 * hundred := by decide
        _ ≤ m * hundred := Nat.mul_le_mul_right _ hpos
    have hmpos : 0 < m * hundred := by omega
    have hlog : 52 ≤ (m * hundred).log2 := (Nat.le_log2 hmpos.ne').2 hbits
    have hle : e + -46 ≤ grid (m * hundred) (e + -46) := by
      rw [grid]
      omega
    exact (roundWithAccuracy_isRounded (s * .positive) (StandsFor.exact (m * hundred))
      (Nat.div_one _).symm hmpos hle).pack.1

theorem add_isNum (hx : IsNum x) (hy : y.isFinite = true) : IsNum (x + y) := by
  rcases num_cases hx with ⟨s, hinf⟩ | hfinite
  · have hsum : x + y = .ofModel (.pack (.infinity s)) := by
      show Float.ofModel (.pack (UnpackedFloat.add Format.binary64 (unpacked x) (unpacked y))) = _
      rw [hinf]
      rcases finite_cases (u := unpacked y) hy with ⟨t, h⟩ | ⟨t, m, e, hpos, h⟩ <;> rw [h] <;>
        cases s <;> rfl
    refine isNum_of_infinity (s := s) ?_
    rw [hsum, unpacked_pack_infinity]
  · exact (add_finite hfinite hy).1

/-! ## Quotients by one hundred -/

theorem div_hundred_infinity (s : Sign) : UnpackedFloat.div Format.binary64 (.infinity s)
    (.finite .positive hundred (-46) (by decide)) = .infinity (s / .positive) := by
  simp only [UnpackedFloat.div]

theorem div_hundred_zero (s : Sign) : UnpackedFloat.div Format.binary64 (.zero s)
    (.finite .positive hundred (-46) (by decide)) = .zero (s / .positive) := by
  simp only [UnpackedFloat.div]

theorem divCore_hundred {m : Nat} {e : Int} (hlow : 2 ^ 52 ≤ m) (hlt : m < 2 ^ 53)
    (he : -52 ≤ e) : divCore Format.binary64 m e hundred (-46) =
      (m <<< 53 / hundred, e - 7, accuracyOfFraction (m <<< 53 % hundred) hundred) := by
  have hlog : m.log2 = 52 := (Nat.log2_eq_iff (by omega)).2 ⟨hlow, hlt⟩
  have hbits : Format.binary64.mantissaBits = 53 := rfl
  have hleast : Format.binary64.minExponent = -1074 := by decide
  have htotal : totalExponent hundred (-46) = 7 := by decide
  have htarget : min (e - -46) (Format.binary64.targetExponent
      (totalExponent m e - totalExponent hundred (-46))) = e - 7 := by
    rw [htotal, totalExponent, hlog, Format.targetExponent, hbits, hleast]
    omega
  have hshift : (e - -46 - (e - 7)).toNat = 53 := by omega
  simp only [divCore, htarget, hshift]

theorem quotient_bounds {m : Nat} (hlow : 2 ^ 52 ≤ m) (hlt : m < 2 ^ 53) :
    2 ^ 52 ≤ m <<< 53 / hundred ∧ m <<< 53 / hundred < 2 ^ 54 := by
  have hhundred : hundred = 7036874417766400 := by decide
  constructor
  · rw [Nat.le_div_iff_mul_le (by decide), Nat.shiftLeft_eq, hhundred]
    omega
  · rw [Nat.div_lt_iff_lt_mul (by decide), Nat.shiftLeft_eq, hhundred]
    omega

/-- Rounding takes off one bit at most, and what is left does not get lost. -/
theorem half_le_roundHalfEven {num den k : Nat} (h : 2 ^ 52 ≤ num / den) (hk : k ≤ 1) :
    2 ^ 51 ≤ roundHalfEven num (den * 2 ^ k) := by
  refine le_trans ?_ (div_le_roundHalfEven _ _)
  rw [← Nat.div_div_eq_div_mul, Nat.le_div_iff_mul_le (Nat.two_pow_pos k)]
  calc 2 ^ 51 * 2 ^ k ≤ 2 ^ 51 * 2 ^ 1 :=
        Nat.mul_le_mul_left _ (Nat.pow_le_pow_right (by decide) hk)
    _ ≤ num / den := h

/-- A hundredth of a number that is at least one is not rounded away. -/
theorem div_hundred_isRounded (s : Sign) {m : Nat} {e : Int} (hpos : 0 < m) (hbounds : Bounds m e)
    (he : -52 ≤ e) : ∃ n, magnitude (2 ^ 53) (-82) ≤ n ∧
      IsRounded (UnpackedFloat.div Format.binary64 (.finite s m e hpos)
        (.finite .positive hundred (-46) (by decide))) (s / .positive) n := by
  have hlow : 2 ^ 52 ≤ m := hbounds.leading.resolve_right (by omega)
  have hlt := hbounds.lt_two_pow
  obtain ⟨hqlow, hqlt⟩ := quotient_bounds hlow hlt
  obtain ⟨q, hq⟩ : ∃ q, q = m <<< 53 / hundred := ⟨_, rfl⟩
  rw [← hq] at hqlow hqlt
  have hlogle : 52 ≤ q.log2 := (Nat.le_log2 (by omega)).2 hqlow
  have hloglt : q.log2 < 54 := (Nat.log2_lt (by omega)).2 hqlt
  have hle : e - 7 ≤ grid q (e - 7) := by
    rw [grid]
    omega
  have hdrop : (grid q (e - 7) - (e - 7)).toNat ≤ 1 := by
    rw [grid]
    omega
  have h := roundWithAccuracy_isRounded (s / .positive)
    (@StandsFor.fraction (m <<< 53) hundred (by decide)) rfl (hq ▸ by omega) (hq ▸ hle)
  have hdiv : UnpackedFloat.div Format.binary64 (.finite s m e hpos)
      (.finite .positive hundred (-46) (by decide)) =
      roundWithAccuracy Format.binary64 (s / .positive) (m <<< 53 / hundred) (e - 7)
        (accuracyOfFraction (m <<< 53 % hundred) hundred) := by
    simp only [UnpackedFloat.div, divCore_hundred hlow hlt he]
  rw [hdiv]
  refine ⟨_, ?_, h⟩
  rw [← hq]
  calc magnitude (2 ^ 53) (-82) = 2 ^ (53 + (-82 + 1074 : Int).toNat) := by
        rw [magnitude, Nat.pow_add]
    _ ≤ 2 ^ (51 + (grid q (e - 7) + 1074).toNat) :=
        Nat.pow_le_pow_right (by decide) (by omega)
    _ = magnitude (2 ^ 51) (grid q (e - 7)) := by rw [magnitude, Nat.pow_add]
    _ ≤ _ := Nat.mul_le_mul_right _ (half_le_roundHalfEven (hq ▸ hqlow) hdrop)

theorem unpacked_tolerance :
    unpacked 1e-9 = .finite .positive 0x112E0BE826D695 (-82) (by decide) := rfl

/-- The side of zero a quotient is on goes by its sign, if it is not too small. -/
theorem side_of_level {q : Float} {s : Sign} {n : Nat} (hq : IsNum q)
    (hn : magnitude (2 ^ 53) (-82) ≤ n) (hlevel : level (unpacked q) = cut (s.apply n)) :
    q ≤ 0.0 ∨ 1e-9 ≤ q := by
  have htolerance : IsNum 1e-9 := by
    intro hnan
    rw [unpacked_tolerance] at hnan
    cases hnan
  have hsmall : level (unpacked 1e-9) < (magnitude (2 ^ 53) (-82) : Int) := by
    rw [unpacked_tolerance]
    exact Int.ofNat_lt.2 (magnitude_lt_magnitude (-82) (by decide))
  have hbelow := (level_bounds 1e-9).2
  cases s with
  | negative =>
    refine .inl (le_iff.2 ⟨hq, isNum_zero, ?_⟩)
    rw [hlevel, unpacked_zero]
    simp only [Sign.apply, cut, level]
    omega
  | positive =>
    refine .inr (le_iff.2 ⟨htolerance, hq, ?_⟩)
    rw [hlevel]
    simp only [Sign.apply, cut]
    omega

/-- A hundredth of a number without fraction is not above zero, or it is
greater than the tolerance between windows. -/
theorem div_hundred_cases (h : NoFraction x) : x / 100.0 ≤ 0.0 ∨ 1e-9 ≤ x / 100.0 := by
  have hquot : x / 100.0 = .ofModel (.pack (UnpackedFloat.div Format.binary64 (unpacked x)
      (.finite .positive hundred (-46) (by decide)))) := by
    rw [← unpacked_hundred]
    rfl
  rcases num_cases h.isNum with ⟨s, hinf⟩ | hfinite
  · have hstored : unpacked (x / 100.0) = .infinity (s / .positive) := by
      rw [hquot, hinf, div_hundred_infinity, unpacked_pack_infinity]
    have hlevel : level (unpacked (x / 100.0)) = cut ((s / .positive : Sign).apply ceiling) := by
      rw [hstored, cut_apply_ceiling]
      rfl
    refine side_of_level (isNum_of_infinity hstored) ?_ hlevel
    rw [magnitude, ← Nat.pow_add]
    exact two_pow_le_ceiling (by decide)
  rcases finite_cases hfinite with ⟨s, hx⟩ | ⟨s, m, e, hpos, hx⟩
  · have hcounts : Counts (UnpackedFloat.zero (s / .positive)) 0 := ⟨trivial, rfl, rfl⟩
    obtain ⟨hnum, hlevel⟩ := hcounts.pack
    refine .inl (le_iff.2 ?_)
    rw [hquot, hx, div_hundred_zero, unpacked_zero]
    refine ⟨hnum, isNum_zero, ?_⟩
    rw [hlevel, cut_zero]
    exact le_refl _
  · have hbounds := unpacked_canonical x
    rw [hx] at hbounds
    obtain ⟨n, hn, hrounded⟩ :=
      div_hundred_isRounded s hpos hbounds (least_exponent_of_unit_le hbounds (h.unit_le hx))
    obtain ⟨hnum, hlevel⟩ := hrounded.pack
    rw [← hx, ← hquot] at hnum hlevel
    exact side_of_level hnum hn hlevel

theorem centiseconds_cases (hx : x.isFinite = true) :
    centiseconds x ≤ 0.0 ∨ windowTolerance ≤ centiseconds x :=
  div_hundred_cases (floorDouble_noFraction (add_isNum (mul_hundred_isNum hx) rfl))

instance : WindowScalar Float where
  isFinite_zero := rfl
  isFinite_one := rfl
  one_beq_one := rfl
  zero_le_tolerance := by decide +kernel
  le_add hx h := OrderedScalar.le_trans (le_add_zero hx) (add_le_add_left hx h)
  add_le_add hx h := add_le_add_left hx h
  tolerance_le_centiseconds hx h := (centiseconds_cases hx).resolve_left h

end Tween.Double
