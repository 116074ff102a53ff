/-
What rounding does to a magnitude. A mantissa with its two residual bits
stands for a quotient of natural numbers; every shift to the right doubles the
denominator, and the rounded mantissa is the quotient rounded half to even. So
a rounded result counts a whole number of units of the least positive double,
and rounding keeps the order of the counts.
-/
import Tween.Proofs.Double.Order

namespace Tween.Double

open Float.Model Float.Model.UnpackedFloat

/-! ## Residual bits -/

/-- The extended mantissa stands for `num / den`: the round bit says whether
the remainder reaches a half, the sticky bit whether it is neither that nor
nothing. -/
structure StandsFor (em : ExtendedMantissa) (num den : Nat) : Prop where
  den_pos : 0 < den
  mantissa : em.mantissa = num / den
  roundBit : em.roundBit = decide (den ≤ 2 * (num % den))
  stickyBit : em.stickyBit = decide (2 * (num % den) ≠ 0 ∧ 2 * (num % den) ≠ den)

theorem StandsFor.exact (m : Nat) :
    StandsFor (ExtendedMantissa.ofMantissaAndAccuracy m .exact) m 1 := by
  refine ⟨Nat.one_pos, (Nat.div_one m).symm, ?_, ?_⟩ <;>
    simp [ExtendedMantissa.ofMantissaAndAccuracy, Nat.mod_one]

theorem StandsFor.fraction {num den : Nat} (hden : 0 < den) :
    StandsFor (ExtendedMantissa.ofMantissaAndAccuracy (num / den)
      (accuracyOfFraction (num % den) den)) num den := by
  have hlt := Nat.mod_lt num hden
  unfold accuracyOfFraction
  by_cases hzero : num % den = 0
  · rw [if_pos hzero]
    refine ⟨hden, rfl, ?_, ?_⟩
    · simp [ExtendedMantissa.ofMantissaAndAccuracy, hzero]
      omega
    · simp [ExtendedMantissa.ofMantissaAndAccuracy, hzero]
  · rw [if_neg hzero]
    rcases lt_trichotomy (2 * (num % den)) den with h | h | h
    · rw [compare_lt_iff_lt.2 h]
      refine ⟨hden, rfl, ?_, ?_⟩ <;> simp [ExtendedMantissa.ofMantissaAndAccuracy] <;> omega
    · rw [compare_eq_iff_eq.2 h]
      refine ⟨hden, rfl, ?_, ?_⟩ <;> simp [ExtendedMantissa.ofMantissaAndAccuracy] <;> omega
    · rw [compare_gt_iff_gt.2 h]
      refine ⟨hden, rfl, ?_, ?_⟩ <;> simp [ExtendedMantissa.ofMantissaAndAccuracy] <;> omega

theorem StandsFor.shiftRightOne {em : ExtendedMantissa} {num den : Nat}
    (h : StandsFor em num den) : StandsFor em.shiftRightOne num (den * 2) := by
  have hden := h.den_pos
  have hlt := Nat.mod_lt num hden
  have hmod : num % (den * 2) = num % den + den * (num / den % 2) := Nat.mod_mul
  -- The bit shifted out is the new round bit; both old ones go into the sticky bit.
  have hbit : num / den % 2 = 0 ∨ num / den % 2 = 1 := by omega
  refine ⟨by omega, ?_, ?_, ?_⟩
  · rw [ExtendedMantissa.shiftRightOne, h.mantissa, Nat.div_div_eq_div_mul]
  · simp only [ExtendedMantissa.shiftRightOne, h.mantissa, hmod]
    rcases hbit with hbit | hbit <;> simp [hbit] <;> omega
  · simp only [ExtendedMantissa.shiftRightOne, h.roundBit, h.stickyBit, hmod]
    rw [Bool.eq_iff_iff, Bool.or_eq_true, decide_eq_true_iff, decide_eq_true_iff,
      decide_eq_true_iff]
    rcases hbit with hbit | hbit <;> rw [hbit] <;> omega

theorem StandsFor.shiftRight {em : ExtendedMantissa} {num den : Nat} (h : StandsFor em num den)
    (k : Nat) : StandsFor (em >>> k) num (den * 2 ^ k) := by
  induction k with
  | zero =>
    rw [Nat.pow_zero, Nat.mul_one]
    exact h
  | succ k ih =>
    rw [Nat.pow_succ, ← Nat.mul_assoc]
    exact ih.shiftRightOne

theorem StandsFor.roundedMantissa {em : ExtendedMantissa} {num den : Nat}
    (h : StandsFor em num den) : em.roundedMantissa = roundHalfEven num den := by
  obtain ⟨m, roundBit, stickyBit⟩ := em
  obtain ⟨hden, hm, hround, hsticky⟩ := h
  simp only at hm hround hsticky
  simp only [ExtendedMantissa.roundedMantissa, roundHalfEven, ← hm]
  rcases lt_trichotomy (2 * (num % den)) den with hlt | heq | hgt
  · have hround' : roundBit = false := by
      rw [hround, decide_eq_false_iff_not]
      omega
    rw [if_pos hlt, hround']
    cases stickyBit <;> rfl
  · have hround' : roundBit = true := by
      rw [hround, decide_eq_true_iff]
      omega
    have hsticky' : stickyBit = false := by
      rw [hsticky, decide_eq_false_iff_not]
      omega
    rw [if_neg (by omega), if_neg (by omega), hround', hsticky']
    show m + m % 2 = _
    split <;> omega
  · have hround' : roundBit = true := by
      rw [hround, decide_eq_true_iff]
      omega
    have hsticky' : stickyBit = true := by
      rw [hsticky, decide_eq_true_iff]
      omega
    rw [if_neg (by omega), if_pos hgt, hround', hsticky']
    rfl

/-! ## Rounded quotients -/

theorem div_le_roundHalfEven (num den : Nat) : num / den ≤ roundHalfEven num den := by
  unfold roundHalfEven
  dsimp only
  split
  · exact Nat.le_refl _
  · split
    · exact Nat.le_succ _
    · split
      · exact Nat.le_refl _
      · exact Nat.le_succ _

theorem roundHalfEven_le_succ (num den : Nat) : roundHalfEven num den ≤ num / den + 1 := by
  unfold roundHalfEven
  dsimp only
  split
  · exact Nat.le_succ _
  · split
    · exact Nat.le_refl _
    · split
      · exact Nat.le_succ _
      · exact Nat.le_refl _

theorem roundHalfEven_mono {num num' : Nat} (den : Nat) (h : num ≤ num') :
    roundHalfEven num den ≤ roundHalfEven num' den := by
  have hle : num / den ≤ num' / den := Nat.div_le_div_right h
  by_cases hlt : num / den < num' / den
  · calc roundHalfEven num den ≤ num / den + 1 := roundHalfEven_le_succ num den
      _ ≤ num' / den := hlt
      _ ≤ roundHalfEven num' den := div_le_roundHalfEven num' den
  · have heq : num / den = num' / den := by omega
    have hmod : num % den ≤ num' % den := by
      have hnum := Nat.div_add_mod num den
      have hnum' := Nat.div_add_mod num' den
      rw [heq] at hnum
      omega
    unfold roundHalfEven
    dsimp only
    rw [heq]
    split_ifs <;> omega

theorem roundHalfEven_scale (num den : Nat) {c : Nat} (hc : 0 < c) :
    roundHalfEven (num * c) (den * c) = roundHalfEven num den := by
  have hbelow : 2 * (num % den * c) < den * c ↔ 2 * (num % den) < den := by
    rw [← Nat.mul_assoc]
    exact Nat.mul_lt_mul_right hc
  have habove : den * c < 2 * (num % den * c) ↔ den < 2 * (num % den) := by
    rw [← Nat.mul_assoc]
    exact Nat.mul_lt_mul_right hc
  unfold roundHalfEven
  simp only [Nat.mul_div_mul_right _ _ hc, Nat.mul_mod_mul_right, hbelow, habove]

/-! ## Rounding a mantissa -/

/-- The unit a mantissa and exponent are rounded to. -/
def grid (m : Nat) (e : Int) : Int := max (m.log2 + e - 52) (-1074)

theorem targetExponent_eq (m : Nat) (e : Int) :
    Format.binary64.targetExponent (totalExponent m e) = grid m e := by
  have hbits : Format.binary64.mantissaBits = 53 := rfl
  have hleast : Format.binary64.minExponent = -1074 := by decide
  rw [Format.targetExponent, totalExponent, hbits, hleast, grid]
  congr 1
  omega

/-- The canonical double of a sign and a count of units. -/
structure IsRounded (u : UnpackedFloat) (s : Sign) (units : Nat) : Prop where
  canonical : Canonical u
  isFinite : u.isFinite = true
  level : level u = s.apply units

theorem grid_of_bounds {m : Nat} {e : Int} (h : Bounds m e) : grid m e ≤ e := by
  have hlog : m.log2 ≤ 52 := by
    by_cases hzero : m = 0
    · rw [hzero]
      decide
    · exact Nat.le_of_lt_succ ((Nat.log2_lt hzero).2 h.lt_two_pow)
  have hleast := h.least_le
  rw [grid]
  omega

theorem shiftToTargetExponent_of_le {m : Nat} {e : Int} (h : grid m e ≤ e) :
    shiftToTargetExponent Format.binary64 m e .exact = (⟨m, false, false⟩, e) := by
  have hzero : (grid m e - e).toNat = 0 := by omega
  simp only [shiftToTargetExponent, shiftToExponent, targetExponent_eq, hzero]
  simp only [Int.natCast_zero, Int.add_zero]
  rfl

theorem magnitude_carry {e : Int} (h : -1074 ≤ e) :
    magnitude (2 ^ 52) (e + 1) = magnitude (2 ^ 53) e := by
  have hsucc : (e + 1 + 1074).toNat = (e + 1074).toNat + 1 := by omega
  rw [magnitude, magnitude, hsucc, Nat.pow_succ]
  ring

theorem shiftToTargetExponent_carry {e : Int} (h : -1074 ≤ e) :
    shiftToTargetExponent Format.binary64 (2 ^ 53) e .exact = (⟨2 ^ 52, false, false⟩, e + 1) := by
  have hgrid : grid (2 ^ 53) e = e + 1 := by
    rw [grid, Nat.log2_two_pow]
    omega
  have hone : (e + 1 - e).toNat = 1 := by omega
  unfold shiftToTargetExponent shiftToExponent
  rw [targetExponent_eq, hgrid]
  dsimp only
  rw [hone]
  rfl

/-- The last step of rounding: a mantissa that was carried out of its 53 bits
moves to the next exponent. -/
theorem carried_isRounded (s : Sign) {r : Nat} {e : Int} (hle : r ≤ 2 ^ 53)
    (hleast : -1074 ≤ e) (hleading : 2 ^ 52 ≤ r ∨ e = -1074) (em : ExtendedMantissa) (e' : Int)
    (hshift : shiftToTargetExponent Format.binary64 r e .exact = (em, e')) :
    IsRounded (if h : em.mantissa = 0 then .zero s
      else .finite s em.mantissa e' (Nat.pos_of_ne_zero h)) s (magnitude r e) := by
  by_cases hcarry : r = 2 ^ 53
  · rw [hcarry] at hshift ⊢
    rw [shiftToTargetExponent_carry hleast, Prod.mk.injEq] at hshift
    obtain ⟨rfl, rfl⟩ := hshift
    rw [dif_neg (by decide)]
    refine ⟨⟨by decide, ?_, .inl (by decide)⟩, rfl, ?_⟩
    · show -1074 ≤ e + 1
      omega
    · rw [← magnitude_carry hleast]
      rfl
  · have hbounds : Bounds r e := ⟨by omega, hleast, hleading⟩
    rw [shiftToTargetExponent_of_le (grid_of_bounds hbounds), Prod.mk.injEq] at hshift
    obtain ⟨rfl, rfl⟩ := hshift
    by_cases hzero : r = 0
    · rw [dif_pos hzero]
      refine ⟨trivial, rfl, ?_⟩
      rw [hzero, magnitude, Nat.zero_mul]
      cases s <;> rfl
    · rw [dif_neg hzero]
      exact ⟨hbounds, rfl, rfl⟩

/-- On its grid a mantissa has at most 53 bits, and no fewer above the least
exponent. -/
theorem div_grid_bounds {m k : Nat} {e : Int} (hpos : 0 < m) (hle : e ≤ grid m e)
    (hk : (grid m e - e).toNat = k) :
    m / 2 ^ k < 2 ^ 53 ∧ (2 ^ 52 ≤ m / 2 ^ k ∨ grid m e = -1074) := by
  rw [grid] at hk hle ⊢
  constructor
  · rw [Nat.div_lt_iff_lt_mul (Nat.two_pow_pos k), ← Nat.pow_add]
    refine (Nat.log2_lt hpos.ne').1 ?_
    omega
  · by_cases hleast : max (m.log2 + e - 52) (-1074) = -1074
    · exact .inr hleast
    · left
      rw [Nat.le_div_iff_mul_le (Nat.two_pow_pos k), ← Nat.pow_add]
      refine (Nat.le_log2 hpos.ne').1 ?_
      omega

/-- Rounding a quotient whose mantissa has bits enough for the grid. -/
theorem roundWithAccuracy_isRounded (s : Sign) {m num den : Nat} {e : Int} {acc : Accuracy}
    (hacc : StandsFor (ExtendedMantissa.ofMantissaAndAccuracy m acc) num den)
    (hm : m = num / den) (hpos : 0 < m) (hle : e ≤ grid m e) :
    IsRounded (roundWithAccuracy Format.binary64 s m e acc) s
      (magnitude (roundHalfEven num (den * 2 ^ (grid m e - e).toNat)) (grid m e)) := by
  have hleast : -1074 ≤ grid m e := by
    rw [grid]
    omega
  generalize hk : (grid m e - e).toNat = k
  have he : e + (k : Int) = grid m e := by omega
  have hquot : num / (den * 2 ^ k) = m / 2 ^ k := by rw [hm, Nat.div_div_eq_div_mul]
  obtain ⟨hlt, hleading⟩ := div_grid_bounds hpos hle hk
  generalize hr : roundHalfEven num (den * 2 ^ k) = r
  have hlow : m / 2 ^ k ≤ r := by
    rw [← hquot, ← hr]
    exact div_le_roundHalfEven _ _
  have hhigh : r ≤ m / 2 ^ k + 1 := by
    rw [← hquot, ← hr]
    exact roundHalfEven_le_succ _ _
  have hrounded : ((ExtendedMantissa.ofMantissaAndAccuracy m acc) >>> k).roundedMantissa = r := by
    rw [← hr]
    exact (hacc.shiftRight k).roundedMantissa
  have hfirst : shiftToTargetExponent Format.binary64 m e acc =
      ((ExtendedMantissa.ofMantissaAndAccuracy m acc) >>> k, grid m e) := by
    simp only [shiftToTargetExponent, shiftToExponent, targetExponent_eq, hk, he]
  simp only [roundWithAccuracy, hfirst, hrounded]
  refine carried_isRounded s (by omega) hleast ?_ _ _ rfl
  rcases hleading with h | h
  · exact .inl (h.trans hlow)
  · exact .inr h

/-! ## Rounding a count of units -/

/-- A count of units rounded to 53 leading bits. -/
def roundUnits (n : Nat) : Nat :=
  roundHalfEven n (2 ^ (n.log2 - 52)) * 2 ^ (n.log2 - 52)

theorem magnitude_shiftLeft (m : Nat) {e e' : Int} (hleast : -1074 ≤ e') (hle : e' ≤ e) :
    magnitude (m <<< (e - e').toNat) e' = magnitude m e := by
  have hsplit : (e + 1074).toNat = (e - e').toNat + (e' + 1074).toNat := by omega
  rw [magnitude, magnitude, hsplit, Nat.pow_add, Nat.shiftLeft_eq, Nat.mul_assoc]

theorem log2_shiftLeft {m : Nat} (hpos : 0 < m) (k : Nat) : (m <<< k).log2 = m.log2 + k := by
  rw [Nat.shiftLeft_eq]
  induction k with
  | zero => rw [Nat.pow_zero, Nat.mul_one, Nat.add_zero]
  | succ k ih =>
    have hne : m * 2 ^ k ≠ 0 := (Nat.mul_pos hpos (Nat.two_pow_pos k)).ne'
    rw [Nat.pow_succ, ← Nat.mul_assoc, Nat.mul_comm _ 2, Nat.log2_two_mul hne, ih]
    rfl

theorem log2_magnitude {m : Nat} (e : Int) (hpos : 0 < m) :
    (magnitude m e).log2 = m.log2 + (e + 1074).toNat := by
  rw [magnitude, ← Nat.shiftLeft_eq, log2_shiftLeft hpos]

theorem roundUnits_magnitude {m : Nat} {e : Int} (hpos : 0 < m) (hleast : -1074 ≤ e)
    (hle : e ≤ grid m e) :
    roundUnits (magnitude m e) =
      magnitude (roundHalfEven m (2 ^ (grid m e - e).toNat)) (grid m e) := by
  have hlog := log2_magnitude e hpos
  have hgrid : (magnitude m e).log2 - 52 = (grid m e + 1074).toNat := by
    rw [hlog, grid]
    omega
  have hsplit : (grid m e + 1074).toNat = (grid m e - e).toNat + (e + 1074).toNat := by omega
  rw [roundUnits, hgrid, magnitude, magnitude]
  congr 1
  rw [hsplit, Nat.pow_add]
  exact roundHalfEven_scale m _ (Nat.two_pow_pos _)

theorem round_isRounded (s : Sign) {m : Nat} {e : Int} (hpos : 0 < m) (hleast : -1074 ≤ e) :
    IsRounded (UnpackedFloat.round Format.binary64 s m e) s (roundUnits (magnitude m e)) := by
  have hgrid : -1074 ≤ grid m e := by
    rw [grid]
    omega
  generalize he : e - ((e - grid m e).toNat : Int) = e'
  generalize hm : m <<< (e - grid m e).toNat = m'
  have hpos' : 0 < m' := by
    rw [← hm, Nat.shiftLeft_eq]
    exact Nat.mul_pos hpos (Nat.two_pow_pos _)
  have hsame : grid m' e' = grid m e := by
    rw [← he, ← hm, grid, log2_shiftLeft hpos, grid]
    omega
  have hle : e' ≤ grid m' e' := by
    rw [hsame]
    omega
  have hshift : (e - e').toNat = (e - grid m e).toNat := by omega
  have hunits : magnitude m' e' = magnitude m e := by
    rw [← hm, ← hshift]
    exact magnitude_shiftLeft m (by omega) (by omega)
  have hround : UnpackedFloat.round Format.binary64 s m e =
      roundWithAccuracy Format.binary64 s m' e' .exact := by
    simp only [UnpackedFloat.round, decreaseExponent, targetExponent_eq, hm, he]
  rw [hround, ← hunits, roundUnits_magnitude hpos' (by omega) hle]
  have h := roundWithAccuracy_isRounded s (StandsFor.exact m') (Nat.div_one m').symm hpos' hle
  rwa [Nat.one_mul] at h

theorem roundUnits_le (n : Nat) : roundUnits n ≤ 2 ^ (53 + (n.log2 - 52)) := by
  have hlt : n < 2 ^ (53 + (n.log2 - 52)) :=
    Nat.lt_log2_self.trans_le (Nat.pow_le_pow_right (by decide) (by omega))
  rw [Nat.pow_add] at hlt ⊢
  refine Nat.mul_le_mul_right _ ?_
  have hquot := Nat.div_lt_of_lt_mul (by rwa [Nat.mul_comm] at hlt)
  exact (roundHalfEven_le_succ _ _).trans hquot

theorem le_roundUnits {n : Nat} (h : 52 ≤ n.log2) : 2 ^ n.log2 ≤ roundUnits n := by
  have hne : n ≠ 0 := by
    rintro rfl
    exact absurd h (by decide)
  have hsplit : n.log2 = 52 + (n.log2 - 52) := by omega
  have hle : 2 ^ n.log2 ≤ n := Nat.log2_self_le hne
  have hquot : 2 ^ 52 ≤ n / 2 ^ (n.log2 - 52) := by
    rw [Nat.le_div_iff_mul_le (Nat.two_pow_pos _), ← Nat.pow_add, ← hsplit]
    exact hle
  calc 2 ^ n.log2 = 2 ^ 52 * 2 ^ (n.log2 - 52) := by rw [← Nat.pow_add, ← hsplit]
    _ ≤ roundUnits n := Nat.mul_le_mul_right _ (hquot.trans (div_le_roundHalfEven _ _))

/-- Rounding keeps the order of counts, also across two grids. -/
theorem roundUnits_mono {n n' : Nat} (h : n ≤ n') : roundUnits n ≤ roundUnits n' := by
  by_cases hsame : n.log2 - 52 = n'.log2 - 52
  · rw [roundUnits, roundUnits, hsame]
    exact Nat.mul_le_mul_right _ (roundHalfEven_mono _ h)
  · have hlog : n.log2 ≤ n'.log2 := by
      by_cases hzero : n = 0
      · rw [hzero]
        exact Nat.zero_le _
      · exact (Nat.le_log2 (by omega)).2 ((Nat.log2_self_le hzero).trans h)
    -- A power of two is on both grids and keeps the two counts apart.
    calc roundUnits n ≤ 2 ^ (53 + (n.log2 - 52)) := roundUnits_le n
      _ ≤ 2 ^ n'.log2 := Nat.pow_le_pow_right (by decide) (by omega)
      _ ≤ roundUnits n' := le_roundUnits (by omega)

theorem roundUnits_zero : roundUnits 0 = 0 := rfl

theorem roundUnits_of_lt {m : Nat} (e : Int) (hpos : 0 < m) (h : m < 2 ^ 53) :
    roundUnits (magnitude m e) = magnitude m e := by
  have hlog := log2_magnitude e hpos
  have hbits : m.log2 < 53 := (Nat.log2_lt hpos.ne').2 h
  generalize hk : (magnitude m e).log2 - 52 = k
  have hdvd : 2 ^ k ∣ magnitude m e :=
    (Nat.pow_dvd_pow 2 (by omega)).trans (Nat.dvd_mul_left _ _)
  obtain ⟨a, ha⟩ := hdvd
  have hexact : roundHalfEven (a * 2 ^ k) (1 * 2 ^ k) = a := by
    rw [roundHalfEven_scale a 1 (Nat.two_pow_pos k)]
    simp [roundHalfEven, Nat.mod_one]
  rw [Nat.one_mul] at hexact
  rw [roundUnits, hk, ha, Nat.mul_comm (2 ^ k) a, hexact]

end Tween.Double
