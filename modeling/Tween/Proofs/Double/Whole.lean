/-
Whole numbers as doubles. An integer of at most 53 bits is a double of exactly
its value, so the floor of a double is zero or at least one in magnitude.
-/
import Tween.Proofs.Double.Sum

namespace Tween.Double

open Float.Model Float.Model.UnpackedFloat

theorem apply_neg (s : Sign) (z : Int) : (-s).apply z = -s.apply z := by
  cases s with
  | positive => rfl
  | negative => exact (Int.neg_neg z).symm

theorem level_neg (x : Float) : level (unpacked (-x)) = -level (unpacked x) := by
  rw [unpacked_neg]
  cases unpacked x with
  | notANumber => rfl
  | zero s => rfl
  | infinity s => exact apply_neg s _
  | finite s m e hpos => exact apply_neg s _

theorem isNum_neg {x : Float} (h : IsNum x) : IsNum (-x) := by
  intro hnan
  rw [unpacked_neg] at hnan
  rcases num_cases h with ⟨s, hx⟩ | hx
  · rw [hx] at hnan
    cases hnan
  · rcases finite_cases hx with ⟨s, hx⟩ | ⟨s, m, e, hpos, hx⟩ <;> rw [hx] at hnan <;> cases hnan

/-- The product of two mantissas that has bits enough. -/
theorem mul_counts {s t : Sign} {m₁ m₂ : Nat} {e₁ e₂ : Int} (h₁ : 0 < m₁) (h₂ : 0 < m₂)
    (hleast : -1074 ≤ e₁ + e₂) (hbits : 2 ^ 52 ≤ m₁ * m₂) :
    Counts (UnpackedFloat.mul Format.binary64 (.finite s m₁ e₁ h₁) (.finite t m₂ e₂ h₂))
      (roundSigned ((s * t).apply (magnitude (m₁ * m₂) (e₁ + e₂)))) := by
  have hpos : 0 < m₁ * m₂ := Nat.mul_pos h₁ h₂
  have hlog : 52 ≤ (m₁ * m₂).log2 := (Nat.le_log2 hpos.ne').2 hbits
  have hle : e₁ + e₂ ≤ grid (m₁ * m₂) (e₁ + e₂) := by
    rw [grid]
    omega
  have h := roundWithAccuracy_isRounded (s * t) (StandsFor.exact (m₁ * m₂))
    (Nat.div_one _).symm hpos hle
  rw [Nat.one_mul, ← roundUnits_magnitude hpos hleast hle] at h
  exact h.counts

/-- The units in the number one. -/
def unit : Nat := magnitude 1 0

theorem magnitude_zero (n : Nat) : magnitude n 0 = n * unit := by
  rw [unit, magnitude, magnitude, Nat.one_mul]

theorem mul_unit_lt_ceiling {n : Nat} (h : n < 2 ^ 53) : n * unit < ceiling := by
  rw [← magnitude_zero]
  calc magnitude n 0 < magnitude (2 ^ 53) 0 := magnitude_lt_magnitude 0 h
    _ = 2 ^ (53 + (0 + 1074 : Int).toNat) := by rw [magnitude, Nat.pow_add]
    _ ≤ ceiling := two_pow_le_ceiling (by decide)

/-- From one on, the exponent leaves room for 52 binary places. -/
theorem least_exponent_of_unit_le {m : Nat} {e : Int} (h : Bounds m e)
    (hle : unit ≤ magnitude m e) : -52 ≤ e := by
  by_contra he
  have hleast := h.least_le
  have hlt : magnitude m e < unit := by
    calc magnitude m e < magnitude (2 ^ 53) e := magnitude_lt_magnitude e h.lt_two_pow
      _ = 2 ^ (53 + (e + 1074).toNat) := (Nat.pow_add ..).symm
      _ ≤ 2 ^ (0 + 1074 : Int).toNat := Nat.pow_le_pow_right (by decide) (by omega)
      _ = unit := by rw [unit, magnitude, Nat.one_mul]
  omega

/-- The double is a number with the value of an integer. -/
structure IsWhole (x : Float) (z : Int) : Prop where
  isNum : IsNum x
  level : level (unpacked x) = z * unit

theorem cut_of_lt {n : Nat} (h : n < ceiling) : cut n = n := by
  rw [cut]
  omega

theorem Counts.pack_isWhole {u : UnpackedFloat} {n : Nat} (h : Counts u (n * unit : Nat))
    (hn : n < 2 ^ 53) : IsWhole (.ofModel (.pack u)) n := by
  refine ⟨h.pack.1, h.pack.2.trans ?_⟩
  rw [cut_of_lt (mul_unit_lt_ceiling hn)]
  exact Int.natCast_mul n unit

theorem toFloat_isWhole {n : Nat} (h : n < 2 ^ 53) : IsWhole n.toUInt64.toFloat n := by
  have hn : n.toUInt64.toNat = n := by
    refine UInt64.toNat_ofNat_of_lt' (h.trans ?_)
    decide
  have hleast : (-1074 : Int) ≤ 0 := by decide
  have hcounts := normalize_counts (n : Int) hleast .positive
  have hunits : (n : Int) * 2 ^ (0 + 1074 : Int).toNat =
      Sign.positive.apply (magnitude n 0 : Nat) := by
    show _ = ((n * 2 ^ (0 + 1074 : Int).toNat : Nat) : Int)
    rw [Int.natCast_mul, Int.natCast_pow]
    rfl
  have hround : roundUnits (magnitude n 0) = n * unit := by
    rw [← magnitude_zero]
    by_cases hzero : n = 0
    · rw [hzero, magnitude, Nat.zero_mul]
      exact roundUnits_zero
    · exact roundUnits_of_lt 0 (Nat.pos_of_ne_zero hzero) h
  have hfloat : n.toUInt64.toFloat =
      .ofModel (.pack (UnpackedFloat.normalize Format.binary64 (n : Int) 0 .positive)) := by
    rw [UInt64.toFloat, Float.Model.ofUInt64, UnpackedFloat.ofUInt64, hn]
    rfl
  rw [hunits, roundSigned_apply, hround] at hcounts
  rw [hfloat]
  exact hcounts.pack_isWhole h

theorem ofNat_eq {n : Nat} (h : n < 2 ^ 53) :
    Float.ofNat n = n.toUInt64.toFloat * Float.ofBits 0x3FF0000000000000 := by
  show Float.ofScientific n false 0 = _
  rw [Float.ofScientific, dif_pos ⟨h, by decide⟩]
  rfl

theorem magnitude_scaled {m : Nat} {e : Int} (h : -1022 ≤ e) :
    magnitude (m * 2 ^ 52) (e + -52) = magnitude m e := by
  have hsplit : (e + 1074).toNat = 52 + (e + -52 + 1074).toNat := by omega
  rw [magnitude, magnitude, hsplit, Nat.pow_add, Nat.mul_assoc]

theorem IsWhole.cases {x : Float} {n : Nat} (hx : IsWhole x n) (h : n < 2 ^ 53) :
    (∃ s, unpacked x = .zero s) ∨
      ∃ m e hpos, unpacked x = .finite .positive m e hpos ∧ magnitude m e = n * unit := by
  have hlt := mul_unit_lt_ceiling h
  have hlevel := hx.level
  rw [← Int.natCast_mul] at hlevel
  rcases num_cases hx.isNum with ⟨s, hinf⟩ | hfinite
  · rw [hinf] at hlevel
    cases s <;> simp only [Double.level, Sign.apply] at hlevel <;> omega
  rcases finite_cases hfinite with ⟨s, hzero⟩ | ⟨s, m, e, hpos, hm⟩
  · exact .inl ⟨s, hzero⟩
  · have hmpos := magnitude_pos (e := e) hpos
    rw [hm] at hlevel
    cases s with
    | positive => exact .inr ⟨m, e, hpos, hm, Int.ofNat_inj.1 hlevel⟩
    | negative =>
      simp only [Double.level, Sign.apply] at hlevel
      omega

theorem IsWhole.mul_one {x y : Float} {n : Nat} (hx : IsWhole x n) (h : n < 2 ^ 53)
    (hy : unpacked y = .finite .positive (2 ^ 52) (-52) (by decide)) : IsWhole (x * y) n := by
  have hproduct : x * y = .ofModel (.pack (UnpackedFloat.mul Format.binary64 (unpacked x)
      (.finite .positive (2 ^ 52) (-52) (by decide)))) := by
    rw [← hy]
    rfl
  rw [hproduct]
  refine Counts.pack_isWhole ?_ h
  rcases hx.cases h with ⟨s, hzero⟩ | ⟨m, e, hpos, hm, hmn⟩
  · have hlevel := hx.level
    rw [hzero, ← Int.natCast_mul] at hlevel
    rw [hzero, ← hlevel]
    exact ⟨trivial, rfl, rfl⟩
  · have hbounds := unpacked_canonical x
    rw [hm] at hbounds ⊢
    have hmpos := magnitude_pos (e := e) hpos
    have hn : 0 < n := Nat.pos_of_mul_pos_right (hmn ▸ hmpos)
    have he : -52 ≤ e := least_exponent_of_unit_le hbounds (by
      rw [hmn]
      exact Nat.le_mul_of_pos_left unit hn)
    have hcounts := mul_counts (s := .positive) (t := .positive) hpos
      (by decide : 0 < 2 ^ 52) (by omega : -1074 ≤ e + -52) (by omega)
    rwa [magnitude_scaled (by omega), roundSigned_apply, roundUnits_of_lt e hpos hbounds.lt_two_pow,
      hmn] at hcounts

theorem ofNat_isWhole {n : Nat} (h : n < 2 ^ 53) : IsWhole (Float.ofNat n) n := by
  rw [ofNat_eq h]
  exact (toFloat_isWhole h).mul_one h rfl

theorem ofInt_isWhole {z : Int} (h : z.natAbs < 2 ^ 53) : IsWhole (Float.ofInt z) z := by
  cases z with
  | ofNat n => exact ofNat_isWhole h
  | negSucc n =>
    have hn := ofNat_isWhole (n := n + 1) h
    refine ⟨isNum_neg hn.isNum, ?_⟩
    show level (unpacked (-Float.ofNat (n + 1))) = _
    rw [level_neg, hn.level, Int.negSucc_eq]
    push_cast
    ring

/-! ## Floors -/

/-- Zero, or at least one in magnitude. -/
structure NoFraction (x : Float) : Prop where
  isNum : IsNum x
  level : level (unpacked x) = 0 ∨ unit ≤ (level (unpacked x)).natAbs

theorem IsWhole.noFraction {x : Float} {z : Int} (h : IsWhole x z) : NoFraction x := by
  refine ⟨h.isNum, ?_⟩
  by_cases hz : z = 0
  · left
    rw [h.level, hz, Int.zero_mul]
  · right
    rw [h.level, Int.natAbs_mul, Int.natAbs_natCast]
    exact Nat.le_mul_of_pos_left unit (Int.natAbs_pos.2 hz)

theorem natAbs_apply (s : Sign) (n : Nat) : (s.apply n).natAbs = n := by
  cases s <;> simp only [Sign.apply] <;> omega

theorem NoFraction.unit_le {x : Float} {s : Sign} {m : Nat} {e : Int} {hpos : 0 < m}
    (h : NoFraction x) (hx : unpacked x = .finite s m e hpos) : unit ≤ magnitude m e := by
  have hlevel := h.level
  have hmpos := magnitude_pos (e := e) hpos
  have habs := natAbs_apply s (magnitude m e)
  rw [hx, Double.level, habs] at hlevel
  refine hlevel.resolve_left ?_
  intro hzero
  rw [hzero] at habs
  omega

theorem unit_le_magnitude {m : Nat} {e : Int} (hpos : 0 < m) (he : 0 ≤ e) :
    unit ≤ magnitude m e := by
  rw [unit, magnitude, magnitude]
  exact Nat.mul_le_mul hpos (Nat.pow_le_pow_right (by decide) (by omega))

theorem floorDouble_noFraction {x : Float} (h : IsNum x) : NoFraction (floorDouble x) := by
  have hbounds := unpacked_canonical x
  have hread := ofDouble_eq x
  unfold floorDouble
  rcases num_cases h with ⟨s, hinf⟩ | hfinite
  · rw [hread, hinf]
    show NoFraction x
    refine ⟨h, .inr ?_⟩
    rw [hinf]
    show unit ≤ (s.apply ceiling).natAbs
    rw [natAbs_apply]
    have hlt := mul_unit_lt_ceiling (n := 1) (by decide)
    omega
  rcases finite_cases hfinite with ⟨s, hzero⟩ | ⟨s, m, e, hpos, hm⟩
  · rw [hread, hzero]
    simp only [exact, or_true, if_true]
    refine ⟨h, .inl ?_⟩
    rw [hzero]
    rfl
  · rw [hm] at hbounds
    rw [hread, hm]
    simp only [exact]
    by_cases he : 0 ≤ e ∨ m = 0
    · rw [if_pos he]
      refine ⟨h, .inr ?_⟩
      rw [hm]
      show unit ≤ (s.apply (magnitude m e)).natAbs
      rw [natAbs_apply]
      exact unit_le_magnitude hpos (by omega)
    · rw [if_neg he]
      have habs (z : Int) (k : Nat) (hz : z.natAbs = m) : (z / 2 ^ k).natAbs < 2 ^ 53 :=
        (Int.natAbs_ediv_le_natAbs z (2 ^ k)).trans_lt (hz ▸ hbounds.lt_two_pow)
      refine (ofInt_isWhole (habs _ _ ?_)).noFraction
      cases s with
      | negative => exact (Int.natAbs_neg m).trans (Int.natAbs_natCast m)
      | positive => exact Int.natAbs_natCast m

end Tween.Double
