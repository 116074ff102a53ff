/-
Sums of doubles. The sum of two finite doubles is the sum of their counts of
units, rounded and cut off at infinity; so a fixed finite summand keeps the
order of doubles.
-/
import Tween.Proofs.Double.Rounding

namespace Tween.Double

open Float.Model Float.Model.UnpackedFloat

/-! ## Signed counts -/

/-- A signed count of units rounded to 53 leading bits. -/
def roundSigned (z : Int) : Int :=
  if 0 ≤ z then roundUnits z.toNat else -roundUnits (-z).toNat

theorem roundSigned_mono {z z' : Int} (h : z ≤ z') : roundSigned z ≤ roundSigned z' := by
  unfold roundSigned
  by_cases hz : 0 ≤ z
  · rw [if_pos hz, if_pos (by omega)]
    exact Int.ofNat_le.2 (roundUnits_mono (by omega))
  · rw [if_neg hz]
    split
    · omega
    · have hle : roundUnits (-z').toNat ≤ roundUnits (-z).toNat := roundUnits_mono (by omega)
      omega

theorem roundSigned_apply (s : Sign) (n : Nat) :
    roundSigned (s.apply n) = s.apply (roundUnits n) := by
  cases s with
  | positive => exact if_pos (Int.natCast_nonneg n)
  | negative =>
    by_cases hzero : n = 0
    · rw [hzero]
      rfl
    · have hneg : ¬ (0 : Int) ≤ -n := by omega
      have hnat : (- -(n : Int)).toNat = n := by omega
      show roundSigned (-n) = -roundUnits n
      rw [roundSigned, if_neg hneg, hnat]

/-- A count of units as it is stored: none goes beyond infinity. -/
def cut (z : Int) : Int := max (-ceiling) (min z ceiling)

theorem cut_mono {z z' : Int} (h : z ≤ z') : cut z ≤ cut z' := by
  unfold cut
  omega

theorem cut_zero : cut 0 = 0 := by
  have htop := ceiling_pos
  rw [cut]
  omega

theorem cut_apply_ceiling (s : Sign) : cut (s.apply ceiling) = s.apply ceiling := by
  have htop := ceiling_pos
  cases s <;> simp only [cut, Sign.apply] <;> omega

theorem level_stored {u : UnpackedFloat} (hu : Canonical u) :
    level (stored u) = cut (level u) := by
  have htop := ceiling_pos
  match u with
  | .notANumber | .zero _ =>
    simp only [stored, level, cut]
    omega
  | .infinity s => cases s <;> simp only [stored, level, cut, Sign.apply] <;> omega
  | .finite s m e _ =>
    by_cases hroom : e ≤ 971
    · have hlt := magnitude_lt_ceiling hu hroom
      rw [stored, if_pos hroom]
      cases s <;> simp only [level, cut, Sign.apply] <;> omega
    · have hle := ceiling_le_magnitude hu (by omega)
      rw [stored, if_neg hroom]
      cases s <;> simp only [level, cut, Sign.apply] <;> omega

/-! ## Sums -/

/-- A result that is stored as its count of units. -/
structure Counts (u : UnpackedFloat) (z : Int) : Prop where
  canonical : Canonical u
  isFinite : u.isFinite = true
  level : level u = z

theorem IsRounded.counts {u : UnpackedFloat} {s : Sign} {n : Nat}
    (h : IsRounded u s (roundUnits n)) : Counts u (roundSigned (s.apply n)) :=
  ⟨h.canonical, h.isFinite, by rw [roundSigned_apply, h.level]⟩

theorem Counts.of_finite {s : Sign} {m : Nat} {e : Int} (hpos : 0 < m) (h : Bounds m e) :
    Counts (.finite s m e hpos) (roundSigned (s.apply (magnitude m e))) :=
  ⟨h, rfl, by rw [roundSigned_apply, roundUnits_of_lt e hpos h.lt_two_pow]; rfl⟩

theorem normalize_counts (z : Int) {e : Int} (hleast : -1074 ≤ e) (s : Sign) :
    Counts (UnpackedFloat.normalize Format.binary64 z e s)
      (roundSigned (z * 2 ^ (e + 1074).toNat)) := by
  have hmagnitude (m : Nat) : ((magnitude m e : Nat) : Int) = m * 2 ^ (e + 1074).toNat := by
    rw [magnitude]
    push_cast
    rfl
  unfold UnpackedFloat.normalize
  rcases lt_trichotomy z 0 with hz | rfl | hz
  · have h := (round_isRounded .negative (by omega : 0 < (-z).toNat) hleast).counts
    have hval : Sign.negative.apply (magnitude (-z).toNat e) = z * 2 ^ (e + 1074).toNat := by
      show -((magnitude (-z).toNat e : Nat) : Int) = _
      rw [hmagnitude, Int.toNat_of_nonneg (by omega)]
      ring
    rw [compare_lt_iff_lt.2 hz]
    rwa [hval] at h
  · rw [compare_eq_iff_eq.2 rfl, Int.zero_mul]
    exact ⟨trivial, rfl, rfl⟩
  · have h := (round_isRounded .positive (by omega : 0 < z.toNat) hleast).counts
    have hval : Sign.positive.apply (magnitude z.toNat e) = z * 2 ^ (e + 1074).toNat := by
      show ((magnitude z.toNat e : Nat) : Int) = _
      rw [hmagnitude, Int.toNat_of_nonneg (by omega)]
    rw [compare_gt_iff_gt.2 hz]
    rwa [hval] at h

theorem apply_magnitude (s : Sign) (m : Nat) {e e' : Int} (hleast : -1074 ≤ e') (hle : e' ≤ e) :
    s.apply ((m <<< (e - e').toNat : Nat) : Int) * 2 ^ (e' + 1074).toNat =
      s.apply (magnitude m e) := by
  rw [← magnitude_shiftLeft m hleast hle, magnitude]
  cases s <;> simp only [Sign.apply] <;> push_cast <;> ring

theorem add_counts {u v : UnpackedFloat} (hu : Canonical u) (hv : Canonical v)
    (fu : u.isFinite = true) (fv : v.isFinite = true) :
    Counts (UnpackedFloat.add Format.binary64 u v) (roundSigned (level u + level v)) := by
  rcases finite_cases fu with ⟨s, rfl⟩ | ⟨s, m₁, e₁, h₁, rfl⟩ <;>
    rcases finite_cases fv with ⟨t, rfl⟩ | ⟨t, m₂, e₂, h₂, rfl⟩
  · cases s <;> cases t <;> exact ⟨trivial, rfl, rfl⟩
  · simp only [UnpackedFloat.add, level, Int.zero_add]
    exact Counts.of_finite h₂ hv
  · simp only [UnpackedFloat.add, level, Int.add_zero]
    exact Counts.of_finite h₁ hu
  · have hleast₁ := hu.least_le
    have hleast₂ := hv.least_le
    have hleast : -1074 ≤ min e₁ e₂ := by omega
    simp only [UnpackedFloat.add, level, decreaseExponent]
    rw [← apply_magnitude s m₁ hleast (Int.min_le_left e₁ e₂),
      ← apply_magnitude t m₂ hleast (Int.min_le_right e₁ e₂), ← Int.add_mul]
    exact normalize_counts _ hleast _

/-! ## Sums of doubles -/

theorem level_bounds (x : Float) :
    -(ceiling : Int) ≤ level (unpacked x) ∧ level (unpacked x) ≤ ceiling := by
  have h := level_stored (unpacked_canonical x)
  rw [stored_unpacked, cut] at h
  omega

theorem Counts.pack {u : UnpackedFloat} {z : Int} (h : Counts u z) :
    IsNum (.ofModel (.pack u)) ∧ Double.level (unpacked (.ofModel (.pack u))) = cut z := by
  rw [IsNum, unpacked_pack h.canonical, level_stored h.canonical, h.level]
  exact ⟨stored_isNum h.isFinite, rfl⟩

variable {x y z : Float}

theorem add_finite (hx : x.isFinite = true) (hy : y.isFinite = true) :
    IsNum (x + y) ∧
      level (unpacked (x + y)) = cut (roundSigned (level (unpacked x) + level (unpacked y))) :=
  (add_counts (unpacked_canonical x) (unpacked_canonical y) hx hy).pack

theorem add_infinity (hx : x.isFinite = true) {s : Sign} (hy : unpacked y = .infinity s) :
    unpacked (x + y) = .infinity s := by
  have hfinite : (unpacked x).isFinite = true := hx
  have hadd : UnpackedFloat.add Format.binary64 (unpacked x) (unpacked y) = .infinity s := by
    rw [hy]
    rcases finite_cases hfinite with ⟨t, h⟩ | ⟨t, m, e, hpos, h⟩ <;> rw [h] <;> cases s <;> rfl
  show unpacked (.ofModel (.pack (UnpackedFloat.add Format.binary64 (unpacked x) (unpacked y)))) = _
  rw [hadd, unpacked_pack_infinity]

/-- Below a finite double, infinity is negative. -/
theorem negative_of_le {s : Sign} (hy : unpacked y = .infinity s)
    (hz : (unpacked z).isFinite = true) (hle : level (unpacked y) ≤ level (unpacked z)) :
    s = .negative := by
  cases s with
  | negative => rfl
  | positive =>
    rw [hy] at hle
    exact absurd (level_lt hz).2 (Int.not_lt.2 hle)

/-- Above a finite double, infinity is positive. -/
theorem positive_of_le {s : Sign} (hz : unpacked z = .infinity s)
    (hy : (unpacked y).isFinite = true) (hle : level (unpacked y) ≤ level (unpacked z)) :
    s = .positive := by
  cases s with
  | positive => rfl
  | negative =>
    rw [hz] at hle
    exact absurd (level_lt hy).1 (Int.not_lt.2 hle)

/-- A finite first summand keeps the order of the second. -/
theorem add_le_add_left (hx : x.isFinite = true) (h : y ≤ z) : x + y ≤ x + z := by
  obtain ⟨ny, nz, hle⟩ := le_iff.1 h
  -- A sum with an infinity is that infinity, and bounds any other sum.
  rcases num_cases ny with ⟨s, hy⟩ | hy <;> rcases num_cases nz with ⟨t, hz⟩ | hz
  · have hxy := add_infinity hx hy
    have hxz := add_infinity hx hz
    refine le_iff.2 ⟨isNum_of_infinity hxy, isNum_of_infinity hxz, ?_⟩
    rwa [hxy, hxz, ← hy, ← hz]
  · have hxy := add_infinity hx hy
    obtain ⟨nxz, -⟩ := add_finite hx hz
    refine le_iff.2 ⟨isNum_of_infinity hxy, nxz, ?_⟩
    rw [hxy, negative_of_le hy hz hle]
    exact (level_bounds (x + z)).1
  · have hxz := add_infinity hx hz
    obtain ⟨nxy, -⟩ := add_finite hx hy
    refine le_iff.2 ⟨nxy, isNum_of_infinity hxz, ?_⟩
    rw [hxz, positive_of_le hz hy hle]
    exact (level_bounds (x + y)).2
  · obtain ⟨nxy, hxy⟩ := add_finite hx hy
    obtain ⟨nxz, hxz⟩ := add_finite hx hz
    refine le_iff.2 ⟨nxy, nxz, ?_⟩
    rw [hxy, hxz]
    exact cut_mono (roundSigned_mono (Int.add_le_add_left hle _))

theorem roundSigned_level (hx : (unpacked x).isFinite = true) :
    roundSigned (level (unpacked x)) = level (unpacked x) := by
  have hcanonical := unpacked_canonical x
  rcases finite_cases hx with ⟨s, h⟩ | ⟨s, m, e, hpos, h⟩ <;> rw [h] at hcanonical ⊢
  · show roundSigned 0 = 0
    exact rfl
  · exact (Counts.of_finite hpos hcanonical).level.symm

theorem le_add_zero (hx : x.isFinite = true) : x ≤ x + 0.0 := by
  have hzero : (0.0 : Float).isFinite = true := by
    show (unpacked 0.0).isFinite = true
    rw [unpacked_zero]
    rfl
  obtain ⟨n, hlevel⟩ := add_finite hx hzero
  refine le_iff.2 ⟨isNum_of_isFinite hx, n, ?_⟩
  have hstored := level_stored (unpacked_canonical x)
  rw [hlevel, unpacked_zero]
  show _ ≤ cut (roundSigned (level (unpacked x) + 0))
  rw [Int.add_zero, roundSigned_level hx, ← hstored, stored_unpacked]

end Tween.Double
