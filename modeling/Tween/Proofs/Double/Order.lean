/-
The order of doubles is the order of integers: a double counts units of the
least positive one, and infinity counts for more than any finite double.
-/
import Tween.Proofs.Double.Encoding
import Tween.Proofs.Scalar

namespace Tween.Double

open Float.Model Float.Model.UnpackedFloat

/-- A magnitude in units of the least positive double. -/
def magnitude (m : Nat) (e : Int) : Nat := m * 2 ^ (e + 1074).toNat

/-- The magnitude given to infinity. -/
@[irreducible] def ceiling : Nat := 2 ^ 2098

/-- The place of a number among all doubles. -/
def level : UnpackedFloat → Int
  | .notANumber => 0
  | .infinity s => s.apply ceiling
  | .zero _ => 0
  | .finite s m e _ => s.apply (magnitude m e)

theorem magnitude_pos {m : Nat} {e : Int} (h : 0 < m) : 0 < magnitude m e :=
  Nat.mul_pos h (Nat.two_pow_pos _)

theorem magnitude_lt_magnitude {m₁ m₂ : Nat} (e : Int) (h : m₁ < m₂) :
    magnitude m₁ e < magnitude m₂ e :=
  Nat.mul_lt_mul_of_pos_right h (Nat.two_pow_pos _)

theorem two_pow_le_ceiling {k : Nat} (h : k ≤ 2098) : 2 ^ k ≤ ceiling := by
  unfold ceiling
  exact pow_le_pow_right₀ (by decide) h

theorem ceiling_le_two_pow {k : Nat} (h : 2098 ≤ k) : ceiling ≤ 2 ^ k := by
  unfold ceiling
  exact pow_le_pow_right₀ (by decide) h

theorem ceiling_pos : 0 < ceiling := by
  unfold ceiling
  exact pow_pos (by decide) 2098

theorem magnitude_lt_ceiling {m : Nat} {e : Int} (h : Bounds m e) (hroom : e ≤ 971) :
    magnitude m e < ceiling := by
  have hle : 53 + (e + 1074).toNat ≤ 2098 := by omega
  calc magnitude m e < magnitude (2 ^ 53) e := magnitude_lt_magnitude e h.lt_two_pow
    _ = 2 ^ (53 + (e + 1074).toNat) := (Nat.pow_add ..).symm
    _ ≤ ceiling := two_pow_le_ceiling hle

theorem ceiling_le_magnitude {m : Nat} {e : Int} (h : Bounds m e) (hroom : 971 < e) :
    ceiling ≤ magnitude m e := by
  have hm : 2 ^ 52 ≤ m := h.leading.resolve_right (by omega)
  calc ceiling ≤ 2 ^ (52 + (e + 1074).toNat) := ceiling_le_two_pow (by omega)
    _ = magnitude (2 ^ 52) e := Nat.pow_add ..
    _ ≤ magnitude m e := Nat.mul_le_mul_right _ hm

/-- The exponent is compared first: one more outweighs any mantissa. -/
theorem magnitude_lt_of_exponent_lt {m₁ m₂ : Nat} {e₁ e₂ : Int} (h₁ : Bounds m₁ e₁)
    (h₂ : Bounds m₂ e₂) (he : e₁ < e₂) : magnitude m₁ e₁ < magnitude m₂ e₂ := by
  have hleast := h₁.least_le
  have hm₂ : 2 ^ 52 ≤ m₂ := h₂.leading.resolve_right (by omega)
  have hle : 53 + (e₁ + 1074).toNat ≤ 52 + (e₂ + 1074).toNat := by omega
  calc magnitude m₁ e₁ < magnitude (2 ^ 53) e₁ := magnitude_lt_magnitude e₁ h₁.lt_two_pow
    _ = 2 ^ (53 + (e₁ + 1074).toNat) := (Nat.pow_add ..).symm
    _ ≤ 2 ^ (52 + (e₂ + 1074).toNat) := Nat.pow_le_pow_right (by decide) hle
    _ = 2 ^ 52 * 2 ^ (e₂ + 1074).toNat := Nat.pow_add ..
    _ ≤ magnitude m₂ e₂ := Nat.mul_le_mul_right _ hm₂

theorem compare_magnitude {m₁ m₂ : Nat} {e₁ e₂ : Int} (h₁ : Bounds m₁ e₁) (h₂ : Bounds m₂ e₂) :
    (compare e₁ e₂).then (compare m₁ m₂) =
      compare (magnitude m₁ e₁ : Int) (magnitude m₂ e₂) := by
  rcases lt_trichotomy e₁ e₂ with he | rfl | he
  · rw [compare_lt_iff_lt.2 he,
      compare_lt_iff_lt.2 (Int.ofNat_lt.2 (magnitude_lt_of_exponent_lt h₁ h₂ he))]
    rfl
  · rw [compare_eq_iff_eq.2 rfl]
    show compare m₁ m₂ = _
    rcases lt_trichotomy m₁ m₂ with hm | rfl | hm
    · rw [compare_lt_iff_lt.2 hm,
        compare_lt_iff_lt.2 (Int.ofNat_lt.2 (magnitude_lt_magnitude e₁ hm))]
    · rw [compare_eq_iff_eq.2 rfl, compare_eq_iff_eq.2 rfl]
    · rw [compare_gt_iff_gt.2 hm,
        compare_gt_iff_gt.2 (Int.ofNat_lt.2 (magnitude_lt_magnitude e₁ hm))]
  · rw [compare_gt_iff_gt.2 he,
      compare_gt_iff_gt.2 (Int.ofNat_lt.2 (magnitude_lt_of_exponent_lt h₂ h₁ he))]
    rfl

theorem compare_neg (a b : Int) : (compare a b).swap = compare (-a) (-b) := by
  rcases lt_trichotomy a b with h | rfl | h
  · rw [compare_lt_iff_lt.2 h, compare_gt_iff_gt.2 (by omega : -a > -b)]
    rfl
  · rw [compare_eq_iff_eq.2 rfl, compare_eq_iff_eq.2 rfl]
    rfl
  · rw [compare_gt_iff_gt.2 h, compare_lt_iff_lt.2 (by omega : -a < -b)]
    rfl

theorem compare_eq_level {u v : UnpackedFloat} (hu : Canonical u) (hv : Canonical v)
    (ru : HasRoom u) (rv : HasRoom v) (nu : u ≠ .notANumber) (nv : v ≠ .notANumber) :
    UnpackedFloat.compare u v = some (compare (level u) (level v)) := by
  have htop := ceiling_pos
  have hlt {a b : Int} (h : a < b) : Ordering.lt = compare a b := (compare_lt_iff_lt.2 h).symm
  have hgt {a b : Int} (h : b < a) : Ordering.gt = compare a b := (compare_gt_iff_gt.2 h).symm
  have heq (a : Int) : Ordering.eq = compare a a := (compare_eq_iff_eq.2 rfl).symm
  -- Signs and the kinds of the two numbers decide, unless both are finite and not zero.
  match u, v with
  | .notANumber, _ => exact absurd rfl nu
  | _, .notANumber => exact absurd rfl nv
  | .zero _, .zero _ => exact congrArg some (heq _)
  | .infinity s, .infinity t =>
    cases s <;> cases t <;> refine congrArg some ?_ <;> simp only [level, Sign.apply]
    all_goals first | exact heq _ | exact hlt (by omega) | exact hgt (by omega)
  | .infinity s, .zero _ | .zero _, .infinity s =>
    cases s <;> refine congrArg some ?_ <;> simp only [level, Sign.apply]
    all_goals first | exact hlt (by omega) | exact hgt (by omega)
  | .zero _, .finite s m e h | .finite s m e h, .zero _ =>
    have hpos := magnitude_pos (e := e) h
    cases s <;> refine congrArg some ?_ <;> simp only [level, Sign.apply]
    all_goals first | exact hlt (by omega) | exact hgt (by omega)
  | .infinity s, .finite t m e _ =>
    have hm := magnitude_lt_ceiling hv rv
    cases s <;> cases t <;> refine congrArg some ?_ <;> simp only [level, Sign.apply]
    all_goals first | exact hlt (by omega) | exact hgt (by omega)
  | .finite t m e _, .infinity s =>
    have hm := magnitude_lt_ceiling hu ru
    cases s <;> cases t <;> refine congrArg some ?_ <;> simp only [level, Sign.apply]
    all_goals first | exact hlt (by omega) | exact hgt (by omega)
  | .finite s m₁ e₁ h₁, .finite t m₂ e₂ h₂ =>
    have hpos₁ := magnitude_pos (e := e₁) h₁
    have hpos₂ := magnitude_pos (e := e₂) h₂
    cases s <;> cases t <;> refine congrArg some ?_ <;> simp only [level, Sign.apply]
    · rw [compare_magnitude hu hv, compare_neg]
    · exact hlt (by omega)
    · exact hgt (by omega)
    · exact compare_magnitude hu hv

/-! ## Comparisons of doubles -/

/-- Everything but "not a number". -/
def IsNum (x : Float) : Prop := unpacked x ≠ .notANumber

variable {x y : Float}

theorem compare_unpacked (hx : IsNum x) (hy : IsNum y) :
    UnpackedFloat.compare (unpacked x) (unpacked y) =
      some (compare (level (unpacked x)) (level (unpacked y))) :=
  compare_eq_level (unpacked_canonical x) (unpacked_canonical y) (unpacked_hasRoom x)
    (unpacked_hasRoom y) hx hy

theorem compare_unpacked_of_not (h : ¬ (IsNum x ∧ IsNum y)) :
    UnpackedFloat.compare (unpacked x) (unpacked y) = none := by
  by_cases hx : unpacked x = .notANumber
  · rw [hx]
    rfl
  · have hy : unpacked y = .notANumber := by
      by_contra hy
      exact h ⟨hx, hy⟩
    rw [hy]
    cases unpacked x <;> rfl

theorem le_iff : x ≤ y ↔ IsNum x ∧ IsNum y ∧ level (unpacked x) ≤ level (unpacked y) := by
  have hle : x ≤ y ↔ (UnpackedFloat.compare (unpacked x) (unpacked y)).any (·.isLE) = true :=
    decide_eq_true_iff
  by_cases h : IsNum x ∧ IsNum y
  · rw [hle, compare_unpacked h.1 h.2, Option.any_some, Std.isLE_compare]
    exact ⟨fun hle => ⟨h.1, h.2, hle⟩, fun hle => hle.2.2⟩
  · rw [hle, compare_unpacked_of_not h]
    exact ⟨fun hfalse => absurd hfalse Bool.false_ne_true, fun hle => absurd ⟨hle.1, hle.2.1⟩ h⟩

theorem lt_iff : x < y ↔ IsNum x ∧ IsNum y ∧ level (unpacked x) < level (unpacked y) := by
  have hlt : x < y ↔ (UnpackedFloat.compare (unpacked x) (unpacked y) == some .lt) = true :=
    decide_eq_true_iff
  by_cases h : IsNum x ∧ IsNum y
  · rw [hlt, compare_unpacked h.1 h.2, beq_iff_eq, Option.some_inj, compare_lt_iff_lt]
    exact ⟨fun hlt => ⟨h.1, h.2, hlt⟩, fun hlt => hlt.2.2⟩
  · rw [hlt, compare_unpacked_of_not h]
    exact ⟨fun hfalse => absurd hfalse Bool.false_ne_true, fun hlt => absurd ⟨hlt.1, hlt.2.1⟩ h⟩

theorem beq_iff :
    (x == y) = true ↔ IsNum x ∧ IsNum y ∧ level (unpacked x) = level (unpacked y) := by
  show (UnpackedFloat.compare (unpacked x) (unpacked y) == some .eq) = true ↔ _
  by_cases h : IsNum x ∧ IsNum y
  · rw [compare_unpacked h.1 h.2, beq_iff_eq, Option.some_inj, compare_eq_iff_eq]
    exact ⟨fun heq => ⟨h.1, h.2, heq⟩, fun heq => heq.2.2⟩
  · rw [compare_unpacked_of_not h]
    exact ⟨fun hfalse => absurd hfalse Bool.false_ne_true, fun heq => absurd ⟨heq.1, heq.2.1⟩ h⟩

theorem isNum_of_isFinite (h : x.isFinite = true) : IsNum x := by
  intro hnan
  have hfinite : (unpacked x).isFinite = true := h
  rw [hnan] at hfinite
  exact Bool.false_ne_true hfinite

theorem num_cases (h : IsNum x) :
    (∃ s, unpacked x = .infinity s) ∨ (unpacked x).isFinite = true := by
  cases hx : unpacked x with
  | notANumber => exact absurd hx h
  | infinity s => exact .inl ⟨s, rfl⟩
  | zero => exact .inr rfl
  | finite => exact .inr rfl

theorem isNum_of_infinity {s : Sign} (h : unpacked x = .infinity s) : IsNum x := by
  intro hnan
  rw [h] at hnan
  cases hnan

theorem unpacked_zero : unpacked 0.0 = .zero .positive := rfl

theorem isNum_zero : IsNum 0.0 := by
  intro hnan
  rw [unpacked_zero] at hnan
  cases hnan

theorem zero_of_level (hx : IsNum x) (h : level (unpacked x) = 0) : ∃ s, unpacked x = .zero s := by
  have htop := ceiling_pos
  rcases num_cases hx with ⟨s, hinf⟩ | hfinite
  · rw [hinf] at h
    cases s <;> simp only [level, Sign.apply] at h <;> omega
  rcases finite_cases hfinite with ⟨s, hzero⟩ | ⟨s, m, e, hpos, hm⟩
  · exact ⟨s, hzero⟩
  · have hmpos := magnitude_pos (e := e) hpos
    rw [hm] at h
    cases s <;> simp only [level, Sign.apply] at h <;> omega

/-- Only infinities reach the ceiling. -/
theorem level_lt (h : (unpacked x).isFinite = true) :
    -(ceiling : Int) < level (unpacked x) ∧ level (unpacked x) < ceiling := by
  have htop := ceiling_pos
  have hcanonical := unpacked_canonical x
  have hroom := unpacked_hasRoom x
  rcases finite_cases h with ⟨s, hx⟩ | ⟨s, m, e, hpos, hx⟩
  · rw [hx]
    exact ⟨by simp only [level]; omega, by simp only [level]; omega⟩
  · rw [hx] at hcanonical hroom ⊢
    have hlt := magnitude_lt_ceiling hcanonical hroom
    cases s <;> simp only [level, Sign.apply] <;> omega

theorem isNumber_iff : IsNumber x ↔ IsNum x :=
  ⟨fun h => (le_iff.1 h).1, fun h => le_iff.2 ⟨h, h, Int.le_refl _⟩⟩

instance : EqualScalar Float where
  beq_symm h := by
    obtain ⟨hx, hy, hlevel⟩ := beq_iff.1 h
    exact beq_iff.2 ⟨hy, hx, hlevel.symm⟩
  beq_trans h h' := by
    obtain ⟨hx, -, hxy⟩ := beq_iff.1 h
    obtain ⟨-, hz, hyz⟩ := beq_iff.1 h'
    exact beq_iff.2 ⟨hx, hz, hxy.trans hyz⟩

instance : OrderedScalar Float where
  number_left h := isNumber_iff.2 (le_iff.1 h).1
  number_right h := isNumber_iff.2 (le_iff.1 h).2.1
  le_total {x y} hx hy := by
    have nx := isNumber_iff.1 hx
    have ny := isNumber_iff.1 hy
    rcases Int.le_total (level (unpacked x)) (level (unpacked y)) with h | h
    · exact .inl (le_iff.2 ⟨nx, ny, h⟩)
    · exact .inr (le_iff.2 ⟨ny, nx, h⟩)
  le_trans h h' := by
    obtain ⟨nx, -, hxy⟩ := le_iff.1 h
    obtain ⟨-, nz, hyz⟩ := le_iff.1 h'
    exact le_iff.2 ⟨nx, nz, Int.le_trans hxy hyz⟩
  lt_iff {x y} := by
    constructor
    · intro h
      obtain ⟨nx, ny, hlt⟩ := lt_iff.1 h
      refine ⟨le_iff.2 ⟨nx, ny, Int.le_of_lt hlt⟩, ?_⟩
      intro hle
      exact absurd (le_iff.1 hle).2.2 (Int.not_le.2 hlt)
    · rintro ⟨h, h'⟩
      obtain ⟨nx, ny, -⟩ := le_iff.1 h
      exact lt_iff.2 ⟨nx, ny, Int.not_le.1 fun hle => h' (le_iff.2 ⟨ny, nx, hle⟩)⟩

end Tween.Double
