/-
Decimal numerals. A numeral is a sign, digits in front of a point and digits
behind it; `Numeral.ofText` takes a text apart into these and `Numeral.value`
reads them. The compact form of a decimal is the numeral of its units
(`text_ofUnits`). It is canonical (`isCanonical_ofUnits`), and it is read as the
units that were written (`value_ofUnits`).
-/
import Mathlib.Algebra.Order.Field.Rat
import Mathlib.Tactic.FieldSimp
import Mathlib.Tactic.Ring
import Tween.Number.Text

namespace Tween

/-! ## Digits -/

theorem isDigit_of_mem_digits {n : Nat} {c : Char} (h : c ∈ digits n) : c.isDigit = true :=
  Nat.isDigit_of_mem_toDigits (by decide) (by decide) h

theorem eq_zero_of_head?_digits {n : Nat} (h : (digits n).head? = some '0') : n = 0 := by
  induction n using Nat.strongRecOn with
  | ind n ih =>
    unfold digits at h ih
    by_cases hlt : n < 10
    · rw [Nat.toDigits_of_lt_base hlt] at h
      simpa using h
    · rw [Nat.toDigits_of_base_le (by decide) (by omega),
        List.head?_append_of_ne_nil _ Nat.toDigits_ne_nil] at h
      have hshorter := ih (n / 10) (by omega) h
      omega

theorem ofDigitChars_padded (length n : Nat) :
    Nat.ofDigitChars 10 (padded length (digits n)) 0 = n := by
  unfold padded digits
  rw [Nat.ofDigitChars_append, Nat.ofDigitChars_replicate_zero, Nat.mul_zero,
    Nat.ofDigitChars_ten_toDigits]

theorem length_padded {places n : Nat} (h : n < 10 ^ places) (hplaces : 0 < places) :
    (padded places (digits n)).length = places := by
  have hlength : (digits n).length ≤ places :=
    (Nat.length_toDigits_le_iff (by decide) hplaces).2 h
  unfold padded
  rw [List.length_append, List.length_replicate]
  omega

theorem isDigit_of_mem_padded {length n : Nat} {c : Char} (h : c ∈ padded length (digits n)) :
    c.isDigit = true := by
  rcases List.mem_append.1 h with h | h
  · obtain rfl := List.eq_of_mem_replicate h
    decide
  · exact isDigit_of_mem_digits h

theorem withoutFinalZeros_append (ds : List Char) :
    ∃ k, ds = withoutFinalZeros ds ++ List.replicate k '0' := by
  have hsplit := List.takeWhile_append_dropWhile (p := (· == '0')) (l := ds.reverse)
  refine ⟨(ds.reverse.takeWhile (· == '0')).length, ?_⟩
  have hzeros : (ds.reverse.takeWhile (· == '0')).reverse =
      List.replicate (ds.reverse.takeWhile (· == '0')).length '0' := by
    rw [List.eq_replicate_iff]
    refine ⟨List.length_reverse, ?_⟩
    intro c hc
    have hall := List.all_eq_true.1 List.all_takeWhile c (List.mem_reverse.1 hc)
    simpa using hall
  unfold withoutFinalZeros
  rw [← hzeros, ← List.reverse_append, hsplit, List.reverse_reverse]

/-- The digits behind a point with final zeros left out, after the digits in
front of it. -/
theorem ofDigitChars_stripped (whole : Nat) {places : Nat} {ds : List Char} {k : Nat}
    (hds : ds.length = places) (hk : ds = withoutFinalZeros ds ++ List.replicate k '0') :
    (withoutFinalZeros ds).length + k = places ∧
      Nat.ofDigitChars 10 (digits whole ++ withoutFinalZeros ds) 0 * 10 ^ k =
        whole * 10 ^ places + Nat.ofDigitChars 10 ds 0 := by
  generalize withoutFinalZeros ds = stripped at hk
  subst hk
  rw [List.length_append, List.length_replicate] at hds
  refine ⟨hds, ?_⟩
  rw [Nat.ofDigitChars_append, Nat.ofDigitChars_append, digits, Nat.ofDigitChars_ten_toDigits,
    Nat.ofDigitChars_replicate_zero, Nat.ofDigitChars_eq_ofDigitChars_zero, ← hds, Nat.pow_add]
  ring

theorem mem_of_mem_withoutFinalZeros {ds : List Char} {c : Char} (h : c ∈ withoutFinalZeros ds) :
    c ∈ ds := by
  obtain ⟨k, hk⟩ := withoutFinalZeros_append ds
  rw [hk]
  exact List.mem_append_left _ h

theorem getLast?_withoutFinalZeros (ds : List Char) :
    (withoutFinalZeros ds).getLast? ≠ some '0' := by
  intro h
  unfold withoutFinalZeros at h
  rw [List.getLast?_reverse] at h
  have hfirst := List.head?_dropWhile_not (· == '0') ds.reverse
  rw [h] at hfirst
  simp at hfirst

/-! ## The compact form -/

namespace Decimal

theorem toList_text (places : Nat) (negative : Bool) (units : Nat) :
    (text places (.finite negative units)).toList =
      if units = 0 then ['0']
      else sign negative ++ digits (units / 10 ^ places) ++ fractionText places units := by
  unfold text
  dsimp only
  split
  · rfl
  · rw [String.toList_ofList]
    rfl

theorem fractionText_eq (places units : Nat) :
    fractionText places units = if units % 10 ^ places = 0 then []
      else '.' :: withoutFinalZeros (padded places (digits (units % 10 ^ places))) := rfl

end Decimal

/-! ## Numerals -/

/-- The parts of a decimal numeral. -/
structure Numeral where
  /-- There is a minus sign in front. -/
  negative : Bool
  /-- What stands in front of the point. -/
  whole : List Char
  /-- What stands behind the point. -/
  fraction : List Char
deriving DecidableEq, Repr

namespace Numeral

/-- The characters of a numeral. Where nothing stands behind the point, it is
left out. -/
def toList (n : Numeral) : List Char :=
  sign n.negative ++ n.whole ++ if n.fraction = [] then [] else '.' :: n.fraction

/-- The text of a numeral. -/
def text (n : Numeral) : String := .ofList n.toList

/-- The parts of a text: what stands in front of its first point and what stands
behind it, a minus sign at the beginning apart. -/
def ofText (s : String) : Numeral :=
  let negative := s.toList.head? == some '-'
  let rest := if negative then s.toList.tail else s.toList
  ⟨negative, rest.takeWhile (· != '.'), (rest.dropWhile (· != '.')).tail⟩

/-- The number that a numeral is read as, digit by digit. -/
def value (n : Numeral) : ℚ :=
  let size : ℚ := Nat.ofDigitChars 10 (n.whole ++ n.fraction) 0 / 10 ^ n.fraction.length
  if n.negative then -size else size

/-- The one way to write a number in at most so many places. -/
structure IsCanonical (places : Nat) (n : Numeral) : Prop where
  isDigit : ∀ c ∈ n.whole ++ n.fraction, c.isDigit = true
  whole_ne_nil : n.whole ≠ []
  no_leading_zero : n.whole.head? = some '0' → n.whole = ['0']
  length_fraction : n.fraction.length ≤ places
  no_final_zero : n.fraction.getLast? ≠ some '0'
  no_signed_zero : n.negative = true → n.value ≠ 0

/-- A canonical numeral is found in its text. -/
theorem IsCanonical.ofText_text {places : Nat} {n : Numeral} (h : n.IsCanonical places) :
    ofText n.text = n := by
  obtain ⟨negative, whole, fraction⟩ := n
  have hdigit : ∀ c ∈ whole, c.isDigit = true := fun c hc => h.isDigit c (by simp [hc])
  have hpoint : ∀ c ∈ whole, (c != '.') = true := by
    intro c hc
    rw [bne_iff_ne]
    rintro rfl
    exact absurd (hdigit _ hc) (by decide)
  have hunsigned : (whole ++ if fraction = [] then [] else '.' :: fraction).head? ≠ some '-' := by
    obtain ⟨c, cs, rfl⟩ := List.exists_cons_of_ne_nil h.whole_ne_nil
    intro hhead
    obtain rfl : c = '-' := by simpa using hhead
    exact absurd (hdigit '-' (by simp)) (by decide)
  have hrest : (if negative = true then (text ⟨negative, whole, fraction⟩).toList.tail
      else (text ⟨negative, whole, fraction⟩).toList) =
        whole ++ if fraction = [] then [] else '.' :: fraction := by
    rw [text, String.toList_ofList]
    cases negative <;> rfl
  have hsign : ((text ⟨negative, whole, fraction⟩).toList.head? == some '-') = negative := by
    rw [text, String.toList_ofList]
    cases negative with
    | false => simpa [toList, sign] using hunsigned
    | true => rfl
  unfold ofText
  dsimp only
  rw [hsign, hrest, List.takeWhile_append_of_pos hpoint, List.dropWhile_append_of_pos hpoint]
  by_cases hfraction : fraction = []
  · simp [hfraction]
  · simp [hfraction]

theorem IsCanonical.mem_toList {places : Nat} {n : Numeral} (h : n.IsCanonical places) {c : Char}
    (hc : c ∈ n.toList) : c = '-' ∨ c = '.' ∨ c.isDigit = true := by
  unfold toList at hc
  rcases List.mem_append.1 hc with hc | hc
  · rcases List.mem_append.1 hc with hc | hc
    · unfold sign at hc
      split at hc
      · exact .inl (List.mem_singleton.1 hc)
      · cases hc
    · exact .inr (.inr (h.isDigit c (List.mem_append_left _ hc)))
  · split at hc
    · cases hc
    · rcases List.mem_cons.1 hc with hc | hc
      · exact .inr (.inl hc)
      · exact .inr (.inr (h.isDigit c (List.mem_append_right _ hc)))

/-! ## The numeral of a count of units -/

/-- The numeral of a count of units of `10 ^ (-places)`. -/
def ofUnits (places : Nat) (k : Int) : Numeral where
  negative := decide (k < 0)
  whole := digits (k.natAbs / 10 ^ places)
  fraction :=
    if k.natAbs % 10 ^ places = 0 then []
    else withoutFinalZeros (padded places (digits (k.natAbs % 10 ^ places)))

variable {places : Nat}

theorem negative_ofUnits (k : Int) : (ofUnits places k).negative = decide (k < 0) := rfl

theorem whole_ofUnits (k : Int) :
    (ofUnits places k).whole = digits (k.natAbs / 10 ^ places) := rfl

theorem fraction_ofUnits (k : Int) :
    (ofUnits places k).fraction = if k.natAbs % 10 ^ places = 0 then []
      else withoutFinalZeros (padded places (digits (k.natAbs % 10 ^ places))) := rfl

/-- The digits of the numeral are the units, so far as they are not left out as
final zeros. -/
theorem exists_digits_ofUnits (hplaces : 0 < places) (k : Int) :
    ∃ r, (ofUnits places k).fraction.length + r = places ∧
      Nat.ofDigitChars 10 ((ofUnits places k).whole ++ (ofUnits places k).fraction) 0 * 10 ^ r =
        k.natAbs := by
  have hdivide := Nat.div_add_mod' k.natAbs (10 ^ places)
  rw [fraction_ofUnits, whole_ofUnits]
  generalize k.natAbs = units at *
  by_cases hfraction : units % 10 ^ places = 0
  · rw [if_pos hfraction, List.append_nil, digits, Nat.ofDigitChars_ten_toDigits]
    exact ⟨places, Nat.zero_add _, by omega⟩
  · rw [if_neg hfraction]
    have hread := ofDigitChars_padded places (units % 10 ^ places)
    have hlength := length_padded (Nat.mod_lt units (Nat.pow_pos (by decide))) hplaces
    obtain ⟨r, hr⟩ := withoutFinalZeros_append (padded places (digits (units % 10 ^ places)))
    obtain ⟨hplaces', hvalue⟩ := ofDigitChars_stripped (units / 10 ^ places) hlength hr
    exact ⟨r, hplaces', by omega⟩

theorem fraction_ofUnits_eq_nil (hplaces : 0 < places) {k : Int} :
    (ofUnits places k).fraction = [] ↔ k.natAbs % 10 ^ places = 0 := by
  constructor
  · intro hnil
    obtain ⟨r, hr, hdigits⟩ := exists_digits_ofUnits hplaces k
    rw [hnil, List.length_nil, Nat.zero_add] at hr
    rw [hnil, hr, List.append_nil, whole_ofUnits, digits, Nat.ofDigitChars_ten_toDigits] at hdigits
    rw [← hdigits]
    exact Nat.mul_mod_left _ _
  · exact fun h => if_pos h

/-- The numeral is read as the units it is made of. -/
theorem value_ofUnits (hplaces : 0 < places) (k : Int) :
    (ofUnits places k).value = k / 10 ^ places := by
  obtain ⟨r, hr, hdigits⟩ := exists_digits_ofUnits hplaces k
  have hsize : (Nat.ofDigitChars 10 ((ofUnits places k).whole ++ (ofUnits places k).fraction) 0 : ℚ) /
      10 ^ (ofUnits places k).fraction.length = (k.natAbs : ℚ) / 10 ^ places := by
    have hpower : (10 : ℚ) ^ places = 10 ^ (ofUnits places k).fraction.length * 10 ^ r := by
      rw [← pow_add, hr]
    rw [← hdigits, hpower]
    push_cast
    field_simp
  unfold value
  dsimp only
  rw [hsize, negative_ofUnits, Nat.cast_natAbs]
  by_cases hk : k < 0
  · rw [abs_of_neg hk]
    simp [hk, neg_div]
  · rw [abs_of_nonneg (not_lt.1 hk)]
    simp [hk]

/-- **The numeral of a count of units is canonical.** -/
theorem isCanonical_ofUnits (hplaces : 0 < places) (k : Int) :
    (ofUnits places k).IsCanonical places := by
  obtain ⟨r, hr, -⟩ := exists_digits_ofUnits hplaces k
  refine ⟨?_, Nat.toDigits_ne_nil, ?_, by omega, ?_, ?_⟩
  · intro c hc
    rw [whole_ofUnits, fraction_ofUnits] at hc
    rcases List.mem_append.1 hc with hc | hc
    · exact isDigit_of_mem_digits hc
    · split at hc
      · cases hc
      · exact isDigit_of_mem_padded (mem_of_mem_withoutFinalZeros hc)
  · intro hzero
    rw [whole_ofUnits] at hzero ⊢
    rw [eq_zero_of_head?_digits hzero]
    rfl
  · rw [fraction_ofUnits]
    split
    · simp
    · exact getLast?_withoutFinalZeros _
  · intro hnegative
    rw [negative_ofUnits, decide_eq_true_iff] at hnegative
    rw [value_ofUnits hplaces]
    exact div_ne_zero (Int.cast_ne_zero.2 hnegative.ne) (pow_ne_zero _ (by norm_num))

/-- **The compact form of a decimal is the numeral of its units.** -/
theorem text_ofUnits (hplaces : 0 < places) (negative : Bool) (units : Nat) :
    (ofUnits places (if negative then -units else units)).text =
      Decimal.text places (.finite negative units) := by
  rw [← String.toList_inj, text, String.toList_ofList, Decimal.toList_text]
  by_cases hunits : units = 0
  · rw [if_pos hunits, hunits]
    simp [toList, ofUnits, sign, digits]
  · have habs : (if negative = true then -(units : Int) else units).natAbs = units := by
      cases negative <;> simp
    have hnegative : decide ((if negative = true then -(units : Int) else units) < 0) = negative := by
      cases negative with
      | false => simp
      | true => simpa using Nat.pos_of_ne_zero hunits
    rw [if_neg hunits, Decimal.fractionText_eq]
    simp only [toList, fraction_ofUnits_eq_nil hplaces, habs]
    simp only [negative_ofUnits, whole_ofUnits, fraction_ofUnits, habs, hnegative]
    split
    · rfl
    · rfl

end Numeral

end Tween
