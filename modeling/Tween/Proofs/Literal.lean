/-
Numerals as literals of a formula. A canonical numeral without a sign is read as
the literal of its digits (`Numeral.IsCanonical.readsAtom`), so the compact form
of a decimal is read as the decimal's units without a power of ten
(`Decimal.readsAtom_text`).
-/
import Tween.Proofs.Numeral
import Tween.Proofs.Reading

namespace Tween

open Formula

theorem Numeral.IsCanonical.readsAtom (variableName : String) {places : Nat} {n : Numeral}
    (h : n.IsCanonical places) (hsign : n.negative = false) :
    ReadsAtom variableName n.toList
      (.literal (Nat.ofDigitChars 10 (n.whole ++ n.fraction) 0) n.fraction.length) := by
  have hwhole : ∀ c ∈ n.whole, c.isDigit = true := fun c hc => h.isDigit c (by simp [hc])
  have hfraction : ∀ c ∈ n.fraction, c.isDigit = true := fun c hc => h.isDigit c (by simp [hc])
  unfold toList
  rw [hsign, sign, if_neg Bool.false_ne_true, List.nil_append]
  by_cases hnil : n.fraction = []
  · rw [if_pos hnil, hnil, List.append_nil]
    exact readsAtom_whole h.whole_ne_nil hwhole
  · rw [if_neg hnil]
    exact readsAtom_fraction h.whole_ne_nil hwhole hnil hfraction

/-- The text of a decimal without a sign is a literal, whose digits are the
units of the decimal once the places left out are counted. -/
theorem Decimal.readsAtom_text (variableName : String) {places : Nat} (units : Nat)
    (hplaces : 0 < places) :
    ∃ d p k, ReadsAtom variableName (text places (.finite false units)).toList (.literal d p) ∧
      p + k = places ∧ d * 10 ^ k = units := by
  obtain ⟨k, hlength, hdigits⟩ := Numeral.exists_digits_ofUnits hplaces units
  have hread := (Numeral.isCanonical_ofUnits hplaces units).readsAtom variableName
    (decide_eq_false (Int.not_lt.2 (Int.natCast_nonneg units)))
  have htext : (text places (.finite false units)).toList = (Numeral.ofUnits places units).toList := by
    rw [← Numeral.text_ofUnits hplaces false units, Numeral.text, String.toList_ofList]
    rfl
  rw [← htext] at hread
  exact ⟨_, _, k, hread, hlength, hdigits⟩

end Tween
