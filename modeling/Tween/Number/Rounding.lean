/-
Quotients of natural numbers rounded to the nearest whole number. Main
statements: the rounded quotient is within half a unit of the exact one
(`two_mul_le_roundHalfEven`, `roundHalfEven_le_two_mul`), and an exact half
goes to an even number (`even_of_tie`).
-/
namespace Tween

/-- The whole number nearest to `num / den`, a half going to the even
neighbour. -/
def roundHalfEven (num den : Nat) : Nat :=
  let q := num / den
  let r := num % den
  if 2 * r < den then q
  else if den < 2 * r then q + 1
  else if q % 2 = 0 then q
  else q + 1

/-- The rounded quotient lies at most half a unit below the exact one. -/
theorem two_mul_le_roundHalfEven (num den : Nat) (hd : 0 < den) :
    2 * num ≤ (2 * roundHalfEven num den + 1) * den := by
  have hr := Nat.mod_lt num hd
  have hq := Nat.div_add_mod num den
  simp only [roundHalfEven]
  generalize num / den = q at *
  generalize num % den = r at *
  subst hq
  split
  · grind
  · split
    · grind
    · split <;> grind

/-- The rounded quotient lies at most half a unit above the exact one. -/
theorem roundHalfEven_le_two_mul (num den : Nat) (hd : 0 < den) :
    2 * roundHalfEven num den * den ≤ 2 * num + den := by
  have hr := Nat.mod_lt num hd
  have hq := Nat.div_add_mod num den
  simp only [roundHalfEven]
  generalize num / den = q at *
  generalize num % den = r at *
  subst hq
  split
  · grind
  · split
    · grind
    · split <;> grind

/-- Of two whole numbers equally near, the even one is chosen. -/
theorem even_of_tie (num den : Nat) (hd : 0 < den)
    (h : 2 * num = (2 * roundHalfEven num den + 1) * den ∨
      2 * num + den = 2 * roundHalfEven num den * den) : roundHalfEven num den % 2 = 0 := by
  have hr := Nat.mod_lt num hd
  have hq := Nat.div_add_mod num den
  revert h
  simp only [roundHalfEven]
  generalize num / den = q at *
  generalize num % den = r at *
  subst hq
  split
  · grind
  · split
    · grind
    · split <;> omega

end Tween
