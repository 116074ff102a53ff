/-
What is asked of the numbers a timeline is computed in. Comparison is a total
order on the numbers that equal themselves, a sum with a fixed finite summand
keeps the order, and a length that is positive once it is cut to hundredths is
longer than the tolerance between two windows. Nothing is asked of the exact
values of sums and quotients, so the laws hold of rounded arithmetic too.
-/
import Mathlib.Algebra.Group.Nat.Defs
import Tween.Descriptor.Animation
import Tween.Filter.Chain

namespace Tween

variable {α : Type} [Scalar α]

/-- A value that can be compared: on doubles, anything but "not a number". -/
def IsNumber (x : α) : Prop := x ≤ x

/-- Comparison orders the numbers totally, and holds between numbers only. -/
class OrderedScalar (α : Type) [Scalar α] : Prop where
  number_left {x y : α} : x ≤ y → IsNumber x
  number_right {x y : α} : x ≤ y → IsNumber y
  le_total {x y : α} : IsNumber x → IsNumber y → x ≤ y ∨ y ≤ x
  le_trans {x y z : α} : x ≤ y → y ≤ z → x ≤ z
  lt_iff {x y : α} : x < y ↔ x ≤ y ∧ ¬ y ≤ x

/-- What filters that agree on numbers rest on. A number need not equal itself:
on doubles, "not a number" does not. -/
class EqualScalar (α : Type) [Scalar α] : Prop where
  beq_symm {x y : α} : (x == y) = true → (y == x) = true
  beq_trans {x y z : α} : (x == y) = true → (y == z) = true → (x == z) = true

/-- The laws that windows rest on. -/
class WindowScalar (α : Type) [Scalar α] : Prop extends OrderedScalar α where
  isFinite_zero : Scalar.isFinite (0.0 : α) = true
  isFinite_one : Scalar.isFinite (1.0 : α) = true
  one_beq_one : ((1.0 : α) == 1.0) = true
  zero_le_tolerance : (0.0 : α) ≤ windowTolerance
  le_add {x y : α} : Scalar.isFinite x = true → 0.0 ≤ y → x ≤ x + y
  add_le_add {x y z : α} : Scalar.isFinite x = true → y ≤ z → x + y ≤ x + z
  /-- A positive length in whole hundredths is longer than the tolerance. -/
  tolerance_le_centiseconds {x : α} : Scalar.isFinite x = true → ¬ centiseconds x ≤ 0.0 →
    windowTolerance ≤ centiseconds x

/-- What the text of numbers rests on: the decimal of a finite number has its
sign, so far as it is not rounded to zero, and zero and one are exact. -/
class DecimalScalar (α : Type) [Scalar α] : Prop extends OrderedScalar α where
  toDecimal_of_not_neg {x : α} (k : Nat) : Scalar.isFinite x = true → ¬ x < 0.0 →
    ∃ negative units, Scalar.toDecimal k x = .finite negative units ∧ (negative = true → units = 0)
  toDecimal_of_neg {x : α} (k : Nat) : Scalar.isFinite x = true → x < 0.0 →
    ∃ units, Scalar.toDecimal k x = .finite true units ∧
      Scalar.toDecimal k (-x) = .finite false units
  toDecimal_zero {x : α} (k : Nat) : (x == 0.0) = true →
    ∃ negative, Scalar.toDecimal k x = .finite negative 0
  toDecimal_one {x : α} (k : Nat) : (x == 1.0) = true →
    Scalar.toDecimal k x = .finite false (10 ^ k)

section Order

variable [OrderedScalar α] {x y z : α}

theorem le_of_not_lt (hx : IsNumber x) (hy : IsNumber y) (h : ¬ x < y) : y ≤ x := by
  rcases OrderedScalar.le_total hx hy with hle | hle
  · by_cases hyx : y ≤ x
    · exact hyx
    · exact absurd (OrderedScalar.lt_iff.2 ⟨hle, hyx⟩) h
  · exact hle

theorem le_of_lt (h : x < y) : x ≤ y := (OrderedScalar.lt_iff.1 h).1

theorem not_le_of_lt (h : x < y) : ¬ y ≤ x := (OrderedScalar.lt_iff.1 h).2

end Order

end Tween
