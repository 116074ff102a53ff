/-
Formulas as the renderer reads them. The grammar is the usual one: sums of
products of atoms, both grouped to the left, a minus sign in front of a sum,
and atoms that are literals, the time variable, calls of a few functions, or
sums in parentheses. `Formula.read?` is a reader for it that looks at the text
alone, and `Formula.value` is what a formula means over exact numbers.
-/
import Mathlib.Algebra.Order.Archimedean.Real.Basic
import Tween.Expr.Eval

namespace Tween

/-! ## Exact arithmetic -/

/-- What exact arithmetic leaves open: the functions and the circle constant,
which are the same for whoever uses them, and what it means to divide by
zero. -/
structure Arithmetic where
  pi : ℝ
  pow : ℝ → ℝ → ℝ
  sin : ℝ → ℝ
  cos : ℝ → ℝ
  sqrt : ℝ → ℝ
  overZero : ℝ → ℝ

namespace Arithmetic

noncomputable section

/-- Division. -/
def div (A : Arithmetic) (x y : ℝ) : ℝ := if y = 0 then A.overZero x else x / y

theorem div_of_ne (A : Arithmetic) (x : ℝ) {y : ℝ} (h : y ≠ 0) : A.div x y = x / y := if_neg h

/-- The nearest whole number, a half going to the even neighbour. -/
def nearestEven (x : ℝ) : Nat :=
  if x - ⌊x⌋₊ < 1 / 2 then ⌊x⌋₊
  else if 1 / 2 < x - ⌊x⌋₊ then ⌊x⌋₊ + 1
  else if ⌊x⌋₊ % 2 = 0 then ⌊x⌋₊
  else ⌊x⌋₊ + 1

/-- The real numbers as the scalars of an expression. -/
@[reducible] def scalar (A : Arithmetic) : Scalar ℝ where
  div := A.div
  beq x y := decide (x = y)
  decLt := inferInstance
  decLe := inferInstance
  ofInt := fun i => i
  isFinite := fun _ => true
  pi := A.pi
  floor := fun x => ⌊x⌋
  round := fun x => if x < 0 then -⌊-x + 1 / 2⌋ else ⌊x + 1 / 2⌋
  pow := A.pow
  sin := A.sin
  cos := A.cos
  sqrt := A.sqrt
  toDecimal := fun k x => .finite (decide (x < 0)) (nearestEven (|x| * 10 ^ k))

/-- The value of an expression in exact arithmetic. -/
def eval (A : Arithmetic) (t : ℝ) (e : Expr ℝ) : Except Slot ℝ := @Expr.eval ℝ A.scalar t e

end

variable {A : Arithmetic} {t x y z : ℝ} {a b c d e : Expr ℝ}

theorem eval_unary (op : UnaryOp) (ha : A.eval t a = .ok x) :
    A.eval t (.unary op a) = .ok (@UnaryOp.apply ℝ A.scalar op x) :=
  @Expr.eval_unary ℝ A.scalar t x a op ha

theorem eval_binary (op : BinaryOp) (ha : A.eval t a = .ok x) (hb : A.eval t b = .ok y) :
    A.eval t (.binary op a b) = .ok (@BinaryOp.apply ℝ A.scalar op x y) :=
  @Expr.eval_binary ℝ A.scalar t x y a b op ha hb

theorem eval_ifRel (rel : Relation) (ha : A.eval t a = .ok x) (hb : A.eval t b = .ok y) :
    A.eval t (.ifRel rel a b c d) =
      if @Relation.holds ℝ A.scalar rel x y then A.eval t c else A.eval t d := by
  unfold eval at *
  simp only [Expr.eval, ha, hb, bind, Except.bind]

theorem eval_ifBetween (ha : A.eval t a = .ok x) (hb : A.eval t b = .ok y)
    (hc : A.eval t c = .ok z) :
    A.eval t (.ifBetween a b c d e) =
      if y ≤ x ∧ x ≤ z then A.eval t d else A.eval t e := by
  unfold eval at *
  simp only [Expr.eval, ha, hb, hc, bind, Except.bind]
  by_cases hlow : y ≤ x
  · simp [hlow]
  · simp [hlow]

end Arithmetic

/-! ## Formulas -/

inductive Operator where
  | add
  | sub
  | mul
  | div
deriving DecidableEq, Repr

/-- The functions of one argument. -/
inductive Function₁ where
  | sin
  | cos
  | sqrt
deriving DecidableEq, Repr

/-- The functions of two arguments. A comparison is 1 where it holds and 0
elsewhere. -/
inductive Function₂ where
  | pow
  | lt
  | lte
deriving DecidableEq, Repr

/-- The functions of three arguments. -/
inductive Function₃ where
  /-- The second argument unless the first is 0, else the third. -/
  | choice
  /-- 1 where the first argument lies between the others, else 0. -/
  | between
deriving DecidableEq, Repr

inductive Formula where
  /-- Digits read as a whole number, and how many of them stand after the
  point. -/
  | literal (digits places : Nat)
  | time
  | neg (arg : Formula)
  | binary (op : Operator) (left right : Formula)
  | call₁ (name : Function₁) (arg : Formula)
  | call₂ (name : Function₂) (left right : Formula)
  | call₃ (name : Function₃) (first second third : Formula)
deriving Repr, DecidableEq

namespace Formula

/-- The value of a formula at a time. -/
noncomputable def value (A : Arithmetic) (t : ℝ) : Formula → ℝ
  | literal digits places => digits / 10 ^ places
  | time => t
  | neg a => -a.value A t
  | binary .add l r => l.value A t + r.value A t
  | binary .sub l r => l.value A t - r.value A t
  | binary .mul l r => l.value A t * r.value A t
  | binary .div l r => A.div (l.value A t) (r.value A t)
  | call₁ .sin a => A.sin (a.value A t)
  | call₁ .cos a => A.cos (a.value A t)
  | call₁ .sqrt a => A.sqrt (a.value A t)
  | call₂ .pow a b => A.pow (a.value A t) (b.value A t)
  | call₂ .lt a b => if a.value A t < b.value A t then 1 else 0
  | call₂ .lte a b => if a.value A t ≤ b.value A t then 1 else 0
  | call₃ .choice a b c => if a.value A t ≠ 0 then b.value A t else c.value A t
  | call₃ .between a b c => if b.value A t ≤ a.value A t ∧ a.value A t ≤ c.value A t then 1 else 0

/-! ## Reading

The readers work on the characters that are left and return what is left behind
them. The bound on the depth of their recursion is one that no text reaches:
three calls for each character. -/

/-- The characters of a name. -/
def isNameChar (c : Char) : Bool := c.isAlphanum || c == '_'

/-- A call of a function by its name. -/
def call? : String → List Formula → Option Formula
  | "sin", [a] => some (.call₁ .sin a)
  | "cos", [a] => some (.call₁ .cos a)
  | "sqrt", [a] => some (.call₁ .sqrt a)
  | "pow", [a, b] => some (.call₂ .pow a b)
  | "lt", [a, b] => some (.call₂ .lt a b)
  | "lte", [a, b] => some (.call₂ .lte a b)
  | "if", [a, b, c] => some (.call₃ .choice a b c)
  | "between", [a, b, c] => some (.call₃ .between a b c)
  | _, _ => none

/-- A literal: digits, and more of them behind a point if there is one. -/
def readLiteral (cs : List Char) : Option (Formula × List Char) :=
  let whole := cs.takeWhile Char.isDigit
  match cs.dropWhile Char.isDigit with
  | '.' :: rest =>
    let fraction := rest.takeWhile Char.isDigit
    if fraction = [] then none
    else some (.literal (Nat.ofDigitChars 10 (whole ++ fraction) 0) fraction.length,
      rest.dropWhile Char.isDigit)
  | rest => some (.literal (Nat.ofDigitChars 10 whole 0) 0, rest)

section

variable (variableName : String)

mutual

/-- A sum, with a minus sign in front of its first term or not. -/
def readSum : Nat → List Char → Option (Formula × List Char)
  | 0, _ => none
  | fuel + 1, '-' :: cs => do
    let (f, rest) ← readProduct fuel cs
    readTerms fuel (.neg f) rest
  | fuel + 1, cs => do
    let (f, rest) ← readProduct fuel cs
    readTerms fuel f rest

/-- The terms of a sum behind its first. -/
def readTerms : Nat → Formula → List Char → Option (Formula × List Char)
  | 0, _, _ => none
  | fuel + 1, sum, '+' :: cs => do
    let (f, rest) ← readProduct fuel cs
    readTerms fuel (.binary .add sum f) rest
  | fuel + 1, sum, '-' :: cs => do
    let (f, rest) ← readProduct fuel cs
    readTerms fuel (.binary .sub sum f) rest
  | _ + 1, sum, cs => some (sum, cs)

/-- A product. -/
def readProduct : Nat → List Char → Option (Formula × List Char)
  | 0, _ => none
  | fuel + 1, cs => do
    let (f, rest) ← readAtom fuel cs
    readFactors fuel f rest

/-- The factors of a product behind its first. -/
def readFactors : Nat → Formula → List Char → Option (Formula × List Char)
  | 0, _, _ => none
  | fuel + 1, product, '*' :: cs => do
    let (f, rest) ← readAtom fuel cs
    readFactors fuel (.binary .mul product f) rest
  | fuel + 1, product, '/' :: cs => do
    let (f, rest) ← readAtom fuel cs
    readFactors fuel (.binary .div product f) rest
  | _ + 1, product, cs => some (product, cs)

/-- A sum in parentheses, a literal, a call, or the variable. -/
def readAtom : Nat → List Char → Option (Formula × List Char)
  | 0, _ => none
  | fuel + 1, '(' :: cs => do
    let (f, rest) ← readSum fuel cs
    match rest with
    | ')' :: rest => some (f, rest)
    | _ => none
  | fuel + 1, cs =>
    if cs.takeWhile Char.isDigit = [] then
      let name := String.ofList (cs.takeWhile isNameChar)
      match cs.dropWhile isNameChar with
      | '(' :: rest => do
        let (args, rest) ← readArgs fuel rest
        let f ← call? name args
        some (f, rest)
      | rest => if name = variableName then some (.time, rest) else none
    else readLiteral cs

/-- The arguments of a call, up to the closing parenthesis. -/
def readArgs : Nat → List Char → Option (List Formula × List Char)
  | 0, _ => none
  | fuel + 1, cs => do
    let (f, rest) ← readSum fuel cs
    match rest with
    | ')' :: rest => some ([f], rest)
    | ',' :: rest => do
      let (args, rest) ← readArgs fuel rest
      some (f :: args, rest)
    | _ => none

end

/-- The formula that a whole text stands for. -/
def read? (text : String) : Option Formula :=
  match readSum variableName (3 * text.toList.length + 3) text.toList with
  | some (f, []) => some f
  | _ => none

end

end Formula

end Tween
