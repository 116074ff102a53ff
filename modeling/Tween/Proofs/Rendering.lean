/-
The text of an expression means what the expression does. Every number is
written to six places (`rounding`), so the expression to compare with is the one
with its numbers rounded (`Expr.rounded`). By induction on the expression, its
text is read as a formula with the same value, on the level its binding
promises (`rendered`).
-/
import Tween.Expr.Text
import Tween.Proofs.Double.Decimals
import Tween.Proofs.Literal
import Tween.Proofs.Scalar

namespace Tween

open Formula

variable {α : Type} [Scalar α]

/-! ## Rounded numbers -/

/-- The number a decimal stands for; nothing is said of one that is not
finite. -/
noncomputable def Decimal.value (places : Nat) : Decimal → ℝ
  | .finite negative units =>
    let size : ℝ := units / (10 ^ places : ℕ)
    if negative then -size else size
  | _ => 0

theorem Decimal.value_finite (places : Nat) (negative : Bool) (units : Nat) :
    (Decimal.finite negative units).value places =
      if negative then -((units : ℝ) / 10 ^ places) else (units : ℝ) / 10 ^ places := by
  simp only [value, Nat.cast_pow, Nat.cast_ofNat]

/-- A number rounded to six places, as `numberText` writes it. -/
noncomputable def rounding (x : α) : ℝ := (Scalar.toDecimal 6 x).value 6

namespace Expr

/-- An expression with all its numbers rounded. -/
noncomputable def rounded : Expr α → Expr ℝ
  | .const c => .const (rounding c)
  | .time => .time
  | .linear b c d o => .linear (rounding b) (rounding c) (rounding d) (rounding o)
  | .unary op a => .unary op a.rounded
  | .binary op l r => .binary op l.rounded r.rounded
  | .ifRel rel l r yes no => .ifRel rel l.rounded r.rounded yes.rounded no.rounded
  | .ifBetween v lo hi yes no =>
    .ifBetween v.rounded lo.rounded hi.rounded yes.rounded no.rounded
  | .elseSlot d => .elseSlot d.rounded
  | .delaySlot => .delaySlot

/-- No slot is in view, all numbers are finite, and the durations of straight
lines are positive and not rounded to zero. -/
def Renderable : Expr α → Prop
  | .const c => Scalar.isFinite c = true
  | .time => True
  | .linear b c d o => Scalar.isFinite b = true ∧ Scalar.isFinite c = true ∧
    Scalar.isFinite d = true ∧ Scalar.isFinite o = true ∧ 0.0 < d ∧ rounding d ≠ 0
  | .unary _ a => a.Renderable
  | .binary _ l r => l.Renderable ∧ r.Renderable
  | .ifRel _ l r yes no => l.Renderable ∧ r.Renderable ∧ yes.Renderable ∧ no.Renderable
  | .ifBetween v lo hi yes no =>
    v.Renderable ∧ lo.Renderable ∧ hi.Renderable ∧ yes.Renderable ∧ no.Renderable
  | .elseSlot _ => False
  | .delaySlot => False

end Expr

/-! ## Numbers -/

section Numbers

variable [DecimalScalar α] {variableName : String} {x : α}

theorem value_literal (A : Arithmetic) (t : ℝ) {d p k units places : Nat} (hplaces : p + k = places)
    (hunits : d * 10 ^ k = units) :
    (Formula.literal d p).value A t = (units : ℝ) / 10 ^ places := by
  unfold Formula.value
  rw [← hunits, ← hplaces, pow_add]
  push_cast
  rw [mul_div_mul_right]
  positivity

omit [Scalar α] [DecimalScalar α] in
theorem readsAtom_units (variableName : String) (units : Nat) :
    ∃ f, ReadsAtom variableName (Decimal.text 6 (.finite false units)).toList f ∧
      ∀ A t, f.value A t = (units : ℝ) / 10 ^ 6 := by
  have hsix : 0 < 6 := by decide
  obtain ⟨d, p, k, hread, hplaces, hunits⟩ := Decimal.readsAtom_text variableName units hsix
  exact ⟨_, hread, fun A t => value_literal A t hplaces hunits⟩

/-- The text of a number that is not negative. -/
theorem readsAtom_number (variableName : String) (hx : Scalar.isFinite x = true)
    (hneg : ¬ x < 0.0) :
    ∃ f, ReadsAtom variableName (numberText x).toList f ∧ ∀ A t, f.value A t = rounding x := by
  obtain ⟨negative, units, hdecimal, hzero⟩ := DecimalScalar.toDecimal_of_not_neg 6 hx hneg
  obtain ⟨f, hread, hvalue⟩ := readsAtom_units variableName units
  have htext : numberText x = Decimal.text 6 (.finite false units) := by
    unfold numberText
    rw [hdecimal]
    cases negative with
    | false => rfl
    | true =>
      obtain rfl := hzero rfl
      rfl
  have hround : rounding x = (units : ℝ) / 10 ^ 6 := by
    unfold rounding
    rw [hdecimal]
    cases negative with
    | false => simp [Decimal.value_finite]
    | true => simp [Decimal.value_finite, hzero rfl]
  exact ⟨f, htext ▸ hread, fun A t => by rw [hvalue, hround]⟩

/-- The text of a negative number without its sign. -/
theorem readsAtom_magnitude (variableName : String) (hx : Scalar.isFinite x = true)
    (hneg : x < 0.0) :
    ∃ f, ReadsAtom variableName (numberText (-x)).toList f ∧ ∀ A t, f.value A t = -rounding x := by
  obtain ⟨units, hdecimal, hmagnitude⟩ := DecimalScalar.toDecimal_of_neg 6 hx hneg
  obtain ⟨f, hread, hvalue⟩ := readsAtom_units variableName units
  refine ⟨f, ?_, ?_⟩
  · unfold numberText
    rw [hmagnitude]
    exact hread
  · intro A t
    rw [hvalue, rounding, hdecimal]
    simp [Decimal.value_finite]

theorem readsSum_number (variableName : String) (hx : Scalar.isFinite x = true) :
    ∃ f, ReadsSum variableName (numberText x).toList f ∧ ∀ A t, f.value A t = rounding x := by
  by_cases hneg : x < 0.0
  · obtain ⟨units, hdecimal, -⟩ := DecimalScalar.toDecimal_of_neg 6 hx hneg
    obtain ⟨f, hread, hvalue⟩ := readsAtom_units variableName units
    by_cases hunits : units = 0
    · subst hunits
      refine ⟨f, ?_, ?_⟩
      · unfold numberText
        rw [hdecimal]
        exact hread.product.sum
      · intro A t
        rw [hvalue, rounding, hdecimal]
        simp [Decimal.value_finite]
    · refine ⟨.neg f, ?_, ?_⟩
      · have htext : (numberText x).toList =
            '-' :: (Decimal.text 6 (.finite false units)).toList := by
          unfold numberText
          rw [hdecimal, Decimal.toList_text, Decimal.toList_text, if_neg hunits, if_neg hunits]
          rfl
        rw [htext]
        exact hread.product.neg
      · intro A t
        rw [Formula.value, hvalue, rounding, hdecimal]
        simp [Decimal.value_finite]
  · obtain ⟨f, hread, hvalue⟩ := readsAtom_number variableName hx hneg
    exact ⟨f, hread.product.sum, hvalue⟩

theorem rounding_zero (hx : (x == 0.0) = true) : rounding x = 0 := by
  obtain ⟨negative, hdecimal⟩ := DecimalScalar.toDecimal_zero 6 hx
  rw [rounding, hdecimal]
  simp [Decimal.value_finite]

theorem rounding_one (hx : (x == 1.0) = true) : rounding x = 1 := by
  rw [rounding, DecimalScalar.toDecimal_one 6 hx]
  norm_num [Decimal.value_finite]

end Numbers

/-! ## Straight lines -/

section Lines

variable [DecimalScalar α] {variableName : String} {b c d o x : α}

theorem not_neg_of_pos (h : 0.0 < x) : ¬ x < 0.0 :=
  fun hneg => not_le_of_lt h (le_of_lt hneg)

theorem readsAtom_elapsed (hname : IsName variableName.toList) (ho : Scalar.isFinite o = true) :
    ∃ f, ReadsAtom variableName (Expr.elapsedText variableName o).toList f ∧
      ∀ A t, f.value A t = t - rounding o := by
  have htime := readsAtom_time hname
  unfold Expr.elapsedText
  by_cases hzero : (o == 0.0) = true
  · rw [if_pos hzero]
    exact ⟨.time, htime, fun A t => by simp [Formula.value, rounding_zero hzero]⟩
  rw [if_neg hzero]
  by_cases hneg : o < 0.0
  · obtain ⟨g, hg, hvalue⟩ := readsAtom_magnitude variableName ho hneg
    refine ⟨.binary .add .time g, ?_, ?_⟩
    · have hsum := (htime.product.sum.term hg.product (.inl ⟨rfl, rfl⟩)).paren
      simpa [hneg] using hsum
    · intro A t
      rw [Formula.value, Formula.value, hvalue]
      ring
  · obtain ⟨g, hg, hvalue⟩ := readsAtom_number variableName ho hneg
    refine ⟨.binary .sub .time g, ?_, ?_⟩
    · have hsum := (htime.product.sum.term hg.product (.inr ⟨rfl, rfl⟩)).paren
      simpa [hneg] using hsum
    · intro A t
      rw [Formula.value, Formula.value, hvalue]

theorem readsAtom_abs (variableName : String) (hc : Scalar.isFinite c = true) :
    ∃ f, ReadsAtom variableName (numberText (Scalar.abs c)).toList f ∧
      ∀ A t, f.value A t = if c < 0.0 then -rounding c else rounding c := by
  unfold Scalar.abs
  by_cases hneg : c < 0.0
  · simp only [hneg, if_true]
    exact readsAtom_magnitude variableName hc hneg
  · simp only [hneg, if_false]
    exact readsAtom_number variableName hc hneg

theorem abs_eq_one (hc : Scalar.isFinite c = true) (hone : (Scalar.abs c == 1.0) = true) :
    (if c < 0.0 then -rounding c else rounding c) = 1 := by
  have hround := rounding_one hone
  unfold Scalar.abs at hround
  by_cases hneg : c < 0.0
  · obtain ⟨units, hdecimal, hmagnitude⟩ := DecimalScalar.toDecimal_of_neg 6 hc hneg
    rw [if_pos hneg] at hround ⊢
    rw [← hround, rounding, rounding, hdecimal, hmagnitude]
    simp [Decimal.value_finite]
  · rw [if_neg hneg] at hround ⊢
    exact hround

/-- The part of a straight line that changes, without its sign. -/
theorem readsProduct_slope (hname : IsName variableName.toList) (hc : Scalar.isFinite c = true)
    (hd : Scalar.isFinite d = true) (ho : Scalar.isFinite o = true) (hpos : 0.0 < d)
    (hround : rounding d ≠ 0) :
    ∃ f, ReadsProduct variableName (Expr.slopeText variableName c d o).toList f ∧
      ∀ A t, f.value A t =
        (if c < 0.0 then -rounding c else rounding c) * (t - rounding o) / rounding d := by
  obtain ⟨e, he, hevalue⟩ := readsAtom_elapsed hname ho
  obtain ⟨size, hsize, hsvalue⟩ := readsAtom_abs variableName hc
  obtain ⟨dur, hdur, hdvalue⟩ := readsAtom_number variableName hd (not_neg_of_pos hpos)
  -- The factor may be left out, and so may the divisor, if they are one.
  have hterm : ∃ f, ReadsProduct variableName
        (if Scalar.abs c == 1.0 then Expr.elapsedText variableName o
          else numberText (Scalar.abs c) ++ "*" ++ Expr.elapsedText variableName o).toList f ∧
      ∀ A t, f.value A t = (if c < 0.0 then -rounding c else rounding c) * (t - rounding o) := by
    by_cases hone : (Scalar.abs c == 1.0) = true
    · refine ⟨e, ?_, ?_⟩
      · simpa only [hone, if_true] using he.product
      · intro A t
        rw [hevalue, abs_eq_one hc hone, one_mul]
    · refine ⟨.binary .mul size e, ?_, ?_⟩
      · have hmul := hsize.product.factor he (.inl ⟨rfl, rfl⟩)
        simpa [hone] using hmul
      · intro A t
        rw [Formula.value, hsvalue, hevalue]
  obtain ⟨term, hterm, htvalue⟩ := hterm
  unfold Expr.slopeText
  dsimp only
  by_cases hone : (d == 1.0) = true
  · refine ⟨term, ?_, ?_⟩
    · simpa only [hone, if_true] using hterm
    · intro A t
      rw [htvalue, rounding_one hone, div_one]
  · refine ⟨.binary .div term dur, ?_, ?_⟩
    · have hdiv := hterm.factor hdur (.inr ⟨rfl, rfl⟩)
      simpa [hone] using hdiv
    · intro A t
      rw [Formula.value, htvalue, hdvalue, A.div_of_ne _ hround]

/-- A straight line. -/
theorem readsSum_linear (hname : IsName variableName.toList) (hb : Scalar.isFinite b = true)
    (hc : Scalar.isFinite c = true) (hd : Scalar.isFinite d = true) (ho : Scalar.isFinite o = true)
    (hpos : 0.0 < d) (hround : rounding d ≠ 0) :
    ∃ f, ReadsSum variableName (Expr.linearText variableName b c d o).toList f ∧
      ∀ A t, f.value A t = rounding b + rounding c * (t - rounding o) / rounding d := by
  obtain ⟨slope, hslope, hsvalue⟩ := readsProduct_slope hname hc hd ho hpos hround
  obtain ⟨base, hbase, hbvalue⟩ := readsSum_number variableName hb
  unfold Expr.linearText
  dsimp only
  by_cases hflat : (c == 0.0) = true
  · refine ⟨base, ?_, ?_⟩
    · simpa only [hflat, if_true] using hbase
    · intro A t
      rw [hbvalue, rounding_zero hflat]
      simp
  by_cases hzero : (b == 0.0) = true
  · by_cases hneg : c < 0.0
    · refine ⟨.neg slope, ?_, ?_⟩
      · simpa [hflat, hzero, hneg] using hslope.neg
      · intro A t
        rw [Formula.value, hsvalue, rounding_zero hzero, if_pos hneg]
        ring
    · refine ⟨slope, ?_, ?_⟩
      · simpa [hflat, hzero, hneg] using hslope.sum
      · intro A t
        rw [hsvalue, rounding_zero hzero, if_neg hneg]
        ring
  · by_cases hneg : c < 0.0
    · refine ⟨.binary .sub base slope, ?_, ?_⟩
      · simpa [hflat, hzero, hneg] using hbase.term hslope (.inr ⟨rfl, rfl⟩)
      · intro A t
        rw [Formula.value, hbvalue, hsvalue, if_pos hneg]
        ring
    · refine ⟨.binary .add base slope, ?_, ?_⟩
      · simpa [hflat, hzero, hneg] using hbase.term hslope (.inl ⟨rfl, rfl⟩)
      · intro A t
        rw [Formula.value, hbvalue, hsvalue, if_neg hneg]

end Lines

/-! ## Expressions -/

/-- The text of an expression is read as a formula with the same value, on the
level that its binding promises. -/
structure Rendered (variableName : String) (e : Expr α) (text : String) (f : Formula) : Prop where
  means : ∀ A t, Arithmetic.eval A t e.rounded = .ok (f.value A t)
  sum : ReadsSum variableName text.toList f
  product : 3 ≤ e.binding → ReadsProduct variableName text.toList f
  atom : 4 ≤ e.binding → ReadsAtom variableName text.toList f

section Expressions

variable {variableName text text' : String} {e l r : Expr α} {f g : Formula}

theorem Rendered.of_atom (means : ∀ A t, Arithmetic.eval A t e.rounded = .ok (f.value A t))
    (h : ReadsAtom variableName text.toList f) : Rendered variableName e text f :=
  ⟨means, h.product.sum, fun _ => h.product, fun _ => h⟩

theorem Rendered.of_product (means : ∀ A t, Arithmetic.eval A t e.rounded = .ok (f.value A t))
    (hbinding : e.binding = 3) (h : ReadsProduct variableName text.toList f) :
    Rendered variableName e text f :=
  ⟨means, h.sum, fun _ => h, fun hatom => by omega⟩

theorem Rendered.of_sum (means : ∀ A t, Arithmetic.eval A t e.rounded = .ok (f.value A t))
    (hbinding : e.binding ≤ 2) (h : ReadsSum variableName text.toList f) :
    Rendered variableName e text f :=
  ⟨means, h, fun hproduct => by omega, fun hatom => by omega⟩

theorem one_le_binding (e : Expr α) : 1 ≤ e.binding := by
  unfold Expr.binding
  split
  · split
    all_goals decide
  all_goals decide

/-- An operand that has to bind like an atom. -/
theorem Rendered.operand_atom (h : Rendered variableName e text f) :
    ReadsAtom variableName (Expr.operand 4 e text).toList f := by
  unfold Expr.operand
  by_cases hb : e.binding < 4
  · rw [if_pos hb]
    simpa using h.sum.paren
  · rw [if_neg hb]
    exact h.atom (by omega)

/-- An operand that has to bind like a product. -/
theorem Rendered.operand_product (h : Rendered variableName e text f) :
    ReadsProduct variableName (Expr.operand 3 e text).toList f := by
  unfold Expr.operand
  by_cases hb : e.binding < 3
  · rw [if_pos hb]
    simpa using h.sum.paren.product
  · rw [if_neg hb]
    exact h.product (by omega)

theorem Rendered.operand_sum (h : Rendered variableName e text f) :
    ReadsSum variableName (Expr.operand 1 e text).toList f := by
  have hb := one_le_binding e
  unfold Expr.operand
  rw [if_neg (by omega)]
  exact h.sum

/-- The right side of a sum: a negative literal gives its sign to the operator
in front of it. -/
theorem Rendered.addend [DecimalScalar α] {cs : List Char} (hl : ReadsSum variableName cs f)
    (h : Rendered variableName r text g) (hr : r.Renderable) :
    (∃ s, ReadsSum variableName (cs ++ (Expr.addend "+" "-" r text).toList) s ∧
      ∀ A t, s.value A t = f.value A t + g.value A t) ∧
    ∃ s, ReadsSum variableName (cs ++ (Expr.addend "-" "+" r text).toList) s ∧
      ∀ A t, s.value A t = f.value A t - g.value A t := by
  have hplain : ∀ mark op, (mark = '+' ∧ op = .add) ∨ (mark = '-' ∧ op = .sub) →
      ReadsSum variableName (cs ++ mark :: (Expr.operand 3 r text).toList) (.binary op f g) :=
    fun mark op hop => hl.term h.operand_product hop
  have hboth : (∃ s, ReadsSum variableName (cs ++ '+' :: (Expr.operand 3 r text).toList) s ∧
        ∀ A t, s.value A t = f.value A t + g.value A t) ∧
      ∃ s, ReadsSum variableName (cs ++ '-' :: (Expr.operand 3 r text).toList) s ∧
        ∀ A t, s.value A t = f.value A t - g.value A t :=
    ⟨⟨_, hplain '+' .add (.inl ⟨rfl, rfl⟩), fun A t => rfl⟩,
      ⟨_, hplain '-' .sub (.inr ⟨rfl, rfl⟩), fun A t => rfl⟩⟩
  unfold Expr.addend
  split
  · rename_i c
    by_cases hneg : c < 0.0
    · obtain ⟨m, hm, hvalue⟩ := readsAtom_magnitude variableName hr hneg
      have hg : ∀ A t, g.value A t = rounding c := by
        intro A t
        have hmeans := h.means A t
        exact (Except.ok.inj hmeans).symm
      simp only [hneg, if_true]
      refine ⟨⟨.binary .sub f m, ?_, ?_⟩, .binary .add f m, ?_, ?_⟩
      · simpa using hl.term hm.product (.inr ⟨rfl, rfl⟩)
      · intro A t
        rw [Formula.value, hvalue, hg]
        ring
      · simpa using hl.term hm.product (.inl ⟨rfl, rfl⟩)
      · intro A t
        rw [Formula.value, hvalue, hg]
        ring
    · simpa [hneg] using hboth
  · simpa using hboth

/-! ## Calls -/

section Calls

omit [Scalar α]

theorem toList_call₁ (name x : String) :
    (Expr.call name [x]).toList = name.toList ++ '(' :: (x.toList ++ [')']) := by
  simp [Expr.call]

theorem toList_call₂ (name x y : String) :
    (Expr.call name [x, y]).toList =
      name.toList ++ '(' :: ((x.toList ++ ',' :: y.toList) ++ [')']) := by
  simp [Expr.call]

theorem toList_call₃ (name x y z : String) :
    (Expr.call name [x, y, z]).toList =
      name.toList ++ '(' :: ((x.toList ++ ',' :: (y.toList ++ ',' :: z.toList)) ++ [')']) := by
  simp [Expr.call]

variable {variableName : String} {cs x y z : List Char} {a b c f : Formula}

theorem readsAtom_call {name : String} {fs : List Formula} (hargs : ReadsArgs variableName cs fs)
    (hname : IsName name.toList) (hcall : call? name fs = some f) :
    ReadsAtom variableName (name.toList ++ '(' :: (cs ++ [')'])) f :=
  hargs.call hname (by rw [String.ofList_toList]; exact hcall)

end Calls

/-! ## One step of the induction -/

variable [DecimalScalar α]

theorem rendered_const {c : α} (h : Scalar.isFinite c = true) :
    ∃ f, Rendered variableName (.const c) (numberText c) f := by
  by_cases hneg : c < 0.0
  · obtain ⟨f, hread, hvalue⟩ := readsSum_number variableName h
    have hbinding : (Expr.const c).binding ≤ 2 := by simp [Expr.binding, hneg]
    exact ⟨f, .of_sum (fun A t => by rw [hvalue]; rfl) hbinding hread⟩
  · obtain ⟨f, hread, hvalue⟩ := readsAtom_number variableName h hneg
    exact ⟨f, .of_atom (fun A t => by rw [hvalue]; rfl) hread⟩

theorem rendered_linear {b c d o : α} (hname : IsName variableName.toList)
    (h : (Expr.linear b c d o).Renderable) :
    ∃ f, Rendered variableName (.linear b c d o) (Expr.linearText variableName b c d o) f := by
  obtain ⟨hb, hc, hd, ho, hpos, hround⟩ := h
  obtain ⟨f, hread, hvalue⟩ := readsSum_linear hname hb hc hd ho hpos hround
  refine ⟨f, .of_sum ?_ (by simp [Expr.binding]) hread⟩
  intro A t
  -- The duration is not rounded to zero, so the division is an ordinary one.
  rw [hvalue, ← A.div_of_ne _ hround]
  rfl

omit [DecimalScalar α] in
theorem rendered_unary (op : UnaryOp) (hx : e.render variableName = .ok text)
    (h : Rendered variableName e text f) :
    ∃ s g, (Expr.unary op e).render variableName = .ok s ∧
      Rendered variableName (.unary op e) s g := by
  have hmeans : ∀ A t, Arithmetic.eval A t (Expr.unary op e).rounded =
      .ok (@UnaryOp.apply ℝ A.scalar op (f.value A t)) :=
    fun A t => Arithmetic.eval_unary op (h.means A t)
  cases op with
  | neg =>
    refine ⟨"-" ++ Expr.operand 4 e text, .neg f, by simp only [Expr.render, hx]; rfl,
      .of_sum hmeans (by simp [Expr.binding]) ?_⟩
    simpa using h.operand_atom.product.neg
  | sin =>
    refine ⟨Expr.call "sin" [text], .call₁ .sin f, by simp only [Expr.render, hx]; rfl,
      .of_atom hmeans ?_⟩
    rw [toList_call₁]
    exact readsAtom_call h.sum.arg (isName_of_all rfl rfl) rfl
  | cos =>
    refine ⟨Expr.call "cos" [text], .call₁ .cos f, by simp only [Expr.render, hx]; rfl,
      .of_atom hmeans ?_⟩
    rw [toList_call₁]
    exact readsAtom_call h.sum.arg (isName_of_all rfl rfl) rfl
  | sqrt =>
    refine ⟨Expr.call "sqrt" [text], .call₁ .sqrt f, by simp only [Expr.render, hx]; rfl,
      .of_atom hmeans ?_⟩
    rw [toList_call₁]
    exact readsAtom_call h.sum.arg (isName_of_all rfl rfl) rfl

theorem rendered_binary (op : BinaryOp) (hx : l.render variableName = .ok text)
    (hl : Rendered variableName l text f) (hy : r.render variableName = .ok text')
    (hr : Rendered variableName r text' g) (hright : r.Renderable) :
    ∃ s g, (Expr.binary op l r).render variableName = .ok s ∧
      Rendered variableName (.binary op l r) s g := by
  have hmeans : ∀ A t, Arithmetic.eval A t (Expr.binary op l r).rounded =
      .ok (@BinaryOp.apply ℝ A.scalar op (f.value A t) (g.value A t)) :=
    fun A t => Arithmetic.eval_binary op (hl.means A t) (hr.means A t)
  have hsums := hr.addend hl.operand_sum hright
  cases op with
  | add =>
    obtain ⟨⟨s, hs, hvalue⟩, -⟩ := hsums
    refine ⟨Expr.operand 1 l text ++ Expr.addend "+" "-" r text', s,
      by simp only [Expr.render, hx, hy]; rfl,
      .of_sum (fun A t => by rw [hmeans, hvalue]; rfl) (by simp [Expr.binding]) ?_⟩
    simpa using hs
  | sub =>
    obtain ⟨-, s, hs, hvalue⟩ := hsums
    refine ⟨Expr.operand 1 l text ++ Expr.addend "-" "+" r text', s,
      by simp only [Expr.render, hx, hy]; rfl,
      .of_sum (fun A t => by rw [hmeans, hvalue]; rfl) (by simp [Expr.binding]) ?_⟩
    simpa using hs
  | mul =>
    refine ⟨Expr.operand 3 l text ++ "*" ++ Expr.operand 4 r text', .binary .mul f g,
      by simp only [Expr.render, hx, hy]; rfl, .of_product hmeans (by simp [Expr.binding]) ?_⟩
    simpa using hl.operand_product.factor hr.operand_atom (.inl ⟨rfl, rfl⟩)
  | div =>
    refine ⟨Expr.operand 3 l text ++ "/" ++ Expr.operand 4 r text', .binary .div f g,
      by simp only [Expr.render, hx, hy]; rfl, .of_product hmeans (by simp [Expr.binding]) ?_⟩
    simpa using hl.operand_product.factor hr.operand_atom (.inr ⟨rfl, rfl⟩)
  | pow =>
    refine ⟨Expr.call "pow" [text, text'], .call₂ .pow f g,
      by simp only [Expr.render, hx, hy]; rfl, .of_atom hmeans ?_⟩
    rw [toList_call₂]
    exact readsAtom_call (.cons hl.sum hr.sum.arg) (isName_of_all rfl rfl) rfl

/-- The function that compares gives one where the relation holds. -/
def comparison : Relation → Function₂
  | .lt => .lt
  | .le => .lte

omit [Scalar α] [DecimalScalar α] in
theorem readsAtom_relation (rel : Relation) (hf : ReadsSum variableName text.toList f)
    (hg : ReadsSum variableName text'.toList g) :
    ReadsAtom variableName (Expr.call (Expr.relationName rel) [text, text']).toList
      (.call₂ (comparison rel) f g) := by
  rw [toList_call₂]
  cases rel with
  | lt => exact readsAtom_call (.cons hf hg.arg) (isName_of_all rfl rfl) rfl
  | le => exact readsAtom_call (.cons hf hg.arg) (isName_of_all rfl rfl) rfl

omit [Scalar α] [DecimalScalar α] in
theorem value_relation (A : Arithmetic) (t : ℝ) (rel : Relation) :
    (Formula.call₂ (comparison rel) f g).value A t ≠ 0 ↔
      @Relation.holds ℝ A.scalar rel (f.value A t) (g.value A t) = true := by
  cases rel with
  | lt => simp [comparison, Formula.value, Relation.holds]
  | le => simp [comparison, Formula.value, Relation.holds]

omit [Scalar α] [DecimalScalar α] in
theorem readsAtom_choice {s y y' : String} {c h k : Formula}
    (hc : ReadsAtom variableName s.toList c) (hy : ReadsSum variableName y.toList h)
    (hn : ReadsSum variableName y'.toList k) :
    ReadsAtom variableName (Expr.call "if" [s, y, y']).toList (.call₃ .choice c h k) := by
  rw [toList_call₃]
  exact readsAtom_call (.cons hc.product.sum (.cons hy hn.arg)) (isName_of_all rfl rfl) rfl

end Expressions

/-- **The text of an expression means what the expression does**, on every level
its binding promises. -/
theorem rendered [DecimalScalar α] {variableName : String} (hname : IsName variableName.toList)
    {e : Expr α} (h : e.Renderable) :
    ∃ s f, e.render variableName = .ok s ∧ Rendered variableName e s f := by
  induction e with
  | const c =>
    obtain ⟨f, hf⟩ := rendered_const h
    exact ⟨_, f, rfl, hf⟩
  | time => exact ⟨_, .time, rfl, .of_atom (fun A t => rfl) (readsAtom_time hname)⟩
  | linear b c d o =>
    obtain ⟨f, hf⟩ := rendered_linear hname h
    exact ⟨_, f, rfl, hf⟩
  | unary op a iha =>
    obtain ⟨x, f, hx, hf⟩ := iha h
    exact rendered_unary op hx hf
  | binary op l r ihl ihr =>
    obtain ⟨x, f, hx, hf⟩ := ihl h.1
    obtain ⟨y, g, hy, hg⟩ := ihr h.2
    exact rendered_binary op hx hf hy hg h.2
  | ifRel rel l r yes no ihl ihr ihy ihn =>
    obtain ⟨hl, hr, hy, hn⟩ := h
    obtain ⟨x, f, hx, hf⟩ := ihl hl
    obtain ⟨x', f', hx', hf'⟩ := ihr hr
    obtain ⟨y, g, hy, hg⟩ := ihy hy
    obtain ⟨y', g', hy', hg'⟩ := ihn hn
    refine ⟨Expr.call "if" [Expr.call (Expr.relationName rel) [x, x'], y, y'],
      .call₃ .choice (.call₂ (comparison rel) f f') g g',
      by simp only [Expr.render, hx, hx', hy, hy']; rfl, .of_atom ?_ ?_⟩
    · intro A t
      rw [Expr.rounded, Arithmetic.eval_ifRel rel (hf.means A t) (hf'.means A t), hg.means,
        hg'.means, Formula.value]
      by_cases hholds : @Relation.holds ℝ A.scalar rel (f.value A t) (f'.value A t) = true
      · rw [if_pos hholds, if_pos ((value_relation A t rel).2 hholds)]
      · rw [if_neg hholds, if_neg (mt (value_relation A t rel).1 hholds)]
    · exact readsAtom_choice (readsAtom_relation rel hf.sum hf'.sum) hg.sum hg'.sum
  | ifBetween v lo hi yes no ihv ihlo ihhi ihy ihn =>
    obtain ⟨hv, hlo, hhi, hy, hn⟩ := h
    obtain ⟨x, f, hx, hf⟩ := ihv hv
    obtain ⟨x₁, f₁, hx₁, hf₁⟩ := ihlo hlo
    obtain ⟨x₂, f₂, hx₂, hf₂⟩ := ihhi hhi
    obtain ⟨y, g, hy, hg⟩ := ihy hy
    obtain ⟨y', g', hy', hg'⟩ := ihn hn
    refine ⟨Expr.call "if" [Expr.call "between" [x, x₁, x₂], y, y'],
      .call₃ .choice (.call₃ .between f f₁ f₂) g g',
      by simp only [Expr.render, hx, hx₁, hx₂, hy, hy']; rfl, .of_atom ?_ ?_⟩
    · intro A t
      rw [Expr.rounded, Arithmetic.eval_ifBetween (hf.means A t) (hf₁.means A t) (hf₂.means A t),
        hg.means, hg'.means]
      by_cases hholds : f₁.value A t ≤ f.value A t ∧ f.value A t ≤ f₂.value A t
      · simp [Formula.value, hholds]
      · simp [Formula.value, hholds]
    · refine readsAtom_choice ?_ hg.sum hg'.sum
      rw [toList_call₃]
      exact readsAtom_call (.cons hf.sum (.cons hf₁.sum hf₂.sum.arg)) (isName_of_all rfl rfl) rfl
  | elseSlot d => exact absurd h id
  | delaySlot => exact absurd h id

/-- **Rendering preserves meaning.** The text of an expression without slots,
whose numbers are finite and whose straight lines last longer than the rounding
takes away, can be read as a formula, to its end. In exact arithmetic, whatever
its functions are and whatever it makes of a division by zero, the formula has
at every time the value of the expression with its numbers rounded. -/
theorem read?_render [DecimalScalar α] {e : Expr α} {variableName : String} (h : e.Renderable)
    (hname : IsName variableName.toList) :
    ∃ s f, e.render variableName = .ok s ∧ read? variableName s = some f ∧
      ∀ A t, Arithmetic.eval A t e.rounded = .ok (f.value A t) := by
  obtain ⟨s, f, hs, hf⟩ := rendered hname h
  refine ⟨s, f, hs, ?_, hf.means⟩
  have hends : EndsProduct [] := by
    intro c hc
    cases hc
  obtain ⟨left, hleft, hread⟩ := hf.sum (3 * s.toList.length + 3) [] hends (by simp)
  obtain ⟨left, rfl⟩ : ∃ n, left = n + 1 := ⟨left - 1, by omega⟩
  rw [List.append_nil] at hread
  unfold read?
  rw [hread]
  rfl

/-- A difference whose right side is a sum, with a straight line in it. -/
theorem read?_render_difference :
    ∃ s f,
      ((.const 1.0 - (.const (-2.5) + .linear 0.0 1.0 0.5 1.0) : Expr Float).render "t") = .ok s ∧
        read? "t" s = some f ∧ ∀ A t, Arithmetic.eval A t
          (.const 1.0 - (.const (-2.5) + .linear 0.0 1.0 0.5 1.0) : Expr Float).rounded =
            .ok (f.value A t) := by
  have hhalf : Scalar.toDecimal 6 (0.5 : Float) = .finite false 500000 := by decide +kernel
  have hrounding : rounding (0.5 : Float) ≠ 0 := by
    rw [rounding, hhalf]
    norm_num [Decimal.value_finite]
  refine read?_render (e := .const 1.0 - (.const (-2.5) + .linear 0.0 1.0 0.5 1.0)) ?_ ?_
  · exact ⟨rfl, rfl, rfl, rfl, rfl, rfl, by decide +kernel, hrounding⟩
  · exact isName_of_all rfl rfl

end Tween
