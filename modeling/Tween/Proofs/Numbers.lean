/-
The numbers in an expression, and its text. Where they are finite, the text
holds no word for a number that is not: in it every `f` follows an `i`, as in
the name of a choice, and there are no capital letters (`Expr.legible_render`).
-/
import Tween.Expr.Text
import Tween.Proofs.Fallible
import Tween.Proofs.Numeral
import Tween.Proofs.Scalar

namespace Tween

variable {α : Type}

/-! ## Numbers -/

/-- The numbers in an expression: its constants, and the parts of its straight
lines. -/
def Expr.numbers : Expr α → List α
  | .const c => [c]
  | .time => []
  | .linear b c d o => [b, c, d, o]
  | .unary _ a => a.numbers
  | .binary _ l r => l.numbers ++ r.numbers
  | .ifRel _ l r y n => l.numbers ++ r.numbers ++ y.numbers ++ n.numbers
  | .ifBetween v lo hi y n => v.numbers ++ lo.numbers ++ hi.numbers ++ y.numbers ++ n.numbers
  | .elseSlot d => d.numbers
  | .delaySlot => []

def OptionValue.numbers : OptionValue α → List α
  | .animated x => x.numbers
  | .fixed (.number x) => [x]
  | .fixed (.text _) => []

/-- The numbers in the options of a filter. -/
def Filter.numbers (f : Filter α) : List α := f.options.entries.flatMap fun e => e.2.numbers

namespace Expr

theorem numbers_collapseElse (e : Expr α) : e.collapseElse.numbers = e.numbers := by
  induction e with
  | const | time | linear | delaySlot => rfl
  | unary op a iha => exact iha
  | binary op l r ihl ihr => simp only [collapseElse, numbers, ihl, ihr]
  | ifRel rel l r y n ihl ihr ihy ihn => simp only [collapseElse, numbers, ihl, ihr, ihy, ihn]
  | ifBetween v lo hi y n ihv ihlo ihhi ihy ihn =>
    simp only [collapseElse, numbers, ihv, ihlo, ihhi, ihy, ihn]
  | elseSlot d ihd => exact ihd

section Operations

variable {a b y n : Expr α}

@[simp] theorem numbers_const (c : α) : (const c).numbers = [c] := rfl

@[simp] theorem numbers_time : (time : Expr α).numbers = [] := rfl

@[simp] theorem numbers_ofScientific [OfScientific α] (m : Nat) (s : Bool) (e : Nat) :
    (OfScientific.ofScientific m s e : Expr α).numbers = [OfScientific.ofScientific m s e] := rfl

@[simp] theorem numbers_add : (a + b).numbers = a.numbers ++ b.numbers := rfl

@[simp] theorem numbers_sub : (a - b).numbers = a.numbers ++ b.numbers := rfl

@[simp] theorem numbers_mul : (a * b).numbers = a.numbers ++ b.numbers := rfl

@[simp] theorem numbers_div : (a / b).numbers = a.numbers ++ b.numbers := rfl

@[simp] theorem numbers_pow : (a.pow b).numbers = a.numbers ++ b.numbers := rfl

@[simp] theorem numbers_neg : (-a).numbers = a.numbers := rfl

@[simp] theorem numbers_sin : a.sin.numbers = a.numbers := rfl

@[simp] theorem numbers_cos : a.cos.numbers = a.numbers := rfl

@[simp] theorem numbers_sqrt : a.sqrt.numbers = a.numbers := rfl

@[simp] theorem numbers_ifLt :
    (ifLt a b y n).numbers = a.numbers ++ b.numbers ++ y.numbers ++ n.numbers := rfl

@[simp] theorem numbers_ifLe :
    (ifLe a b y n).numbers = a.numbers ++ b.numbers ++ y.numbers ++ n.numbers := rfl

end Operations

end Expr

/-! ## Finite numbers -/

variable [Scalar α]

/-- Every number of a list is finite. -/
def AllFinite (xs : List α) : Prop := ∀ x ∈ xs, Scalar.isFinite x = true

instance (xs : List α) : Decidable (AllFinite xs) :=
  inferInstanceAs (Decidable (∀ x ∈ xs, Scalar.isFinite x = true))

@[simp] theorem allFinite_nil : AllFinite ([] : List α) := by simp [AllFinite]

@[simp] theorem allFinite_cons {x : α} {xs : List α} :
    AllFinite (x :: xs) ↔ Scalar.isFinite x = true ∧ AllFinite xs := List.forall_mem_cons

@[simp] theorem allFinite_append {xs ys : List α} :
    AllFinite (xs ++ ys) ↔ AllFinite xs ∧ AllFinite ys := List.forall_mem_append

/-! ## Texts -/

/-- A text in which no word for a number that is not finite can stand. -/
def Legible (s : String) : Prop :=
  'N' ∉ s.toList ∧ ∀ before after, s.toList = before ++ 'f' :: after → before.getLast? = some 'i'

namespace Legible

variable {s t : String}

theorem not_infinite (h : Legible s) : ¬ "inf".toList <:+: s.toList := by
  rintro ⟨before, after, heq⟩
  have hlast := h.2 (before ++ ['i', 'n']) after (by rw [← heq]; simp)
  simp at hlast

theorem not_nan (h : Legible s) : ¬ "NaN".toList <:+: s.toList :=
  fun hin => h.1 (hin.subset (by decide))

theorem of_forall (h : ∀ c ∈ s.toList, c ≠ 'N' ∧ c ≠ 'f') : Legible s :=
  ⟨fun hmem => (h _ hmem).1 rfl, fun before after heq => absurd rfl (h 'f' (by simp [heq])).2⟩

theorem of_all (h : (s.toList.all fun c => c != 'N' && c != 'f') = true) : Legible s :=
  .of_forall fun c hc => by simpa using List.all_eq_true.1 h c hc

theorem append (hs : Legible s) (ht : Legible t) : Legible (s ++ t) := by
  constructor
  · rw [String.toList_append, List.mem_append]
    exact fun h => h.elim hs.1 ht.1
  · intro before after heq
    rw [String.toList_append] at heq
    -- The letter stands in one text or in the other.
    rcases List.append_eq_append_iff.1 heq with ⟨middle, rfl, hrest⟩ | ⟨middle, hfirst, hrest⟩
    · rw [List.getLast?_append, ht.2 middle after hrest]
      rfl
    · cases middle with
      | nil =>
        have hstart := ht.2 [] after hrest.symm
        cases hstart
      | cons c middle =>
        obtain ⟨rfl, -⟩ := List.cons.inj hrest
        exact hs.2 before middle hfirst

theorem intercalate {separator : String} (hseparator : Legible separator) {texts : List String}
    (h : ∀ s ∈ texts, Legible s) : Legible (separator.intercalate texts) := by
  induction texts with
  | nil => exact .of_forall (by simp)
  | cons s texts ih =>
    obtain ⟨hs, htexts⟩ := List.forall_mem_cons.1 h
    cases texts with
    | nil => simpa using hs
    | cons t texts =>
      rw [String.intercalate_cons_cons]
      exact (hs.append hseparator).append (ih htexts)

/-- The name of a choice. -/
theorem choice : Legible "if" := by
  refine ⟨by decide, fun before after heq => ?_⟩
  rcases before with _ | ⟨c, _ | ⟨d, rest⟩⟩
  · simp at heq
  · simp at heq ⊢
    exact heq.1.symm
  · simp at heq

end Legible

theorem ne_of_isDigit {c : Char} (h : c.isDigit = true) : c ≠ 'N' ∧ c ≠ 'f' := by
  constructor
  · rintro rfl
    cases h
  · rintro rfl
    cases h

/-- A decimal that is finite is written in digits, with a point and a sign. -/
theorem Decimal.legible_text {places : Nat} (hplaces : 0 < places) (negative : Bool)
    (units : Nat) : Legible ((Decimal.finite negative units).text places) := by
  refine .of_forall fun c hc => ?_
  rw [← Numeral.text_ofUnits hplaces, Numeral.text, String.toList_ofList] at hc
  rcases (Numeral.isCanonical_ofUnits hplaces _).mem_toList hc with rfl | rfl | hc
  · decide
  · decide
  · exact ne_of_isDigit hc

section

variable [DecimalScalar α] {x : α}

theorem legible_numberText (hx : Scalar.isFinite x = true) : Legible (numberText x) := by
  unfold numberText
  by_cases hneg : x < 0.0
  · obtain ⟨units, htext, -⟩ := DecimalScalar.toDecimal_of_neg 6 hx hneg
    exact htext ▸ Decimal.legible_text (by decide) true units
  · obtain ⟨negative, units, htext, -⟩ := DecimalScalar.toDecimal_of_not_neg 6 hx hneg
    exact htext ▸ Decimal.legible_text (by decide) negative units

theorem legible_numberText_neg (hx : Scalar.isFinite x = true) (hneg : x < 0.0) :
    Legible (numberText (-x)) := by
  obtain ⟨units, -, htext⟩ := DecimalScalar.toDecimal_of_neg 6 hx hneg
  unfold numberText
  exact htext ▸ Decimal.legible_text (by decide) false units

namespace Expr

omit [DecimalScalar α] in
theorem legible_operand {least : Nat} {e : Expr α} {text : String} (h : Legible text) :
    Legible (operand least e text) := by
  unfold operand
  split
  · exact (Legible.append (.of_all (by decide)) h).append (.of_all (by decide))
  · exact h

theorem legible_addend {plus minus : String} (hplus : Legible plus) (hminus : Legible minus)
    {e : Expr α} {text : String} (he : AllFinite e.numbers) (h : Legible text) :
    Legible (addend plus minus e text) := by
  unfold addend
  split
  · split
    · rename_i c hneg
      exact hminus.append (legible_numberText_neg (he c (by simp)) hneg)
    · exact hplus.append (legible_operand h)
  · exact hplus.append (legible_operand h)

theorem legible_elapsedText {time : String} (htime : Legible time) {origin : α}
    (horigin : Scalar.isFinite origin = true) : Legible (elapsedText time origin) := by
  unfold elapsedText
  split
  · exact htime
  · have hopen : Legible ("(" ++ time) := .append (.of_all (by decide)) htime
    split
    · rename_i hneg
      exact ((hopen.append (.of_all (by decide))).append
        (legible_numberText_neg horigin hneg)).append (.of_all (by decide))
    · exact ((hopen.append (.of_all (by decide))).append
        (legible_numberText horigin)).append (.of_all (by decide))

theorem legible_slopeText {time : String} (htime : Legible time) {change duration origin : α}
    (h : AllFinite [change, duration, origin]) :
    Legible (slopeText time change duration origin) := by
  simp only [allFinite_cons, allFinite_nil, and_true] at h
  obtain ⟨hchange, hduration, horigin⟩ := h
  have helapsed := legible_elapsedText htime horigin
  have hsize : Legible (numberText (Scalar.abs change)) := by
    unfold Scalar.abs
    split
    · rename_i hneg
      exact legible_numberText_neg hchange hneg
    · exact legible_numberText hchange
  have hterm : Legible (if Scalar.abs change == 1.0 then elapsedText time origin
      else numberText (Scalar.abs change) ++ "*" ++ elapsedText time origin) := by
    split
    · exact helapsed
    · exact (hsize.append (.of_all (by decide))).append helapsed
  unfold slopeText
  dsimp only
  split
  · exact hterm
  · exact (hterm.append (.of_all (by decide))).append (legible_numberText hduration)

theorem legible_linearText {time : String} (htime : Legible time) {base change duration origin : α}
    (h : AllFinite [base, change, duration, origin]) :
    Legible (linearText time base change duration origin) := by
  rw [allFinite_cons] at h
  have hterm := legible_slopeText htime h.2
  unfold linearText
  dsimp only
  split
  · exact legible_numberText h.1
  · split
    · refine .append ?_ hterm
      split <;> exact .of_all (by decide)
    · refine ((legible_numberText h.1).append ?_).append hterm
      split <;> exact .of_all (by decide)

omit [Scalar α] [DecimalScalar α] in
theorem legible_call {name : String} (hname : Legible name) {args : List String}
    (h : ∀ s ∈ args, Legible s) : Legible (call name args) :=
  ((hname.append (.of_all (by decide))).append
    (.intercalate (.of_all (by decide)) h)).append (.of_all (by decide))

/-- **The text of an expression** with finite numbers is legible. -/
theorem legible_render {time : String} (htime : Legible time) {e : Expr α} {s : String}
    (h : e.render time = .ok s) (he : AllFinite e.numbers) : Legible s := by
  induction e generalizing s with
  | const c =>
    obtain rfl := Except.ok.inj h
    exact legible_numberText (he c (by simp))
  | time =>
    obtain rfl := Except.ok.inj h
    exact htime
  | linear b c d o =>
    obtain rfl := Except.ok.inj h
    exact legible_linearText htime he
  | unary op a iha =>
    obtain ⟨x, hx, h⟩ := bind_eq_ok.1 h
    have htext := iha hx he
    cases op with
    | neg =>
      obtain rfl := pure_eq_ok.1 h
      exact .append (.of_all (by decide)) (legible_operand htext)
    | sin | cos | sqrt =>
      obtain rfl := pure_eq_ok.1 h
      exact legible_call (.of_all (by decide)) (by simpa using htext)
  | binary op l r ihl ihr =>
    obtain ⟨hl, hr⟩ := allFinite_append.1 he
    obtain ⟨x, hx, h⟩ := bind_eq_ok.1 h
    obtain ⟨y, hy, h⟩ := bind_eq_ok.1 h
    have hleft := ihl hx hl
    have hright := ihr hy hr
    cases op with
    | add | sub =>
      obtain rfl := pure_eq_ok.1 h
      exact (legible_operand hleft).append
        (legible_addend (.of_all (by decide)) (.of_all (by decide)) hr hright)
    | mul | div =>
      obtain rfl := pure_eq_ok.1 h
      exact ((legible_operand hleft).append (.of_all (by decide))).append
        (legible_operand hright)
    | pow =>
      obtain rfl := pure_eq_ok.1 h
      exact legible_call (.of_all (by decide)) (by simpa using ⟨hleft, hright⟩)
  | ifRel rel l r yes no ihl ihr ihyes ihno =>
    simp only [numbers, allFinite_append] at he
    obtain ⟨⟨⟨hl, hr⟩, hyes⟩, hno⟩ := he
    simp only [render, bind_eq_ok, pure_eq_ok] at h
    obtain ⟨x, hx, y, hy, a, ha, b, hb, rfl⟩ := h
    have hrelation : Legible (call (relationName rel) [x, y]) := by
      refine legible_call ?_ (by simpa using ⟨ihl hx hl, ihr hy hr⟩)
      cases rel <;> exact .of_all (by decide)
    exact legible_call .choice (by simpa using ⟨hrelation, ihyes ha hyes, ihno hb hno⟩)
  | ifBetween v lo hi yes no ihv ihlo ihhi ihyes ihno =>
    simp only [numbers, allFinite_append] at he
    obtain ⟨⟨⟨⟨hv, hlo⟩, hhi⟩, hyes⟩, hno⟩ := he
    simp only [render, bind_eq_ok, pure_eq_ok] at h
    obtain ⟨x, hx, low, hlow, high, hhigh, a, ha, b, hb, rfl⟩ := h
    have hbetween : Legible (call "between" [x, low, high]) :=
      legible_call (.of_all (by decide))
        (by simpa using ⟨ihv hx hv, ihlo hlow hlo, ihhi hhigh hhi⟩)
    exact legible_call .choice (by simpa using ⟨hbetween, ihyes ha hyes, ihno hb hno⟩)
  | elseSlot d | delaySlot => cases h

end Expr

end

end Tween
