/-
Expressions without open slots. Filling and collapsing leave them as they are
(`mapSlots_of_closed`, `collapseElse_of_closed`), they have a value at every
time (`IsClosed.eval_ok`), and what an animation does inside its window is one
of them (`windowValue_closed`). The text of any other expression fails, with
its first slot (`render_stopsAt`).
-/
import Tween.Expr.Eval
import Tween.Expr.Text
import Tween.Filter.Build
import Tween.Proofs.Fallible

namespace Tween

/-! ## Computations that stop at a slot -/

/-- A computation fails with the given slot, or does not fail. -/
def StopsAt {β : Type} (x : Except Slot β) (first : Option Slot) : Prop :=
  ∀ s, x = .error s ↔ first = some s

namespace StopsAt

variable {β γ : Type} {x : Except Slot β} {first next : Option Slot}

theorem pure (b : β) : StopsAt (.ok b) none := fun s => by simp

theorem error (s : Slot) : StopsAt (.error s : Except Slot β) (some s) := fun s' => by simp

/-- What comes later fails only where nothing has failed before. -/
theorem bind {f : β → Except Slot γ} (h : StopsAt x first) (hf : ∀ b, StopsAt (f b) next) :
    StopsAt (x >>= f) (first <|> next) := by
  intro s
  cases x with
  | error s' =>
    rw [(h s').1 rfl, error_bind]
    simp
  | ok b =>
    have hfirst : first = none := Option.eq_none_iff_forall_ne_some.2 fun s hs => by
      simpa using (h s).2 hs
    rw [hfirst, ok_bind]
    exact hf b s

theorem map (f : β → γ) (h : StopsAt x first) : StopsAt (x >>= fun b => .ok (f b)) first := by
  simpa using h.bind fun b => StopsAt.pure (f b)

theorem eq_none_iff (h : StopsAt x first) : first = none ↔ ∃ b, x = .ok b := by
  cases x with
  | error s => simp [(h s).1 rfl]
  | ok b =>
    refine iff_of_true (Option.eq_none_iff_forall_ne_some.2 fun s hs => ?_) ⟨b, rfl⟩
    simpa using (h s).2 hs

end StopsAt

namespace Expr

variable {α : Type}

/-- No slot is in view. -/
def IsClosed (e : Expr α) : Prop := e.firstSlot = none

theorem orElse_eq_none {s s' : Option Slot} : (s <|> s') = none ↔ s = none ∧ s' = none := by
  cases s <;> simp

@[simp] theorem isClosed_const {c : α} : (const c).IsClosed := rfl

@[simp] theorem isClosed_time : (time : Expr α).IsClosed := rfl

@[simp] theorem isClosed_linear {b c d o : α} : (linear b c d o).IsClosed := rfl

@[simp] theorem isClosed_unary {op : UnaryOp} {a : Expr α} :
    (unary op a).IsClosed ↔ a.IsClosed := Iff.rfl

@[simp] theorem isClosed_binary {op : BinaryOp} {l r : Expr α} :
    (binary op l r).IsClosed ↔ l.IsClosed ∧ r.IsClosed := orElse_eq_none

@[simp] theorem isClosed_ifRel {rel : Relation} {l r y n : Expr α} :
    (ifRel rel l r y n).IsClosed ↔ l.IsClosed ∧ r.IsClosed ∧ y.IsClosed ∧ n.IsClosed := by
  simp only [IsClosed, firstSlot, orElse_eq_none]

@[simp] theorem isClosed_ifBetween {v lo hi y n : Expr α} :
    (ifBetween v lo hi y n).IsClosed ↔
      v.IsClosed ∧ lo.IsClosed ∧ hi.IsClosed ∧ y.IsClosed ∧ n.IsClosed := by
  simp only [IsClosed, firstSlot, orElse_eq_none]

@[simp] theorem not_isClosed_elseSlot {d : Expr α} : ¬ (elseSlot d).IsClosed := by
  simp [IsClosed, firstSlot]

@[simp] theorem not_isClosed_delaySlot : ¬ (delaySlot : Expr α).IsClosed := by
  simp [IsClosed, firstSlot]

section Operations

variable {a b y n : Expr α}

@[simp] theorem isClosed_add : (a + b).IsClosed ↔ a.IsClosed ∧ b.IsClosed := isClosed_binary

@[simp] theorem isClosed_sub : (a - b).IsClosed ↔ a.IsClosed ∧ b.IsClosed := isClosed_binary

@[simp] theorem isClosed_mul : (a * b).IsClosed ↔ a.IsClosed ∧ b.IsClosed := isClosed_binary

@[simp] theorem isClosed_div : (a / b).IsClosed ↔ a.IsClosed ∧ b.IsClosed := isClosed_binary

@[simp] theorem isClosed_pow : (a.pow b).IsClosed ↔ a.IsClosed ∧ b.IsClosed := isClosed_binary

@[simp] theorem isClosed_neg : (-a).IsClosed ↔ a.IsClosed := isClosed_unary

@[simp] theorem isClosed_sin : a.sin.IsClosed ↔ a.IsClosed := isClosed_unary

@[simp] theorem isClosed_cos : a.cos.IsClosed ↔ a.IsClosed := isClosed_unary

@[simp] theorem isClosed_sqrt : a.sqrt.IsClosed ↔ a.IsClosed := isClosed_unary

@[simp] theorem isClosed_ifLt :
    (ifLt a b y n).IsClosed ↔ a.IsClosed ∧ b.IsClosed ∧ y.IsClosed ∧ n.IsClosed :=
  isClosed_ifRel

@[simp] theorem isClosed_ifLe :
    (ifLe a b y n).IsClosed ↔ a.IsClosed ∧ b.IsClosed ∧ y.IsClosed ∧ n.IsClosed :=
  isClosed_ifRel

@[simp] theorem isClosed_ofScientific [OfScientific α] (m : Nat) (s : Bool) (e : Nat) :
    (OfScientific.ofScientific m s e : Expr α).IsClosed := rfl

end Operations

theorem mapSlots_of_closed {e : Expr α} (fallback : Expr α → Expr α) (delay : Expr α)
    (h : e.IsClosed) : e.mapSlots fallback delay = e := by
  induction e with
  | const | time | linear => rfl
  | unary op a iha => simp_all [mapSlots]
  | binary op l r ihl ihr => simp_all [mapSlots]
  | ifRel rel l r y n ihl ihr ihy ihn => simp_all [mapSlots]
  | ifBetween v lo hi y n ihv ihlo ihhi ihy ihn => simp_all [mapSlots]
  | elseSlot d => exact absurd h not_isClosed_elseSlot
  | delaySlot => exact absurd h not_isClosed_delaySlot

theorem fillElse_of_closed {e : Expr α} (replacement : Expr α) (h : e.IsClosed) :
    e.fillElse replacement = e :=
  mapSlots_of_closed _ _ h

/-- Collapsing replaces a fallback by its default, which is collapsed first. -/
theorem collapseElse_eq_mapSlots (e : Expr α) :
    e.collapseElse = e.mapSlots collapseElse .delaySlot := by
  induction e with
  | const | time | linear | elseSlot | delaySlot => rfl
  | unary op a iha => simp only [collapseElse, mapSlots, iha]
  | binary op l r ihl ihr => simp only [collapseElse, mapSlots, ihl, ihr]
  | ifRel rel l r y n ihl ihr ihy ihn => simp only [collapseElse, mapSlots, ihl, ihr, ihy, ihn]
  | ifBetween v lo hi y n ihv ihlo ihhi ihy ihn =>
    simp only [collapseElse, mapSlots, ihv, ihlo, ihhi, ihy, ihn]

theorem collapseElse_of_closed {e : Expr α} (h : e.IsClosed) : e.collapseElse = e := by
  rw [collapseElse_eq_mapSlots, mapSlots_of_closed _ _ h]

/-- What the fallbacks in view collapse to, from left to right. -/
def fallbacks : Expr α → List (Expr α)
  | const _ | time | linear _ _ _ _ | delaySlot => []
  | unary _ a => a.fallbacks
  | binary _ l r => l.fallbacks ++ r.fallbacks
  | ifRel _ l r y n => l.fallbacks ++ r.fallbacks ++ y.fallbacks ++ n.fallbacks
  | ifBetween v lo hi y n =>
    v.fallbacks ++ lo.fallbacks ++ hi.fallbacks ++ y.fallbacks ++ n.fallbacks
  | elseSlot d => [d]

theorem fallbacks_collapseElse (e : Expr α) : e.collapseElse.fallbacks = [] := by
  induction e with
  | const | time | linear | delaySlot => rfl
  | unary op a iha => exact iha
  | binary op l r ihl ihr => simp [collapseElse, fallbacks, ihl, ihr]
  | ifRel rel l r y n ihl ihr ihy ihn => simp [collapseElse, fallbacks, ihl, ihr, ihy, ihn]
  | ifBetween v lo hi y n ihv ihlo ihhi ihy ihn =>
    simp [collapseElse, fallbacks, ihv, ihlo, ihhi, ihy, ihn]
  | elseSlot d ih => exact ih

variable [Scalar α]

/-- A closed expression has a value at every time. -/
theorem IsClosed.eval_ok {e : Expr α} (h : e.IsClosed) (t : α) : ∃ v, e.eval t = .ok v := by
  induction e with
  | const c => exact ⟨c, rfl⟩
  | time => exact ⟨t, rfl⟩
  | linear b c d o => exact ⟨_, rfl⟩
  | unary op a iha =>
    obtain ⟨x, hx⟩ := iha h
    exact ⟨_, eval_unary op hx⟩
  | binary op l r ihl ihr =>
    obtain ⟨hl, hr⟩ := isClosed_binary.1 h
    obtain ⟨x, hx⟩ := ihl hl
    obtain ⟨y, hy⟩ := ihr hr
    exact ⟨_, eval_binary op hx hy⟩
  | ifRel rel l r y n ihl ihr ihy ihn =>
    obtain ⟨hl, hr, hy, hn⟩ := isClosed_ifRel.1 h
    obtain ⟨x, hx⟩ := ihl hl
    obtain ⟨x', hx'⟩ := ihr hr
    simp only [eval, hx, hx', bind, Except.bind]
    split
    · exact ihy hy
    · exact ihn hn
  | ifBetween v lo hi y n ihv ihlo ihhi ihy ihn =>
    obtain ⟨hv, hlo, hhi, hy, hn⟩ := isClosed_ifBetween.1 h
    obtain ⟨x, hx⟩ := ihv hv
    obtain ⟨low, hlow⟩ := ihlo hlo
    obtain ⟨high, hhigh⟩ := ihhi hhi
    simp only [eval, hx, hlow, hhigh, bind, Except.bind]
    -- The upper bound decides only where the lower one holds.
    split
    · split
      · exact ihy hy
      · exact ihn hn
    · exact ihn hn
  | elseSlot d => exact absurd h not_isClosed_elseSlot
  | delaySlot => exact absurd h not_isClosed_delaySlot

/-- The text of an expression fails with its first slot, and only with that. -/
theorem render_stopsAt (e : Expr α) (time : String) : StopsAt (e.render time) e.firstSlot := by
  induction e with
  | const c => exact .pure _
  | time => exact .pure _
  | linear b c d o => exact .pure _
  | unary op a iha =>
    cases op with
    | neg | sin | cos | sqrt => exact iha.map _
  | binary op l r ihl ihr =>
    cases op with
    | add | sub | mul | div | pow => exact ihl.bind fun _ => ihr.map _
  | ifRel rel l r yes no ihl ihr ihyes ihno =>
    exact ihl.bind fun _ => ihr.bind fun _ => ihyes.bind fun _ => ihno.map _
  | ifBetween v lo hi yes no ihv ihlo ihhi ihyes ihno =>
    exact ihv.bind fun _ => ihlo.bind fun _ => ihhi.bind fun _ => ihyes.bind fun _ => ihno.map _
  | elseSlot d => exact .error _
  | delaySlot => exact .error _

theorem IsClosed.render_ok {e : Expr α} (h : e.IsClosed) (time : String) :
    ∃ s, e.render time = .ok s :=
  (e.render_stopsAt time).eq_none_iff.1 h

/-- Only a closed expression has a text. -/
theorem isClosed_of_render {e : Expr α} {time text : String}
    (h : e.render time = .ok text) : e.IsClosed :=
  (e.render_stopsAt time).eq_none_iff.2 ⟨text, h⟩

end Expr

/-! ## Values inside a window -/

variable {α : Type} [Scalar α]

theorem Ease.curve_closed (e : Ease) {p : Expr α} (h : p.IsClosed) : (e.curve p).IsClosed := by
  cases e <;> simp [Ease.curve, h]

theorem Ease.valueExpr_closed (e : Ease) (base change duration delay : α) :
    (e.valueExpr base change duration delay).IsClosed := by
  unfold Ease.valueExpr
  split
  · exact Expr.isClosed_linear
  · have hcurve := e.curve_closed (p := (.time - .const delay) / .const duration) (by simp)
    dsimp only
    split
    · simp [hcurve]
    · simp [hcurve]

theorem Animation.windowValue_closed {a : Animation α} {first last unit : α} {e : Expr α}
    {hold : α} (h : a.windowValue first last unit = .ok (e, hold)) : e.IsClosed := by
  unfold Animation.windowValue at h
  split at h
  · cases hr : a.requireRate with
    | error err => simp [hr, bind, Except.bind] at h
    | ok rate =>
      simp only [hr, bind, Except.bind, pure, Except.pure, Except.ok.injEq, Prod.mk.injEq] at h
      obtain ⟨rfl, -⟩ := h
      exact Expr.isClosed_linear
  · simp only [Except.ok.injEq, Prod.mk.injEq] at h
    obtain ⟨rfl, -⟩ := h
    exact a.ease.valueExpr_closed _ _ _ _

end Tween
