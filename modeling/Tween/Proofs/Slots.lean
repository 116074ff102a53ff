/-
Open slots and what they stop. Evaluation is lazy, so an expression may have a
value though slots are in view in the parts that are not taken. Whatever is
spliced into the slots then leaves the value as it is, and where there is no
value a slot in view is in the way (`eval_spliced`). The text takes in every
part: it fails exactly if a slot is in view, with the first of them
(`render_stops_at_slot`).
-/
import Tween.Proofs.Closed

namespace Tween.Expr

variable {α : Type}

/-- The slots in view, from left to right. -/
def slots : Expr α → List Slot
  | const _ | time | linear _ _ _ _ => []
  | unary _ a => a.slots
  | binary _ l r => l.slots ++ r.slots
  | ifRel _ l r y n => l.slots ++ (r.slots ++ (y.slots ++ n.slots))
  | ifBetween v lo hi y n => v.slots ++ (lo.slots ++ (hi.slots ++ (y.slots ++ n.slots)))
  | elseSlot _ => [.fallback]
  | delaySlot => [.delay]

theorem firstSlot_eq_head? (e : Expr α) : e.firstSlot = e.slots.head? := by
  induction e with
  | const | time | linear | elseSlot | delaySlot => rfl
  | unary op a iha => exact iha
  | binary op l r ihl ihr =>
    simp only [firstSlot, slots, List.head?_append, Option.or_eq_orElse, ihl, ihr]
    rfl
  | ifRel rel l r y n ihl ihr ihy ihn =>
    simp only [firstSlot, slots, List.head?_append, Option.or_eq_orElse, ihl, ihr, ihy, ihn]
    rfl
  | ifBetween v lo hi y n ihv ihlo ihhi ihy ihn =>
    simp only [firstSlot, slots, List.head?_append, Option.or_eq_orElse, ihv, ihlo, ihhi, ihy, ihn]
    rfl

variable [Scalar α]

/-! ## Values -/

/-- A value that an expression already has does not depend on its slots: the
parts that are evaluated have none in view. -/
theorem eval_mapSlots {e : Expr α} {t v : α} (fallback : Expr α → Expr α) (delay : Expr α)
    (h : e.eval t = .ok v) : (e.mapSlots fallback delay).eval t = .ok v := by
  induction e generalizing v with
  | const | time | linear => exact h
  | unary op a iha =>
    simp only [mapSlots, eval, bind_eq_ok] at h ⊢
    obtain ⟨x, hx, h⟩ := h
    exact ⟨x, iha hx, h⟩
  | binary op l r ihl ihr =>
    simp only [mapSlots, eval, bind_eq_ok] at h ⊢
    obtain ⟨x, hx, y, hy, h⟩ := h
    exact ⟨x, ihl hx, y, ihr hy, h⟩
  | ifRel rel l r yes no ihl ihr ihyes ihno =>
    simp only [mapSlots, eval, bind_eq_ok] at h ⊢
    obtain ⟨x, hx, y, hy, h⟩ := h
    refine ⟨x, ihl hx, y, ihr hy, ?_⟩
    by_cases hholds : rel.holds x y = true
    · rw [if_pos hholds] at h ⊢
      exact ihyes h
    · rw [if_neg hholds] at h ⊢
      exact ihno h
  | ifBetween value lo hi yes no ihvalue ihlo ihhi ihyes ihno =>
    simp only [mapSlots, eval, bind_eq_ok] at h ⊢
    obtain ⟨x, hx, low, hlow, h⟩ := h
    refine ⟨x, ihvalue hx, low, ihlo hlow, ?_⟩
    -- The upper bound need not have a value where the lower one decides.
    by_cases habove : low ≤ x
    · rw [if_pos habove] at h ⊢
      simp only [bind_eq_ok] at h ⊢
      obtain ⟨high, hhigh, h⟩ := h
      refine ⟨high, ihhi hhigh, ?_⟩
      by_cases hbelow : x ≤ high
      · rw [if_pos hbelow] at h ⊢
        exact ihyes h
      · rw [if_neg hbelow] at h ⊢
        exact ihno h
    · rw [if_neg habove] at h ⊢
      exact ihno h
  | elseSlot d => cases h
  | delaySlot => cases h

theorem mem_slots_of_eval {e : Expr α} {t : α} {s : Slot} (h : e.eval t = .error s) :
    s ∈ e.slots := by
  induction e with
  | const | time | linear => cases h
  | unary op a iha =>
    simp only [eval, bind_eq_error] at h
    rcases h with ha | ⟨x, -, h⟩
    · exact iha ha
    · cases h
  | binary op l r ihl ihr =>
    simp only [slots, List.mem_append]
    simp only [eval, bind_eq_error] at h
    rcases h with hl | ⟨x, -, hr | ⟨y, -, h⟩⟩
    · exact .inl (ihl hl)
    · exact .inr (ihr hr)
    · cases h
  | ifRel rel l r yes no ihl ihr ihyes ihno =>
    simp only [slots, List.mem_append]
    simp only [eval, bind_eq_error] at h
    rcases h with hl | ⟨x, -, hr | ⟨y, -, h⟩⟩
    · exact .inl (ihl hl)
    · exact .inr (.inl (ihr hr))
    · split at h
      · exact .inr (.inr (.inl (ihyes h)))
      · exact .inr (.inr (.inr (ihno h)))
  | ifBetween value lo hi yes no ihvalue ihlo ihhi ihyes ihno =>
    simp only [slots, List.mem_append]
    simp only [eval, bind_eq_error] at h
    rcases h with hvalue | ⟨x, -, hlo | ⟨low, -, h⟩⟩
    · exact .inl (ihvalue hvalue)
    · exact .inr (.inl (ihlo hlo))
    · split at h
      · rcases bind_eq_error.1 h with hhi | ⟨high, -, h⟩
        · exact .inr (.inr (.inl (ihhi hhi)))
        · split at h
          · exact .inr (.inr (.inr (.inl (ihyes h))))
          · exact .inr (.inr (.inr (.inr (ihno h))))
      · exact .inr (.inr (.inr (.inr (ihno h))))
  | elseSlot d =>
    cases h
    exact List.mem_singleton_self _
  | delaySlot =>
    cases h
    exact List.mem_singleton_self _

/-- **Splicing never changes a value.** Where an expression has a value, it has
the same value once its fallbacks are filled with any expression, once its
delays are filled with any number, and once its fallbacks are collapsed. Where
it has none, one of the slots in view is named as the reason. -/
theorem eval_spliced (e replacement : Expr α) (delay t : α) :
    (∀ v, e.eval t = .ok v →
      (e.fillElse replacement).eval t = .ok v ∧ (e.fillDelay delay).eval t = .ok v ∧
        e.collapseElse.eval t = .ok v) ∧
    ∀ s, e.eval t = .error s → s ∈ e.slots := by
  refine ⟨fun v h => ⟨eval_mapSlots _ _ h, eval_mapSlots _ _ h, ?_⟩, fun s h =>
    mem_slots_of_eval h⟩
  rw [collapseElse_eq_mapSlots]
  exact eval_mapSlots _ _ h

/-- Half, up to the start of the window that follows, and a fallback whose
default waits for that start too from there on. -/
def waiting : Expr Float :=
  ifBetween time (const 1.0) delaySlot (const 0.5) (elseSlot (ifLt time delaySlot time time))

/-- Before the window neither the slot in its upper bound nor the one in the
default stands in the way; inside it, the one in the bound does. -/
theorem eval_spliced_waiting :
    (ifLt time (const 1.0) (const 0.5) waiting).eval 0.25 = .ok 0.5 ∧
      (ifLt time (const 1.0) (const 0.5) waiting).collapseElse.eval 0.25 = .ok 0.5 ∧
      waiting.eval 1.5 = .error .delay ∧ Slot.delay ∈ waiting.slots := by
  have hearly : (ifLt time (const 1.0) (const 0.5) waiting).eval 0.25 = .ok 0.5 := by
    rw [eval_ifLt eval_time (eval_const 1.0), if_pos (by decide +kernel)]
    rfl
  have hlate : waiting.eval 1.5 = .error .delay := by
    have hbound : (1.0 : Float) ≤ 1.5 := by decide +kernel
    simp [waiting, eval, hbound]
  exact ⟨hearly, ((eval_spliced _ time 2.0 0.25).1 _ hearly).2.2, hlate,
    (eval_spliced waiting time 2.0 1.5).2 _ hlate⟩

/-! ## Texts -/

/-- **Where a text fails.** A search finds the leftmost slot in view. The text
of an expression fails exactly if there is one, and names that one; if there is
none, the expression has a value at every time. -/
theorem render_stops_at_slot (e : Expr α) (time : String) :
    e.firstSlot = e.slots.head? ∧ (∀ s, e.render time = .error s ↔ e.firstSlot = some s) ∧
      (e.firstSlot = none → ∀ t, ∃ v, e.eval t = .ok v) :=
  ⟨e.firstSlot_eq_head?, e.render_stopsAt time, fun h => IsClosed.eval_ok h⟩

/-- The text of the expression that waits fails with the slot in its bound; once
all its slots are filled it has a value at every time. -/
theorem render_stops_at_slot_waiting :
    waiting.render "t" = .error .delay ∧
      (waiting.fillElse time).fillDelay 2.0 = ifBetween time (const 1.0) (const 2.0) (const 0.5) time ∧
      ((waiting.fillElse time).fillDelay 2.0).firstSlot = none ∧
      ∀ t, ∃ v, ((waiting.fillElse time).fillDelay 2.0).eval t = .ok v :=
  ⟨((render_stops_at_slot waiting "t").2.1 _).2 rfl, rfl, rfl,
    (render_stops_at_slot ((waiting.fillElse time).fillDelay 2.0) "t").2.2 rfl⟩

end Tween.Expr
