/-
Slots in the defaults of fallbacks. Filling replaces the slots in view, and a
fallback keeps those of its default out of view until it is collapsed. So
nothing is open once fallbacks are collapsed and delays filled then, while
delays that are filled before leave those of the defaults open
(`fillDelay_collapseElse`). Collapsing itself goes down from default to default,
as many levels as fallbacks are nested, and leaves none of them
(`collapseElse_ends`).
-/
import Mathlib.Algebra.GroupWithZero.Nat
import Mathlib.Order.MinMax
import Tween.Proofs.Slots

namespace Tween.Expr

variable {α : Type}

/-- How many delays an expression has, with those in defaults. -/
def delays : Expr α → Nat
  | const _ | time | linear _ _ _ _ => 0
  | unary _ a => a.delays
  | binary _ l r => l.delays + r.delays
  | ifRel _ l r y n => l.delays + (r.delays + (y.delays + n.delays))
  | ifBetween v lo hi y n => v.delays + (lo.delays + (hi.delays + (y.delays + n.delays)))
  | elseSlot d => d.delays
  | delaySlot => 1

/-- How many of the delays are out of view, in the defaults of fallbacks. -/
def hiddenDelays (e : Expr α) : Nat := (e.fallbacks.map delays).sum

theorem hiddenDelays_eq_zero {e : Expr α} :
    e.hiddenDelays = 0 ↔ ∀ x ∈ e.fallbacks, x.delays = 0 := by
  simp [hiddenDelays, List.sum_eq_zero_iff_forall_eq_nat]

theorem isClosed_iff_slots {e : Expr α} : e.IsClosed ↔ e.slots = [] := by
  unfold IsClosed
  rw [firstSlot_eq_head?, List.head?_eq_none_iff]

/-- Filling what has been filled before is filling once, with what the second
filling makes of the first. -/
theorem mapSlots_mapSlots (e : Expr α) (fallback fallback' : Expr α → Expr α)
    (delay delay' : Expr α) :
    (e.mapSlots fallback delay).mapSlots fallback' delay' =
      e.mapSlots (fun d => (fallback d).mapSlots fallback' delay')
        (delay.mapSlots fallback' delay') := by
  induction e with
  | const | time | linear | elseSlot | delaySlot => rfl
  | unary op a iha => simp only [mapSlots, iha]
  | binary op l r ihl ihr => simp only [mapSlots, ihl, ihr]
  | ifRel rel l r y n ihl ihr ihy ihn => simp only [mapSlots, ihl, ihr, ihy, ihn]
  | ifBetween v lo hi y n ihv ihlo ihhi ihy ihn =>
    simp only [mapSlots, ihv, ihlo, ihhi, ihy, ihn]

/-- Collapsing brings every delay into view, and nothing else. -/
theorem slots_collapseElse (e : Expr α) :
    e.collapseElse.slots = List.replicate e.delays .delay := by
  induction e with
  | const | time | linear | delaySlot => rfl
  | unary op a iha => exact iha
  | binary op l r ihl ihr =>
    simp only [collapseElse, slots, delays, ihl, ihr, List.replicate_append_replicate]
  | ifRel rel l r y n ihl ihr ihy ihn =>
    simp only [collapseElse, slots, delays, ihl, ihr, ihy, ihn, List.replicate_append_replicate]
  | ifBetween v lo hi y n ihv ihlo ihhi ihy ihn =>
    simp only [collapseElse, slots, delays, ihv, ihlo, ihhi, ihy, ihn,
      List.replicate_append_replicate]
  | elseSlot d ih => exact ih

theorem IsClosed.fallbacks {e : Expr α} (h : e.IsClosed) : e.fallbacks = [] := by
  rw [← collapseElse_of_closed h]
  exact e.fallbacks_collapseElse

theorem IsClosed.delays {e : Expr α} (h : e.IsClosed) : e.delays = 0 := by
  have hslots := e.slots_collapseElse
  rwa [collapseElse_of_closed h, isClosed_iff_slots.1 h, eq_comm,
    List.replicate_eq_nil_iff] at hslots

theorem isClosed_fillDelay {e : Expr α} (delay : α) (h : e.fallbacks = []) :
    (e.fillDelay delay).IsClosed := by
  unfold fillDelay
  induction e with
  | const | time | linear | delaySlot => rfl
  | unary op a iha => exact iha h
  | binary op l r ihl ihr =>
    simp only [fallbacks, List.append_eq_nil_iff] at h
    exact isClosed_binary.2 ⟨ihl h.1, ihr h.2⟩
  | ifRel rel l r y n ihl ihr ihy ihn =>
    simp only [fallbacks, List.append_eq_nil_iff] at h
    obtain ⟨⟨⟨hl, hr⟩, hy⟩, hn⟩ := h
    exact isClosed_ifRel.2 ⟨ihl hl, ihr hr, ihy hy, ihn hn⟩
  | ifBetween v lo hi y n ihv ihlo ihhi ihy ihn =>
    simp only [fallbacks, List.append_eq_nil_iff] at h
    obtain ⟨⟨⟨⟨hv, hlo⟩, hhi⟩, hy⟩, hn⟩ := h
    exact isClosed_ifBetween.2 ⟨ihv hv, ihlo hlo, ihhi hhi, ihy hy, ihn hn⟩
  | elseSlot d => cases h

theorem delays_fillDelay (e : Expr α) (delay : α) :
    (e.fillDelay delay).delays = e.hiddenDelays := by
  unfold fillDelay hiddenDelays
  induction e with
  | const | time | linear | delaySlot => rfl
  | unary op a iha => exact iha
  | binary op l r ihl ihr =>
    simp only [mapSlots, delays, fallbacks, ihl, ihr, List.map_append, List.sum_append]
  | ifRel rel l r y n ihl ihr ihy ihn =>
    simp only [mapSlots, delays, fallbacks, ihl, ihr, ihy, ihn, List.map_append, List.sum_append,
      Nat.add_assoc]
  | ifBetween v lo hi y n ihv ihlo ihhi ihy ihn =>
    simp only [mapSlots, delays, fallbacks, ihv, ihlo, ihhi, ihy, ihn, List.map_append,
      List.sum_append, Nat.add_assoc]
  | elseSlot d => simp [mapSlots, delays, fallbacks]

/-- What is filled before collapsing and again after it is filled as it is
after it alone. -/
theorem fillDelay_collapseElse_fillDelay (e : Expr α) (delay : α) :
    (e.fillDelay delay).collapseElse.fillDelay delay = e.collapseElse.fillDelay delay := by
  rw [collapseElse_eq_mapSlots, collapseElse_eq_mapSlots]
  unfold fillDelay
  simp only [mapSlots_mapSlots, mapSlots]

/-- **Filling delays and collapsing fallbacks.** Where fallbacks are collapsed
first, nothing is open in the end. Where delays are filled first, those in the
defaults of fallbacks are left, and they are open once the fallbacks are
collapsed; filling again takes care of them. So both orders come to the same
exactly if no default has a delay in it, at any depth, and only then is nothing
open in the second. -/
theorem fillDelay_collapseElse (e : Expr α) (delay : α) :
    (e.collapseElse.fillDelay delay).firstSlot = none ∧
      (e.fillDelay delay).delays = e.hiddenDelays ∧
      (e.fillDelay delay).collapseElse.slots = List.replicate e.hiddenDelays .delay ∧
      (e.fillDelay delay).collapseElse.fillDelay delay = e.collapseElse.fillDelay delay ∧
      ((e.fillDelay delay).collapseElse = e.collapseElse.fillDelay delay ↔
        ∀ x ∈ e.fallbacks, x.delays = 0) ∧
      ((e.fillDelay delay).collapseElse.firstSlot = none ↔ ∀ x ∈ e.fallbacks, x.delays = 0) := by
  have hclosed : (e.collapseElse.fillDelay delay).IsClosed :=
    isClosed_fillDelay delay e.fallbacks_collapseElse
  have hslots : (e.fillDelay delay).collapseElse.slots = List.replicate e.hiddenDelays .delay := by
    rw [slots_collapseElse, delays_fillDelay]
  have hopen : (e.fillDelay delay).collapseElse.IsClosed ↔ ∀ x ∈ e.fallbacks, x.delays = 0 := by
    rw [isClosed_iff_slots, hslots, List.replicate_eq_nil_iff, hiddenDelays_eq_zero]
  have hagain := e.fillDelay_collapseElse_fillDelay delay
  refine ⟨hclosed, e.delays_fillDelay delay, hslots, hagain, ⟨fun heq => ?_, fun hnone => ?_⟩,
    hopen⟩
  · rw [← heq] at hclosed
    exact hopen.1 hclosed
  -- Where nothing is open, filling again changes nothing.
  · rw [← hagain]
    exact (mapSlots_of_closed _ _ (hopen.2 hnone)).symm

/-- A delay in a default stays if delays are filled before fallbacks are
collapsed. -/
theorem delay_stays_in_default :
    ((elseSlot delaySlot : Expr Float).fillDelay 2.0).collapseElse = delaySlot ∧
      ((elseSlot delaySlot : Expr Float).fillDelay 2.0).collapseElse.firstSlot = some .delay ∧
      (elseSlot delaySlot : Expr Float).collapseElse.fillDelay 2.0 = const 2.0 ∧
      (delaySlot : Expr Float) ≠ const 2.0 :=
  ⟨rfl, rfl, rfl, nofun⟩

/-! ## Levels of fallbacks -/

/-- How many levels of fallbacks an expression has, each level in the defaults of
the one above. -/
def nesting : Expr α → Nat
  | const _ | time | linear _ _ _ _ | delaySlot => 0
  | unary _ a => a.nesting
  | binary _ l r => max l.nesting r.nesting
  | ifRel _ l r y n => max l.nesting (max r.nesting (max y.nesting n.nesting))
  | ifBetween v lo hi y n =>
    max v.nesting (max lo.nesting (max hi.nesting (max y.nesting n.nesting)))
  | elseSlot d => d.nesting + 1

/-- Fallbacks collapsed down to a level: those in view are replaced by their
defaults, then those that come into view with them, and so on. What lies deeper
is left as it is. -/
def collapseTo : Nat → Expr α → Expr α
  | 0, e => e
  | n + 1, e => e.mapSlots (collapseTo n) .delaySlot

theorem nesting_eq_zero {e : Expr α} : e.nesting = 0 ↔ Slot.fallback ∉ e.slots := by
  induction e with
  | const | time | linear | delaySlot => simp [nesting, slots]
  | unary op a iha => exact iha
  | binary op l r ihl ihr =>
    simp only [nesting, slots, List.mem_append, not_or, ← ihl, ← ihr, Nat.max_eq_zero_iff]
  | ifRel rel l r y n ihl ihr ihy ihn =>
    simp only [nesting, slots, List.mem_append, not_or, ← ihl, ← ihr, ← ihy, ← ihn,
      Nat.max_eq_zero_iff]
  | ifBetween v lo hi y n ihv ihlo ihhi ihy ihn =>
    simp only [nesting, slots, List.mem_append, not_or, ← ihv, ← ihlo, ← ihhi, ← ihy, ← ihn,
      Nat.max_eq_zero_iff]
  | elseSlot d => simp [nesting, slots]

/-- The defaults in view have fewer levels than the expression around them. -/
theorem nesting_lt {e d : Expr α} (h : d ∈ e.fallbacks) : d.nesting < e.nesting := by
  induction e with
  | const | time | linear | delaySlot => cases h
  | unary op a iha => exact iha h
  | binary op l r ihl ihr =>
    simp only [fallbacks, List.mem_append] at h
    simp only [nesting, lt_max_iff]
    exact h.imp ihl ihr
  | ifRel rel l r y n ihl ihr ihy ihn =>
    simp only [fallbacks, List.mem_append, or_assoc] at h
    simp only [nesting, lt_max_iff]
    exact h.imp ihl (Or.imp ihr (Or.imp ihy ihn))
  | ifBetween v lo hi y n ihv ihlo ihhi ihy ihn =>
    simp only [fallbacks, List.mem_append, or_assoc] at h
    simp only [nesting, lt_max_iff]
    exact h.imp ihv (Or.imp ihlo (Or.imp ihhi (Or.imp ihy ihn)))
  | elseSlot d' =>
    obtain rfl := List.mem_singleton.1 h
    exact Nat.lt_succ_self _

/-- Where so many levels of every default are taken away, one level more of the
expression around them is. -/
theorem nesting_mapSlots {fallback : Expr α → Expr α} {n : Nat}
    (h : ∀ d, (fallback d).nesting = d.nesting - n) (e : Expr α) :
    (e.mapSlots fallback .delaySlot).nesting = e.nesting - (n + 1) := by
  induction e with
  | const | time | linear | delaySlot => simp [mapSlots, nesting]
  | unary op a iha => exact iha
  | binary op l r ihl ihr => simp only [mapSlots, nesting, ihl, ihr, Nat.sub_max_sub_right]
  | ifRel rel l r y n ihl ihr ihy ihn =>
    simp only [mapSlots, nesting, ihl, ihr, ihy, ihn, Nat.sub_max_sub_right]
  | ifBetween v lo hi y n ihv ihlo ihhi ihy ihn =>
    simp only [mapSlots, nesting, ihv, ihlo, ihhi, ihy, ihn, Nat.sub_max_sub_right]
  | elseSlot d => simp only [mapSlots, nesting, h, Nat.add_sub_add_right]

theorem nesting_collapseTo (n : Nat) (e : Expr α) :
    (e.collapseTo n).nesting = e.nesting - n := by
  induction n generalizing e with
  | zero => rfl
  | succ n ih => exact nesting_mapSlots ih e

theorem nesting_collapseElse (e : Expr α) : e.collapseElse.nesting = 0 := by
  rw [nesting_eq_zero, slots_collapseElse]
  intro h
  cases List.eq_of_mem_replicate h

theorem collapseElse_of_nesting {e : Expr α} (h : e.nesting = 0) : e.collapseElse = e := by
  induction e with
  | const | time | linear | delaySlot => rfl
  | unary op a iha => rw [collapseElse, iha h]
  | binary op l r ihl ihr =>
    simp only [nesting, Nat.max_eq_zero_iff] at h
    rw [collapseElse, ihl h.1, ihr h.2]
  | ifRel rel l r y n ihl ihr ihy ihn =>
    simp only [nesting, Nat.max_eq_zero_iff] at h
    obtain ⟨hl, hr, hy, hn⟩ := h
    rw [collapseElse, ihl hl, ihr hr, ihy hy, ihn hn]
  | ifBetween v lo hi y n ihv ihlo ihhi ihy ihn =>
    simp only [nesting, Nat.max_eq_zero_iff] at h
    obtain ⟨hv, hlo, hhi, hy, hn⟩ := h
    rw [collapseElse, ihv hv, ihlo hlo, ihhi hhi, ihy hy, ihn hn]
  | elseSlot d => cases h

/-- What lies below a level collapses as it would have with what lies above. -/
theorem collapseElse_collapseTo (n : Nat) (e : Expr α) :
    (e.collapseTo n).collapseElse = e.collapseElse := by
  induction n generalizing e with
  | zero => rfl
  | succ n ih =>
    have hdefault : ∀ d : Expr α,
        (d.collapseTo n).mapSlots collapseElse .delaySlot = d.collapseElse := fun d => by
      rw [← collapseElse_eq_mapSlots, ih d]
    rw [collapseElse_eq_mapSlots, collapseElse_eq_mapSlots e]
    simp only [collapseTo, mapSlots_mapSlots, hdefault]
    rfl

theorem collapseTo_eq_iff {n : Nat} {e : Expr α} :
    e.collapseTo n = e.collapseElse ↔ e.nesting ≤ n := by
  have hleft := nesting_collapseTo n e
  constructor
  · intro heq
    rw [heq, nesting_collapseElse] at hleft
    exact Nat.le_of_sub_eq_zero hleft.symm
  · intro hle
    rw [Nat.sub_eq_zero_of_le hle] at hleft
    rw [← collapseElse_collapseTo n e, collapseElse_of_nesting hleft]

/-- **Collapsing comes to an end.** A fallback is replaced by its default, which
has fewer levels and is collapsed in turn; so as many levels down as there are,
and no fewer, everything is collapsed. Then no fallback is left at any level, and
collapsing again changes nothing. What is open in the end are the delays, with
those of the defaults: without any, nothing is open and there is a text, and only
then. An expression in which nothing is open stays as it is, collapsed or
filled. -/
theorem collapseElse_ends [Scalar α] (e : Expr α) :
    (e.collapseElse = e.mapSlots collapseElse .delaySlot ∧
        ∀ d ∈ e.fallbacks, d.nesting < e.nesting) ∧
      (∀ n, e.collapseTo n = e.collapseElse ↔ e.nesting ≤ n) ∧
      (e.collapseElse.nesting = 0 ∧ Slot.fallback ∉ e.collapseElse.slots) ∧
      e.collapseElse.collapseElse = e.collapseElse ∧
      (e.collapseElse.firstSlot = none ↔ e.delays = 0) ∧
      (∀ time, (∃ text, e.collapseElse.render time = .ok text) ↔ e.delays = 0) ∧
      (e.firstSlot = none → e.collapseElse = e ∧ (∀ replacement, e.fillElse replacement = e) ∧
        ∀ delay, e.fillDelay delay = e) := by
  have hgone := e.nesting_collapseElse
  have hopen : e.collapseElse.IsClosed ↔ e.delays = 0 := by
    rw [isClosed_iff_slots, slots_collapseElse, List.replicate_eq_nil_iff]
  refine ⟨⟨e.collapseElse_eq_mapSlots, fun d => nesting_lt⟩, fun n => collapseTo_eq_iff,
    ⟨hgone, nesting_eq_zero.1 hgone⟩, collapseElse_of_nesting hgone, hopen, fun time => ?_,
    fun hnone => ?_⟩
  · rw [← hopen]
    exact (render_stopsAt _ time).eq_none_iff.symm
  · exact ⟨collapseElse_of_closed hnone, fun replacement => fillElse_of_closed replacement hnone,
      fun delay => mapSlots_of_closed _ _ hnone⟩

/-- Fallbacks in a test, in an operand and in the defaults of each other. -/
def layered : Expr Float :=
  ifLt (elseSlot time) (const 1.0) (-(elseSlot (const 0.5)))
    (elseSlot (elseSlot (elseSlot time).sqrt))

/-- Its fallbacks are collapsed three levels down and not before. What comes of
them has a text, and nothing more goes into it. -/
theorem collapseElse_ends_layered :
    layered.collapseElse = ifLt time (const 1.0) (-(const 0.5)) time.sqrt ∧
      layered.collapseTo 3 = layered.collapseElse ∧ layered.collapseTo 2 ≠ layered.collapseElse ∧
      (∃ text, layered.collapseElse.render "t" = .ok text) ∧
      layered.collapseElse.fillElse time = layered.collapseElse := by
  obtain ⟨-, hlevels, -, -, -, htext, -⟩ := collapseElse_ends layered
  obtain ⟨-, -, -, -, -, -, hclosed⟩ := collapseElse_ends layered.collapseElse
  exact ⟨rfl, (hlevels 3).2 (by decide), fun heq => absurd ((hlevels 2).1 heq) (by decide),
    (htext "t").2 rfl, (hclosed rfl).2.1 time⟩

end Tween.Expr
