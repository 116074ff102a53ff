/-
Timelines whose windows are moved to an earlier time. Every start is read as it
is authored, and what is written is a number that is not negative
(`shiftBack_eq`). So moves to earlier times add up (`shiftBack_shiftBack`), and
to align a timeline with its appear time brings that time to zero, once and for
all (`aligned_projects`).
-/
import Tween.Proofs.Exact
import Tween.Timeline.Basic

namespace Tween

/-! ## Starts -/

namespace Node

variable {α : Type}

/-- The node with its window opening at a given time. -/
def startingAt (n : Node α) (start : α) : Node α := n.set "delay" (.num start)

variable {n : Node α} {start later : α} {key : String}

theorem get?_startingAt : (n.startingAt start).conf.get? key =
    if key = "delay" then some (.num start) else n.conf.get? key :=
  Descriptor.get?_set _ _ _ _

theorem startingAt_startingAt : (n.startingAt start).startingAt later = n.startingAt later := by
  refine Node.ext (Descriptor.ext (Table.ext_get? fun key => ?_)) rfl
  change ((n.startingAt start).startingAt later).conf.get? key = (n.startingAt later).conf.get? key
  rw [get?_startingAt, get?_startingAt, get?_startingAt]
  split
  · rfl
  · rfl

@[simp] theorem phase_startingAt : (n.startingAt start).conf.phase = n.conf.phase := by
  unfold Descriptor.phase
  rw [get?_startingAt, if_neg (by decide)]

@[simp] theorem delay_startingAt [Scalar α] : (n.startingAt start).conf.delay = start := by
  unfold Descriptor.delay Descriptor.number?
  rw [get?_startingAt, if_pos rfl]
  rfl

end Node

/-! ## Exact moves -/

variable {A : Arithmetic}

theorem Arithmetic.Number.positivePart_eq_max (x : A.Number) :
    Scalar.positivePart x = max x 0 := by
  rcases le_total 0 x with hx | hx
  · rw [positivePart_of_nonneg hx, max_eq_left hx]
  · have hneg : ¬ (0.0 : A.Number) < x := by
      norm_num
      exact hx
    unfold Scalar.positivePart
    rw [if_neg hneg, max_eq_right hx]
    norm_num

namespace Timeline

theorem shiftBack_eq (l : Timeline A.Number) (amount : A.Number) :
    l.shiftBack amount =
      ⟨l.element, l.nodes.map fun n => n.startingAt (max (n.conf.delay - amount) 0)⟩ := by
  unfold shiftBack
  refine Timeline.ext rfl (List.map_congr_left fun n _ => ?_)
  rw [Arithmetic.Number.positivePart_eq_max]
  rfl

/-- **Moves to an earlier time add up.** A start that the first move brings to
zero is kept there by the second. -/
theorem shiftBack_shiftBack (l : Timeline A.Number) (amount : A.Number) {further : A.Number}
    (h : 0 ≤ further) :
    (l.shiftBack amount).shiftBack further = l.shiftBack (amount + further) := by
  simp only [shiftBack_eq, List.map_map]
  refine Timeline.ext rfl (List.map_congr_left fun n _ => ?_)
  have hstart : max (max (n.conf.delay - amount) 0 - further) 0 =
      max (n.conf.delay - (amount + further)) 0 := by
    rw [← max_sub_sub_right, sub_sub, zero_sub, max_assoc, max_eq_right (neg_nonpos.2 h)]
  simp only [Function.comp_apply, Node.delay_startingAt, Node.startingAt_startingAt, hstart]

theorem last?_shiftBack (l : Timeline A.Number) (amount : A.Number) (p : Phase) :
    (l.shiftBack amount).last? p =
      (l.last? p).map fun n => n.startingAt (max (n.conf.delay - amount) 0) := by
  rw [shiftBack_eq]
  unfold last?
  rw [← List.map_reverse, List.find?_map]
  simp only [Function.comp_def, Node.phase_startingAt]

theorem appearTime_aligned (l : Timeline A.Number) : l.aligned.appearTime = 0 := by
  unfold aligned appearTime
  rw [last?_shiftBack]
  cases l.last? .entrance with
  | none => norm_num
  | some n => simp

/-- **Aligning a timeline.** Every start is read as it is authored, zero where
it is not a number, and becomes a number: what is left of it after the appear
time, but not less than zero. All else stays, fields and parents and order. The
appear time is zero then, so that aligning again changes nothing; and moves to
an earlier time, one after the other, come to the same as one by their sum. -/
theorem aligned_projects (l : Timeline A.Number) :
    l.aligned.element = l.element ∧
      List.Forall₂
        (fun n m => m.parent = n.parent ∧
          m.conf.get? "delay" = some (.num (max (n.conf.delay - l.appearTime) 0)) ∧
          ∀ key, key ≠ "delay" → m.conf.get? key = n.conf.get? key)
        l.nodes l.aligned.nodes ∧
      (∀ m ∈ l.aligned.nodes, ∃ start, m.conf.get? "delay" = some (.num start) ∧ 0 ≤ start) ∧
      l.aligned.appearTime = 0 ∧ l.aligned.aligned = l.aligned ∧
      ∀ a b, 0 ≤ a → 0 ≤ b → (l.shiftBack a).shiftBack b = l.shiftBack (a + b) := by
  have hnodes : l.aligned.nodes =
      l.nodes.map fun n => n.startingAt (max (n.conf.delay - l.appearTime) 0) := by
    unfold aligned
    rw [shiftBack_eq]
  have hagain : l.aligned.aligned = l.aligned := by
    have hzero : l.aligned.aligned = (l.shiftBack l.appearTime).shiftBack 0 := by
      unfold aligned
      exact congrArg _ l.appearTime_aligned
    rw [hzero, shiftBack_shiftBack _ _ le_rfl, add_zero]
    rfl
  refine ⟨rfl, ?_, ?_, l.appearTime_aligned, hagain, fun a b _ hb => l.shiftBack_shiftBack a hb⟩
  · rw [hnodes, List.forall₂_map_right_iff, List.forall₂_same]
    intro n _
    refine ⟨rfl, Node.get?_startingAt.trans (if_pos rfl), fun key hkey => ?_⟩
    exact Node.get?_startingAt.trans (if_neg hkey)
  · rw [hnodes]
    intro m hm
    obtain ⟨n, -, rfl⟩ := List.mem_map.1 hm
    exact ⟨_, Node.get?_startingAt.trans (if_pos rfl), le_max_right _ _⟩

/-- A start that is no number, an exit, and the entrance that counts. -/
noncomputable def looseStay : Timeline Arithmetic.real.Number :=
  ⟨⟨"picture", .image, 0.0, 0.0, 320, 180, 1280, 720⟩,
    [⟨⟨Table.ofList [("delay", .str "soon")]⟩, none⟩,
      ⟨⟨Table.ofList [("showType", .str "out"), ("delay", .int 3)]⟩, some "scene"⟩,
      ⟨⟨Table.ofList [("delay", .int 2)]⟩, none⟩]⟩

/-- The entrance is at two seconds, so one second is left for the exit, and
nothing for the others. -/
theorem aligned_projects_looseStay :
    looseStay.appearTime = 2 ∧
      looseStay.aligned.nodes.map (fun m => m.conf.get? "delay") =
        [some (.num 0), some (.num 1), some (.num 0)] ∧
      looseStay.aligned.aligned = looseStay.aligned ∧
      (0 : Arithmetic.real.Number) ≤ 1 ∧ (0 : Arithmetic.real.Number) ≤ 2 ∧
      (looseStay.shiftBack 1).shiftBack 2 = looseStay.shiftBack (1 + 2) := by
  have htwo : (Scalar.ofInt 2 : Arithmetic.real.Number) = 2 := Int.cast_ofNat 2
  have happear : looseStay.appearTime = 2 := htwo
  obtain ⟨-, hnodes, -, -, hagain, hsum⟩ := aligned_projects looseStay
  rw [happear] at hnodes
  refine ⟨happear, ?_, hagain, zero_le_one, zero_le_two, hsum 1 2 zero_le_one zero_le_two⟩
  have hsoon : max ((0.0 : Arithmetic.real.Number) - 2) 0 = 0 := by norm_num
  have hexit : max ((Scalar.ofInt 3 : Arithmetic.real.Number) - 2) 0 = 1 := by
    have hthree : (Scalar.ofInt 3 : Arithmetic.real.Number) = 3 := Int.cast_ofNat 3
    rw [hthree]
    norm_num
  have hcome : max ((Scalar.ofInt 2 : Arithmetic.real.Number) - 2) 0 = 0 := by
    rw [htwo, sub_self, max_self]
  have hvalue {x y : Arithmetic.real.Number} (h : x = y) : some (Json.num x) = some (.num y) := by
    rw [h]
  generalize looseStay.aligned.nodes = ms at hnodes ⊢
  cases hnodes with
  | cons hfirst hnodes =>
    cases hnodes with
    | cons hsecond hnodes =>
      cases hnodes with
      | cons hthird hnodes =>
        cases hnodes
        simp only [List.map_cons, List.map_nil, List.cons.injEq, and_true]
        exact ⟨hfirst.2.1.trans (hvalue hsoon), hsecond.2.1.trans (hvalue hexit),
          hthird.2.1.trans (hvalue hcome)⟩

end Timeline

end Tween
