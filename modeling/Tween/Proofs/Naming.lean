/-
Which names are read for a curve. A name is read if the word for a family can be
cut out of its key so that the word for a direction is left
(`Ease.ofKey?_eq_some_iff`). These are the keys in which one word follows the
other, and besides them exactly those in which the word for the direction
stands on both sides of the word for the family (`Ease.read_named`).
-/
import Tween.Descriptor.Animation

namespace Tween.Ease

variable {cs : List Char} {e : Ease}

/-! ## Keys -/

/-- A key by the grammar of names: the word for straight, or the words for a
family and a direction, in either order. -/
def Named (cs : List Char) (e : Ease) : Prop :=
  (cs = "linear".toList ∧ e = linear) ∨
    ∃ f d, of? f d = some e ∧
      (cs = f.word.toList ++ d.word.toList ∨ cs = d.word.toList ++ f.word.toList)

/-- A key in which the word for a family breaks the word for a direction in
two. -/
def Broken (cs : List Char) (e : Ease) : Prop :=
  ∃ f d before after, of? f d = some e ∧ before ≠ [] ∧ after ≠ [] ∧
    before ++ after = d.word.toList ∧ cs = before ++ f.word.toList ++ after

/-- The key in which the word for a family stands after the first letters of
the word for a direction. -/
def placed (f : Family) (d : Direction) (i : Nat) : List Char :=
  d.word.toList.take i ++ f.word.toList ++ d.word.toList.drop i

theorem placed_eq {f : Family} {d : Direction} {before after : List Char}
    (h : before ++ after = d.word.toList) :
    placed f d before.length = before ++ f.word.toList ++ after := by
  unfold placed
  rw [← h, List.take_left, List.drop_left]

/-! ## Reading -/

/-- What is left of a text without a word is what stands around one occurrence
of the word. -/
theorem dropFirst?_eq_some {word rest : List Char} (h : dropFirst? word cs = some rest) :
    ∃ before after, before ++ after = rest ∧ cs = before ++ word ++ after := by
  induction cs generalizing rest with
  | nil =>
    unfold dropFirst? at h
    split at h
    · rename_i hempty
      cases h
      exact ⟨[], [], rfl, by simp [List.isEmpty_iff.1 hempty]⟩
    · cases h
  | cons c cs ih =>
    unfold dropFirst? at h
    split at h
    · rename_i hprefix
      cases h
      obtain ⟨after, hafter⟩ := List.isPrefixOf_iff_prefix.1 hprefix
      exact ⟨[], after, by simp [← hafter], hafter.symm⟩
    · obtain ⟨rest, hrest, rfl⟩ := Option.map_eq_some_iff.1 h
      obtain ⟨before, after, rfl, rfl⟩ := ih hrest
      exact ⟨c :: before, after, rfl, rfl⟩

theorem word_of_ofWord? {d : Direction} (h : Direction.ofWord? cs = some d) :
    d.word.toList = cs := by
  unfold Direction.ofWord? at h
  have hword := List.find?_some h
  exact eq_of_beq hword

/-- Wherever the word for a family is placed in the word for a direction, the
key is read as the family in the direction. -/
theorem ofKey?_placed (f : Family) (d : Direction) :
    ∀ i ≤ d.word.toList.length, ofKey? (placed f d i) = of? f d := by
  cases f <;> cases d <;> decide +kernel

/-- **A key is read for a curve** if it is the word for straight, or the word
for a family with pieces of the word for a direction before and after it. -/
theorem ofKey?_eq_some_iff :
    ofKey? cs = some e ↔ (cs = "linear".toList ∧ e = linear) ∨
      ∃ f d before after, of? f d = some e ∧ before ++ after = d.word.toList ∧
        cs = before ++ f.word.toList ++ after := by
  constructor
  · intro h
    unfold ofKey? at h
    split at h
    · rename_i hlinear
      exact .inl ⟨hlinear, (Option.some.inj h).symm⟩
    · obtain ⟨f, -, hf⟩ := List.exists_of_findSome?_eq_some h
      obtain ⟨rest, hrest, hf⟩ := Option.bind_eq_some_iff.1 hf
      obtain ⟨d, hd, hcurve⟩ := Option.bind_eq_some_iff.1 hf
      obtain ⟨before, after, hpieces, hcs⟩ := dropFirst?_eq_some hrest
      exact .inr ⟨f, d, before, after, hcurve, hpieces.trans (word_of_ofWord? hd).symm, hcs⟩
  · rintro (⟨rfl, rfl⟩ | ⟨f, d, before, after, hcurve, hpieces, rfl⟩)
    · rfl
    · have hlength : before.length ≤ d.word.toList.length := by
        rw [← hpieces, List.length_append]
        omega
      rw [← placed_eq hpieces, ofKey?_placed f d _ hlength, hcurve]

theorem ofKey?_named : ofKey? cs = some e ↔ Named cs e ∨ Broken cs e := by
  rw [ofKey?_eq_some_iff]
  constructor
  · rintro (hlinear | ⟨f, d, before, after, hcurve, hpieces, hcs⟩)
    · exact .inl (.inl hlinear)
    · by_cases hbefore : before = []
      · subst hbefore
        exact .inl (.inr ⟨f, d, hcurve, .inl (by simpa [← hpieces] using hcs)⟩)
      · by_cases hafter : after = []
        · subst hafter
          exact .inl (.inr ⟨f, d, hcurve, .inr (by simpa [← hpieces] using hcs)⟩)
        · exact .inr ⟨f, d, before, after, hcurve, hbefore, hafter, hpieces, hcs⟩
  · rintro ((hlinear | ⟨f, d, hcurve, hcs | hcs⟩) |
      ⟨f, d, before, after, hcurve, -, -, hpieces, hcs⟩)
    · exact .inl hlinear
    · exact .inr ⟨f, d, [], d.word.toList, hcurve, rfl, hcs⟩
    · exact .inr ⟨f, d, d.word.toList, [], hcurve, by simp, by simpa using hcs⟩
    · exact .inr ⟨f, d, before, after, hcurve, hpieces, hcs⟩

/-- No word for a direction that is broken by the word for a family reads as
words that follow each other. -/
theorem placed_ne (f : Family) (d : Direction) :
    ∀ i < d.word.toList.length, 0 < i →
      placed f d i ≠ "linear".toList ∧
        ∀ f' ∈ Family.all, ∀ d' ∈ [Direction.into, .outOf, .both],
          placed f d i ≠ f'.word.toList ++ d'.word.toList ∧
            placed f d i ≠ d'.word.toList ++ f'.word.toList := by
  cases f <;> cases d <;> decide +kernel

theorem Broken.not_named (h : Broken cs e) (e' : Ease) : ¬ Named cs e' := by
  obtain ⟨f, d, before, after, -, hbefore, hafter, hpieces, rfl⟩ := h
  have hpositive : 0 < before.length := List.length_pos_iff.2 hbefore
  have hinside : before.length < d.word.toList.length := by
    have := List.length_pos_iff.2 hafter
    rw [← hpieces, List.length_append]
    omega
  obtain ⟨hlinear, hwords⟩ := placed_ne f d before.length hinside hpositive
  rw [placed_eq hpieces] at hlinear hwords
  rintro (⟨heq, -⟩ | ⟨f', d', -, heq⟩)
  · exact hlinear heq
  · have hf' : f' ∈ Family.all := by cases f' <;> decide
    have hd' : d' ∈ [Direction.into, .outOf, .both] := by cases d' <;> decide
    obtain ⟨hfollows, hprecedes⟩ := hwords f' hf' d' hd'
    exact heq.elim hfollows hprecedes

/-! ## Names -/

/-- **Which names are read.** A name is read for a curve exactly if its key
follows the grammar, or is a word for a direction that the word for a family
breaks in two; of these, none follows the grammar. Any other name is refused,
and the error carries it as it was written. -/
theorem read_named {α : Type} (s : String) :
    (∀ e, (read s : Except (Error α) Ease) = .ok e ↔ Named (key s) e ∨ Broken (key s) e) ∧
      (∀ err : Error α, read s = .error err ↔
        err = .unsupportedEase s ∧ ∀ e, ¬ Named (key s) e ∧ ¬ Broken (key s) e) ∧
      ∀ e, Broken (key s) e → ∀ e', ¬ Named (key s) e' := by
  refine ⟨fun e => ?_, fun err => ?_, fun e hbroken => hbroken.not_named⟩
  · rw [← ofKey?_named]
    unfold read parse?
    cases hkey : ofKey? (key s) <;> simp
  · have hnone : (∀ e, ¬ Named (key s) e ∧ ¬ Broken (key s) e) ↔ ofKey? (key s) = none := by
      rw [Option.eq_none_iff_forall_ne_some]
      exact forall_congr' fun e => by rw [← not_or, ← ofKey?_named]
    rw [hnone]
    unfold read parse?
    cases hkey : ofKey? (key s) <;> simp [eq_comm]

/-- The word for a direction is read even if the family stands in the middle of
it, although no name is made that way. -/
theorem read_iquadn :
    (read "iquadn" : Except (Error Float) Ease) = .ok inQuad ∧ ∀ e, ¬ Named (key "iquadn") e := by
  have hkey : ofKey? (key "iquadn") = some inQuad := by decide +kernel
  refine ⟨by unfold read parse?; rw [hkey], ?_⟩
  have hbroken : Broken (key "iquadn") inQuad :=
    ⟨.quad, .into, ['i'], ['n'], rfl, by decide, by decide, by decide, by decide +kernel⟩
  exact hbroken.not_named

end Tween.Ease
