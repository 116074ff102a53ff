/-
Two computations side by side. They run in parallel if both give a result, and
the results are related, or both fail (`Parallel`). What is built of parallel
parts by binding, over the elements of a list, or over the entries of a table,
is parallel itself. Tables are related name by name (`Table.Related`).
-/
import Mathlib.Data.List.Forall2
import Tween.Table

namespace Tween

/-- Two computations both give a result, and the results are related, or both
fail. -/
inductive Parallel {ε β γ : Type} (R : β → γ → Prop) :
    Except ε β → Except ε γ → Prop
  | ok {b : β} {c : γ} (h : R b c) : Parallel R (.ok b) (.ok c)
  | error (e e' : ε) : Parallel R (.error e) (.error e')

namespace Parallel

variable {ε β γ β' γ' : Type} {R : β → γ → Prop} {S : β' → γ' → Prop}

theorem pure {b : β} {c : γ} (h : R b c) :
    Parallel R (Pure.pure b : Except ε β) (Pure.pure c : Except ε γ) := .ok h

theorem refl {R : β → β → Prop} (h : ∀ b, R b b) (x : Except ε β) : Parallel R x x := by
  cases x with
  | ok b => exact .ok (h b)
  | error e => exact .error e e

theorem bind {x : Except ε β} {y : Except ε γ} {f : β → Except ε β'} {g : γ → Except ε γ'}
    (h : Parallel R x y) (hfg : ∀ b c, R b c → Parallel S (f b) (g c)) :
    Parallel S (x >>= f) (y >>= g) := by
  cases h with
  | ok h => exact hfg _ _ h
  | error e e' => exact .error e e'

/-- One computation that is continued in two ways. -/
theorem bind_same {x : Except ε β} {f : β → Except ε β'} {g : β → Except ε γ'}
    (hfg : ∀ b, Parallel S (f b) (g b)) : Parallel S (x >>= f) (x >>= g) :=
  (refl (fun _ => rfl) x).bind fun b _ h => h ▸ hfg b

theorem imp {R' : β → γ → Prop} {x : Except ε β} {y : Except ε γ} (h : Parallel R x y)
    (hR : ∀ b c, R b c → R' b c) : Parallel R' x y := by
  cases h with
  | ok h => exact .ok (hR _ _ h)
  | error e e' => exact .error e e'

/-- Of two computations in parallel, one gives a result exactly if the other
does. -/
theorem exists_ok_iff {x : Except ε β} {y : Except ε γ} (h : Parallel R x y) :
    (∃ b, x = .ok b) ↔ ∃ c, y = .ok c := by
  cases h <;> simp

theorem exists_of_eq_ok {x : Except ε β} {y : Except ε γ} {b : β} (h : Parallel R x y)
    (hx : x = .ok b) : ∃ c, y = .ok c ∧ R b c := by
  cases h with
  | ok h =>
    cases hx
    exact ⟨_, rfl, h⟩
  | error e e' => cases hx

theorem mapM {f : β → Except ε β'} {g : γ → Except ε γ'} {l : List β} {m : List γ}
    (h : List.Forall₂ R l m) (hfg : ∀ b c, R b c → Parallel S (f b) (g c)) :
    Parallel (List.Forall₂ S) (l.mapM f) (m.mapM g) := by
  induction h with
  | nil => exact .pure .nil
  | cons hab _ ih =>
    rw [List.mapM_cons, List.mapM_cons]
    exact (hfg _ _ hab).bind fun b c hbc => ih.bind fun bs cs hbcs => .pure (.cons hbc hbcs)

theorem foldlM {α : Type} {f : β → α → Except ε β} {g : γ → α → Except ε γ} (l : List α)
    (hfg : ∀ a b c, R b c → Parallel R (f b a) (g c a)) {b : β} {c : γ} (h : R b c) :
    Parallel R (l.foldlM f b) (l.foldlM g c) := by
  induction l generalizing b c with
  | nil => exact .pure h
  | cons a l ih => exact (hfg a b c h).bind fun b' c' h' => ih h'

end Parallel

/-! ## Tables -/

namespace Table

variable {ε β γ β' γ' : Type} {R : String → β → γ → Prop} {S : String → β' → γ' → Prop}

/-- Entries have one name, and related values. -/
def EntryRelated (R : String → β → γ → Prop) (p : String × β) (q : String × γ) : Prop :=
  p.1 = q.1 ∧ R p.1 p.2 q.2

/-- Two tables have the same names, and related values under each. -/
def Related (R : String → β → γ → Prop) (t : Table β) (u : Table γ) : Prop :=
  List.Forall₂ (EntryRelated R) t.entries u.entries

namespace Related

variable {t : Table β} {u : Table γ}

theorem empty : Related R (Table.empty : Table β) (Table.empty : Table γ) := .nil

theorem keys_eq (h : Related R t u) : u.keys = t.keys := by
  unfold Related at h
  unfold keys
  generalize t.entries = l, u.entries = m at h ⊢
  induction h with
  | nil => rfl
  | cons h _ ih => simp [h.1, ih]

theorem get? (h : Related R t u) (key : String) :
    Option.Rel (R key) (t.get? key) (u.get? key) := by
  unfold Related at h
  unfold Table.get?
  generalize t.entries = l, u.entries = m at h ⊢
  induction h with
  | nil => exact .none
  | @cons p q l m hpq _ ih =>
    obtain ⟨k, b⟩ := p
    obtain ⟨k', c⟩ := q
    obtain ⟨rfl, hbc⟩ : k = k' ∧ R k b c := hpq
    unfold find
    split
    · rename_i heq
      subst heq
      exact .some hbc
    · exact ih

theorem get?_some (h : Related R t u) {key : String} {b : β} (hb : t.get? key = some b) :
    ∃ c, u.get? key = some c ∧ R key b c := by
  have hrel := h.get? key
  rw [hb] at hrel
  cases hu : u.get? key with
  | none =>
    rw [hu] at hrel
    cases hrel
  | some c =>
    rw [hu] at hrel
    cases hrel with
    | some hbc => exact ⟨c, rfl, hbc⟩

theorem insert (h : Related R t u) {key : String} {b : β} {c : γ} (hbc : R key b c) :
    Related R (t.insert key b) (u.insert key c) := by
  unfold Related at h ⊢
  unfold Table.insert
  dsimp only
  generalize t.entries = l, u.entries = m at h ⊢
  induction h with
  | nil => exact .cons ⟨rfl, hbc⟩ .nil
  | @cons p q l m hpq hrest ih =>
    obtain ⟨k, v⟩ := p
    obtain ⟨k', v'⟩ := q
    obtain ⟨rfl, hv⟩ : k = k' ∧ R k v v' := hpq
    unfold place
    split
    · exact .cons ⟨rfl, hbc⟩ (.cons ⟨rfl, hv⟩ hrest)
    · split
      · exact .cons ⟨rfl, hbc⟩ hrest
      · exact .cons ⟨rfl, hv⟩ ih

theorem map (h : Related R t u) {f : String → β → β'} {g : String → γ → γ'}
    (hfg : ∀ k b c, R k b c → S k (f k b) (g k c)) : Related S (t.map f) (u.map g) := by
  unfold Related Table.map
  rw [List.forall₂_map_left_iff, List.forall₂_map_right_iff]
  exact List.Forall₂.imp (fun p q ⟨hk, hpq⟩ => ⟨hk, by rw [← hk]; exact hfg _ _ _ hpq⟩) h

theorem traverse (h : Related R t u) {f : String → β → Except ε β'} {g : String → γ → Except ε γ'}
    (hfg : ∀ k b c, R k b c → Parallel (S k) (f k b) (g k c)) :
    Parallel (Related S) (t.traverse f) (u.traverse g) := by
  have hentries : Parallel (List.Forall₂ (EntryRelated S)) (traverseEntries f t.entries)
      (traverseEntries g u.entries) := by
    unfold Related at h
    generalize t.entries = l, u.entries = m at h ⊢
    induction h with
    | nil => exact .ok .nil
    | @cons p q l m hpq _ ih =>
      obtain ⟨k, v⟩ := p
      obtain ⟨k', v'⟩ := q
      obtain ⟨rfl, hv⟩ : k = k' ∧ R k v v' := hpq
      exact (hfg k v v' hv).bind fun b c hbc => ih.bind fun bs cs hbcs =>
        .pure (.cons ⟨rfl, hbc⟩ hbcs)
  unfold Table.traverse
  split
  · rename_i e he
    rw [he] at hentries
    split
    · exact .error _ _
    · rename_i m hm
      rw [hm] at hentries
      cases hentries
  · rename_i l hl
    rw [hl] at hentries
    split
    · rename_i e he
      rw [he] at hentries
      cases hentries
    · rename_i m hm
      rw [hm] at hentries
      cases hentries with
      | ok h => exact .ok h

end Related

end Table

end Tween
