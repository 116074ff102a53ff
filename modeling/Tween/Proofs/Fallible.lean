/-
Computations that may fail, taken apart by what they return. A list or a table
goes through a fallible function exactly when every element does
(`mapM_eq_ok`, `Table.traverse_eq_ok`), and the first failure is the whole one
(`Table.exists_of_traverse_eq_error`).
-/
import Mathlib.Data.List.Forall2
import Tween.Table

namespace Tween

section

variable {ε α β : Type}

theorem bind_eq_ok {x : Except ε α} {f : α → Except ε β} {b : β} :
    (x >>= f) = .ok b ↔ ∃ a, x = .ok a ∧ f a = .ok b := by
  cases x <;> simp [bind, Except.bind]

theorem bind_eq_error {x : Except ε α} {f : α → Except ε β} {e : ε} :
    (x >>= f) = .error e ↔ x = .error e ∨ ∃ a, x = .ok a ∧ f a = .error e := by
  cases x <;> simp [bind, Except.bind]

@[simp] theorem ok_bind {a : α} {f : α → Except ε β} : (Except.ok a >>= f) = f a := rfl

@[simp] theorem error_bind {e : ε} {f : α → Except ε β} :
    (Except.error e >>= f) = .error e := rfl

theorem pure_eq_ok {a b : α} : (pure a : Except ε α) = .ok b ↔ a = b := by
  simp [pure, Except.pure]

theorem mapM_eq_ok {f : α → Except ε β} {l : List α} {m : List β} :
    l.mapM f = .ok m ↔ List.Forall₂ (fun a b => f a = .ok b) l m := by
  induction l generalizing m with
  | nil => cases m <;> simp [pure, Except.pure]
  | cons a l ih =>
    rw [List.mapM_cons]
    simp only [bind_eq_ok, pure_eq_ok, ih]
    constructor
    · rintro ⟨b, hb, m', hm', rfl⟩
      exact .cons hb hm'
    · intro h
      cases h with
      | cons hb hm' => exact ⟨_, hb, _, hm', rfl⟩

theorem forall₂_iff_eq_map {R : α → β → Prop} {f : α → β} (h : ∀ a b, R a b ↔ b = f a)
    {l : List α} {m : List β} : List.Forall₂ R l m ↔ m = l.map f := by
  constructor
  · intro hrel
    have heq : List.Forall₂ Eq (l.map f) m :=
      List.forall₂_map_left_iff.2 (hrel.imp fun a b hab => ((h a b).1 hab).symm)
    rw [List.forall₂_eq_eq_eq] at heq
    exact heq.symm
  · rintro rfl
    exact List.forall₂_map_right_iff.2 (List.forall₂_same.2 fun a _ => (h a _).2 rfl)

theorem exists_left_of_mem {R : α → β → Prop} {l : List α} {m : List β} {b : β}
    (h : List.Forall₂ R l m) (hb : b ∈ m) : ∃ a ∈ l, R a b := by
  induction h with
  | nil => simp at hb
  | @cons a b' l m hab _ ih =>
    rcases List.mem_cons.1 hb with rfl | hb
    · exact ⟨a, by simp, hab⟩
    · obtain ⟨a', ha', hrel⟩ := ih hb
      exact ⟨a', by simp [ha'], hrel⟩

theorem exists_right_of_mem {R : α → β → Prop} {l : List α} {m : List β} {a : α}
    (h : List.Forall₂ R l m) (ha : a ∈ l) : ∃ b ∈ m, R a b :=
  exists_left_of_mem h.flip ha

theorem exists_of_mem_mapM {f : α → Except ε β} {l : List α} {m : List β} {b : β}
    (h : l.mapM f = .ok m) (hb : b ∈ m) : ∃ a ∈ l, f a = .ok b :=
  exists_left_of_mem (R := fun a b => f a = .ok b) (mapM_eq_ok.1 h) hb

theorem exists_of_mem_of_mapM {f : α → Except ε β} {l : List α} {m : List β} {a : α}
    (h : l.mapM f = .ok m) (ha : a ∈ l) : ∃ b ∈ m, f a = .ok b :=
  exists_right_of_mem (R := fun a b => f a = .ok b) (mapM_eq_ok.1 h) ha

theorem forall₂_comp {γ : Type} {R : α → β → Prop} {S : β → γ → Prop} {l : List α} {m : List β}
    {n : List γ} (h : List.Forall₂ R l m) (h' : List.Forall₂ S m n) :
    List.Forall₂ (fun a c => ∃ b, R a b ∧ S b c) l n := by
  induction h generalizing n with
  | nil =>
    cases h'
    exact .nil
  | cons hab _ ih =>
    cases h' with
    | cons hbc hrest => exact .cons ⟨_, hab, hbc⟩ (ih hrest)

/-- A result that can be computed and passes a test. -/
theorem exists_of_toOption_any {x : Except ε α} {p : α → Bool} (h : x.toOption.any p = true) :
    ∃ a, x = .ok a ∧ p a = true := by
  cases x with
  | ok a => exact ⟨a, rfl, h⟩
  | error e => cases h

theorem mapM_congr {f g : α → Except ε β} {l : List α} (h : ∀ a ∈ l, f a = g a) :
    l.mapM f = l.mapM g := by
  induction l with
  | nil => rfl
  | cons a l ih =>
    rw [List.mapM_cons, List.mapM_cons, h a (by simp), ih fun a' ha' => h a' (by simp [ha'])]

theorem mapM_append_eq_ok {f : α → Except ε β} {l l' : List α} {m : List β} :
    (l ++ l').mapM f = .ok m ↔ ∃ n n', l.mapM f = .ok n ∧ l'.mapM f = .ok n' ∧ m = n ++ n' := by
  rw [List.mapM_append]
  simp only [bind_eq_ok, pure_eq_ok]
  constructor
  · rintro ⟨n, hn, n', hn', rfl⟩
    exact ⟨n, n', hn, hn', rfl⟩
  · rintro ⟨n, n', hn, hn', rfl⟩
    exact ⟨n, hn, n', hn', rfl⟩

/-- A list whose elements fail in one way only fails in that way, and only
where an element does. -/
theorem mapM_outcome {f : α → Except ε β} {p : α → Prop} {q : ε → Prop} {l : List α}
    (h : ∀ a ∈ l, (p a ∧ ∃ b, f a = .ok b) ∨ (¬ p a ∧ ∃ e, q e ∧ f a = .error e)) :
    ((∀ a ∈ l, p a) ∧ ∃ m, l.mapM f = .ok m) ∨
      ((∃ a ∈ l, ¬ p a) ∧ ∃ e, q e ∧ l.mapM f = .error e) := by
  induction l with
  | nil => exact .inl ⟨by simp, [], rfl⟩
  | cons a l ih =>
    rw [List.mapM_cons]
    rcases h a (by simp) with ⟨ha, b, hb⟩ | ⟨ha, e, he, herr⟩
    · rw [hb, ok_bind]
      rcases ih fun a' ha' => h a' (by simp [ha']) with
        ⟨hall, m, hm⟩ | ⟨⟨a', ha', hnot⟩, e, he, herr⟩
      · rw [hm]
        exact .inl ⟨List.forall_mem_cons.2 ⟨ha, hall⟩, b :: m, rfl⟩
      · rw [herr]
        exact .inr ⟨⟨a', by simp [ha'], hnot⟩, e, he, rfl⟩
    · rw [herr]
      exact .inr ⟨⟨a, by simp, ha⟩, e, he, rfl⟩

theorem mapM_ok_of_forall {f : α → Except ε β} {l : List α} (h : ∀ a ∈ l, ∃ b, f a = .ok b) :
    ∃ m, l.mapM f = .ok m := by
  induction l with
  | nil => exact ⟨[], rfl⟩
  | cons a l ih =>
    obtain ⟨b, hb⟩ := h a (by simp)
    obtain ⟨m, hm⟩ := ih fun a' ha' => h a' (by simp [ha'])
    exact ⟨b :: m, by simp [List.mapM_cons, hb, hm, pure, Except.pure]⟩

end

namespace Table

variable {ε β γ : Type} {f : String → β → Except ε γ}

theorem find_traverseEntries {l : List (String × β)} {m : List (String × γ)}
    (h : traverseEntries f l = .ok m) (k : String) :
    match find k l with
    | none => find k m = none
    | some v => ∃ w, f k v = .ok w ∧ find k m = some w := by
  induction l generalizing m with
  | nil =>
    cases h
    rfl
  | cons e rest ih =>
    obtain ⟨k', v⟩ := e
    simp only [traverseEntries, bind_eq_ok, pure_eq_ok] at h
    obtain ⟨w, hw, ws, hws, rfl⟩ := h
    by_cases hk : k' = k
    · subst hk
      simp only [find, if_true]
      exact ⟨w, hw, rfl⟩
    · simp only [find, hk, if_false]
      exact ih hws

theorem traverse_eq_ok_iff {t : Table β} {u : Table γ} :
    t.traverse f = .ok u ↔ traverseEntries f t.entries = .ok u.entries := by
  unfold traverse
  split
  · rename_i e h
    simp [h]
  · rename_i l h
    simp [h, Table.ext_iff]

theorem get?_traverse {t : Table β} {u : Table γ} (h : t.traverse f = .ok u) (k : String) :
    match t.get? k with
    | none => u.get? k = none
    | some v => ∃ w, f k v = .ok w ∧ u.get? k = some w :=
  find_traverseEntries (traverse_eq_ok_iff.1 h) k

theorem get?_traverse_some {t : Table β} {u : Table γ} (h : t.traverse f = .ok u) {k : String}
    {v : β} (hv : t.get? k = some v) : ∃ w, f k v = .ok w ∧ u.get? k = some w := by
  have hk := get?_traverse h k
  rw [hv] at hk
  exact hk

theorem get?_traverse_none {t : Table β} {u : Table γ} (h : t.traverse f = .ok u) {k : String}
    (hv : t.get? k = none) : u.get? k = none := by
  have hk := get?_traverse h k
  rw [hv] at hk
  exact hk

theorem traverseEntries_eq_error {l : List (String × β)} {e : ε}
    (h : traverseEntries f l = .error e) : ∃ k v, (k, v) ∈ l ∧ f k v = .error e := by
  induction l with
  | nil => cases h
  | cons a rest ih =>
    obtain ⟨k, v⟩ := a
    simp only [traverseEntries, bind_eq_error] at h
    rcases h with hv | ⟨w, -, hrest | ⟨ws, -, hpure⟩⟩
    · exact ⟨k, v, by simp, hv⟩
    · obtain ⟨k', v', hmem, hv'⟩ := ih hrest
      exact ⟨k', v', by simp [hmem], hv'⟩
    · cases hpure

theorem exists_of_traverse_eq_error {t : Table β} {e : ε} (h : t.traverse f = .error e) :
    ∃ k v, t.get? k = some v ∧ f k v = .error e := by
  unfold traverse at h
  split at h
  · rename_i e' he'
    cases h
    obtain ⟨k, v, hmem, hv⟩ := traverseEntries_eq_error he'
    exact ⟨k, v, (mem_entries_iff t k v).1 hmem, hv⟩
  · cases h

theorem traverse_ok_of_forall {t : Table β} (h : ∀ k v, t.get? k = some v → ∃ w, f k v = .ok w) :
    ∃ u, t.traverse f = .ok u := by
  cases hu : t.traverse f with
  | ok u => exact ⟨u, rfl⟩
  | error e =>
    obtain ⟨k, v, hv, he⟩ := exists_of_traverse_eq_error hu
    obtain ⟨w, hw⟩ := h k v hv
    rw [he] at hw
    cases hw

/-- A table whose entries fail in one way only fails in that way, and only where
an entry does. -/
theorem traverse_outcome {p : String → β → Prop} {q : ε → Prop} {t : Table β}
    (h : ∀ k v, t.get? k = some v →
      (p k v ∧ ∃ w, f k v = .ok w) ∨ (¬ p k v ∧ ∃ e, q e ∧ f k v = .error e)) :
    ((∀ k v, t.get? k = some v → p k v) ∧ ∃ u, t.traverse f = .ok u) ∨
      ((∃ k v, t.get? k = some v ∧ ¬ p k v) ∧ ∃ e, q e ∧ t.traverse f = .error e) := by
  cases hu : t.traverse f with
  | ok u =>
    refine .inl ⟨fun k v hv => ?_, u, rfl⟩
    obtain ⟨w, hw, -⟩ := get?_traverse_some hu hv
    rcases h k v hv with ⟨hp, -⟩ | ⟨-, e, -, he⟩
    · exact hp
    · rw [he] at hw
      cases hw
  | error e =>
    obtain ⟨k, v, hv, he⟩ := exists_of_traverse_eq_error hu
    rcases h k v hv with ⟨-, w, hw⟩ | ⟨hp, e', hq, he'⟩
    · rw [he] at hw
      cases hw
    · obtain rfl : e = e' := Except.error.inj (he.symm.trans he')
      exact .inr ⟨⟨k, v, hv, hp⟩, e, hq, rfl⟩

end Table

end Tween
