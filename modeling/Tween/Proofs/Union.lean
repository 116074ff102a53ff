/-
Options that several filters give. Options are added one by one to those held,
and each has to go with what is held for it (`Filter.unionOptions_cons`). So a
union is made exactly if all of them do, and then what is held comes first
(`Filter.unionTable_outcome`). In a chain an option that is animated goes on with
that of the next filter, and any other stays (`Filter.extendOption_eq_ok`).
-/
import Tween.Filter.Chain
import Tween.Proofs.Fallible

namespace Tween.Filter

variable {α : Type} [Scalar α]

/-- Whether an option of one more filter goes with what is held for it. -/
def Suits : Option (OptionValue α) → OptionValue α → Prop
  | some (.animated _), .animated _ => True
  | none, .fixed _ => True
  | some (.fixed s), .fixed s' => s.agrees s' = true
  | _, _ => False

theorem suits_animated {o : Option (OptionValue α)} {y : Expr α} :
    Suits o (.animated y) ↔ ∃ x, o = some (.animated x) := by
  rcases o with _ | v
  · simp [Suits]
  · cases v <;> simp [Suits]

theorem suits_fixed {o : Option (OptionValue α)} {s' : Setting α} :
    Suits o (.fixed s') ↔ o = none ∨ ∃ s, o = some (.fixed s) ∧ s.agrees s' = true := by
  rcases o with _ | v
  · simp [Suits]
  · cases v <;> simp [Suits]

/-- A table with a value under a name that had none. -/
def supply (held : Table (OptionValue α)) (key : String) (v : OptionValue α) :
    Table (OptionValue α) :=
  if (held.get? key).isSome then held else held.insert key v

omit [Scalar α] in
theorem get?_supply (held : Table (OptionValue α)) (key k : String) (v : OptionValue α) :
    (supply held key v).get? k = (held.get? k).or (if key = k then some v else none) := by
  unfold supply
  split
  · rename_i hsome
    obtain ⟨w, hw⟩ := Option.isSome_iff_exists.1 hsome
    by_cases hk : key = k
    · subst hk
      simp [hw]
    · simp [hk]
  · rename_i hnone
    rw [Table.get?_insert]
    by_cases hk : k = key
    · subst hk
      have hget : held.get? k = none := by simpa using hnone
      simp [hget]
    · simp [hk, Ne.symm hk]

theorem unionOptions_cons (family : String) (held : Table (OptionValue α)) (key : String)
    (v : OptionValue α) (rest : List (String × OptionValue α)) :
    (Suits (held.get? key) v ∧ unionOptions family held ((key, v) :: rest) =
        unionOptions family (supply held key v) rest) ∨
      (¬ Suits (held.get? key) v ∧
        ∃ fault, unionOptions family held ((key, v) :: rest) = .error (.invalid fault)) := by
  cases hheld : held.get? key with
  | none =>
    simp only [unionOptions, supply, hheld]
    cases v with
    | animated y => exact .inr ⟨by simp [Suits], _, rfl⟩
    | fixed s' => exact .inl ⟨trivial, rfl⟩
  | some u =>
    simp only [unionOptions, supply, hheld]
    cases u with
    | animated x =>
      cases v with
      | animated y => exact .inl ⟨trivial, rfl⟩
      | fixed s' => exact .inr ⟨by simp [Suits], _, rfl⟩
    | fixed s =>
      cases v with
      | animated y => exact .inr ⟨by simp [Suits], _, rfl⟩
      | fixed s' =>
        by_cases hagrees : s.agrees s' = true
        · exact .inl ⟨hagrees, if_pos hagrees⟩
        · exact .inr ⟨hagrees, _, if_neg hagrees⟩

/-- **Options are united** exactly if each one added goes with what is held, and
then what is held comes first. -/
theorem unionOptions_outcome (family : String) (held : Table (OptionValue α))
    {next : List (String × OptionValue α)} (hnames : (next.map Prod.fst).Nodup) :
    ((∀ key v, (key, v) ∈ next → Suits (held.get? key) v) ∧
        ∃ u, unionOptions family held next = .ok u ∧
          ∀ k, u.get? k = (held.get? k).or (Table.find k next)) ∨
      ((∃ key v, (key, v) ∈ next ∧ ¬ Suits (held.get? key) v) ∧
        ∃ fault, unionOptions family held next = .error (.invalid fault)) := by
  induction next generalizing held with
  | nil => exact .inl ⟨by simp, held, rfl, by simp [Table.find]⟩
  | cons entry rest ih =>
    obtain ⟨key, v⟩ := entry
    obtain ⟨hfresh, hnames⟩ := List.nodup_cons.1 hnames
    -- A name stands in the list once, so what is supplied for it is not looked up again.
    have hlater : ∀ k w, (k, w) ∈ rest → (supply held key v).get? k = held.get? k := by
      intro k w hw
      have hne : key ≠ k := by
        rintro rfl
        exact hfresh (List.mem_map.2 ⟨_, hw, rfl⟩)
      rw [get?_supply, if_neg hne, Option.or_none]
    rcases unionOptions_cons family held key v rest with ⟨hsuits, heq⟩ | ⟨hsuits, fault, herr⟩
    · rw [heq]
      rcases ih (supply held key v) hnames with
        ⟨hall, u, hu, hget⟩ | ⟨⟨k, w, hw, hnot⟩, fault, herr⟩
      · refine .inl ⟨?_, u, hu, ?_⟩
        · intro k w hw
          rcases List.mem_cons.1 hw with heq | hw
          · cases heq
            exact hsuits
          · rw [← hlater k w hw]
            exact hall k w hw
        · intro k
          have hfind : Table.find k ((key, v) :: rest) =
              (if key = k then some v else none).or (Table.find k rest) := by
            simp only [Table.find]
            split <;> simp
          rw [hget k, get?_supply, Option.or_assoc, hfind]
      · rw [hlater k w hw] at hnot
        exact .inr ⟨⟨k, w, List.mem_cons_of_mem _ hw, hnot⟩, fault, herr⟩
    · exact .inr ⟨⟨key, v, by simp, hsuits⟩, fault, herr⟩

theorem unionTable_outcome (family : String) (held next : Table (OptionValue α)) :
    ((∀ key v, next.get? key = some v → Suits (held.get? key) v) ∧
        ∃ u, unionOptions family held next.entries = .ok u ∧
          ∀ k, u.get? k = (held.get? k).or (next.get? k)) ∨
      ((∃ key v, next.get? key = some v ∧ ¬ Suits (held.get? key) v) ∧
        ∃ fault, unionOptions family held next.entries = .error (.invalid fault)) := by
  rcases unionOptions_outcome family held next.nodup_names with
    ⟨hall, hunion⟩ | ⟨⟨key, v, hv, hnot⟩, herr⟩
  · exact .inl ⟨fun key v hv => hall key v ((Table.mem_entries_iff _ _ _).2 hv), hunion⟩
  · exact .inr ⟨⟨key, v, (Table.mem_entries_iff _ _ _).1 hv, hnot⟩, herr⟩

/-- What is animated in a union was animated before: nothing animated is
added. -/
theorem animated_of_union {held u next : Table (OptionValue α)}
    (hsuits : ∀ key v, next.get? key = some v → Suits (held.get? key) v)
    (hget : ∀ k, u.get? k = (held.get? k).or (next.get? k)) {key : String} {x : Expr α} :
    u.get? key = some (.animated x) ↔ held.get? key = some (.animated x) := by
  rw [hget key]
  cases hheld : held.get? key with
  | some v => simp
  | none =>
    have hnone : next.get? key ≠ some (.animated x) := fun hnext => by
      obtain ⟨y, hy⟩ := suits_animated.1 (hsuits key _ hnext)
      rw [hheld] at hy
      cases hy
    simpa using hnone

/-- A union that is made holds what was held, and else what is added, which goes
with it. -/
theorem unionOptions_eq_ok {family : String} {held u next : Table (OptionValue α)}
    (h : unionOptions family held next.entries = .ok u) :
    (∀ key v, next.get? key = some v → Suits (held.get? key) v) ∧
      ∀ key, u.get? key = (held.get? key).or (next.get? key) := by
  rcases unionTable_outcome family held next with ⟨hsuits, u', hu', hget⟩ | ⟨-, fault, herr⟩
  · obtain rfl : u = u' := Except.ok.inj (h.symm.trans hu')
    exact ⟨hsuits, hget⟩
  · rw [herr] at h
    cases h

theorem animated_of_unionOptions {family key : String} {held u next : Table (OptionValue α)}
    {x : Expr α} (h : unionOptions family held next.entries = .ok u) :
    u.get? key = some (.animated x) ↔ held.get? key = some (.animated x) := by
  obtain ⟨hsuits, hget⟩ := unionOptions_eq_ok h
  exact animated_of_union hsuits hget

/-! ## Options that go on -/

omit [Scalar α] in
theorem windowIn_eq_ok {family : String} {f : Filter α} {w : Window α} :
    f.windowIn family = .ok w ↔ f.window = some w := by
  unfold windowIn
  cases f.window <;> simp

omit [Scalar α] in
/-- An option goes on either as it is, or with the option of the next filter
spliced into it. -/
theorem extendOption_eq_ok {family key : String} {prev : Window α} {opening : α}
    {options : Table (OptionValue α)} {v v' : OptionValue α}
    (h : extendOption family prev opening options key v = .ok v') :
    (∃ s, v = .fixed s ∧ v' = .fixed s) ∨
      ∃ e hold body, v = .animated e ∧ prev.holds.get? key = some hold ∧
        options.get? key = some (.animated body) ∧
        v' = .animated (e.fillElse (seam opening hold body)) := by
  unfold extendOption at h
  split at h
  · rename_i s
    exact .inl ⟨s, rfl, (Except.ok.inj h).symm⟩
  · rename_i e
    split at h
    · rename_i body hbody
      split at h
      · rename_i hold hhold
        exact .inr ⟨e, hold, body, rfl, hhold, hbody, (Except.ok.inj h).symm⟩
      · cases h
    · cases h

end Tween.Filter
