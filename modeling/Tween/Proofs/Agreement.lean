/-
Which filters can be chained, and what the chain holds. The options held after
some filters are the first ones that the filters give, up to the expressions
(`Filter.Carries`). One filter more is let in exactly if it agrees with every
filter before it and follows the last of them (`Filter.chainable_snoc`). So a
chain goes through exactly if its filters agree two by two and follow each
other one by one (`Filter.chain_outcome`).
-/
import Tween.Proofs.Failure

namespace Tween

variable {α : Type}

/-- The value of an option that does not change over time; of any other, only
that it is animated. -/
def OptionValue.setting? : OptionValue α → Option (Setting α)
  | .animated _ => none
  | .fixed s => some s

namespace Filter

/-- Whether a filter animates an option. -/
def Animates (f : Filter α) (key : String) : Prop :=
  ∃ x, f.options.get? key = some (.animated x)

/-- The first value that filters give an option. -/
def firstOption? (fs : List (Filter α)) (key : String) : Option (OptionValue α) :=
  fs.findSome? fun f => f.options.get? key

section Scalar

variable [Scalar α]

/-- A filter opens before another one has closed, by more than the tolerance. -/
def Overlaps (f g : Filter α) : Prop :=
  ∃ w w', f.window = some w ∧ g.window = some w' ∧ w'.delay + windowTolerance < w.finish

/-- A filter may come right after another one: it does not open too early, and
the earlier one has a value to hold for each option it animates. -/
structure Precedes (f g : Filter α) : Prop where
  clear : ¬ f.Overlaps g
  holds : ∀ w, f.window = some w → ∀ key, f.Animates key → ∃ hold, w.holds.get? key = some hold

/-- Two filters animate the same options and give no other option two different
values. -/
structure Agrees (f g : Filter α) : Prop where
  animated : ∀ key, f.Animates key ↔ g.Animates key
  fixed : ∀ key s s', f.options.get? key = some (.fixed s) →
    g.options.get? key = some (.fixed s') → s.agrees s' = true

/-- Filters, in order, that can be chained. -/
structure Chainable (fs : List (Filter α)) : Prop where
  windows : ∀ f ∈ fs, ∃ w, f.window = some w
  consecutive : fs.IsChain Precedes
  agree : fs.Pairwise Agrees

/-- A filter is what filters in order are chained to: it has the name and the
clock of the first and stands outside any chain, and its options are those of
all filters. Where they give values that do not change over time, it has the
first of them; where they give expressions, it has one with no fallback. -/
structure Merges (g : Filter α) (fs : List (Filter α)) : Prop where
  first : ∃ f, fs.head? = some f ∧ g.name = f.name ∧ g.clock = f.clock
  phase : g.phase = none
  group : g.group = none
  window : g.window = none
  absent : ∀ key, g.options.get? key = none ↔ ∀ f ∈ fs, f.options.get? key = none
  fixed : ∀ key s, g.options.get? key = some (.fixed s) ↔ firstOption? fs key = some (.fixed s)
  common : ∀ key s, g.options.get? key = some (.fixed s) → ∀ f ∈ fs, ∀ v,
    f.options.get? key = some v → ∃ s', v = .fixed s' ∧ (s' = s ∨ s.agrees s' = true)
  animated : ∀ key, ∀ f ∈ fs, g.Animates key ↔ f.Animates key
  closed : ∀ key x, g.options.get? key = some (.animated x) → x.fallbacks = []

end Scalar

/-! ## Options given by several filters -/

theorem map_setting?_animated {o : Option (OptionValue α)} :
    o.map OptionValue.setting? = some none ↔ ∃ x, o = some (.animated x) := by
  rcases o with _ | v
  · simp
  · cases v <;> simp [OptionValue.setting?]

theorem map_setting?_fixed {o : Option (OptionValue α)} {s : Setting α} :
    o.map OptionValue.setting? = some (some s) ↔ o = some (.fixed s) := by
  rcases o with _ | v
  · simp
  · cases v <;> simp [OptionValue.setting?]

theorem map_finalOption_fixed {o : Option (OptionValue α)} {s : Setting α} :
    o.map finalOption = some (.fixed s) ↔ o = some (.fixed s) := by
  rcases o with _ | v
  · simp
  · cases v <;> simp [finalOption]

theorem map_finalOption_animated {o : Option (OptionValue α)} :
    (∃ x, o.map finalOption = some (.animated x)) ↔ ∃ x, o = some (.animated x) := by
  rcases o with _ | v
  · simp
  · cases v <;> simp [finalOption]

theorem firstOption?_snoc (fs : List (Filter α)) (g : Filter α) (key : String) :
    firstOption? (fs ++ [g]) key = (firstOption? fs key).or (g.options.get? key) := by
  simp [firstOption?, List.findSome?_append]

theorem exists_of_firstOption? {fs : List (Filter α)} {key : String} {v : OptionValue α}
    (h : firstOption? fs key = some v) : ∃ f ∈ fs, f.options.get? key = some v :=
  List.exists_of_findSome?_eq_some h

theorem firstOption?_eq_none {fs : List (Filter α)} {key : String} :
    firstOption? fs key = none ↔ ∀ f ∈ fs, f.options.get? key = none :=
  List.findSome?_eq_none_iff

/-- Options held after some filters: the first ones these filters give, up to
the expressions. -/
def Carries (held : Table (OptionValue α)) (fs : List (Filter α)) : Prop :=
  ∀ key, (held.get? key).map OptionValue.setting? =
    (firstOption? fs key).map OptionValue.setting?

section Carries

variable {held : Table (OptionValue α)} {fs : List (Filter α)} {key : String}

theorem carries_singleton (f : Filter α) : Carries f.options [f] := by
  intro key
  simp [firstOption?]

theorem Carries.none_iff (h : Carries held fs) :
    held.get? key = none ↔ firstOption? fs key = none := by
  simpa using congrArg (· = none) (h key)

theorem Carries.animated_iff (h : Carries held fs) :
    (∃ x, held.get? key = some (.animated x)) ↔ ∃ x, firstOption? fs key = some (.animated x) := by
  rw [← map_setting?_animated, ← map_setting?_animated, h key]

theorem Carries.fixed_iff (h : Carries held fs) {s : Setting α} :
    held.get? key = some (.fixed s) ↔ firstOption? fs key = some (.fixed s) := by
  rw [← map_setting?_fixed, ← map_setting?_fixed, h key]

end Carries

section Agree

variable [Scalar α] {fs : List (Filter α)} {f : Filter α} {key : String}

theorem firstOption?_animated (hagree : fs.Pairwise Agrees) (hf : f ∈ fs) :
    (∃ x, firstOption? fs key = some (.animated x)) ↔ f.Animates key := by
  have hsame : ∀ g ∈ fs, ∀ g' ∈ fs, g.Animates key ↔ g'.Animates key := by
    have hsymm : Std.Symm fun g g' : Filter α => g.Animates key ↔ g'.Animates key :=
      ⟨fun _ _ => Iff.symm⟩
    exact List.Pairwise.forall_of_forall (R := fun g g' => g.Animates key ↔ g'.Animates key)
      (fun _ _ => Iff.rfl) (hagree.imp fun h => h.animated key)
  constructor
  · rintro ⟨x, hx⟩
    obtain ⟨g, hg, hgx⟩ := exists_of_firstOption? hx
    exact (hsame g hg f hf).1 ⟨x, hgx⟩
  · rintro ⟨x, hx⟩
    cases hv : firstOption? fs key with
    | none =>
      rw [firstOption?_eq_none.1 hv f hf] at hx
      cases hx
    | some v =>
      obtain ⟨g, hg, hgv⟩ := exists_of_firstOption? hv
      obtain ⟨y, hy⟩ := (hsame f hf g hg).1 ⟨x, hx⟩
      exact ⟨y, hgv.symm.trans hy⟩

theorem firstOption?_fixed (hagree : fs.Pairwise Agrees) (hf : f ∈ fs) {s s' : Setting α}
    (hs : firstOption? fs key = some (.fixed s)) (hs' : f.options.get? key = some (.fixed s')) :
    s' = s ∨ s.agrees s' = true := by
  induction fs with
  | nil => cases hf
  | cons g fs ih =>
    obtain ⟨hhead, hrest⟩ := List.pairwise_cons.1 hagree
    unfold firstOption? at hs
    rw [List.findSome?_cons] at hs
    cases hg : g.options.get? key with
    | none =>
      rw [hg] at hs
      rcases List.mem_cons.1 hf with rfl | hf
      · rw [hg] at hs'
        cases hs'
      · exact ih hrest hf hs
    | some v =>
      rw [hg] at hs
      obtain rfl : v = .fixed s := Option.some.inj hs
      rcases List.mem_cons.1 hf with rfl | hf
      · rw [hg] at hs'
        cases hs'
        exact .inl rfl
      · exact .inr ((hhead f hf).fixed key s s' hg hs')

end Agree

/-! ## One filter more -/

section Step

variable [Scalar α]

/-- One filter more goes with a chain: its window is clear of the last one, its
options go with those held, and each animated option of the chain goes on. -/
structure Joins (held : Table (OptionValue α)) (prev w : Window α) (next : Filter α) : Prop where
  clear : ¬ w.delay + windowTolerance < prev.finish
  suits : ∀ key v, next.options.get? key = some v → Suits (held.get? key) v
  continued : ∀ key, (∃ x, held.get? key = some (.animated x)) →
    next.Animates key ∧ ∃ hold, prev.holds.get? key = some hold

omit [Scalar α] in
/-- An animated option goes on where the next filter animates it and the last
one holds a value for it. -/
theorem extendOption_outcome (family : String) (prev : Window α) (opening : α)
    (next : Filter α) (key : String) (v : OptionValue α) :
    ((v.setting? = none → next.Animates key ∧ ∃ hold, prev.holds.get? key = some hold) ∧
        ∃ w, extendOption family prev opening next.options key v = .ok w) ∨
      (¬ (v.setting? = none → next.Animates key ∧ ∃ hold, prev.holds.get? key = some hold) ∧
        ∃ e, (∃ fault, e = Error.invalid fault) ∧
          extendOption family prev opening next.options key v = .error e) := by
  cases v with
  | fixed s => exact .inl ⟨by simp [OptionValue.setting?], _, rfl⟩
  | animated x =>
    unfold extendOption Animates
    rcases hnext : next.options.get? key with _ | (y | s)
    · exact .inr ⟨by simp [OptionValue.setting?], _, ⟨_, rfl⟩, rfl⟩
    · cases hhold : prev.holds.get? key with
      | none => exact .inr ⟨by simp [OptionValue.setting?], _, ⟨_, rfl⟩, rfl⟩
      | some hold => exact .inl ⟨fun _ => ⟨⟨y, rfl⟩, hold, rfl⟩, _, rfl⟩
    · exact .inr ⟨by simp [OptionValue.setting?], _, ⟨_, rfl⟩, rfl⟩

omit [Scalar α] in
theorem setting?_extendOption {family key : String} {prev : Window α} {opening : α}
    {next : Table (OptionValue α)} {v v' : OptionValue α}
    (h : extendOption family prev opening next key v = .ok v') : v'.setting? = v.setting? := by
  rcases extendOption_eq_ok h with ⟨s, rfl, rfl⟩ | ⟨e, hold, body, rfl, -, -, rfl⟩
  · rfl
  · rfl

/-- **One filter more** is let in exactly if it goes with the chain, and then the
options held so far come first. Otherwise its window opens too early, or the
filters do not fit together. -/
theorem extend_outcome (family : String) (held : Table (OptionValue α)) (prev w : Window α)
    (next : Filter α) :
    (Joins held prev w next ∧ ∃ held', extend family held prev next w = .ok held' ∧
        ∀ key, (held'.get? key).map OptionValue.setting? =
          ((held.get? key).or (next.options.get? key)).map OptionValue.setting?) ∨
      (¬ Joins held prev w next ∧ ∃ err, extend family held prev next w = .error err ∧
        ((∃ fault, err = .invalid fault) ∨
          err.IsOverlap ∧ w.delay + windowTolerance < prev.finish)) := by
  unfold extend
  by_cases hearly : w.delay + windowTolerance < prev.finish
  · rw [if_pos hearly]
    exact .inr ⟨fun h => h.clear hearly, _, rfl, .inr ⟨trivial, hearly⟩⟩
  · rw [if_neg hearly]
    rcases unionTable_outcome family held next.options with
      ⟨hsuits, u, hu, hget⟩ | ⟨⟨key, v, hv, hnot⟩, fault, herr⟩
    · rw [hu, ok_bind]
      rcases Table.traverse_outcome fun key v _ =>
          extendOption_outcome family prev w.delay next key v with
        ⟨hall, held', hheld'⟩ | ⟨⟨key, v, hv, hnot⟩, err, hinvalid, herr⟩
      · refine .inl ⟨⟨hearly, hsuits, ?_⟩, held', hheld', ?_⟩
        · rintro key ⟨x, hx⟩
          exact hall key _ ((animated_of_union hsuits hget).2 hx) rfl
        · intro key
          rw [← hget key]
          cases hv : u.get? key with
          | none => rw [Table.get?_traverse_none hheld' hv]
          | some v =>
            obtain ⟨v', hv', hkept⟩ := Table.get?_traverse_some hheld' hv
            rw [hkept, Option.map_some, Option.map_some, setting?_extendOption hv']
      · refine .inr ⟨fun h => hnot fun hanimated => h.continued key ?_, err, herr, .inl hinvalid⟩
        obtain ⟨x, rfl⟩ : ∃ x, v = .animated x := by
          cases v with
          | animated x => exact ⟨x, rfl⟩
          | fixed s => cases hanimated
        exact ⟨x, (animated_of_union hsuits hget).1 hv⟩
    · rw [herr]
      exact .inr ⟨fun h => hnot (h.suits key v hv), _, rfl, .inl ⟨fault, rfl⟩⟩

omit [Scalar α] in
theorem Carries.snoc {held held' : Table (OptionValue α)} {fs : List (Filter α)} {next : Filter α}
    (h : Carries held fs) (hget : ∀ key, (held'.get? key).map OptionValue.setting? =
      ((held.get? key).or (next.options.get? key)).map OptionValue.setting?) :
    Carries held' (fs ++ [next]) := by
  intro key
  rw [hget key, firstOption?_snoc, Option.map_or, Option.map_or, h key]

end Step

/-! ## Chains -/

section Chain

variable [Scalar α]

theorem Chainable.of_append {fs gs : List (Filter α)} (h : Chainable (fs ++ gs)) :
    Chainable fs where
  windows f hf := h.windows f (List.mem_append_left _ hf)
  consecutive := h.consecutive.left_of_append
  agree := (List.pairwise_append.1 h.agree).1

theorem chainable_singleton {f : Filter α} {w : Window α} (hw : f.window = some w) :
    Chainable [f] where
  windows g hg := ⟨w, by rw [List.mem_singleton.1 hg, hw]⟩
  consecutive := .singleton f
  agree := List.pairwise_singleton _ f

theorem setting_agrees_symm [EqualScalar α] {s s' : Setting α} (h : s.agrees s' = true) :
    s'.agrees s = true := by
  cases s <;> cases s'
  case number.number => exact EqualScalar.beq_symm h
  case text.text => exact beq_iff_eq.2 (beq_iff_eq.1 h).symm
  all_goals cases h

theorem setting_agrees_trans [EqualScalar α] {s s' s'' : Setting α} (h : s.agrees s' = true)
    (h' : s'.agrees s'' = true) : s.agrees s'' = true := by
  cases s <;> cases s' <;> cases s''
  case number.number.number => exact EqualScalar.beq_trans h h'
  case text.text.text => exact beq_iff_eq.2 ((beq_iff_eq.1 h).trans (beq_iff_eq.1 h'))
  all_goals first | cases h | cases h'

section Snoc

variable {held : Table (OptionValue α)} {prev w : Window α} {fs : List (Filter α)}
  {last next : Filter α}

theorem Carries.animated_iff_next (hheld : Carries held fs) (hagree : fs.Pairwise Agrees)
    (hlast : last ∈ fs) (hnext : ∀ key, last.Animates key ↔ next.Animates key) (key : String) :
    (∃ x, held.get? key = some (.animated x)) ↔ next.Animates key :=
  (hheld.animated_iff.trans (firstOption?_animated hagree hlast)).trans (hnext key)

/-- A filter that extends a chain goes with the options held. -/
theorem Chainable.joins (h : Chainable (fs ++ [next])) (hlast : fs.getLast? = some last)
    (hprev : last.window = some prev) (hw : next.window = some w) (hheld : Carries held fs) :
    Joins held prev w next := by
  have hmem := List.mem_of_getLast? hlast
  obtain ⟨hagree, -, hcross⟩ := List.pairwise_append.1 h.agree
  have hnext : ∀ f ∈ fs, f.Agrees next := fun f hf => hcross f hf next (by simp)
  have hprecedes : last.Precedes next :=
    (List.isChain_append.1 h.consecutive).2.2 last hlast next rfl
  have hanimated := hheld.animated_iff_next hagree hmem (hnext last hmem).animated
  refine ⟨fun hearly => hprecedes.clear ⟨prev, w, hprev, hw, hearly⟩, ?_, ?_⟩
  · intro key v hv
    cases v with
    | animated y => exact suits_animated.2 ((hanimated key).2 ⟨y, hv⟩)
    | fixed s' =>
      refine suits_fixed.2 ?_
      rcases hget : held.get? key with _ | (x | s)
      · exact .inl rfl
      · obtain ⟨y, hy⟩ := (hanimated key).1 ⟨x, hget⟩
        rw [hv] at hy
        cases hy
      · obtain ⟨f, hf, hs⟩ := exists_of_firstOption? (hheld.fixed_iff.1 hget)
        exact .inr ⟨s, rfl, (hnext f hf).fixed key s s' hs hv⟩
  · intro key hx
    have hgoes := (hanimated key).1 hx
    exact ⟨hgoes, hprecedes.holds prev hprev key (((hnext last hmem).animated key).2 hgoes)⟩

variable [EqualScalar α]

/-- A filter that goes with the options held extends the chain: as values agree
with the first one given, they agree with each other. -/
theorem Chainable.snoc (h : Chainable fs) (hlast : fs.getLast? = some last)
    (hprev : last.window = some prev) (hw : next.window = some w) (hheld : Carries held fs)
    (hjoins : Joins held prev w next) : Chainable (fs ++ [next]) := by
  have hmem := List.mem_of_getLast? hlast
  have hgoes : ∀ f ∈ fs, ∀ key, f.Animates key ↔ next.Animates key := by
    intro f hf key
    have hheldf : (∃ x, held.get? key = some (.animated x)) ↔ f.Animates key :=
      hheld.animated_iff.trans (firstOption?_animated h.agree hf)
    rw [← hheldf]
    exact ⟨fun hx => (hjoins.continued key hx).1,
      fun ⟨y, hy⟩ => suits_animated.1 (hjoins.suits key _ hy)⟩
  refine ⟨?_, ?_, ?_⟩
  · intro f hf
    rcases List.mem_append.1 hf with hf | hf
    · exact h.windows f hf
    · exact ⟨w, by rw [List.mem_singleton.1 hf, hw]⟩
  · refine List.isChain_append.2 ⟨h.consecutive, .singleton next, ?_⟩
    intro f hf g hg
    obtain rfl : last = f := Option.some.inj (hlast.symm.trans hf)
    obtain rfl : next = g := Option.some.inj hg
    refine ⟨?_, ?_⟩
    · rintro ⟨v, v', hv, hv', hearly⟩
      obtain rfl : prev = v := Option.some.inj (hprev.symm.trans hv)
      obtain rfl : w = v' := Option.some.inj (hw.symm.trans hv')
      exact hjoins.clear hearly
    · intro v hv key hanimates
      obtain rfl : prev = v := Option.some.inj (hprev.symm.trans hv)
      have hx := (hheld.animated_iff.trans (firstOption?_animated h.agree hmem)).2 hanimates
      exact (hjoins.continued key hx).2
  · refine List.pairwise_append.2 ⟨h.agree, List.pairwise_singleton _ _, ?_⟩
    intro f hf g hg
    obtain rfl : g = next := List.mem_singleton.1 hg
    refine ⟨hgoes f hf, ?_⟩
    intro key s s' hs hs'
    rcases suits_fixed.1 (hjoins.suits key _ hs') with hnone | ⟨s₀, hs₀, hagrees⟩
    · rw [hheld.none_iff] at hnone
      rw [firstOption?_eq_none.1 hnone f hf] at hs
      cases hs
    · rcases firstOption?_fixed h.agree hf (hheld.fixed_iff.1 hs₀) hs with rfl | hfirst
      · exact hagrees
      · exact setting_agrees_trans (setting_agrees_symm hfirst) hagrees

/-- **One filter more extends a chain** exactly if it goes with the options
held. -/
theorem chainable_snoc (h : Chainable fs) (hlast : fs.getLast? = some last)
    (hprev : last.window = some prev) (hw : next.window = some w) (hheld : Carries held fs) :
    Chainable (fs ++ [next]) ↔ Joins held prev w next :=
  ⟨fun h' => h'.joins hlast hprev hw hheld, fun hjoins => h.snoc hlast hprev hw hheld hjoins⟩

end Snoc

/-- Two filters of a list come one right after the other, and the later opens
too early. -/
def HasOverlap (fs : List (Filter α)) : Prop :=
  ∃ before f g after, fs = before ++ f :: g :: after ∧ f.Overlaps g

variable [EqualScalar α]

/-- **A chain of filters** goes on to its end exactly if the filters can be
chained, and then it holds the options of all of them. Otherwise two windows
overlap, or the filters do not fit together. -/
theorem chainOptions_carries (family : String) (rest : List (Filter α))
    {held : Table (OptionValue α)} {prev : Window α} {done : List (Filter α)} {last : Filter α}
    (hdone : Chainable done) (hlast : done.getLast? = some last) (hprev : last.window = some prev)
    (hheld : Carries held done) :
    (Chainable (done ++ rest) ∧ ∃ held', chainOptions family held prev rest = .ok held' ∧
        Carries held' (done ++ rest)) ∨
      (¬ Chainable (done ++ rest) ∧ ∃ err, chainOptions family held prev rest = .error err ∧
        ((∃ fault, err = .invalid fault) ∨ err.IsOverlap ∧ HasOverlap (done ++ rest))) := by
  -- `done` can be chained and is what the options held carry: the invariant of the chain.
  induction rest generalizing held prev done last with
  | nil =>
    rw [List.append_nil]
    exact .inl ⟨hdone, held, rfl, hheld⟩
  | cons next rest ih =>
    rw [List.append_cons]
    simp only [chainOptions, windowIn]
    cases hw : next.window with
    | none =>
      refine .inr ⟨?_, _, rfl, .inl ⟨_, rfl⟩⟩
      intro h
      obtain ⟨w, hw'⟩ := h.windows next (by simp)
      rw [hw] at hw'
      cases hw'
    | some w =>
      rw [ok_bind]
      have hextends := chainable_snoc hdone hlast hprev hw hheld
      rcases extend_outcome family held prev w next with
        ⟨hjoins, held', hheld', hget⟩ | ⟨hjoins, err, herr, hkind⟩
      · rw [hheld', ok_bind]
        exact ih (hextends.2 hjoins) List.getLast?_concat hw (hheld.snoc hget)
      · rw [herr]
        refine .inr ⟨fun h => hjoins (hextends.1 h.of_append), err, rfl, ?_⟩
        refine hkind.imp_right ?_
        rintro ⟨hoverlap, hearly⟩
        obtain ⟨before, rfl⟩ := List.getLast?_eq_some_iff.1 hlast
        exact ⟨hoverlap, before, last, next, rest, by simp, prev, w, hprev, hw, hearly⟩

omit [EqualScalar α] in
/-- Filters that can be chained are merged into the first one with the options
held at the end of the chain. -/
theorem merges_of_carries {held : Table (OptionValue α)} {f : Filter α} {rest : List (Filter α)}
    (h : Chainable (f :: rest)) (hheld : Carries held (f :: rest)) :
    Merges
      (Filter.finalized { f with options := held, window := none, group := none, phase := none })
      (f :: rest) := by
  have hget : ∀ key, (Filter.finalized
      { f with options := held, window := none, group := none, phase := none }).options.get? key =
        (held.get? key).map finalOption := fun key => get?_finalized
  refine ⟨⟨f, rfl, rfl, rfl⟩, rfl, rfl, rfl, ?_, ?_, ?_, ?_, ?_⟩
  · intro key
    rw [hget, Option.map_eq_none_iff, hheld.none_iff, firstOption?_eq_none]
  · intro key s
    rw [hget, map_finalOption_fixed, hheld.fixed_iff]
  · intro key s hs g hg v hv
    rw [hget, map_finalOption_fixed, hheld.fixed_iff] at hs
    cases v with
    | fixed s' => exact ⟨s', rfl, firstOption?_fixed h.agree hg hs hv⟩
    | animated x =>
      obtain ⟨y, hy⟩ := (firstOption?_animated h.agree hg).2 ⟨x, hv⟩
      rw [hs] at hy
      cases hy
  · intro key g hg
    rw [← firstOption?_animated h.agree hg, ← hheld.animated_iff]
    unfold Animates
    rw [hget]
    exact map_finalOption_animated
  · intro key x hx
    rw [hget] at hx
    obtain ⟨v, -, hv⟩ := Option.map_eq_some_iff.1 hx
    cases v with
    | fixed s => cases hv
    | animated y =>
      cases hv
      exact y.fallbacks_collapseElse

/-- **What becomes of the filters of a group.** They are taken in the order of
an element's stay, and none come to nothing. They are merged into one filter
exactly if they can be chained in that order: each has a window, none overlaps
the next, all animate the same options and agree on the others, and each but
the last has a value to hold for every animated option. Otherwise they do not
fit together, or two neighbours overlap and the error says so. -/
theorem chain_outcome (family : String) (fs : List (Filter α)) :
    (chain family fs = .ok none ↔ fs = []) ∧
      ((∃ g, chain family fs = .ok (some g)) ↔ fs ≠ [] ∧ Chainable (inOrder fs)) ∧
      (∀ g, chain family fs = .ok (some g) → g.Merges (inOrder fs)) ∧
      ∀ err, chain family fs = .error err →
        (∃ fault, err = .invalid fault) ∨ err.IsOverlap ∧ HasOverlap (inOrder fs) := by
  unfold chain
  cases horder : inOrder fs with
  | nil =>
    have hfs : fs = [] := List.eq_nil_iff_forall_not_mem.2 fun f hf => by
      have hf' := mem_inOrder.2 hf
      rw [horder] at hf'
      cases hf'
    simp [hfs]
  | cons first rest =>
    have hfs : fs ≠ [] := by
      rintro rfl
      cases horder
    simp only [hfs, windowIn, ne_eq, not_false_eq_true, true_and, iff_false]
    cases hw : first.window with
    | none =>
      have hnot : ¬ Chainable (first :: rest) := fun h => by
        obtain ⟨w, hw'⟩ := h.windows first (by simp)
        rw [hw] at hw'
        cases hw'
      simp [hnot]
    | some w =>
      simp only [ok_bind]
      rcases chainOptions_carries family rest (chainable_singleton hw) rfl hw
          (carries_singleton first) with
        ⟨hchain, held, hheld, hcarries⟩ | ⟨hchain, err, herr, hkind⟩
      · rw [hheld]
        refine ⟨by simp [pure, Except.pure], ⟨fun _ => hchain, fun _ => ⟨_, rfl⟩⟩, ?_,
          by simp [pure, Except.pure]⟩
        intro g hg
        obtain rfl := Option.some.inj (Except.ok.inj hg)
        exact merges_of_carries hchain hcarries
      · rw [herr]
        refine ⟨by simp, by simpa using hchain, by simp, ?_⟩
        intro err' herr'
        obtain rfl := Except.error.inj herr'
        exact hkind

end Chain

end Filter

/-- A picture that turns in and, after a while, out again, in one frame. -/
def turnInOut : Timeline Float :=
  (Timeline.empty ⟨"picture", .image, 0.0, 0.0, 320, 180, 1280, 720⟩).addAll
    [.make "rotate" .exit 0.5 2.0,
      (Descriptor.make "rotate" .entrance 0.5 0.0).set "pad" (.bool true)]

/-- The two filters of a picture that turns in and out can be chained. The size
of the frame, which only the first gives, stays in the merged filter. -/
theorem Filter.chain_outcome_turnInOut :
    ∃ fs g, turnInOut.filters = .ok fs ∧ Filter.chain rotateGroup fs = .ok (some g) ∧
      Filter.Chainable (Filter.inOrder fs) ∧ g.Merges (Filter.inOrder fs) := by
  obtain ⟨fs, hfs, hchain⟩ := exists_of_toOption_any (x := turnInOut.filters)
    (p := fun fs => (Filter.chain rotateGroup fs).toOption.any Option.isSome) (by decide +kernel)
  obtain ⟨merged, hmerged, hsome⟩ := exists_of_toOption_any hchain
  obtain ⟨g, rfl⟩ := Option.isSome_iff_exists.1 hsome
  obtain ⟨-, hchainable, hmerges, -⟩ := Filter.chain_outcome rotateGroup fs
  exact ⟨fs, g, hfs, hmerged, (hchainable.1 ⟨g, hmerged⟩).2, hmerges g hmerged⟩

end Tween
