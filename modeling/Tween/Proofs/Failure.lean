/-
When a timeline cannot be compiled. Filters of one stage agree on everything
that could keep them apart: on which options are animated, and on the others
(`Stage.Holds`). So a chain of them fails in one way only, where a window opens
before the one it follows has closed (`chainOptions_outcome`), and so does a
timeline whose animations all have filters (`compile_outcome`).
-/
import Tween.Proofs.Blocks
import Tween.Proofs.Double.Hundredths
import Tween.Proofs.Union

namespace Tween

variable {α : Type} [Scalar α]

/-! ## Options of a chain -/

namespace Expr

omit [Scalar α]

/-- What is put into the fallbacks of an expression stays open only where it is
open itself. -/
theorem isClosed_collapse_fillElse {e r : Expr α} (he : e.collapseElse.IsClosed)
    (hr : r.collapseElse.IsClosed) : (e.fillElse r).collapseElse.IsClosed := by
  unfold fillElse
  induction e with
  | const | time | linear => rfl
  | unary op a iha =>
    simp only [collapseElse, mapSlots, isClosed_unary] at he ⊢
    exact iha he
  | binary op l r ihl ihr =>
    simp only [collapseElse, mapSlots, isClosed_binary] at he ⊢
    exact ⟨ihl he.1, ihr he.2⟩
  | ifRel rel l r y n ihl ihr ihy ihn =>
    simp only [collapseElse, mapSlots, isClosed_ifRel] at he ⊢
    exact ⟨ihl he.1, ihr he.2.1, ihy he.2.2.1, ihn he.2.2.2⟩
  | ifBetween v lo hi y n ihv ihlo ihhi ihy ihn =>
    simp only [collapseElse, mapSlots, isClosed_ifBetween] at he ⊢
    exact ⟨ihv he.1, ihlo he.2.1, ihhi he.2.2.1, ihy he.2.2.2.1, ihn he.2.2.2.2⟩
  | elseSlot d => exact hr
  | delaySlot => exact absurd he not_isClosed_delaySlot

theorem isClosed_collapse_gated {a : Track α} (h : a.inside.IsClosed) :
    (a.gated (.elseSlot (.const a.after))).collapseElse.IsClosed := by
  simp [Track.gated, collapseElse, collapseElse_of_closed h, h, ifLt]

end Expr

/-- The options of a chain in a stage: those the stage animates are animated and
can be finished, and the others have the value every filter of the stage gives
them. -/
structure Stage.Holds (s : Stage) (e : Element α) (held : Table (OptionValue α)) : Prop where
  tracked : ∀ key ∈ s.tracked, ∃ x, held.get? key = some (.animated x) ∧ x.collapseElse.IsClosed
  fixed : ∀ key v, key ∉ s.tracked → held.get? key = some v →
    ∃ x, v = .fixed x ∧ s.setting? e key = some x

theorem Stage.Fits.holds {s : Stage} {e : Element α} {a : Animation α} {f : Filter α}
    (h : s.Fits e a f) : s.Holds e f.options := by
  refine ⟨?_, h.fixed⟩
  intro key hkey
  obtain ⟨tr, hfollows, hclosed⟩ := h.follows key hkey
  exact ⟨_, hfollows.option, Expr.isClosed_collapse_gated hclosed⟩

section

variable [WindowScalar α] {s : Stage} {e : Element α}
  {held : Table (OptionValue α)}

theorem setting?_agrees {key : String} {x : Setting α} (h : s.setting? e key = some x) :
    x.agrees x = true := by
  unfold Stage.setting? at h
  split at h
  all_goals cases h
  all_goals simp [Setting.agrees, WindowScalar.one_beq_one]

theorem isFinite_of_setting? {key : String} {x : α}
    (h : s.setting? e key = some (.number x)) : Scalar.isFinite x = true := by
  unfold Stage.setting? at h
  split at h
  all_goals cases h
  exact WindowScalar.isFinite_one

namespace Filter

/-- The filters of a stage can always be united: they animate the same options,
and give the others the values of the stage. -/
theorem union_ok (family : String) {next : Filter α} {a : Animation α}
    (hheld : s.Holds e held) (hnext : s.Fits e a next) :
    ∃ united, unionOptions family held next.options.entries = .ok united ∧ s.Holds e united := by
  rcases unionTable_outcome family held next.options with
    ⟨-, united, hunited, hget⟩ | ⟨⟨key, v, hv, hnot⟩, -⟩
  · refine ⟨united, hunited, ?_, ?_⟩
    · intro key hkey
      obtain ⟨x, hx, hclosed⟩ := hheld.tracked key hkey
      exact ⟨x, by rw [hget, hx, Option.some_or], hclosed⟩
    · intro key v hkey hv
      rw [hget] at hv
      rcases Option.or_eq_some_iff.1 hv with hv | ⟨-, hv⟩
      · exact hheld.fixed key v hkey hv
      · exact hnext.fixed key v hkey hv
  · refine absurd ?_ hnot
    by_cases hkey : key ∈ s.tracked
    · obtain ⟨x, hx, -⟩ := hheld.tracked key hkey
      obtain ⟨tr, hfollows, -⟩ := hnext.follows key hkey
      obtain rfl := Option.some.inj (hv.symm.trans hfollows.option)
      exact suits_animated.2 ⟨x, hx⟩
    · obtain ⟨x, rfl, hx⟩ := hnext.fixed key v hkey hv
      refine suits_fixed.2 ?_
      cases hget : held.get? key with
      | none => exact .inl rfl
      | some u =>
        obtain ⟨y, rfl, hy⟩ := hheld.fixed key u hkey hget
        obtain rfl : x = y := Option.some.inj (hx.symm.trans hy)
        exact .inr ⟨x, rfl, setting?_agrees hx⟩

omit [WindowScalar α] in
theorem extendOption_ok (family : String) (opening : α) {prev : Window α} {next : Filter α}
    {a : Animation α} {key : String} {v : OptionValue α} (hheld : s.Holds e held)
    (hnext : s.Fits e a next) (hholds : ∀ key ∈ s.tracked, ∃ x, prev.holds.get? key = some x)
    (hv : held.get? key = some v) :
    ∃ v', extendOption family prev opening next.options key v = .ok v' ∧
      ((key ∈ s.tracked ∧ ∃ x, v' = .animated x ∧ x.collapseElse.IsClosed) ∨
        (key ∉ s.tracked ∧ v' = v)) := by
  by_cases hkey : key ∈ s.tracked
  · obtain ⟨x, hx, hclosed⟩ := hheld.tracked key hkey
    obtain rfl : v = .animated x := Option.some.inj (hv.symm.trans hx)
    obtain ⟨tr, hfollows, hinside⟩ := hnext.follows key hkey
    obtain ⟨hold, hhold⟩ := hholds key hkey
    refine ⟨_, by simp only [extendOption, hfollows.option, hhold]; rfl,
      .inl ⟨hkey, _, rfl, Expr.isClosed_collapse_fillElse hclosed ?_⟩⟩
    rw [seam_eq]
    simpa [Expr.ifLe, Expr.collapseElse] using Expr.isClosed_collapse_gated hinside
  · obtain ⟨x, rfl, -⟩ := hheld.fixed key v hkey hv
    exact ⟨.fixed x, rfl, .inr ⟨hkey, rfl⟩⟩

/-- Where the window of one filter more does not open too early, the chain goes
on. -/
theorem extend_ok (family : String) {prev w : Window α} {next : Filter α} {a : Animation α}
    (hheld : s.Holds e held) (hnext : s.Fits e a next)
    (hholds : ∀ key ∈ s.tracked, ∃ x, prev.holds.get? key = some x)
    (hfree : ¬ w.delay + windowTolerance < prev.finish) :
    ∃ held', extend family held prev next w = .ok held' ∧ s.Holds e held' := by
  obtain ⟨united, hunited, hunitedHolds⟩ := union_ok family hheld hnext
  obtain ⟨held', hheld'⟩ := Table.traverse_ok_of_forall fun key v hv => by
    obtain ⟨v', hv', -⟩ := extendOption_ok family w.delay hunitedHolds hnext hholds hv
    exact ⟨v', hv'⟩
  refine ⟨held', by unfold extend; rw [if_neg hfree, hunited, ok_bind, hheld'], ?_, ?_⟩
  · intro key hkey
    obtain ⟨x, hx, -⟩ := hunitedHolds.tracked key hkey
    obtain ⟨v', hv', hcase⟩ := extendOption_ok family w.delay hunitedHolds hnext hholds hx
    obtain ⟨v'', hv'', hget⟩ := Table.get?_traverse_some hheld' hx
    obtain rfl : v' = v'' := Except.ok.inj (hv'.symm.trans hv'')
    rcases hcase with ⟨-, y, rfl, hclosed⟩ | ⟨hnot, -⟩
    · exact ⟨y, hget, hclosed⟩
    · exact absurd hkey hnot
  · intro key v' hkey hget
    cases hv : united.get? key with
    | none =>
      rw [Table.get?_traverse_none hheld' hv] at hget
      cases hget
    | some v =>
      obtain ⟨v'', hv'', hget'⟩ := Table.get?_traverse_some hheld' hv
      obtain ⟨x, rfl, hx⟩ := hunitedHolds.fixed key v hkey hv
      cases hv''
      exact ⟨x, Option.some.inj (hget.symm.trans hget'), hx⟩

end Filter

/-! ## Windows in order -/

/-- The window of an animation does not open before that of another has closed,
up to the tolerance. -/
def Animation.MayFollow (a b : Animation α) : Prop :=
  ¬ b.delay + windowTolerance < a.delay + a.time

/-- Whether an error says that two windows overlap. -/
def Error.IsOverlap : Error α → Prop
  | .overlap _ _ _ => True
  | _ => False

omit [WindowScalar α] in
theorem Stage.Fits.holds_get? {a : Animation α} {f : Filter α} {w : Window α} (h : s.Fits e a f)
    (hw : f.window = some w) : ∀ key ∈ s.tracked, ∃ x, w.holds.get? key = some x := by
  intro key hkey
  obtain ⟨tr, hfollows, -⟩ := h.follows key hkey
  obtain ⟨w', hw', -, -, hhold⟩ := hfollows.window
  obtain rfl : w = w' := Option.some.inj (hw ▸ hw')
  exact ⟨_, hhold⟩

/-- **A chain of filters of one stage** goes through exactly when no window
opens too early, and otherwise says that windows overlap. -/
theorem Filter.chainOptions_outcome (family : String) {prev : Window α} {p : Animation α}
    {as : List (Animation α)} {rest : List (Filter α)}
    (hrest : List.Forall₂ (fun a f => s.Fits e a f) as rest)
    (hheld : s.Holds e held) (hdelay : prev.delay = p.delay) (htime : prev.time = p.time)
    (hholds : ∀ key ∈ s.tracked, ∃ x, prev.holds.get? key = some x) :
    (List.IsChain Animation.MayFollow (p :: as) ∧
        ∃ held', chainOptions family held prev rest = .ok held' ∧ s.Holds e held') ∨
      (¬ List.IsChain Animation.MayFollow (p :: as) ∧
        ∃ err, err.IsOverlap ∧ chainOptions family held prev rest = .error err) := by
  -- Along the chain only the options held and the last window change: `Holds` is the invariant.
  induction hrest generalizing held prev p with
  | nil => exact .inl ⟨by simp, held, rfl, hheld⟩
  | @cons a next as rest hnext _ ih =>
    obtain ⟨w, hw, hwdelay, hwtime⟩ := hnext.window
    have hwindow : next.windowIn family = .ok w := windowIn_eq_ok.2 hw
    simp only [chainOptions, hwindow, ok_bind, List.isChain_cons_cons]
    by_cases hfree : Animation.MayFollow p a
    · have hfree' : ¬ w.delay + windowTolerance < prev.finish := by
        unfold Window.finish
        rw [hwdelay, hdelay, htime]
        exact hfree
      obtain ⟨held', hextend, hheld'⟩ := extend_ok family hheld hnext hholds hfree'
      rw [hextend, ok_bind]
      simpa [hfree] using ih hheld' hwdelay hwtime (hnext.holds_get? hw)
    · have hearly : w.delay + windowTolerance < prev.finish := by
        unfold Animation.MayFollow at hfree
        unfold Window.finish
        rw [hwdelay, hdelay, htime]
        exact not_not.1 hfree
      refine .inr ⟨fun h => hfree h.1, .overlap family w.delay prev.finish, trivial, ?_⟩
      unfold extend
      rw [if_pos hearly]
      rfl

/-! ## Finished filters -/

/-- The numbers among the options that do not change over time are finite. -/
def Filter.FiniteSettings (f : Filter α) : Prop :=
  ∀ key x, f.options.get? key = some (.fixed (.number x)) → Scalar.isFinite x = true

omit [WindowScalar α] in
theorem Filter.finiteSettings_iff {f : Filter α} :
    (f.options.entries.all fun p => match p.2 with
      | .fixed (.number x) => Scalar.isFinite x
      | _ => true) = true ↔ f.FiniteSettings := by
  rw [List.all_eq_true]
  constructor
  · intro h key x hx
    exact h (key, .fixed (.number x)) ((Table.mem_entries_iff _ _ _).2 hx)
  · rintro h ⟨key, v⟩ hv
    rw [Table.mem_entries_iff] at hv
    split
    · rename_i x hx
      exact h key x (hx ▸ hv)
    · rfl

instance (f : Filter α) : Decidable f.FiniteSettings :=
  decidable_of_iff _ Filter.finiteSettings_iff

omit [WindowScalar α] in
theorem toSpec_ok {f : Filter α} (hfinite : f.FiniteSettings)
    (hclosed : ∀ key x, f.options.get? key = some (.animated x) → x.IsClosed) :
    ∃ g, f.toSpec = .ok g := by
  have hjson : ∀ key v, f.options.get? key = some v → ∃ j, v.toJson f.clock key = .ok j := by
    intro key v hv
    cases v with
    | animated x =>
      obtain ⟨text, htext⟩ := (hclosed key x hv).render_ok f.clock
      exact ⟨.str text, by simp only [OptionValue.toJson, htext]⟩
    | fixed x =>
      cases x with
      | number x => exact ⟨.num x, by simp only [OptionValue.toJson, hfinite key x hv, if_true]⟩
      | text x => exact ⟨.str x, rfl⟩
  obtain ⟨options, hoptions⟩ := Table.traverse_ok_of_forall hjson
  exact ⟨⟨f.name, options⟩, by unfold Filter.toSpec; rw [hoptions]; rfl⟩

theorem Stage.Holds.toSpec_ok {options : Table (OptionValue α)} (h : s.Holds e options)
    {g : Filter α} (hg : ∀ key, g.options.get? key = (options.get? key).map Filter.finalOption) :
    ∃ spec, g.toSpec = .ok spec := by
  refine Tween.toSpec_ok ?_ ?_
  · intro key x hx
    rw [hg key] at hx
    obtain ⟨v, hv, hfinal⟩ := Option.map_eq_some_iff.1 hx
    cases v with
    | animated y => cases hfinal
    | fixed y =>
      cases hfinal
      by_cases hkey : key ∈ s.tracked
      · obtain ⟨y, hy, -⟩ := h.tracked key hkey
        rw [hv] at hy
        cases hy
      · obtain ⟨y, hy, hsetting⟩ := h.fixed key _ hkey hv
        cases hy
        exact isFinite_of_setting? hsetting
  · intro key x hx
    rw [hg key] at hx
    obtain ⟨v, hv, hfinal⟩ := Option.map_eq_some_iff.1 hx
    cases v with
    | fixed y => cases hfinal
    | animated y =>
      cases hfinal
      by_cases hkey : key ∈ s.tracked
      · obtain ⟨z, hz, hclosed⟩ := h.tracked key hkey
        obtain rfl : y = z := by
          rw [hv] at hz
          cases hz
          rfl
        exact hclosed
      · obtain ⟨z, hz, -⟩ := h.fixed key _ hkey hv
        cases hz

omit [Scalar α] [WindowScalar α] in
theorem Stage.text_of_scaleFilter {key : String} {v : OptionValue α}
    (hv : (scaleFilter : Filter α).options.get? key = some v) :
    ∃ text, v = .fixed (.text text) := by
  simp only [scaleFilter, Filter.get?_withText, Filter.plain, Table.get?_empty] at hv
  split at hv
  · exact ⟨_, (Option.some.inj hv).symm⟩
  · split at hv
    · exact ⟨_, (Option.some.inj hv).symm⟩
    · cases hv

omit [WindowScalar α] in
theorem scaleFilter_toSpec_ok : ∃ spec, (Stage.scaleFilter : Filter α).toSpec = .ok spec := by
  refine toSpec_ok ?_ ?_
  · intro key x hx
    obtain ⟨text, htext⟩ := Stage.text_of_scaleFilter hx
    cases htext
  · intro key x hx
    obtain ⟨text, htext⟩ := Stage.text_of_scaleFilter hx
    cases htext

/-! ## Stages -/

/-- What becomes of the filters of a stage, given the animations they were built
from in order. -/
theorem Stage.merged_outcome {as : List (Animation α)} {fs : List (Filter α)}
    (h : List.Forall₂ (fun a f => s.Fits e a f) as (Filter.inOrder fs)) :
    (List.IsChain Animation.MayFollow as ∧
        ∃ g, s.merged fs = .ok g ∧ ∀ f ∈ g, ∃ spec, f.toSpec = .ok spec) ∨
      (¬ List.IsChain Animation.MayFollow as ∧
        ∃ err, err.IsOverlap ∧ s.merged fs = .error err) := by
  unfold merged
  split
  · have hnil : as = [] := List.forall₂_nil_right_iff.1 h
    subst hnil
    exact .inl ⟨by simp, none, rfl, by simp⟩
  · rename_i f
    rw [Filter.inOrder_singleton] at h
    cases h with
    | @cons a _ _ _ hf hnil =>
      cases hnil
      refine .inl ⟨by simp, some f.finalized, rfl, ?_⟩
      intro g hg
      obtain rfl : g = f.finalized := by simpa using hg.symm
      exact hf.holds.toSpec_ok fun key => Filter.get?_finalized
  · unfold Filter.chain
    cases horder : Filter.inOrder fs with
    | nil =>
      rw [horder] at h
      have hnil : as = [] := List.forall₂_nil_right_iff.1 h
      subst hnil
      exact .inl ⟨by simp, none, rfl, by simp⟩
    | cons first rest =>
      rw [horder] at h
      cases h with
      | @cons a _ as _ hfirst hrest =>
        obtain ⟨w, hw, hdelay, htime⟩ := hfirst.window
        have hwindow : first.windowIn s.group = .ok w := Filter.windowIn_eq_ok.2 hw
        simp only [hwindow, ok_bind]
        rcases Filter.chainOptions_outcome s.group hrest hfirst.holds hdelay htime
            (hfirst.holds_get? hw) with
          ⟨hchain, options, hoptions, hholds⟩ | ⟨hchain, err, herr, hfail⟩
        · rw [hoptions, ok_bind]
          refine .inl ⟨hchain, _, rfl, ?_⟩
          intro g hg
          obtain rfl := Option.some.inj (Option.mem_def.1 hg)
          exact hholds.toSpec_ok fun key => Filter.get?_finalized
        · rw [hfail]
          exact .inr ⟨hchain, err, herr, rfl⟩

/-- What becomes of the block of a stage. -/
theorem Stage.block_outcome {as : List (Animation α)} {fs : List (Filter α)}
    (h : List.Forall₂ (fun a f => s.Fits e a f) as
      (Filter.inOrder (fs.filter fun f => f.isIn s.group))) :
    (List.IsChain Animation.MayFollow as ∧
        ∃ b, s.block fs = .ok b ∧ ∀ f ∈ b, ∃ spec, f.toSpec = .ok spec) ∨
      (¬ List.IsChain Animation.MayFollow as ∧
        ∃ err, err.IsOverlap ∧ s.block fs = .error err) := by
  unfold block
  rcases merged_outcome h with ⟨hchain, g, hg, hspec⟩ | ⟨hchain, err, herr, hfail⟩
  · rw [hg, ok_bind]
    refine .inl ⟨hchain, ?_⟩
    cases g with
    | none => exact ⟨[], rfl, by simp⟩
    | some g =>
      refine ⟨s.before ++ [g], rfl, ?_⟩
      intro f hf
      rcases List.mem_append.1 hf with hf | hf
      · cases s with
        | zoom =>
          obtain rfl : f = scaleFilter := by simpa [before] using hf
          exact scaleFilter_toSpec_ok
        | rotate | alpha | overlay => simp [before] at hf
      · obtain rfl : f = g := by simpa using hf
        exact hspec f rfl
  · rw [hfail]
    exact .inr ⟨hchain, err, herr, rfl⟩

/-! ## Timelines -/

/-- The animation of a node that can be read as one. -/
def Node.animation? (n : Node α) : Option (Animation α) := n.conf.normalize.toOption

/-- The animations of a stage in the order of the element's stay: those of its
exit after all others, and otherwise as they were added. -/
def Timeline.schedule (l : Timeline α) (s : Stage) : List (Animation α) :=
  let as := (l.family (some s)).nodes.filterMap Node.animation?
  as.filter (fun a => a.phase != .exit) ++ as.filter fun a => a.phase == .exit

/-- Some animation of a stage starts before the one it follows is over, by more
than the tolerance. -/
def Timeline.Overlaps (l : Timeline α) (s : Stage) : Prop :=
  ∃ i a b, (l.schedule s)[i]? = some a ∧ (l.schedule s)[i + 1]? = some b ∧
    b.delay + windowTolerance < a.delay + a.time

omit [WindowScalar α] in
theorem overlaps_iff {l : Timeline α} :
    l.Overlaps s ↔ ¬ List.IsChain Animation.MayFollow (l.schedule s) := by
  unfold Timeline.Overlaps Animation.MayFollow
  rw [List.isChain_iff_getElem]
  constructor
  · rintro ⟨i, a, b, ha, hb, hlt⟩ hchain
    obtain ⟨hi, rfl⟩ := List.getElem?_eq_some_iff.1 hb
    obtain ⟨hi', rfl⟩ := List.getElem?_eq_some_iff.1 ha
    exact hchain i hi hlt
  · intro hchain
    simp only [not_forall, not_not] at hchain
    obtain ⟨i, hi, hlt⟩ := hchain
    exact ⟨i, _, _, List.getElem?_eq_getElem (by omega), List.getElem?_eq_getElem hi, hlt⟩

omit [WindowScalar α] in
theorem fits_animations {ns : List (Node α)} {fs : List (Filter α)}
    (h : List.Forall₂ (fun n f => n.toFilter e = .ok f) ns fs)
    (hin : ∀ f ∈ fs, f.isIn s.group = true) :
    List.Forall₂ (fun a f => s.Fits e a f) (ns.filterMap Node.animation?) fs := by
  induction h with
  | nil => exact .nil
  | @cons n f ns fs hn _ ih =>
    obtain ⟨a, ha, haf⟩ := Node.toFilter_eq_ok.1 hn
    have hanimation : n.animation? = some a := by simp [Node.animation?, ha, Except.toOption]
    rw [List.filterMap_cons, hanimation]
    exact .cons (Stage.fits_of_isIn haf (hin f (by simp)))
      (ih fun f' hf' => hin f' (by simp [hf']))

omit [WindowScalar α] in
theorem Timeline.fits_schedule {l : Timeline α} {fs : List (Filter α)} (h : l.filters = .ok fs)
    (s : Stage) :
    List.Forall₂ (fun a f => s.Fits l.element a f) (l.schedule s)
      (Filter.inOrder (fs.filter fun f => f.isIn s.group)) := by
  have hfits := fits_animations (filters_eq_ok.1 (filters_family h (some s)))
    fun f hf => (List.mem_filter.1 hf).2
  have hexit : ∀ a f, s.Fits l.element a f → (a.phase == .exit) = f.isExit := by
    intro a f hf
    simp [Filter.isExit, hf.phase]
  refine List.rel_append (List.rel_filter (fun a f hf => ?_) hfits)
    (List.rel_filter (fun a f hf => Bool.eq_iff_iff.1 (hexit a f hf)) hfits)
  simp [bne, hexit a f hf]

omit [WindowScalar α] in
theorem Animation.option_of_fadeFilter {a : Animation α} {key : String} {v : OptionValue α}
    (h : a.fadeFilter.options.get? key = some v) :
    v ∈ [.fixed (.text a.phase.word), .fixed (.number a.delay), .fixed (.number a.time),
      .fixed (.number 1.0)] := by
  simp only [fadeFilter, Filter.get?_withNumber, Filter.get?_withText, Filter.plain,
    Table.get?_empty] at h
  repeat' split at h
  all_goals cases h
  all_goals simp

omit [WindowScalar α] in
theorem Animation.not_animated_fadeFilter {a : Animation α} {key : String} {x : Expr α} :
    a.fadeFilter.options.get? key ≠ some (.animated x) := by
  intro hx
  simpa using option_of_fadeFilter hx

omit [WindowScalar α] in
theorem toSpec_ok_of_fade {f : Filter α} {a : Animation α} (h : a.toFilter e = .ok f)
    (hfade : f.isIn fadeGroup = true) (hfinite : f.FiniteSettings) :
    ∃ spec, f.toSpec = .ok spec := by
  refine toSpec_ok hfinite ?_
  intro key x hx
  rw [Animation.eq_fadeFilter h hfade] at hx
  exact absurd hx Animation.not_animated_fadeFilter

omit [WindowScalar α] in
theorem fades_toSpec_ok {l : Timeline α} {fs : List (Filter α)} (hfs : l.filters = .ok fs)
    (h : ∀ n ∈ l.nodes, ∃ f, n.toFilter l.element = .ok f ∧ f.FiniteSettings) :
    ∀ f ∈ Timeline.fades fs, ∃ spec, f.toSpec = .ok spec := by
  intro f hf
  obtain ⟨hmem, hfade⟩ := List.mem_filter.1 hf
  obtain ⟨n, hn, hnf⟩ := exists_of_mem_mapM hfs hmem
  obtain ⟨f', hf', hfinite⟩ := h n hn
  obtain rfl : f = f' := Except.ok.inj (hnf.symm.trans hf')
  obtain ⟨a, -, haf⟩ := Node.toFilter_eq_ok.1 hnf
  exact toSpec_ok_of_fade haf hfade hfinite

/-- A timeline can be compiled if each of its animations has a filter, and none
opens too early. -/
theorem Timeline.exists_compile {l : Timeline α}
    (h : ∀ n ∈ l.nodes, ∃ f, n.toFilter l.element = .ok f ∧ f.FiniteSettings)
    (hchain : ∀ s, List.IsChain Animation.MayFollow (l.schedule s)) :
    ∃ specs, l.compile = .ok specs := by
  obtain ⟨fs, hfs⟩ : ∃ fs, l.filters = .ok fs := mapM_ok_of_forall fun n hn => by
    obtain ⟨f, hf, -⟩ := h n hn
    exact ⟨f, hf⟩
  have hstage : ∀ s, ∃ specs, stageSpecs fs s = .ok specs := by
    intro s
    rcases Stage.block_outcome (l.fits_schedule hfs s) with ⟨-, b, hb, hspec⟩ | ⟨hnot, -⟩
    · obtain ⟨specs, hspecs⟩ := mapM_ok_of_forall hspec
      exact ⟨specs, bind_eq_ok.2 ⟨b, hb, hspecs⟩⟩
    · exact absurd (hchain s) hnot
  obtain ⟨rotated, hrotated⟩ := hstage .rotate
  obtain ⟨zoomed, hzoomed⟩ := hstage .zoom
  obtain ⟨blended, hblended⟩ := hstage .alpha
  obtain ⟨placed, hplaced⟩ := hstage .overlay
  obtain ⟨faded, hfaded⟩ := mapM_ok_of_forall (fades_toSpec_ok hfs h)
  exact ⟨_, (compile_eq_ok hfs).2
    ⟨rotated, zoomed, blended, placed, faded, hrotated, hzoomed, hblended, hplaced, hfaded, rfl⟩⟩

/-- **When a timeline cannot be compiled.** If each of its animations has a
filter, and the numbers among the options of these are finite, compiling can
only fail because windows overlap. It does exactly if, for some stage, some
animation starts before the one it follows is over. -/
theorem compile_outcome {l : Timeline α}
    (h : ∀ n ∈ l.nodes, ∃ f, n.toFilter l.element = .ok f ∧ f.FiniteSettings) :
    ((∃ specs, l.compile = .ok specs) ∨
        ∃ family opening closing, l.compile = .error (.overlap family opening closing)) ∧
      ((∃ family opening closing, l.compile = .error (.overlap family opening closing)) ↔
        ∃ s, l.Overlaps s) := by
  obtain ⟨fs, hfs⟩ : ∃ fs, l.filters = .ok fs := mapM_ok_of_forall fun n hn => by
    obtain ⟨f, hf, -⟩ := h n hn
    exact ⟨f, hf⟩
  have hblocks := fun s => Stage.block_outcome (l.fits_schedule hfs s)
  -- Each stage is decided by itself, and the first that fails is the whole failure.
  have houtcome := mapM_outcome (l := Stage.all) fun s _ => (hblocks s).imp_left
    fun ⟨hchain, b, hb, _⟩ => ⟨hchain, b, hb⟩
  unfold Timeline.compile
  rw [Timeline.compose_eq hfs]
  rcases houtcome with ⟨hchain, bs, hbs⟩ | ⟨⟨s, -, hs⟩, err, herr, hfail⟩
  · have hspecs : ∀ f ∈ bs.flatten ++ Timeline.fades fs, ∃ spec, f.toSpec = .ok spec := by
      intro f hf
      rcases List.mem_append.1 hf with hf | hf
      · obtain ⟨b, hb, hfb⟩ := List.mem_flatten.1 hf
        obtain ⟨s, hs, hsb⟩ := exists_of_mem_mapM hbs hb
        rcases hblocks s with ⟨-, b', hb', hspec⟩ | ⟨hnot, -⟩
        · obtain rfl : b = b' := Except.ok.inj (hsb.symm.trans hb')
          exact hspec f hfb
        · exact absurd (hchain s hs) hnot
      · exact fades_toSpec_ok hfs h f hf
    obtain ⟨specs, hspecs⟩ := mapM_ok_of_forall hspecs
    simp only [hbs, ok_bind, pure, Except.pure, hspecs]
    refine ⟨.inl ⟨specs, rfl⟩, fun ⟨_, _, _, hcontra⟩ => (by cases hcontra), fun ⟨s, hs⟩ => ?_⟩
    have hmem : s ∈ Stage.all := by cases s <;> decide
    exact absurd (hchain s hmem) (overlaps_iff.1 hs)
  · rw [hfail]
    cases err with
    | overlap family opening closing =>
      exact ⟨.inr ⟨family, opening, closing, rfl⟩, fun _ => ⟨s, overlaps_iff.2 hs⟩,
        fun _ => ⟨family, opening, closing, rfl⟩⟩
    | unsupportedEase | invalid | unresolved | malformed | unreadable => exact absurd herr id

end

/-- A picture that begins to fade out before it has faded in. -/
def fadeOutEarly : Timeline Float :=
  (Timeline.empty ⟨"picture", .image, 0.0, 0.0, 320, 180, 1280, 720⟩).addAll
    [.make "alpha" .exit 0.5 0.5, .make "alpha" .entrance 1.0 0.0]

theorem compile_outcome_fadeOutEarly :
    (∃ family opening closing, fadeOutEarly.compile = .error (.overlap family opening closing)) ∧
      ∃ s, fadeOutEarly.Overlaps s := by
  have hnodes : ∀ n ∈ fadeOutEarly.nodes, ∃ f,
      n.toFilter fadeOutEarly.element = .ok f ∧ f.FiniteSettings := by
    intro n hn
    have hchecks : (fadeOutEarly.nodes.all fun n =>
        (n.toFilter fadeOutEarly.element).toOption.any fun f =>
          decide f.FiniteSettings) = true := by decide +kernel
    obtain ⟨f, hf, hfinite⟩ := exists_of_toOption_any (List.all_eq_true.1 hchecks n hn)
    exact ⟨f, hf, of_decide_eq_true hfinite⟩
  obtain ⟨hresult, hoverlaps⟩ := compile_outcome hnodes
  have hfails : fadeOutEarly.compile.toOption.isSome = false := by decide +kernel
  have herror := hresult.resolve_left fun ⟨specs, hspecs⟩ => by
    rw [hspecs] at hfails
    cases hfails
  exact ⟨herror, hoverlaps.1 herror⟩

end Tween
