/-
What the filters of a group mean once they are chained. The option of a chain
is a nest of gates (`nest`): each filter goes into the one fallback that is open
in the one before, at the end of its gate (`Continues.spliced_eq_nest`), so a
chain of any length has the nest of its tracks (`chainOptions_nest`). Read at a
time, the nest has the value of the track that governs the time (`eval_nest`).
-/
import Mathlib.Data.List.Chain
import Tween.Proofs.Double.Hundredths
import Tween.Proofs.Links

namespace Tween

variable {α : Type} [Scalar α]

/-! ## The governing track -/

/-- The track at an index is not passed over at a time: its window has not
closed, or the next one has not opened, or there is no next one. -/
def Stops (trs : List (Track α)) (t : α) (i : Nat) : Prop :=
  ∃ a, trs[i]? = some a ∧
    (i + 1 = trs.length ∨ t ≤ a.closing ∨ ∃ b, trs[i + 1]? = some b ∧ t ≤ b.opening)

/-- The track at an index is the first that is not passed over. -/
def Governs (trs : List (Track α)) (t : α) (i : Nat) : Prop :=
  Stops trs t i ∧ ∀ j < i, ¬ Stops trs t j

theorem stops_cons_succ {a : Track α} {trs : List (Track α)} {t : α} {i : Nat} :
    Stops (a :: trs) t (i + 1) ↔ Stops trs t i := by
  simp [Stops]

theorem governs_cons_succ {a : Track α} {trs : List (Track α)} {t : α} {i : Nat} :
    Governs (a :: trs) t (i + 1) ↔ ¬ Stops (a :: trs) t 0 ∧ Governs trs t i := by
  constructor
  · rintro ⟨hi, hlt⟩
    refine ⟨hlt 0 (by omega), stops_cons_succ.1 hi, ?_⟩
    intro j hj hstop
    exact hlt (j + 1) (by omega) (stops_cons_succ.2 hstop)
  · rintro ⟨h0, hi, hlt⟩
    refine ⟨stops_cons_succ.2 hi, ?_⟩
    intro j hj hstop
    cases j with
    | zero => exact h0 hstop
    | succ j => exact hlt j (by omega) (stops_cons_succ.1 hstop)

theorem exists_governs (a : Track α) (trs : List (Track α)) (t : α) :
    ∃ i, Governs (a :: trs) t i := by
  induction trs generalizing a with
  | nil => exact ⟨0, ⟨a, rfl, .inl rfl⟩, by simp⟩
  | cons b trs ih =>
    by_cases h0 : Stops (a :: b :: trs) t 0
    · exact ⟨0, h0, by simp⟩
    · obtain ⟨i, hi⟩ := ih b
      exact ⟨i + 1, governs_cons_succ.2 ⟨h0, hi⟩⟩

/-! ## Nests of gates -/

/-- The option of a chain: the gate of each track around those of the later
ones, behind a seam that holds the earlier value until the later window
opens. -/
def nest (a : Track α) : List (Track α) → Expr α
  | [] => a.gated (.elseSlot (.const a.after))
  | b :: rest => a.gated (Filter.seam b.opening a.after (nest b rest))

omit [Scalar α] in
theorem fillElse_gated {a : Track α} (hclosed : a.inside.IsClosed) (outside e : Expr α) :
    (a.gated outside).fillElse e = a.gated (outside.fillElse e) := by
  have hinside := Expr.fillElse_of_closed e hclosed
  unfold Expr.fillElse at hinside ⊢
  simp [Track.gated, Expr.ifLt, Expr.mapSlots, hinside]

omit [Scalar α] in
theorem collapseElse_gated {a : Track α} (hclosed : a.inside.IsClosed) (outside : Expr α) :
    (a.gated outside).collapseElse = a.gated outside.collapseElse := by
  simp [Track.gated, Expr.ifLt, Expr.collapseElse, Expr.collapseElse_of_closed hclosed]

section Value

variable [OrderedScalar α]

theorem eval_gated {a : Track α} {t : α} (outside : Expr α) (ht : IsNumber t)
    (ho : IsNumber a.opening) :
    (a.gated outside).eval t =
      if t < a.opening then .ok a.before
      else if t ≤ a.closing then a.inside.eval t
      else outside.eval t := by
  by_cases hlt : t < a.opening
  · simp [Track.gated, Expr.ifLt, Expr.eval, Relation.holds, hlt, bind, Except.bind]
  · have hle : a.opening ≤ t := le_of_not_lt ht ho hlt
    simp [Track.gated, Expr.ifLt, Expr.eval, Relation.holds, hlt, hle, bind, Except.bind]

omit [OrderedScalar α] in
theorem eval_seam (opening hold t : α) (successor : Expr α) :
    (Filter.seam opening hold successor).eval t =
      if t ≤ opening then .ok hold else successor.eval t := by
  rw [Filter.seam_eq]
  by_cases hle : t ≤ opening
  · simp [Expr.ifLe, Expr.eval, Relation.holds, hle, bind, Except.bind]
  · simp [Expr.ifLe, Expr.eval, Relation.holds, hle, bind, Except.bind]

/-- **A nest has the value of the track that governs the time.** -/
theorem eval_nest {a b : Track α} {trs : List (Track α)} {t : α} {i : Nat} (ht : IsNumber t)
    (hwindow : ∀ c ∈ a :: trs, c.inside.IsClosed ∧ c.opening ≤ c.closing)
    (hi : Governs (a :: trs) t i) (hb : (a :: trs)[i]? = some b) :
    (nest a trs).collapseElse.eval t = b.valueAt t := by
  -- The first gate passes a time on exactly if the first track is passed over.
  induction trs generalizing a i with
  | nil =>
    obtain ⟨hclosed, hle⟩ := hwindow a (by simp)
    obtain rfl : a = b := by
      cases i with
      | zero => simpa using hb
      | succ i => simp at hb
    unfold nest
    rw [collapseElse_gated hclosed, eval_gated _ ht (OrderedScalar.number_left hle)]
    rfl
  | cons c trs ih =>
    obtain ⟨hclosed, hle⟩ := hwindow a (by simp)
    have hvalue : (nest a (c :: trs)).collapseElse.eval t =
        if t < a.opening then .ok a.before
        else if t ≤ a.closing then a.inside.eval t
        else if t ≤ c.opening then .ok a.after
        else (nest c trs).collapseElse.eval t := by
      simp only [nest]
      rw [collapseElse_gated hclosed, eval_gated _ ht (OrderedScalar.number_left hle)]
      exact congrArg _ (congrArg _ (eval_seam _ _ _ _))
    rw [hvalue]
    cases i with
    | zero =>
      obtain rfl : a = b := by simpa using hb
      obtain ⟨a', ha', hstop⟩ := hi.1
      obtain rfl : a = a' := by simpa using ha'
      have hstop : t ≤ a.closing ∨ t ≤ c.opening := by simpa using hstop
      unfold Track.valueAt
      by_cases hclose : t ≤ a.closing
      · simp only [hclose, if_true]
      · simp only [hclose, hstop.resolve_left hclose, if_true]
    | succ i =>
      obtain ⟨h0, hrest⟩ := governs_cons_succ.1 hi
      have hclose : ¬ t ≤ a.closing := fun h => h0 ⟨a, rfl, .inr (.inl h)⟩
      have hopen : ¬ t ≤ c.opening := fun h => h0 ⟨a, rfl, .inr (.inr ⟨c, rfl, h⟩)⟩
      have hbefore : ¬ t < a.opening := fun h =>
        hclose (OrderedScalar.le_trans (le_of_lt h) hle)
      simp only [hbefore, hclose, hopen, if_false]
      exact ih (fun d hd => hwindow d (List.mem_cons_of_mem _ hd)) hrest (by simpa using hb)

end Value

/-! ## Chains -/

namespace Filter

/-- Windows that may follow each other: the later one does not open before the
earlier one has closed, up to the tolerance. -/
def Accepts (a b : Track α) : Prop := ¬ b.opening + windowTolerance < a.closing

/-- Links behind a track, each with the gate of a track of its own, make the nest
of these tracks, and every window may follow the one before. -/
theorem Continues.spliced_eq_nest {key : String} {prev : Window α} {fs : List (Filter α)}
    {links : List (Link α)} {a : Track α} {trs : List (Track α)}
    (h : Continues key prev fs links) (hhold : prev.holds.get? key = some a.after)
    (hfinish : prev.finish = a.closing)
    (hfs : List.Forall₂ (fun f tr => f.Follows key tr) fs trs)
    (hclosed : ∀ b ∈ a :: trs, b.inside.IsClosed) :
    (nest a []).spliced links = nest a trs ∧ List.IsChain Accepts (a :: trs) := by
  induction h generalizing a trs with
  | done =>
    cases hfs
    exact ⟨rfl, .singleton a⟩
  | @next prev w _ l _ links hlink _ ih =>
    cases hfs with
    | @cons _ c _ trs hc hfs =>
      obtain ⟨w', hw', hopen, hclose, hafter⟩ := hc.window
      obtain rfl : w = w' := Option.some.inj (hlink.window.symm.trans hw')
      have hhold' : l.hold = a.after := Option.some.inj (hlink.hold.symm.trans hhold)
      have hopen' : l.opening = c.opening := hlink.opening.symm.trans hopen
      have hbody : l.body = nest c [] :=
        OptionValue.animated.inj (Option.some.inj (hlink.body.symm.trans hc.option))
      obtain ⟨hnest, hchain⟩ := ih hafter hclose hfs fun b hb =>
        hclosed b (List.mem_cons_of_mem _ hb)
      refine ⟨?_, ?_⟩
      · rw [Expr.spliced, hbody, hnest, l.fillElse_seam, hhold', hopen']
        exact fillElse_gated (hclosed a List.mem_cons_self) _ _
      · rw [List.isChain_cons_cons]
        refine ⟨?_, hchain⟩
        unfold Accepts
        rw [← hopen, ← hfinish]
        exact hlink.clear

/-- **The option of a chain is the nest of its tracks**, and every window of
it may follow the one before. -/
theorem chainOptions_nest {family key : String} {held held' : Table (OptionValue α)}
    {prev : Window α} {rest : List (Filter α)} {a : Track α} {trs : List (Track α)}
    (h : chainOptions family held prev rest = .ok held')
    (hheld : held.get? key = some (.animated (nest a [])))
    (hhold : prev.holds.get? key = some a.after) (hfinish : prev.finish = a.closing)
    (hrest : List.Forall₂ (fun f tr => f.Follows key tr) rest trs)
    (hclosed : ∀ b ∈ a :: trs, b.inside.IsClosed) :
    held'.get? key = some (.animated (nest a trs)) ∧ List.IsChain Accepts (a :: trs) := by
  obtain ⟨links, hcontinues, hget⟩ := chainOptions_spliced h hheld
  obtain ⟨hnest, hchain⟩ := hcontinues.spliced_eq_nest hhold hfinish hrest hclosed
  exact ⟨hnest ▸ hget, hchain⟩

/-- A merged filter has the collapsed options of a chain that starts with the
first filter in order. A lone filter is a chain of one. -/
theorem exists_chainOptions {family : String} {fs : List (Filter α)} {g : Filter α}
    (hwindow : ∀ f ∈ fs, ∃ w, f.window = some w)
    (h : chain family fs = .ok (some g) ∨ ∃ f, fs = [f] ∧ g = f.finalized) :
    ∃ first rest w options, inOrder fs = first :: rest ∧ first.window = some w ∧
      chainOptions family first.options w rest = .ok options ∧
      ∀ key, g.options.get? key = (options.get? key).map finalOption := by
  rcases h with h | ⟨f, rfl, rfl⟩
  · exact exists_of_chain h
  · obtain ⟨w, hw⟩ := hwindow f (by simp)
    exact ⟨f, [], w, f.options, inOrder_singleton f, hw, rfl, fun key => get?_finalized⟩

end Filter

/-! ## Tracks in time -/

/-- The track of a checked animation: nothing is open inside its window, which
starts at a finite time and is longer than the tolerance. -/
structure Track.Sound (a : Track α) : Prop where
  inside : a.inside.IsClosed
  opening : Scalar.isFinite a.opening = true
  length : ∃ time, windowTolerance ≤ time ∧ a.closing = a.opening + time

section Order

variable [WindowScalar α] {a b : Track α} {trs : List (Track α)} {t : α} {i j : Nat}

theorem Track.Sound.opening_le_closing (h : a.Sound) : a.opening ≤ a.closing := by
  obtain ⟨time, htime, hclosing⟩ := h.length
  rw [hclosing]
  exact WindowScalar.le_add h.opening
    (OrderedScalar.le_trans WindowScalar.zero_le_tolerance htime)

theorem Track.Sound.valueAt_after (ha : a.Sound) (h : a.closing < t) :
    a.valueAt t = .ok a.after := by
  have hbefore : ¬ t < a.opening := fun hopen =>
    not_le_of_lt h (OrderedScalar.le_trans (le_of_lt hopen) ha.opening_le_closing)
  unfold valueAt
  rw [if_neg hbefore, if_neg (not_le_of_lt h)]

theorem closing_le_of_accepts (ha : a.Sound) (hb : b.Sound) (h : Filter.Accepts a b) :
    a.closing ≤ b.closing := by
  obtain ⟨time, htime, hclosing⟩ := hb.length
  have hnumber : IsNumber (b.opening + windowTolerance) :=
    OrderedScalar.number_right
      (WindowScalar.le_add hb.opening WindowScalar.zero_le_tolerance)
  have hle : a.closing ≤ b.opening + windowTolerance :=
    le_of_not_lt hnumber (OrderedScalar.number_right ha.opening_le_closing) h
  rw [hclosing]
  exact OrderedScalar.le_trans hle (WindowScalar.add_le_add hb.opening htime)

theorem pairwise_closing (hsound : ∀ c ∈ trs, c.Sound) (h : List.IsChain Filter.Accepts trs) :
    trs.Pairwise (fun a b => a.closing ≤ b.closing) := by
  have hchain : List.IsChain (fun a b : Track α => a.closing ≤ b.closing) trs :=
    h.imp_of_mem_imp fun a b ha hb => closing_le_of_accepts (hsound a ha) (hsound b hb)
  have : IsTrans (Track α) (fun a b => a.closing ≤ b.closing) :=
    ⟨fun _ _ _ => OrderedScalar.le_trans⟩
  exact List.isChain_iff_pairwise.1 hchain

theorem governs_of_closing_lt (hsound : ∀ c ∈ trs, c.Sound) (h : List.IsChain Filter.Accepts trs)
    (ha : trs[i]? = some a) (hlt : a.closing < t) (hstop : Stops trs t i) : Governs trs t i := by
  have hpair := pairwise_closing hsound h
  -- Windows close in order, so with this one all before it have closed.
  have hpassed : ∀ k c, k ≤ i → trs[k]? = some c → ¬ t ≤ c.closing := by
    intro k c hk hc hle
    refine not_le_of_lt hlt (OrderedScalar.le_trans hle ?_)
    rcases Nat.lt_or_eq_of_le hk with hk | rfl
    · obtain ⟨hkl, rfl⟩ := List.getElem?_eq_some_iff.1 hc
      obtain ⟨hil, rfl⟩ := List.getElem?_eq_some_iff.1 ha
      exact List.pairwise_iff_getElem.1 hpair k i hkl hil hk
    · obtain rfl : a = c := Option.some.inj (ha ▸ hc)
      exact OrderedScalar.number_left (le_of_lt hlt)
  refine ⟨hstop, ?_⟩
  intro j hj hj'
  obtain ⟨c, hc, hlast | hclose | ⟨d, hd, hopen⟩⟩ := hj'
  · have hil := (List.getElem?_eq_some_iff.1 ha).1
    omega
  · exact hpassed j c (by omega) hc hclose
  · have hd' := hsound d (List.mem_of_getElem? hd)
    exact hpassed (j + 1) d (by omega) hd
      (OrderedScalar.le_trans hopen hd'.opening_le_closing)

theorem nest_value (hsound : ∀ c ∈ a :: trs, c.Sound) (ht : IsNumber t)
    (hi : Governs (a :: trs) t i) (hb : (a :: trs)[i]? = some b) :
    (nest a trs).collapseElse.eval t = b.valueAt t :=
  eval_nest ht (fun c hc => ⟨(hsound c hc).inside, (hsound c hc).opening_le_closing⟩) hi hb

theorem nest_value_before (hsound : ∀ c ∈ a :: trs, c.Sound) (ht : IsNumber t)
    (hlt : t < a.opening) : (nest a trs).collapseElse.eval t = .ok a.before := by
  have hle : t ≤ a.closing :=
    OrderedScalar.le_trans (le_of_lt hlt) (hsound a (by simp)).opening_le_closing
  have hgoverns : Governs (a :: trs) t 0 := ⟨⟨a, rfl, .inr (.inl hle)⟩, by simp⟩
  rw [nest_value hsound ht hgoverns rfl, Track.valueAt_before hlt]

theorem nest_value_after (hsound : ∀ c ∈ a :: trs, c.Sound)
    (h : List.IsChain Filter.Accepts (a :: trs)) (hb : (a :: trs)[i]? = some b)
    (hlt : b.closing < t) (hstop : Stops (a :: trs) t i) :
    (nest a trs).collapseElse.eval t = .ok b.after := by
  have ht : IsNumber t := OrderedScalar.number_right (le_of_lt hlt)
  rw [nest_value hsound ht (governs_of_closing_lt hsound h hb hlt hstop) hb,
    (hsound b (List.mem_of_getElem? hb)).valueAt_after hlt]

end Order

/-! ## The value of a merged filter -/

section Denotation

omit [Scalar α] in
theorem exists_forall₂ {β : Type} {R : α → β → Prop} {p : β → Prop} {l : List α}
    (h : ∀ a ∈ l, ∃ b, R a b ∧ p b) : ∃ m, List.Forall₂ R l m ∧ ∀ b ∈ m, p b := by
  induction l with
  | nil => exact ⟨[], .nil, by simp⟩
  | cons a l ih =>
    obtain ⟨b, hb, hp⟩ := h a (by simp)
    obtain ⟨m, hm, hps⟩ := ih fun a' ha' => h a' (by simp [ha'])
    exact ⟨b :: m, .cons hb hm, List.forall_mem_cons.2 ⟨hp, hps⟩⟩

variable [WindowScalar α]

theorem exists_track {s : Stage} {e : Element α} {f f' : Filter α} {n n' : Node α} {key : String}
    {y : Expr α} (hf : n.toFilter e = .ok f) (hin : f.isIn s.group = true)
    (hf' : n'.toFilter e = .ok f') (hin' : f'.isIn s.group = true)
    (hy : f'.options.get? key = some (.animated y)) :
    ∃ tr : Track α, f.Follows key tr ∧ tr.Sound := by
  obtain ⟨a, ha, haf⟩ := Node.toFilter_eq_ok.1 hf
  obtain ⟨a', -, haf'⟩ := Node.toFilter_eq_ok.1 hf'
  have hfits := Stage.fits_of_isIn haf hin
  have hkey : key ∈ s.tracked := by
    by_contra hkey
    obtain ⟨x, hx, -⟩ := (Stage.fits_of_isIn haf' hin').fixed key _ hkey hy
    cases hx
  obtain ⟨tr, hfollows, hclosed⟩ := hfits.follows key hkey
  obtain ⟨w, hw, hdelay, htime⟩ := hfits.window
  obtain ⟨w', hw', hopen, hclose, -⟩ := hfollows.window
  obtain rfl : w = w' := Option.some.inj (hw ▸ hw')
  obtain ⟨hfinite, hlong⟩ := Descriptor.normalize_window ha
  refine ⟨tr, hfollows, hclosed, ?_, w.time, ?_, ?_⟩
  · rw [← hopen, hdelay]
    exact hfinite
  · rw [htime]
    exact hlong
  · rw [← hclose, ← hopen]
    rfl

/-- The option of a merged filter is the nest of the tracks of its filters,
which are sound and may follow each other in order. -/
theorem exists_nest {s : Stage} {e : Element α} {fs : List (Filter α)} {g : Filter α}
    {family key : String} (hbuilt : ∀ f ∈ fs, ∃ n : Node α, n.toFilter e = .ok f)
    (hstage : ∀ f ∈ fs, f.isIn s.group = true)
    (hmerged : Filter.chain family fs = .ok (some g) ∨ ∃ f, fs = [f] ∧ g = f.finalized)
    (hkey : ∃ f ∈ fs, ∃ y, f.options.get? key = some (.animated y)) :
    ∃ a trs, g.options.get? key = some (.animated (nest a trs).collapseElse) ∧
      List.Forall₂ (fun f tr => f.Follows key tr) (Filter.inOrder fs) (a :: trs) ∧
      (∀ c ∈ a :: trs, c.Sound) ∧ List.IsChain Filter.Accepts (a :: trs) := by
  obtain ⟨f', hf', y, hy⟩ := hkey
  obtain ⟨n', hn'⟩ := hbuilt f' hf'
  have htrack : ∀ f ∈ fs, ∃ tr : Track α, f.Follows key tr ∧ tr.Sound := by
    intro f hf
    obtain ⟨n, hn⟩ := hbuilt f hf
    exact exists_track hn (hstage f hf) hn' (hstage f' hf') hy
  have hwindow : ∀ f ∈ fs, ∃ w, f.window = some w := by
    intro f hf
    obtain ⟨tr, hfollows, -⟩ := htrack f hf
    obtain ⟨w, hw, -⟩ := hfollows.window
    exact ⟨w, hw⟩
  obtain ⟨first, rest, w, options, horder, hw, hoptions, hget⟩ :=
    Filter.exists_chainOptions hwindow hmerged
  obtain ⟨trs, htrs, hsound⟩ := exists_forall₂ (l := Filter.inOrder fs)
    fun f hf => htrack f (Filter.mem_inOrder.1 hf)
  rw [horder] at htrs
  cases htrs with
  | @cons _ a _ trs hfirst hrest =>
    obtain ⟨w', hw', -, hclose, hafter⟩ := hfirst.window
    obtain rfl : w = w' := Option.some.inj (hw ▸ hw')
    have hclosed : ∀ b ∈ a :: trs, b.inside.IsClosed := fun b hb => (hsound b hb).inside
    have hstart : first.options.get? key = some (.animated (nest a [])) := hfirst.option
    obtain ⟨hnest, hchain⟩ := Filter.chainOptions_nest hoptions hstart hafter hclose hrest hclosed
    refine ⟨a, trs, ?_, horder ▸ .cons hfirst hrest, hsound, hchain⟩
    rw [hget key, hnest]
    rfl

/-- **What a merged filter means.** Take filters that were built for one
element and belong to one stage, and an option animated in them. Once they are
merged, the option has at every time the value of one of their tracks, in the
order of the chain: of the first whose window has not closed, or whose
successor has not opened. Before the first window that is its value before, in
a gap the value held from the window before it, and after the last window the
value held from there. -/
theorem merged_value {s : Stage} {e : Element α} {fs : List (Filter α)} {g : Filter α}
    {family key : String} (hbuilt : ∀ f ∈ fs, ∃ n : Node α, n.toFilter e = .ok f)
    (hstage : ∀ f ∈ fs, f.isIn s.group = true)
    (hmerged : Filter.chain family fs = .ok (some g) ∨ ∃ f, fs = [f] ∧ g = f.finalized)
    (hkey : ∃ f ∈ fs, ∃ y, f.options.get? key = some (.animated y)) :
    ∃ x trs, g.options.get? key = some (.animated x) ∧
      List.Forall₂ (fun f tr => f.Follows key tr) (Filter.inOrder fs) trs ∧
      ∀ t, IsNumber t →
        (∃ v, x.eval t = .ok v) ∧
        (∃ i a, Governs trs t i ∧ trs[i]? = some a ∧ x.eval t = a.valueAt t) ∧
        (∀ a, trs[0]? = some a → t < a.opening → x.eval t = .ok a.before) ∧
        (∀ i a b, trs[i]? = some a → trs[i + 1]? = some b → a.closing < t → t ≤ b.opening →
          x.eval t = .ok a.after) ∧
        (∀ a, trs.getLast? = some a → a.closing < t → x.eval t = .ok a.after) := by
  obtain ⟨a, trs, hget, hfollows, hsound, hchain⟩ := exists_nest hbuilt hstage hmerged hkey
  refine ⟨(nest a trs).collapseElse, a :: trs, hget, hfollows, ?_⟩
  intro t ht
  obtain ⟨i, hi⟩ := exists_governs a trs t
  obtain ⟨b, hb, -⟩ := hi.1
  have hvalue := nest_value hsound ht hi hb
  refine ⟨?_, ⟨i, b, hi, hb, hvalue⟩, ?_, ?_, ?_⟩
  · rw [hvalue]
    exact Track.valueAt_ok ((hsound b (List.mem_of_getElem? hb)).inside.eval_ok t)
  · intro c hc hlt
    obtain rfl : a = c := by simpa using hc
    exact nest_value_before hsound ht hlt
  · intro j c d hc hd hlt hle
    exact nest_value_after hsound hchain hc hlt ⟨c, hc, .inr (.inr ⟨d, hd, hle⟩)⟩
  · intro c hc hlt
    rw [List.getLast?_eq_getElem?] at hc
    exact nest_value_after hsound hchain hc hlt ⟨c, hc, .inl (by simp)⟩

end Denotation

/-- A picture that fades in and, two seconds later, out again. -/
def fadeInOut : Timeline Float :=
  (Timeline.empty ⟨"picture", .image, 0.0, 0.0, 320, 180, 1280, 720⟩).addAll
    [.make "alpha" .entrance 0.5 0.0, .make "alpha" .exit 0.5 2.0]

/-- Both windows are chained into one option, which has a value at every time. -/
theorem merged_value_fadeInOut :
    ∃ fs g x, fadeInOut.filters = .ok fs ∧ Filter.chain alphaGroup fs = .ok (some g) ∧
      g.options.get? "alpha" = some (.animated x) ∧ ∀ t, IsNumber t → ∃ v, x.eval t = .ok v := by
  obtain ⟨fs, hfs, hchecks⟩ := exists_of_toOption_any (x := fadeInOut.filters)
    (p := fun fs => fs.all (·.isIn Stage.alpha.group) && (fs.any (·.isIn Stage.alpha.group) &&
      (Filter.chain alphaGroup fs).toOption.any Option.isSome)) (by decide +kernel)
  simp only [Bool.and_eq_true, List.all_eq_true, List.any_eq_true] at hchecks
  obtain ⟨hstage, ⟨f, hf, hin⟩, hchain⟩ := hchecks
  obtain ⟨merged, hmerged, hsome⟩ := exists_of_toOption_any hchain
  obtain ⟨g, rfl⟩ := Option.isSome_iff_exists.1 hsome
  have hbuilt : ∀ f ∈ fs, ∃ n : Node Float, n.toFilter fadeInOut.element = .ok f := by
    intro f hf
    obtain ⟨n, -, hn⟩ := exists_of_mem_mapM hfs hf
    exact ⟨n, hn⟩
  have hkey : ∃ f ∈ fs, ∃ y, f.options.get? "alpha" = some (.animated y) := by
    obtain ⟨n, hn⟩ := hbuilt f hf
    obtain ⟨a, -, ha⟩ := Node.toFilter_eq_ok.1 hn
    obtain ⟨tr, hfollows, -⟩ :=
      (Stage.fits_of_isIn ha hin).follows "alpha" (by simp [Stage.tracked])
    exact ⟨f, hf, _, hfollows.option⟩
  obtain ⟨x, trs, hx, -, hvalue⟩ := merged_value hbuilt hstage (.inl hmerged) hkey
  exact ⟨fs, g, x, hfs, hmerged, hx, fun t ht => (hvalue t ht).1⟩

end Tween
