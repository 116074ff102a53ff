/-
Which values a compiled option can have. An eased animation keeps its option
between its first and its last value (`Animation.track_between`). At every time
an option of a compiled timeline follows the track of one of the animations of
its stage, so it stays between the ends of all of them
(`Timeline.value_between_ends`).
-/
import Tween.Proofs.Curve
import Tween.Proofs.Failure
import Tween.Proofs.Families
import Tween.Proofs.Merge

namespace Tween

/-! ## Tracks of animations -/

section

variable {α : Type} [Scalar α]

namespace Filter

variable {f : Filter α} {key k s : String} {c first hold : α} {value : Expr α} {tr tr' : Track α}

theorem Follows.unique (h : f.Follows key tr) (h' : f.Follows key tr') : tr = tr' := by
  have hoption := h.option.symm.trans h'.option
  cases tr
  cases tr'
  simp_all [Track.gated, Expr.ifLt]

theorem Follows.withText (h : f.Follows key tr) (hne : key ≠ k) :
    (f.withText k s).Follows key tr :=
  ⟨by rw [get?_withText, if_neg hne]; exact h.option, h.window⟩

theorem Follows.withNumber (h : f.Follows key tr) (hne : key ≠ k) :
    (f.withNumber k c).Follows key tr :=
  ⟨by rw [get?_withNumber, if_neg hne]; exact h.option, h.window⟩

theorem follows_gatedFilter (a : Animation α) (group clock : String) :
    ((a.gatedFilter group clock (Table.ofList [(key, hold)])).withExpr key
      (a.gate first value hold)).Follows key (a.track first value hold) :=
  ⟨by simp; rfl, _, rfl, rfl, rfl, by simp [Table.ofList]; rfl⟩

end Filter

namespace Animation

variable {a : Animation α} {e : Element α} {f : Filter α} {key : String}

/-- The first and the last value of an option, as they are built: angles in
radians, and positions by their axes. -/
def ends (a : Animation α) (e : Element α) (key : String) : Except (Error α) (α × α) :=
  match a.kind with
  | .rotate => do
    let (first, last) ← a.scalarEndpoints
    pure (toRadians first, toRadians last)
  | .move => do
    let (first, last) ← a.pointEndpoints e.position
    pure (if key = "x" then (first.x, last.x) else (first.y, last.y))
  | _ => a.scalarEndpoints

/-- The track of an option between the ends of an animation. -/
def HasTrack (a : Animation α) (e : Element α) (key : String) (tr : Track α) : Prop :=
  ∃ first last unit value hold, a.ends e key = .ok (first, last) ∧
    a.windowValue first last unit = .ok (value, hold) ∧ tr = a.track first value hold

/-- The size of one authored unit, by which a rate is multiplied: angles are
authored in degrees. -/
def unit (a : Animation α) : α :=
  match a.kind with
  | .rotate => degree
  | _ => 1.0

/-- The track of an option over the window of an animation. -/
def trackOf (a : Animation α) (e : Element α) (key : String) : Except (Error α) (Track α) := do
  let (first, last) ← a.ends e key
  let (value, hold) ← a.windowValue first last a.unit
  pure (a.track first value hold)

theorem windowValue_eased (heased : a.continuous = false) (first last unit : α) :
    a.windowValue first last unit =
      .ok (a.ease.valueExpr first (last - first) a.time a.delay, last) := by
  unfold windowValue
  rw [heased]
  rfl

theorem trackOf_eq_ok {tr : Track α} : a.trackOf e key = .ok tr ↔
    ∃ first last, a.ends e key = .ok (first, last) ∧ ∃ value hold,
      a.windowValue first last a.unit = .ok (value, hold) ∧ tr = a.track first value hold := by
  unfold trackOf
  simp only [bind_eq_ok, pure_eq_ok, Prod.exists, eq_comm (a := tr)]

theorem HasTrack.of_trackOf {tr : Track α} (h : a.trackOf e key = .ok tr) :
    a.HasTrack e key tr := by
  obtain ⟨first, last, hends, value, hold, hvalue, htrack⟩ := trackOf_eq_ok.1 h
  exact ⟨first, last, a.unit, value, hold, hends, hvalue, htrack⟩

/-- A filter follows, in an option, the track of an animation. -/
def Tracks (a : Animation α) (e : Element α) (f : Filter α) (key : String) : Prop :=
  ∃ tr, a.trackOf e key = .ok tr ∧ f.Follows key tr

theorem alphaFilter_tracks (hk : a.kind = .alpha) (h : a.alphaFilter = .ok f) :
    a.Tracks e f "alpha" := by
  unfold alphaFilter at h
  simp only [bind_eq_ok, pure_eq_ok] at h
  obtain ⟨⟨first, last⟩, hends, ⟨value, hold⟩, hvalue, rfl⟩ := h
  refine ⟨_, trackOf_eq_ok.2 ⟨first, last, ?_, value, hold, ?_, rfl⟩,
    Filter.follows_gatedFilter a _ _⟩
  · unfold ends
    rw [hk]
    exact hends
  · unfold unit
    rw [hk]
    exact hvalue

theorem rotateFilter_tracks (hk : a.kind = .rotate) (h : a.rotateFilter = .ok f) :
    a.Tracks e f "a" := by
  unfold rotateFilter at h
  simp only [bind_eq_ok, pure_eq_ok] at h
  obtain ⟨⟨first, last⟩, hends, ⟨value, hold⟩, hvalue, rfl⟩ := h
  refine ⟨_, trackOf_eq_ok.2 ⟨toRadians first, toRadians last, ?_, value, hold, ?_, rfl⟩, ?_⟩
  · unfold ends
    rw [hk, hends]
    rfl
  · unfold unit
    rw [hk]
    exact hvalue
  · have hgated : Filter.Follows _ "a" (a.track (toRadians first) value hold) :=
      Filter.follows_gatedFilter a rotateGroup "t"
    have hbase := hgated.withText (k := "c") (s := "none") (by decide)
    split
    · exact (hbase.withText (by decide)).withText (by decide)
    · exact hbase

theorem zoomFilter_tracks (hk : a.kind = .zoom) (h : a.zoomFilter e = .ok f) :
    a.Tracks e f "z" := by
  unfold zoomFilter at h
  obtain ⟨⟨first, last⟩, hends, h⟩ := bind_eq_ok.1 h
  dsimp only at h
  split at h
  · cases h
  · simp only [bind_eq_ok, pure_eq_ok] at h
    obtain ⟨⟨value, hold⟩, hvalue, rfl⟩ := h
    refine ⟨_, trackOf_eq_ok.2 ⟨first, last, ?_, value, hold, ?_, rfl⟩, ?_⟩
    · unfold ends
      rw [hk]
      exact hends
    · unfold unit
      rw [hk]
      exact hvalue
    · exact ((((Filter.follows_gatedFilter a _ _).withText (by decide)).withText
        (by decide)).withNumber (by decide)).withText (by decide)

theorem overlayFilter_tracks (hk : a.kind = .move) (h : a.overlayFilter e = .ok f)
    (hkey : key = "x" ∨ key = "y") : a.Tracks e f key := by
  unfold overlayFilter at h
  simp only [bind_eq_ok, pure_eq_ok] at h
  obtain ⟨⟨first, last⟩, hends, ⟨valueX, holdX⟩, hvalueX, ⟨valueY, holdY⟩, hvalueY, rfl⟩ := h
  have hread : a.ends e key =
      .ok (if key = "x" then (first.x, last.x) else (first.y, last.y)) := by
    unfold ends
    rw [hk, hends]
    rfl
  have hunit : a.unit = 1.0 := by
    unfold unit
    rw [hk]
  rw [← hunit] at hvalueX hvalueY
  rcases hkey with rfl | rfl
  · exact ⟨_, trackOf_eq_ok.2 ⟨first.x, last.x, hread, valueX, holdX, hvalueX, rfl⟩,
      ⟨by simp; rfl, _, rfl, rfl, rfl, by simp [Table.ofList, Table.get?_insert]; rfl⟩⟩
  · exact ⟨_, trackOf_eq_ok.2 ⟨first.y, last.y, hread, valueY, holdY, hvalueY, rfl⟩,
      ⟨by simp; rfl, _, rfl, rfl, rfl, by simp [Table.ofList]; rfl⟩⟩

/-- **What an animation is turned into** follows, in every option its stage
animates, the track of the animation. -/
theorem toFilter_tracks {s : Stage} (h : a.toFilter e = .ok f) (hin : f.isIn s.group = true)
    (hkey : key ∈ s.tracked) : a.Tracks e f key := by
  have hstage : a.kind.stage? = some s :=
    groupOf_injective (Option.some.inj ((group_of_toFilter h).symm.trans (Stage.isIn_iff.1 hin)))
  unfold toFilter at h
  cases hk : a.kind with
  | fade | reveal =>
    rw [hk] at hstage
    cases hstage
  | alpha =>
    rw [hk] at h hstage
    cases hstage
    obtain rfl : key = "alpha" := by simpa [Stage.tracked] using hkey
    exact alphaFilter_tracks hk h
  | rotate =>
    rw [hk] at h hstage
    cases hstage
    obtain rfl : key = "a" := by simpa [Stage.tracked] using hkey
    exact rotateFilter_tracks hk h
  | zoom =>
    rw [hk] at h hstage
    cases hstage
    obtain rfl : key = "z" := by simpa [Stage.tracked] using hkey
    exact zoomFilter_tracks hk h
  | move =>
    rw [hk] at h hstage
    cases hstage
    exact overlayFilter_tracks hk h (by simpa [Stage.tracked] using hkey)

end Animation

/-! ## Filters of a stage -/

theorem Timeline.mem_schedule {l : Timeline α} {s : Stage} {a : Animation α} :
    a ∈ l.schedule s ↔ ∃ n ∈ l.nodes, n.isOf (some s) = true ∧ n.conf.normalize = .ok a := by
  have hsplit : a ∈ l.schedule s ↔ a ∈ (l.family (some s)).nodes.filterMap Node.animation? := by
    simp only [schedule, List.mem_append, List.mem_filter]
    by_cases hexit : a.phase = .exit
    · simp [hexit]
    · simp [hexit]
  have hread : ∀ n : Node α, n.animation? = some a ↔ n.conf.normalize = .ok a := by
    intro n
    unfold Node.animation?
    cases n.conf.normalize <;> simp [Except.toOption]
  rw [hsplit, List.mem_filterMap]
  simp only [family, List.mem_filter, hread, and_assoc]

theorem Timeline.exists_mem_schedule {l : Timeline α} {fs : List (Filter α)}
    (h : l.filters = .ok fs) {s : Stage} {f : Filter α} (hf : f ∈ fs)
    (hin : f.isIn s.group = true) :
    ∃ a ∈ l.schedule s, a.toFilter l.element = .ok f := by
  obtain ⟨n, hn, hnf⟩ := exists_of_mem_mapM h hf
  obtain ⟨a, ha, haf⟩ := Node.toFilter_eq_ok.1 hnf
  exact ⟨a, mem_schedule.2 ⟨n, hn, (Node.isOf_eq hnf).trans hin, ha⟩, haf⟩

theorem Timeline.exists_filter_of_mem_schedule {l : Timeline α} {fs : List (Filter α)}
    (h : l.filters = .ok fs) {s : Stage} {a : Animation α} (ha : a ∈ l.schedule s) :
    ∃ f ∈ fs.filter fun f => f.isIn s.group, a.toFilter l.element = .ok f := by
  obtain ⟨n, hn, hof, hread⟩ := mem_schedule.1 ha
  obtain ⟨f, hf, hnf⟩ := exists_of_mem_of_mapM h hn
  obtain ⟨a', ha', haf⟩ := Node.toFilter_eq_ok.1 hnf
  obtain rfl : a = a' := Except.ok.inj (hread.symm.trans ha')
  exact ⟨f, List.mem_filter.2 ⟨hf, (Node.isOf_eq hnf).symm.trans hof⟩, haf⟩

theorem Stage.chain_of_merged {s : Stage} {fs : List (Filter α)} {g : Filter α}
    (h : s.merged fs = .ok (some g)) :
    Filter.chain s.group fs = .ok (some g) ∨ ∃ f, fs = [f] ∧ g = f.finalized := by
  unfold merged at h
  split at h
  · cases h
  · rename_i f
    cases h
    exact .inr ⟨f, rfl, rfl⟩
  · exact .inl h

/-- A filter in the block of a stage is one the stage puts in front, or the one
it makes of its own. -/
theorem Stage.merged_of_mem_block {s : Stage} {fs b : List (Filter α)} {g : Filter α}
    (h : s.block fs = .ok b) (hg : g ∈ b) :
    g = scaleFilter ∨ s.merged (fs.filter fun f => f.isIn s.group) = .ok (some g) := by
  unfold block at h
  obtain ⟨merged, hmerged, h⟩ := bind_eq_ok.1 h
  cases merged with
  | none =>
    obtain rfl := pure_eq_ok.1 h
    simp at hg
  | some g' =>
    obtain rfl := pure_eq_ok.1 h
    rcases List.mem_append.1 hg with hg | hg
    · cases s with
      | zoom => exact .inl (by simpa [before] using hg)
      | rotate | alpha | overlay => simp [before] at hg
    · obtain rfl : g = g' := by simpa using hg
      exact .inr hmerged

/-- A composed timeline holds the enlargement in front of a zoom, what the
stages make of their filters, and the renderer's own fades. -/
theorem Timeline.cases_of_mem_compose {l : Timeline α} {fs gs : List (Filter α)}
    (hfs : l.filters = .ok fs) (h : l.compose = .ok gs) {g : Filter α} (hg : g ∈ gs) :
    g = Stage.scaleFilter ∨
      (∃ s : Stage, s.merged (fs.filter fun f => f.isIn s.group) = .ok (some g)) ∨
      ∃ a : Animation α, g = a.fadeFilter := by
  rw [compose_eq hfs] at h
  obtain ⟨bs, hbs, h⟩ := bind_eq_ok.1 h
  obtain rfl := pure_eq_ok.1 h
  rcases List.mem_append.1 hg with hg | hg
  · obtain ⟨b, hb, hgb⟩ := List.mem_flatten.1 hg
    obtain ⟨s, -, hs⟩ := exists_of_mem_mapM hbs hb
    exact (Stage.merged_of_mem_block hs hgb).imp_right fun hmerged => .inl ⟨s, hmerged⟩
  · obtain ⟨hmem, hfade⟩ := List.mem_filter.1 hg
    obtain ⟨n, -, hn⟩ := exists_of_mem_mapM hfs hmem
    obtain ⟨a, -, ha⟩ := Node.toFilter_eq_ok.1 hn
    exact .inr (.inr ⟨a, Animation.eq_fadeFilter ha hfade⟩)

theorem Timeline.merged_of_mem_compose {l : Timeline α} {fs gs : List (Filter α)}
    (hfs : l.filters = .ok fs) (h : l.compose = .ok gs) {s : Stage} {g : Filter α} (hg : g ∈ gs)
    (hname : g.name = s.group) : s.merged (fs.filter fun f => f.isIn s.group) = .ok (some g) := by
  rcases cases_of_mem_compose hfs h hg with rfl | ⟨s', hmerged⟩ | ⟨a, rfl⟩
  · have hne : "scale" ≠ s.group := by cases s <;> decide
    exact absurd hname hne
  · have hown := (stage_of_merged hfs hmerged).1
    obtain rfl := Stage.group_injective (hname.symm.trans hown)
    exact hmerged
  · exact absurd hname.symm s.group_ne_fade

/-- What a stage does not animate is a setting of the stage once its filters are
merged. -/
theorem Stage.fixed_of_merged [WindowScalar α] {s : Stage} {e : Element α}
    {as : List (Animation α)} {fs : List (Filter α)} {g : Filter α}
    (hfits : List.Forall₂ (fun a f => s.Fits e a f) as (Filter.inOrder fs))
    (h : s.merged fs = .ok (some g)) {key : String} {v : OptionValue α} (hkey : key ∉ s.tracked)
    (hv : g.options.get? key = some v) : ∃ x, v = .fixed x ∧ s.setting? e key = some x := by
  have hwindow : ∀ f ∈ fs, ∃ w, f.window = some w := by
    intro f hf
    obtain ⟨a, -, hfit⟩ := exists_left_of_mem hfits (Filter.mem_inOrder.2 hf)
    obtain ⟨w, hw, -⟩ := hfit.window
    exact ⟨w, hw⟩
  obtain ⟨first, rest, w, options, horder, hw, hoptions, hget⟩ :=
    Filter.exists_chainOptions hwindow (chain_of_merged h)
  rw [horder] at hfits
  cases hfits with
  | @cons a _ as _ hfirst hrest =>
    obtain ⟨w', hw', hdelay, htime⟩ := hfirst.window
    obtain rfl : w = w' := Option.some.inj (hw.symm.trans hw')
    have houtcome := Filter.chainOptions_outcome s.group hrest hfirst.holds hdelay htime
      (hfirst.holds_get? hw)
    obtain ⟨-, held, hheld, hholds⟩ := houtcome.resolve_right fun ⟨_, _, _, herror⟩ => by
      rw [hoptions] at herror
      cases herror
    obtain rfl : options = held := Except.ok.inj (hoptions.symm.trans hheld)
    rw [hget key] at hv
    obtain ⟨u, hu, rfl⟩ := Option.map_eq_some_iff.1 hv
    obtain ⟨x, rfl, hx⟩ := hholds.fixed key u hkey hu
    exact ⟨x, rfl, hx⟩

theorem Stage.tracked_of_merged [WindowScalar α] {s : Stage} {e : Element α}
    {as : List (Animation α)} {fs : List (Filter α)} {g : Filter α}
    (hfits : List.Forall₂ (fun a f => s.Fits e a f) as (Filter.inOrder fs))
    (h : s.merged fs = .ok (some g)) {key : String} {x : Expr α}
    (hx : g.options.get? key = some (.animated x)) : key ∈ s.tracked := by
  by_contra hkey
  obtain ⟨_, hfixed, -⟩ := fixed_of_merged hfits h hkey hx
  cases hfixed

section

variable [WindowScalar α] {l : Timeline α} {fs gs : List (Filter α)} {s : Stage} {g : Filter α}
  {key : String}

/-- What a stage makes of its filters has, in every option the stage animates,
the nest of the tracks of the animations on its schedule. -/
theorem Timeline.exists_nest_of_merged (hfs : l.filters = .ok fs)
    (hmerged : s.merged (fs.filter fun f => f.isIn s.group) = .ok (some g))
    (hkey : key ∈ s.tracked) :
    ∃ tr trs, g.options.get? key = some (.animated (nest tr trs).collapseElse) ∧
      (∀ b ∈ tr :: trs, b.Sound) ∧
      ∀ b, b ∈ tr :: trs ↔ ∃ a ∈ l.schedule s, a.trackOf l.element key = .ok b := by
  have hbuilt : ∀ f ∈ fs.filter fun f => f.isIn s.group, f ∈ fs ∧ f.isIn s.group = true :=
    fun f hf => List.mem_filter.1 hf
  have htracks : ∀ f ∈ fs.filter fun f => f.isIn s.group,
      ∃ a ∈ l.schedule s, a.Tracks l.element f key := by
    intro f hf
    obtain ⟨hmem, hin⟩ := hbuilt f hf
    obtain ⟨a, ha, haf⟩ := exists_mem_schedule hfs hmem hin
    exact ⟨a, ha, Animation.toFilter_tracks haf hin hkey⟩
  have hnodes : ∀ f ∈ fs.filter fun f => f.isIn s.group,
      ∃ n : Node α, n.toFilter l.element = .ok f := by
    intro f hf
    obtain ⟨n, -, hn⟩ := exists_of_mem_mapM hfs (hbuilt f hf).1
    exact ⟨n, hn⟩
  have hanimated : ∃ f ∈ fs.filter fun f => f.isIn s.group,
      ∃ y, f.options.get? key = some (.animated y) := by
    obtain ⟨f, hf⟩ : ∃ f, f ∈ fs.filter fun f => f.isIn s.group := by
      refine List.exists_mem_of_ne_nil _ fun hnil => ?_
      rw [hnil] at hmerged
      cases hmerged
    obtain ⟨a, -, tr, -, hfollows⟩ := htracks f hf
    exact ⟨f, hf, _, hfollows.option⟩
  obtain ⟨tr, trs, hnest, hfollows, hsound, -⟩ :=
    exists_nest hnodes (fun f hf => (hbuilt f hf).2) (Stage.chain_of_merged hmerged) hanimated
  refine ⟨tr, trs, hnest, hsound, fun b => ⟨fun hb => ?_, fun ⟨a, ha, hfor⟩ => ?_⟩⟩
  · obtain ⟨f, hf, hfb⟩ := exists_left_of_mem hfollows hb
    obtain ⟨a, ha, tr', hfor, hfollows'⟩ := htracks f (Filter.mem_inOrder.1 hf)
    obtain rfl := hfb.unique hfollows'
    exact ⟨a, ha, hfor⟩
  · obtain ⟨f, hf, haf⟩ := exists_filter_of_mem_schedule hfs ha
    obtain ⟨tr', hfor', hfollows'⟩ := Animation.toFilter_tracks haf (hbuilt f hf).2 hkey
    obtain rfl : b = tr' := Except.ok.inj (hfor.symm.trans hfor')
    obtain ⟨b', hb', hfb'⟩ := exists_right_of_mem hfollows (Filter.mem_inOrder.2 hf)
    exact hfb'.unique hfollows' ▸ hb'

/-- A stage with animations on its schedule has a filter in a composed timeline,
and what the stage animates is animated there. -/
theorem Timeline.exists_mem_compose (h : l.compose = .ok gs) (hs : l.schedule s ≠ []) :
    ∃ g ∈ gs, g.name = s.group ∧
      ∀ key ∈ s.tracked, ∃ x, g.options.get? key = some (.animated x) := by
  obtain ⟨fs, hfs, -⟩ := bind_eq_ok.1 h
  obtain ⟨a, ha⟩ := List.exists_mem_of_ne_nil _ hs
  obtain ⟨f, hmem, -⟩ := exists_filter_of_mem_schedule hfs ha
  rw [compose_eq hfs] at h
  obtain ⟨bs, hbs, h⟩ := bind_eq_ok.1 h
  obtain rfl := pure_eq_ok.1 h
  obtain ⟨b, hb, hblock⟩ := exists_of_mem_of_mapM hbs (show s ∈ Stage.all by cases s <;> decide)
  unfold Stage.block at hblock
  obtain ⟨merged, hmerged, hblock⟩ := bind_eq_ok.1 hblock
  cases merged with
  | none =>
    rw [eq_nil_of_merged hmerged] at hmem
    simp at hmem
  | some g =>
    obtain rfl := pure_eq_ok.1 hblock
    refine ⟨g, List.mem_append_left _ (List.mem_flatten.2 ⟨_, hb, by simp⟩),
      (stage_of_merged hfs hmerged).1, fun key hkey => ?_⟩
    obtain ⟨tr, trs, hnest, -⟩ := exists_nest_of_merged hfs hmerged hkey
    exact ⟨_, hnest⟩

/-- **Which track an option of a compiled timeline follows.** At every time it
has the value of a track between the ends of some animation on the schedule of
its stage. -/
theorem Timeline.exists_track_of_compose (h : l.compose = .ok gs) (hg : g ∈ gs)
    (hname : g.name = s.group) {x : Expr α} (hx : g.options.get? key = some (.animated x)) {t : α}
    (ht : IsNumber t) :
    ∃ a ∈ l.schedule s, ∃ tr, a.HasTrack l.element key tr ∧ x.eval t = tr.valueAt t := by
  obtain ⟨fs, hfs, -⟩ := bind_eq_ok.1 h
  have hmerged := merged_of_mem_compose hfs h hg hname
  have hkey := Stage.tracked_of_merged (l.fits_schedule hfs s) hmerged hx
  obtain ⟨tr, trs, hnest, hsound, htracks⟩ := exists_nest_of_merged hfs hmerged hkey
  obtain rfl : x = (nest tr trs).collapseElse := by
    rw [hx] at hnest
    cases hnest
    rfl
  obtain ⟨i, hi⟩ := exists_governs tr trs t
  obtain ⟨b, hb, -⟩ := hi.1
  obtain ⟨a, ha, htrack⟩ := (htracks b).1 (List.mem_of_getElem? hb)
  exact ⟨a, ha, b, .of_trackOf htrack, nest_value hsound ht hi hb⟩

end

end

/-! ## Values between the ends -/

variable {A : Arithmetic}

/-- The first and last values of an option, for all animations of a stage. -/
def Timeline.ends {α : Type} [Scalar α] (l : Timeline α) (s : Stage) (key : String) : List α :=
  (l.schedule s).flatMap fun a =>
    match a.ends l.element key with
    | .ok (first, last) => [first, last]
    | .error _ => []

/-- A straight line between two values in a set without gaps stays in the set. -/
theorem line_mem {s : Set A.Number} (hs : s.OrdConnected) {base change p q u : A.Number}
    (hp : base + change * p ∈ s) (hq : base + change * q ∈ s) (hu : u ∈ Set.Icc p q) :
    base + change * u ∈ s := by
  obtain ⟨hpu, huq⟩ := hu
  rcases le_total 0 change with h | h
  · refine hs.out hp hq ⟨?_, ?_⟩
    · linarith [mul_le_mul_of_nonneg_left hpu h]
    · linarith [mul_le_mul_of_nonneg_left huq h]
  · refine hs.out hq hp ⟨?_, ?_⟩
    · linarith [mul_le_mul_of_nonpos_left huq h]
    · linarith [mul_le_mul_of_nonpos_left hpu h]

theorem exists_min_max {xs : List A.Number} {x y v : A.Number} (hx : x ∈ xs) (hy : y ∈ xs)
    (hlow : min x y ≤ v) (hhigh : v ≤ max x y) :
    ∃ low high, xs.min? = some low ∧ xs.max? = some high ∧ low ≤ v ∧ v ≤ high := by
  obtain ⟨low, hmin⟩ := Option.isSome_iff_exists.1 (List.isSome_min?_of_mem hx)
  obtain ⟨high, hmax⟩ := Option.isSome_iff_exists.1 (List.isSome_max?_of_mem hx)
  have hleast := (List.min?_eq_some_iff.1 hmin).2
  have hgreatest := (List.max?_eq_some_iff.1 hmax).2
  exact ⟨low, high, hmin, hmax, (le_min (hleast x hx) (hleast y hy)).trans hlow,
    hhigh.trans (max_le (hgreatest x hx) (hgreatest y hy))⟩

theorem Animation.eased_valueAt (hpow : A.HasWholePowers) {a : Animation A.Number}
    (heased : a.continuous = false) (htime : 0 < a.time)
    {first last unit hold : A.Number} {value : Expr A.Number}
    (h : a.windowValue first last unit = .ok (value, hold)) (t : A.Number) :
    ∃ v, (a.track first value hold).valueAt t = .ok v ∧
      (v = first ∨ v = last ∨ ∃ p, v = first + (last - first) * a.ease.apply p) := by
  rw [windowValue_eased heased, Except.ok.injEq, Prod.mk.injEq] at h
  obtain ⟨rfl, rfl⟩ := h
  unfold Track.valueAt
  split
  · exact ⟨first, rfl, .inl rfl⟩
  · rename_i hopen
    split
    · rename_i hclose
      have hvalue :=
        a.ease.eval_valueExpr hpow first (last - first) htime (not_lt.1 hopen) hclose
      exact ⟨_, hvalue, .inr (.inr ⟨_, rfl⟩)⟩
    · exact ⟨last, rfl, .inr (.inl rfl)⟩

/-- **An eased animation stays between its ends**, at every time. -/
theorem Animation.track_between (hA : A.Usual) {a : Animation A.Number}
    (heased : a.continuous = false) (hinBack : a.ease ≠ .inBack) (houtBack : a.ease ≠ .outBack)
    (htime : 0 < a.time)
    {first last unit hold : A.Number} {value : Expr A.Number}
    (h : a.windowValue first last unit = .ok (value, hold)) (t : A.Number) :
    ∃ v, (a.track first value hold).valueAt t = .ok v ∧
      min first last ≤ v ∧ v ≤ max first last := by
  obtain ⟨v, hv, rfl | rfl | ⟨p, rfl⟩⟩ := eased_valueAt hA.pow_whole heased htime h t
  · exact ⟨v, hv, min_le_left _ _, le_max_left _ _⟩
  · exact ⟨v, hv, min_le_right _ _, le_max_right _ _⟩
  · refine ⟨_, hv, line_mem Set.ordConnected_Icc (p := 0) (q := 1) ?_ ?_
      (Ease.apply_mem_unit hA hinBack houtBack p)⟩ <;> simp

namespace Timeline

variable {l : Timeline A.Number} {s : Stage} {specs : List (Spec A.Number)}

/-- **Compiled values stay between the given ends.** In a timeline that can be
compiled, take a stage on whose schedule no animation is continuous or
overshoots. If there is any animation on it, the stage has a filter, and
animates its options there. At every time, each of them lies between the least
and the greatest of the first and last values of these animations. -/
theorem value_between_ends (hA : A.Usual) (h : l.compile = .ok specs)
    (heased : ∀ a ∈ l.schedule s, a.continuous = false ∧ a.ease ≠ .inBack ∧ a.ease ≠ .outBack) :
    ∃ gs, l.compose = .ok gs ∧
      (l.schedule s ≠ [] → ∃ g ∈ gs, g.name = s.group ∧
        ∀ key ∈ s.tracked, ∃ x, g.options.get? key = some (.animated x)) ∧
      ∀ g ∈ gs, g.name = s.group → ∀ key x, g.options.get? key = some (.animated x) →
        ∀ t, ∃ v low high, x.eval t = .ok v ∧ (l.ends s key).min? = some low ∧
          (l.ends s key).max? = some high ∧ low ≤ v ∧ v ≤ high := by
  obtain ⟨gs, hgs, -⟩ := bind_eq_ok.1 h
  refine ⟨gs, hgs, exists_mem_compose hgs, fun g hg hname key x hx t => ?_⟩
  obtain ⟨a, ha, _, ⟨first, last, unit, value, hold, hends, hvalue, rfl⟩, heval⟩ :=
    exists_track_of_compose hgs hg hname hx (Arithmetic.Number.isNumber t)
  obtain ⟨hcontinuous, hinBack, houtBack⟩ := heased a ha
  have htime : 0 < a.time := by
    obtain ⟨n, -, -, hn⟩ := mem_schedule.1 ha
    refine lt_of_lt_of_le ?_ (Descriptor.normalize_window hn).2
    unfold windowTolerance
    norm_num
  obtain ⟨v, hv, hlow, hhigh⟩ :=
    Animation.track_between hA hcontinuous hinBack houtBack htime hvalue t
  have hmem : ∀ c, c = first ∨ c = last → c ∈ l.ends s key := by
    intro c hc
    refine List.mem_flatMap.2 ⟨a, ha, ?_⟩
    rw [hends]
    simpa using hc
  obtain ⟨low, high, hmin, hmax, hle, hge⟩ :=
    exists_min_max (hmem first (.inl rfl)) (hmem last (.inr rfl)) hlow hhigh
  exact ⟨v, low, high, heval.trans hv, hmin, hmax, hle, hge⟩

/-- A picture that comes into view and, a second later, leaves again. -/
noncomputable def comeSoon : Node Arithmetic.real.Number :=
  .ofDescriptor (.make "alpha" .entrance (1 : ℕ) 0)

@[inherit_doc comeSoon] noncomputable def leaveSoon : Node Arithmetic.real.Number :=
  .ofDescriptor (.make "alpha" .exit (1 : ℕ) (2 : ℕ))

@[inherit_doc comeSoon] noncomputable def shortStay : Timeline Arithmetic.real.Number :=
  ⟨⟨"picture", .image, 0.0, 0.0, 320, 180, 1280, 720⟩, [comeSoon, leaveSoon]⟩

/-- It is never more than opaque, and never less than transparent. -/
theorem value_between_ends_shortStay :
    ∃ gs, shortStay.compose = .ok gs ∧ ∃ g ∈ gs, g.name = alphaGroup ∧
      ∃ x, g.options.get? "alpha" = some (.animated x) ∧
        ∀ t, ∃ v, x.eval t = .ok v ∧ 0 ≤ v ∧ v ≤ 1 := by
  have hcome : comeSoon.conf.normalize = .ok _ :=
    Arithmetic.Number.normalize_make (k := .alpha) (by decide +kernel) .entrance one_pos 0
  have hleave : leaveSoon.conf.normalize = .ok _ :=
    Arithmetic.Number.normalize_make (k := .alpha) (by decide +kernel) .exit one_pos 2
  have hschedule : ∀ s, shortStay.schedule s = if s = .alpha then
      [⟨.alpha, .entrance, (1 : ℕ), 0, .linear, false, none, false, none, none⟩,
        ⟨.alpha, .exit, (1 : ℕ), 2, .linear, false, none, false, none, none⟩] else [] := by
    intro s
    cases s <;> simp [schedule, family, shortStay, Node.isOf, Node.kind?, Node.animation?, hcome,
      hleave, Kind.stage?, Except.toOption]
  have hfilters : ∀ n ∈ shortStay.nodes, ∃ f,
      n.toFilter shortStay.element = .ok f ∧ f.FiniteSettings :=
    List.forall_mem_cons.2 ⟨⟨_, Node.toFilter_eq_ok.2 ⟨_, hcome, rfl⟩, fun _ _ _ => rfl⟩,
      List.forall_mem_singleton.2 ⟨_, Node.toFilter_eq_ok.2 ⟨_, hleave, rfl⟩, fun _ _ _ => rfl⟩⟩
  obtain ⟨specs, hspecs⟩ := exists_compile hfilters fun s => by
    rw [hschedule]
    split
    · simp only [List.isChain_pair, Animation.MayFollow, windowTolerance, not_lt]
      norm_num
    · exact .nil
  have hends : shortStay.ends .alpha "alpha" = [0.0, 1.0, 1.0, 0.0] := by
    unfold ends
    rw [hschedule]
    rfl
  have hunit : ∀ c ∈ shortStay.ends .alpha "alpha", 0 ≤ c ∧ c ≤ 1 := by
    rw [hends]
    norm_num
  obtain ⟨gs, hgs, hexists, hbetween⟩ :=
    value_between_ends (s := .alpha) Arithmetic.usual_real hspecs (by simp [hschedule])
  obtain ⟨g, hg, hname, hanimated⟩ := hexists (by simp [hschedule])
  obtain ⟨x, hx⟩ := hanimated "alpha" (by simp [Stage.tracked])
  refine ⟨gs, hgs, g, hg, hname, x, hx, fun t => ?_⟩
  obtain ⟨v, low, high, hv, hmin, hmax, hlow, hhigh⟩ := hbetween g hg hname "alpha" x hx t
  exact ⟨v, hv, (hunit low (List.min?_mem hmin)).1.trans hlow,
    hhigh.trans (hunit high (List.max?_mem hmax)).2⟩

end Timeline

end Tween
