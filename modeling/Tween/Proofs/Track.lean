/-
What a filter built from one animation holds. Every animated option follows a
track: one value before the window, an expression inside it, one value after
it, with a fallback where a later filter may be put (`Filter.Follows`). Which
options are animated, and what the others are, depends on the stage and the
element alone (`Stage.Fits`), and every filter an animation is turned into fits
its stage (`Animation.toFilter_fits`).
-/
import Tween.Proofs.Checked
import Tween.Proofs.Closed
import Tween.Proofs.Scalar
import Tween.Timeline.Compile

namespace Tween

variable {α : Type} [Scalar α]

/-- What one animated option does because of one filter. -/
structure Track (α : Type) where
  /-- Start of the window. -/
  opening : α
  /-- End of the window. -/
  closing : α
  /-- The value before the window. -/
  before : α
  /-- The value inside the window. -/
  inside : Expr α
  /-- The value held after the window. -/
  after : α

namespace Track

/-- The expression of a track, with another one for the time after the
window. -/
def gated (a : Track α) (outside : Expr α) : Expr α :=
  .ifLt .time (.const a.opening) (.const a.before)
    (.ifBetween .time (.const a.opening) (.const a.closing) a.inside outside)

/-- The value of a track at a time. -/
def valueAt (a : Track α) (t : α) : Except Slot α :=
  if t < a.opening then .ok a.before
  else if t ≤ a.closing then a.inside.eval t
  else .ok a.after

theorem valueAt_before {a : Track α} {t : α} (h : t < a.opening) : a.valueAt t = .ok a.before :=
  if_pos h

theorem valueAt_ok {a : Track α} {t : α} (h : ∃ v, a.inside.eval t = .ok v) :
    ∃ v, a.valueAt t = .ok v := by
  unfold valueAt
  split
  · exact ⟨_, rfl⟩
  · split
    · exact h
    · exact ⟨_, rfl⟩

end Track

/-- An option of a filter follows a track: the track's gate with an open
fallback is its value, and the filter's window and held value are the
track's. -/
structure Filter.Follows (f : Filter α) (key : String) (a : Track α) : Prop where
  option : f.options.get? key = some (.animated (a.gated (.elseSlot (.const a.after))))
  window : ∃ w, f.window = some w ∧ w.delay = a.opening ∧ w.finish = a.closing ∧
    w.holds.get? key = some a.after

/-! ## Stages -/

/-- The stage that collects the filters of a kind; the renderer's own fades
are not collected. -/
def Kind.stage? : Kind → Option Stage
  | fade | reveal => none
  | alpha => some .alpha
  | rotate => some .rotate
  | zoom => some .zoom
  | move => some .overlay

namespace Stage

/-- The options that a stage animates. -/
def tracked : Stage → List String
  | rotate => ["a"]
  | zoom => ["z"]
  | alpha => ["alpha"]
  | overlay => ["x", "y"]

/-- The value of an option that does not change over time, where a filter of
the stage has one. -/
def setting? (e : Element α) : Stage → String → Option (Setting α)
  | rotate, "c" => some (.text "none")
  | rotate, "ow" | rotate, "oh" => some (.text "hypot(iw,ih)")
  | zoom, "x" => some (.text "iw/2-(iw/zoom/2)")
  | zoom, "y" => some (.text "ih/2-(ih/zoom/2)")
  | zoom, "d" => some (.number 1.0)
  | zoom, "s" => some (.text (String.ofList (digits e.width ++ 'x' :: digits e.height)))
  | _, _ => none

/-- The name the filters of a stage have for the time. -/
def clock : Stage → String
  | zoom => "time"
  | rotate | alpha | overlay => "t"

/-- What a filter of a stage holds that was built from an animation. -/
structure Fits (s : Stage) (e : Element α) (a : Animation α) (f : Filter α) : Prop where
  name : f.name = s.group
  clock : f.clock = s.clock
  group : f.group = some s.group
  phase : f.phase = some a.phase
  window : ∃ w, f.window = some w ∧ w.delay = a.delay ∧ w.time = a.time
  follows : ∀ key ∈ s.tracked, ∃ tr : Track α, f.Follows key tr ∧ tr.inside.IsClosed
  fixed : ∀ key v, key ∉ s.tracked → f.options.get? key = some v →
    ∃ x, v = .fixed x ∧ s.setting? e key = some x

end Stage

namespace Filter

omit [Scalar α]

variable {f : Filter α} {key k s : String} {x : α} {e : Expr α}

@[simp] theorem get?_withExpr : (f.withExpr key e).options.get? k =
    if k = key then some (.animated e) else f.options.get? k :=
  Table.get?_insert _ _ _ _

@[simp] theorem get?_withText : (f.withText key s).options.get? k =
    if k = key then some (.fixed (.text s)) else f.options.get? k :=
  Table.get?_insert _ _ _ _

@[simp] theorem get?_withNumber : (f.withNumber key x).options.get? k =
    if k = key then some (.fixed (.number x)) else f.options.get? k :=
  Table.get?_insert _ _ _ _

theorem get?_finalized :
    f.finalized.options.get? key = (f.options.get? key).map finalOption :=
  Table.get?_map _ _ _

theorem mem_inOrder {fs : List (Filter α)} : f ∈ inOrder fs ↔ f ∈ fs := by
  by_cases hf : f.isExit = true
  · simp [inOrder, hf]
  · simp [inOrder, hf]

theorem inOrder_singleton (f : Filter α) : inOrder [f] = [f] := by
  by_cases hf : f.isExit = true
  · simp [inOrder, hf]
  · simp [inOrder, hf]

end Filter

theorem Stage.Fits.withSetting {s : Stage} {e : Element α} {a : Animation α} {f : Filter α}
    {key : String} {x : Setting α} (h : s.Fits e a f) (hkey : key ∉ s.tracked)
    (hx : s.setting? e key = some x) : s.Fits e a (f.withOption key (.fixed x)) := by
  have hget : ∀ k, (f.withOption key (.fixed x)).options.get? k =
      if k = key then some (.fixed x) else f.options.get? k :=
    fun k => Table.get?_insert _ _ _ _
  refine ⟨h.name, h.clock, h.group, h.phase, h.window, ?_, ?_⟩
  -- Tracked options are not the one set, so they are as they were.
  · intro k hk
    obtain ⟨tr, hf, hclosed⟩ := h.follows k hk
    have hne : k ≠ key := fun heq => hkey (heq ▸ hk)
    exact ⟨tr, ⟨by rw [hget, if_neg hne]; exact hf.option, hf.window⟩, hclosed⟩
  · intro k v hk hv
    rw [hget] at hv
    split at hv
    · rename_i heq
      subst heq
      exact ⟨x, (Option.some.inj hv).symm, hx⟩
    · exact h.fixed k v hk hv

namespace Animation

variable {a : Animation α} {e : Element α} {f : Filter α} {first last hold : α} {value : Expr α}

/-- The track of an animated value in the window of an animation. -/
def track (a : Animation α) (before : α) (inside : Expr α) (after : α) : Track α :=
  ⟨a.delay, a.finish, before, inside, after⟩

/-- A stage that animates one option is fitted by a gate under its name. -/
theorem gatedFilter_fits {s : Stage} {key : String} (hs : s.tracked = [key])
    (hvalue : value.IsClosed) :
    s.Fits e a ((a.gatedFilter s.group s.clock (Table.ofList [(key, hold)])).withExpr key
      (a.gate first value hold)) := by
  refine ⟨rfl, rfl, rfl, rfl, ⟨_, rfl, rfl, rfl⟩, ?_, ?_⟩
  · intro k hk
    obtain rfl : k = key := by simpa [hs] using hk
    have hhold : (Table.ofList [(k, hold)]).get? k = some hold := by simp [Table.ofList]
    exact ⟨a.track first value hold, ⟨by simp; rfl, _, rfl, rfl, rfl, hhold⟩, hvalue⟩
  · intro k v hk hv
    have hne : k ≠ key := by simpa [hs] using hk
    simp [hne, gatedFilter] at hv

theorem alphaFilter_fits (h : a.alphaFilter = .ok f) : Stage.alpha.Fits e a f := by
  unfold alphaFilter at h
  simp only [bind_eq_ok, pure_eq_ok] at h
  obtain ⟨_, -, ⟨value, hold⟩, hvalue, rfl⟩ := h
  exact gatedFilter_fits rfl (windowValue_closed hvalue)

theorem rotateFilter_fits (h : a.rotateFilter = .ok f) : Stage.rotate.Fits e a f := by
  unfold rotateFilter at h
  simp only [bind_eq_ok, pure_eq_ok] at h
  obtain ⟨⟨first, last⟩, -, ⟨value, hold⟩, hvalue, rfl⟩ := h
  have hbase : Stage.rotate.Fits e a
      (((a.gatedFilter rotateGroup "t" (Table.ofList [("a", hold)])).withExpr "a"
        (a.gate (toRadians first) value hold)).withText "c" "none") :=
    (gatedFilter_fits rfl (windowValue_closed hvalue)).withSetting (by decide) rfl
  split
  · exact (hbase.withSetting (by decide) rfl).withSetting (by decide) rfl
  · exact hbase

theorem zoomFilter_fits (h : a.zoomFilter e = .ok f) : Stage.zoom.Fits e a f := by
  unfold zoomFilter at h
  obtain ⟨⟨first, last⟩, -, h⟩ := bind_eq_ok.1 h
  dsimp only at h
  split at h
  · cases h
  · simp only [bind_eq_ok, pure_eq_ok] at h
    obtain ⟨⟨value, hold⟩, hvalue, rfl⟩ := h
    have hbase : Stage.zoom.Fits e a
        ((a.gatedFilter zoomGroup "time" (Table.ofList [("z", hold)])).withExpr "z"
          (a.gate first value hold)) :=
      gatedFilter_fits rfl (windowValue_closed hvalue)
    exact (((hbase.withSetting (by decide) rfl).withSetting (by decide) rfl).withSetting
      (by decide) rfl).withSetting (by decide) rfl

theorem overlayFilter_fits (h : a.overlayFilter e = .ok f) : Stage.overlay.Fits e a f := by
  unfold overlayFilter at h
  simp only [bind_eq_ok, pure_eq_ok] at h
  obtain ⟨⟨first, last⟩, -, ⟨valueX, holdX⟩, hvalueX, ⟨valueY, holdY⟩, hvalueY, rfl⟩ := h
  refine ⟨rfl, rfl, rfl, rfl, ⟨_, rfl, rfl, rfl⟩, ?_, ?_⟩
  · intro key hkey
    have hcases : key = "x" ∨ key = "y" := by simpa [Stage.tracked] using hkey
    rcases hcases with rfl | rfl
    · exact ⟨a.track first.x valueX holdX, ⟨by simp; rfl, _, rfl, rfl, rfl,
        by simp [Table.ofList, Table.get?_insert]; rfl⟩, windowValue_closed hvalueX⟩
    · exact ⟨a.track first.y valueY holdY, ⟨by simp; rfl, _, rfl, rfl, rfl,
        by simp [Table.ofList]; rfl⟩, windowValue_closed hvalueY⟩
  · intro key v hkey hv
    have hne : key ≠ "x" ∧ key ≠ "y" := by simpa [Stage.tracked] using hkey
    simp [hne.1, hne.2, gatedFilter] at hv

/-- **What an animation is turned into**: the renderer's own fade, or a filter
that fits the stage of its kind. -/
theorem toFilter_fits (h : a.toFilter e = .ok f) :
    match a.kind.stage? with
    | none => f = a.fadeFilter
    | some s => s.Fits e a f := by
  unfold toFilter at h
  cases hk : a.kind with
  | fade | reveal =>
    simp only [hk, Except.ok.injEq] at h
    exact h.symm
  | alpha =>
    simp only [hk] at h
    exact alphaFilter_fits h
  | rotate =>
    simp only [hk] at h
    exact rotateFilter_fits h
  | zoom =>
    simp only [hk] at h
    exact zoomFilter_fits h
  | move =>
    simp only [hk] at h
    exact overlayFilter_fits h

@[inherit_doc toFilter_fits]
theorem toFilter_fade (h : a.toFilter e = .ok f) (hfade : a.kind.stage? = none) :
    f = a.fadeFilter := by
  have hfits := toFilter_fits h
  rwa [hfade] at hfits

@[inherit_doc toFilter_fits]
theorem toFilter_stage {s : Stage} (h : a.toFilter e = .ok f) (hs : a.kind.stage? = some s) :
    s.Fits e a f := by
  have hfits := toFilter_fits h
  rwa [hs] at hfits

end Animation

/-! ## Windows of checked animations -/

/-- A checked animation starts at a finite time and lasts longer than the
tolerance. -/
theorem Descriptor.normalize_window [WindowScalar α] {d : Descriptor α} {a : Animation α}
    (h : d.normalize = .ok a) : Scalar.isFinite a.delay = true ∧ windowTolerance ≤ a.time := by
  have hreads := Descriptor.normalize_eq_ok.1 h
  constructor
  · obtain ⟨delay, hdelay, heq⟩ := hreads.delay
    rw [heq]
    cases delay with
    | none => exact WindowScalar.isFinite_zero
    | some x => exact isFinite_of_finiteField hdelay
  · obtain ⟨x, hx, htime, hpos⟩ := Descriptor.readTime_eq_ok.1 hreads.time
    rw [htime] at hpos ⊢
    exact WindowScalar.tolerance_le_centiseconds (isFinite_of_finiteField hx) hpos

theorem Node.toFilter_eq_ok {n : Node α} {e : Element α} {f : Filter α} :
    n.toFilter e = .ok f ↔ ∃ a, n.conf.normalize = .ok a ∧ a.toFilter e = .ok f :=
  bind_eq_ok

theorem Stage.group_injective {s s' : Stage} (h : s.group = s'.group) : s = s' := by
  revert h
  cases s <;> cases s' <;> decide

theorem Stage.group_ne_fade (s : Stage) : s.group ≠ fadeGroup := by
  cases s <;> decide

theorem Stage.fits_of_isIn {s : Stage} {e : Element α} {a : Animation α} {f : Filter α}
    (h : a.toFilter e = .ok f) (hin : f.isIn s.group = true) : s.Fits e a f := by
  have hgroup : f.group = some s.group := by simpa [Filter.isIn] using hin
  cases hk : a.kind.stage? with
  | none =>
    obtain rfl := Animation.toFilter_fade h hk
    exact absurd (Option.some.inj hgroup).symm s.group_ne_fade
  | some s' =>
    have hfits := Animation.toFilter_stage h hk
    have hsame : some s'.group = some s.group := hfits.group ▸ hgroup
    obtain rfl := Stage.group_injective (Option.some.inj hsame)
    exact hfits

end Tween
