/-
When a zoom shows its picture smaller than it is. A zoom is built only from ends
that are at least one. That is enough for a curve that keeps between its ends,
but not for one that overshoots, nor for a zoom that changes at a rate
(`Node.neverShrinks_iff`).
-/
import Tween.Proofs.Scale

namespace Tween

variable {A : Arithmetic}

theorem Track.exists_valueAt_after (tr : Track A.Number) : ∃ t, tr.valueAt t = .ok tr.after := by
  refine ⟨max tr.opening tr.closing + 1, ?_⟩
  have hopen : ¬ max tr.opening tr.closing + 1 < tr.opening := by
    linarith [le_max_left tr.opening tr.closing]
  have hclose : ¬ max tr.opening tr.closing + 1 ≤ tr.closing := by
    linarith [le_max_right tr.opening tr.closing]
  unfold valueAt
  rw [if_neg hopen, if_neg hclose]

/-- An eased animation takes each value along its curve, when so much of its
window has passed. -/
theorem Animation.exists_valueAt_curve (hpow : A.HasWholePowers) {a : Animation A.Number}
    (heased : a.continuous = false) (htime : 0 < a.time)
    {first last unit hold : A.Number} {value : Expr A.Number}
    (h : a.windowValue first last unit = .ok (value, hold)) {p : A.Number}
    (hp : p ∈ Set.Icc (0 : A.Number) 1) :
    ∃ t, (a.track first value hold).valueAt t =
      .ok (first + (last - first) * a.ease.apply p) := by
  obtain ⟨h0, h1⟩ := hp
  rw [windowValue_eased heased, Except.ok.injEq, Prod.mk.injEq] at h
  obtain ⟨rfl, rfl⟩ := h
  have hopen : a.delay ≤ a.delay + p * a.time := by linarith [mul_nonneg h0 htime.le]
  have hclose : a.delay + p * a.time ≤ a.delay + a.time := by
    linarith [mul_le_of_le_one_left htime.le h1]
  have hpassed : (a.delay + p * a.time - a.delay) * a.time⁻¹ = p := by
    rw [add_sub_cancel_left, mul_inv_cancel_right₀ htime.ne']
  have hinside := a.ease.eval_valueExpr hpow first (last - first) htime hopen hclose
  rw [hpassed] at hinside
  refine ⟨a.delay + p * a.time, ?_⟩
  unfold Track.valueAt track finish
  rw [if_neg (not_lt.2 hopen), if_pos hclose]
  exact hinside

/-- **An eased animation** whose given ends are in a set without gaps stays in it
all the time exactly if the lowest and the highest value along its curve are in
it. -/
theorem Animation.track_mem_iff_of_eased (hA : A.Usual) {a : Animation A.Number}
    (heased : a.continuous = false) (htime : 0 < a.time)
    {first last unit hold : A.Number} {value : Expr A.Number}
    (h : a.windowValue first last unit = .ok (value, hold)) {s : Set A.Number}
    (hs : s.OrdConnected) (hfirst : first ∈ s) (hlast : last ∈ s) :
    (∀ t v, (a.track first value hold).valueAt t = .ok v → v ∈ s) ↔
      first + (last - first) * a.ease.lowest ∈ s ∧
        first + (last - first) * a.ease.highest ∈ s := by
  constructor
  · intro hall
    have hcurve : ∀ p ∈ Set.Icc (0 : A.Number) 1,
        first + (last - first) * a.ease.apply p ∈ s := by
      intro p hp
      obtain ⟨t, ht⟩ := exists_valueAt_curve hA.pow_whole heased htime h hp
      exact hall t _ ht
    obtain ⟨p, hp, hlowest⟩ := Ease.exists_apply_lowest hA a.ease
    obtain ⟨q, hq, hhighest⟩ := Ease.exists_apply_highest hA a.ease
    rw [← hlowest, ← hhighest]
    exact ⟨hcurve p hp, hcurve q hq⟩
  · rintro ⟨hlow, hhigh⟩ t v hv
    obtain ⟨w, hw, hcases⟩ := eased_valueAt hA.pow_whole heased htime h t
    obtain rfl : w = v := Except.ok.inj (hw.symm.trans hv)
    rcases hcases with rfl | rfl | ⟨p, rfl⟩
    · exact hfirst
    · exact hlast
    · exact line_mem hs hlow hhigh (Ease.apply_mem_range hA a.ease p)

/-! ## The scale of a zoom -/

/-- No scale of a zoom is below one: neither the one that it holds after its
window, nor any that it has when it is finished by itself. -/
structure Filter.NeverShrinks (f : Filter A.Number) : Prop where
  held : ∀ w hold, f.window = some w → w.holds.get? "z" = some hold → 1 ≤ hold
  shown : ∀ x t v, f.finalized.options.get? "z" = some (.animated x) → x.eval t = .ok v → 1 ≤ v

/-- A filter that follows a track never shrinks exactly if no value of the track
is below one; the value held is one of them. -/
theorem Filter.neverShrinks_iff_track {f : Filter A.Number} {tr : Track A.Number}
    {x : Expr A.Number} (hfollows : f.Follows "z" tr)
    (hx : f.finalized.options.get? "z" = some (.animated x))
    (heval : ∀ t, x.eval t = tr.valueAt t) :
    f.NeverShrinks ↔ ∀ t v, tr.valueAt t = .ok v → v ∈ Set.Ici (1 : A.Number) := by
  constructor
  · intro h t v hv
    exact h.shown x t v hx ((heval t).trans hv)
  · intro hall
    refine ⟨?_, ?_⟩
    · intro w hold hw hhold
      obtain ⟨w', hw', -, -, hafter⟩ := hfollows.window
      obtain rfl : w = w' := Option.some.inj (hw.symm.trans hw')
      obtain rfl : hold = tr.after := Option.some.inj (hhold.symm.trans hafter)
      obtain ⟨t, ht⟩ := tr.exists_valueAt_after
      exact hall t _ ht
    · intro y t v hy hv
      obtain rfl : x = y := by simpa using hx.symm.trans hy
      exact hall t v ((heval t).symm.trans hv)

theorem Animation.one_le_of_zoomFilter {a : Animation A.Number} {e : Element A.Number}
    {f : Filter A.Number} {first last : A.Number} (h : a.zoomFilter e = .ok f)
    (hends : a.scalarEndpoints = .ok (first, last)) : 1 ≤ first ∧ 1 ≤ last := by
  unfold zoomFilter at h
  rw [hends, ok_bind] at h
  dsimp only at h
  split at h
  · cases h
  · rename_i hchecked
    norm_num [not_or] at hchecked
    exact hchecked

namespace Node

variable {n : Node A.Number} {a : Animation A.Number} {e : Element A.Number} {f : Filter A.Number}

/-- **When a zoom never shrinks.** Take a zoom that can be built. Both its ends
are at least one, it has a scale at every time, and it holds one after its
window. An eased zoom never shrinks if it does not overshoot, and one that may
overshoot exactly if the lowest and the highest value along its curve are at
least one. A continuous zoom never shrinks exactly if the scale it reaches at
its rate is at least one: the ends that are checked do not tell. -/
theorem neverShrinks_iff (hA : A.Usual) (hread : n.conf.normalize = .ok a)
    (hkind : a.kind = .zoom) (hbuilt : n.toFilter e = .ok f) :
    ∃ first last x w hold, a.scalarEndpoints = .ok (first, last) ∧ 1 ≤ first ∧ 1 ≤ last ∧
      f.finalized.options.get? "z" = some (.animated x) ∧ (∀ t, ∃ v, x.eval t = .ok v) ∧
      f.window = some w ∧ w.holds.get? "z" = some hold ∧
      (a.continuous = false → a.ease ≠ .inBack → a.ease ≠ .outBack → f.NeverShrinks) ∧
      (a.continuous = false → (f.NeverShrinks ↔
        1 ≤ first + (last - first) * a.ease.lowest ∧
          1 ≤ first + (last - first) * a.ease.highest)) ∧
      (a.continuous = true → ∃ rate, a.rate = some rate ∧
        (f.NeverShrinks ↔ 1 ≤ first + rate * a.time)) := by
  obtain ⟨first, last, value, hold, hends, hvalue, hin, hfollows⟩ :=
    exists_zoom_track hread hkind hbuilt
  obtain ⟨x, hx, heval⟩ := exists_value_of_finalized hbuilt hin hfollows
  obtain ⟨w, hw, -, -, hhold⟩ := hfollows.window
  have hone : 1 ≤ first ∧ 1 ≤ last := by
    obtain ⟨a', ha', haf⟩ := Node.toFilter_eq_ok.1 hbuilt
    obtain rfl : a = a' := Except.ok.inj (hread.symm.trans ha')
    unfold Animation.toFilter at haf
    rw [hkind] at haf
    exact Animation.one_le_of_zoomFilter haf hends
  have htime : 0 < a.time := by
    refine lt_of_lt_of_le ?_ (Descriptor.normalize_window hread).2
    unfold windowTolerance
    norm_num
  have hnumber := fun t => Arithmetic.Number.isNumber (A := A) t
  have hshrinks := Filter.neverShrinks_iff_track hfollows hx fun t => (heval t (hnumber t)).1
  have hcurve : a.continuous = false → (f.NeverShrinks ↔
      1 ≤ first + (last - first) * a.ease.lowest ∧
        1 ≤ first + (last - first) * a.ease.highest) := fun heased =>
    hshrinks.trans (Animation.track_mem_iff_of_eased hA heased htime hvalue Set.ordConnected_Ici
      hone.1 hone.2)
  refine ⟨first, last, x, w, _, hends, hone.1, hone.2, hx, fun t => (heval t (hnumber t)).2, hw,
    hhold, fun heased hinBack houtBack => ?_, hcurve, fun hcontinuous => ?_⟩
  · refine (hcurve heased).2 ?_
    rw [Ease.lowest_eq_zero hinBack, Ease.highest_eq_one houtBack, mul_zero, add_zero, mul_one,
      add_sub_cancel]
    exact hone
  · obtain ⟨rate, hrate, hiff⟩ := Animation.track_mem_iff hcontinuous htime hvalue
      Set.ordConnected_Ici hone.1 hone.2
    have hunit : rate * 1.0 = rate := by norm_num
    rw [hunit] at hiff
    exact ⟨rate, hrate, hshrinks.trans hiff⟩

end Node

/-! ## A zoom that goes back at a rate -/

section Rate

open Timeline (picture exists_toFilter_zoom)

/-- A zoom of two seconds that starts from twice the size and changes at a
rate. -/
noncomputable def zoomAt (rate : Arithmetic.real.Number) : Node Arithmetic.real.Number :=
  ⟨.makeGrowing "zoom" .entrance (2 : ℕ) 0 rate, none⟩

theorem normalize_zoomAt (rate : Arithmetic.real.Number) :
    (zoomAt rate).conf.normalize =
      .ok ⟨.zoom, .entrance, (2 : ℕ), 0, .linear, true, some rate, false, none, none⟩ := by
  have htime : centiseconds ((2 : ℕ) : Arithmetic.real.Number) = (2 : ℕ) :=
    Arithmetic.Number.centiseconds_natCast 2
  have hpos : ¬ centiseconds ((2 : ℕ) : Arithmetic.real.Number) ≤ 0.0 := by
    rw [htime]
    norm_num
  have hkind : Kind.ofWord? "zoom" = some .zoom := by decide +kernel
  unfold zoomAt
  rw [Descriptor.normalize_makeGrowing hkind .entrance rfl rfl rfl hpos, htime]

/-- It is built at any rate: its ends are two and one. -/
theorem exists_toFilter_zoomAt (rate : Arithmetic.real.Number) :
    ∃ f, (zoomAt rate).toFilter picture = .ok f := by
  refine exists_toFilter_zoom picture (normalize_zoomAt rate) rfl rfl ?_ rfl
  norm_num

/-- At half a size per second, the zoom comes back to its own size and never
shrinks. -/
theorem Node.neverShrinks_iff_slow :
    ∃ f, (zoomAt (-0.5)).toFilter picture = .ok f ∧ f.NeverShrinks := by
  obtain ⟨f, hbuilt⟩ := exists_toFilter_zoomAt (-0.5)
  obtain ⟨_, _, x, w, hold, hends, -, -, -, -, -, -, -, -, hcontinuous⟩ :=
    Node.neverShrinks_iff Arithmetic.usual_real (normalize_zoomAt (-0.5)) rfl hbuilt
  cases hends
  obtain ⟨rate, hrate, hiff⟩ := hcontinuous rfl
  cases hrate
  refine ⟨f, hbuilt, hiff.2 ?_⟩
  norm_num

/-- At a whole size per second, the zoom is built just so, but by the end of its
window the picture has shrunk to nothing, and nothing is held from there. -/
theorem zoomAt_shrinks_to_nothing :
    ∃ a f x w, (zoomAt (-1)).conf.normalize = .ok a ∧ a.kind = .zoom ∧
      (zoomAt (-1)).toFilter picture = .ok f ∧
      f.finalized.options.get? "z" = some (.animated x) ∧ x.eval 2 = .ok 0 ∧
      f.window = some w ∧ w.holds.get? "z" = some 0 ∧ ¬ f.NeverShrinks := by
  obtain ⟨f, hbuilt⟩ := exists_toFilter_zoomAt (-1)
  obtain ⟨_, _, _, hold, hends, hvalue, hin, hfollows⟩ :=
    Node.exists_zoom_track (normalize_zoomAt (-1)) rfl hbuilt
  obtain ⟨x, hx, heval⟩ := exists_value_of_finalized hbuilt hin hfollows
  obtain ⟨w, hw, -, -, hhold⟩ := hfollows.window
  cases hends
  cases hvalue
  have hreached : x.eval 2 = .ok 0 := by
    refine (heval 2 (Arithmetic.Number.isNumber 2)).1.trans ?_
    have hopen : ¬ (2 : Arithmetic.real.Number) < 0 := by norm_num
    have hclose : (2 : Arithmetic.real.Number) ≤ 0 + (2 : ℕ) := by norm_num
    refine (if_neg hopen).trans ((if_pos hclose).trans (congrArg Except.ok ?_))
    rw [Arithmetic.Number.linearValue_one]
    norm_num
  have hnothing : w.holds.get? "z" = some 0 := by
    refine hhold.trans (congrArg some ?_)
    change (2.0 : Arithmetic.real.Number) + -1 * 1.0 * (2 : ℕ) = 0
    norm_num
  refine ⟨_, f, x, w, normalize_zoomAt (-1), rfl, hbuilt, hx, hreached, hw, hnothing, ?_⟩
  intro h
  have hone : (1 : Arithmetic.real.Number) ≤ 0 := h.shown x 2 0 hx hreached
  linarith

end Rate

end Tween
