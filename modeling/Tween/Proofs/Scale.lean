/-
The scale that a timeline reports for its zooms, which is the larger endpoint
of the last zoom that asks for room. An eased zoom never exceeds it. One that
grows at a rate does so exactly if the scale it reaches at the end of its window
does: the reported scale leaves that one out (`Timeline.zoom_le_maxScale`).
-/
import Tween.Proofs.Endpoints
import Tween.Proofs.Presets

namespace Tween

variable {A : Arithmetic}

/-! ## Growth -/

theorem Arithmetic.Number.larger_eq_max (x y : A.Number) : Scalar.larger x y = max x y := by
  unfold Scalar.larger
  split
  · rename_i h
    exact (max_eq_right h.le).symm
  · rename_i h
    rw [if_pos (beq_iff.2 rfl), max_eq_left (not_lt.1 h)]

theorem Arithmetic.Number.linearValue_one (base change origin t : A.Number) :
    linearValue base change 1.0 origin t = base + change * (t - origin) := by
  unfold linearValue
  rw [div_eq _ (by norm_num)]
  norm_num

/-- **A continuous animation** whose given ends are in a set without gaps stays
in it all the time exactly if the value it reaches at the end of its window is
in it. -/
theorem Animation.track_mem_iff {a : Animation A.Number} (hcontinuous : a.continuous = true)
    (htime : 0 < a.time) {first last unit hold : A.Number} {value : Expr A.Number}
    (h : a.windowValue first last unit = .ok (value, hold)) {s : Set A.Number}
    (hs : s.OrdConnected) (hfirst : first ∈ s) (hlast : last ∈ s) :
    ∃ rate, a.rate = some rate ∧
      ((∀ t v, (a.track first value hold).valueAt t = .ok v → v ∈ s) ↔
        first + rate * unit * a.time ∈ s) := by
  unfold windowValue at h
  rw [if_pos hcontinuous] at h
  simp only [bind_eq_ok, pure_eq_ok, Prod.mk.injEq] at h
  obtain ⟨rate, hrate, rfl, rfl⟩ := h
  have hgiven : a.rate = some rate := by
    unfold requireRate at hrate
    split at hrate
    · rename_i r hr
      rw [hr, Except.ok.inj hrate]
    · cases hrate
  refine ⟨rate, hgiven, fun hall => ?_, fun hreached t v hv => ?_⟩
  -- The window contains its end, where the reached value is taken.
  · refine hall a.finish _ ?_
    have hopen : ¬ a.finish < a.delay := by
      unfold finish
      linarith
    have hinside : (Expr.linear first (rate * unit) 1.0 a.delay).eval a.finish =
        .ok (first + rate * unit * a.time) := by
      refine congrArg Except.ok ?_
      rw [Arithmetic.Number.linearValue_one, finish, add_sub_cancel_left]
    unfold Track.valueAt track
    rw [if_neg hopen, if_pos (le_refl _)]
    exact hinside
  · have hhold : (if a.last.isSome then last else first + rate * unit * a.time) ∈ s := by
      split
      · exact hlast
      · exact hreached
    generalize (if a.last.isSome then last else first + rate * unit * a.time) = hold at hv hhold
    unfold Track.valueAt track at hv
    dsimp only at hv
    split at hv
    · exact Except.ok.inj hv ▸ hfirst
    · rename_i hopen
      split at hv
      · rename_i hclose
        have hsince : a.delay ≤ t := not_lt.1 hopen
        have huntil : t ≤ a.delay + a.time := hclose
        rw [← Except.ok.inj hv, Arithmetic.Number.linearValue_one]
        exact line_mem hs (p := 0) (by simpa using hfirst) hreached ⟨by linarith, by linarith⟩
      · exact Except.ok.inj hv ▸ hhold

theorem Animation.track_le_iff {a : Animation A.Number} (hcontinuous : a.continuous = true)
    (htime : 0 < a.time) {first last unit hold bound : A.Number} {value : Expr A.Number}
    (h : a.windowValue first last unit = .ok (value, hold)) (hfirst : first ≤ bound)
    (hlast : last ≤ bound) :
    ∃ rate, a.rate = some rate ∧
      ((∀ t v, (a.track first value hold).valueAt t = .ok v → v ≤ bound) ↔
        first + rate * unit * a.time ≤ bound) :=
  track_mem_iff hcontinuous htime h (s := Set.Iic bound) Set.ordConnected_Iic hfirst hlast

/-! ## The reported scale -/

theorem exists_value_of_finalized {α : Type} [Scalar α] [WindowScalar α] {s : Stage} {n : Node α}
    {e : Element α} {f : Filter α} {key : String} {tr : Track α} (hf : n.toFilter e = .ok f)
    (hin : f.isIn s.group = true) (hfollows : f.Follows key tr) :
    ∃ x, f.finalized.options.get? key = some (.animated x) ∧
      ∀ t, IsNumber t → x.eval t = tr.valueAt t ∧ ∃ v, x.eval t = .ok v := by
  have hmem : ∀ f' ∈ [f], f' = f := fun f' hf' => by simpa using hf'
  have hlone : s.merged [f] = .ok (some f.finalized) := rfl
  have hmerged := Stage.chain_of_merged hlone
  obtain ⟨b, trs, hnest, htracks, hsound, -⟩ :=
    exists_nest (fun f' hf' => ⟨n, hmem f' hf' ▸ hf⟩) (fun f' hf' => hmem f' hf' ▸ hin)
      hmerged ⟨f, by simp, _, hfollows.option⟩
  rw [Filter.inOrder_singleton] at htracks
  cases htracks with
  | cons hb hrest =>
    cases hrest
    obtain rfl := hb.unique hfollows
    refine ⟨_, hnest, fun t ht => ?_⟩
    have hvalue := nest_value hsound ht ⟨⟨b, rfl, .inl rfl⟩, by simp⟩ (i := 0) rfl
    refine ⟨hvalue, ?_⟩
    rw [hvalue]
    exact Track.valueAt_ok ((hsound b (by simp)).inside.eval_ok t)

theorem Node.kind_of_isPaddedZoom {α : Type} [Scalar α] {n : Node α} {a : Animation α}
    (hpadded : n.isPaddedZoom = true) (hread : n.conf.normalize = .ok a) : a.kind = .zoom := by
  obtain ⟨w, hw, hkind⟩ := Descriptor.kindWord?_of_normalize hread
  unfold isPaddedZoom at hpadded
  rw [hw] at hpadded
  simp only [Bool.and_eq_true, Bool.or_eq_true, beq_iff_eq, Option.some.injEq] at hpadded
  have hzoom : Kind.ofWord? w = some .zoom := by
    rcases hpadded.1 with rfl | rfl <;> decide +kernel
  exact Option.some.inj (hkind.symm.trans hzoom)

/-- The filter of a zoom follows, in its scale, the track between the endpoints
of the zoom. -/
theorem Node.exists_zoom_track {α : Type} [Scalar α] {n : Node α} {a : Animation α}
    {e : Element α} {f : Filter α} (hread : n.conf.normalize = .ok a) (hkind : a.kind = .zoom)
    (hbuilt : n.toFilter e = .ok f) :
    ∃ first last value hold, a.scalarEndpoints = .ok (first, last) ∧
      a.windowValue first last 1.0 = .ok (value, hold) ∧ f.isIn Stage.zoom.group = true ∧
      f.Follows "z" (a.track first value hold) := by
  obtain ⟨a', ha', haf⟩ := Node.toFilter_eq_ok.1 hbuilt
  obtain rfl : a = a' := Except.ok.inj (hread.symm.trans ha')
  have hin : f.isIn Stage.zoom.group = true := by
    refine Stage.isIn_iff.2 ((Animation.group_of_toFilter haf).trans ?_)
    rw [hkind]
    rfl
  obtain ⟨tr, htrack, hfollows⟩ :=
    Animation.toFilter_tracks haf hin (show "z" ∈ Stage.zoom.tracked by simp [Stage.tracked])
  obtain ⟨first, last, hends, value, hold, hvalue, rfl⟩ := Animation.trackOf_eq_ok.1 htrack
  unfold Animation.ends at hends
  unfold Animation.unit at hvalue
  rw [hkind] at hends hvalue
  exact ⟨first, last, value, hold, hends, hvalue, hin, hfollows⟩

theorem Node.exists_zoom_value {α : Type} [Scalar α] [WindowScalar α] {n : Node α}
    {a : Animation α} {e : Element α} {f : Filter α} (hread : n.conf.normalize = .ok a)
    (hkind : a.kind = .zoom) (hbuilt : n.toFilter e = .ok f) :
    ∃ first last value hold x, a.scalarEndpoints = .ok (first, last) ∧
      a.windowValue first last 1.0 = .ok (value, hold) ∧
      f.finalized.options.get? "z" = some (.animated x) ∧
      ∀ t, IsNumber t → x.eval t = (a.track first value hold).valueAt t ∧
        ∃ v, x.eval t = .ok v := by
  obtain ⟨first, last, value, hold, hends, hvalue, hin, hfollows⟩ :=
    exists_zoom_track hread hkind hbuilt
  obtain ⟨x, hx, heval⟩ := exists_value_of_finalized hbuilt hin hfollows
  exact ⟨first, last, value, hold, x, hends, hvalue, hx, heval⟩

namespace Timeline

/-- The last zoom that asks for room. -/
def paddedZoom? {α : Type} [Scalar α] (l : Timeline α) : Option (Node α) :=
  (l.nodes.filter Node.isPaddedZoom).getLast?

theorem maxScale_eq {α : Type} [Scalar α] {l : Timeline α} {n : Node α} {a : Animation α}
    {first last : α} (hlast : l.paddedZoom? = some n) (hread : n.conf.normalize = .ok a)
    (hends : a.scalarEndpoints = .ok (first, last)) :
    l.maxScale = Scalar.larger first last := by
  have hends? : n.endpoints? = some (first, last) := by
    unfold Node.endpoints?
    rw [hread]
    dsimp only
    rw [hends]
  obtain ⟨before, hzooms⟩ := List.getLast?_eq_some_iff.1 hlast
  unfold maxScale
  rw [List.filter_reverse, hzooms]
  simp [hends?]

variable {l : Timeline A.Number} {n : Node A.Number} {a : Animation A.Number}
  {f : Filter A.Number}

/-- **How far the reported scale bounds a zoom.** Take the last zoom of a
timeline that asks for room, which can be built and does not overshoot. Finished
by itself, its filter has a scale at every time. The timeline reports the larger
of its endpoints. An eased zoom never has a larger scale; a continuous one
exceeds the report exactly if the scale it reaches at its rate does. -/
theorem zoom_le_maxScale (hA : A.Usual) (hlast : l.paddedZoom? = some n)
    (hread : n.conf.normalize = .ok a) (hbuilt : n.toFilter l.element = .ok f)
    (hinBack : a.ease ≠ .inBack) (houtBack : a.ease ≠ .outBack) :
    ∃ first last x, a.scalarEndpoints = .ok (first, last) ∧ l.maxScale = max first last ∧
      f.finalized.options.get? "z" = some (.animated x) ∧ (∀ t, ∃ v, x.eval t = .ok v) ∧
      (a.continuous = false → ∀ t v, x.eval t = .ok v → v ≤ l.maxScale) ∧
      (a.continuous = true → ∃ rate, a.rate = some rate ∧
        ((∀ t v, x.eval t = .ok v → v ≤ l.maxScale) ↔ first + rate * a.time ≤ l.maxScale)) := by
  have hpadded : n.isPaddedZoom = true :=
    (List.mem_filter.1 (List.mem_of_getLast? hlast)).2
  obtain ⟨first, last, value, hold, x, hends, hvalue, hx, heval⟩ :=
    Node.exists_zoom_value hread (Node.kind_of_isPaddedZoom hpadded hread) hbuilt
  have hscale : l.maxScale = max first last :=
    (maxScale_eq hlast hread hends).trans (Arithmetic.Number.larger_eq_max _ _)
  have htime : 0 < a.time := by
    refine lt_of_lt_of_le ?_ (Descriptor.normalize_window hread).2
    unfold windowTolerance
    norm_num
  have hsame : ∀ t v, x.eval t = .ok v ↔ (a.track first value hold).valueAt t = .ok v := by
    intro t v
    rw [(heval t (Arithmetic.Number.isNumber t)).1]
  refine ⟨first, last, x, hends, hscale, hx, fun t => (heval t (Arithmetic.Number.isNumber t)).2,
    fun heased t v hv => ?_, fun hcontinuous => ?_⟩
  · obtain ⟨w, hw, -, hhigh⟩ := Animation.track_between hA heased hinBack houtBack htime hvalue t
    obtain rfl : w = v := Except.ok.inj (hw.symm.trans ((hsame t v).1 hv))
    exact hscale ▸ hhigh
  · have hfirst : first ≤ l.maxScale := hscale ▸ le_max_left _ _
    have hlast : last ≤ l.maxScale := hscale ▸ le_max_right _ _
    obtain ⟨rate, hrate, hiff⟩ := Animation.track_le_iff hcontinuous htime hvalue hfirst hlast
    refine ⟨rate, hrate, ?_⟩
    have hone : rate * 1.0 = rate := by norm_num
    rw [hone] at hiff
    simpa only [hsame] using hiff

/-! ## Zooms of the stock -/

section Stock

open Catalog

/-- A picture on which the presets are tried. -/
noncomputable def picture : Element Arithmetic.real.Number :=
  ⟨"picture", .image, 0.0, 0.0, 320, 180, 1280, 720⟩

/-- The picture with one preset of the stock. -/
noncomputable def pictureWith (name : String) : Timeline Arithmetic.real.Number :=
  (Timeline.empty picture).addEffect .stock (.named name none none)

theorem asksWindow_named (name : String) :
    (Request.named name none none : Request Arithmetic.real.Number).AsksWindow 1 0 :=
  ⟨fun _ _ _ => rfl, congrArg some Int.cast_one, congrArg some Int.cast_zero⟩

/-- The picture with a zoom of the stock, and what the zoom is read as. -/
theorem pictureWith_zoom {name : String} {phase : Phase}
    {more : List (String × Json Arithmetic.real.Number)}
    (h : (name, stockSet "zoom" phase more) ∈ stockSingles)
    (hmore : ∀ key ∈ commonKeys, (Table.ofList more).get? key = none)
    (hnames : (more.map Prod.fst).Nodup) (hplain : ∀ e ∈ more, e.2.str? = none)
    {first last : Option (Endpoint Arithmetic.real.Number)} {rate : Option Arithmetic.real.Number}
    (hpadded : (Table.ofList more).get? "pad" = some (.bool true))
    (hstraight : (Table.ofList more).get? "ease" = none)
    (hfirst : Endpoint.readField (Table.ofList more) "from" = .ok first)
    (hlast : Endpoint.readField (Table.ofList more) "to" = .ok last)
    (hrate : finiteField (Table.ofList more) "add" = .ok rate) :
    ∃ n, (pictureWith name).paddedZoom? = some n ∧ n.conf.normalize =
      .ok ⟨.zoom, phase, 1, 0, .linear, (⟨Table.ofList more⟩ : Descriptor _).flag "ing", rate, true,
        first, last⟩ := by
  have hnodes := nodes_of_single picture rfl (asksWindow_named name) h (hmore _ (by decide))
    (by decide) (by decide)
  obtain ⟨d, hd⟩ : ∃ d, d = requested "zoom" phase more (.named name none none) picture := ⟨_, rfl⟩
  rw [← hd] at hnodes
  have hword : d.kindWord? = some "zoom" :=
    hd ▸ kindWord?_requested (asksWindow_named name) (hmore _ (by decide)) (by decide)
  have hget : ∀ key ∉ commonKeys,
      d.fields.get? key = (Table.ofList more).get? key := by
    intro key hkey
    refine (hd ▸ get?_requested_more (asksWindow_named name) hkey).trans ?_
    cases hv : (Table.ofList more).get? key with
    | none => rfl
    | some v =>
      have hmem : (key, v) ∈ more :=
        Table.mem_of_find_eq_some ((Table.get?_ofList hnames key).symm.trans hv)
      exact congrArg some (Element.resolve_of_not_str (hplain _ hmem))
  have hflag : ∀ key ∉ commonKeys,
      d.flag key = (⟨Table.ofList more⟩ : Descriptor _).flag key := by
    intro key hkey
    unfold Descriptor.flag Descriptor.get?
    rw [hget key hkey]
  have hpad : d.flag "pad" = true := by
    rw [hflag _ (by decide)]
    unfold Descriptor.flag Descriptor.get?
    rw [hpadded]
    rfl
  have hease : d.readEase = .ok .linear :=
    Descriptor.readEase_of_absent ((hget _ (by decide)).trans hstraight)
  have htime : centiseconds (1 : Arithmetic.real.Number) = 1 := by
    simpa using Arithmetic.Number.centiseconds_natCast (A := Arithmetic.real) 1
  have hpos : ¬ centiseconds (1 : Arithmetic.real.Number) ≤ 0.0 := by
    rw [htime]
    norm_num
  have hkind : Kind.ofWord? "zoom" = some .zoom := by decide +kernel
  have hread := normalize_requested (asksWindow_named name) hmore hkind (by decide) rfl rfl hpos hd
    hease ((Endpoint.readField_congr (hget _ (by decide))).trans hfirst)
    ((Endpoint.readField_congr (hget _ (by decide))).trans hlast)
    ((finiteField_congr (hget _ (by decide))).trans hrate)
  rw [htime, hpad, hflag _ (by decide)] at hread
  refine ⟨⟨d, some picture.id⟩, ?_, hread⟩
  unfold paddedZoom?
  rw [pictureWith, hnodes]
  simp [Node.isPaddedZoom, hword, hpad]

theorem exists_toFilter_zoom {n : Node Arithmetic.real.Number}
    {a : Animation Arithmetic.real.Number} (e : Element Arithmetic.real.Number)
    {first last hold : Arithmetic.real.Number} {value : Expr Arithmetic.real.Number}
    (hread : n.conf.normalize = .ok a) (hkind : a.kind = .zoom)
    (hends : a.scalarEndpoints = .ok (first, last)) (hone : ¬ (first < 1.0 ∨ last < 1.0))
    (hvalue : a.windowValue first last 1.0 = .ok (value, hold)) :
    ∃ f, n.toFilter e = .ok f := by
  unfold Node.toFilter
  rw [hread, ok_bind]
  unfold Animation.toFilter
  rw [hkind]
  dsimp only
  unfold Animation.zoomFilter
  rw [hends, ok_bind]
  dsimp only
  rw [if_neg hone, hvalue, ok_bind]
  exact ⟨_, rfl⟩

/-- The zoom that comes to rest keeps to the reported scale, one and a half. -/
theorem zoom_le_maxScale_zoomIn :
    ∃ n f x, (pictureWith "zoomIn").paddedZoom? = some n ∧ n.toFilter picture = .ok f ∧
      f.finalized.options.get? "z" = some (.animated x) ∧
      (pictureWith "zoomIn").maxScale = 1.5 ∧ ∀ t v, x.eval t = .ok v → v ≤ 1.5 := by
  have hmem : ("zoomIn", stockSet (α := Arithmetic.real.Number) "zoom" .entrance
      [("from", .num 1.5), ("to", .int 1), ("pad", .bool true)]) ∈ stockSingles := by
    simp [stockSingles]
  obtain ⟨n, hpadded, hread⟩ := pictureWith_zoom hmem (by decide) (by decide)
    (by simp [Json.str?]) rfl rfl rfl rfl rfl
  have hlast : (Scalar.ofInt 1 : Arithmetic.real.Number) = 1 := Int.cast_one
  have hone : ¬ ((1.5 : Arithmetic.real.Number) < 1.0 ∨
      (Scalar.ofInt 1 : Arithmetic.real.Number) < 1.0) := by
    rw [hlast]
    norm_num
  obtain ⟨f, hbuilt⟩ := exists_toFilter_zoom picture hread rfl rfl hone rfl
  obtain ⟨_, _, x, hends, hscale, hx, -, heased, -⟩ :=
    zoom_le_maxScale Arithmetic.usual_real hpadded hread hbuilt (by simp) (by simp)
  cases hends
  have hmax : (pictureWith "zoomIn").maxScale = 1.5 := by
    rw [hscale, hlast]
    norm_num
  exact ⟨n, f, x, hpadded, hbuilt, hx, hmax, fun t v hv => hmax ▸ heased rfl t v hv⟩

/-- The zoom that goes on coming closer is reported with the scale it starts
from, one, and has a larger one at the end of its window. -/
theorem maxScale_lt_zoomingIn :
    ∃ n a f x, (pictureWith "zoomingIn").paddedZoom? = some n ∧ n.conf.normalize = .ok a ∧
      a.ease = .linear ∧ n.toFilter picture = .ok f ∧
      f.finalized.options.get? "z" = some (.animated x) ∧
      (pictureWith "zoomingIn").maxScale = 1 ∧ x.eval 1 = .ok 1.1 := by
  have hmem : ("zoomingIn", stockSet (α := Arithmetic.real.Number) "zoom" .entrance
      [("from", .int 1), ("ing", .bool true), ("add", .num 0.1), ("pad", .bool true)]) ∈
        stockSingles := by
    simp [stockSingles]
  obtain ⟨n, hpadded, hread⟩ := pictureWith_zoom hmem (by decide) (by decide)
    (by simp [Json.str?]) rfl rfl rfl rfl rfl
  have hfirst : (Scalar.ofInt 1 : Arithmetic.real.Number) = 1 := Int.cast_one
  have hone : ¬ ((Scalar.ofInt 1 : Arithmetic.real.Number) < 1.0 ∨
      (1.0 : Arithmetic.real.Number) < 1.0) := by
    rw [hfirst]
    norm_num
  obtain ⟨f, hbuilt⟩ := exists_toFilter_zoom picture hread rfl rfl hone rfl
  obtain ⟨_, _, _, _, x, hends, hvalue, hx, heval⟩ := Node.exists_zoom_value hread rfl hbuilt
  cases hends
  cases hvalue
  have hmax : (pictureWith "zoomingIn").maxScale = 1 := by
    rw [maxScale_eq hpadded hread rfl, Arithmetic.Number.larger_eq_max, hfirst]
    norm_num
  refine ⟨n, _, f, x, hpadded, hread, rfl, hbuilt, hx, hmax,
    (heval 1 (Arithmetic.Number.isNumber 1)).1.trans ?_⟩
  have hopen : ¬ (1 : Arithmetic.real.Number) < 0 := by norm_num
  have hclose : (1 : Arithmetic.real.Number) ≤ 0 + 1 := by norm_num
  refine (if_neg hopen).trans ((if_pos hclose).trans (congrArg Except.ok ?_))
  rw [Arithmetic.Number.linearValue_one, hfirst]
  norm_num

end Stock

end Timeline

end Tween
