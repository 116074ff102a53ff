/-
Which numbers are compiled. Settings are checked when a filter is written, so
they are finite. The numbers of an expression are not: they are exactly those
that its animations compute from their fields (`Animation.derived`) and some
that are finite by themselves. So all numbers of a compiled timeline are finite
exactly if the computed ones are (`Timeline.compile_finite_iff`), which finite
fields do not ensure (`Timeline.compile_endless`).
-/
import Tween.Proofs.Double.Decimals
import Tween.Proofs.Endpoints
import Tween.Proofs.Numbers

namespace Tween

variable {α : Type} [Scalar α]

/-! ## Curves -/

namespace Ease

/-- The numbers that curves are made with. -/
def literals : List α :=
  [0.0, 0.5, 1.0, 2.0, -2.0, 3.0, 4.0, 8.0, 10.0, -10.0, Scalar.pi, Scalar.pi / 2.0, overshoot,
    overshoot + 1.0]

/-- The expression of a curve has the numbers of the progress, and literals. -/
theorem allFinite_curve (hlit : AllFinite (literals : List α)) (e : Ease) {p : Expr α} :
    AllFinite (e.curve p).numbers ↔ AllFinite p.numbers := by
  simp only [literals, allFinite_cons, allFinite_nil, and_true] at hlit
  obtain ⟨h0, hhalf, h1, h2, hminus2, h3, h4, h8, h10, hminus10, hpi, hhalfPi, hover, hover1⟩ :=
    hlit
  cases e <;> simp [curve, h0, hhalf, h1, h2, hminus2, h3, h4, h8, h10, hminus10, hpi, hhalfPi,
    hover, hover1]

/-- The value inside a window has the numbers it is built from, and literals. A
base that is left out is zero. -/
theorem allFinite_valueExpr (hlit : AllFinite (literals : List α)) (e : Ease)
    {base change duration delay : α} (hbase : Scalar.isFinite base = true) :
    AllFinite (e.valueExpr base change duration delay).numbers ↔
      AllFinite [change, duration, delay] := by
  unfold valueExpr
  split
  · simp [Expr.numbers, hbase]
  · have hprogress : AllFinite ((.time - .const delay) / .const duration : Expr α).numbers ↔
        AllFinite [delay, duration] := by
      simp
    dsimp only
    split
    · simp [allFinite_curve hlit, and_comm]
    · simp [allFinite_curve hlit, hbase, and_comm]

end Ease

/-! ## Tracks -/

/-- The numbers of a track. -/
def Track.numbers (tr : Track α) : List α :=
  [tr.opening, tr.closing, tr.before, tr.after] ++ tr.inside.numbers

theorem allFinite_nest {tr : Track α} {trs : List (Track α)} :
    AllFinite (nest tr trs).numbers ↔ ∀ b ∈ tr :: trs, AllFinite b.numbers := by
  have hgated (tr : Track α) (outside : Expr α) : AllFinite (tr.gated outside).numbers ↔
      AllFinite (tr.opening :: tr.closing :: tr.before :: tr.inside.numbers) ∧
        AllFinite outside.numbers := by
    simp [Track.gated, Expr.numbers]
    tauto
  have htrack (tr : Track α) : AllFinite tr.numbers ↔
      AllFinite (tr.opening :: tr.closing :: tr.before :: tr.inside.numbers) ∧
        Scalar.isFinite tr.after = true := by
    simp [Track.numbers]
    tauto
  induction trs generalizing tr with
  | nil =>
    rw [nest, hgated, List.forall_mem_singleton, htrack]
    simp [Expr.numbers]
  | cons b rest ih =>
    have hseam : AllFinite (Filter.seam b.opening tr.after (nest b rest)).numbers ↔
        Scalar.isFinite b.opening = true ∧ Scalar.isFinite tr.after = true ∧
          AllFinite (nest b rest).numbers := by
      rw [Filter.seam_eq]
      simp
    -- The seam repeats the start of the next window, which is in its track too.
    have hopening : AllFinite b.numbers → Scalar.isFinite b.opening = true :=
      fun h => h _ (by simp [Track.numbers])
    have hrest : AllFinite (nest b rest).numbers ↔ ∀ c ∈ b :: rest, AllFinite c.numbers := ih
    rw [nest, hgated, hseam, List.forall_mem_cons, hrest, htrack, and_assoc]
    exact and_congr_right fun _ =>
      ⟨fun h => h.2, fun h => ⟨hopening (h.2 b (by simp)), h⟩⟩

namespace Animation

/-- The numbers that an animation computes from its fields for an option: where
its window ends, the first and the last value as they are built, and inside the
window the change and the length of it, or the rate in the size of a unit and
the value held after it. -/
def derived (a : Animation α) (e : Element α) (key : String) : Except (Error α) (List α) := do
  let (first, last) ← a.ends e key
  if a.continuous then do
    let rate ← a.requireRate
    let rate := rate * a.unit
    pure [a.finish, first, rate, if a.last.isSome then last else first + rate * a.time]
  else pure [a.finish, first, last, last - first, a.time]

/-- The numbers of a track are finite exactly if those computed for it are. -/
theorem exists_derived {a : Animation α} {e : Element α} {key : String} {tr : Track α}
    (hlit : AllFinite (Ease.literals : List α)) (hdelay : Scalar.isFinite a.delay = true)
    (h : a.trackOf e key = .ok tr) :
    ∃ xs, a.derived e key = .ok xs ∧ (AllFinite tr.numbers ↔ AllFinite xs) := by
  obtain ⟨first, last, hends, value, hold, hvalue, rfl⟩ := trackOf_eq_ok.1 h
  have hone : Scalar.isFinite (1.0 : α) = true := hlit _ (by simp [Ease.literals])
  unfold derived
  rw [hends, ok_bind]
  unfold windowValue at hvalue
  dsimp only
  split at hvalue
  · rename_i hcontinuous
    simp only [bind_eq_ok, pure_eq_ok, Prod.mk.injEq] at hvalue
    obtain ⟨rate, hrate, rfl, rfl⟩ := hvalue
    rw [if_pos hcontinuous, hrate]
    refine ⟨_, rfl, ?_⟩
    simp [Track.numbers, track, Expr.numbers, hdelay, hone]
    tauto
  · rename_i heased
    rw [if_neg heased]
    refine ⟨_, rfl, ?_⟩
    simp only [Except.ok.injEq, Prod.mk.injEq] at hvalue
    obtain ⟨rfl, rfl⟩ := hvalue
    by_cases hbase : Scalar.isFinite first = true
    · simp [Track.numbers, track, hdelay, hbase, Ease.allFinite_valueExpr hlit]
    · simp [Track.numbers, track, hbase]

end Animation

/-! ## Filters and timelines -/

namespace Filter

theorem allFinite_numbers {f : Filter α} : AllFinite f.numbers ↔ f.FiniteSettings ∧
    ∀ key x, f.options.get? key = some (.animated x) → AllFinite x.numbers := by
  have hmem : ∀ key v, f.options.get? key = some v → ∀ x ∈ v.numbers, x ∈ f.numbers :=
    fun key v hv x hx =>
      List.mem_flatMap.2 ⟨(key, v), (Table.mem_entries_iff _ _ _).2 hv, hx⟩
  constructor
  · exact fun h => ⟨fun key x hx => h x (hmem key _ hx x (by simp [OptionValue.numbers])),
      fun key x hx y hy => h y (hmem key _ hx y hy)⟩
  · rintro ⟨hfixed, hanimated⟩ y hy
    obtain ⟨⟨key, v⟩, he, hy⟩ := List.mem_flatMap.1 hy
    rw [Table.mem_entries_iff] at he
    cases v with
    | animated x => exact hanimated key x he y hy
    | fixed x =>
      cases x with
      | number x =>
        obtain rfl : y = x := by simpa [OptionValue.numbers] using hy
        exact hfixed key y he
      | text x => simp [OptionValue.numbers] at hy

theorem finiteSettings_of_toSpec {f : Filter α} {spec : Spec α} (h : f.toSpec = .ok spec) :
    f.FiniteSettings := by
  intro key x hx
  obtain ⟨options, hoptions, -⟩ := bind_eq_ok.1 h
  obtain ⟨v, hv, -⟩ := Table.get?_traverse_some hoptions hx
  unfold OptionValue.toJson at hv
  dsimp only at hv
  split at hv
  · rename_i hfinite
    exact hfinite
  · cases hv

end Filter

namespace Timeline

variable [WindowScalar α] {l : Timeline α} {fs gs : List (Filter α)} {s : Stage} {g : Filter α}

theorem allFinite_merged (hlit : AllFinite (Ease.literals : List α)) (hfs : l.filters = .ok fs)
    (hmerged : s.merged (fs.filter fun f => f.isIn s.group) = .ok (some g)) {key : String}
    (hkey : key ∈ s.tracked) :
    ∃ x, g.options.get? key = some (.animated x) ∧ (AllFinite x.numbers ↔
      ∀ a ∈ l.schedule s, ∃ xs, a.derived l.element key = .ok xs ∧ AllFinite xs) := by
  obtain ⟨tr, trs, hnest, -, htracks⟩ := exists_nest_of_merged hfs hmerged hkey
  refine ⟨_, hnest, ?_⟩
  rw [Expr.numbers_collapseElse, allFinite_nest]
  have hderived : ∀ a ∈ l.schedule s, ∀ b, a.trackOf l.element key = .ok b →
      ∃ xs, a.derived l.element key = .ok xs ∧ (AllFinite b.numbers ↔ AllFinite xs) := by
    intro a ha b hb
    obtain ⟨n, -, -, hread⟩ := mem_schedule.1 ha
    exact Animation.exists_derived hlit (Descriptor.normalize_window hread).1 hb
  constructor
  · intro h a ha
    obtain ⟨f, hf, haf⟩ := exists_filter_of_mem_schedule hfs ha
    obtain ⟨b, hb, -⟩ := Animation.toFilter_tracks haf (List.mem_filter.1 hf).2 hkey
    obtain ⟨xs, hxs, hiff⟩ := hderived a ha b hb
    exact ⟨xs, hxs, hiff.1 (h b ((htracks b).2 ⟨a, ha, hb⟩))⟩
  · intro h b hb
    obtain ⟨a, ha, htrack⟩ := (htracks b).1 hb
    obtain ⟨xs, hxs, hiff⟩ := hderived a ha b htrack
    obtain ⟨xs', hxs', hfinite⟩ := h a ha
    obtain rfl : xs = xs' := Except.ok.inj (hxs.symm.trans hxs')
    exact hiff.2 hfinite

/-- What the animations compute for the options of their stages is finite. -/
def ComputesFinite (l : Timeline α) : Prop :=
  ∀ s, ∀ a ∈ l.schedule s, ∀ key ∈ s.tracked,
    ∃ xs, a.derived l.element key = .ok xs ∧ AllFinite xs

/-- **The numbers of a composed timeline**, its settings aside, are finite
exactly if the computed ones are. -/
theorem allFinite_compose (hlit : AllFinite (Ease.literals : List α)) (h : l.compose = .ok gs)
    (hsettings : ∀ g ∈ gs, g.FiniteSettings) :
    (∀ g ∈ gs, AllFinite g.numbers) ↔ l.ComputesFinite := by
  obtain ⟨fs, hfs, -⟩ := bind_eq_ok.1 h
  constructor
  · intro hall s a ha key hkey
    obtain ⟨g, hg, hname, -⟩ := exists_mem_compose h (List.ne_nil_of_mem ha)
    obtain ⟨x, hx, hiff⟩ := allFinite_merged hlit hfs (merged_of_mem_compose hfs h hg hname) hkey
    exact hiff.1 ((Filter.allFinite_numbers.1 (hall g hg)).2 key x hx) a ha
  · intro hall g hg
    refine Filter.allFinite_numbers.2 ⟨hsettings g hg, fun key x hx => ?_⟩
    rcases cases_of_mem_compose hfs h hg with rfl | ⟨s, hmerged⟩ | ⟨a, rfl⟩
    · obtain ⟨text, htext⟩ := Stage.text_of_scaleFilter hx
      cases htext
    · have hkey := Stage.tracked_of_merged (l.fits_schedule hfs s) hmerged hx
      obtain ⟨y, hy, hiff⟩ := allFinite_merged hlit hfs hmerged hkey
      obtain rfl : x = y := by
        rw [hx] at hy
        cases hy
        rfl
      exact hiff.2 fun a ha => hall s a ha key hkey
    · exact absurd hx Animation.not_animated_fadeFilter

end Timeline

/-! ## Texts -/

section

variable {e : Element α} {key text : String}

theorem Stage.legible_setting? {s : Stage} (h : s.setting? e key = some (.text text)) :
    Legible text := by
  have hsize : Legible (String.ofList (digits e.width ++ 'x' :: digits e.height)) := by
    refine .of_forall fun c hc => ?_
    rw [String.toList_ofList] at hc
    rcases List.mem_append.1 hc with hc | hc
    · exact ne_of_isDigit (isDigit_of_mem_digits hc)
    · rcases List.mem_cons.1 hc with rfl | hc
      · decide
      · exact ne_of_isDigit (isDigit_of_mem_digits hc)
  unfold setting? at h
  split at h
  all_goals cases h
  all_goals first
    | exact .of_all (by decide)
    | exact hsize

omit [Scalar α] in
theorem legible_scaleFilter
    (h : (Stage.scaleFilter : Filter α).options.get? key = some (.fixed (.text text))) :
    Legible text := by
  simp only [Stage.scaleFilter, Filter.get?_withText, Filter.plain, Table.get?_empty] at h
  split at h
  · cases h
    exact .of_all (by decide)
  · split at h
    · cases h
      exact .of_all (by decide)
    · cases h

theorem legible_fadeFilter {a : Animation α}
    (h : a.fadeFilter.options.get? key = some (.fixed (.text text))) : Legible text := by
  have hword : Legible a.phase.word := by cases a.phase <;> exact .of_all (by decide)
  obtain rfl : text = a.phase.word := by simpa using Animation.option_of_fadeFilter h
  exact hword

/-- The texts of a filter that is written are legible, if its clock and those
among its settings are and its numbers are finite. -/
theorem Filter.legible_toSpec [DecimalScalar α] {f : Filter α} {spec : Spec α}
    (h : f.toSpec = .ok spec) (hclock : Legible f.clock) (hfinite : AllFinite f.numbers)
    (hsettings : ∀ key text, f.options.get? key = some (.fixed (.text text)) → Legible text)
    (htext : spec.options.get? key = some (.str text)) : Legible text := by
  obtain ⟨options, hoptions, h⟩ := bind_eq_ok.1 h
  obtain rfl := pure_eq_ok.1 h
  cases hv : f.options.get? key with
  | none =>
    have hnone := Table.get?_traverse_none hoptions hv
    dsimp only at htext
    rw [hnone] at htext
    cases htext
  | some v =>
    obtain ⟨j, hj, hsome⟩ := Table.get?_traverse_some hoptions hv
    obtain rfl : j = .str text := Option.some.inj (hsome.symm.trans htext)
    cases v with
    | animated x =>
      unfold OptionValue.toJson at hj
      dsimp only at hj
      split at hj
      · rename_i hrender
        cases hj
        exact Expr.legible_render hclock hrender ((Filter.allFinite_numbers.1 hfinite).2 key x hv)
      · cases hj
    | fixed x =>
      cases x with
      | number x =>
        unfold OptionValue.toJson at hj
        dsimp only at hj
        split at hj <;> cases hj
      | text s =>
        cases hj
        exact hsettings key text hv

end

namespace Timeline

theorem legible_compose [WindowScalar α] {l : Timeline α} {gs : List (Filter α)}
    (h : l.compose = .ok gs) {g : Filter α} (hg : g ∈ gs) {key text : String}
    (htext : g.options.get? key = some (.fixed (.text text))) : Legible text := by
  obtain ⟨fs, hfs, -⟩ := bind_eq_ok.1 h
  rcases cases_of_mem_compose hfs h hg with rfl | ⟨s, hmerged⟩ | ⟨a, rfl⟩
  · exact legible_scaleFilter htext
  · by_cases hkey : key ∈ s.tracked
    · obtain ⟨tr, trs, hnest, -⟩ := exists_nest_of_merged hfs hmerged hkey
      rw [htext] at hnest
      cases hnest
    · obtain ⟨x, hx, hsetting⟩ :=
        Stage.fixed_of_merged (l.fits_schedule hfs s) hmerged hkey htext
      cases hx
      exact Stage.legible_setting? hsetting
  · exact legible_fadeFilter htext

theorem legible_clock {l : Timeline α} {gs : List (Filter α)} (h : l.compose = .ok gs)
    {g : Filter α} (hg : g ∈ gs) : Legible g.clock := by
  have hplain : Legible "t" := .of_all (by decide)
  obtain ⟨fs, hfs, -⟩ := bind_eq_ok.1 h
  rcases cases_of_mem_compose hfs h hg with rfl | ⟨s, hmerged⟩ | ⟨a, rfl⟩
  · exact hplain
  · rw [(stage_of_merged hfs hmerged).2]
    cases s <;> exact .of_all (by decide)
  · exact hplain

/-- **When compiled numbers are finite.** If a timeline of doubles can be
compiled, its settings are finite. All its numbers are exactly if those are that
the animations compute from their fields, which is not checked. Then no option is
written with a word for a number that is not finite. -/
theorem compile_finite_iff {l : Timeline Float} {specs : List (Spec Float)}
    (h : l.compile = .ok specs) :
    ∃ gs, l.compose = .ok gs ∧ (∀ g ∈ gs, g.FiniteSettings) ∧
      ((∀ g ∈ gs, AllFinite g.numbers) ↔ l.ComputesFinite) ∧
      (l.ComputesFinite → ∀ spec ∈ specs, ∀ key text,
        spec.options.get? key = some (.str text) →
          ¬ "inf".toList <:+: text.toList ∧ ¬ "NaN".toList <:+: text.toList) := by
  have hlit : AllFinite (Ease.literals : List Float) := by decide +kernel
  obtain ⟨gs, hgs, hspecs⟩ := bind_eq_ok.1 h
  have hsettings : ∀ g ∈ gs, g.FiniteSettings := by
    intro g hg
    obtain ⟨spec, -, hspec⟩ := exists_of_mem_of_mapM hspecs hg
    exact Filter.finiteSettings_of_toSpec hspec
  have hiff := allFinite_compose hlit hgs hsettings
  refine ⟨gs, hgs, hsettings, hiff, fun hfinite spec hspec key text htext => ?_⟩
  obtain ⟨g, hg, hwritten⟩ := exists_of_mem_mapM hspecs hspec
  have hlegible := Filter.legible_toSpec hwritten (legible_clock hgs hg) (hiff.2 hfinite g hg)
    (fun _ _ hsetting => legible_compose hgs hg hsetting) htext
  exact ⟨hlegible.not_infinite, hlegible.not_nan⟩

/-- A picture that comes into view and goes on coming closer. -/
def comeCloser : Timeline Float :=
  (Timeline.empty ⟨"picture", .image, 0.0, 0.0, 320, 180, 1280, 720⟩).addAll
    [.make "alpha" .entrance 0.5 0.0,
      ((Descriptor.make "zoom" .entrance 2.0 0.0).set "ing" (.bool true)).set "add" (.num 0.1)]

/-- All its numbers are finite. -/
theorem compile_finite_iff_comeCloser :
    ∃ specs gs, comeCloser.compile = .ok specs ∧ comeCloser.compose = .ok gs ∧
      ∀ g ∈ gs, AllFinite g.numbers := by
  obtain ⟨specs, hspecs, -⟩ := exists_of_toOption_any (x := comeCloser.compile)
    (p := fun _ => true) (by decide +kernel)
  have hcomputed : (Stage.all.all fun s => (comeCloser.schedule s).all fun a => s.tracked.all
      fun key => (a.derived comeCloser.element key).toOption.any fun xs =>
        decide (AllFinite xs)) = true := by decide +kernel
  have hfinite : comeCloser.ComputesFinite := by
    intro s a ha key hkey
    have hstage := List.all_eq_true.1 hcomputed s (show s ∈ Stage.all by cases s <;> decide)
    have hkeys := List.all_eq_true.1 (List.all_eq_true.1 hstage a ha) key hkey
    obtain ⟨xs, hxs, hall⟩ := exists_of_toOption_any hkeys
    exact ⟨xs, hxs, of_decide_eq_true hall⟩
  obtain ⟨gs, hgs, -, hiff, -⟩ := compile_finite_iff hspecs
  exact ⟨specs, gs, hspecs, hgs, hiff.2 hfinite⟩

/-- A picture that takes longer to come into view than can be counted in
hundredths of a second. -/
def endless : Timeline Float :=
  (Timeline.empty ⟨"picture", .image, 0.0, 0.0, 320, 180, 1280, 720⟩).addAll
    [.make "alpha" .entrance 1e307 0.0]

/-- The given length is finite, yet its window has no finite end, and this is
what is written. -/
theorem compile_endless :
    Scalar.isFinite (1e307 : Float) = true ∧
      ∃ specs gs, endless.compile = .ok specs ∧ endless.compose = .ok gs ∧
        (∃ g ∈ gs, ¬ AllFinite g.numbers) ∧ ∃ spec ∈ specs,
          spec.options.get? "alpha" =
            some (.str "if(lt(t,0),0,if(between(t,0,inf),t/inf,1))") := by
  obtain ⟨specs, hspecs, hwritten⟩ := exists_of_toOption_any (x := endless.compile)
    (p := fun specs => specs.any fun spec => (spec.options.get? "alpha").bind Json.str? ==
      some "if(lt(t,0),0,if(between(t,0,inf),t/inf,1))") (by decide +kernel)
  obtain ⟨gs, hgs, hinfinite⟩ := exists_of_toOption_any (x := endless.compose)
    (p := fun gs => gs.any fun g => !decide (AllFinite g.numbers)) (by decide +kernel)
  obtain ⟨g, hg, hnumbers⟩ := List.any_eq_true.1 hinfinite
  obtain ⟨spec, hspec, htext⟩ := List.any_eq_true.1 hwritten
  obtain ⟨v, hget, hv⟩ := Option.bind_eq_some_iff.1 (beq_iff_eq.1 htext)
  refine ⟨by decide +kernel, specs, gs, hspecs, hgs, ⟨g, hg, by simpa using hnumbers⟩, spec, hspec,
    hget.trans ?_⟩
  cases v <;> simp_all [Json.str?]

end Timeline

end Tween
