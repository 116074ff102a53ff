/-
The slots of filters as they are built. An animated option is open in one place
only, where it falls to the value its filter holds (`Track.fallsTo_gated`), and
a filter holds a value for exactly the options it animates
(`Animation.holds_of_toFilter`). Which options these are is a matter of the kind
of animation, and so are all others but the window of a fade
(`Node.open_of_toFilter`).
-/
import Tween.Proofs.Agreement
import Tween.Proofs.Defaults
import Tween.Proofs.History

namespace Tween

variable {α : Type}

theorem Table.exists_get?_ofList {β : Type} {l : List (String × β)} {key : String} :
    (∃ v, (ofList l).get? key = some v) ↔ key ∈ l.map Prod.fst := by
  induction l with
  | nil => simp [ofList]
  | cons entry l ih =>
    rw [get?_ofList_cons, List.map_cons, List.mem_cons, ← ih]
    cases (ofList l).get? key with
    | none => simp
    | some v => simp

/-- An expression is open in one place only, a fallback to a given number. -/
structure Expr.FallsTo (x : Expr α) (hold : α) : Prop where
  slots : x.slots = [.fallback]
  fallbacks : x.fallbacks = [.const hold]
  delays : x.delays = 0

/-- The options of a fade that tell its window and its direction. -/
def fadeTiming : List String := ["t", "st", "d"]

/-- **A track with an open end** falls to the value that is held after it. -/
theorem Track.fallsTo_gated {tr : Track α} (h : tr.inside.IsClosed) :
    (tr.gated (.elseSlot (.const tr.after))).FallsTo tr.after := by
  have hslots := Expr.isClosed_iff_slots.1 h
  refine ⟨?_, ?_, ?_⟩
  · simp only [gated, Expr.ifLt, Expr.slots, hslots, List.nil_append]
  · simp only [gated, Expr.ifLt, Expr.fallbacks, h.fallbacks, List.nil_append]
  · simp only [gated, Expr.ifLt, Expr.delays, h.delays, Nat.add_zero]

namespace Filter

/-- A filter has a window, and holds values for exactly the given options. -/
def HoldsFor (f : Filter α) (keys : List String) : Prop :=
  ∃ w, f.window = some w ∧ ∀ key, (∃ hold, w.holds.get? key = some hold) ↔ key ∈ keys

theorem holdsFor_ofList {f : Filter α} {time delay : α} (holds : List (String × α))
    (h : f.window = some ⟨time, delay, Table.ofList holds⟩) : f.HoldsFor (holds.map Prod.fst) :=
  ⟨_, h, fun _ => Table.exists_get?_ofList⟩

/-- A filter can be continued after the window of an animation: it has this
window, it holds a value for exactly the options it animates, and each of them
is open where it falls to this value. -/
structure IsOpen (f : Filter α) (a : Animation α) (w : Window α) : Prop where
  window : f.window = some w
  delay : w.delay = a.delay
  time : w.time = a.time
  holds : ∀ key, (∃ hold, w.holds.get? key = some hold) ↔ f.Animates key
  falls : ∀ key x, f.options.get? key = some (.animated x) →
    ∃ hold, w.holds.get? key = some hold ∧ x.FallsTo hold

/-- A filter is the renderer's own fade of an animation: nothing in it is
animated and it cannot be continued, and it tells which way the animation fades,
when it starts and how long it takes. -/
structure FadesFor (f : Filter α) (a : Animation α) : Prop where
  window : f.window = none
  still : ∀ key, ¬ f.Animates key
  direction : f.options.get? "t" =
    some (.fixed (.text (if a.phase = .exit then "out" else "in")))
  start : f.options.get? "st" = some (.fixed (.number a.delay))
  length : f.options.get? "d" = some (.fixed (.number a.time))

end Filter

variable [Scalar α]

theorem Stage.Fits.animates_iff {s : Stage} {e : Element α} {a : Animation α} {f : Filter α}
    (h : s.Fits e a f) {key : String} : f.Animates key ↔ key ∈ s.tracked := by
  constructor
  · rintro ⟨x, hx⟩
    by_contra hkey
    obtain ⟨y, hy, -⟩ := h.fixed key _ hkey hx
    cases hy
  · intro hkey
    obtain ⟨tr, hfollows, -⟩ := h.follows key hkey
    exact ⟨_, hfollows.option⟩

namespace Animation

variable {a : Animation α} {e : Element α} {f : Filter α} {s : Stage}

/-- **What a filter holds.** It holds a value for each option that its stage
animates, and for no other. -/
theorem holds_of_toFilter (h : a.toFilter e = .ok f) (hs : a.kind.stage? = some s) :
    f.HoldsFor s.tracked := by
  unfold toFilter at h
  cases hk : a.kind with
  | fade | reveal =>
    rw [hk] at hs
    cases hs
  | alpha =>
    simp only [hk, alphaFilter, bind_eq_ok, pure_eq_ok] at h
    obtain ⟨_, -, ⟨value, hold⟩, -, rfl⟩ := h
    rw [hk] at hs
    cases hs
    exact Filter.holdsFor_ofList [("alpha", hold)] rfl
  | rotate =>
    simp only [hk, rotateFilter, bind_eq_ok, pure_eq_ok] at h
    obtain ⟨_, -, ⟨value, hold⟩, -, rfl⟩ := h
    rw [hk] at hs
    cases hs
    split
    · exact Filter.holdsFor_ofList [("a", hold)] rfl
    · exact Filter.holdsFor_ofList [("a", hold)] rfl
  | zoom =>
    simp only [hk, zoomFilter] at h
    obtain ⟨_, -, h⟩ := bind_eq_ok.1 h
    split at h
    · cases h
    · simp only [bind_eq_ok, pure_eq_ok] at h
      obtain ⟨⟨value, hold⟩, -, rfl⟩ := h
      rw [hk] at hs
      cases hs
      exact Filter.holdsFor_ofList [("z", hold)] rfl
  | move =>
    simp only [hk, overlayFilter, bind_eq_ok, pure_eq_ok] at h
    obtain ⟨_, -, ⟨valueX, holdX⟩, -, ⟨valueY, holdY⟩, -, rfl⟩ := h
    rw [hk] at hs
    cases hs
    exact Filter.holdsFor_ofList [("x", holdX), ("y", holdY)] rfl

/-- **A filter of a stage is open** after the window of its animation. -/
theorem exists_isOpen (h : a.toFilter e = .ok f) (hs : a.kind.stage? = some s) :
    ∃ w, f.IsOpen a w := by
  have hfits := toFilter_stage h hs
  obtain ⟨w, hw, hholds⟩ := holds_of_toFilter h hs
  obtain ⟨w', hw', hdelay, htime⟩ := hfits.window
  obtain rfl : w = w' := Option.some.inj (hw ▸ hw')
  refine ⟨w, hw, hdelay, htime, fun key => (hholds key).trans hfits.animates_iff.symm,
    fun key x hx => ?_⟩
  obtain ⟨tr, hfollows, hclosed⟩ := hfits.follows key (hfits.animates_iff.1 ⟨x, hx⟩)
  obtain ⟨v, hv, -, -, hhold⟩ := hfollows.window
  obtain rfl : w = v := Option.some.inj (hw ▸ hv)
  obtain rfl : x = tr.gated (.elseSlot (.const tr.after)) :=
    OptionValue.animated.inj (Option.some.inj (hx ▸ hfollows.option))
  exact ⟨_, hhold, Track.fallsTo_gated hclosed⟩

theorem fadesFor_fadeFilter (a : Animation α) : a.fadeFilter.FadesFor a where
  window := rfl
  still := fun _ ⟨_, hx⟩ => not_animated_fadeFilter hx
  direction := by cases hphase : a.phase <;> simp [fadeFilter, hphase, Phase.word]
  start := by simp [fadeFilter]
  length := by simp [fadeFilter]

/-- Fades differ in their timing only. -/
theorem option_fadeFilter_eq (a b : Animation α) {key : String} (hkey : key ∉ fadeTiming) :
    a.fadeFilter.options.get? key = b.fadeFilter.options.get? key := by
  simp only [fadeTiming, List.mem_cons, List.not_mem_nil, or_false, not_or] at hkey
  obtain ⟨ht, hst, hd⟩ := hkey
  simp only [fadeFilter, Filter.get?_withNumber, Filter.get?_withText, ht, hst, hd, if_false]

end Animation

/-- **Two filters of one kind** on one element animate the same options, and
give the others the same values, but for the timing of a fade. -/
theorem Animation.alike_of_toFilter {a b : Animation α} {e : Element α} {f g : Filter α}
    (hf : a.toFilter e = .ok f) (hg : b.toFilter e = .ok g) (hkind : b.kind = a.kind) :
    (∀ key, f.Animates key ↔ g.Animates key) ∧
      ∀ key s s', (a.kind.stage? = none → key ∉ fadeTiming) →
        f.options.get? key = some (.fixed s) → g.options.get? key = some (.fixed s') → s = s' := by
  cases hstage : a.kind.stage? with
  | none =>
    obtain rfl := toFilter_fade hf hstage
    obtain rfl := toFilter_fade hg (hkind ▸ hstage)
    refine ⟨fun key => iff_of_false ?_ ?_, fun key s s' hkey hs hs' => ?_⟩
    · exact fun ⟨x, hx⟩ => not_animated_fadeFilter hx
    · exact fun ⟨x, hx⟩ => not_animated_fadeFilter hx
    · rw [option_fadeFilter_eq b a (hkey rfl)] at hs'
      exact OptionValue.fixed.inj (Option.some.inj (hs ▸ hs'))
  | some stage =>
    have hfits := toFilter_stage hf hstage
    have hfits' := toFilter_stage hg (hkind ▸ hstage)
    refine ⟨fun key => hfits.animates_iff.trans hfits'.animates_iff.symm,
      fun key s s' _ hs hs' => ?_⟩
    have hkey : key ∉ stage.tracked := fun hkey => by
      obtain ⟨x, hx⟩ := hfits.animates_iff.2 hkey
      rw [hs] at hx
      cases hx
    obtain ⟨x, hx, hsetting⟩ := hfits.fixed key _ hkey hs
    obtain ⟨x', hx', hsetting'⟩ := hfits'.fixed key _ hkey hs'
    rw [OptionValue.fixed.inj hx, OptionValue.fixed.inj hx']
    exact Option.some.inj (hsetting ▸ hsetting')

/-- **Slots of a filter as it is built.** One animation has one filter. A fade
animates nothing and has no window, and its timing is that of the animation. Any
other filter can be continued after the window of the animation: it holds a value
for exactly the options it animates, and each of these is open in one place, where
it falls to that value. Two animations of one kind on one element animate the same
options, and give the others the same values, but for the timing of a fade. -/
theorem Node.open_of_toFilter {n : Node α} {e : Element α} {f : Filter α}
    (h : n.toFilter e = .ok f) :
    (⟨e, [n]⟩ : Timeline α).filters = .ok [f] ∧
      ∃ a, n.conf.normalize = .ok a ∧
        (a.kind = .fade ∨ a.kind = .reveal → f.FadesFor a) ∧
        (¬ (a.kind = .fade ∨ a.kind = .reveal) → ∃ w, f.IsOpen a w) ∧
        ∀ (m : Node α) b g, m.conf.normalize = .ok b → m.toFilter e = .ok g → b.kind = a.kind →
          (∀ key, f.Animates key ↔ g.Animates key) ∧
          ∀ key s s', (a.kind = .fade ∨ a.kind = .reveal → key ∉ fadeTiming) →
            f.options.get? key = some (.fixed s) → g.options.get? key = some (.fixed s') →
            s = s' := by
  obtain ⟨a, ha, hf⟩ := Node.toFilter_eq_ok.1 h
  simp only [← Kind.stage?_eq_none]
  refine ⟨mapM_eq_ok.2 (.cons h .nil), a, ha, fun hfade => ?_, fun hstage => ?_,
    fun m b g hb hg hkind => ?_⟩
  · obtain rfl := Animation.toFilter_fade hf hfade
    exact a.fadesFor_fadeFilter
  · obtain ⟨s, hs⟩ := Option.ne_none_iff_exists'.1 hstage
    exact Animation.exists_isOpen hf hs
  · obtain ⟨b', hb', hg'⟩ := Node.toFilter_eq_ok.1 hg
    obtain rfl : b = b' := Except.ok.inj (hb.symm.trans hb')
    exact Animation.alike_of_toFilter hf hg' hkind

/-- A poster that turns out of view. -/
def turnOut : Node Float := .ofDescriptor (.make "rotate" .exit 0.5 2.0)

/-- It turns into view in a frame that is large enough. -/
def turnIn : Node Float :=
  .ofDescriptor ((Descriptor.make "rotate" .entrance 0.5 0.0).set "pad" (.bool true))

/-- A poster that fades in. -/
def fadeInAt (delay : Float) : Node Float := .ofDescriptor (.make "fade" .entrance 1.0 delay)

def poster : Element Float :=
  ⟨"poster", .image, 0.0, 0.0, 320, 180, 1280, 720⟩

/-- The angle of either turn is open, and what lies outside the picture is empty
in both. A fade tells its own timing. -/
theorem Node.open_of_toFilter_turnInOut :
    (∃ f g a w, turnOut.toFilter poster = .ok f ∧ turnIn.toFilter poster = .ok g ∧
      turnOut.conf.normalize = .ok a ∧ f.IsOpen a w ∧
      (∀ key, f.Animates key ↔ g.Animates key) ∧
      ∀ s s', f.options.get? "c" = some (.fixed s) → g.options.get? "c" = some (.fixed s') →
        s = s') ∧
    ∃ f length, (fadeInAt 2.0).toFilter poster = .ok f ∧ f.window = none ∧
      ¬ f.Animates "alpha" ∧ f.options.get? "t" = some (.fixed (.text "in")) ∧
      f.options.get? "st" = some (.fixed (.number 2.0)) ∧
      f.options.get? "d" = some (.fixed (.number length)) ∧ length ≤ 1.0 ∧ 1.0 ≤ length := by
  obtain ⟨f, hf, -⟩ := exists_of_toOption_any (x := turnOut.toFilter poster) (p := fun _ => true)
    (by decide +kernel)
  obtain ⟨g, hg, -⟩ := exists_of_toOption_any (x := turnIn.toFilter poster) (p := fun _ => true)
    (by decide +kernel)
  obtain ⟨b, hb, hturns⟩ := exists_of_toOption_any (x := turnIn.conf.normalize)
    (p := fun b => b.kind == .rotate) (by decide +kernel)
  have hout : turnOut.conf.normalize = .ok _ :=
    Descriptor.normalize_make (k := .rotate) (by decide +kernel) .exit (by decide +kernel)
      (by decide +kernel) (by decide +kernel)
  obtain ⟨-, a, ha, -, hopen, halike⟩ := Node.open_of_toFilter hf
  obtain rfl := Except.ok.inj (hout.symm.trans ha)
  obtain ⟨w, hw⟩ := hopen (by simp)
  obtain ⟨hanimates, hfixed⟩ := halike turnIn b g hb hg (beq_iff_eq.1 hturns)
  refine ⟨⟨f, g, _, w, hf, hg, ha, hw, hanimates, fun s s' => hfixed "c" s s' (by simp)⟩, ?_⟩
  have hfade : (fadeInAt 2.0).conf.normalize = .ok _ :=
    Descriptor.normalize_make (k := .fade) (by decide +kernel) .entrance (by decide +kernel)
      (by decide +kernel) (by decide +kernel)
  have hbuilt : (fadeInAt 2.0).toFilter poster = .ok _ := Node.toFilter_eq_ok.2 ⟨_, hfade, rfl⟩
  obtain ⟨-, a, ha, hfades, -⟩ := Node.open_of_toFilter hbuilt
  obtain rfl := Except.ok.inj (hfade.symm.trans ha)
  obtain ⟨hwindow, hstill, hdirection, hstart, hlength⟩ := hfades (.inl rfl)
  exact ⟨_, _, hbuilt, hwindow, hstill "alpha", hdirection, hstart, hlength, by decide +kernel,
    by decide +kernel⟩

/-- Two fades of one element need not begin at one time, which each of them has
for an option. -/
theorem fades_differ_in_start :
    ∃ a b f g, (fadeInAt 0.0).conf.normalize = .ok a ∧ (fadeInAt 2.0).conf.normalize = .ok b ∧
      a.kind = b.kind ∧ (fadeInAt 0.0).toFilter poster = .ok f ∧
      (fadeInAt 2.0).toFilter poster = .ok g ∧
      f.options.get? "st" = some (.fixed (.number 0.0)) ∧
      g.options.get? "st" = some (.fixed (.number 2.0)) ∧ (0.0 : Float) ≠ 2.0 := by
  have hat (delay : Float) (h : Scalar.isFinite delay = true) :
      (fadeInAt delay).conf.normalize = .ok _ :=
    Descriptor.normalize_make (k := .fade) (by decide +kernel) .entrance (by decide +kernel) h
      (by decide +kernel)
  have hnow := hat 0.0 (by decide +kernel)
  have hlater := hat 2.0 (by decide +kernel)
  have hlt : (0.0 : Float) < 2.0 := by decide +kernel
  refine ⟨_, _, _, _, hnow, hlater, rfl, Node.toFilter_eq_ok.2 ⟨_, hnow, rfl⟩,
    Node.toFilter_eq_ok.2 ⟨_, hlater, rfl⟩, ?_, ?_, fun heq => ?_⟩
  · simp [Animation.fadeFilter]
  · simp [Animation.fadeFilter]
  · rw [← heq] at hlt
    exact absurd hlt (by decide +kernel)

end Tween
