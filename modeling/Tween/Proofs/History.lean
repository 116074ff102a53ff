/-
Timelines as they come about: from an element without animations, by changes
in any order. None of them writes a fade onto a text (`Unfaded.change`), and so
no history does (`Unfaded.after`). What the renderer's own fade is left for on
a text are words that are read as a fade without being written as one
(`fades_of_text`).
-/
import Tween.Proofs.Families
import Tween.Proofs.Presets

namespace Tween

variable {α : Type}

/-- One change to a timeline. -/
inductive Change (α : Type) where
  /-- One more animation, with what it holds already. -/
  | add (node : Node α)
  /-- More animations in order, as they are authored. -/
  | addAll (descriptors : List (Descriptor α))
  /-- The animations of a preset. -/
  | effect (catalog : Catalog α) (request : Request α)
  /-- Every symbolic position replaced. -/
  | resolve
  /-- Every window moved to an earlier time. -/
  | shiftBack (amount : α)

/-! ## Words for a kind -/

namespace Descriptor

theorem kindWord?_set_of_ne {d : Descriptor α} {key : String} {v : Json α} (h : key ≠ "type") :
    (d.set key v).kindWord? = d.kindWord? := by
  unfold kindWord?
  rw [get?_set, if_neg (Ne.symm h)]

end Descriptor

theorem Element.str?_resolve [Scalar α] {e : Element α} {v : Json α} {s : String}
    (h : (e.resolve v).str? = some s) : v.str? = some s := by
  rcases e.resolve_cases v with ⟨y, -, hplace⟩ | ⟨-, hsame⟩
  -- A position is an object, which has no text.
  · rw [hplace] at h
    cases h
  · rwa [hsame] at h

/-- Replacing symbols writes no new word for the kind. -/
theorem Descriptor.kindWord?_of_resolved [Scalar α] {d : Descriptor α} {e : Element α} {w : String}
    (h : (d.resolved e).kindWord? = some w) : d.kindWord? = some w := by
  unfold Descriptor.kindWord? at h ⊢
  rw [get?_resolved, Option.bind_map, Option.bind_eq_some_iff] at h
  obtain ⟨v, hv, hw⟩ := h
  rw [hv]
  exact Element.str?_resolve hw

theorem Descriptor.IsFade.of_resolved [Scalar α] {d : Descriptor α} {e : Element α}
    (h : (d.resolved e).IsFade) : d.IsFade :=
  h.imp kindWord?_of_resolved kindWord?_of_resolved

theorem Timeline.not_isFade_adopt {e : Element α} (he : e.isText = true) (n : Node α) :
    ¬ (adopt e n).conf.IsFade := by
  by_cases hfade : n.conf.IsFade
  · rw [adopt_fade he hfade]
    simp [Descriptor.IsFade, Descriptor.kindWord?, Descriptor.get?_set, Json.str?]
  · rw [adopt_plain fun h => hfade h.2]
    exact hfade

/-! ## Changes -/

namespace Timeline

section

variable [Scalar α]

/-- The timeline after a change. -/
def change (l : Timeline α) : Change α → Timeline α
  | .add n => l.add n
  | .addAll ds => l.addAll ds
  | .effect c r => l.addEffect c r
  | .resolve => l.resolved
  | .shiftBack amount => l.shiftBack amount

/-- The timeline after changes in order. -/
def after (l : Timeline α) (cs : List (Change α)) : Timeline α := cs.foldl change l

end

/-- No animation is written as a fade, if the element is a text. -/
def Unfaded (l : Timeline α) : Prop :=
  l.element.isText = true → ∀ n ∈ l.nodes, ¬ n.conf.IsFade

theorem Unfaded.empty (e : Element α) : (empty e).Unfaded := by
  intro _ n hn
  cases hn

theorem Unfaded.add {l : Timeline α} (h : l.Unfaded) (n : Node α) : (l.add n).Unfaded := by
  intro he n' hn'
  rcases List.mem_append.1 hn' with hn' | hn'
  · exact h he n' hn'
  · obtain rfl : n' = adopt l.element n := by simpa using hn'
    exact not_isFade_adopt he n

theorem Unfaded.addAll {l : Timeline α} (h : l.Unfaded) (ds : List (Descriptor α)) :
    (l.addAll ds).Unfaded := by
  unfold Timeline.addAll
  induction ds generalizing l with
  | nil => exact h
  | cons d ds ih => exact ih (h.add _)

@[simp] theorem element_addAll (l : Timeline α) (ds : List (Descriptor α)) :
    (l.addAll ds).element = l.element := by
  rw [addAll_eq]

variable [Scalar α]

/-- **A change writes no fade onto a text.** -/
theorem Unfaded.change {l : Timeline α} (h : l.Unfaded) (c : Change α) : (l.change c).Unfaded := by
  cases c with
  | add n => exact h.add n
  | addAll ds => exact h.addAll ds
  | effect c r => exact h.addAll _
  | resolve =>
    intro he n hn
    obtain ⟨n', hn', rfl⟩ := List.mem_map.1 hn
    exact fun hfade => h he n' hn' hfade.of_resolved
  | shiftBack amount =>
    intro he n hn
    obtain ⟨n', hn', rfl⟩ := List.mem_map.1 hn
    have hword : (n'.set "delay" (.ofNumber
        (Scalar.positivePart (n'.conf.delay - amount)))).conf.kindWord? = n'.conf.kindWord? :=
      Descriptor.kindWord?_set_of_ne (by decide)
    unfold Descriptor.IsFade
    rw [hword]
    exact h he n' hn'

/-- **No history writes a fade onto a text.** -/
theorem Unfaded.after {l : Timeline α} (h : l.Unfaded) (cs : List (Change α)) :
    (l.after cs).Unfaded := by
  unfold Timeline.after
  induction cs generalizing l with
  | nil => exact h
  | cons c cs ih => exact ih (h.change c)

theorem element_change (l : Timeline α) (c : Change α) : (l.change c).element = l.element := by
  cases c with
  | add | resolve | shiftBack => rfl
  | addAll ds => exact element_addAll l ds
  | effect c r => exact element_addAll l _

@[simp] theorem element_after (l : Timeline α) (cs : List (Change α)) :
    (l.after cs).element = l.element := by
  unfold after
  induction cs generalizing l with
  | nil => rfl
  | cons c cs ih => rw [List.foldl_cons, ih, element_change]

end Timeline

/-! ## Fades on a text -/

variable [Scalar α]

theorem Kind.stage?_eq_none {k : Kind} : k.stage? = none ↔ k = .fade ∨ k = .reveal := by
  cases k <;> simp [Kind.stage?]

/-- A word is read as one of the two kinds of fade exactly if it is one of their
words, blanks and capitals apart. -/
theorem Kind.ofWord?_fade_iff {w : String} {k : Kind} (h : Kind.ofWord? w = some k) :
    k.stage? = none ↔ plainWord w = "fade" ∨ plainWord w = "show" := by
  unfold Kind.ofWord? at h
  split at h
  all_goals cases h
  all_goals simp_all [Kind.stage?]

/-- A word that is read as a fade, but is not written as one: it has blanks
around it or capitals in it. -/
def IsLooseFade (w : String) : Prop :=
  (plainWord w = "fade" ∨ plainWord w = "show") ∧ plainWord w ≠ w

theorem Descriptor.isLooseFade_iff {d : Descriptor α} {a : Animation α} (h : d.normalize = .ok a)
    (hplain : ¬ d.IsFade) :
    (a.kind = .fade ∨ a.kind = .reveal) ↔ ∃ w, d.kindWord? = some w ∧ IsLooseFade w := by
  obtain ⟨w, hw, hkind⟩ := kindWord?_of_normalize h
  rw [← Kind.stage?_eq_none, Kind.ofWord?_fade_iff hkind]
  constructor
  · intro hfade
    refine ⟨w, hw, hfade, fun heq => hplain ?_⟩
    rw [heq] at hfade
    unfold IsFade
    rw [hw]
    exact hfade.imp (congrArg some) (congrArg some)
  · rintro ⟨w', hw', hloose, -⟩
    obtain rfl : w = w' := Option.some.inj (hw ▸ hw')
    exact hloose

namespace Timeline

variable {l : Timeline α} {fs : List (Filter α)} {specs : List (Spec α)}

theorem name_of_mem_stageSpecs (h : l.filters = .ok fs) {s : Stage}
    (hspecs : stageSpecs fs s = .ok specs) {g : Spec α} (hg : g ∈ specs) : g.name ≠ fadeGroup := by
  rcases stageSpecs_shape h hspecs with ⟨-, rfl⟩ | ⟨-, front, last, hfront, hname, rfl⟩
  · cases hg
  · rcases List.mem_append.1 hg with hg | hg
    · obtain ⟨f, hf, hspec⟩ := exists_of_mem_mapM hfront hg
      rw [name_of_toSpec hspec]
      cases s with
      | zoom =>
        obtain rfl : f = Stage.scaleFilter := by simpa [Stage.before] using hf
        have hne : (Stage.scaleFilter : Filter α).name = "scale" := rfl
        rw [hne]
        decide
      | rotate | alpha | overlay => simp [Stage.before] at hf
    · obtain rfl : g = last := by simpa using hg
      rw [hname]
      exact s.group_ne_fade

theorem exists_fade_iff (h : l.compile = .ok specs) :
    (∃ g ∈ specs, g.name = fadeGroup) ↔
      ∃ n ∈ l.nodes, ∃ a, n.conf.normalize = .ok a ∧ (a.kind = .fade ∨ a.kind = .reveal) := by
  obtain ⟨fs, hfs⟩ := filters_of_compile h
  obtain ⟨r, z, a, o, f, hr, hz, ha, ho, hf, rfl⟩ := (compile_eq_ok hfs).1 h
  have hfades := fades_shape hfs hf
  have hmem : ∀ n, n ∈ (l.family none).nodes ↔ n ∈ l.nodes ∧
      ∃ a, n.conf.normalize = .ok a ∧ (a.kind = .fade ∨ a.kind = .reveal) := by
    intro n
    simp only [family, List.mem_filter, Node.isOf, Node.kind?, ← Kind.stage?_eq_none]
    cases n.conf.normalize <;> simp
  constructor
  · rintro ⟨g, hg, hname⟩
    simp only [List.mem_append] at hg
    rcases hg with (((hg | hg) | hg) | hg) | hg
    · exact absurd hname (name_of_mem_stageSpecs hfs hr hg)
    · exact absurd hname (name_of_mem_stageSpecs hfs hz hg)
    · exact absurd hname (name_of_mem_stageSpecs hfs ha hg)
    · exact absurd hname (name_of_mem_stageSpecs hfs ho hg)
    · cases hnodes : (l.family none).nodes with
      | nil =>
        rw [hnodes, List.forall₂_nil_left_iff] at hfades
        rw [hfades] at hg
        cases hg
      | cons n ns => exact ⟨n, (hmem n).1 (by simp [hnodes])⟩
  · rintro ⟨n, hn, hfade⟩
    have hn' := (hmem n).2 ⟨hn, hfade⟩
    generalize (l.family none).nodes = ns at hfades hn'
    cases hfades with
    | nil => cases hn'
    | cons hg _ => exact ⟨_, by simp, hg.1⟩

end Timeline

/-- **Fades on a text.** After any changes to a text without animations, an
animation is read as a fade exactly if the word for its kind is a loose one,
with blanks around it or capitals in it. So the renderer's own fade is compiled
exactly where there is such a word, and not where every word is plain. -/
theorem fades_of_text {e : Element α} (he : e.isText = true) (cs : List (Change α)) :
    (∀ n ∈ ((Timeline.empty e).after cs).nodes, ∀ a, n.conf.normalize = .ok a →
      ((a.kind = .fade ∨ a.kind = .reveal) ↔
        ∃ w, n.conf.kindWord? = some w ∧ IsLooseFade w)) ∧
    ∀ specs, ((Timeline.empty e).after cs).compile = .ok specs →
      ((∃ g ∈ specs, g.name = fadeGroup) ↔
        ∃ n ∈ ((Timeline.empty e).after cs).nodes, ∃ w,
          n.conf.kindWord? = some w ∧ IsLooseFade w) := by
  have hunfaded : ∀ n ∈ ((Timeline.empty e).after cs).nodes, ¬ n.conf.IsFade :=
    (Timeline.Unfaded.empty e).after cs (by simpa [Timeline.empty] using he)
  refine ⟨fun n hn a ha => Descriptor.isLooseFade_iff ha (hunfaded n hn), fun specs hspecs => ?_⟩
  rw [Timeline.exists_fade_iff hspecs]
  constructor
  · rintro ⟨n, hn, a, ha, hfade⟩
    exact ⟨n, hn, (Descriptor.isLooseFade_iff ha (hunfaded n hn)).1 hfade⟩
  · rintro ⟨n, hn, hloose⟩
    obtain ⟨fs, hfs⟩ := Timeline.filters_of_compile hspecs
    obtain ⟨f, -, hf⟩ := exists_of_mem_of_mapM hfs hn
    obtain ⟨a, ha, -⟩ := Node.toFilter_eq_ok.1 hf
    exact ⟨n, hn, a, ha, (Descriptor.isLooseFade_iff ha (hunfaded n hn)).2 hloose⟩

/-- A text. -/
def title : Element Float := ⟨"title", .text, 0.0, 0.0, 400, 60, 1280, 720⟩

/-- A text that is faded out, and moved in and faded in by a preset. -/
def titleFaded : List (Change Float) :=
  [.add (.ofDescriptor (.make "show" .exit 1.0 4.0)),
    .effect .stock (.named "moveInLeft" none none), .resolve, .shiftBack 0.5]

/-- Fades that are added in plain words are compiled without the renderer's
own fade. -/
theorem fades_of_text_plain :
    ∃ specs, ((Timeline.empty title).after titleFaded).compile = .ok specs ∧
      specs.map Spec.name = ["alpha", "overlay"] ∧ ¬ ∃ g ∈ specs, g.name = fadeGroup := by
  obtain ⟨specs, hspecs, hnames⟩ := exists_of_toOption_any
    (x := ((Timeline.empty title).after titleFaded).compile)
    (p := fun specs => specs.map Spec.name == ["alpha", "overlay"]) (by decide +kernel)
  refine ⟨specs, hspecs, beq_iff_eq.1 hnames, ?_⟩
  rw [(fades_of_text (e := title) rfl titleFaded).2 specs hspecs]
  rintro ⟨n, hn, w, hw, -, hloose⟩
  have hplain : (((Timeline.empty title).after titleFaded).nodes.all fun n =>
      n.conf.kindWord?.all fun w => plainWord w == w) = true := by decide +kernel
  have hword := List.all_eq_true.1 hplain n hn
  rw [hw] at hword
  exact hloose (beq_iff_eq.1 hword)

/-- With a capital in its word, the renderer's own fade stays on a text. -/
theorem fade_stays_on_text :
    title.isText = true ∧ ∃ specs, ((Timeline.empty title).after
        [.add (.ofDescriptor (.make "Fade" .entrance 1.0 0.0))]).compile = .ok specs ∧
      specs.map Spec.name = [fadeGroup] := by
  obtain ⟨specs, hspecs, hnames⟩ := exists_of_toOption_any
    (x := ((Timeline.empty title).after
      [.add (.ofDescriptor (.make "Fade" .entrance 1.0 0.0))]).compile)
    (p := fun specs => specs.map Spec.name == [fadeGroup]) (by decide +kernel)
  exact ⟨rfl, specs, hspecs, beq_iff_eq.1 hnames⟩

end Tween
