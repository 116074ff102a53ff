/-
How a timeline is compiled, stage by stage. A stage sees the filters of its own
group only, and what it puts in their place belongs to no other group
(`Stage.group_of_mem_block`). So the stages do not see each other's work, and
all of them together give one block of filters for each stage, in order, with
the renderer's own fades behind them (`Timeline.compose_eq`).
-/
import Tween.Proofs.Track

namespace Tween

variable {α : Type} [Scalar α]

namespace Stage

/-- What a stage puts in the place of the filters of its group. -/
def block (s : Stage) (fs : List (Filter α)) : Except (Error α) (List (Filter α)) := do
  match ← s.merged (fs.filter fun f => f.isIn s.group) with
  | none => pure []
  | some f => pure (s.before ++ [f])

theorem collect_eq (s : Stage) (fs : List (Filter α)) :
    s.collect fs = (do
      let b ← s.block fs
      pure (fs.filter (fun f => !f.isIn s.group) ++ b)) := by
  unfold collect block
  cases s.merged (fs.filter fun f => f.isIn s.group) with
  | error e => rfl
  | ok g =>
    cases g with
    | none => simp [pure, Except.pure]
    | some f => simp [pure, Except.pure]

theorem block_congr {s : Stage} {fs fs' : List (Filter α)}
    (h : fs.filter (fun f => f.isIn s.group) = fs'.filter fun f => f.isIn s.group) :
    s.block fs = s.block fs' := by
  unfold block
  rw [h]

theorem block_of_forall_not {s : Stage} {fs : List (Filter α)}
    (h : ∀ f ∈ fs, f.isIn s.group = false) : s.block fs = .ok [] := by
  have hnil : fs.filter (fun f => f.isIn s.group) = [] := by simpa using h
  unfold block
  rw [hnil]
  rfl

omit [Scalar α] in
theorem isIn_iff {f : Filter α} {group : String} : f.isIn group = true ↔ f.group = some group := by
  simp [Filter.isIn]

theorem group_of_merged {s : Stage} {fs : List (Filter α)} {g : Filter α}
    (h : s.merged fs = .ok (some g)) (hfs : ∀ f ∈ fs, f.isIn s.group = true) :
    g.group = none ∨ g.group = some s.group := by
  unfold merged at h
  split at h
  · cases h
  · rename_i f
    cases h
    exact .inr (isIn_iff.1 (hfs f (by simp)))
  · unfold Filter.chain at h
    split at h
    · cases h
    · simp only [bind_eq_ok, pure_eq_ok, Option.some.injEq] at h
      obtain ⟨w, -, options, -, rfl⟩ := h
      exact .inl rfl

theorem group_of_mem_block {s : Stage} {fs b : List (Filter α)} (h : s.block fs = .ok b)
    {f : Filter α} (hf : f ∈ b) : f.group = none ∨ f.group = some s.group := by
  unfold block at h
  obtain ⟨g, hg, h⟩ := bind_eq_ok.1 h
  cases g with
  | none =>
    obtain rfl := pure_eq_ok.1 h
    simp at hf
  | some g =>
    obtain rfl := pure_eq_ok.1 h
    rcases List.mem_append.1 hf with hf | hf
    · left
      cases s with
      | zoom =>
        obtain rfl : f = scaleFilter := by simpa [before] using hf
        rfl
      | rotate | alpha | overlay => simp [before] at hf
    · obtain rfl : f = g := by simpa using hf
      exact group_of_merged hg fun f hf => (List.mem_filter.1 hf).2

theorem isIn_of_mem_block {s s' : Stage} {fs b : List (Filter α)} (h : s.block fs = .ok b)
    {f : Filter α} (hf : f ∈ b) (hne : s' ≠ s) : f.isIn s'.group = false := by
  rw [Bool.eq_false_iff]
  intro hin
  rcases group_of_mem_block h hf with hnone | hsome
  · rw [isIn_iff.1 hin] at hnone
    cases hnone
  · rw [isIn_iff.1 hin] at hsome
    exact hne (group_injective (Option.some.inj hsome))

/-- What one stage takes away was in its own group, so no other misses it. -/
theorem block_filter_of_ne {s s' : Stage} (hne : s' ≠ s) (fs : List (Filter α)) :
    s'.block (fs.filter fun f => !f.isIn s.group) = s'.block fs := by
  refine block_congr ?_
  rw [List.filter_filter]
  refine List.filter_congr ?_
  intro f _
  by_cases hin : f.isIn s'.group = true
  · have hnot : f.isIn s.group = false := by
      rw [Bool.eq_false_iff]
      intro hin'
      have heq : s'.group = s.group :=
        Option.some.inj ((isIn_iff.1 hin).symm.trans (isIn_iff.1 hin'))
      exact hne (group_injective heq)
    simp [hin, hnot]
  · simp [hin]

/-- **Collecting one stage after the other** gives the filters of no stage,
those that were behind them, and a block for each stage in order. -/
theorem foldlM_collect {ss : List Stage} (hnodup : ss.Nodup) (fs done : List (Filter α))
    (hdone : ∀ f ∈ done, ∀ s ∈ ss, f.isIn s.group = false) :
    ss.foldlM (fun fs s => s.collect fs) (fs ++ done) = (do
      let bs ← ss.mapM fun s => s.block fs
      pure (fs.filter (fun f => ss.all fun s => !f.isIn s.group) ++ (done ++ bs.flatten))) := by
  -- The invariant is `hdone`: what was put in place is in no group still to be collected.
  induction ss generalizing fs done with
  | nil => simp [pure, Except.pure]
  | cons s ss ih =>
    obtain ⟨hs, hnodup⟩ := List.nodup_cons.1 hnodup
    have hnot : done.filter (fun f => f.isIn s.group) = [] := by
      simpa using fun f hf => hdone f hf s (by simp)
    have hall : done.filter (fun f => !f.isIn s.group) = done := by
      simpa using fun f hf => hdone f hf s (by simp)
    have hblock : s.block (fs ++ done) = s.block fs :=
      block_congr (by rw [List.filter_append, hnot, List.append_nil])
    rw [List.foldlM_cons, collect_eq, hblock, List.mapM_cons, List.filter_append, hall]
    cases hb : s.block fs with
    | error e => rfl
    | ok b =>
      have hrest : ∀ f ∈ done ++ b, ∀ s' ∈ ss, f.isIn s'.group = false := by
        intro f hf s' hs'
        rcases List.mem_append.1 hf with hf | hf
        · exact hdone f hf s' (by simp [hs'])
        · exact isIn_of_mem_block hb hf fun heq => hs (heq ▸ hs')
      have hsame : ss.mapM (fun s' => s'.block (fs.filter fun f => !f.isIn s.group)) =
          ss.mapM fun s' => s'.block fs :=
        mapM_congr fun s' hs' => block_filter_of_ne (fun heq : s' = s => hs (heq ▸ hs')) fs
      have hstep := ih hnodup (fs.filter fun f => !f.isIn s.group) (done ++ b) hrest
      simp only [ok_bind, pure, Except.pure, List.append_assoc] at hstep ⊢
      rw [hstep, hsame]
      cases ss.mapM (fun s' => s'.block fs) with
      | error e => rfl
      | ok bs => simp [List.filter_filter, Bool.and_comm]

end Stage

/-! ## Timelines -/

/-- The group of the filters of a stage, or of the renderer's own fades. -/
def groupOf : Option Stage → String
  | some s => s.group
  | none => fadeGroup

theorem groupOf_injective {s s' : Option Stage} (h : groupOf s = groupOf s') : s = s' := by
  cases s with
  | none =>
    cases s' with
    | none => rfl
    | some s' => exact absurd h.symm s'.group_ne_fade
  | some s =>
    cases s' with
    | none => exact absurd h s.group_ne_fade
    | some s' => exact congrArg some (Stage.group_injective h)

/-- A built filter is in the group of its kind. -/
theorem Animation.group_of_toFilter {a : Animation α} {e : Element α} {f : Filter α}
    (h : a.toFilter e = .ok f) : f.group = some (groupOf a.kind.stage?) := by
  cases hk : a.kind.stage? with
  | none =>
    obtain rfl := toFilter_fade h hk
    rfl
  | some s => exact (toFilter_stage h hk).group

/-- What an animation is turned into in the group of fades is the renderer's own
fade. -/
theorem Animation.eq_fadeFilter {a : Animation α} {e : Element α} {f : Filter α}
    (h : a.toFilter e = .ok f) (hfade : f.isIn fadeGroup = true) : f = a.fadeFilter := by
  have hgroup : some (groupOf a.kind.stage?) = some (groupOf none) :=
    (group_of_toFilter h).symm.trans (Stage.isIn_iff.1 hfade)
  exact toFilter_fade h (groupOf_injective (Option.some.inj hgroup))

namespace Node

/-- The kind of a node that can be read as an animation. -/
def kind? (n : Node α) : Option Kind :=
  match n.conf.normalize with
  | .ok a => some a.kind
  | .error _ => none

/-- Whether a node's filter is collected by a stage; without a stage, whether
it is a renderer's own fade. -/
def isOf (s : Option Stage) (n : Node α) : Bool := n.kind?.map Kind.stage? == some s

theorem isOf_eq {s : Option Stage} {n : Node α} {e : Element α} {f : Filter α}
    (h : n.toFilter e = .ok f) : n.isOf s = f.isIn (groupOf s) := by
  obtain ⟨a, ha, haf⟩ := toFilter_eq_ok.1 h
  rw [Bool.eq_iff_iff, Stage.isIn_iff, Animation.group_of_toFilter haf]
  simp only [isOf, kind?, ha, Option.map_some, beq_iff_eq, Option.some.injEq]
  exact ⟨congrArg groupOf, groupOf_injective⟩

end Node

namespace Timeline

/-- The timeline with the animations of one stage only, or with the renderer's
own fades only. -/
def family (l : Timeline α) (s : Option Stage) : Timeline α :=
  { l with nodes := l.nodes.filter fun n => n.isOf s }

theorem filters_eq_ok {l : Timeline α} {fs : List (Filter α)} :
    l.filters = .ok fs ↔ List.Forall₂ (fun n f => n.toFilter l.element = .ok f) l.nodes fs :=
  mapM_eq_ok

theorem filters_family {l : Timeline α} {fs : List (Filter α)} (h : l.filters = .ok fs)
    (s : Option Stage) : (l.family s).filters = .ok (fs.filter fun f => f.isIn (groupOf s)) := by
  rw [filters_eq_ok] at h ⊢
  exact List.rel_filter (fun n f hn => Bool.eq_iff_iff.1 (Node.isOf_eq hn)) h

/-- The renderer's own fades. -/
def fades (fs : List (Filter α)) : List (Filter α) := fs.filter fun f => f.isIn fadeGroup

theorem exists_groupOf {l : Timeline α} {fs : List (Filter α)} (h : l.filters = .ok fs)
    {f : Filter α} (hf : f ∈ fs) : ∃ s, f.group = some (groupOf s) := by
  obtain ⟨n, -, hn⟩ := exists_of_mem_mapM h hf
  obtain ⟨a, -, haf⟩ := Node.toFilter_eq_ok.1 hn
  exact ⟨_, Animation.group_of_toFilter haf⟩

/-- The filters that no stage collects are the fades. -/
theorem filter_no_stage {l : Timeline α} {fs : List (Filter α)} (h : l.filters = .ok fs) :
    fs.filter (fun f => Stage.all.all fun s => !f.isIn s.group) = fades fs := by
  refine List.filter_congr ?_
  intro f hf
  obtain ⟨s, hs⟩ := exists_groupOf h hf
  rw [Bool.eq_iff_iff, Stage.isIn_iff, hs, List.all_eq_true]
  constructor
  · intro hall
    cases s with
    | none => rfl
    | some s =>
      have hmem : s ∈ Stage.all := by cases s <;> decide
      have hnot := hall s hmem
      simp [Filter.isIn, hs, groupOf] at hnot
  · intro hfade s' _
    rw [Option.some.inj hfade] at hs
    simp [Filter.isIn, hs, s'.group_ne_fade.symm]

omit [Scalar α] in
theorem filter_append_of {p : Filter α → Bool} {fs gs : List (Filter α)}
    (hf : ∀ f ∈ fs, p f = true) (hg : ∀ g ∈ gs, p g = false) :
    (fs ++ gs).filter p = fs ∧ (fs ++ gs).filter (fun f => !p f) = gs := by
  constructor
  · rw [List.filter_append, List.filter_eq_self.2 hf, List.filter_eq_nil_iff.2 (by simpa using hg),
      List.append_nil]
  · rw [List.filter_append, List.filter_eq_nil_iff.2 (by simpa using hf),
      List.filter_eq_self.2 (by simpa using hg), List.nil_append]

/-- **A composed timeline** is a block for each stage with the fades behind. -/
theorem compose_eq {l : Timeline α} {fs : List (Filter α)} (h : l.filters = .ok fs) :
    l.compose = (do
      let bs ← Stage.all.mapM fun s => s.block fs
      pure (bs.flatten ++ fades fs)) := by
  have hnodup : Stage.all.Nodup := by decide
  have hcollect := Stage.foldlM_collect hnodup fs [] (by simp)
  rw [filter_no_stage h, List.append_nil] at hcollect
  unfold compose
  rw [h, ok_bind, hcollect]
  cases hbs : Stage.all.mapM fun s => s.block fs with
  | error e => rfl
  | ok bs =>
    have hnot : ∀ f ∈ bs.flatten, f.isIn fadeGroup = false := by
      intro f hf
      obtain ⟨b, hb, hfb⟩ := List.mem_flatten.1 hf
      obtain ⟨s, -, hs⟩ := exists_of_mem_mapM hbs hb
      rcases Stage.group_of_mem_block hs hfb with hgroup | hgroup
      · simp [Filter.isIn, hgroup]
      · simp [Filter.isIn, hgroup, s.group_ne_fade]
    have hfade : ∀ f ∈ fades fs, f.isIn fadeGroup = true := fun f hf => (List.mem_filter.1 hf).2
    obtain ⟨hfades, hrest⟩ := filter_append_of hfade hnot
    simp only [ok_bind, pure, Except.pure, List.nil_append, fadesLast, hfades, hrest]

/-- The filters of a stage, ready for the renderer. -/
def stageSpecs (fs : List (Filter α)) (s : Stage) : Except (Error α) (List (Spec α)) := do
  let b ← s.block fs
  b.mapM Filter.toSpec

/-- **A compiled timeline** is what the four stages give, one after the other,
and then the fades. -/
theorem compile_eq_ok {l : Timeline α} {fs : List (Filter α)} (h : l.filters = .ok fs)
    {specs : List (Spec α)} :
    l.compile = .ok specs ↔
      ∃ r z a o f, stageSpecs fs .rotate = .ok r ∧ stageSpecs fs .zoom = .ok z ∧
        stageSpecs fs .alpha = .ok a ∧ stageSpecs fs .overlay = .ok o ∧
        (fades fs).mapM Filter.toSpec = .ok f ∧ specs = r ++ z ++ a ++ o ++ f := by
  unfold compile stageSpecs
  rw [compose_eq h]
  simp only [Stage.all, List.mapM_cons, List.mapM_nil, bind_eq_ok, pure_eq_ok]
  constructor
  · rintro ⟨_, ⟨_, ⟨R, hR, _, ⟨Z, hZ, _, ⟨A, hA, _, ⟨O, hO, _, rfl, rfl⟩, rfl⟩, rfl⟩, rfl⟩, rfl⟩,
      hspecs⟩
    simp only [List.flatten_cons, List.flatten_nil, List.append_nil, List.append_assoc,
      mapM_append_eq_ok] at hspecs
    obtain ⟨r, _, hr, ⟨z, _, hz, ⟨a, _, ha, ⟨o, f, ho, hf, rfl⟩, rfl⟩, rfl⟩, rfl⟩ := hspecs
    exact ⟨r, z, a, o, f, ⟨R, hR, hr⟩, ⟨Z, hZ, hz⟩, ⟨A, hA, ha⟩, ⟨O, hO, ho⟩, hf, by simp⟩
  · rintro ⟨r, z, a, o, f, ⟨R, hR, hr⟩, ⟨Z, hZ, hz⟩, ⟨A, hA, ha⟩, ⟨O, hO, ho⟩, hf, rfl⟩
    refine ⟨_, ⟨_, ⟨R, hR, _, ⟨Z, hZ, _, ⟨A, hA, _, ⟨O, hO, _, rfl, rfl⟩, rfl⟩, rfl⟩, rfl⟩, rfl⟩,
      ?_⟩
    simp only [List.flatten_cons, List.flatten_nil, List.append_nil, List.append_assoc,
      mapM_append_eq_ok]
    exact ⟨r, _, hr, ⟨z, _, hz, ⟨a, _, ha, ⟨o, f, ho, hf, rfl⟩, rfl⟩, rfl⟩, rfl⟩

end Timeline

end Tween
