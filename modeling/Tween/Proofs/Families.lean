/-
A timeline is compiled family by family (`compile_families`): the animations of
each stage, and the renderer's own fades, give the same filters alone as among
others, and the filters of the families stand one after the other.
-/
import Tween.Number.Double
import Tween.Proofs.Blocks

namespace Tween.Timeline

variable {α : Type} [Scalar α] {l : Timeline α} {fs : List (Filter α)} {specs : List (Spec α)}

/-! ## Families by themselves -/

theorem filters_of_compile (h : l.compile = .ok specs) : ∃ fs, l.filters = .ok fs := by
  unfold compile compose at h
  obtain ⟨composed, hcomposed, -⟩ := bind_eq_ok.1 h
  obtain ⟨fs, hfs, -⟩ := bind_eq_ok.1 hcomposed
  exact ⟨fs, hfs⟩

omit [Scalar α] in
theorem not_isIn_of_isIn {f : Filter α} {s s' : Option Stage} (hne : s ≠ s')
    (h : f.isIn (groupOf s) = true) : f.isIn (groupOf s') = false := by
  rw [Bool.eq_false_iff]
  intro h'
  exact hne (groupOf_injective
    (Option.some.inj ((Stage.isIn_iff.1 h).symm.trans (Stage.isIn_iff.1 h'))))

/-- What a stage gives for the filters of one family: the same as among all
filters if the family is its own, and nothing otherwise. -/
theorem stageSpecs_family (fs : List (Filter α)) (s : Option Stage) (s' : Stage) :
    stageSpecs (fs.filter fun f => f.isIn (groupOf s)) s' =
      if s = some s' then stageSpecs fs s' else .ok [] := by
  unfold stageSpecs
  split
  · rename_i heq
    subst heq
    have hown : (fs.filter fun f => f.isIn (groupOf (some s'))).filter (fun f => f.isIn s'.group) =
        fs.filter fun f => f.isIn s'.group := by
      simp [groupOf]
    rw [Stage.block_congr hown]
  · rename_i hne
    have hblock : s'.block (fs.filter fun f => f.isIn (groupOf s)) = .ok [] := by
      refine Stage.block_of_forall_not ?_
      intro f hf
      exact not_isIn_of_isIn hne (List.mem_filter.1 hf).2
    rw [hblock]
    rfl

omit [Scalar α] in
theorem fades_of_stage (fs : List (Filter α)) (s : Stage) :
    fades (fs.filter fun f => f.isIn (groupOf (some s))) = [] := by
  unfold fades
  rw [List.filter_eq_nil_iff]
  intro f hf
  rw [Bool.not_eq_true]
  have hne : some s ≠ none := by simp
  exact not_isIn_of_isIn hne (List.mem_filter.1 hf).2

/-- The animations of one stage, compiled alone. -/
theorem compile_family_some (h : l.filters = .ok fs) (s : Stage) :
    (l.family (some s)).compile = .ok specs ↔ stageSpecs fs s = .ok specs := by
  rw [compile_eq_ok (filters_family h (some s)), fades_of_stage]
  cases s <;> simp [stageSpecs_family, pure_eq_ok]

/-- The renderer's own fades, compiled alone. -/
theorem compile_family_none (h : l.filters = .ok fs) :
    (l.family none).compile = .ok specs ↔ (fades fs).mapM Filter.toSpec = .ok specs := by
  have hfades : fades (fs.filter fun f => f.isIn (groupOf none)) = fades fs := by
    simp [fades, groupOf]
  rw [compile_eq_ok (filters_family h none), hfades]
  simp [stageSpecs_family]

/-! ## What a family gives -/

/-- A merged filter has the name of one that goes into it, and its clock. -/
theorem exists_of_merged {s : Stage} {g : Filter α} (h : s.merged fs = .ok (some g)) :
    ∃ f ∈ fs, g.name = f.name ∧ g.clock = f.clock := by
  unfold Stage.merged at h
  split at h
  · cases h
  · rename_i f
    cases h
    exact ⟨f, by simp, rfl, rfl⟩
  · unfold Filter.chain at h
    split at h
    · cases h
    · rename_i first rest horder
      simp only [bind_eq_ok, pure_eq_ok, Option.some.injEq] at h
      obtain ⟨w, -, options, -, rfl⟩ := h
      exact ⟨first, Filter.mem_inOrder.1 (by simp [horder]), rfl, rfl⟩

theorem eq_nil_of_merged {s : Stage} (h : s.merged fs = .ok none) : fs = [] := by
  unfold Stage.merged at h
  split at h
  · rfl
  · cases h
  · unfold Filter.chain at h
    split at h
    · rename_i horder
      exact List.eq_nil_iff_forall_not_mem.2 fun f hf => by
        simpa [horder] using Filter.mem_inOrder.2 hf
    · obtain ⟨w, -, h⟩ := bind_eq_ok.1 h
      obtain ⟨options, -, h⟩ := bind_eq_ok.1 h
      cases h

theorem name_of_toSpec {f : Filter α} {g : Spec α} (h : f.toSpec = .ok g) : g.name = f.name := by
  unfold Filter.toSpec at h
  obtain ⟨options, -, h⟩ := bind_eq_ok.1 h
  rw [← pure_eq_ok.1 h]

/-- What a stage makes of its filters has the name and the clock of the stage,
since each of them has. -/
theorem stage_of_merged (h : l.filters = .ok fs) {s : Stage} {g : Filter α}
    (hg : s.merged (fs.filter fun f => f.isIn s.group) = .ok (some g)) :
    g.name = s.group ∧ g.clock = s.clock := by
  obtain ⟨f, hf, hname, hclock⟩ := exists_of_merged hg
  obtain ⟨hmem, hin⟩ := List.mem_filter.1 hf
  obtain ⟨n, -, hn⟩ := exists_of_mem_mapM h hmem
  obtain ⟨a, -, haf⟩ := Node.toFilter_eq_ok.1 hn
  have hfits := Stage.fits_of_isIn haf hin
  exact ⟨hname.trans hfits.name, hclock.trans hfits.clock⟩

/-- What a stage gives: nothing where there is nothing to collect, else one
filter with its name, behind those it puts in front. -/
theorem stageSpecs_shape (h : l.filters = .ok fs) {s : Stage}
    (hspecs : stageSpecs fs s = .ok specs) :
    ((l.family (some s)).nodes = [] ∧ specs = []) ∨
      ((l.family (some s)).nodes ≠ [] ∧ ∃ front g, s.before.mapM Filter.toSpec = .ok front ∧
        g.name = s.group ∧ specs = front ++ [g]) := by
  have hown := filters_eq_ok.1 (filters_family h (some s))
  unfold stageSpecs Stage.block at hspecs
  simp only [bind_eq_ok] at hspecs
  obtain ⟨b, ⟨g, hg, hb⟩, hspecs⟩ := hspecs
  cases g with
  | none =>
    obtain rfl := pure_eq_ok.1 hb
    rw [groupOf, eq_nil_of_merged hg] at hown
    exact .inl ⟨List.forall₂_nil_right_iff.1 hown, (pure_eq_ok.1 hspecs).symm⟩
  | some g =>
    obtain rfl := pure_eq_ok.1 hb
    obtain ⟨front, last, hfront, hlast, rfl⟩ := mapM_append_eq_ok.1 hspecs
    rw [List.mapM_cons, List.mapM_nil] at hlast
    simp only [bind_eq_ok, pure_eq_ok] at hlast
    obtain ⟨g', hg', _, rfl, rfl⟩ := hlast
    refine .inr ⟨?_, front, g', hfront, ?_, rfl⟩
    · intro hnil
      rw [hnil, groupOf, List.forall₂_nil_left_iff] at hown
      rw [hown] at hg
      cases hg
    · rw [name_of_toSpec hg', (stage_of_merged h hg).1]

theorem name_of_fade {n : Node α} {e : Element α} {f : Filter α} (hn : n.isOf none = true)
    (h : n.toFilter e = .ok f) : f.name = fadeGroup := by
  obtain ⟨a, -, haf⟩ := Node.toFilter_eq_ok.1 h
  rw [Animation.eq_fadeFilter haf ((Node.isOf_eq h).symm.trans hn)]
  rfl

theorem fades_shape (h : l.filters = .ok fs) (hspecs : (fades fs).mapM Filter.toSpec = .ok specs) :
    List.Forall₂ (fun n g => g.name = fadeGroup ∧ ∃ f, n.toFilter l.element = .ok f ∧
      f.toSpec = .ok g) (l.family none).nodes specs := by
  have hboth := forall₂_comp (filters_eq_ok.1 (filters_family h none)) (mapM_eq_ok.1 hspecs)
  have hfade : ∀ n ∈ (l.family none).nodes, n.isOf none = true :=
    fun n hn => (List.mem_filter.1 hn).2
  refine ((List.forall₂_and_left _ _).2 ⟨hfade, hboth⟩).imp ?_
  rintro n g ⟨hn, f, hf, hg⟩
  exact ⟨by rw [name_of_toSpec hg, name_of_fade hn hf], f, hf, hg⟩

theorem family_insert {xs ns ys : List (Node α)} {s s' : Option Stage}
    (hnodes : l.nodes = xs ++ ys) (hns : ∀ n ∈ ns, n.isOf s' = true) (hne : s ≠ s') :
    ({ l with nodes := xs ++ ns ++ ys } : Timeline α).family s = l.family s := by
  have hnone : ns.filter (fun n => n.isOf s) = [] := by
    rw [List.filter_eq_nil_iff]
    intro n hn hin
    have hin' := hns n hn
    rw [Node.isOf, beq_iff_eq] at hin hin'
    exact hne (Option.some.inj (hin.symm.trans hin'))
  unfold family
  simp [hnodes, hnone]

/-- Nothing for no animations, else one filter with a given name. -/
def IsLone (name : String) (nodes : List (Node α)) (specs : List (Spec α)) : Prop :=
  (nodes = [] ∧ specs = []) ∨ (nodes ≠ [] ∧ ∃ g, g.name = name ∧ specs = [g])

theorem isLone_of_shape {s : Stage} (hbefore : s.before = ([] : List (Filter α)))
    (h : l.filters = .ok fs) (hspecs : stageSpecs fs s = .ok specs) :
    IsLone s.group (l.family (some s)).nodes specs := by
  refine (stageSpecs_shape h hspecs).imp_right ?_
  rintro ⟨hnodes, front, g, hfront, hname, rfl⟩
  rw [hbefore, List.mapM_nil, pure_eq_ok] at hfront
  subst hfront
  exact ⟨hnodes, g, hname, rfl⟩

/-- The five families of a timeline, each compiled alone. -/
structure Families (l : Timeline α) (r z a o f : List (Spec α)) : Prop where
  rotate : (l.family (some .rotate)).compile = .ok r
  zoom : (l.family (some .zoom)).compile = .ok z
  alpha : (l.family (some .alpha)).compile = .ok a
  overlay : (l.family (some .overlay)).compile = .ok o
  fade : (l.family none).compile = .ok f

theorem Families.of_filters {r z a o f : List (Spec α)} (h : l.filters = .ok fs) :
    l.Families r z a o f ↔
      stageSpecs fs .rotate = .ok r ∧ stageSpecs fs .zoom = .ok z ∧
        stageSpecs fs .alpha = .ok a ∧ stageSpecs fs .overlay = .ok o ∧
        (fades fs).mapM Filter.toSpec = .ok f := by
  constructor
  · rintro ⟨hr, hz, ha, ho, hf⟩
    exact ⟨(compile_family_some h _).1 hr, (compile_family_some h _).1 hz,
      (compile_family_some h _).1 ha, (compile_family_some h _).1 ho, (compile_family_none h).1 hf⟩
  · rintro ⟨hr, hz, ha, ho, hf⟩
    exact ⟨(compile_family_some h _).2 hr, (compile_family_some h _).2 hz,
      (compile_family_some h _).2 ha, (compile_family_some h _).2 ho, (compile_family_none h).2 hf⟩

theorem Families.filters {r z a o f : List (Spec α)} (h : l.Families r z a o f)
    (hnorm : ∀ n ∈ l.nodes, ∃ a, n.conf.normalize = .ok a) : ∃ fs, l.filters = .ok fs := by
  refine mapM_ok_of_forall ?_
  intro n hn
  have hfamily : ∀ s, ∃ fs, (l.family s).filters = .ok fs := by
    intro s
    cases s with
    | none => exact filters_of_compile h.fade
    | some s =>
      cases s with
      | rotate => exact filters_of_compile h.rotate
      | zoom => exact filters_of_compile h.zoom
      | alpha => exact filters_of_compile h.alpha
      | overlay => exact filters_of_compile h.overlay
  -- A node that can be read is in the family of its kind, which has its filters.
  obtain ⟨anim, hanim⟩ := hnorm n hn
  obtain ⟨fs, hfs⟩ := hfamily anim.kind.stage?
  have hmem : n ∈ (l.family anim.kind.stage?).nodes := by
    simp [family, hn, Node.isOf, Node.kind?, hanim]
  obtain ⟨filter, -, hfilter⟩ := exists_of_mem_of_mapM hfs hmem
  exact ⟨filter, hfilter⟩

/-- **A timeline is compiled family by family.** If its animations can be read,
it compiles exactly when each of the five families does alone, and then to
their filters one after the other. Of the families, the rotations give at most
one filter; the zooms nothing, or one scaling with one zoom behind it; the
changes of opacity and the movements at most one filter each; and the fades one
for each, in order. Animations added to one family change nothing in
another. -/
theorem compile_families (hnorm : ∀ n ∈ l.nodes, ∃ a, n.conf.normalize = .ok a) :
    (∀ specs, l.compile = .ok specs ↔
      ∃ r z a o f, l.Families r z a o f ∧ specs = r ++ z ++ a ++ o ++ f) ∧
    (∀ r z a o f, l.Families r z a o f →
      IsLone rotateGroup (l.family (some .rotate)).nodes r ∧
      ((l.family (some .zoom)).nodes = [] ∧ z = [] ∨
        (l.family (some .zoom)).nodes ≠ [] ∧ ∃ front g, Stage.scaleFilter.toSpec = .ok front ∧
          g.name = zoomGroup ∧ z = [front, g]) ∧
      IsLone alphaGroup (l.family (some .alpha)).nodes a ∧
      IsLone overlayGroup (l.family (some .overlay)).nodes o ∧
      List.Forall₂ (fun n g => g.name = fadeGroup ∧ ∃ f, n.toFilter l.element = .ok f ∧
        f.toSpec = .ok g) (l.family none).nodes f) ∧
    (∀ xs ns ys s s', l.nodes = xs ++ ys → (∀ n ∈ ns, n.isOf s' = true) → s ≠ s' →
      (({ l with nodes := xs ++ ns ++ ys } : Timeline α).family s).compile =
        (l.family s).compile) := by
  refine ⟨fun specs => ⟨?_, ?_⟩, ?_, ?_⟩
  · intro h
    obtain ⟨fs, hfs⟩ := filters_of_compile h
    obtain ⟨r, z, a, o, f, hr, hz, ha, ho, hf, hspecs⟩ := (compile_eq_ok hfs).1 h
    exact ⟨r, z, a, o, f, (Families.of_filters hfs).2 ⟨hr, hz, ha, ho, hf⟩, hspecs⟩
  · rintro ⟨r, z, a, o, f, hfamilies, hspecs⟩
    obtain ⟨fs, hfs⟩ := hfamilies.filters hnorm
    obtain ⟨hr, hz, ha, ho, hf⟩ := (Families.of_filters hfs).1 hfamilies
    exact (compile_eq_ok hfs).2 ⟨r, z, a, o, f, hr, hz, ha, ho, hf, hspecs⟩
  · intro r z a o f h
    obtain ⟨fs, hfs⟩ := h.filters hnorm
    obtain ⟨hr, hz, ha, ho, hf⟩ := (Families.of_filters hfs).1 h
    refine ⟨isLone_of_shape rfl hfs hr, ?_, isLone_of_shape rfl hfs ha,
      isLone_of_shape rfl hfs ho, fades_shape hfs hf⟩
    refine (stageSpecs_shape hfs hz).imp_right ?_
    rintro ⟨hnodes, front, g, hfront, hname, rfl⟩
    rw [Stage.before, List.mapM_cons, List.mapM_nil] at hfront
    simp only [bind_eq_ok, pure_eq_ok] at hfront
    obtain ⟨scale, hscale, _, rfl, rfl⟩ := hfront
    exact ⟨hnodes, scale, g, hscale, hname, rfl⟩
  · intro xs ns ys s s' hnodes hns hne
    rw [family_insert hnodes hns hne]

/-- A picture that zooms and appears, with its own fade among them. -/
def zoomAndFades : Timeline Float :=
  (empty ⟨"picture", .image, 0.0, 0.0, 320, 180, 1280, 720⟩).addAll
    [.make "fade" .entrance 0.5 0.0, .make "alpha" .entrance 0.5 0.0, .make "fade" .exit 0.5 4.0,
      .make "zoom" .entrance 2.0 1.0]

theorem compile_families_zoomAndFades :
    ∃ specs r z a o f, zoomAndFades.compile = .ok specs ∧ zoomAndFades.Families r z a o f ∧
      specs = r ++ z ++ a ++ o ++ f ∧
      specs.map Spec.name = ["scale", "zoompan", "alpha", "fade", "fade"] := by
  have hnorm : ∀ n ∈ zoomAndFades.nodes, ∃ a, n.conf.normalize = .ok a := by
    intro n hn
    have hchecks : (zoomAndFades.nodes.all fun n =>
        n.conf.normalize.toOption.any fun _ => true) = true := by decide +kernel
    obtain ⟨a, ha, -⟩ := exists_of_toOption_any (List.all_eq_true.1 hchecks n hn)
    exact ⟨a, ha⟩
  obtain ⟨specs, hspecs, hnames⟩ := exists_of_toOption_any (x := zoomAndFades.compile)
    (p := fun specs => specs.map Spec.name == ["scale", "zoompan", "alpha", "fade", "fade"])
    (by decide +kernel)
  obtain ⟨r, z, a, o, f, hfamilies, hsum⟩ := ((compile_families hnorm).1 specs).1 hspecs
  exact ⟨specs, r, z, a, o, f, hspecs, hfamilies, hsum, beq_iff_eq.1 hnames⟩

end Tween.Timeline
