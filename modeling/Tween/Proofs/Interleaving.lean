/-
How much the order of the animations matters. A stage reads its filters in the
order of the element's stay (`Stage.merged_congr`), so it is enough for two
timelines to have the same entrances and the same exits of every stage, each in
one order, and the same fades in one order (`Timeline.Reorders`): they compile
to the same filters (`compile_reordered`).
-/
import Tween.Proofs.Families

namespace Tween

variable {α : Type} [Scalar α]

namespace Filter

/-- Whether a filter belongs to a phase, as far as the order of an element's
stay is concerned. -/
def isDuring (f : Filter α) : Phase → Bool
  | .entrance => !f.isExit
  | .exit => f.isExit

omit [Scalar α] in
theorem inOrder_perm (fs : List (Filter α)) : (inOrder fs).Perm fs := by
  have h := List.filter_append_perm (fun f : Filter α => !f.isExit) fs
  simpa [inOrder] using h

omit [Scalar α] in
theorem inOrder_filter (group : String) (fs : List (Filter α)) :
    inOrder (fs.filter fun f => f.isIn group) =
      fs.filter (fun f => f.isIn group && f.isDuring .entrance) ++
        fs.filter (fun f => f.isIn group && f.isDuring .exit) := by
  simp only [inOrder, List.filter_filter, isDuring, Bool.and_comm]

end Filter

theorem Stage.merged_congr (s : Stage) {fs gs : List (Filter α)}
    (h : Filter.inOrder fs = Filter.inOrder gs) : s.merged fs = s.merged gs := by
  have hperm : fs.Perm gs := ((Filter.inOrder_perm fs).symm.trans (h ▸ Filter.inOrder_perm gs))
  match fs, gs, hperm.length_eq with
  | [], [], _ => rfl
  | [f], [g], _ =>
    rw [Filter.inOrder_singleton, Filter.inOrder_singleton] at h
    rw [h]
  | f :: f' :: fs, g :: g' :: gs, _ =>
    simp only [merged, Filter.chain, h]

namespace Node

/-- The phase of a node that can be read as an animation. -/
def phase? (n : Node α) : Option Phase :=
  match n.conf.normalize with
  | .ok a => some a.phase
  | .error _ => none

/-- Whether a node's filter is collected by a stage, and belongs to a phase. -/
def isDuring (n : Node α) (s : Stage) (p : Phase) : Bool :=
  n.isOf (some s) && n.phase? == some p

theorem isDuring_eq {n : Node α} {e : Element α} {f : Filter α} (h : n.toFilter e = .ok f)
    (s : Stage) (p : Phase) : n.isDuring s p = (f.isIn s.group && f.isDuring p) := by
  unfold isDuring
  rw [isOf_eq h, groupOf]
  by_cases hin : f.isIn s.group = true
  · obtain ⟨a, ha, haf⟩ := toFilter_eq_ok.1 h
    have hphase : f.isExit = (a.phase == .exit) := by
      simp [Filter.isExit, (Stage.fits_of_isIn haf hin).phase]
    simp only [hin, Bool.true_and, phase?, ha, Filter.isDuring, hphase]
    cases p <;> cases a.phase <;> decide
  · simp [hin]

end Node

namespace Timeline

variable {l l' : Timeline α} {fs fs' : List (Filter α)} {specs : List (Spec α)}

/-- Two timelines of one element have the same animations in another order,
but in every stage the entrances are in one order and the exits are, and the
fades are. -/
structure Reorders (l l' : Timeline α) : Prop where
  element : l.element = l'.element
  nodes : l.nodes.Perm l'.nodes
  stages : ∀ s p, l.nodes.filter (fun n => n.isDuring s p) = l'.nodes.filter fun n => n.isDuring s p
  fades : l.nodes.filter (fun n => n.isOf none) = l'.nodes.filter fun n => n.isOf none

theorem Reorders.symm (h : l.Reorders l') : l'.Reorders l :=
  ⟨h.element.symm, h.nodes.symm, fun s p => (h.stages s p).symm, h.fades.symm⟩

theorem Reorders.filters (h : l.Reorders l') (hfs : l.filters = .ok fs) :
    ∃ fs', l'.filters = .ok fs' := by
  refine mapM_ok_of_forall ?_
  intro n hn
  obtain ⟨f, -, hf⟩ := exists_of_mem_of_mapM hfs (h.nodes.mem_iff.2 hn)
  exact ⟨f, h.element ▸ hf⟩

/-- Nodes and filters that are told apart in the same way: where the nodes are
the same, the filters are. -/
theorem filter_filters_congr (helement : l.element = l'.element) (hfs : l.filters = .ok fs)
    (hfs' : l'.filters = .ok fs') {p : Node α → Bool} {q : Filter α → Bool}
    (hpq : ∀ e n f, n.toFilter e = .ok f → p n = q f)
    (h : l.nodes.filter p = l'.nodes.filter p) : fs.filter q = fs'.filter q := by
  have hrel (e : Element α) : Relator.LiftFun (fun n f => n.toFilter e = .ok f) Iff
      (fun n => p n) (fun f => q f) := fun n f hn => Bool.eq_iff_iff.1 (hpq e n f hn)
  have hleft := mapM_eq_ok.2 (List.rel_filter (hrel l.element) (filters_eq_ok.1 hfs))
  have hright := mapM_eq_ok.2 (List.rel_filter (hrel l'.element) (filters_eq_ok.1 hfs'))
  rw [h, helement, hright] at hleft
  exact (Except.ok.inj hleft).symm

theorem Reorders.inOrder (h : l.Reorders l') (hfs : l.filters = .ok fs)
    (hfs' : l'.filters = .ok fs') (s : Stage) :
    Filter.inOrder (fs.filter fun f => f.isIn s.group) =
      Filter.inOrder (fs'.filter fun f => f.isIn s.group) := by
  have hphase := fun p => filter_filters_congr h.element hfs hfs'
    (fun e n f hn => Node.isDuring_eq hn s p) (h.stages s p)
  rw [Filter.inOrder_filter, Filter.inOrder_filter, hphase .entrance, hphase .exit]

theorem Reorders.stageSpecs (h : l.Reorders l') (hfs : l.filters = .ok fs)
    (hfs' : l'.filters = .ok fs') (s : Stage) : stageSpecs fs s = stageSpecs fs' s := by
  unfold Timeline.stageSpecs Stage.block
  rw [s.merged_congr (h.inOrder hfs hfs' s)]

theorem Reorders.fades_eq (h : l.Reorders l') (hfs : l.filters = .ok fs)
    (hfs' : l'.filters = .ok fs') : Timeline.fades fs = Timeline.fades fs' :=
  filter_filters_congr h.element hfs hfs' (fun _ _ _ hn => Node.isOf_eq hn) h.fades

theorem Reorders.compile (h : l.Reorders l') (hspecs : l.compile = .ok specs) :
    l'.compile = .ok specs := by
  obtain ⟨fs, hfs⟩ := filters_of_compile hspecs
  obtain ⟨fs', hfs'⟩ := h.filters hfs
  rw [compile_eq_ok hfs] at hspecs
  rw [compile_eq_ok hfs']
  simpa only [h.stageSpecs hfs hfs', h.fades_eq hfs hfs'] using hspecs

/-- **The order of the animations matters within a stage and a phase alone**,
and among the fades: timelines that agree there compile alike, and to the same
filters. -/
theorem compile_reordered (h : l.Reorders l') (specs : List (Spec α)) :
    l.compile = .ok specs ↔ l'.compile = .ok specs :=
  ⟨h.compile, h.symm.compile⟩

/-- A picture that comes into view with a turn and leaves again: an entrance, an
exit and a turn, to be put in some order, with a fade behind. -/
def blinkIn : Node Float := .ofDescriptor (.make "alpha" .entrance 0.5 0.0)

@[inherit_doc blinkIn] def blinkOut : Node Float := .ofDescriptor (.make "alpha" .exit 0.5 1.0)

@[inherit_doc blinkIn] def turnIn : Node Float := .ofDescriptor (.make "rotate" .entrance 2.0 0.0)

@[inherit_doc blinkIn] def leave : Node Float := .ofDescriptor (.make "fade" .exit 0.5 4.0)

/-- The picture with its animations in a given order. -/
def blinking (nodes : List (Node Float)) : Timeline Float :=
  ⟨⟨"picture", .image, 0.0, 0.0, 320, 180, 1280, 720⟩, nodes⟩

/-- The exit may be added before the entrance. -/
theorem compile_reordered_blinking :
    ∃ specs, (blinking [blinkIn, turnIn, blinkOut, leave]).compile = .ok specs ∧
      (blinking [blinkOut, turnIn, blinkIn, leave]).compile = .ok specs ∧
      specs.map Spec.name = ["rotate", "alpha", "fade"] := by
  have hread : [blinkIn, turnIn, blinkOut, leave].map (fun n => (n.kind?, n.phase?)) =
      [(some .alpha, some .entrance), (some .rotate, some .entrance), (some .alpha, some .exit),
        (some .fade, some .exit)] := by decide +kernel
  simp only [List.map_cons, List.map_nil, List.cons.injEq, Prod.mk.injEq, and_true] at hread
  have hreorders : (blinking [blinkIn, turnIn, blinkOut, leave]).Reorders
      (blinking [blinkOut, turnIn, blinkIn, leave]) := by
    refine ⟨rfl, ?_, ?_, ?_⟩
    · exact (List.Perm.swap turnIn blinkIn _).trans
        (((List.Perm.swap blinkOut blinkIn _).cons turnIn).trans (List.Perm.swap blinkOut turnIn _))
    · intro s p
      simp only [blinking, List.filter_cons, Node.isDuring, Node.isOf, hread]
      cases s <;> cases p <;> simp [Kind.stage?]
    · simp only [blinking, List.filter_cons, Node.isOf, hread]
      simp [Kind.stage?]
  obtain ⟨specs, hspecs, hnames⟩ := exists_of_toOption_any
    (x := (blinking [blinkIn, turnIn, blinkOut, leave]).compile)
    (p := fun specs => specs.map Spec.name == ["rotate", "alpha", "fade"]) (by decide +kernel)
  exact ⟨specs, hspecs, (compile_reordered hreorders specs).1 hspecs, beq_iff_eq.1 hnames⟩

end Timeline

end Tween
