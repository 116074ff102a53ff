/-
A timeline moved in time. It is compiled side by side with the timeline itself:
from the animations to the filters in order, the two differ by the move alone
(`compose_moved`). So one can be compiled exactly if the other can, every
animated option has at each time the value it had later, and the starts of the
renderer's own fades are moved (`compile_shiftBack`).
-/
import Tween.Proofs.Moved
import Tween.Proofs.Checked
import Tween.Proofs.Failure

namespace Tween

variable {A : Arithmetic} {amount : A.Number}

/-! ## Finished filters -/

/-- What an option becomes when a timeline is moved: at every time an animated
one has the value it had later, a start is moved by the amount, and everything
else is as it was. -/
inductive OptionValue.Earlier (amount : A.Number) (isStart : Prop) :
    OptionValue A.Number → OptionValue A.Number → Prop
  | animated {x y : Expr A.Number}
    (h : ∀ t, ∃ v, x.eval (t + amount) = .ok v ∧ y.eval t = .ok v) :
    Earlier amount isStart (.animated x) (.animated y)
  | start (h : isStart) (c : A.Number) :
    Earlier amount isStart (.fixed (.number c)) (.fixed (.number (c - amount)))
  | fixed (h : ¬ isStart) (s : Setting A.Number) : Earlier amount isStart (.fixed s) (.fixed s)

/-- What a finished filter becomes when a timeline is moved. Only a fade has a
start among its options. -/
structure Filter.Earlier (amount : A.Number) (f g : Filter A.Number) : Prop where
  name : g.name = f.name
  clock : g.clock = f.clock
  keys : g.options.keys = f.options.keys
  options : ∀ key v, f.options.get? key = some v → ∃ w, g.options.get? key = some w ∧
    v.Earlier amount (f.name = fadeGroup ∧ key = "st") w
  start : f.name = fadeGroup → f.options.contains "st" = true

namespace Filter

variable {f g : Filter A.Number} {spec : Spec A.Number}

theorem isClosed_of_toSpec (h : f.toSpec = .ok spec) {key : String} {x : Expr A.Number}
    (hx : f.options.get? key = some (.animated x)) : x.IsClosed := by
  obtain ⟨options, hoptions, -⟩ := bind_eq_ok.1 h
  obtain ⟨json, hjson, -⟩ := Table.get?_traverse_some hoptions hx
  simp only [OptionValue.toJson] at hjson
  split at hjson
  · rename_i text htext
    exact Expr.isClosed_of_render htext
  · cases hjson

/-- Of two filters moved in time, one can be handed to the renderer exactly if
the other can. -/
theorem Moved.toSpec (h : f.Moved amount g) : Parallel (fun _ _ => True) f.toSpec g.toSpec := by
  unfold Filter.toSpec
  rw [h.clock]
  refine (h.options.traverse (S := fun _ _ _ => True) ?_).bind fun _ _ _ => .pure trivial
  intro key v w hvw
  cases hvw with
  | fixed s => exact .refl (fun _ => trivial) _
  | @animated x y hxy =>
    have htext := hxy.render f.clock
    simp only [OptionValue.toJson]
    generalize x.render f.clock = r, y.render f.clock = r' at htext ⊢
    cases htext with
    | ok => exact .ok trivial
    | error => exact .error _ _

theorem Moved.earlier (h : f.Moved amount g) (hspec : f.toSpec = .ok spec) :
    f.Earlier amount g := by
  refine ⟨h.name, h.clock, h.options.keys_eq, ?_, fun hfade => absurd hfade h.notFade⟩
  intro key v hv
  obtain ⟨w, hw, hvw⟩ := h.options.get?_some hv
  refine ⟨w, hw, ?_⟩
  cases hvw with
  | fixed s => exact .fixed (fun hstart => h.notFade hstart.1) s
  | animated hxy =>
    refine .animated fun t => ?_
    obtain ⟨u, hu⟩ := (isClosed_of_toSpec hspec hv).eval_ok (t + amount)
    exact ⟨u, hu, (hxy.eval t).trans hu⟩

end Filter

namespace Animation

variable (a : Animation A.Number)

theorem fadeFilter_toSpec : ∃ spec, a.fadeFilter.toSpec = .ok spec :=
  toSpec_ok (fun _ _ _ => rfl) fun _ _ hx => absurd hx not_animated_fadeFilter

theorem fadeFilter_earlier : a.fadeFilter.Earlier amount (a.earlier amount).fadeFilter := by
  have hfixed {key : String} (hkey : key ≠ "st") (s : Setting A.Number) :
      OptionValue.Earlier amount (a.fadeFilter.name = fadeGroup ∧ key = "st") (.fixed s)
        (.fixed s) :=
    .fixed (fun hstart => hkey hstart.2) s
  have hoptions : a.fadeFilter.options.Related
      (fun key => OptionValue.Earlier amount (a.fadeFilter.name = fadeGroup ∧ key = "st"))
      (a.earlier amount).fadeFilter.options :=
    (((Table.Related.empty.insert (hfixed (by decide) _)).insert (.start ⟨rfl, rfl⟩ a.delay)).insert
      (hfixed (by decide) _)).insert (hfixed (by decide) _)
  refine ⟨rfl, rfl, hoptions.keys_eq, fun key v hv => hoptions.get?_some hv, fun _ => ?_⟩
  simp [Table.contains, fadeFilter, Filter.get?_withNumber]

end Animation

theorem Filter.MovedOrFade.toSpec {f g : Filter A.Number} (h : f.MovedOrFade amount g) :
    Parallel (fun _ _ => True) f.toSpec g.toSpec := by
  cases h with
  | moved h => exact h.toSpec
  | fade a =>
    obtain ⟨spec, hspec⟩ := a.fadeFilter_toSpec
    obtain ⟨spec', hspec'⟩ := (a.earlier amount).fadeFilter_toSpec
    rw [hspec, hspec']
    exact .ok trivial

theorem Filter.MovedOrFade.earlier {f g : Filter A.Number} {spec : Spec A.Number}
    (h : f.MovedOrFade amount g) (hspec : f.toSpec = .ok spec) : f.Earlier amount g := by
  cases h with
  | moved h => exact h.earlier hspec
  | fade a => exact a.fadeFilter_earlier

/-! ## Timelines -/

theorem Node.toFilter_moved {n : Node A.Number} {a : Animation A.Number}
    (ha : n.conf.normalize = .ok a) (hle : amount ≤ a.delay) (e : Element A.Number) :
    Parallel (Filter.MovedOrFade amount) (n.toFilter e)
      ((n.set "delay" (.ofNumber (Scalar.positivePart (n.conf.delay - amount)))).toFilter e) := by
  have hstart : Scalar.positivePart (n.conf.delay - amount) = a.delay - amount := by
    rw [Descriptor.delay_of_normalize ha]
    exact Arithmetic.Number.positivePart_of_nonneg (sub_nonneg.2 hle)
  have hmoved := Descriptor.normalize_set_delay ha (x := a.delay - amount) rfl
  unfold toFilter
  rw [hstart, ha]
  change Parallel _ _ ((n.conf.set "delay" (.ofNumber (a.delay - amount))).normalize >>= _)
  rw [hmoved]
  exact a.toFilter_moved e

namespace Timeline

variable {l : Timeline A.Number}

/-- Every animation of a timeline can be checked, and starts so late that it can
be moved. -/
def Movable (l : Timeline A.Number) (amount : A.Number) : Prop :=
  ∀ n ∈ l.nodes, ∃ a, n.conf.normalize = .ok a ∧ amount ≤ a.delay

theorem filters_moved (h : l.Movable amount) :
    Parallel (List.Forall₂ (Filter.MovedOrFade amount)) l.filters (l.shiftBack amount).filters := by
  unfold filters shiftBack
  rw [List.mapM_map]
  refine Parallel.mapM (R := fun n n' => n = n' ∧ n ∈ l.nodes) ?_ ?_
  · exact List.forall₂_same.2 fun n hn => ⟨rfl, hn⟩
  · rintro n _ ⟨rfl, hn⟩
    obtain ⟨a, ha, hle⟩ := h n hn
    exact Node.toFilter_moved ha hle l.element

theorem compose_moved (h : l.Movable amount) :
    Parallel (List.Forall₂ (Filter.MovedOrFade amount)) l.compose (l.shiftBack amount).compose := by
  refine (filters_moved h).bind fun fs gs hfs => ?_
  refine (Parallel.foldlM Stage.all (fun s _ _ => s.collect_moved) hfs).bind fun fs gs hfs => ?_
  exact .pure (List.rel_append (List.rel_filter (fun f g hfg => by simp only [hfg.isIn_eq]) hfs)
    (List.rel_filter (fun f g hfg => by simp only [hfg.isIn_eq]) hfs))

theorem compile_moved (h : l.Movable amount) :
    Parallel (fun _ _ => True) l.compile (l.shiftBack amount).compile :=
  (compose_moved h).bind fun _ _ hfs =>
    (Parallel.mapM hfs fun _ _ hfg => hfg.toSpec).imp fun _ _ _ => trivial

/-- **Moving a timeline moves what it is compiled to.** If its animations can be
checked and none would have to start before zero, the moved timeline can be
compiled exactly if the timeline can. The filters are then the same ones, one
for one, at an earlier time. -/
theorem compile_shiftBack (h : l.Movable amount) :
    ((∃ specs, (l.shiftBack amount).compile = .ok specs) ↔ ∃ specs, l.compile = .ok specs) ∧
      ∀ specs, l.compile = .ok specs → ∃ fs gs, l.compose = .ok fs ∧
        (l.shiftBack amount).compose = .ok gs ∧ List.Forall₂ (Filter.Earlier amount) fs gs := by
  refine ⟨(compile_moved h).exists_ok_iff.symm, ?_⟩
  intro specs hspecs
  obtain ⟨fs, hfs, hspecs⟩ := bind_eq_ok.1 hspecs
  obtain ⟨gs, hgs, hmoved⟩ := (compose_moved h).exists_of_eq_ok hfs
  refine ⟨fs, gs, hfs, hgs, ?_⟩
  have hspec : ∀ f ∈ fs, ∃ spec, f.toSpec = .ok spec := by
    intro f hf
    obtain ⟨spec, -, hspec⟩ := exists_of_mem_of_mapM hspecs hf
    exact ⟨spec, hspec⟩
  refine ((List.forall₂_and_left _ _).2 ⟨hspec, hmoved⟩).imp ?_
  rintro f g ⟨⟨spec, hspec⟩, hfg⟩
  exact hfg.earlier hspec

/-- A picture that comes into view after one second, and leaves after three. -/
noncomputable def comeLate : Node Arithmetic.real.Number :=
  .ofDescriptor (.make "alpha" .entrance (1 : ℕ) 1)

@[inherit_doc comeLate] noncomputable def leaveLate : Node Arithmetic.real.Number :=
  .ofDescriptor (.make "fade" .exit (1 : ℕ) 3)

@[inherit_doc comeLate] noncomputable def lateStay : Timeline Arithmetic.real.Number :=
  ⟨⟨"picture", .image, 0.0, 0.0, 320, 180, 1280, 720⟩, [comeLate, leaveLate]⟩

theorem compile_shiftBack_lateStay :
    (∃ specs, (lateStay.shiftBack 1).compile = .ok specs) ∧
      ∃ fs gs, lateStay.compose = .ok fs ∧ (lateStay.shiftBack 1).compose = .ok gs ∧
        List.Forall₂ (Filter.Earlier 1) fs gs := by
  have hcome : comeLate.conf.normalize = .ok _ :=
    Arithmetic.Number.normalize_make (k := .alpha) (by decide +kernel) .entrance one_pos 1
  have hleave : leaveLate.conf.normalize = .ok _ :=
    Arithmetic.Number.normalize_make (k := .fade) (by decide +kernel) .exit one_pos 3
  have hmovable : lateStay.Movable 1 :=
    List.forall_mem_cons.2 ⟨⟨_, hcome, le_refl _⟩,
      List.forall_mem_singleton.2 ⟨_, hleave, by norm_num⟩⟩
  have hfilters : ∀ n ∈ lateStay.nodes, ∃ f,
      n.toFilter lateStay.element = .ok f ∧ f.FiniteSettings :=
    List.forall_mem_cons.2 ⟨⟨_, Node.toFilter_eq_ok.2 ⟨_, hcome, rfl⟩, fun _ _ _ => rfl⟩,
      List.forall_mem_singleton.2 ⟨_, Node.toFilter_eq_ok.2 ⟨_, hleave, rfl⟩, fun _ _ _ => rfl⟩⟩
  obtain ⟨specs, hspecs⟩ := exists_compile hfilters fun s => by
    cases s <;> simp [schedule, family, lateStay, Node.isOf, Node.kind?, Node.animation?, hcome,
      hleave, Kind.stage?, Except.toOption]
  obtain ⟨hiff, hmoved⟩ := compile_shiftBack hmovable
  exact ⟨hiff.2 ⟨specs, hspecs⟩, hmoved specs hspecs⟩

end Timeline

end Tween
