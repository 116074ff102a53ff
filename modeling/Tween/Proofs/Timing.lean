/-
When a timeline begins and ends. The questions are answered from descriptors as
they are authored, while the windows are those of the checked animations. Phases
and starts are the same in both, and a length is cut to hundredths in one of
them only. So the appear time is the start of the last entrance exactly, and the
duration is less than a hundredth over the end of the last exit
(`Timeline.timing_reported`).
-/
import Tween.Proofs.Exact
import Tween.Timeline.Basic

namespace Tween

namespace Timeline

variable {α : Type} [Scalar α] {l : Timeline α} {p : Phase} {a : Animation α}

/-! ## The last animation of a phase -/

/-- The animation is the last one of its phase, as animations are checked. -/
def IsLast (l : Timeline α) (p : Phase) (a : Animation α) : Prop :=
  ∃ before n after, l.nodes = before ++ n :: after ∧ n.conf.normalize = .ok a ∧ a.phase = p ∧
    ∀ m ∈ after, ∀ b, m.conf.normalize = .ok b → b.phase ≠ p

/-- No animation is of the phase, as animations are checked. -/
def Lacks (l : Timeline α) (p : Phase) : Prop :=
  ∀ n ∈ l.nodes, ∀ a, n.conf.normalize = .ok a → a.phase ≠ p

theorem phase_ne {n : Node α} (hread : ∃ a, n.conf.normalize = .ok a)
    (h : ∀ a, n.conf.normalize = .ok a → a.phase ≠ p) : ¬ (n.conf.phase == p) = true := by
  obtain ⟨a, ha⟩ := hread
  rw [Descriptor.phase_of_normalize ha, beq_iff_eq]
  exact h a ha

/-- The last node of a phase is found by what is read leniently. -/
theorem IsLast.exists_last? (hread : ∀ n ∈ l.nodes, ∃ a, n.conf.normalize = .ok a)
    (h : l.IsLast p a) : ∃ n, l.last? p = some n ∧ n.conf.normalize = .ok a := by
  obtain ⟨before, n, after, hnodes, ha, hphase, hafter⟩ := h
  have hn : (n.conf.phase == p) = true := by
    rw [Descriptor.phase_of_normalize ha, beq_iff_eq]
    exact hphase
  have hnone : after.reverse.find? (fun m => m.conf.phase == p) = none := by
    rw [List.find?_eq_none]
    intro m hm
    have hm' : m ∈ after := List.mem_reverse.1 hm
    exact phase_ne (hread m (by simp [hnodes, hm'])) (hafter m hm')
  refine ⟨n, ?_, ha⟩
  unfold last?
  simp [hnodes, List.find?_append, hnone, hn]

theorem Lacks.last?_eq_none (hread : ∀ n ∈ l.nodes, ∃ a, n.conf.normalize = .ok a)
    (h : l.Lacks p) : l.last? p = none := by
  unfold last?
  rw [List.find?_eq_none]
  intro n hn
  have hn' : n ∈ l.nodes := List.mem_reverse.1 hn
  exact phase_ne (hread n hn') (h n hn')

end Timeline

/-! ## Exact times -/

namespace Arithmetic.Number

variable {A : Arithmetic}

/-- What is cut from a length is less than a hundredth. A length just short of a
hundredth gains a little instead, at most a millionth of one. -/
theorem sub_centiseconds_mem (x : A.Number) :
    x - centiseconds x ∈ Set.Ico (-1e-8) (0.01) := by
  have hle := Int.floor_le (x * 100 + 1e-6)
  have hlt := Int.lt_floor_add_one (x * 100 + 1e-6)
  rw [centiseconds_eq]
  generalize ((⌊x * 100 + 1e-6⌋ : ℤ) : A.Number) = n at hle hlt ⊢
  norm_num at hle hlt ⊢
  constructor
  · linarith
  · linarith

end Arithmetic.Number

namespace Timeline

variable {A : Arithmetic}

/-- **When a timeline is said to begin and to end.** A descriptor that can be
checked is read leniently with the phase and the start that it is checked with.
So if all animations of a timeline can be checked, its appear time is the start
of the last entrance, and its duration is less than a hundredth above the end of
the last exit and at most a millionth of a hundredth below it. Either is zero if
there is no animation of the phase. -/
theorem timing_reported :
    (∀ (d : Descriptor A.Number) a, d.normalize = .ok a →
      d.phase = a.phase ∧ d.delay = a.delay) ∧
    ∀ l : Timeline A.Number, (∀ n ∈ l.nodes, ∃ a, n.conf.normalize = .ok a) →
      (∀ a, l.IsLast .entrance a → l.appearTime = a.delay) ∧
      (l.Lacks .entrance → l.appearTime = 0) ∧
      (∀ a, l.IsLast .exit a →
        -1e-8 ≤ l.duration - (a.delay + a.time) ∧ l.duration - (a.delay + a.time) < 0.01) ∧
      (l.Lacks .exit → l.duration = 0) := by
  refine ⟨fun d a h => ⟨Descriptor.phase_of_normalize h, Descriptor.delay_of_normalize h⟩,
    fun l hread => ⟨fun a h => ?_, fun h => ?_, fun a h => ?_, fun h => ?_⟩⟩
  · obtain ⟨n, hlast, ha⟩ := h.exists_last? hread
    unfold appearTime
    rw [hlast]
    exact Descriptor.delay_of_normalize ha
  · unfold appearTime
    rw [h.last?_eq_none hread]
    norm_num
  · obtain ⟨n, hlast, ha⟩ := h.exists_last? hread
    have hduration : l.duration - (a.delay + a.time) =
        n.conf.time - centiseconds n.conf.time := by
      unfold duration
      rw [hlast, Descriptor.time_of_normalize ha, ← Descriptor.delay_of_normalize ha]
      ring
    rw [hduration]
    exact Arithmetic.Number.sub_centiseconds_mem n.conf.time
  · unfold duration
    rw [h.last?_eq_none hread]
    norm_num

/-- An entrance, an exit that is cut from 1.239 to 1.23 seconds, and a later
entrance, in the order in which they are added. -/
noncomputable def cutStay : Timeline Arithmetic.real.Number :=
  ⟨⟨"picture", .image, 0.0, 0.0, 320, 180, 1280, 720⟩,
    [⟨.make "alpha" .entrance ((1 : ℕ) : Arithmetic.real.Number) 0.5, none⟩,
      ⟨.make "fade" .exit 1.239 2.5, none⟩,
      ⟨.make "rotate" .entrance ((1 : ℕ) : Arithmetic.real.Number) 0.25, none⟩]⟩

/-- The later entrance gives the appear time, and what is cut from the exit is
what its end is missed by. -/
theorem timing_reported_cutStay :
    (∀ n ∈ cutStay.nodes, ∃ a, n.conf.normalize = .ok a) ∧ cutStay.appearTime = 0.25 ∧
      -1e-8 ≤ cutStay.duration - (2.5 + 1.23) ∧ cutStay.duration - (2.5 + 1.23) < 0.01 := by
  have hcome : (Descriptor.make "alpha" .entrance ((1 : ℕ) : Arithmetic.real.Number) 0.5).normalize
      = .ok _ := Arithmetic.Number.normalize_make (k := .alpha) (by decide +kernel) _ one_pos _
  have hagain : (Descriptor.make "rotate" .entrance ((1 : ℕ) : Arithmetic.real.Number)
      0.25).normalize = .ok _ :=
    Arithmetic.Number.normalize_make (k := .rotate) (by decide +kernel) _ one_pos _
  have hcut : centiseconds (1.239 : Arithmetic.real.Number) = 1.23 := by
    have hfloor : ⌊(1.239 : Arithmetic.real.Number) * 100 + 1e-6⌋ = 123 := by
      rw [Int.floor_eq_iff]
      constructor <;> norm_num
    rw [Arithmetic.Number.centiseconds_eq, hfloor]
    norm_num
  have hleave : (Descriptor.make "fade" .exit (1.239 : Arithmetic.real.Number) 2.5).normalize =
      .ok _ :=
    Descriptor.normalize_make (k := .fade) (by decide +kernel) _ rfl rfl (by rw [hcut]; norm_num)
  have hread : ∀ n ∈ cutStay.nodes, ∃ a, n.conf.normalize = .ok a := by
    simp only [cutStay, List.forall_mem_cons]
    exact ⟨⟨_, hcome⟩, ⟨_, hleave⟩, ⟨_, hagain⟩, by simp⟩
  have hlater : cutStay.IsLast .entrance _ := ⟨[_, _], _, [], rfl, hagain, rfl, by simp⟩
  have hafter : ∀ b, (Descriptor.make "rotate" .entrance ((1 : ℕ) : Arithmetic.real.Number)
      0.25).normalize = .ok b → b.phase ≠ .exit := by
    intro b hb
    obtain rfl := Except.ok.inj (hagain.symm.trans hb)
    exact Phase.noConfusion
  have hgone : cutStay.IsLast .exit _ :=
    ⟨[_], _, [_], rfl, hleave, rfl, List.forall_mem_singleton.2 hafter⟩
  obtain ⟨hbegin, -, hend, -⟩ := timing_reported.2 cutStay hread
  have hmissed := hend _ hgone
  rw [hcut] at hmissed
  exact ⟨hread, hbegin _ hlater, hmissed⟩

end Timeline

end Tween
