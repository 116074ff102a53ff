/-
Timelines without symbolic positions. To replace the symbols of a timeline
leaves none among its fields, and touches nothing else
(`Timeline.resolved_settles`). Animations of presets are resolved before they
join, and a text that turns a fade into a change of opacity or a move in time
writes no word of a symbol. So a timeline that holds none never comes to hold
one, unless an animation is added as it is authored (`IsSettled.after`).
-/
import Tween.Proofs.History

namespace Tween

variable {α : Type}

/-! ## Descriptors -/

/-- No field holds the word for a symbol. -/
def Descriptor.IsSettled (d : Descriptor α) : Prop :=
  ∀ key v, d.get? key = some v → ∀ y : Symbol, v ≠ .str y.word

theorem Descriptor.IsSettled.set {d : Descriptor α} {v : Json α} (h : d.IsSettled) (key : String)
    (hv : ∀ y : Symbol, v ≠ .str y.word) : (d.set key v).IsSettled := by
  intro k w hw
  rw [get?_set] at hw
  split at hw
  · obtain rfl := Option.some.inj hw
    exact hv
  · exact h k w hw

theorem Json.ofNumber_ne_str [Scalar α] (x : α) (s : String) : Json.ofNumber x ≠ .str s := by
  unfold ofNumber
  split
  · exact nofun
  · exact nofun

section

variable [Scalar α]

/-- What a symbol is replaced by is no symbol. -/
theorem Element.resolve_ne_word (e : Element α) (v : Json α) (y : Symbol) :
    e.resolve v ≠ .str y.word := by
  rcases e.resolve_cases v with ⟨y', -, hplace⟩ | ⟨hword, hsame⟩
  -- A position is an object, and a word is not.
  · rw [hplace]
    exact nofun
  · rw [hsame]
    exact hword y

theorem Descriptor.isSettled_resolved (d : Descriptor α) (e : Element α) :
    (d.resolved e).IsSettled := by
  intro key v hv
  rw [get?_resolved] at hv
  obtain ⟨w, -, rfl⟩ := Option.map_eq_some_iff.1 hv
  exact e.resolve_ne_word w

theorem Descriptor.IsSettled.resolved_eq {d : Descriptor α} (h : d.IsSettled) (e : Element α) :
    d.resolved e = d := by
  refine Descriptor.ext (Table.ext_get? fun key => (d.get?_resolved e key).trans ?_)
  change (d.get? key).map e.resolve = d.get? key
  cases hv : d.get? key with
  | none => rfl
  | some v => exact congrArg some (Element.resolve_of_ne_word (h key v hv))

end

/-! ## Timelines -/

/-- A change that adds no animation as it is authored. -/
def Change.IsUnauthored : Change α → Prop
  | .add _ | .addAll _ => False
  | .effect _ _ | .resolve | .shiftBack _ => True

/-- What a node becomes where the symbols of its fields are replaced by their
places on an element. -/
structure Node.Resolves [Scalar α] (n m : Node α) (e : Element α) : Prop where
  parent : m.parent = n.parent
  keys : m.conf.fields.keys = n.conf.fields.keys
  symbol : ∀ key (y : Symbol), n.conf.get? key = some (.str y.word) →
    m.conf.get? key = some (y.place e).toJson
  other : ∀ key v, n.conf.get? key = some v → (∀ y : Symbol, v ≠ .str y.word) →
    m.conf.get? key = some v

theorem Node.resolves_resolved [Scalar α] (n : Node α) (e : Element α) :
    n.Resolves ⟨n.conf.resolved e, n.parent⟩ e := by
  refine ⟨rfl, Table.keys_map _ _, fun key y hy => ?_, fun key v hv hword => ?_⟩
  · rw [Descriptor.get?_resolved, hy, Option.map_some, e.resolve_word]
  · rw [Descriptor.get?_resolved, hv, Option.map_some, Element.resolve_of_ne_word hword]

namespace Timeline

/-- No animation holds the word for a symbol in a field. -/
def IsSettled (l : Timeline α) : Prop := ∀ n ∈ l.nodes, n.conf.IsSettled

/-- A node keeps its fields when it joins, but for a fade of a text, whose kind
is written anew. -/
theorem isSettled_adopt {n : Node α} (h : n.conf.IsSettled) (e : Element α) :
    (adopt e n).conf.IsSettled := by
  by_cases hjoins : e.isText = true ∧ n.conf.IsFade
  · rw [adopt_fade hjoins.1 hjoins.2]
    refine h.set "type" fun y => ?_
    cases y <;> simp [Symbol.word]
  · rw [adopt_plain hjoins]
    exact h

theorem IsSettled.addAll {l : Timeline α} (h : l.IsSettled) {ds : List (Descriptor α)}
    (hds : ∀ d ∈ ds, d.IsSettled) : (l.addAll ds).IsSettled := by
  rw [addAll_eq]
  intro n hn
  rcases List.mem_append.1 hn with hn | hn
  · exact h n hn
  · obtain ⟨d, hd, rfl⟩ := List.mem_map.1 hn
    exact isSettled_adopt (hds d hd) l.element

variable [Scalar α] {l : Timeline α}

theorem isSettled_resolved (l : Timeline α) : l.resolved.IsSettled := by
  intro n hn
  obtain ⟨n', -, rfl⟩ := List.mem_map.1 hn
  exact n'.conf.isSettled_resolved l.element

/-- To replace symbols changes nothing exactly where there are none. -/
theorem isSettled_iff : l.IsSettled ↔ l.resolved = l := by
  refine ⟨fun h => ?_, fun h => h ▸ l.isSettled_resolved⟩
  refine Timeline.ext rfl ((List.map_congr_left fun n hn => ?_).trans (List.map_id _))
  rw [(h n hn).resolved_eq l.element]
  rfl

/-- **A change keeps a timeline settled** if it adds no animation as it is
authored. -/
theorem IsSettled.change (h : l.IsSettled) {c : Change α} (hc : c.IsUnauthored) :
    (l.change c).IsSettled := by
  cases c with
  | add n => cases hc
  | addAll ds => cases hc
  | effect c r =>
    refine h.addAll fun d hd => ?_
    obtain ⟨d', -, rfl⟩ := List.mem_map.1 hd
    exact d'.isSettled_resolved l.element
  | resolve => exact l.isSettled_resolved
  | shiftBack amount =>
    intro n hn
    obtain ⟨n', hn', rfl⟩ := List.mem_map.1 hn
    exact (h n' hn').set "delay" fun y => Json.ofNumber_ne_str _ _

/-- **And so do any number of such changes.** -/
theorem IsSettled.after (h : l.IsSettled) {cs : List (Change α)}
    (hcs : ∀ c ∈ cs, c.IsUnauthored) : (l.after cs).IsSettled := by
  unfold Timeline.after
  induction cs generalizing l with
  | nil => exact h
  | cons c cs ih =>
    obtain ⟨hc, hcs⟩ := List.forall_mem_cons.1 hcs
    exact ih (h.change hc) hcs

/-- **Symbols and their places.** Where the symbols of a timeline are replaced,
no field holds one any more; all other values stay, and so do the names of the
fields, the parents and the order, and to replace them again changes nothing.
From a timeline on which it changes nothing, requests for presets, moves in time
and replacements, in any order, lead to such timelines only. -/
theorem resolved_settles (l : Timeline α) :
    l.resolved.element = l.element ∧
      List.Forall₂ (fun n m => n.Resolves m l.element) l.nodes l.resolved.nodes ∧
      l.resolved.IsSettled ∧ l.resolved.resolved = l.resolved ∧
      ∀ cs : List (Change α), l.resolved = l → (∀ c ∈ cs, c.IsUnauthored) →
        (l.after cs).resolved = l.after cs := by
  refine ⟨rfl, ?_, l.isSettled_resolved, isSettled_iff.1 l.isSettled_resolved,
    fun cs hl hcs => isSettled_iff.1 ((isSettled_iff.2 hl).after hcs)⟩
  unfold resolved
  rw [List.forall₂_map_right_iff, List.forall₂_same]
  exact fun n _ => n.resolves_resolved l.element

/-- A title that comes in from the left. -/
def titleFromLeft : Timeline Float :=
  ⟨title, [.ofDescriptor ⟨Table.ofList [("type", .str "move"), ("from", .str "left_out")]⟩]⟩

/-- It is faded in, with a remark that reads like a symbol, and a little
earlier. -/
def fadedWithRemark : List (Change Float) :=
  [.effect .stock (.conf (Table.ofList [("type", .str "fadeIn"), ("remark", .str "origin")])),
    .shiftBack 0.5]

/-- The title comes from its place on the left, and the remark is resolved as
the fade joins. -/
theorem resolved_settles_titleFromLeft :
    titleFromLeft.resolved.nodes.map (fun n => n.conf.get? "from") =
        [some (Symbol.leftOut.place title).toJson] ∧
      titleFromLeft.resolved.resolved = titleFromLeft.resolved ∧
      (∀ c ∈ fadedWithRemark, c.IsUnauthored) ∧
      (titleFromLeft.resolved.after fadedWithRemark).resolved =
        titleFromLeft.resolved.after fadedWithRemark := by
  obtain ⟨-, hnodes, -, hagain, -⟩ := resolved_settles titleFromLeft
  have hchanges : ∀ c ∈ fadedWithRemark, c.IsUnauthored := by
    simp [fadedWithRemark, Change.IsUnauthored]
  refine ⟨?_, hagain, hchanges,
    (resolved_settles titleFromLeft.resolved).2.2.2.2 fadedWithRemark hagain hchanges⟩
  generalize titleFromLeft.resolved.nodes = ms at hnodes ⊢
  cases hnodes with
  | cons hmoves hnodes =>
    cases hnodes
    refine congrArg (· :: []) (hmoves.symbol "from" .leftOut ?_)
    simp [Node.ofDescriptor, Descriptor.get?, Table.ofList, Symbol.word]

end Timeline

end Tween
