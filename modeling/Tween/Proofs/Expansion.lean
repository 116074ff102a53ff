/-
What a request makes of a preset. A request that names no preset of the catalog
changes nothing. Otherwise every set of the preset becomes one more animation,
in order: each of its fields is that of the request, or else that of the set, as
it is placed on the element (`Timeline.addEffect_expands`).
-/
import Tween.Proofs.History

namespace Tween

variable {α : Type}

/-! ## Fields on an element -/

/-- The value under a name is the word for a fade, as the kind of an animation
of a text. -/
def Element.IsFadeAt (e : Element α) (key : String) (v : Json α) : Prop :=
  key = "type" ∧ e.isText = true ∧ (v = .str "fade" ∨ v = .str "show")

/-- No symbol is written as a fade. -/
theorem Element.IsFadeAt.ne_word {e : Element α} {key : String} {v : Json α}
    (h : e.IsFadeAt key v) (y : Symbol) : v ≠ .str y.word := by
  rintro rfl
  obtain ⟨-, -, hword⟩ := h
  rw [Json.str.injEq, Json.str.injEq] at hword
  cases y <;> revert hword <;> decide

theorem Descriptor.kindWord?_eq_some {d : Descriptor α} {w : String} :
    d.kindWord? = some w ↔ d.get? "type" = some (.str w) := by
  unfold kindWord?
  cases d.get? "type" with
  | none => simp
  | some v => cases v <;> simp [Json.str?]

variable [Scalar α]

/-- The five words for a position, and where each of them is for an element:
outside of one edge of the canvas, or where the element rests. -/
inductive Element.Locates (e : Element α) : String → Point α → Prop where
  | leftOut : Locates e "left_out" ⟨-Scalar.ofNat e.width, e.y⟩
  | rightOut : Locates e "right_out" ⟨Scalar.ofNat e.canvasWidth, e.y⟩
  | topOut : Locates e "top_out" ⟨e.x, -Scalar.ofNat e.height⟩
  | bottomOut : Locates e "bottom_out" ⟨e.x, Scalar.ofNat e.canvasHeight⟩
  | origin : Locates e "origin" ⟨e.x, e.y⟩

/-- What the value of a field becomes on an element. A word for a position
becomes that position, and a fade of a text a change of opacity. Every other
value stays. -/
inductive Element.Places (e : Element α) : String → Json α → Json α → Prop where
  | position {key word : String} {p : Point α} (hword : e.Locates word p) :
      Places e key (.str word) (.obj [("x", .ofNumber p.x), ("y", .ofNumber p.y)])
  | fade {key : String} {v : Json α} (hfade : e.IsFadeAt key v) : Places e key v (.str "alpha")
  | same {key : String} {v : Json α} (hword : ∀ word p, e.Locates word p → v ≠ .str word)
      (hfade : ¬ e.IsFadeAt key v) : Places e key v v

theorem Symbol.locates (y : Symbol) (e : Element α) : e.Locates y.word (y.place e) := by
  cases y with
  | leftOut => exact .leftOut
  | rightOut => exact .rightOut
  | topOut => exact .topOut
  | bottomOut => exact .bottomOut
  | origin => exact .origin

theorem Element.Locates.exists_symbol {e : Element α} {word : String} {p : Point α}
    (h : e.Locates word p) : ∃ y : Symbol, word = y.word ∧ p = y.place e := by
  cases h with
  | leftOut => exact ⟨.leftOut, rfl, rfl⟩
  | rightOut => exact ⟨.rightOut, rfl, rfl⟩
  | topOut => exact ⟨.topOut, rfl, rfl⟩
  | bottomOut => exact ⟨.bottomOut, rfl, rfl⟩
  | origin => exact ⟨.origin, rfl, rfl⟩

theorem Symbol.eq_of_word {y y' : Symbol} (h : y.word = y'.word) : y = y' := by
  have hfound := ofWord?_word y
  rw [h, ofWord?_word] at hfound
  exact (Option.some.inj hfound).symm

namespace Element

variable {e : Element α} {key : String} {v w w' : Json α}

theorem Places.unique (h : e.Places key v w) (h' : e.Places key v w') : w = w' := by
  cases h with
  | position hlocates =>
    obtain ⟨y, rfl, rfl⟩ := hlocates.exists_symbol
    generalize hv : Json.str y.word = v at h'
    cases h' with
    | position hlocates' =>
      obtain ⟨y', rfl, rfl⟩ := hlocates'.exists_symbol
      rw [Symbol.eq_of_word (Json.str.inj hv)]
    | fade hfade => exact absurd hv.symm (hfade.ne_word y)
    | same hword => exact absurd hv.symm (hword _ _ hlocates)
  | fade hfade =>
    cases h' with
    | position hlocates =>
      obtain ⟨y, rfl, rfl⟩ := hlocates.exists_symbol
      exact absurd rfl (hfade.ne_word y)
    | fade => rfl
    | same _ hother => exact absurd hfade hother
  | same hword hother =>
    cases h' with
    | position hlocates => exact absurd rfl (hword _ _ hlocates)
    | fade hfade => exact absurd hfade hother
    | same => rfl

theorem places_resolve (h : ¬ e.IsFadeAt key v) : e.Places key v (e.resolve v) := by
  rcases e.resolve_cases v with ⟨y, rfl, hplace⟩ | ⟨hword, hsame⟩
  · rw [hplace]
    exact .position (y.locates e)
  · rw [hsame]
    refine .same (fun word p hlocates => ?_) h
    obtain ⟨y, rfl, -⟩ := hlocates.exists_symbol
    exact hword y

theorem IsFadeAt.resolve_eq (h : e.IsFadeAt key v) : e.resolve v = v :=
  resolve_of_ne_word h.ne_word

end Element

/-- A node is what a set of a preset becomes on an element, with the fields of a
request over those of the set. -/
structure Node.Expands (n : Node α) (e : Element α) (r : Request α) (set : Table (Json α)) :
    Prop where
  parent : n.parent = some e.id
  fields : ∀ key, Option.Rel (e.Places key) ((r.field? key).or (set.get? key)) (n.conf.get? key)

theorem Node.Expands.get?_eq {n : Node α} {e : Element α} {r : Request α} {set : Table (Json α)}
    (h : n.Expands e r set) {key : String} {v w : Json α}
    (hv : (r.field? key).or (set.get? key) = some v) (hw : e.Places key v w) :
    n.conf.get? key = some w := by
  have hfield := h.fields key
  rw [hv] at hfield
  generalize n.conf.get? key = found at hfield
  cases hfield with
  | some hplaces => rw [hplaces.unique hw]

namespace Timeline

theorem adopt_places (e : Element α) (d : Descriptor α) (key : String) :
    Option.Rel (e.Places key) (d.get? key)
      ((adopt e (.ofDescriptor (d.resolved e))).conf.get? key) := by
  have hresolved := d.get?_resolved e key
  have hplain (h : ∀ v, d.get? key = some v → ¬ e.IsFadeAt key v) :
      Option.Rel (e.Places key) (d.get? key) ((d.resolved e).get? key) := by
    rw [hresolved]
    cases hv : d.get? key with
    | none => exact .none
    | some v => exact .some (Element.places_resolve (h v hv))
  by_cases hjoins : e.isText = true ∧ (d.resolved e).IsFade
  · obtain ⟨htext, hfade⟩ := hjoins
    rw [adopt_fade htext hfade, Descriptor.get?_set]
    by_cases hkey : key = "type"
    · subst hkey
      rw [if_pos rfl]
      rcases hfade.of_resolved with hword | hword
      all_goals
        rw [Descriptor.kindWord?_eq_some.1 hword]
        exact .some (.fade ⟨rfl, htext, by simp⟩)
    · rw [if_neg hkey]
      exact hplain fun v _ hv => hkey hv.1
  · rw [adopt_plain hjoins]
    refine hplain fun v hv hfade => hjoins ⟨hfade.2.1, ?_⟩
    obtain ⟨rfl, -, hword⟩ := id hfade
    rw [hv, Option.map_some, hfade.resolve_eq] at hresolved
    rcases hword with rfl | rfl
    · exact .inl (Descriptor.kindWord?_eq_some.2 hresolved)
    · exact .inr (Descriptor.kindWord?_eq_some.2 hresolved)

/-- A set of a preset becomes what it says with the request over it. -/
theorem adopt_expands (e : Element α) (r : Request α) (set : Table (Json α)) :
    (adopt e (.ofDescriptor (Descriptor.resolved ⟨set.union r.overrides⟩ e))).Expands e r set := by
  refine ⟨rfl, fun key => ?_⟩
  have hget : (⟨set.union r.overrides⟩ : Descriptor α).get? key =
      (r.field? key).or (set.get? key) := by
    rw [← Request.get?_overrides]
    exact Table.get?_union _ _ _
  rw [← hget]
  exact adopt_places e _ key

end Timeline

/-! ## Requests by name and by object -/

namespace Request

/-- The fields of an object that asks for a preset, and for a window if one is
given. -/
def windowFields (name : String) (time delay : Option α) : Table (Json α) :=
  Table.ofList
    (("type", .str name) ::
      ((time.map fun t => ("time", Json.ofNumber t)).toList ++
        (delay.map fun d => ("delay", Json.ofNumber d)).toList))

variable {name key : String} {time delay : Option α}

theorem get?_windowFields (name : String) (time delay : Option α) (key : String) :
    (windowFields name time delay).get? key =
      if key = "type" then some (.str name) else (named name time delay).field? key := by
  have hwindow : (windowFields name time delay).get? key =
      ((named name time delay).overrides.get? key).or
        (if key = "type" then some (.str name) else none) := Table.get?_ofList_cons _ _ _
  rw [hwindow, get?_overrides]
  by_cases hkey : key = "type"
  · subst hkey
    rfl
  · rw [if_neg hkey, if_neg hkey, Option.or_none]

theorem name?_windowFields :
    (conf (windowFields name time delay)).name? = some name := by
  unfold name?
  dsimp only
  rw [get?_windowFields, if_pos rfl]
  rfl

/-- Both ways of asking for a preset put the same fields over it, if the window
is finite. -/
theorem overrides_conf (htime : ∀ t ∈ time, Scalar.isFinite t = true)
    (hdelay : ∀ d ∈ delay, Scalar.isFinite d = true) :
    (conf (windowFields name time delay)).overrides = (named name time delay).overrides := by
  refine Table.ext_get? fun key => ?_
  have hnumber (x : Option α) (hx : ∀ t ∈ x, Scalar.isFinite t = true) :
      (x.map Json.ofNumber).filter (fun v => !v.isNull) = x.map Json.ofNumber := by
    cases x with
    | none => rfl
    | some t => simp [Json.ofNumber, hx t rfl, Json.isNull]
  have hconf : (conf (windowFields name time delay)).field? key =
      if key = "type" then none
      else ((named name time delay).field? key).filter fun v => !v.isNull := by
    unfold field?
    dsimp only
    rw [get?_windowFields]
    split <;> rfl
  rw [get?_overrides, get?_overrides, hconf]
  unfold field?
  dsimp only
  by_cases hkey : key = "type"
  · subst hkey
    rfl
  · rw [if_neg hkey]
    split
    · exact hnumber time htime
    · split
      · exact hnumber delay hdelay
      · rfl

end Request

namespace Timeline

theorem addEffect_eq_self (l : Timeline α) {c : Catalog α} {r : Request α}
    (h : r.name?.bind c.get? = none) : l.addEffect c r = l := by
  unfold addEffect Catalog.expand
  rw [h]
  rfl

/-- **What a request makes of a preset.** A request without a name, or with one
that the catalog does not hold, leaves the timeline as it was. Any other leaves
the animations that are there as they are and adds one for every set of the
preset, in order. Each field of it is that of the request, or else that of the
set, as it is placed on the element. A request by name with a finite window, if
any, does the same as the object with this name and window. -/
theorem addEffect_expands (l : Timeline α) (c : Catalog α) (r : Request α) :
    (r.name? = none ∨ (∃ name, r.name? = some name ∧ c.get? name = none) →
      l.addEffect c r = l) ∧
    (∀ name p, r.name? = some name → c.get? name = some p →
      ∃ added, l.addEffect c r = ⟨l.element, l.nodes ++ added⟩ ∧
        List.Forall₂ (fun set n => n.Expands l.element r set) p.sets added) ∧
    (∀ name (time delay : Option α), (∀ t ∈ time, Scalar.isFinite t = true) →
      (∀ d ∈ delay, Scalar.isFinite d = true) →
      l.addEffect c (.named name time delay) =
        l.addEffect c (.conf (Request.windowFields name time delay))) := by
  refine ⟨?_, fun name p hname hp => ?_, fun name time delay htime hdelay => ?_⟩
  · rintro (hname | ⟨name, hname, hp⟩)
    · exact l.addEffect_eq_self (by rw [hname]; rfl)
    · exact l.addEffect_eq_self (by rw [hname]; exact hp)
  · refine ⟨_, (l.addEffect_eq hname hp).trans (l.addAll_eq _), ?_⟩
    rw [List.map_map, List.forall₂_map_right_iff, List.forall₂_same]
    exact fun set _ => adopt_expands l.element r set
  · unfold addEffect Catalog.expand
    rw [Request.name?_windowFields, Request.overrides_conf htime hdelay]
    rfl

/-- A title away from the corner, which is faded out. -/
def titleLeaving : Timeline Float :=
  (empty (title.placedAt 40.0 50.0)).add (.ofDescriptor (.make "show" .exit 1.0 4.0))

/-- The movement from the left, but from the right and down, for three seconds,
with a field of its own for each of the other places. -/
def moveFromRight : Request Float :=
  .conf (Table.ofList
    [("type", .str "moveInLeft"), ("from", .str "right_out"), ("to", .str "bottom_out"),
      ("home", .str "origin"), ("above", .str "top_out"), ("before", .str "left_out"),
      ("ease", .null), ("time", .int 3)])

/-- The title moves in from the place it is given, on the curve of the preset,
and its fade is a change of opacity. A preset that is not in the stock adds
nothing, and a window may be asked for in both ways. -/
theorem addEffect_expands_moveInLeft :
    (∃ moves fades, titleLeaving.addEffect .stock moveFromRight =
        ⟨titleLeaving.element, titleLeaving.nodes ++ [moves, fades]⟩ ∧
      moves.conf.get? "from" = some (.obj [("x", .num 1280.0), ("y", .num 50.0)]) ∧
      moves.conf.get? "to" = some (.obj [("x", .num 40.0), ("y", .num 720.0)]) ∧
      moves.conf.get? "home" = some (.obj [("x", .num 40.0), ("y", .num 50.0)]) ∧
      moves.conf.get? "above" = some (.obj [("x", .num 40.0), ("y", .num (-60.0))]) ∧
      moves.conf.get? "before" = some (.obj [("x", .num (-400.0)), ("y", .num 50.0)]) ∧
      moves.conf.get? "ease" = some (.str "quadOut") ∧
      fades.conf.get? "type" = some (.str "alpha") ∧
      fades.conf.get? "time" = some (.int 3)) ∧
    titleLeaving.addEffect .stock (.named "moveInSideways" none none) = titleLeaving ∧
    titleLeaving.addEffect .stock (.named "moveInLeft" (some 2.5) none) =
      titleLeaving.addEffect .stock
        (.conf (Request.windowFields "moveInLeft" (some 2.5) none)) := by
  have hmove : ("moveInLeft", Phase.entrance, Symbol.leftOut) ∈ Catalog.stockMoves := by
    simp [Catalog.stockMoves]
  have hname : moveFromRight.name? = some "moveInLeft" := by
    simp [moveFromRight, Request.name?, Table.ofList, Table.get?_insert, Json.str?]
  have hunknown : (Catalog.stock (α := Float)).get? "moveInSideways" = none := by decide +kernel
  have hfinite : Scalar.isFinite (2.5 : Float) = true := by decide +kernel
  obtain ⟨-, hadds, hboth⟩ := addEffect_expands titleLeaving .stock moveFromRight
  refine ⟨?_, ?_, hboth "moveInLeft" (some 2.5) none (by simpa using hfinite) (by simp)⟩
  · obtain ⟨added, hadded, hexpands⟩ := hadds _ _ hname (Catalog.get?_stock_move hmove)
    unfold Catalog.stockMove Preset.sets at hexpands
    cases hexpands with
    | cons hmoves hrest =>
      cases hrest with
      | cons hfades hnil =>
        cases hnil
        have hease (word : String) (p : Point Float) (h : titleLeaving.element.Locates word p) :
            (.str "quadOut" : Json Float) ≠ .str word := by
          cases h <;> simp
        have hplain {key : String} {v : Json Float}
            (hword : ∀ word p, titleLeaving.element.Locates word p → v ≠ .str word)
            (hkey : key ≠ "type") : titleLeaving.element.Places key v v :=
          .same hword fun hfade => hkey hfade.1
        refine ⟨_, _, hadded, hmoves.get?_eq ?_ (.position .rightOut),
          hmoves.get?_eq ?_ (.position .bottomOut), hmoves.get?_eq ?_ (.position .origin),
          hmoves.get?_eq ?_ (.position .topOut), hmoves.get?_eq ?_ (.position .leftOut),
          hmoves.get?_eq (v := .str "quadOut") ?_ (hplain hease (by decide)),
          hfades.get?_eq (v := .str "show") ?_ (.fade ⟨rfl, rfl, .inr rfl⟩),
          hfades.get?_eq (v := .int 3) ?_ (hplain (by simp) (by decide))⟩
        all_goals
          simp [moveFromRight, Request.field?, Catalog.stockSet, Table.ofList, Table.get?_insert,
            Option.filter, Json.isNull, Catalog.awayKey, Catalog.moveEase, Symbol.word]
  · obtain ⟨hnone, -⟩ :=
      addEffect_expands titleLeaving .stock (.named "moveInSideways" none none)
    exact hnone (.inr ⟨_, rfl, hunknown⟩)

end Timeline

end Tween
