/-
Requests for presets of the stock. Every preset of the stock is found by its
name (`Catalog.get?_stock_single`, `Catalog.get?_stock_move`). A request adds
the descriptors of the preset to a timeline, with its own fields over theirs and
symbols replaced by positions (`Timeline.addEffect_eq`). If it asks for nothing
but a window, each of them is checked with that window and is otherwise as it is
written down (`Catalog.normalize_requested`).
-/
import Tween.Preset.Stock
import Tween.Proofs.Checked
import Tween.Timeline.Basic

namespace Tween

/-! ## Tables of entries -/

namespace Table

variable {β : Type} {k : String} {v : β}

theorem get?_foldl (t : Table β) (l : List (String × β)) (k : String) :
    (l.foldl (fun t e => t.insert e.1 e.2) t).get? k = ((ofList l).get? k).or (t.get? k) := by
  induction l generalizing t with
  | nil => rfl
  | cons e l ih =>
    have hlist : (ofList (e :: l)).get? k =
        ((ofList l).get? k).or ((empty.insert e.1 e.2).get? k) := ih (empty.insert e.1 e.2)
    rw [List.foldl_cons, ih, hlist, Option.or_assoc, get?_insert, get?_insert]
    split <;> rfl

theorem get?_ofList_append (l m : List (String × β)) (k : String) :
    (ofList (l ++ m)).get? k = ((ofList m).get? k).or ((ofList l).get? k) := by
  unfold ofList
  rw [List.foldl_append]
  exact get?_foldl _ m k

theorem get?_ofList_cons (e : String × β) (l : List (String × β)) (k : String) :
    (ofList (e :: l)).get? k =
      ((ofList l).get? k).or (if k = e.1 then some e.2 else none) := by
  rw [← List.singleton_append, get?_ofList_append]
  exact congrArg _ (get?_insert _ _ _ _)

theorem get?_ofList {l : List (String × β)} (hn : (l.map Prod.fst).Nodup) (k : String) :
    (ofList l).get? k = find k l := by
  induction l with
  | nil => rfl
  | cons e l ih =>
    rw [List.map_cons, List.nodup_cons] at hn
    rw [get?_ofList_cons, ih hn.2, find]
    by_cases hk : e.1 = k
    · rw [if_pos hk, if_pos hk.symm, find_eq_none, Option.none_or]
      exact fun e' he' heq => hn.1 (List.mem_map.2 ⟨e', he', heq.trans hk.symm⟩)
    · rw [if_neg hk, if_neg (Ne.symm hk), Option.or_none]

theorem get?_ofList_of_mem {l : List (String × β)} (hn : (l.map Prod.fst).Nodup)
    (h : (k, v) ∈ l) : (ofList l).get? k = some v := by
  rw [get?_ofList hn]
  induction l with
  | nil => cases h
  | cons e l ih =>
    rw [List.map_cons, List.nodup_cons] at hn
    unfold find
    rcases List.mem_cons.1 h with rfl | hmem
    · exact if_pos rfl
    · have hne : e.1 ≠ k := fun heq => hn.1 (List.mem_map.2 ⟨_, hmem, heq.symm⟩)
      exact (if_neg hne).trans (ih hn.2 hmem)

theorem get?_union (t u : Table β) (k : String) :
    (t.union u).get? k = (u.get? k).or (t.get? k) := by
  unfold union
  rw [get?_foldl, get?_ofList u.nodup_names]
  rfl

theorem get?_filter (p : String → β → Bool) (t : Table β) (k : String) :
    (t.filter p).get? k = (t.get? k).filter (p k) := by
  refine Option.ext fun v => ?_
  have hmem : (k, v) ∈ (t.filter p).entries ↔ (k, v) ∈ t.entries ∧ p k v = true :=
    List.mem_filter
  rw [← mem_entries_iff, hmem, mem_entries_iff, Option.filter_eq_some_iff]

end Table

/-! ## Joining a timeline -/

section

variable {α : Type}

/-- The kind is written as a fade, by one of the two words for it. -/
def Descriptor.IsFade (d : Descriptor α) : Prop :=
  d.kindWord? = some "fade" ∨ d.kindWord? = some "show"

theorem Descriptor.isFade_iff {d : Descriptor α} :
    (d.kindWord? == some "fade" || d.kindWord? == some "show") = true ↔ d.IsFade := by
  simp [IsFade]

theorem Timeline.adopt_fade {e : Element α} {n : Node α} (he : e.isText = true)
    (h : n.conf.IsFade) : adopt e n = ⟨n.conf.set "type" (.str "alpha"), some e.id⟩ := by
  simp only [adopt, he, Descriptor.isFade_iff.2 h, Bool.and_self, if_true]
  rfl

theorem Timeline.adopt_plain {e : Element α} {n : Node α}
    (h : ¬ (e.isText = true ∧ n.conf.IsFade)) : adopt e n = ⟨n.conf, some e.id⟩ := by
  rw [← Descriptor.isFade_iff, ← Bool.and_eq_true] at h
  simp only [adopt, Bool.eq_false_iff.2 h, if_false, Bool.false_eq_true]

/-- Animations that are added stand behind those of the timeline. -/
theorem Timeline.addAll_eq (l : Timeline α) (ds : List (Descriptor α)) :
    l.addAll ds =
      ⟨l.element, l.nodes ++ ds.map fun d => adopt l.element (.ofDescriptor d)⟩ := by
  unfold addAll
  induction ds generalizing l with
  | nil => simp
  | cons d ds ih =>
    rw [List.foldl_cons, ih]
    simp [add]

end

variable {α : Type} [Scalar α]

/-! ## The stock by name -/

namespace Catalog

variable {name : String} {set : Table (Json α)} {phase : Phase} {away : Symbol}

/-- The presets of the stock, in the order in which they are written down. -/
def stockPresets : List (String × Preset α) :=
  stockSingles.map (fun (name, set) => (name, .single set)) ++
    stockMoves.map (fun (name, phase, away) => (name, stockMove phase away))

theorem nodup_stockPresets : ((stockPresets (α := α)).map Prod.fst).Nodup := by
  have hnames : (stockPresets (α := α)).map Prod.fst =
      ["fadeIn", "fadeOut", "alphaIn", "alphaOut", "zoomIn", "zoomOut", "zoomingIn", "rotateIn",
        "rotateOut", "rotatingIn", "moveInLeft", "moveInRight", "moveInUp", "moveInDown",
        "moveOutLeft", "moveOutRight", "moveOutUp", "moveOutDown"] := rfl
  rw [hnames]
  decide

theorem get?_stock_single (h : (name, set) ∈ stockSingles) :
    stock.get? name = some (.single set) :=
  Table.get?_ofList_of_mem nodup_stockPresets
    (List.mem_append_left _ (List.mem_map.2 ⟨_, h, rfl⟩))

theorem get?_stock_move (h : (name, phase, away) ∈ stockMoves) :
    stock.get? name = some (stockMove phase away : Preset α) :=
  Table.get?_ofList_of_mem nodup_stockPresets
    (List.mem_append_right _ (List.mem_map.2 ⟨_, h, rfl⟩))

end Catalog

/-! ## Requests -/

/-- **What a request adds** to a timeline: the descriptors of the preset, with
the fields of the request over theirs. -/
theorem Timeline.addEffect_eq (l : Timeline α) {c : Catalog α} {r : Request α} {name : String}
    {p : Preset α} (hname : r.name? = some name) (hp : c.get? name = some p) :
    l.addEffect c r = l.addAll (p.sets.map fun set =>
      Descriptor.resolved ⟨set.union r.overrides⟩ l.element) := by
  unfold addEffect Catalog.expand
  rw [hname]
  simp only [Option.bind_some, hp, List.map_map]
  rfl

theorem Element.resolve_word (e : Element α) (y : Symbol) :
    e.resolve (.str y.word) = (y.place e).toJson := by
  simp [resolve, resolve?, Json.str?, Symbol.ofWord?_word]

theorem Element.resolve_str {e : Element α} {s : String} (h : Symbol.ofWord? s = none) :
    e.resolve (.str s) = .str s := by
  simp [resolve, resolve?, Json.str?, h]

theorem Element.resolve_of_not_str {e : Element α} {v : Json α} (h : v.str? = none) :
    e.resolve v = v := by
  simp [resolve, resolve?, h]

/-- The words for symbols are the only values that are replaced. -/
theorem Element.resolve_cases (e : Element α) (v : Json α) :
    (∃ y : Symbol, v = .str y.word ∧ e.resolve v = (y.place e).toJson) ∨
      (∀ y : Symbol, v ≠ .str y.word) ∧ e.resolve v = v := by
  by_cases h : ∃ y : Symbol, v = .str y.word
  · obtain ⟨y, rfl⟩ := h
    exact .inl ⟨y, rfl, e.resolve_word y⟩
  · have hword : ∀ y : Symbol, v ≠ .str y.word := fun y hy => h ⟨y, hy⟩
    refine .inr ⟨hword, ?_⟩
    cases v with
    | str s =>
      refine resolve_str (Option.eq_none_iff_forall_ne_some.2 fun y hy => hword y ?_)
      have hs : y.word = s := by simpa using List.find?_some hy
      rw [hs]
    | null | bool | int | num | arr | obj => exact resolve_of_not_str rfl

theorem Element.resolve_of_ne_word {e : Element α} {v : Json α}
    (h : ∀ y : Symbol, v ≠ .str y.word) : e.resolve v = v := by
  rcases e.resolve_cases v with ⟨y, hy, -⟩ | ⟨-, hsame⟩
  · exact absurd hy (h y)
  · exact hsame

theorem Descriptor.get?_resolved (d : Descriptor α) (e : Element α) (key : String) :
    (d.resolved e).get? key = (d.get? key).map e.resolve :=
  Table.get?_map _ _ _

theorem Json.str?_of_number? {v : Json α} {x : α} (h : v.number? = some x) : v.str? = none := by
  cases v <;> simp_all [str?, number?]

/-- The field a request puts over those of a preset: the window it is given, or
any field of an object but the name of the preset and null. -/
def Request.field? (r : Request α) (key : String) : Option (Json α) :=
  match r with
  | named _ time delay =>
    if key = "time" then time.map .ofNumber
    else if key = "delay" then delay.map .ofNumber
    else none
  | conf fields => if key = "type" then none else (fields.get? key).filter fun v => !v.isNull

theorem Request.get?_overrides (r : Request α) (key : String) :
    r.overrides.get? key = r.field? key := by
  cases r with
  | named name time delay =>
    unfold overrides field?
    rw [Table.get?_ofList_append]
    by_cases htime : key = "time"
    · subst htime
      cases time <;> cases delay <;> simp [Table.ofList, Table.get?_insert]
    · cases time <;> cases delay <;> simp [Table.ofList, Table.get?_insert, htime]
  | conf fields =>
    unfold overrides field?
    rw [Table.get?_filter]
    by_cases htype : key = "type"
    · simp [htype]
    · have hother : (key != "type") = true := bne_iff_ne.2 htype
      simp only [hother, Bool.true_and, if_neg htype]

/-- The request overrides at most the window, and asks for this one. What it
does not override is one second from the start. -/
structure Request.AsksWindow (r : Request α) (time delay : α) : Prop where
  only : ∀ key, key ≠ "time" → key ≠ "delay" → r.overrides.get? key = none
  time : ((r.overrides.get? "time").getD (.int 1)).number? = some time
  delay : ((r.overrides.get? "delay").getD (.int 0)).number? = some delay

/-- A preset by name is requested with the window that is given, and has its own
where none is. -/
theorem Request.asksWindow_named (name : String) {time delay : Option α}
    (htime : ∀ x ∈ time, Scalar.isFinite x = true)
    (hdelay : ∀ x ∈ delay, Scalar.isFinite x = true) :
    (named name time delay).AsksWindow (time.getD (Scalar.ofInt 1))
      (delay.getD (Scalar.ofInt 0)) := by
  have hnumber : ∀ x : α, Scalar.isFinite x = true → (Json.ofNumber x).number? = some x := by
    intro x hx
    simp [Json.ofNumber, hx, Json.number?]
  refine ⟨fun key hne hne' => ?_, ?_, ?_⟩
  · rw [get?_overrides, field?, if_neg hne, if_neg hne']
  · rw [get?_overrides, field?, if_pos rfl]
    cases time with
    | none => rfl
    | some x => exact hnumber x (htime x rfl)
  · rw [get?_overrides, field?, if_neg (by decide), if_pos rfl]
    cases delay with
    | none => rfl
    | some x => exact hnumber x (hdelay x rfl)

namespace Catalog

/-- A descriptor of the stock as a request puts it into the timeline of an
element. -/
def requested (kind : String) (phase : Phase) (more : List (String × Json α)) (r : Request α)
    (e : Element α) : Descriptor α :=
  Descriptor.resolved ⟨(stockSet kind phase more).union r.overrides⟩ e

/-- The names of the fields that all descriptors of the stock have. -/
def commonKeys : List String := ["type", "showType", "time", "delay"]

/-- These fields. -/
def common (kind : String) (phase : Phase) : List (String × Json α) :=
  [("type", .str kind), ("showType", .str phase.word), ("time", .int 1), ("delay", .int 0)]

variable {word key : String} {k : Kind} {phase : Phase} {more : List (String × Json α)}
  {r : Request α} {e : Element α} {time delay : α}

theorem get?_requested : (requested word phase more r e).get? key =
    ((r.overrides.get? key).or
      (((Table.ofList more).get? key).or (Table.find key (common word phase)))).map e.resolve := by
  have hnodup : ((common word phase : List (String × Json α)).map Prod.fst).Nodup := by
    change commonKeys.Nodup
    decide
  have hcommon : (Table.ofList (common word phase : List (String × Json α))).get? key =
      Table.find key (common word phase) := Table.get?_ofList hnodup key
  refine (Table.get?_map _ _ _).trans ?_
  rw [Table.get?_union, ← hcommon]
  exact congrArg (fun v => ((r.overrides.get? key).or v).map _) (Table.get?_ofList_append _ _ _)

theorem get?_requested_more (hr : r.AsksWindow time delay)
    (hkey : key ∉ commonKeys) :
    (requested word phase more r e).get? key = ((Table.ofList more).get? key).map e.resolve := by
  simp only [commonKeys, List.mem_cons, List.not_mem_nil, or_false, not_or] at hkey
  obtain ⟨htype, hphase, htime, hdelay⟩ := hkey
  rw [get?_requested, hr.only key htime hdelay, Option.none_or]
  simp [common, Table.find, Ne.symm htype, Ne.symm hphase, Ne.symm htime, Ne.symm hdelay]

theorem kindWord?_requested (hr : r.AsksWindow time delay)
    (hmore : (Table.ofList more).get? "type" = none) (hword : Symbol.ofWord? word = none) :
    (requested word phase more r e).kindWord? = some word := by
  unfold Descriptor.kindWord?
  rw [get?_requested, hr.only _ (by decide) (by decide), hmore]
  simp [common, Table.find, Element.resolve_str hword, Json.str?]

/-- **A descriptor of the stock is checked** with the window that is asked for,
if the window is finite and not cut away. -/
theorem normalize_requested (hr : r.AsksWindow time delay)
    (hmore : ∀ key ∈ commonKeys, (Table.ofList more).get? key = none)
    (hk : Kind.ofWord? word = some k) (hword : Symbol.ofWord? word = none)
    (htime : Scalar.isFinite time = true) (hdelay : Scalar.isFinite delay = true)
    (hpos : ¬ centiseconds time ≤ 0.0) {d : Descriptor α} (hd : d = requested word phase more r e)
    {ease : Ease} {first last : Option (Endpoint α)} {rate : Option α}
    (hease : d.readEase = .ok ease) (hfirst : Endpoint.readField d.fields "from" = .ok first)
    (hlast : Endpoint.readField d.fields "to" = .ok last)
    (hrate : finiteField d.fields "add" = .ok rate) :
    d.normalize = .ok ⟨k, phase, centiseconds time, delay, ease, d.flag "ing", rate, d.flag "pad",
      first, last⟩ := by
  have hnumber : ∀ {key : String} {v : Json α} {x : α}, d.get? key = some (e.resolve v) →
      v.number? = some x → Scalar.isFinite x = true → finiteField d.fields key = .ok (some x) :=
    fun hget hv hx =>
      finiteField_of_number (Element.resolve_of_not_str (Json.str?_of_number? hv) ▸ hget) hv hx
  have hphaseWord : Symbol.ofWord? phase.word = none := by cases phase <;> rfl
  have hget : ∀ key, d.get? key = _ := fun key => hd ▸ get?_requested
  refine Descriptor.normalize_of_fields ?_ hk ?_ ?_ hpos ?_ hease hfirst hlast hrate
  · rw [hget, hr.only _ (by decide) (by decide), hmore _ (by decide)]
    simp [common, Table.find, Element.resolve_str hword]
  · rw [hget, hr.only _ (by decide) (by decide), hmore _ (by decide)]
    simp [common, Table.find, Element.resolve_str hphaseWord]
  · refine hnumber ?_ hr.time htime
    rw [hget, hmore _ (by decide)]
    cases r.overrides.get? "time" <;> rfl
  · refine hnumber ?_ hr.delay hdelay
    rw [hget, hmore _ (by decide)]
    cases r.overrides.get? "delay" <;> rfl

end Catalog

/-- A request for a preset of one descriptor, which is not a fade, adds this
one. -/
theorem Timeline.nodes_of_single (e : Element α) {r : Request α} {name word : String}
    {phase : Phase} {more : List (String × Json α)} {time delay : α}
    (hname : r.name? = some name) (hr : r.AsksWindow time delay)
    (h : (name, Catalog.stockSet word phase more) ∈ Catalog.stockSingles)
    (hmore : (Table.ofList more).get? "type" = none) (hword : Symbol.ofWord? word = none)
    (hfade : word ≠ "fade" ∧ word ≠ "show") :
    ((Timeline.empty e).addEffect .stock r).nodes =
      [⟨Catalog.requested word phase more r e, some e.id⟩] := by
  rw [addEffect_eq _ hname (Catalog.get?_stock_single h)]
  have hkind : (Catalog.requested word phase more r e).kindWord? = some word :=
    Catalog.kindWord?_requested hr hmore hword
  have hne : ∀ w, word ≠ w → (Catalog.requested word phase more r e).kindWord? ≠ some w :=
    fun w hw heq => hw (Option.some.inj (hkind.symm.trans heq))
  exact congrArg (fun n => [n]) (adopt_plain fun h => h.2.elim (hne _ hfade.1) (hne _ hfade.2))

/-! ## Movements -/

namespace Catalog

end Catalog

end Tween
