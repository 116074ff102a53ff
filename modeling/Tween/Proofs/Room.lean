/-
Zooms that ask for room. A timeline reports them by the word for their kind as
it is written, while they are compiled by what it is read as. So a zoom is
reported exactly if its word has no blanks around it and no capitals in it; the
reported scale is the larger endpoint of the last such zoom that has endpoints
(`Timeline.room_reported`).
-/
import Tween.Proofs.Double.Order
import Tween.Proofs.Scale

namespace Tween

variable {α : Type} [Scalar α]

/-! ## Written and read -/

/-- The word for the kind is written as it is compared: no blanks around it, no
capitals in it. -/
def Descriptor.IsPlain (d : Descriptor α) : Prop := ∃ w, d.kindWord? = some w ∧ plainWord w = w

namespace Node

/-- The animation is read as a zoom that asks for room. -/
def AsksRoom (n : Node α) : Prop :=
  ∃ a, n.conf.normalize = .ok a ∧ a.kind = .zoom ∧ a.padded = true

/-- The animation is read with these endpoints. -/
def HasEndpoints (n : Node α) (first last : α) : Prop :=
  ∃ a, n.conf.normalize = .ok a ∧ a.scalarEndpoints = .ok (first, last)

end Node

/-- The two words for a zoom, blanks and capitals apart. -/
theorem Kind.ofWord?_zoom_iff {w : String} {k : Kind} (h : Kind.ofWord? w = some k) :
    k = .zoom ↔ plainWord w = "zoom" ∨ plainWord w = "zoompan" := by
  unfold Kind.ofWord? at h
  split at h
  all_goals cases h
  all_goals simp_all

namespace Node

variable {n : Node α} {first last : α}

/-- **A zoom is reported** exactly if it is read as one that asks for room, and
written plainly. -/
theorem isPaddedZoom_iff (hread : ∃ a, n.conf.normalize = .ok a) :
    n.isPaddedZoom = true ↔ n.AsksRoom ∧ n.conf.IsPlain := by
  obtain ⟨a, ha⟩ := hread
  obtain ⟨w, hw, hkind⟩ := Descriptor.kindWord?_of_normalize ha
  have hpad : a.padded = n.conf.flag "pad" := (Descriptor.normalize_eq_ok.1 ha).padded
  have hwritten : n.isPaddedZoom = true ↔ (w = "zoom" ∨ w = "zoompan") ∧ a.padded = true := by
    unfold isPaddedZoom
    rw [hw, hpad]
    simp
  rw [hwritten]
  constructor
  · rintro ⟨hword, hpadded⟩
    have hplain : plainWord w = w := by rcases hword with rfl | rfl <;> decide +kernel
    have hzoom : a.kind = .zoom := (Kind.ofWord?_zoom_iff hkind).2 (by rwa [hplain])
    exact ⟨⟨a, ha, hzoom, hpadded⟩, w, hw, hplain⟩
  · rintro ⟨⟨a', ha', hzoom, hpadded⟩, w', hw', hplain⟩
    obtain rfl : a = a' := Except.ok.inj (ha.symm.trans ha')
    obtain rfl : w = w' := Option.some.inj (hw.symm.trans hw')
    have hword := (Kind.ofWord?_zoom_iff hkind).1 hzoom
    rw [hplain] at hword
    exact ⟨hword, hpadded⟩

theorem endpoints?_eq_some : n.endpoints? = some (first, last) ↔ n.HasEndpoints first last := by
  unfold endpoints? HasEndpoints
  cases n.conf.normalize with
  | error e => simp
  | ok a =>
    dsimp only
    cases hends : a.scalarEndpoints with
    | error e => simp [hends]
    | ok p => simp [hends]

end Node

/-! ## The last of several -/

namespace Timeline

variable {l : Timeline α} {n : Node α} {before after : List (Node α)} {first last : α}

theorem findSome?_endpoints_eq_none {ns : List (Node α)}
    (h : ∀ m ∈ ns, m.isPaddedZoom = true → m.endpoints? = none) :
    (ns.reverse.filter Node.isPaddedZoom).findSome? Node.endpoints? = none := by
  rw [List.findSome?_eq_none_iff]
  intro m hm
  obtain ⟨hmem, hpadded⟩ := List.mem_filter.1 hm
  exact h m (List.mem_reverse.1 hmem) hpadded

/-- The last zoom that asks for room and has endpoints decides. -/
theorem maxScale_of_last (hnodes : l.nodes = before ++ n :: after) (hn : n.isPaddedZoom = true)
    (hends : n.endpoints? = some (first, last))
    (hafter : ∀ m ∈ after, m.isPaddedZoom = true → m.endpoints? = none) :
    l.maxScale = Scalar.larger first last := by
  unfold maxScale
  simp only [hnodes, List.reverse_append, List.reverse_cons, List.filter_append,
    List.findSome?_append, findSome?_endpoints_eq_none hafter]
  simp [hn, hends]

theorem maxScale_of_none (h : ∀ m ∈ l.nodes, m.isPaddedZoom = true → m.endpoints? = none) :
    l.maxScale = 1.0 := by
  unfold maxScale
  rw [findSome?_endpoints_eq_none h]

end Timeline

/-! ## Larger endpoints of doubles -/

/-- The larger of two doubles that can be compared is one of them, and neither
is beyond it. -/
theorem Double.larger_spec {x y : Float} (hx : IsNumber x) (hy : IsNumber y) :
    x ≤ Scalar.larger x y ∧ y ≤ Scalar.larger x y ∧
      (Scalar.larger x y = x ∨ Scalar.larger x y = y) := by
  have hself : (x == x) = true := beq_iff.2 ⟨isNumber_iff.1 hx, isNumber_iff.1 hx, rfl⟩
  unfold Scalar.larger
  by_cases hlt : x < y
  · rw [if_pos hlt]
    exact ⟨le_of_lt hlt, hy, .inr rfl⟩
  · rw [if_neg hlt, if_pos hself]
    exact ⟨hx, le_of_not_lt hx hy hlt, .inl rfl⟩

namespace Endpoint

theorem isFinite_of_number {key : String} {x y : α} (h : read.number key y = .ok (.scalar x)) :
    Scalar.isFinite x = true := by
  unfold read.number at h
  split at h
  · rename_i hfinite
    cases h
    exact hfinite
  · cases h

theorem isFinite_of_read {key : String} {v : Json α} {x : α} (h : read key v = .ok (.scalar x)) :
    Scalar.isFinite x = true := by
  cases v with
  | int i => exact isFinite_of_number h
  | num y => exact isFinite_of_number h
  | obj fields =>
    obtain ⟨px, -, h⟩ := bind_eq_ok.1 h
    obtain ⟨py, -, h⟩ := bind_eq_ok.1 h
    -- An object is read as a position, or not at all.
    cases px <;> cases py <;> cases h
  | null | bool | str | arr => cases h

theorem isFinite_of_readField {fields : Table (Json α)} {key : String} {x : α}
    (h : readField fields key = .ok (some (.scalar x))) : Scalar.isFinite x = true := by
  unfold readField at h
  split at h
  · cases h
  · cases h
  · rename_i v _ _
    cases hread : read key v with
    | error e =>
      rw [hread] at h
      cases h
    | ok p =>
      rw [hread] at h
      cases h
      exact isFinite_of_read hread

end Endpoint

theorem Animation.isNumber_of_scalarOr {fields : Table (Json Float)} {key key' : String}
    {p : Option (Endpoint Float)} {default x : Float} (hp : Endpoint.readField fields key = .ok p)
    (hdefault : IsNumber default) (h : scalarOr p key' default = .ok x) : IsNumber x := by
  unfold scalarOr at h
  split at h
  · cases h
    exact hdefault
  · cases h
    exact Double.isNumber_iff.2 (Double.isNum_of_isFinite (Endpoint.isFinite_of_readField hp))
  · cases h

theorem Node.HasEndpoints.isNumber {n : Node Float} {first last : Float}
    (hroom : n.AsksRoom) (h : n.HasEndpoints first last) : IsNumber first ∧ IsNumber last := by
  obtain ⟨a, ha, hkind, -⟩ := hroom
  obtain ⟨a', ha', hends⟩ := h
  obtain rfl : a = a' := Except.ok.inj (ha.symm.trans ha')
  have hreads := Descriptor.normalize_eq_ok.1 ha
  have hone : IsNumber (1.0 : Float) := by unfold IsNumber; decide +kernel
  have htwo : IsNumber (2.0 : Float) := by unfold IsNumber; decide +kernel
  unfold Animation.scalarEndpoints at hends
  rw [hkind] at hends
  simp only [Kind.restValues?, Animation.scalarEndpointsWith, bind_eq_ok, pure_eq_ok,
    Prod.mk.injEq] at hends
  obtain ⟨x, hx, y, hy, rfl, rfl⟩ := hends
  cases hphase : a.phase with
  | entrance =>
    rw [hphase] at hx hy
    exact ⟨Animation.isNumber_of_scalarOr hreads.first htwo hx,
      Animation.isNumber_of_scalarOr hreads.last hone hy⟩
  | exit =>
    rw [hphase] at hx hy
    exact ⟨Animation.isNumber_of_scalarOr hreads.first hone hx,
      Animation.isNumber_of_scalarOr hreads.last htwo hy⟩

namespace Timeline

/-- **Which zooms a timeline reports.** Take a timeline whose animations can all
be read. It reports that some zoom asks for room exactly if some animation is
read as such a zoom and written plainly, without blanks around its word and
capitals in it. The scale it reports is the larger endpoint of the last of these
that has endpoints, and 1 if there is none. A zoom that is compiled but not
written plainly is left out of both. -/
theorem room_reported {l : Timeline Float}
    (hread : ∀ n ∈ l.nodes, ∃ a, n.conf.normalize = .ok a) :
    (l.hasPaddedZoom = true ↔ ∃ n ∈ l.nodes, n.AsksRoom ∧ n.conf.IsPlain) ∧
    (∀ before n after first last, l.nodes = before ++ n :: after → n.AsksRoom →
      n.conf.IsPlain → n.HasEndpoints first last →
      (∀ m ∈ after, m.AsksRoom → m.conf.IsPlain → ∀ x y, ¬ m.HasEndpoints x y) →
      first ≤ l.maxScale ∧ last ≤ l.maxScale ∧ (l.maxScale = first ∨ l.maxScale = last)) ∧
    ((∀ n ∈ l.nodes, n.AsksRoom → n.conf.IsPlain → ∀ x y, ¬ n.HasEndpoints x y) →
      l.maxScale = 1.0) := by
  have hreported : ∀ n ∈ l.nodes, n.isPaddedZoom = true ↔ n.AsksRoom ∧ n.conf.IsPlain :=
    fun n hn => Node.isPaddedZoom_iff (hread n hn)
  have hnone {ns : List (Node Float)} (hns : ns ⊆ l.nodes)
      (h : ∀ m ∈ ns, m.AsksRoom → m.conf.IsPlain → ∀ x y, ¬ m.HasEndpoints x y) :
      ∀ m ∈ ns, m.isPaddedZoom = true → m.endpoints? = none := by
    intro m hm hpadded
    obtain ⟨hroom, hplain⟩ := (hreported m (hns hm)).1 hpadded
    exact Option.eq_none_iff_forall_ne_some.2 fun p hp =>
      h m hm hroom hplain p.1 p.2 (Node.endpoints?_eq_some.1 hp)
  refine ⟨?_, fun before n after first last hnodes hroom hplain hends hafter => ?_, fun h => ?_⟩
  · unfold hasPaddedZoom
    rw [List.any_eq_true]
    exact exists_congr fun n => and_congr_right fun hn => hreported n hn
  · have hsub : after ⊆ l.nodes := by
      rw [hnodes]
      simp
    have hn : n ∈ l.nodes := by simp [hnodes]
    obtain ⟨hfirst, hlast⟩ := hends.isNumber hroom
    rw [maxScale_of_last hnodes ((hreported n hn).2 ⟨hroom, hplain⟩)
      (Node.endpoints?_eq_some.2 hends) (hnone hsub hafter)]
    exact Double.larger_spec hfirst hlast
  · exact maxScale_of_none (hnone (fun _ hm => hm) h)

/-! ### Zooms with and without a capital -/

/-- A zoom that asks for room and comes to rest within a second. -/
def zoomFrom (word : String) (first : Float) : Descriptor Float :=
  ((Descriptor.make word .entrance 1.0 0.0).set "from" (.num first)).set "pad" (.bool true)

theorem normalize_zoomFrom {word : String} (hk : Kind.ofWord? word = some .zoom) {first : Float}
    (hfirst : Scalar.isFinite first = true) :
    (zoomFrom word first).normalize = .ok ⟨.zoom, .entrance, centiseconds 1.0, 0.0, .linear, false,
      none, true, some (.scalar first), none⟩ := by
  have hget : ∀ key, (zoomFrom word first).fields.get? key =
      if key = "pad" then some (.bool true) else if key = "from" then some (.num first)
      else if key = "delay" then some (.ofNumber 0.0)
      else if key = "time" then some (.ofNumber 1.0)
      else if key = "showType" then some (.str Phase.entrance.word)
      else if key = "type" then some (.str word) else none := by
    intro key
    simp only [zoomFrom, Descriptor.make, Descriptor.set, Table.get?_insert, Table.get?_empty]
  have hpad : (zoomFrom word first).flag "pad" = true := by
    simp only [Descriptor.flag, Descriptor.get?, hget]
    rfl
  have hread : Endpoint.readField (zoomFrom word first).fields "from" =
      .ok (some (.scalar first)) := by
    unfold Endpoint.readField
    rw [hget]
    simp [Endpoint.read, Endpoint.read.number, hfirst, Except.map]
  have hzero : Scalar.isFinite (0.0 : Float) = true := by decide +kernel
  have hone : Scalar.isFinite (1.0 : Float) = true := by decide +kernel
  rw [Descriptor.normalize_of_fields (hget "type") hk (hget "showType")
    (finiteField_ofNumber hone (hget "time")) (by decide +kernel)
    (finiteField_ofNumber hzero (hget "delay")) (Descriptor.readEase_of_absent (hget _)) hread
    (Endpoint.readField_of_absent (hget _)) (finiteField_of_absent (hget _)), hpad,
    Descriptor.flag_of_absent (hget _)]

/-- A picture with zooms in order, which all ask for room. -/
def zoomed (zooms : List (String × Float)) : Timeline Float :=
  (empty ⟨"picture", .image, 0.0, 0.0, 320, 180, 1280, 720⟩).addAll
    (zooms.map fun (word, first) => zoomFrom word first)

theorem nodes_zoomed (zooms : List (String × Float)) :
    (zoomed zooms).nodes = zooms.map fun z => ⟨zoomFrom z.1 z.2, some "picture"⟩ := by
  unfold zoomed
  rw [addAll_eq]
  simp only [empty, List.nil_append, List.map_map]
  refine List.map_congr_left fun z _ => adopt_plain ?_
  rintro ⟨htext, -⟩
  cases htext

theorem kindWord?_zoomFrom (word : String) (first : Float) :
    (zoomFrom word first).kindWord? = some word := by
  simp [zoomFrom, Descriptor.make, Descriptor.kindWord?, Descriptor.get?_set, Json.str?]

/-- Two zooms that ask for room, the later one with a capital in its word. -/
def twoZooms : Timeline Float := zoomed [("zoom", 1.5), ("Zoom", 3.0)]

/-- The earlier one is reported, with its own scale. -/
theorem room_reported_capital :
    (∀ n ∈ twoZooms.nodes, ∃ a, n.conf.normalize = .ok a) ∧
      twoZooms.hasPaddedZoom = true ∧ twoZooms.maxScale = 1.5 := by
  have hnodes := nodes_zoomed [("zoom", 1.5), ("Zoom", 3.0)]
  change twoZooms.nodes = _ at hnodes
  have hsmall : (zoomFrom "zoom" 1.5).normalize = .ok _ :=
    normalize_zoomFrom (by decide +kernel) (by decide +kernel)
  have hlarge : (zoomFrom "Zoom" 3.0).normalize = .ok _ :=
    normalize_zoomFrom (by decide +kernel) (by decide +kernel)
  have hread : ∀ n ∈ twoZooms.nodes, ∃ a, n.conf.normalize = .ok a := by
    rw [hnodes]
    simp only [List.map_cons, List.map_nil, List.forall_mem_cons]
    exact ⟨⟨_, hsmall⟩, ⟨_, hlarge⟩, by simp⟩
  obtain ⟨hroom, hlast, -⟩ := room_reported hread
  have hasks : Node.AsksRoom ⟨zoomFrom "zoom" 1.5, some "picture"⟩ := ⟨_, hsmall, rfl, rfl⟩
  have hplain : (zoomFrom "zoom" 1.5).IsPlain :=
    ⟨"zoom", kindWord?_zoomFrom _ _, by decide +kernel⟩
  have hcapital : ¬ (zoomFrom "Zoom" 3.0).IsPlain := by
    rintro ⟨w, hw, hsame⟩
    rw [kindWord?_zoomFrom] at hw
    cases hw
    revert hsame
    decide +kernel
  obtain ⟨hfirst, -, hscale⟩ := hlast [] ⟨zoomFrom "zoom" 1.5, some "picture"⟩
    [⟨zoomFrom "Zoom" 3.0, some "picture"⟩] 1.5 1.0 hnodes hasks hplain ⟨_, hsmall, rfl⟩
    (fun m hm _ hm' => absurd hm' (List.mem_singleton.1 hm ▸ hcapital))
  refine ⟨hread, hroom.2 ⟨_, by simp [hnodes], hasks, hplain⟩, ?_⟩
  rcases hscale with hscale | hscale
  · exact hscale
  · rw [hscale] at hfirst
    exact absurd hfirst (by decide +kernel)

/-- A zoom with a capital in its word asks for room and starts from one and a
half times the size, but none of this is reported. -/
theorem capital_zoom_unreported :
    ∃ n a, (zoomed [("Zoom", 1.5)]).nodes = [n] ∧ n.conf.normalize = .ok a ∧ a.kind = .zoom ∧
      a.padded = true ∧ a.scalarEndpoints = .ok (1.5, 1.0) ∧
      (zoomed [("Zoom", 1.5)]).hasPaddedZoom = false ∧ (zoomed [("Zoom", 1.5)]).maxScale = 1.0 := by
  have hread : (zoomFrom "Zoom" 1.5).normalize = .ok _ :=
    normalize_zoomFrom (by decide +kernel) (by decide +kernel)
  have hunreported : (zoomed [("Zoom", 1.5)]).hasPaddedZoom = false := by decide +kernel
  refine ⟨_, _, nodes_zoomed _, hread, rfl, rfl, rfl, hunreported, maxScale_of_none ?_⟩
  intro m hm hpadded
  exact absurd hpadded (by simpa using List.any_eq_false.1 hunreported m hm)

end Timeline

end Tween
