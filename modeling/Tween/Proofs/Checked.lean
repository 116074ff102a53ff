/-
What the checked form of a descriptor says of its fields. A descriptor is
checked field by field (`normalize_eq_ok`), so a field that is replaced shows in
its own part of the checked form alone (`normalize_set_delay`). A phase and a
start that can be checked are the ones that are read leniently
(`phase_of_normalize`, `delay_of_normalize`), and so is a length before it is
cut (`time_of_normalize`).
-/
import Tween.Proofs.Fallible
import Tween.Descriptor.Animation

namespace Tween

variable {α : Type} [Scalar α]

namespace Descriptor

/-- What the fields of a descriptor are read as, one by one. -/
structure Reads (d : Descriptor α) (a : Animation α) : Prop where
  kind : d.readKind = .ok a.kind
  phase : d.readPhase = .ok a.phase
  time : d.readTime = .ok a.time
  delay : ∃ x, finiteField d.fields "delay" = .ok x ∧ a.delay = x.getD 0.0
  ease : d.readEase = .ok a.ease
  first : Endpoint.readField d.fields "from" = .ok a.first
  last : Endpoint.readField d.fields "to" = .ok a.last
  rate : finiteField d.fields "add" = .ok a.rate
  continuous : a.continuous = d.flag "ing"
  padded : a.padded = d.flag "pad"

/-- A descriptor is checked field by field. -/
theorem normalize_eq_ok {d : Descriptor α} {a : Animation α} :
    d.normalize = .ok a ↔ d.Reads a := by
  unfold normalize
  simp only [bind_eq_ok, pure_eq_ok]
  constructor
  · rintro ⟨kind, hkind, phase, hphase, time, htime, delay, hdelay, ease, hease, first, hfirst,
      last, hlast, rate, hrate, rfl⟩
    exact ⟨hkind, hphase, htime, ⟨delay, hdelay, rfl⟩, hease, hfirst, hlast, hrate, rfl, rfl⟩
  · intro h
    obtain ⟨delay, hdelay, heq⟩ := h.delay
    refine ⟨_, h.kind, _, h.phase, _, h.time, delay, hdelay, _, h.ease, _, h.first, _, h.last, _,
      h.rate, ?_⟩
    rw [← heq, ← h.continuous, ← h.padded]

omit [Scalar α] in
theorem get?_set (d : Descriptor α) (key k : String) (v : Json α) :
    (d.set key v).get? k = if k = key then some v else d.get? k :=
  Table.get?_insert _ _ _ _

end Descriptor

/-! ## Fields by themselves -/

theorem finiteField_congr {fields fields' : Table (Json α)} {key : String}
    (h : fields'.get? key = fields.get? key) :
    finiteField fields' key = finiteField fields key := by
  unfold finiteField
  rw [h]

theorem finiteField_of_absent {fields : Table (Json α)} {key : String}
    (h : fields.get? key = none) : finiteField fields key = .ok none := by
  unfold finiteField
  rw [h]

theorem finiteField_of_number {fields : Table (Json α)} {key : String} {v : Json α} {x : α}
    (h : fields.get? key = some v) (hv : v.number? = some x) (hx : Scalar.isFinite x = true) :
    finiteField fields key = .ok (some x) := by
  unfold finiteField
  rw [h]
  cases v <;> simp_all [Json.number?]

theorem finiteField_ofNumber {fields : Table (Json α)} {key : String} {x : α}
    (hx : Scalar.isFinite x = true) (h : fields.get? key = some (.ofNumber x)) :
    finiteField fields key = .ok (some x) :=
  finiteField_of_number h (by simp [Json.ofNumber, hx, Json.number?]) hx

theorem number?_of_finiteField {fields : Table (Json α)} {key : String} {x : Option α}
    (h : finiteField fields key = .ok x) : (fields.get? key).bind Json.number? = x := by
  unfold finiteField at h
  split at h
  · rename_i hnone
    cases h
    rw [hnone]
    rfl
  · rename_i hnull
    cases h
    rw [hnull]
    rfl
  · rename_i v _ hv
    split at h
    · rename_i y hy
      split at h
      · cases h
        rw [hv]
        exact hy
      · cases h
    · cases h

theorem isFinite_of_finiteField {fields : Table (Json α)} {key : String} {x : α}
    (h : finiteField fields key = .ok (some x)) : Scalar.isFinite x = true := by
  unfold finiteField at h
  split at h
  · cases h
  · cases h
  · split at h
    · split at h
      · rename_i hx
        cases h
        exact hx
      · cases h
    · cases h

theorem Endpoint.readField_congr {fields fields' : Table (Json α)} {key : String}
    (h : fields'.get? key = fields.get? key) : readField fields' key = readField fields key := by
  unfold readField
  rw [h]

theorem Endpoint.readField_of_absent {fields : Table (Json α)} {key : String}
    (h : fields.get? key = none) : readField fields key = .ok none := by
  unfold readField
  rw [h]

namespace Descriptor

variable {d : Descriptor α} {a : Animation α}

theorem flag_of_absent {key : String} (h : d.fields.get? key = none) : d.flag key = false := by
  unfold flag get?
  rw [h]
  rfl

omit [Scalar α] in
theorem readEase_of_absent (h : d.fields.get? "ease" = none) : d.readEase = .ok .linear := by
  unfold readEase get?
  rw [h]

theorem kindWord?_of_normalize (h : d.normalize = .ok a) :
    ∃ w, d.kindWord? = some w ∧ Kind.ofWord? w = some a.kind := by
  have hkind := (normalize_eq_ok.1 h).kind
  unfold readKind at hkind
  split at hkind
  · rename_i w hw
    unfold Kind.read at hkind
    split at hkind
    · rename_i k hk
      cases hkind
      exact ⟨w, hw, hk⟩
    · cases hkind
  · cases hkind

theorem delay_of_normalize (h : d.normalize = .ok a) : d.delay = a.delay := by
  obtain ⟨x, hx, heq⟩ := (normalize_eq_ok.1 h).delay
  have hnumber : d.number? "delay" = x := number?_of_finiteField hx
  rw [heq, delay, hnumber]

theorem phase_of_normalize (h : d.normalize = .ok a) : d.phase = a.phase := by
  have hphase := (normalize_eq_ok.1 h).phase
  unfold readPhase at hphase
  unfold phase
  split at hphase
  · rename_i hnone
    rw [hnone]
    exact Except.ok.inj hphase
  · rename_i hnull
    rw [hnull]
    exact Except.ok.inj hphase
  · rename_i word hword
    rw [hword]
    unfold Phase.read at hphase
    split at hphase
    · rename_i p hp
      cases hphase
      simp [Json.str?, hp]
    · cases hphase
  · cases hphase

/-- A length is checked if it is finite and something is left of it once it is
cut to hundredths. -/
theorem readTime_eq_ok {time : α} : d.readTime = .ok time ↔
    ∃ x, finiteField d.fields "time" = .ok (some x) ∧ time = centiseconds x ∧ ¬ time ≤ 0.0 := by
  unfold readTime
  rw [bind_eq_ok]
  constructor
  · rintro ⟨field, hfield, h⟩
    cases field with
    | none => cases h
    | some x =>
      dsimp only at h
      split at h
      · cases h
      · rename_i hpos
        obtain rfl := pure_eq_ok.1 h
        exact ⟨x, hfield, rfl, hpos⟩
  · rintro ⟨x, hx, rfl, hpos⟩
    exact ⟨some x, hx, if_neg hpos⟩

/-- The length that is checked is the one that is read leniently, cut to
hundredths. -/
theorem time_of_normalize (h : d.normalize = .ok a) : a.time = centiseconds d.time := by
  obtain ⟨x, hx, htime, -⟩ := readTime_eq_ok.1 (normalize_eq_ok.1 h).time
  have hnumber : d.number? "time" = some x := number?_of_finiteField hx
  rw [htime, time, hnumber]
  rfl

/-- A descriptor with another start is checked with that start, and otherwise
as before. -/
theorem normalize_set_delay (h : d.normalize = .ok a) {x : α} (hx : Scalar.isFinite x = true) :
    (d.set "delay" (.ofNumber x)).normalize = .ok { a with delay := x } := by
  rw [normalize_eq_ok] at h ⊢
  have hget : ∀ key, key ≠ "delay" →
      (d.set "delay" (.ofNumber x)).fields.get? key = d.fields.get? key := by
    intro key hne
    exact (get?_set _ _ _ _).trans (if_neg hne)
  have hkind : (d.set "delay" (.ofNumber x)).kindWord? = d.kindWord? := by
    unfold kindWord? get?
    rw [hget _ (by decide)]
  refine ⟨?_, ?_, ?_, ⟨some x, ?_, rfl⟩, ?_, ?_, ?_, ?_, ?_, ?_⟩
  · unfold readKind
    rw [hkind]
    exact h.kind
  · unfold readPhase get?
    rw [hget _ (by decide)]
    exact h.phase
  · unfold readTime
    rw [finiteField_congr (hget _ (by decide))]
    exact h.time
  · exact finiteField_ofNumber hx (Table.get?_insert_self _ _ _)
  · unfold readEase get?
    rw [hget _ (by decide)]
    exact h.ease
  · exact (Endpoint.readField_congr (hget _ (by decide))).trans h.first
  · exact (Endpoint.readField_congr (hget _ (by decide))).trans h.last
  · exact (finiteField_congr (hget _ (by decide))).trans h.rate
  · unfold flag get?
    rw [hget _ (by decide)]
    exact h.continuous
  · unfold flag get?
    rw [hget _ (by decide)]
    exact h.padded

/-- A descriptor is checked if its kind and phase are written plainly, its
window is not cut away, and its other fields can be read. -/
theorem normalize_of_fields {word : String} {k : Kind} {p : Phase} {time delay : α} {ease : Ease}
    {first last : Option (Endpoint α)} {rate : Option α}
    (hword : d.get? "type" = some (.str word)) (hk : Kind.ofWord? word = some k)
    (hphase : d.get? "showType" = some (.str p.word))
    (htime : finiteField d.fields "time" = .ok (some time)) (hpos : ¬ centiseconds time ≤ 0.0)
    (hdelay : finiteField d.fields "delay" = .ok (some delay)) (hease : d.readEase = .ok ease)
    (hfirst : Endpoint.readField d.fields "from" = .ok first)
    (hlast : Endpoint.readField d.fields "to" = .ok last)
    (hrate : finiteField d.fields "add" = .ok rate) :
    d.normalize = .ok ⟨k, p, centiseconds time, delay, ease, d.flag "ing", rate, d.flag "pad",
      first, last⟩ := by
  rw [normalize_eq_ok]
  refine ⟨?_, ?_, ?_, ⟨some delay, hdelay, rfl⟩, hease, hfirst, hlast, hrate, rfl, rfl⟩
  · simp [readKind, kindWord?, hword, Json.str?, Kind.read, hk]
  · simp [readPhase, hphase, Phase.read, Phase.ofWord?_word]
  · simp [readTime, htime, hpos, pure, Except.pure]

section

variable {word : String} {k : Kind} {time delay : α}

/-- A descriptor that is made of the common fields is checked, if its numbers
are finite and its window is not cut away. -/
theorem normalize_make (hk : Kind.ofWord? word = some k) (p : Phase)
    (htime : Scalar.isFinite time = true) (hdelay : Scalar.isFinite delay = true)
    (hpos : ¬ centiseconds time ≤ 0.0) :
    (make word p time delay).normalize =
      .ok ⟨k, p, centiseconds time, delay, .linear, false, none, false, none, none⟩ := by
  have hget : ∀ key, (make word p time delay).fields.get? key =
      if key = "delay" then some (.ofNumber delay) else if key = "time" then some (.ofNumber time)
      else if key = "showType" then some (.str p.word)
      else if key = "type" then some (.str word) else none := by
    intro key
    simp only [make, set, Table.get?_insert, Table.get?_empty]
  rw [normalize_of_fields (hget "type") hk (hget "showType")
    (finiteField_ofNumber htime (hget "time")) hpos (finiteField_ofNumber hdelay (hget "delay"))
    (readEase_of_absent (hget _)) (Endpoint.readField_of_absent (hget _))
    (Endpoint.readField_of_absent (hget _)) (finiteField_of_absent (hget _)),
    flag_of_absent (hget _), flag_of_absent (hget _)]

/-- A descriptor that is made of the common fields and of a rate of growth. -/
def makeGrowing (word : String) (p : Phase) (time delay rate : α) : Descriptor α :=
  ((make word p time delay).set "ing" (.bool true)).set "add" (.ofNumber rate)

/-- It is checked under the same conditions, if the rate is finite too. -/
theorem normalize_makeGrowing (hk : Kind.ofWord? word = some k) (p : Phase) {rate : α}
    (htime : Scalar.isFinite time = true) (hdelay : Scalar.isFinite delay = true)
    (hrate : Scalar.isFinite rate = true) (hpos : ¬ centiseconds time ≤ 0.0) :
    (makeGrowing word p time delay rate).normalize =
      .ok ⟨k, p, centiseconds time, delay, .linear, true, some rate, false, none, none⟩ := by
  have hget : ∀ key, (makeGrowing word p time delay rate).fields.get? key =
      if key = "add" then some (.ofNumber rate) else if key = "ing" then some (.bool true)
      else if key = "delay" then some (.ofNumber delay)
      else if key = "time" then some (.ofNumber time)
      else if key = "showType" then some (.str p.word)
      else if key = "type" then some (.str word) else none := by
    intro key
    simp only [makeGrowing, make, set, Table.get?_insert, Table.get?_empty]
  have hgrows : (makeGrowing word p time delay rate).flag "ing" = true := by
    simp only [flag, get?, hget]
    rfl
  rw [normalize_of_fields (hget "type") hk (hget "showType")
    (finiteField_ofNumber htime (hget "time")) hpos (finiteField_ofNumber hdelay (hget "delay"))
    (readEase_of_absent (hget _)) (Endpoint.readField_of_absent (hget _))
    (Endpoint.readField_of_absent (hget _)) (finiteField_ofNumber hrate (hget "add")), hgrows,
    flag_of_absent (hget _)]

end

end Descriptor

end Tween
