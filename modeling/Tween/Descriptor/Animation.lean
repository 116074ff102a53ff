/-
Checked animations. `Descriptor.normalize` reads every field strictly and in a
fixed order, so that of several faults the first is reported. The value of an
animation runs between two endpoints; one that is not given is the value out of
view or at rest, by the phase.
-/
import Tween.Descriptor.Basic
import Tween.Ease
import Tween.Error
import Tween.Point

namespace Tween

/-- An endpoint as given: one number, or a position. -/
inductive Endpoint (α : Type) where
  | scalar (value : α)
  | point (value : Point α)
deriving Repr

/-- A checked animation. -/
structure Animation (α : Type) where
  kind : Kind
  phase : Phase
  /-- Length of the window, in seconds. -/
  time : α
  /-- Start of the window, in seconds. -/
  delay : α
  ease : Ease
  /-- The value grows at a rate instead of easing to an endpoint. -/
  continuous : Bool
  /-- Growth per second, for a continuous animation. -/
  rate : Option α
  /-- The element is given room for this animation. -/
  padded : Bool
  first : Option (Endpoint α)
  last : Option (Endpoint α)
deriving Repr

variable {α : Type} [Scalar α]

/-- Rejects with a fault. -/
def fault {β : Type} (f : Fault α) : Except (Error α) β := .error (.invalid f)

/-- A finite numeric field; absent and null are the same. -/
def finiteField (fields : Table (Json α)) (key : String) : Except (Error α) (Option α) :=
  match fields.get? key with
  | none | some .null => .ok none
  | some v =>
    match v.number? with
    | some x => if Scalar.isFinite x then .ok (some x) else fault (.fieldNotFinite key)
    | none => fault (.fieldNotFinite key)

namespace Endpoint

/-- The endpoint a value stands for. -/
def read (key : String) : Json α → Except (Error α) (Endpoint α)
  | .int i => number (Scalar.ofInt i)
  | .num x => number x
  | .obj fields => do
    let table := Table.ofList fields
    let x ← finiteField table "x"
    let y ← finiteField table "y"
    match x, y with
    | some x, some y => pure (.point ⟨x, y⟩)
    | _, _ => fault (.incompletePoint key)
  | .str s => fault (.unresolvedSymbol key s)
  | _ => fault (.notAnEndpoint key)
where
  number (x : α) : Except (Error α) (Endpoint α) :=
    if Scalar.isFinite x then .ok (.scalar x) else fault (.endpointNotFinite key)

/-- The endpoint in a field; absent and null are the same. -/
def readField (fields : Table (Json α)) (key : String) :
    Except (Error α) (Option (Endpoint α)) :=
  match fields.get? key with
  | none | some .null => .ok none
  | some v => (read key v).map some

end Endpoint

/-- The phase a word stands for, or the fault in it. -/
def Phase.read (s : String) : Except (Error α) Phase :=
  match Phase.ofWord? s with
  | some p => .ok p
  | none => fault (.unknownPhase (plainWord s))

/-- The kind a word stands for, or the fault in it. -/
def Kind.read (s : String) : Except (Error α) Kind :=
  match Kind.ofWord? s with
  | some k => .ok k
  | none => fault (.unknownKind (plainWord s))

/-- The curve a name stands for, or the fault in it. -/
def Ease.read (s : String) : Except (Error α) Ease :=
  match Ease.parse? s with
  | some e => .ok e
  | none => .error (.unsupportedEase s)

/-- A length cut to hundredths of a second. A length a millionth of a hundredth
short of the next one counts as that one, so that rounding in the product does
no harm. -/
def centiseconds (time : α) : α := Scalar.floor (time * 100.0 + 1e-6) / 100.0

namespace Descriptor

/-- The kind a descriptor asks for. -/
def readKind (d : Descriptor α) : Except (Error α) Kind :=
  match d.kindWord? with
  | some s => Kind.read s
  | none => fault .missingKind

/-- The phase a descriptor asks for: an entrance, if it does not say. -/
def readPhase (d : Descriptor α) : Except (Error α) Phase :=
  match d.get? "showType" with
  | none | some .null => .ok .entrance
  | some (.str s) => Phase.read s
  | some _ => fault .phaseNotText

/-- The length of the window, which has to be positive once it is cut to
hundredths. -/
def readTime (d : Descriptor α) : Except (Error α) α := do
  match ← finiteField d.fields "time" with
  | none => fault .missingTime
  | some time =>
    let time := centiseconds time
    if time ≤ 0.0 then fault (.timeNotPositive time) else pure time

/-- The curve a descriptor asks for: none but a straight one, if it does not
say. -/
def readEase (d : Descriptor α) : Except (Error α) Ease :=
  match d.get? "ease" with
  | none | some .null => .ok .linear
  | some (.str s) => Ease.read s
  | some _ => fault .easeNotText

/-- The checked form of a descriptor. -/
def normalize (d : Descriptor α) : Except (Error α) (Animation α) := do
  let kind ← d.readKind
  let phase ← d.readPhase
  let time ← d.readTime
  let delay ← finiteField d.fields "delay"
  let ease ← d.readEase
  let first ← Endpoint.readField d.fields "from"
  let last ← Endpoint.readField d.fields "to"
  let rate ← finiteField d.fields "add"
  pure
    { kind, phase, time, ease, first, last, rate
      delay := delay.getD 0.0
      continuous := d.flag "ing"
      padded := d.flag "pad" }

end Descriptor

namespace Animation

/-- The end of the window. -/
def finish (a : Animation α) : α := a.delay + a.time

/-- A number given for an endpoint, or a default. -/
def scalarOr (e : Option (Endpoint α)) (key : String) (default : α) : Except (Error α) α :=
  match e with
  | none => .ok default
  | some (.scalar x) => .ok x
  | some (.point _) => fault (.endpointNotNumber key)

/-- A position given for an endpoint, or a default. -/
def pointOr (e : Option (Endpoint α)) (key : String) (default : Point α) :
    Except (Error α) (Point α) :=
  match e with
  | none => .ok default
  | some (.point p) => .ok p
  | some (.scalar _) => fault (.endpointNotPoint key)

/-- The first and last value, given the values out of view and at rest: an
entrance ends at rest and an exit starts there. Values in the descriptor come
before these. -/
def scalarEndpointsWith (a : Animation α) (away rest : α) : Except (Error α) (α × α) := do
  let (first, last) := match a.phase with
    | .entrance => (away, rest)
    | .exit => (rest, away)
  let x ← scalarOr a.first "from" first
  let y ← scalarOr a.last "to" last
  pure (x, y)

/-- The first and last value of an animation of one number. -/
def scalarEndpoints (a : Animation α) : Except (Error α) (α × α) :=
  match (a.kind.restValues? : Option (α × α)) with
  | some (away, rest) => a.scalarEndpointsWith away rest
  | none => fault (.noScalarValue a.kind)

/-- The first and last position of a movement; the one not given is where the
element rests. -/
def pointEndpoints (a : Animation α) (rest : Point α) :
    Except (Error α) (Point α × Point α) := do
  let p ← pointOr a.first "from" rest
  let q ← pointOr a.last "to" rest
  if a.first.isNone && a.last.isNone then fault .missingEndpoints else pure (p, q)

/-- The growth per second, which a continuous animation has to give. -/
def requireRate (a : Animation α) : Except (Error α) α :=
  match a.rate with
  | some r => .ok r
  | none => fault .missingRate

end Animation

end Tween
