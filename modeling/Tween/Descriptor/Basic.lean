/-
Animation descriptors as they are authored: JSON objects whose fields are read
leniently here, with a default for what is absent or of the wrong kind.
`Tween.Animation` is the checked form.
-/
import Tween.Json.Basic
import Tween.Kind

namespace Tween

/-- A descriptor as authored. -/
@[ext] structure Descriptor (α : Type) where
  fields : Table (Json α)

namespace Descriptor

variable {α : Type}

/-- The value of a field. -/
def get? (d : Descriptor α) (key : String) : Option (Json α) := d.fields.get? key

/-- The descriptor with a field replaced. -/
def set (d : Descriptor α) (key : String) (value : Json α) : Descriptor α :=
  ⟨d.fields.insert key value⟩

/-- The descriptor a value stands for, if it is an object. -/
def ofJson? (v : Json α) : Option (Descriptor α) := v.fields?.map .mk

/-- The word for the kind of animation. -/
def kindWord? (d : Descriptor α) : Option String := (d.get? "type").bind Json.str?

/-- The phase; an entrance where the field is absent or not understood. -/
def phase (d : Descriptor α) : Phase :=
  (((d.get? "showType").bind Json.str?).bind Phase.ofWord?).getD .entrance

variable [Scalar α]

/-- A numeric field. -/
def number? (d : Descriptor α) (key : String) : Option α :=
  (d.get? key).bind Json.number?

/-- The start of the window, zero where it is not a number. -/
def delay (d : Descriptor α) : α := (d.number? "delay").getD 0.0

/-- The length of the window, zero where it is not a number. -/
def time (d : Descriptor α) : α := (d.number? "time").getD 0.0

/-- Whether a flag is set. -/
def flag (d : Descriptor α) (key : String) : Bool := ((d.get? key).map Json.isTruthy).getD false

/-- A descriptor with the fields every animation has. -/
def make (kind : String) (phase : Phase) (time delay : α) : Descriptor α :=
  ((((⟨.empty⟩ : Descriptor α).set "type" (.str kind)).set "showType" (.str phase.word)).set
    "time" (.ofNumber time)).set "delay" (.ofNumber delay)

end Descriptor

end Tween
