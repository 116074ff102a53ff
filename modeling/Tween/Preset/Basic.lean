/-
Presets: named sets of partial descriptors, and requests for them. A request
names a preset and may override any field of the descriptors it expands to.
-/
import Tween.Descriptor.Basic

namespace Tween

/-- What a preset expands to. One descriptor and a list of one are told apart,
as they are in data. -/
inductive Preset (α : Type) where
  | many (sets : List (Table (Json α)))
  | single (set : Table (Json α))

namespace Preset

variable {α : Type}

/-- The descriptors of a preset, in order. -/
def sets : Preset α → List (Table (Json α))
  | many sets => sets
  | single set => [set]

/-- A preset as data. -/
def toJson : Preset α → Json α
  | many sets => .arr (sets.map Json.ofTable)
  | single set => .ofTable set

/-- The preset that data stands for: an object, or an array of objects. -/
def ofJson? : Json α → Option (Preset α)
  | .arr items => (items.mapM Json.fields?).map many
  | v => v.fields?.map single

end Preset

/-- Presets by name. -/
@[ext] structure Catalog (α : Type) where
  presets : Table (Preset α)

namespace Catalog

variable {α : Type}

def empty : Catalog α := ⟨.empty⟩

/-- The catalog with one more preset. -/
def insert (c : Catalog α) (name : String) (p : Preset α) : Catalog α :=
  ⟨c.presets.insert name p⟩

def get? (c : Catalog α) (name : String) : Option (Preset α) := c.presets.get? name

/-- The names, in order. -/
def names (c : Catalog α) : List String := c.presets.keys

def size (c : Catalog α) : Nat := c.presets.size

def isEmpty (c : Catalog α) : Bool := c.presets.isEmpty

/-- A catalog as data. -/
def toJson (c : Catalog α) : Json α := .ofTable (c.presets.map fun _ p => p.toJson)

/-- The catalog of a list of fields. Every one must be a preset, and of several
under one name the last counts. -/
def ofFields? (fields : List (String × Json α)) : Option (Catalog α) := do
  let presets ← fields.mapM fun (name, v) => (Preset.ofJson? v).map fun p => (name, p)
  pure ⟨Table.ofList presets⟩

/-- The catalog that data stands for: an object of presets. -/
def ofJson? : Json α → Option (Catalog α)
  | .obj fields => ofFields? fields
  | _ => none

end Catalog

/-- A request for a preset. -/
inductive Request (α : Type) where
  /-- By name, with a window of its own for the descriptors. -/
  | named (name : String) (time delay : Option α)
  /-- By the kind field of an object, whose other fields override those of the
  descriptors. -/
  | conf (fields : Table (Json α))

namespace Request

variable {α : Type}

/-- The name of the preset, if the request has one. -/
def name? : Request α → Option String
  | named name _ _ => some name
  | conf fields => (fields.get? "type").bind Json.str?

/-- The fields that override those of the descriptors. Null overrides
nothing. -/
def overrides [Scalar α] : Request α → Table (Json α)
  | named _ time delay =>
    Table.ofList
      ((time.map fun t => ("time", Json.ofNumber t)).toList ++
        (delay.map fun d => ("delay", Json.ofNumber d)).toList)
  | conf fields => fields.filter fun key v => key != "type" && !v.isNull

end Request

/-- The descriptors a request expands to: none for a preset the catalog does
not hold. -/
def Catalog.expand {α : Type} [Scalar α] (c : Catalog α) (r : Request α) :
    List (Descriptor α) :=
  match r.name?.bind c.get? with
  | none => []
  | some p => p.sets.map fun set => ⟨set.union r.overrides⟩

end Tween
