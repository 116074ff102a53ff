/-
The animations of one element, in the order in which they were added, and the
questions a scene asks of them. Where several animations could answer a
question, the last one does.
-/
import Tween.Filter.Build
import Tween.Preset.Basic
import Tween.Symbol

namespace Tween

/-- One animation of an element. -/
@[ext] structure Node (α : Type) where
  conf : Descriptor α
  /-- The id of the element, once the animation has joined a timeline. -/
  parent : Option String

namespace Node

variable {α : Type}

/-- A descriptor that has not joined a timeline. -/
def ofDescriptor (d : Descriptor α) : Node α := ⟨d, none⟩

/-- The node with a field of its descriptor replaced. -/
def set (n : Node α) (key : String) (v : Json α) : Node α := { n with conf := n.conf.set key v }

variable [Scalar α]

/-- First and last value, if the descriptor is a sound animation of one
number. -/
def endpoints? (n : Node α) : Option (α × α) :=
  match n.conf.normalize with
  | .ok a =>
    match a.scalarEndpoints with
    | .ok p => some p
    | .error _ => none
  | .error _ => none

/-- The filter of an animation. -/
def toFilter (n : Node α) (e : Element α) : Except (Error α) (Filter α) := do
  let a ← n.conf.normalize
  a.toFilter e

/-- Whether the animation is a zoom that asks for room. -/
def isPaddedZoom (n : Node α) : Bool :=
  (n.conf.kindWord? == some "zoom" || n.conf.kindWord? == some "zoompan") && n.conf.flag "pad"

end Node

/-- The animations of an element. -/
@[ext] structure Timeline (α : Type) where
  element : Element α
  nodes : List (Node α)

namespace Timeline

variable {α : Type}

/-- An element without animations. -/
def empty (e : Element α) : Timeline α := ⟨e, []⟩

/-- A node as it joins a timeline. The renderer's own fade does nothing for a
text, so there it becomes a change of opacity. -/
def adopt (e : Element α) (n : Node α) : Node α :=
  let isFade := n.conf.kindWord? == some "fade" || n.conf.kindWord? == some "show"
  let n := if e.isText && isFade then n.set "type" (.str "alpha") else n
  { n with parent := some e.id }

/-- The timeline with one more animation. -/
def add (l : Timeline α) (n : Node α) : Timeline α :=
  { l with nodes := l.nodes ++ [adopt l.element n] }

/-- The timeline with more animations, in order. -/
def addAll (l : Timeline α) (ds : List (Descriptor α)) : Timeline α :=
  ds.foldl (fun l d => l.add (.ofDescriptor d)) l

/-- Whether some animation has exactly this word for its kind. -/
def has (l : Timeline α) (kind : String) : Bool :=
  l.nodes.any fun n => n.conf.kindWord? == some kind

/-- The last node of a phase. -/
def last? (l : Timeline α) (p : Phase) : Option (Node α) :=
  l.nodes.reverse.find? fun n => n.conf.phase == p

variable [Scalar α]

/-- The timeline with the animations of a preset; a request that the catalog
cannot meet adds none. -/
def addEffect (l : Timeline α) (c : Catalog α) (r : Request α) : Timeline α :=
  l.addAll ((c.expand r).map fun d => d.resolved l.element)

/-- The timeline with every symbolic position replaced. -/
def resolved (l : Timeline α) : Timeline α :=
  { l with nodes := l.nodes.map fun n => { n with conf := n.conf.resolved l.element } }

/-- Whether some zoom asks for room. -/
def hasPaddedZoom (l : Timeline α) : Bool := l.nodes.any Node.isPaddedZoom

/-- The larger endpoint of the last zoom that asks for room and has endpoints,
else one. -/
def maxScale (l : Timeline α) : α :=
  match (l.nodes.reverse.filter Node.isPaddedZoom).findSome? Node.endpoints? with
  | some (x, y) => Scalar.larger x y
  | none => 1.0

/-- When the last exit is over, else zero. -/
def duration (l : Timeline α) : α :=
  match l.last? .exit with
  | some n => n.conf.time + n.conf.delay
  | none => 0.0

/-- When the last entrance begins, else zero. -/
def appearTime (l : Timeline α) : α :=
  match l.last? .entrance with
  | some n => n.conf.delay
  | none => 0.0

/-- Every window moved to an earlier time, but not before zero. -/
def shiftBack (l : Timeline α) (amount : α) : Timeline α :=
  { l with
    nodes := l.nodes.map fun n =>
      n.set "delay" (.ofNumber (Scalar.positivePart (n.conf.delay - amount))) }

/-- Every window moved so that the last entrance begins at zero. -/
def aligned (l : Timeline α) : Timeline α := l.shiftBack l.appearTime

end Timeline

end Tween
