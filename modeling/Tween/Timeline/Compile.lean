/-
Compiling a timeline: each animation becomes a filter, the filters of a group
become one, and the groups are put in the order in which they have to act. A
zoom works on an enlarged picture, so it is preceded by a scaling.
-/
import Tween.Filter.Chain
import Tween.Filter.Spec
import Tween.Timeline.Basic

namespace Tween

/-- The groups that are chained, in the order in which they act. -/
inductive Stage where
  | rotate
  | zoom
  | alpha
  | overlay
deriving DecidableEq, Repr

namespace Stage

def all : List Stage := [rotate, zoom, alpha, overlay]

/-- The group a stage collects. -/
def group : Stage → String
  | rotate => rotateGroup
  | zoom => zoomGroup
  | alpha => alphaGroup
  | overlay => overlayGroup

variable {α : Type}

/-- How many times larger the picture is on which a zoom works. -/
def upscale : Nat := 4

/-- The filter that enlarges the picture in front of a zoom. -/
def scaleFilter : Filter α :=
  ((Filter.plain "scale" "t").withText "w" (String.ofList ("iw*".toList ++ digits upscale))).withText
    "h" (String.ofList ("ih*".toList ++ digits upscale))

/-- The filters a stage puts in front of its own. -/
def before : Stage → List (Filter α)
  | zoom => [scaleFilter]
  | _ => []

variable [Scalar α]

/-- The filters of a group as at most one: a lone one is finished by itself. -/
def merged (s : Stage) : List (Filter α) → Except (Error α) (Option (Filter α))
  | [] => .ok none
  | [f] => .ok (some f.finalized)
  | fs => Filter.chain s.group fs

/-- The filters of a stage taken out of a list, made one, and put behind the
others. -/
def collect (s : Stage) (fs : List (Filter α)) : Except (Error α) (List (Filter α)) := do
  let rest := fs.filter fun f => !f.isIn s.group
  match ← s.merged (fs.filter fun f => f.isIn s.group) with
  | none => pure rest
  | some f => pure (rest ++ s.before ++ [f])

end Stage

namespace Timeline

variable {α : Type} [Scalar α]

/-- The filters of the animations, one for each. -/
def filters (l : Timeline α) : Except (Error α) (List (Filter α)) :=
  l.nodes.mapM fun n => n.toFilter l.element

/-- Filters with the renderer's own fades behind the others. -/
def fadesLast (fs : List (Filter α)) : List (Filter α) :=
  fs.filter (fun f => !f.isIn fadeGroup) ++ fs.filter fun f => f.isIn fadeGroup

/-- The filters of a timeline, chained and in order, before any text is
written. -/
def compose (l : Timeline α) : Except (Error α) (List (Filter α)) := do
  let fs ← l.filters
  let fs ← Stage.all.foldlM (fun fs s => s.collect fs) fs
  pure (fadesLast fs)

/-- A timeline compiled for the renderer. -/
def compile (l : Timeline α) : Except (Error α) (List (Spec α)) := do
  let fs ← l.compose
  fs.mapM Filter.toSpec

end Timeline

end Tween
