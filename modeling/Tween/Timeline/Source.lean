/-
Timelines from text.
-/
import Tween.Json.Reader
import Tween.Timeline.Basic

namespace Tween.Timeline

/-- The timeline of an element, given its animations as the text of an array of
descriptors. -/
def parse (e : Element Float) (s : String) : Except (Error Float) (Timeline Float) :=
  match ((Json.parse s).bind Json.items?).bind fun vs => vs.mapM Descriptor.ofJson? with
  | some ds => .ok ((empty e).addAll ds)
  | none => .error .malformed

end Tween.Timeline
