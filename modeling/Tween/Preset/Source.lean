/-
Presets as text.
-/
import Tween.Error
import Tween.Json.Reader
import Tween.Preset.Basic

namespace Tween.Catalog

/-- The catalog a text stands for. A field that a later one of its name replaces
is still a preset, or the text is refused. -/
def parse (s : String) : Except (Error Float) (Catalog Float) :=
  match (Json.parseFields s).bind ofFields? with
  | some c => .ok c
  | none => .error .malformed

/-- The catalog at a place, given the text found there, if any was found. -/
def load (place : String) (content : Option String) : Except (Error Float) (Catalog Float) :=
  match content with
  | some s => parse s
  | none => .error (.unreadable place)

end Tween.Catalog
