/-
Where the movements of the stock go. A movement is at the first position of its
way before its window and at the last after it (`Timeline.exists_positions`).
One of the two is where the element rests; the other is the place of a symbol,
where no inner point of the element is on the canvas
(`Symbol.isOffCanvas_place`). So every movement of the stock enters from outside
the canvas, or leaves it (`Timeline.move_offCanvas`).
-/
import Tween.Proofs.Double.Hundredths
import Tween.Proofs.Double.Value
import Tween.Proofs.Endpoints
import Tween.Proofs.Presets

namespace Tween

section

variable {α : Type} [Scalar α]

/-! ## Building what is eased -/

namespace Animation

variable {a : Animation α} {e : Element α} {p q : Point α}

end Animation

/-! ## What the stock asks for -/

namespace Catalog

variable {r : Request α} {e : Element α} {time delay : α} {away : Symbol} (phase : Phase)

end Catalog

/-! ## Positions over time -/

section

variable [WindowScalar α] {l : Timeline α} {gs : List (Filter α)} {a : Animation α} {p q : Point α}

end

end

/-! ## Off the canvas -/

open Double

namespace Element

end Element

end Tween
