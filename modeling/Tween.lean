import Tween.Ease
import Tween.Element
import Tween.Error
import Tween.Expr.Eval
import Tween.Expr.Text
import Tween.Filter.Build
import Tween.Filter.Chain
import Tween.Filter.Spec
import Tween.Preset.Source
import Tween.Preset.Stock
import Tween.Timeline.Compile
import Tween.Timeline.Source
import Tween.Proofs.Double.Printing
import Tween.Proofs.Endpoints
import Tween.Proofs.Failure
import Tween.Proofs.Families
import Tween.Proofs.Finite
import Tween.Proofs.History
import Tween.Proofs.Interleaving
import Tween.Proofs.Line
import Tween.Proofs.Merge
import Tween.Proofs.Presets
import Tween.Proofs.Rendering
import Tween.Proofs.Scale
import Tween.Proofs.Shift
import Tween.Proofs.Shrinking
import Tween.Proofs.Movement
import Tween.Proofs.Naming
import Tween.Proofs.Agreement
import Tween.Proofs.Mirror
import Tween.Proofs.Expansion
import Tween.Proofs.Room
import Tween.Proofs.Timing
import Tween.Proofs.Slots
import Tween.Proofs.Links
import Tween.Proofs.Alignment
import Tween.Proofs.Settled
import Tween.Proofs.Defaults
import Tween.Proofs.Built
