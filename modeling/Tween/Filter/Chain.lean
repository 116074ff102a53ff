/-
Chaining the filters of one group. Each filter takes the place of the fallback
of the one before it, behind a seam that holds the earlier value until the
later window opens. Windows may touch but not overlap, and the filters have to
agree on every option that does not change over time.
-/
import Tween.Error
import Tween.Filter.Basic

namespace Tween

variable {α : Type} [Scalar α]

/-- How far a window may reach into the next one. -/
def windowTolerance : α := 1e-9

namespace Filter

/-- Whether a filter belongs to an exit. -/
def isExit (f : Filter α) : Bool := f.phase == some .exit

/-- Filters in the order of an element's stay: exits after all others, and
otherwise as they were. -/
def inOrder (fs : List (Filter α)) : List (Filter α) :=
  fs.filter (fun f => !f.isExit) ++ fs.filter isExit

/-- What stands between two filters: the earlier value until the later window
opens, then an open fallback. -/
def seamTemplate (hold : α) : Expr α :=
  .ifLe .time .delaySlot (.const hold) (.elseSlot (.const hold))

/-- The seam in front of a filter that opens at a given time. -/
def seam (opening hold : α) (successor : Expr α) : Expr α :=
  ((seamTemplate hold).fillDelay opening).fillElse successor

omit [Scalar α] in
theorem seam_eq (opening hold : α) (successor : Expr α) :
    seam opening hold successor = .ifLe .time (.const opening) (.const hold) successor := rfl

/-- The window of a filter, which a chain cannot do without. -/
def windowIn (family : String) (f : Filter α) : Except (Error α) (Window α) :=
  match f.window with
  | some w => .ok w
  | none => .error (.invalid (.noWindow family))

/-- Options with those of one more filter that do not change over time. Both
sides have to animate the same options and to agree on the others. -/
def unionOptions (family : String) (held : Table (OptionValue α)) :
    List (String × OptionValue α) → Except (Error α) (Table (OptionValue α))
  | [] => .ok held
  | (key, value) :: rest =>
    match held.get? key, value with
    | some (.animated _), .animated _ => unionOptions family held rest
    | none, .fixed s => unionOptions family (held.insert key (.fixed s)) rest
    | some (.fixed s), .fixed s' =>
      if s.agrees s' then unionOptions family held rest
      else .error (.invalid (.settingMismatch family key s s'))
    | _, _ => .error (.invalid (.animatedMismatch family key))

/-- An option of the chain with the same option of the next filter behind it.
-/
def extendOption (family : String) (prev : Window α) (opening : α)
    (next : Table (OptionValue α)) (key : String) :
    OptionValue α → Except (Error α) (OptionValue α)
  | .fixed s => .ok (.fixed s)
  | .animated current =>
    match next.get? key with
    | some (.animated successor) =>
      match prev.holds.get? key with
      | some hold => .ok (.animated (current.fillElse (seam opening hold successor)))
      | none => .error (.invalid (.noHold family key))
    | _ => .error (.invalid (.animatedMismatch family key))

/-- The options of a chain continued by one filter. -/
def extend (family : String) (held : Table (OptionValue α)) (prev : Window α)
    (next : Filter α) (w : Window α) : Except (Error α) (Table (OptionValue α)) :=
  if w.delay + windowTolerance < prev.finish then
    .error (.overlap family w.delay prev.finish)
  else do
    let held ← unionOptions family held next.options.entries
    held.traverse (extendOption family prev w.delay next.options)

/-- The options of a chain continued by filters in order. -/
def chainOptions (family : String) (held : Table (OptionValue α)) (prev : Window α) :
    List (Filter α) → Except (Error α) (Table (OptionValue α))
  | [] => .ok held
  | next :: rest => do
    let w ← next.windowIn family
    let held ← extend family held prev next w
    chainOptions family held w rest

/-- The filters of a group as one filter outside any group; none for none. -/
def chain (family : String) (fs : List (Filter α)) : Except (Error α) (Option (Filter α)) :=
  match inOrder fs with
  | [] => .ok none
  | first :: rest => do
    let w ← first.windowIn family
    let options ← chainOptions family first.options w rest
    pure (some (Filter.finalized
      { first with options, window := none, group := none, phase := none }))

end Filter

end Tween
