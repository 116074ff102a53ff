/-
What is read against the start of a window moves with the window. Two
expressions are told apart by a move in time alone (`Expr.Moved`) if the second
has every time in it earlier; then it has the values of the first earlier
(`Expr.Moved.eval`). Filters of animations that start earlier are moved
(`Animation.toFilter_moved`), and moved filters are chained and collected into
moved ones (`Filter.chainOptions_moved`, `Stage.collect_moved`).
-/
import Tween.Proofs.Exact
import Tween.Proofs.Blocks
import Tween.Proofs.Parallel

namespace Tween

variable {A : Arithmetic} {amount : A.Number}

/-! ## Expressions -/

/-- The second expression is the first with every time in it moved to an earlier
one. The time itself occurs only where it is compared with a fixed time, or
counted from one. -/
inductive Expr.Moved (amount : A.Number) : Expr A.Number → Expr A.Number → Prop
  | const (c : A.Number) : Moved amount (.const c) (.const c)
  | linear (base change duration origin : A.Number) :
    Moved amount (.linear base change duration origin)
      (.linear base change duration (origin - amount))
  | elapsed (origin : A.Number) :
    Moved amount (.time - .const origin) (.time - .const (origin - amount))
  | unary (op : UnaryOp) {x y : Expr A.Number} (h : Moved amount x y) :
    Moved amount (.unary op x) (.unary op y)
  | binary (op : BinaryOp) {l l' r r' : Expr A.Number} (hl : Moved amount l l')
    (hr : Moved amount r r') : Moved amount (.binary op l r) (.binary op l' r')
  | ifRel (rel : Relation) {l l' r r' yes yes' no no' : Expr A.Number} (hl : Moved amount l l')
    (hr : Moved amount r r') (hyes : Moved amount yes yes') (hno : Moved amount no no') :
    Moved amount (.ifRel rel l r yes no) (.ifRel rel l' r' yes' no')
  | ifTime (rel : Relation) (time : A.Number) {yes yes' no no' : Expr A.Number}
    (hyes : Moved amount yes yes') (hno : Moved amount no no') :
    Moved amount (.ifRel rel .time (.const time) yes no)
      (.ifRel rel .time (.const (time - amount)) yes' no')
  | ifWithin (low high : A.Number) {yes yes' no no' : Expr A.Number}
    (hyes : Moved amount yes yes') (hno : Moved amount no no') :
    Moved amount (.ifBetween .time (.const low) (.const high) yes no)
      (.ifBetween .time (.const (low - amount)) (.const (high - amount)) yes' no')
  | elseSlot {x y : Expr A.Number} (h : Moved amount x y) :
    Moved amount (.elseSlot x) (.elseSlot y)

theorem Relation.holds_sub (rel : Relation) (t time : A.Number) :
    rel.holds t (time - amount) = rel.holds (t + amount) time := by
  cases rel with
  | lt => exact decide_eq_decide.2 lt_sub_iff_add_lt
  | le => exact decide_eq_decide.2 le_sub_iff_add_le

namespace Expr.Moved

variable {x x' y y' : Expr A.Number}

/-- **An expression moved to an earlier time** has the value that the expression
has later. -/
theorem eval (h : Moved amount x y) (t : A.Number) : y.eval t = x.eval (t + amount) := by
  induction h with
  | const c => rfl
  | linear base change duration origin =>
    simp only [Expr.eval, linearValue, sub_sub_eq_add_sub]
  | elapsed origin =>
    rw [eval_sub rfl rfl, eval_sub rfl rfl, sub_sub_eq_add_sub]
  | unary op _ ih => simp only [Expr.eval, ih]
  | binary op _ _ ihl ihr => simp only [Expr.eval, ihl, ihr]
  | ifRel rel _ _ _ _ ihl ihr ihyes ihno => simp only [Expr.eval, ihl, ihr, ihyes, ihno]
  | ifTime rel time _ _ ihyes ihno =>
    simp only [Expr.eval, ok_bind, rel.holds_sub, ihyes, ihno]
  | ifWithin low high _ _ ihyes ihno =>
    simp only [Expr.eval, ok_bind, sub_le_iff_le_add, le_sub_iff_add_le, ihyes, ihno]
  | elseSlot _ _ => rfl

theorem fillElse (h : Moved amount x y) (hr : Moved amount x' y') :
    Moved amount (x.fillElse x') (y.fillElse y') := by
  unfold Expr.fillElse
  induction h with
  | const c => exact .const c
  | linear base change duration origin => exact .linear _ _ _ _
  | elapsed origin => exact .elapsed origin
  | unary op _ ih => exact .unary op ih
  | binary op _ _ ihl ihr => exact .binary op ihl ihr
  | ifRel rel _ _ _ _ ihl ihr ihyes ihno => exact .ifRel rel ihl ihr ihyes ihno
  | ifTime rel time _ _ ihyes ihno => exact .ifTime rel time ihyes ihno
  | ifWithin low high _ _ ihyes ihno => exact .ifWithin low high ihyes ihno
  | elseSlot _ _ => exact hr

theorem collapseElse (h : Moved amount x y) : Moved amount x.collapseElse y.collapseElse := by
  induction h with
  | const c => exact .const c
  | linear base change duration origin => exact .linear _ _ _ _
  | elapsed origin => exact .elapsed origin
  | unary op _ ih => exact .unary op ih
  | binary op _ _ ihl ihr => exact .binary op ihl ihr
  | ifRel rel _ _ _ _ ihl ihr ihyes ihno => exact .ifRel rel ihl ihr ihyes ihno
  | ifTime rel time _ _ ihyes ihno => exact .ifTime rel time ihyes ihno
  | ifWithin low high _ _ ihyes ihno => exact .ifWithin low high ihyes ihno
  | elseSlot _ ih => exact ih

theorem render (h : Moved amount x y) (time : String) :
    Parallel (fun _ _ => True) (x.render time) (y.render time) := by
  induction h with
  | const c => exact .ok trivial
  | linear base change duration origin => exact .ok trivial
  | elapsed origin => exact .ok trivial
  | unary op _ ih => exact ih.bind fun _ _ _ => by cases op <;> exact .ok trivial
  | binary op _ _ ihl ihr =>
    exact ihl.bind fun _ _ _ => ihr.bind fun _ _ _ => by cases op <;> exact .ok trivial
  | ifRel rel _ _ _ _ ihl ihr ihyes ihno =>
    exact ihl.bind fun _ _ _ => ihr.bind fun _ _ _ => ihyes.bind fun _ _ _ =>
      ihno.bind fun _ _ _ => .ok trivial
  | ifTime rel start _ _ ihyes ihno =>
    exact ihyes.bind fun _ _ _ => ihno.bind fun _ _ _ => .ok trivial
  | ifWithin low high _ _ ihyes ihno =>
    exact ihyes.bind fun _ _ _ => ihno.bind fun _ _ _ => .ok trivial
  | elseSlot _ _ => exact .error _ _

theorem add (h : Moved amount x y) (h' : Moved amount x' y') :
    Moved amount (x + x') (y + y') := .binary .add h h'

theorem sub (h : Moved amount x y) (h' : Moved amount x' y') :
    Moved amount (x - x') (y - y') := .binary .sub h h'

theorem mul (h : Moved amount x y) (h' : Moved amount x' y') :
    Moved amount (x * x') (y * y') := .binary .mul h h'

theorem div (h : Moved amount x y) (h' : Moved amount x' y') :
    Moved amount (x / x') (y / y') := .binary .div h h'

theorem pow (h : Moved amount x y) (h' : Moved amount x' y') :
    Moved amount (x.pow x') (y.pow y') := .binary .pow h h'

end Expr.Moved

theorem Ease.curve_moved (e : Ease) {p q : Expr A.Number} (h : p.Moved amount q) :
    (e.curve p).Moved amount (e.curve q) := by
  have lit (c : A.Number) : (Expr.const c).Moved amount (.const c) := .const c
  have rest := (lit 1.0).sub h
  have before := h.sub (lit 1.0)
  have mirrored := ((lit (-2.0)).mul h).add (lit 2.0)
  have angle (c : A.Number) := h.mul (lit c)
  cases e with
  | linear => exact h
  | inQuad => exact h.pow (lit _)
  | outQuad => exact (lit _).sub (rest.pow (lit _))
  | inOutQuad =>
    exact .ifRel .lt h (lit _) ((lit _).mul (h.pow (lit _)))
      ((lit _).sub ((mirrored.pow (lit _)).div (lit _)))
  | inCubic => exact h.pow (lit _)
  | outCubic => exact (lit _).sub (rest.pow (lit _))
  | inOutCubic =>
    exact .ifRel .lt h (lit _) ((lit _).mul (h.pow (lit _)))
      ((lit _).sub ((mirrored.pow (lit _)).div (lit _)))
  | inQuart => exact h.pow (lit _)
  | outQuart => exact (lit _).sub (rest.pow (lit _))
  | inOutQuart =>
    exact .ifRel .lt h (lit _) ((lit _).mul (h.pow (lit _)))
      ((lit _).sub ((mirrored.pow (lit _)).div (lit _)))
  | inSine => exact (lit _).sub (.unary .cos (angle _))
  | outSine => exact .unary .sin (angle _)
  | inOutSine => exact .div (.unary .neg (.sub (.unary .cos (angle _)) (lit _))) (lit _)
  | inExpo => exact .ifRel .le h (lit _) (lit _) ((lit _).pow (((lit _).mul h).sub (lit _)))
  | outExpo => exact .ifRel .lt h (lit _) ((lit _).sub ((lit _).pow ((lit _).mul h))) (lit _)
  | inCirc => exact (lit _).sub (.unary .sqrt ((lit _).sub (h.pow (lit _))))
  | outCirc => exact .unary .sqrt ((lit _).sub (before.pow (lit _)))
  | inBack => exact ((lit _).mul (h.pow (lit _))).sub ((lit _).mul (h.pow (lit _)))
  | outBack =>
    exact ((lit _).add ((lit _).mul (before.pow (lit _)))).add ((lit _).mul (before.pow (lit _)))

/-- The eased value is read against the start of the window. -/
theorem Ease.valueExpr_moved (e : Ease) (base change duration delay : A.Number) :
    (e.valueExpr base change duration delay).Moved amount
      (e.valueExpr base change duration (delay - amount)) := by
  have helapsed : Expr.Moved amount (.time - .const delay) (.time - .const (delay - amount)) :=
    .elapsed delay
  have hcurve := e.curve_moved (helapsed.div (.const duration))
  unfold valueExpr
  cases e with
  | linear => exact .linear _ _ _ _
  | _ =>
    dsimp only
    split
    · exact .mul (.const _) hcurve
    · exact .add (.const _) (.mul (.const _) hcurve)

/-! ## Filters of animations -/

/-- Options are related by a move in time: an animated one is moved, and one that
does not change over time is the same. -/
inductive OptionValue.Moved (amount : A.Number) : OptionValue A.Number → OptionValue A.Number → Prop
  | animated {x y : Expr A.Number} (h : x.Moved amount y) : Moved amount (.animated x) (.animated y)
  | fixed (s : Setting A.Number) : Moved amount (.fixed s) (.fixed s)

/-- The window that opens earlier. -/
def Window.earlier {α : Type} [Scalar α] (w : Window α) (amount : α) : Window α :=
  { w with delay := w.delay - amount }

/-- The animation that starts earlier. -/
def Animation.earlier {α : Type} [Scalar α] (a : Animation α) (amount : α) : Animation α :=
  { a with delay := a.delay - amount }

/-- A filter other than a fade and the same one moved in time. -/
structure Filter.Moved (amount : A.Number) (f g : Filter A.Number) : Prop where
  name : g.name = f.name
  notFade : f.name ≠ fadeGroup
  clock : g.clock = f.clock
  phase : g.phase = f.phase
  group : g.group = f.group
  window : g.window = f.window.map fun w => w.earlier amount
  options : f.options.Related (fun _ => OptionValue.Moved amount) g.options

/-- Filters of one animation and of the same one started earlier. A fade keeps
its start among its options. -/
inductive Filter.MovedOrFade (amount : A.Number) : Filter A.Number → Filter A.Number → Prop
  | moved {f g : Filter A.Number} (h : f.Moved amount g) : MovedOrFade amount f g
  | fade (a : Animation A.Number) : MovedOrFade amount a.fadeFilter (a.earlier amount).fadeFilter

namespace Filter

variable {f g : Filter A.Number}

theorem Moved.withOption (h : f.Moved amount g) (key : String) {v w : OptionValue A.Number}
    (hv : v.Moved amount w) : (f.withOption key v).Moved amount (g.withOption key w) :=
  { h with options := h.options.insert hv }

theorem Moved.withExpr (h : f.Moved amount g) (key : String) {x y : Expr A.Number}
    (hx : x.Moved amount y) : (f.withExpr key x).Moved amount (g.withExpr key y) :=
  h.withOption key (.animated hx)

theorem Moved.withText (h : f.Moved amount g) (key s : String) :
    (f.withText key s).Moved amount (g.withText key s) :=
  h.withOption key (.fixed _)

theorem Moved.withNumber (h : f.Moved amount g) (key : String) (c : A.Number) :
    (f.withNumber key c).Moved amount (g.withNumber key c) :=
  h.withOption key (.fixed _)

theorem Moved.isIn_eq (h : f.Moved amount g) (group : String) : g.isIn group = f.isIn group := by
  unfold isIn
  rw [h.group]

theorem Moved.isExit_eq (h : f.Moved amount g) : g.isExit = f.isExit := by
  unfold isExit
  rw [h.phase]

theorem MovedOrFade.isIn_eq (h : f.MovedOrFade amount g) (group : String) :
    g.isIn group = f.isIn group := by
  cases h with
  | moved h => exact h.isIn_eq group
  | fade a => rfl

end Filter

namespace Animation

variable (a : Animation A.Number) (e : Element A.Number)

theorem finish_earlier : (a.earlier amount).finish = a.finish - amount :=
  sub_add_eq_add_sub _ _ _

theorem windowValue_moved (first last unit : A.Number) :
    Parallel (fun p q => p.1.Moved amount q.1 ∧ p.2 = q.2) (a.windowValue first last unit)
      ((a.earlier amount).windowValue first last unit) := by
  unfold windowValue
  split
  · rename_i hcontinuous
    rw [if_pos (show (a.earlier amount).continuous = true from hcontinuous)]
    exact Parallel.bind_same fun rate => .ok ⟨.linear _ _ _ _, rfl⟩
  · rename_i hcontinuous
    rw [if_neg (show ¬ (a.earlier amount).continuous = true from hcontinuous)]
    exact .ok ⟨a.ease.valueExpr_moved _ _ _ _, rfl⟩

theorem gate_moved (first hold : A.Number) {value value' : Expr A.Number}
    (h : value.Moved amount value') :
    (a.gate first value hold).Moved amount ((a.earlier amount).gate first value' hold) := by
  unfold gate
  rw [finish_earlier]
  exact .ifTime .lt a.delay (.const first) (.ifWithin a.delay a.finish h (.elseSlot (.const hold)))

theorem gatedFilter_moved {group : String} (hgroup : group ≠ fadeGroup) (clock : String)
    (holds : Table A.Number) :
    (a.gatedFilter group clock holds).Moved amount
      ((a.earlier amount).gatedFilter group clock holds) :=
  ⟨rfl, hgroup, rfl, rfl, rfl, rfl, .empty⟩

theorem alphaFilter_moved :
    Parallel (Filter.Moved amount) a.alphaFilter (a.earlier amount).alphaFilter := by
  refine Parallel.bind_same (x := a.scalarEndpoints) fun ⟨first, last⟩ => ?_
  refine (a.windowValue_moved first last 1.0).bind ?_
  rintro ⟨value, hold⟩ ⟨value', _⟩ ⟨hvalue, rfl⟩
  exact .pure ((a.gatedFilter_moved (by decide) _ _).withExpr "alpha" (a.gate_moved _ _ hvalue))

theorem rotateFilter_moved :
    Parallel (Filter.Moved amount) a.rotateFilter (a.earlier amount).rotateFilter := by
  refine Parallel.bind_same (x := a.scalarEndpoints) fun ⟨first, last⟩ => ?_
  refine (a.windowValue_moved (toRadians first) (toRadians last) degree).bind ?_
  rintro ⟨value, hold⟩ ⟨value', _⟩ ⟨hvalue, rfl⟩
  have hgated : Filter.Moved amount (a.gatedFilter rotateGroup "t" (Table.ofList [("a", hold)])) _ :=
    a.gatedFilter_moved (by decide) _ _
  have hturn :=
    (hgated.withExpr "a" (a.gate_moved (toRadians first) hold hvalue)).withText "c" "none"
  refine .pure ?_
  change Filter.Moved amount (if a.padded then _ else _) (if a.padded then _ else _)
  split
  · exact (hturn.withText "ow" _).withText "oh" _
  · exact hturn

theorem zoomFilter_moved :
    Parallel (Filter.Moved amount) (a.zoomFilter e) ((a.earlier amount).zoomFilter e) := by
  refine Parallel.bind_same (x := a.scalarEndpoints) fun ⟨first, last⟩ => ?_
  dsimp only
  split
  · exact .error _ _
  · refine (a.windowValue_moved first last 1.0).bind ?_
    rintro ⟨value, hold⟩ ⟨value', _⟩ ⟨hvalue, rfl⟩
    have hgated : Filter.Moved amount
        (a.gatedFilter zoomGroup "time" (Table.ofList [("z", hold)])) _ :=
      a.gatedFilter_moved (by decide) _ _
    have hzoom := hgated.withExpr "z" (a.gate_moved first hold hvalue)
    exact .pure ((((hzoom.withText "x" _).withText "y" _).withNumber "d" _).withText "s" _)

theorem overlayFilter_moved :
    Parallel (Filter.Moved amount) (a.overlayFilter e) ((a.earlier amount).overlayFilter e) := by
  refine Parallel.bind_same (x := a.pointEndpoints e.position) fun ⟨first, last⟩ => ?_
  refine (a.windowValue_moved first.x last.x 1.0).bind ?_
  rintro ⟨valueX, holdX⟩ ⟨valueX', _⟩ ⟨hvalueX, rfl⟩
  refine (a.windowValue_moved first.y last.y 1.0).bind ?_
  rintro ⟨valueY, holdY⟩ ⟨valueY', _⟩ ⟨hvalueY, rfl⟩
  exact .pure (((a.gatedFilter_moved (by decide) _ _).withExpr "x"
    (a.gate_moved _ _ hvalueX)).withExpr "y" (a.gate_moved _ _ hvalueY))

/-- **An animation started earlier** has the filter of the animation, moved, or
has none if it has none. -/
theorem toFilter_moved :
    Parallel (Filter.MovedOrFade amount) (a.toFilter e) ((a.earlier amount).toFilter e) := by
  have hkind : (a.earlier amount).kind = a.kind := rfl
  unfold toFilter
  rw [hkind]
  cases a.kind with
  | fade | reveal => exact .ok (.fade a)
  | alpha => exact a.alphaFilter_moved.imp fun _ _ => .moved
  | rotate => exact a.rotateFilter_moved.imp fun _ _ => .moved
  | zoom => exact (a.zoomFilter_moved e).imp fun _ _ => .moved
  | move => exact (a.overlayFilter_moved e).imp fun _ _ => .moved

end Animation

/-! ## Chains -/

namespace Filter

variable {held held' : Table (OptionValue A.Number)} {f g : Filter A.Number}
  {fs gs : List (Filter A.Number)} {prev w : Window A.Number}

/-- Options of tables moved in time. -/
abbrev MovedOptions (amount : A.Number) (t u : Table (OptionValue A.Number)) : Prop :=
  t.Related (fun _ => OptionValue.Moved amount) u

theorem unionOptions_moved (family : String) {next next' : List (String × OptionValue A.Number)}
    (hnext : List.Forall₂ (Table.EntryRelated fun _ => OptionValue.Moved amount) next next')
    (hheld : MovedOptions amount held held') :
    Parallel (MovedOptions amount) (unionOptions family held next)
      (unionOptions family held' next') := by
  induction hnext generalizing held held' with
  | nil => exact .ok hheld
  | @cons p q next next' hpq _ ih =>
    obtain ⟨key, v⟩ := p
    obtain ⟨key', v'⟩ := q
    obtain ⟨rfl, hv⟩ : key = key' ∧ v.Moved amount v' := hpq
    have hget := hheld.get? key
    unfold unionOptions
    generalize held.get? key = x, held'.get? key = x' at hget ⊢
    -- What is held under the name, by what the next filter has there.
    cases hget with
    | none =>
      cases hv with
      | animated _ => exact .error _ _
      | fixed s => exact ih (hheld.insert (.fixed s))
    | some hx =>
      cases hx with
      | animated _ =>
        cases hv with
        | animated _ => exact ih hheld
        | fixed s => exact .error _ _
      | fixed s =>
        cases hv with
        | animated _ => exact .error _ _
        | fixed s' =>
          dsimp only
          split
          · exact ih hheld
          · exact .error _ _

theorem seam_moved (opening hold : A.Number) {x y : Expr A.Number} (h : x.Moved amount y) :
    (seam opening hold x).Moved amount (seam (opening - amount) hold y) :=
  .ifTime .le opening (.const hold) h

theorem extendOption_moved (family : String) (prev : Window A.Number) (opening : A.Number)
    {next next' : Table (OptionValue A.Number)} (hnext : MovedOptions amount next next')
    (key : String) {v v' : OptionValue A.Number} (hv : v.Moved amount v') :
    Parallel (OptionValue.Moved amount) (extendOption family prev opening next key v)
      (extendOption family (prev.earlier amount) (opening - amount) next' key v') := by
  cases hv with
  | fixed s => exact .ok (.fixed s)
  | animated hx =>
    have hget := hnext.get? key
    unfold extendOption
    generalize next.get? key = successor, next'.get? key = successor' at hget ⊢
    cases hget with
    | none => exact .error _ _
    | some hy =>
      cases hy with
      | fixed s => exact .error _ _
      | animated hy =>
        dsimp only [Window.earlier]
        split
        · exact .ok (.animated (hx.fillElse (seam_moved opening _ hy)))
        · exact .error _ _

theorem extend_moved (family : String) (hheld : MovedOptions amount held held')
    (hnext : f.Moved amount g) :
    Parallel (MovedOptions amount) (extend family held prev f w)
      (extend family held' (prev.earlier amount) g (w.earlier amount)) := by
  have hoverlap : (w.earlier amount).delay + windowTolerance < (prev.earlier amount).finish ↔
      w.delay + windowTolerance < prev.finish := by
    have hopen : (w.earlier amount).delay + windowTolerance =
      w.delay + windowTolerance - amount := sub_add_eq_add_sub _ _ _
    have hclose : (prev.earlier amount).finish = prev.finish - amount := sub_add_eq_add_sub _ _ _
    rw [hopen, hclose, sub_lt_sub_iff_right]
  unfold extend
  simp only [hoverlap]
  split
  · exact .error _ _
  · exact (unionOptions_moved family hnext.options hheld).bind fun t u htu =>
      htu.traverse fun key v v' hv => extendOption_moved family prev w.delay hnext.options key hv

theorem windowIn_moved (family : String) (h : f.Moved amount g) :
    Parallel (fun w w' => w' = w.earlier amount) (f.windowIn family) (g.windowIn family) := by
  unfold windowIn
  rw [h.window]
  cases f.window with
  | none => exact .error _ _
  | some w => exact .ok rfl

/-- **A chain of moved filters** is the chain, moved. -/
theorem chainOptions_moved (family : String) (hfs : List.Forall₂ (Filter.Moved amount) fs gs)
    (hheld : MovedOptions amount held held') :
    Parallel (MovedOptions amount) (chainOptions family held prev fs)
      (chainOptions family held' (prev.earlier amount) gs) := by
  -- Along the chain the options held and the last window stay moved.
  induction hfs generalizing held held' prev with
  | nil => exact .ok hheld
  | cons hfg _ ih =>
    refine (windowIn_moved family hfg).bind ?_
    rintro w _ rfl
    exact (extend_moved family hheld hfg).bind fun t u htu => ih htu

theorem Moved.finalized (h : f.Moved amount g) : f.finalized.Moved amount g.finalized := by
  refine { h with options := h.options.map ?_ }
  intro key v v' hv
  cases hv with
  | animated hx => exact .animated hx.collapseElse
  | fixed s => exact .fixed s

theorem inOrder_moved (h : List.Forall₂ (Filter.Moved amount) fs gs) :
    List.Forall₂ (Filter.Moved amount) (inOrder fs) (inOrder gs) :=
  List.rel_append (List.rel_filter (fun f g hfg => by simp only [hfg.isExit_eq]) h)
    (List.rel_filter (fun f g hfg => by simp only [hfg.isExit_eq]) h)

theorem chain_moved (family : String) (h : List.Forall₂ (Filter.Moved amount) fs gs) :
    Parallel (Option.Rel (Filter.Moved amount)) (chain family fs) (chain family gs) := by
  have horder := inOrder_moved h
  unfold chain
  generalize inOrder fs = fs, inOrder gs = gs at horder ⊢
  cases horder with
  | nil => exact .ok .none
  | @cons f g rest rest' hfg hrest =>
    refine (windowIn_moved family hfg).bind ?_
    rintro w _ rfl
    refine (chainOptions_moved family hrest hfg.options).bind fun t u htu => ?_
    have hchained : Filter.Moved amount
        { f with options := t, window := none, group := none, phase := none }
        { g with options := u, window := none, group := none, phase := none } :=
      { hfg with phase := rfl, group := rfl, window := rfl, options := htu }
    exact .pure (.some hchained.finalized)

end Filter

/-! ## Stages -/

namespace Stage

variable {fs gs : List (Filter A.Number)} (s : Stage)

theorem merged_moved (h : List.Forall₂ (Filter.Moved amount) fs gs) :
    Parallel (Option.Rel (Filter.Moved amount)) (s.merged fs) (s.merged gs) := by
  cases h with
  | nil => exact .ok .none
  | cons hfg hrest =>
    cases hrest with
    | nil => exact .ok (.some hfg.finalized)
    | cons hfg' hrest => exact Filter.chain_moved s.group (.cons hfg (.cons hfg' hrest))

theorem before_moved : List.Forall₂ (Filter.Moved amount) s.before s.before := by
  have hname : "scale" ≠ fadeGroup := by decide
  have hscale : (scaleFilter : Filter A.Number).Moved amount scaleFilter :=
    (Filter.Moved.withText ⟨rfl, hname, rfl, rfl, rfl, rfl, .empty⟩ "w" _).withText "h" _
  cases s with
  | zoom => exact .cons hscale .nil
  | rotate | alpha | overlay => exact .nil

/-- No fade is among the filters of a stage. -/
theorem filter_moved (h : List.Forall₂ (Filter.MovedOrFade amount) fs gs) :
    List.Forall₂ (Filter.Moved amount) (fs.filter fun f => f.isIn s.group)
      (gs.filter fun f => f.isIn s.group) := by
  induction h with
  | nil => exact .nil
  | @cons f g fs gs hfg _ ih =>
    rw [List.filter_cons, List.filter_cons, hfg.isIn_eq]
    cases hfg with
    | moved hfg =>
      split
      · exact .cons hfg ih
      · exact ih
    | fade a =>
      have hnot : a.fadeFilter.isIn s.group = false := by
        simpa [Filter.isIn, Animation.fadeFilter] using s.group_ne_fade.symm
      rw [hnot]
      exact ih

theorem collect_moved (h : List.Forall₂ (Filter.MovedOrFade amount) fs gs) :
    Parallel (List.Forall₂ (Filter.MovedOrFade amount)) (s.collect fs) (s.collect gs) := by
  have hrest : List.Forall₂ (Filter.MovedOrFade amount) (fs.filter fun f => !f.isIn s.group)
      (gs.filter fun f => !f.isIn s.group) :=
    List.rel_filter (fun f g hfg => by simp only [hfg.isIn_eq]) h
  refine (s.merged_moved (s.filter_moved h)).bind fun f g hfg => ?_
  cases hfg with
  | none => exact .pure hrest
  | some hfg =>
    have hbefore : List.Forall₂ (Filter.MovedOrFade amount) s.before s.before :=
      s.before_moved.imp fun _ _ => .moved
    exact .pure (List.rel_append (List.rel_append hrest hbefore) (.cons (.moved hfg) .nil))

end Stage

end Tween
