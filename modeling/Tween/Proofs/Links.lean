/-
The expression that chained filters leave for an option. The chain grows from
its front: each filter fills the fallback of all that is there already. Filling
is associative (`Expr.fillElse_fillElse`), so the result is also nested from its
end, each filter in the fallback of the one before (`Filter.chainOptions_spliced`).
Where every expression is open in one place, it has the parts of all of them,
once, and those of a seam between any two (`Expr.nested_parts`).
-/
import Mathlib.Algebra.Order.Group.Multiset
import Mathlib.Algebra.BigOperators.Group.List.Basic
import Mathlib.Tactic.Abel
import Tween.Proofs.Defaults
import Tween.Proofs.Track
import Tween.Proofs.Union

namespace Tween

variable {α : Type}

namespace Expr

/-! ## Filling one after the other -/

/-- Filling is associative: what goes in later may go into what went in before. -/
theorem fillElse_fillElse (e a b : Expr α) :
    (e.fillElse a).fillElse b = e.fillElse (a.fillElse b) :=
  mapSlots_mapSlots e _ _ _ _

theorem collapseElse_fillElse (e a : Expr α) :
    (e.fillElse a).collapseElse = e.fillElse a.collapseElse := by
  rw [collapseElse_eq_mapSlots, collapseElse_eq_mapSlots]
  exact mapSlots_mapSlots e _ _ _ _

/-! ## What stands in an expression -/

/-- What stands at one place of an expression: an operand, or an operation
without its operands. -/
inductive Part (α : Type) where
  | const (value : α)
  | time
  | linear (base change duration origin : α)
  | unary (op : UnaryOp)
  | binary (op : BinaryOp)
  | ifRel (rel : Relation)
  | ifBetween

/-- The parts of an expression, each as often as it occurs. Slots are places for
parts and no parts themselves. -/
def parts : Expr α → Multiset (Part α)
  | const c => {.const c}
  | time => {.time}
  | linear b c d o => {.linear b c d o}
  | unary op a => {.unary op} + a.parts
  | binary op l r => {.binary op} + l.parts + r.parts
  | ifRel rel l r y n => {.ifRel rel} + l.parts + r.parts + y.parts + n.parts
  | ifBetween v lo hi y n => {.ifBetween} + v.parts + lo.parts + hi.parts + y.parts + n.parts
  | elseSlot _ | delaySlot => 0

/-- How many parts an expression has. -/
def size (e : Expr α) : Nat := e.parts.card

/-- Each fallback in view brings the parts of what replaces it, once. -/
theorem parts_mapSlots (e : Expr α) (fallback : Expr α → Expr α) :
    (e.mapSlots fallback .delaySlot).parts =
      e.parts + (e.fallbacks.map fun d => (fallback d).parts).sum := by
  induction e with
  | const | time | linear | delaySlot => simp [mapSlots, parts, fallbacks]
  | unary op a iha =>
    simp only [mapSlots, parts, fallbacks, iha]
    abel
  | binary op l r ihl ihr =>
    simp only [mapSlots, parts, fallbacks, ihl, ihr, List.map_append, List.sum_append]
    abel
  | ifRel rel l r y n ihl ihr ihy ihn =>
    simp only [mapSlots, parts, fallbacks, ihl, ihr, ihy, ihn, List.map_append, List.sum_append]
    abel
  | ifBetween v lo hi y n ihv ihlo ihhi ihy ihn =>
    simp only [mapSlots, parts, fallbacks, ihv, ihlo, ihhi, ihy, ihn, List.map_append,
      List.sum_append]
    abel
  | elseSlot d => simp [mapSlots, parts, fallbacks]

theorem slots_fillElse (e w : Expr α) :
    (e.fillElse w).slots = e.slots.flatMap fun s => if s = .fallback then w.slots else [s] := by
  unfold fillElse
  induction e with
  | const | time | linear | delaySlot => rfl
  | unary op a iha => exact iha
  | binary op l r ihl ihr => simp only [mapSlots, slots, ihl, ihr, List.flatMap_append]
  | ifRel rel l r y n ihl ihr ihy ihn =>
    simp only [mapSlots, slots, ihl, ihr, ihy, ihn, List.flatMap_append]
  | ifBetween v lo hi y n ihv ihlo ihhi ihy ihn =>
    simp only [mapSlots, slots, ihv, ihlo, ihhi, ihy, ihn, List.flatMap_append]
  | elseSlot d => simp [mapSlots, slots]

theorem mapSlots_congr {e : Expr α} {fallback fallback' : Expr α → Expr α} (delay : Expr α)
    (h : ∀ d ∈ e.fallbacks, fallback d = fallback' d) :
    e.mapSlots fallback delay = e.mapSlots fallback' delay := by
  induction e with
  | const | time | linear | delaySlot => rfl
  | unary op a iha => rw [mapSlots, mapSlots, iha h]
  | binary op l r ihl ihr =>
    simp only [fallbacks, List.forall_mem_append] at h
    rw [mapSlots, mapSlots, ihl h.1, ihr h.2]
  | ifRel rel l r y n ihl ihr ihy ihn =>
    simp only [fallbacks, List.forall_mem_append] at h
    obtain ⟨⟨⟨hl, hr⟩, hy⟩, hn⟩ := h
    rw [mapSlots, mapSlots, ihl hl, ihr hr, ihy hy, ihn hn]
  | ifBetween v lo hi y n ihv ihlo ihhi ihy ihn =>
    simp only [fallbacks, List.forall_mem_append] at h
    obtain ⟨⟨⟨⟨hv, hlo⟩, hhi⟩, hy⟩, hn⟩ := h
    rw [mapSlots, mapSlots, ihv hv, ihlo hlo, ihhi hhi, ihy hy, ihn hn]
  | elseSlot d => exact h d (List.mem_singleton_self d)

/-- An expression is open in one place only, a fallback whose default is
closed. -/
structure OpensTo (e d : Expr α) : Prop where
  slots : e.slots = [.fallback]
  fallbacks : e.fallbacks = [d]
  closed : d.IsClosed

namespace OpensTo

variable {e d : Expr α}

/-- What goes into the one place comes in once. -/
theorem parts_fillElse (h : e.OpensTo d) (w : Expr α) :
    (e.fillElse w).parts = e.parts + w.parts := by
  rw [fillElse, parts_mapSlots, h.fallbacks, List.map_singleton, List.sum_singleton]

theorem isClosed_fillElse (h : e.OpensTo d) {w : Expr α} (hw : w.IsClosed) :
    (e.fillElse w).IsClosed := by
  rw [isClosed_iff_slots] at hw ⊢
  simp [slots_fillElse, h.slots, hw]

theorem collapseElse_eq (h : e.OpensTo d) : e.collapseElse = e.fillElse d := by
  rw [collapseElse_eq_mapSlots, fillElse]
  refine mapSlots_congr _ fun d' hd' => ?_
  rw [h.fallbacks, List.mem_singleton] at hd'
  rw [hd', collapseElse_of_closed h.closed]

end OpensTo

end Expr

/-! ## Nested links -/

/-- What a chain goes on with behind an expression. -/
structure Link (α : Type) where
  /-- The value held from the window before. -/
  hold : α
  /-- Start of the window, up to which the value is held. -/
  opening : α
  /-- The expression from there on. -/
  body : Expr α

namespace Link

variable (l : Link α)

/-- What stands between the expression before and the body of a link, open where
the body goes. -/
def seam : Expr α := (Filter.seamTemplate l.hold).fillDelay l.opening

theorem seam_opensTo : l.seam.OpensTo (.const l.hold) := ⟨rfl, rfl, rfl⟩

theorem fillElse_seam (e : Expr α) :
    l.seam.fillElse e = .ifLe .time (.const l.opening) (.const l.hold) e := rfl

end Link

namespace Expr

/-- An expression with each link in the fallback of the one before, the last one
being open. -/
def spliced (e : Expr α) : List (Link α) → Expr α
  | [] => e
  | l :: links => e.fillElse (l.seam.fillElse (l.body.spliced links))

/-- An expression with each link in the fallback of the one before: the value held
up to the start of its window, and its body with the later links from there on.
The last one is collapsed. -/
def nested (e : Expr α) : List (Link α) → Expr α
  | [] => e.collapseElse
  | l :: links =>
    e.fillElse (.ifLe .time (.const l.opening) (.const l.hold) (l.body.nested links))

/-- Links go behind a link that is spliced in already as they go behind its
body. -/
theorem spliced_fillElse (e : Expr α) (l : Link α) (links : List (Link α)) :
    (e.fillElse (l.seam.fillElse l.body)).spliced links = e.spliced (l :: links) := by
  cases links with
  | nil => rfl
  | cons l' links => exact fillElse_fillElse e _ _

theorem collapseElse_spliced (e : Expr α) (links : List (Link α)) :
    (e.spliced links).collapseElse = e.nested links := by
  induction links generalizing e with
  | nil => rfl
  | cons l links ih =>
    rw [spliced, nested, collapseElse_fillElse, collapseElse_fillElse, ih l.body, l.fillElse_seam]

/-- The last expression of a nest. -/
def lastBody (e : Expr α) (links : List (Link α)) : Expr α :=
  (links.map Link.body).getLastD e

/-- **A nest has the parts of every link once**, those of its seam and of its
body, if each expression is open in one place. In the end it has those of the last
default. -/
theorem nested_parts {e : Expr α} {links : List (Link α)}
    (h : ∀ x ∈ e :: links.map Link.body, ∃ d, x.OpensTo d) :
    (e.nested links).IsClosed ∧ ∃ d, (e.lastBody links).OpensTo d ∧
      (e.nested links).parts =
        e.parts + (links.map fun l => l.seam.parts + l.body.parts).sum + d.parts := by
  induction links generalizing e with
  | nil =>
    obtain ⟨d, hd⟩ := h e (by simp)
    rw [nested, hd.collapseElse_eq, hd.parts_fillElse]
    exact ⟨hd.isClosed_fillElse hd.closed, d, hd, by simp⟩
  | cons l links ih =>
    obtain ⟨d, hd⟩ := h e (by simp)
    obtain ⟨hclosed, d', hd', hparts⟩ := ih fun x hx => h x (List.mem_cons_of_mem _ hx)
    rw [nested, ← l.fillElse_seam, hd.parts_fillElse, l.seam_opensTo.parts_fillElse, hparts,
      List.map_cons, List.sum_cons]
    refine ⟨hd.isClosed_fillElse (l.seam_opensTo.isClosed_fillElse hclosed), d', ?_, ?_⟩
    · rwa [lastBody, List.map_cons, List.getLastD_cons]
    · abel

theorem card_links (links : List (Link α)) :
    (links.map fun l : Link α => l.seam.parts + l.body.parts).sum.card =
      (links.map fun l => l.body.size).sum + 4 * links.length := by
  induction links with
  | nil => rfl
  | cons l links ih =>
    have hseam : l.seam.parts.card = 4 := rfl
    simp only [List.map_cons, List.sum_cons, List.length_cons, Multiset.card_add, ih, hseam, size]
    omega

end Expr

/-! ## Chains of filters -/

namespace Filter

variable [Scalar α]

/-- A filter comes right after a window, as a link in one option: its own window
does not open too early, a value is held up to there, and from there on the
filter has an expression. -/
structure IsLink (key : String) (prev w : Window α) (f : Filter α) (l : Link α) : Prop where
  window : f.window = some w
  clear : ¬ w.delay + windowTolerance < prev.finish
  hold : prev.holds.get? key = some l.hold
  opening : w.delay = l.opening
  body : f.options.get? key = some (.animated l.body)

/-- Filters come one after the other behind a window, as links in one option. -/
inductive Continues (key : String) : Window α → List (Filter α) → List (Link α) → Prop where
  | done {prev : Window α} : Continues key prev [] []
  | next {prev w : Window α} {f : Filter α} {l : Link α} {fs : List (Filter α)}
      {links : List (Link α)} (hlink : IsLink key prev w f l) (hrest : Continues key w fs links) :
      Continues key prev (f :: fs) (l :: links)

/-- Filters in order give an option the expression of the first of them, with the
others behind it as links. -/
def Linked (key : String) (fs : List (Filter α)) (e : Expr α) (links : List (Link α)) : Prop :=
  ∃ f rest w, fs = f :: rest ∧ f.window = some w ∧ f.options.get? key = some (.animated e) ∧
    Continues key w rest links

variable {family key : String} {held held' : Table (OptionValue α)} {prev w : Window α}
  {f next : Filter α} {fs rest : List (Filter α)} {e x : Expr α} {l : Link α}
  {links links' : List (Link α)}

theorem IsLink.unique {w' : Window α} {l' : Link α} (h : IsLink key prev w f l)
    (h' : IsLink key prev w' f l') : w = w' ∧ l = l' := by
  obtain rfl : w = w' := Option.some.inj (h.window.symm.trans h'.window)
  obtain ⟨hold, opening, body⟩ := l
  obtain ⟨hold', opening', body'⟩ := l'
  obtain rfl : hold = hold' := Option.some.inj (h.hold.symm.trans h'.hold)
  obtain rfl : opening = opening' := h.opening.symm.trans h'.opening
  obtain rfl : body = body' :=
    OptionValue.animated.inj (Option.some.inj (h.body.symm.trans h'.body))
  exact ⟨rfl, rfl⟩

theorem Continues.unique (h : Continues key prev fs links) (h' : Continues key prev fs links') :
    links = links' := by
  induction h generalizing links' with
  | done =>
    cases h'
    rfl
  | next hlink _ ih =>
    cases h' with
    | next hlink' hrest' =>
      obtain ⟨rfl, rfl⟩ := hlink.unique hlink'
      rw [ih hrest']

theorem Continues.exists_filter (h : Continues key prev fs links) {y : Expr α}
    (hy : y ∈ links.map Link.body) : ∃ f ∈ fs, f.options.get? key = some (.animated y) := by
  induction h with
  | done => cases hy
  | next hlink _ ih =>
    rcases List.mem_cons.1 hy with rfl | hy
    · exact ⟨_, List.mem_cons_self, hlink.body⟩
    · obtain ⟨f, hf, hfy⟩ := ih hy
      exact ⟨f, List.mem_cons_of_mem _ hf, hfy⟩

theorem Linked.exists_filter (h : Linked key fs e links) {y : Expr α}
    (hy : y ∈ e :: links.map Link.body) : ∃ f ∈ fs, f.options.get? key = some (.animated y) := by
  obtain ⟨f, rest, w, rfl, -, he, hrest⟩ := h
  rcases List.mem_cons.1 hy with rfl | hy
  · exact ⟨f, List.mem_cons_self, he⟩
  · obtain ⟨f', hf', hfy⟩ := hrest.exists_filter hy
    exact ⟨f', List.mem_cons_of_mem _ hf', hfy⟩

theorem extend_eq_ok (h : extend family held prev next w = .ok held') :
    ¬ w.delay + windowTolerance < prev.finish ∧
      ∃ united, unionOptions family held next.options.entries = .ok united ∧
        united.traverse (extendOption family prev w.delay next.options) = .ok held' := by
  unfold extend at h
  split at h
  · cases h
  · rename_i hclear
    exact ⟨hclear, bind_eq_ok.1 h⟩

/-- **One filter more** is a link behind each animated option of the chain. -/
theorem exists_link (h : extend family held prev next w = .ok held') (hw : next.window = some w)
    (he : held.get? key = some (.animated e)) :
    ∃ l, IsLink key prev w next l ∧
      held'.get? key = some (.animated (e.fillElse (l.seam.fillElse l.body))) := by
  obtain ⟨hclear, united, hunited, hextended⟩ := extend_eq_ok h
  have hkept := (animated_of_unionOptions hunited).2 he
  obtain ⟨v, hv, hget⟩ := Table.get?_traverse_some hextended hkept
  rcases extendOption_eq_ok hv with ⟨s, hs, -⟩ | ⟨e', hold, body, he', hhold, hbody, rfl⟩
  · cases hs
  · obtain rfl : e = e' := OptionValue.animated.inj he'
    exact ⟨⟨hold, w.delay, body⟩, ⟨hw, hclear, hhold, rfl, hbody⟩, hget⟩

theorem animated_of_extend (h : extend family held prev next w = .ok held')
    (hx : held'.get? key = some (.animated x)) : ∃ e, held.get? key = some (.animated e) := by
  obtain ⟨-, united, hunited, hextended⟩ := extend_eq_ok h
  cases hv : united.get? key with
  | none =>
    rw [Table.get?_traverse_none hextended hv] at hx
    cases hx
  | some v =>
    obtain ⟨v', hv', hget⟩ := Table.get?_traverse_some hextended hv
    obtain rfl : v' = .animated x := Option.some.inj (hget.symm.trans hx)
    rcases extendOption_eq_ok hv' with ⟨s, -, hs⟩ | ⟨e, _, _, rfl, -, -, -⟩
    · cases hs
    · exact ⟨e, (animated_of_unionOptions hunited).1 hv⟩

/-- **The option of a chain** is what it has been, with the filters that continue
the chain spliced in as links. -/
theorem chainOptions_spliced (h : chainOptions family held prev rest = .ok held')
    (he : held.get? key = some (.animated e)) :
    ∃ links, Continues key prev rest links ∧
      held'.get? key = some (.animated (e.spliced links)) := by
  -- Each step fills the tree that has grown so far; associativity turns it around.
  induction rest generalizing held prev e with
  | nil =>
    obtain rfl : held = held' := Except.ok.inj h
    exact ⟨[], .done, he⟩
  | cons next rest ih =>
    simp only [chainOptions, bind_eq_ok, windowIn_eq_ok] at h
    obtain ⟨w, hw, grown, hgrown, h⟩ := h
    obtain ⟨l, hlink, hget⟩ := exists_link hgrown hw he
    obtain ⟨links, hrest, hget'⟩ := ih h hget
    rw [e.spliced_fillElse l links] at hget'
    exact ⟨l :: links, .next hlink hrest, hget'⟩

theorem animated_of_chainOptions (h : chainOptions family held prev rest = .ok held')
    (hx : held'.get? key = some (.animated x)) : ∃ e, held.get? key = some (.animated e) := by
  induction rest generalizing held prev with
  | nil =>
    obtain rfl : held = held' := Except.ok.inj h
    exact ⟨x, hx⟩
  | cons next rest ih =>
    simp only [chainOptions, bind_eq_ok] at h
    obtain ⟨w, -, grown, hgrown, h⟩ := h
    obtain ⟨y, hy⟩ := ih h
    exact animated_of_extend hgrown hy

/-- A merged filter has the collapsed options of a chain that starts with the
first filter in order. -/
theorem exists_of_chain {g : Filter α} (h : chain family fs = .ok (some g)) :
    ∃ first rest w options, inOrder fs = first :: rest ∧ first.window = some w ∧
      chainOptions family first.options w rest = .ok options ∧
      ∀ key, g.options.get? key = (options.get? key).map finalOption := by
  unfold chain at h
  split at h
  · cases h
  · rename_i first rest horder
    simp only [bind_eq_ok, pure_eq_ok, Option.some.injEq, windowIn_eq_ok] at h
    obtain ⟨w, hw, options, hoptions, rfl⟩ := h
    exact ⟨first, rest, w, options, horder, hw, hoptions, fun key => get?_finalized⟩

/-- **The option of a merged filter** is the nest of its filters in order. -/
theorem animated_of_chain {g : Filter α} (h : chain family fs = .ok (some g)) :
    g.options.get? key = some (.animated x) ↔
      ∃ e links, Linked key (inOrder fs) e links ∧ x = e.nested links := by
  obtain ⟨first, rest, w, options, horder, hw, hoptions, hget⟩ := exists_of_chain h
  rw [hget]
  constructor
  · intro hx
    obtain ⟨v, hv, hfinal⟩ := Option.map_eq_some_iff.1 hx
    cases v with
    | fixed s => cases hfinal
    | animated y =>
      obtain ⟨e, he⟩ := animated_of_chainOptions hoptions hv
      obtain ⟨links, hcontinues, hspliced⟩ := chainOptions_spliced hoptions he
      cases hspliced.symm.trans hv
      cases hfinal
      exact ⟨e, links, ⟨first, rest, w, horder, hw, he, hcontinues⟩, e.collapseElse_spliced links⟩
  · rintro ⟨e, links, ⟨f, rest', w', hfs, hw', he, hcontinues⟩, rfl⟩
    obtain ⟨rfl, rfl⟩ := List.cons.inj (horder.symm.trans hfs)
    obtain rfl : w = w' := Option.some.inj (hw.symm.trans hw')
    obtain ⟨links', hcontinues', hspliced⟩ := chainOptions_spliced hoptions he
    obtain rfl := hcontinues.unique hcontinues'
    rw [hspliced, Option.map_some, finalOption, e.collapseElse_spliced]

/-- **A chain is nested once.** Filling is associative: what goes in later may go
into what went in before. So the option of a merged filter is the nest of its
filters in order: the first expression with, in its fallback, the value held until
the next window opens and from there on the next expression, and so on down to the
last, which falls to its default. If each expression is open in one place, it
occurs in the nest once, and the size is that of all of them, of one seam of four
parts for each filter behind the first, and of the last default. -/
theorem chain_nested {g : Filter α} (h : chain family fs = .ok (some g)) :
    (∀ e a b : Expr α, (e.fillElse a).fillElse b = e.fillElse (a.fillElse b)) ∧
      ∀ key,
        (∀ x, g.options.get? key = some (.animated x) ↔
          ∃ e links, Linked key (inOrder fs) e links ∧ x = e.nested links) ∧
        ((∀ f ∈ fs, ∀ y, f.options.get? key = some (.animated y) → ∃ d, y.OpensTo d) →
          ∀ e links, Linked key (inOrder fs) e links →
            (e.nested links).IsClosed ∧ ∃ d, (e.lastBody links).OpensTo d ∧
              (e.nested links).parts =
                e.parts + (links.map fun l => l.seam.parts + l.body.parts).sum + d.parts ∧
              (e.nested links).size =
                e.size + (links.map fun l => l.body.size).sum + 4 * links.length + d.size) := by
  refine ⟨Expr.fillElse_fillElse, fun key => ⟨fun x => animated_of_chain h, ?_⟩⟩
  intro hopen e links hlinked
  have hbodies : ∀ y ∈ e :: links.map Link.body, ∃ d, y.OpensTo d := by
    intro y hy
    obtain ⟨f, hf, hfy⟩ := hlinked.exists_filter hy
    exact hopen f (mem_inOrder.1 hf) y hfy
  obtain ⟨hclosed, d, hd, hparts⟩ := Expr.nested_parts hbodies
  refine ⟨hclosed, d, hd, hparts, ?_⟩
  rw [Expr.size, hparts, Multiset.card_add, Multiset.card_add, Expr.card_links, ← Nat.add_assoc]
  rfl

end Filter

/-- A filter of opacities that is open for a second. -/
def opacity (phase : Phase) (delay hold : Float) (body : Expr Float) : Filter Float :=
  { (Filter.plain alphaGroup "t").withExpr "alpha" body with
    phase := some phase
    window := some ⟨1.0, delay, .ofList [("alpha", hold)]⟩ }

/-- An exit and two entrances; the fallbacks are the last branch of a test, the
operand of a root and a factor. -/
def opacities : List (Filter Float) :=
  [opacity .exit 4.0 0.0 (.time * .elseSlot (.const 0.0)),
    opacity .entrance 0.0 1.0 (.ifLt .time (.const 1.0) .time (.elseSlot (.const 1.0))),
    opacity .entrance 2.0 0.5 (.sqrt (.elseSlot (.const 0.5)))]

/-- The exit comes last, and its factor is the default. -/
def opacityNest : Expr Float :=
  .ifLt .time (.const 1.0) .time
    (.ifLe .time (.const 2.0) (.const 1.0)
      (.sqrt (.ifLe .time (.const 4.0) (.const 0.5) (.time * .const 0.0))))

/-- The three expressions have four, one and two parts besides their fallbacks,
the two seams have four each, and the default has one. -/
theorem Filter.chain_nested_opacities :
    ∃ g, Filter.chain alphaGroup opacities = .ok (some g) ∧
      g.options.get? "alpha" = some (.animated opacityNest) ∧
      opacityNest.size = 4 + (1 + 2) + 4 * 2 + 1 := by
  obtain ⟨merged, hmerged, hsome⟩ := exists_of_toOption_any (x := Filter.chain alphaGroup opacities)
    (p := Option.isSome) (by decide +kernel)
  obtain ⟨g, rfl⟩ := Option.isSome_iff_exists.1 hsome
  obtain ⟨-, hchain⟩ := Filter.chain_nested hmerged
  obtain ⟨hoption, hparts⟩ := hchain "alpha"
  have hlinked : Filter.Linked "alpha" (Filter.inOrder opacities)
      (.ifLt .time (.const 1.0) .time (.elseSlot (.const 1.0)))
      [⟨1.0, 2.0, .sqrt (.elseSlot (.const 0.5))⟩, ⟨0.5, 4.0, .time * .elseSlot (.const 0.0)⟩] :=
    ⟨_, _, _, rfl, rfl, rfl, .next ⟨rfl, by decide +kernel, rfl, rfl, rfl⟩
      (.next ⟨rfl, by decide +kernel, rfl, rfl, rfl⟩ .done)⟩
  have hopen : ∀ f ∈ opacities, ∀ y, f.options.get? "alpha" = some (.animated y) →
      ∃ d, y.OpensTo d := by
    intro f hf y hy
    simp only [opacities, List.mem_cons, List.not_mem_nil, or_false] at hf
    rcases hf with rfl | rfl | rfl
    all_goals
      cases hy
      exact ⟨_, rfl, rfl, rfl⟩
  obtain ⟨-, d, hd, -, hsize⟩ := hparts hopen _ _ hlinked
  cases hd.fallbacks
  exact ⟨g, hmerged, (hoption _).2 ⟨_, _, hlinked, rfl⟩, hsize⟩

end Tween
