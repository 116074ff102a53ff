/-
How texts are read that are put together from others. A text reads as an atom,
as a product or as a sum (`ReadsAtom`, `ReadsProduct`, `ReadsSum`) if the reader
of that level takes it off any text it stands in front of, so far as the next
character ends it. Each rule of the grammar gives one lemma.
-/
import Tween.Proofs.Formula

namespace Tween.Formula

variable {variableName : String} {cs cs' rest : List Char} {f g : Formula}

/-- Nothing is left, or a character that ends an atom. -/
def Ends (rest : List Char) : Prop := ∀ c ∈ rest.head?, c ∈ ['+', '-', '*', '/', ',', ')']

/-- Nothing is left, or a character that ends a product. -/
def EndsProduct (rest : List Char) : Prop := ∀ c ∈ rest.head?, c ∈ ['+', '-', ',', ')']

/-- The text is not empty and has no minus sign in front. -/
def Unsigned (cs : List Char) : Prop := ∃ c, cs.head? = some c ∧ c ≠ '-'

structure ReadsAtom (variableName : String) (cs : List Char) (f : Formula) : Prop where
  unsigned : Unsigned cs
  read : ∀ fuel rest, Ends rest → 3 * (cs ++ rest).length + 1 ≤ fuel →
    readAtom variableName fuel (cs ++ rest) = some (f, rest)

structure ReadsProduct (variableName : String) (cs : List Char) (f : Formula) : Prop where
  unsigned : Unsigned cs
  read : ∀ fuel rest, Ends rest → 3 * (cs ++ rest).length + 2 ≤ fuel →
    ∃ left, 3 * rest.length + 1 ≤ left ∧
      readProduct variableName fuel (cs ++ rest) = readFactors variableName left f rest

def ReadsSum (variableName : String) (cs : List Char) (f : Formula) : Prop :=
  ∀ fuel rest, EndsProduct rest → 3 * (cs ++ rest).length + 3 ≤ fuel →
    ∃ left, 3 * rest.length + 1 ≤ left ∧
      readSum variableName fuel (cs ++ rest) = readTerms variableName left f rest

def ReadsArgs (variableName : String) (cs : List Char) (fs : List Formula) : Prop :=
  ∀ fuel rest, 3 * (cs ++ ')' :: rest).length + 4 ≤ fuel →
    readArgs variableName fuel (cs ++ ')' :: rest) = some (fs, rest)

/-! ## Where a text ends -/

theorem EndsProduct.ends (h : EndsProduct rest) : Ends rest := by
  intro c hc
  have hmem := h c hc
  simp only [List.mem_cons, List.not_mem_nil, or_false] at hmem ⊢
  rcases hmem with rfl | rfl | rfl | rfl
  all_goals simp

theorem Ends.cases {c : Char} (h : Ends rest) (hc : c ∈ rest.head?) :
    c = '+' ∨ c = '-' ∨ c = '*' ∨ c = '/' ∨ c = ',' ∨ c = ')' := by
  simpa only [List.mem_cons, List.not_mem_nil, or_false] using h c hc

theorem Ends.not_digit (h : Ends rest) : ∀ c ∈ rest.head?, c.isDigit = false := by
  intro c hc
  rcases h.cases hc with rfl | rfl | rfl | rfl | rfl | rfl
  all_goals decide

theorem Ends.not_nameChar (h : Ends rest) : ∀ c ∈ rest.head?, isNameChar c = false := by
  intro c hc
  rcases h.cases hc with rfl | rfl | rfl | rfl | rfl | rfl
  all_goals decide

theorem Ends.ne_paren (h : Ends rest) : ∀ c ∈ rest.head?, c ≠ '(' := by
  intro c hc
  rcases h.cases hc with rfl | rfl | rfl | rfl | rfl | rfl
  all_goals decide

theorem Ends.ne_point (h : Ends rest) : ∀ c ∈ rest.head?, c ≠ '.' := by
  intro c hc
  rcases h.cases hc with rfl | rfl | rfl | rfl | rfl | rfl
  all_goals decide

theorem ends_cons {c : Char} (h : c ∈ ['+', '-', '*', '/', ',', ')']) : Ends (c :: rest) := by
  intro c' hc'
  obtain rfl : c = c' := by simpa using hc'
  exact h

theorem endsProduct_cons {c : Char} (h : c ∈ ['+', '-', ',', ')']) : EndsProduct (c :: rest) := by
  intro c' hc'
  obtain rfl : c = c' := by simpa using hc'
  exact h

theorem Unsigned.append (h : Unsigned cs) : Unsigned (cs ++ cs') := by
  obtain ⟨c, hc, hne⟩ := h
  exact ⟨c, by simp [List.head?_append, hc], hne⟩

theorem readFactors_of_ends {fuel : Nat} (h : EndsProduct rest) (hfuel : 1 ≤ fuel) :
    readFactors variableName fuel f rest = some (f, rest) := by
  obtain ⟨fuel, rfl⟩ := Nat.exists_eq_add_of_le' hfuel
  cases rest with
  | nil => rfl
  | cons c rest =>
    have hc := h c rfl
    simp only [List.mem_cons, List.not_mem_nil, or_false] at hc
    rcases hc with rfl | rfl | rfl | rfl
    all_goals rfl

theorem readTerms_of_close {fuel : Nat} {c : Char} (h : c = ',' ∨ c = ')') (hfuel : 1 ≤ fuel) :
    readTerms variableName fuel f (c :: rest) = some (f, c :: rest) := by
  obtain ⟨fuel, rfl⟩ := Nat.exists_eq_add_of_le' hfuel
  rcases h with rfl | rfl
  · rfl
  · rfl

/-! ## Products and sums -/

theorem ReadsAtom.product (h : ReadsAtom variableName cs f) : ReadsProduct variableName cs f := by
  refine ⟨h.unsigned, ?_⟩
  intro fuel rest hends hfuel
  obtain ⟨fuel, rfl⟩ : ∃ n, fuel = n + 1 := ⟨fuel - 1, by omega⟩
  rw [List.length_append] at hfuel
  have hatom := h.read fuel rest hends (by rw [List.length_append]; omega)
  refine ⟨fuel, by omega, ?_⟩
  simp only [readProduct, hatom, Option.bind_eq_bind, Option.bind_some]

theorem ReadsProduct.factor {c : Char} {op : Operator} (h : ReadsProduct variableName cs f)
    (h' : ReadsAtom variableName cs' g) (hop : (c = '*' ∧ op = .mul) ∨ (c = '/' ∧ op = .div)) :
    ReadsProduct variableName (cs ++ c :: cs') (.binary op f g) := by
  refine ⟨h.unsigned.append, ?_⟩
  intro fuel rest hends hfuel
  have hc : c ∈ ['+', '-', '*', '/', ',', ')'] := by
    rcases hop with ⟨rfl, -⟩ | ⟨rfl, -⟩
    · decide
    · decide
  rw [List.append_assoc, List.cons_append] at hfuel ⊢
  obtain ⟨left, hleft, hread⟩ := h.read _ _ (ends_cons hc) hfuel
  simp only [List.length_cons, List.length_append] at hleft
  obtain ⟨left, rfl⟩ : ∃ n, left = n + 1 := ⟨left - 1, by omega⟩
  have hatom := h'.read left rest hends (by rw [List.length_append]; omega)
  refine ⟨left, by omega, ?_⟩
  rw [hread]
  rcases hop with ⟨rfl, rfl⟩ | ⟨rfl, rfl⟩
  · simp only [readFactors, hatom, Option.bind_eq_bind, Option.bind_some]
  · simp only [readFactors, hatom, Option.bind_eq_bind, Option.bind_some]

theorem ReadsProduct.sum (h : ReadsProduct variableName cs f) : ReadsSum variableName cs f := by
  intro fuel rest hends hfuel
  obtain ⟨fuel, rfl⟩ : ∃ n, fuel = n + 1 := ⟨fuel - 1, by omega⟩
  obtain ⟨left, hleft, hread⟩ := h.read fuel rest hends.ends (by omega)
  rw [List.length_append] at hfuel
  refine ⟨fuel, by omega, ?_⟩
  obtain ⟨c, hc, hne⟩ := h.unsigned
  obtain ⟨cs, rfl⟩ := List.head?_eq_some_iff.1 hc
  rw [readFactors_of_ends hends (by omega)] at hread
  rw [List.cons_append] at hread ⊢
  -- The reader's branch for a minus sign is ruled out last.
  rw [readSum]
  · simp only [hread, Option.bind_eq_bind, Option.bind_some]
  · intro cs' hcs'
    exact hne (List.cons.inj hcs').1

theorem ReadsProduct.neg (h : ReadsProduct variableName cs f) :
    ReadsSum variableName ('-' :: cs) (.neg f) := by
  intro fuel rest hends hfuel
  obtain ⟨fuel, rfl⟩ : ∃ n, fuel = n + 1 := ⟨fuel - 1, by omega⟩
  simp only [List.cons_append, List.length_cons, List.length_append] at hfuel
  obtain ⟨left, hleft, hread⟩ := h.read fuel rest hends.ends
    (by rw [List.length_append]; omega)
  rw [readFactors_of_ends hends (by omega)] at hread
  refine ⟨fuel, by omega, ?_⟩
  simp only [List.cons_append, readSum, hread, Option.bind_eq_bind, Option.bind_some]

theorem ReadsSum.term {c : Char} {op : Operator} (h : ReadsSum variableName cs f)
    (h' : ReadsProduct variableName cs' g)
    (hop : (c = '+' ∧ op = .add) ∨ (c = '-' ∧ op = .sub)) :
    ReadsSum variableName (cs ++ c :: cs') (.binary op f g) := by
  intro fuel rest hends hfuel
  have hc : c ∈ ['+', '-', ',', ')'] := by
    rcases hop with ⟨rfl, -⟩ | ⟨rfl, -⟩
    · decide
    · decide
  rw [List.append_assoc, List.cons_append] at hfuel ⊢
  obtain ⟨left, hleft, hread⟩ := h _ _ (endsProduct_cons hc) hfuel
  simp only [List.length_cons, List.length_append] at hleft
  obtain ⟨left, rfl⟩ : ∃ n, left = n + 1 := ⟨left - 1, by omega⟩
  obtain ⟨left', hleft', hread'⟩ := h'.read left rest hends.ends
    (by rw [List.length_append]; omega)
  rw [readFactors_of_ends hends (by omega)] at hread'
  refine ⟨left, by omega, ?_⟩
  rw [hread]
  rcases hop with ⟨rfl, rfl⟩ | ⟨rfl, rfl⟩
  · simp only [readTerms, hread', Option.bind_eq_bind, Option.bind_some]
  · simp only [readTerms, hread', Option.bind_eq_bind, Option.bind_some]

/-! ## Atoms -/

theorem readSum_close (fuel : Nat) (rest : List Char) {c : Char} (h : ReadsSum variableName cs f)
    (hc : c = ',' ∨ c = ')') (hfuel : 3 * (cs ++ c :: rest).length + 3 ≤ fuel) :
    readSum variableName fuel (cs ++ c :: rest) = some (f, c :: rest) := by
  have hmem : c ∈ ['+', '-', ',', ')'] := by
    rcases hc with rfl | rfl
    · decide
    · decide
  obtain ⟨left, hleft, hread⟩ := h fuel (c :: rest) (endsProduct_cons hmem) hfuel
  rw [hread]
  exact readTerms_of_close hc (by omega)

theorem ReadsSum.paren (h : ReadsSum variableName cs f) :
    ReadsAtom variableName ('(' :: (cs ++ [')'])) f := by
  refine ⟨⟨'(', rfl, by decide⟩, ?_⟩
  intro fuel rest _ hfuel
  obtain ⟨fuel, rfl⟩ : ∃ n, fuel = n + 1 := ⟨fuel - 1, by omega⟩
  rw [List.cons_append, List.append_assoc] at hfuel ⊢
  simp only [List.cons_append, List.nil_append, List.length_cons] at hfuel ⊢
  have hsum := readSum_close fuel rest h (.inr rfl) (by omega)
  simp only [readAtom, hsum, Option.bind_eq_bind, Option.bind_some]

theorem ReadsSum.arg (h : ReadsSum variableName cs f) : ReadsArgs variableName cs [f] := by
  intro fuel rest hfuel
  obtain ⟨fuel, rfl⟩ : ∃ n, fuel = n + 1 := ⟨fuel - 1, by omega⟩
  have hsum := readSum_close fuel rest h (.inr rfl) (by omega)
  simp only [readArgs, hsum, Option.bind_eq_bind, Option.bind_some]

theorem ReadsArgs.cons {fs : List Formula} (h : ReadsSum variableName cs f)
    (h' : ReadsArgs variableName cs' fs) : ReadsArgs variableName (cs ++ ',' :: cs') (f :: fs) := by
  intro fuel rest hfuel
  obtain ⟨fuel, rfl⟩ : ∃ n, fuel = n + 1 := ⟨fuel - 1, by omega⟩
  rw [List.append_assoc, List.cons_append] at hfuel ⊢
  have hsum := readSum_close fuel (cs' ++ ')' :: rest) h (.inl rfl) (by omega)
  rw [List.length_append, List.length_cons] at hfuel
  have hargs := h' fuel rest (by omega)
  simp only [readArgs, hsum, hargs, Option.bind_eq_bind, Option.bind_some]

/-- A run of characters of one kind is taken off whole where another kind
follows. -/
theorem takeWhile_append_of {p : Char → Bool} (h : ∀ c ∈ cs, p c = true)
    (hrest : ∀ c ∈ rest.head?, p c = false) :
    (cs ++ rest).takeWhile p = cs ∧ (cs ++ rest).dropWhile p = rest := by
  have hstop : rest.takeWhile p = [] ∧ rest.dropWhile p = rest := by
    cases rest with
    | nil => exact ⟨rfl, rfl⟩
    | cons c rest => simp [hrest c rfl]
  rw [List.takeWhile_append_of_pos h, List.dropWhile_append_of_pos h, hstop.1, hstop.2]
  exact ⟨List.append_nil cs, rfl⟩

/-- A name: not empty, letters, digits and underscores, and no digit first. -/
def IsName (cs : List Char) : Prop :=
  (∃ c, cs.head? = some c ∧ c.isDigit = false) ∧ ∀ c ∈ cs, isNameChar c = true

theorem isName_of_all {c : Char} (hdigit : c.isDigit = false)
    (h : (c :: cs).all isNameChar = true) : IsName (c :: cs) :=
  ⟨⟨c, rfl, hdigit⟩, List.all_eq_true.1 h⟩

/-- What is asked of a name comes to this much for the reader. -/
theorem IsName.cases (h : IsName cs) : ∃ c name, cs = c :: name ∧ c.isDigit = false ∧ c ≠ '(' ∧
    c ≠ '-' := by
  obtain ⟨⟨c, hc, hdigit⟩, hname⟩ := h
  obtain ⟨name, rfl⟩ := List.head?_eq_some_iff.1 hc
  have hchar := hname c (by simp)
  refine ⟨c, name, rfl, hdigit, ?_, ?_⟩
  · rintro rfl
    exact absurd hchar (by decide)
  · rintro rfl
    exact absurd hchar (by decide)

theorem readAtom_call {fuel : Nat} {args : List Formula} (h : IsName cs)
    (hargs : readArgs variableName fuel cs' = some (args, rest))
    (hcall : call? (String.ofList cs) args = some f) :
    readAtom variableName (fuel + 1) (cs ++ '(' :: cs') = some (f, rest) := by
  have hparen : ∀ c ∈ ('(' :: cs').head?, isNameChar c = false := by
    intro c hc
    obtain rfl : '(' = c := by simpa using hc
    decide
  obtain ⟨htake, hdrop⟩ := takeWhile_append_of h.2 hparen
  obtain ⟨c, name, rfl, hdigit, hne, -⟩ := h.cases
  rw [List.cons_append] at htake hdrop ⊢
  rw [readAtom]
  · simp only [htake, hdrop, hargs, hcall, List.takeWhile_cons, hdigit, Bool.false_eq_true,
      if_false, if_true, Option.bind_eq_bind, Option.bind_some]
  · intro cs' hcs'
    exact hne (List.cons.inj hcs').1

theorem readAtom_time {fuel : Nat} (h : IsName cs) (hcs : String.ofList cs = variableName)
    (hends : Ends rest) : readAtom variableName (fuel + 1) (cs ++ rest) = some (.time, rest) := by
  obtain ⟨htake, hdrop⟩ := takeWhile_append_of h.2 hends.not_nameChar
  obtain ⟨c, name, rfl, hdigit, hne, -⟩ := h.cases
  rw [List.cons_append] at htake hdrop ⊢
  rw [readAtom]
  · simp only [htake, hdrop, List.takeWhile_cons, hdigit, Bool.false_eq_true, if_false, if_true]
    split
    · exact absurd rfl (hends.ne_paren '(' rfl)
    · rw [if_pos hcs]
  · intro cs' hcs'
    exact hne (List.cons.inj hcs').1

theorem IsName.unsigned (h : IsName cs) : Unsigned cs := by
  obtain ⟨c, name, rfl, -, -, hne⟩ := h.cases
  exact ⟨c, rfl, hne⟩

theorem readsAtom_time (h : IsName variableName.toList) :
    ReadsAtom variableName variableName.toList .time := by
  refine ⟨h.unsigned, ?_⟩
  intro fuel rest hends hfuel
  obtain ⟨fuel, rfl⟩ : ∃ n, fuel = n + 1 := ⟨fuel - 1, by omega⟩
  exact readAtom_time h (String.ofList_toList) hends

theorem ReadsArgs.call {fs : List Formula} (h : ReadsArgs variableName cs' fs) (hname : IsName cs)
    (hcall : call? (String.ofList cs) fs = some f) :
    ReadsAtom variableName (cs ++ '(' :: (cs' ++ [')'])) f := by
  refine ⟨hname.unsigned.append, ?_⟩
  intro fuel rest _ hfuel
  obtain ⟨fuel, rfl⟩ : ∃ n, fuel = n + 1 := ⟨fuel - 1, by omega⟩
  obtain ⟨c, name, hcs, -⟩ := hname.cases
  have hlength : 1 ≤ cs.length := by rw [hcs]; simp
  simp only [List.append_assoc, List.cons_append, List.nil_append, List.length_append,
    List.length_cons] at hfuel ⊢
  have hargs := h fuel rest (by rw [List.length_append, List.length_cons]; omega)
  exact readAtom_call hname hargs hcall

/-! ## Literals -/

theorem readLiteral_whole (hcs : ∀ c ∈ cs, c.isDigit = true) (hends : Ends rest) :
    readLiteral (cs ++ rest) = some (.literal (Nat.ofDigitChars 10 cs 0) 0, rest) := by
  obtain ⟨htake, hdrop⟩ := takeWhile_append_of hcs hends.not_digit
  unfold readLiteral
  rw [htake, hdrop]
  dsimp only
  split
  · exact absurd rfl (hends.ne_point '.' rfl)
  · rfl

theorem readLiteral_fraction (hcs : ∀ c ∈ cs, c.isDigit = true)
    (hcs' : ∀ c ∈ cs', c.isDigit = true) (hne : cs' ≠ []) (hends : Ends rest) :
    readLiteral (cs ++ '.' :: (cs' ++ rest)) =
      some (.literal (Nat.ofDigitChars 10 (cs ++ cs') 0) cs'.length, rest) := by
  have hpoint : ∀ c ∈ ('.' :: (cs' ++ rest)).head?, c.isDigit = false := by
    intro c hc
    obtain rfl : '.' = c := by simpa using hc
    decide
  obtain ⟨htake, hdrop⟩ := takeWhile_append_of hcs hpoint
  obtain ⟨htake', hdrop'⟩ := takeWhile_append_of hcs' hends.not_digit
  unfold readLiteral
  simp only [htake, hdrop, htake', hdrop', if_neg hne]

theorem readAtom_literal {fuel : Nat} {c : Char} (hc : c.isDigit = true) :
    readAtom variableName (fuel + 1) (c :: cs) = readLiteral (c :: cs) := by
  have hne : c ≠ '(' := by
    rintro rfl
    exact absurd hc (by decide)
  rw [readAtom]
  · simp [hc]
  · intro cs' hcs'
    exact hne (List.cons.inj hcs').1

/-- Digits with no point among them. -/
theorem readsAtom_whole (hne : cs ≠ []) (hcs : ∀ c ∈ cs, c.isDigit = true) :
    ReadsAtom variableName cs (.literal (Nat.ofDigitChars 10 cs 0) 0) := by
  cases cs with
  | nil => exact absurd rfl hne
  | cons c cs =>
    have hc := hcs c (by simp)
    refine ⟨⟨c, rfl, ?_⟩, ?_⟩
    · rintro rfl
      exact absurd hc (by decide)
    · intro fuel rest hends hfuel
      obtain ⟨fuel, rfl⟩ : ∃ n, fuel = n + 1 := ⟨fuel - 1, by omega⟩
      have hread := readLiteral_whole hcs hends
      rw [List.cons_append] at hread ⊢
      rw [readAtom_literal hc, hread]

/-- Digits with a point among them. -/
theorem readsAtom_fraction (hne : cs ≠ []) (hcs : ∀ c ∈ cs, c.isDigit = true) (hne' : cs' ≠ [])
    (hcs' : ∀ c ∈ cs', c.isDigit = true) :
    ReadsAtom variableName (cs ++ '.' :: cs')
      (.literal (Nat.ofDigitChars 10 (cs ++ cs') 0) cs'.length) := by
  cases cs with
  | nil => exact absurd rfl hne
  | cons c cs =>
    have hc := hcs c (by simp)
    refine ⟨⟨c, rfl, ?_⟩, ?_⟩
    · rintro rfl
      exact absurd hc (by decide)
    · intro fuel rest hends hfuel
      obtain ⟨fuel, rfl⟩ : ∃ n, fuel = n + 1 := ⟨fuel - 1, by omega⟩
      have hread := readLiteral_fraction hcs hcs' hne' hends
      rw [List.append_assoc]
      rw [List.cons_append] at hread ⊢
      rw [readAtom_literal hc]
      exact hread

end Tween.Formula
