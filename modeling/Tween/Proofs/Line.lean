/-
The line of a filter read back. A decoder that knows the escapes
(`Spec.decode`) finds in the line the name of the filter, its options in order
and the text of each value, whatever stands in it. What this text is depends on
the value (`Spec.Shows`). Every separator in the line is behind a backslash that
escapes it, and is not escaped itself (`Spec.decode_line`).
-/
import Mathlib.Data.List.TakeWhile
import Tween.Filter.Spec
import Tween.Proofs.Compact

namespace Tween.Spec

/-! ## Reading a line -/

/-- A text up to its first equals sign, and what follows the sign. -/
def cut (cs : List Char) : List Char × List Char :=
  (cs.takeWhile (· != '='), (cs.dropWhile (· != '=')).tail)

/-- A text split at the colons that are not escaped. -/
def pieces : List Char → List (List Char)
  | [] => [[]]
  | '\\' :: c :: rest => (pieces rest).modifyHead fun p => '\\' :: c :: p
  | c :: rest => if c = ':' then [] :: pieces rest else (pieces rest).modifyHead (c :: ·)

/-- A text without the backslashes that escape. -/
def unescape : List Char → List Char
  | [] => []
  | '\\' :: c :: rest => c :: unescape rest
  | c :: rest => c :: unescape rest

/-- The name of an option and the text of its value. -/
def readOption (cs : List Char) : String × String :=
  (String.ofList (cut cs).1, String.ofList (unescape (cut cs).2))

/-- The name in a line, and its options. Without an equals sign there are
none. -/
def decode (line : String) : String × List (String × String) :=
  (String.ofList (cut line.toList).1,
    if '=' ∈ line.toList then (pieces (cut line.toList).2).map readOption else [])

/-- The options of a filter by name, with the texts of their values. -/
def texts (s : Spec Float) : List (String × String) :=
  s.options.entries.map fun e => (e.1, valueText e.2)

/-- What stands for the value of an option: a text itself, a number rounded to
six places, and the compact text of anything else. -/
inductive Shows : Json Float → String → Prop where
  | text (s : String) : Shows (.str s) s
  | whole (i : Int) : Shows (.int i) (numberText (Float.ofInt i))
  | number (x : Float) : Shows (.num x) (numberText x)
  | data {v : Json Float} {text : String} (hstr : v.str? = none) (hnumber : v.number? = none)
      (h : v.Prints text) : Shows v text

/-- Whether a character may not stand in a name: it is special, or the sign
between a name and a value. -/
def isReserved (c : Char) : Bool := c == '=' || isSpecial c

/-- A name in which nothing has to be escaped. -/
def IsPlainName (s : String) : Prop := ∀ c ∈ s.toList, isReserved c = false

instance (s : String) : Decidable (IsPlainName s) :=
  decidable_of_iff ((s.toList.all fun c => !isReserved c) = true) (by simp [IsPlainName])

/-- The filter and its options have plain names. -/
def IsPlain {α : Type} (s : Spec α) : Prop :=
  IsPlainName s.name ∧ ∀ key ∈ s.options.keys, IsPlainName key

instance {α : Type} (s : Spec α) : Decidable s.IsPlain :=
  inferInstanceAs (Decidable (_ ∧ _))

theorem cut_append {cs : List Char} (h : ∀ c ∈ cs, isReserved c = false) (rest : List Char) :
    cut (cs ++ '=' :: rest) = (cs, rest) := by
  have hall : ∀ c ∈ cs, (c != '=') = true := by
    intro c hc
    have hplain := h c hc
    simp only [isReserved, Bool.or_eq_false_iff, beq_eq_false_iff_ne] at hplain
    simpa using hplain.1
  unfold cut
  rw [List.takeWhile_append_of_pos hall, List.dropWhile_append_of_pos hall]
  simp

/-! ## Escapes -/

theorem escape_cons (c : Char) (cs : List Char) :
    escape (c :: cs) = (if isSpecial c then ['\\', c] else [c]) ++ escape cs :=
  List.flatMap_cons

theorem escape_append (cs ds : List Char) : escape (cs ++ ds) = escape cs ++ escape ds :=
  List.flatMap_append

theorem ne_of_not_special {c : Char} (h : ¬ isSpecial c = true) : c ≠ '\\' ∧ c ≠ ':' := by
  constructor
  · rintro rfl
    exact h (by decide)
  · rintro rfl
    exact h (by decide)

theorem escape_of_plain {cs : List Char} (h : ∀ c ∈ cs, isReserved c = false) :
    escape cs = cs := by
  induction cs with
  | nil => rfl
  | cons c cs ih =>
    have hc := h c (by simp)
    simp only [isReserved, Bool.or_eq_false_iff] at hc
    rw [escape_cons, hc.2, ih fun d hd => h d (List.mem_cons_of_mem _ hd)]
    rfl

theorem unescape_cons {c : Char} (h : c ≠ '\\') (rest : List Char) :
    unescape (c :: rest) = c :: unescape rest := by
  rw [unescape.eq_3 _ _ fun _ _ hc _ => h hc]

theorem unescape_escape (cs : List Char) : unescape (escape cs) = cs := by
  induction cs with
  | nil => rfl
  | cons c cs ih =>
    rw [escape_cons]
    split
    · simp [unescape, ih]
    · rename_i hc
      rw [List.singleton_append, unescape_cons (ne_of_not_special hc).1, ih]

theorem pieces_cons {c : Char} (h : c ≠ '\\' ∧ c ≠ ':') (rest : List Char) :
    pieces (c :: rest) = (pieces rest).modifyHead (c :: ·) := by
  rw [pieces.eq_3 _ _ fun _ _ hc _ => h.1 hc, if_neg h.2]

/-- What is escaped is not split. -/
theorem pieces_escape (cs rest : List Char) :
    pieces (escape cs ++ rest) = (pieces rest).modifyHead (escape cs ++ ·) := by
  induction cs with
  | nil => exact (congrFun List.modifyHead_id _).symm
  | cons c cs ih =>
    rw [escape_cons]
    split
    · simp [pieces, ih, List.modifyHead_modifyHead, Function.comp_def]
    · rename_i hc
      rw [List.singleton_append, List.cons_append, pieces_cons (ne_of_not_special hc), ih,
        List.modifyHead_modifyHead]
      rfl

/-! ## Options -/

/-- An option before it is escaped. -/
def optionText (e : String × Json Float) : List Char := e.1.toList ++ '=' :: (valueText e.2).toList

theorem escape_optionText {e : String × Json Float} (h : IsPlainName e.1) :
    escape (optionText e) = e.1.toList ++ '=' :: escape (valueText e.2).toList := by
  unfold optionText
  rw [escape_append, escape_of_plain h, escape_cons]
  rfl

theorem readOption_escape {e : String × Json Float} (h : IsPlainName e.1) :
    readOption (escape (optionText e)) = (e.1, valueText e.2) := by
  unfold readOption
  rw [escape_optionText h, cut_append h, unescape_escape, String.ofList_toList,
    String.ofList_toList]

theorem optionsText_cons (mark : Char) {e : String × Json Float} (h : IsPlainName e.1)
    (rest : List (String × Json Float)) :
    optionsText mark (e :: rest) = mark :: (escape (optionText e) ++ optionsText ':' rest) := by
  rw [escape_optionText h]
  simp [optionsText]

/-- Options are split between one another, and nowhere else. -/
theorem pieces_optionsText (cs : List Char) {rest : List (String × Json Float)}
    (h : ∀ e ∈ rest, IsPlainName e.1) :
    pieces (escape cs ++ optionsText ':' rest) =
      escape cs :: rest.map fun e => escape (optionText e) := by
  induction rest generalizing cs with
  | nil =>
    have h := pieces_escape cs []
    simpa [optionsText, pieces] using h
  | cons e rest ih =>
    have hrest : ∀ e ∈ rest, IsPlainName e.1 := fun e he => h e (List.mem_cons_of_mem _ he)
    have hcolon (ds : List Char) : pieces (':' :: ds) = [] :: pieces ds := rfl
    rw [pieces_escape, optionsText_cons _ (h e (by simp)), hcolon, ih _ hrest]
    simp

theorem map_readOption {entries : List (String × Json Float)}
    (h : ∀ e ∈ entries, IsPlainName e.1) :
    (entries.map fun e => escape (optionText e)).map readOption =
      entries.map fun e => (e.1, valueText e.2) := by
  rw [List.map_map]
  exact List.map_congr_left fun e he => readOption_escape (h e he)

theorem toList_line (s : Spec Float) :
    s.line.toList = s.name.toList ++ optionsText '=' s.options.entries := by
  rw [line, String.toList_ofList]

theorem IsPlain.entries {α : Type} {s : Spec α} (h : s.IsPlain) :
    ∀ e ∈ s.options.entries, IsPlainName e.1 :=
  fun _ he => h.2 _ (List.mem_map_of_mem he)

theorem decode_of_plain {s : Spec Float} (h : s.IsPlain) : decode s.line = (s.name, s.texts) := by
  have hentries := h.entries
  unfold decode texts
  rw [toList_line]
  generalize s.options.entries = entries at hentries
  cases entries with
  | nil =>
    have hno : '=' ∉ s.name.toList := fun hmem => absurd (h.1 _ hmem) (by decide)
    have hall : s.name.toList.takeWhile (· != '=') = s.name.toList := by
      rw [List.takeWhile_eq_self_iff]
      intro c hc
      simp only [bne_iff_ne, ne_eq]
      rintro rfl
      exact hno hc
    simp [optionsText, cut, hno, hall]
  | cons e rest =>
    have hrest : ∀ e ∈ rest, IsPlainName e.1 :=
      fun e he => hentries e (List.mem_cons_of_mem _ he)
    have hmem : '=' ∈ s.name.toList ++ optionsText '=' (e :: rest) := by simp [optionsText]
    rw [if_pos hmem, optionsText_cons _ (hentries e (by simp)), cut_append h.1,
      pieces_optionsText _ hrest, String.ofList_toList]
    exact congrArg _ (map_readOption hentries)

/-! ## Values -/

/-- One text stands for a value. -/
theorem shows_iff {v : Json Float} {text : String} : Shows v text ↔ text = valueText v := by
  have hdata (hstr : v.str? = none) (hnumber : v.number? = none) :
      Shows v text ↔ text = v.compact := by
    rw [← Json.prints_iff]
    constructor
    · intro h
      cases h with
      | text => cases hstr
      | whole | number => cases hnumber
      | data _ _ hprints => exact hprints
    · exact .data hstr hnumber
  cases v with
  | str s => exact ⟨fun | .text _ => rfl, fun h => h ▸ .text s⟩
  | int i => exact ⟨fun | .whole _ => rfl, fun h => h ▸ .whole i⟩
  | num x => exact ⟨fun | .number _ => rfl, fun h => h ▸ .number x⟩
  | null | bool _ | arr _ | obj _ => exact hdata rfl rfl

theorem shows_texts_iff {s : Spec Float} {texts : List (String × String)} :
    List.Forall₂ (fun e text => text.1 = e.1 ∧ Shows e.2 text.2) s.options.entries texts ↔
      texts = s.texts :=
  forall₂_iff_eq_map fun e text => by rw [shows_iff, Prod.ext_iff]

/-! ## Separators -/

/-- Whether a backslash is pending that escapes the next character. -/
def pendingAfter (pending : Bool) (c : Char) : Bool := !pending && c == '\\'

/-- Whether a text ends in a backslash that escapes what follows, one that is
not escaped itself. -/
def endsEscaping (cs : List Char) : Bool := cs.foldl pendingAfter false

/-- Whether a character separates filters or encloses text in a graph of
filters. -/
def isSeparator (c : Char) : Bool := c == ',' || c == ';' || c == '[' || c == ']' || c == '\''

/-- Every separator in a text is escaped, given whether the first character
is. -/
def Guarded (pending : Bool) (cs : List Char) : Prop :=
  ∀ before c after, cs = before ++ c :: after → isSeparator c = true →
    before.foldl pendingAfter pending = true

theorem guarded_nil (pending : Bool) : Guarded pending [] := by
  intro before c after h
  simp at h

theorem Guarded.cons {pending : Bool} {c : Char} {cs : List Char}
    (hc : isSeparator c = true → pending = true) (h : Guarded (pendingAfter pending c) cs) :
    Guarded pending (c :: cs) := by
  intro before d after heq hd
  cases before with
  | nil =>
    obtain rfl : c = d := (List.cons.inj heq).1
    exact hc hd
  | cons b before =>
    obtain ⟨rfl, rfl⟩ := List.cons.inj heq
    exact h before d after rfl hd

theorem isSpecial_of_isSeparator {c : Char} (h : isSeparator c = true) : isSpecial c = true := by
  simp only [isSeparator, Bool.or_eq_true, beq_iff_eq] at h
  rcases h with (((rfl | rfl) | rfl) | rfl) | rfl <;> decide

/-- Escaped text guards its separators, and leaves no escape pending. -/
theorem guarded_escape (cs : List Char) {rest : List Char} (h : Guarded false rest) :
    Guarded false (escape cs ++ rest) := by
  induction cs with
  | nil => exact h
  | cons c cs ih =>
    rw [escape_cons]
    split
    · exact .cons (fun hc => absurd hc (by decide)) (.cons (fun _ => rfl) ih)
    · rename_i hc
      have hpending : pendingAfter false c = false := by
        simp [pendingAfter, (ne_of_not_special hc).1]
      refine .cons (fun hsep => absurd (isSpecial_of_isSeparator hsep) hc) ?_
      rw [hpending]
      exact ih

theorem guarded_optionsText {entries : List (String × Json Float)}
    (h : ∀ e ∈ entries, IsPlainName e.1) {mark : Char} (hmark : mark = '=' ∨ mark = ':') :
    Guarded false (optionsText mark entries) := by
  induction entries generalizing mark with
  | nil => exact guarded_nil false
  | cons e rest ih =>
    have hrest := ih (fun e he => h e (List.mem_cons_of_mem _ he)) (.inr rfl)
    rw [optionsText_cons _ (h e (by simp))]
    rcases hmark with rfl | rfl
    · exact .cons (fun hc => absurd hc (by decide)) (guarded_escape _ hrest)
    · exact .cons (fun hc => absurd hc (by decide)) (guarded_escape _ hrest)

/-- **The line of a filter can be read back.** If its name and those of its
options are plain, the line is decoded to the name, and to the options in order
with the exact texts that stand for their values. So two such filters with one
line have all of these in common. Every separator in the line stands behind a
backslash that escapes it. -/
theorem decode_line {s : Spec Float} (h : s.IsPlain) :
    decode s.line = (s.name, s.texts) ∧
      (∀ texts, List.Forall₂ (fun e text => text.1 = e.1 ∧ Shows e.2 text.2)
        s.options.entries texts ↔ texts = s.texts) ∧
      (∀ s' : Spec Float, s'.IsPlain → s'.line = s.line →
        s'.name = s.name ∧ s'.texts = s.texts) ∧
      ∀ before c after, s.line.toList = before ++ c :: after → isSeparator c = true →
        endsEscaping before = true := by
  refine ⟨decode_of_plain h, fun _ => shows_texts_iff, fun s' h' hline => ?_, ?_⟩
  · have hdecode := decode_of_plain h'
    rw [hline, decode_of_plain h] at hdecode
    exact ⟨(congrArg Prod.fst hdecode).symm, (congrArg Prod.snd hdecode).symm⟩
  · have hname := guarded_escape s.name.toList
      (guarded_optionsText h.entries (.inl rfl) : Guarded false (optionsText '=' s.options.entries))
    rw [escape_of_plain h.1, ← toList_line] at hname
    exact hname

/-- A filter with every kind of value, whose texts hold every special character,
and a backslash at the end. -/
def awkward : Spec Float :=
  ⟨"draw", Table.ofList
    [("x", .str "if(lt(t,0),'a:b',[1];c=d)"), ("tail", .str "c:\\"), ("size", .num 1.5),
      ("count", .int (-2)), ("none", .str ""), ("absent", .null), ("on", .bool true),
      ("off", .bool false),
      ("list", .arr [.int (-12), .num 0.1, .num 1e16, .num 1.5e-7, .str "a,\"\n", .arr []]),
      ("box", .obj [("k", .null), ("m:n", .obj [("p", .num 2.0), ("q", .bool true)])])]⟩

/-- The texts of its values. -/
def awkwardTexts : List (String × String) :=
  [("absent", "null"), ("box", "\x7b\"k\":null,\"m:n\":\x7b\"p\":2.0,\"q\":true\x7d\x7d"),
    ("count", "-2"), ("list", "[-12,0.1,1e+16,1.5e-7,\"a,\\\"\\n\",[]]"), ("none", ""),
    ("off", "false"), ("on", "true"), ("size", "1.5"), ("tail", "c:\\"),
    ("x", "if(lt(t,0),'a:b',[1];c=d)")]

theorem decode_line_awkward :
    awkward.IsPlain ∧ decode awkward.line = ("draw", awkwardTexts) := by
  have hplain : awkward.IsPlain := by decide +kernel
  have htexts : awkward.texts = awkwardTexts := by decide +kernel
  refine ⟨hplain, ?_⟩
  rw [(decode_line hplain).1, htexts]
  rfl

end Tween.Spec
