/-
The compact text of data, told by what stands in it. `Json.Prints` relates a
value to its text token by token, with the words, brackets and escapes written
out; the text the library writes is the only one it allows (`Json.prints_iff`).
-/
import Tween.Json.Text
import Tween.Proofs.Fallible

namespace Tween

/-! ## Quoted texts -/

namespace Text

/-- The characters with an escape of their own, and the letter of the escape. -/
def shortEscapes : List (Char × Char) :=
  [('"', '"'), ('\\', '\\'), ('\n', 'n'), ('\r', 'r'), ('\t', 't'), (Char.ofNat 0x08, 'b'),
    (Char.ofNat 0x0C, 'f')]

/-- What stands for a character between quotes. Other controls are escaped by
their number, and no other character is. -/
inductive Spells : Char → List Char → Prop where
  | short {c e : Char} (h : (c, e) ∈ shortEscapes) : Spells c ['\\', e]
  | control {c : Char} (h : c.toNat < 0x20) (hshort : ∀ e, (c, e) ∉ shortEscapes) :
      Spells c ['\\', 'u', '0', '0', Nat.digitChar (c.toNat / 16), Nat.digitChar (c.toNat % 16)]
  | plain {c : Char} (h : 0x20 ≤ c.toNat) (hshort : ∀ e, (c, e) ∉ shortEscapes) : Spells c [c]

/-- A text in quotes. -/
inductive Quotes : String → String → Prop where
  | mk {s : String} {parts : List (List Char)} (h : List.Forall₂ Spells s.toList parts) :
      Quotes s (String.ofList ('"' :: (parts.flatten ++ ['"'])))

theorem shortEscapes_unique {c e e' : Char} (h : (c, e) ∈ shortEscapes)
    (h' : (c, e') ∈ shortEscapes) : e = e' := by
  have hall : ∀ p ∈ shortEscapes, ∀ q ∈ shortEscapes, p.1 = q.1 → p.2 = q.2 := by decide
  exact hall _ h _ h' rfl

theorem Spells.unique {c : Char} {cs ds : List Char} (h : Spells c cs) (h' : Spells c ds) :
    cs = ds := by
  cases h with
  | short h =>
    cases h' with
    | short h' => rw [shortEscapes_unique h h']
    | control _ hshort => exact absurd h (hshort _)
    | plain _ hshort => exact absurd h (hshort _)
  | control hlt hshort =>
    cases h' with
    | short h' => exact absurd h' (hshort _)
    | control => rfl
    | plain hle => omega
  | plain hle hshort =>
    cases h' with
    | short h' => exact absurd h' (hshort _)
    | control hlt => omega
    | plain => rfl

theorem hexDigits_control : ∀ n < 0x20,
    List.replicate (4 - (hexDigits n).length) '0' ++ hexDigits n =
      ['0', '0', Nat.digitChar (n / 16), Nat.digitChar (n % 16)] := by
  decide

theorem spells_dataChar (c : Char) : Spells c (dataChar c) := by
  by_cases h : ∃ e, (c, e) ∈ shortEscapes
  · obtain ⟨e, he⟩ := h
    have hall : ∀ p ∈ shortEscapes, dataChar p.1 = ['\\', p.2] := by decide
    rw [hall _ he]
    exact .short he
  · have hshort : ∀ e, (c, e) ∉ shortEscapes := fun e he => h ⟨e, he⟩
    have hne : ∀ p ∈ shortEscapes, c ≠ p.1 := by
      rintro ⟨d, e⟩ hp rfl
      exact hshort e hp
    have hnumber (n : Nat) (hn : ∃ e, (Char.ofNat n, e) ∈ shortEscapes) : c.toNat ≠ n := by
      rintro rfl
      obtain ⟨e, he⟩ := hn
      rw [Char.ofNat_toNat] at he
      exact hshort e he
    have hdata : dataChar c = if c.toNat < 0x20 then
        '\\' :: 'u' :: (List.replicate (4 - (hexDigits c.toNat).length) '0' ++ hexDigits c.toNat)
        else [c] := by
      unfold dataChar
      rw [if_neg (hne ('"', '"') (by decide)), if_neg (hne ('\\', '\\') (by decide)),
        if_neg (hne ('\n', 'n') (by decide)), if_neg (hne ('\r', 'r') (by decide)),
        if_neg (hne ('\t', 't') (by decide)), if_neg (hnumber 0x08 ⟨'b', by decide⟩),
        if_neg (hnumber 0x0C ⟨'f', by decide⟩)]
    rw [hdata]
    split
    · rename_i hlt
      rw [hexDigits_control _ hlt]
      exact .control hlt hshort
    · rename_i hle
      exact .plain (Nat.not_lt.1 hle) hshort

theorem spells_iff (c : Char) (cs : List Char) : Spells c cs ↔ cs = dataChar c :=
  ⟨fun h => h.unique (spells_dataChar c), fun h => h ▸ spells_dataChar c⟩

/-- Quoted data is the only text in quotes. -/
theorem quotes_iff {s text : String} : Quotes s text ↔ text = quotedData s := by
  have hparts {parts : List (List Char)} :
      List.Forall₂ Spells s.toList parts ↔ parts = s.toList.map dataChar :=
    forall₂_iff_eq_map spells_iff
  unfold quotedData
  rw [List.flatMap_def]
  constructor
  · rintro ⟨h⟩
    rw [hparts.1 h]
  · rintro rfl
    exact .mk (hparts.2 rfl)

end Text

/-! ## Values -/

namespace Json

mutual

/-- The compact text of a value: no space between its tokens, and the fields of
an object in order. -/
inductive Prints : Json Float → String → Prop where
  | null : Prints .null "null"
  | isTrue : Prints (.bool true) "true"
  | isFalse : Prints (.bool false) "false"
  | int (i : Int) : Prints (.int i) (toString i)
  | num (x : Float) : Prints (.num x) (Layout.literal.write x)
  | str {s text : String} (h : Text.Quotes s text) : Prints (.str s) text
  | arr {items : List (Json Float)} {texts : List String} (h : List.Forall₂ Prints items texts) :
      Prints (.arr items) ("[" ++ ",".intercalate texts ++ "]")
  | obj {fields : List (String × Json Float)} {texts : List String}
      (h : List.Forall₂ PrintsField fields texts) :
      Prints (.obj fields) ("\x7b" ++ ",".intercalate texts ++ "\x7d")

/-- The text of a field: its name in quotes, a colon, and its value. -/
inductive PrintsField : String × Json Float → String → Prop where
  | mk {key name text : String} {v : Json Float} (hkey : Text.Quotes key name)
      (h : Prints v text) : PrintsField (key, v) (name ++ ":" ++ text)

end

theorem commaJoined_eq (texts : List String) : commaJoined texts = ",".intercalate texts := by
  induction texts with
  | nil => rfl
  | cons s texts ih =>
    cases texts with
    | nil => exact String.intercalate_singleton.symm
    | cons t texts =>
      rw [String.intercalate_cons_cons, ← ih]
      rfl

theorem toString_int (i : Int) :
    toString i = String.ofList (sign (decide (i < 0)) ++ digits i.natAbs) := by
  cases i with
  | ofNat n =>
    have hsign : decide (Int.ofNat n < 0) = false := by simp
    rw [hsign]
    rfl
  | negSucc n =>
    have hsign : decide (Int.negSucc n < 0) = true := by simp [Int.negSucc_lt_zero]
    rw [hsign]
    show "-" ++ String.ofList (digits (n + 1)) = _
    rw [← String.ofList_append]
    rfl

mutual

/-- **Compact text is determined.** A value has one compact text, the one that
is written. -/
theorem prints_iff (v : Json Float) (text : String) : v.Prints text ↔ text = v.compact := by
  cases v with
  | null => exact ⟨fun | .null => rfl, fun h => h ▸ .null⟩
  | bool b =>
    cases b with
    | true => exact ⟨fun | .isTrue => rfl, fun h => h ▸ .isTrue⟩
    | false => exact ⟨fun | .isFalse => rfl, fun h => h ▸ .isFalse⟩
  | int i =>
    rw [compact, ← toString_int]
    exact ⟨fun | .int _ => rfl, fun h => h ▸ .int i⟩
  | num x => exact ⟨fun | .num _ => rfl, fun h => h ▸ .num x⟩
  | str s =>
    rw [compact, ← Text.quotes_iff]
    exact ⟨fun | .str h => h, .str⟩
  | arr items =>
    rw [compact, commaJoined_eq]
    constructor
    · intro h
      cases h with
      | arr hitems => rw [(printsItems_iff items _).1 hitems]
    · rintro rfl
      exact .arr ((printsItems_iff items _).2 rfl)
  | obj fields =>
    rw [compact, commaJoined_eq]
    constructor
    · intro h
      cases h with
      | obj hfields => rw [(printsFields_iff fields _).1 hfields]
    · rintro rfl
      exact .obj ((printsFields_iff fields _).2 rfl)

theorem printsItems_iff (items : List (Json Float)) (texts : List String) :
    List.Forall₂ Prints items texts ↔ texts = compactItems items := by
  cases items with
  | nil => rw [compactItems, List.forall₂_nil_left_iff]
  | cons v items =>
    rw [compactItems, List.forall₂_cons_left_iff]
    constructor
    · rintro ⟨text, rest, htext, hrest, rfl⟩
      rw [(prints_iff v text).1 htext, (printsItems_iff items rest).1 hrest]
    · rintro rfl
      exact ⟨_, _, (prints_iff v _).2 rfl, (printsItems_iff items _).2 rfl, rfl⟩

theorem printsFields_iff (fields : List (String × Json Float)) (texts : List String) :
    List.Forall₂ PrintsField fields texts ↔ texts = compactFields fields := by
  cases fields with
  | nil => rw [compactFields, List.forall₂_nil_left_iff]
  | cons field fields =>
    obtain ⟨key, v⟩ := field
    rw [compactFields, List.forall₂_cons_left_iff]
    constructor
    · rintro ⟨_, rest, ⟨hkey, htext⟩, hrest, rfl⟩
      rw [Text.quotes_iff.1 hkey, (prints_iff v _).1 htext, (printsFields_iff fields rest).1 hrest]
    · rintro rfl
      exact ⟨_, _, .mk (Text.quotes_iff.2 rfl) ((prints_iff v _).2 rfl),
        (printsFields_iff fields _).2 rfl, rfl⟩

end

end Json

end Tween
