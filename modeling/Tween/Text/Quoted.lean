/-
Texts in quotes, in two forms: as data, where only the quote, the backslash
and controls are escaped, and as shown in a message, where every character
without a visible form of its own is spelt out by its number.
-/
import Tween.Text.Hidden

namespace Tween.Text

/-- The digits of a number in base sixteen, in lower case. -/
def hexDigits (n : Nat) : List Char := Nat.toDigits 16 n

/-- A character inside quoted data: a control without a short escape takes
four digits of base sixteen. -/
def dataChar (c : Char) : List Char :=
  if c = '"' then ['\\', '"']
  else if c = '\\' then ['\\', '\\']
  else if c = '\n' then ['\\', 'n']
  else if c = '\r' then ['\\', 'r']
  else if c = '\t' then ['\\', 't']
  else if c.toNat = 0x08 then ['\\', 'b']
  else if c.toNat = 0x0C then ['\\', 'f']
  else if c.toNat < 0x20 then
    let ds := hexDigits c.toNat
    '\\' :: 'u' :: (List.replicate (4 - ds.length) '0' ++ ds)
  else [c]

/-- A text as quoted data. -/
def quotedData (s : String) : String :=
  String.ofList ('"' :: (s.toList.flatMap dataChar ++ ['"']))

/-- A character inside a text shown in a message. -/
def shownChar (c : Char) : List Char :=
  if c = '"' then ['\\', '"']
  else if c = '\\' then ['\\', '\\']
  else if c = '\n' then ['\\', 'n']
  else if c = '\r' then ['\\', 'r']
  else if c = '\t' then ['\\', 't']
  else if c.toNat = 0 then ['\\', '0']
  else if isHidden c then '\\' :: 'u' :: '\x7b' :: (hexDigits c.toNat ++ ['\x7d'])
  else [c]

/-- A text as shown in a message. -/
def shown (s : String) : String :=
  String.ofList ('"' :: (s.toList.flatMap shownChar ++ ['"']))

end Tween.Text
