/-
Lower case, as names are compared. Descriptor words fold ASCII letters alone;
ease names fold every letter whose lower-case form holds an ASCII letter, which
is what a comparison with names written in ASCII can observe.
-/
namespace Tween.Text

/-- A text with its ASCII capitals in lower case. -/
def lowerAscii (s : String) : String := s.map Char.toLower

/-- The lower-case form of a character, as far as it matters beside ASCII
names: beyond the ASCII capitals, the Kelvin sign is a `k`, and a capital I
with a dot above is an `i` followed by a combining dot. Any other character
has a lower-case form without ASCII letters and is left as it is. -/
def lowerForm (c : Char) : List Char :=
  if c = Char.ofNat 0x212A then ['k']
  else if c = Char.ofNat 0x130 then ['i', Char.ofNat 0x307]
  else [c.toLower]

end Tween.Text
