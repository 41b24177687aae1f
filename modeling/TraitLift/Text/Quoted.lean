import TraitLift.Text.Class
import TraitLift.Text.Sign

/-!
Texts in quotation marks, for messages: characters that cannot be seen are written as escapes, and
the marks are single unless that would need an escape that double ones do not need.
-/

namespace TraitLift.Text

/-- Characters that show: word characters, marks, punctuation, symbols and the plain blank. -/
def isPrintable (c : Char) : Bool := isWord c || inRanges c.toNat signRanges

/-- The last hexadecimal digits of a number, as many as the width asks for. -/
def hex : Nat → Nat → List Char
  | 0, _ => []
  | width + 1, n => hex width (n / 16) ++ [Nat.digitChar (n % 16)]

/-- A character between quotation marks `mark`. -/
def quotedChar (mark c : Char) : List Char :=
  if c = mark || c = '\\' then ['\\', c]
  else if c = '\n' then ['\\', 'n']
  else if c = '\r' then ['\\', 'r']
  else if c = '\t' then ['\\', 't']
  else if isPrintable c then [c]
  else if c.toNat < 0x100 then '\\' :: 'x' :: hex 2 c.toNat
  else if c.toNat < 0x10000 then '\\' :: 'u' :: hex 4 c.toNat
  else '\\' :: 'U' :: hex 8 c.toNat

/-- A text between quotation marks. -/
def quoted (s : String) : String :=
  let cs := s.toList
  let mark := if cs.contains '\'' && !cs.contains '"' then '"' else '\''
  String.ofList (mark :: cs.flatMap (quotedChar mark) ++ [mark])

end TraitLift.Text
