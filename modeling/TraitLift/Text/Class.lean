import TraitLift.Text.Letter
import TraitLift.Text.Number
import TraitLift.Text.Identifier

/-!
Character classes over all of Unicode.

A *word* character is a letter, a numeric character or the underscore; a *digit* is a decimal digit
of any script; a *blank* is white space or one of the four information separators. Identifiers
have classes of their own: not every word character may start one, and some marks that are no word
characters may continue one.
-/

namespace TraitLift.Text

/-- Membership of `n` in a list of sorted, disjoint, inclusive ranges. -/
def inRanges (n : Nat) : List (Nat × Nat) → Bool
  | [] => false
  | (lo, hi) :: rest => if n < lo then false else if n ≤ hi then true else inRanges n rest

/-- Letters of every script. -/
def isLetter (c : Char) : Bool := inRanges c.toNat letterRanges

/-- Decimal digits of every script. -/
def isDigit (c : Char) : Bool := inRanges c.toNat decimalRanges

/-- Word characters: letters, numeric characters and the underscore. -/
def isWord (c : Char) : Bool :=
  c == '_' || isLetter c || isDigit c || inRanges c.toNat otherNumberRanges

/-- A word character that can open a name: any but a decimal digit. -/
def isWordStart (c : Char) : Bool := isWord c && !isDigit c

/-- White space and the information separators. -/
def isBlank (c : Char) : Bool :=
  inRanges c.toNat [(0x9, 0xD), (0x1C, 0x20), (0x85, 0x85), (0xA0, 0xA0), (0x1680, 0x1680),
    (0x2000, 0x200A), (0x2028, 0x2029), (0x202F, 0x202F), (0x205F, 0x205F), (0x3000, 0x3000)]

/-- Characters that may start an identifier. -/
def isIdentStart (c : Char) : Bool :=
  c == '_' || (isLetter c && !inRanges c.toNat startlessLetterRanges)
    || inRanges c.toNat extraStartRanges

/-- Characters that may follow the first one of an identifier. -/
def isIdentContinue (c : Char) : Bool :=
  isIdentStart c || isDigit c || inRanges c.toNat continueRanges

/-- A non-empty text of identifier characters. -/
def isIdentifier : List Char → Bool
  | [] => false
  | c :: cs => isIdentStart c && cs.all isIdentContinue

/-- `cs` without the blanks at its two ends. -/
def strip (cs : List Char) : List Char :=
  ((cs.dropWhile isBlank).reverse.dropWhile isBlank).reverse

/-- The maximal blank-free runs of a text, in order; `run` is the open one, reversed. -/
def wordsFrom (run : List Char) : List Char → List (List Char)
  | [] => if run.isEmpty then [] else [run.reverse]
  | c :: cs =>
    if isBlank c then
      if run.isEmpty then wordsFrom [] cs else run.reverse :: wordsFrom [] cs
    else wordsFrom (c :: run) cs

/-- The maximal blank-free runs of a text, in order. -/
def words (cs : List Char) : List (List Char) := wordsFrom [] cs

end TraitLift.Text
