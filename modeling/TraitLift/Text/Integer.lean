import TraitLift.Text.Class

/-!
Reading integers: blanks around, an optional sign, and decimal digits of any script with single
underscores between them.
-/

namespace TraitLift.Text

/-- The value of a decimal digit: scripts have their ten digits in a row. -/
def digitValue? (c : Char) : Option Nat :=
  decimalRanges.findSome? fun (lo, hi) =>
    if lo ≤ c.toNat && c.toNat ≤ hi then some ((c.toNat - lo) % 10) else none

/-- The digits of a number; an underscore must have a digit on either side. -/
def digits? : List Char → Option (List Nat)
  | [] => none
  | [c] => (digitValue? c).map ([·])
  | c :: '_' :: cs => do
    let d ← digitValue? c
    return d :: (← digits? cs)
  | c :: cs => do
    let d ← digitValue? c
    return d :: (← digits? cs)

/-- The number with some decimal digits, the most significant first. -/
def ofDigits (ds : List Nat) : Nat := ds.foldl (fun n d => 10 * n + d) 0

/-- The longest number that is read, in digits. -/
def maxDigits : Nat := 4300

/-- Blanks that may stand around a number: all but the information separators. -/
def isPadding (c : Char) : Bool := isBlank c && !(0x1C ≤ c.toNat && c.toNat ≤ 0x1F)

/-- Reads an integer. -/
def integer? (s : String) : Option Int :=
  let cs := s.toList
  let core := ((cs.dropWhile isPadding).reverse.dropWhile isPadding).reverse
  let magnitude (cs : List Char) : Option Nat :=
    (digits? cs).bind fun ds => if maxDigits < ds.length then none else some (ofDigits ds)
  match core with
  | '-' :: cs => (magnitude cs).map fun n => -(n : Int)
  | '+' :: cs => (magnitude cs).map fun n => (n : Int)
  | cs => (magnitude cs).map fun n => (n : Int)

end TraitLift.Text
