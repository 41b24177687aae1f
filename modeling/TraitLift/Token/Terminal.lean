import TraitLift.Text.Class
import TraitLift.Token

/-!
The lexemes of Rust source text. Each terminal is a function from a text to the length of the
lexeme that the text starts with, if it starts with one. `Terminal.all` lists the terminals in the
order in which they are tried; the first that matches decides, not the longest.
-/

namespace TraitLift.Terminal

open TraitLift.Text

/-- Length of the longest start of `cs` whose characters all satisfy `p`. -/
def run (p : Char → Bool) (cs : List Char) : Nat := (cs.takeWhile p).length

/-- Length of `cs` up to and including the first occurrence of `stop`. -/
def upTo (stop : List Char) : List Char → Option Nat
  | [] => none
  | c :: cs => if stop.isPrefixOf (c :: cs) then some stop.length else (upTo stop cs).map (· + 1)

/-- Matches the text `w` itself. -/
def exactly (w : List Char) (cs : List Char) : Option Nat :=
  if w.isPrefixOf cs then some w.length else none

/-! ### Comments and doc comments -/

/-- `/** … */`, unless a third `*` or a `/` follows the opener. -/
def outerBlockDoc : List Char → Option Nat
  | '/' :: '*' :: '*' :: c :: cs =>
    if c = '*' || c = '/' then none else (upTo ['*', '/'] (c :: cs)).map (· + 3)
  | _ => none

/-- `/*! … */`. -/
def innerBlockDoc : List Char → Option Nat
  | '/' :: '*' :: '!' :: cs => (upTo ['*', '/'] cs).map (· + 3)
  | _ => none

/-- `/// …` to the end of the line, unless a fourth `/` follows. -/
def outerDoc : List Char → Option Nat
  | '/' :: '/' :: '/' :: cs =>
    if cs.head? = some '/' then none else some (run (· ≠ '\n') cs + 3)
  | _ => none

/-- `//! …` to the end of the line. -/
def innerDoc : List Char → Option Nat
  | '/' :: '/' :: '!' :: cs => some (run (· ≠ '\n') cs + 3)
  | _ => none

/-- `/* … */`; comments do not nest. -/
def blockComment : List Char → Option Nat
  | '/' :: '*' :: cs => (upTo ['*', '/'] cs).map (· + 2)
  | _ => none

/-- `// …` to the end of the line. -/
def lineComment : List Char → Option Nat
  | '/' :: '/' :: cs => some (run (· ≠ '\n') cs + 2)
  | _ => none

/-- A run of blanks. -/
def blanks (cs : List Char) : Option Nat :=
  match run isBlank cs with
  | 0 => none
  | n + 1 => some (n + 1)

/-! ### Strings and characters -/

/-- Skips the optional letter in front of a byte or C string literal. -/
def afterPrefix (m : List Char → Option Nat) : List Char → Option Nat
  | 'b' :: cs => (m cs).map (· + 1)
  | 'c' :: cs => (m cs).map (· + 1)
  | cs => m cs

/-- A raw string: `r`, up to three `#`, a quote, and everything to the quote that as many `#`
follow. -/
def rawString : List Char → Option Nat :=
  afterPrefix fun
    | 'r' :: '"' :: cs => (upTo ['"'] cs).map (· + 2)
    | 'r' :: '#' :: '"' :: cs => (upTo ['"', '#'] cs).map (· + 3)
    | 'r' :: '#' :: '#' :: '"' :: cs => (upTo ['"', '#', '#'] cs).map (· + 4)
    | 'r' :: '#' :: '#' :: '#' :: '"' :: cs => (upTo ['"', '#', '#', '#'] cs).map (· + 5)
    | _ => none

/-- The rest of a string after its opening quote: everything to the first quote that no backslash
escapes. -/
def stringTail : List Char → Option Nat
  | [] => none
  | '"' :: _ => some 1
  | '\\' :: [] => none
  | '\\' :: _ :: cs => (stringTail cs).map (· + 2)
  | _ :: cs => (stringTail cs).map (· + 1)

/-- A string with escapes. -/
def string : List Char → Option Nat :=
  afterPrefix fun
    | '"' :: cs => (stringTail cs).map (· + 1)
    | _ => none

/-- Hexadecimal digits. -/
def isHex (c : Char) : Bool :=
  ('0' ≤ c && c ≤ '9') || ('a' ≤ c && c ≤ 'f') || ('A' ≤ c && c ≤ 'F')

/-- What may follow a backslash in a character literal. -/
def charEscape : List Char → Option Nat
  | 'x' :: a :: b :: _ => if isHex a && isHex b then some 3 else none
  | 'u' :: '{' :: cs =>
    let n := run (fun c => isHex c || c = '_') cs
    if 1 ≤ n && n ≤ 6 && (cs.drop n).head? = some '}' then some (n + 3) else none
  | c :: _ => if ['n', 'r', 't', '0', '\\', '\'', '"'].contains c then some 1 else none
  | [] => none

/-- What may stand between the quotes of a character literal. -/
def charBody : List Char → Option Nat
  | '\\' :: cs => (charEscape cs).map (· + 1)
  | c :: _ => if ['\'', '\n', '\r', '\t'].contains c then none else some 1
  | [] => none

/-- A character literal after the letter that may mark it as a byte. -/
def quotedChar : List Char → Option Nat
  | '\'' :: cs =>
    match charBody cs with
    | some n => if (cs.drop n).head? = some '\'' then some (n + 2) else none
    | none => none
  | _ => none

/-- A character or byte literal. -/
def char : List Char → Option Nat
  | 'b' :: cs => (quotedChar cs).map (· + 1)
  | cs => quotedChar cs

/-! ### Numbers and words -/

/-- A word: a word character that is no digit, and the word characters after it. -/
def word : List Char → Option Nat
  | c :: cs => if isWordStart c then some (run isWord cs + 1) else none
  | [] => none

/-- A word, or one behind the mark `r#`. -/
def markedWord : List Char → Option Nat
  | 'r' :: '#' :: cs =>
    match word cs with
    | some n => some (n + 2)
    | none => word ('r' :: '#' :: cs)
  | cs => word cs

/-- A lifetime: a quote and a word. -/
def lifetime : List Char → Option Nat
  | '\'' :: cs => (markedWord cs).map (· + 1)
  | _ => none

/-- Decimal digits of the Latin script. -/
def isLatinDigit (c : Char) : Bool := '0' ≤ c && c ≤ '9'

/-- Decimal digits and the separator. -/
def isDigitOrBar (c : Char) : Bool := isLatinDigit c || c = '_'

/-- Digits of base two, eight or sixteen behind their mark. -/
def radixNumber : List Char → Option Nat
  | '0' :: 'x' :: cs => digits (fun c => isHex c || c = '_') cs
  | '0' :: 'o' :: cs => digits (fun c => ('0' ≤ c && c ≤ '7') || c = '_') cs
  | '0' :: 'b' :: cs => digits (fun c => c = '0' || c = '1' || c = '_') cs
  | _ => none
where
  /-- At least one digit, behind the two characters of the mark. -/
  digits (p : Char → Bool) (cs : List Char) : Option Nat :=
    match run p cs with
    | 0 => none
    | n + 1 => some (n + 3)

/-- A digit and the digits and separators after it. -/
def decimalDigits : List Char → Option Nat
  | c :: cs => if isLatinDigit c then some (run isDigitOrBar cs + 1) else none
  | [] => none

/-- Length of the fraction that `cs` starts with, 0 if it starts with none. -/
def fraction : List Char → Nat
  | '.' :: cs => ((decimalDigits cs).map (· + 1)).getD 0
  | _ => 0

/-- Length of the exponent that `cs` starts with, 0 if it starts with none. -/
def exponent : List Char → Nat
  | e :: cs =>
    if e = 'e' || e = 'E' then
      let sign := if cs.head? = some '+' || cs.head? = some '-' then 1 else 0
      match run isDigitOrBar (cs.drop sign) with
      | 0 => 0
      | n + 1 => n + sign + 2
    else 0
  | [] => 0

/-- A number of base ten. -/
def decimalNumber (cs : List Char) : Option Nat :=
  (decimalDigits cs).map fun n =>
    let m := n + fraction (cs.drop n)
    m + exponent (cs.drop m)

/-- A number with its suffix. -/
def number (cs : List Char) : Option Nat :=
  (radixNumber cs <|> decimalNumber cs).map fun n => n + (word (cs.drop n)).getD 0

/-! ### The order of trial -/

/-- Punctuation that has no kind of its own. -/
def otherPunct : List Char → Option Nat
  | c :: _ => if ['/', '%', '^', '|', '@', '$', '~', '\\'].contains c then some 1 else none
  | [] => none

/-- What a lexeme becomes: nothing, a token of a fixed kind, or a word, which may be a keyword. -/
inductive Outcome where
  | skip
  | token (k : Kind)
  | word
deriving DecidableEq, Repr

/-- The terminals in the order in which they are tried. -/
def all : List (Outcome × (List Char → Option Nat)) :=
  [(.token .outerBlockDoc, outerBlockDoc), (.token .innerBlockDoc, innerBlockDoc),
   (.token .outerDoc, outerDoc), (.token .innerDoc, innerDoc),
   (.token .rawString, rawString), (.token .string, string), (.token .char, char),
   (.token .number, number), (.token .lifetime, lifetime), (.word, markedWord),
   (.skip, blockComment), (.skip, lineComment), (.skip, blanks),
   (.token .ellipsis, exactly ['.', '.', '.']),
   (.token .arrow, exactly ['-', '>']), (.token .dcolon, exactly [':', ':']),
   (.token .fatArrow, exactly ['=', '>']),
   (.token .otherPunct, otherPunct),
   (.token .lpar, exactly ['(']), (.token .rpar, exactly [')']),
   (.token .lsqb, exactly ['[']), (.token .rsqb, exactly [']']),
   (.token .lbrace, exactly ['{']), (.token .rbrace, exactly ['}']),
   (.token .colon, exactly [':']), (.token .semi, exactly [';']), (.token .comma, exactly [',']),
   (.token .dot, exactly ['.']), (.token .equal, exactly ['=']), (.token .plus, exactly ['+']),
   (.token .minus, exactly ['-']), (.token .star, exactly ['*']), (.token .amp, exactly ['&']),
   (.token .bang, exactly ['!']), (.token .qmark, exactly ['?']), (.token .pound, exactly ['#']),
   (.token .lt, exactly ['<']), (.token .gt, exactly ['>'])]

/-- The lexeme that `cs` starts with: what it becomes, and its length. -/
def first? (cs : List Char) : Option (Outcome × Nat) :=
  all.findSome? fun (o, m) => (m cs).map (o, ·)

end TraitLift.Terminal
