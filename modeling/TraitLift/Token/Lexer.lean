import TraitLift.Token.Terminal
import TraitLift.Fault

/-!
Cutting a text into tokens. `scan` takes lexemes off the front of a text until it is used up or no
terminal matches, and keeps those that are tokens, each with its range and its places.
-/

namespace TraitLift

/-- What scanning a text gives: its tokens, and the first character where no lexeme starts. -/
structure Scan where
  tokens : List Token
  stuck : Option (Char × Loc)
deriving DecidableEq, Repr

namespace Scan

/-- Whether the whole text was cut into lexemes. -/
def isComplete (s : Scan) : Bool := s.stuck.isNone

/-- Puts a token in front. -/
def push (t : Token) (s : Scan) : Scan := { s with tokens := t :: s.tokens }

end Scan

/-- The token that a lexeme becomes, if it becomes one. -/
def Terminal.Outcome.token? (o : Terminal.Outcome) (cs : List Char) (start : Nat) (loc : Loc) :
    Option Token :=
  let make (k : Kind) : Token :=
    ⟨k, String.ofList cs, start, start + cs.length, loc, loc.after cs⟩
  match o with
  | .skip => none
  | .token k => some (make k)
  | .word => some (make (Kind.ofWord (String.ofList cs)))

/-- Scans `cs`, which stands at offset `start` and place `loc` of a larger text. -/
def scanFrom (start : Nat) (loc : Loc) (cs : List Char) : Scan :=
  match cs with
  | [] => ⟨[], none⟩
  | c :: rest =>
    match Terminal.first? (c :: rest) with
    | some (o, n + 1) =>
      let lexeme := (c :: rest).take (n + 1)
      let tail := scanFrom (start + lexeme.length) (loc.after lexeme) (rest.drop n)
      match o.token? lexeme start loc with
      | some t => tail.push t
      | none => tail
    | _ => ⟨[], some (c, loc)⟩
termination_by cs.length
decreasing_by simp only [List.length_drop, List.length_cons]; omega

/-- Scans a whole text. -/
def scan (source : List Char) : Scan := scanFrom 0 Loc.origin source

/-- The tokens of a text that can be cut into lexemes to its end. -/
def lex (source : String) : Except Fault (List Token) :=
  match scan source.toList with
  | ⟨ts, none⟩ => .ok ts
  | ⟨_, some (c, loc)⟩ => .error (.unexpectedChar c .tokens loc)

/-- The texts of the tokens with single blanks between them: the part of a text that layout and
plain comments do not touch. -/
def tokenText (source : String) : Except Fault String :=
  (lex source).map fun ts => " ".intercalate (ts.map Token.text)

end TraitLift
