import TraitLift.Diagnostic
import TraitLift.Text.Class

/-!
The reasons for which a text or a block is refused. A fault is a cause; its wording, its code, the
phase it belongs to, its place and its notes are functions of that cause.
-/

namespace TraitLift

/-- What a text was being read as when it was refused. -/
inductive Goal where
  | tokens
  | type
  | block
deriving DecidableEq, Repr

namespace Goal

/-- The goal in words. -/
def label : Goal → String
  | tokens => "tokens"
  | type => "type"
  | block => "implementation block"

end Goal

/-- Why a text or a block is refused. -/
inductive Fault where
  /-- A token that nothing acceptable can start with, after the tokens before it. -/
  | unexpectedToken (text : String) (goal : Goal) (loc : Loc)
  /-- The text ends where more tokens are needed. -/
  | unexpectedEnd (goal : Goal)
  /-- A character where no token starts. -/
  | unexpectedChar (c : Char) (goal : Goal) (loc : Loc)
  /-- A name other than `default` in front of a block or a member. -/
  | strayName (name : String) (loc : Loc)
  /-- A `&self` receiver that is given a type. -/
  | typedReceiver (loc : Loc)
  /-- A parameter that is not given a type. -/
  | untypedParam (pattern : String) (loc : Loc)
  /-- Attribute arguments other than a visibility and a name. -/
  | badArguments (given : String) (loc : Option Loc)
  /-- A block that implements a trait already. -/
  | implementsTrait (path : String) (loc : Option Loc)
  /-- Members with no place in a trait: what the first one is, its text, the texts of the others. -/
  | unsupported (what text : String) (others : List String) (loc : Option Loc)
deriving DecidableEq, Repr

namespace Fault

/-- Longest summary of a member's text. -/
def summaryLimit : Nat := 60

/-- A text on one line, cut short if it is too long. -/
def summary (text : String) : String :=
  let flat := [' '].intercalate (Text.words text.toList)
  if summaryLimit < flat.length then String.ofList (flat.take (summaryLimit - 3)) ++ "..."
  else String.ofList flat

/-- The reason in words. -/
def message : Fault → String
  | unexpectedToken text goal _ =>
    "unexpected token '" ++ text ++ "' while parsing " ++ goal.label
  | unexpectedEnd goal => "unexpected end of input while parsing " ++ goal.label
  | unexpectedChar c goal _ =>
    "unexpected character '" ++ String.singleton c ++ "' while parsing " ++ goal.label
  | strayName name _ => "unexpected identifier '" ++ name ++ "' before item"
  | typedReceiver _ => "reference receiver cannot carry an explicit type"
  | untypedParam pattern _ => "parameter '" ++ pattern ++ "' requires a type"
  | badArguments given _ =>
    "expected `[visibility] [Name]` in ext arguments, got `" ++ given ++ "`"
  | implementsTrait path _ =>
    "only inherent impls can become an ext trait; this block already implements `" ++ path ++ "`"
  | unsupported what text _ _ =>
    "unsupported " ++ what ++ " in ext impl: `" ++ summary text ++ "`"

/-- The code by which tools know the kind of fault. -/
def code : Fault → String
  | unexpectedToken .. | unexpectedEnd .. | unexpectedChar .. | strayName .. | typedReceiver ..
  | untypedParam .. => "E-EXT-MALFORMED"
  | badArguments .. => "E-EXT-AMBIGUOUS-ARGS"
  | implementsTrait .. => "E-EXT-ALREADY-IMPLEMENTS"
  | unsupported .. => "E-EXT-UNSUPPORTED-MEMBER"

/-- The phase of the work in which the fault is found. -/
def phase : Fault → String
  | unexpectedToken .. | unexpectedEnd .. | unexpectedChar .. | strayName .. | typedReceiver ..
  | untypedParam .. => "parser"
  | badArguments .. => "args"
  | implementsTrait .. | unsupported .. => "transform"

/-- The place of the fault, where it has one. -/
def loc? : Fault → Option Loc
  | unexpectedToken _ _ loc | unexpectedChar _ _ loc | strayName _ loc | typedReceiver loc
  | untypedParam _ loc => some loc
  | unexpectedEnd _ => none
  | badArguments _ loc | implementsTrait _ loc | unsupported _ _ _ loc => loc

/-- What the reader is told beside the message. -/
def notes : Fault → List String
  | badArguments .. =>
    ["pass at most one trait name, optionally preceded by a visibility such as `pub` or " ++
      "`pub(crate)`"]
  | implementsTrait .. => ["remove the trait from the impl header, or drop the ext attribute"]
  | unsupported _ _ others _ =>
    others.map (fun t => "also unsupported: `" ++ summary t ++ "`") ++
      ["only methods, associated constants, associated types and macro invocations can move " ++
        "into an ext trait"]
  | _ => []

/-- The fault as a report on `file`. -/
def toDiagnostic (f : Fault) (file : Option String) : Diagnostic :=
  { message := f.message, code := some f.code, phase := some f.phase,
    span := (Span.ofLoc? f.loc?).withFile file, notes := f.notes }

end Fault

end TraitLift
