import TraitLift.Span

/-!
Reports on source text. A diagnostic says what is wrong, how bad it is and where, and carries notes
for the reader.
-/

namespace TraitLift

/-- How bad a report is. Only errors count as failures. -/
inductive Severity where
  | error
  | warning
  | other (label : String)
deriving DecidableEq, Repr

namespace Severity

/-- The word for the severity. -/
def label : Severity → String
  | error => "error"
  | warning => "warning"
  | other l => l

end Severity

/-- A report on some source text. -/
structure Diagnostic where
  message : String
  code : Option String := none
  phase : Option String := none
  severity : Severity := .error
  span : Span := {}
  notes : List String := []
deriving DecidableEq, Repr

/-- The first of two file names that is given and not empty; failing that, the second as given. -/
def orElseFile (file source : Option String) : Option String :=
  match file with
  | some f => if f = "" then source else some f
  | none => source

namespace Diagnostic

/-- Whether the report is an error. -/
def isError (d : Diagnostic) : Bool := d.severity == .error

/-- The file the report is about, as far as it or `source` says. -/
def file (d : Diagnostic) (source : Option String) : Option String := orElseFile d.span.file source

/-- The report as text: a line with place, severity, message and code, and a line per note. -/
def format (d : Diagnostic) (source : Option String) : String :=
  let file := (orElseFile (d.file source) (some "<input>")).getD ""
  let code := match d.code with
    | some c => if c = "" then "" else " [" ++ c ++ "]"
    | none => ""
  let head := file ++ ":" ++ d.span.short ++ ": " ++ d.severity.label ++ ": " ++ d.message ++ code
  "\n".intercalate (head :: d.notes.map ("  note: " ++ ·))

/-- Moves a report on a fragment that starts at `line` and `column` of a file to that file. A
report without a line is about the fragment as a whole, so it takes the fragment's own place. -/
def rebase (d : Diagnostic) (line column : Int) (file : Option String) : Diagnostic :=
  let span : Span := match d.span.line with
    | none => { line := some line, column := some column }
    | some _ => d.span.shifted (line - 1) (column - 1)
  { d with span := span.withFile file }

end Diagnostic

/-- Whether some report is an error. -/
def hasErrors (ds : List Diagnostic) : Bool := ds.any Diagnostic.isError

end TraitLift
