import TraitLift.Loc

/-!
Spans of source text as reports give them: a file and two places, each part of which may be
unknown. A span found in a fragment of a file is moved to the file by `shifted`.
-/

namespace TraitLift

/-- A range of source text, as far as it is known. -/
structure Span where
  file : Option String := none
  line : Option Int := none
  column : Option Int := none
  endLine : Option Int := none
  endColumn : Option Int := none
deriving DecidableEq, Repr, Inhabited

namespace Span

/-- The span that starts at a known place. -/
def ofLoc (l : Loc) : Span := { line := some l.line, column := some l.column }

/-- The span that starts at a place, if there is one. -/
def ofLoc? : Option Loc → Span
  | some l => ofLoc l
  | none => {}

/-- The same range in another file. -/
def withFile (s : Span) (file : Option String) : Span := { s with file }

/-- The range in a text that has `lines` lines before the fragment, and `columns` columns before it
on the fragment's first line. A span without a line stays as it is. -/
def shifted (s : Span) (lines : Int) (columns : Int) : Span :=
  match s.line with
  | none => s
  | some line =>
    { s with
      line := some (line + lines)
      column := if line = 1 then s.column.map (· + columns) else s.column
      endLine := s.endLine.map (· + lines) }

/-- A number, or a question mark where it is unknown. -/
def part : Option Int → String
  | some n => toString n
  | none => "?"

/-- Line and column with a colon between them. -/
def short (s : Span) : String := part s.line ++ ":" ++ part s.column

end Span

end TraitLift
