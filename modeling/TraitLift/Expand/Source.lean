import TraitLift.Expand.Site
import TraitLift.Lift.Expansion
import TraitLift.Parse

/-!
Expanding a source text. Every marked block is read without its mark and replaced by its trait and
implementation; all text between blocks stays as it is. A block that fails stays, too, and is
reported at its place in the text, while the others are still expanded.
-/

namespace TraitLift

/-- The part of a text between two offsets. -/
def between (source : List Char) (start stop : Nat) : List Char :=
  (source.drop start).take (stop - start)

/-- A text of the same shape with nothing in it: blanks for all but the line ends. -/
def blankOut (cs : List Char) : List Char := cs.map fun c => if c = '\n' then '\n' else ' '

namespace Failure

/-- The failure as a report without a file. -/
def toDiagnostic : Failure → Diagnostic
  | fault f => f.toDiagnostic none
  | misplaced m => { message := m.message }

end Failure

namespace Site

/-- The text of a marked block, with its mark blanked out. -/
def fragment (s : Site) (source : List Char) : List Char :=
  between source s.first.start s.mark.first.start
    ++ blankOut (between source s.mark.first.start s.mark.last.stop)
    ++ between source s.mark.last.stop s.last.stop

/-- The arguments of the mark; a fault in them is reported at its place in the text, or right after
the bracket that opens them. -/
def args (s : Site) (file : Option String) : Except Diagnostic ExtArgs :=
  match s.mark.args with
  | none => .ok {}
  | some a =>
    (parseArgs a.text).mapError fun f =>
      (f.toDiagnostic none).rebase a.opener.loc.line (a.opener.loc.column + 1) file

/-- The block without its mark. -/
def block (s : Site) (source : List Char) : Result ImplBlock :=
  ofFault (parseBlock (String.ofList (s.fragment source)))

/-- The trait and implementation made of a marked block, and their text; a fault is reported at its
place in the text, or at the start of the block. -/
def expand (s : Site) (source : List Char) (file : Option String) (c : Config) :
    Except Diagnostic (Expansion × String) := do
  let args ← s.args file
  let made : Result (Expansion × String) := do
    let e ← (← s.block source).expand args c
    return (e, ← ofMisplaced e.render)
  made.mapError fun f => f.toDiagnostic.rebase s.first.loc.line s.first.loc.column file

end Site

/-- A marked block that was expanded: what was made of it, and the text of that. -/
structure Made where
  site : Site
  expansion : Expansion
  text : String

/-- The report on a made-up or repeated name: `first` had it before `later`. -/
def collision (first later : Made) (file : Option String) : Diagnostic :=
  { message := "derived trait name `" ++ later.expansion.name.ident ++
      "` is used by more than one ext impl"
    code := some "W-EXT-NAME-COLLISION"
    phase := some "expand"
    severity := .warning
    span := (Span.ofLoc later.site.first.loc).withFile file
    notes := ["first used by the impl at line " ++ toString first.site.first.loc.line,
      "supply an explicit name with `#[ext(Name)]`"] }

/-- Reports on names that several blocks have, if one of the two is made from a fingerprint. Every
later block is compared with the first one of its name; `seen` holds those. -/
def collisions (file : Option String) (seen : List Made) : List Made → List Diagnostic
  | [] => []
  | m :: ms =>
    match seen.find? fun p => p.expansion.name.ident == m.expansion.name.ident with
    | none => collisions file (seen ++ [m]) ms
    | some first =>
      if m.expansion.name.derived || first.expansion.name.derived then
        collision first m file :: collisions file seen ms
      else collisions file seen ms

/-- The text from offset `cursor` on with the expanded blocks replaced. -/
def splice (source : List Char) (cursor : Nat) : List Made → List Char
  | [] => source.drop cursor
  | m :: ms =>
    between source cursor m.site.first.start ++ m.text.toList
      ++ splice source m.site.last.stop ms

/-- What expanding a text gives: the new text, the reports and what was made, in order. -/
structure Expanded where
  text : String
  diagnostics : List Diagnostic
  expansions : List Expansion

namespace Expanded

/-- Whether there was no error. -/
def isOk (e : Expanded) : Bool := !hasErrors e.diagnostics

end Expanded

/-- The marked blocks of a text. -/
def sitesOf (source : List Char) (c : Config) (ts : List Token) : List Site :=
  (findings source c ts).filterMap Finding.site?

/-- Expands every marked block of a text. A text that cannot be cut into tokens stays as it is.
Reports on marks come first, then those on blocks, then those on names. -/
def expandSource (source : String) (file : Option String) (c : Config) : Expanded :=
  match lex source with
  | .error f => ⟨source, [f.toDiagnostic file], []⟩
  | .ok ts =>
    let cs := source.toList
    let found := findings cs c ts
    let tried := (found.filterMap Finding.site?).map fun s => (s, s.expand cs file c)
    let made := tried.filterMap fun (s, r) => r.toOption.map fun (e, text) => Made.mk s e text
    let failed := tried.filterMap fun (_, r) => match r with
      | .error d => some d
      | .ok _ => none
    ⟨String.ofList (splice cs 0 made),
      found.filterMap (Finding.diagnostic? file) ++ failed ++ collisions file [] made,
      made.map Made.expansion⟩

end TraitLift
