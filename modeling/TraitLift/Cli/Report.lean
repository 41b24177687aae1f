import TraitLift.Cli.Arguments
import TraitLift.Cli.Disk
import TraitLift.Expand.Trace
import TraitLift.Text.Json

/-!
What the program answers once its sources are read. It is all or nothing: the new texts are given
only if there is no error in any source. Otherwise, and for warnings as well, there are reports, in
the order of the sources.
-/

namespace TraitLift.Cli

/-- A source as it was found. -/
structure Input where
  path : DiskPath
  content : Except Denial String

/-- The report on a source that cannot be read. -/
def unreadable (p : DiskPath) (d : Denial) : Diagnostic :=
  { message := "cannot read source: " ++ d.reason
    code := some "E-EXT-IO"
    phase := some "driver"
    span := { file := some p.text } }

namespace Input

/-- What expanding the source gives. -/
def expand (i : Input) (c : Config) : Expanded :=
  match i.content with
  | .ok text => expandSource text (some i.path.text) c
  | .error d => ⟨"", [unreadable i.path d], []⟩

/-- The steps of expanding the source. -/
def events (i : Input) (c : Config) : List Event :=
  let e := i.expand c
  let steps := match i.content with
    | .ok text => sourceEvents text (some i.path.text) c
    | .error _ => []
  steps ++ [.finished i.path.text e.expansions.length e.diagnostics.length]

end Input

/-- What the program answers: its exit status, what it prints, and the text of the output file if
one is to be written. -/
structure Report where
  exit : Nat
  stdout : String := ""
  stderr : String := ""
  output : Option String := none
deriving DecidableEq, Repr

/-- Lines of text, each with its end. -/
def joinLines (ls : List String) : String := String.join (ls.map (· ++ "\n"))

open Text in
/-- A report as a JSON value. -/
def diagnosticJson (path : DiskPath) (d : Diagnostic) : Json :=
  .object [
    ("phase", .ofOption .str d.phase),
    ("code", .ofOption .str d.code),
    ("message", .str d.message),
    ("severity", .str d.severity.label),
    ("file", .ofOption .str (d.file (some path.text))),
    ("line", .ofOption .int d.span.line),
    ("column", .ofOption .int d.span.column),
    ("notes", .list (d.notes.map .str))]

/-- What became of the sources, in their order. -/
abbrev Results := List (DiskPath × Expanded)

namespace Results

/-- All reports, each with the source it is about. -/
def diagnostics (rs : Results) : List (DiskPath × Diagnostic) :=
  rs.flatMap fun (p, e) => e.diagnostics.map (p, ·)

/-- Whether there is an error. -/
def failed (rs : Results) : Bool := hasErrors (rs.diagnostics.map Prod.snd)

/-- The exit status. -/
def exitCode (rs : Results) : Nat := if rs.failed then 1 else 0

/-- All new texts. -/
def texts (rs : Results) : List String := rs.map (·.2.text)

open Text in
/-- Everything as one JSON value; the new texts only if they are wanted. -/
def json (rs : Results) (withTexts : Bool) : Json :=
  .object ([
    ("exit_code", Json.int rs.exitCode),
    ("diagnostics", .list (rs.diagnostics.map fun (p, d) => diagnosticJson p d))] ++
    if withTexts then
      [("outputs", .list (rs.map fun (p, e) =>
        .object [("file", .str p.text), ("text", .str e.text)]))]
    else [])

/-- The reports as text. -/
def formatted (rs : Results) : List String :=
  rs.diagnostics.map fun (p, d) => d.format (some p.text)

/-- The answer: texts go to the output file if there is one, else into the JSON value or to the
standard output. -/
def report (rs : Results) (o : Options) : Report :=
  let given := !rs.failed && o.output.isNone
  { exit := rs.exitCode
    stdout :=
      if o.json then (rs.json given).render ++ "\n"
      else if given then String.join rs.texts else ""
    stderr := if o.json then "" else joinLines rs.formatted
    output := if !rs.failed && o.output.isSome then rs.texts.head? else none }

end Results

/-- The answer for sources as they were found, with the steps in front if they are wanted. -/
def report (o : Options) (c : Config) (inputs : List Input) : Report :=
  let r := Results.report (inputs.map fun i => (i.path, i.expand c)) o
  let log := if o.verbose then inputs.flatMap (Input.events · c) else []
  { r with stderr := joinLines (log.map Event.line) ++ r.stderr }

/-- How the program is called. -/
def usageLines : List String :=
  ["usage: exttrait [-h] [-o OUTPUT] [--json] [--hash \x7bblake2b,xxh64\x7d]",
   "                [--seed SEED] [--prefix PREFIX] [--attr ATTRS] [-v]",
   "                source [source ...]"]

/-- What the program does, and what its options are for. -/
def helpLines : List String :=
  usageLines ++
  ["",
   "Turn #[ext] inherent impls into extension traits",
   "",
   "positional arguments:",
   "  source                Path(s) to Rust source file(s)",
   "",
   "options:",
   "  -h, --help            show this help message and exit",
   "  -o OUTPUT, --output OUTPUT",
   "                        Write the expanded source here (single input only)",
   "  --json                Emit diagnostics as JSON",
   "                        (phase/code/message/severity/file/line/column/notes)",
   "  --hash \x7bblake2b,xxh64\x7d",
   "                        Fingerprint function for derived trait names (default:",
   "                        xxh64)",
   "  --seed SEED           Fingerprint seed (default: 0)",
   "  --prefix PREFIX       Prefix of derived trait names (default: __ExtTrait)",
   "  --attr ATTRS          Attribute path that triggers expansion (repeatable;",
   "                        default: ext, ext_trait::ext)",
   "  -v, --verbose         Log each pipeline stage"]

/-- The answer to a command line that has something wrong with it. -/
def UsageError.report (e : UsageError) : Report :=
  { exit := 2, stderr := joinLines (usageLines ++ ["exttrait: error: " ++ e.message]) }

/-- The answer to a command line that asks for help. -/
def helpReport : Report := { exit := 0, stdout := joinLines helpLines }

/-- The answer to a command line that is not followed. -/
def Halt.report : Halt → Report
  | .help => helpReport
  | .usage e => e.report

end TraitLift.Cli
