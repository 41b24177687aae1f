import TraitLift.Cli.Report

/-!
A run of the program from its arguments and the disk to its answer and the disk after it. Some
things are not foreseen, and the run breaks off there without an answer: a source that is not text,
a path with a NUL in it, a setting that is needed but holds nothing, and an output file that cannot be
written.
-/

namespace TraitLift.Cli

/-- Why a run breaks off. -/
inductive Break where
  | notText (source : DiskPath)
  | nul (path : DiskPath)
  | hollow (o : Opt)
  | unwritable (output : DiskPath) (d : Denial)
deriving DecidableEq, Repr

/-- A text with one line feed for every line end, be it written as that, as a carriage return or as
both. -/
def unifyLines : List Char → List Char
  | [] => []
  | '\r' :: '\n' :: cs => '\n' :: unifyLines cs
  | '\r' :: cs => '\n' :: unifyLines cs
  | c :: cs => c :: unifyLines cs

/-- The text that some bytes stand for, with its line ends unified. -/
def decode (bytes : ByteArray) : Option String :=
  (String.fromUTF8? bytes).map fun s => String.ofList (unifyLines s.toList)

/-- A source from what reading its file gave. -/
def Input.ofRead (p : DiskPath) : Except Denial ByteArray → Except Break Input
  | .error d => .ok ⟨p, .error d⟩
  | .ok bytes =>
    match decode bytes with
    | some text => .ok ⟨p, .ok text⟩
    | none => .error (.notText p)

/-- A path that can be handed on: no name holds a NUL. -/
def checkPath (p : DiskPath) : Except Break DiskPath :=
  if p.text.toList.contains '\x00' then .error (.nul p) else .ok p

/-- The option among those in `hollow` without which the source cannot be expanded. Attribute paths are
needed for every text that can be cut into tokens, the seed for every name made from a fingerprint. -/
def Input.hollow? (i : Input) (hollow : List Opt) (c : Config) : Option Opt :=
  match i.content with
  | .error _ => none
  | .ok text =>
    if .attr ∈ hollow && (scan text.toList).isComplete then some .attr
    else if .seed ∈ hollow && (i.events c).any Event.isDerivation then some .seed
    else none

/-- A source that can be expanded although the options in `hollow` hold nothing. -/
def Input.check (i : Input) (hollow : List Opt) (c : Config) : Except Break Input :=
  match i.hollow? hollow c with
  | some o => .error (.hollow o)
  | none => .ok i

/-- Why a command line is not carried out as it stands. -/
inductive Stop where
  | halt (h : Halt)
  /-- An option that the settings cannot do without holds nothing. -/
  | blocked (o : Opt)
  /-- Other options hold nothing. -/
  | hollow (r : Request) (c : Config)

/-- The settings that a request comes to. -/
def Request.settings (r : Request) : Except Stop Config :=
  if .hash ∈ r.hollow then .error (.blocked .hash)
  else if .namePrefix ∈ r.hollow then .error (.blocked .namePrefix)
  else r.options.config.mapError fun e => .halt (.usage (.config e))

/-- What a command line asks for, with its settings, if all is in order. -/
def prepare (v : Edition) (argv : List String) : Except Stop (Options × Config) := do
  let r ← (readArguments v argv).mapError Stop.halt
  let c ← r.settings
  if r.hollow.isEmpty then return (r.options, c) else .error (.hollow r c)

/-- The path and the text of the output file, if there is one to write. -/
def Report.target (r : Report) (hollow : List Opt) (o : Options) :
    Except Break (Option (DiskPath × String)) :=
  match o.output, r.output with
  | some path, some text =>
    if .output ∈ hollow then .error (.hollow .output)
    else do return some (← checkPath (DiskPath.ofString path), text)
  | _, _ => .ok none

namespace Disk

/-- A source from the disk. -/
def input (d : Disk) (hollow : List Opt) (c : Config) (path : String) : Except Break Input := do
  let p ← checkPath (DiskPath.ofString path)
  (← Input.ofRead p (d.read p)).check hollow c

/-- Writes the output file, if there is one to write. -/
def save (d : Disk) : Option (DiskPath × String) → Except Break Disk
  | some (p, text) => (d.write p text.toUTF8).mapError (Break.unwritable p)
  | none => .ok d

/-- Carries out what a command line asks for. The options in `hollow` hold nothing. -/
def carryOut (d : Disk) (hollow : List Opt) (o : Options) (c : Config) :
    Except Break (Report × Disk) := do
  let inputs ← o.sources.mapM (d.input hollow c)
  let r := report o c inputs
  return (r, ← d.save (← r.target hollow o))

end Disk

/-- Runs the program. -/
def run (v : Edition) (d : Disk) (argv : List String) : Except Break (Report × Disk) :=
  match prepare v argv with
  | .error (.halt h) => .ok (h.report, d)
  | .error (.blocked o) => .error (.hollow o)
  | .error (.hollow r c) => d.carryOut r.hollow r.options c
  | .ok (o, c) => d.carryOut [] o c

end TraitLift.Cli
