import TraitLift.Cli.Session

/-!
The command line program: reads the sources, prints the answer and writes the output file.
-/

namespace TraitLift.Cli

/-- Why the system refused to read or write a file. The number of an error can come with either
sign. -/
def denialOf : IO.Error → Denial
  | .noFileOrDirectory .. => .missing
  | .inappropriateType _ code _ => if code = 21 || code = -21 then .isDirectory else .notDirectory
  | .invalidArgument _ code reason =>
    if code = 36 || code = -36 then .tooLong
    else if code = 40 || code = -40 then .tooManyLinks
    else .other reason
  | .permissionDenied _ _ reason => .other reason.capitalize
  | e => .other e.toString

/-- What reading a file gives. -/
def readBytes (p : DiskPath) : IO (Except Denial ByteArray) := do
  match ← (IO.FS.readBinFile p.text).toBaseIO with
  | .ok bytes => return .ok bytes
  | .error e => return .error (denialOf e)

/-- Reads the sources up to the first one that ends the run. -/
def readInputs (hollow : List Opt) (c : Config) :
    List String → IO (Except Break (List Input))
  | [] => return .ok []
  | path :: paths => do
    match checkPath (DiskPath.ofString path) with
    | .error b => return .error b
    | .ok p =>
      match Input.ofRead p (← readBytes p) >>= (Input.check · hollow c) with
      | .error b => return .error b
      | .ok i => return (← readInputs hollow c paths).map (i :: ·)

/-- Prints an answer and returns its exit status. -/
def deliver (r : Report) : IO UInt32 := do
  IO.print r.stdout
  IO.eprint r.stderr
  return r.exit.toUInt32

/-- Says that a run broke off. -/
def breakOff : Break → IO UInt32
  | .notText p => say (p.text ++ " is not text")
  | .nul p => say (p.text ++ " is not a path")
  | .hollow o => say (o.label ++ " holds nothing")
  | .unwritable p d => say ("cannot write " ++ p.text ++ ": " ++ d.reason)
where
  say (message : String) : IO UInt32 := do
    IO.eprintln ("exttrait: " ++ message)
    return 1

/-- Writes the output file, if there is one to write, and delivers the answer. -/
def finish (hollow : List Opt) (o : Options) (r : Report) : IO UInt32 := do
  match r.target hollow o with
  | .error b => breakOff b
  | .ok none => deliver r
  | .ok (some (p, text)) =>
    match ← (IO.FS.writeFile p.text text).toBaseIO with
    | .ok _ => deliver r
    | .error e => breakOff (.unwritable p (denialOf e))

/-- Carries out what a command line asks for. -/
def carryOut (hollow : List Opt) (o : Options) (c : Config) : IO UInt32 := do
  match ← readInputs hollow c o.sources with
  | .error b => breakOff b
  | .ok inputs => finish hollow o (report o c inputs)

/-- Runs the program on its arguments, and returns its exit status. -/
def perform (v : Edition) (argv : List String) : IO UInt32 := do
  match prepare v argv with
  | .error (.halt h) => deliver h.report
  | .error (.blocked o) => breakOff (.hollow o)
  | .error (.hollow r c) => carryOut r.hollow r.options c
  | .ok (o, c) => carryOut [] o c

end TraitLift.Cli

/-- Runs the program. -/
def main (argv : List String) : IO UInt32 := TraitLift.Cli.perform .late argv
