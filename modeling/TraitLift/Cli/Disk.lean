import TraitLift.Cli.DiskPath

/-!
Files and directories as the program sees them. A place is found along a path from the root or from the
working directory, through links and up where the path says `..`; the system may refuse any step, any
reading and any writing. What is in a file is kept apart from its places, since a file can have several.
-/

namespace TraitLift.Cli

/-- Why a path cannot be read or written. -/
inductive Denial where
  | missing
  | notDirectory
  | isDirectory
  | tooLong
  | tooManyLinks
  | other (reason : String)
deriving DecidableEq, Repr

namespace Denial

/-- The reason in words. -/
def reason : Denial → String
  | missing => "No such file or directory"
  | notDirectory => "Not a directory"
  | isDirectory => "Is a directory"
  | tooLong => "File name too long"
  | tooManyLinks => "Too many levels of symbolic links"
  | other r => r

end Denial

/-- The names that lead from the root to a place. -/
abbrev Place := List String

/-- What is at a place. Files go by numbers; a link stands for a path from its directory. -/
inductive Entry where
  | file (id : Nat)
  | dir
  | link (target : DiskPath)
deriving DecidableEq, Repr

/-- What the system can be asked to do at a place: find a name in a directory, read a file, or write to a
file or to a directory. -/
inductive Access where
  | search
  | read
  | write
deriving DecidableEq, Repr

/-- A disk: the working directory, what is at which place, what is in each file, and what the system
refuses to do. -/
structure Disk where
  home : Place := []
  entries : List (Place × Entry)
  contents : Nat → ByteArray
  refuses : Place → Access → Option Denial := fun _ _ => none

/-- Where a path leads: to a file or a directory, or to a name that its directory does not have. -/
inductive Spot where
  | file (place : Place) (id : Nat)
  | dir (place : Place)
  | vacant (place : Place)
deriving DecidableEq, Repr

namespace Disk

/-- What is at a place. -/
def entry? (d : Disk) (p : Place) : Option Entry := d.entries.lookup p

/-- Whether the system does what it is asked. -/
def allow (d : Disk) (p : Place) (a : Access) : Except Denial Unit :=
  match d.refuses p a with
  | some e => .error e
  | none => .ok ()

/-- The longest name that a directory can hold, in bytes. -/
def nameLimit : Nat := 255

/-- The length from which on a path is refused, in bytes. -/
def pathLimit : Nat := 4096

/-- The number of links that a path can lead through. -/
def linkLimit : Nat := 40

/-- The place where a path starts that is followed from a directory. -/
def start (here : Place) (p : DiskPath) : Place := if p.root = .here then here else []

/-- Follows names from a directory; `onLink` says how to go on with the names behind a link. -/
def steps (d : Disk) (onLink : Place → List String → Except Denial Spot) :
    Place → List String → Except Denial Spot
  | here, [] => .ok (.dir here)
  | here, name :: rest => do
    d.allow here .search
    if name = ".." then d.steps onLink here.dropLast rest
    else if nameLimit < name.utf8ByteSize then .error .tooLong
    else
      match d.entry? (here ++ [name]) with
      | some .dir => d.steps onLink (here ++ [name]) rest
      | some (.link target) => onLink (start here target) (target.parts ++ rest)
      | some (.file id) =>
        if rest.isEmpty then .ok (.file (here ++ [name]) id) else .error .notDirectory
      | none => if rest.isEmpty then .ok (.vacant (here ++ [name])) else .error .missing

/-- Follows names from a directory through so many links at most. -/
def walk (d : Disk) : Nat → Place → List String → Except Denial Spot
  | 0 => d.steps fun _ _ => .error .tooManyLinks
  | links + 1 => d.steps (d.walk links)

/-- Where a path leads. -/
def locate (d : Disk) (p : DiskPath) : Except Denial Spot :=
  if pathLimit ≤ p.text.utf8ByteSize then .error .tooLong
  else d.walk linkLimit (start d.home p) p.parts

/-- The bytes of the file at a path. -/
def read (d : Disk) (p : DiskPath) : Except Denial ByteArray := do
  match ← d.locate p with
  | .vacant _ => .error .missing
  | .dir place => do
    d.allow place .read
    .error .isDirectory
  | .file place id => do
    d.allow place .read
    return d.contents id

/-- The disk with other bytes in a file. -/
def put (d : Disk) (id : Nat) (bytes : ByteArray) : Disk :=
  { d with contents := fun i => if i = id then bytes else d.contents i }

/-- A number that no file has yet. -/
def unused (d : Disk) : Nat :=
  d.entries.foldr (fun e n => match e.2 with | .file id => max (id + 1) n | _ => n) 0

/-- The disk with a new file at a place. -/
def create (d : Disk) (p : Place) (bytes : ByteArray) : Disk :=
  { d.put d.unused bytes with entries := (p, .file d.unused) :: d.entries }

/-- Writes bytes to the file at a path. The file may be new, but not its directory. -/
def write (d : Disk) (p : DiskPath) (bytes : ByteArray) : Except Denial Disk := do
  match ← d.locate p with
  | .dir _ => .error .isDirectory
  | .file place id => do
    d.allow place .write
    return d.put id bytes
  | .vacant place => do
    d.allow place.dropLast .write
    d.allow place .write
    return d.create place bytes

end Disk

end TraitLift.Cli
