/-!
Paths in a normal form. Empty and `.` components have no part in it, while `..` stays, since what it
means depends on the disk. Two slashes in front are kept apart from one; three or more count as one.
-/

namespace TraitLift.Cli

/-- Where a path starts. -/
inductive Root where
  | here
  | slash
  | slashes
deriving DecidableEq, Repr

namespace Root

/-- The start of a path as text. -/
def text : Root → String
  | here => ""
  | slash => "/"
  | slashes => "//"

/-- The start of a path with a number of slashes in front. -/
def ofCount : Nat → Root
  | 0 => here
  | 2 => slashes
  | _ => slash

end Root

/-- A path. -/
structure DiskPath where
  root : Root
  parts : List String
deriving DecidableEq, Repr

/-- The parts of a text between its slashes; there is always one. -/
def splitSlash : List Char → List (List Char)
  | [] => [[]]
  | c :: cs =>
    if c = '/' then [] :: splitSlash cs
    else
      match splitSlash cs with
      | [] => [[c]]
      | p :: ps => (c :: p) :: ps

namespace DiskPath

/-- The path that a text stands for. -/
def ofString (s : String) : DiskPath :=
  { root := Root.ofCount (s.toList.takeWhile (· = '/')).length
    parts := ((splitSlash s.toList).map String.ofList).filter fun p => p ≠ "" && p ≠ "." }

/-- The path as text; the empty path is a dot. -/
def text (p : DiskPath) : String :=
  let s := p.root.text ++ "/".intercalate p.parts
  if s = "" then "." else s

end DiskPath

end TraitLift.Cli
