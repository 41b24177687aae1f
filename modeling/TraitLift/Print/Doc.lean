/-!
Output under way. A document is a list of pieces, each a text or a node that cannot be written
where it stands; it has a text if all its pieces have one, and otherwise the first bad piece says
what is wrong.
-/

namespace TraitLift

/-- Where in a tree a node stands. -/
inductive Place where
  | type | genericArgs | genericArg | bound | genericParam | predicate | fnArg | member | item
  /-- The place of a parameter that is to be turned into an argument. -/
  | projected
deriving DecidableEq, Repr

/-- A node of a kind that does not belong in its place. -/
structure Misplaced where
  place : Place
  kind : String
deriving DecidableEq, Repr

namespace Misplaced

/-- What is wrong, in words. -/
def message (m : Misplaced) : String :=
  match m.place with
  | .type => "cannot render type node " ++ m.kind
  | .genericArgs => "cannot render generic arguments " ++ m.kind
  | .genericArg => "cannot render generic argument " ++ m.kind
  | .bound => "cannot render bound " ++ m.kind
  | .genericParam => "cannot render generic parameter " ++ m.kind
  | .predicate => "cannot render where predicate " ++ m.kind
  | .fnArg => "cannot render function argument " ++ m.kind
  | .member => "cannot render member " ++ m.kind
  | .item => "cannot render item " ++ m.kind
  | .projected => "unknown generic parameter kind: " ++ m.kind

end Misplaced

/-- A piece of output. -/
inductive Piece where
  | text (s : String)
  | misplaced (m : Misplaced)
deriving DecidableEq, Repr

/-- Output, piece by piece. -/
abbrev Doc := List Piece

namespace Doc

/-- The document of one text. -/
def str (s : String) : Doc := [.text s]

/-- The document of a node that cannot be written. -/
def bad (place : Place) (kind : String) : Doc := [.misplaced ⟨place, kind⟩]

/-- The text of a document, or the first node in it that cannot be written. -/
def text : Doc → Except Misplaced String
  | [] => .ok ""
  | .text s :: d => (text d).map (s ++ ·)
  | .misplaced m :: _ => .error m

/-- Documents one after the other with a text between them. -/
def sepBy (s : String) : List Doc → Doc
  | [] => []
  | [d] => d
  | d :: ds => d ++ str s ++ sepBy s ds

/-- A text if a condition holds. -/
def strIf (b : Bool) (s : String) : Doc := if b then str s else []

end Doc

end TraitLift
