import TraitLift.Loc

/-!
Tokens of Rust source text: the kinds a token can have, the words that are no names but keywords,
and the token itself with its text and its place.
-/

namespace TraitLift

/-- What a token is. White space and plain comments are no tokens; doc comments are. -/
inductive Kind where
  | outerBlockDoc | innerBlockDoc | outerDoc | innerDoc
  | rawString | string | char | number | lifetime | name
  | kwAs | kwAsync | kwConst | kwCrate | kwDyn | kwEnum | kwExtern | kwFalse | kwFn | kwFor
  | kwImpl | kwIn | kwMod | kwMut | kwPub | kwSelf | kwSelfType | kwStatic | kwStruct | kwSuper
  | kwTrait | kwTrue | kwType | kwUnsafe | kwUse | kwWhere | underscore
  | lpar | rpar | lsqb | rsqb | lbrace | rbrace
  | arrow | fatArrow | dcolon | colon | semi | comma | ellipsis | dot | equal | plus | minus
  | star | amp | bang | qmark | pound | lt | gt | otherPunct
deriving DecidableEq, Repr, Inhabited

namespace Kind

/-- The words that are read as keywords, with the kind of each. -/
def keywords : List (String × Kind) :=
  [("as", kwAs), ("async", kwAsync), ("const", kwConst), ("crate", kwCrate), ("dyn", kwDyn),
   ("enum", kwEnum), ("extern", kwExtern), ("false", kwFalse), ("fn", kwFn), ("for", kwFor),
   ("impl", kwImpl), ("in", kwIn), ("mod", kwMod), ("mut", kwMut), ("pub", kwPub),
   ("self", kwSelf), ("Self", kwSelfType), ("static", kwStatic), ("struct", kwStruct),
   ("super", kwSuper), ("trait", kwTrait), ("true", kwTrue), ("type", kwType),
   ("unsafe", kwUnsafe), ("use", kwUse), ("where", kwWhere), ("_", underscore)]

/-- The kind of a word: its keyword's kind, or a name. -/
def ofWord (w : String) : Kind := (keywords.lookup w).getD name

/-- The bracket that closes the one of this kind. -/
def closer? : Kind → Option Kind
  | lpar => some rpar
  | lsqb => some rsqb
  | lbrace => some rbrace
  | _ => none

/-- Whether the kind is that of a closing bracket. -/
def isCloser : Kind → Bool
  | rpar | rsqb | rbrace => true
  | _ => false

end Kind

/-- A token: its kind and text, the half-open range of characters it covers, and the places of the
two ends of that range. -/
structure Token where
  kind : Kind
  text : String
  start : Nat
  stop : Nat
  loc : Loc
  endLoc : Loc
deriving DecidableEq, Repr, Inhabited

namespace Token

/-- Whether the token is of kind `k`. -/
def is (t : Token) (k : Kind) : Bool := t.kind == k

end Token

/-- The part of a text from the first to the last of some tokens of it; none for no tokens. -/
def sliceOf (source : List Char) (ts : List Token) : String :=
  match ts.head?, ts.getLast? with
  | some a, some b => String.ofList ((source.drop a.start).take (b.stop - a.start))
  | _, _ => ""

end TraitLift
