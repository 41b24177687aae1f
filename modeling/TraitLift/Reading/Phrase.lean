import TraitLift.Fault
import TraitLift.Node.Block
import TraitLift.Token

/-!
What a part of the source means. A phrase is a part of the source that a rule of the grammar covers:
its tokens and their meaning. Faults that only the meaning shows are kept as values until the whole
block is put together, so that the first one in the source can be reported.
-/

namespace TraitLift

/-- The meaning of a part of the source. -/
inductive Meaning where
  | token (t : Token)
  /-- A part that is only kept as text. -/
  | plain
  | attr (a : Attribute)
  | marker (t : Token)
  | vis (v : Visibility)
  | scope (s : String)
  | target (traitRef : Option TraitRef) (selfTy : TypeExpr)
  | body (attrs : List Attribute) (items : List (Except Fault Member))
  | member (m : Except Fault Member)
  | function (sig : Except Fault Signature) (body : Option String)
  | abi (text : String)
  | fnArg (a : Except Fault FnArg)
  | value (text : String)
  | definition (ty : TypeExpr) (predicates : Option (List Predicate))
  | params (ps : List GenericParam)
  | param (p : GenericParam)
  | lifetimeParam (p : LifetimeParam)
  | lifetimes (ls : List String)
  | binder (ls : List LifetimeParam)
  | bounds (bs : List Bound)
  | bound (b : Bound)
  | clause (ps : List Predicate)
  | predicate (p : Predicate)
  | type (t : TypeExpr)
  | path (p : Path)
  | segment (s : Segment)
  | args (a : GenericArgs)
  | arg (a : GenericArg)
  | bareArg (a : BareArg)
  | block (b : Except Fault ImplBlock)

/-- A part of the source: its tokens, from the first to the last, and its meaning. -/
structure Phrase where
  tokens : List Token
  meaning : Meaning

namespace Phrase

/-- The phrase of one token. -/
def ofToken (t : Token) : Phrase := ⟨[t], .token t⟩

/-- The token of a phrase of one token. -/
def token? (p : Phrase) : Option Token :=
  match p.meaning with
  | .token t => some t
  | _ => none

/-- Whether the phrase is a token of kind `k`. -/
def isToken (k : Kind) (p : Phrase) : Bool := (p.token?.map (·.is k)).getD false

end Phrase

/-- The parts of a phrase. -/
abbrev Parts := List Phrase

namespace Parts

/-- The meanings of one sort among the parts, in order. -/
def pick {β : Type} (f : Meaning → Option β) (ps : Parts) : List β := ps.filterMap (f ·.meaning)

/-- All tokens of the parts. -/
def tokens (ps : Parts) : List Token := ps.flatMap Phrase.tokens

/-- The source text of the parts, from the first token to the last. -/
def text (source : List Char) (ps : Parts) : String := sliceOf source (tokens ps)

/-- The place of the first token. -/
def loc (ps : Parts) : Loc := ((tokens ps).head?.map Token.loc).getD Loc.origin

/-- Whether a token of kind `k` is one of the parts. -/
def has (k : Kind) (ps : Parts) : Bool := ps.any (Phrase.isToken k)

/-- The text of the first part that is a token of one of some kinds. -/
def word? (ks : List Kind) (ps : Parts) : Option String :=
  (ps.filterMap Phrase.token?).find? (fun t => ks.contains t.kind) |>.map Token.text

/-- The text of the first part that is a name. -/
def name (ps : Parts) : String := (word? [.name] ps).getD ""

/-- The text of the first part that is a lifetime. -/
def lifetime? (ps : Parts) : Option String := word? [.lifetime] ps

/-- The attributes. -/
def attrs : Parts → List Attribute := pick fun
  | .attr a => some a
  | _ => none

/-- The visibility, inherited if none is written. -/
def vis (ps : Parts) : Visibility :=
  let found := pick (fun | .vis v => some v | _ => none) ps
  found.head?.getD .inherited

/-- The types. -/
def types : Parts → List TypeExpr := pick fun
  | .type t => some t
  | _ => none

/-- The first type. -/
def type? (ps : Parts) : Option TypeExpr := (types ps).head?

/-- The first type of parts that have one. -/
def type (ps : Parts) : TypeExpr := (type? ps).getD default

/-- The first path. -/
def path? (ps : Parts) : Option Path :=
  (pick (fun | .path p => some p | _ => none) ps).head?

/-- The segments of a path. -/
def segments : Parts → List Segment := pick fun
  | .segment s => some s
  | _ => none

/-- The generic arguments. -/
def args? (ps : Parts) : Option GenericArgs :=
  (pick (fun | .args a => some a | _ => none) ps).head?

/-- The single bounds. -/
def eachBound : Parts → List Bound := pick fun
  | .bound b => some b
  | _ => none

/-- The list of bounds, empty if none is written. -/
def bounds (ps : Parts) : List Bound :=
  (pick (fun | .bounds bs => some bs | _ => none) ps).head?.getD []

/-- The list of lifetimes, empty if none is written. -/
def lifetimes (ps : Parts) : List String :=
  (pick (fun | .lifetimes ls => some ls | _ => none) ps).head?.getD []

/-- The lifetime parameters that a binder brings in, none if there is no binder. -/
def binder (ps : Parts) : List LifetimeParam :=
  (pick (fun | .binder ls => some ls | _ => none) ps).head?.getD []

/-- The single lifetime parameters. -/
def lifetimeParams : Parts → List LifetimeParam := pick fun
  | .lifetimeParam p => some p
  | _ => none

/-- The list of generic parameters, empty if none is written. -/
def params (ps : Parts) : List GenericParam :=
  (pick (fun | .params l => some l | _ => none) ps).head?.getD []

/-- The where clause, if there is one. -/
def clause? (ps : Parts) : Option (List Predicate) :=
  (pick (fun | .clause l => some l | _ => none) ps).head?

/-- Parameters and where clause. -/
def generics (ps : Parts) : Generics := ⟨params ps, clause? ps⟩

/-- The `extern` string, if `extern` is written. -/
def abi? (ps : Parts) : Option String :=
  (pick (fun | .abi s => some s | _ => none) ps).head?

/-- The parts that are only kept as text. -/
def plain (ps : Parts) : Parts :=
  ps.filter fun p => match p.meaning with
    | .plain => true
    | _ => false

end Parts

end TraitLift
