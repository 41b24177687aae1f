import TraitLift.Reading.Phrase

/-!
The meaning of types, paths, generic arguments, bounds, parameters and where clauses, from the
meanings of their parts.
-/

namespace TraitLift.Reading

/-- A path: its segments, and whether it starts with `::`. -/
def path (ps : Parts) : Path :=
  ⟨Parts.segments ps, none, (ps.head?.map (Phrase.isToken .dcolon)).getD false⟩

/-- A path that a self type in angle brackets opens. -/
def qualifiedPath (ps : Parts) : Path :=
  ⟨Parts.segments ps, some ⟨Parts.type ps, Parts.path? ps⟩, false⟩

/-- The parts after the first token of kind `k`. -/
def after (k : Kind) (ps : Parts) : Parts := (ps.dropWhile fun p => !p.isToken k).drop 1

/-- The parts before the first token of kind `k`. -/
def before (k : Kind) (ps : Parts) : Parts := ps.takeWhile fun p => !p.isToken k

/-- The length of an array: all between the semicolon and the closing bracket. -/
def arrayLength (source : List Char) (ps : Parts) : String :=
  Parts.text source (after .semi ps).dropLast

/-- A segment of a path; `turbofish` says that `::` stands before its arguments. -/
def segment (turbofish : Bool) (source : List Char) (ps : Parts) : Segment :=
  let name := Parts.text source (ps.take 1)
  match Parts.args? ps with
  | some (.angle as _) => ⟨name, some (.angle as turbofish)⟩
  | args => ⟨name, args⟩

/-- The arguments of a path segment in round brackets. -/
def parenArgs (ps : Parts) : GenericArgs :=
  .paren (Parts.types (before .arrow ps)) (Parts.type? (after .arrow ps))

/-- A function pointer. -/
def fnPtr (ps : Parts) : TypeExpr :=
  .fnPtr (Parts.binder ps) (Parts.has .kwUnsafe ps) (Parts.abi? ps)
    (Parts.pick (fun | .bareArg a => some a | _ => none) ps) (Parts.has .ellipsis ps)
    (Parts.type? ps)

/-- A trait bound. -/
def traitBound (ps : Parts) : Bound :=
  .trait (Parts.binder ps) (if Parts.has .qmark ps then "?" else "")
    ((Parts.path? ps).getD default) false

/-- A bound in round brackets. -/
def parenthesized : Bound → Bound
  | .trait ls m p _ => .trait ls m p true
  | b => b

/-- Attributes given to a parameter that is read without them. -/
def withAttrs (attrs : List Attribute) : GenericParam → GenericParam
  | .type n bs d _ => .type n bs d attrs
  | .lifetime p => .lifetime { p with attrs }
  | .const n t d _ => .const n t d attrs
  | .misplaced k => .misplaced k

/-- A parameter with the attributes in front of it. -/
def genericParam (ps : Parts) : Meaning :=
  let read : Meaning → Option GenericParam := fun
    | .param p => some p
    | .lifetimeParam p => some (.lifetime p)
    | _ => none
  match (Parts.pick read ps).head? with
  | some p => .param (withAttrs (Parts.attrs ps) p)
  | none => .plain

end TraitLift.Reading
