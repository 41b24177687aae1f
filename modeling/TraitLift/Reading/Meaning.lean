import TraitLift.Grammar.Rules
import TraitLift.Grammar.Tree
import TraitLift.Reading.Member

/-!
The meaning of every rule of the grammar, and from it the meaning of a derivation tree.
-/

namespace TraitLift.Reading

open TraitLift.Grammar

/-- The meaning of what a rule covers, from the meanings of its parts. -/
def ruleMeaning (source : List Char) (r : Rule) (ps : Parts) : Meaning :=
  match r with
  | .implBlock => .block (implBlock source ps)
  | .marker => match ps.head?.bind Phrase.token? with
    | some t => .marker t
    | none => .plain
  | .inherentTarget => .target none (Parts.type ps)
  | .traitTarget =>
    .target (some ⟨(Parts.path? ps).getD default, Parts.has .bang ps⟩) (Parts.type ps)
  | .implBody =>
    .body (Parts.attrs ps) (Parts.pick (fun | .member m => some m | _ => none) ps)
  | .methodMember => .member (methodMember source ps)
  | .constMember => .member (constMember source ps)
  | .typeMember => .member (typeMember source ps)
  | .macroMember => .member (.ok (macroMember source ps))
  | .foreignMember => .member (.ok (foreignMember source ps))
  | .fnItem =>
    let body := Parts.plain ps
    .function (signature ps) (if body.isEmpty then none else some (Parts.text source body))
  | .fnAbi => .abi ((Parts.word? [.string, .rawString] ps).getD "")
  | .fnParam => .fnArg (fnArg source ps)
  | .constInit => .value (Parts.text source (ps.drop 1))
  | .typeBounds => .bounds (Parts.bounds ps)
  | .typeDef => .definition (Parts.type ps) (Parts.clause? ps)
  | .outerAttr => .attr ⟨Parts.text source ps, false⟩
  | .innerAttr => .attr ⟨Parts.text source ps, true⟩
  | .visibility => .vis (visibility ps)
  | .visScope => .scope (scope source ps)
  | .generics => .params (Parts.pick (fun | .param p => some p | _ => none) ps)
  | .genericParam => genericParam ps
  | .lifetimeParam => .lifetimeParam ⟨(Parts.lifetime? ps).getD "", Parts.lifetimes ps, []⟩
  | .lifetimeBounds =>
    .lifetimes (((Parts.tokens ps).filter (·.is .lifetime)).map Token.text)
  | .typeParam => .param (.type (Parts.name ps) (Parts.bounds ps) (Parts.type? ps) [])
  | .constParam =>
    let fallback := Parts.plain ps
    .param (.const (Parts.name ps) (Parts.type ps)
      (if fallback.isEmpty then none else some (Parts.text source fallback)) [])
  | .forLifetimes => .binder (Parts.lifetimeParams ps)
  | .bounds => .bounds (Parts.eachBound ps)
  | .lifetimeBound => .bound (.lifetime ((Parts.lifetime? ps).getD ""))
  | .traitBound => .bound (traitBound ps)
  | .parenBound => match (Parts.eachBound ps).head? with
    | some b => .bound (parenthesized b)
    | none => .plain
  | .whereClause => .clause (Parts.pick (fun | .predicate p => some p | _ => none) ps)
  | .lifetimePredicate =>
    .predicate (.lifetime ((Parts.lifetime? ps).getD "") (Parts.lifetimes ps))
  | .typePredicate => .predicate (.type (Parts.binder ps) (Parts.type ps) (Parts.bounds ps))
  | .type | .typeNoBounds => match Parts.path? ps with
    | some p => .type (.path p)
    | none => .type (Parts.type ps)
  | .implType => .type (.implTrait (Parts.bounds ps))
  | .dynType => .type (.traitObject true (Parts.bounds ps))
  | .implOneType => .type (.implTrait (Parts.eachBound ps))
  | .dynOneType => .type (.traitObject true (Parts.eachBound ps))
  | .pathType => .path (path ps)
  | .qpathType => .type (.path (qualifiedPath ps))
  | .refType => .type (.ref (Parts.lifetime? ps) (Parts.has .kwMut ps) (Parts.type ps))
  | .ptrType => .type (.ptr (Parts.has .kwMut ps) (Parts.type ps))
  | .sliceType => .type (.slice (Parts.type ps))
  | .arrayType => .type (.array (Parts.type ps) (arrayLength source ps))
  | .tupleType => .type (.tuple (Parts.types ps))
  | .parenType => .type (.paren (Parts.type ps))
  | .neverType => .type .never
  | .inferType => .type .infer
  | .fnPtrType => .type (fnPtr ps)
  | .macroType =>
    .type (.macroCall (Parts.text source (before .bang ps)) (Parts.text source (after .bang ps)))
  | .pathSegment => .segment (segment false source ps)
  | .turbofishSegment => .segment (segment true source ps)
  | .angleArgs => .args (.angle (Parts.pick (fun | .arg a => some a | _ => none) ps) false)
  | .parenArgs => .args (parenArgs ps)
  | .typeArg => .arg (.type (Parts.type ps))
  | .lifetimeArg => .arg (.lifetime ((Parts.lifetime? ps).getD ""))
  | .constArg => .arg (.const (Parts.text source ps))
  | .bindingArg => .arg (.binding (Parts.name ps) (Parts.args? ps) (Parts.type ps))
  | .constraintArg => .arg (.constraint (Parts.name ps) (Parts.args? ps) (Parts.bounds ps))
  | .bareFnArg => .bareArg ⟨Parts.word? [.name, .underscore] ps, Parts.type ps⟩
  | .plainPath | .foreignHead | .constValue | .parenTree | .bracketTree | .braceTree => .plain

/-- The phrase of a derivation tree. -/
def phrase (source : List Char) : Tree Token Rule → Phrase :=
  Tree.fold Phrase.ofToken fun r ps => ⟨Parts.tokens ps, ruleMeaning source r ps⟩

end TraitLift.Reading
