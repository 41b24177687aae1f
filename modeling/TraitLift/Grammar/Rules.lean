import TraitLift.Token
import TraitLift.Grammar.Expr

/-!
The grammar of implementation blocks, types and attribute arguments.

Bodies, initialisers, patterns and attribute contents are token trees: any tokens with matching
brackets. An item that has no place in a block is read, too, up to its semicolon or braces.
-/

namespace TraitLift.Grammar

/-- Classes of tokens that a rule can ask for. -/
inductive TokenClass where
  | one (k : Kind)
  /-- Any token but a bracket, a comma, a colon, a semicolon or a `#`. -/
  | plain
  /-- A name or a keyword that can stand in a path. -/
  | pathWord
  /-- A literal value. -/
  | literal
deriving DecidableEq, Repr

namespace TokenClass

/-- Whether tokens of a kind belong to the class. -/
def has : TokenClass → Kind → Bool
  | one k, k' => k == k'
  | plain, .lpar | plain, .rpar | plain, .lsqb | plain, .rsqb | plain, .lbrace
  | plain, .rbrace | plain, .comma | plain, .colon | plain, .semi | plain, .pound => false
  | plain, _ => true
  | pathWord, .name | pathWord, .kwSelf | pathWord, .kwSelfType | pathWord, .kwSuper
  | pathWord, .kwCrate => true
  | pathWord, _ => false
  | literal, .number | literal, .string | literal, .rawString | literal, .char
  | literal, .kwTrue | literal, .kwFalse => true
  | literal, _ => false

end TokenClass

/-- The rules of the grammar. -/
inductive Rule where
  | implBlock | marker | inherentTarget | traitTarget | implBody
  | methodMember | constMember | typeMember | macroMember | foreignMember
  | fnItem | fnAbi | fnParam | constInit | typeBounds | typeDef | plainPath | foreignHead
  | outerAttr | innerAttr | visibility | visScope
  | generics | genericParam | lifetimeParam | lifetimeBounds | typeParam | constParam | constValue
  | forLifetimes | bounds | lifetimeBound | traitBound | parenBound
  | whereClause | lifetimePredicate | typePredicate
  | type | typeNoBounds | implType | dynType | implOneType | dynOneType
  | pathType | qpathType | refType | ptrType | sliceType | arrayType | tupleType | parenType
  | neverType | inferType | fnPtrType | macroType
  | pathSegment | turbofishSegment | angleArgs | parenArgs
  | typeArg | lifetimeArg | constArg | bindingArg | constraintArg | bareFnArg
  | parenTree | bracketTree | braceTree
deriving DecidableEq, Repr

namespace Rule

/-- Every rule. -/
def all : List Rule :=
  [implBlock, marker, inherentTarget, traitTarget, implBody,
   methodMember, constMember, typeMember, macroMember, foreignMember,
   fnItem, fnAbi, fnParam, constInit, typeBounds, typeDef, plainPath, foreignHead,
   outerAttr, innerAttr, visibility, visScope,
   generics, genericParam, lifetimeParam, lifetimeBounds, typeParam, constParam, constValue,
   forLifetimes, bounds, lifetimeBound, traitBound, parenBound,
   whereClause, lifetimePredicate, typePredicate,
   type, typeNoBounds, implType, dynType, implOneType, dynOneType,
   pathType, qpathType, refType, ptrType, sliceType, arrayType, tupleType, parenType,
   neverType, inferType, fnPtrType, macroType,
   pathSegment, turbofishSegment, angleArgs, parenArgs,
   typeArg, lifetimeArg, constArg, bindingArg, constraintArg, bareFnArg,
   parenTree, bracketTree, braceTree]

end Rule

/-- Expressions of this grammar. -/
abbrev Syn := Expr TokenClass Rule

namespace Syn

open TraitLift.Grammar.Expr (all any opt star plus)

/-- A token of one kind. -/
def k (kind : Kind) : Syn := .tok (.one kind)

/-- Any plain token. -/
def plain : Syn := .tok .plain

/-- A word of a path. -/
def pathWord : Syn := .tok .pathWord

/-- A literal. -/
def literal : Syn := .tok .literal

/-- A use of a rule. -/
def use (r : Rule) : Syn := .rule r

/-- One or more of something with commas between them and perhaps one at the end. -/
def commaList (e : Syn) : Syn := all [e, star (all [k .comma, e]), opt (k .comma)]

/-- One or more of something with `+` between them and perhaps one at the end. -/
def plusList (e : Syn) : Syn := all [e, star (all [k .plus, e]), opt (k .plus)]

/-- One or more of something with `::` between them. -/
def pathList (e : Syn) : Syn := all [e, star (all [k .dcolon, e])]

/-- Any attributes in front of an item or a parameter. -/
def attrs : Syn := star (use .outerAttr)

/-- A bracketed group. -/
def tokenTree : Syn := any [use .parenTree, use .bracketTree, use .braceTree]

/-- What a bracketed group is made of. -/
def inTree : Syn := any [tokenTree, plain, k .comma, k .colon, k .semi, k .pound]

/-- What a pattern is made of. -/
def inPattern : Syn := any [tokenTree, plain]

/-- What a value is made of. -/
def inValue : Syn := any [tokenTree, plain, k .comma, k .colon, k .pound]

/-- What an item that has no place in a block is made of. -/
def inForeign : Syn :=
  any [use .parenTree, use .bracketTree, plain, k .comma, k .colon, k .pound]

/-- A member of a block. -/
def member : Syn :=
  any [use .methodMember, use .constMember, use .typeMember, use .macroMember, use .foreignMember]

/-- What may stand in front of a member. -/
def memberHead : List Syn := [attrs, opt (use .visibility), opt (use .marker)]

/-- One bound of a list. -/
def bound : Syn := any [use .lifetimeBound, use .traitBound, use .parenBound]

/-- One argument between angle brackets. -/
def genericArg : Syn :=
  any [use .typeArg, use .lifetimeArg, use .constArg, use .bindingArg, use .constraintArg]

/-- A constant that can stand between angle brackets. -/
def constExpr : Syn := any [literal, all [k .minus, literal], use .braceTree]

/-- A segment of a path. -/
def segment : Syn := any [use .pathSegment, use .turbofishSegment]

/-- The type a function returns, which may not be a list of bounds. -/
def plainReturn : Syn := opt (all [k .arrow, use .typeNoBounds])

/-- The parameters of a function pointer. -/
def bareFnArgs : Syn :=
  any [all [use .bareFnArg, star (all [k .comma, use .bareFnArg]),
      opt (all [k .comma, k .ellipsis]), opt (k .comma)],
    k .ellipsis]

/-- Attribute arguments: a visibility and a name, both optional. -/
def extArgs : Syn := all [opt (use .visibility), opt (k .name)]

end Syn

open TraitLift.Grammar.Syn TraitLift.Grammar.Expr in
/-- The body of each rule. -/
def ruleBody : Rule → Syn
  | .implBlock =>
    all [attrs, opt (use .marker), opt (k .kwUnsafe), k .kwImpl, opt (use .generics),
      any [use .inherentTarget, use .traitTarget], opt (use .whereClause), use .implBody]
  | .marker => k .name
  | .inherentTarget => use .type
  | .traitTarget => all [opt (k .bang), use .pathType, k .kwFor, use .type]
  | .implBody => all [k .lbrace, star (use .innerAttr), star member, k .rbrace]
  | .methodMember => all (memberHead ++ [use .fnItem])
  | .constMember =>
    all (memberHead ++ [k .kwConst, any [k .name, k .underscore], k .colon, use .type,
      opt (use .constInit), k .semi])
  | .typeMember =>
    all (memberHead ++ [k .kwType, k .name, opt (use .generics), opt (use .typeBounds),
      opt (use .whereClause), opt (use .typeDef), k .semi])
  | .macroMember =>
    all [attrs, use .plainPath, k .bang, opt (k .name), tokenTree, opt (k .semi)]
  | .foreignMember =>
    all [attrs, opt (use .visibility), use .foreignHead, star inForeign,
      any [k .semi, all [use .braceTree, opt (k .semi)]]]
  | .fnItem =>
    all [opt (k .kwConst), opt (k .kwAsync), opt (k .kwUnsafe), opt (use .fnAbi), k .kwFn, k .name,
      opt (use .generics), k .lpar, opt (commaList (use .fnParam)), k .rpar,
      opt (all [k .arrow, use .type]), opt (use .whereClause), any [use .braceTree, k .semi]]
  | .fnAbi => all [k .kwExtern, opt (any [k .string, k .rawString])]
  | .fnParam => all [attrs, plus inPattern, opt (all [k .colon, use .type])]
  | .constInit => all [k .equal, plus inValue]
  | .typeBounds => all [k .colon, opt (use .bounds)]
  | .typeDef => all [k .equal, use .type, opt (use .whereClause)]
  | .plainPath => all [opt (k .dcolon), pathList pathWord]
  | .foreignHead =>
    any [k .kwStruct, k .kwEnum, k .kwStatic, k .kwUse, k .kwMod, k .kwTrait, k .kwImpl,
      all [k .kwExtern, k .kwCrate]]
  | .outerAttr => any [all [k .pound, use .bracketTree], k .outerDoc, k .outerBlockDoc]
  | .innerAttr => any [all [k .pound, k .bang, use .bracketTree], k .innerDoc, k .innerBlockDoc]
  | .visibility =>
    any [all [k .kwPub, opt (all [k .lpar, use .visScope, k .rpar])], k .kwCrate]
  | .visScope => any [k .kwCrate, k .kwSelf, k .kwSuper, all [k .kwIn, use .plainPath]]
  | .generics => all [k .lt, opt (commaList (use .genericParam)), k .gt]
  | .genericParam => all [attrs, any [use .lifetimeParam, use .typeParam, use .constParam]]
  | .lifetimeParam => all [k .lifetime, opt (all [k .colon, opt (use .lifetimeBounds)])]
  | .lifetimeBounds => plusList (k .lifetime)
  | .typeParam =>
    all [k .name, opt (all [k .colon, opt (use .bounds)]), opt (all [k .equal, use .type])]
  | .constParam =>
    all [k .kwConst, k .name, k .colon, use .type, opt (all [k .equal, use .constValue])]
  | .constValue => any [constExpr, use .pathType]
  | .forLifetimes => all [k .kwFor, k .lt, opt (commaList (use .lifetimeParam)), k .gt]
  | .bounds => plusList bound
  | .lifetimeBound => k .lifetime
  | .traitBound => all [opt (use .forLifetimes), opt (k .qmark), use .pathType]
  | .parenBound => all [k .lpar, use .traitBound, k .rpar]
  | .whereClause =>
    all [k .kwWhere, opt (commaList (any [use .lifetimePredicate, use .typePredicate]))]
  | .lifetimePredicate => all [k .lifetime, k .colon, opt (use .lifetimeBounds)]
  | .typePredicate => all [opt (use .forLifetimes), use .type, k .colon, opt (use .bounds)]
  | .type => any [use .typeNoBounds, use .implType, use .dynType]
  | .typeNoBounds =>
    any [use .pathType, use .qpathType, use .refType, use .ptrType, use .sliceType, use .arrayType,
      use .tupleType, use .parenType, use .neverType, use .inferType, use .fnPtrType,
      use .macroType, use .implOneType, use .dynOneType]
  | .implType => all [k .kwImpl, use .bounds]
  | .dynType => all [k .kwDyn, use .bounds]
  | .implOneType => all [k .kwImpl, use .traitBound]
  | .dynOneType => all [k .kwDyn, bound]
  | .pathType => all [opt (k .dcolon), pathList segment]
  | .qpathType =>
    all [k .lt, use .type, opt (all [k .kwAs, use .pathType]), k .gt, k .dcolon, pathList segment]
  | .refType => all [k .amp, opt (k .lifetime), opt (k .kwMut), use .typeNoBounds]
  | .ptrType => all [k .star, any [k .kwConst, k .kwMut], use .typeNoBounds]
  | .sliceType => all [k .lsqb, use .type, k .rsqb]
  | .arrayType => all [k .lsqb, use .type, k .semi, plus inValue, k .rsqb]
  | .tupleType =>
    any [all [k .lpar, k .rpar], all [k .lpar, use .type, k .comma, k .rpar],
      all [k .lpar, use .type, plus (all [k .comma, use .type]), opt (k .comma), k .rpar]]
  | .parenType => all [k .lpar, use .type, k .rpar]
  | .neverType => k .bang
  | .inferType => k .underscore
  | .fnPtrType =>
    all [opt (use .forLifetimes), opt (k .kwUnsafe), opt (use .fnAbi), k .kwFn, k .lpar,
      opt bareFnArgs, k .rpar, plainReturn]
  | .macroType => all [use .pathType, k .bang, tokenTree]
  | .pathSegment => all [pathWord, opt (any [use .angleArgs, use .parenArgs])]
  | .turbofishSegment => all [pathWord, k .dcolon, use .angleArgs]
  | .angleArgs => all [k .lt, opt (commaList genericArg), k .gt]
  | .parenArgs => all [k .lpar, opt (commaList (use .type)), k .rpar, plainReturn]
  | .typeArg => use .type
  | .lifetimeArg => k .lifetime
  | .constArg => constExpr
  | .bindingArg => all [k .name, opt (use .angleArgs), k .equal, use .type]
  | .constraintArg => all [k .name, opt (use .angleArgs), k .colon, use .bounds]
  | .bareFnArg => all [attrs, opt (all [any [k .name, k .underscore], k .colon]), use .type]
  | .parenTree => all [k .lpar, star inTree, k .rpar]
  | .bracketTree => all [k .lsqb, star inTree, k .rsqb]
  | .braceTree => all [k .lbrace, star inTree, k .rbrace]

/-- The grammar; the kind of a token decides what can be done with it. -/
def rust : Grammar Token TokenClass Rule := ⟨fun c t => c.has t.kind, Rule.all, ruleBody⟩

end TraitLift.Grammar
