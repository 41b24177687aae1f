import TraitLift.Node.Generics

/-!
The texts that a type keeps as they are written, in the order of the source: `TypeExpr.excerpts` lists
them, each with what it is.
-/

namespace TraitLift

/-- What a text that a type keeps as it is written is in the source. -/
inductive Region where
  | attribute
  | arrayLength
  | constArg
  /-- What stands in front of the exclamation mark of a macro. -/
  | macroPath
  /-- All that stands behind the exclamation mark of a macro. -/
  | macroTokens
deriving DecidableEq, Repr

/-- A text that is kept as it is written. -/
structure Excerpt where
  region : Region
  text : String
deriving DecidableEq, Repr

/-- The excerpts of a lifetime parameter. -/
def LifetimeParam.excerpts (p : LifetimeParam) : List Excerpt := p.attrs.map fun a => ⟨.attribute, a.text⟩

/-- The excerpts of a binder. -/
def binderExcerpts (ls : List LifetimeParam) : List Excerpt := ls.flatMap LifetimeParam.excerpts

mutual

/-- The excerpts of a type. -/
def TypeExpr.excerpts : TypeExpr → List Excerpt
  | .path p => p.excerpts
  | .ref _ _ t | .ptr _ t | .slice t | .paren t => t.excerpts
  | .array t n => t.excerpts ++ [⟨.arrayLength, n⟩]
  | .tuple ts => typeExcerpts ts
  | .traitObject _ bs | .implTrait bs => boundExcerpts bs
  | .fnPtr ls _ _ is _ o => binderExcerpts ls ++ bareArgExcerpts is ++ outputExcerpts o
  | .macroCall p ts => [⟨.macroPath, p⟩, ⟨.macroTokens, ts⟩]
  | .never | .infer | .misplaced _ => []

/-- The excerpts of some types. -/
def typeExcerpts : List TypeExpr → List Excerpt
  | [] => []
  | t :: ts => t.excerpts ++ typeExcerpts ts

/-- The excerpts of a type that need not be given. -/
def outputExcerpts : Option TypeExpr → List Excerpt
  | some t => t.excerpts
  | none => []

/-- The excerpts of a path. -/
def Path.excerpts : Path → List Excerpt
  | ⟨ss, some q, _⟩ => q.excerpts ++ segmentExcerpts ss
  | ⟨ss, none, _⟩ => segmentExcerpts ss

/-- The excerpts of the opening of a path. -/
def QSelf.excerpts : QSelf → List Excerpt
  | ⟨t, p⟩ => t.excerpts ++ asTraitExcerpts p

/-- The excerpts of the trait in the opening of a path, if it is given. -/
def asTraitExcerpts : Option Path → List Excerpt
  | some p => p.excerpts
  | none => []

/-- The excerpts of a segment. -/
def Segment.excerpts : Segment → List Excerpt
  | ⟨_, a⟩ => argsExcerpts a

/-- The excerpts of some segments. -/
def segmentExcerpts : List Segment → List Excerpt
  | [] => []
  | s :: ss => s.excerpts ++ segmentExcerpts ss

/-- The excerpts of the arguments of a segment, if it has any. -/
def argsExcerpts : Option GenericArgs → List Excerpt
  | some a => a.excerpts
  | none => []

/-- The excerpts of the arguments of a segment. -/
def GenericArgs.excerpts : GenericArgs → List Excerpt
  | .angle as _ => argExcerpts as
  | .paren is o => typeExcerpts is ++ outputExcerpts o
  | .misplaced _ => []

/-- The excerpts of an argument between angle brackets. -/
def GenericArg.excerpts : GenericArg → List Excerpt
  | .type t => t.excerpts
  | .const e => [⟨.constArg, e⟩]
  | .binding _ as t => argsExcerpts as ++ t.excerpts
  | .constraint _ as bs => argsExcerpts as ++ boundExcerpts bs
  | .lifetime _ | .misplaced _ => []

/-- The excerpts of some arguments. -/
def argExcerpts : List GenericArg → List Excerpt
  | [] => []
  | a :: as => a.excerpts ++ argExcerpts as

/-- The excerpts of a bound. -/
def Bound.excerpts : Bound → List Excerpt
  | .trait ls _ p _ => binderExcerpts ls ++ p.excerpts
  | .lifetime _ | .misplaced _ => []

/-- The excerpts of some bounds. -/
def boundExcerpts : List Bound → List Excerpt
  | [] => []
  | b :: bs => b.excerpts ++ boundExcerpts bs

/-- The excerpts of a parameter of a function pointer type. -/
def BareArg.excerpts : BareArg → List Excerpt
  | ⟨_, t⟩ => t.excerpts

/-- The excerpts of the parameters of a function pointer type. -/
def bareArgExcerpts : List BareArg → List Excerpt
  | [] => []
  | a :: as => a.excerpts ++ bareArgExcerpts as

end

theorem typeExcerpts_eq_flatMap : ∀ ts : List TypeExpr, typeExcerpts ts = ts.flatMap TypeExpr.excerpts
  | [] => rfl
  | t :: ts => by rw [typeExcerpts, typeExcerpts_eq_flatMap ts, List.flatMap_cons]

theorem segmentExcerpts_eq_flatMap : ∀ ss : List Segment,
    segmentExcerpts ss = ss.flatMap Segment.excerpts
  | [] => rfl
  | s :: ss => by rw [segmentExcerpts, segmentExcerpts_eq_flatMap ss, List.flatMap_cons]

theorem argExcerpts_eq_flatMap : ∀ as : List GenericArg, argExcerpts as = as.flatMap GenericArg.excerpts
  | [] => rfl
  | a :: as => by rw [argExcerpts, argExcerpts_eq_flatMap as, List.flatMap_cons]

theorem boundExcerpts_eq_flatMap : ∀ bs : List Bound, boundExcerpts bs = bs.flatMap Bound.excerpts
  | [] => rfl
  | b :: bs => by rw [boundExcerpts, boundExcerpts_eq_flatMap bs, List.flatMap_cons]

theorem bareArgExcerpts_eq_flatMap : ∀ as : List BareArg,
    bareArgExcerpts as = as.flatMap BareArg.excerpts
  | [] => rfl
  | a :: as => by rw [bareArgExcerpts, bareArgExcerpts_eq_flatMap as, List.flatMap_cons]

/-- The excerpts of a predicate. -/
def Predicate.excerpts : Predicate → List Excerpt
  | .type ls t bs => binderExcerpts ls ++ t.excerpts ++ boundExcerpts bs
  | .lifetime .. | .misplaced _ => []

/-- The excerpts of some predicates. -/
def predicateExcerpts (ps : List Predicate) : List Excerpt := ps.flatMap Predicate.excerpts

end TraitLift
