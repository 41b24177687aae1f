import TraitLift.Node.Block

/-!
Gathering the constraints of a block in its where clause.

`hoistBounds` moves the bounds written at the parameters into the clause. `linkSelf` then sees to
it that what is asked of the self type is asked of `Self`, too, and the other way round: a trait can
only say `Self` where its implementation spells the type out.
-/

namespace TraitLift

/-! ### Bounds at parameters -/

namespace GenericParam

/-- The parameter without its bounds. -/
def withoutBounds : GenericParam → GenericParam
  | .type n _ d as => .type n [] d as
  | .lifetime p => .lifetime { p with bounds := [] }
  | p => p

/-- The bounds of the parameter as a predicate, if it has any. Constants have none. -/
def predicate? : GenericParam → Option Predicate
  | .type n bs _ _ => if bs.isEmpty then none else some (.type [] (TypeExpr.named n) bs)
  | .lifetime p => if p.bounds.isEmpty then none else some (.lifetime p.name p.bounds)
  | _ => none

end GenericParam

/-- The predicates that the parameters of a block stand for, in their order. -/
def ImplBlock.hoisted (b : ImplBlock) : List Predicate :=
  b.generics.params.filterMap GenericParam.predicate?

/-- The block with the bounds of its parameters at the end of its where clause. -/
def ImplBlock.hoistBounds (b : ImplBlock) : ImplBlock :=
  if b.hoisted.isEmpty then b
  else
    { b with
      generics :=
        { params := b.generics.params.map GenericParam.withoutBounds
          clause := some (b.generics.predicates ++ b.hoisted) } }

/-! ### Predicates on the self type -/

/-- The same predicate on `Self`, if it is on `selfTy`; on `selfTy`, if it is on `Self`. -/
def Predicate.twin? (selfTy : TypeExpr) : Predicate → Option Predicate
  | .type ls t bs =>
    if t = selfTy then some (.type ls TypeExpr.selfAlias bs)
    else if t.isSelfAlias then some (.type ls selfTy bs)
    else none
  | _ => none

/-- The elements of `xs` that are not in `seen`, each once and in order. -/
def newOnes {β : Type} [DecidableEq β] (seen : List β) : List β → List β
  | [] => []
  | x :: xs => if x ∈ seen then newOnes seen xs else x :: newOnes (x :: seen) xs

/-- The twins that the where clause of a block lacks. None are asked for if the block
has no clause or its self type is `Self` already. -/
def ImplBlock.twins (b : ImplBlock) : List Predicate :=
  match b.generics.clause with
  | none => []
  | some ps =>
    if b.selfTy.isSelfAlias then [] else newOnes ps (ps.filterMap (Predicate.twin? b.selfTy))

/-- The block with the twins that it lacks at the end of its where clause. -/
def ImplBlock.linkSelf (b : ImplBlock) : ImplBlock :=
  if b.twins.isEmpty then b
  else
    { b with generics := { b.generics with clause := some (b.generics.predicates ++ b.twins) } }

end TraitLift
