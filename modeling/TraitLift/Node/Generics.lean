import TraitLift.Node.Equality

/-!
Generic parameters and where clauses. A clause that is written but lists nothing differs from no
clause at all.
-/

namespace TraitLift

/-- One parameter between the angle brackets of a declaration. -/
inductive GenericParam where
  | type (name : String) (bounds : List Bound) (fallback : Option TypeExpr)
      (attrs : List Attribute)
  | lifetime (p : LifetimeParam)
  | const (name : String) (ty : TypeExpr) (fallback : Option String) (attrs : List Attribute)
  | misplaced (kind : String)
deriving DecidableEq

/-- One predicate of a where clause. -/
inductive Predicate where
  | type (lifetimes : List LifetimeParam) (subject : TypeExpr) (bounds : List Bound)
  | lifetime (subject : String) (bounds : List String)
  | misplaced (kind : String)
deriving DecidableEq

/-- The generic part of a declaration: its parameters and its where clause, if it has one. -/
structure Generics where
  params : List GenericParam := []
  clause : Option (List Predicate) := none
deriving DecidableEq

namespace Generics

/-- Whether there are neither parameters nor a where clause. -/
def isEmpty (g : Generics) : Bool := g.params.isEmpty && g.clause.isNone

/-- The predicates of the where clause; none if there is no clause. -/
def predicates (g : Generics) : List Predicate := g.clause.getD []

end Generics

end TraitLift
