import TraitLift.Node.Member

/-!
Implementation blocks, trait declarations, and the arguments of the attribute that asks for a
trait to be made of a block.
-/

namespace TraitLift

/-- The trait of `impl Trait for Type`; a negative block says that the type does not have it. -/
structure TraitRef where
  path : Path
  negative : Bool := false
deriving DecidableEq

/-- An `impl` block. It is inherent if it names no trait. `source` is the text it was read from. -/
structure ImplBlock where
  selfTy : TypeExpr
  items : List Member := []
  generics : Generics := {}
  attrs : List Attribute := []
  innerAttrs : List Attribute := []
  unsafety : Bool := false
  defaultness : Bool := false
  traitRef : Option TraitRef := none
  source : Option String := none
  loc : Option Loc := none
deriving DecidableEq

/-- A trait declaration. -/
structure TraitDecl where
  name : String
  items : List Member := []
  generics : Generics := {}
  vis : Visibility := .inherited
  attrs : List Attribute := []
  innerAttrs : List Attribute := []
  unsafety : Bool := false
  loc : Option Loc := none
deriving DecidableEq

/-- An item of the output: a trait declaration or a block. -/
inductive Item where
  | decl (d : TraitDecl)
  | block (b : ImplBlock)
  | misplaced (kind : String)
deriving DecidableEq

/-- The arguments of the attribute: the visibility and the name of the trait, where given. -/
structure ExtArgs where
  vis : Option Visibility := none
  name : Option String := none
deriving DecidableEq, Repr

end TraitLift
