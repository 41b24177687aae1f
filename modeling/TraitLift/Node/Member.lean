import TraitLift.Loc
import TraitLift.Node.Generics

/-!
Members of blocks and traits. What a block defines with a body, a value or a definition, a trait
only declares. Bodies, values, patterns and the tokens of macro calls are kept as source text.
-/

namespace TraitLift

/-- Who may use an item. The scope of a restricted item is kept as written. -/
inductive Visibility where
  | inherited
  | pub
  | crate
  | restricted (scope : String)
deriving DecidableEq, Repr

/-- One parameter of a function. -/
inductive FnArg where
  | receiver (reference : Bool) (lifetime : Option String) (mutable : Bool) (ty : Option TypeExpr)
      (attrs : List Attribute)
  | typed (pattern : String) (ty : TypeExpr) (attrs : List Attribute)
  | variadic (pattern : Option String) (attrs : List Attribute)
  | misplaced (kind : String)
deriving DecidableEq

/-- The head of a function. An empty `abi` stands for `extern` without a string. -/
structure Signature where
  name : String
  generics : Generics := {}
  inputs : List FnArg := []
  output : Option TypeExpr := none
  constness : Bool := false
  asyncness : Bool := false
  unsafety : Bool := false
  abi : Option String := none
deriving DecidableEq

/-- A function with its body. -/
structure Method where
  sig : Signature
  body : String
  attrs : List Attribute := []
  vis : Visibility := .inherited
  defaultness : Bool := false
  loc : Option Loc := none
deriving DecidableEq

/-- A constant with its value. -/
structure Constant where
  name : String
  ty : TypeExpr
  value : String
  attrs : List Attribute := []
  vis : Visibility := .inherited
  defaultness : Bool := false
  loc : Option Loc := none
deriving DecidableEq

/-- An associated type with its definition. -/
structure AssociatedType where
  name : String
  definition : TypeExpr
  generics : Generics := {}
  bounds : List Bound := []
  attrs : List Attribute := []
  vis : Visibility := .inherited
  defaultness : Bool := false
  loc : Option Loc := none
deriving DecidableEq

/-- A macro call in the place of a member. -/
structure MacroCall where
  path : String
  tokens : String
  semi : Bool := true
  attrs : List Attribute := []
  loc : Option Loc := none
deriving DecidableEq

/-- A function without a body. -/
structure TraitMethod where
  sig : Signature
  attrs : List Attribute := []
  loc : Option Loc := none
deriving DecidableEq

/-- A constant without a value. -/
structure TraitConst where
  name : String
  ty : TypeExpr
  attrs : List Attribute := []
  loc : Option Loc := none
deriving DecidableEq

/-- An associated type without a definition. -/
structure TraitType where
  name : String
  generics : Generics := {}
  bounds : List Bound := []
  attrs : List Attribute := []
  loc : Option Loc := none
deriving DecidableEq

/-- A member of a block or of a trait. -/
inductive Member where
  | method (m : Method)
  | constant (c : Constant)
  | assocType (t : AssociatedType)
  | macroCall (m : MacroCall)
  /-- A member that is passed through as it is written. -/
  | verbatim (text : String) (loc : Option Loc)
  /-- An item that has no place in a block, such as a `struct` or a `use`. -/
  | foreign (kind text : String) (loc : Option Loc)
  | traitMethod (m : TraitMethod)
  | traitConst (c : TraitConst)
  | traitType (t : TraitType)
  /-- A node that is no member, with its text. -/
  | misplaced (kind text : String)
deriving DecidableEq

end TraitLift
