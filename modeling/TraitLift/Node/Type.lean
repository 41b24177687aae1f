/-!
Types as Rust writes them, with the paths, generic arguments and bounds they are made of.

Only what a trait needs of a type has structure: array lengths, constant arguments and the tokens of
macro calls are kept as source text. Trees can also be put together by hand, and then a node may
stand where its kind does not belong; `misplaced` keeps such a node by the name of its kind.
-/

namespace TraitLift

/-- An attribute or doc comment, as written. Inner ones stand at the start of a body. -/
structure Attribute where
  text : String
  inner : Bool := false
deriving DecidableEq, Repr

/-- A lifetime parameter with the lifetimes it outlives. -/
structure LifetimeParam where
  name : String
  bounds : List String := []
  attrs : List Attribute := []
deriving DecidableEq, Repr

mutual

/-- A type expression. -/
inductive TypeExpr where
  | path (p : Path)
  | ref (lifetime : Option String) (mutable : Bool) (inner : TypeExpr)
  | ptr (mutable : Bool) (inner : TypeExpr)
  | slice (inner : TypeExpr)
  | array (inner : TypeExpr) (length : String)
  | tuple (elems : List TypeExpr)
  | paren (inner : TypeExpr)
  | never
  | infer
  | traitObject (dyn : Bool) (bounds : List Bound)
  | implTrait (bounds : List Bound)
  | fnPtr (lifetimes : List LifetimeParam) (unsafety : Bool) (abi : Option String)
      (inputs : List BareArg) (variadic : Bool) (output : Option TypeExpr)
  | macroCall (path : String) (tokens : String)
  | misplaced (kind : String)

/-- A path, which a self type in angle brackets may open. -/
structure Path where
  segments : List Segment
  qself : Option QSelf
  leadingColon : Bool

/-- The opening `<Type as Trait>` of a path. -/
structure QSelf where
  ty : TypeExpr
  trait : Option Path

/-- One name of a path with its arguments. -/
structure Segment where
  name : String
  args : Option GenericArgs

/-- The arguments of a path segment: `<A, B>`, `::<A, B>` or `(A, B) -> C`. -/
inductive GenericArgs where
  | angle (args : List GenericArg) (turbofish : Bool)
  | paren (inputs : List TypeExpr) (output : Option TypeExpr)
  | misplaced (kind : String)

/-- One argument between angle brackets. -/
inductive GenericArg where
  | type (ty : TypeExpr)
  | lifetime (name : String)
  | const (expr : String)
  | binding (name : String) (args : Option GenericArgs) (ty : TypeExpr)
  | constraint (name : String) (args : Option GenericArgs) (bounds : List Bound)
  | misplaced (kind : String)

/-- One bound of a list `A + B + 'c`. -/
inductive Bound where
  | lifetime (name : String)
  | trait (lifetimes : List LifetimeParam) (modifier : String) (path : Path)
      (parenthesized : Bool)
  | misplaced (kind : String)

/-- A parameter of a function pointer type. -/
structure BareArg where
  name : Option String
  ty : TypeExpr

end

instance : Inhabited TypeExpr := ⟨.infer⟩
instance : Inhabited Path := ⟨⟨[], none, false⟩⟩
instance : Inhabited GenericArgs := ⟨.angle [] false⟩
instance : Inhabited GenericArg := ⟨.type .infer⟩
instance : Inhabited Bound := ⟨.lifetime ""⟩

namespace Path

/-- The path of one name. -/
def simple (name : String) (args : Option GenericArgs) : Path := ⟨[⟨name, args⟩], none, false⟩

/-- The bare `Self`. -/
def selfAlias : Path := simple "Self" none

/-- Whether the path is the bare `Self`. -/
def isSelfAlias : Path → Bool
  | ⟨[⟨name, none⟩], none, false⟩ => name == "Self"
  | _ => false

end Path

namespace TypeExpr

/-- The type that one name denotes. -/
def named (name : String) : TypeExpr := .path (Path.simple name none)

/-- The bare type `Self`. -/
def selfAlias : TypeExpr := named "Self"

/-- Whether the type is the bare `Self`. -/
def isSelfAlias : TypeExpr → Bool
  | .path p => p.isSelfAlias
  | _ => false

end TypeExpr

end TraitLift
