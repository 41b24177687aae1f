import TraitLift.Lift.Bounds
import TraitLift.Lift.Declare
import TraitLift.Lift.Name
import TraitLift.Lift.Target

/-!
From an inherent block to a trait and its implementation. The steps are: refuse a block that names a
trait; find the trait's name, from the block as it was given; declare the members; gather the
constraints in the where clause and give those on the self type their twins on `Self`; aim the block
at the trait; put the declaration together.
-/

namespace TraitLift

/-- A trait declaration and the implementation that goes with it. -/
structure Expansion where
  declaration : TraitDecl
  implementation : ImplBlock
  name : TraitName
deriving DecidableEq

/-- The declaration of a trait with the parameters, constraints and attributes of a block. -/
def ImplBlock.declaration (b : ImplBlock) (name : TraitName) (items : List Member) : TraitDecl :=
  { name := name.ident, items, generics := b.generics, vis := name.vis, attrs := b.attrs,
    innerAttrs := b.innerAttrs, unsafety := b.unsafety, loc := b.loc }

/-- The block with all its constraints in the where clause. -/
def ImplBlock.gather (b : ImplBlock) : ImplBlock := b.hoistBounds.linkSelf

/-- Makes a trait and its implementation of a block. -/
def ImplBlock.expand (b : ImplBlock) (args : ExtArgs) (c : Config) : Result Expansion := do
  b.ensureInherent
  let name ← TraitName.resolve args b c
  let items ← ofFault (declareAll b.items)
  let gathered := b.gather
  let implementation ← ofMisplaced (gathered.retarget name.ident)
  return ⟨gathered.declaration name items, implementation, name⟩

namespace Expansion

/-- The two items, the declaration first. -/
def items (e : Expansion) : List Item := [.decl e.declaration, .block e.implementation]

/-- The two items as text. -/
def render (e : Expansion) : Except Misplaced String := renderItems e.items

end Expansion

end TraitLift
