import TraitLift.Config
import TraitLift.Lift.Target
import TraitLift.Token.Lexer

/-!
The name of the trait. A name in the attribute's arguments wins; without one the name is made of a
fixed start and a fingerprint of the tokens of the block, so that layout and plain comments have no
influence on it.
-/

namespace TraitLift

/-- The name and visibility of a trait, and whether the name was made from a fingerprint. -/
structure TraitName where
  ident : String
  vis : Visibility := .inherited
  derived : Bool := false
deriving DecidableEq, Repr

/-- The fingerprint of the tokens of a text. -/
def fingerprint (raw : String) (c : Config) : Except Fault UInt64 :=
  (tokenText raw).map fun s => c.fingerprint s.toUTF8.toList

/-- The text that a block was read from; failing that, the text it is written as. -/
def ImplBlock.rawText (b : ImplBlock) : Except Misplaced String :=
  match b.source with
  | some s => .ok s
  | none => b.render

/-- The name of the trait to be made of a block. -/
def TraitName.resolve (args : ExtArgs) (b : ImplBlock) (c : Config) : Result TraitName := do
  let vis := args.vis.getD .inherited
  match args.name with
  | some ident => return { ident, vis }
  | none =>
    let raw ← ofMisplaced b.rawText
    let digest ← ofFault (fingerprint raw c)
    return { ident := c.namePrefix ++ toString digest.toNat, vis, derived := true }

end TraitLift
