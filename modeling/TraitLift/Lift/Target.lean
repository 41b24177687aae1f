import TraitLift.Fault
import TraitLift.Print.Item

/-!
From a block on a type to an implementation of a trait for that type: the trait takes the parameters
of the block as its arguments, and the members lose their visibility, which in such a block is that
of the trait.

Work on a block stops at a fault of the block, or at a node that stands where it does not belong. The second
cannot happen to a block that was read from source text.
-/

namespace TraitLift

/-- Why there is no result. -/
inductive Failure where
  | fault (f : Fault)
  | misplaced (m : Misplaced)
deriving DecidableEq, Repr

/-- Work that can fail. -/
abbrev Result (α : Type) := Except Failure α

/-- A fault as a failure. -/
def ofFault {α : Type} : Except Fault α → Result α
  | .ok a => .ok a
  | .error f => .error (.fault f)

/-- A misplaced node as a failure. -/
def ofMisplaced {α : Type} : Except Misplaced α → Result α
  | .ok a => .ok a
  | .error m => .error (.misplaced m)

namespace GenericParam

/-- The argument that refers to a parameter. -/
def toArg : GenericParam → Except Misplaced GenericArg
  | .type n _ _ _ => .ok (.type (TypeExpr.named n))
  | .lifetime p => .ok (.lifetime p.name)
  | .const n _ _ _ => .ok (.const n)
  | .misplaced k => .error ⟨.projected, k⟩

end GenericParam

/-- The arguments that refer to some parameters; none at all if there are no parameters. -/
def projectParams (ps : List GenericParam) : Except Misplaced (Option GenericArgs) :=
  if ps.isEmpty then .ok none
  else (ps.mapM GenericParam.toArg).map fun as => some (.angle as false)

/-- A name with the arguments that refer to some parameters. -/
def contractPath (name : String) (ps : List GenericParam) : Except Misplaced Path :=
  (projectParams ps).map (Path.simple name)

/-- The member without a visibility of its own. -/
def Member.stripVisibility : Member → Member
  | .method m => .method { m with vis := .inherited }
  | .constant c => .constant { c with vis := .inherited }
  | .assocType t => .assocType { t with vis := .inherited }
  | m => m

/-- A block that names a trait is refused. -/
def ImplBlock.ensureInherent (b : ImplBlock) : Result Unit :=
  match b.traitRef with
  | none => .ok ()
  | some r => do
    let path ← ofMisplaced r.doc.text
    .error (.fault (.implementsTrait path b.loc))

/-- The block as an implementation of the trait `name` for its self type. -/
def ImplBlock.retarget (b : ImplBlock) (name : String) : Except Misplaced ImplBlock := do
  let path ← contractPath name b.generics.params
  return { b with traitRef := some { path }, items := b.items.map Member.stripVisibility }

end TraitLift
