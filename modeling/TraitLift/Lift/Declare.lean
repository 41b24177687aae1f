import TraitLift.Fault
import TraitLift.Node.Block

/-!
From the members of a block to the members of a trait: functions lose their bodies, constants their
values, types their definitions, and all of them visibility and `default`. Attributes stay. Macro
calls and members kept as written go over as they are. Anything else has no place in a trait.
-/

namespace TraitLift

namespace Member

/-- What a member becomes in the trait, or the text of a member that has no place there. -/
def declare : Member → Except String Member
  | .method m => .ok (.traitMethod ⟨m.sig, m.attrs, m.loc⟩)
  | .constant c => .ok (.traitConst ⟨c.name, c.ty, c.attrs, c.loc⟩)
  | .assocType t => .ok (.traitType ⟨t.name, t.generics, t.bounds, t.attrs, t.loc⟩)
  | .macroCall m => .ok (.macroCall m)
  | .verbatim text loc => .ok (.verbatim text loc)
  | .foreign _ text _ => .error text
  | .misplaced _ text => .error text
  | .traitMethod _ | .traitConst _ | .traitType _ => .error ""

/-- The text of a member that has no place in a trait. -/
def rejected? (m : Member) : Option String :=
  match m.declare with
  | .ok _ => none
  | .error text => some text

/-- What a member is, in words. -/
def describe : Member → String
  | .method _ => "Method"
  | .constant _ => "Constant"
  | .assocType _ => "AssociatedType"
  | .macroCall _ => "MacroInvocation"
  | .verbatim .. => "Verbatim"
  | .foreign kind _ _ => "`" ++ kind ++ "` item"
  | .traitMethod _ => "TraitMethod"
  | .traitConst _ => "TraitConst"
  | .traitType _ => "TraitType"
  | .misplaced kind _ => kind

/-- Where a member was read. -/
def loc? : Member → Option Loc
  | .method m => m.loc
  | .constant c => c.loc
  | .assocType t => t.loc
  | .macroCall m => m.loc
  | .verbatim _ loc | .foreign _ _ loc => loc
  | .traitMethod m => m.loc
  | .traitConst c => c.loc
  | .traitType t => t.loc
  | .misplaced .. => none

end Member

/-- The members of the trait, one for each member of the block and in the same order. If some member
has no place in a trait, the first such one is reported, with the texts of the others. -/
def declareAll (items : List Member) : Except Fault (List Member) :=
  match items.find? (·.rejected?.isSome), items.filterMap Member.rejected? with
  | some m, text :: others => .error (.unsupported m.describe text others m.loc?)
  | _, _ => .ok (items.filterMap (·.declare.toOption))

end TraitLift
