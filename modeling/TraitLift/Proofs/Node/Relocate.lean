import Mathlib.Tactic
import TraitLift.Lift.Expansion

/-!
Places in what is read and made. Members, blocks, declarations and faults say where they were read;
`relocate` gives all of them new places, and a block the text it was read from. Two of them are the
same up to places if they are once every place is the same (`unplaced`).
-/

namespace TraitLift

variable (g : Loc → Loc)

/-- The fault at another place. -/
def Fault.relocate : Fault → Fault
  | .unexpectedToken text goal loc => .unexpectedToken text goal (g loc)
  | .unexpectedEnd goal => .unexpectedEnd goal
  | .unexpectedChar c goal loc => .unexpectedChar c goal (g loc)
  | .strayName name loc => .strayName name (g loc)
  | .typedReceiver loc => .typedReceiver (g loc)
  | .untypedParam pattern loc => .untypedParam pattern (g loc)
  | .badArguments given loc => .badArguments given (loc.map g)
  | .implementsTrait path loc => .implementsTrait path (loc.map g)
  | .unsupported what text others loc => .unsupported what text others (loc.map g)

/-- The failure at another place. -/
def Failure.relocate : Failure → Failure
  | .fault f => .fault (f.relocate g)
  | .misplaced m => .misplaced m

/-- The member at another place. -/
def Member.relocate : Member → Member
  | .method m => .method { m with loc := m.loc.map g }
  | .constant c => .constant { c with loc := c.loc.map g }
  | .assocType t => .assocType { t with loc := t.loc.map g }
  | .macroCall m => .macroCall { m with loc := m.loc.map g }
  | .verbatim text loc => .verbatim text (loc.map g)
  | .foreign kind text loc => .foreign kind text (loc.map g)
  | .traitMethod m => .traitMethod { m with loc := m.loc.map g }
  | .traitConst c => .traitConst { c with loc := c.loc.map g }
  | .traitType t => .traitType { t with loc := t.loc.map g }
  | .misplaced kind text => .misplaced kind text

/-- The block at another place, read from the text `source`. -/
def ImplBlock.relocate (source : Option String) (b : ImplBlock) : ImplBlock :=
  { b with items := b.items.map (Member.relocate g), source := source, loc := b.loc.map g }

/-- The declaration at another place. -/
def TraitDecl.relocate (d : TraitDecl) : TraitDecl :=
  { d with items := d.items.map (Member.relocate g), loc := d.loc.map g }

/-- The declaration and implementation at another place. -/
def Expansion.relocate (source : Option String) (e : Expansion) : Expansion :=
  { e with
    declaration := e.declaration.relocate g
    implementation := e.implementation.relocate g source }

/-- What is read, or why not, at other places. -/
def relocated {α : Type} (move : α → α) : Except Fault α → Except Fault α
  | .ok a => .ok (move a)
  | .error f => .error (f.relocate g)

/-- What is made of a block, or why not, at other places. -/
def relocatedResult {α : Type} (move : α → α) : Result α → Result α
  | .ok a => .ok (move a)
  | .error f => .error (f.relocate g)

/-! ### Up to places -/

/-- The expansion without its places and without the text it was read from. -/
def Expansion.unplaced (e : Expansion) : Expansion := e.relocate (fun _ => Loc.origin) none

/-- The failure without its place. -/
def Failure.unplaced (f : Failure) : Failure := f.relocate fun _ => Loc.origin

theorem Member.relocate_relocate (g' : Loc → Loc) (m : Member) :
    (m.relocate g).relocate g' = m.relocate (g' ∘ g) := by
  cases m <;> simp [relocate]

theorem Expansion.unplaced_relocate (source : Option String) (e : Expansion) :
    (e.relocate g source).unplaced = e.unplaced := by
  simp only [unplaced, relocate, TraitDecl.relocate, ImplBlock.relocate, List.map_map,
    Option.map_map, Function.comp_def, Member.relocate_relocate]

theorem Failure.unplaced_relocate (f : Failure) : (f.relocate g).unplaced = f.unplaced := by
  cases f with
  | misplaced m => rfl
  | fault f => cases f <;> simp [unplaced, relocate, Fault.relocate, Function.comp_def]

@[simp]
theorem ofFault_relocated {α : Type} (move : α → α) (r : Except Fault α) :
    ofFault (relocated g move r) = relocatedResult g move (ofFault r) := by
  cases r <;> rfl

end TraitLift
