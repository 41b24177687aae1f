/-!
Places in a text. Lines are ended by the newline character alone, and lines and columns count from
one, so the place after a text depends only on its newlines and on what follows the last of them.
-/

namespace TraitLift

/-- A place in a text, as a reader counts it. -/
structure Loc where
  line : Nat
  column : Nat
deriving DecidableEq, Repr, Inhabited

namespace Loc

/-- The place where every text starts. -/
def origin : Loc := ⟨1, 1⟩

/-- The place one character later. -/
def step (l : Loc) (c : Char) : Loc :=
  if c = '\n' then ⟨l.line + 1, 1⟩ else ⟨l.line, l.column + 1⟩

/-- The place after a text that starts at `l`. -/
def after (l : Loc) (cs : List Char) : Loc := cs.foldl step l

@[simp]
theorem after_nil (l : Loc) : l.after [] = l := rfl

@[simp]
theorem after_cons (l : Loc) (c : Char) (cs : List Char) :
    l.after (c :: cs) = (l.step c).after cs := rfl

theorem after_append (l : Loc) (as bs : List Char) :
    l.after (as ++ bs) = (l.after as).after bs := List.foldl_append

end Loc

end TraitLift
