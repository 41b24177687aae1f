import TraitLift.Grammar.Chart

/-!
Derivation trees out of a chart. The chart knows which rules derive which ranges of tokens; a tree
is found from the top by choosing, for each rule, a way through its body over the range it has to
cover. Of several ways the first in the order of preference of `stepsRest` is taken, and of several
ranges for the next rule the longest, so each sentence has one tree.
-/

namespace TraitLift.Grammar

/-- A derivation tree. -/
inductive Tree (α ν : Type) where
  | leaf (t : α)
  | node (r : ν) (children : List (Tree α ν))

/-- A part of a body: a token, or a rule with the range it covers. -/
inductive Part (α ν : Type) where
  | token (t : α)
  | range (r : ν) (start stop : Nat)

variable {α τ ν : Type}

mutual

/-- The tokens at the leaves, from left to right. -/
def Tree.leaves : Tree α ν → List α
  | .leaf t => [t]
  | .node _ cs => leavesOf cs

/-- The tokens at the leaves of some trees, from left to right. -/
def leavesOf : List (Tree α ν) → List α
  | [] => []
  | c :: cs => c.leaves ++ leavesOf cs

end

mutual

/-- The value of a tree, from the values of its leaves and each rule's value from its parts'. -/
def Tree.fold {β : Type} (leaf : α → β) (node : ν → List β → β) : Tree α ν → β
  | .leaf t => leaf t
  | .node r cs => node r (foldAll leaf node cs)

/-- The values of some trees. -/
def foldAll {β : Type} (leaf : α → β) (node : ν → List β → β) : List (Tree α ν) → List β
  | [] => []
  | c :: cs => c.fold leaf node :: foldAll leaf node cs

end

/-- For every position, the rules that can be read from there, each with the position where it
ends, from the last to the first. -/
abbrev Spans (ν : Type) := Array (List (ν × Nat))

/-- Enters the rules that end in a column at `stop`, each once. -/
def Spans.enter [DecidableEq ν] (spans : Spans ν) (stop : Nat) (col : Column τ ν) : Spans ν :=
  col.items.foldl (fun spans i =>
    match i.isFinished, i.rule with
    | true, some r => spans.modify i.start fun l => if (r, stop) ∈ l then l else (r, stop) :: l
    | _, _ => spans) spans

/-- The ranges of all rules in a chart. -/
def Spans.ofChart [DecidableEq ν] (columns : Array (Column τ ν)) : Spans ν :=
  columns.toList.zipIdx.foldl (fun spans (col, stop) => spans.enter stop col)
    (Array.replicate columns.size [])

/-- What a tree is searched in: the grammar, the tokens, and the ranges of the rules. -/
structure Forest (α τ ν : Type) where
  grammar : Grammar α τ ν
  tokens : Array α
  spans : Spans ν

namespace Forest

variable [DecidableEq ν]

/-- Where the rule `r` can end if it begins at `pos`, the last position first. -/
def ends (F : Forest α τ ν) (r : ν) (pos : Nat) : List Nat :=
  ((F.spans[pos]?).getD []).filterMap fun (r', stop) => if r = r' then some stop else none

/-- The preferred way through what is left of a body from `pos` to `stop`. Each step reads at least
one token, so `fuel` need not exceed the length of the range by more than one. -/
def way (F : Forest α τ ν) (stop : Nat) :
    Nat → List (Expr τ ν) → Nat → Option (List (Part α ν))
  | 0, _, _ => none
  | fuel + 1, rest, pos =>
    if pos = stop then if nullableRest rest then some [] else none
    else
      (stepsRest rest).findSome? fun
        | (.tok c, k) =>
          match F.tokens[pos]? with
          | some t =>
            if F.grammar.accepts c t then (F.way stop fuel k (pos + 1)).map (.token t :: ·)
            else none
          | none => none
        | (.rule r, k) =>
          (F.ends r pos).findSome? fun e =>
            if e ≤ stop then (F.way stop fuel k e).map (.range r pos e :: ·) else none

/-- The trees of the parts of an expression from `pos` to `stop`; `fuel` bounds their height. -/
def trees (F : Forest α τ ν) :
    Nat → Expr τ ν → Nat → Nat → Option (List (Tree α ν))
  | 0, _, _, _ => none
  | fuel + 1, e, pos, stop => do
    let parts ← F.way stop (stop - pos + 1) [e] pos
    parts.mapM fun
      | .token t => some (.leaf t)
      | .range r i j => (F.trees fuel (F.grammar.body r) i j).map (.node r)

end Forest

/-- What reading a token sequence comes to: the trees of the parts of a sentence, a token where it
goes wrong, or an end that comes too early. -/
inductive Reading (α ν : Type) where
  | sentence (parts : List (Tree α ν))
  | stuck (t : α)
  | short

variable [DecidableEq τ] [DecidableEq ν]

/-- Reads a token sequence as a sentence derived from `e`. A tree's height is bounded by the number
of rules for every position, as no rule repeats itself over the same range. -/
def read (G : Grammar α τ ν) (e : Expr τ ν) (ts : List α) : Reading α ν :=
  let (columns, rest) := G.chart e ts
  match rest with
  | t :: _ => .stuck t
  | [] =>
    if isSentence columns then
      let F : Forest α τ ν := ⟨G, ts.toArray, Spans.ofChart columns⟩
      match F.trees ((ts.length + 1) * (G.rules.length + 1)) e 0 ts.length with
      | some parts => .sentence parts
      | none => .short
    else .short

end TraitLift.Grammar
