import TraitLift.Grammar.Expr

/-!
Charts: for every position of a token sequence, the rules that can be under way there.

An item says that a rule was begun at an earlier position and what of its body is left to read. The
items of a position follow from the position before it: those that can read the token between the
two, and those whose next rule has just been read to its end. A sequence of tokens can be extended
to a derivable one as long as some item can read its next token; the first token that no item can
read is where it goes wrong. No rule of the grammar may derive the empty sequence.
-/

namespace TraitLift.Grammar

/-- A rule under way, or the whole sentence: where it began and what is left to read. -/
structure Item (τ ν : Type) where
  start : Nat
  rule : Option ν
  rest : List (Expr τ ν)
deriving DecidableEq, Repr

/-- One position: the items that have read something, the items that wait for a rule begun here, and
the items that can read a token here. The last two are given as they will be afterwards. -/
structure Column (τ ν : Type) where
  items : List (Item τ ν)
  waiting : List (ν × Item τ ν)
  reading : List (τ × Item τ ν)

variable {α τ ν : Type}

namespace Item

/-- Whether the item can end here. -/
def isFinished (i : Item τ ν) : Bool := nullableRest i.rest

/-- The rules the item can read next, each with the item afterwards. -/
def waiting (i : Item τ ν) : List (ν × Item τ ν) :=
  (stepsRest i.rest).filterMap fun
    | (.rule r, k) => some (r, { i with rest := k })
    | (.tok _, _) => none

/-- The token classes the item can read next, each with the item afterwards. -/
def reading (i : Item τ ν) : List (τ × Item τ ν) :=
  (stepsRest i.rest).filterMap fun
    | (.tok c, k) => some (c, { i with rest := k })
    | (.rule _, _) => none

end Item

/-- Adds to a set, kept as a list without repetitions, what is not in it yet; returns the additions
and the set. -/
def addNew {β : Type} [DecidableEq β] (seen : List β) : List β → List β × List β
  | [] => ([], seen)
  | x :: xs =>
    if x ∈ seen then addNew seen xs
    else
      let (fresh, all) := addNew (x :: seen) xs
      (x :: fresh, all)

/-- Everything reachable from `work` by `next`, together with `seen`, which holds `work`; `fuel`
bounds the number of elements looked at. -/
def reach {β : Type} [DecidableEq β] (next : β → List β) : Nat → List β → List β → List β
  | 0, _, seen => seen
  | _, [], seen => seen
  | fuel + 1, x :: work, seen =>
    let (fresh, all) := addNew seen (next x)
    reach next fuel (fresh ++ work) all

/-- Everything reachable from `init` by `next`. -/
def closure {β : Type} [DecidableEq β] (next : β → List β) (fuel : Nat) (init : List β) : List β :=
  let (fresh, all) := addNew [] init
  reach next fuel fresh all

variable [DecidableEq τ] [DecidableEq ν]

/-- A bound on the number of different rests of bodies. -/
def restLimit (G : Grammar α τ ν) : Nat :=
  G.rules.foldr (fun r n => (G.body r).size + 1 + n) 0

/-- The item that begins a rule. -/
def begin (G : Grammar α τ ν) (pos : Nat) (r : ν) : Item τ ν := ⟨pos, some r, [G.body r]⟩

/-- The rules that can be begun at a position where some rules are waited for. -/
def predicted (G : Grammar α τ ν) (awaited : List ν) : List ν :=
  closure (fun r => (G.begin 0 r).waiting.map Prod.fst) G.rules.length awaited

/-- The column at `pos` of the items that have read something. -/
def column (G : Grammar α τ ν) (pos : Nat) (items : List (Item τ ν)) : Column τ ν :=
  let rules := G.predicted (items.flatMap fun i => i.waiting.map Prod.fst)
  let under := items ++ rules.map (G.begin pos)
  ⟨items, under.flatMap Item.waiting, under.flatMap Item.reading⟩

/-- The items that go on when `i` has just ended: those that waited for its rule where it began. -/
def resumed (columns : Array (Column τ ν)) (i : Item τ ν) : List (Item τ ν) :=
  match i.isFinished, i.rule, columns[i.start]? with
  | true, some r, some col => col.waiting.filterMap fun (r', j) => if r = r' then some j else none
  | _, _, _ => []

/-- The column after one more token, if some item can read it. `size` bounds the number of items
that began at one position. -/
def advance (G : Grammar α τ ν) (size : Nat) (columns : Array (Column τ ν)) (t : α) :
    Option (Column τ ν) :=
  let read := (columns.back?.map Column.reading).getD []
  let kernel := read.filterMap fun (c, i) => if G.accepts c t then some i else none
  if kernel.isEmpty then none
  else
    let items := closure (resumed columns) (size * (columns.size + 1)) kernel
    some (G.column columns.size items)

/-- Reads tokens as long as possible; returns the columns and the tokens left over. -/
def feed (G : Grammar α τ ν) (size : Nat) (columns : Array (Column τ ν)) :
    List α → Array (Column τ ν) × List α
  | [] => (columns, [])
  | t :: ts =>
    match G.advance size columns t with
    | some col => G.feed size (columns.push col) ts
    | none => (columns, t :: ts)

/-- The columns of a sentence derived from `e`, and the tokens from the first one on that cannot
be part of such a sentence. -/
def chart (G : Grammar α τ ν) (e : Expr τ ν) (ts : List α) : Array (Column τ ν) × List α :=
  G.feed (G.restLimit + e.size + 1) #[G.column 0 [⟨0, none, [e]⟩]] ts

/-- Whether the tokens read so far are a whole sentence. -/
def isSentence (columns : Array (Column τ ν)) : Bool :=
  match columns.back? with
  | some col => col.items.any fun i => i.rule.isNone && i.isFinished
  | none => false

end TraitLift.Grammar
