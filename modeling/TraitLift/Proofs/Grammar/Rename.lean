import Mathlib.Tactic
import TraitLift.Grammar.Tree

/-!
Reading looks at a token only through the classes that accept it. Tokens in the place of others of
the same classes are read the same way: the trees have the same shape, with the new tokens at their
leaves (`read_map`).
-/

namespace TraitLift.Grammar

variable {α τ ν : Type}

/-! ### New leaves -/

theorem foldAll_eq_map {β : Type} (leaf : α → β) (node : ν → List β → β) :
    ∀ cs : List (Tree α ν), foldAll leaf node cs = cs.map (Tree.fold leaf node)
  | [] => rfl
  | c :: cs => by rw [foldAll, foldAll_eq_map leaf node cs, List.map_cons]

theorem leavesOf_eq_flatMap : ∀ cs : List (Tree α ν), leavesOf cs = cs.flatMap Tree.leaves
  | [] => rfl
  | c :: cs => by rw [leavesOf, leavesOf_eq_flatMap cs, List.flatMap_cons]

theorem leaves_subset_leavesOf {t : Tree α ν} {cs : List (Tree α ν)} (h : t ∈ cs) :
    t.leaves ⊆ leavesOf cs := by
  rw [leavesOf_eq_flatMap]
  exact fun x hx => List.mem_flatMap.2 ⟨t, h, hx⟩

/-- The tree with other tokens at its leaves. -/
def Tree.map (f : α → α) : Tree α ν → Tree α ν := Tree.fold (fun t => .leaf (f t)) .node

@[simp]
theorem Tree.map_leaf (f : α → α) (t : α) : (leaf t : Tree α ν).map f = .leaf (f t) := rfl

@[simp]
theorem Tree.map_node (f : α → α) (r : ν) (cs : List (Tree α ν)) :
    (node r cs).map f = .node r (cs.map (Tree.map f)) := by
  rw [map, fold, foldAll_eq_map]

/-- The part with another token. -/
def Part.map (f : α → α) : Part α ν → Part α ν
  | .token t => .token (f t)
  | .range r start stop => .range r start stop

/-- The outcome with other tokens. -/
def Reading.map (f : α → α) : Reading α ν → Reading α ν
  | .sentence parts => .sentence (parts.map (Tree.map f))
  | .stuck t => .stuck (f t)
  | .short => .short

/-! ### The chart -/

section

variable [DecidableEq τ] [DecidableEq ν] {G : Grammar α τ ν} {f : α → α}
  (hf : ∀ c t, G.accepts c (f t) = G.accepts c t)

include hf

theorem advance_map (size : Nat) (columns : Array (Column τ ν)) (t : α) :
    G.advance size columns (f t) = G.advance size columns t := by
  simp only [advance, hf]

theorem feed_map (size : Nat) : ∀ (ts : List α) (columns : Array (Column τ ν)),
    G.feed size columns (ts.map f) =
      ((G.feed size columns ts).1, (G.feed size columns ts).2.map f)
  | [], _ => rfl
  | t :: ts, columns => by
    rw [List.map_cons, feed, feed, advance_map hf]
    cases G.advance size columns t with
    | none => rfl
    | some col => exact feed_map size ts (columns.push col)

end

/-! ### The trees -/

theorem mapM_map_of_comm {β γ : Type} {g : β → β} {k : γ → γ} {p q : β → Option γ}
    (h : ∀ b, p (g b) = (q b).map k) : ∀ bs : List β,
    (bs.map g).mapM p = (bs.mapM q).map (List.map k)
  | [] => rfl
  | b :: bs => by
    rw [List.map_cons, List.mapM_cons, List.mapM_cons, h, mapM_map_of_comm h bs]
    cases q b with
    | none => rfl
    | some c => cases bs.mapM q <;> rfl

namespace Forest

variable [DecidableEq ν] {f : α → α} (F : Forest α τ ν)

/-- The forest over other tokens. -/
def map (f : α → α) : Forest α τ ν := { F with tokens := F.tokens.map f }

variable {F} (hf : ∀ c t, F.grammar.accepts c (f t) = F.grammar.accepts c t)

include hf

theorem way_map (stop : Nat) : ∀ (fuel : Nat) (rest : List (Expr τ ν)) (pos : Nat),
    (F.map f).way stop fuel rest pos = (F.way stop fuel rest pos).map (List.map (Part.map f))
  | 0, _, _ => rfl
  | fuel + 1, rest, pos => by
    have ih := way_map stop fuel
    rw [way, way]
    split
    · split <;> rfl
    · rw [List.map_findSome?]
      congr 1
      funext step
      obtain ⟨symbol, k⟩ := step
      cases symbol with
      | tok c =>
        simp only [map, Array.getElem?_map, Function.comp_apply]
        cases F.tokens[pos]? with
        | none => rfl
        | some t =>
          simp only [Option.map_some, hf]
          split
          · have htail := ih k (pos + 1)
            simp only [map] at htail
            rw [htail, Option.map_map, Option.map_map]
            rfl
          · rfl
      | rule r =>
        simp only [Function.comp_apply, List.map_findSome?]
        congr 1
        funext stop'
        simp only [Function.comp_apply]
        split
        · rw [ih, Option.map_map, Option.map_map]
          rfl
        · rfl

theorem trees_map : ∀ (fuel : Nat) (e : Expr τ ν) (pos stop : Nat),
    (F.map f).trees fuel e pos stop = (F.trees fuel e pos stop).map (List.map (Tree.map f))
  | 0, _, _, _ => rfl
  | fuel + 1, e, pos, stop => by
    have ih := trees_map fuel
    rw [trees, trees, way_map hf]
    cases F.way stop (stop - pos + 1) [e] pos with
    | none => rfl
    | some parts =>
      refine mapM_map_of_comm (fun part => ?_) parts
      cases part with
      | token t => rfl
      | range r i j =>
        show ((F.map f).trees fuel (F.grammar.body r) i j).map (Tree.node r) =
          ((F.trees fuel (F.grammar.body r) i j).map (Tree.node r)).map (Tree.map f)
        rw [ih, Option.map_map, Option.map_map]
        congr 1
        funext cs
        exact (Tree.map_node f r cs).symm

end Forest

/-- Other tokens of the same classes are read the same way. -/
theorem read_map [DecidableEq τ] [DecidableEq ν] {G : Grammar α τ ν} {f : α → α}
    (hf : ∀ c t, G.accepts c (f t) = G.accepts c t) (e : Expr τ ν) (ts : List α) :
    G.read e (ts.map f) = (G.read e ts).map f := by
  unfold read chart
  rw [feed_map hf]
  generalize G.feed (G.restLimit + e.size + 1) #[G.column 0 [⟨0, none, [e]⟩]] ts = fed
  obtain ⟨columns, rest⟩ := fed
  cases rest with
  | cons t rest => rfl
  | nil =>
    simp only [List.map_nil, List.length_map]
    split
    · have htrees := Forest.trees_map (F := ⟨G, ts.toArray, Spans.ofChart columns⟩) hf
        ((ts.length + 1) * (G.rules.length + 1)) e 0 ts.length
      simp only [Forest.map, List.map_toArray] at htrees
      rw [htrees]
      cases Forest.trees _ _ e 0 ts.length <;> rfl
    · rfl

end TraitLift.Grammar
