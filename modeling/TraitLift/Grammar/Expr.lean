/-!
Grammars over expressions with choice, sequence and repetition, and the token sequences they derive.

A grammar gives every rule a body. What is left to read of a body is a list of expressions; `steps`
lists the symbols such a list can start with, each with what is left after it, in the order of
preference: an alternative before the ones to its right, an optional part or one more repetition
before its absence.
-/

namespace TraitLift

namespace Grammar

/-- An expression over token classes `τ` and rules `ν`. -/
inductive Expr (τ ν : Type) where
  | empty
  | tok (c : τ)
  | rule (r : ν)
  | seq (a b : Expr τ ν)
  | alt (a b : Expr τ ν)
  | star (a : Expr τ ν)
deriving DecidableEq, Repr

/-- What a step consumes: a token of a class, or whatever a rule derives. -/
inductive Symbol (τ ν : Type) where
  | tok (c : τ)
  | rule (r : ν)
deriving DecidableEq, Repr

end Grammar

/-- A grammar over tokens `α`: which tokens a class has, the rules, and the body of each rule. -/
structure Grammar (α τ ν : Type) where
  accepts : τ → α → Bool
  rules : List ν
  body : ν → Grammar.Expr τ ν

namespace Grammar

variable {α τ ν : Type}

/-- The token sequences that an expression derives. -/
inductive Derives (G : Grammar α τ ν) : Expr τ ν → List α → Prop where
  | empty : Derives G .empty []
  | tok {c : τ} {t : α} : G.accepts c t = true → Derives G (.tok c) [t]
  | rule {r : ν} {w : List α} : Derives G (G.body r) w → Derives G (.rule r) w
  | seq {a b : Expr τ ν} {u v : List α} :
      Derives G a u → Derives G b v → Derives G (.seq a b) (u ++ v)
  | altLeft {a b : Expr τ ν} {w : List α} : Derives G a w → Derives G (.alt a b) w
  | altRight {a b : Expr τ ν} {w : List α} : Derives G b w → Derives G (.alt a b) w
  | starNil {a : Expr τ ν} : Derives G (.star a) []
  | starCons {a : Expr τ ν} {u v : List α} :
      Derives G a u → Derives G (.star a) v → Derives G (.star a) (u ++ v)

namespace Expr

/-- One or more repetitions. -/
def plus (a : Expr τ ν) : Expr τ ν := seq a (star a)

/-- An optional part. -/
def opt (a : Expr τ ν) : Expr τ ν := alt a empty

/-- Parts one after the other. -/
def all : List (Expr τ ν) → Expr τ ν
  | [] => empty
  | [a] => a
  | a :: as => seq a (all as)

/-- A choice, from the most to the least preferred part. -/
def any : List (Expr τ ν) → Expr τ ν
  | [] => empty
  | [a] => a
  | a :: as => alt a (any as)

/-- Whether the expression derives the empty sequence, if no rule does. -/
def nullable : Expr τ ν → Bool
  | empty => true
  | tok _ | rule _ => false
  | seq a b => a.nullable && b.nullable
  | alt a b => a.nullable || b.nullable
  | star _ => true

/-- The symbols the expression can start with, each with what is left after it. -/
def steps : Expr τ ν → List (Symbol τ ν × List (Expr τ ν))
  | empty => []
  | tok c => [(.tok c, [])]
  | rule r => [(.rule r, [])]
  | seq a b =>
    a.steps.map (fun (s, k) => (s, k ++ [b])) ++ (if a.nullable then b.steps else [])
  | alt a b => a.steps ++ b.steps
  | star a => a.steps.map fun (s, k) => (s, k ++ [star a])

/-- The number of nodes. -/
def size : Expr τ ν → Nat
  | empty | tok _ | rule _ => 1
  | seq a b | alt a b => a.size + b.size + 1
  | star a => a.size + 1

end Expr

/-- Whether nothing more needs to be read. -/
def nullableRest (k : List (Expr τ ν)) : Bool := k.all Expr.nullable

/-- The symbols that can be read next, each with what is left after it. -/
def stepsRest : List (Expr τ ν) → List (Symbol τ ν × List (Expr τ ν))
  | [] => []
  | e :: k => e.steps.map (fun (s, r) => (s, r ++ k)) ++ (if e.nullable then stepsRest k else [])

end Grammar

end TraitLift
