import Mathlib.Tactic
import TraitLift.Grammar.Rules
import TraitLift.Proofs.Grammar.Forest

/-!
The grammar of implementation blocks is one that charts and trees work for: no rule derives the empty
sequence, every rule derives something, and the rules have ranks. What can be derived at all is
computed by rounds: a rule is known to derive something once its body can be derived from the rules
known in the round before.
-/

namespace TraitLift.Grammar

variable {α τ ν : Type}

/-! ### Rules that derive something -/

/-- Whether the expression derives something if the known rules do. -/
def Expr.isProductive [DecidableEq ν] (known : List ν) : Expr τ ν → Bool
  | .empty | .tok _ | .star _ => true
  | .rule r => decide (r ∈ known)
  | .seq a b => a.isProductive known && b.isProductive known
  | .alt a b => a.isProductive known || b.isProductive known

/-- The rules that derive something if the known rules do. -/
def productiveFrom [DecidableEq ν] (G : Grammar α τ ν) (known : List ν) : List ν :=
  G.rules.filter fun r => (G.body r).isProductive known

variable [DecidableEq ν] {G : Grammar α τ ν}

theorem Expr.exists_derives (hG : ∀ c, ∃ t, G.accepts c t) {known : List ν}
    (hknown : ∀ r ∈ known, ∃ w, G.Derives (G.body r) w) :
    ∀ {e : Expr τ ν}, e.isProductive known → ∃ w, G.Derives e w
  | .empty, _ => ⟨[], .empty⟩
  | .tok c, _ => (hG c).elim fun t ht => ⟨[t], .tok ht⟩
  | .rule r, h => by
    obtain ⟨w, hw⟩ := hknown r (of_decide_eq_true h)
    exact ⟨w, .rule hw⟩
  | .seq a b, h => by
    rw [isProductive, Bool.and_eq_true] at h
    obtain ⟨u, hu⟩ := exists_derives hG hknown h.1
    obtain ⟨v, hv⟩ := exists_derives hG hknown h.2
    exact ⟨u ++ v, .seq hu hv⟩
  | .alt a b, h => by
    rw [isProductive, Bool.or_eq_true] at h
    rcases h with h | h
    · exact (exists_derives hG hknown h).elim fun w hw => ⟨w, .altLeft hw⟩
    · exact (exists_derives hG hknown h).elim fun w hw => ⟨w, .altRight hw⟩
  | .star a, _ => ⟨[], .starNil⟩

theorem exists_derives_of_mem_iterate (hG : ∀ c, ∃ t, G.accepts c t) : ∀ (n : Nat) {r : ν},
    r ∈ G.productiveFrom^[n] [] → ∃ w, G.Derives (G.body r) w
  | 0, r, h => by simp at h
  | n + 1, r, h => by
    rw [Function.iterate_succ_apply'] at h
    exact Expr.exists_derives hG (fun r hr => exists_derives_of_mem_iterate hG n hr)
      (List.mem_filter.1 h).2

/-! ### The grammar of blocks -/

theorem rust_accepts : ∀ c, ∃ t, rust.accepts c t := by
  have htoken : ∀ k : Kind, ∃ t : Token, t.kind = k :=
    fun k => ⟨{ (default : Token) with kind := k }, rfl⟩
  intro c
  obtain ⟨k, hk⟩ : ∃ k, c.has k := by
    cases c with
    | one k => exact ⟨k, by simp [TokenClass.has]⟩
    | plain => exact ⟨.name, rfl⟩
    | pathWord => exact ⟨.name, rfl⟩
    | literal => exact ⟨.number, rfl⟩
  obtain ⟨t, rfl⟩ := htoken k
  exact ⟨t, hk⟩

theorem rust_listed (r : Rule) : r ∈ rust.rules := by
  cases r <;> decide

theorem rust_solid (r : Rule) : (ruleBody r).nullable = false := by
  cases r <;> rfl

theorem rust_proper : rust.Proper := by
  have hall : ∀ r ∈ Rule.all, r ∈ rust.productiveFrom^[9] [] := by decide +kernel
  exact ⟨rust_listed, rust_solid,
    fun r => exists_derives_of_mem_iterate rust_accepts 9 (hall r (rust_listed r)), rust_accepts⟩

/-- The rank of a rule: above that of the rules that can be all of it. -/
def Rule.rank : Rule → Nat
  | .pathType | .fnParam | .genericParam | .methodMember | .constArg => 1
  | .constValue | .traitBound | .typeNoBounds => 2
  | .bounds | .type => 3
  | .typeArg | .inherentTarget | .bareFnArg => 4
  | _ => 0

/-- Whether the rules that can be all of a rule have a lower rank. -/
def Rule.isRanked (r : Rule) : Bool :=
  (stepsRest [ruleBody r]).all fun
    | (.rule r', m) => !nullableRest m || r'.rank < r.rank
    | (.tok _, _) => true

theorem rust_ranked : rust.Ranked Rule.rank := by
  refine ⟨fun r r' m hs hm => ?_, fun r => ?_⟩
  · have hr : r.isRanked := by
      cases r <;> decide +kernel
    have hstep := List.all_eq_true.1 hr _ hs
    simpa [hm] using hstep
  · cases r <;> decide

end TraitLift.Grammar
