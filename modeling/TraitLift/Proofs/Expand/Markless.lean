import Mathlib.Tactic
import TraitLift.Proofs.Expand.Sites
import TraitLift.Proofs.Expand.Lookahead

/-!
Where there is no mark there is nothing to find (`Markless.findings_eq_nil`). The scanner only looks at
what is behind a token that it has come to, so it is enough that no attribute in any rest of the
tokens is a mark.
-/

namespace TraitLift

/-- No attribute that starts anywhere in the tokens marks a block. -/
def Markless (source : List Char) (c : Config) (ts : List Token) : Prop :=
  ∀ us, us <:+ ts → ∀ a rest, outerAttr? source us = some (a, rest) → a.isMark c = false

namespace Markless

variable {source : List Char} {c : Config} {ts us : List Token}

theorem of_suffix (h : Markless source c ts) (hus : us <:+ ts) : Markless source c us :=
  fun vs hvs => h vs (hvs.trans hus)

theorem after_attr (h : Markless source c ts) {a : OuterAttr} {rest : List Token}
    (ha : outerAttr? source ts = some (a, rest)) : Markless source c rest := by
  obtain ⟨front, rfl, -⟩ := outerAttr?_split ha
  exact h.of_suffix (List.suffix_append ..)

/-- A run of attributes has no mark, nor is there one behind it. -/
theorem attrRun (h : Markless source c ts) :
    (∀ a ∈ (attrRun source ts).1, a.isMark c = false) ∧ Markless source c (attrRun source ts).2 := by
  fun_induction TraitLift.attrRun source ts with
  | case1 => exact ⟨by simp, h⟩
  | case2 ts a rest ha as rest' hrun ih =>
    obtain ⟨has, hrest⟩ := ih (h.after_attr ha)
    simp only [hrun] at has hrest
    exact ⟨List.forall_mem_cons.2 ⟨h ts List.suffix_rfl a rest ha, has⟩, hrest⟩

/-- Attributes that mark nothing are passed over. -/
theorem inspect_eq {run : List OuterAttr} (h : ∀ a ∈ run, a.isMark c = false) :
    inspect c run ts = (none, ts) := by
  have hnone : run.filter (·.isMark c) = [] := List.filter_eq_nil_iff.2 fun a ha => by simp [h a ha]
  unfold inspect
  rw [hnone]
  cases run.head? <;> rfl

/-- In tokens without a mark there is nothing to find. -/
theorem findings_eq_nil (h : Markless source c ts) : findings source c ts = [] := by
  fun_induction findings source c ts with
  | case1 => rfl
  | case2 t rest hattr ih => exact ih (h.of_suffix (List.suffix_cons ..))
  | case3 t rest a after hattr run seen ih =>
    obtain ⟨hrun, hrest⟩ := (h.after_attr hattr).attrRun
    have hseen : seen = (none, run.2) := inspect_eq (List.forall_mem_cons.2
      ⟨h _ List.suffix_rfl a after hattr, hrun⟩)
    rw [hseen] at ih ⊢
    simpa using ih hrest

end Markless

end TraitLift
