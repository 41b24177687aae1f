import Mathlib.Tactic
import TraitLift.Proofs.Lift.Confluence

/-!
Linking is a closure. Where a predicate of a block is on its self type, linking adds the same
predicate on `Self`, and the other way round. `MirrorClosure` collects what that makes of a where
clause: the old predicates in front, behind them the mirror images that were not there, each once,
and no predicate that is not needed. Main statement: linking gives the mirror closure of every where
clause and leaves a block without one, or on the bare `Self`, as it is; linking twice is linking once.
-/

namespace TraitLift

/-- Of the predicates, those on `selfTy` and those on `Self` say the same. -/
def MirrorClosed (selfTy : TypeExpr) (qs : List Predicate) : Prop :=
  ∀ ls bs, .type ls selfTy bs ∈ qs ↔ .type ls TypeExpr.selfAlias bs ∈ qs

/-- What linking makes of a block `b` with the where clause `ps`. -/
structure ImplBlock.MirrorClosure (b : ImplBlock) (ps : List Predicate) (b' : ImplBlock) : Prop where
  /-- Nothing but the where clause changes; in it the old predicates stand first, and what comes
  behind them are mirror images of them that were not there, each once. -/
  additions : ∃ added, b' = { b with generics := { b.generics with clause := some (ps ++ added) } } ∧
    added.Nodup ∧ ∀ q ∈ added, q ∉ ps ∧ ∃ p ∈ ps, Predicate.Mirrors b.selfTy p q
  /-- What is asked of the self type is asked of `Self`, and the other way round. -/
  closed : MirrorClosed b.selfTy b'.generics.predicates
  /-- Every closed list that has the old predicates has the new ones. -/
  least : ∀ qs, ps ⊆ qs → MirrorClosed b.selfTy qs → b'.generics.predicates ⊆ qs

theorem MirrorClosed.mem_of_mirrors {selfTy : TypeExpr} {qs : List Predicate}
    (h : MirrorClosed selfTy qs) {p q : Predicate} (hpq : Predicate.Mirrors selfTy p q)
    (hp : p ∈ qs) : q ∈ qs := by
  cases hpq with
  | toSelf => exact (h _ _).1 hp
  | ofSelf => exact (h _ _).2 hp

namespace ImplBlock

theorem mirrorClosed_linkSelf (b : ImplBlock) :
    MirrorClosed b.selfTy b.linkSelf.generics.predicates := fun _ _ =>
  ⟨mem_predicates_linkSelf_of_mirrors .toSelf, mem_predicates_linkSelf_of_mirrors .ofSelf⟩

/-- A block whose predicates are closed has no twins to add. -/
theorem twins_eq_nil {b : ImplBlock} (h : MirrorClosed b.selfTy b.generics.predicates) :
    b.twins = [] := by
  rw [List.eq_nil_iff_forall_not_mem]
  intro q hq
  obtain ⟨-, hnew, p, hp, hpq⟩ := mem_twins_iff.1 hq
  exact hnew (h.mem_of_mirrors hpq hp)

theorem linkSelf_eq_self {b : ImplBlock} (h : b.twins = []) : b.linkSelf = b := by
  rw [linkSelf, h]
  rfl

theorem linkSelf_of_clause {b : ImplBlock} {ps : List Predicate} (h : b.generics.clause = some ps) :
    b.linkSelf = { b with generics := { b.generics with clause := some (ps ++ b.twins) } } := by
  have hps : b.generics.predicates = ps := by rw [Generics.predicates, h, Option.getD_some]
  rw [linkSelf]
  split
  · next htwins =>
    rw [List.isEmpty_iff.1 htwins, List.append_nil, ← h]
  · rw [hps]

theorem twins_linkSelf (b : ImplBlock) : b.linkSelf.twins = [] := by
  refine twins_eq_nil ?_
  rw [selfTy_linkSelf]
  exact b.mirrorClosed_linkSelf

/-- Linking leaves a block as it is if it has no where clause or is on the bare `Self`; otherwise it
gives the mirror closure of its where clause. Linking once more changes nothing. -/
theorem linkSelf_mirrorClosure (b : ImplBlock) :
    (b.selfTy = TypeExpr.selfAlias ∨ b.generics.clause = none → b.linkSelf = b) ∧
      (∀ ps, b.generics.clause = some ps → b.selfTy ≠ TypeExpr.selfAlias →
        MirrorClosure b ps b.linkSelf) ∧
      b.linkSelf.linkSelf = b.linkSelf := by
  refine ⟨fun h => linkSelf_eq_self ?_, fun ps hps _ => ?_, linkSelf_eq_self b.twins_linkSelf⟩
  · rw [List.eq_nil_iff_forall_not_mem]
    intro q hq
    obtain ⟨hself, -, p, hp, -⟩ := mem_twins_iff.1 hq
    rcases h with h | h
    · exact hself h
    · simp [Generics.predicates, h] at hp
  · have hpreds : b.generics.predicates = ps := by
      rw [Generics.predicates, hps, Option.getD_some]
    refine ⟨⟨b.twins, linkSelf_of_clause hps, b.nodup_twins, fun q hq => ?_⟩,
      b.mirrorClosed_linkSelf, fun qs hsub hclosed q hq => ?_⟩
    · rw [← hpreds]
      exact (mem_twins_iff.1 hq).2
    · rw [predicates_linkSelf, hpreds, List.mem_append] at hq
      rcases hq with hq | hq
      · exact hsub hq
      · obtain ⟨-, -, p, hp, hpq⟩ := mem_twins_iff.1 hq
        exact hclosed.mem_of_mirrors hpq (hsub (hpreds ▸ hp))

/-- A predicate that is written twice is mirrored once, and one whose mirror image is there is not
mirrored at all. -/
example (b : ImplBlock) (hty : b.selfTy = TypeExpr.named "A") (hclause : b.generics.clause =
    some [.type [] (TypeExpr.named "A") [.lifetime "'a"], .type [] (TypeExpr.named "A") [.lifetime "'a"],
      .type [] TypeExpr.selfAlias [.lifetime "'b"], .type [] (TypeExpr.named "A") [.lifetime "'b"],
      .type [] (TypeExpr.named "B") [.lifetime "'a"]]) :
    b.twins = [.type [] TypeExpr.selfAlias [.lifetime "'a"]] := by
  simp only [twins, hty, hclause]
  decide +kernel

end ImplBlock

end TraitLift
