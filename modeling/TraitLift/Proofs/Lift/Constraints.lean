import Mathlib.Tactic
import TraitLift.Proofs.Lift.Writable

/-!
Lifting keeps the constraints of a block. What a block asks of its parameters is written at the
parameters and in the where clause. `Asks` says what a parameter asks for, `Mirrors` what it means
that a predicate is another one with `Self` and the self type exchanged, and `Gathered` collects what
holds of the parameters and predicates after lifting. Main statement: the declaration and the
implementation of every expansion have the same, gathered, generic part.
-/

namespace TraitLift

/-! ### What parameters ask for -/

namespace GenericParam

/-- Whether no bound is written at the parameter. -/
def isPlain : GenericParam → Bool
  | .type _ bs _ _ => bs.isEmpty
  | .lifetime p => p.bounds.isEmpty
  | _ => true

/-- `p.Asks q`: the bounds written at `p` say the same as the predicate `q`. -/
inductive Asks : GenericParam → Predicate → Prop
  | type {name bounds fallback attrs} (h : bounds ≠ []) :
      Asks (.type name bounds fallback attrs) (.type [] (TypeExpr.named name) bounds)
  | lifetime {p : LifetimeParam} (h : p.bounds ≠ []) :
      Asks (.lifetime p) (.lifetime p.name p.bounds)

/-- `p.SameButBounds q`: the two parameters agree in all but the bounds written at them. -/
inductive SameButBounds : GenericParam → GenericParam → Prop
  | type {name bounds bounds' fallback attrs} :
      SameButBounds (.type name bounds fallback attrs) (.type name bounds' fallback attrs)
  | lifetime {p : LifetimeParam} {bounds} :
      SameButBounds (.lifetime p) (.lifetime { p with bounds })
  | const {name ty fallback attrs} :
      SameButBounds (.const name ty fallback attrs) (.const name ty fallback attrs)
  | misplaced {kind} : SameButBounds (.misplaced kind) (.misplaced kind)

theorem isPlain_withoutBounds (p : GenericParam) : p.withoutBounds.isPlain := by
  cases p <;> rfl

theorem sameButBounds_withoutBounds (p : GenericParam) : p.SameButBounds p.withoutBounds := by
  cases p with
  | type => exact .type
  | lifetime => exact .lifetime
  | const => exact .const
  | misplaced => exact .misplaced

theorem predicate?_eq_some_iff {p : GenericParam} {q : Predicate} :
    p.predicate? = some q ↔ p.Asks q := by
  constructor
  · intro h
    cases p with
    | type n bs d attrs =>
      simp only [predicate?] at h
      split at h
      · simp at h
      · next hbs =>
        obtain rfl := Option.some.inj h
        exact .type (by simpa using hbs)
    | lifetime p =>
      simp only [predicate?] at h
      split at h
      · simp at h
      · next hbs =>
        obtain rfl := Option.some.inj h
        exact .lifetime (by simpa using hbs)
    | const => simp [predicate?] at h
    | misplaced => simp [predicate?] at h
  · rintro (h | h) <;> simp [predicate?, h]

theorem predicate?_eq_none_iff {p : GenericParam} : p.predicate? = none ↔ p.isPlain := by
  cases p <;> simp [predicate?, isPlain]

theorem withoutBounds_eq_self {p : GenericParam} (h : p.isPlain) : p.withoutBounds = p := by
  cases p with
  | type => simp_all [isPlain, withoutBounds]
  | lifetime p =>
    obtain ⟨name, bounds, attrs⟩ := p
    simp_all [isPlain, withoutBounds]
  | const => rfl
  | misplaced => rfl

end GenericParam

/-- The hoisted predicates are those that the parameters with bounds ask for, one for each. -/
theorem filterMap_predicate?_asks : ∀ ps : List GenericParam,
    List.Forall₂ GenericParam.Asks (ps.filter (!·.isPlain)) (ps.filterMap GenericParam.predicate?)
  | [] => .nil
  | p :: ps => by
    cases hq : p.predicate? with
    | none =>
      rw [List.filter_cons_of_neg (by simpa using GenericParam.predicate?_eq_none_iff.1 hq),
        List.filterMap_cons_none hq]
      exact filterMap_predicate?_asks ps
    | some q =>
      have hp : p.isPlain = false := by
        rw [← Bool.not_eq_true, ← GenericParam.predicate?_eq_none_iff, hq]
        simp
      rw [List.filter_cons_of_pos (by simp [hp]), List.filterMap_cons_some hq]
      exact .cons (GenericParam.predicate?_eq_some_iff.1 hq) (filterMap_predicate?_asks ps)

namespace ImplBlock

theorem mem_hoisted_iff {b : ImplBlock} {q : Predicate} :
    q ∈ b.hoisted ↔ ∃ p ∈ b.generics.params, p.Asks q := by
  simp only [hoisted, List.mem_filterMap, GenericParam.predicate?_eq_some_iff]

/-- Hoisting takes the bounds off all parameters, also if there are none to take off. -/
theorem params_hoistBounds (b : ImplBlock) :
    b.hoistBounds.generics.params = b.generics.params.map GenericParam.withoutBounds := by
  unfold hoistBounds
  split
  · next h =>
    have hplain : ∀ p ∈ b.generics.params, p.withoutBounds = id p := by
      intro p hp
      apply GenericParam.withoutBounds_eq_self
      rw [← GenericParam.predicate?_eq_none_iff]
      exact List.filterMap_eq_nil_iff.1 (List.isEmpty_iff.1 h) p hp
    rw [List.map_congr_left hplain, List.map_id]
  · rfl

theorem predicates_hoistBounds (b : ImplBlock) :
    b.hoistBounds.generics.predicates = b.generics.predicates ++ b.hoisted := by
  unfold hoistBounds
  split
  · next h => rw [List.isEmpty_iff.1 h, List.append_nil]
  · rfl

theorem selfTy_hoistBounds (b : ImplBlock) : b.hoistBounds.selfTy = b.selfTy := by
  unfold hoistBounds
  split <;> rfl

end ImplBlock

/-! ### Predicates on the self type -/

namespace Predicate

/-- `Mirrors selfTy p q`: one of the two predicates is on the self type and the other, with the same
binder and bounds, is on `Self`. -/
inductive Mirrors (selfTy : TypeExpr) : Predicate → Predicate → Prop
  | toSelf {lifetimes bounds} : Mirrors selfTy (.type lifetimes selfTy bounds)
      (.type lifetimes TypeExpr.selfAlias bounds)
  | ofSelf {lifetimes bounds} : Mirrors selfTy (.type lifetimes TypeExpr.selfAlias bounds)
      (.type lifetimes selfTy bounds)

/-- The predicate with `Self` read as the self type. -/
def readSelf (selfTy : TypeExpr) : Predicate → Predicate
  | .type ls t bs => .type ls (if t = TypeExpr.selfAlias then selfTy else t) bs
  | p => p

theorem Mirrors.readSelf_eq {selfTy : TypeExpr} {p q : Predicate} (h : Mirrors selfTy p q) :
    p.readSelf selfTy = q.readSelf selfTy := by
  cases h <;> simp [readSelf]

theorem mirrors_iff {selfTy : TypeExpr} {p q : Predicate} : Mirrors selfTy p q ↔ ∃ ls bs,
    p = .type ls selfTy bs ∧ q = .type ls TypeExpr.selfAlias bs ∨
      p = .type ls TypeExpr.selfAlias bs ∧ q = .type ls selfTy bs := by
  constructor
  · rintro (_ | _)
    · exact ⟨_, _, Or.inl ⟨rfl, rfl⟩⟩
    · exact ⟨_, _, Or.inr ⟨rfl, rfl⟩⟩
  · rintro ⟨ls, bs, ⟨rfl, rfl⟩ | ⟨rfl, rfl⟩⟩
    · exact .toSelf
    · exact .ofSelf

theorem Mirrors.symm {selfTy : TypeExpr} {p q : Predicate} (h : Mirrors selfTy p q) :
    Mirrors selfTy q p := by
  rcases h with _ | _
  · exact .ofSelf
  · exact .toSelf

/-- Mirroring twice gives back the predicate. -/
theorem Mirrors.eq_of_mirrors {selfTy : TypeExpr} {p q r : Predicate}
    (hself : selfTy ≠ TypeExpr.selfAlias) (hpq : Mirrors selfTy p q) (hqr : Mirrors selfTy q r) :
    p = r := by
  rw [mirrors_iff] at hpq hqr
  obtain ⟨ls, bs, ⟨rfl, rfl⟩ | ⟨rfl, rfl⟩⟩ := hpq <;>
    obtain ⟨ls', bs', ⟨hq, rfl⟩ | ⟨hq, rfl⟩⟩ := hqr <;>
    simp_all

end Predicate

theorem TypeExpr.isSelfAlias_iff {t : TypeExpr} : t.isSelfAlias = true ↔ t = TypeExpr.selfAlias := by
  constructor
  · intro h
    unfold isSelfAlias at h
    split at h
    · next p =>
      unfold Path.isSelfAlias at h
      split at h
      · next name => rw [beq_iff_eq.1 h]; rfl
      · simp at h
    · simp at h
  · rintro rfl
    rfl

theorem Predicate.twin?_eq_some_iff {selfTy : TypeExpr} {p q : Predicate}
    (hself : selfTy ≠ TypeExpr.selfAlias) :
    p.twin? selfTy = some q ↔ Mirrors selfTy p q := by
  constructor
  · intro h
    cases p with
    | type ls t bs =>
      simp only [twin?] at h
      split at h
      · next ht =>
        obtain rfl := Option.some.inj h
        subst ht
        exact .toSelf
      · split at h
        · next ht =>
          obtain rfl := Option.some.inj h
          rw [TypeExpr.isSelfAlias_iff.1 ht]
          exact .ofSelf
        · simp at h
    | lifetime => simp [twin?] at h
    | misplaced => simp [twin?] at h
  · rintro (_ | _)
    · simp [twin?]
    · simp [twin?, hself.symm, TypeExpr.isSelfAlias_iff]

theorem nodup_newOnes {β : Type} [DecidableEq β] : ∀ seen xs : List β, (newOnes seen xs).Nodup
  | _, [] => by simp [newOnes]
  | seen, y :: ys => by
    rw [newOnes]
    split
    · exact nodup_newOnes seen ys
    · rw [List.nodup_cons]
      refine ⟨fun h => ?_, nodup_newOnes _ ys⟩
      exact (mem_newOnes_iff.1 h).2 (List.mem_cons_self ..)

namespace ImplBlock

theorem nodup_twins (b : ImplBlock) : b.twins.Nodup := by
  unfold twins
  split
  · exact List.nodup_nil
  · split
    · exact List.nodup_nil
    · exact nodup_newOnes ..

theorem mem_twins_iff {b : ImplBlock} {q : Predicate} :
    q ∈ b.twins ↔ b.selfTy ≠ TypeExpr.selfAlias ∧ q ∉ b.generics.predicates ∧
      ∃ p ∈ b.generics.predicates, Predicate.Mirrors b.selfTy p q := by
  unfold twins Generics.predicates
  cases b.generics.clause with
  | none => simp
  | some ps =>
    by_cases hself : b.selfTy = TypeExpr.selfAlias
    · simp [hself, TypeExpr.isSelfAlias_iff]
    · simp only [TypeExpr.isSelfAlias_iff, hself, if_false, mem_newOnes_iff, List.mem_filterMap,
        Predicate.twin?_eq_some_iff hself, Option.getD_some, ne_eq, not_false_eq_true, true_and]
      exact and_comm

theorem predicates_linkSelf (b : ImplBlock) :
    b.linkSelf.generics.predicates = b.generics.predicates ++ b.twins := by
  unfold linkSelf
  split
  · next h => rw [List.isEmpty_iff.1 h, List.append_nil]
  · rfl

theorem params_linkSelf (b : ImplBlock) : b.linkSelf.generics.params = b.generics.params := by
  unfold linkSelf
  split <;> rfl

/-- A predicate that mirrors one of the linked predicates is one of them. -/
theorem mem_predicates_linkSelf_of_mirrors {b : ImplBlock} {p q : Predicate}
    (h : Predicate.Mirrors b.selfTy p q) (hp : p ∈ b.linkSelf.generics.predicates) :
    q ∈ b.linkSelf.generics.predicates := by
  by_cases hself : b.selfTy = TypeExpr.selfAlias
  · -- the self type is written `Self`, so the two predicates are the same one
    have hpq : p = q := by
      rcases h with _ | _ <;> rw [hself]
    exact hpq ▸ hp
  · rw [predicates_linkSelf, List.mem_append] at hp ⊢
    by_cases hq : q ∈ b.generics.predicates
    · exact Or.inl hq
    · refine hp.elim (fun hp => Or.inr (mem_twins_iff.2 ⟨hself, hq, p, hp, h⟩)) ?_
      intro hp
      -- a mirrored copy `p` is there because of a predicate that it mirrors, which is `q`
      obtain ⟨-, -, r, hr, hrp⟩ := mem_twins_iff.1 hp
      have hrq : r = q := hrp.eq_of_mirrors hself h
      exact absurd (hrq ▸ hr) hq

end ImplBlock

/-! ### The gathered constraints -/

/-- What holds of the generic part `g` that lifting makes of a block `b`. -/
structure Gathered (b : ImplBlock) (g : Generics) : Prop where
  /-- No bound is written at a parameter. -/
  plain : ∀ p ∈ g.params, p.isPlain
  /-- The parameters are those of the block, in order, up to the bounds written at them. -/
  params : List.Forall₂ GenericParam.SameButBounds b.generics.params g.params
  /-- The predicates are those of the block, then one for each parameter with bounds, then mirrored
  copies of these that were not there yet, each once. -/
  predicates : ∃ moved mirrored, g.predicates = b.generics.predicates ++ moved ++ mirrored ∧
    List.Forall₂ GenericParam.Asks (b.generics.params.filter (!·.isPlain)) moved ∧
    mirrored.Nodup ∧ ∀ q ∈ mirrored, q ∉ b.generics.predicates ++ moved ∧
      ∃ p ∈ b.generics.predicates ++ moved, Predicate.Mirrors b.selfTy p q
  /-- With `Self` read as the self type, the predicates are what the block asks for at its parameters
  and in its where clause. -/
  constraints : ∀ c, (∃ q ∈ g.predicates, q.readSelf b.selfTy = c) ↔
    ∃ p, (p ∈ b.generics.predicates ∨ ∃ x ∈ b.generics.params, x.Asks p) ∧
      p.readSelf b.selfTy = c
  /-- What is asked of the self type is asked of `Self`, and the other way round. -/
  mirrored : ∀ p q, Predicate.Mirrors b.selfTy p q → (p ∈ g.predicates ↔ q ∈ g.predicates)

namespace ImplBlock

theorem params_gather (b : ImplBlock) :
    b.gather.generics.params = b.generics.params.map GenericParam.withoutBounds := by
  rw [gather, params_linkSelf, params_hoistBounds]

theorem predicates_gather (b : ImplBlock) : b.gather.generics.predicates =
    b.generics.predicates ++ b.hoisted ++ b.hoistBounds.twins := by
  rw [gather, predicates_linkSelf, predicates_hoistBounds]

theorem mem_twins_hoistBounds {b : ImplBlock} {q : Predicate} :
    q ∈ b.hoistBounds.twins ↔ b.selfTy ≠ TypeExpr.selfAlias ∧
      q ∉ b.generics.predicates ++ b.hoisted ∧
      ∃ p ∈ b.generics.predicates ++ b.hoisted, Predicate.Mirrors b.selfTy p q := by
  rw [mem_twins_iff, selfTy_hoistBounds, predicates_hoistBounds]

/-- A predicate that mirrors one of the gathered predicates is one of them. -/
theorem mem_predicates_gather_of_mirrors {b : ImplBlock} {p q : Predicate}
    (h : Predicate.Mirrors b.selfTy p q) (hp : p ∈ b.gather.generics.predicates) :
    q ∈ b.gather.generics.predicates := by
  rw [← selfTy_hoistBounds] at h
  exact mem_predicates_linkSelf_of_mirrors h hp

end ImplBlock

/-- The generic part of a block after its constraints are gathered. -/
theorem ImplBlock.gathered (b : ImplBlock) : Gathered b b.gather.generics := by
  refine ⟨?_, ?_, ?_, ?_, ?_⟩
  · rw [params_gather]
    intro p hp
    obtain ⟨p, -, rfl⟩ := List.mem_map.1 hp
    exact p.isPlain_withoutBounds
  · rw [params_gather, List.forall₂_map_right_iff, List.forall₂_same]
    exact fun p _ => p.sameButBounds_withoutBounds
  · refine ⟨b.hoisted, b.hoistBounds.twins, b.predicates_gather, filterMap_predicate?_asks _,
      b.hoistBounds.nodup_twins, fun q hq => ?_⟩
    exact (mem_twins_hoistBounds.1 hq).2
  · intro c
    simp only [← mem_hoisted_iff, ← List.mem_append, predicates_gather]
    constructor
    · rintro ⟨q, hq, rfl⟩
      rcases List.mem_append.1 hq with hq | hq
      · exact ⟨q, hq, rfl⟩
      · obtain ⟨-, -, p, hp, hpq⟩ := mem_twins_hoistBounds.1 hq
        exact ⟨p, hp, hpq.readSelf_eq⟩
    · rintro ⟨p, hp, rfl⟩
      exact ⟨p, List.mem_append_left _ hp, rfl⟩
  · intro p q h
    exact ⟨mem_predicates_gather_of_mirrors h, mem_predicates_gather_of_mirrors h.symm⟩

/-- The generic parts of the two items of an expansion are the same, and they are those of the block
with its constraints gathered. -/
theorem ImplBlock.expand_gathered {b : ImplBlock} {args : ExtArgs} {c : Config} {e : Expansion}
    (h : b.expand args c = .ok e) :
    e.declaration.generics = e.implementation.generics ∧
      Gathered b e.declaration.generics ∧ Gathered b e.implementation.generics := by
  obtain ⟨-, name, decls, impl, -, -, himpl, rfl⟩ := expand_eq_ok_iff.1 h
  have hgenerics : impl.generics = b.gather.generics := by
    unfold ImplBlock.retarget at himpl
    cases hp : contractPath name.ident b.gather.generics.params with
    | error m => simp [hp, bind, Except.bind] at himpl
    | ok path =>
      simp only [hp, bind, Except.bind, pure, Except.pure, Except.ok.injEq] at himpl
      rw [← himpl]
  exact ⟨hgenerics.symm, b.gathered, hgenerics ▸ b.gathered⟩

/-- In `impl<T: 'a> T where Self: 'b` the bound moves to the clause, and both predicates are there
for `T` and for `Self`. -/
theorem ImplBlock.expand_gathered_parameter :
    ∃ b e, ImplBlock.expand b ⟨none, some "B"⟩ Config.default = .ok e ∧
      b.generics.params = [.type "T" [.lifetime "'a"] none []] ∧
      b.generics.predicates = [.type [] TypeExpr.selfAlias [.lifetime "'b"]] ∧
      e.declaration.generics = e.implementation.generics ∧
      Gathered b e.implementation.generics ∧
      e.implementation.generics.predicates =
        [.type [] TypeExpr.selfAlias [.lifetime "'b"], .type [] (TypeExpr.named "T") [.lifetime "'a"],
          .type [] (TypeExpr.named "T") [.lifetime "'b"],
          .type [] TypeExpr.selfAlias [.lifetime "'a"]] := by
  let b : ImplBlock := { selfTy := TypeExpr.named "T", generics :=
    { params := [.type "T" [.lifetime "'a"] none []]
      clause := some [.type [] TypeExpr.selfAlias [.lifetime "'b"]] } }
  have hsome : (b.expand ⟨none, some "B"⟩ Config.default).toOption.map
      (·.implementation.generics.predicates) =
      some [.type [] TypeExpr.selfAlias [.lifetime "'b"],
        .type [] (TypeExpr.named "T") [.lifetime "'a"],
        .type [] (TypeExpr.named "T") [.lifetime "'b"],
        .type [] TypeExpr.selfAlias [.lifetime "'a"]] := by
    decide +kernel
  cases he : b.expand ⟨none, some "B"⟩ Config.default with
  | error f => simp [he, Except.toOption] at hsome
  | ok e =>
    obtain ⟨hsame, -, hgathered⟩ := expand_gathered he
    rw [he] at hsome
    exact ⟨b, e, he, rfl, rfl, hsame, hgathered, Option.some.inj hsome⟩

end TraitLift
