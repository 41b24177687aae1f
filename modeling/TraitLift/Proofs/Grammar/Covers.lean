import Mathlib.Tactic
import TraitLift.Proofs.Grammar.Forest

/-!
Derivation trees by the shape of an expression. `Parses` follows a derivation step by step; `Covers`
takes it apart the way the expression is written, a sequence into its parts and a repetition into its
rounds, so that the trees under a rule can be listed (`parses_iff_covers`).
-/

namespace TraitLift.Grammar

variable {α τ ν : Type}

/-- The trees that a symbol stands for. -/
def Symbol.HasTree (G : Grammar α τ ν) : Symbol τ ν → Tree α ν → Prop
  | .tok c, p => ∃ t, p = .leaf t ∧ G.accepts c t
  | .rule r, p => ∃ cs, p = .node r cs ∧ Parses G [G.body r] cs

/-- The trees are a derivation of the expression. -/
def Covers (G : Grammar α τ ν) : Expr τ ν → List (Tree α ν) → Prop
  | .empty, ps => ps = []
  | .tok c, ps => ∃ t, ps = [.leaf t] ∧ G.accepts c t
  | .rule r, ps => ∃ cs, ps = [.node r cs] ∧ Parses G [G.body r] cs
  | .seq a b, ps => ∃ us vs, ps = us ++ vs ∧ Covers G a us ∧ Covers G b vs
  | .alt a b, ps => Covers G a ps ∨ Covers G b ps
  | .star a, ps => ∃ pss : List (List (Tree α ν)), ps = pss.flatten ∧ ∀ us ∈ pss, Covers G a us

/-- The trees are derivations of some expressions, one after the other. -/
def CoversEach (G : Grammar α τ ν) : List (Expr τ ν) → List (Tree α ν) → Prop
  | [], ps => ps = []
  | e :: k, ps => ∃ us vs, ps = us ++ vs ∧ Covers G e us ∧ CoversEach G k vs

variable {G : Grammar α τ ν}

theorem parses_nil_iff {k : List (Expr τ ν)} : Parses G k [] ↔ nullableRest k :=
  ⟨fun h => by cases h; assumption, .done⟩

theorem parses_cons_iff {k : List (Expr τ ν)} {c : Tree α ν} {ps : List (Tree α ν)} :
    Parses G k (c :: ps) ↔ ∃ s m, (s, m) ∈ stepsRest k ∧ s.HasTree G c ∧ Parses G m ps := by
  constructor
  · intro h
    cases h with
    | leaf hs hc hps => exact ⟨_, _, hs, ⟨_, rfl, hc⟩, hps⟩
    | node hs hcs hps => exact ⟨_, _, hs, ⟨_, rfl, hcs⟩, hps⟩
  · rintro ⟨s | r, m, hs, h, hps⟩
    · obtain ⟨u, rfl, hu⟩ := h
      exact .leaf hs hu hps
    · obtain ⟨cs, rfl, hcs⟩ := h
      exact .node hs hcs hps

/-! ### From shapes to steps -/

theorem Parses.mono {k l : List (Expr τ ν)} {ps : List (Tree α ν)} (h : Parses G k ps)
    (hsteps : stepsRest k ⊆ stepsRest l) (hnull : nullableRest k → nullableRest l) :
    Parses G l ps := by
  cases h with
  | done hk => exact .done (hnull hk)
  | leaf hs hc hps => exact .leaf (hsteps hs) hc hps
  | node hs hcs hps => exact .node (hsteps hs) hcs hps

theorem Parses.append {k l : List (Expr τ ν)} {us vs : List (Tree α ν)} (hu : Parses G k us)
    (hv : Parses G l vs) : Parses G (k ++ l) (us ++ vs) := by
  have hstep : ∀ {k m : List (Expr τ ν)} {s : Symbol τ ν}, (s, m) ∈ stepsRest k →
      (s, m ++ l) ∈ stepsRest (k ++ l) := fun hs => by
    rw [stepsRest_append]
    exact List.mem_append_left _ (List.mem_map.2 ⟨_, hs, rfl⟩)
  induction hu with
  | done hk =>
    refine hv.mono (fun s hs => ?_) fun hl => ?_
    · rw [stepsRest_append]
      exact List.mem_append_right _ (by rwa [if_pos hk])
    · rw [nullableRest_append, hk, hl]
      rfl
  | leaf hs hc _ ih => exact .leaf (hstep hs) hc ih
  | node hs hcs _ _ ih => exact .node (hstep hs) hcs ih

theorem Covers.parses : ∀ {e : Expr τ ν} {ps : List (Tree α ν)}, Covers G e ps → Parses G [e] ps
  | .empty, _, h => h ▸ .done rfl
  | .tok c, _, ⟨t, h, ht⟩ => h ▸ .leaf (by simp [stepsRest, Expr.steps]) ht (.done (k := []) rfl)
  | .rule r, _, ⟨cs, h, hcs⟩ =>
    h ▸ .node (by simp [stepsRest, Expr.steps]) hcs (.done (k := []) rfl)
  | .seq a b, _, ⟨us, vs, h, ha, hb⟩ => by
    subst h
    refine (ha.parses.append hb.parses).mono ?_ ?_
    · rw [stepsRest_seq]
      exact List.Subset.refl _
    · simp [nullableRest, Expr.nullable]
  | .alt a b, _, .inl h => by
    refine h.parses.mono ?_ ?_
    · rw [stepsRest_alt]
      exact List.subset_append_left ..
    · simp +contextual [nullableRest, Expr.nullable]
  | .alt a b, _, .inr h => by
    refine h.parses.mono ?_ ?_
    · rw [stepsRest_alt]
      exact List.subset_append_right ..
    · simp +contextual [nullableRest, Expr.nullable]
  | .star a, _, ⟨pss, h, hall⟩ => by
    subst h
    induction pss with
    | nil => exact .done rfl
    | cons us pss ih =>
      have hus := (hall us (List.mem_cons_self ..)).parses
      refine (hus.append (ih fun vs hvs => hall vs (List.mem_cons_of_mem us hvs))).mono ?_ ?_
      · rw [List.singleton_append, ← List.singleton_append, stepsRest_append, stepsRest_star]
        intro s hs
        rcases List.mem_append.1 hs with hs | hs
        · exact hs
        · split at hs
          · exact hs
          · simp at hs
      · simp [nullableRest, Expr.nullable]

/-! ### From steps to shapes -/

theorem coversEach_singleton {e : Expr τ ν} {ps : List (Tree α ν)} :
    CoversEach G [e] ps ↔ Covers G e ps := by
  simp [CoversEach]

theorem coversEach_append {l : List (Expr τ ν)} : ∀ {k : List (Expr τ ν)} {ps : List (Tree α ν)},
    CoversEach G (k ++ l) ps ↔ ∃ us vs, ps = us ++ vs ∧ CoversEach G k us ∧ CoversEach G l vs
  | [], ps => by simp [CoversEach]
  | e :: k, ps => by
    rw [List.cons_append, CoversEach]
    constructor
    · rintro ⟨us, vs, rfl, he, hkl⟩
      obtain ⟨us', vs', rfl, hk, hl⟩ := coversEach_append.1 hkl
      exact ⟨us ++ us', vs', (List.append_assoc ..).symm, ⟨us, us', rfl, he, hk⟩, hl⟩
    · rintro ⟨_, vs', rfl, ⟨us, us', rfl, he, hk⟩, hl⟩
      exact ⟨us, us' ++ vs', List.append_assoc .., he, coversEach_append.2 ⟨us', vs', rfl, hk, hl⟩⟩

theorem Covers.of_nullable : ∀ {e : Expr τ ν}, e.nullable → Covers G e []
  | .empty, _ => rfl
  | .seq a b, h => by
    rw [Expr.nullable, Bool.and_eq_true] at h
    exact ⟨[], [], rfl, .of_nullable h.1, .of_nullable h.2⟩
  | .alt a b, h => by
    rw [Expr.nullable, Bool.or_eq_true] at h
    exact h.imp .of_nullable .of_nullable
  | .star a, _ => ⟨[], rfl, by simp⟩

theorem CoversEach.of_nullableRest : ∀ {k : List (Expr τ ν)}, nullableRest k → CoversEach G k []
  | [], _ => rfl
  | e :: k, h => by
    rw [nullableRest, List.all_cons, Bool.and_eq_true] at h
    exact ⟨[], [], rfl, .of_nullable h.1, .of_nullableRest h.2⟩

/-- A tree of a symbol in front of a derivation of what is left is a derivation of the whole. -/
theorem Covers.of_step {s : Symbol τ ν} {p : Tree α ν} {ps : List (Tree α ν)}
    (hp : s.HasTree G p) : ∀ {e : Expr τ ν} {k : List (Expr τ ν)}, (s, k) ∈ e.steps →
      CoversEach G k ps → Covers G e (p :: ps)
  | .tok c, k, h, hk => by
    simp only [Expr.steps, List.mem_singleton, Prod.mk.injEq] at h
    obtain ⟨rfl, rfl⟩ := h
    obtain ⟨t, rfl, ht⟩ := hp
    obtain rfl : ps = [] := hk
    exact ⟨t, rfl, ht⟩
  | .rule r, k, h, hk => by
    simp only [Expr.steps, List.mem_singleton, Prod.mk.injEq] at h
    obtain ⟨rfl, rfl⟩ := h
    obtain ⟨cs, rfl, hcs⟩ := hp
    obtain rfl : ps = [] := hk
    exact ⟨cs, rfl, hcs⟩
  | .seq a b, k, h, hk => by
    rcases List.mem_append.1 h with h | h
    · obtain ⟨⟨s', k'⟩, hs', heq⟩ := List.mem_map.1 h
      simp only [Prod.mk.injEq] at heq
      obtain ⟨rfl, rfl⟩ := heq
      obtain ⟨us, vs, rfl, hk', hb⟩ := coversEach_append.1 hk
      exact ⟨p :: us, vs, rfl, .of_step hp hs' hk', coversEach_singleton.1 hb⟩
    · split at h
      · next ha => exact ⟨[], p :: ps, rfl, .of_nullable ha, .of_step hp h hk⟩
      · simp at h
  | .alt a b, k, h, hk =>
    (List.mem_append.1 h).imp (fun h => .of_step hp h hk) fun h => .of_step hp h hk
  | .star a, k, h, hk => by
    obtain ⟨⟨s', k'⟩, hs', heq⟩ := List.mem_map.1 h
    simp only [Prod.mk.injEq] at heq
    obtain ⟨rfl, rfl⟩ := heq
    obtain ⟨us, vs, rfl, hk', hstar⟩ := coversEach_append.1 hk
    obtain ⟨pss, rfl, hall⟩ := coversEach_singleton.1 hstar
    refine ⟨(p :: us) :: pss, rfl, fun vs hvs => ?_⟩
    rcases List.mem_cons.1 hvs with rfl | hvs
    · exact .of_step hp hs' hk'
    · exact hall vs hvs

theorem CoversEach.of_step {s : Symbol τ ν} {p : Tree α ν} {ps : List (Tree α ν)}
    (hp : s.HasTree G p) : ∀ {k k' : List (Expr τ ν)}, (s, k') ∈ stepsRest k →
      CoversEach G k' ps → CoversEach G k (p :: ps)
  | e :: k, k', h, hk => by
    rcases List.mem_append.1 h with h | h
    · obtain ⟨⟨s', r⟩, hs', heq⟩ := List.mem_map.1 h
      simp only [Prod.mk.injEq] at heq
      obtain ⟨rfl, rfl⟩ := heq
      obtain ⟨us, vs, rfl, he, hk'⟩ := coversEach_append.1 hk
      exact ⟨p :: us, vs, rfl, .of_step hp hs' he, hk'⟩
    · split at h
      · next he => exact ⟨[], p :: ps, rfl, .of_nullable he, .of_step hp h hk⟩
      · simp at h

theorem Parses.coversEach {k : List (Expr τ ν)} {ps : List (Tree α ν)} (h : Parses G k ps) :
    CoversEach G k ps := by
  induction h with
  | done hk => exact .of_nullableRest hk
  | @leaf _ _ c t _ hs ht _ ih => exact .of_step (s := .tok c) ⟨t, rfl, ht⟩ hs ih
  | @node _ _ r cs _ hs hcs _ _ ih => exact .of_step (s := .rule r) ⟨cs, rfl, hcs⟩ hs ih

/-- A derivation of an expression, step by step or by the shape of the expression. -/
theorem parses_iff_covers {e : Expr τ ν} {ps : List (Tree α ν)} :
    Parses G [e] ps ↔ Covers G e ps :=
  ⟨fun h => coversEach_singleton.1 h.coversEach, Covers.parses⟩

/-- The parts of a rule that is used anywhere at the top of a derivation are derived from its body. -/
theorem Parses.of_node_mem {k : List (Expr τ ν)} {ps : List (Tree α ν)} (h : Parses G k ps) {r : ν}
    {cs : List (Tree α ν)} : .node r cs ∈ ps → Parses G [G.body r] cs := by
  induction h with
  | done => simp
  | leaf _ _ _ ih =>
    intro hmem
    rcases List.mem_cons.1 hmem with heq | hmem
    · simp at heq
    · exact ih hmem
  | node _ hcs _ _ ih =>
    intro hmem
    rcases List.mem_cons.1 hmem with heq | hmem
    · obtain ⟨rfl, rfl⟩ := Tree.node.inj heq
      exact hcs
    · exact ih hmem

end TraitLift.Grammar
