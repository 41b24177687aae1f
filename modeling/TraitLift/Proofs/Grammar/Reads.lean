import Mathlib.Tactic
import TraitLift.Grammar.Expr

/-!
Reading a sequence of tokens step by step. `Reads` follows `stepsRest`: it reads a token or what a rule
stands for and goes on with what is left. Main statement: an expression derives exactly the sequences
that can be read step by step. What can be left of an expression is one of its `positions`, of which
there are no more than it has nodes.
-/

namespace TraitLift.Grammar

variable {α τ ν : Type}

/-! ### Steps through a list of expressions -/

theorem nullableRest_append (k l : List (Expr τ ν)) :
    nullableRest (k ++ l) = (nullableRest k && nullableRest l) := by
  simp [nullableRest]

theorem stepsRest_append (l : List (Expr τ ν)) : ∀ k : List (Expr τ ν), stepsRest (k ++ l) =
    (stepsRest k).map (fun (s, r) => (s, r ++ l)) ++ if nullableRest k then stepsRest l else []
  | [] => by simp [stepsRest, nullableRest]
  | e :: k => by
    rw [List.cons_append, stepsRest, stepsRest, stepsRest_append l k]
    cases he : e.nullable <;> simp [nullableRest, he, Function.comp_def]

theorem stepsRest_seq (a b : Expr τ ν) : stepsRest [.seq a b] = stepsRest [a, b] := by
  simp [stepsRest, Expr.steps]

theorem stepsRest_alt (a b : Expr τ ν) : stepsRest [.alt a b] = stepsRest [a] ++ stepsRest [b] := by
  simp [stepsRest, Expr.steps]

theorem stepsRest_star (a : Expr τ ν) : stepsRest [.star a] =
    (stepsRest [a]).map fun (s, r) => (s, r ++ [.star a]) := by
  simp [stepsRest, Expr.steps]

/-! ### Reading -/

/-- `Reads G k w`: what is left to read, `k`, can be read from the tokens `w`. -/
inductive Reads (G : Grammar α τ ν) : List (Expr τ ν) → List α → Prop
  | done {k} : nullableRest k → Reads G k []
  | token {k m c t v} : (.tok c, m) ∈ stepsRest k → G.accepts c t → Reads G m v →
      Reads G k (t :: v)
  | rule {k m r u v} : (.rule r, m) ∈ stepsRest k → Reads G [G.body r] u → Reads G m v →
      Reads G k (u ++ v)

/-- A list of expressions derives what its elements derive, one after the other. -/
inductive DerivesEach (G : Grammar α τ ν) : List (Expr τ ν) → List α → Prop
  | nil : DerivesEach G [] []
  | cons {e k u v} : G.Derives e u → DerivesEach G k v → DerivesEach G (e :: k) (u ++ v)

variable {G : Grammar α τ ν}

theorem Reads.mono {k l : List (Expr τ ν)} {w : List α} (h : Reads G k w)
    (hsteps : stepsRest k ⊆ stepsRest l) (hnull : nullableRest k → nullableRest l) :
    Reads G l w := by
  cases h with
  | done hk => exact .done (hnull hk)
  | token hs ht hv => exact .token (hsteps hs) ht hv
  | rule hs hu hv => exact .rule (hsteps hs) hu hv

theorem Reads.append {k l : List (Expr τ ν)} {u v : List α} (hu : Reads G k u)
    (hv : Reads G l v) : Reads G (k ++ l) (u ++ v) := by
  induction hu with
  | done hk =>
    refine hv.mono ?_ ?_
    · rw [stepsRest_append, if_pos hk]
      exact List.subset_append_right ..
    · rw [nullableRest_append, hk]
      exact id
  | token hs ht _ ih =>
    refine .token (m := _ ++ l) ?_ ht ih
    rw [stepsRest_append]
    exact List.mem_append_left _ (List.mem_map.2 ⟨_, hs, rfl⟩)
  | rule hs hu _ _ ih =>
    rw [List.append_assoc]
    refine .rule (m := _ ++ l) ?_ hu ih
    rw [stepsRest_append]
    exact List.mem_append_left _ (List.mem_map.2 ⟨_, hs, rfl⟩)

/-- What an expression derives can be read step by step. -/
theorem Derives.reads {e : Expr τ ν} {w : List α} (h : G.Derives e w) : Reads G [e] w := by
  induction h with
  | empty => exact .done rfl
  | tok ht => exact .token (by simp [stepsRest, Expr.steps]) ht (.done (k := []) rfl)
  | @rule r w _ ih =>
    rw [← List.append_nil w]
    exact .rule (by simp [stepsRest, Expr.steps]) ih (.done (k := []) rfl)
  | seq _ _ iha ihb =>
    refine (iha.append ihb).mono ?_ ?_
    · rw [stepsRest_seq]
      exact List.Subset.refl _
    · simp [nullableRest, Expr.nullable]
  | altLeft _ ih =>
    refine ih.mono ?_ ?_
    · rw [stepsRest_alt]
      exact List.subset_append_left ..
    · simp +contextual [nullableRest, Expr.nullable]
  | altRight _ ih =>
    refine ih.mono ?_ ?_
    · rw [stepsRest_alt]
      exact List.subset_append_right ..
    · simp +contextual [nullableRest, Expr.nullable]
  | starNil => exact .done rfl
  | @starCons a _ _ _ _ iha ihs =>
    refine (iha.append ihs).mono ?_ ?_
    · rw [List.singleton_append, ← List.singleton_append, stepsRest_append, stepsRest_star]
      intro s hs
      rcases List.mem_append.1 hs with hs | hs
      · exact hs
      · split at hs
        · exact hs
        · simp at hs
    · simp [nullableRest, Expr.nullable]

/-! ### From steps back to derivations -/

theorem DerivesEach.append {k l : List (Expr τ ν)} {u v : List α} (hu : DerivesEach G k u)
    (hv : DerivesEach G l v) : DerivesEach G (k ++ l) (u ++ v) := by
  induction hu with
  | nil => exact hv
  | cons he _ ih =>
    rw [List.append_assoc]
    exact .cons he ih

theorem DerivesEach.of_append {k l : List (Expr τ ν)} {w : List α}
    (h : DerivesEach G (k ++ l) w) : ∃ u v, w = u ++ v ∧ DerivesEach G k u ∧ DerivesEach G l v := by
  induction k generalizing w with
  | nil => exact ⟨[], w, rfl, .nil, h⟩
  | cons e k ih =>
    cases h with
    | cons he hk =>
      obtain ⟨u, v, rfl, hu, hv⟩ := ih hk
      exact ⟨_, v, (List.append_assoc ..).symm, .cons he hu, hv⟩

theorem derivesEach_singleton {e : Expr τ ν} {w : List α} :
    DerivesEach G [e] w ↔ G.Derives e w := by
  constructor
  · intro h
    cases h with
    | cons he hk =>
      cases hk
      rwa [List.append_nil]
  · intro h
    rw [← List.append_nil w]
    exact .cons h .nil

/-- What one symbol stands for. -/
def DerivesSymbol (G : Grammar α τ ν) : Symbol τ ν → List α → Prop
  | .tok c, u => ∃ t, G.accepts c t ∧ u = [t]
  | .rule r, u => G.Derives (G.body r) u

theorem Derives.of_nullable : ∀ {e : Expr τ ν}, e.nullable → G.Derives e []
  | .empty, _ => .empty
  | .seq a b, h => by
    rw [Expr.nullable, Bool.and_eq_true] at h
    exact .seq (u := []) (Derives.of_nullable h.1) (Derives.of_nullable h.2)
  | .alt a b, h => by
    rw [Expr.nullable, Bool.or_eq_true] at h
    rcases h with h | h
    · exact .altLeft (Derives.of_nullable h)
    · exact .altRight (Derives.of_nullable h)
  | .star a, _ => .starNil

/-- Taking a step and deriving what is left is one way to derive the whole. -/
theorem Derives.of_step {s : Symbol τ ν} {u v : List α} (hs : DerivesSymbol G s u) :
    ∀ {e : Expr τ ν} {k : List (Expr τ ν)}, (s, k) ∈ e.steps → DerivesEach G k v →
      G.Derives e (u ++ v)
  | .tok c, k, h, hk => by
    simp only [Expr.steps, List.mem_singleton, Prod.mk.injEq] at h
    obtain ⟨rfl, rfl⟩ := h
    obtain ⟨t, ht, rfl⟩ := hs
    cases hk
    exact .tok ht
  | .rule r, k, h, hk => by
    simp only [Expr.steps, List.mem_singleton, Prod.mk.injEq] at h
    obtain ⟨rfl, rfl⟩ := h
    cases hk
    rw [List.append_nil]
    exact .rule hs
  | .seq a b, k, h, hk => by
    rcases List.mem_append.1 h with h | h
    · obtain ⟨⟨s', k'⟩, hs', heq⟩ := List.mem_map.1 h
      simp only [Prod.mk.injEq] at heq
      obtain ⟨rfl, rfl⟩ := heq
      obtain ⟨v, v', rfl, hv, hv'⟩ := hk.of_append
      rw [← List.append_assoc]
      exact .seq (Derives.of_step hs hs' hv) (derivesEach_singleton.1 hv')
    · split at h
      · next ha => exact .seq (u := []) (.of_nullable ha) (Derives.of_step hs h hk)
      · simp at h
  | .alt a b, k, h, hk => by
    rcases List.mem_append.1 h with h | h
    · exact .altLeft (Derives.of_step hs h hk)
    · exact .altRight (Derives.of_step hs h hk)
  | .star a, k, h, hk => by
    obtain ⟨⟨s', k'⟩, hs', heq⟩ := List.mem_map.1 h
    simp only [Prod.mk.injEq] at heq
    obtain ⟨rfl, rfl⟩ := heq
    obtain ⟨v, v', rfl, hv, hv'⟩ := hk.of_append
    rw [← List.append_assoc]
    exact .starCons (Derives.of_step hs hs' hv) (derivesEach_singleton.1 hv')

theorem DerivesEach.of_nullableRest : ∀ {k : List (Expr τ ν)}, nullableRest k → DerivesEach G k []
  | [], _ => .nil
  | e :: k, h => by
    rw [nullableRest, List.all_cons, Bool.and_eq_true] at h
    exact .cons (u := []) (.of_nullable h.1) (DerivesEach.of_nullableRest h.2)

theorem DerivesEach.of_step {s : Symbol τ ν} {u v : List α} (hs : DerivesSymbol G s u) :
    ∀ {k k' : List (Expr τ ν)}, (s, k') ∈ stepsRest k → DerivesEach G k' v →
      DerivesEach G k (u ++ v)
  | e :: k, k', h, hk => by
    rcases List.mem_append.1 h with h | h
    · obtain ⟨⟨s', r⟩, hs', heq⟩ := List.mem_map.1 h
      simp only [Prod.mk.injEq] at heq
      obtain ⟨rfl, rfl⟩ := heq
      obtain ⟨v, v', rfl, hv, hv'⟩ := hk.of_append
      rw [← List.append_assoc]
      exact .cons (.of_step hs hs' hv) hv'
    · split at h
      · next he => exact .cons (u := []) (.of_nullable he) (DerivesEach.of_step hs h hk)
      · simp at h

theorem Reads.derivesEach {k : List (Expr τ ν)} {w : List α} (h : Reads G k w) :
    DerivesEach G k w := by
  induction h with
  | done hk => exact .of_nullableRest hk
  | @token _ _ _ t _ hs ht _ ih => exact .of_step (s := .tok _) (u := [t]) ⟨t, ht, rfl⟩ hs ih
  | rule hs _ _ ihu ihv => exact .of_step (s := .rule _) (derivesEach_singleton.1 ihu) hs ihv

/-- An expression derives exactly what can be read step by step. -/
theorem derives_iff_reads {e : Expr τ ν} {w : List α} : G.Derives e w ↔ Reads G [e] w :=
  ⟨Derives.reads, fun h => derivesEach_singleton.1 h.derivesEach⟩

/-! ### Reading nothing -/

/-- If no rule is nullable, then only what is nullable reads the empty sequence. -/
theorem Reads.nullableRest_of_nil (hG : ∀ r, (G.body r).nullable = false)
    {k : List (Expr τ ν)} {w : List α} (h : Reads G k w) : w = [] → nullableRest k := by
  induction h with
  | done hk => exact fun _ => hk
  | token => simp
  | @rule _ _ r u v _ _ _ ihu _ =>
    intro hw
    have hbody := ihu (List.append_eq_nil_iff.1 hw).1
    simp [nullableRest, hG r] at hbody

theorem Reads.ne_nil_of_body (hG : ∀ r, (G.body r).nullable = false) {r : ν} {w : List α}
    (h : Reads G [G.body r] w) : w ≠ [] := by
  intro hw
  have hbody := h.nullableRest_of_nil hG hw
  simp [nullableRest, hG r] at hbody

/-! ### What can be left to read -/

/-- What is left after each token class and rule of an expression. -/
def Expr.positions : Expr τ ν → List (List (Expr τ ν))
  | .empty => []
  | .tok _ | .rule _ => [[]]
  | .seq a b => a.positions.map (· ++ [b]) ++ b.positions
  | .alt a b => a.positions ++ b.positions
  | .star a => a.positions.map (· ++ [.star a])

/-- What is left after each token class and rule of a list of expressions. -/
def positionsRest : List (Expr τ ν) → List (List (Expr τ ν))
  | [] => []
  | e :: k => e.positions.map (· ++ k) ++ positionsRest k

theorem Expr.length_positions : ∀ e : Expr τ ν, e.positions.length ≤ e.size
  | .empty | .tok _ | .rule _ => by simp [positions, size]
  | .seq a b | .alt a b => by
    have ha := a.length_positions
    have hb := b.length_positions
    simp only [positions, size, List.length_append, List.length_map]
    omega
  | .star a => by
    have ha := a.length_positions
    simp only [positions, size, List.length_map]
    omega

theorem Expr.mem_positions_of_mem_steps {s : Symbol τ ν} : ∀ {e : Expr τ ν}
    {k : List (Expr τ ν)}, (s, k) ∈ e.steps → k ∈ e.positions
  | .tok _, _, h | .rule _, _, h => by simp_all [steps, positions]
  | .seq a b, k, h => by
    rcases List.mem_append.1 h with h | h
    · obtain ⟨⟨s', k'⟩, hs', heq⟩ := List.mem_map.1 h
      simp only [Prod.mk.injEq] at heq
      obtain ⟨rfl, rfl⟩ := heq
      exact List.mem_append_left _ (List.mem_map_of_mem (mem_positions_of_mem_steps hs'))
    · split at h
      · exact List.mem_append_right _ (mem_positions_of_mem_steps h)
      · simp at h
  | .alt a b, k, h => by
    rcases List.mem_append.1 h with h | h
    · exact List.mem_append_left _ (mem_positions_of_mem_steps h)
    · exact List.mem_append_right _ (mem_positions_of_mem_steps h)
  | .star a, k, h => by
    obtain ⟨⟨s', k'⟩, hs', heq⟩ := List.mem_map.1 h
    simp only [Prod.mk.injEq] at heq
    obtain ⟨rfl, rfl⟩ := heq
    exact List.mem_map_of_mem (mem_positions_of_mem_steps hs')

theorem mem_positionsRest_of_mem_stepsRest {s : Symbol τ ν} : ∀ {k k' : List (Expr τ ν)},
    (s, k') ∈ stepsRest k → k' ∈ positionsRest k
  | e :: k, k', h => by
    rcases List.mem_append.1 h with h | h
    · obtain ⟨⟨s', r⟩, hs', heq⟩ := List.mem_map.1 h
      simp only [Prod.mk.injEq] at heq
      obtain ⟨rfl, rfl⟩ := heq
      exact List.mem_append_left _ (List.mem_map_of_mem (Expr.mem_positions_of_mem_steps hs'))
    · split at h
      · exact List.mem_append_right _ (mem_positionsRest_of_mem_stepsRest h)
      · simp at h

theorem mem_positionsRest_append {m l : List (Expr τ ν)} : ∀ {k : List (Expr τ ν)},
    m ∈ positionsRest (k ++ l) ↔ (∃ j ∈ positionsRest k, m = j ++ l) ∨ m ∈ positionsRest l
  | [] => by simp [positionsRest]
  | e :: k => by
    rw [List.cons_append, positionsRest, positionsRest, List.mem_append, mem_positionsRest_append]
    simp only [List.mem_append, List.mem_map]
    constructor
    · rintro (⟨p, hp, rfl⟩ | ⟨j, hj, rfl⟩ | hm)
      · exact Or.inl ⟨p ++ k, Or.inl ⟨p, hp, rfl⟩, (List.append_assoc ..).symm⟩
      · exact Or.inl ⟨j, Or.inr hj, rfl⟩
      · exact Or.inr hm
    · rintro (⟨_, ⟨p, hp, rfl⟩ | hj, rfl⟩ | hm)
      · exact Or.inl ⟨p, hp, (List.append_assoc ..).symm⟩
      · exact Or.inr (Or.inl ⟨_, hj, rfl⟩)
      · exact Or.inr (Or.inr hm)

theorem positionsRest_singleton (e : Expr τ ν) : positionsRest [e] = e.positions := by
  simp [positionsRest]

/-- Reading on from a position of an expression leads to another one. -/
theorem Expr.positionsRest_subset : ∀ {e : Expr τ ν} {k : List (Expr τ ν)}, k ∈ e.positions →
    positionsRest k ⊆ e.positions
  | .tok _, k, h | .rule _, k, h => by
    rw [positions, List.mem_singleton] at h
    simp [h, positionsRest]
  | .seq a b, k, h => by
    intro m hm
    rw [positions, List.mem_append] at h ⊢
    rcases h with h | h
    · obtain ⟨j, hj, rfl⟩ := List.mem_map.1 h
      rcases mem_positionsRest_append.1 hm with ⟨i, hi, rfl⟩ | hm
      · exact Or.inl (List.mem_map_of_mem (positionsRest_subset hj hi))
      · rw [positionsRest_singleton] at hm
        exact Or.inr hm
    · exact Or.inr (positionsRest_subset h hm)
  | .alt a b, k, h => by
    intro m hm
    rw [positions, List.mem_append] at h ⊢
    rcases h with h | h
    · exact Or.inl (positionsRest_subset h hm)
    · exact Or.inr (positionsRest_subset h hm)
  | .star a, k, h => by
    intro m hm
    rw [positions] at h ⊢
    obtain ⟨j, hj, rfl⟩ := List.mem_map.1 h
    rcases mem_positionsRest_append.1 hm with ⟨i, hi, rfl⟩ | hm
    · exact List.mem_map_of_mem (positionsRest_subset hj hi)
    · rw [positionsRest_singleton] at hm
      exact hm

/-- What can be left of an expression: all of it, or one of its positions. -/
def Expr.rests (e : Expr τ ν) : List (List (Expr τ ν)) := [e] :: e.positions

theorem Expr.mem_rests_of_mem_stepsRest {e : Expr τ ν} {s : Symbol τ ν}
    {k k' : List (Expr τ ν)} (hk : k ∈ e.rests) (h : (s, k') ∈ stepsRest k) : k' ∈ e.rests := by
  have hk' := mem_positionsRest_of_mem_stepsRest h
  rcases List.mem_cons.1 hk with rfl | hk
  · rw [positionsRest_singleton] at hk'
    exact List.mem_cons_of_mem _ hk'
  · exact List.mem_cons_of_mem _ (positionsRest_subset hk hk')

end TraitLift.Grammar
