import Mathlib.Tactic
import TraitLift.Proofs.Grammar.Alike

/-!
Neat trees are alike. Two neat trees of one rule that stand in front of the same tokens, each followed
by nothing that it bars, are the same tree (`twins`). Where the kind of the next token does not decide
between two readings, a token further on does.
-/

namespace TraitLift.Grammar

/-! ### Clashes -/

/-- A segment that goes on with `::` and an angle bracket is a turbofish. -/
theorem path_resolves {n : Nat} {r : Rule} (hr : r = .pathType ∨ r = .qpathType) : Resolves n r := by
  intro s t k m c d ps qs x y hst hkm hc hd hn heq
  obtain ⟨rfl, rfl⟩ : s = .rule .pathSegment ∧ t = .rule .turbofishSegment := by
    rcases hr with rfl | rfl <;> simpa [clashes] using hst
  obtain ⟨cs, rfl, hcs⟩ := hc.hasTree
  obtain ⟨ds, rfl, hds⟩ := hd.hasTree
  obtain ⟨_, _, rfl, ⟨w, rfl, hw⟩, hargs⟩ := parses_iff_covers.1 hcs
  obtain ⟨_, _, rfl, ⟨w', rfl, hw'⟩, _, _, rfl, ⟨u, rfl, hu⟩, ⟨as, rfl, has⟩⟩ :=
    parses_iff_covers.1 hds
  obtain ⟨v, vs, hv, hvk⟩ := exists_head (r := .angleArgs) rfl has
  have huk := kind_eq hu
  simp only [Tree.leaves, leavesOf, List.cons_append, List.nil_append, List.append_nil] at heq
  obtain ⟨rfl, heq⟩ := List.cons.inj heq
  have hargs_ne : ∀ {q : Rule} {a : Kind} {bs : List Syntax} {z : List Token}, q.starters = [a] →
      a ≠ .dcolon → Parses rust [ruleBody q] bs → leavesOf bs ++ z ≠ u :: (leavesOf as ++
        (leavesOf qs ++ y)) := fun {q a bs z} hq ha hbs hz => by
    obtain ⟨b, bs', hb, hbk⟩ := exists_head hq hbs
    rw [hb] at hz
    obtain ⟨rfl, -⟩ := List.cons.inj hz
    exact ha (hbk.symm.trans huk)
  rcases hargs with (⟨bs, rfl, hbs⟩ | ⟨bs, rfl, hbs⟩) | rfl
  · exact hargs_ne (q := .angleArgs) rfl (by decide) hbs (by simpa [leavesOf, Tree.leaves] using heq)
  · exact hargs_ne (q := .parenArgs) rfl (by decide) hbs (by simpa [leavesOf, Tree.leaves] using heq)
  · -- Behind the bare segment comes a `::`, and behind that a word.
    have hnext : ∀ r ∈ [Rule.pathType, .qpathType], ∀ q ∈ pairs r, ∀ z ∈ stepsRest q.1,
        z.1 = .rule .pathSegment → ∀ z' ∈ stepsRest z.2, nullableRest z'.2 = false ∧
          z'.1 = .tok (.one .dcolon) ∧ .lt ∉ onwards z'.2 := by decide +kernel
    obtain ⟨m', hs, hps⟩ := hc.exists_step
    simp only [leavesOf, List.nil_append, hv, List.cons_append] at heq
    cases ps with
    | nil =>
      have hxu : x = u :: (v :: vs ++ (leavesOf qs ++ y)) := by simpa [leavesOf] using heq
      refine hc.finishes.halt u (by rw [hxu]; rfl) ?_
      rw [huk]
      rcases hr with rfl | rfl <;> decide
    | cons p ps =>
      obtain ⟨s', m'', hs', hp, hps'⟩ := parses_cons_iff.1 hps
      obtain ⟨hnull, rfl, hlt⟩ := hnext r (by simpa using hr) _ hkm _ hs rfl _ hs'
      obtain ⟨p, rfl, -⟩ := hp
      have htail : p = u ∧ leavesOf ps ++ x = v :: (vs ++ (leavesOf qs ++ y)) := by
        simpa [leavesOf, Tree.leaves] using heq
      exact hlt (hvk ▸ hps'.kind_mem_of_eq hnull htail.2)

/-- The type that a name with its arguments stands for. -/
def namedType (t : Token) (args : List Syntax) : Syntax :=
  .node .type [.node .typeNoBounds [.node .pathType [.node .pathSegment (.leaf t :: args)]]]

section

variable {t : Token} {args : List Syntax} (ht : t.kind = .name)
  (hargs : Covers rust (Expr.opt (Syn.use .angleArgs)) args)

include ht hargs

theorem namedType_segment : Parses rust [ruleBody .pathSegment] (.leaf t :: args) := by
  have hword : Covers rust Syn.pathWord [.leaf t] := ⟨t, rfl, by
    change TokenClass.pathWord.has t.kind = true
    rw [ht]
    rfl⟩
  exact Covers.parses ⟨[.leaf t], args, rfl, hword, hargs.imp Or.inl id⟩

theorem namedType_path :
    Parses rust [ruleBody .pathType] [.node .pathSegment (.leaf t :: args)] :=
  Covers.parses ⟨[], _, rfl, Or.inr rfl, [_], [], rfl,
    Or.inl ⟨_, rfl, namedType_segment ht hargs⟩, [], rfl, by simp⟩

theorem namedType_hasTree : (Symbol.rule .type).HasTree rust (namedType t args) := by
  have hplain : Parses rust [ruleBody .typeNoBounds] [.node .pathType _] :=
    Covers.parses (Or.inl ⟨_, rfl, namedType_path ht hargs⟩)
  exact ⟨_, rfl, Covers.parses (Or.inl ⟨_, rfl, hplain⟩)⟩

theorem namedType_neat (hneat : ∀ a ∈ args, Neat a) : Neat (namedType t args) := by
  have hseg : Neat (.node .pathSegment (.leaf t :: args)) :=
    neat_of_calm (by decide) (namedType_segment ht hargs) trivial fun c hc => by
      rcases List.mem_cons.1 hc with rfl | hc
      · trivial
      · exact hneat c hc
  have hinner : Neat (.node .typeNoBounds [.node .pathType [.node .pathSegment (.leaf t :: args)]]) :=
    ⟨trivial, ⟨trivial, hseg, by simp [leavesOf], trivial⟩, by simp [leavesOf], trivial⟩
  exact ⟨trivial, hinner, by simp [leavesOf], trivial⟩

end

theorem namedType_clear {t u : Token} {args : List Syntax} {x : List Token}
    (hargs : Covers rust (Expr.opt (Syn.use .angleArgs)) args) (hu : u.kind = .equal ∨ u.kind = .colon) :
    Clear (namedType t args) (u :: x) := by
  rintro v hv
  obtain rfl := Option.some.inj hv
  have hlast : barsLast (.leaf t :: args) = [] := by
    rcases hargs with ⟨as, rfl, has⟩ | rfl
    · have hnil : bars (.node .angleArgs as) ⊆ [] :=
        bars_subset_limits (s := .rule .angleArgs) ⟨as, rfl, has⟩
      simpa [barsLast] using List.subset_nil.1 hnil
    · rfl
  simp only [namedType, bars, barsLast, List.isEmpty_nil, if_true, stops, Rule.halts] at hlast ⊢
  simp only [hlast]
  rcases hu with h | h <;> rw [h] <;> decide

/-- What stands in front of the type or the bounds of a named argument: the sign is `k`. -/
theorem exists_of_named {a : Rule} {k : Kind}
    (ha : a = .bindingArg ∧ k = .equal ∨ a = .constraintArg ∧ k = .colon)
    {d : Syntax} (hd : (Symbol.rule a).HasTree rust d) :
    ∃ (t : Token) (args : List Syntax) (u : Token) (tail : Syntax),
      d = .node a (.leaf t :: (args ++ [.leaf u, tail])) ∧ t.kind = .name ∧ u.kind = k ∧
      Covers rust (Expr.opt (Syn.use .angleArgs)) args ∧ 0 < tail.size := by
  obtain ⟨ds, rfl, hds⟩ := hd
  rcases ha with ⟨rfl, rfl⟩ | ⟨rfl, rfl⟩ <;>
  · obtain ⟨_, _, rfl, ⟨t, rfl, ht⟩, args, _, rfl, hargs, _, _, rfl, ⟨u, rfl, hu⟩,
      ⟨es, rfl, -⟩⟩ :=
      parses_iff_covers.1 hds
    exact ⟨t, args, u, _, rfl, kind_eq ht, kind_eq hu, hargs, Nat.succ_pos _⟩

section

variable {n : Nat} (ih : ∀ c d : Syntax, c.size + d.size < n → Twins c d)
  {c d : Syntax} {x y : List Token}

include ih

/-- In front of different tokens, two trees of one rule do not go on alike. -/
theorem ne_of_next {r : Rule} (hr : r ∉ blockRules) {cs ds : List Syntax} {t u : Token}
    {ps qs : List Syntax}
    (hcs : Parses rust [ruleBody r] cs) (hds : Parses rust [ruleBody r] ds)
    (hc : NeatAll (.node r cs :: .leaf t :: ps)) (hd : NeatAll (.node r ds :: .leaf u :: qs))
    (hn : sizes cs + 1 + (sizes ds + 1) < n) (htu : t.kind ≠ u.kind) :
    leavesOf cs ++ t :: x ≠ leavesOf ds ++ u :: y := by
  intro heq
  have htwin := ih (.node r cs) (.node r ds) hn r (t :: x) (u :: y) hr ⟨cs, rfl, hcs⟩
    ⟨ds, rfl, hds⟩ hc.1 hd.1 (hc.clear x) (hd.clear y) heq
  obtain rfl : cs = ds := by simpa using htwin
  obtain ⟨rfl, -⟩ := List.cons.inj (List.append_cancel_left heq)
  exact htu rfl

/-- A type in square brackets goes on with a bracket or with a semicolon. -/
theorem slice_ne_array (hc : (Symbol.rule .sliceType).HasTree rust c)
    (hd : (Symbol.rule .arrayType).HasTree rust d) (hcn : Neat c) (hdn : Neat d)
    (hn : c.size + d.size < n) : c.leaves ++ x ≠ d.leaves ++ y := by
  obtain ⟨cs, rfl, hcs⟩ := hc
  obtain ⟨ds, rfl, hds⟩ := hd
  obtain ⟨_, _, rfl, ⟨t, rfl, ht⟩, _, _, rfl, ⟨es, rfl, hes⟩, ⟨t', rfl, ht'⟩⟩ :=
    parses_iff_covers.1 hcs
  obtain ⟨_, _, rfl, ⟨u, rfl, hu⟩, _, _, rfl, ⟨fs, rfl, hfs⟩, _, _, rfl,
    ⟨u', rfl, hu'⟩, hrest⟩ :=
    parses_iff_covers.1 hds
  simp only [Tree.leaves, leavesOf, List.cons_append, List.append_assoc, List.nil_append,
    Tree.size, sizes] at hn ⊢
  refine fun heq => ne_of_next ih (r := .type) (by decide) hes hfs hcn.2.2.2 hdn.2.2.2 (by omega) ?_
    (List.cons.inj heq).2
  rw [kind_eq ht', kind_eq hu']
  decide

/-- Types in round brackets go on with a comma, a single one with a bracket. -/
theorem tuple_ne_paren (hc : (Symbol.rule .tupleType).HasTree rust c)
    (hd : (Symbol.rule .parenType).HasTree rust d) (hcn : Neat c) (hdn : Neat d)
    (hn : c.size + d.size < n) : c.leaves ++ x ≠ d.leaves ++ y := by
  obtain ⟨cs, rfl, hcs⟩ := hc
  obtain ⟨ds, rfl, hds⟩ := hd
  obtain ⟨_, _, rfl, ⟨u, rfl, hu⟩, _, _, rfl, ⟨fs, rfl, hfs⟩, ⟨u', rfl, hu'⟩⟩ :=
    parses_iff_covers.1 hds
  rcases parses_iff_covers.1 hcs with ⟨_, _, rfl, ⟨t, rfl, ht⟩, ⟨t', rfl, ht'⟩⟩ |
    ⟨_, _, rfl, ⟨t, rfl, ht⟩, _, _, rfl, ⟨es, rfl, hes⟩, _, _, rfl, ⟨t', rfl, ht'⟩, htail⟩ |
    ⟨_, _, rfl, ⟨t, rfl, ht⟩, _, _, rfl, ⟨es, rfl, hes⟩, _, _, rfl,
      ⟨_, _, rfl, ⟨_, _, rfl, ⟨t', rfl, ht'⟩, htail⟩, hstar⟩, hend⟩
  · intro heq
    simp only [Tree.leaves, leavesOf, List.cons_append, List.nil_append, List.append_assoc] at heq
    obtain ⟨v, vs, hv⟩ := Parses.exists_leaf (r := .type) hfs
    have hstart := Parses.kind_mem_onwards hfs v (by rw [hv]; rfl)
    rw [hv] at heq
    obtain ⟨-, rfl, -⟩ : t = u ∧ t' = v ∧ _ := by simpa using heq
    rw [kind_eq ht'] at hstart
    revert hstart
    decide +kernel
  · simp only [Tree.leaves, leavesOf, List.cons_append, List.append_assoc, List.nil_append,
      Tree.size, sizes] at hn ⊢
    refine fun heq => ne_of_next ih (r := .type) (by decide) hes hfs hcn.2.2.2 hdn.2.2.2 (by omega) ?_
      (List.cons.inj heq).2
    rw [kind_eq ht', kind_eq hu']
    decide
  · simp only [Tree.leaves, leavesOf, List.cons_append, List.append_assoc, List.nil_append,
      Tree.size, sizes] at hn ⊢
    refine fun heq => ne_of_next ih (r := .type) (by decide) hes hfs hcn.2.2.2 hdn.2.2.2 (by omega) ?_
      (List.cons.inj heq).2
    rw [kind_eq ht', kind_eq hu']
    decide

/-- A path that goes on with a `!` is that of a macro. -/
theorem path_ne_macro (hc : (Symbol.rule .pathType).HasTree rust c)
    (hd : (Symbol.rule .macroType).HasTree rust d) (hcn : Neat c) (hdn : Neat d)
    (hx : Clear (.node .typeNoBounds [c]) x)
    (hn : c.size + d.size < n) : c.leaves ++ x ≠ d.leaves ++ y := by
  have hxc := hx.last rfl
  obtain ⟨ds, rfl, hds⟩ := hd
  obtain ⟨_, _, rfl, ⟨es, rfl, hes⟩, _, _, rfl, ⟨t, rfl, ht⟩, htree⟩ := parses_iff_covers.1 hds
  simp only [Tree.leaves, leavesOf, List.cons_append, List.append_assoc, List.nil_append,
    Tree.size, sizes] at hn ⊢
  intro heq
  have htwin := ih c (.node .pathType es) (by rw [Tree.size]; omega) .pathType x _ (by decide) hc
    ⟨es, rfl, hes⟩ hcn hdn.2.1 hxc (hdn.2.clear _) heq
  subst htwin
  obtain rfl := List.append_cancel_left heq
  refine hx t rfl ?_
  rw [kind_eq ht, bars]
  exact List.mem_append_left _ (List.mem_singleton.2 rfl)

/-- A list of bounds that is not a single one goes on with a `+`. -/
theorem one_ne_list {one list : Rule} {kw : Kind} (hone : (one, list, kw) ∈ boundTypes)
    (hc : (Symbol.rule .typeNoBounds).HasTree rust c)
    (hd : (Symbol.rule list).HasTree rust d) (hcn : Neat c) (hdn : Neat (.node .type [d]))
    (hx : Clear (.node .type [c]) x) (hy : Clear (.node .type [d]) y)
    (hn : c.size + d.size < n) : c.leaves ++ x ≠ d.leaves ++ y := by
  intro heq
  obtain ⟨u, bs, rfl, hu, hbs⟩ : ∃ u bs, d = .node list [.leaf u, .node .bounds bs] ∧ u.kind = kw ∧
      Parses rust [ruleBody .bounds] bs := by
    obtain ⟨ds, rfl, hds⟩ := hd
    simp only [boundTypes, List.mem_cons, Prod.mk.injEq, List.not_mem_nil, or_false] at hone
    rcases hone with ⟨-, rfl, rfl⟩ | ⟨-, rfl, rfl⟩ <;>
    · obtain ⟨_, _, rfl, ⟨u, rfl, hu⟩, ⟨bs, rfl, hbs⟩⟩ := parses_iff_covers.1 hds
      exact ⟨u, bs, rfl, kind_eq hu, hbs⟩
  obtain ⟨β, hβ, b, rest, k, rfl, hb, hrest, hplus⟩ := exists_of_bounds hbs
  obtain ⟨β', hβ', t, b', rfl, hb', himpl⟩ := exists_of_one hone hc fun t ht => by
    obtain ⟨v, vs, hv⟩ := hc.exists_leaf
    simp only [hv, Tree.leaves, leavesOf, List.cons_append, List.nil_append] at heq ht
    obtain ⟨rfl, -⟩ := List.cons.inj heq
    obtain rfl := Option.some.inj ht
    exact hu
  simp only [Tree.leaves, leavesOf, List.cons_append, List.append_assoc, List.nil_append,
    List.append_nil, Tree.size, sizes] at hn heq
  obtain ⟨rfl, htail⟩ := List.cons.inj heq
  obtain rfl : β' = β := by
    have hapart : ∀ β' ∈ boundRules, ∀ β ∈ boundRules, ∀ x ∈ β'.starters, x ∈ β.starters →
        β' = β := by decide +kernel
    obtain ⟨x, hx, hx'⟩ := exists_common_kind hb' hb htail
    exact hapart _ hβ' _ hβ x hx hx'
  have hbneat := hdn.2.1.2.2.2.1.2
  have hbounds : Clear (.node .bounds (b :: rest)) y := (hy.last rfl).last rfl
  have hblock : ∀ β ∈ boundRules, β ∉ blockRules := by decide
  obtain rfl := ih b' b (by omega) _ x _ (hblock _ hβ') hb' hb hcn.2.1.2.2.2.1 hbneat.1
    (((hx.last rfl).last rfl).last rfl) (clear_of_neatAll hrest hbneat hbounds.parts) htail
  obtain rfl := List.append_cancel_left htail
  cases rest with
  | nil =>
    have hspare := hdn.1
    simp only [boundTypes, List.mem_cons, Prod.mk.injEq, List.not_mem_nil, or_false] at hone
    rcases hone with ⟨rfl, rfl, -⟩ | ⟨-, rfl, -⟩
    · obtain rfl := himpl rfl
      obtain ⟨cs, rfl, -⟩ := hb'
      exact hspare
    · exact hspare
  | cons c rest =>
    obtain ⟨t, ts, ht⟩ := List.exists_cons_of_ne_nil fun h =>
      List.cons_ne_nil _ _ (hrest.leavesOf_eq_nil h)
    refine hx.stops t (by rw [ht]; rfl) ?_
    rw [hplus t (by rw [ht]; rfl)]
    exact List.mem_singleton.2 rfl

theorem fork_apart {r a b : Rule} (hr : r ∈ choices) (hab : (a, b) ∈ forks r)
    (hc : (Symbol.rule a).HasTree rust c) (hd : (Symbol.rule b).HasTree rust d)
    (hcn : Neat (.node r [c])) (hdn : Neat (.node r [d])) (hx : Clear (.node r [c]) x)
    (hy : Clear (.node r [d]) y) (hn : c.size + d.size < n) : c.leaves ++ x ≠ d.leaves ++ y := by
  simp only [choices, List.mem_cons, List.not_mem_nil, or_false] at hr
  rcases hr with rfl | rfl <;>
    simp only [forks, List.mem_cons, Prod.mk.injEq, List.not_mem_nil, or_false] at hab
  · rcases hab with ⟨rfl, rfl⟩ | ⟨rfl, rfl⟩
    · have hone : (Rule.implOneType, Rule.implType, Kind.kwImpl) ∈ boundTypes := by decide
      exact one_ne_list ih hone hc hd hcn.2.1 hdn hx hy hn
    · have hone : (Rule.dynOneType, Rule.dynType, Kind.kwDyn) ∈ boundTypes := by decide
      exact one_ne_list ih hone hc hd hcn.2.1 hdn hx hy hn
  · rcases hab with ⟨rfl, rfl⟩ | ⟨rfl, rfl⟩ | ⟨rfl, rfl⟩
    · exact path_ne_macro ih hc hd hcn.2.1 hdn.2.1 hx hn
    · exact slice_ne_array ih hc hd hcn.2.1 hdn.2.1 hn
    · exact tuple_ne_paren ih hc hd hcn.2.1 hdn.2.1 hn

/-- Two neat trees of a choice have the same alternative below them. -/
theorem choice_unique {r : Rule} (hr : r ∈ choices) {cs ds : List Syntax}
    (hcs : Parses rust [ruleBody r] cs) (hds : Parses rust [ruleBody r] ds)
    (hcn : Neat (.node r cs)) (hdn : Neat (.node r ds)) (hx : Clear (.node r cs) x)
    (hy : Clear (.node r ds) y) (hn : sizes cs + sizes ds < n)
    (heq : leavesOf cs ++ x = leavesOf ds ++ y) : cs = ds := by
  obtain ⟨a, ha, c, rfl, hc⟩ := exists_alternative hr hcs
  obtain ⟨b, hb, d, rfl, hd⟩ := exists_alternative hr hds
  simp only [leavesOf, List.append_nil, sizes, Nat.add_zero] at heq hn
  by_cases hab : a = b
  · subst hab
    have hblock : ∀ r ∈ choices, ∀ a ∈ alternatives r, a ∉ blockRules := by decide
    rw [ih c d hn a x y (hblock r hr a ha) hc hd hcn.2.1 hdn.2.1 (hx.last rfl) (hy.last rfl) heq]
  · have hforks : ∀ r ∈ choices, ∀ a ∈ alternatives r, ∀ b ∈ alternatives r,
      ∀ k ∈ a.starters,
        k ∈ b.starters → a = b ∨ (a, b) ∈ forks r ∨ (b, a) ∈ forks r := by decide +kernel
    obtain ⟨k, hk, hk'⟩ := exists_common_kind hc hd heq
    rcases (hforks r hr a ha b hb k hk hk').resolve_left hab with h | h
    · exact absurd heq (fork_apart ih hr h hc hd hcn hdn hx hy hn)
    · exact absurd heq.symm (fork_apart ih hr h hd hc hdn hcn hy hx (by omega))

/-- A name with its arguments in front of `=` or `:` is all of a type that starts there. -/
theorem eq_namedType {t u : Token} {args : List Syntax} (ht : t.kind = .name)
    (hargs : Covers rust (Expr.opt (Syn.use .angleArgs)) args) (hneat : ∀ a ∈ args, Neat a)
    (hu : u.kind = .equal ∨ u.kind = .colon) (hc : (Symbol.rule .type).HasTree rust c)
    (hcn : Neat c) (hx : Clear c x) (hn : c.size + (sizes args + 5) < n)
    (heq : c.leaves ++ x = t :: (leavesOf args ++ u :: y)) : x = u :: y := by
  have htwin := ih c (namedType t args) (by simp only [namedType, Tree.size, sizes]; omega) .type
    x (u :: y) (by decide) hc (namedType_hasTree ht hargs) hcn (namedType_neat ht hargs hneat) hx
    (namedType_clear hargs hu) (by simpa [namedType, Tree.leaves, leavesOf] using heq)
  subst htwin
  simpa [namedType, Tree.leaves, leavesOf] using heq

/-- A name that goes on with `=` or `:` is no type, and the sign tells a binding from a constraint. -/
theorem angleArgs_resolves : Resolves n .angleArgs := by
  intro s t k m c d ps qs x y hst hkm hc hd hn heq
  obtain ⟨b, l, hb, rfl⟩ : ∃ b l, (b = Rule.bindingArg ∧ l = Kind.equal ∨
      b = .constraintArg ∧ l = .colon) ∧ t = .rule b := by
    simp only [clashes, List.mem_cons, Prod.mk.injEq, List.not_mem_nil, or_false] at hst
    rcases hst with ⟨-, rfl⟩ | ⟨-, rfl⟩ | ⟨-, rfl⟩
    · exact ⟨_, _, Or.inl ⟨rfl, rfl⟩, rfl⟩
    · exact ⟨_, _, Or.inr ⟨rfl, rfl⟩, rfl⟩
    · exact ⟨_, _, Or.inr ⟨rfl, rfl⟩, rfl⟩
  obtain ⟨t, args, u, tail, rfl, ht, hu, hargs, htail⟩ := exists_of_named hb hd.hasTree
  have hu' : u.kind = .equal ∨ u.kind = .colon := by
    rcases hb with ⟨-, rfl⟩ | ⟨-, rfl⟩
    · exact Or.inl hu
    · exact Or.inr hu
  have hdneat := hd.finishes.neat.1.2
  simp only [Tree.leaves, leavesOf, leavesOf_append, List.cons_append, List.nil_append,
    List.append_assoc, List.append_nil, Tree.size, sizes, sizes_append, Nat.add_zero] at heq hn
  by_cases hs : s = .rule .typeArg
  · subst hs
    obtain ⟨cs, rfl, hcs⟩ := hc.hasTree
    obtain ⟨es, rfl, hes⟩ := parses_iff_covers.1 hcs
    have hclear := hc.finishes.clear_head
    have hcneat := hc.finishes.neat.1.2
    have hargneat : ∀ a ∈ args, Neat a := fun a ha =>
      hdneat.neat a (List.mem_cons_of_mem _ (List.mem_append_left _ ha))
    have hx := eq_namedType ih ht hargs hargneat hu' ⟨es, rfl, hes⟩ hcneat.1 (hclear.last rfl)
      (by simp only [Tree.size, sizes] at hn ⊢; omega) (by simpa [Tree.leaves, leavesOf] using heq)
    refine hclear.stops u (by rw [hx]; rfl) ?_
    rcases hu' with h | h <;> rw [h] <;> exact List.mem_of_elem_eq_true rfl
  · obtain ⟨rfl, rfl⟩ : s = .rule .bindingArg ∧ b = .constraintArg := by
      simpa [clashes, hs] using hst
    obtain ⟨t', args', u', tail', rfl, -, hu'', hargs', -⟩ :=
      exists_of_named (Or.inl ⟨rfl, rfl⟩) hc.hasTree
    obtain rfl : l = .colon := by simpa using hb
    have hcneat := hc.finishes.neat.1.2
    have hne : u'.kind ≠ u.kind := by rw [hu, hu'']; decide
    simp only [Tree.leaves, leavesOf, leavesOf_append, List.cons_append, List.nil_append,
      List.append_assoc, List.append_nil, Tree.size, sizes, sizes_append, Nat.add_zero] at heq hn
    obtain ⟨rfl, hrest⟩ := List.cons.inj heq
    have hlt : ∀ {as : List Syntax} {v : Token} {z z' : List Token}, v.kind ≠ .lt →
        Parses rust [ruleBody .angleArgs] as → leavesOf as ++ z ≠ v :: z' := fun hv has hz => by
      obtain ⟨w, ws, hw, hwk⟩ := exists_head (r := .angleArgs) rfl has
      rw [hw] at hz
      obtain ⟨rfl, -⟩ := List.cons.inj hz
      exact hv hwk
    rcases hargs' with ⟨as', rfl, has'⟩ | rfl <;> rcases hargs with ⟨as, rfl, has⟩ | rfl
    · refine ne_of_next ih (r := .angleArgs) (by decide) has' has hcneat.2.2 hdneat.2.2 ?_ hne
        (by simpa [leavesOf, Tree.leaves] using hrest)
      simp only [Tree.size, sizes] at hn
      omega
    · exact hlt (by rw [hu]; decide) has' (by simpa [leavesOf, Tree.leaves] using hrest)
    · exact hlt (by rw [hu'']; decide) has (by simpa [leavesOf, Tree.leaves] using hrest.symm)
    · exact hne (congrArg Token.kind (List.cons.inj hrest).1)

/-- A name or `_` that goes on with a colon is no type. -/
theorem bareFnArg_resolves : Resolves n .bareFnArg := by
  intro s t k m c d ps qs x y hst hkm hc hd hn heq
  obtain ⟨l, hl, rfl, rfl⟩ : ∃ l, (l = Kind.name ∨ l = .underscore) ∧ s = .tok (.one l) ∧
      t = .rule .type := by
    simp only [clashes, List.mem_cons, Prod.mk.injEq, List.not_mem_nil, or_false] at hst
    rcases hst with ⟨rfl, rfl⟩ | ⟨rfl, rfl⟩
    · exact ⟨_, Or.inl rfl, rfl, rfl⟩
    · exact ⟨_, Or.inr rfl, rfl, rfl⟩
  -- Behind the name come a colon and a type, and behind a type without a name nothing.
  have hnext : ∀ q ∈ pairs .bareFnArg, ∀ z ∈ stepsRest q.1,
      (z.1 = .tok (.one .name) ∨ z.1 = .tok (.one .underscore) → nullableRest z.2 = false ∧
        ∀ z' ∈ stepsRest z.2, z'.1 = .tok (.one .colon) ∧ nullableRest z'.2 = false ∧
          ∀ z'' ∈ stepsRest z'.2, z''.1 = .rule .type) ∧
      (z.1 = .rule .type → stepsRest z.2 = []) := by
    decide +kernel
  obtain ⟨w, rfl, hw⟩ := hc.hasTree
  obtain ⟨m₁, hm₁, hps⟩ := hc.exists_step
  obtain ⟨m₂, hm₂, hqs⟩ := hd.exists_step
  obtain ⟨hnull, hcolon⟩ := (hnext _ hkm _ hm₁).1 (by simpa using hl)
  obtain rfl : qs = [] := by
    cases qs with
    | nil => rfl
    | cons q qs =>
      obtain ⟨_, _, hs, -⟩ := parses_cons_iff.1 hqs
      rw [(hnext _ ((settled_of_not_mem (by decide) (by decide)).swap hkm) _ hm₂).2 rfl] at hs
      simp at hs
  obtain ⟨u, e, ps, rfl, hu, he⟩ : ∃ u e ps', ps = .leaf u :: e :: ps' ∧ u.kind = .colon ∧
      (Symbol.rule .type).HasTree rust e := by
    cases ps with
    | nil => simp [parses_nil_iff.1 hps] at hnull
    | cons p ps =>
      obtain ⟨s, m₃, hs, hp, hps'⟩ := parses_cons_iff.1 hps
      obtain ⟨rfl, hnull', htype⟩ := hcolon _ hs
      obtain ⟨u, rfl, hu⟩ := hp
      cases ps with
      | nil => simp [parses_nil_iff.1 hps'] at hnull'
      | cons e ps =>
        obtain ⟨s, m₄, hs, he, -⟩ := parses_cons_iff.1 hps'
        obtain rfl := htype _ hs
        exact ⟨u, e, ps, rfl, kind_eq hu, he⟩
  have hsize := four_le_size he
  simp only [Tree.leaves, leavesOf, List.cons_append, List.nil_append, List.append_assoc,
    Tree.size, sizes] at heq hn
  have hhalt : ∀ z, y ≠ u :: z := fun z hz =>
    hd.finishes.halt u (by rw [hz]; rfl) (by rw [hu]; exact List.mem_singleton.2 rfl)
  rcases hl with rfl | rfl
  · exact hhalt _ (eq_namedType ih (kind_eq hw)
      (show Covers rust (Expr.opt (Syn.use .angleArgs)) [] from Or.inr rfl) (by simp) (Or.inr hu)
      hd.hasTree hd.finishes.neat.1 hd.finishes.clear_head (by simp only [sizes]; omega)
      (by simpa [leavesOf] using heq.symm))
  · have hinfer : Parses rust [ruleBody .inferType] [.leaf w] := Covers.parses ⟨w, rfl, hw⟩
    have hplain : Parses rust [ruleBody .typeNoBounds] [.node .inferType [.leaf w]] :=
      Covers.parses (by iterate 9 apply Or.inr
                        exact Or.inl ⟨_, rfl, hinfer⟩)
    have htwin := ih d (.node .type [.node .typeNoBounds [.node .inferType [.leaf w]]])
      (by simp only [Tree.size, sizes]; omega) .type _ (u :: (e.leaves ++ (leavesOf ps ++ x)))
      (by decide)
      hd.hasTree ⟨_, rfl, Covers.parses (Or.inl ⟨_, rfl, hplain⟩)⟩ hd.finishes.neat.1
      ⟨trivial, ⟨trivial, ⟨trivial, trivial, by simp [leavesOf], trivial⟩, by simp [leavesOf],
        trivial⟩, by simp [leavesOf], trivial⟩ hd.finishes.clear_head
      (fun v hv => by
        obtain rfl := Option.some.inj hv
        simp [hu, bars, barsLast, stops, Rule.halts])
      (by simpa [Tree.leaves, leavesOf] using heq.symm)
    subst htwin
    exact hhalt _ (by simpa [Tree.leaves, leavesOf] using heq.symm)

end

/-! ### All rules but those of members -/

theorem resolves {n : Nat} (ih : ∀ c d : Syntax, c.size + d.size < n → Twins c d) {r : Rule} :
    Resolves n r := by
  by_cases hr : r = .pathType ∨ r = .qpathType
  · exact path_resolves hr
  · by_cases hangle : r = .angleArgs
    · exact hangle ▸ angleArgs_resolves ih
    · by_cases hbare : r = .bareFnArg
      · exact hbare ▸ bareFnArg_resolves ih
      · have hnone : ∀ r ∈ Rule.all, ¬ (r = .pathType ∨ r = .qpathType) → r ≠ .angleArgs →
            r ≠ .bareFnArg → clashes r = [] := by decide
        exact fun hst => by simp [hnone r (rust_listed r) hr hangle hbare] at hst

theorem finishes_of_node {r : Rule} {cs : List Syntax} {x : List Token} (hr : r ≠ .typeNoBounds)
    (hcs : Parses rust [ruleBody r] cs) (hneat : Neat (.node r cs)) (hx : Clear (.node r cs) x) :
    Finishes r [ruleBody r] cs x where
  parses := hcs
  neat := hneat.2
  halt t ht := by
    have hstops : stops r cs = r.halts := by
      unfold stops
      split
      · exact absurd rfl hr
      · rfl
    exact hstops ▸ hx.stops t ht
  clear := hx.parts

/-- Two neat trees of a rule that has nothing to do with members are the same if they stand in front
of the same tokens with nothing that they bar behind them. -/
theorem twins : ∀ (n : Nat) (c d : Syntax), c.size + d.size < n → Twins c d
  | n + 1, c, d, hn, r, x, y, hr, hc, hd, hcn, hdn, hx, hy, heq => by
    have ih := twins n
    obtain ⟨cs, rfl, hcs⟩ := hc
    obtain ⟨ds, rfl, hds⟩ := hd
    simp only [Tree.size] at hn
    rw [Tree.leaves, Tree.leaves] at heq
    by_cases hchoice : r ∈ choices
    · rw [choice_unique ih hchoice hcs hds hcn hdn hx hy (by omega) heq]
    · have hplain : r ≠ .typeNoBounds := fun h => hchoice (h ▸ by decide)
      have hsettled := settled_of_not_mem hchoice hr
      rw [finishes_unique hr hsettled (resolves ih) ih hsettled.start
        (finishes_of_node hplain hcs hcn hx) (finishes_of_node hplain hds hdn hy) (by omega) heq]

/-- Tokens are read as one neat tree at most. -/
theorem neat_unique {r : Rule} (hr : r ∉ blockRules) {c d : Syntax}
    (hc : (Symbol.rule r).HasTree rust c) (hd : (Symbol.rule r).HasTree rust d) (hcn : Neat c)
    (hdn : Neat d) (h : c.leaves = d.leaves) : c = d :=
  twins _ c d (Nat.lt_succ_self _) r [] [] hr hc hd hcn hdn (by simp [Clear]) (by simp [Clear])
    (by rw [h])

end TraitLift.Grammar
