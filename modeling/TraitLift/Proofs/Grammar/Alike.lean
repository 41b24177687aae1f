import Mathlib.Tactic
import TraitLift.Proofs.Grammar.Neat

/-!
Two readings side by side. Two neat trees of one rule in front of the same tokens are followed through the
`pairs` of what is left of the rule for each; the kind of the next token decides which way both go on.
Where it does not, the rule has `clashes`, and the readings are the same if each of these is settled.
-/

namespace TraitLift.Grammar

/-! ### Two readings side by side -/

/-- Whether two symbols can stand for the same tree. -/
def Symbol.meets : Symbol TokenClass Rule → Symbol TokenClass Rule → Bool
  | .tok c, .tok d => c.kinds.any d.has
  | .rule a, .rule b => a = b
  | _, _ => false

/-- What two readings can have left after one more tree. -/
def following (p : List Syn × List Syn) : List (List Syn × List Syn) :=
  (stepsRest p.1).flatMap fun (s, k) => (stepsRest p.2).filterMap fun (t, m) =>
    if s.meets t then some (k, m) else none

/-- What two readings of a rule can have left after the same trees. -/
def pairs (r : Rule) : List (List Syn × List Syn) := closure following 30 [([ruleBody r], [ruleBody r])]

/-- Symbols of a rule that can start with the same token. -/
def clashes : Rule → List (Symbol TokenClass Rule × Symbol TokenClass Rule)
  | .pathType | .qpathType => [(.rule .pathSegment, .rule .turbofishSegment)]
  | .angleArgs =>
    [(.rule .typeArg, .rule .bindingArg), (.rule .typeArg, .rule .constraintArg),
     (.rule .bindingArg, .rule .constraintArg)]
  | .bareFnArg =>
    [(.tok (.one .name), .rule .type), (.tok (.one .underscore), .rule .type)]
  | _ => []

/-- Whether the next token decides between two symbols, but for the clashes. -/
def isDecided (r : Rule) (s t : Symbol TokenClass Rule) : Bool :=
  s.kinds.all (fun x => x ∉ t.kinds) || (s, t) ∈ clashes r || (t, s) ∈ clashes r

/-- Whether the next token decides how two readings of a rule go on, but for the clashes. -/
def isSettled (r : Rule) : Bool :=
  (([ruleBody r], [ruleBody r]) ∈ pairs r) && (pairs r).all fun p =>
    (p.swap ∈ pairs r) && (following p).all (· ∈ pairs r) &&
    ((stepsRest p.1).all fun (s, _) => (stepsRest p.2).all fun (t, _) =>
      s.meets t || isDecided r s t) &&
    (!nullableRest p.1 || (onwards p.2).all (· ∈ r.halts))

/-- What it means that the next token decides. -/
structure Settled (r : Rule) : Prop where
  start : ([ruleBody r], [ruleBody r]) ∈ pairs r
  swap : ∀ {k m}, (k, m) ∈ pairs r → (m, k) ∈ pairs r
  next : ∀ {k m k' m' s t}, (k, m) ∈ pairs r → (s, k') ∈ stepsRest k → (t, m') ∈ stepsRest m →
    s.meets t → (k', m') ∈ pairs r
  decided : ∀ {k m k' m' s t},
    (k, m) ∈ pairs r → (s, k') ∈ stepsRest k → (t, m') ∈ stepsRest m →
    s.meets t = false → isDecided r s t
  halts : ∀ {k m}, (k, m) ∈ pairs r → nullableRest k → onwards m ⊆ r.halts

theorem settled_of_isSettled {r : Rule} (h : isSettled r) : Settled r := by
  simp only [isSettled, Bool.and_eq_true, decide_eq_true_eq, List.all_eq_true, Bool.or_eq_true,
    Bool.not_eq_true'] at h
  obtain ⟨hstart, hall⟩ := h
  refine ⟨hstart, fun {k m} hkm => (hall _ hkm).1.1.1,
    fun {k m k' m' s t} hkm hs ht hmeet => ?_, fun {k m k' m' s t} hkm hs ht hmeet => ?_,
    fun {k m} hkm hk x hx => (hall _ hkm).2.resolve_left (by simp [hk]) x hx⟩
  · refine (hall _ hkm).1.1.2 _ (List.mem_flatMap.2 ⟨_, hs, List.mem_filterMap.2 ⟨_, ht, ?_⟩⟩)
    simp [hmeet]
  · exact ((hall _ hkm).1.2 _ hs _ ht).resolve_left (by simp [hmeet])

/-- Rules that choose between other rules. -/
def choices : List Rule := [.type, .typeNoBounds]

/-- Rules that have to do with members and where clauses. -/
def blockRules : List Rule :=
  [.implBlock, .implBody, .methodMember, .typeMember, .fnItem, .fnParam, .whereClause,
   .typePredicate, .typeDef]

/-- What is left of a reading is left of the body of its rule. -/
theorem mem_rests_of_mem_pairs {r : Rule} {k m : List Syn} (hkm : (k, m) ∈ pairs r) :
    k ∈ (ruleBody r).rests := by
  have hleft : ∀ {p},
      Relation.ReflTransGen (fun p q => q ∈ following p) ([ruleBody r], [ruleBody r]) p →
        p.1 ∈ (ruleBody r).rests := by
    intro p hp
    induction hp with
    | refl => exact List.mem_cons_self ..
    | tail _ hnext ih =>
      obtain ⟨⟨s, k⟩, hs, hnext⟩ := List.mem_flatMap.1 hnext
      obtain ⟨⟨t, m⟩, -, hmeet⟩ := List.mem_filterMap.1 hnext
      simp only [Option.ite_none_right_eq_some, Option.some.injEq] at hmeet
      obtain ⟨-, rfl⟩ := hmeet
      exact Expr.mem_rests_of_mem_stepsRest ih hs
  obtain ⟨p, hp, hreach⟩ := exists_of_mem_closure hkm
  obtain rfl := List.mem_singleton.1 hp
  exact hleft hreach

theorem not_mem_blockRules {r a : Rule} (hr : r ∉ blockRules) {k m m' : List Syn}
    (hkm : (k, m) ∈ pairs r) (hs : (.rule a, m') ∈ stepsRest k) : a ∉ blockRules := by
  have hall : ∀ r ∈ Rule.all, r ∉ blockRules → ∀ k ∈ (ruleBody r).rests, ∀ z ∈ stepsRest k,
      ∀ a ∈ blockRules, z.1 ≠ .rule a := by decide +kernel
  exact fun ha => hall r (rust_listed r) hr _ (mem_rests_of_mem_pairs hkm) _ hs a ha rfl

theorem settled_of_not_mem {r : Rule} (hr : r ∉ choices) (hb : r ∉ blockRules) : Settled r := by
  have hall : ∀ r ∈ Rule.all, r ∉ choices → r ∉ blockRules → isSettled r := by decide +kernel
  exact settled_of_isSettled (hall r (rust_listed r) hr hb)

/-! ### Trees with something behind them -/

/-- What follows a tree is not barred by it. -/
def Clear (c : Syntax) (x : List Token) : Prop := ∀ t ∈ x.head?, t.kind ∉ bars c

/-- The trees finish a reading of `r` that has `k` left, and `x` does not go on with it. -/
structure Finishes (r : Rule) (k : List Syn) (ps : List Syntax) (x : List Token) : Prop where
  parses : Parses rust k ps
  neat : NeatAll ps
  halt : ∀ t ∈ x.head?, t.kind ∉ r.halts
  clear : ∀ t ∈ x.head?, t.kind ∉ barsLast ps

theorem Parses.leavesOf_eq_nil {k : List Syn} {ps : List Syntax} (h : Parses rust k ps)
    (hnil : leavesOf ps = []) : ps = [] := by
  cases ps with
  | nil => rfl
  | cons c ps =>
    obtain ⟨s, m, -, hc, -⟩ := parses_cons_iff.1 h
    obtain ⟨t, ts, ht⟩ := hc.exists_leaf
    simp [leavesOf, ht] at hnil

theorem Symbol.HasTree.kind_mem {s : Symbol TokenClass Rule} {c : Syntax} (h : s.HasTree rust c) :
    ∀ t ∈ c.leaves.head?, t.kind ∈ s.kinds := by
  cases s with
  | tok d =>
    obtain ⟨u, rfl, hu⟩ := h
    rintro t ht
    obtain rfl := Option.some.inj ht
    exact TokenClass.mem_kinds.2 hu
  | rule r =>
    obtain ⟨cs, rfl, hcs⟩ := h
    exact fun t ht => r.onwards_subset_starters (hcs.kind_mem_onwards t ht)

theorem Finishes.clear_head {r : Rule} {k : List Syn} {c : Syntax} {ps : List Syntax}
    {x : List Token} (h : Finishes r k (c :: ps) x) : Clear c (leavesOf ps ++ x) := by
  obtain ⟨s, m, -, -, hps⟩ := parses_cons_iff.1 h.parses
  intro t ht
  cases hl : leavesOf ps with
  | nil =>
    obtain rfl := hps.leavesOf_eq_nil hl
    exact h.clear t (by simpa [hl] using ht)
  | cons u us =>
    rw [hl] at ht
    exact h.neat.2.1 t (by rw [hl]; exact ht)

theorem Finishes.tail {r : Rule} {k m : List Syn} {c : Syntax} {ps : List Syntax}
    {x : List Token} (h : Finishes r k (c :: ps) x) (hps : Parses rust m ps) :
    Finishes r m ps x where
  parses := hps
  neat := h.neat.2.2
  halt := h.halt
  clear t ht := by
    cases ps with
    | nil => simp [barsLast]
    | cons p ps => exact h.clear t ht

mutual

/-- The number of nodes and leaves. -/
def Tree.size {α ν : Type} : Tree α ν → Nat
  | .leaf _ => 1
  | .node _ cs => sizes cs + 1

/-- The number of nodes and leaves of some trees. -/
def sizes {α ν : Type} : List (Tree α ν) → Nat
  | [] => 0
  | c :: cs => c.size + sizes cs

end

/-- Two neat trees of one rule in front of the same tokens, with nothing that they bar behind them,
are the same. -/
def Twins (c d : Syntax) : Prop := ∀ r x y, r ∉ blockRules → (Symbol.rule r).HasTree rust c →
  (Symbol.rule r).HasTree rust d → Neat c → Neat d → Clear c x → Clear d y →
  c.leaves ++ x = d.leaves ++ y → c = d

/-- One of two readings that go on differently: what is left, the next tree and its symbol, and the
trees behind it. -/
structure Branch (r : Rule) (k : List Syn) (s : Symbol TokenClass Rule) (c : Syntax)
    (ps : List Syntax) (x : List Token) : Prop where
  hasTree : s.HasTree rust c
  finishes : Finishes r k (c :: ps) x
  exists_step : ∃ m, (s, m) ∈ stepsRest k ∧ Parses rust m ps

/-- A clash of a rule never comes about: trees of the two symbols do not stand in front of the same
tokens. -/
def Resolves (n : Nat) (r : Rule) : Prop :=
  ∀ {s t : Symbol TokenClass Rule} {k m : List Syn} {c d : Syntax} {ps qs : List Syntax}
    {x y : List Token}, (s, t) ∈ clashes r → (k, m) ∈ pairs r → Branch r k s c ps x →
    Branch r m t d qs y → c.size + sizes ps + (d.size + sizes qs) < n →
    c.leaves ++ (leavesOf ps ++ x) ≠ d.leaves ++ (leavesOf qs ++ y)

/-! ### Readings go on alike -/

/-- Two trees of symbols that both can start with the first token. -/
theorem exists_common_kind {s t : Symbol TokenClass Rule} {c d : Syntax} {x y : List Token}
    (hc : s.HasTree rust c) (hd : t.HasTree rust d) (h : c.leaves ++ x = d.leaves ++ y) :
    ∃ k, k ∈ s.kinds ∧ k ∈ t.kinds := by
  obtain ⟨u, us, hu⟩ := hc.exists_leaf
  obtain ⟨v, vs, hv⟩ := hd.exists_leaf
  rw [hu, hv, List.cons_append, List.cons_append] at h
  obtain ⟨rfl, -⟩ := List.cons.inj h
  exact ⟨u.kind, hc.kind_mem u (by rw [hu]; rfl), hd.kind_mem u (by rw [hv]; rfl)⟩

/-- Where the end of one reading is what the other goes on with, the end would be barred. -/
theorem Finishes.not_go_on {r : Rule} {m : List Syn} {d : Syntax} {qs : List Syntax}
    {x y : List Token} (hx : ∀ t ∈ x.head?, t.kind ∉ r.halts) (h : Parses rust m (d :: qs))
    (hon : onwards m ⊆ r.halts) : x ≠ leavesOf (d :: qs) ++ y := by
  rintro rfl
  obtain ⟨s, m', -, hd, -⟩ := parses_cons_iff.1 h
  obtain ⟨t, ts, ht⟩ := hd.exists_leaf
  exact hx t (by simp [leavesOf, ht]) (hon (h.kind_mem_onwards t (by simp [leavesOf, ht])))

theorem Symbol.HasTree.eq_of_meets {s t : Symbol TokenClass Rule} {c d : Syntax} {x y : List Token}
    (hmeet : s.meets t) (hc : s.HasTree rust c) (hd : t.HasTree rust d)
    (h : c.leaves ++ x = d.leaves ++ y) : c = d ∨ ∃ r, s = .rule r ∧ t = .rule r := by
  cases s with
  | tok k =>
    cases t with
    | tok l =>
      obtain ⟨u, rfl, -⟩ := hc
      obtain ⟨v, rfl, -⟩ := hd
      rw [Tree.leaves, Tree.leaves, List.singleton_append, List.singleton_append] at h
      exact Or.inl (by rw [(List.cons.inj h).1])
    | rule b => simp [Symbol.meets] at hmeet
  | rule a =>
    cases t with
    | tok l => simp [Symbol.meets] at hmeet
    | rule b => exact Or.inr ⟨a, rfl, by rw [of_decide_eq_true hmeet]⟩

/-- Two readings of a rule that finish in front of the same tokens go on with the same trees. -/
theorem finishes_unique {r : Rule} (hb : r ∉ blockRules) (hr : Settled r) {n : Nat} (hclash : Resolves n r)
    (ih : ∀ c d : Syntax, c.size + d.size < n → Twins c d) :
    ∀ {ps qs : List Syntax} {k m : List Syn} {x y : List Token}, (k, m) ∈ pairs r →
      Finishes r k ps x → Finishes r m qs y → sizes ps + sizes qs < n →
      leavesOf ps ++ x = leavesOf qs ++ y → ps = qs
  | [], [], _, _, _, _, _, _, _, _, _ => rfl
  | [], d :: qs, k, m, x, y, hkm, hp, hq, _, heq =>
    absurd heq (Finishes.not_go_on hp.halt hq.parses
      (hr.halts hkm (parses_nil_iff.1 hp.parses)))
  | c :: ps, [], k, m, x, y, hkm, hp, hq, _, heq =>
    absurd heq.symm (Finishes.not_go_on hq.halt hp.parses
      (hr.halts (hr.swap hkm) (parses_nil_iff.1 hq.parses)))
  | c :: ps, d :: qs, k, m, x, y, hkm, hp, hq, hn, heq => by
    obtain ⟨s, k', hs, hc, hps⟩ := parses_cons_iff.1 hp.parses
    obtain ⟨t, m', ht, hd, hqs⟩ := parses_cons_iff.1 hq.parses
    simp only [leavesOf, List.append_assoc] at heq
    simp only [sizes] at hn
    by_cases hmeet : s.meets t
    · obtain rfl : c = d := by
        rcases hc.eq_of_meets hmeet hd heq with hcd | ⟨a, rfl, rfl⟩
        · exact hcd
        · exact ih c d (by omega) a _ _ (not_mem_blockRules hb hkm hs) hc hd hp.neat.1 hq.neat.1
            hp.clear_head hq.clear_head heq
      rw [finishes_unique hb hr hclash ih (hr.next hkm hs ht hmeet) (hp.tail hps) (hq.tail hqs)
        (by omega) (List.append_cancel_left heq)]
    · have hdec := hr.decided hkm hs ht (Bool.eq_false_iff.2 hmeet)
      simp only [isDecided, Bool.or_eq_true, decide_eq_true_eq, List.all_eq_true] at hdec
      rcases hdec with (hapart | hst) | hts
      · obtain ⟨x, hx, hx'⟩ := exists_common_kind hc hd heq
        exact absurd hx' (hapart x hx)
      · exact absurd heq (hclash hst hkm ⟨hc, hp, k', hs, hps⟩ ⟨hd, hq, m', ht, hqs⟩ hn)
      · exact absurd heq.symm (hclash hts (hr.swap hkm) ⟨hd, hq, m', ht, hqs⟩ ⟨hc, hp, k', hs, hps⟩
          (by omega))

theorem NeatAll.neat : ∀ {ps : List Syntax}, NeatAll ps → ∀ c ∈ ps, Neat c
  | _ :: _, h, c, hc => by
    rcases List.mem_cons.1 hc with rfl | hc
    · exact h.1
    · exact h.2.2.neat c hc

theorem leavesOf_append (ps qs : List Syntax) : leavesOf (ps ++ qs) = leavesOf ps ++ leavesOf qs := by
  induction ps with
  | nil => rfl
  | cons p ps ih => rw [List.cons_append, leavesOf, leavesOf, ih, List.append_assoc]

theorem sizes_append (ps qs : List Syntax) : sizes (ps ++ qs) = sizes ps + sizes qs := by
  induction ps with
  | nil => simp [sizes]
  | cons p ps ih => rw [List.cons_append, sizes, sizes, ih, Nat.add_assoc]

/-! ### Choices between rules -/

/-- The rules that a rule chooses between. -/
def alternatives : Rule → List Rule
  | .type => [.typeNoBounds, .implType, .dynType]
  | .typeNoBounds =>
    [.pathType, .qpathType, .refType, .ptrType, .sliceType, .arrayType, .tupleType, .parenType,
     .neverType, .inferType, .fnPtrType, .macroType, .implOneType, .dynOneType]
  | _ => []

/-- The alternatives that can start with the same token. -/
def forks : Rule → List (Rule × Rule)
  | .type => [(.typeNoBounds, .implType), (.typeNoBounds, .dynType)]
  | .typeNoBounds =>
    [(.pathType, .macroType), (.sliceType, .arrayType), (.tupleType, .parenType)]
  | _ => []

theorem exists_of_covers_any {ps : List Syntax} : ∀ {rs : List Rule}, rs ≠ [] →
    Covers rust (Expr.any (rs.map Syn.use)) ps →
    ∃ a ∈ rs, ∃ c, ps = [c] ∧ (Symbol.rule a).HasTree rust c
  | [], h, _ => absurd rfl h
  | [a], _, ⟨cs, hps, hcs⟩ => ⟨a, by simp, _, hps, cs, rfl, hcs⟩
  | a :: b :: rs, _, .inl ⟨cs, hps, hcs⟩ => ⟨a, by simp, _, hps, cs, rfl, hcs⟩
  | a :: b :: rs, _, .inr h => by
    obtain ⟨a', ha', hps⟩ := exists_of_covers_any (List.cons_ne_nil b _) h
    exact ⟨a', List.mem_cons_of_mem a ha', hps⟩

theorem exists_alternative {r : Rule} (hr : r ∈ choices) {cs : List Syntax}
    (h : Parses rust [ruleBody r] cs) :
    ∃ a ∈ alternatives r, ∃ c, cs = [c] ∧ (Symbol.rule a).HasTree rust c := by
  have hbody : ruleBody r = Expr.any ((alternatives r).map Syn.use) ∧ alternatives r ≠ [] := by
    rcases List.mem_cons.1 hr with rfl | hr
    · decide
    · obtain rfl := List.mem_singleton.1 hr
      decide
  rw [hbody.1, parses_iff_covers] at h
  exact exists_of_covers_any hbody.2 h

theorem barsLast_of_getLast? {c : Syntax} : ∀ {cs : List Syntax}, cs.getLast? = some c →
    barsLast cs = bars c
  | [a], h => by
    obtain rfl : a = c := by simpa using h
    simp [barsLast]
  | a :: b :: cs, h => by
    rw [barsLast, List.isEmpty_cons, if_neg Bool.false_ne_true,
      barsLast_of_getLast? (show (b :: cs).getLast? = some c by simpa using h)]

theorem Clear.stops {r : Rule} {cs : List Syntax} {x : List Token} (h : Clear (.node r cs) x) :
    ∀ t ∈ x.head?, t.kind ∉ stops r cs := fun t ht hstop =>
  h t ht (by rw [bars]; exact List.mem_append_left _ hstop)

theorem Clear.parts {r : Rule} {cs : List Syntax} {x : List Token} (h : Clear (.node r cs) x) :
    ∀ t ∈ x.head?, t.kind ∉ barsLast cs := fun t ht hbar =>
  h t ht (by rw [bars]; exact List.mem_append_right _ hbar)

theorem Clear.last {r : Rule} {cs : List Syntax} {x : List Token} (h : Clear (.node r cs) x)
    {c : Syntax} (hc : cs.getLast? = some c) : Clear c x := fun t ht => by
  rw [← barsLast_of_getLast? hc]
  exact h.parts t ht

/-- The first of some neat trees is followed by nothing that it bars. -/
theorem clear_of_neatAll {k : List Syn} {c : Syntax} {ps : List Syntax} {x : List Token}
    (hps : Parses rust k ps) (hneat : NeatAll (c :: ps))
    (hx : ∀ t ∈ x.head?, t.kind ∉ barsLast (c :: ps)) : Clear c (leavesOf ps ++ x) := by
  intro t ht
  cases hl : leavesOf ps with
  | nil =>
    obtain rfl := hps.leavesOf_eq_nil hl
    exact hx t (by simpa [hl] using ht)
  | cons u us =>
    rw [hl] at ht
    exact hneat.2.1 t (by rw [hl]; exact ht)

theorem kind_eq {k : Kind} {t : Token} (h : rust.accepts (.one k) t) : t.kind = k :=
  (beq_iff_eq.1 h).symm

theorem NeatAll.clear {c : Syntax} {t : Token} {ps : List Syntax} (h : NeatAll (c :: .leaf t :: ps))
    (z : List Token) : Clear c (t :: z) := fun u hu => h.2.1 u hu

/-! ### Types made of bounds -/

/-- The rules of a single bound and of a list of bounds behind a keyword, with the keyword. -/
def boundTypes : List (Rule × Rule × Kind) :=
  [(.implOneType, .implType, .kwImpl), (.dynOneType, .dynType, .kwDyn)]

/-- The rules of bounds. -/
def boundRules : List Rule := [.lifetimeBound, .traitBound, .parenBound]

theorem exists_of_covers_bound {ps : List Syntax} (h : Covers rust Syn.bound ps) :
    ∃ β ∈ boundRules, ∃ b, ps = [b] ∧ (Symbol.rule β).HasTree rust b :=
  exists_of_covers_any (show boundRules ≠ [] by decide) h

/-- A list of bounds is a bound and perhaps more behind a `+`. -/
theorem exists_of_bounds {bs : List Syntax} (h : Parses rust [ruleBody .bounds] bs) :
    ∃ β ∈ boundRules, ∃ b rest k, bs = b :: rest ∧ (Symbol.rule β).HasTree rust b ∧
      Parses rust k rest ∧ ∀ t ∈ (leavesOf rest).head?, t.kind = .plus := by
  obtain ⟨_, rest, rfl, hbound, hrest⟩ := parses_iff_covers.1 h
  obtain ⟨β, hβ, b, rfl, hb⟩ := exists_of_covers_bound hbound
  have honwards : ∀ x ∈ onwards [Expr.all [Expr.star (Expr.all [Syn.k .plus, Syn.bound]),
      Expr.opt (Syn.k .plus)]], x = Kind.plus := by decide +kernel
  exact ⟨β, hβ, b, rest, _, rfl, hb, hrest.parses,
    fun t ht => honwards _ (hrest.parses.kind_mem_onwards t ht)⟩

/-- A type without a list of bounds that starts with the keyword of one has one bound behind it. -/
theorem exists_of_one {one list : Rule} {kw : Kind} (hone : (one, list, kw) ∈ boundTypes)
    {c : Syntax} (hc : (Symbol.rule .typeNoBounds).HasTree rust c)
    (hkw : ∀ t ∈ c.leaves.head?, t.kind = kw) :
    ∃ β ∈ boundRules, ∃ t b, c = .node .typeNoBounds [.node one [.leaf t, b]] ∧
      (Symbol.rule β).HasTree rust b ∧ (one = .implOneType → β = .traitBound) := by
  obtain ⟨cs, rfl, hcs⟩ := hc
  obtain ⟨a, ha, c', rfl, hc'⟩ := exists_alternative (r := .typeNoBounds) (by decide) hcs
  have honly : ∀ p ∈ boundTypes, ∀ a ∈ alternatives .typeNoBounds, p.2.2 ∈ a.starters →
    a = p.1 := by
    decide +kernel
  obtain ⟨t, ts, ht⟩ := hc'.exists_leaf
  have hkind : t.kind = kw := hkw t (by simp [Tree.leaves, leavesOf, ht])
  obtain rfl := honly _ hone a ha (by
    rw [← hkind]
    exact hc'.kind_mem t (by rw [ht]; rfl))
  simp only [boundTypes, List.mem_cons, Prod.mk.injEq, List.not_mem_nil, or_false] at hone
  obtain ⟨es, rfl, hes⟩ := hc'
  rcases hone with ⟨rfl, -, -⟩ | ⟨rfl, -, -⟩
  · obtain ⟨_, _, rfl, ⟨t, rfl, -⟩, ⟨bs, rfl, hbs⟩⟩ := parses_iff_covers.1 hes
    exact ⟨.traitBound, by decide, t, _, rfl, ⟨bs, rfl, hbs⟩, fun _ => rfl⟩
  · obtain ⟨_, _, rfl, ⟨t, rfl, -⟩, hb⟩ := parses_iff_covers.1 hes
    obtain ⟨β, hβ, b, rfl, hb'⟩ := exists_of_covers_bound hb
    exact ⟨β, hβ, t, b, rfl, hb', by simp⟩

/-- The first leaf of the trees of a rule that starts with one kind of token. -/
theorem exists_head {r : Rule} {k : Kind} (hk : r.starters = [k]) {cs : List Syntax}
    (h : Parses rust [ruleBody r] cs) : ∃ t ts, leavesOf cs = t :: ts ∧ t.kind = k := by
  obtain ⟨t, ts, ht⟩ := h.exists_leaf
  have hmem := r.onwards_subset_starters (h.kind_mem_onwards t (by rw [ht]; rfl))
  rw [hk] at hmem
  exact ⟨t, ts, ht, List.mem_singleton.1 hmem⟩

/-- Where something has to be read, the next token is one that the reading can go on with. -/
theorem Parses.kind_mem_of_eq {k : List Syn} {ps : List Syntax} (h : Parses rust k ps)
    (hk : nullableRest k = false) {t : Token} {x z : List Token} (heq : leavesOf ps ++ x = t :: z) :
    t.kind ∈ onwards k := by
  cases hl : leavesOf ps with
  | nil =>
    obtain rfl := h.leavesOf_eq_nil hl
    simp [parses_nil_iff.1 h] at hk
  | cons u us =>
    rw [hl, List.cons_append] at heq
    obtain ⟨rfl, -⟩ := List.cons.inj heq
    exact h.kind_mem_onwards u (by rw [hl]; rfl)

theorem two_le_size {r : Rule} {c : Syntax} (h : (Symbol.rule r).HasTree rust c) : 2 ≤ c.size := by
  obtain ⟨cs, rfl, hcs⟩ := h
  cases cs with
  | nil =>
    obtain ⟨t, ts, ht⟩ := hcs.exists_leaf
    simp [leavesOf] at ht
  | cons c cs =>
    have : 1 ≤ c.size := by cases c <;> simp [Tree.size]
    simp only [Tree.size, sizes]
    omega

theorem four_le_size {c : Syntax} (h : (Symbol.rule .type).HasTree rust c) : 4 ≤ c.size := by
  obtain ⟨cs, rfl, hcs⟩ := h
  rcases parses_iff_covers.1 hcs with ⟨ds, rfl, hds⟩ | ⟨ds, rfl, hds⟩ | ⟨ds, rfl, hds⟩
  · obtain ⟨a, -, d, rfl, hd⟩ := exists_alternative (r := .typeNoBounds) (by decide) hds
    have := two_le_size hd
    simp only [Tree.size, sizes]
    omega
  all_goals
    obtain ⟨_, _, rfl, ⟨t, rfl, -⟩, ⟨es, rfl, hes⟩⟩ := parses_iff_covers.1 hds
    simp only [List.cons_append, List.nil_append, Tree.size, sizes]
    omega

end TraitLift.Grammar
