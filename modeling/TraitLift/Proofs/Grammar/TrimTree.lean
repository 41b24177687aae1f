import Mathlib.Tactic
import TraitLift.Proofs.Grammar.Trim

/-!
Trees of types without their optional tokens. The trimmed tree is a terse tree of the same rule
(`hasTree_trim`, `terse_trim`), it is neat if the tree was (`neat_trim`), and its tokens are some of those
of the tree.
-/

namespace TraitLift.Grammar

/-! ### Trees -/

theorem trim_node {r : Rule} (hr : r ∈ typeRules) (hcall : r ≠ .macroType) (cs : List Syntax) :
    trim (.node r cs) = .node r (reduce r (trimAll cs)) := by
  rw [trim, if_pos ⟨hr, hcall⟩]

theorem trim_node_other {r : Rule} (hr : ¬ (r ∈ typeRules ∧ r ≠ .macroType)) (cs : List Syntax) :
    trim (.node r cs) = .node r cs := by
  rw [trim, if_neg hr]

mutual

/-- A tree without optional tokens is one of the same symbol. -/
theorem hasTree_trim : ∀ {s : Symbol TokenClass Rule} {c : Syntax}, s.HasTree rust c →
    s.HasTree rust (trim c)
  | _, .leaf _, h => h
  | .tok _, .node _ _, h => by
    obtain ⟨_, heq, -⟩ := h
    simp at heq
  | .rule r, .node a cs, h => by
    obtain ⟨ds, heq, hds⟩ := h
    obtain ⟨rfl, rfl⟩ := Tree.node.inj heq
    by_cases ha : a ∈ typeRules ∧ a ≠ .macroType
    · rw [trim_node ha.1 ha.2]
      exact ⟨_, rfl, parses_body_reduce (parses_trimAll hds)⟩
    · rw [trim_node_other ha]
      exact ⟨cs, rfl, hds⟩

theorem parses_trimAll : ∀ {k : List Syn} {cs : List Syntax}, Parses rust k cs →
    Parses rust k (trimAll cs)
  | _, [], h => h
  | k, c :: cs, h => by
    obtain ⟨s, m, hs, hc, hcs⟩ := parses_cons_iff.1 h
    exact parses_cons_iff.2 ⟨s, m, hs, hasTree_trim hc, parses_trimAll hcs⟩

end

/-! ### Terse trees -/

/-- Whether a rule is used in an expression. -/
def mentions (a : Rule) : Syn → Bool
  | .rule b => a = b
  | .seq e f | .alt e f => mentions a e || mentions a f
  | .star e => mentions a e
  | .empty | .tok _ => false

/-- Whether all rules in an expression have a property. -/
def allMentioned (p : Rule → Bool) : Syn → Bool
  | .rule b => p b
  | .seq e f | .alt e f => allMentioned p e && allMentioned p f
  | .star e => allMentioned p e
  | .empty | .tok _ => true

theorem allMentioned_iff {p : Rule → Prop} [DecidablePred p] {e : Syn} :
    allMentioned (fun q => p q) e = true ↔ ∀ q, mentions q e → p q := by
  induction e with
  | empty | tok | rule => simp [allMentioned, mentions]
  | seq e f he hf | alt e f he hf =>
    simp only [allMentioned, mentions, Bool.and_eq_true, Bool.or_eq_true, he, hf, or_imp, forall_and]
  | star e he => exact he

/-- What holds of all rules in an expression is decided by one walk through it. -/
instance {p : Rule → Prop} [DecidablePred p] {e : Syn} :
    Decidable (∀ q ∈ Rule.all, mentions q e → p q) :=
  decidable_of_iff _ (allMentioned_iff.trans ⟨fun h q _ => h q, fun h q => h q (rust_listed q)⟩)

theorem mentions_of_covers {a : Rule} {d : List Syntax} : ∀ {e : Syn} {us : List Syntax},
    Covers rust e us → .node a d ∈ us → mentions a e
  | .empty, _, h, hmem => by
    obtain rfl := h
    simp at hmem
  | .tok _, _, h, hmem => by
    obtain ⟨t, rfl, -⟩ := h
    simp at hmem
  | .rule b, _, h, hmem => by
    obtain ⟨cs, rfl, -⟩ := h
    obtain ⟨rfl, -⟩ := Tree.node.inj (List.mem_singleton.1 hmem)
    exact decide_eq_true rfl
  | .seq e f, _, h, hmem => by
    obtain ⟨us, vs, rfl, he, hf⟩ := h
    rw [mentions, Bool.or_eq_true]
    exact (List.mem_append.1 hmem).imp (mentions_of_covers he) (mentions_of_covers hf)
  | .alt e f, _, h, hmem => by
    rw [mentions, Bool.or_eq_true]
    exact h.imp (mentions_of_covers · hmem) (mentions_of_covers · hmem)
  | .star e, _, h, hmem => by
    obtain ⟨pss, rfl, hall⟩ := h
    obtain ⟨us, hus, hmem⟩ := List.mem_flatten.1 hmem
    rw [mentions]
    exact mentions_of_covers (hall us hus) hmem

theorem isVoid_of_covers {e : Syn} {us : List Syntax} (h : Covers rust e us)
    (he : mentions .forLifetimes e = false) : ∀ c ∈ us, isVoid c = false := by
  intro c hc
  unfold isVoid
  split
  · rw [mentions_of_covers h hc] at he
    simp at he
  · rfl

/-- No binder that binds nothing is left in front of the parts of a rule. -/
theorem isVoid_of_mem_strip {r : Rule} (hr : r ∈ typeRules) {cs : List Syntax}
    (h : Parses rust [ruleBody r] cs) : ∀ c ∈ strip r cs, isVoid c = false := by
  by_cases hbinder : r = .traitBound ∨ r = .fnPtrType
  · have hbody : ∃ e, ruleBody r = .seq (Expr.opt (Syn.use .forLifetimes)) e ∧
        mentions .forLifetimes e = false ∧
        ∀ p ∈ stepsRest [e], p.1 ∉ [Symbol.rule .forLifetimes, .rule .outerAttr] := by
      rcases hbinder with rfl | rfl
      · exact ⟨_, rfl, by decide⟩
      · exact ⟨_, rfl, by decide⟩
    obtain ⟨e, hbody, hno, hsteps⟩ := hbody
    rw [hbody] at h
    obtain ⟨bs, rest, rfl, hbs, hrest⟩ := parses_iff_covers.1 h
    obtain ⟨bs', -, hbs', hstrip⟩ := exists_strip hbinder hbs
      (isIdle_of_covers (r := .traitBound) hrest hsteps)
    intro c hc
    rw [hstrip] at hc
    rcases List.mem_append.1 hc with hc | hc
    · exact hbs' c hc
    · exact isVoid_of_covers hrest hno c hc
  · have hno : ∀ r ∈ typeRules, ¬ (r = .traitBound ∨ r = .fnPtrType) →
        mentions .forLifetimes (ruleBody r) = false := by decide
    exact fun c hc => isVoid_of_covers (parses_iff_covers.1 h) (hno r hr hbinder) c
      ((strip_sublist r cs).subset hc)

/-- A type with a single bound is terse if the one with a list of it is. -/
theorem terse_one {p : Rule × Rule × Syn} (hp : p ∈ oneRules) {k b : Syntax}
    (h : Parses rust [ruleBody .typeNoBounds] [.node p.2.1 [k, b]])
    (hterse : Terse (.node p.1 [k, .node .bounds [b]])) :
    Terse (.node .typeNoBounds [.node p.2.1 [k, b]]) := by
  have hrules : ∀ p ∈ oneRules, p.1 ∈ typeRules ∧ p.1 ≠ .macroType ∧
      terseBody p.2.1 = ruleBody p.2.1 := by decide
  obtain ⟨htype, hcall, hbody⟩ := hrules p hp
  obtain ⟨hk, hbounds, -⟩ := (hterse htype).2 hcall
  obtain ⟨hb, -⟩ := (hbounds (by decide)).2 (by decide)
  refine fun _ => ⟨h, fun _ => ⟨fun _ => ⟨?_, fun _ => ⟨hk, hb, trivial⟩⟩, trivial⟩⟩
  rw [hbody]
  exact h.of_node_mem (List.mem_singleton.2 rfl)

/-- Terse parts of a type stay terse. -/
theorem terse_settle {cs : List Syntax} (h : Parses rust [ruleBody .type] (settle .type cs))
    (hterse : ∀ c ∈ cs, Terse c) : ∀ c ∈ settle .type cs, Terse c := by
  revert h
  unfold settle
  split
  · intro h c hc
    obtain rfl := List.mem_singleton.1 hc
    exact terse_one (p := (.implType, .implOneType, Syn.use .traitBound)) (by decide)
      (h.of_node_mem (List.mem_singleton.2 rfl)) (hterse _ (List.mem_singleton.2 rfl))
  · intro h c hc
    obtain rfl := List.mem_singleton.1 hc
    exact terse_one (p := (.dynType, .dynOneType, Syn.bound)) (by decide)
      (h.of_node_mem (List.mem_singleton.2 rfl)) (hterse _ (List.mem_singleton.2 rfl))
  · exact fun _ => hterse

theorem terse_reduce {r : Rule} (hr : r ∈ typeRules) {cs : List Syntax}
    (h : Parses rust [ruleBody r] cs) (hterse : ∀ c ∈ cs, isVoid c = false → Terse c) :
    ∀ c ∈ reduce r cs, Terse c := by
  have hstrip : ∀ c ∈ strip r cs, Terse c := fun c hc =>
    hterse c ((strip_sublist r cs).subset hc) (isVoid_of_mem_strip hr h c hc)
  have hpare : ∀ c ∈ pare r (strip r cs), Terse c := fun c hc =>
    hstrip c ((pare_sublist r _).subset hc)
  by_cases htype : r = .type
  · subst htype
    have hbody := parses_body_reduce h
    rw [reduce, if_neg (by simp)] at hbody ⊢
    exact terse_settle hbody hpare
  · by_cases htuple : r = .tupleType
    · subst htuple
      rw [strip_eq_self (by decide)] at hstrip hpare
      rw [reduce]
      split
      · exact hstrip
      · rw [strip_eq_self (by decide)]
        exact hpare
    · rw [reduce_eq_pare (by simp [htype, htuple])]
      exact hpare

mutual

/-- A tree without optional tokens is terse, unless it is a binder that binds nothing. -/
theorem terse_trim : ∀ {s : Symbol TokenClass Rule} {c : Syntax}, s.HasTree rust c →
    isVoid (trim c) = false → Terse (trim c)
  | _, .leaf _, _, _ => trivial
  | .tok _, .node _ _, h, _ => by
    obtain ⟨_, heq, -⟩ := h
    simp at heq
  | .rule r, .node a cs, h, hvoid => by
    obtain ⟨ds, heq, hds⟩ := h
    obtain ⟨rfl, rfl⟩ := Tree.node.inj heq
    by_cases ha : a ∈ typeRules ∧ a ≠ .macroType
    · rw [trim_node ha.1 ha.2] at hvoid ⊢
      have htrim := parses_trimAll hds
      exact fun hr => ⟨parses_reduce htrim hvoid, fun _ =>
        terseAll_iff.2 (terse_reduce hr htrim (terse_trimAll hds))⟩
    · rw [trim_node_other ha]
      intro hr
      obtain rfl : a = .macroType := by
        by_contra hne
        exact ha ⟨hr, hne⟩
      exact ⟨hds, fun h => absurd rfl h⟩

theorem terse_trimAll : ∀ {k : List Syn} {cs : List Syntax}, Parses rust k cs →
    ∀ c ∈ trimAll cs, isVoid c = false → Terse c
  | _, [], _, _, hmem, _ => by simp [trimAll] at hmem
  | k, d :: cs, h, c, hmem, hvoid => by
    obtain ⟨s, m, hs, hd, hcs⟩ := parses_cons_iff.1 h
    rcases List.mem_cons.1 hmem with heq | hmem
    · rw [heq] at hvoid ⊢
      exact terse_trim hd hvoid
    · exact terse_trimAll hcs c hmem hvoid

end

/-! ### Neat trees -/

/-- The rules that a segment of a path can end with, and those that these can end with. -/
def spineRules : List Rule :=
  [.pathSegment, .turbofishSegment, .angleArgs, .parenArgs, .typeNoBounds, .pathType, .qpathType,
   .refType, .ptrType, .sliceType, .arrayType, .tupleType, .parenType, .neverType, .inferType,
   .fnPtrType, .macroType, .implOneType, .dynOneType, .lifetimeBound, .traitBound, .parenBound,
   .parenTree, .bracketTree, .braceTree]

/-- What ends a rule of the spine is a token or a rule of the spine. -/
theorem mem_spineRules_of_last {r a : Rule} (hr : r ∈ spineRules) {k m : List Syn}
    (hk : k ∈ (ruleBody r).rests) (hs : (.rule a, m) ∈ stepsRest k) (hm : nullableRest m) :
    a ∈ spineRules := by
  have hall : ∀ r ∈ spineRules, ∀ k ∈ (ruleBody r).rests, ∀ p ∈ stepsRest k, nullableRest p.2 →
      p.1 ∈ spineRules.map Symbol.rule ∨ ∀ a ∈ Rule.all, p.1 ≠ .rule a := by
    decide +kernel
  rcases hall r hr k hk _ hs hm with h | h
  · simpa using h
  · exact absurd rfl (h a (rust_listed a))

theorem barsLast_congr {as bs : List Syntax} (h : as.getLast? = bs.getLast?) :
    barsLast as = barsLast bs := by
  cases hb : bs.getLast? with
  | none =>
    rw [hb] at h
    rw [List.getLast?_eq_none_iff.1 h, List.getLast?_eq_none_iff.1 hb]
  | some b => rw [barsLast_of_getLast? hb, barsLast_of_getLast? (h.trans hb)]

/-- The last part stays if no token can be left out at the end. -/
theorem getLast?_pare {r : Rule} (hr : ∀ t, isSpare r t [] = false) : ∀ cs : List Syntax,
    (pare r cs).getLast? = cs.getLast?
  | [] => rfl
  | .leaf t :: cs => by
    have ih := getLast?_pare hr cs
    cases hspare : isSpare r t cs with
    | true =>
      obtain ⟨d, ds, rfl⟩ := List.exists_cons_of_ne_nil (l := cs) (by
        rintro rfl
        simp [hr] at hspare)
      rw [pare_of_spare hspare, ih, List.getLast?_cons_cons]
    | false => rw [pare_of_not_spare hspare, List.getLast?_cons, List.getLast?_cons, ih]
  | .node a ds :: cs => by
    rw [pare, List.getLast?_cons, List.getLast?_cons, getLast?_pare hr cs]

theorem getLast?_reduce {r : Rule} (hr : r ∈ spineRules) {cs : List Syntax}
    (hne : reduce r cs ≠ []) : (reduce r cs).getLast? = cs.getLast? := by
  have hspare : ∀ t, isSpare r t [] = false := by
    have hall : ∀ r ∈ spineRules, r ∉ [Rule.lifetimeParam, .lifetimeBounds, .bounds] := by decide
    have hr := hall r hr
    intro t
    unfold isSpare
    split <;> simp_all [closes]
  have hstrip : strip r cs ≠ [] → (strip r cs).getLast? = cs.getLast? := by
    intro hne
    obtain ⟨front, hfront⟩ : strip r cs <:+ cs := List.dropWhile_suffix _
    have hlast : cs.getLast? = (strip r cs).getLast?.or front.getLast? := by
      rw [← List.getLast?_append, hfront]
    cases h : (strip r cs).getLast? with
    | none => exact absurd (List.getLast?_eq_none_iff.1 h) hne
    | some c => rw [hlast, h, Option.some_or]
  by_cases htuple : r = .tupleType
  · subst htuple
    have hsettle : ∀ cs, settle .tupleType cs = cs := fun _ => rfl
    rw [reduce]
    split
    · rfl
    · rw [hsettle, strip_eq_self (by decide), getLast?_pare hspare]
  · have htype : r ≠ .type := by
      rintro rfl
      exact absurd hr (by decide)
    rw [reduce_eq_pare (by simp [htuple, htype])] at hne ⊢
    rw [getLast?_pare hspare]
    refine hstrip fun h => hne ?_
    rw [h]
    rfl

theorem exists_trim_node (a : Rule) (ds : List Syntax) : ∃ es, trim (.node a ds) = .node a es := by
  rw [trim]
  split
  · exact ⟨_, rfl⟩
  · exact ⟨_, rfl⟩

theorem stops_trimAll {cs : List Syntax} (h : Parses rust [ruleBody .typeNoBounds] cs) :
    stops .typeNoBounds (trimAll cs) = stops .typeNoBounds cs := by
  obtain ⟨a, -, _, rfl, ds, rfl, -⟩ := exists_alternative (r := .typeNoBounds) (by decide) h
  obtain ⟨es, hes⟩ := exists_trim_node a ds
  rw [trimAll, hes]
  cases a <;> rfl

theorem stops_reduce {r : Rule} (hr : r ∈ spineRules) {cs : List Syntax}
    (h : Parses rust [ruleBody r] cs) : stops r (reduce r (trimAll cs)) = stops r cs := by
  by_cases hchoice : r = .typeNoBounds
  · subst hchoice
    rw [reduce_eq_self (by decide), stops_trimAll h]
  · have hstops : ∀ cs, stops r cs = r.halts := by
      intro cs
      unfold stops
      split
      · exact absurd rfl hchoice
      · rfl
    rw [hstops, hstops]

mutual

/-- Leaving out tokens does not change what must not follow a segment of a path. -/
theorem bars_trim {r : Rule} (hr : r ∈ spineRules) : ∀ {c : Syntax}, (Symbol.rule r).HasTree rust c →
    bars (trim c) = bars c
  | .leaf _, _ => rfl
  | .node a cs, h => by
    obtain ⟨ds, heq, hds⟩ := h
    obtain ⟨rfl, rfl⟩ := Tree.node.inj heq
    by_cases ha : a ∈ typeRules ∧ a ≠ .macroType
    · have hreduce := parses_body_reduce (parses_trimAll hds)
      have hne : reduce a (trimAll cs) ≠ [] := by
        intro hnil
        obtain ⟨t, ts, ht⟩ := hreduce.exists_leaf
        rw [hnil] at ht
        simp [leavesOf] at ht
      rw [trim_node ha.1 ha.2, bars, bars, stops_reduce hr hds,
        barsLast_congr (getLast?_reduce hr hne), barsLast_trimAll hr (List.mem_cons_self ..) hds]
    · rw [trim_node_other ha]

theorem barsLast_trimAll {r : Rule} (hr : r ∈ spineRules) : ∀ {k : List Syn} {cs : List Syntax},
    k ∈ (ruleBody r).rests → Parses rust k cs → barsLast (trimAll cs) = barsLast cs
  | _, [], _, _ => rfl
  | k, c :: cs, hk, h => by
    obtain ⟨s, m, hs, hc, hcs⟩ := parses_cons_iff.1 h
    rw [trimAll, barsLast, barsLast]
    cases cs with
    | nil =>
      rw [trimAll, List.isEmpty_nil, if_pos rfl, if_pos rfl]
      cases s with
      | tok x =>
        obtain ⟨t, rfl, -⟩ := hc
        rfl
      | rule a => exact bars_trim (mem_spineRules_of_last hr hk hs (parses_nil_iff.1 hcs)) hc
    | cons d ds =>
      rw [trimAll, List.isEmpty_cons, if_neg Bool.false_ne_true, List.isEmpty_cons,
        if_neg Bool.false_ne_true]
      exact barsLast_trimAll hr (Expr.mem_rests_of_mem_stepsRest hk hs) hcs

end

/-- In a path, a segment and no other part can bar the `::` behind it. -/
theorem segment_of_barred {r : Rule} (hr : r = .pathType ∨ r = .qpathType) {k m : List Syn}
    (hk : k ∈ (ruleBody r).rests) {s s' : Symbol TokenClass Rule} {m' : List Syn}
    (hs : (s, m) ∈ stepsRest k) (hs' : (s', m') ∈ stepsRest m) (hcolon : .dcolon ∈ s'.kinds)
    (hlimit : .dcolon ∈ s.limits) :
    (∃ a ∈ spineRules, s = .rule a) ∧ ∃ c, s' = .tok c := by
  have hall : ∀ r ∈ [Rule.pathType, .qpathType], ∀ k ∈ (ruleBody r).rests, ∀ p ∈ stepsRest k,
      ∀ q ∈ stepsRest p.2, .dcolon ∈ q.1.kinds → .dcolon ∈ p.1.limits →
        p.1 ∈ spineRules.map Symbol.rule ∧ q.1 = .tok (.one .dcolon) := by decide
  obtain ⟨h, h'⟩ := hall r (by simpa using hr) k hk _ hs _ hs' hcolon hlimit
  obtain ⟨a, ha, heq⟩ := List.mem_map.1 h
  exact ⟨⟨a, ha, heq.symm⟩, _, h'⟩

/-- The parts of a path stay neat. -/
theorem neatAll_trimAll {r : Rule} (hr : r = .pathType ∨ r = .qpathType) : ∀ {k : List Syn}
    {cs : List Syntax}, k ∈ (ruleBody r).rests → Parses rust k cs → NeatAll cs →
    (∀ c ∈ cs, Neat (trim c)) → NeatAll (trimAll cs)
  | _, [], _, _, _, _ => trivial
  | k, c :: cs, hk, h, hneat, htrim => by
    obtain ⟨s, m, hs, hc, hcs⟩ := parses_cons_iff.1 h
    have hk' := Expr.mem_rests_of_mem_stepsRest hk hs
    refine ⟨htrim c (List.mem_cons_self ..), fun t ht hbar => ?_,
      neatAll_trimAll hr hk' hcs hneat.2.2 fun d hd => htrim d (List.mem_cons_of_mem c hd)⟩
    have hlimit := bars_subset_limits (hasTree_trim hc) hbar
    have hrisky := isRisky_of_mem_limits hk hs hlimit
      ((parses_trimAll hcs).kind_mem_onwards t ht)
    have hkind : t.kind = .dcolon := by
      rcases hr with rfl | rfl <;> simpa [isRisky] using hrisky
    cases cs with
    | nil => simp [trimAll, leavesOf] at ht
    | cons d ds =>
      obtain ⟨s', m', hs', hd, -⟩ := parses_cons_iff.1 hcs
      have hfirst : t ∈ (trim d).leaves.head? := by
        obtain ⟨u, us, hu⟩ := (hasTree_trim hd).exists_leaf
        rw [trimAll, leavesOf, hu] at ht
        rw [hu]
        exact ht
      have hcolon : .dcolon ∈ s'.kinds := hkind ▸ (hasTree_trim hd).kind_mem t hfirst
      obtain ⟨⟨a, ha, rfl⟩, x, rfl⟩ := segment_of_barred hr hk hs hs' hcolon (hkind ▸ hlimit)
      obtain ⟨u, rfl, -⟩ := hd
      rw [bars_trim ha hc] at hbar
      exact hneat.2.1 t ht hbar

theorem neat_settle {cs : List Syntax} (h : Parses rust [ruleBody .type] (settle .type cs))
    (hneat : ∀ c ∈ cs, Neat c) : Spare .type (settle .type cs) ∧ ∀ c ∈ settle .type cs, Neat c := by
  have hone : ∀ {a b : Rule} {k d : Syntax}, b ≠ .pathType ∧ b ≠ .qpathType ∧ b ≠ .macroType →
      (∀ cs, Spare b cs) → Parses rust [ruleBody .type] [.node .typeNoBounds [.node b [k, d]]] →
      Neat (.node a [k, .node .bounds [d]]) → Neat (.node .typeNoBounds [.node b [k, d]]) := by
    intro a b k d hb hspare h hneat
    have hno := h.of_node_mem (List.mem_singleton.2 rfl)
    obtain ⟨-, hk, -, ⟨-, hd, -⟩, -⟩ := hneat
    refine neat_of_calm (by decide) hno trivial fun c hc => ?_
    obtain rfl := List.mem_singleton.1 hc
    refine neat_of_calm hb (hno.of_node_mem (List.mem_singleton.2 rfl)) (hspare _) fun c hc => ?_
    rcases List.mem_cons.1 hc with rfl | hc
    · exact hk
    · obtain rfl := List.mem_singleton.1 hc
      exact hd
  revert h
  unfold settle
  split
  · intro h
    refine ⟨trivial, fun c hc => ?_⟩
    obtain rfl := List.mem_singleton.1 hc
    exact hone (by decide) (fun _ => trivial) h (hneat _ (List.mem_singleton.2 rfl))
  · intro h
    refine ⟨trivial, fun c hc => ?_⟩
    obtain rfl := List.mem_singleton.1 hc
    exact hone (by decide) (fun _ => trivial) h (hneat _ (List.mem_singleton.2 rfl))
  · next himpl hdyn =>
    refine fun _ => ⟨?_, hneat⟩
    unfold Spare
    split
    · exact himpl _ _ rfl rfl
    · exact hdyn _ _ rfl rfl
    · trivial

theorem neat_reduce {r : Rule} {cs : List Syntax} (h : Parses rust [ruleBody r] cs)
    (hneat : ∀ c ∈ cs, Neat c) : Spare r (reduce r cs) ∧ ∀ c ∈ reduce r cs, Neat c := by
  by_cases hr : r = .type
  · subst hr
    have hbody := parses_body_reduce h
    rw [reduce_type_eq] at hbody ⊢
    exact neat_settle hbody hneat
  · refine ⟨?_, fun c hc => hneat c ((reduce_sublist hr cs).subset hc)⟩
    unfold Spare
    split
    · exact hr rfl
    · exact hr rfl
    · trivial

mutual

/-- A neat tree stays neat without its optional tokens. -/
theorem neat_trim : ∀ {s : Symbol TokenClass Rule} {c : Syntax}, s.HasTree rust c → Neat c →
    Neat (trim c)
  | _, .leaf _, _, _ => trivial
  | .tok _, .node _ _, h, _ => by
    obtain ⟨_, heq, -⟩ := h
    simp at heq
  | .rule r, .node a cs, h, hneat => by
    obtain ⟨ds, heq, hds⟩ := h
    obtain ⟨rfl, rfl⟩ := Tree.node.inj heq
    by_cases ha : a ∈ typeRules ∧ a ≠ .macroType
    · have htrim := parses_trimAll hds
      have hreduce := parses_body_reduce htrim
      have hall := neat_of_mem_trimAll hds hneat.2.neat
      rw [trim_node ha.1 ha.2]
      by_cases hpath : a = .pathType ∨ a = .qpathType
      · rw [reduce_eq_self (by rcases hpath with rfl | rfl <;> decide)]
        refine ⟨by rcases hpath with rfl | rfl <;> trivial,
          neatAll_trimAll hpath (List.mem_cons_self ..) hds hneat.2 fun c hc => ?_⟩
        rw [trimAll_eq_map] at hall
        exact hall _ (List.mem_map_of_mem hc)
      · obtain ⟨hspare, hparts⟩ := neat_reduce htrim hall
        exact neat_of_calm ⟨(not_or.1 hpath).1, (not_or.1 hpath).2, ha.2⟩ hreduce hspare hparts
    · rw [trim_node_other ha]
      exact hneat

theorem neat_of_mem_trimAll : ∀ {k : List Syn} {cs : List Syntax}, Parses rust k cs →
    (∀ c ∈ cs, Neat c) → ∀ c ∈ trimAll cs, Neat c
  | _, [], _, _, _, hmem => by simp [trimAll] at hmem
  | k, d :: cs, h, hneat, c, hmem => by
    obtain ⟨s, m, hs, hd, hcs⟩ := parses_cons_iff.1 h
    rcases List.mem_cons.1 hmem with heq | hmem
    · rw [heq]
      exact neat_trim hd (hneat d (List.mem_cons_self ..))
    · exact neat_of_mem_trimAll hcs (fun e he => hneat e (List.mem_cons_of_mem d he)) c hmem

end

/-- Trees of an expression that uses no rules of types stay as they are. -/
theorem trimAll_eq_self {e : Syn} {cs : List Syntax} (h : Covers rust e cs)
    (he : ∀ a ∈ typeRules, mentions a e = false) : trimAll cs = cs := by
  rw [trimAll_eq_map, List.map_congr_left (g := id) fun c hc => ?_, List.map_id]
  cases c with
  | leaf t => rfl
  | node a ds =>
    refine trim_node_other (fun ha => ?_) ds
    simpa [he a ha.1] using mentions_of_covers h hc

/-! ### Leaves -/

theorem leavesOf_sublist {as bs : List Syntax} (h : as.Sublist bs) :
    (leavesOf as).Sublist (leavesOf bs) := by
  rw [leavesOf_eq_flatMap, leavesOf_eq_flatMap]
  exact h.flatMap _

theorem leavesOf_settle (cs : List Syntax) : leavesOf (settle .type cs) = leavesOf cs := by
  unfold settle
  split
  · simp [leavesOf, Tree.leaves]
  · simp [leavesOf, Tree.leaves]
  · rfl

theorem leavesOf_reduce (r : Rule) (cs : List Syntax) :
    (leavesOf (reduce r cs)).Sublist (leavesOf cs) := by
  by_cases hr : r = .type
  · rw [hr, reduce_type_eq, leavesOf_settle]
  · exact leavesOf_sublist (reduce_sublist hr cs)

mutual

/-- Nothing but tokens of the tree is left, in their order. -/
theorem leaves_trim : ∀ c : Syntax, (trim c).leaves.Sublist c.leaves
  | .leaf _ => List.Sublist.refl _
  | .node r cs => by
    rw [trim]
    split
    · exact (leavesOf_reduce r _).trans (leavesOf_trimAll cs)
    · exact List.Sublist.refl _

theorem leavesOf_trimAll : ∀ cs : List Syntax, (leavesOf (trimAll cs)).Sublist (leavesOf cs)
  | [] => List.Sublist.refl _
  | c :: cs => (leaves_trim c).append (leavesOf_trimAll cs)

end

end TraitLift.Grammar
