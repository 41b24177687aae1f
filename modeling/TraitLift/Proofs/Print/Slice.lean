import Mathlib.Tactic
import TraitLift.Proofs.Print.Wall

/-!
What is kept as text in a type: constant arguments, the lengths of arrays and the two parts of a macro.
Each is a row of tokens of the type, and none ends with a doc comment that goes to the end of its line
unless the length of an array does (`slice_of_trim`).
-/

namespace TraitLift.Grammar

mutual

/-- The tokens of the lengths of the arrays in a tree. -/
def lengths : Syntax → List (List Token)
  | .leaf _ => []
  | .node r cs => lengthsOf r cs

/-- The tokens of the lengths of the arrays in the parts of a rule. -/
def lengthsOf (r : Rule) : List Syntax → List (List Token)
  | [] => []
  | .leaf t :: cs =>
    if r = .arrayType ∧ t.kind = .semi then [(leavesOf cs).dropLast] else lengthsOf r cs
  | .node a ds :: cs => lengths (.node a ds) ++ lengthsOf r cs

end

theorem lengths_subset {r : Rule} (hr : r ≠ .arrayType) : ∀ {cs : List Syntax} {c : Syntax}, c ∈ cs →
    lengths c ⊆ lengthsOf r cs
  | d :: cs, c, hc => by
    rcases List.mem_cons.1 hc with rfl | hc
    · cases c with
      | leaf t => simp [lengths]
      | node a ds =>
        rw [lengthsOf]
        exact List.subset_append_left ..
    · have hrest := lengths_subset hr hc
      cases d with
      | leaf t =>
        rw [lengthsOf, if_neg (by simp [hr])]
        exact hrest
      | node a ds =>
        rw [lengthsOf]
        exact List.Subset.trans hrest (List.subset_append_right ..)

theorem isInfix_leavesOf {c : Syntax} {cs : List Syntax} (h : c ∈ cs) : c.leaves <:+: leavesOf cs := by
  obtain ⟨as, bs, rfl⟩ := List.append_of_mem h
  rw [leavesOf_append, leavesOf]
  exact ⟨leavesOf as, leavesOf bs, by rw [List.append_assoc]⟩

mutual

theorem subset_leaves_of_mem {us : List Token} : ∀ {c : Syntax}, us ∈ lengths c → us ⊆ c.leaves
  | .leaf _, h => by simp [lengths] at h
  | .node r cs, h => by
    rw [lengths] at h
    exact subset_leavesOf_of_mem h

theorem subset_leavesOf_of_mem {r : Rule} {us : List Token} : ∀ {cs : List Syntax},
    us ∈ lengthsOf r cs → us ⊆ leavesOf cs
  | [], h => by simp [lengthsOf] at h
  | .leaf t :: cs, h => by
    rw [lengthsOf] at h
    rw [leavesOf]
    refine List.subset_append_of_subset_right _ ?_
    split at h
    · obtain rfl := List.mem_singleton.1 h
      exact List.dropLast_subset _
    · exact subset_leavesOf_of_mem h
  | .node a ds :: cs, h => by
    rw [lengthsOf] at h
    rw [leavesOf]
    rcases List.mem_append.1 h with h | h
    · exact List.subset_append_of_subset_left _ (subset_leaves_of_mem h)
    · exact List.subset_append_of_subset_right _ (subset_leavesOf_of_mem h)

end

/-- A row of tokens of a tree that is kept as text. -/
structure Quotes (c : Syntax) (us : List Token) : Prop where
  ne_nil : us ≠ []
  isInfix : us <:+: c.leaves
  ends : us ∈ lengths c ∨ ∀ t ∈ us.getLast?, t.kind.isLineDoc = false

theorem Quotes.node {r : Rule} (hr : r ≠ .arrayType) {cs : List Syntax} {c : Syntax} (hc : c ∈ cs)
    {us : List Token} (h : Quotes c us) : Quotes (.node r cs) us where
  ne_nil := h.ne_nil
  isInfix := by
    rw [Tree.leaves]
    exact h.isInfix.trans (isInfix_leavesOf hc)
  ends := h.ends.imp_left fun hmem => by
    rw [lengths]
    exact lengths_subset hr hc hmem

/-- The slices of a tree that is laid out part by part are those of its parts. -/
theorem slice_mem_wall_iff {r : Rule} (hr : r ∈ rowRules) {us : List Token} {cs : List Syntax} :
    .slice us ∈ wall (.node r cs) ↔ ∃ c ∈ cs, .slice us ∈ wall c := by
  obtain ⟨hconst, hcall, harray⟩ := ne_of_mem_rowRules hr
  rw [wall_node ⟨hconst, hcall⟩, slice_mem_wallOf_iff harray]

theorem slice_of_settle {us : List Token} {cs : List Syntax}
    (h : ∃ c ∈ settle .type cs, .slice us ∈ wall c) : ∃ c ∈ cs, .slice us ∈ wall c := by
  unfold settle at h
  split at h
  · simpa [slice_mem_wall_iff (show Rule.typeNoBounds ∈ rowRules by decide),
      slice_mem_wall_iff (show Rule.implOneType ∈ rowRules by decide),
      slice_mem_wall_iff (show Rule.implType ∈ rowRules by decide),
      slice_mem_wall_iff (show Rule.bounds ∈ rowRules by decide)] using h
  · simpa [slice_mem_wall_iff (show Rule.typeNoBounds ∈ rowRules by decide),
      slice_mem_wall_iff (show Rule.dynOneType ∈ rowRules by decide),
      slice_mem_wall_iff (show Rule.dynType ∈ rowRules by decide),
      slice_mem_wall_iff (show Rule.bounds ∈ rowRules by decide)] using h
  · exact h

/-- A slice of what is left of the parts of a rule is one of the parts. -/
theorem slice_of_reduce {r : Rule} {us : List Token} {cs : List Syntax}
    (h : ∃ c ∈ reduce r cs, .slice us ∈ wall c) : ∃ c ∈ cs, .slice us ∈ wall c := by
  by_cases hr : r = .type
  · subst hr
    rw [reduce_type_eq] at h
    exact slice_of_settle h
  · obtain ⟨c, hc, hslice⟩ := h
    exact ⟨c, (reduce_sublist hr cs).subset hc, hslice⟩

theorem quotes_constArg {cs : List Syntax} (h : Parses rust [ruleBody .constArg] cs) {us : List Token}
    (hus : .slice us ∈ wall (.node .constArg cs)) : Quotes (.node .constArg cs) us := by
  obtain rfl : us = leavesOf cs := by simpa [wall] using hus
  obtain ⟨t, ts, hts⟩ := h.exists_leaf
  refine ⟨by simp [hts], by rw [Tree.leaves], Or.inr fun t ht => ?_⟩
  exact isLineDoc_of_mem_enders (kind_mem_enders (r := .constArg) (by decide) ⟨cs, rfl, h⟩ t ht)

theorem quotes_macroType {cs : List Syntax} (h : Parses rust [ruleBody .macroType] cs)
    {us : List Token} (hus : .slice us ∈ wall (.node .macroType cs)) :
    Quotes (.node .macroType cs) us := by
  rw [wall, quotation] at hus
  obtain ⟨c, hc, hbrick⟩ := List.mem_map.1 hus
  cases c with
  | leaf t => simp at hbrick
  | node a ds =>
    obtain rfl : (Tree.node a ds).leaves = us := by simpa using hbrick
    have hall : ∀ a ∈ Rule.all, mentions a (ruleBody .macroType) → a ∈ lastRules := by decide
    have hlast := hall a (rust_listed a) (mentions_of_covers (parses_iff_covers.1 h) hc)
    have hds := h.of_node_mem hc
    obtain ⟨t, ts, hts⟩ := hds.exists_leaf
    refine ⟨?_, ?_, Or.inr fun t ht => ?_⟩
    · rw [Tree.leaves, hts]
      exact List.cons_ne_nil t ts
    · rw [show (Tree.node Rule.macroType cs).leaves = leavesOf cs from rfl]
      exact isInfix_leavesOf hc
    · exact isLineDoc_of_mem_enders (kind_mem_enders hlast ⟨ds, rfl, hds⟩ t ht)

theorem quotes_arrayType {cs : List Syntax} (h : Parses rust [ruleBody .arrayType] cs)
    {us : List Token} (hus : .slice us ∈ wall (.node .arrayType (trimAll cs)))
    (hkid : ∀ c ∈ cs, ∀ q ∈ typeRules, (Symbol.rule q).HasTree rust c →
      .slice us ∈ wall (trim c) → Quotes c us) : Quotes (.node .arrayType cs) us := by
  obtain ⟨_, _, rfl, ⟨l, rfl, hl⟩, _, _, rfl, ⟨es, rfl, hes⟩, _, rest, rfl,
    ⟨t, rfl, ht⟩, hrest⟩ :=
    parses_iff_covers.1 h
  have hl := kind_eq hl
  have ht := kind_eq ht
  have hstay := trimAll_eq_self hrest (by decide)
  obtain ⟨es', hes'⟩ := exists_trim_node .type es
  obtain ⟨qs, _, rfl, hqs, e, rfl, -⟩ := hrest
  have hlength : (leavesOf (qs ++ [Tree.leaf e])).dropLast = leavesOf qs := by
    rw [leavesOf_append, leavesOf, Tree.leaves, leavesOf, List.append_nil, List.dropLast_concat]
  have hlengths : lengths (.node .arrayType (Tree.leaf l :: Tree.node .type es :: Tree.leaf t ::
      (qs ++ [Tree.leaf e]))) = lengths (.node .type es) ++ [leavesOf qs] := by
    simp only [lengths, lengthsOf, hl, ht, hlength, and_false, and_self, if_true, if_false, reduceCtorEq]
  simp only [List.cons_append, List.nil_append] at hus hkid ⊢
  rw [trimAll, trimAll, trimAll, hstay, hes', trim, trim, wall_node (by decide), wallOf_array hl ht,
    arrayTail, hlength] at hus
  have hcase : .slice us ∈ wall (.node .type es') ∨ us = leavesOf qs := by
    simpa [Brick.blank] using hus
  rcases hcase with hcase | rfl
  · have hquotes := hkid (.node .type es) (by simp) .type (by decide) ⟨es, rfl, hes⟩ (hes' ▸ hcase)
    refine ⟨hquotes.ne_nil, ?_, hquotes.ends.imp_left fun hmem => ?_⟩
    · exact hquotes.isInfix.trans (isInfix_leavesOf (by simp))
    · rw [hlengths]
      exact List.mem_append_left _ hmem
  · refine ⟨fun hnil => ?_, ⟨l :: (leavesOf es ++ [t]), [e], ?_⟩, Or.inl ?_⟩
    · obtain rfl := hqs.parses.leavesOf_eq_nil hnil
      exact absurd (parses_nil_iff.1 hqs.parses) (by decide)
    · simp [leavesOf, Tree.leaves, leavesOf_append]
    · rw [hlengths]
      exact List.mem_append_right _ (List.mem_singleton.2 rfl)

/-- A slice of a tree that is laid out part by part is one of its parts, which has to do with types. -/
theorem exists_part_of_slice {r : Rule} (hr : r ∈ rowRules) {cs : List Syntax}
    (h : Parses rust [ruleBody r] cs) {us : List Token}
    (hus : .slice us ∈ wall (.node r (reduce r (trimAll cs)))) :
    ∃ c ∈ cs, .slice us ∈ wall (trim c) ∧ ∃ q ∈ typeRules, (Symbol.rule q).HasTree rust c := by
  have hbody : ∀ r ∈ rowRules, r ≠ .bareFnArg → ∀ q ∈ Rule.all, mentions q (ruleBody r) →
      q ∈ typeRules := by decide
  have harg : ∀ q ∈ Rule.all, mentions q (terseBody .bareFnArg) → q ∈ typeRules := by decide
  have hpart : ∀ d ∈ cs, .slice us ∈ wall (trim d) →
    (∀ q ds, trim d = .node q ds → q ∈ typeRules) →
      ∃ c ∈ cs, .slice us ∈ wall (trim c) ∧ ∃ q ∈ typeRules, (Symbol.rule q).HasTree rust c := by
    intro d hd hslice hrule
    cases d with
    | leaf t => simp [trim, wall] at hslice
    | node q ds =>
      obtain ⟨es, hes⟩ := exists_trim_node q ds
      exact ⟨_, hd, hslice, q, hrule q es hes, ds, rfl, h.of_node_mem hd⟩
  rw [slice_mem_wall_iff hr] at hus
  by_cases hbare : r = .bareFnArg
  · subst hbare
    obtain ⟨c, hc, hslice⟩ := hus
    have hterse := reduce_bareFnArg (parses_iff_covers.1 (parses_trimAll h))
    have hmem := (reduce_sublist (by decide) _).subset hc
    rw [trimAll_eq_map] at hmem
    obtain ⟨d, hd, rfl⟩ := List.mem_map.1 hmem
    exact hpart d hd hslice fun q ds hds =>
      harg q (rust_listed q) (mentions_of_covers hterse (hds ▸ hc))
  · obtain ⟨c, hc, hslice⟩ := slice_of_reduce hus
    rw [trimAll_eq_map] at hc
    obtain ⟨d, hd, rfl⟩ := List.mem_map.1 hc
    refine hpart d hd hslice fun q ds hds => hbody r hr hbare q (rust_listed q) ?_
    refine mentions_of_covers (parses_iff_covers.1 (parses_trimAll h)) (d := ds) ?_
    rw [trimAll_eq_map, ← hds]
    exact List.mem_map_of_mem hd

mutual

/-- What is kept as text in a type without optional tokens is kept as text in the type. -/
theorem slice_of_trim {r : Rule} (hr : r ∈ typeRules) {us : List Token} : ∀ {c : Syntax},
    (Symbol.rule r).HasTree rust c → .slice us ∈ wall (trim c) → Quotes c us
  | .leaf _, ⟨_, h, _⟩, _ => by simp at h
  | .node a cs, h, hus => by
    obtain ⟨ds, heq, hds⟩ := h
    obtain ⟨rfl, rfl⟩ := Tree.node.inj heq
    have hkid := @slice_of_trimAll us cs
    by_cases hcall : a = .macroType
    · subst hcall
      rw [trim_node_other (by simp)] at hus
      exact quotes_macroType hds hus
    rw [trim_node hr hcall] at hus
    by_cases hconst : a = .constArg
    · subst hconst
      rw [trimAll_eq_self (parses_iff_covers.1 hds) (by decide), reduce_eq_self (by decide)] at hus
      exact quotes_constArg hds hus
    by_cases harray : a = .arrayType
    · subst harray
      rw [reduce_eq_self (by decide)] at hus
      exact quotes_arrayType hds hus hkid
    obtain ⟨c, hc, hslice, q, hq, htree⟩ :=
      exists_part_of_slice (mem_rowRules hr hconst hcall harray) hds hus
    exact (hkid c hc q hq htree hslice).node harray hc

theorem slice_of_trimAll {us : List Token} : ∀ {cs : List Syntax}, ∀ c ∈ cs, ∀ q ∈ typeRules,
    (Symbol.rule q).HasTree rust c → .slice us ∈ wall (trim c) → Quotes c us
  | [], _, hmem, _, _, _, _ => by simp at hmem
  | d :: cs, c, hmem, q, hq, hc, hus => by
    rcases List.mem_cons.1 hmem with heq | hmem
    · rw [heq] at hc hus ⊢
      exact slice_of_trim hq hc hus
    · exact slice_of_trimAll c hmem q hq hc hus

end

end TraitLift.Grammar
