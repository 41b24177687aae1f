import Mathlib.Tactic
import TraitLift.Proofs.Grammar.TrimTree
import TraitLift.Proofs.Reading.Gist

/-!
Optional tokens mean nothing: a type means the same without them (`meaning_trim`).
-/

namespace TraitLift.Reading

open TraitLift.Grammar Parts

variable {source : List Char}

/-! ### Signs -/

theorem mem_signRules {r : Rule} {t : Token} {cs : List Syntax} (h : isSpare r t cs) :
    r ∈ signRules ∧ t.kind ∈ [Kind.comma, .plus, .colon] := by
  unfold isSpare at h
  split at h <;> simp only [Bool.and_eq_true, decide_eq_true_eq, Bool.false_eq_true] at h <;>
    simp [signRules, h.1]

/-- The signs that are left out of the parts of a rule do not matter. -/
theorem ruleMeaning_pare (r : Rule) : ∀ (front : Parts) (cs : List Syntax),
    ruleMeaning source r (front ++ (pare r cs).map (phrase source)) =
      ruleMeaning source r (front ++ cs.map (phrase source))
  | _, [] => rfl
  | front, .leaf t :: cs => by
    cases hspare : isSpare r t cs with
    | true =>
      obtain ⟨hr, ht⟩ := mem_signRules hspare
      rw [pare_of_spare hspare, ruleMeaning_pare r front cs]
      exact (ruleMeaning_sign ht front (cs.map (phrase source)) hr).symm
    | false =>
      rw [pare_of_not_spare hspare, List.map_cons, List.append_cons, ruleMeaning_pare r _ cs,
        ← List.append_cons, ← List.map_cons]
  | front, .node a ds :: cs => by
    rw [pare, List.map_cons, List.append_cons, ruleMeaning_pare r _ cs, ← List.append_cons,
      ← List.map_cons]

/-! ### Binders and attributes in front -/

theorem ruleMeaning_binder {a : Rule} {ps : Parts} {ls : List LifetimeParam}
    (h : ruleMeaning source a ps = .binder ls) : a = .forLifetimes := by
  cases a <;> simp only [ruleMeaning, reduceCtorEq] at h
  case forLifetimes => rfl
  case genericParam => dsimp only [genericParam] at h; split at h <;> simp at h
  all_goals split at h <;> simp at h

variable (source) in
/-- Trees of an expression without binders bring in no lifetimes. -/
theorem binder_of_covers {e : Syn} {cs : List Syntax} (h : Grammar.Covers rust e cs)
    (he : mentions .forLifetimes e = false) : binder (cs.map (phrase source)) = [] := by
  rw [binder, pick, List.filterMap_eq_nil_iff.2 fun p hp => ?_]
  · rfl
  · obtain ⟨c, hc, rfl⟩ := List.mem_map.1 hp
    cases c with
    | leaf t => rfl
    | node a ds =>
      split
      · next hmeaning =>
        rw [phrase_node] at hmeaning
        obtain rfl := ruleMeaning_binder hmeaning
        rw [mentions_of_covers h hc] at he
        simp at he
      · rfl

/-- A binder that binds nothing brings in no lifetimes. -/
theorem lifetimeParams_of_void {ds : List Syntax} (h : Parses rust [ruleBody .forLifetimes] ds)
    (hvoid : isVoid (.node .forLifetimes ds)) : lifetimeParams (ds.map (phrase source)) = [] := by
  obtain ⟨_, _, rfl, ⟨f, rfl, -⟩, _, _, rfl, ⟨l, rfl, -⟩, ps, _, rfl, -, g, rfl, -⟩ :=
    parses_iff_covers.1 h
  cases ps with
  | nil => rfl
  | cons p ps =>
    unfold isVoid at hvoid
    split at hvoid
    · next heq => simp at heq
    · simp at hvoid

variable (source) in
/-- A binder that binds nothing does not matter in front of what has no binder. -/
theorem binder_of_void {e : Syn} {ds cs : List Syntax} (hds : Parses rust [ruleBody .forLifetimes] ds)
    (hvoid : isVoid (.node .forLifetimes ds)) (h : Grammar.Covers rust e cs)
    (he : mentions .forLifetimes e = false) :
    binder ((.node .forLifetimes ds :: cs).map (phrase source)) =
      binder (cs.map (phrase source)) := by
  rw [binder_of_covers source h he, List.map_cons, phrase_node, ruleMeaning,
    lifetimeParams_of_void hds hvoid]
  rfl

/-- A binder in front that binds nothing does not matter. -/
theorem ruleMeaning_void {r : Rule} (hr : r = .traitBound ∨ r = .fnPtrType) {bs cs : List Syntax}
    {e : Syn} (hbs : Grammar.Covers rust (Expr.opt (Syn.use .forLifetimes)) bs)
      (hcs : Grammar.Covers rust e cs)
    (he : mentions .forLifetimes e = false) :
    ruleMeaning source r ((strip r (bs ++ cs)).map (phrase source)) =
      ruleMeaning source r ((bs ++ cs).map (phrase source)) := by
  have hstay : strip r cs = cs := by
    cases cs with
    | nil => rfl
    | cons c cs =>
      rw [strip_cons hr, isVoid_of_covers hcs he c (List.mem_cons_self ..), if_neg Bool.false_ne_true]
  rcases hbs with ⟨ds, rfl, hds⟩ | rfl
  · rw [List.singleton_append, strip_cons hr, hstay]
    split
    · next hvoid =>
      have hbinder := binder_of_void source hds hvoid hcs he
      rcases hr with rfl | rfl
      · rw [ruleMeaning, ruleMeaning, traitBound, traitBound, hbinder]
        rfl
      · rw [ruleMeaning, ruleMeaning, fnPtr, fnPtr, hbinder]
        rfl
    · rfl
  · rw [List.nil_append, hstay]

/-- What is left out in front of the parts of a rule does not matter. -/
theorem ruleMeaning_strip {r : Rule} {cs : List Syntax} (h : Parses rust [ruleBody r] cs) :
    ruleMeaning source r ((strip r cs).map (phrase source)) =
      ruleMeaning source r (cs.map (phrase source)) := by
  by_cases hr : r ∈ [Rule.bareFnArg, .traitBound, .fnPtrType]
  · simp only [List.mem_cons, List.not_mem_nil, or_false] at hr
    rcases hr with rfl | hr
    · clear h
      induction cs with
      | nil => rfl
      | cons c cs ih =>
        rw [strip, List.dropWhile_cons]
        split
        · next hidle =>
          obtain ⟨ds, rfl⟩ : ∃ ds, c = .node .outerAttr ds := by
            unfold isIdle at hidle
            split at hidle <;> simp_all
          exact ih
        · rfl
    · rw [parses_iff_covers] at h
      rcases hr with rfl | rfl <;> obtain ⟨bs, rest, rfl, hbs, hrest⟩ := h
      · exact ruleMeaning_void (Or.inl rfl) hbs hrest (by decide)
      · exact ruleMeaning_void (Or.inr rfl) hbs hrest (by decide)
  · rw [strip_eq_self hr]

/-- A list of one bound means what a single bound means. -/
theorem ruleMeaning_settle {cs : List Syntax} (h : Parses rust [ruleBody .type] cs) :
    ruleMeaning source .type ((settle .type cs).map (phrase source)) =
      ruleMeaning source .type (cs.map (phrase source)) := by
  have hleaf : ∀ {r : Rule} {x : Kind} {k b : Syntax},
      ruleBody r = Expr.all [Syn.k x, Syn.use .bounds] → .node r [k, b] ∈ cs → ∃ t, k = .leaf t := by
    intro r x k b hbody hmem
    have hparts := h.of_node_mem hmem
    rw [show rust.body r = ruleBody r from rfl, hbody, parses_iff_covers] at hparts
    obtain ⟨_, _, heq, ⟨t, rfl, -⟩, -⟩ := hparts
    exact ⟨t, (List.cons.inj heq).1⟩
  unfold settle
  split
  · obtain ⟨t, rfl⟩ := hleaf (r := .implType) rfl (List.mem_singleton.2 rfl)
    rfl
  · obtain ⟨t, rfl⟩ := hleaf (r := .dynType) rfl (List.mem_singleton.2 rfl)
    rfl
  · rfl

theorem ruleMeaning_reduce {r : Rule} {cs : List Syntax} (h : Parses rust [ruleBody r] cs) :
    ruleMeaning source r ((reduce r cs).map (phrase source)) =
      ruleMeaning source r (cs.map (phrase source)) := by
  by_cases htype : r = .type
  · rw [htype] at h ⊢
    rw [reduce_type_eq, ruleMeaning_settle h]
  · rw [reduce]
    split
    · rfl
    · have hsettle : settle r (pare r (strip r cs)) = pare r (strip r cs) := by
        unfold settle
        split <;> simp_all
      rw [hsettle]
      exact (ruleMeaning_pare r [] (strip r cs)).trans (ruleMeaning_strip h)

/-! ### Trees -/

theorem ruleMeaning_ne_token {a : Rule} {ps : Parts} {t : Token} :
    ruleMeaning source a ps ≠ .token t := by
  intro h
  cases a <;> simp only [ruleMeaning, reduceCtorEq] at h
  case genericParam => dsimp only [genericParam] at h; split at h <;> simp at h
  all_goals split at h <;> simp at h

theorem isToken_node (k : Kind) (a : Rule) (ds : List Syntax) :
    (phrase source (.node a ds)).isToken k = false := by
  have hnone : (phrase source (.node a ds)).token? = none := by
    unfold Phrase.token?
    split
    · next t ht => exact absurd (phrase_node source a ds ▸ ht) ruleMeaning_ne_token
    · rfl
  rw [Phrase.isToken, hnone]
  rfl

theorem isToken_leaf (k : Kind) (t : Token) :
    (phrase source (.leaf t)).isToken k = t.is k := rfl

/-- What stands behind the semicolon of an array. -/
theorem after_semi {l t : Token} (hl : l.kind = .lsqb) (ht : t.kind = .semi) (a : Rule)
    (es rest : List Syntax) :
    after .semi ((.leaf l :: .node a es :: .leaf t :: rest).map (phrase source)) =
      rest.map (phrase source) := by
  simp [after, isToken_node, isToken_leaf, Token.is, hl, ht]

/-- The texts that a rule takes from the source stay. -/
theorem quoted_trimAll {r : Rule} (hr : r ≠ .macroType) {cs : List Syntax}
    (h : Parses rust [ruleBody r] cs) :
    quoted source ((trimAll cs).map (phrase source)) r = quoted source (cs.map (phrase source)) r := by
  rw [parses_iff_covers] at h
  cases r <;> try rfl
  case lifetimeBounds => rw [trimAll_eq_self h (by decide)]
  case constArg => rw [trimAll_eq_self h (by decide)]
  case macroType => exact absurd rfl hr
  case arrayType =>
    obtain ⟨_, _, rfl, ⟨l, rfl, hl⟩, _, _, rfl, ⟨es, rfl, -⟩, _, rest, rfl,
      ⟨t, rfl, ht⟩, hrest⟩ := h
    obtain ⟨es', hes'⟩ := exists_trim_node .type es
    have hl := kind_eq hl
    have ht := kind_eq ht
    simp only [List.cons_append, List.nil_append, trimAll, hes', trimAll_eq_self hrest (by decide),
      quoted, arrayLength, after_semi hl ht, show ∀ u, trim (.leaf u) = .leaf u from fun _ => rfl]
  case pathSegment =>
    obtain ⟨_, as, rfl, ⟨t, rfl, -⟩, -⟩ := h
    rfl
  case turbofishSegment =>
    obtain ⟨_, as, rfl, ⟨t, rfl, -⟩, -⟩ := h
    rfl

mutual

/-- A type means the same without its optional tokens. -/
theorem meaning_trim : ∀ {s : Grammar.Symbol TokenClass Rule} {c : Syntax}, s.HasTree rust c →
    (phrase source (trim c)).meaning = (phrase source c).meaning
  | _, .leaf t, _ => rfl
  | .rule r, .node a cs, h => by
    obtain ⟨ds, heq, hds⟩ := h
    obtain ⟨rfl, rfl⟩ := Grammar.Tree.node.inj heq
    by_cases hr : a ∈ typeRules ∧ a ≠ .macroType
    · rw [trim_node hr.1 hr.2, phrase_node, phrase_node]
      exact (ruleMeaning_reduce (parses_trimAll hds)).trans
        (ruleMeaning_congr hr.1 (gist_trimAll hds) (quoted_trimAll hr.2 hds))
    · rw [trim_node_other hr]
  | .tok c, .node a cs, h => by
    obtain ⟨t, heq, -⟩ := h
    simp at heq

theorem gist_trimAll : ∀ {k : List Syn} {cs : List Syntax}, Parses rust k cs →
    gist ((trimAll cs).map (phrase source)) = gist (cs.map (phrase source))
  | _, [], _ => rfl
  | k, c :: cs, h => by
    obtain ⟨s, m, -, hc, hcs⟩ := parses_cons_iff.1 h
    rw [trimAll, List.map_cons, List.map_cons, gist, gist, List.map_cons, List.map_cons, Phrase.gist,
      Phrase.gist, meaning_trim hc]
    exact congrArg _ (gist_trimAll hcs)

end

end TraitLift.Reading
