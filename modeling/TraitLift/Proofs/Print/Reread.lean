import Mathlib.Tactic
import TraitLift.Proofs.Print.Tree

/-!
A tree of a type with the tokens of another text. If the bricks of the tree cover the same characters
in that text, the tree means the same there (`meaning_rename`).
-/

namespace TraitLift

open TraitLift.Grammar

/-! ### Other tokens -/

/-- Different tokens can be replaced by any tokens that spell the same. -/
theorem exists_renaming : ∀ {ts us : List Token}, ts.Nodup →
    us.map Token.lexeme = ts.map Token.lexeme →
    ∃ f : Token → Token, ts.map f = us ∧ ∀ t, (f t).lexeme = t.lexeme
  | [], us, _, h => ⟨id, by simpa using h.symm, fun _ => rfl⟩
  | t :: ts, [], _, h => by simp at h
  | t :: ts, u :: us, hnodup, h => by
    obtain ⟨ht, hnodup⟩ := List.nodup_cons.1 hnodup
    obtain ⟨hu, hus⟩ := List.cons.inj h
    obtain ⟨f, rfl, hf⟩ := exists_renaming hnodup hus
    refine ⟨Function.update f t u, ?_, fun v => ?_⟩
    · rw [List.map_cons, Function.update_self]
      refine congrArg _ (List.map_congr_left fun v hv => Function.update_of_ne ?_ u f)
      rintro rfl
      exact ht hv
    · by_cases hv : v = t
      · rw [hv, Function.update_self]
        exact hu
      · rw [Function.update_of_ne hv]
        exact hf v

/-- Each brick covers the same characters at other tokens of another text. -/
def Kept (src src' : List Char) (f : Token → Token) (bs : List Brick) : Prop :=
  ∀ b ∈ bs, b.tokens ≠ [] → sliceOf src' (b.tokens.map f) = String.ofList (b.text src)

section

variable {src src' : List Char} {f : Token → Token}

theorem Kept.mono {as bs : List Brick} (h : Kept src src' f bs) (hsub : as ⊆ bs) :
    Kept src src' f as := fun b hb => h b (hsub hb)

theorem Kept.tok {bs : List Brick} (h : Kept src src' f bs) {t : Token} (ht : .tok t ∈ bs) :
    sliceOf src' [f t] = t.text := by
  rw [← String.ofList_toList (s := t.text)]
  exact h _ ht (List.cons_ne_nil t [])

theorem Kept.slice {bs : List Brick} (h : Kept src src' f bs) {u : List Token}
    (hu : .slice u ∈ bs) : sliceOf src' (u.map f) = sliceOf src u := by
  by_cases hne : u = []
  · rw [hne]
    rfl
  · rw [← String.ofList_toList (s := sliceOf src u)]
    exact h _ hu hne

theorem Lays.lexemes {bs : List Brick} {us : List Token} (h : Lays src src' bs us) :
    us.map Token.lexeme = (tokensOf bs).map Token.lexeme := by
  induction h with
  | nil => rfl
  | cons hlex _ _ ih => rw [tokensOf_cons, List.map_append, List.map_append, hlex, ih]

theorem Lays.kept {bs : List Brick} {us : List Token} (h : Lays src src' bs us)
    (hf : (tokensOf bs).map f = us) : Kept src src' f bs := by
  induction h with
  | nil => exact fun b hb => absurd hb (List.not_mem_nil)
  | @cons b bs us vs hlex hslice _ ih =>
    rw [tokensOf_cons, List.map_append] at hf
    have hlen : (b.tokens.map f).length = us.length := by
      have := congrArg List.length hlex
      simpa using this.symm
    obtain ⟨hus, hvs⟩ := List.append_inj hf hlen
    intro c hc
    rcases List.mem_cons.1 hc with rfl | hc
    · rw [hus]
      exact hslice
    · exact ih hvs c hc

end

namespace Grammar

mutual

theorem leaves_map (f : Token → Token) : ∀ c : Syntax, (c.map f).leaves = c.leaves.map f
  | .leaf _ => rfl
  | .node r cs => by rw [Grammar.Tree.map_node, Grammar.Tree.leaves, Grammar.Tree.leaves, leavesOf_map f cs]

theorem leavesOf_map (f : Token → Token) : ∀ cs : List Syntax,
    leavesOf (cs.map (Grammar.Tree.map f)) = (leavesOf cs).map f
  | [] => rfl
  | c :: cs => by
    rw [List.map_cons, leavesOf, leavesOf, leaves_map f c, leavesOf_map f cs, List.map_append]

end

end Grammar

/-! ### The same meaning -/

namespace Reading

open Parts

variable {source source' : List Char} {f : Token → Token}

/-- The parts of a tree with other tokens. -/
def rephrase (source' : List Char) (f : Token → Token) (cs : List Syntax) : Parts :=
  (cs.map (Grammar.Tree.map f)).map (phrase source')

theorem tokens_rephrase (cs : List Syntax) :
    tokens (rephrase source' f cs) = (leavesOf cs).map f := by
  rw [rephrase, tokens_phrases, leavesOf_map]

theorem tok_mem_seat (r : Rule) (t : Token) (cs : List Syntax) : .tok t ∈ seat r t cs := by
  unfold seat
  split
  · simp
  · split <;> simp

theorem wall_subset {r : Rule} (hr : r ≠ .arrayType) {a : Rule} {es : List Syntax} :
    ∀ {cs : List Syntax}, .node a es ∈ cs → wall (.node a es) ⊆ wallOf r cs
  | .leaf t :: cs, h => by
    have h : .node a es ∈ cs := by simpa using h
    rw [wallOf, if_neg (by simp [hr])]
    exact List.subset_append_of_subset_right _ (wall_subset hr h)
  | .node b ds :: cs, h => by
    rw [wallOf, List.append_assoc]
    rcases List.mem_cons.1 h with heq | h
    · rw [heq]
      exact List.subset_append_left ..
    · exact List.subset_append_of_subset_right _
        (List.subset_append_of_subset_right _ (wall_subset hr h))

/-- The rules that quote a word quote the same word. -/
theorem quoted_word {r : Rule} (hr : r = .pathSegment ∨ r = .turbofishSegment) {t : Token}
    (hlex : sliceOf source [t] = t.text) {as : List Syntax}
    (hkept : Kept source source' f (wallOf r (.leaf t :: as))) :
    quoted source' (rephrase source' f (.leaf t :: as)) r =
      quoted source ((Grammar.Tree.leaf t :: as).map (phrase source)) r := by
  have harray : r ≠ .arrayType := by rcases hr with rfl | rfl <;> decide
  have hword : sliceOf source' [f t] = t.text := by
    refine hkept.tok ?_
    rw [wallOf, if_neg (by simp [harray])]
    exact List.mem_append_left _ (tok_mem_seat r t as)
  have htext : Parts.text source' ((rephrase source' f (.leaf t :: as)).take 1) =
      Parts.text source (((Grammar.Tree.leaf t :: as).map (phrase source)).take 1) :=
    hword.trans hlex.symm
  rcases hr with rfl | rfl <;> exact congrArg (fun s => [s]) htext

theorem quoted_rename {r : Rule} (hr : r ∈ rowRules) {cs : List Syntax}
    (h : Grammar.Covers rust (terseBody r) cs) (hlex : Spelled source (leavesOf cs))
    (hf : ∀ t, (f t).lexeme = t.lexeme) (hkept : Kept source source' f (wallOf r cs)) :
    quoted source' (rephrase source' f cs) r = quoted source (cs.map (phrase source)) r := by
  cases r
  case pathSegment =>
    obtain ⟨_, as, rfl, ⟨t, rfl, -⟩, -⟩ := h
    exact quoted_word (Or.inl rfl) (hlex t (by simp [leavesOf, Grammar.Tree.leaves])).2 hkept
  case turbofishSegment =>
    obtain ⟨_, as, rfl, ⟨t, rfl, -⟩, -⟩ := h
    exact quoted_word (Or.inr rfl) (hlex t (by simp [leavesOf, Grammar.Tree.leaves])).2 hkept
  case lifetimeBounds =>
    rw [quoted, quoted, tokens_rephrase, tokens_phrases, List.filter_map, List.map_map]
    have hkind : ((·.is .lifetime) ∘ f) = fun t : Token => t.is .lifetime := by
      funext t
      exact congrArg (· == Kind.lifetime) (Prod.mk.inj (hf t)).1
    have htext : Token.text ∘ f = Token.text := by
      funext t
      exact (Prod.mk.inj (hf t)).2
    rw [hkind, htext]
  case constArg | arrayType | macroType => exact absurd hr (by decide)
  all_goals exact (rfl : ([] : List String) = [])

theorem ruleMeaning_constArg {cs : List Syntax}
    (hkept : Kept source source' f (wall (.node .constArg cs))) :
    ruleMeaning source' .constArg (rephrase source' f cs) =
      ruleMeaning source .constArg (cs.map (phrase source)) := by
  rw [ruleMeaning, ruleMeaning, Parts.text, Parts.text, tokens_rephrase, tokens_phrases,
    hkept.slice (by simp [wall])]

theorem ruleMeaning_macroType {cs : List Syntax} (h : Grammar.Covers rust (ruleBody .macroType) cs)
    (hf : ∀ t, (f t).lexeme = t.lexeme)
    (hkept : Kept source source' f (wall (.node .macroType cs))) :
    ruleMeaning source' .macroType (rephrase source' f cs) =
      ruleMeaning source .macroType (cs.map (phrase source)) := by
  obtain ⟨_, _, rfl, ⟨ps, rfl, hps⟩, _, _, rfl, ⟨t, rfl, ht⟩, htree⟩ := h
  obtain ⟨a, -, c, rfl, es, rfl, -⟩ : ∃ a ∈ [Rule.parenTree, .bracketTree, .braceTree],
    ∃ c, _ = [c] ∧
      (Grammar.Symbol.rule a).HasTree rust c := exists_of_covers_any (by decide) htree
  have ht := kind_eq ht
  have hft : (f t).kind = .bang := ht ▸ (Prod.mk.inj (hf t)).1
  have hpath := hkept.slice (u := leavesOf ps) (by simp [wall, quotation, Grammar.Tree.leaves])
  have htail := hkept.slice (u := leavesOf es) (by simp [wall, quotation, Grammar.Tree.leaves])
  simp only [rephrase, List.cons_append, List.nil_append, List.map_cons, List.map_nil, Grammar.Tree.map_node,
    Grammar.Tree.map_leaf]
  simp only [ruleMeaning, before, after, List.takeWhile_cons, List.dropWhile_cons, isToken_node,
    isToken_leaf, Token.is, ht, hft, Parts.text, Parts.tokens, List.flatMap_cons, tokens_phrase,
    Grammar.Tree.leaves, leavesOf_map, beq_self_eq_true, Bool.not_true, Bool.not_false, if_true, if_false,
    List.drop_one, List.tail_cons, List.flatMap_nil, List.append_nil, hpath, htail, Bool.false_eq_true]

theorem type_second (t : Token) {p : Phrase} {ty : TypeExpr} (hp : p.meaning = .type ty) (ps : Parts) :
    Parts.type (phrase source (.leaf t) :: p :: ps) = ty := by
  obtain ⟨ts, m⟩ := p
  obtain rfl : m = .type ty := hp
  rfl

theorem ruleMeaning_arrayType {cs : List Syntax} (h : Grammar.Covers rust (ruleBody .arrayType) cs)
    (hf : ∀ t, (f t).lexeme = t.lexeme) (hkept : Kept source source' f (wallOf .arrayType cs))
    (hkid : ∀ c ∈ cs, ∀ es, c = .node .type es → Kept source source' f (wall c) →
      (phrase source' (c.map f)).meaning = (phrase source c).meaning) :
    ruleMeaning source' .arrayType (rephrase source' f cs) =
      ruleMeaning source .arrayType (cs.map (phrase source)) := by
  obtain ⟨_, _, rfl, ⟨l, rfl, hl⟩, _, _, rfl, ⟨es, rfl, -⟩, _, _, rfl,
    ⟨t, rfl, ht⟩, ms, _, rfl, -, g, rfl, -⟩ := h
  have hkind : ∀ {u : Token} {k : Kind}, rust.accepts (.one k) u → u.kind = k ∧ (f u).kind = k :=
    fun hu => ⟨kind_eq hu, (Prod.mk.inj (hf _)).1.trans (kind_eq hu)⟩
  have hlength : (leavesOf (ms ++ [Grammar.Tree.leaf g])).dropLast = leavesOf ms := by
    rw [leavesOf_append, leavesOf, Grammar.Tree.leaves, leavesOf, List.append_nil, List.dropLast_concat]
  simp only [List.cons_append, List.nil_append] at hkept hkid ⊢
  rw [wallOf_array (hkind hl).1 (hkind ht).1, arrayTail, hlength] at hkept
  obtain ⟨ty, hty⟩ := exists_type source (r := .type) (by decide) (es.map (phrase source))
  have hmeaning : (phrase source (.node .type es)).meaning = .type ty := by rw [phrase_node, hty]
  have htype := hkid (.node .type es) (by simp) es rfl
    (hkept.mono fun b hb => List.mem_cons_of_mem _ (List.mem_append_left _ hb))
  rw [hmeaning] at htype
  refine congrArg₂ (fun t n => Meaning.type (.array t n)) ?_ ?_
  · exact (type_second (f l) htype _).trans (type_second l hmeaning _).symm
  · have hafter : after .semi (rephrase source' f (Grammar.Tree.leaf l :: Grammar.Tree.node .type es ::
        Grammar.Tree.leaf t :: (ms ++ [Grammar.Tree.leaf g]))) =
          rephrase source' f (ms ++ [Grammar.Tree.leaf g]) := by
      simp only [rephrase, List.map_cons, Grammar.Tree.map_leaf, Grammar.Tree.map_node]
      rw [← List.map_cons, ← List.map_cons, ← List.map_cons, after_semi (hkind hl).2 (hkind ht).2]
    rw [arrayLength, arrayLength, hafter, after_semi (hkind hl).1 (hkind ht).1]
    simp only [rephrase, List.map_append, List.map_cons, List.map_nil, List.dropLast_concat, Parts.text]
    rw [tokens_phrases, leavesOf_map, tokens_phrases, hkept.slice (by simp)]

mutual

/-- A tree of a type means the same in another text that keeps its bricks. -/
theorem meaning_rename {r : Rule} (hr : r ∈ typeRules) (hf : ∀ t, (f t).lexeme = t.lexeme) :
    ∀ {c : Syntax}, (Grammar.Symbol.rule r).HasTree rust c → Terse c → Spelled source c.leaves →
      Kept source source' f (wall c) →
      (phrase source' (c.map f)).meaning = (phrase source c).meaning
  | .leaf _, ⟨_, h, _⟩, _, _, _ => by simp at h
  | .node a cs, h, hterse, hlex, hkept => by
    obtain ⟨ds, heq, hds⟩ := h
    obtain ⟨rfl, rfl⟩ := Grammar.Tree.node.inj heq
    obtain ⟨hparses, hall⟩ := hterse hr
    rw [Grammar.Tree.leaves] at hlex
    rw [Grammar.Tree.map_node, phrase_node, phrase_node]
    by_cases hconst : a = .constArg
    · subst hconst
      exact ruleMeaning_constArg hkept
    by_cases hcall : a = .macroType
    · subst hcall
      exact ruleMeaning_macroType (parses_iff_covers.1 hds) hf hkept
    have hkids := meaning_rename_of_mem hf (hall hcall) hlex
    rw [wall_node ⟨hconst, hcall⟩] at hkept
    by_cases harray : a = .arrayType
    · subst harray
      refine ruleMeaning_arrayType (parses_iff_covers.1 hds) hf hkept fun c hc es heq hkept => ?_
      subst heq
      exact hkids _ _ hc (by decide) (hds.of_node_mem hc) hkept
    · have hrow := mem_rowRules hr hconst hcall harray
      have hcovers := parses_iff_covers.1 hparses
      refine ruleMeaning_congr hr ?_ (quoted_rename hrow hcovers hlex hf hkept)
      simp only [gist, List.map_map]
      refine List.map_congr_left fun c hc => ?_
      cases c with
      | leaf t =>
        obtain ⟨hkind, htext⟩ := Prod.mk.inj (hf t)
        simp [Phrase.gist, phrase, Grammar.Tree.fold, Phrase.ofToken, Meaning.gist, hkind, htext]
      | node q es =>
        refine congrArg (fun m : Meaning => Phrase.mk [] m.gist) (hkids q es hc
          (mentions_typeRules hrow (mentions_of_covers hcovers hc)) (hds.of_node_mem hc)
          (hkept.mono (wall_subset harray hc)))

theorem meaning_rename_of_mem (hf : ∀ t, (f t).lexeme = t.lexeme) : ∀ {ps : List Syntax}, TerseAll ps →
    Spelled source (leavesOf ps) → ∀ q es, .node q es ∈ ps → q ∈ typeRules →
      Parses rust [ruleBody q] es → Kept source source' f (wall (.node q es)) →
      (phrase source' ((Grammar.Tree.node q es).map f)).meaning = (phrase source (.node q es)).meaning
  | [], _, _, _, _, hmem, _, _, _ => by simp at hmem
  | d :: ps, hterse, hlex, q, es, hmem, hq, hes, hkept => by
    rw [leavesOf] at hlex
    rcases List.mem_cons.1 hmem with heq | hmem
    · rw [heq] at hkept ⊢
      exact meaning_rename hq hf (heq ▸ ⟨es, rfl, hes⟩) hterse.1
        (fun t ht => hlex t (List.mem_append_left _ ht)) hkept
    · exact meaning_rename_of_mem hf hterse.2 (fun t ht => hlex t (List.mem_append_right _ ht)) q es
        hmem hq hes
        hkept

end

end Reading

end TraitLift
