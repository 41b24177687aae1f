import Mathlib.Tactic
import TraitLift.Lift.Name
import TraitLift.Parse
import TraitLift.Proofs.Token.Layout

/-!
What a fingerprint sees of a text. It is taken of the texts of the tokens with single blanks between
them. `lex_laidOut` says that layout and plain comments have no influence on it, and that the text
it is taken of reads as the same tokens again, unless a line of doc comment stands before the last
token: there the blank behind the line, and whatever follows, becomes part of the comment.
`tokenText_ne_of_texts_ne` says that this is the only way for different tokens to give the same text,
and `tokenText_collision` shows two blocks for which it happens.
-/

namespace TraitLift

open TraitLift.Text TraitLift.Terminal

/-- Texts that differ at most in layout and plain comments, by all that is made of their tokens. -/
structure Alike (a b : String) : Prop where
  lexemes : ∃ ts us, lex a = .ok ts ∧ lex b = .ok us ∧ ts.map Token.lexeme = us.map Token.lexeme
  tokenText_eq : tokenText a = tokenText b
  fingerprint_eq : ∀ c, fingerprint a c = fingerprint b c

theorem alike_of_lexemes {a b : String} {ts us : List Token} (ha : lex a = .ok ts)
    (hb : lex b = .ok us) (h : ts.map Token.lexeme = us.map Token.lexeme) : Alike a b := by
  have htexts : ts.map Token.text = us.map Token.text := by
    have := congrArg (List.map Prod.snd) h
    rw [List.map_map, List.map_map] at this
    exact this
  have htokenText : tokenText a = tokenText b := by
    rw [tokenText, tokenText, ha, hb, Except.map, Except.map, htexts]
  exact ⟨⟨ts, us, ha, hb, h⟩, htokenText, fun c => by rw [fingerprint, fingerprint, htokenText]⟩

/-- The tokens of a text between gaps of any layout are its tokens again, and so are those of its
`tokenText` where no line of doc comment stands before the last one. -/
theorem lex_laidOut {source : String} {ts : List Token} (hlex : lex source = .ok ts) :
    (∀ lead gs, Gap lead → Spacing ts gs →
      Alike (String.ofList (lead ++ laidOut ts gs)) source) ∧
    ((∀ t ∈ ts.dropLast, t.kind.isLineDoc = false) →
      ∃ text us, tokenText source = .ok text ∧ lex text = .ok us ∧
        us.map Token.lexeme = ts.map Token.lexeme) := by
  have hts := isLexeme_of_lex hlex
  constructor
  · intro lead gs hlead hgs
    have hspells := hlead.spells (spells_laidOut hgs hts)
    rw [← String.toList_ofList (l := lead ++ laidOut ts gs)] at hspells
    obtain ⟨us, hus, hsame⟩ := spells_iff.1 hspells
    exact alike_of_lexemes hus hlex hsame
  · intro hdoc
    have hspells := spells_laidOut (spacing_singleBlanks hdoc) hts
    rw [laidOut_singleBlanks] at hspells
    obtain ⟨us, hus, hsame⟩ := spells_iff.1 hspells
    exact ⟨_, us, by rw [tokenText, hlex]; rfl, hus, hsame⟩

/-- A comment on a line of its own behind a line of doc comment, and one behind the last token. -/
theorem lex_laidOut_commented :
    Alike "\t/// d\n// x\na /* y */" "/// d\na" ∧
    ∃ us, lex "a . b" = .ok us ∧ us.map Token.lexeme = [(.name, "a"), (.dot, "."), (.name, "b")] := by
  constructor
  · have hlex : lex "/// d\na" = .ok [⟨.outerDoc, "/// d", 0, 5, ⟨1, 1⟩, ⟨1, 6⟩⟩,
        ⟨.name, "a", 6, 7, ⟨2, 1⟩, ⟨2, 2⟩⟩] := lex_eq_ok_iff.2 (by decide +kernel)
    refine (lex_laidOut hlex).1 ['\t'] ["\n// x\n".toList, " /* y */".toList]
      (.blank (by decide) .nil) ?_
    have hline : Gap ('/' :: '/' :: ([' ', 'x'] ++ ['\n'])) := .line (by decide) (by decide) .nil
    have hblock : Gap ('/' :: '*' :: ([' ', 'y', ' '] ++ ['*', '/'])) :=
      .block (by decide) (by decide) .nil
    exact .cons (.blank (by decide) hline) (by decide) (fun _ => by decide) (by decide)
      (.cons (.blank (by decide) hblock) (by decide) (by decide) (by decide) .nil)
  · have hlex : lex "a.b" = .ok [⟨.name, "a", 0, 1, ⟨1, 1⟩, ⟨1, 2⟩⟩,
        ⟨.dot, ".", 1, 2, ⟨1, 2⟩, ⟨1, 3⟩⟩, ⟨.name, "b", 2, 3, ⟨1, 3⟩, ⟨1, 4⟩⟩] :=
      lex_eq_ok_iff.2 (by decide +kernel)
    obtain ⟨text, us, htext, hus, hsame⟩ := (lex_laidOut hlex).2 (by decide)
    have hblanks : tokenText "a.b" = .ok "a . b" := by
      rw [tokenText, hlex]
      rfl
    rw [hblanks, Except.ok.injEq] at htext
    subst htext
    exact ⟨us, hus, hsame⟩

/-! ### Lines of doc comment in the joined text -/

theorem ofWord_isLineDoc (w : String) : (Kind.ofWord w).isLineDoc = false := by
  have hall : ∀ k ∈ Kind.name :: Kind.keywords.map Prod.snd, k.isLineDoc = false := by decide
  exact hall _ (Kind.ofWord_mem w)

theorem IsLexeme.first?_lineDoc {w : Kind × String} (h : IsLexeme w) (hdoc : w.1.isLineDoc)
    {r : List Char} (hr : Edge r) : ∃ n, first? (w.2.toList ++ r) = some (.token w.1, n) := by
  obtain ⟨cs, o, n, hfirst, hk, htext⟩ := h
  rw [htext]
  cases o with
  | skip => simp [Outcome.kind?] at hk
  | word =>
    rw [Outcome.kind?, Option.some.injEq] at hk
    rw [← hk, ofWord_isLineDoc] at hdoc
    exact absurd hdoc Bool.false_ne_true
  | token k =>
    rw [Outcome.kind?, Option.some.injEq] at hk
    subst hk
    refine first?_lineDoc_append hfirst ?_ hr
    unfold Kind.isLineDoc at hdoc
    split at hdoc
    · next houter => exact Or.inl houter
    · next hinner => exact Or.inr hinner
    · exact absurd hdoc Bool.false_ne_true

theorem Spells.exists_lineDoc : ∀ {ts : List Token} {ws : List (Kind × String)},
    (∀ t ∈ ts, IsLexeme t.lexeme) → (∃ t ∈ ts.dropLast, t.kind.isLineDoc) →
    Spells (laidOut ts (singleBlanks ts)) ws → ∃ w ∈ ws, w.1.isLineDoc
  | [], _, _, hdoc, _ => by simp at hdoc
  | [t], _, _, hdoc, _ => by simp at hdoc
  | t :: t' :: ts, ws, hts, hdoc, h => by
    rw [List.forall_mem_cons] at hts
    have htext : laidOut (t :: t' :: ts) (singleBlanks (t :: t' :: ts)) =
        t.lexeme.2.toList ++ (' ' :: laidOut (t' :: ts) (singleBlanks (t' :: ts))) := by
      simp [laidOut, singleBlanks, Token.lexeme]
    have hedge : Edge (' ' :: laidOut (t' :: ts) (singleBlanks (t' :: ts))) := by
      rintro c hc
      obtain rfl : ' ' = c := by simpa using hc
      decide
    rw [htext] at h
    by_cases ht : t.kind.isLineDoc
    · obtain ⟨n, hfirst⟩ := hts.1.first?_lineDoc ht hedge
      obtain ⟨ws', rfl, -⟩ := h.drop_of_token hfirst rfl
      exact ⟨_, List.mem_cons_self, ht⟩
    · obtain ⟨o, hfirst, hkind⟩ := hts.1.first?_append hedge (fun hline => absurd hline ht)
      obtain ⟨ws', rfl, hrest⟩ := h.drop_of_token hfirst (by rw [List.take_left]; exact hkind)
      rw [List.drop_left, spells_blank_cons (by decide)] at hrest
      rw [List.dropLast_cons_cons, List.exists_mem_cons_iff] at hdoc
      obtain ⟨w, hw, hline⟩ := Spells.exists_lineDoc hts.2 (hdoc.resolve_left ht) hrest
      exact ⟨w, List.mem_cons_of_mem _ hw, hline⟩

theorem Spells.unique {cs : List Char} {ws ws' : List (Kind × String)} (h : Spells cs ws)
    (h' : Spells cs ws') : ws = ws' := by
  rw [← String.toList_ofList (l := cs), spells_iff] at h h'
  obtain ⟨ts, hts, rfl⟩ := h
  obtain ⟨us, hus, rfl⟩ := h'
  rw [hts, Except.ok.injEq] at hus
  rw [hus]

/-- Different tokens give different texts to take a fingerprint of, if one side has no line of doc
comment. -/
theorem tokenText_ne_of_texts_ne {a b : String} {ts us : List Token} (ha : lex a = .ok ts)
    (hb : lex b = .ok us) (hplain : ∀ t ∈ ts, t.kind.isLineDoc = false)
    (hne : ts.map Token.text ≠ us.map Token.text) : tokenText a ≠ tokenText b := by
  intro hsame
  rw [tokenText, tokenText, ha, hb, Except.map, Except.map, Except.ok.injEq] at hsame
  have hspells : Spells (laidOut us (singleBlanks us)) (ts.map Token.lexeme) := by
    rw [laidOut_singleBlanks, ← hsame, ← laidOut_singleBlanks]
    exact spells_laidOut (spacing_singleBlanks fun t ht => hplain t (List.dropLast_subset _ ht))
      (isLexeme_of_lex ha)
  by_cases hdoc : ∃ u ∈ us.dropLast, u.kind.isLineDoc
  · obtain ⟨w, hw, hline⟩ := hspells.exists_lineDoc (isLexeme_of_lex hb) hdoc
    obtain ⟨t, ht, rfl⟩ := List.mem_map.1 hw
    exact absurd hline (by rw [Token.lexeme, hplain t ht]; exact Bool.false_ne_true)
  · have hus : ∀ u ∈ us.dropLast, u.kind.isLineDoc = false := by
      intro u hu
      rw [← Bool.not_eq_true]
      exact fun hline => hdoc ⟨u, hu, hline⟩
    have hlexemes := hspells.unique (spells_laidOut (spacing_singleBlanks hus) (isLexeme_of_lex hb))
    refine hne ?_
    have htexts := congrArg (List.map Prod.snd) hlexemes
    rw [List.map_map, List.map_map] at htexts
    exact htexts

/-- A name of its own for each of two blocks that differ in one word. -/
theorem tokenText_ne_of_texts_ne_words : tokenText "impl A{}" ≠ tokenText "impl B {}" := by
  have ha : lex "impl A{}" = .ok [⟨.kwImpl, "impl", 0, 4, ⟨1, 1⟩, ⟨1, 5⟩⟩,
      ⟨.name, "A", 5, 6, ⟨1, 6⟩, ⟨1, 7⟩⟩, ⟨.lbrace, "\x7b", 6, 7, ⟨1, 7⟩, ⟨1, 8⟩⟩,
      ⟨.rbrace, "\x7d", 7, 8, ⟨1, 8⟩, ⟨1, 9⟩⟩] := lex_eq_ok_iff.2 (by decide +kernel)
  have hb : lex "impl B {}" = .ok [⟨.kwImpl, "impl", 0, 4, ⟨1, 1⟩, ⟨1, 5⟩⟩,
      ⟨.name, "B", 5, 6, ⟨1, 6⟩, ⟨1, 7⟩⟩, ⟨.lbrace, "\x7b", 7, 8, ⟨1, 8⟩, ⟨1, 9⟩⟩,
      ⟨.rbrace, "\x7d", 8, 9, ⟨1, 9⟩, ⟨1, 10⟩⟩] := lex_eq_ok_iff.2 (by decide +kernel)
  exact tokenText_ne_of_texts_ne ha hb (by decide) (by decide)

/-- Two lines of doc comment, or one that holds both: blocks with different tokens and the same
text to take a fingerprint of. -/
theorem tokenText_collision :
    let two := "impl X \x7b /// a\n/// b\nfn f() \x7b\x7d \x7d"
    let one := "impl X \x7b /// a /// b\nfn f() \x7b\x7d \x7d"
    (parseBlock two).isOk ∧ (parseBlock one).isOk ∧
      (lex two).map (·.map Token.text) =
        .ok ["impl", "X", "\x7b", "/// a", "/// b", "fn", "f", "(", ")", "\x7b", "\x7d", "\x7d"] ∧
      (lex one).map (·.map Token.text) =
        .ok ["impl", "X", "\x7b", "/// a /// b", "fn", "f", "(", ")", "\x7b", "\x7d", "\x7d"] ∧
      tokenText two = tokenText one := by
  decide +kernel

end TraitLift
