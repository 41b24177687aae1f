import Mathlib.Tactic
import TraitLift.Proofs.Expand.Lookahead
import TraitLift.Proofs.Token.Lexeme

/-!
Which attributes are marks. `Content` is the form that the tokens between the brackets of a mark have:
a path, and perhaps one group in round brackets behind it. The scanner compares paths by their joined
texts (`isMark_iff_join`), so it takes two names that stand side by side for one, and it knows no
keywords. Main statement: if the configured paths are names with `::` between them, then of the
attributes in which no two names stand side by side exactly those are marks whose path has the tokens
of a configured one.
-/

namespace TraitLift

open TraitLift.Text TraitLift.Terminal

/-! ### Rows of names and `::` -/

/-- Names and `::`, and no two names side by side. -/
structure IsPathRow (ts : List Token) : Prop where
  tokens : ∀ t ∈ ts, isPathToken t
  apart : ts.IsChain fun a b => ¬ (a.kind = .name ∧ b.kind = .name)

/-- The text is a path of names without layout. -/
def IsNamePath (path : String) : Prop :=
  ∃ ts, lex path = .ok ts ∧ IsPathRow ts ∧ path = String.join (ts.map Token.text)

theorem isPathToken_iff {t : Token} : isPathToken t ↔ t.kind = .name ∨ t.kind = .dcolon := by
  simp [isPathToken, Token.is]

theorem IsPathRow.tail {t : Token} {ts : List Token} (h : IsPathRow (t :: ts)) : IsPathRow ts :=
  ⟨fun u hu => h.tokens u (List.mem_cons_of_mem t hu), h.apart.tail⟩

/-- A name is not empty and has no colon. -/
theorem IsLexeme.colon_not_mem {t : Token} (h : IsLexeme t.lexeme) (hk : t.kind = .name) :
    t.text.toList ≠ [] ∧ ':' ∉ t.text.toList := by
  refine ⟨h.ne_nil, fun hcolon => ?_⟩
  obtain ⟨cs, o, n, hfirst, hkind, htext⟩ := h
  obtain ⟨m, hm, hn⟩ := exists_terminal_of_first? hfirst
  have hword : o = .word := by
    have hno : ∀ o ∈ all.map Prod.fst, o ≠ .token .name := by decide
    cases o with
    | skip => simp [Outcome.kind?] at hkind
    | token k =>
      obtain rfl : k = .name := (Option.some.inj hkind).trans hk
      exact absurd rfl (hno _ (List.mem_map_of_mem hm))
    | word => rfl
  obtain rfl : m = markedWord := by
    subst hword
    simpa [all] using hm
  rw [show t.text.toList = cs.take n from htext] at hcolon
  rcases mem_take_of_markedWord hn ':' hcolon with h | h
  · exact absurd h (by decide +kernel)
  · simp at h

theorem IsLexeme.text_dcolon {t : Token} (h : IsLexeme t.lexeme) (hk : t.kind = .dcolon) :
    t.text.toList = [':', ':'] :=
  h.text_of_sign (by rw [show t.lexeme.1 = Kind.dcolon from hk]; decide)

/-- Where a text without a colon is followed by one, or by nothing, the text ends there. -/
theorem append_inj_of_colon {a b x y : List Char} (ha : ':' ∉ a) (hb : ':' ∉ b)
    (hx : ∀ c ∈ x.head?, c = ':') (hy : ∀ c ∈ y.head?, c = ':') (h : a ++ x = b ++ y) :
    a = b ∧ x = y := by
  have hfront : ∀ {a x : List Char}, ':' ∉ a → (∀ c ∈ x.head?, c = ':') →
      (a ++ x).takeWhile (· ≠ ':') = a := by
    intro a x ha hx
    have hall : ∀ c ∈ a, decide (c ≠ ':') = true := by
      intro c hc
      rw [decide_eq_true_eq]
      rintro rfl
      exact ha hc
    rw [List.takeWhile_append_of_pos hall]
    cases x with
    | nil => simp
    | cons c x => rw [hx c rfl, List.takeWhile_cons_of_neg (by simp), List.append_nil]
  obtain rfl : a = b := by rw [← hfront ha hx, h, hfront hb hy]
  exact ⟨rfl, List.append_cancel_left h⟩

section

variable {u : Token} {us : List Token}

/-- Behind a name in a row there is nothing, or a colon. -/
theorem IsPathRow.head_colon (h : IsPathRow (u :: us)) (hu : u.kind = .name)
    (hlex : ∀ t ∈ us, IsLexeme t.lexeme) :
    ∀ c ∈ (us.flatMap (·.text.toList)).head?, c = ':' := by
  cases us with
  | nil => simp
  | cons d us =>
    have hd : d.kind = .dcolon := (isPathToken_iff.1 (h.tokens d (by simp))).resolve_left
      fun hname => (List.isChain_cons_cons.1 h.apart).1 ⟨hu, hname⟩
    rw [List.flatMap_cons, (hlex d (by simp)).text_dcolon hd]
    simp

/-- A row can be told from its joined text. -/
theorem IsPathRow.lexemes_eq : ∀ {us vs : List Token}, IsPathRow us → IsPathRow vs →
    (∀ t ∈ us, IsLexeme t.lexeme) → (∀ t ∈ vs, IsLexeme t.lexeme) →
    us.flatMap (·.text.toList) = vs.flatMap (·.text.toList) →
    us.map Token.lexeme = vs.map Token.lexeme
  | [], [], _, _, _, _, _ => rfl
  | [], v :: vs, _, _, _, hlv, h => by
    simp only [List.flatMap_nil, List.flatMap_cons] at h
    exact absurd (List.append_eq_nil_iff.1 h.symm).1 (hlv v (by simp)).ne_nil
  | u :: us, [], _, _, hlu, _, h => by
    simp only [List.flatMap_nil, List.flatMap_cons] at h
    exact absurd (List.append_eq_nil_iff.1 h).1 (hlu u (by simp)).ne_nil
  | u :: us, v :: vs, hu, hv, hlu, hlv, h => by
    have hlu' : ∀ t ∈ us, IsLexeme t.lexeme := fun t ht => hlu t (by simp [ht])
    have hlv' : ∀ t ∈ vs, IsLexeme t.lexeme := fun t ht => hlv t (by simp [ht])
    have hclash : ∀ {a b : Token} {x y : List Char}, IsLexeme a.lexeme → IsLexeme b.lexeme →
        a.kind = .name → b.kind = .dcolon → a.text.toList ++ x ≠ b.text.toList ++ y := by
      intro a b x y ha hb hka hkb heq
      obtain ⟨hne, hcolon⟩ := ha.colon_not_mem hka
      obtain ⟨c, w, hw⟩ := List.exists_cons_of_ne_nil hne
      rw [hb.text_dcolon hkb, hw] at heq
      obtain ⟨rfl, -⟩ := List.cons.inj heq
      exact hcolon (hw ▸ List.mem_cons_self ..)
    rw [List.flatMap_cons, List.flatMap_cons] at h
    obtain ⟨hkind, htext, hrest⟩ : u.kind = v.kind ∧ u.text.toList = v.text.toList ∧
        us.flatMap (·.text.toList) = vs.flatMap (·.text.toList) := by
      rcases isPathToken_iff.1 (hu.tokens u (by simp)) with hku | hku <;>
        rcases isPathToken_iff.1 (hv.tokens v (by simp)) with hkv | hkv
      · exact ⟨hku.trans hkv.symm, append_inj_of_colon ((hlu u (by simp)).colon_not_mem hku).2
          ((hlv v (by simp)).colon_not_mem hkv).2 (hu.head_colon hku hlu') (hv.head_colon hkv hlv') h⟩
      · exact absurd h (hclash (hlu u (by simp)) (hlv v (by simp)) hku hkv)
      · exact absurd h.symm (hclash (hlv v (by simp)) (hlu u (by simp)) hkv hku)
      · have htext := ((hlu u (by simp)).text_dcolon hku).trans
          ((hlv v (by simp)).text_dcolon hkv).symm
        rw [htext] at h
        exact ⟨hku.trans hkv.symm, htext, List.append_cancel_left h⟩
    rw [List.map_cons, List.map_cons, hu.tail.lexemes_eq hv.tail hlu' hlv' hrest, Token.lexeme,
      Token.lexeme, hkind, String.toList_inj.1 htext]

end

/-! ### The content of an attribute -/

/-- Tokens are the path `us`, behind which may stand one group in round brackets that goes on to their
end. The arguments are the text in that group and the bracket that opens it. -/
inductive Content (source : List Char) (us : List Token) : List Token → Option AttrArgs → Prop
  | bare : Content source us us none
  | call {opener closer : Token} {inner : List Token} : opener.kind = .lpar →
      group? (opener :: (inner ++ [closer])) = some (opener :: (inner ++ [closer]), []) →
      Content source us (us ++ opener :: (inner ++ [closer]))
        (some ⟨String.ofList (between source opener.stop closer.start), opener⟩)

theorem not_isPathToken {t : Token} (h : t.kind = .lpar) : isPathToken t = false := by
  simp [isPathToken, Token.is, h]

/-- The path of an attribute is all of its names and `::` in front. -/
theorem Content.eq_takeWhile {source : List Char} {us ts : List Token} {args : Option AttrArgs}
    (h : Content source us ts args) (hus : ∀ t ∈ us, isPathToken t) :
    ts.takeWhile isPathToken = us := by
  cases h with
  | bare => exact List.takeWhile_eq_self_iff.2 hus
  | call hopen _ =>
    rw [List.takeWhile_append_of_pos hus, List.takeWhile_cons_of_neg (by simp [not_isPathToken hopen]),
      List.append_nil]

/-- What is read of an attribute that has a path is its joined text and its arguments. -/
theorem attrContent_eq_iff {source : List Char} {ts : List Token} {path : String}
    {args : Option AttrArgs} : attrContent source ts = (some path, args) ↔
      ∃ us, Content source us ts args ∧ (∀ t ∈ us, isPathToken t) ∧
        String.join (us.map Token.text) = path := by
  have hsplit := List.takeWhile_append_dropWhile (p := isPathToken) (l := ts)
  constructor
  · intro h
    refine ⟨ts.takeWhile isPathToken, ?_, fun t ht => List.mem_takeWhile_imp ht, ?_⟩
    · unfold attrContent at h
      cases hdrop : ts.dropWhile isPathToken with
      | nil =>
        rw [hdrop] at h hsplit
        obtain ⟨-, rfl⟩ := Prod.mk.inj h
        rw [List.append_nil] at hsplit
        rw [hsplit]
        exact .bare
      | cons opener rest =>
        simp only [hdrop] at h
        split at h
        · next g hpar hg =>
          obtain rfl : g = opener :: rest := by simpa using group?_append hg
          obtain ⟨-, rfl⟩ := Prod.mk.inj h
          have hpar : opener.kind = .lpar := by simpa [Token.is] using hpar
          have hg' := hg
          rw [group?, closeGroup_opener (by rw [hpar]; rfl)] at hg'
          obtain ⟨⟨g, rest'⟩, hg', heq⟩ := Option.map_eq_some_iff.1 hg'
          obtain rfl : g = rest := (List.cons.inj (Prod.mk.inj heq).1).2
          obtain ⟨closer, hlast, -⟩ := closeGroup_last hg' rfl
          obtain ⟨inner, rfl⟩ := List.getLast?_eq_some_iff.1 hlast
          have hcall : Content source (ts.takeWhile isPathToken) _ _ := .call hpar hg
          rw [← hdrop, hsplit] at hcall
          simpa [List.getLast?_cons, between] using hcall
        · simp at h
    · unfold attrContent at h
      cases hdrop : ts.dropWhile isPathToken with
      | nil =>
        rw [hdrop] at h
        exact Option.some.inj (Prod.mk.inj h).1
      | cons opener rest =>
        simp only [hdrop] at h
        split at h
        · exact Option.some.inj (Prod.mk.inj h).1
        · simp at h
  · rintro ⟨us, hcontent, hus, rfl⟩
    have htake := hcontent.eq_takeWhile hus
    unfold attrContent
    rw [htake]
    cases hcontent with
    | bare => rw [List.dropWhile_eq_nil_iff.2 hus]
    | call hopen hg =>
      rw [List.dropWhile_append_of_pos hus, List.dropWhile_cons_of_neg (by simp [not_isPathToken hopen])]
      simp only [Token.is, hopen, beq_self_eq_true, hg, List.getLast?_cons, List.getLast?_append]
      rfl

/-- An attribute in brackets is a mark if its names and `::` in front, joined, are a configured path
and what stands behind them is one group, if anything. -/
theorem isMark_iff_join {source : List Char} {c : Config} {t b close : Token} {ts rest : List Token}
    (ht : t.kind = .pound) (hb : b.kind = .lsqb)
    (hgroup : group? (b :: (ts ++ close :: rest)) = some (b :: (ts ++ [close]), rest)) :
    ∃ a, outerAttr? source (t :: b :: (ts ++ close :: rest)) = some (a, rest) ∧ a.first = t ∧
      a.last = close ∧ ∀ args, a.isMark c ∧ a.args = args ↔
        ∃ us, Content source us ts args ∧ (∀ u ∈ us, isPathToken u) ∧
          String.join (us.map Token.text) ∈ c.attributes := by
  have hinner : ((b :: (ts ++ [close])).drop 1).dropLast = ts := by simp
  have hlast : (b :: (ts ++ [close])).getLast?.getD t = close := by simp [List.getLast?_cons]
  refine ⟨⟨t, close, (attrContent source ts).1, (attrContent source ts).2⟩, ?_, rfl, rfl,
    fun args => ?_⟩
  · rw [outerAttr?_bracket source ht hb, hgroup, Option.map_some]
    simp only [hinner, hlast]
  constructor
  · rintro ⟨hmark, rfl⟩
    cases hpath : (attrContent source ts).1 with
    | none => simp [OuterAttr.isMark, hpath] at hmark
    | some path =>
      obtain ⟨us, hcontent, hus, rfl⟩ := attrContent_eq_iff.1 (Prod.ext hpath rfl)
      exact ⟨us, hcontent, hus, by simpa [OuterAttr.isMark, hpath] using hmark⟩
  · rintro ⟨us, hcontent, hus, hmem⟩
    rw [attrContent_eq_iff.2 ⟨us, hcontent, hus, rfl⟩]
    exact ⟨by simpa [OuterAttr.isMark] using hmem, rfl⟩

/-- If the configured paths are names with `::` between them, and no two names stand side by side in
front of an attribute, it is a mark with some arguments if and only if its tokens are those of a
configured path, and behind them these arguments in round brackets or nothing. -/
theorem isMark_iff_tokens {source : String} {c : Config} {t b close : Token}
    {front ts rest : List Token} (hlex : lex source = .ok (front ++ t :: b :: (ts ++ close :: rest)))
    (ht : t.kind = .pound) (hb : b.kind = .lsqb)
    (hgroup : group? (b :: (ts ++ close :: rest)) = some (b :: (ts ++ [close]), rest))
    (hpaths : ∀ path ∈ c.attributes, IsNamePath path)
    (hapart : IsPathRow (ts.takeWhile isPathToken)) :
    ∃ a, outerAttr? source.toList (t :: b :: (ts ++ close :: rest)) = some (a, rest) ∧
      a.first = t ∧ a.last = close ∧ ∀ args, a.isMark c ∧ a.args = args ↔
        ∃ path ∈ c.attributes, ∃ ps us, lex path = .ok ps ∧
          us.map Token.lexeme = ps.map Token.lexeme ∧ Content source.toList us ts args := by
  obtain ⟨a, ha, hfirst, hlast, hmark⟩ := isMark_iff_join (c := c) ht hb hgroup
  refine ⟨a, ha, hfirst, hlast, fun args => (hmark args).trans ?_⟩
  have hjoin : ∀ ts : List Token, (String.join (ts.map Token.text)).toList =
      ts.flatMap (·.text.toList) := fun ts => by
    rw [String.toList_join, List.flatMap_map]
  constructor
  · rintro ⟨us, hcontent, hus, hmem⟩
    obtain ⟨ps, hps, hrow, hpath⟩ := hpaths _ hmem
    have htake := hcontent.eq_takeWhile hus
    have hsub : ∀ u ∈ us, u ∈ ts := fun u hu =>
      (List.takeWhile_sublist isPathToken).subset (htake ▸ hu)
    refine ⟨_, hmem, ps, us, hps, ?_, hcontent⟩
    refine IsPathRow.lexemes_eq (htake ▸ hapart) hrow (fun u hu => isLexeme_of_lex hlex u ?_)
      (isLexeme_of_lex hps) ?_
    · simp [hsub u hu]
    · rw [← hjoin, hpath, hjoin]
  · rintro ⟨path, hmem, ps, us, hps, heq, hcontent⟩
    obtain ⟨ps', hps', hrow, hpath⟩ := hpaths _ hmem
    obtain rfl : ps = ps' := Except.ok.inj (hps.symm.trans hps')
    refine ⟨us, hcontent, fun u hu => ?_, ?_⟩
    · obtain ⟨p, hp, hpu⟩ := List.mem_map.1 (heq ▸ List.mem_map_of_mem hu)
      have hkind : p.kind = u.kind := congrArg Prod.fst hpu
      rw [isPathToken_iff, ← hkind, ← isPathToken_iff]
      exact hrow.tokens p hp
    · have htexts : us.map Token.text = ps.map Token.text := by
        simpa [Token.lexeme, Function.comp_def] using congrArg (List.map Prod.snd) heq
      rw [htexts, ← hpath]
      exact hmem

/-- The argument of `#[ext(pub A)]` is the text between its brackets. -/
theorem isMark_iff_tokens_called :
    ∃ ts a, lex "#[ext(pub A)] impl X" = .ok ts ∧
      outerAttr? "#[ext(pub A)] impl X".toList ts = some (a, ts.drop 8) ∧ a.isMark Config.default ∧
      a.args.map AttrArgs.text = some "pub A" := by
  let tok (kind : Kind) (text : String) (start stop : Nat) : Token :=
    ⟨kind, text, start, stop, ⟨1, start + 1⟩, ⟨1, stop + 1⟩⟩
  have hrow : ∀ ts : List Token, (ts.map Token.kind = [.name] ∨ ts.map Token.kind =
      [.name, .dcolon, .name]) → IsPathRow ts := by
    rintro ts (h | h)
    · obtain ⟨t, rfl, ht⟩ := List.map_eq_singleton_iff.1 h
      exact ⟨by simp [isPathToken_iff, ht], .singleton _⟩
    · obtain ⟨t, us, rfl, ht, hus⟩ := List.map_eq_cons_iff.1 h
      obtain ⟨u, vs, rfl, hu, hvs⟩ := List.map_eq_cons_iff.1 hus
      obtain ⟨v, rfl, hv⟩ := List.map_eq_singleton_iff.1 hvs
      exact ⟨by simp [isPathToken_iff, ht, hu, hv],
        .cons_cons (by simp [hu]) (.cons_cons (by simp [hu]) (.singleton _))⟩
  have hpaths : ∀ path ∈ Config.default.attributes, IsNamePath path := by
    intro path hpath
    have hor : path = "ext" ∨ path = "ext_trait::ext" := by
      simpa [Config.default, Config.defaultAttributes] using hpath
    rcases hor with rfl | rfl
    · exact ⟨(scan "ext".toList).tokens, lex_eq_ok_iff.2 (by decide +kernel),
        hrow _ (by decide +kernel), by decide +kernel⟩
    · exact ⟨(scan "ext_trait::ext".toList).tokens, lex_eq_ok_iff.2 (by decide +kernel),
        hrow _ (by decide +kernel), by decide +kernel⟩
  let inner := [tok .name "ext" 2 5, tok .lpar "(" 5 6, tok .kwPub "pub" 6 9, tok .name "A" 10 11,
    tok .rpar ")" 11 12]
  have hlex : lex "#[ext(pub A)] impl X" = .ok ([] ++ tok .pound "#" 0 1 :: tok .lsqb "[" 1 2 ::
      (inner ++ tok .rsqb "]" 12 13 :: [tok .kwImpl "impl" 14 18, tok .name "X" 19 20])) :=
    lex_eq_ok_iff.2 (by decide +kernel)
  obtain ⟨a, ha, -, -, hmark⟩ := isMark_iff_tokens hlex rfl rfl (by decide +kernel) hpaths
    (hrow _ (by decide +kernel))
  obtain ⟨hmark, hargs⟩ := (hmark (some ⟨"pub A", tok .lpar "(" 5 6⟩)).2
    ⟨"ext", by decide +kernel, [tok .name "ext" 0 3], [tok .name "ext" 2 5],
      lex_eq_ok_iff.2 (by decide +kernel), rfl,
      show Content _ _ ([tok .name "ext" 2 5] ++ tok .lpar "(" 5 6 ::
        ([tok .kwPub "pub" 6 9, tok .name "A" 10 11] ++ [tok .rpar ")" 11 12])) _ from
        .call rfl (by decide +kernel)⟩
  exact ⟨_, a, hlex, ha, hmark, by rw [hargs]; rfl⟩

/-- Without a group all tokens are the path. -/
theorem Content.eq_of_no_lpar {source : List Char} {us ts : List Token} {args : Option AttrArgs}
    (h : Content source us ts args) (hts : ∀ t ∈ ts, t.kind ≠ .lpar) : us = ts := by
  cases h with
  | bare => rfl
  | call hopen _ => exact absurd hopen (hts _ (by simp))

/-- The two names of `#[ex t]` are taken for the path `ext`, and the path `crate::ext` is never
found. -/
theorem isMark_joined :
    (∃ ts a, lex "#[ex t]" = .ok ts ∧ outerAttr? "#[ex t]".toList ts = some (a, []) ∧
      a.isMark Config.default ∧ ∀ path ∈ Config.default.attributes, ∀ ps us args,
        lex path = .ok ps → us.map Token.lexeme = ps.map Token.lexeme →
          ¬ Content "#[ex t]".toList us (ts.drop 2).dropLast args) ∧
    ∃ (c : Config) (ts ps : List Token) (a : OuterAttr), c.attributes = ["crate::ext"] ∧
      lex "crate::ext" = .ok ps ∧ lex "#[crate::ext]" = .ok ts ∧
      (ts.drop 2).dropLast.map Token.lexeme = ps.map Token.lexeme ∧
      outerAttr? "#[crate::ext]".toList ts = some (a, []) ∧ a.isMark c = false := by
  let bracket (stop : Nat) (path : Option String) : OuterAttr :=
    ⟨⟨.pound, "#", 0, 1, ⟨1, 1⟩, ⟨1, 2⟩⟩,
      ⟨.rsqb, "]", stop - 1, stop, ⟨1, stop⟩, ⟨1, stop + 1⟩⟩, path,
      none⟩
  constructor
  · refine ⟨(scan "#[ex t]".toList).tokens, bracket 7 (some "ext"), lex_eq_ok_iff.2 (by decide +kernel),
      by decide +kernel, by decide +kernel, fun path hpath ps us args hps hus hcontent => ?_⟩
    obtain rfl := hcontent.eq_of_no_lpar (by decide +kernel)
    have hor : path = "ext" ∨ path = "ext_trait::ext" := by
      simpa [Config.default, Config.defaultAttributes] using hpath
    rcases hor with rfl | rfl
    · have hps' : lex "ext" = .ok (scan "ext".toList).tokens := lex_eq_ok_iff.2 (by decide +kernel)
      obtain rfl := Except.ok.inj (hps.symm.trans hps')
      revert hus
      decide +kernel
    · have hps' : lex "ext_trait::ext" = .ok (scan "ext_trait::ext".toList).tokens :=
        lex_eq_ok_iff.2 (by decide +kernel)
      obtain rfl := Except.ok.inj (hps.symm.trans hps')
      revert hus
      decide +kernel
  · exact ⟨{ Config.default with attributes := ["crate::ext"] }, (scan "#[crate::ext]".toList).tokens,
      (scan "crate::ext".toList).tokens, bracket 13 none, rfl, lex_eq_ok_iff.2 (by decide +kernel),
      lex_eq_ok_iff.2 (by decide +kernel), by decide +kernel, by decide +kernel, by decide +kernel⟩

end TraitLift
