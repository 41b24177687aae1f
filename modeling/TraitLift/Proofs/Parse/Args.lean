import Mathlib.Tactic
import TraitLift.Print.Member
import TraitLift.Proofs.Parse.Type

/-!
Attribute arguments. `ExtArgs.Stands` says which tokens write which arguments, and a text is read as
arguments exactly if its tokens write them. The arguments written out are tokens that write the same
arguments again (`exists_args_lays`), so they are read as what they were written from.
-/

namespace TraitLift

open TraitLift.Grammar

/-! ### Tokens that write arguments -/

namespace Kind

/-- The kinds of words with `::` between them. -/
inductive Words : List Kind → Prop
  | one {k : Kind} : TokenClass.pathWord.has k → Words [k]
  | more {k : Kind} {ks : List Kind} :
      TokenClass.pathWord.has k → Words ks → Words (k :: .dcolon :: ks)

/-- The kinds of the tokens of a path, which `::` may open. -/
def IsPath (ks : List Kind) : Prop := Words ks ∨ ∃ us, ks = .dcolon :: us ∧ Words us

/-- The kinds of the words that are a scope by themselves. -/
def scopes : List Kind := [.kwCrate, .kwSelf, .kwSuper]

end Kind

/-- `v.Stands source ts`: the tokens `ts` of the text write the visibility. -/
inductive Visibility.Stands (source : List Char) : Visibility → List Token → Prop
  | pub {p : Token} : p.kind = .kwPub → Stands source .pub [p]
  | crate {c : Token} : c.kind = .kwCrate → Stands source .crate [c]
  | word {p l s r : Token} : p.kind = .kwPub → l.kind = .lpar → s.kind ∈ Kind.scopes →
      r.kind = .rpar → Stands source (.restricted s.text) [p, l, s, r]
  | path {p l i r : Token} {us : List Token} : p.kind = .kwPub → l.kind = .lpar → i.kind = .kwIn →
      Kind.IsPath (us.map Token.kind) → r.kind = .rpar →
      Stands source (.restricted ("in " ++ sliceOf source us)) (p :: l :: i :: (us ++ [r]))

namespace ExtArgs

/-- `args.Stands source ts`: the tokens `ts` of the text are a visibility, if the arguments have one,
and a name, if they have one. -/
def Stands (source : List Char) (args : ExtArgs) (ts : List Token) : Prop :=
  ∃ vs ns, ts = vs ++ ns ∧ args.vis.elim (vs = []) (·.Stands source vs) ∧
    args.name.elim (ns = []) fun n => ∃ t, ns = [t] ∧ t.kind = .name ∧ t.text = n

/-- The arguments as they are written. -/
def text (args : ExtArgs) : String := (args.vis.map Visibility.text).getD "" ++ args.name.getD ""

end ExtArgs

/-! ### Paths -/

theorem Kind.words_of_covers : ∀ {pss : List (List Syntax)} {t : Token}, TokenClass.pathWord.has t.kind →
    (∀ us ∈ pss, Grammar.Covers rust (Expr.all [Syn.k .dcolon, Syn.pathWord]) us) →
    Words ((t :: leavesOf pss.flatten).map Token.kind)
  | [], _, ht, _ => .one ht
  | us :: pss, t, ht, h => by
    obtain ⟨_, _, rfl, ⟨c, rfl, hc⟩, w, rfl, hw⟩ := h us (List.mem_cons_self ..)
    have hrest := words_of_covers hw fun vs hvs => h vs (List.mem_cons_of_mem _ hvs)
    simpa [leavesOf, Grammar.Tree.leaves, kind_eq hc] using Words.more ht hrest

theorem Kind.isPath_of_parses {cs : List Syntax} (h : Parses rust [ruleBody .plainPath] cs) :
    IsPath ((leavesOf cs).map Token.kind) := by
  obtain ⟨_, _, rfl, hopen, _, _, rfl, ⟨t, rfl, ht⟩, pss, rfl, hpss⟩ := parses_iff_covers.1 h
  have hwords := words_of_covers ht hpss
  rcases hopen with ⟨c, rfl, hc⟩ | rfl
  · exact Or.inr ⟨_, by simp [leavesOf, Grammar.Tree.leaves, kind_eq hc], hwords⟩
  · exact Or.inl hwords

theorem Kind.Words.derives {ks : List Kind} (h : Words ks) : ∀ {ts : List Token},
    ts.map Token.kind = ks → ∃ t us, ts = t :: us ∧ TokenClass.pathWord.has t.kind ∧
      rust.Derives (.star (Expr.all [Syn.k .dcolon, Syn.pathWord])) us := by
  induction h with
  | one hk =>
    intro ts hts
    obtain ⟨t, rfl, rfl⟩ := List.map_eq_singleton_iff.1 hts
    exact ⟨t, [], rfl, hk, .starNil⟩
  | more hk _ ih =>
    intro ts hts
    obtain ⟨t, _, rfl, rfl, hsign⟩ := List.map_eq_cons_iff.1 hts
    obtain ⟨c, _, rfl, hc, hwords⟩ := List.map_eq_cons_iff.1 hsign
    obtain ⟨u, us, rfl, hu, hrest⟩ := ih hwords
    exact ⟨t, c :: u :: us, rfl, hk, .starCons (.seq (.tok (beq_iff_eq.2 hc.symm)) (.tok hu)) hrest⟩

theorem Kind.IsPath.derives {ts : List Token} (h : IsPath (ts.map Token.kind)) :
    rust.Derives (Syn.use .plainPath) ts := by
  rcases h with h | ⟨us, hts, h⟩
  · obtain ⟨t, us, rfl, ht, hrest⟩ := h.derives rfl
    exact .rule (.seq (.altRight .empty) (.seq (.tok ht) hrest))
  · obtain ⟨c, us, rfl, hc, hus⟩ := List.map_eq_cons_iff.1 hts
    obtain ⟨t, us, rfl, ht, hrest⟩ := h.derives hus
    exact .rule (.seq (.altLeft (.tok (beq_iff_eq.2 hc.symm))) (.seq (.tok ht) hrest))

theorem Kind.IsPath.ne_nil {ts : List Token} (h : IsPath (ts.map Token.kind)) : ts ≠ [] := by
  rintro rfl
  rcases h with h | ⟨us, hus, -⟩
  · cases h
  · simp at hus

theorem Kind.Words.last {ks : List Kind} (h : Words ks) :
    ∀ k ∈ ks.getLast?, TokenClass.pathWord.has k := by
  induction h with
  | one hk =>
    rintro _ ⟨⟩
    exact hk
  | @more k ks hk hks ih =>
    have hne : ks ≠ [] := by
      cases hks <;> simp
    rwa [List.getLast?_cons_cons, List.getLast?_cons_of_ne_nil hne]

/-- A closing bracket can stand right behind a path. -/
theorem Kind.IsPath.abuts {ts : List Token} (h : IsPath (ts.map Token.kind)) :
    ∀ t ∈ ts.getLast?, t.kind.abuts .rpar := by
  have hwords : ∀ k, TokenClass.pathWord.has k → k.abuts .rpar := by
    intro k hk
    cases k <;> first | decide | simp [TokenClass.has] at hk
  intro t ht
  refine hwords _ ?_
  have hlast : t.kind ∈ (ts.map Token.kind).getLast? := by
    rw [List.getLast?_map, Option.mem_def.1 ht]
    rfl
  rcases h with h | ⟨us, hus, h⟩
  · exact h.last _ hlast
  · have hne : us ≠ [] := by
      cases h <;> simp
    rw [hus, List.getLast?_cons_of_ne_nil hne] at hlast
    exact h.last _ hlast

/-! ### Visibilities -/

section

variable {source : List Char} {cs : List Syntax}

/-- The scope of a visibility is a word, or a path behind `in`. -/
theorem scope_cases (h : Parses rust [ruleBody .visScope] cs)
    (hspell : ∀ t ∈ leavesOf cs, sliceOf source [t] = t.text) :
    (∃ s, cs = [.leaf s] ∧ s.kind ∈ Kind.scopes ∧
      Reading.scope source (cs.map (Reading.phrase source)) = s.text) ∨
    ∃ i es, cs = [.leaf i, .node .plainPath es] ∧ i.kind = .kwIn ∧
      Kind.IsPath ((leavesOf es).map Token.kind) ∧
      Reading.scope source (cs.map (Reading.phrase source)) = "in " ++ sliceOf source (leavesOf es) := by
  have hword : ∀ {s : Token}, cs = [.leaf s] → s.kind ∈ Kind.scopes →
      ∃ s, cs = [.leaf s] ∧ s.kind ∈ Kind.scopes ∧
        Reading.scope source (cs.map (Reading.phrase source)) = s.text := by
    rintro s rfl hs
    have hin : s.kind ≠ .kwIn := by
      rintro heq
      rw [heq] at hs
      exact absurd hs (by decide)
    refine ⟨s, rfl, hs, ?_⟩
    rw [← hspell s (List.mem_singleton.2 rfl)]
    simp [Reading.scope, Parts.has, Reading.isToken_leaf, Token.is, hin, Parts.text, Parts.tokens,
      Reading.tokens_phrase, Grammar.Tree.leaves]
  rcases parses_iff_covers.1 h with ⟨s, hcs, hs⟩ | ⟨s, hcs, hs⟩ | ⟨s, hcs, hs⟩ |
    ⟨_, _, rfl, ⟨i, rfl, hi⟩, es, rfl, hes⟩
  · exact Or.inl (hword hcs (kind_eq hs ▸ by decide))
  · exact Or.inl (hword hcs (kind_eq hs ▸ by decide))
  · exact Or.inl (hword hcs (kind_eq hs ▸ by decide))
  · refine Or.inr ⟨i, es, rfl, kind_eq hi, Kind.isPath_of_parses hes, ?_⟩
    have hplain : Parts.plain [Reading.phrase source (.leaf i),
        Reading.phrase source (.node .plainPath es)] =
          [Reading.phrase source (.node .plainPath es)] := rfl
    simp [Reading.scope, Parts.has, Reading.isToken_leaf, Token.is, kind_eq hi, Parts.text, hplain,
      Parts.tokens, Reading.tokens_phrase, Grammar.Tree.leaves]

/-- What a visibility is read as is what its tokens write. -/
theorem stands_of_parses (h : Parses rust [ruleBody .visibility] cs)
    (hspell : ∀ t ∈ leavesOf cs, sliceOf source [t] = t.text) :
    (Reading.visibility (cs.map (Reading.phrase source))).Stands source (leavesOf cs) := by
  rcases parses_iff_covers.1 h with
    ⟨_, _, rfl, ⟨p, rfl, hp⟩,
      ⟨_, _, rfl, ⟨l, rfl, hl⟩, _, _, rfl, ⟨ss, rfl, hss⟩, r, rfl, hr⟩ | rfl⟩ |
    ⟨c, rfl, hc⟩
  · have hread : Reading.visibility ([Grammar.Tree.leaf p, .leaf l, .node .visScope ss, .leaf r].map
        (Reading.phrase source)) = .restricted (Reading.scope source (ss.map (Reading.phrase source))) := by
      have hcrate : Parts.has .kwCrate ([Grammar.Tree.leaf p, .leaf l, .node .visScope ss, .leaf r].map
          (Reading.phrase source)) = false := by
        simp [Parts.has, Reading.isToken_leaf, Reading.isToken_node, Token.is, kind_eq hp, kind_eq hl,
          kind_eq hr]
      rw [Reading.visibility, hcrate]
      simp only [List.map_cons, Reading.phrase_node]
      rfl
    simp only [List.cons_append, List.nil_append] at hspell ⊢
    rw [hread]
    have hscopes : ∀ t ∈ leavesOf ss, sliceOf source [t] = t.text := fun t ht =>
      hspell t (by simp [leavesOf, Grammar.Tree.leaves, ht])
    rcases scope_cases hss hscopes with ⟨s, rfl, hs, hscope⟩ | ⟨i, es, rfl, hi, hes, hscope⟩
    · rw [hscope]
      exact .word (kind_eq hp) (kind_eq hl) hs (kind_eq hr)
    · rw [hscope]
      simpa [leavesOf, Grammar.Tree.leaves] using
        Visibility.Stands.path (kind_eq hp) (kind_eq hl) hi hes (kind_eq hr)
  · have hread : Reading.visibility ([Grammar.Tree.leaf p].map (Reading.phrase source)) = .pub := by
      have hcrate : Parts.has .kwCrate ([Grammar.Tree.leaf p].map (Reading.phrase source)) = false := by
        simp [Parts.has, Reading.isToken_leaf, Token.is, kind_eq hp]
      rw [Reading.visibility, hcrate]
      rfl
    exact hread ▸ .pub (kind_eq hp)
  · have hread : Reading.visibility ([Grammar.Tree.leaf c].map (Reading.phrase source)) = .crate := by
      simp [Reading.visibility, Parts.has, Reading.isToken_leaf, Token.is, kind_eq hc]
    exact hread ▸ .crate (kind_eq hc)

/-- What arguments are read as is what their tokens write. -/
theorem args_stand_of_covers {trees : List Syntax} (h : Grammar.Covers rust Syn.extArgs trees)
    (hspell : ∀ t ∈ leavesOf trees, sliceOf source [t] = t.text) :
    ExtArgs.Stands source ⟨(Parts.pick (fun | .vis v => some v | _ => none)
      (trees.map (Reading.phrase source))).head?,
        Parts.word? [.name] (trees.map (Reading.phrase source))⟩ (leavesOf trees) := by
  obtain ⟨us, ws, rfl, hus, hws⟩ := h
  have hname : ∃ name, Parts.word? [.name] (ws.map (Reading.phrase source)) = name ∧
      Parts.pick (fun | .vis v => some v | _ => none) (ws.map (Reading.phrase source)) = [] ∧
      name.elim (leavesOf ws = []) fun n => ∃ t, leavesOf ws = [t] ∧ t.kind = .name ∧ t.text = n := by
    rcases hws with ⟨t, rfl, ht⟩ | rfl
    · refine ⟨some t.text, ?_, rfl, t, rfl, kind_eq ht, rfl⟩
      simp [Parts.word?, Reading.phrase, Grammar.Tree.fold, Phrase.ofToken, Phrase.token?, kind_eq ht]
    · exact ⟨none, rfl, rfl, rfl⟩
  obtain ⟨name, hname, hpick, hrow⟩ := hname
  refine ⟨leavesOf us, leavesOf ws, leavesOf_append us ws, ?_, ?_⟩
  · rcases hus with ⟨cs, rfl, hcs⟩ | rfl
    · have hstands := stands_of_parses hcs fun t ht => hspell t (by
        simp [leavesOf, Grammar.Tree.leaves, ht])
      simpa [Reading.phrase_node, Reading.ruleMeaning, Parts.pick, leavesOf, Grammar.Tree.leaves]
        using hstands
    · simp [hpick, leavesOf]
  · have hword : Parts.word? [.name] ((us ++ ws).map (Reading.phrase source)) = name := by
      rcases hus with ⟨cs, rfl, -⟩ | rfl
      · rw [← hname, List.singleton_append, List.map_cons, Reading.phrase_node]
        rfl
      · exact hname
    rw [hword]
    exact hrow

end

theorem Visibility.Stands.derives {source : List Char} {v : Visibility} {ts : List Token}
    (h : v.Stands source ts) : rust.Derives (Syn.use .visibility) ts := by
  have htok : ∀ {t : Token} {k : Kind}, t.kind = k → rust.Derives (Syn.k k) [t] :=
    fun ht => .tok (beq_iff_eq.2 ht.symm)
  cases h with
  | pub hp => exact .rule (.altLeft (.seq (u := [_]) (htok hp) (.altRight .empty)))
  | crate hc => exact .rule (.altRight (htok hc))
  | @word p l s r hp hl hs hr =>
    have hscope : rust.Derives (Syn.use .visScope) [s] := by
      simp only [Kind.scopes, List.mem_cons, List.not_mem_nil, or_false] at hs
      rcases hs with hs | hs | hs
      · exact .rule (.altLeft (htok hs))
      · exact .rule (.altRight (.altLeft (htok hs)))
      · exact .rule (.altRight (.altRight (.altLeft (htok hs))))
    exact .rule (.altLeft (.seq (htok hp) (.altLeft (.seq (htok hl) (.seq hscope (htok hr))))))
  | @path p l i r us hp hl hi hus hr =>
    have hscope : rust.Derives (Syn.use .visScope) (i :: us) :=
      .rule (.altRight (.altRight (.altRight (.seq (htok hi) hus.derives))))
    exact .rule (.altLeft (.seq (htok hp) (.altLeft (.seq (htok hl) (.seq hscope (htok hr))))))

/-! ### Tokens write one visibility only -/

namespace Visibility.Stands

variable {source : List Char} {v v' : Visibility} {ts : List Token}

theorem ne_nil (h : v.Stands source ts) : ts ≠ [] := by
  cases h <;> simp

/-- No visibility ends with a name. -/
theorem last_ne_name (h : v.Stands source ts) : ∀ t ∈ ts.getLast?, t.kind ≠ .name := by
  intro t ht
  cases h with
  | pub hp =>
    obtain rfl := Option.some.inj ht
    simp [hp]
  | crate hc =>
    obtain rfl := Option.some.inj ht
    simp [hc]
  | word _ _ _ hr =>
    obtain rfl := Option.some.inj ht
    simp [hr]
  | @path p l i r us _ _ _ _ hr =>
    rw [← List.cons_append, ← List.cons_append, ← List.cons_append, List.getLast?_concat] at ht
    obtain rfl := Option.some.inj ht
    simp [hr]

theorem unique (h : v.Stands source ts) (h' : v'.Stands source ts) : v = v' := by
  cases h with
  | pub hp =>
    cases h' with
    | pub => rfl
    | crate hc => simp [hp] at hc
  | crate hc =>
    cases h' with
    | pub hp => simp [hc] at hp
    | crate => rfl
  | @word p l s r _ _ hs _ =>
    generalize hrow : [p, l, s, r] = row at h'
    cases h' with
    | pub | crate => simp at hrow
    | word => simp_all
    | path _ _ hi =>
      obtain ⟨-, -, rfl, -⟩ : _ ∧ _ ∧ s = _ ∧ _ := by simpa using hrow
      rw [hi] at hs
      exact absurd hs (by decide)
  | @path p l i r us _ _ hi _ _ =>
    generalize hrow : p :: l :: i :: (us ++ [r]) = row at h'
    cases h' with
    | pub | crate => simp at hrow
    | word _ _ hs =>
      obtain ⟨-, -, rfl, -⟩ : _ ∧ _ ∧ i = _ ∧ _ := by simpa using hrow
      rw [hi] at hs
      exact absurd hs (by decide)
    | path =>
      obtain ⟨-, -, -, rfl, -⟩ : _ ∧ _ ∧ _ ∧ us = _ ∧ _ := by simpa using hrow
      rfl

end Visibility.Stands

namespace ExtArgs

variable {source : List Char} {args args' : ExtArgs} {ts : List Token}

theorem Stands.unique (h : args.Stands source ts) (h' : args'.Stands source ts) : args = args' := by
  obtain ⟨v, n⟩ := args
  obtain ⟨v', n'⟩ := args'
  obtain ⟨vs, ns, rfl, hvs, hns⟩ := h
  obtain ⟨vs', ns', heq, hvs', hns'⟩ := h'
  -- a name behind a row that has none
  have hlast : ∀ {v : Option Visibility} {vs ws : List Token} {t : Token}, t.kind = .name →
      v.elim (vs = []) (·.Stands source vs) → ws ++ [t] ≠ vs := by
    rintro v vs ws t ht hvs rfl
    cases v with
    | none => simp at hvs
    | some v => exact hvs.last_ne_name t (by simp) ht
  have hrows : vs = vs' ∧ n = n' := by
    cases n with
    | none =>
      obtain rfl : ns = [] := hns
      cases n' with
      | none =>
        obtain rfl : ns' = [] := hns'
        exact ⟨by simpa using heq, rfl⟩
      | some n' =>
        obtain ⟨t, rfl, ht, -⟩ := hns'
        exact absurd (by simpa using heq.symm) (hlast ht hvs)
    | some n =>
      obtain ⟨t, rfl, ht, rfl⟩ := hns
      cases n' with
      | none =>
        obtain rfl : ns' = [] := hns'
        exact absurd (by simpa using heq) (hlast ht hvs')
      | some n' =>
        obtain ⟨t', rfl, -, rfl⟩ := hns'
        obtain ⟨hvs, ht⟩ := List.append_inj' heq rfl
        rw [(List.cons.inj ht).1]
        exact ⟨hvs, rfl⟩
  obtain ⟨rfl, rfl⟩ := hrows
  have hvis : v = v' := by
    cases v with
    | none =>
      cases v' with
      | none => rfl
      | some v' => exact absurd hvs (Visibility.Stands.ne_nil hvs')
    | some v =>
      cases v' with
      | none => exact absurd hvs' (Visibility.Stands.ne_nil hvs)
      | some v' => exact congrArg some (Visibility.Stands.unique hvs hvs')
  rw [hvis]

theorem Stands.derives (h : args.Stands source ts) : rust.Derives Syn.extArgs ts := by
  obtain ⟨vs, ns, rfl, hvs, hns⟩ := h
  refine .seq ?_ ?_
  · cases hv : args.vis with
    | none =>
      rw [hv] at hvs
      obtain rfl : vs = [] := hvs
      exact .altRight .empty
    | some v =>
      rw [hv] at hvs
      exact .altLeft (Visibility.Stands.derives hvs)
  · cases hn : args.name with
    | none =>
      rw [hn] at hns
      obtain rfl : ns = [] := hns
      exact .altRight .empty
    | some n =>
      rw [hn] at hns
      obtain ⟨t, rfl, ht, -⟩ := hns
      exact .altLeft (.tok (beq_iff_eq.2 ht.symm))

end ExtArgs

/-- Tokens that are a sentence are read as the arguments that they write. -/
theorem exists_parseSomeArgs {source : String} {ts : List Token} (hlex : lex source = .ok ts)
    (hderives : rust.Derives Syn.extArgs ts) :
    ∃ args, parseSomeArgs source = .ok args ∧ args.Stands source.toList ts := by
  have hscan := lex_eq_ok_iff.1 hlex
  obtain ⟨trees, hread⟩ := (exists_read_eq_sentence_iff rust_proper rust_ranked).2 hderives
  have hholds := read_holds rust_proper rust_ranked Syn.extArgs ts
  rw [hread] at hholds
  obtain ⟨hparses, rfl⟩ := hholds
  have hparts : readParts .tokens Syn.extArgs source.toList =
      .ok (trees.map (Reading.phrase source.toList)) := by
    simp only [readParts, hscan, hread]
  refine ⟨_, ?_, args_stand_of_covers (parses_iff_covers.1 hparses) ?_⟩
  · unfold parseSomeArgs
    generalize readParts .tokens Syn.extArgs source.toList = read at hparts
    subst hparts
    rfl
  · exact fun t ht => sliceOf_token (scan_eq_complete_iff.1 hscan) ht

/-- A text of which nothing is left without the blanks at its ends is blank. -/
theorem Text.isBlank_of_strip {cs : List Char} (h : Text.strip cs = []) : ∀ c ∈ cs, Text.isBlank c := by
  intro c hc
  rw [Text.strip, List.reverse_eq_nil_iff, List.dropWhile_eq_nil_iff] at h
  rw [← List.takeWhile_append_dropWhile (p := Text.isBlank) (l := cs)] at hc
  rcases List.mem_append.1 hc with hc | hc
  · exact List.mem_takeWhile_imp hc
  · exact h c (List.mem_reverse.2 hc)

/-- A blank text has no tokens, so nothing is lost by not looking at it. -/
theorem parseArgs_eq_parseSomeArgs (source : String) : parseArgs source = parseSomeArgs source := by
  unfold parseArgs
  split
  · rename_i hempty
    have hblank := Text.isBlank_of_strip (List.isEmpty_iff.1 hempty)
    have hlex : lex source = .ok [] := by
      rw [lex_eq_ok_iff, scan, ← List.append_nil source.toList, scanFrom_blanks _ _ _ hblank,
        scanFrom_nil]
    have hnothing : (ExtArgs.mk none none).Stands source.toList [] := by
      simp [ExtArgs.Stands]
    obtain ⟨args, hread, hstands⟩ := exists_parseSomeArgs hlex hnothing.derives
    rw [hread, hstands.unique hnothing]
  · rfl

/-- Tokens that are a sentence are read as the arguments that they write. -/
theorem exists_parseArgs {source : String} {ts : List Token} (hlex : lex source = .ok ts)
    (hderives : rust.Derives Syn.extArgs ts) :
    ∃ args, parseArgs source = .ok args ∧ args.Stands source.toList ts := by
  rw [parseArgs_eq_parseSomeArgs]
  exact exists_parseSomeArgs hlex hderives

/-- A text is read as arguments exactly if its tokens write them. -/
theorem parseArgs_eq_ok_iff {source : String} {args : ExtArgs} : parseArgs source = .ok args ↔
    ∃ ts, lex source = .ok ts ∧ args.Stands source.toList ts := by
  constructor
  · intro h
    have hparts : ∃ parts, readParts .tokens Syn.extArgs source.toList = .ok parts := by
      cases hparts : readParts .tokens Syn.extArgs source.toList with
      | ok parts => exact ⟨parts, rfl⟩
      | error f => simp [parseArgs_eq_parseSomeArgs, parseSomeArgs, hparts] at h
    obtain ⟨ts, hcuts, hderives⟩ := exists_readParts_iff_derives.1 hparts
    have hlex := lex_eq_ok_iff.2 (scan_eq_complete_iff.2 hcuts)
    obtain ⟨args', hread, hstands⟩ := exists_parseArgs hlex hderives
    obtain rfl := Except.ok.inj (h.symm.trans hread)
    exact ⟨ts, hlex, hstands⟩
  · rintro ⟨ts, hlex, hstands⟩
    obtain ⟨args', hread, hstands'⟩ := exists_parseArgs hlex hstands.derives
    rw [hread, hstands.unique hstands']

/-! ### Arguments written out -/

/-- Bricks that a visibility is written with: its tokens, the slice of its path, and a blank behind. -/
structure Visibility.Laid (src : List Char) (ts : List Token) (v : Visibility) (vs : List Token)
    (bs : List Brick) : Prop where
  text : textOf src bs = v.text.toList
  tokens : tokensOf bs = vs
  sits : ∀ b ∈ bs, b.Sits ts
  chain : bs.IsChain Brick.Meets
  last : bs.getLast? = some (.gap [' '])
  stands : ∀ (f : Token → Token) (src' : List Char), (∀ t, (f t).lexeme = t.lexeme) →
    Kept src src' f bs → v.Stands src' (vs.map f)

section

variable {src : List Char} {ts vs : List Token} (hcuts : Cuts 0 Loc.origin src ts [])

include hcuts

theorem Visibility.Stands.exists_laid {v : Visibility} (h : v.Stands src vs) (hvs : vs <:+: ts) :
    ∃ bs, v.Laid src ts vs bs := by
  have hlex : ∀ t ∈ vs, IsLexeme t.lexeme := fun t ht => isLexeme_of_mem hcuts (hvs.subset ht)
  have hsits : ∀ t ∈ vs, (Brick.tok t).Sits ts := hlex
  have hblank : (Brick.gap [' ']).Sits ts :=
    ⟨List.cons_ne_nil _ _, fun x hx => by rw [List.mem_singleton.1 hx]; rfl⟩
  have hword : ∀ t ∈ vs, ∀ s, (s, t.kind) ∈ Kind.keywords → t.text = s :=
    fun t ht _ hs => (hlex t ht).text_of_keyword hs
  have hsign : ∀ t ∈ vs, ∀ s, (t.kind, s) ∈ Kind.signs → t.text.toList = s :=
    fun t ht _ hs => (hlex t ht).text_of_sign hs
  cases h with
  | @pub p hp =>
    have hpub := hword p (by simp) "pub" (by rw [hp]; decide)
    refine ⟨[.tok p, .gap [' ']], ?_, rfl, ?_, ?_, rfl, fun f src' hf _ => ?_⟩
    · simp [Brick.text, hpub, Visibility.text]
    · simpa [hblank] using hsits p
    · simp [Brick.Meets, hp, Kind.isLineDoc]
    · exact .pub ((Prod.mk.inj (hf p)).1.trans hp)
  | @crate c hc =>
    have hcrate := hword c (by simp) "crate" (by rw [hc]; decide)
    refine ⟨[.tok c, .gap [' ']], ?_, rfl, ?_, ?_, rfl, fun f src' hf _ => ?_⟩
    · simp [Brick.text, hcrate, Visibility.text]
    · simpa [hblank] using hsits c
    · simp [Brick.Meets, hc, Kind.isLineDoc]
    · exact .crate ((Prod.mk.inj (hf c)).1.trans hc)
  | @word p l s r hp hl hs hr =>
    have hpub := hword p (by simp) "pub" (by rw [hp]; decide)
    have hopen := hsign l (by simp) ['('] (by rw [hl]; decide)
    have hclose := hsign r (by simp) [')'] (by rw [hr]; decide)
    refine ⟨[.tok p, .tok l, .tok s, .tok r, .gap [' ']], ?_, rfl, ?_, ?_, rfl, fun f src' hf _ => ?_⟩
    · simp [Brick.text, hpub, hopen, hclose, Visibility.text]
    · simpa [hblank] using hsits
    · have htouch : ∀ k ∈ Kind.scopes, Kind.lpar.touches k ∧ k.touches .rpar := by decide
      have hpl : Kind.kwPub.touches .lpar := by decide
      simp [Brick.Meets, hp, hl, hr, Kind.isLineDoc, htouch _ hs, hpl]
    · rw [← (Prod.mk.inj (hf s)).2]
      exact .word ((Prod.mk.inj (hf p)).1.trans hp) ((Prod.mk.inj (hf l)).1.trans hl)
        ((Prod.mk.inj (hf s)).1 ▸ hs) ((Prod.mk.inj (hf r)).1.trans hr)
  | @path p l i r us hp hl hi hus hr =>
    have hpub := hword p (by simp) "pub" (by rw [hp]; decide)
    have hopen := hsign l (by simp) ['('] (by rw [hl]; decide)
    have hin := hword i (by simp) "in" (by rw [hi]; decide)
    have hclose := hsign r (by simp) [')'] (by rw [hr]; decide)
    refine ⟨[.tok p, .tok l, .tok i, .gap [' '], .slice us, .tok r, .gap [' ']], ?_, ?_, ?_, ?_, rfl,
      fun f src' hf hkept => ?_⟩
    · simp [Brick.text, hpub, hopen, hin, hclose, Visibility.text]
    · simp [Brick.tokens]
    · have hpath : (Brick.slice us).Sits ts :=
        ⟨hus.ne_nil, List.IsInfix.trans ⟨[p, l, i], [r], by simp⟩ hvs⟩
      simpa [hblank, hpath] using
        ⟨hsits p (by simp), hsits l (by simp), hsits i (by simp), hsits r (by simp)⟩
    · have htouch : Kind.kwPub.touches .lpar ∧ Kind.lpar.touches .kwIn := by decide
      simpa [Brick.Meets, hp, hl, hi, hr, Kind.isLineDoc, htouch] using hus.abuts
    · have hkinds : (us.map f).map Token.kind = us.map Token.kind := by
        rw [List.map_map]
        exact List.map_congr_left fun t _ => (Prod.mk.inj (hf t)).1
      have hslice := hkept.slice (u := us) (by simp)
      rw [← hslice]
      simpa using .path ((Prod.mk.inj (hf p)).1.trans hp) ((Prod.mk.inj (hf l)).1.trans hl)
        ((Prod.mk.inj (hf i)).1.trans hi) (hkinds ▸ hus) ((Prod.mk.inj (hf r)).1.trans hr)

/-- Arguments are written with their tokens, which write the same arguments in the new text. -/
theorem ExtArgs.Stands.exists_bricks {args : ExtArgs} (h : args.Stands src ts) :
    ∃ bs, textOf src bs = args.text.toList ∧ tokensOf bs = ts ∧ (∀ b ∈ bs, b.Sits ts) ∧
      bs.IsChain Brick.Meets ∧ ∀ (f : Token → Token) (src' : List Char),
        (∀ t, (f t).lexeme = t.lexeme) → Kept src src' f bs → args.Stands src' (ts.map f) := by
  obtain ⟨vis, name⟩ := args
  obtain ⟨vs, ns, rfl, hvs, hns⟩ := h
  have hvis : ∃ bs, textOf src bs = ((vis.map Visibility.text).getD "").toList ∧ tokensOf bs = vs ∧
      (∀ b ∈ bs, b.Sits (vs ++ ns)) ∧ bs.IsChain Brick.Meets ∧
      (∀ b ∈ bs.getLast?, b = .gap [' ']) ∧
      ∀ (f : Token → Token) (src' : List Char), (∀ t, (f t).lexeme = t.lexeme) →
        Kept src src' f bs → vis.elim (vs.map f = []) (·.Stands src' (vs.map f)) := by
    cases vis with
    | none =>
      obtain rfl : vs = [] := hvs
      exact ⟨[], rfl, rfl, by simp, .nil, by simp, fun _ _ _ _ => rfl⟩
    | some v =>
      obtain ⟨bs, hbs⟩ := Visibility.Stands.exists_laid hcuts hvs ⟨[], ns, rfl⟩
      exact ⟨bs, hbs.text, hbs.tokens, hbs.sits, hbs.chain, by simp [hbs.last], hbs.stands⟩
  obtain ⟨bs, htext, htokens, hsits, hchain, hlast, hstands⟩ := hvis
  cases name with
  | none =>
    obtain rfl : ns = [] := hns
    refine ⟨bs, by simpa [ExtArgs.text] using htext, by simpa using htokens, hsits, hchain,
      fun f src' hf hkept => ⟨vs.map f, [], by simp, hstands f src' hf hkept, rfl⟩⟩
  | some n =>
    obtain ⟨t, rfl, ht, rfl⟩ := hns
    refine ⟨bs ++ [Brick.tok t], ?_, by simp [htokens, Brick.tokens], ?_, ?_, fun f src' hf hkept => ?_⟩
    · simp [htext, ExtArgs.text, Brick.text]
    · refine List.forall_mem_append.2 ⟨hsits, List.forall_mem_singleton.2 ?_⟩
      exact isLexeme_of_mem hcuts (by simp)
    · refine List.isChain_append.2 ⟨hchain, .singleton _, fun b hb c _ => ?_⟩
      rw [hlast b hb]
      trivial
    · obtain ⟨hkind, htext⟩ := Prod.mk.inj (hf t)
      exact ⟨vs.map f, [f t], by simp, hstands f src' hf (hkept.mono (List.subset_append_left ..)),
        f t, rfl, hkind.trans ht, htext⟩

end

/-- Arguments that were read are read again from the text that they are written as. -/
theorem parseArgs_text {source : String} {args : ExtArgs} (h : parseArgs source = .ok args) :
    parseArgs args.text = .ok args := by
  obtain ⟨ts, hlex, hstands⟩ := parseArgs_eq_ok_iff.1 h
  have hscan := lex_eq_ok_iff.1 hlex
  have hcuts := scan_eq_complete_iff.1 hscan
  obtain ⟨bs, htext, htokens, hsits, hchain, hagain⟩ := hstands.exists_bricks hcuts
  obtain ⟨us, hus, hlays⟩ := exists_lays hcuts [] Loc.origin hsits hchain (by rw [htokens])
  have hnodup : ts.Nodup := by
    have horder := scan_inOrder source.toList
    rw [hscan] at horder
    exact horder.nodup
  obtain ⟨f, hf, hlexeme⟩ := exists_renaming hnodup (htokens ▸ hlays.lexemes)
  rw [List.nil_append, htext] at hlays
  rw [htext] at hus
  refine parseArgs_eq_ok_iff.2 ⟨us, lex_eq_ok_iff.2 hus, ?_⟩
  rw [← hf]
  exact hagain f _ hlexeme (hlays.kept (by rw [htokens, hf]))

/-- Arguments are read from the texts that are a visibility and a name, of which both may be missing.
Any other text is refused as a whole, and what was read is read again from the text it is written as. -/
theorem parseArgs_decided (source : String) :
    (∀ args, parseArgs source = .ok args ↔
      ∃ ts, lex source = .ok ts ∧ args.Stands source.toList ts) ∧
    ((∃ args, parseArgs source = .ok args) ∨ ∃ loc, parseArgs source =
      .error (.badArguments (String.ofList (Text.strip source.toList)) loc)) ∧
    ∀ args, parseArgs source = .ok args → parseArgs args.text = .ok args := by
  refine ⟨fun args => parseArgs_eq_ok_iff, ?_, fun args => parseArgs_text⟩
  rw [parseArgs_eq_parseSomeArgs, parseSomeArgs]
  cases readParts .tokens Syn.extArgs source.toList with
  | ok parts => exact Or.inl ⟨_, rfl⟩
  | error f => exact Or.inr ⟨f.loc?, rfl⟩

end TraitLift
