import Mathlib.Tactic
import TraitLift.Proofs.Expand.Fragment
import TraitLift.Proofs.Expand.Splice
import TraitLift.Proofs.Lift.Relocate
import TraitLift.Proofs.Reading.Relocate

/-!
A marked block is expanded as the block without its mark would be, read by itself. The two texts have
the same tokens at different places, and no part of the block but the block as a whole goes across
the gap that the mark leaves (`exists_split_of_parses`). So what is made of the one is what is made of
the other, up to places.
-/

namespace TraitLift

open TraitLift.Grammar

/-! ### Attributes in a derivation -/

theorem isAttr_of_derives {v : List Token} (h : rust.Derives (ruleBody .outerAttr) v) : IsAttr v := by
  cases h with
  | altLeft h =>
    obtain ⟨_, _, rfl, hpound, htree⟩ := derives_seq_iff.1 h
    obtain ⟨t, rfl, ht⟩ := derives_k_iff.1 hpound
    obtain ⟨_, _, rfl, hopen, htree⟩ := derives_seq_iff.1 (derives_use_iff.1 htree)
    obtain ⟨x, _, rfl, hx, hclose⟩ := derives_seq_iff.1 htree
    obtain ⟨b, rfl, hb⟩ := derives_k_iff.1 hopen
    obtain ⟨b', rfl, hb'⟩ := derives_k_iff.1 hclose
    exact .bracket ht hb (group?_of_inner (o := .lsqb) rfl (by decide +kernel) hb hx hb' [])
  | altRight h =>
    cases h with
    | altLeft h =>
      obtain ⟨t, rfl, ht⟩ := derives_k_iff.1 h
      exact .doc (Or.inl ht)
    | altRight h =>
      obtain ⟨t, rfl, ht⟩ := derives_k_iff.1 h
      exact .doc (Or.inr ht)

/-- What is left of a block before and between its attributes. -/
def attrsThenRest : List Syn := [Syn.attrs, Expr.all [Expr.opt (Syn.use .marker),
  Expr.opt (Syn.k .kwUnsafe), Syn.k .kwImpl, Expr.opt (Syn.use .generics),
  Expr.any [Syn.use .inherentTarget, Syn.use .traitTarget], Expr.opt (Syn.use .whereClause),
  Syn.use .implBody]]

/-- A step of a block reads an attribute and is before the next one, or it reads a marker or a
keyword. -/
theorem attrsThenRest_steps {symbol : Grammar.Symbol TokenClass Rule} {rest : List Syn}
    (h : (symbol, rest) ∈ stepsRest attrsThenRest) :
    symbol = .rule .outerAttr ∧ rest = attrsThenRest ∨ symbol = .rule .marker ∨
      symbol = .tok (.one .kwUnsafe) ∨ symbol = .tok (.one .kwImpl) := by
  have hall : ∀ step ∈ stepsRest attrsThenRest,
      step.1 = .rule .outerAttr ∧ step.2 = attrsThenRest ∨ step.1 = .rule .marker ∨
        step.1 = .tok (.one .kwUnsafe) ∨ step.1 = .tok (.one .kwImpl) := by
    decide
  exact hall (symbol, rest) h

theorem IsAttr.head {v : List Token} (h : IsAttr v) : ∃ t ts, v = t :: ts ∧
    t.kind ∈ [Kind.pound, .outerDoc, .outerBlockDoc] := by
  cases h with
  | doc h => exact ⟨_, _, rfl, by rcases h with h | h <;> simp [h]⟩
  | bracket ht => exact ⟨_, _, rfl, by simp [ht]⟩

/-- The trees of a block are divided where the scanner divides its tokens. -/
theorem exists_split_of_parses {us ws : List Token} (hrow : AttrRow us) :
    ∀ {cs : List (Grammar.Tree Token Rule)}, rust.Parses attrsThenRest cs →
    leavesOf cs = us ++ ws → ∃ cs₁ cs₂, cs = cs₁ ++ cs₂ ∧ leavesOf cs₁ = us ∧
      leavesOf cs₂ = ws := by
  induction hrow with
  | nil => exact fun {cs} _ hleaves => ⟨[], cs, rfl, rfl, hleaves⟩
  | @cons v us hv _ ih =>
    intro cs hparses hleaves
    obtain ⟨t, ts, hts, hkind⟩ := hv.head
    rw [List.append_assoc] at hleaves
    cases hparses with
    | done =>
      rw [hts] at hleaves
      simp [leavesOf] at hleaves
    | @leaf _ _ c t' ps hstep haccepts _ =>
      rw [hts] at hleaves
      obtain rfl : t' = t := (List.cons.inj hleaves).1
      rcases attrsThenRest_steps hstep with ⟨h, -⟩ | h | h | h
      · simp at h
      · simp at h
      all_goals
        obtain rfl := Grammar.Symbol.tok.inj h
        have hk := beq_iff_eq.1 haccepts
        simp [← hk] at hkind
    | @node _ m r cs' ps hstep hcs hps =>
      rw [leavesOf, Grammar.Tree.leaves] at hleaves
      have hderives := derives_iff_reads.2 hcs.reads
      rcases attrsThenRest_steps hstep with ⟨h, rfl⟩ | h | h | h
      · obtain rfl := Grammar.Symbol.rule.inj h
        obtain ⟨hleaf, hrest⟩ := (isAttr_of_derives hderives).append_inj hv hleaves
        obtain ⟨cs₁, cs₂, rfl, h₁, h₂⟩ := ih hps hrest
        refine ⟨.node .outerAttr cs' :: cs₁, cs₂, rfl, ?_, h₂⟩
        rw [leavesOf, Grammar.Tree.leaves, hleaf, h₁]
      · obtain rfl := Grammar.Symbol.rule.inj h
        obtain ⟨t', ht', hname⟩ := derives_k_iff.1 hderives
        rw [ht', hts] at hleaves
        obtain rfl : t' = t := (List.cons.inj hleaves).1
        simp [hname] at hkind
      · simp at h
      · simp at h

/-- The parts of a block can be moved if its attributes can, and all behind them can. -/
theorem movable_of_attrRow {ρ : Relocation} {source source' : List Char} {us ws : List Token}
    (hrow : AttrRow us) (hus : ρ.Keeps source source' us) (hws : ρ.Keeps source source' ws)
    {trees : List (Grammar.Tree Token Rule)}
    (hread : rust.read (Syn.use .implBlock) (us ++ ws) = .sentence trees) :
    ∀ t ∈ trees, Reading.Movable ρ source source' t := by
  have hholds := read_holds rust_proper rust_ranked (Syn.use .implBlock) (us ++ ws)
  rw [hread] at hholds
  obtain ⟨hparses, hleaves⟩ := hholds
  obtain ⟨cs, rfl, hcs⟩ := hparses.of_rule
  rw [leavesOf, Grammar.Tree.leaves, leavesOf, List.append_nil] at hleaves
  obtain ⟨cs₁, cs₂, rfl, h₁, h₂⟩ := exists_split_of_parses hrow hcs.of_seq hleaves
  intro t ht
  obtain rfl := List.mem_singleton.1 ht
  refine .node (hcs.reads.ne_nil_of_body rust_solid) (fun h => absurd rfl h) fun c hc => ?_
  refine Reading.movable_of_parses hcs c hc ?_
  rcases List.mem_append.1 hc with hc | hc
  · exact hus.mono (h₁ ▸ leaves_subset_leavesOf hc)
  · exact hws.mono (h₂ ▸ leaves_subset_leavesOf hc)

/-! ### The two texts of a block -/

/-- What is made of the block with its mark left out of the text, with the arguments `args`. -/
def Site.liftedItem (s : Site) (source : List Char) (args : ExtArgs) (c : Config) :
    Result Expansion := do
  (← ofFault (parseBlock (String.ofList (s.item source)))).expand args c

/-- Tokens of a text take the places of other tokens with the same kinds and texts. -/
theorem exists_relocation {as bs : List Token} (hlexemes : as.map Token.lexeme = bs.map Token.lexeme)
    (hnodup : (as.map Token.loc).Nodup) : ∃ ρ : Relocation, as.map ρ.token = bs := by
  -- no two tokens stand at the same place, so the place tells which token is meant
  let partner (l : Loc) : Token := bs.getD ((as.map Token.loc).idxOf l) default
  refine ⟨⟨fun t => { partner t.loc with kind := t.kind, text := t.text },
    fun l => (partner l).loc, fun _ => rfl, fun _ => rfl, fun _ => rfl⟩, ?_⟩
  have hlength : as.length = bs.length := by simpa using congrArg List.length hlexemes
  refine List.ext_getElem (by simpa using hlength) fun i hi hi' => ?_
  have hia : i < as.length := by simpa using hi
  have hindex : (as.map Token.loc).idxOf (as[i]).loc = i := by
    have := hnodup.idxOf_getElem i (by simpa using hia)
    rwa [List.getElem_map] at this
  have hpartner : partner (as[i]).loc = bs[i] := by
    simp only [partner, hindex, List.getD_eq_getElem?_getD, List.getElem?_eq_getElem hi',
      Option.getD_some]
  have hlexeme : (as[i]).lexeme = (bs[i]).lexeme := by
    have := congrArg (·[i]?) hlexemes
    simpa [hia, hi'] using this
  obtain ⟨hkind, htext⟩ := Prod.mk.inj hlexeme
  simp only [List.getElem_map, hpartner, hkind, htext]

namespace Site.Parting

variable {s : Site} {c : Config} {source : List Char} {ts : List Token} (p : s.Parting c source ts)

theorem fragment_eq : s.fragment source = p.attrsText ++ (blankOut p.markText ++ p.restText) := by
  rw [Site.fragment, p.between_attrs, p.between_mark, p.between_rest, List.append_assoc]

theorem item_eq : s.item source = p.attrsText ++ p.restText := by
  rw [Site.item, p.between_attrs, p.between_rest]

/-- The tokens of the two texts. -/
theorem exists_item_relocation : ∃ ρ : Relocation,
    scan (s.item source) = ⟨(p.attrs ++ p.rest).map ρ.token, none⟩ ∧
      ρ.Keeps (s.fragment source) (s.item source) p.attrs ∧
      ρ.Keeps (s.fragment source) (s.item source) p.rest := by
  obtain ⟨vs, hvs, hrest⟩ := p.exists_restTokens
  have hitem := p.scan_item hvs
  have hplaces := scan_places (s.fragment source)
  rw [p.scan_fragment] at hplaces
  obtain ⟨ρ, hρ⟩ : ∃ ρ : Relocation, (p.attrs ++ p.rest).map ρ.token =
      p.attrs ++ vs.map (Token.moved p.attrsText.length (Loc.origin.after p.attrsText)) := by
    refine exists_relocation ?_ (List.pairwise_map.2 (hplaces.imp fun h => h.ne))
    simp [hrest, Function.comp_def, Token.lexeme]
  rw [List.map_append] at hρ
  obtain ⟨hattrs, hmoved⟩ := List.append_inj hρ (by simp)
  refine ⟨ρ, by rw [hitem, List.map_append, hρ], ?_, ?_⟩
  · intro a ha b hb
    have hfixed : ∀ t ∈ p.attrs, ρ.token t = t :=
      List.map_inj_left.1 (hattrs.trans (List.map_id _).symm)
    have hstop := (p.attrs_cuts.inOrder_front.mem_bounds hb).2.2
    rw [hfixed a ha, hfixed b hb, p.fragment_eq, p.item_eq]
    exact (between_append_left (by simpa using hstop)).trans
      (between_append_left (by simpa using hstop)).symm
  · intro a ha b hb
    rw [hrest, List.map_map, List.map_inj_left] at hmoved
    simp only [Function.comp_apply] at hmoved
    rw [hrest] at ha hb
    obtain ⟨a, hav, rfl⟩ := List.mem_map.1 ha
    obtain ⟨b, hbv, rfl⟩ := List.mem_map.1 hb
    have hblank : p.attrsText.length + p.markText.length =
        (p.attrsText ++ blankOut p.markText).length := by simp [blankOut]
    rw [hmoved a hav, hmoved b hbv, p.fragment_eq, p.item_eq, ← List.append_assoc]
    simp only [Token.moved_start, Token.moved_stop, hblank]
    exact (between_append_right ..).trans (between_append_right ..).symm

include p

/-- The block without its mark is the block with its mark blanked out, at other places. -/
theorem exists_parseBlock_item : ∃ g : Loc → Loc,
    parseBlock (String.ofList (s.item source)) =
      relocated g (ImplBlock.relocate g (some (String.ofList (s.item source))))
        (parseBlock (String.ofList (s.fragment source))) := by
  obtain ⟨ρ, hscan, hattrs, hrest⟩ := p.exists_item_relocation
  have hrow : AttrRow p.attrs := p.laid.row.of_map (Token.moved_kind _ _)
  exact ⟨ρ.place, parseBlock_relocate p.scan_fragment hscan fun _ hread =>
    movable_of_attrRow hrow hattrs hrest hread⟩

theorem tokenText_fragment : tokenText (String.ofList (s.fragment source)) =
    .ok (" ".intercalate ((p.attrs ++ p.rest).map Token.text)) :=
  tokenText_of_scan p.scan_fragment

theorem tokenText_item : tokenText (String.ofList (s.item source)) =
    .ok (" ".intercalate ((p.attrs ++ p.rest).map Token.text)) := by
  obtain ⟨ρ, hscan, -, -⟩ := p.exists_item_relocation
  rw [tokenText_of_scan hscan, List.map_map]
  simp only [Function.comp_def, Relocation.text]

/-- What is made of the block without its mark is what is made of the marked one, at other places. -/
theorem exists_lifted_item (args : ExtArgs) : ∃ g : Loc → Loc,
    s.liftedItem source args c =
      relocatedResult g (Expansion.relocate g (some (String.ofList (s.item source))))
        (s.lifted source args c) := by
  obtain ⟨g, hg⟩ := p.exists_parseBlock_item
  refine ⟨g, ?_⟩
  rw [Site.liftedItem, hg, Site.lifted, Site.block]
  cases hb : parseBlock (String.ofList (s.fragment source)) with
  | error f => rfl
  | ok b =>
    exact b.expand_relocate g (parseBlock_source p.scan_fragment hb) p.tokenText_fragment
      p.tokenText_item args c

/-- The name of the trait depends on the texts of the tokens alone. -/
theorem lifted_name {args : ExtArgs} {e : Expansion} (h : s.lifted source args c = .ok e) :
    e.name = TraitName.ofTokens args (" ".intercalate ((p.attrs ++ p.rest).map Token.text)) c := by
  rw [Site.lifted, Site.block] at h
  cases hb : parseBlock (String.ofList (s.fragment source)) with
  | error f => simp [hb, ofFault, bind, Except.bind] at h
  | ok b =>
    rw [hb] at h
    obtain ⟨-, name, decls, impl, hname, -, -, rfl⟩ := ImplBlock.expand_eq_ok_iff.1 h
    rw [TraitName.resolve_eq (parseBlock_source p.scan_fragment hb) p.tokenText_fragment] at hname
    exact (Except.ok.inj hname).symm

end Site.Parting

/-! ### Marked blocks and blocks without marks -/

/-- The two outcomes are the same up to places: the same declaration and implementation, with the
text in which they are written, or the same failure, reported at its place in the file. -/
inductive Site.Agrees (s : Site) (file : Option String) :
    Except Diagnostic (Expansion × String) → Result Expansion → Prop where
  | made {e e' : Expansion} {text : String} : e.unplaced = e'.unplaced → e'.render = .ok text →
      Site.Agrees s file (.ok (e, text)) (.ok e')
  | failed {f f' : Failure} : f.unplaced = f'.unplaced →
      Site.Agrees s file
        (.error (f.toDiagnostic.rebase s.first.loc.line s.first.loc.column file)) (.error f')

/-- A marked block of a text with the tokens `ts` is read and lifted as the block without its mark
is. -/
structure Site.Unmarked (s : Site) (source : String) (file : Option String) (c : Config)
    (ts : List Token) : Prop where
  /-- The text that is read has the tokens of the block without those of the mark, each as far behind
  the start of that text as it is behind the start of the block. -/
  tokens : ∃ fs, lex (String.ofList (s.fragment source.toList)) = .ok fs ∧
    fs.map (Token.moved s.first.start s.first.loc) = s.tokens ts
  /-- If the arguments of the mark are good, the outcome is that of the block without the mark. -/
  outcome : ∀ args, s.args file = .ok args →
    s.Agrees file (s.expand source.toList file c) (s.liftedItem source.toList args c)
  /-- A name that is made up is made of the texts of those tokens. -/
  name : ∀ e text, s.expand source.toList file c = .ok (e, text) → e.name.derived = true →
    e.name.ident = c.namePrefix ++ toString
      (c.fingerprint (" ".intercalate ((s.tokens ts).map Token.text)).toUTF8.toList).toNat

/-- Every marked block is expanded as the block without its mark would be. -/
theorem site_unmarked {source : String} {ts : List Token} (hlex : lex source = .ok ts)
    (file : Option String) {c : Config} {s : Site} (hs : s ∈ sitesOf source.toList c ts) :
    s.Unmarked source file c ts := by
  have hscan := lex_eq_ok_iff.1 hlex
  have horder := scan_inOrder source.toList
  rw [hscan] at horder
  obtain ⟨p⟩ := exists_parting hscan hs
  have htokens := p.tokens_map horder
  refine ⟨⟨p.attrs ++ p.rest, ?_, htokens.symm⟩, fun args hargs => ?_, fun e text he hderived => ?_⟩
  · rw [lex_eq_ok_iff, String.toList_ofList]
    exact p.scan_fragment
  · obtain ⟨g, hg⟩ := p.exists_lifted_item args
    rw [hg]
    rcases Site.expand_of_args source.toList c hargs with
      ⟨e, text, hlifted, htext, he⟩ | ⟨f, hlifted, hf⟩
    · rw [hlifted, he]
      exact .made (e.unplaced_relocate g _).symm (by rw [e.render_relocate, htext])
    · rw [hlifted, hf]
      exact .failed (f := .fault f) (Failure.unplaced_relocate g _).symm
  · obtain ⟨args, hlifted⟩ := Site.exists_lifted_of_expand he
    rw [p.lifted_name hlifted] at hderived ⊢
    rw [TraitName.ofTokens_ident hderived, htokens, List.map_map]
    simp only [Function.comp_def, Token.moved_text]

/-- A mark on two lines between other attributes, and text in front of the block. -/
theorem site_unmarked_between_attrs :
    let source := "use a; #[b] #[ext(\npub)] /// c\nimpl A { fn d(&self) {} }"
    ∃ ts, lex source = .ok ts ∧ ∃ s ∈ sitesOf source.toList Config.default ts,
      s.Unmarked source none Config.default ts := by
  intro source
  obtain ⟨hscan, hsites⟩ : scan source.toList = ⟨(scan source.toList).tokens, none⟩ ∧
      sitesOf source.toList Config.default (scan source.toList).tokens ≠ [] := by
    decide +kernel
  have hlex := lex_eq_ok_iff.2 hscan
  obtain ⟨s, hs⟩ := List.exists_mem_of_ne_nil _ hsites
  exact ⟨_, hlex, s, hs, site_unmarked hlex none hs⟩

end TraitLift
