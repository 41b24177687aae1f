import Mathlib.Tactic
import TraitLift.Proofs.Grammar.Shed
import TraitLift.Proofs.Reading.Trim
import TraitLift.Proofs.Print.Slice
import TraitLift.Proofs.Print.Reread
import TraitLift.Proofs.Parse.Sentence
import TraitLift.Proofs.Reading.Writable

/-!
A type that is read is read again from the text that it is written as (`parseType_render`). The text
is the bricks of the tree of the type without its optional tokens; cut into tokens again, these are
the leaves of a neat tree, which is the one that reading gives. So no other tokens are lost, except
attributes at the parameters of function pointers (`parseType_render_tokens`).
-/

namespace TraitLift

open TraitLift.Grammar

/-! ### Trees of types -/

theorem parseType_eq_ok_iff {source : String} {t : TypeExpr} : parseType source = .ok t ↔
    ∃ c, scan source.toList = ⟨c.leaves, none⟩ ∧
      (Grammar.Symbol.rule .type).HasTree rust c ∧ Neat c ∧
      (Reading.phrase source.toList c).meaning = .type t := by
  have hsingle : ∀ {c : Syntax}, (Grammar.Symbol.rule .type).HasTree rust c →
      ((Reading.phrase source.toList c).meaning = .type t ↔
        Parts.type [Reading.phrase source.toList c] = t) := by
    rintro _ ⟨cs, rfl, -⟩
    obtain ⟨ty, hty⟩ := Reading.exists_type source.toList (r := .type) (by decide)
      (cs.map (Reading.phrase source.toList))
    rw [Reading.phrase_node, hty]
    exact ⟨fun h => by injection h, fun h => congrArg Meaning.type h⟩
  unfold parseType
  constructor
  · intro h
    cases hparts : readParts .type (Syn.use .type) source.toList with
    | error e => simp [hparts, Except.map] at h
    | ok ps =>
      obtain ⟨hstuck, trees, hread⟩ := exists_readParts_eq_ok_iff.1 ⟨ps, hparts⟩
      obtain ⟨c, rfl, hc, hneat, hleaves⟩ := read_neat (by decide) hread
      refine ⟨c, by rw [hleaves, ← hstuck], hc, hneat, (hsingle hc).2 ?_⟩
      simp only [readParts, hread, hstuck, Except.map] at h
      simpa using h
  · rintro ⟨c, hscan, hc, hneat, hmeaning⟩
    have hread := read_leaves (by decide) (by decide) hc hneat
    simp [readParts, hscan, hread, Except.map, (hsingle hc).1 hmeaning]

/-! ### The written text -/

/-- No length of an array in the type that a text is read as ends with a doc comment that goes on to
the end of the line. -/
def PlainLengths (source : List Char) : Prop :=
  ∀ c, rust.read (Syn.use .type) (scan source).tokens = .sentence [c] →
    ∀ us ∈ lengths c, ∀ t ∈ us.getLast?, t.kind.isLineDoc = false

theorem plainLengths_of_forall {source : List Char}
    (h : ∀ t ∈ (scan source).tokens, t.kind.isLineDoc = false) : PlainLengths source := by
  intro c hread us hus t ht
  obtain ⟨d, hd, -, -, hleaves⟩ := read_neat (by decide) hread
  obtain rfl := (List.cons.inj hd).1
  exact h t (hleaves ▸ subset_leaves_of_mem hus (List.mem_of_mem_getLast? ht))

/-- No parameter of a function pointer in the type that a text is read as has attributes. -/
def PlainParams (source : List Char) : Prop :=
  ∀ c, rust.read (Syn.use .type) (scan source).tokens = .sentence [c] → adorned c = false

theorem plainParams_of_forall {source : List Char}
    (h : ∀ t ∈ (scan source).tokens, t.kind ∉ Rule.outerAttr.starters) : PlainParams source := by
  intro c hread
  obtain ⟨d, hd, htree, -, hleaves⟩ := read_neat (by decide) hread
  obtain rfl := (List.cons.inj hd).1
  refine Bool.eq_false_iff.2 fun hadorned => ?_
  obtain ⟨t, ht, hkind⟩ := exists_of_adorned htree hadorned
  exact h t (hleaves ▸ ht) hkind

/-- The tree of a text, and what is written from it: the bricks of the tree without its optional
tokens, cut into tokens again. -/
structure Rendered (source text : String) (t : TypeExpr) (c : Syntax) : Prop where
  scanned : scan source.toList = ⟨c.leaves, none⟩
  hasTree : (Grammar.Symbol.rule .type).HasTree rust c
  neat : Neat c
  meaning : (Reading.phrase source.toList c).meaning = .type t
  written : t.doc.text = .ok text
  lays : ∃ us, scan text.toList = ⟨us, none⟩ ∧ Lays source.toList text.toList (wall (trim c)) us

theorem sits_wall {ts : List Token} {c : Syntax} (hlex : ∀ t ∈ ts, IsLexeme t.lexeme)
    (hc : (Grammar.Symbol.rule .type).HasTree rust c) (hleaves : c.leaves = ts) :
    ∀ b ∈ wall (trim c), b.Sits ts := by
  intro b hb
  cases b with
  | gap g =>
    obtain rfl := gap_of_mem_wall hb
    exact ⟨List.cons_ne_nil _ _, fun x hx => by rw [List.mem_singleton.1 hx]; rfl⟩
  | tok t =>
    have hmem : t ∈ (trim c).leaves := by
      rw [← tokensOf_wall]
      exact List.mem_flatMap.2 ⟨_, hb, List.mem_singleton.2 rfl⟩
    exact hlex t (hleaves ▸ (leaves_trim c).subset hmem)
  | slice us =>
    have hquotes := slice_of_trim (r := .type) (by decide) hc hb
    exact ⟨hquotes.ne_nil, hleaves ▸ hquotes.isInfix⟩

theorem isVoid_type {c : Syntax} (hc : (Grammar.Symbol.rule .type).HasTree rust c) : isVoid c = false := by
  obtain ⟨cs, rfl, -⟩ := hc
  rfl

theorem exists_rendered {source : String} {t : TypeExpr} (h : parseType source = .ok t)
    (hplain : PlainLengths source.toList) : ∃ text c, Rendered source text t c := by
  obtain ⟨c, hscan, hc, hneat, hmeaning⟩ := parseType_eq_ok_iff.1 h
  have hcuts := scan_eq_complete_iff.1 hscan
  have htrim := hasTree_trim hc
  have hterse := terse_trim hc (isVoid_type htrim)
  have hends : SlicesEnd (wall (trim c)) := by
    intro us hus u hu
    rcases (slice_of_trim (r := .type) (by decide) hc hus).ends with hmem | hline
    · refine hplain c ?_ us hmem u hu
      rw [hscan]
      exact read_leaves (by decide) (by decide) hc hneat
    · exact hline u hu
  obtain ⟨us, hus, hlays⟩ := exists_lays hcuts [] Loc.origin
    (sits_wall (fun t ht => isLexeme_of_mem hcuts ht) hc rfl)
    (isChain_wall (r := .type) (by decide) htrim hterse hends)
    (by rw [tokensOf_wall]; exact leaves_trim c)
  have hchars : t.doc.chars = textOf source.toList (wall (trim c)) := by
    have hwall : (Reading.phrase source.toList (trim c)).meaning.doc.chars =
        textOf source.toList (wall (trim c) ++ margin .type) :=
      Reading.chars_wall (by decide) htrim hterse fun t ht =>
        ⟨isLexeme_of_mem hcuts ((leaves_trim c).subset ht),
          sliceOf_token hcuts ((leaves_trim c).subset ht)⟩
    rw [Reading.meaning_trim hc, hmeaning] at hwall
    rw [show t.doc = (Meaning.type t).doc from rfl, hwall, show margin .type = [] from rfl,
      List.append_nil]
  refine ⟨_, c, hscan, hc, hneat, hmeaning, Doc.Writable.text_eq ?_, us, ?_, ?_⟩
  · have := TraitLift.Reading.phrase_writable source.toList c
    rwa [hmeaning] at this
  · rw [hchars, String.toList_ofList]
    exact hus
  · rw [hchars, String.toList_ofList]
    exact hlays

theorem Rendered.parseType {source text : String} {t : TypeExpr} {c : Syntax}
    (h : Rendered source text t c) : parseType text = .ok t := by
  have hcuts := scan_eq_complete_iff.1 h.scanned
  have htrim := hasTree_trim h.hasTree
  have hterse := terse_trim h.hasTree (isVoid_type htrim)
  obtain ⟨us, hscan, hlays⟩ := h.lays
  have hnodup : (trim c).leaves.Nodup := by
    have horder := scan_inOrder source.toList
    rw [h.scanned] at horder
    exact (leaves_trim c).nodup horder.nodup
  have hlexemes := hlays.lexemes
  rw [tokensOf_wall] at hlexemes
  obtain ⟨f, rfl, hf⟩ := exists_renaming hnodup hlexemes
  have hkept := hlays.kept (f := f) (by rw [tokensOf_wall])
  have hread := read_map (G := rust) (f := f)
    (fun x u => congrArg x.has (Prod.mk.inj (hf u)).1) (Syn.use .type) (trim c).leaves
  rw [read_leaves (by decide) (by decide) htrim (neat_trim h.hasTree h.neat)] at hread
  obtain ⟨d, hd, hdtree, hdneat, hdleaves⟩ := read_neat (by decide) hread
  obtain rfl : (trim c).map f = d := by simpa using hd
  refine parseType_eq_ok_iff.2 ⟨_, ?_, hdtree, hdneat, ?_⟩
  · rw [hscan, hdleaves]
  · rw [Reading.meaning_rename (r := .type) (by decide) hf htrim hterse (fun u hu => ?_) hkept,
      Reading.meaning_trim h.hasTree, h.meaning]
    have hmem := (leaves_trim c).subset hu
    exact ⟨isLexeme_of_mem hcuts hmem, sliceOf_token hcuts hmem⟩

/-- A type that is read from a text is read from the text that it is written as, if no length of an
array in it ends with a doc comment that goes on to the end of the line. So different types that are
read are written differently. -/
theorem parseType_render {source : String} {t : TypeExpr} (h : parseType source = .ok t)
    (hplain : PlainLengths source.toList) :
    (∃ text, t.doc.text = .ok text ∧ parseType text = .ok t) ∧
      ∀ source' t', parseType source' = .ok t' → PlainLengths source'.toList →
        t'.doc.text = t.doc.text → t' = t := by
  obtain ⟨text, c, hrendered⟩ := exists_rendered h hplain
  refine ⟨⟨text, hrendered.written, hrendered.parseType⟩, fun source' t' h' hplain' heq => ?_⟩
  obtain ⟨text', c', hrendered'⟩ := exists_rendered h' hplain'
  obtain rfl : text' = text := by
    have hsame := hrendered'.written.symm.trans (heq.trans hrendered.written)
    injection hsame
  have hsame := hrendered'.parseType.symm.trans hrendered.parseType
  injection hsame

theorem parseType_render_array : ∃ t, parseType "[(&'a  B<dyn T+>,); /* n */ N+1]" = .ok t ∧
    t.doc.text = .ok "[(&'a B<dyn T>,); N+1]" ∧ parseType "[(&'a B<dyn T>,); N+1]" = .ok t := by
  obtain ⟨hread, hdocs⟩ :
      (parseType "[(&'a  B<dyn T+>,); /* n */ N+1]").toOption.map (·.doc.text.toOption) =
        some (some "[(&'a B<dyn T>,); N+1]") ∧
      ∀ t ∈ (scan "[(&'a  B<dyn T+>,); /* n */ N+1]".toList).tokens, t.kind.isLineDoc = false := by
    decide +kernel
  obtain ⟨t, ht, htext⟩ := Option.map_eq_some_iff.1 hread
  have ht := ok_of_toOption ht
  have htext := ok_of_toOption htext
  obtain ⟨⟨text, hwritten, hagain⟩, -⟩ := parseType_render ht (plainLengths_of_forall hdocs)
  obtain rfl : text = "[(&'a B<dyn T>,); N+1]" := by
    have hsame := hwritten.symm.trans htext
    injection hsame
  exact ⟨t, ht, htext, hagain⟩

/-- The tokens of a type as it is written are those that it was read from, without some that it can do
without, if no attribute stands at a parameter of a function pointer. -/
theorem parseType_render_tokens {source : String} {t : TypeExpr} (h : parseType source = .ok t)
    (hplain : PlainLengths source.toList) (hbare : PlainParams source.toList) :
    ∃ c text us vs, rust.read (Syn.use .type) (scan source.toList).tokens = .sentence [c] ∧
      t.doc.text = .ok text ∧ scan text.toList = ⟨us, none⟩ ∧ Sheds c vs ∧
      us.map Token.lexeme = vs.map Token.lexeme := by
  obtain ⟨text, c, hrendered⟩ := exists_rendered h hplain
  have hread : rust.read (Syn.use .type) (scan source.toList).tokens = .sentence [c] := by
    rw [hrendered.scanned]
    exact read_leaves (by decide) (by decide) hrendered.hasTree hrendered.neat
  obtain ⟨us, hscan, hlays⟩ := hrendered.lays
  have hlexemes := hlays.lexemes
  rw [tokensOf_wall] at hlexemes
  exact ⟨c, text, us, _, hread, hrendered.written, hscan, sheds_trim hrendered.hasTree (hbare c hread),
    hlexemes⟩

theorem parseType_render_tokens_fnPtr : ∃ t c us vs,
    parseType "for<> fn(B<dyn T+,>,)" = .ok t ∧ t.doc.text = .ok "fn(B<dyn T>)" ∧
      scan "fn(B<dyn T>)".toList = ⟨us, none⟩ ∧ Sheds c vs ∧
      us.map Token.lexeme = vs.map Token.lexeme := by
  obtain ⟨hread, hdocs, hattrs⟩ :
      (parseType "for<> fn(B<dyn T+,>,)").toOption.map (·.doc.text.toOption) = some (some "fn(B<dyn T>)") ∧
      (∀ t ∈ (scan "for<> fn(B<dyn T+,>,)".toList).tokens, t.kind.isLineDoc = false) ∧
      ∀ t ∈ (scan "for<> fn(B<dyn T+,>,)".toList).tokens, t.kind ∉ Rule.outerAttr.starters := by
    decide +kernel
  obtain ⟨t, ht, htext⟩ := Option.map_eq_some_iff.1 hread
  have ht := ok_of_toOption ht
  have htext := ok_of_toOption htext
  obtain ⟨c, text, us, vs, -, hwritten, hscan, hsheds, hlexemes⟩ :=
    parseType_render_tokens ht (plainLengths_of_forall hdocs) (plainParams_of_forall hattrs)
  obtain rfl : text = "fn(B<dyn T>)" := by
    have hsame := hwritten.symm.trans htext
    injection hsame
  exact ⟨t, c, us, vs, ht, htext, hscan, hsheds, hlexemes⟩

/-- An attribute at a parameter of a function pointer is lost. -/
theorem parseType_drops_attribute : ∃ t, parseType "fn(#[a] u8)" = .ok t ∧ t.doc.text = .ok "fn(u8)" ∧
    (scan "fn(#[a] u8)".toList).tokens.map Token.text = ["fn", "(", "#", "[", "a", "]", "u8", ")"] ∧
    (scan "fn(u8)".toList).tokens.map Token.text = ["fn", "(", "u8", ")"] := by
  obtain ⟨hread, htokens⟩ :
      (parseType "fn(#[a] u8)").toOption.map (·.doc.text.toOption) = some (some "fn(u8)") ∧
        (scan "fn(#[a] u8)".toList).tokens.map Token.text = ["fn", "(", "#", "[", "a", "]", "u8", ")"] ∧
          (scan "fn(u8)".toList).tokens.map Token.text = ["fn", "(", "u8", ")"] := by
    decide +kernel
  obtain ⟨t, ht, htext⟩ := Option.map_eq_some_iff.1 hread
  exact ⟨t, ok_of_toOption ht, ok_of_toOption htext, htokens⟩

end TraitLift
