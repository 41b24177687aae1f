import Mathlib.Tactic
import TraitLift.Lift.Name
import TraitLift.Proofs.Parse.Sentence
import TraitLift.Proofs.Token.Lexeme

/-!
Names made of a fingerprint. Such a name is the configured start with a decimal number behind it. It
reads as one name again if all of the start are word characters (`lex_of_word`), and in no other case:
an identifier may have characters in it that no word has.
-/

namespace TraitLift

open TraitLift.Text TraitLift.Terminal

/-- The text is one token, a name. -/
def IsName (s : String) : Prop := ∃ t, lex s = .ok [t] ∧ t.kind = .name ∧ t.text = s

/-! ### Words -/

theorem Text.isDigit_of_isIdentStart {c : Char} (h : isIdentStart c) : isDigit c = false := by
  rw [isIdentStart, Bool.or_eq_true, Bool.or_eq_true, Bool.and_eq_true] at h
  rcases h with (hbar | ⟨hletter, -⟩) | hextra
  · rw [beq_iff_eq] at hbar
    subst hbar
    decide +kernel
  · exact inRanges_eq_false_of_apart hletter (by decide +kernel)
  · exact inRanges_eq_false_of_apart hextra (by decide +kernel)

/-- What starts an identifier starts a word if a word can have it at all. -/
theorem Text.isWordStart_of_isIdentStart {c : Char} (h : isIdentStart c) (hword : isWord c) :
    isWordStart c := by
  rw [isWordStart, hword, isDigit_of_isIdentStart h]
  rfl

theorem Terminal.markedWord_of_isWord {c : Char} {cs : List Char} (hc : isWordStart c)
    (hcs : ∀ d ∈ cs, isWord d) : markedWord (c :: cs) = some (cs.length + 1) := by
  have hmark : ¬ (c = 'r' ∧ cs.head? = some '#') := by
    rintro ⟨-, hhead⟩
    have hword := hcs '#' (List.mem_of_head? hhead)
    rw [isWord_of_mem_signs (by simp)] at hword
    exact Bool.false_ne_true hword
  rw [markedWord_of_ne hmark, word, if_pos hc, run, List.takeWhile_eq_self_iff.2 hcs]

/-- A text of word characters is one token, unless it starts with a digit. -/
theorem lex_of_word {s : String} {c : Char} {cs : List Char} (hs : s.toList = c :: cs)
    (hc : isWordStart c) (hcs : ∀ d ∈ cs, isWord d) :
    ∃ t, lex s = .ok [t] ∧ t.kind = Kind.ofWord s ∧ t.text = s := by
  have hfirst := first?_word (markedWord_of_isWord hc hcs) (r := []) (by simp [Edge])
  have hlen : (c :: cs).length = cs.length + 1 := rfl
  rw [List.append_nil, ← hlen, List.take_length] at hfirst
  have hscan : scan s.toList = ⟨[⟨Kind.ofWord s, s, 0, 0 + (c :: cs).length, Loc.origin,
      Loc.origin.after (c :: cs)⟩], none⟩ := by
    rw [scan, hs, scanFrom_lexeme hfirst, List.take_length, List.drop_length, scanFrom_nil]
    simp only [Scan.prepend, Outcome.token?, ← hs, String.ofList_toList, Option.toList_some,
      List.append_nil]
  exact ⟨_, lex_eq_ok_iff.2 hscan, rfl, rfl⟩

/-- A name is made of word characters, but for the mark in front of it. -/
theorem IsLexeme.mem_of_name {s : String} (h : IsLexeme (.name, s)) :
    ∀ c ∈ s.toList, isWord c ∨ c = '#' := by
  obtain ⟨cs, o, n, hfirst, hk, htext⟩ := h
  obtain ⟨m, hm, hn⟩ := exists_terminal_of_first? hfirst
  have hkinds : ∀ o ∈ all.map Prod.fst, o ≠ .token .name := by decide
  have hword : ∀ {m : List Char → Option Nat}, (Outcome.word, m) ∈ all → m = markedWord := by
    intro m hm
    simpa [all] using hm
  cases o with
  | skip => simp [Outcome.kind?] at hk
  | token k =>
    obtain rfl := Option.some.inj hk
    exact absurd rfl (hkinds _ (List.mem_map_of_mem hm))
  | word =>
    obtain rfl := hword hm
    rw [htext]
    exact mem_take_of_markedWord hn

/-! ### Numbered words -/

theorem isLatinDigit_of_mem_toString {n : Nat} {c : Char} (hc : c ∈ (toString n).toList) :
    isLatinDigit c := by
  rw [Nat.toString_eq_repr, Nat.toList_repr] at hc
  have hdigit := Nat.isDigit_of_mem_toDigits (by decide) (by decide) hc
  simpa [Char.isDigit, isLatinDigit, Char.le_def] using hdigit

theorem Text.isWord_of_isLatinDigit {c : Char} (h : isLatinDigit c) : isWord c := by
  simp [isWord, isDigit_of_isLatinDigit h]

/-- No keyword ends with a number. -/
theorem ofWord_numbered (w : String) (n : Nat) : Kind.ofWord (w ++ toString n) = .name := by
  have hends : ∀ p ∈ Kind.keywords, p.1.toList.getLast?.all (!isLatinDigit ·) := by decide +kernel
  by_contra hkeyword
  have hall := hends _ (mem_keywords_of_ofWord rfl hkeyword)
  have hne : (toString n).toList ≠ [] := by
    rw [Nat.toString_eq_repr, Nat.toList_repr]
    exact Nat.toDigits_ne_nil
  have hlast := List.getLast?_eq_some_getLast hne
  rw [String.toList_append, List.getLast?_append, hlast, Option.some_or, Option.all_some,
    isLatinDigit_of_mem_toString (List.getLast_mem hne)] at hall
  exact Bool.false_ne_true hall

/-- An identifier with a number behind it is a name exactly if all of it are word characters. -/
theorem isName_numbered_iff {w : String} (hw : isIdentifier w.toList) (n : Nat) :
    IsName (w ++ toString n) ↔ ∀ c ∈ w.toList, isWord c := by
  constructor
  · rintro ⟨t, hlex, hkind, htext⟩ c hc
    have hname : IsLexeme (.name, w ++ toString n) := by
      rw [← hkind, ← htext]
      exact isLexeme_of_lex hlex t (List.mem_singleton.2 rfl)
    have hmem : c ∈ (w ++ toString n).toList := by
      rw [String.toList_append]
      exact List.mem_append_left _ hc
    rcases hname.mem_of_name c hmem with hword | rfl
    · exact hword
    · -- the mark is no part of an identifier
      have hmark : isIdentStart '#' = false ∧ isIdentContinue '#' = false := by decide +kernel
      cases hcs : w.toList with
      | nil => simp [hcs] at hc
      | cons d ds =>
        rw [hcs, isIdentifier, Bool.and_eq_true, List.all_eq_true] at hw
        rw [hcs] at hc
        rcases List.mem_cons.1 hc with rfl | hc
        · exact absurd hw.1 (by simp [hmark.1])
        · exact absurd (hw.2 _ hc) (by simp [hmark.2])
  · intro hwords
    cases hcs : w.toList with
    | nil => simp [hcs, isIdentifier] at hw
    | cons d ds =>
      rw [hcs, isIdentifier, Bool.and_eq_true] at hw
      rw [hcs] at hwords
      obtain ⟨hd, hds⟩ := List.forall_mem_cons.1 hwords
      have hlist : (w ++ toString n).toList = d :: (ds ++ (toString n).toList) := by
        rw [String.toList_append, hcs, List.cons_append]
      obtain ⟨t, hlex, hkind, htext⟩ := lex_of_word hlist (isWordStart_of_isIdentStart hw.1 hd)
        (List.forall_mem_append.2 ⟨hds, fun c hc =>
          isWord_of_isLatinDigit (isLatinDigit_of_mem_toString hc)⟩)
      exact ⟨t, hlex, by rw [hkind, ofWord_numbered], htext⟩

/-! ### Derived names -/

/-- A block whose text can be cut into tokens has a derived name, whatever the settings. It reads as one
name exactly if the configured start is made of word characters. -/
theorem TraitName.resolve_derived (c : Config) {args : ExtArgs} (hargs : args.name = none)
    {b : ImplBlock} {raw : String} {ts : List Token} (hraw : b.rawText = .ok raw)
    (hlex : lex raw = .ok ts) :
    ∃ (n : TraitName) (digest : UInt64), TraitName.resolve args b c = .ok n ∧ n.derived = true ∧
      n.ident = c.namePrefix ++ toString digest.toNat ∧
      (IsName n.ident ↔ ∀ ch ∈ c.namePrefix.toList, isWord ch) := by
  have hdigest : ∃ digest, fingerprint raw c = .ok digest := by
    rw [fingerprint, tokenText, hlex]
    exact ⟨_, rfl⟩
  obtain ⟨digest, hdigest⟩ := hdigest
  refine ⟨⟨c.namePrefix ++ toString digest.toNat, args.vis.getD .inherited, true⟩, digest, ?_, rfl,
    rfl, isName_numbered_iff c.isIdentifier digest.toNat⟩
  simp only [TraitName.resolve, hargs, hraw, hdigest, ofMisplaced, ofFault, bind, Except.bind, pure,
    Except.pure]

theorem TraitName.resolve_derived_default :
    Config.default.namePrefix.toList.all isWord = true ∧
      ∃ n, TraitName.resolve {} { selfTy := .named "X", source := some "impl X { }" } Config.default =
        .ok n ∧ IsName n.ident := by
  have hwords : Config.default.namePrefix.toList.all isWord = true := by decide +kernel
  have hlexes : (lex "impl X { }").toOption.isSome = true := by decide +kernel
  obtain ⟨ts, hts⟩ := Option.isSome_iff_exists.1 hlexes
  obtain ⟨n, -, hn, -, -, hname⟩ := @TraitName.resolve_derived Config.default {} rfl
    { selfTy := .named "X", source := some "impl X { }" } _ _ rfl (ok_of_toOption hts)
  exact ⟨hwords, n, hn, hname.2 (List.all_eq_true.1 hwords)⟩

/-- Settings whose derived names all are `a·0`: the middle dot is part of identifiers. -/
def Config.dotted : Config :=
  ⟨.constant "xxh64" 0, 0, "a·", ["ext"], by decide +kernel⟩

/-- A middle dot is part of no word, so names with one in them cannot be read. -/
theorem TraitName.resolve_dotted :
    Config.make "xxh64" (some 0) 0 "a·" ["ext"] = .ok Config.dotted ∧
      (lex "impl X { }").toOption.isSome = true ∧
      TraitName.resolve {} { selfTy := .named "X", source := some "impl X { }" } Config.dotted =
        .ok ⟨"a·0", .inherited, true⟩ ∧
      lex "a·0" = .error (.unexpectedChar '·' .tokens ⟨1, 2⟩) ∧ ¬ IsName "a·0" := by
  have hmake : Config.make "xxh64" (some 0) 0 "a·" ["ext"] = .ok Config.dotted := by
    simp only [Config.make, bind, Except.bind]
    exact dif_pos Config.dotted.isIdentifier
  have hlex : lex "a·0" = .error (.unexpectedChar '·' .tokens ⟨1, 2⟩) := by decide +kernel
  refine ⟨hmake, by decide +kernel, ok_of_toOption (by decide +kernel), hlex, ?_⟩
  rintro ⟨t, hname, -, -⟩
  rw [hlex] at hname
  cases hname

end TraitLift
