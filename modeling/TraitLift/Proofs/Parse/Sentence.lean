import Mathlib.Tactic
import TraitLift.Parse
import TraitLift.Proofs.Except
import TraitLift.Proofs.Grammar.Rules
import TraitLift.Proofs.Token.Cut

/-!
Reading a text decides whether it is a sentence and reports the first offending token. `Decided` says
for every outcome when it comes about, in terms of lexemes (`Cuts`) and derivations (`Derives`), and
main statement is that it holds for every expression of the grammar, so for types, for blocks and for
attribute arguments.
-/

namespace TraitLift

open TraitLift.Grammar

/-! ### Scans in terms of lexemes -/

theorem exists_cuts_complete_iff {source : List Char} {p : List Token → Prop} :
    (∃ ts, Cuts 0 Loc.origin source ts [] ∧ p ts) ↔
      (scan source).stuck = none ∧ p (scan source).tokens := by
  simp only [← scan_eq_complete_iff]
  constructor
  · rintro ⟨ts, hscan, hp⟩
    rw [hscan]
    exact ⟨rfl, hp⟩
  · rintro ⟨hstuck, hp⟩
    refine ⟨_, ?_, hp⟩
    rw [← hstuck]

theorem exists_cuts_stuck_iff {source : List Char} {c : Char} {loc : Loc}
    {p : List Token → Prop} :
    (∃ pre post ts, source = pre ++ c :: post ∧ Cuts 0 Loc.origin source ts (c :: post) ∧
      Terminal.first? (c :: post) = none ∧ loc = Loc.origin.after pre ∧ p ts) ↔
      (scan source).stuck = some (c, loc) ∧ p (scan source).tokens := by
  constructor
  · rintro ⟨pre, post, ts, hsource, hcuts, hfirst, hloc, hp⟩
    rw [scan_eq_stuck_iff.2 ⟨pre, post, hsource, hcuts, hfirst, hloc⟩]
    exact ⟨rfl, hp⟩
  · rintro ⟨hstuck, hp⟩
    have hscan : scan source = ⟨(scan source).tokens, some (c, loc)⟩ := by rw [← hstuck]
    obtain ⟨pre, post, hsource, hcuts, hfirst, hloc⟩ := scan_eq_stuck_iff.1 hscan
    exact ⟨pre, post, _, hsource, hcuts, hfirst, hloc, hp⟩

/-! ### Outcomes of reading -/

/-- What the outcomes of reading `source` as something derived from `e` mean. -/
structure Decided (goal : Goal) (e : Syn) (source : List Char) : Prop where
  /-- The text is read exactly if all of it is lexemes and its tokens are a sentence. -/
  read : (∃ parts, readParts goal e source = .ok parts) ↔
    ∃ ts, Cuts 0 Loc.origin source ts [] ∧ rust.Derives e ts
  /-- A token is reported exactly if the tokens before it can be extended to a sentence and those up
  to it cannot. -/
  token : ∀ (k : Nat) t, (scan source).tokens[k]? = some t →
    (readParts goal e source = .error (.unexpectedToken t.text goal t.loc) ↔
      rust.Extendable e ((scan source).tokens.take k) ∧
        ¬ rust.Extendable e ((scan source).tokens.take (k + 1)))
  /-- The end is reported exactly if all of the text is lexemes and its tokens are no sentence, but
  can be extended to one. -/
  ending : readParts goal e source = .error (.unexpectedEnd goal) ↔
    ∃ ts, Cuts 0 Loc.origin source ts [] ∧ ¬ rust.Derives e ts ∧ rust.Extendable e ts
  /-- A character is reported exactly if no terminal matches there and the tokens before it can be
  extended to a sentence. -/
  char : ∀ c loc, readParts goal e source = .error (.unexpectedChar c goal loc) ↔
    ∃ pre post ts, source = pre ++ c :: post ∧ Cuts 0 Loc.origin source ts (c :: post) ∧
      Terminal.first? (c :: post) = none ∧ loc = Loc.origin.after pre ∧ rust.Extendable e ts
  /-- Nothing else is reported. -/
  faults : ∀ f, readParts goal e source = .error f → f = .unexpectedEnd goal ∨
    (∃ t ∈ (scan source).tokens, f = .unexpectedToken t.text goal t.loc) ∨
    ∃ c loc, f = .unexpectedChar c goal loc

section

variable {goal : Goal} {e : Syn} {source : List Char}

theorem exists_readParts_eq_ok_iff : (∃ parts, readParts goal e source = .ok parts) ↔
    (scan source).stuck = none ∧ ∃ trees, rust.read e (scan source).tokens = .sentence trees := by
  cases hread : rust.read e (scan source).tokens <;> cases hstuck : (scan source).stuck <;>
    simp [readParts, hread, hstuck]

/-- A text is read exactly if all of it is lexemes and its tokens are a sentence. -/
theorem exists_readParts_iff_derives : (∃ parts, readParts goal e source = .ok parts) ↔
    ∃ ts, Cuts 0 Loc.origin source ts [] ∧ rust.Derives e ts := by
  rw [exists_readParts_eq_ok_iff, exists_read_eq_sentence_iff rust_proper rust_ranked,
    exists_cuts_complete_iff]

theorem readParts_eq_unexpectedToken_iff {text : String} {loc : Loc} :
    readParts goal e source = .error (.unexpectedToken text goal loc) ↔
      ∃ t, rust.read e (scan source).tokens = .stuck t ∧ t.text = text ∧ t.loc = loc := by
  cases hread : rust.read e (scan source).tokens <;> cases hstuck : (scan source).stuck <;>
    simp [readParts, hread, hstuck]

theorem readParts_eq_unexpectedEnd_iff : readParts goal e source = .error (.unexpectedEnd goal) ↔
    (scan source).stuck = none ∧ rust.read e (scan source).tokens = .short := by
  cases hread : rust.read e (scan source).tokens <;> cases hstuck : (scan source).stuck <;>
    simp [readParts, hread, hstuck]

theorem readParts_eq_unexpectedChar_iff {c : Char} {loc : Loc} :
    readParts goal e source = .error (.unexpectedChar c goal loc) ↔
      (scan source).stuck = some (c, loc) ∧
        ¬ ∃ t, rust.read e (scan source).tokens = .stuck t := by
  cases hread : rust.read e (scan source).tokens <;> cases hstuck : (scan source).stuck <;>
    simp [readParts, hread, hstuck, Prod.ext_iff]

end

/-- Reading a text as something derived from an expression, whatever the expression. -/
theorem readParts_decided (goal : Goal) (e : Syn) (source : List Char) :
    Decided goal e source := by
  refine ⟨exists_readParts_iff_derives, fun k t ht => ?_, ?_, fun c loc => ?_, fun f hf => ?_⟩
  · rw [readParts_eq_unexpectedToken_iff]
    constructor
    · rintro ⟨t', hstuck, -, hloc⟩
      obtain ⟨m, hm, hext, hno⟩ := (read_eq_stuck_iff rust_proper rust_ranked).1 hstuck
      obtain rfl := scan_loc_inj hm ht hloc
      exact ⟨hext, hno⟩
    · rintro ⟨hext, hno⟩
      exact ⟨t, (read_eq_stuck_iff rust_proper rust_ranked).2 ⟨k, ht, hext, hno⟩, rfl, rfl⟩
  · rw [readParts_eq_unexpectedEnd_iff, read_eq_short_iff rust_proper rust_ranked,
      exists_cuts_complete_iff]
  · rw [readParts_eq_unexpectedChar_iff, exists_cuts_stuck_iff]
    refine and_congr_right fun _ => ?_
    -- a sequence that is stuck nowhere is a sentence or the beginning of one
    constructor
    · intro hno
      cases hcase : rust.read e (scan source).tokens with
      | stuck t => exact absurd ⟨t, hcase⟩ hno
      | short => exact ((read_eq_short_iff rust_proper rust_ranked).1 hcase).2
      | sentence ps =>
        exact ((exists_read_eq_sentence_iff rust_proper rust_ranked).1 ⟨ps, hcase⟩).extendable
    · rintro hext ⟨t, ht⟩
      obtain ⟨m, -, -, hno⟩ := (read_eq_stuck_iff rust_proper rust_ranked).1 ht
      exact hno (hext.take _)
  · unfold readParts at hf
    dsimp only at hf
    split at hf
    · next t hstuck =>
      obtain ⟨m, hm, -⟩ := (read_eq_stuck_iff rust_proper rust_ranked).1 hstuck
      exact Or.inr (Or.inl ⟨t, List.mem_of_getElem? hm, (Except.error.inj hf).symm⟩)
    · exact Or.inr (Or.inr ⟨_, _, (Except.error.inj hf).symm⟩)
    · exact Or.inl (Except.error.inj hf).symm
    · simp at hf

end TraitLift
