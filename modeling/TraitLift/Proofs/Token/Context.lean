import Mathlib.Tactic
import TraitLift.Proofs.Token.Layout
import TraitLift.Proofs.Token.Place

/-!
Lexemes and the text behind them. A block comment or a raw string is one only if it is closed
somewhere, so what a text starts with can depend on text far behind it. `Admits` says what text may
stand in the place of the text behind the rest of some lexemes: it lengthens no word, no number and
no sign, keeps the end of a line of comment, and closes nothing that was open. `Replaces` is a condition
on the two texts as a whole that is enough for that. Here words, quoted literals, numbers and signs are
shown to stay as they are.
-/

namespace TraitLift

open TraitLift.Text TraitLift.Terminal

namespace Terminal

/-- The texts that close a comment or a raw string. -/
def closers : List (List Char) :=
  [['*', '/'], ['"'], ['"', '#'], ['"', '#', '#'], ['"', '#', '#', '#']]

/-- Behind `p`, the text `r` can stand in the place of `x`. -/
structure Replaces (p x r : List Char) : Prop where
  brink : Brink r
  slash : r.head? = some '/' → x.head? = some '/'
  line : LineEdge x → LineEdge r
  join : ∀ c ∈ r.head?, c ≠ '>' ∧ c ≠ ':'
  closed : ∀ stop ∈ closers, ∀ q, q <:+ p → upTo stop (q ++ x) = none → upTo stop (q ++ r) = none

theorem Replaces.of_suffix {p q x r : List Char} (h : Replaces p x r) (hq : q <:+ p) :
    Replaces q x r :=
  { h with closed := fun stop hstop q' hq' => h.closed stop hstop q' (hq'.trans hq) }

/-- The signs of two characters. -/
def doubles : List (List Char) := [['-', '>'], [':', ':'], ['=', '>']]

/-- Behind the first lexeme of `p` and what follows it in `p`, the text `r` can stand in the place
of `x`. -/
structure Admits (p x r : List Char) : Prop where
  brink : Brink r
  slash : r.head? = some '/' → x.head? = some '/'
  line : ∀ q, p = '/' :: '/' :: q → '\n' ∉ q → LineEdge x → LineEdge r
  join : ∀ c d, p = [c] → r.head? = some d → [c, d] ∉ doubles
  raw : rawString (p ++ x) = none → rawString (p ++ r) = none
  block : ∀ q, p = '/' :: '*' :: q → upTo ['*', '/'] (q ++ x) = none →
    upTo ['*', '/'] (q ++ r) = none

/-! ### Signs and letters -/

/-- No word has such a sign in it. -/
theorem isWord_of_mem_signs {c : Char} (h : c ∈ ['\'', '"', '/', '\\', '#', ']', '\n', '\r', '\t']) :
    isWord c = false := by
  have hall : ['\'', '"', '/', '\\', '#', ']', '\n', '\r', '\t'].all (!isWord ·) = true := by
    decide +kernel
  simpa using List.all_eq_true.1 hall c h

theorem isWordStart_of_isWord {c : Char} (h : isWord c = false) : isWordStart c = false := by
  simp [isWordStart, h]

theorem ne_of_isWordStart {c d : Char} (hc : isWordStart c) (hd : isWord d = false) : c ≠ d := by
  rintro rfl
  rw [isWord_of_isWordStart hc] at hd
  exact absurd hd (by decide)

/-- The letters that stand in front of quotes start words, too. -/
theorem isWordStart_of_mem_letters {c : Char} (h : c ∈ ['b', 'c', 'r']) : isWordStart c = true := by
  have hall : ['b', 'c', 'r'].all isWordStart = true := by decide +kernel
  exact List.all_eq_true.1 hall c h

theorem isSign_of_classes {c : Char} (hword : isWordStart c = false)
    (hopen : c ∉ ['b', 'c', 'r', '"', '\'']) (hdigit : isLatinDigit c = false)
    (hblank : isBlank c = false) : isSign c = true := by
  simp only [isSign, List.contains_eq_mem, hopen, hdigit, hword, hblank, decide_false, Bool.or_self,
    Bool.not_false]

theorem isSign_slash : isSign '/' = true :=
  isSign_of_classes (isWordStart_of_isWord (isWord_of_mem_signs (by simp))) (by decide) (by decide)
    (by decide)

theorem findSome?_cons_or {β γ : Type} (f : β → Option γ) (a : β) (l : List β) :
    (a :: l).findSome? f = (f a).or (l.findSome? f) := by
  rw [List.findSome?_cons]
  cases f a <;> rfl

/-- An opener without brinks does not reach into a text that starts with one. -/
theorem exists_opener {r : List Char} (hr : Brink r) : ∀ {u q cs : List Char}, q ++ r = u ++ cs →
    u.all (!isBrink ·) = true → ∃ q', q = u ++ q' ∧ cs = q' ++ r
  | [], q, cs, h, _ => ⟨q, rfl, h.symm⟩
  | a :: u, [], cs, h, hu => by
    rw [List.nil_append, List.cons_append] at h
    subst h
    exact absurd List.mem_cons_self (not_mem_of_class hu hr.cons)
  | a :: u, b :: q, cs, h, hu => by
    obtain ⟨rfl, htail⟩ := List.cons.inj h
    rw [List.all_cons, Bool.and_eq_true] at hu
    obtain ⟨q', rfl, rfl⟩ := exists_opener hr htail hu.2
    exact ⟨q', rfl, rfl⟩

section

variable {p x r : List Char} {n : Nat}

/-! ### Words -/

theorem word_replaced (hn : (word (p ++ x)).getD 0 ≤ p.length) (hr : Brink r) :
    word (p ++ r) = word (p ++ x) := by
  have heq := word_bounded.eq_of_steady word_steady hn hr
  rwa [List.take_left] at heq

theorem markedWord_of_ne {c : Char} {cs : List Char} (h : ¬ (c = 'r' ∧ cs.head? = some '#')) :
    markedWord (c :: cs) = word (c :: cs) := by
  unfold markedWord
  split
  · next heq =>
    obtain ⟨rfl, rfl⟩ := List.cons.inj heq
    exact absurd ⟨rfl, rfl⟩ h
  · rfl

theorem word_mark (cs : List Char) : word ('r' :: '#' :: cs) = some 1 := by
  rw [word, if_pos (isWordStart_of_mem_letters (by simp)), run_cons,
    if_neg (by simp [isWord_of_mem_signs])]

theorem markedWord_mark (cs : List Char) : markedWord ('r' :: '#' :: cs) =
    some (((word cs).map (· + 2)).getD 1) := by
  rw [markedWord]
  cases word cs with
  | none => exact word_mark cs
  | some k => rfl

theorem markedWord_replaced (h : markedWord (p ++ x) = some n) (hn : n ≤ p.length) (hr : Brink r) :
    markedWord (p ++ r) = some n := by
  have hpos := (markedWord_bounded _ _ h).1
  obtain ⟨c, q, rfl⟩ : ∃ c q, p = c :: q := by
    cases p with
    | nil =>
      rw [List.length_nil] at hn
      omega
    | cons c q => exact ⟨c, q, rfl⟩
  rw [List.cons_append] at h ⊢
  by_cases hmark : c = 'r' ∧ q.head? = some '#'
  · obtain ⟨rfl, hq⟩ := hmark
    obtain ⟨q, rfl⟩ := List.head?_eq_some_iff.1 hq
    rw [List.cons_append, markedWord_mark] at h ⊢
    rw [word_replaced (x := x) ?_ hr, h]
    obtain rfl := Option.some.inj h
    cases hw : word (q ++ x) with
    | none => exact Nat.zero_le _
    | some k => simpa [hw] using hn
  · -- the mark would have to begin in `p` and end behind it
    have hplain : word (c :: (q ++ x)) = some n := by
      by_cases hx : c = 'r' ∧ (q ++ x).head? = some '#'
      · obtain ⟨rfl, hhead⟩ := hx
        obtain ⟨y, hy⟩ := List.head?_eq_some_iff.1 hhead
        obtain rfl : q = [] := by
          cases q with
          | nil => rfl
          | cons d q =>
            rw [List.cons_append] at hy
            exact absurd ⟨rfl, by rw [(List.cons.inj hy).1]; rfl⟩ hmark
        rw [hy, markedWord_mark] at h
        rw [hy, word_mark]
        cases hw : word y with
        | none => rwa [hw] at h
        | some k =>
          simp only [hw, Option.map_some, Option.getD_some, Option.some.injEq] at h
          simp only [List.length_cons, List.length_nil] at hn
          omega
      · rwa [markedWord_of_ne hx] at h
    have hr' : ¬ (c = 'r' ∧ (q ++ r).head? = some '#') := by
      rintro ⟨rfl, hhead⟩
      obtain ⟨y, hy⟩ := List.head?_eq_some_iff.1 hhead
      obtain ⟨q', rfl, -⟩ := exists_opener hr (u := ['#']) hy (by decide)
      exact hmark ⟨rfl, rfl⟩
    rw [markedWord_of_ne hr', ← List.cons_append, word_replaced (x := x) ?_ hr, List.cons_append,
      hplain]
    rw [List.cons_append, hplain]
    exact hn

/-! ### Quoted literals -/

/-- A raw string behind the letter that may mark it. -/
def rawBody : List Char → Option Nat
  | 'r' :: '"' :: cs => (upTo ['"'] cs).map (· + 2)
  | 'r' :: '#' :: '"' :: cs => (upTo ['"', '#'] cs).map (· + 3)
  | 'r' :: '#' :: '#' :: '"' :: cs => (upTo ['"', '#', '#'] cs).map (· + 4)
  | 'r' :: '#' :: '#' :: '#' :: '"' :: cs => (upTo ['"', '#', '#', '#'] cs).map (· + 5)
  | _ => none

theorem rawString_eq : rawString = afterPrefix rawBody := rfl

/-- Nothing that is open within `p` is closed when `r` takes the place of `x`. -/
def KeepsOpen (p x r : List Char) : Prop :=
  ∀ stop ∈ closers, ∀ q, q <:+ p → upTo stop (q ++ x) = none → upTo stop (q ++ r) = none

theorem KeepsOpen.of_suffix {q : List Char} (h : KeepsOpen p x r) (hq : q <:+ p) : KeepsOpen q x r :=
  fun stop hstop q' hq' => h stop hstop q' (hq'.trans hq)

theorem rawBody_replaced (hr : Brink r) (h : KeepsOpen p x r) (hnone : rawBody (p ++ x) = none) :
    rawBody (p ++ r) = none := by
  have hopen : ∀ {u stop cs : List Char}, u.all (!isBrink ·) = true → stop ∈ closers →
      p ++ r = u ++ cs → (∀ y, rawBody (u ++ y) = (upTo stop y).map (· + u.length)) →
      upTo stop cs = none := by
    intro u stop cs hu hstop heq hraw
    obtain ⟨q, rfl, rfl⟩ := exists_opener hr heq hu
    rw [List.append_assoc, hraw, Option.map_eq_none_iff] at hnone
    exact h stop hstop q (List.suffix_append ..) hnone
  generalize hy : p ++ r = y
  unfold rawBody
  split
  · rw [hopen (u := ['r', '"']) (by decide) (by decide) hy fun _ => rfl, Option.map_none]
  · rw [hopen (u := ['r', '#', '"']) (by decide) (by decide) hy fun _ => rfl, Option.map_none]
  · rw [hopen (u := ['r', '#', '#', '"']) (by decide) (by decide) hy fun _ => rfl, Option.map_none]
  · rw [hopen (u := ['r', '#', '#', '#', '"']) (by decide) (by decide) hy fun _ => rfl,
      Option.map_none]
  · rfl

theorem rawString_replaced (hr : Brink r) (h : KeepsOpen p x r) (hne : p ≠ [])
    (hnone : rawString (p ++ x) = none) : rawString (p ++ r) = none := by
  obtain ⟨c, q, rfl⟩ := List.exists_cons_of_ne_nil hne
  have hq := h.of_suffix (List.suffix_cons c q)
  rw [rawString_eq, List.cons_append] at hnone ⊢
  by_cases hletter : c = 'b' ∨ c = 'c'
  · rcases hletter with rfl | rfl
    all_goals
      rw [afterPrefix, Option.map_eq_none_iff] at hnone ⊢
      exact rawBody_replaced hr hq hnone
  · rw [not_or] at hletter
    rw [afterPrefix_of_head _ (by simpa using hletter), ← List.cons_append] at hnone ⊢
    exact rawBody_replaced hr h hnone

theorem lifetime_replaced (h : lifetime (p ++ x) = some n) (hn : n ≤ p.length) (hr : Brink r) :
    lifetime (p ++ r) = some n := by
  cases p with
  | nil =>
    have := (lifetime_bounded _ _ h).1
    rw [List.length_nil] at hn
    omega
  | cons c q =>
    rw [List.cons_append] at h ⊢
    unfold lifetime at h
    split at h
    · next heq =>
      obtain ⟨rfl, rfl⟩ := List.cons.inj heq
      obtain ⟨k, hk, rfl⟩ := Option.map_eq_some_iff.1 h
      rw [lifetime, markedWord_replaced hk (by simpa using hn) hr, Option.map_some]
    · simp at h

theorem isWordStart_of_markedWord {c : Char} {cs : List Char} (h : markedWord (c :: cs) = some n) :
    isWordStart c := by
  by_contra hc
  rw [markedWord_of_not_start (by simpa using hc)] at h
  simp at h

/-- A quote in front of a lifetime opens no character, whatever stands behind the lifetime. -/
theorem quotedChar_replaced {q : List Char} (hnone : quotedChar ('\'' :: (q ++ x)) = none)
    (h : lifetime ('\'' :: (q ++ x)) = some n) (hn : n ≤ q.length + 1) (hr : Brink r) :
    quotedChar ('\'' :: (q ++ r)) = none := by
  obtain ⟨k, hk, rfl⟩ := Option.map_eq_some_iff.1 h
  have hpos := (markedWord_bounded _ _ hk).1
  obtain ⟨c, q, rfl⟩ : ∃ c q', q = c :: q' := by
    cases q with
    | nil =>
      simp only [List.length_nil] at hn
      omega
    | cons c q => exact ⟨c, q, rfl⟩
  have hc := isWordStart_of_markedWord hk
  have hslash : c ≠ '\\' := ne_of_isWordStart hc (isWord_of_mem_signs (by simp))
  have hbody : ∀ y, charBody (c :: y) = some 1 := by
    intro y
    have hsigns : ['\'', '\n', '\r', '\t'] ⊆ ['\'', '"', '/', '\\', '#', ']', '\n', '\r', '\t'] := by
      decide
    have hmem : c ∉ ['\'', '\n', '\r', '\t'] := fun h =>
      ne_of_isWordStart hc (isWord_of_mem_signs (hsigns h)) rfl
    rw [charBody_cons hslash, if_neg (by simpa using hmem)]
  have hquoted : ∀ y, quotedChar ('\'' :: c :: y) = none ↔ y.head? ≠ some '\'' := by
    intro y
    simp [quotedChar, hbody]
  rw [List.cons_append, hquoted] at hnone ⊢
  cases q with
  | nil =>
    intro hhead
    exact absurd (hr _ hhead) (by decide)
  | cons d q => exact hnone

/-- Quotes are no punctuation. -/
theorem first?_of_quote {c : Char} (hc : c = '"' ∨ c = '\'') (cs : List Char) :
    first? (c :: cs) = ((string (c :: cs)).map (.token .string, ·)).or
      (((char (c :: cs)).map (.token .char, ·)).or
        ((lifetime (c :: cs)).map (.token .lifetime, ·))) := by
  have hword : isWordStart c = false :=
    isWordStart_of_isWord (isWord_of_mem_signs (by rcases hc with rfl | rfl <;> simp))
  have hsilent : c ≠ '/' ∧ isLatinDigit c = false ∧ isBlank c = false := by
    rcases hc with rfl | rfl <;> decide
  obtain ⟨hslash, hdigit, hblank⟩ := hsilent
  obtain ⟨h₁, h₂, h₃, h₄, h₅, h₆⟩ := slashless hslash cs
  have hraw : rawString (c :: cs) = none := by rcases hc with rfl | rfl <;> rfl
  have hblanks : blanks (c :: cs) = none := by
    rw [blanks, run_cons, hblank, if_neg Bool.false_ne_true]
  have hother : otherPunct (c :: cs) = none := by rcases hc with rfl | rfl <;> rfl
  have hexactly : ∀ a w, a ≠ '"' → a ≠ '\'' → exactly (a :: w) (c :: cs) = none := by
    intro a w h h'
    have hac : a ≠ c := by
      rcases hc with rfl | rfl
      · exact h
      · exact h'
    simp [exactly, List.isPrefixOf, hac]
  simp (disch := decide) only [first?, all, findSome?_cons_or, List.findSome?_nil, h₁, h₂, h₃, h₄,
    h₅, h₆, hraw, hblanks, hother, hexactly, number_of_not_digit hdigit,
    markedWord_of_not_start hword, Option.map_none, Option.none_or, Option.or_none]

/-- Where a text goes on with a quote, a string starts there. -/
theorem string_of_first? {cs : List Char} {o : Outcome} (h : first? ('"' :: cs) = some (o, n)) :
    string ('"' :: cs) = some n := by
  have hchar : char ('"' :: cs) = none := rfl
  have hlifetime : lifetime ('"' :: cs) = none := rfl
  rw [first?_of_quote (Or.inl rfl), hchar, hlifetime] at h
  cases hs : string ('"' :: cs) with
  | none => simp [hs] at h
  | some k =>
    rw [hs] at h
    rw [(Prod.mk.inj (Option.some.inj h)).2]

/-- A letter opens a string only if the string is closed; a quote that stays open ends the lexemes. -/
theorem string_replaced {c : Char} {q : List Char} (hc : isWordStart c) (hr : Brink r)
    (hnone : string (c :: (q ++ x)) = none)
    (hnext : q.head? = some '"' → ∃ o n, first? (q ++ x) = some (o, n)) :
    string (c :: (q ++ r)) = none := by
  by_cases hletter : c = 'b' ∨ c = 'c'
  · have hstring : ∀ y, string (c :: y) = none ↔ ∀ z, y = '"' :: z → stringTail z = none := by
      intro y
      rcases hletter with rfl | rfl
      all_goals
        rw [string, afterPrefix, Option.map_eq_none_iff]
        split
        · simp
        · simp_all
    rw [hstring] at hnone ⊢
    intro z hz
    obtain ⟨q, rfl, rfl⟩ := exists_opener hr (u := ['"']) hz (by decide)
    obtain ⟨o, n, hfirst⟩ := hnext rfl
    have hsome := string_of_first? hfirst
    simp [string, afterPrefix, hnone (q ++ x) rfl] at hsome
  · rw [not_or] at hletter
    rw [string, afterPrefix_of_head _ (by simpa using hletter)]
    have hquote : c ≠ '"' := ne_of_isWordStart hc (isWord_of_mem_signs (by simp))
    split
    · simp_all
    · rfl

theorem char_replaced {c : Char} {q : List Char} (hc : isWordStart c) (hr : Brink r)
    (hnone : char (c :: (q ++ x)) = none)
    (hnext : q.head? = some '\'' → ∃ o n, first? (q ++ x) = some (o, n) ∧ n ≤ q.length) :
    char (c :: (q ++ r)) = none := by
  by_cases hletter : c = 'b'
  · subst hletter
    rw [char, Option.map_eq_none_iff] at hnone ⊢
    by_cases hq : q.head? = some '\''
    · -- the quote opened no character, so it opened a lifetime
      obtain ⟨o, n, hfirst, hle⟩ := hnext hq
      obtain ⟨q, rfl⟩ := List.head?_eq_some_iff.1 hq
      rw [List.cons_append] at hnone hfirst
      have hstring : string ('\'' :: (q ++ x)) = none := rfl
      have hchar : char ('\'' :: (q ++ x)) = none := hnone
      rw [first?_of_quote (Or.inr rfl), hstring, hchar] at hfirst
      have hlifetime : lifetime ('\'' :: (q ++ x)) = some n := by
        cases hl : lifetime ('\'' :: (q ++ x)) with
        | none => simp [hl] at hfirst
        | some k =>
          rw [hl] at hfirst
          rw [(Prod.mk.inj (Option.some.inj hfirst)).2]
      exact quotedChar_replaced hnone hlifetime hle hr
    · unfold quotedChar
      split
      · next heq =>
        obtain ⟨q', rfl, -⟩ := exists_opener hr (u := ['\'']) heq (by decide)
        exact absurd rfl hq
      · rfl
  · have hquote : c ≠ '\'' := ne_of_isWordStart hc (isWord_of_mem_signs (by simp))
    unfold char quotedChar
    split <;> simp_all

/-! ### Numbers -/

/-- A digit opens a number. -/
theorem first?_of_digit {c : Char} (hc : isLatinDigit c) (cs : List Char) :
    first? (c :: cs) = (number (c :: cs)).map (.token .number, ·) := by
  have hopen : c ∉ ['/', 'b', 'c', 'r', '"', '\''] := not_mem_of_class (by decide) hc
  rw [List.mem_cons, not_or] at hopen
  obtain ⟨h₁, h₂, h₃, h₄, -⟩ := slashless hopen.1 cs
  obtain ⟨hraw, hstring, hchar, -⟩ := quoteless hopen.2 cs
  obtain ⟨k, hk⟩ : ∃ k, number (c :: cs) = some k := by
    have hdecimal : ∃ k, decimalNumber (c :: cs) = some k := by
      rw [decimalNumber, decimalDigits, if_pos hc]
      exact ⟨_, rfl⟩
    obtain ⟨k, hk⟩ := hdecimal
    rw [number, hk]
    cases radixNumber (c :: cs) <;> exact ⟨_, rfl⟩
  simp only [first?, all, List.findSome?_cons, h₁, h₂, h₃, h₄, hraw, hstring, hchar, hk,
    Option.map_some, Option.map_none]

theorem number_replaced {c : Char} {q : List Char} (h : number (c :: q ++ x) = some n)
    (hn : n ≤ (c :: q).length) (hr : Brink r) : number (c :: q ++ r) = some n := by
  have hle : (c :: q).length ≤ (c :: q ++ x).length := by simp
  have heq := number_take_append h hn hle hr
  rwa [List.take_left] at heq

/-! ### Punctuation -/

theorem exactly_replaced {c : Char} {q w : List Char}
    (hw : (w.drop 1).all (!isBrink ·) = true ∨ w ∈ doubles) (h : Admits (c :: q) x r)
    (hnone : exactly w (c :: (q ++ x)) = none) : exactly w (c :: (q ++ r)) = none := by
  unfold exactly at hnone ⊢
  rw [if_neg]
  rw [ite_eq_right_iff] at hnone
  simp only [reduceCtorEq, imp_false, List.isPrefixOf_iff_prefix] at hnone ⊢
  rintro hprefix
  refine hnone ?_
  rcases hw with hw | hw
  · cases w with
    | nil => exact List.nil_prefix
    | cons a w =>
      obtain ⟨rfl, ⟨cs, hcs⟩⟩ := List.cons_prefix_cons.1 hprefix
      obtain ⟨q', rfl, -⟩ := exists_opener h.brink hcs.symm hw
      rw [List.append_assoc]
      exact List.cons_prefix_cons.2 ⟨rfl, List.prefix_append ..⟩
  · -- the second character is either in `q`, or it would join the last one of the old text
    obtain ⟨d, rfl⟩ : ∃ d, w = [c, d] := by
      simp only [doubles, List.mem_cons, List.not_mem_nil, or_false] at hw
      rcases hw with rfl | rfl | rfl <;> obtain ⟨rfl, -⟩ := List.cons_prefix_cons.1 hprefix <;>
        exact ⟨_, rfl⟩
    have hnext := (List.cons_prefix_cons.1 hprefix).2
    cases q with
    | nil =>
      obtain ⟨y, hy⟩ := hnext
      exact absurd hw (h.join c d rfl (by rw [← List.nil_append r, ← hy]; rfl))
    | cons e q =>
      obtain ⟨rfl, -⟩ := List.cons_prefix_cons.1 hnext
      simp [List.cons_prefix_cons]

theorem exactly_found {w : List Char} (h : exactly w (p ++ x) = some n) (hn : n ≤ p.length) :
    exactly w (p ++ r) = some n := by
  unfold exactly at h ⊢
  split at h
  · next hprefix =>
    obtain rfl := Option.some.inj h
    rw [List.isPrefixOf_iff_prefix] at hprefix
    have hshort : w <+: p :=
      List.prefix_of_prefix_length_le hprefix (List.prefix_append p x) hn
    rw [if_pos (List.isPrefixOf_iff_prefix.2 (hshort.trans (List.prefix_append p r)))]
  · simp at h

/-- The first lexeme stays the first if what was no lexeme stays none and what was one stays one. -/
theorem first?_transfer {y z : List Char} {o : Outcome} (h : first? y = some (o, n))
    (hnone : ∀ t ∈ all, t.2 y = none → t.2 z = none)
    (hsome : ∀ t ∈ all, t.2 y = some n → t.2 z = some n) : first? z = some (o, n) := by
  unfold first? at h ⊢
  generalize all = ts at *
  induction ts with
  | nil => simp at h
  | cons t ts ih =>
    obtain ⟨o', m⟩ := t
    rw [List.findSome?_cons] at h ⊢
    simp only at h ⊢
    cases ht : m y with
    | none =>
      rw [ht, Option.map_none] at h
      have hz : m z = none := hnone _ List.mem_cons_self ht
      rw [hz, Option.map_none]
      exact ih h (fun u hu => hnone u (List.mem_cons_of_mem _ hu))
        (fun u hu => hsome u (List.mem_cons_of_mem _ hu))
    | some k =>
      simp only [ht, Option.map_some, Option.some.injEq, Prod.mk.injEq] at h
      obtain ⟨rfl, rfl⟩ := h
      have hz : m z = some k := hsome _ List.mem_cons_self ht
      rw [hz, Option.map_some]

theorem first?_sign_replaced {c : Char} {q : List Char} {o : Outcome} (hc : isSign c)
    (hslash : c ≠ '/') (h : first? (c :: q ++ x) = some (o, n)) (hn : n ≤ (c :: q).length)
    (hr : Admits (c :: q) x r) : first? (c :: q ++ r) = some (o, n) := by
  have hcomments := slashless hslash (q ++ r)
  have hcomments' := slashless hslash (q ++ x)
  have hsilent := isSign_silent hc (q ++ r)
  have hsilent' := isSign_silent hc (q ++ x)
  have hother : otherPunct (c :: (q ++ r)) = otherPunct (c :: (q ++ x)) := rfl
  have hnone : ∀ w : List Char, (w.drop 1).all (!isBrink ·) = true ∨ w ∈ doubles →
      exactly w (c :: (q ++ x)) = none → exactly w (c :: (q ++ r)) = none :=
    fun w hw => exactly_replaced hw hr
  have hsome : ∀ w : List Char, exactly w (c :: (q ++ x)) = some n →
      exactly w (c :: (q ++ r)) = some n := fun w hw => exactly_found (p := c :: q) hw hn
  refine first?_transfer h ?_ ?_
  · simp only [all, List.forall_mem_cons, List.cons_append, hcomments, hcomments', hsilent, hsilent',
      hother, List.not_mem_nil, false_implies, implies_true, and_true, true_and]
    and_intros <;> first | exact hnone _ (by decide) | exact id
  · simp only [all, List.forall_mem_cons, List.cons_append, hcomments, hcomments', hsilent, hsilent',
      hother, List.not_mem_nil, reduceCtorEq, false_implies, implies_true, and_true, true_and]
    and_intros <;> first | exact hsome _ | exact id

end

end Terminal

end TraitLift
