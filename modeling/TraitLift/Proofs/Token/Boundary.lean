import Mathlib.Tactic
import TraitLift.Proofs.Token.Context

/-!
Comments and rows of lexemes with other text behind them. If another text is admitted behind every lexeme
(`Boundary`), the lexemes stay as they are (`Cuts.scanFrom_admitted`), and so they do in front of a text
that replaces the one behind them (`Cuts.scanFrom_replaced`).
-/

namespace TraitLift

open TraitLift.Text TraitLift.Terminal

namespace Terminal

section

variable {p x r : List Char} {n : Nat}

/-! ### Comments -/

/-- What opens no comment is a sign. -/
theorem first?_of_slash (y : List Char) : first? ('/' :: y) =
    ((outerBlockDoc ('/' :: y)).map (.token .outerBlockDoc, ·)).or
      (((innerBlockDoc ('/' :: y)).map (.token .innerBlockDoc, ·)).or
      (((outerDoc ('/' :: y)).map (.token .outerDoc, ·)).or
      (((innerDoc ('/' :: y)).map (.token .innerDoc, ·)).or
      (((blockComment ('/' :: y)).map (.skip, ·)).or
      (((lineComment ('/' :: y)).map (.skip, ·)).or (some (.token .otherPunct, 1))))))) := by
  obtain ⟨hraw, hstring, hchar, hnumber, hlifetime, hword, hblanks⟩ :=
    isSign_silent isSign_slash y
  have hother : otherPunct ('/' :: y) = some 1 := rfl
  have hexactly : ∀ a w, a ≠ '/' → exactly (a :: w) ('/' :: y) = none := by
    intro a w h
    simp [exactly, List.isPrefixOf, h]
  simp (disch := decide) only [first?, all, findSome?_cons_or, hraw, hstring, hchar, hnumber,
    hlifetime, hword, hblanks, hother, hexactly, Option.map_none, Option.map_some, Option.none_or,
    Option.some_or]

theorem first?_slash {y : List Char} (hslash : y.head? ≠ some '/') (hstar : y.head? ≠ some '*') :
    first? ('/' :: y) = some (.token .otherPunct, 1) := by
  have hcomments : outerBlockDoc ('/' :: y) = none ∧ innerBlockDoc ('/' :: y) = none ∧
      outerDoc ('/' :: y) = none ∧ innerDoc ('/' :: y) = none ∧ blockComment ('/' :: y) = none ∧
      lineComment ('/' :: y) = none := by
    cases y with
    | nil => decide
    | cons c y =>
      simp only [List.head?_cons, ne_eq, Option.some.injEq] at hslash hstar
      simp [outerBlockDoc, innerBlockDoc, outerDoc, innerDoc, blockComment, lineComment, hslash,
        hstar]
  obtain ⟨h₁, h₂, h₃, h₄, h₅, h₆⟩ := hcomments
  rw [first?_of_slash, h₁, h₂, h₃, h₄, h₅, h₆]
  rfl

/-- What a line of comment becomes, by the text behind its two slashes. -/
def lineOutcome : List Char → Outcome
  | '!' :: _ => .token .innerDoc
  | '/' :: cs => if cs.head? = some '/' then .skip else .token .outerDoc
  | _ => .skip

theorem first?_slashes (y : List Char) :
    first? ('/' :: '/' :: y) = some (lineOutcome y, run (· ≠ '\n') y + 2) := by
  have h₁ : outerBlockDoc ('/' :: '/' :: y) = none := rfl
  have h₂ : innerBlockDoc ('/' :: '/' :: y) = none := rfl
  have h₃ : blockComment ('/' :: '/' :: y) = none := rfl
  rw [first?_of_slash, h₁, h₂, h₃]
  unfold lineOutcome
  split
  · next y =>
    have houter : outerDoc ('/' :: '/' :: '!' :: y) = none := rfl
    rw [houter, innerDoc, run_cons, if_pos (by decide)]
    rfl
  · next y =>
    rw [outerDoc]
    split
    · rfl
    · rw [run_cons, if_pos (by decide)]
      rfl
  · next hbang hslash =>
    have houter : outerDoc ('/' :: '/' :: y) = none := by
      unfold outerDoc
      split
      · next heq => exact absurd (List.cons.inj (List.cons.inj heq).2).2 (hslash _)
      · rfl
    have hinner : innerDoc ('/' :: '/' :: y) = none := by
      unfold innerDoc
      split
      · next heq => exact absurd (List.cons.inj (List.cons.inj heq).2).2 (hbang _)
      · rfl
    rw [houter, hinner]
    rfl

theorem lineEdge_of_run {y : List Char} (h : run (· ≠ '\n') y = 0) : LineEdge y := by
  intro c hc
  obtain ⟨z, rfl⟩ := List.head?_eq_some_iff.1 hc
  rw [run_cons] at h
  by_contra hne
  rw [if_pos (by simpa using hne)] at h
  omega

theorem run_line_replaced {q : List Char} (hle : run (· ≠ '\n') (q ++ x) ≤ q.length)
    (hline : '\n' ∉ q → LineEdge x → LineEdge r) :
    run (· ≠ '\n') (q ++ r) = run (· ≠ '\n') (q ++ x) := by
  induction q with
  | nil =>
    have hzero : run (· ≠ '\n') x = 0 := Nat.le_zero.1 hle
    have hr := hline List.not_mem_nil (lineEdge_of_run hzero)
    rw [List.nil_append, List.nil_append, hzero]
    refine run_eq_zero fun c hc => ?_
    rw [hr c hc]
    rfl
  | cons c q ih =>
    rw [List.cons_append, List.cons_append, run_cons, run_cons] at *
    split
    · next hc =>
      rw [if_pos hc, List.length_cons] at hle
      have hne : c ≠ '\n' := by simpa using hc
      rw [ih (by omega) fun hq => hline fun hmem => (List.mem_cons.1 hmem).elim
        (fun heq => hne heq.symm) hq]
    · rfl

theorem lineOutcome_replaced {q : List Char} (hle : run (· ≠ '\n') (q ++ x) ≤ q.length)
    (hline : '\n' ∉ q → LineEdge x → LineEdge r) : lineOutcome (q ++ r) = lineOutcome (q ++ x) := by
  have hskip : ∀ {y}, LineEdge y → lineOutcome y = .skip ∧ y.head? ≠ some '/' := by
    intro y hy
    cases y with
    | nil => exact ⟨rfl, by simp⟩
    | cons c y =>
      obtain rfl := hy c rfl
      exact ⟨rfl, by simp⟩
  match q with
  | [] =>
    have hx := lineEdge_of_run (Nat.le_zero.1 hle)
    rw [List.nil_append] at hx ⊢
    rw [List.nil_append, (hskip hx).1, (hskip (hline List.not_mem_nil hx)).1]
  | [c] =>
    by_cases hc : c = '/'
    · subst hc
      rw [List.singleton_append, run_cons, if_pos (by decide), List.length_singleton] at hle
      have hx := lineEdge_of_run (Nat.le_zero.1 (Nat.le_of_succ_le_succ hle))
      rw [List.singleton_append, List.singleton_append, lineOutcome, lineOutcome,
        if_neg (hskip hx).2, if_neg (hskip (hline (by decide) hx)).2]
    · by_cases hbang : c = '!'
      · subst hbang
        rfl
      · simp [lineOutcome, hc, hbang]
  | c :: d :: q =>
    by_cases hc : c = '/'
    · subst hc
      rfl
    · by_cases hbang : c = '!'
      · subst hbang
        rfl
      · simp [lineOutcome, hc, hbang]

theorem upTo_tail {stop cs : List Char} {c : Char} (h : upTo stop (c :: cs) = none) :
    upTo stop cs = none := by
  rw [upTo] at h
  split at h
  · simp at h
  · exact Option.map_eq_none_iff.1 h

/-- What a closed block comment becomes, by the text behind its opener. -/
def blockOutcome : List Char → Outcome
  | '!' :: _ => .token .innerBlockDoc
  | '*' :: c :: _ => if c = '*' || c = '/' then .skip else .token .outerBlockDoc
  | _ => .skip

theorem first?_opened {y : List Char} (h : upTo ['*', '/'] y = none) :
    first? ('/' :: '*' :: y) = some (.token .otherPunct, 1) := by
  have h₁ : outerBlockDoc ('/' :: '*' :: y) = none := by
    unfold outerBlockDoc
    split
    · next heq =>
      obtain ⟨-, rfl⟩ := List.cons.inj (List.cons.inj heq).2
      rw [upTo_tail h, Option.map_none, ite_self]
    · rfl
  have h₂ : innerBlockDoc ('/' :: '*' :: y) = none := by
    unfold innerBlockDoc
    split
    · next heq =>
      obtain ⟨-, rfl⟩ := List.cons.inj (List.cons.inj heq).2
      rw [upTo_tail h, Option.map_none]
    · rfl
  have h₃ : outerDoc ('/' :: '*' :: y) = none := rfl
  have h₄ : innerDoc ('/' :: '*' :: y) = none := rfl
  have h₅ : lineComment ('/' :: '*' :: y) = none := rfl
  rw [first?_of_slash, h₁, h₂, h₃, h₄, h₅, blockComment, h]
  rfl

theorem first?_closed {y : List Char} {k : Nat} (h : upTo ['*', '/'] y = some k) :
    first? ('/' :: '*' :: y) = some (blockOutcome y, k + 2) := by
  have h₃ : outerDoc ('/' :: '*' :: y) = none := rfl
  have h₄ : innerDoc ('/' :: '*' :: y) = none := rfl
  have hlater : ∀ {c cs}, y = c :: cs → (c = '*' → cs.head? ≠ some '/') →
      (upTo ['*', '/'] cs).map (· + 1) = some k := by
    rintro c cs rfl hc
    rw [upTo, if_neg] at h
    · exact h
    · rw [List.isPrefixOf_iff_prefix]
      intro hprefix
      obtain ⟨rfl, hslash⟩ := List.cons_prefix_cons.1 hprefix
      obtain ⟨z, rfl⟩ := hslash
      exact hc rfl rfl
  unfold blockOutcome
  split
  · next y =>
    obtain ⟨m, hm, rfl⟩ := Option.map_eq_some_iff.1 (hlater rfl (by simp))
    have h₁ : outerBlockDoc ('/' :: '*' :: '!' :: y) = none := rfl
    rw [first?_of_slash, h₁, innerBlockDoc, hm]
    rfl
  · next c y =>
    split
    · next hc =>
      have h₁ : outerBlockDoc ('/' :: '*' :: '*' :: c :: y) = none := by
        rw [outerBlockDoc, if_pos hc]
      have h₂ : innerBlockDoc ('/' :: '*' :: '*' :: c :: y) = none := rfl
      rw [first?_of_slash, h₁, h₂, h₃, h₄, blockComment, h]
      rfl
    · next hc =>
      have hslash : c ≠ '/' := by
        rintro rfl
        simp at hc
      obtain ⟨m, hm, rfl⟩ := Option.map_eq_some_iff.1 (hlater rfl (by simpa using hslash))
      rw [first?_of_slash, outerBlockDoc, if_neg hc, hm]
      rfl
  · next hbang hstar =>
    have h₁ : outerBlockDoc ('/' :: '*' :: y) = none := by
      unfold outerBlockDoc
      split
      · next heq => exact absurd (List.cons.inj (List.cons.inj heq).2).2 (hstar _ _)
      · rfl
    have h₂ : innerBlockDoc ('/' :: '*' :: y) = none := by
      unfold innerBlockDoc
      split
      · next heq => exact absurd (List.cons.inj (List.cons.inj heq).2).2 (hbang _)
      · rfl
    rw [first?_of_slash, h₁, h₂, h₃, h₄, blockComment, h]
    rfl

theorem upTo_replaced {stop q : List Char} {k : Nat} (hne : stop ≠ [])
    (h : upTo stop (q ++ x) = some k) (hk : k ≤ q.length) : upTo stop (q ++ r) = some k := by
  have hkept := upTo_kept hne (q.drop k ++ r) h
  rwa [List.take_append_of_le_length hk, ← List.append_assoc, List.take_append_drop] at hkept

/-- A closed comment stays one, whatever stands behind it. -/
theorem first?_closed_replaced {q : List Char} {k : Nat} (hq : upTo ['*', '/'] (q ++ x) = some k)
    (hk : k ≤ q.length) : first? ('/' :: '*' :: (q ++ r)) = first? ('/' :: '*' :: (q ++ x)) := by
  have hlong : 2 ≤ k := (upTo_bounds hq).1
  rw [first?_closed (upTo_replaced (by simp) hq hk), first?_closed hq]
  obtain ⟨c, d, q, rfl⟩ : ∃ c d q', q = c :: d :: q' := by
    rcases q with _ | ⟨c, _ | ⟨d, q⟩⟩
    · simp only [List.length_nil] at hk
      omega
    · simp only [List.length_cons, List.length_nil] at hk
      omega
    · exact ⟨c, d, q, rfl⟩
  have hsame : blockOutcome (c :: d :: q ++ r) = blockOutcome (c :: d :: q ++ x) := by
    simp only [List.cons_append]
    unfold blockOutcome
    split <;> simp_all
  rw [hsame]

theorem first?_slash_replaced {q : List Char} {o : Outcome}
    (h : first? ('/' :: q ++ x) = some (o, n)) (hn : n ≤ ('/' :: q).length)
    (hrep : Admits ('/' :: q) x r) : first? ('/' :: q ++ r) = some (o, n) := by
  rw [List.cons_append] at h ⊢
  rw [List.length_cons] at hn
  rcases q with _ | ⟨c, q⟩
  · rw [List.nil_append] at h ⊢
    rw [List.length_nil] at hn
    have hslash : x.head? ≠ some '/' := by
      intro hx
      obtain ⟨y, rfl⟩ := List.head?_eq_some_iff.1 hx
      rw [first?_slashes, Option.some.injEq, Prod.mk.injEq] at h
      omega
    have hsign : first? ('/' :: x) = some (.token .otherPunct, 1) := by
      by_cases hstar : x.head? = some '*'
      · obtain ⟨y, rfl⟩ := List.head?_eq_some_iff.1 hstar
        cases hy : upTo ['*', '/'] y with
        | none => exact first?_opened hy
        | some k =>
          rw [first?_closed hy, Option.some.injEq, Prod.mk.injEq] at h
          omega
      · exact first?_slash hslash hstar
    rw [← h, hsign]
    refine first?_slash (fun hr => hslash (hrep.slash hr)) fun hr => ?_
    exact absurd (hrep.brink _ hr) (by decide)
  rw [List.length_cons] at hn
  rw [List.cons_append] at h ⊢
  by_cases hslash : c = '/'
  · subst hslash
    rw [first?_slashes, Option.some.injEq, Prod.mk.injEq] at h
    obtain ⟨rfl, rfl⟩ := h
    have hle : run (· ≠ '\n') (q ++ x) ≤ q.length := by omega
    have hline := hrep.line q rfl
    rw [first?_slashes, run_line_replaced hle hline, lineOutcome_replaced hle hline]
  by_cases hstar : c = '*'
  · subst hstar
    cases hq : upTo ['*', '/'] (q ++ x) with
    | none => rw [first?_opened (hrep.block q rfl hq), ← h, first?_opened hq]
    | some k =>
      have hk : k ≤ q.length := by
        rw [first?_closed hq, Option.some.injEq, Prod.mk.injEq] at h
        omega
      rw [first?_closed_replaced hq hk, h]
  · rw [first?_slash (by simpa using hslash) (by simpa using hstar), ← h,
      first?_slash (by simpa using hslash) (by simpa using hstar)]

/-! ### The first lexeme -/

theorem Closed.replaced {m : List Char → Option Nat} (hm : Closed m) (h : m (p ++ x) = some n)
    (hn : n ≤ p.length) : m (p ++ r) = some n := by
  have hkept := hm _ _ (p.drop n ++ r) h
  rwa [List.take_append_of_le_length hn, ← List.append_assoc, List.take_append_drop] at hkept

/-- A letter opens a quoted literal or a word. -/
theorem first?_of_letter {c : Char} (hc : isWordStart c) (cs : List Char) : first? (c :: cs) =
    ((rawString (c :: cs)).map (.token .rawString, ·)).or
      (((string (c :: cs)).map (.token .string, ·)).or
        (((char (c :: cs)).map (.token .char, ·)).or ((markedWord (c :: cs)).map (.word, ·)))) := by
  have hslash : c ≠ '/' := ne_of_isWordStart hc (isWord_of_mem_signs (by simp))
  have hquote : c ≠ '\'' := ne_of_isWordStart hc (isWord_of_mem_signs (by simp))
  obtain ⟨h₁, h₂, h₃, h₄, -⟩ := slashless hslash cs
  have hlifetime : lifetime (c :: cs) = none := by
    unfold lifetime
    split <;> simp_all
  have hword : ∃ k, markedWord (c :: cs) = some k := by
    by_cases hmark : c = 'r' ∧ cs.head? = some '#'
    · obtain ⟨rfl, hcs⟩ := hmark
      obtain ⟨cs, rfl⟩ := List.head?_eq_some_iff.1 hcs
      exact ⟨_, markedWord_mark cs⟩
    · rw [markedWord_of_ne hmark, word, if_pos hc]
      exact ⟨_, rfl⟩
  obtain ⟨k, hk⟩ := hword
  simp only [first?, all, findSome?_cons_or, h₁, h₂, h₃, h₄, hlifetime, hk,
    number_of_not_digit (isLatinDigit_of_isWordStart hc), Option.map_none, Option.map_some,
    Option.none_or, Option.some_or]

/-- The lexeme that follows within `p`, if there is more of `p`. -/
def Follows (p x : List Char) (n : Nat) : Prop :=
  n < p.length → ∃ o' n', first? ((p ++ x).drop n) = some (o', n') ∧ n + n' ≤ p.length

/-- A letter in front of a sign that is not part of a name is a word of its own. -/
theorem markedWord_single {c d : Char} {cs : List Char} (hc : isWordStart c)
    (hd : isWord d = false) (hmark : d ≠ '#') : markedWord (c :: d :: cs) = some 1 := by
  rw [markedWord_of_ne (by simpa using fun _ => hmark), word, if_pos hc, run_cons, hd,
    if_neg Bool.false_ne_true]

theorem first?_letter_replaced {c : Char} {q : List Char} {o : Outcome} (hc : isWordStart c)
    (h : first? (c :: q ++ x) = some (o, n)) (hn : n ≤ (c :: q).length)
    (hnext : Follows (c :: q) x n) (hrep : Admits (c :: q) x r) :
    first? (c :: q ++ r) = some (o, n) := by
  have hr := hrep.brink
  rw [List.cons_append, first?_of_letter hc] at h ⊢
  cases hraw : rawString (c :: (q ++ x)) with
  | some k =>
    rw [hraw] at h
    obtain ⟨rfl, rfl⟩ := Prod.mk.inj (Option.some.inj h)
    have hraw' : rawString (c :: (q ++ r)) = some k := rawString_closed.replaced (p := c :: q) hraw hn
    rw [hraw']
    rfl
  | none =>
  have hraw' : rawString (c :: (q ++ r)) = none := hrep.raw hraw
  cases hstring : string (c :: (q ++ x)) with
  | some k =>
    rw [hraw, hstring] at h
    obtain ⟨rfl, rfl⟩ := Prod.mk.inj (Option.some.inj h)
    have hstring' : string (c :: (q ++ r)) = some k := string_closed.replaced (p := c :: q) hstring hn
    rw [hraw', hstring']
    rfl
  | none =>
  cases hchar : char (c :: (q ++ x)) with
  | some k =>
    rw [hraw, hstring, hchar] at h
    obtain ⟨rfl, rfl⟩ := Prod.mk.inj (Option.some.inj h)
    have hchar' : char (c :: (q ++ r)) = some k := char_closed.replaced (p := c :: q) hchar hn
    rw [hraw', (strings_of_char hchar').2, hchar']
    rfl
  | none =>
    rw [hraw, hstring, hchar] at h
    have hword : markedWord (c :: (q ++ x)) = some n := by
      cases hw : markedWord (c :: (q ++ x)) with
      | none => simp [hw] at h
      | some k =>
        rw [hw] at h
        rw [(Prod.mk.inj (Option.some.inj h)).2]
    have hfollows : ∀ d, q.head? = some d → isWord d = false → d ≠ '#' →
        ∃ o n, first? (q ++ x) = some (o, n) ∧ n ≤ q.length := by
      intro d hq hd hmark
      obtain ⟨q, rfl⟩ := List.head?_eq_some_iff.1 hq
      rw [List.cons_append, markedWord_single hc hd hmark] at hword
      obtain rfl := Option.some.inj hword
      obtain ⟨o', n', hfirst, hle⟩ := hnext (by simp)
      refine ⟨o', n', hfirst, ?_⟩
      simp only [List.length_cons] at hle ⊢
      omega
    have hstring' : string (c :: (q ++ r)) = none := by
      refine string_replaced hc hr hstring fun hq => ?_
      obtain ⟨o', n', hfirst, -⟩ := hfollows _ hq (isWord_of_mem_signs (by simp)) (by decide)
      exact ⟨o', n', hfirst⟩
    have hchar' : char (c :: (q ++ r)) = none :=
      char_replaced hc hr hchar fun hq =>
        hfollows _ hq (isWord_of_mem_signs (by simp)) (by decide)
    have hword' : markedWord (c :: (q ++ r)) = some n := markedWord_replaced (p := c :: q) hword hn hr
    rw [hraw', hstring', hchar', hword', ← h, hword]

/-- The first lexeme of a text stays the first if the text behind some lexemes is replaced. -/
theorem first?_replaced {c : Char} {q : List Char} {o : Outcome} (hblank : isBlank c = false)
    (h : first? (c :: q ++ x) = some (o, n)) (hn : n ≤ (c :: q).length)
    (hnext : Follows (c :: q) x n) (hrep : Admits (c :: q) x r) :
    first? (c :: q ++ r) = some (o, n) := by
  have hr := hrep.brink
  by_cases hslash : c = '/'
  · subst hslash
    exact first?_slash_replaced h hn hrep
  by_cases hletter : isWordStart c
  · exact first?_letter_replaced hletter h hn hnext hrep
  by_cases hquote : c = '"'
  · subst hquote
    rw [List.cons_append] at h ⊢
    have hstring := string_of_first? h
    have hstring' : string ('"' :: (q ++ r)) = some n :=
      string_closed.replaced (p := '"' :: q) hstring hn
    rw [first?_of_quote (Or.inl rfl), hstring] at h
    rw [first?_of_quote (Or.inl rfl), hstring', ← h]
    rfl
  by_cases hsingle : c = '\''
  · subst hsingle
    rw [List.cons_append, first?_of_quote (Or.inr rfl)] at h ⊢
    have hnone : ∀ y, string ('\'' :: y) = none := fun _ => rfl
    rw [hnone] at h ⊢
    cases hchar : char ('\'' :: (q ++ x)) with
    | some k =>
      rw [hchar] at h
      obtain ⟨rfl, rfl⟩ := Prod.mk.inj (Option.some.inj h)
      have hchar' : char ('\'' :: (q ++ r)) = some k :=
        char_closed.replaced (p := '\'' :: q) hchar hn
      rw [hchar']
      rfl
    | none =>
      rw [hchar] at h
      cases hl : lifetime ('\'' :: (q ++ x)) with
      | none => simp [hl] at h
      | some k =>
        rw [hl] at h
        obtain ⟨rfl, rfl⟩ := Prod.mk.inj (Option.some.inj h)
        have hchar' : char ('\'' :: (q ++ r)) = none := quotedChar_replaced hchar hl hn hr
        have hl' : lifetime ('\'' :: (q ++ r)) = some k :=
          lifetime_replaced (p := '\'' :: q) hl hn hr
        rw [hchar', hl']
        rfl
  by_cases hdigit : isLatinDigit c
  · rw [List.cons_append, first?_of_digit hdigit, Option.map_eq_some_iff] at h
    obtain ⟨k, hk, heq⟩ := h
    obtain ⟨rfl, rfl⟩ := Prod.mk.inj heq
    have hk' : number (c :: (q ++ r)) = some k := number_replaced hk hn hr
    rw [List.cons_append, first?_of_digit hdigit, hk', Option.map_some]
  · have hopen : c ∉ ['b', 'c', 'r', '"', '\''] := by
      simp only [List.mem_cons, List.not_mem_nil, or_false, not_or]
      refine ⟨?_, ?_, ?_, hquote, hsingle⟩
      all_goals
        rintro rfl
        exact hletter (isWordStart_of_mem_letters (by simp))
    have hsign : isSign c := isSign_of_classes (by simpa using hletter) hopen (by simpa using hdigit)
      (by simpa using hblank)
    exact first?_sign_replaced hsign hslash h hn hrep

end

end Terminal

/-! ### Rows of lexemes -/

theorem scanFrom_run {start : Nat} {loc : Loc} {c : Char} (hc : isBlank c) (cs : List Char) :
    scanFrom start loc (c :: cs) =
      scanFrom (start + run isBlank (c :: cs)) (loc.after ((c :: cs).take (run isBlank (c :: cs))))
        ((c :: cs).drop (run isBlank (c :: cs))) := by
  rw [scanFrom_lexeme (first?_blank hc cs)]
  rfl

theorem scanFrom_blank {start : Nat} {loc : Loc} {c : Char} (hc : isBlank c) (cs : List Char) :
    scanFrom start loc (c :: cs) = scanFrom (start + 1) (loc.step c) cs := by
  rw [scanFrom_run hc, run_cons, if_pos hc]
  cases cs with
  | nil => simp [run]
  | cons d cs =>
    by_cases hd : isBlank d
    · rw [scanFrom_run hd, List.take_succ_cons, List.drop_succ_cons, Loc.after_cons, Nat.add_assoc,
        Nat.add_comm 1]
    · rw [run_cons, if_neg hd]
      rfl

/-- Blanks in front of a text only move its tokens. -/
theorem scanFrom_blanks : ∀ (start : Nat) (loc : Loc) {bs : List Char} (cs : List Char),
    (∀ c ∈ bs, isBlank c) → scanFrom start loc (bs ++ cs) =
      scanFrom (start + bs.length) (loc.after bs) cs
  | _, _, [], _, _ => rfl
  | start, loc, b :: bs, cs, h => by
    rw [List.cons_append, scanFrom_blank (h b List.mem_cons_self),
      scanFrom_blanks _ _ cs fun c hc => h c (List.mem_cons_of_mem b hc), List.length_cons,
      Loc.after_cons, Nat.add_assoc, Nat.add_comm 1]

theorem Cuts.follows {start : Nat} {loc : Loc} {p x : List Char} {us : List Token}
    (h : Cuts start loc (p ++ x) us x) (hp : p ≠ []) :
    ∃ o n, first? (p ++ x) = some (o, n) ∧ n ≤ p.length := by
  generalize hcs : p ++ x = cs at h
  cases h with
  | stop => exact absurd (by simpa using hcs) hp
  | @lexeme _ _ _ _ o n ts hfirst hcuts =>
    subst hcs
    refine ⟨o, n, hfirst, ?_⟩
    obtain ⟨pre, hpre⟩ := hcuts.suffix
    have hlen := congrArg List.length hpre
    have := (first?_bounds hfirst).2
    simp only [List.length_drop, List.length_append] at hlen this
    omega

/-- `Boundary x p q`: `q` is what is left of `p` behind some lexemes, when `x` stands behind `p`. -/
inductive Boundary (x : List Char) : List Char → List Char → Prop
  | here {p : List Char} : Boundary x p p
  | next {p q : List Char} {o : Outcome} {n : Nat} : first? (p ++ x) = some (o, n) →
      n ≤ p.length → Boundary x (p.drop n) q → Boundary x p q

theorem Boundary.suffix {x p q : List Char} (h : Boundary x p q) : q <:+ p := by
  induction h with
  | here => exact List.suffix_rfl
  | next _ _ _ ih => exact ih.trans (List.drop_suffix ..)

/-- Lexemes stay as they are if the text behind them is replaced by one that each of them admits. -/
theorem Cuts.scanFrom_admitted {start : Nat} {loc : Loc} {p x r : List Char} {us : List Token}
    (h : Cuts start loc (p ++ x) us x) (hrep : ∀ q, Boundary x p q → q ≠ [] → Admits q x r) :
    scanFrom start loc (p ++ r) =
      (scanFrom (start + p.length) (loc.after p) r).prepend us := by
  generalize hcs : p ++ x = cs at h
  induction h generalizing p with
  | @stop start loc cs =>
    obtain rfl : p = [] := by simpa using hcs
    rfl
  | @lexeme start loc cs x o n ts hfirst hcuts ih =>
    subst hcs
    obtain ⟨pre, hpre⟩ := hcuts.suffix
    obtain ⟨hpos, hle⟩ := first?_bounds hfirst
    generalize hlexeme : (p ++ x).take n = lexeme at *
    have hlen : lexeme.length = n := by rw [← hlexeme, List.length_take_of_le hle]
    obtain rfl : p = lexeme ++ pre := by
      have hsplit : p ++ x = (lexeme ++ pre) ++ x := by
        rw [List.append_assoc, ← hpre, ← hlexeme, List.take_append_drop]
      exact List.append_cancel_right hsplit
    have hfits : n ≤ (lexeme ++ pre).length := by
      rw [List.length_append, hlen]
      omega
    have htail := ih (fun q hq => hrep q (.next hfirst hfits (by rwa [← hlen, List.drop_left])))
      hpre.symm
    obtain ⟨c, q, rfl⟩ : ∃ c q, lexeme = c :: q := by
      cases lexeme with
      | nil =>
        rw [List.length_nil] at hlen
        omega
      | cons c q => exact ⟨c, q, rfl⟩
    rw [List.append_assoc, List.length_append, hlen, Loc.after_append, ← Nat.add_assoc]
    by_cases hc : isBlank c
    · -- a run of blanks may go on in the new text, but then it only gets longer
      have hrun := first?_blank hc (q ++ (pre ++ x))
      rw [List.append_assoc, List.cons_append] at hfirst hlexeme
      rw [hfirst, Option.some.injEq, Prod.mk.injEq] at hrun
      obtain ⟨rfl, rfl⟩ := hrun
      rw [take_run] at hlexeme
      have hblank : ∀ d ∈ c :: q, isBlank d := fun d hd => List.mem_takeWhile_imp (hlexeme ▸ hd)
      rw [scanFrom_blanks start loc _ hblank, hlen, htail]
      rfl
    · have hfollows : Follows (c :: q ++ pre) x n := by
        intro hlt
        have hne : pre ≠ [] := by
          rintro rfl
          rw [List.append_nil, hlen] at hlt
          omega
        rw [hpre] at hcuts
        obtain ⟨o', n', hnext, hn'⟩ := hcuts.follows hne
        refine ⟨o', n', by rw [hpre, hnext], ?_⟩
        rw [List.length_append, hlen]
        omega
      have hnew : first? (c :: q ++ (pre ++ r)) = some (o, n) := by
        rw [← List.append_assoc]
        exact first?_replaced (by simpa using hc) hfirst hfits hfollows (hrep _ .here (by simp))
      have htake : (c :: q ++ (pre ++ r)).take n = c :: q := by
        rw [← hlen, List.take_left]
      have hdrop : (c :: q ++ (pre ++ r)).drop n = pre ++ r := by
        rw [← hlen, List.drop_left]
      rw [scanFrom_lexeme hnew, htake, hdrop, htail]
      simp only [Scan.prepend, List.append_assoc]

theorem Terminal.Replaces.admits {p x r : List Char} (h : Replaces p x r) (hp : p ≠ []) :
    Admits p x r where
  brink := h.brink
  slash := h.slash
  line := fun _ _ _ => h.line
  join := by
    rintro c d - hd
    obtain ⟨hgt, hcolon⟩ := h.join d hd
    simp [doubles, hgt, hcolon]
  raw := rawString_replaced h.brink h.closed hp
  block := by
    rintro q rfl hq
    exact h.closed _ (by decide) q ⟨['/', '*'], rfl⟩ hq

/-- Lexemes stay as they are if the text behind them is replaced. -/
theorem Cuts.scanFrom_replaced {start : Nat} {loc : Loc} {p x r : List Char} {us : List Token}
    (h : Cuts start loc (p ++ x) us x) (hrep : Replaces p x r) :
    scanFrom start loc (p ++ r) =
      (scanFrom (start + p.length) (loc.after p) r).prepend us :=
  h.scanFrom_admitted fun _ hq => (hrep.of_suffix hq.suffix).admits

end TraitLift
