import TraitLift.Proofs.Token.Edge

/-!
A lexeme does not depend on what stands behind it, as long as a blank or the end of the text does.
`first?_of_matches` says so for every terminal that makes tokens: cut its lexeme out of a text, put
it in front of an edge, and it is the first lexeme there, of the same kind. No terminal that comes
earlier takes the new text over, whatever it did with the old one.
-/

namespace TraitLift.Terminal

open TraitLift.Text

/-! ### What earlier terminals leave alone -/

theorem slashless {c : Char} (hc : c ≠ '/') (cs : List Char) :
    outerBlockDoc (c :: cs) = none ∧ innerBlockDoc (c :: cs) = none ∧ outerDoc (c :: cs) = none ∧
    innerDoc (c :: cs) = none ∧ blockComment (c :: cs) = none ∧ lineComment (c :: cs) = none := by
  refine ⟨?_, ?_, ?_, ?_, ?_, ?_⟩
  · unfold outerBlockDoc
    split <;> simp_all
  · unfold innerBlockDoc
    split <;> simp_all
  · unfold outerDoc
    split <;> simp_all
  · unfold innerDoc
    split <;> simp_all
  · unfold blockComment
    split <;> simp_all
  · unfold lineComment
    split <;> simp_all

/-- Texts that start with none of the characters that can open a quoted literal. -/
theorem quoteless {c : Char} (hc : c ∉ ['b', 'c', 'r', '"', '\'']) (cs : List Char) :
    rawString (c :: cs) = none ∧ string (c :: cs) = none ∧ char (c :: cs) = none ∧
    lifetime (c :: cs) = none := by
  simp only [List.mem_cons, List.not_mem_nil, or_false, not_or] at hc
  obtain ⟨hb, hc, hr, hquote, hsingle⟩ := hc
  have hhead : ∀ d ∈ (c :: cs).head?, d ≠ 'b' ∧ d ≠ 'c' := by
    rintro d hd
    obtain rfl : c = d := by simpa using hd
    exact ⟨hb, hc⟩
  refine ⟨?_, ?_, ?_, ?_⟩
  · rw [rawString, afterPrefix_of_head _ hhead]
    split <;> simp_all
  · rw [string, afterPrefix_of_head _ hhead]
    split <;> simp_all
  · unfold char quotedChar
    split <;> simp_all
  · unfold lifetime
    split <;> simp_all

theorem not_mem_of_class {p : Char → Bool} {l : List Char} (hl : l.all (!p ·) = true) {c : Char}
    (hc : p c) : c ∉ l := by
  intro hmem
  have hnot := List.all_eq_true.1 hl c hmem
  rw [hc] at hnot
  exact absurd hnot Bool.false_ne_true

theorem number_of_not_digit {c : Char} (hc : isLatinDigit c = false) (cs : List Char) :
    number (c :: cs) = none := by
  have hzero : c ≠ '0' := by
    rintro rfl
    exact absurd hc (by decide)
  have hdecimal : decimalNumber (c :: cs) = none := by
    simp [decimalNumber, decimalDigits, hc]
  rw [number, radixNumber_of_ne hzero, hdecimal]
  rfl

theorem isLatinDigit_of_isWordStart {c : Char} (h : isWordStart c) : isLatinDigit c = false := by
  rw [← Bool.not_eq_true]
  intro hdigit
  have := isDigit_of_isLatinDigit hdigit
  simp [isWordStart, this] at h

theorem afterPrefix_of_wordy {m : List Char → Option Nat} (hm : ∀ x, Wordy x → m x = none)
    {cs : List Char} (h : Wordy cs) : afterPrefix m cs = none := by
  unfold afterPrefix
  split
  · rw [hm _ (h.tail (by decide)), Option.map_none]
  · rw [hm _ (h.tail (by decide)), Option.map_none]
  · exact hm _ h

theorem Wordy.quotedChar {cs : List Char} (h : Wordy cs) : quotedChar cs = none := by
  unfold Terminal.quotedChar
  split
  · exact absurd h.head (by decide)
  · rfl

theorem Wordy.quoteless {cs : List Char} (h : Wordy cs) :
    rawString cs = none ∧ string cs = none ∧ char cs = none ∧ lifetime cs = none := by
  refine ⟨afterPrefix_of_wordy (fun x hx => ?_) h, afterPrefix_of_wordy (fun x hx => ?_) h, ?_, ?_⟩
  · split
    case h_5 => rfl
    all_goals exact absurd (hx.tail (by decide)).head (by decide)
  · split
    · exact absurd hx.head (by decide)
    · rfl
  · unfold char
    split
    · rw [(h.tail (by decide)).quotedChar, Option.map_none]
    · exact h.quotedChar
  · unfold lifetime
    split
    · exact absurd h.head (by decide)
    · rfl

theorem isWord_of_isWordStart {c : Char} (h : isWordStart c) : isWord c := by
  rw [isWordStart, Bool.and_eq_true] at h
  exact h.1

theorem NameFront.quoteless {cs : List Char} (h : NameFront cs) :
    rawString cs = none ∧ string cs = none ∧ char cs = none ∧ lifetime cs = none := by
  cases h with
  | plain hc hcs => exact Wordy.quoteless (Or.inr ⟨isWord_of_isWordStart hc, hcs⟩)
  | @marked c cs hc =>
    have hquote : c ≠ '"' := by
      rintro rfl
      exact absurd hc (by decide)
    have hmark : c ≠ '#' := by
      rintro rfl
      exact absurd hc (by decide)
    refine ⟨?_, rfl, rfl, rfl⟩
    rw [rawString, afterPrefix]
    · split <;> simp_all
    all_goals simp

/-- A name opens no quoted character, so a quote in front of it makes a lifetime. -/
theorem NameFront.char {cs : List Char} (h : NameFront cs) : char ('\'' :: cs) = none := by
  have hbody : ∀ {c : Char} (cs : List Char), isWordStart c → charBody (c :: cs) = none ∨
      charBody (c :: cs) = some 1 := by
    intro c cs hc
    have hslash : c ≠ '\\' := by
      rintro rfl
      exact absurd hc (by decide)
    rw [charBody_cons hslash]
    split
    · exact Or.inl rfl
    · exact Or.inr rfl
  change quotedChar ('\'' :: cs) = none
  rw [quotedChar]
  cases h with
  | @plain c cs hc hcs =>
    rcases hbody cs hc with hnone | hone
    · rw [hnone]
    · have hquote : cs.head? ≠ some '\'' := by
        intro hhead
        obtain ⟨rest, rfl⟩ := List.head?_eq_some_iff.1 hhead
        exact absurd hcs.head (by decide)
      simp [hone, hquote]
  | @marked c cs hc =>
    rcases hbody (c := 'r') ('#' :: c :: cs) (by decide) with hnone | hone
    · rw [hnone]
    · simp [hone]

theorem NameFront.exists_cons {cs : List Char} (h : NameFront cs) :
    ∃ c x, cs = c :: x ∧ isWordStart c := by
  cases h with
  | plain hc _ => exact ⟨_, _, rfl, hc⟩
  | marked _ => exact ⟨'r', _, rfl, by decide⟩

/-! ### The lexeme of a token in front of an edge -/

theorem Bounded.exists_cons {m : List Char → Option Nat} (hm : Bounded m) {x : List Char} {n : Nat}
    (h : m x = some n) : ∃ c y, x = c :: y := by
  cases x with
  | nil =>
    have := hm _ _ h
    simp only [List.length_nil] at this
    omega
  | cons c y => exact ⟨c, y, rfl⟩

section

variable {cs r : List Char} {n : Nat}

theorem first?_outerBlockDoc (h : outerBlockDoc cs = some n) :
    first? (cs.take n ++ r) = some (.token .outerBlockDoc, n) := by
  simp only [first?, all, List.findSome?_cons, outerBlockDoc_closed _ _ r h, Option.map_some]

theorem first?_innerBlockDoc (h : innerBlockDoc cs = some n) :
    first? (cs.take n ++ r) = some (.token .innerBlockDoc, n) := by
  have hkept := innerBlockDoc_closed _ _ r h
  have hearlier : outerBlockDoc (cs.take n ++ r) = none := by
    generalize cs.take n ++ r = x at hkept
    unfold innerBlockDoc at hkept
    split at hkept
    · rfl
    · simp at hkept
  simp only [first?, all, List.findSome?_cons, hearlier, hkept, Option.map_some, Option.map_none]

theorem line_kept (hr : LineEdge r) (cs : List Char) :
    run (· ≠ '\n') (cs.take (run (· ≠ '\n') cs) ++ r) = run (· ≠ '\n') cs := by
  refine run_take_append (fun c hc => ?_) (le_refl _)
  rw [hr c hc]
  rfl

theorem first?_outerDoc_opener {x : List Char} (hx : x.head? ≠ some '/') :
    first? ('/' :: '/' :: '/' :: x) = some (.token .outerDoc, run (· ≠ '\n') x + 3) := by
  have h₁ : outerBlockDoc ('/' :: '/' :: '/' :: x) = none := rfl
  have h₂ : innerBlockDoc ('/' :: '/' :: '/' :: x) = none := rfl
  have h₃ : outerDoc ('/' :: '/' :: '/' :: x) = some (run (· ≠ '\n') x + 3) := by
    rw [outerDoc, if_neg hx]
  simp only [first?, all, List.findSome?_cons, h₁, h₂, h₃, Option.map_some, Option.map_none]

theorem first?_innerDoc_opener (x : List Char) :
    first? ('/' :: '/' :: '!' :: x) = some (.token .innerDoc, run (· ≠ '\n') x + 3) := by
  have h₁ : outerBlockDoc ('/' :: '/' :: '!' :: x) = none := rfl
  have h₂ : innerBlockDoc ('/' :: '/' :: '!' :: x) = none := rfl
  have h₃ : outerDoc ('/' :: '/' :: '!' :: x) = none := rfl
  simp only [first?, all, List.findSome?_cons, h₁, h₂, h₃, innerDoc, Option.map_some,
    Option.map_none]

theorem head?_take_append_ne_slash (hcs : cs.head? ≠ some '/') (hr : Edge r) (j : Nat) :
    (cs.take j ++ r).head? ≠ some '/' := by
  rw [List.head?_append, List.head?_take, Ne, Option.or_eq_some_iff]
  rintro (hhead | ⟨-, hhead⟩)
  · split at hhead
    · simp at hhead
    · exact hcs hhead
  · exact absurd (hr _ hhead) (by decide)

/-- A line of doc comment by its opener and the rest of its line. -/
theorem outerDoc_eq_some_iff : outerDoc cs = some n ↔
    ∃ x, cs = '/' :: '/' :: '/' :: x ∧ x.head? ≠ some '/' ∧ n = run (· ≠ '\n') x + 3 := by
  constructor
  · intro h
    unfold outerDoc at h
    split at h
    · next x =>
      split at h
      · simp at h
      · next hx => exact ⟨x, rfl, hx, (Option.some.inj h).symm⟩
    · simp at h
  · rintro ⟨x, rfl, hx, rfl⟩
    rw [outerDoc, if_neg hx]

theorem innerDoc_eq_some_iff : innerDoc cs = some n ↔
    ∃ x, cs = '/' :: '/' :: '!' :: x ∧ n = run (· ≠ '\n') x + 3 := by
  constructor
  · intro h
    unfold innerDoc at h
    split at h
    · next x => exact ⟨x, rfl, (Option.some.inj h).symm⟩
    · simp at h
  · rintro ⟨x, rfl, rfl⟩
    rfl

theorem first?_outerDoc (h : outerDoc cs = some n) (hr : LineEdge r) :
    first? (cs.take n ++ r) = some (.token .outerDoc, n) := by
  obtain ⟨x, rfl, hx, rfl⟩ := outerDoc_eq_some_iff.1 h
  rw [List.take_succ_cons, List.take_succ_cons, List.take_succ_cons, List.cons_append,
    List.cons_append, List.cons_append,
    first?_outerDoc_opener (head?_take_append_ne_slash hx hr.edge _), line_kept hr]

theorem first?_innerDoc (h : innerDoc cs = some n) (hr : LineEdge r) :
    first? (cs.take n ++ r) = some (.token .innerDoc, n) := by
  obtain ⟨x, rfl, rfl⟩ := innerDoc_eq_some_iff.1 h
  rw [List.take_succ_cons, List.take_succ_cons, List.take_succ_cons, List.cons_append,
    List.cons_append, List.cons_append, first?_innerDoc_opener, line_kept hr]

theorem first?_rawString (h : rawString cs = some n) :
    first? (cs.take n ++ r) = some (.token .rawString, n) := by
  have hkept := rawString_closed _ _ r h
  obtain ⟨c, x, hx⟩ := rawString_bounded.exists_cons hkept
  rw [hx] at hkept ⊢
  have hslash : c ≠ '/' := by
    rintro rfl
    rw [(quoteless (by decide) x).1] at hkept
    simp at hkept
  obtain ⟨h₁, h₂, h₃, h₄, -⟩ := slashless hslash x
  simp only [first?, all, List.findSome?_cons, h₁, h₂, h₃, h₄, hkept, Option.map_some,
    Option.map_none]

theorem rawString_of_string {x : List Char} (h : string x = some n) : rawString x = none := by
  unfold string afterPrefix at h
  beta_reduce at h
  split at h
  · split at h
    · rfl
    · simp at h
  · split at h
    · rfl
    · simp at h
  · split at h
    · rfl
    · simp at h

theorem first?_string (h : string cs = some n) :
    first? (cs.take n ++ r) = some (.token .string, n) := by
  have hkept := string_closed _ _ r h
  have hraw := rawString_of_string hkept
  obtain ⟨c, x, hx⟩ := string_bounded.exists_cons hkept
  rw [hx] at hkept hraw ⊢
  have hslash : c ≠ '/' := by
    rintro rfl
    rw [(quoteless (by decide) x).2.1] at hkept
    simp at hkept
  obtain ⟨h₁, h₂, h₃, h₄, -⟩ := slashless hslash x
  simp only [first?, all, List.findSome?_cons, h₁, h₂, h₃, h₄, hraw, hkept, Option.map_some,
    Option.map_none]

theorem strings_of_char {x : List Char} (h : char x = some n) :
    rawString x = none ∧ string x = none := by
  unfold char at h
  split at h
  · obtain ⟨k, hk, -⟩ := Option.map_eq_some_iff.1 h
    unfold quotedChar at hk
    split at hk
    · exact ⟨rfl, rfl⟩
    · simp at hk
  · unfold quotedChar at h
    split at h
    · exact ⟨rfl, rfl⟩
    · simp at h

theorem first?_char (h : char cs = some n) :
    first? (cs.take n ++ r) = some (.token .char, n) := by
  have hkept := char_closed _ _ r h
  obtain ⟨hraw, hstring⟩ := strings_of_char hkept
  obtain ⟨c, x, hx⟩ := char_bounded.exists_cons hkept
  rw [hx] at hkept hraw hstring ⊢
  have hslash : c ≠ '/' := by
    rintro rfl
    rw [(quoteless (by decide) x).2.2.1] at hkept
    simp at hkept
  obtain ⟨h₁, h₂, h₃, h₄, -⟩ := slashless hslash x
  simp only [first?, all, List.findSome?_cons, h₁, h₂, h₃, h₄, hraw, hstring, hkept,
    Option.map_some, Option.map_none]

theorem first?_number (h : number cs = some n) (hr : Edge r) :
    first? (cs.take n ++ r) = some (.token .number, n) := by
  have hkept := number_kept _ _ _ h hr
  obtain ⟨c, x, hx⟩ := number_bounded.exists_cons hkept
  rw [hx] at hkept ⊢
  have hdigit : isLatinDigit c := by
    rw [← Bool.not_eq_false]
    intro hc
    rw [number_of_not_digit hc] at hkept
    simp at hkept
  have hopen : c ∉ ['/', 'b', 'c', 'r', '"', '\''] := not_mem_of_class (by decide) hdigit
  rw [List.mem_cons, not_or] at hopen
  obtain ⟨h₁, h₂, h₃, h₄, -⟩ := slashless hopen.1 x
  obtain ⟨hraw, hstring, hchar, -⟩ := quoteless hopen.2 x
  simp only [first?, all, List.findSome?_cons, h₁, h₂, h₃, h₄, hraw, hstring, hchar, hkept,
    Option.map_some, Option.map_none]

theorem first?_lifetime (h : lifetime cs = some n) (hr : Edge r) :
    first? (cs.take n ++ r) = some (.token .lifetime, n) := by
  unfold lifetime at h
  split at h
  · next cs =>
    obtain ⟨k, hk, rfl⟩ := Option.map_eq_some_iff.1 h
    obtain ⟨hfront, hkept⟩ := markedWord_front hk hr
    rw [List.take_succ_cons, List.cons_append]
    obtain ⟨h₁, h₂, h₃, h₄, -⟩ := slashless (c := '\'') (by decide) (cs.take k ++ r)
    have hraw : rawString ('\'' :: (cs.take k ++ r)) = none := rfl
    have hstring : string ('\'' :: (cs.take k ++ r)) = none := rfl
    simp only [first?, all, List.findSome?_cons, h₁, h₂, h₃, h₄, hraw, hstring, hfront.char,
      number_of_not_digit (c := '\'') (by decide), lifetime, hkept, Option.map_some,
      Option.map_none]
  · simp at h

theorem first?_word (h : markedWord cs = some n) (hr : Edge r) :
    first? (cs.take n ++ r) = some (.word, n) := by
  obtain ⟨hfront, hkept⟩ := markedWord_front h hr
  obtain ⟨hraw, hstring, hchar, hlifetime⟩ := hfront.quoteless
  obtain ⟨c, x, hx, hc⟩ := hfront.exists_cons
  rw [hx] at hkept hraw hstring hchar hlifetime ⊢
  have hslash : c ≠ '/' := by
    rintro rfl
    exact absurd hc (by decide)
  obtain ⟨h₁, h₂, h₃, h₄, -⟩ := slashless hslash x
  simp only [first?, all, List.findSome?_cons, h₁, h₂, h₃, h₄, hraw, hstring, hchar, hlifetime,
    number_of_not_digit (isLatinDigit_of_isWordStart hc), hkept, Option.map_some, Option.map_none]

/-! Punctuation is a fixed text, so it is enough that the edge behind it changes no answer. -/

theorem exactly_append {u : List Char} (hu : u.all (!isBlank ·) = true) (hr : Edge r)
    (v : List Char) : exactly u (v ++ r) = exactly u v := by
  have hiff : u.isPrefixOf (v ++ r) = u.isPrefixOf v := by
    induction u generalizing v with
    | nil => simp
    | cons a u ih =>
      cases v with
      | nil =>
        cases r with
        | nil => rfl
        | cons c r =>
          have hne : a ≠ c := by
            rintro rfl
            exact not_mem_of_class hu hr.cons List.mem_cons_self
          simp [List.isPrefixOf, hne]
      | cons c v =>
        rw [List.all_cons, Bool.and_eq_true] at hu
        have ih := ih hu.2 v
        simp only [List.cons_append, List.isPrefixOf, ih]
  rw [exactly, exactly, hiff]

theorem first?_congr {x y : List Char} (h : ∀ t ∈ all, t.2 x = t.2 y) : first? x = first? y := by
  have hmap : ∀ x, first? x = (all.map fun t => (t.2 x).map (t.1, ·)).findSome? id := by
    intro x
    rw [List.findSome?_map]
    rfl
  rw [hmap, hmap, List.map_congr_left fun t ht => by rw [h t ht]]

/-- Characters that open nothing but punctuation. -/
def isSign (c : Char) : Bool :=
  !(['b', 'c', 'r', '"', '\''].contains c || isLatinDigit c || isWordStart c || isBlank c)

theorem markedWord_of_not_start {c : Char} (hc : isWordStart c = false) (cs : List Char) :
    markedWord (c :: cs) = none := by
  unfold markedWord
  split
  · next heq =>
    obtain ⟨rfl, -⟩ := List.cons.inj heq
    exact absurd hc (by decide)
  · simp [word, hc]

theorem isSign_silent {c : Char} (hc : isSign c) (x : List Char) :
    rawString (c :: x) = none ∧ string (c :: x) = none ∧ char (c :: x) = none ∧
    number (c :: x) = none ∧ lifetime (c :: x) = none ∧ markedWord (c :: x) = none ∧
    blanks (c :: x) = none := by
  simp only [isSign, Bool.not_eq_true', Bool.or_eq_false_iff, List.contains_eq_mem,
    decide_eq_false_iff_not] at hc
  obtain ⟨⟨⟨hopen, hdigit⟩, hword⟩, hblank⟩ := hc
  obtain ⟨hraw, hstring, hchar, hlifetime⟩ := quoteless hopen x
  refine ⟨hraw, hstring, hchar, number_of_not_digit hdigit x, hlifetime,
    markedWord_of_not_start hword x, ?_⟩
  rw [blanks, run_cons, hblank, if_neg Bool.false_ne_true]

/-- Comments open with a slash and a character that is no blank. -/
theorem comments_append {c : Char} (hr : Edge r) (v : List Char) (hv : c = '/' → v = []) :
    outerBlockDoc (c :: (v ++ r)) = none ∧ innerBlockDoc (c :: (v ++ r)) = none ∧
    outerDoc (c :: (v ++ r)) = none ∧ innerDoc (c :: (v ++ r)) = none ∧
    blockComment (c :: (v ++ r)) = none ∧ lineComment (c :: (v ++ r)) = none := by
  by_cases hc : c = '/'
  · subst hc
    obtain rfl := hv rfl
    cases r with
    | nil => decide
    | cons d r =>
      have hslash : d ≠ '/' := by
        rintro rfl
        exact absurd hr.cons (by decide)
      have hstar : d ≠ '*' := by
        rintro rfl
        exact absurd hr.cons (by decide)
      refine ⟨?_, ?_, ?_, ?_, ?_, ?_⟩
      · unfold outerBlockDoc
        split <;> simp_all
      · unfold innerBlockDoc
        split <;> simp_all
      · unfold outerDoc
        split <;> simp_all
      · unfold innerDoc
        split <;> simp_all
      · unfold blockComment
        split <;> simp_all
      · unfold lineComment
        split <;> simp_all
  · exact slashless hc (v ++ r)

theorem first?_sign_append {c : Char} (hc : isSign c) (hr : Edge r) (v : List Char)
    (hv : c = '/' → v = []) : first? (c :: v ++ r) = first? (c :: v) := by
  have hempty : Edge [] := by simp [Edge]
  have hcomments := comments_append hr v hv
  have hcomments' := comments_append hempty v hv
  rw [List.append_nil] at hcomments'
  have hsilent := isSign_silent hc (v ++ r)
  have hsilent' := isSign_silent hc v
  have hother : otherPunct (c :: (v ++ r)) = otherPunct (c :: v) := rfl
  have hexactly : ∀ u : List Char, u.all (!isBlank ·) = true →
      exactly u (c :: (v ++ r)) = exactly u (c :: v) := fun u hu => exactly_append hu hr (c :: v)
  refine first?_congr ?_
  simp (disch := decide) only [all, List.forall_mem_cons, hcomments, hcomments', hsilent, hsilent',
    List.cons_append, hother, hexactly, List.not_mem_nil, false_implies, implies_true, and_self]

theorem first?_exactly {k : Kind} {c : Char} {v : List Char}
    (hfixed : isSign c ∧ c ≠ '/' ∧ first? (c :: v) = some (.token k, v.length + 1))
    (h : exactly (c :: v) cs = some n) (hr : Edge r) :
    first? (cs.take n ++ r) = some (.token k, n) := by
  unfold exactly at h
  split at h
  · next hp =>
    obtain rfl := Option.some.inj h
    rw [← List.prefix_iff_eq_take.1 (List.isPrefixOf_iff_prefix.1 hp),
      first?_sign_append hfixed.1 hr v (fun h => absurd h hfixed.2.1), hfixed.2.2]
    rfl
  · simp at h

theorem first?_otherPunct (h : otherPunct cs = some n) (hr : Edge r) :
    first? (cs.take n ++ r) = some (.token .otherPunct, n) := by
  unfold otherPunct at h
  split at h
  · next c cs =>
    split at h
    · next hc =>
      obtain rfl := Option.some.inj h
      have hfixed : (['/', '%', '^', '|', '@', '$', '~', '\\'].all fun c =>
          isSign c && first? [c] == some (.token .otherPunct, 1)) = true := by
        decide +kernel
      have hmem : c ∈ ['/', '%', '^', '|', '@', '$', '~', '\\'] := by
        simpa using hc
      have hsign := List.all_eq_true.1 hfixed c hmem
      rw [Bool.and_eq_true, beq_iff_eq] at hsign
      rw [List.take_succ_cons, List.take_zero, first?_sign_append hsign.1 hr [] (fun _ => rfl), hsign.2]
    · simp at h
  · simp at h


end

/-- Cut the lexeme of a token out of its text and put it in front of an edge, for a line of doc
comment the end of a line: there it is the first lexeme again. -/
theorem first?_of_matches {t : Outcome × (List Char → Option Nat)} (ht : t ∈ all) {cs r : List Char}
    {n : Nat} (hskip : t.1 ≠ .skip) (h : t.2 cs = some n) (hr : Edge r)
    (hline : t.1 = .token .outerDoc ∨ t.1 = .token .innerDoc → LineEdge r) :
    first? (cs.take n ++ r) = some (t.1, n) := by
  revert hskip h hline
  revert t
  simp only [all, List.forall_mem_cons]
  refine ⟨fun _ h _ => first?_outerBlockDoc h, fun _ h _ => first?_innerBlockDoc h,
    fun _ h hl => first?_outerDoc h (hl (by simp)), fun _ h hl => first?_innerDoc h (hl (by simp)),
    fun _ h _ => first?_rawString h, fun _ h _ => first?_string h,
    fun _ h _ => first?_char h, fun _ h _ => first?_number h hr,
    fun _ h _ => first?_lifetime h hr, fun _ h _ => first?_word h hr,
    fun h => absurd rfl h, fun h => absurd rfl h, fun h => absurd rfl h, ?_⟩
  refine ⟨?_, ?_, ?_, ?_, fun _ h _ => first?_otherPunct h hr, ?_⟩
  iterate 4 exact fun _ h _ => first?_exactly (by decide +kernel) h hr
  refine ⟨?_, ?_, ?_, ?_, ?_, ?_, ?_, ?_, ?_, ?_, ?_, ?_, ?_, ?_, ?_, ?_, ?_, ?_, ?_, ?_, by simp⟩
  all_goals exact fun _ h _ => first?_exactly (by decide +kernel) h hr

theorem exists_terminal_of_first? {cs : List Char} {o : Outcome} {n : Nat}
    (h : first? cs = some (o, n)) : ∃ m, (o, m) ∈ all ∧ m cs = some n := by
  obtain ⟨t, ht, hm⟩ := List.exists_of_findSome?_eq_some h
  obtain ⟨k, hk, heq⟩ := Option.map_eq_some_iff.1 hm
  obtain ⟨rfl, rfl⟩ := Prod.mk.inj heq
  exact ⟨t.2, ht, hk⟩

/-- The first lexeme of a text, if it is that of a token, is the first lexeme in front of an edge. -/
theorem first?_take_append {cs r : List Char} {o : Outcome} {n : Nat} (h : first? cs = some (o, n))
    (hskip : o ≠ .skip) (hr : Edge r)
    (hline : o = .token .outerDoc ∨ o = .token .innerDoc → LineEdge r) :
    first? (cs.take n ++ r) = some (o, n) := by
  obtain ⟨m, hm, hn⟩ := exists_terminal_of_first? h
  exact first?_of_matches hm hskip hn hr hline

/-- A line of doc comment in front of a blank is one again, but goes on to the end of the line. -/
theorem first?_lineDoc_append {cs r : List Char} {k : Kind} {n : Nat}
    (h : first? cs = some (.token k, n)) (hk : k = .outerDoc ∨ k = .innerDoc) (hr : Edge r) :
    ∃ n', first? (cs.take n ++ r) = some (.token k, n') := by
  obtain ⟨m, hm, hn⟩ := exists_terminal_of_first? h
  rcases hk with rfl | rfl
  · obtain rfl : m = outerDoc := by simpa [all] using hm
    obtain ⟨x, rfl, hx, rfl⟩ := outerDoc_eq_some_iff.1 hn
    exact ⟨_, first?_outerDoc_opener (head?_take_append_ne_slash hx hr _)⟩
  · obtain rfl : m = innerDoc := by simpa [all] using hm
    obtain ⟨x, rfl, rfl⟩ := innerDoc_eq_some_iff.1 hn
    exact ⟨_, first?_innerDoc_opener _⟩

end TraitLift.Terminal
