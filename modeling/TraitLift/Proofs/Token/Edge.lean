import Mathlib.Data.List.TakeWhile
import Mathlib.Tactic
import TraitLift.Proofs.Token.Terminal

/-!
Where a lexeme ends. A terminal may have looked beyond its lexeme to decide; an `Edge`, a blank or
the end of the text, looks the same to all of them, and so does a `Brink` to words and numbers. A
part of a terminal is `Steady` if its length stays the same when a brink replaces what stands behind
it. A terminal is `Kept` if it finds its lexeme again in front of an edge, and `Closed` if it finds
it again in front of anything.
-/

namespace TraitLift

/-! ### Blanks among the character classes -/

namespace Text

/-- Whether the ranges that do not end in front of `r` begin behind it and `next` holds of them. -/
def clears (r : Nat × Nat) (next : List (Nat × Nat) → Bool) : List (Nat × Nat) → Bool
  | [] => true
  | s :: ss => if s.2 < r.1 then clears r next ss else decide (r.2 < s.1) && next (s :: ss)

/-- Whether two rising lists of ranges have no number in common, told by walking along both. -/
def apart : List (Nat × Nat) → List (Nat × Nat) → Bool
  | [], _ => true
  | r :: rs, ss => clears r (apart rs) ss

theorem inRanges_cons (n : Nat) (r : Nat × Nat) (rs : List (Nat × Nat)) :
    inRanges n (r :: rs) = if n < r.1 then false else if n ≤ r.2 then true else inRanges n rs := rfl

/-- A number in one of some ranges is in none of others that lie apart from them. -/
theorem inRanges_eq_false_of_apart {n : Nat} : ∀ {rs ss : List (Nat × Nat)}, inRanges n rs →
    apart rs ss → inRanges n ss = false
  | [], _, h, _ => by simp [inRanges] at h
  | r :: rs, ss, h, hapart => by
    rw [inRanges_cons] at h
    rw [apart] at hapart
    have hlo : r.1 ≤ n := by
      by_contra hn
      simp [Nat.lt_of_not_le hn] at h
    rw [if_neg (by omega)] at h
    induction ss with
    | nil => rfl
    | cons s ss ih =>
      rw [clears] at hapart
      split at hapart
      · rw [inRanges_cons, ih hapart]
        split_ifs <;> first | rfl | omega
      · rw [Bool.and_eq_true, decide_eq_true_eq] at hapart
        split at h
        · rw [inRanges_cons, if_pos (by omega)]
        · exact inRanges_eq_false_of_apart h hapart.2

theorem isWord_of_isBlank {c : Char} (h : isBlank c) : isWord c = false := by
  have hletter : isLetter c = false := inRanges_eq_false_of_apart h (by decide +kernel)
  have hdigit : isDigit c = false := inRanges_eq_false_of_apart h (by decide +kernel)
  have hother : inRanges c.toNat otherNumberRanges = false :=
    inRanges_eq_false_of_apart h (by decide +kernel)
  have hbar : c ≠ '_' := by
    rintro rfl
    exact absurd h (by decide)
  simp [isWord, hletter, hdigit, hother, hbar]

end Text

namespace Terminal

open TraitLift.Text

theorem isDigit_of_isLatinDigit {c : Char} (h : isLatinDigit c) : isDigit c := by
  simp only [isLatinDigit, Bool.and_eq_true, decide_eq_true_eq, Char.le_def,
    UInt32.le_iff_toNat_le] at h
  have hlo : 48 ≤ c.toNat := h.1
  have hhi : c.toNat ≤ 57 := h.2
  rw [isDigit, decimalRanges, inRanges, if_neg (by omega), if_pos hhi]

/-- The end of a text, or a blank. -/
def Edge (r : List Char) : Prop := ∀ c ∈ r.head?, isBlank c

/-- The end of a text, or a line break. -/
def LineEdge (r : List Char) : Prop := ∀ c ∈ r.head?, c = '\n'

instance (r : List Char) : Decidable (Edge r) :=
  decidable_of_iff (r.head?.all isBlank = true) (by cases r <;> simp [Edge])

instance (r : List Char) : Decidable (LineEdge r) :=
  decidable_of_iff (r.head?.all (· == '\n') = true) (by cases r <;> simp [LineEdge])

theorem LineEdge.edge {r : List Char} (h : LineEdge r) : Edge r := by
  intro c hc
  rw [h c hc]
  decide

/-- Characters from `0` to `f` are no blanks: the digits of every base and the bar are among them. -/
theorem outside_of_isBlank {c : Char} (h : isBlank c) : c.toNat < 48 ∨ 102 < c.toNat := by
  have hout : inRanges c.toNat [(48, 102)] = false :=
    inRanges_eq_false_of_apart h (by decide)
  simp only [inRanges] at hout
  split_ifs at hout <;> omega

theorem isHexOrBar_of_isBlank {c : Char} (h : isBlank c) : (isHex c || decide (c = '_')) = false := by
  have hout := outside_of_isBlank h
  have hbar : c ≠ '_' := by
    rintro rfl
    exact absurd h (by decide)
  simp only [isHex, Bool.or_eq_false_iff, Bool.and_eq_false_iff, decide_eq_false_iff_not, hbar,
    not_false_eq_true, and_true, Char.le_def, UInt32.le_iff_toNat_le]
  change ((¬ 48 ≤ c.toNat ∨ ¬ c.toNat ≤ 57) ∧ (¬ 97 ≤ c.toNat ∨ ¬ c.toNat ≤ 102)) ∧
    (¬ 65 ≤ c.toNat ∨ ¬ c.toNat ≤ 70)
  omega

theorem isDigitOrBar_of_isBlank {c : Char} (h : isBlank c) : isDigitOrBar c = false := by
  have := isHexOrBar_of_isBlank h
  simp only [isHex, Bool.or_eq_false_iff] at this
  simp only [isDigitOrBar, isLatinDigit, this.1.1.1, this.2, Bool.or_self]

/-- Signs that end every word and every number in front of them. -/
def brinkSigns : List Char := [']', ')', '}', '>', '[', '(', '{', '<', ',', ';', ':', '!', '/']

/-- Characters that end every word and every number in front of them: blanks and some signs. -/
def isBrink (c : Char) : Bool := isBlank c || brinkSigns.contains c

/-- The end of a text, or a character that ends every word and every number. -/
def Brink (r : List Char) : Prop := ∀ c ∈ r.head?, isBrink c

theorem isBrink_of_isBlank {c : Char} (h : isBlank c) : isBrink c := by
  simp [isBrink, h]

theorem Edge.brink {r : List Char} (h : Edge r) : Brink r := fun c hc => isBrink_of_isBlank (h c hc)

/-- A class without blanks and those signs has no character that ends words and numbers. -/
theorem not_of_isBrink {p : Char → Bool} (hblank : ∀ {c}, isBlank c → p c = false)
    (hsigns : brinkSigns.all (!p ·) = true) {c : Char} (h : isBrink c) : p c = false := by
  rw [isBrink, Bool.or_eq_true, List.contains_iff_mem] at h
  rcases h with h | h
  · exact hblank h
  · simpa using List.all_eq_true.1 hsigns c h

/-! ### Parts that stop at a brink

What these parts take of a text depends only on what they take and on the character behind it, and
no blank and no sign among `brinkSigns` can lengthen it. -/

theorem run_cons (p : Char → Bool) (c : Char) (cs : List Char) :
    run p (c :: cs) = if p c then run p cs + 1 else 0 := by
  rw [run, List.takeWhile_cons]
  split <;> rfl

theorem take_run (p : Char → Bool) (cs : List Char) : cs.take (run p cs) = cs.takeWhile p :=
  (List.prefix_iff_eq_take.1 (List.takeWhile_prefix p)).symm

theorem run_eq_zero {p : Char → Bool} {r : List Char} (hr : ∀ c ∈ r.head?, p c = false) :
    run p r = 0 := by
  cases r with
  | nil => rfl
  | cons c r => rw [run_cons, hr c rfl, if_neg Bool.false_ne_true]

theorem run_take_append {p : Char → Bool} {r : List Char} (hr : ∀ c ∈ r.head?, p c = false) :
    ∀ {cs : List Char} {j : Nat}, run p cs ≤ j → run p (cs.take j ++ r) = run p cs
  | [], j, _ => by
    rw [List.take_nil, List.nil_append, run_eq_zero hr]
    rfl
  | c :: cs, 0, hj => by
    rw [List.take_zero, List.nil_append, run_eq_zero hr]
    omega
  | c :: cs, j + 1, hj => by
    rw [List.take_succ_cons, List.cons_append, run_cons, run_cons]
    rw [run_cons] at hj
    split at hj
    · next hc => rw [if_pos hc, if_pos hc, run_take_append hr (by omega)]
    · next hc => rw [if_neg hc, if_neg hc]

/-- A part whose length stays the same when the text behind it is replaced by a brink. -/
def Steady (f : List Char → Nat) : Prop :=
  ∀ cs j r, f cs ≤ j → Brink r → f (cs.take j ++ r) = f cs

/-- A part that takes no blank is steady if it is so behind every first character. -/
theorem steady_of_cons {f : List Char → Nat} (hedge : ∀ r, Brink r → f r = 0)
    (hcons : ∀ c cs k r, f (c :: cs) ≤ k + 1 → Brink r → f (c :: (cs.take k ++ r)) = f (c :: cs)) :
    Steady f
  | [], j, r, _, hr => by
    rw [List.take_nil, List.nil_append, hedge r hr, hedge [] (by simp [Brink])]
  | c :: cs, 0, r, hj, hr => by
    rw [List.take_zero, List.nil_append, hedge r hr]
    omega
  | c :: cs, k + 1, r, hj, hr => by
    rw [List.take_succ_cons, List.cons_append, hcons c cs k r hj hr]

theorem Edge.cons {c : Char} {r : List Char} (h : Edge (c :: r)) : isBlank c := h c rfl

theorem Brink.cons {c : Char} {r : List Char} (h : Brink (c :: r)) : isBrink c := h c rfl

theorem isDigitOrBar_of_isBrink {c : Char} (h : isBrink c) : isDigitOrBar c = false :=
  not_of_isBrink isDigitOrBar_of_isBlank (by decide) h

theorem isWord_of_isBrink {c : Char} (h : isBrink c) : isWord c = false :=
  not_of_isBrink isWord_of_isBlank (by decide +kernel) h

theorem Brink.isDigitOrBar {r : List Char} (h : Brink r) : ∀ c ∈ r.head?, isDigitOrBar c = false :=
  fun c hc => isDigitOrBar_of_isBrink (h c hc)

theorem isWordStart_of_isBrink {c : Char} (h : isBrink c) : isWordStart c = false := by
  rw [isWordStart, isWord_of_isBrink h, Bool.false_and]

theorem isWordStart_of_isBlank {c : Char} (h : isBlank c) : isWordStart c = false :=
  isWordStart_of_isBrink (isBrink_of_isBlank h)

theorem word_steady : Steady fun cs => (word cs).getD 0 := by
  refine steady_of_cons (fun r hr => ?_) (fun c cs k r hk hr => ?_)
  · cases r with
    | nil => rfl
    | cons c r => simp [word, isWordStart_of_isBrink hr.cons]
  · by_cases hc : isWordStart c
    · simp only [word, hc, if_true, Option.getD_some] at hk ⊢
      have hstop : ∀ c ∈ r.head?, isWord c = false := fun c hc => isWord_of_isBrink (hr c hc)
      rw [run_take_append hstop (by omega)]
    · simp [word, hc]

theorem decimalDigits_steady : Steady fun cs => (decimalDigits cs).getD 0 := by
  have hnone : ∀ c, isBrink c → isLatinDigit c = false := by
    intro c hc
    have := isDigitOrBar_of_isBrink hc
    simp only [isDigitOrBar, Bool.or_eq_false_iff] at this
    exact this.1
  refine steady_of_cons (fun r hr => ?_) (fun c cs k r hk hr => ?_)
  · cases r with
    | nil => rfl
    | cons c r => simp [decimalDigits, hnone c hr.cons]
  · by_cases hc : isLatinDigit c
    · simp only [decimalDigits, hc, if_true, Option.getD_some] at hk ⊢
      rw [run_take_append hr.isDigitOrBar (by omega)]
    · simp [decimalDigits, hc]

/-- Bounded parts are steady as lengths exactly if they are steady as matches. -/
theorem Bounded.eq_of_steady {m : List Char → Option Nat} (hb : Bounded m)
    (hs : Steady fun cs => (m cs).getD 0) {cs r : List Char} {j : Nat} (hj : (m cs).getD 0 ≤ j)
    (hr : Brink r) : m (cs.take j ++ r) = m cs := by
  have heq := hs cs j r hj hr
  simp only at heq
  cases hnew : m (cs.take j ++ r) with
  | none =>
    cases hold : m cs with
    | none => rfl
    | some n =>
      have := hb _ _ hold
      simp only [hnew, hold, Option.getD_none, Option.getD_some] at heq
      omega
  | some n =>
    have := hb _ _ hnew
    cases hold : m cs with
    | none =>
      simp only [hnew, hold, Option.getD_none, Option.getD_some] at heq
      omega
    | some k =>
      simp only [hnew, hold, Option.getD_some] at heq
      rw [heq]

theorem fraction_steady : Steady fraction := by
  refine steady_of_cons (fun r hr => ?_) (fun c cs k r hk hr => ?_)
  · cases r with
    | nil => rfl
    | cons c r =>
      have hc : c ≠ '.' := by
        rintro rfl
        exact absurd hr.cons (by decide)
      simp [fraction, hc]
  · by_cases hc : c = '.'
    · subst hc
      simp only [fraction] at hk ⊢
      rw [decimalDigits_bounded.eq_of_steady decimalDigits_steady _ hr]
      cases hd : decimalDigits cs with
      | none => simp
      | some n =>
        rw [hd, Option.map_some, Option.getD_some] at hk
        simpa using hk
    · simp [fraction, hc]

/-- The sign of an exponent: its length. -/
def signLength (cs : List Char) : Nat :=
  if cs.head? = some '+' || cs.head? = some '-' then 1 else 0

theorem exponent_cons (e : Char) (cs : List Char) :
    exponent (e :: cs) = if (e = 'e' || e = 'E') ∧ run isDigitOrBar (cs.drop (signLength cs)) ≠ 0
      then run isDigitOrBar (cs.drop (signLength cs)) + signLength cs + 1 else 0 := by
  rw [exponent]
  by_cases he : e = 'e' || e = 'E'
  · have hsign : (if cs.head? = some '+' || cs.head? = some '-' then 1 else 0) = signLength cs := rfl
    simp only [if_pos he, hsign]
    cases run isDigitOrBar (cs.drop (signLength cs)) with
    | zero => simp
    | succ n =>
      simp only [he, Nat.add_eq_zero_iff, one_ne_zero, and_false, ne_eq, not_false_eq_true, and_self,
        if_true]
      omega
  · rw [if_neg he, if_neg (fun h => he h.1)]

theorem Brink.signLength {r : List Char} (h : Brink r) : signLength r = 0 := by
  cases r with
  | nil => rfl
  | cons c r =>
    have hplus : c ≠ '+' := by
      rintro rfl
      exact absurd h.cons (by decide)
    have hminus : c ≠ '-' := by
      rintro rfl
      exact absurd h.cons (by decide)
    simp [Terminal.signLength, hplus, hminus]

theorem Brink.exponent_cons {r : List Char} (h : Brink r) (e : Char) : exponent (e :: r) = 0 := by
  rw [Terminal.exponent_cons, h.signLength, List.drop_zero, run_eq_zero h.isDigitOrBar, if_neg]
  simp

theorem exponent_steady : Steady exponent := by
  refine steady_of_cons (fun r hr => ?_) (fun e cs k r hk hr => ?_)
  · cases r with
    | nil => rfl
    | cons c r =>
      have he : ¬ (c = 'e' || c = 'E') := by
        simp only [Bool.or_eq_true, decide_eq_true_eq]
        rintro (rfl | rfl) <;> exact absurd hr.cons (by decide)
      rw [exponent_cons, if_neg (fun h => he h.1)]
  · by_cases he : e = 'e' || e = 'E'
    case neg => rw [exponent_cons, exponent_cons, if_neg (fun h => he h.1), if_neg (fun h => he h.1)]
    case pos =>
    have hlong : run isDigitOrBar (cs.drop (signLength cs)) ≠ 0 →
        run isDigitOrBar (cs.drop (signLength cs)) + signLength cs ≤ k := by
      intro hne
      rw [exponent_cons, if_pos ⟨he, hne⟩] at hk
      omega
    cases cs with
    | nil => rw [List.take_nil, List.nil_append, hr.exponent_cons, Brink.exponent_cons (by simp [Brink])]
    | cons s cs =>
      cases k with
      | zero =>
        -- one character is too short for an exponent
        rw [List.take_zero, List.nil_append, hr.exponent_cons, exponent_cons, if_neg]
        intro h
        have := hlong h.2
        omega
      | succ j =>
        have hdrop : (s :: (cs.take j ++ r)).drop (signLength (s :: cs)) =
            ((s :: cs).drop (signLength (s :: cs))).take (j + 1 - signLength (s :: cs)) ++ r := by
          have hle : signLength (s :: cs) ≤ 1 := by
            rw [signLength]
            split <;> omega
          interval_cases signLength (s :: cs) <;> simp
        rw [List.take_succ_cons, List.cons_append, exponent_cons, exponent_cons]
        have hsign : signLength (s :: (cs.take j ++ r)) = signLength (s :: cs) := rfl
        rw [hsign, hdrop, run_take_append hr.isDigitOrBar (by omega)]

/-! ### Numbers -/

theorem drop_take_append {cs r : List Char} {j k : Nat} (hk : k ≤ j) (hj : j ≤ cs.length) :
    (cs.take j ++ r).drop k = (cs.drop k).take (j - k) ++ r := by
  rw [List.drop_append_of_le_length (by rw [List.length_take]; omega), List.drop_take]

/-- The digits behind the mark of a base, which the character after the zero names. -/
def radixDigits : Char → Option (Char → Bool)
  | 'x' => some fun c => isHex c || c = '_'
  | 'o' => some fun c => ('0' ≤ c && c ≤ '7') || c = '_'
  | 'b' => some fun c => c = '0' || c = '1' || c = '_'
  | _ => none

theorem radixNumber_cons_cons (a b : Char) (cs : List Char) :
    radixNumber (a :: b :: cs) =
      if a = '0' then (radixDigits b).bind fun p => radixNumber.digits p cs else none := by
  unfold radixNumber radixDigits
  split
  · simp_all
  · simp_all
  · simp_all
  · split
    · split <;> simp_all
    · rfl

theorem radixNumber_of_ne {c : Char} (hc : c ≠ '0') (cs : List Char) :
    radixNumber (c :: cs) = none := by
  cases cs with
  | nil =>
    unfold radixNumber
    split <;> simp_all
  | cons b cs => rw [radixNumber_cons_cons, if_neg hc]

theorem radixDigits_of_isBlank {b : Char} {p : Char → Bool} (hp : radixDigits b = some p) {c : Char}
    (h : isBlank c) : p c = false := by
  have hout := outside_of_isBlank h
  have hhex := isHexOrBar_of_isBlank h
  have hbar : c ≠ '_' := by
    rintro rfl
    exact absurd h (by decide)
  unfold radixDigits at hp
  split at hp
  · obtain rfl := Option.some.inj hp
    exact hhex
  · obtain rfl := Option.some.inj hp
    simp only [Bool.or_eq_false_iff, Bool.and_eq_false_iff, decide_eq_false_iff_not, hbar,
      not_false_eq_true, and_true, Char.le_def, UInt32.le_iff_toNat_le]
    change ¬ 48 ≤ c.toNat ∨ ¬ c.toNat ≤ 55
    omega
  · obtain rfl := Option.some.inj hp
    have hzero : c ≠ '0' := by
      rintro rfl
      exact absurd h (by decide)
    have hone : c ≠ '1' := by
      rintro rfl
      exact absurd h (by decide)
    simp [hzero, hone, hbar]
  · simp at hp

theorem radixDigits_of_isBrink {b : Char} {p : Char → Bool} (hp : radixDigits b = some p) {c : Char}
    (h : isBrink c) : p c = false := by
  refine not_of_isBrink (radixDigits_of_isBlank hp) ?_ h
  unfold radixDigits at hp
  split at hp
  case h_4 => simp at hp
  all_goals
    obtain rfl := Option.some.inj hp
    decide

theorem Brink.radixNumber_zero {r : List Char} (h : Brink r) : radixNumber ('0' :: r) = none := by
  cases r with
  | nil => rfl
  | cons b r =>
    have hb : radixDigits b = none := by
      unfold radixDigits
      split
      · exact absurd h.cons (by decide)
      · exact absurd h.cons (by decide)
      · exact absurd h.cons (by decide)
      · rfl
    rw [radixNumber_cons_cons, if_pos rfl, hb, Option.bind_none]

theorem radixNumber_steady : Steady fun cs => (radixNumber cs).getD 0 := by
  refine steady_of_cons (fun r hr => ?_) (fun c cs k r hk hr => ?_)
  · cases r with
    | nil => rfl
    | cons c r =>
      have hc : c ≠ '0' := by
        rintro rfl
        exact absurd hr.cons (by decide)
      rw [radixNumber_of_ne hc, Option.getD_none]
  · by_cases hc : c = '0'
    case neg => rw [radixNumber_of_ne hc, radixNumber_of_ne hc]
    case pos =>
    subst hc
    cases cs with
    | nil =>
      rw [List.take_nil, List.nil_append, hr.radixNumber_zero, Brink.radixNumber_zero (by simp [Brink])]
    | cons b cs =>
      rw [radixNumber_cons_cons, if_pos rfl] at hk ⊢
      cases hp : radixDigits b with
      | none =>
        cases k with
        | zero => rw [List.take_zero, List.nil_append, hr.radixNumber_zero, Option.bind_none]
        | succ j =>
          rw [List.take_succ_cons, List.cons_append, radixNumber_cons_cons, if_pos rfl, hp]
          rfl
      | some p =>
        simp only [hp, Option.bind_some] at hk ⊢
        have hlong : run p cs = 0 ∨ run p cs + 1 ≤ k := by
          unfold radixNumber.digits at hk
          split at hk
          · next h0 => exact Or.inl h0
          · next n hn =>
            rw [Option.getD_some] at hk
            omega
        cases k with
        | zero =>
          have h0 : run p cs = 0 := by omega
          rw [List.take_zero, List.nil_append, hr.radixNumber_zero, radixNumber.digits, h0]
        | succ j =>
          have hstop : ∀ c ∈ r.head?, p c = false := fun c hc => radixDigits_of_isBrink hp (hr c hc)
          rw [List.take_succ_cons, List.cons_append, radixNumber_cons_cons, if_pos rfl, hp,
            Option.bind_some, radixNumber.digits, radixNumber.digits,
            run_take_append hstop (by omega)]

/-- A terminal whose lexemes it finds again in front of an edge. -/
def Kept (m : List Char → Option Nat) : Prop :=
  ∀ cs n r, m cs = some n → Edge r → m (cs.take n ++ r) = some n

/-- A number stays the same when a brink replaces some of what stands behind it. -/
theorem number_take_append {cs r : List Char} {n j : Nat} (h : number cs = some n) (hnj : n ≤ j)
    (hn : j ≤ cs.length) (hr : Brink r) : number (cs.take j ++ r) = some n := by
  obtain ⟨k, hk, hsum⟩ := Option.map_eq_some_iff.1 h
  have hkn : k ≤ j := by omega
  have hsuffix : (word ((cs.take j ++ r).drop k)).getD 0 = (word (cs.drop k)).getD 0 := by
    rw [drop_take_append hkn hn]
    exact word_steady _ _ _ (show (word (cs.drop k)).getD 0 ≤ j - k by omega) hr
  have hdigits : (radixNumber (cs.take j ++ r) <|> decimalNumber (cs.take j ++ r)) = some k := by
    rcases (Option.orElse_eq_some _ _ _).1 hk with hradix | ⟨hnone, hdecimal⟩
    · rw [radixNumber_bounded.eq_of_steady radixNumber_steady (by rw [hradix]; exact hkn) hr, hradix]
      rfl
    · rw [radixNumber_bounded.eq_of_steady radixNumber_steady (by rw [hnone]; exact Nat.zero_le j) hr,
        hnone]
      obtain ⟨d, hd, hsum'⟩ := Option.map_eq_some_iff.1 hdecimal
      simp only at hsum'
      have hfraction : fraction ((cs.take j ++ r).drop d) = fraction (cs.drop d) := by
        rw [drop_take_append (by omega) hn]
        exact fraction_steady _ _ _ (by omega) hr
      have hexponent : exponent ((cs.take j ++ r).drop (d + fraction (cs.drop d))) =
          exponent (cs.drop (d + fraction (cs.drop d))) := by
        rw [drop_take_append (by omega) hn]
        exact exponent_steady _ _ _ (by omega) hr
      change decimalNumber (cs.take j ++ r) = some k
      rw [decimalNumber, decimalDigits_bounded.eq_of_steady decimalDigits_steady
        (by rw [hd, Option.getD_some]; omega) hr, hd, Option.map_some]
      simp only [hfraction, hexponent, hsum']
  rw [number, hdigits, Option.map_some]
  simp only [hsuffix, hsum]

theorem number_kept : Kept number := fun _ n _ h hr =>
  number_take_append h (Nat.le_refl n) (number_bounded _ _ h).2 hr.brink

/-! ### Strings, characters and block comments -/

theorem upTo_kept {stop : List Char} (hne : stop ≠ []) : ∀ {cs : List Char} {n : Nat}
    (r : List Char), upTo stop cs = some n → upTo stop (cs.take n ++ r) = some n
  | [], n, r, h => by simp [upTo] at h
  | c :: cs, n, r, h => by
    rw [upTo] at h
    split at h
    · next hp =>
      obtain rfl := Option.some.inj h
      rw [← List.prefix_iff_eq_take.1 (List.isPrefixOf_iff_prefix.1 hp)]
      obtain ⟨a, stop, rfl⟩ := List.exists_cons_of_ne_nil hne
      rw [List.cons_append, upTo, if_pos]
      exact List.isPrefixOf_iff_prefix.2 (List.prefix_append (a :: stop) r)
    · next hp =>
      obtain ⟨m, hm, rfl⟩ := Option.map_eq_some_iff.1 h
      have hbounds := upTo_bounds hm
      -- what stands behind the lexeme is too far off to complete an earlier occurrence
      have hp' : ¬ stop.isPrefixOf (c :: (cs.take m ++ r)) = true := by
        intro hearly
        refine hp (List.isPrefixOf_iff_prefix.2 ?_)
        have hshort : stop <+: c :: cs.take m := by
          refine List.prefix_of_prefix_length_le (List.isPrefixOf_iff_prefix.1 hearly)
            (List.prefix_append (c :: cs.take m) r) ?_
          rw [List.length_cons, List.length_take]
          omega
        exact hshort.trans (List.prefix_cons_inj c |>.2 (List.take_prefix m cs))
      rw [List.take_succ_cons, List.cons_append, upTo, if_neg hp', upTo_kept hne r hm,
        Option.map_some]

theorem stringTail_cons {c : Char} (hquote : c ≠ '"') (hslash : c ≠ '\\') (cs : List Char) :
    stringTail (c :: cs) = (stringTail cs).map (· + 1) := by
  rw [stringTail.eq_def]
  split <;> simp_all

theorem stringTail_kept {cs : List Char} {n : Nat} (r : List Char) (h : stringTail cs = some n) :
    stringTail (cs.take n ++ r) = some n := by
  fun_induction stringTail cs generalizing n with
  | case1 => simp at h
  | case2 cs =>
    obtain rfl := Option.some.inj h
    rfl
  | case3 => simp at h
  | case4 c cs ih =>
    obtain ⟨m, hm, rfl⟩ := Option.map_eq_some_iff.1 h
    simp [stringTail, ih hm]
  | case5 c cs hquote hlone hescape ih =>
    obtain ⟨m, hm, rfl⟩ := Option.map_eq_some_iff.1 h
    have hslash : c ≠ '\\' := by
      rintro rfl
      cases cs with
      | nil => exact hlone rfl rfl
      | cons d cs => exact hescape d cs rfl rfl
    rw [List.take_succ_cons, List.cons_append, stringTail_cons hquote hslash, ih hm,
      Option.map_some]

theorem afterPrefix_of_head {x : List Char} (m : List Char → Option Nat)
    (hx : ∀ c ∈ x.head?, c ≠ 'b' ∧ c ≠ 'c') : afterPrefix m x = m x := by
  unfold afterPrefix
  split <;> simp_all

/-- A terminal whose lexemes it finds again in front of anything. -/
def Closed (m : List Char → Option Nat) : Prop :=
  ∀ cs n r, m cs = some n → m (cs.take n ++ r) = some n

theorem afterPrefix_closed {m : List Char → Option Nat} (hm : Closed m)
    (hpos : ∀ cs n, m cs = some n → cs ≠ [] ∧ 0 < n) : Closed (afterPrefix m) := by
  intro cs n r h
  unfold afterPrefix at h
  split at h
  · obtain ⟨k, hk, rfl⟩ := Option.map_eq_some_iff.1 h
    rw [List.take_succ_cons, List.cons_append, afterPrefix, hm _ k r hk, Option.map_some]
  · obtain ⟨k, hk, rfl⟩ := Option.map_eq_some_iff.1 h
    rw [List.take_succ_cons, List.cons_append, afterPrefix, hm _ k r hk, Option.map_some]
  · next hb hc =>
    rw [afterPrefix_of_head, hm cs n r h]
    intro c hhead
    obtain ⟨hne, hn⟩ := hpos cs n h
    obtain ⟨d, cs, rfl⟩ := List.exists_cons_of_ne_nil hne
    obtain ⟨k, rfl⟩ := Nat.exists_eq_add_of_lt hn
    obtain rfl : d = c := by simpa using hhead
    exact ⟨fun h => hb cs (by rw [h]), fun h => hc cs (by rw [h])⟩

theorem rawString_closed : Closed rawString := by
  refine afterPrefix_closed (fun cs n r h => ?_) (fun cs n h => ?_)
  all_goals
    beta_reduce at h
    split at h
    case h_5 => simp at h
  all_goals
    obtain ⟨m, hm, rfl⟩ := Option.map_eq_some_iff.1 h
    simp [upTo_kept _ _ hm]

theorem string_closed : Closed string := by
  refine afterPrefix_closed (fun cs n r h => ?_) (fun cs n h => ?_)
  all_goals
    beta_reduce at h
    split at h
    case h_2 => simp at h
    obtain ⟨m, hm, rfl⟩ := Option.map_eq_some_iff.1 h
    simp [stringTail_kept _ hm]

theorem outerBlockDoc_closed : Closed outerBlockDoc := by
  intro cs n r h
  unfold outerBlockDoc at h
  split at h
  · next c cs =>
    split at h
    · simp at h
    · next hc =>
      obtain ⟨m, hm, rfl⟩ := Option.map_eq_some_iff.1 h
      obtain ⟨k, rfl⟩ := Nat.exists_eq_add_of_le' (upTo_bounds hm).1
      have hkept := upTo_kept (by simp) r hm
      simp only [List.length_cons, List.length_nil, List.take_succ_cons, List.cons_append] at hkept ⊢
      rw [outerBlockDoc, if_neg hc, hkept, Option.map_some]
  · simp at h

theorem innerBlockDoc_closed : Closed innerBlockDoc := by
  intro cs n r h
  unfold innerBlockDoc at h
  split at h
  · obtain ⟨m, hm, rfl⟩ := Option.map_eq_some_iff.1 h
    simp [innerBlockDoc, upTo_kept _ r hm]
  · simp at h

theorem head?_drop_take_append {cs : List Char} {k : Nat} {c : Char}
    (h : (cs.drop k).head? = some c) (r : List Char) :
    ((cs.take (k + 1) ++ r).drop k).head? = some c := by
  rw [List.head?_drop] at h ⊢
  obtain ⟨hk, -⟩ := List.getElem?_eq_some_iff.1 h
  rw [List.getElem?_append_left (by rw [List.length_take]; omega),
    List.getElem?_take_of_lt (by omega), h]

/-- A run that ends within the text is the same whatever stands behind the character it ends at. -/
theorem run_take_succ_append {p : Char → Bool} (r : List Char) : ∀ {cs : List Char},
    run p cs < cs.length → run p (cs.take (run p cs + 1) ++ r) = run p cs
  | [], h => by simp at h
  | c :: cs, h => by
    rw [run_cons] at h ⊢
    split
    · next hc =>
      rw [if_pos hc, List.length_cons] at h
      rw [List.take_succ_cons, List.cons_append, run_cons, if_pos hc,
        run_take_succ_append r (by omega)]
    · next hc => rw [List.take_succ_cons, List.cons_append, run_cons, if_neg hc]

theorem charEscape_cons {c : Char} (hx : c ≠ 'x') (hu : c ≠ 'u') (cs : List Char) :
    charEscape (c :: cs) =
      if ['n', 'r', 't', '0', '\\', '\'', '"'].contains c then some 1 else none := by
  rw [charEscape.eq_def]
  split <;> simp_all

theorem charEscape_kept {cs : List Char} {n : Nat} (r : List Char) (h : charEscape cs = some n) :
    charEscape (cs.take n ++ r) = some n := by
  unfold charEscape at h
  split at h
  · next a b cs =>
    split at h
    · next hhex =>
      obtain rfl := Option.some.inj h
      simp only [List.take_succ_cons, List.take_zero, List.cons_append, charEscape, hhex, if_true]
    · simp at h
  · next cs =>
    simp only at h
    split at h
    · next hcond =>
      obtain rfl := Option.some.inj h
      simp only [Bool.and_eq_true, decide_eq_true_eq] at hcond
      have hlt : run (fun c => isHex c || decide (c = '_')) cs < cs.length := by
        by_contra hge
        rw [List.drop_eq_nil_of_le (by omega)] at hcond
        simp at hcond
      have hkept := run_take_succ_append r hlt
      have hbrace := head?_drop_take_append hcond.2 r
      simp only [List.take_succ_cons, List.cons_append, charEscape, hkept, hbrace, hcond.1,
        decide_true, Bool.and_self, if_true]
    · simp at h
  · next c cs _ _ =>
    split at h
    · next hc =>
      obtain rfl := Option.some.inj h
      have hx : c ≠ 'x' := by
        rintro rfl
        simp at hc
      have hu : c ≠ 'u' := by
        rintro rfl
        simp at hc
      rw [List.take_succ_cons, List.cons_append, charEscape_cons hx hu, if_pos hc]
    · simp at h
  · simp at h

theorem charBody_cons {c : Char} (hc : c ≠ '\\') (cs : List Char) :
    charBody (c :: cs) = if ['\'', '\n', '\r', '\t'].contains c then none else some 1 := by
  rw [charBody.eq_def]
  split <;> simp_all

theorem charBody_kept {cs : List Char} {n : Nat} (r : List Char) (h : charBody cs = some n) :
    charBody (cs.take n ++ r) = some n := by
  unfold charBody at h
  split at h
  · obtain ⟨m, hm, rfl⟩ := Option.map_eq_some_iff.1 h
    rw [List.take_succ_cons, List.cons_append, charBody, charEscape_kept r hm, Option.map_some]
  · next c cs hslash =>
    split at h
    · simp at h
    · next hc =>
      obtain rfl := Option.some.inj h
      rw [List.take_succ_cons, List.cons_append, charBody_cons hslash, if_neg hc]
  · simp at h

theorem quotedChar_closed : Closed quotedChar := by
  intro cs n r h
  unfold quotedChar at h
  split at h
  · next cs =>
    split at h
    · next k hk =>
      split at h
      · next hquote =>
        obtain rfl := Option.some.inj h
        have hbody : charBody (cs.take (k + 1) ++ r) = some k := by
          have hsplit : cs.take (k + 1) ++ r = cs.take k ++ ('\'' :: r) := by
            rw [List.take_add_one, ← List.head?_drop, hquote]
            simp
          rw [hsplit, charBody_kept _ hk]
        rw [List.take_succ_cons, List.cons_append, quotedChar, hbody]
        simp only [head?_drop_take_append hquote r, if_true]
      · simp at h
    · simp at h
  · simp at h

theorem char_of_quotedChar {cs : List Char} {n : Nat} (h : quotedChar cs = some n) :
    char cs = some n := by
  unfold quotedChar at h
  split at h
  · exact h
  · simp at h

theorem char_closed : Closed char := by
  intro cs n r h
  unfold char at h
  split at h
  · obtain ⟨m, hm, rfl⟩ := Option.map_eq_some_iff.1 h
    rw [List.take_succ_cons, List.cons_append, char, quotedChar_closed _ _ _ hm, Option.map_some]
  · exact char_of_quotedChar (quotedChar_closed _ _ _ h)

/-! ### Words -/

/-- A text of word characters up to a blank or its end. -/
def Wordy : List Char → Prop
  | [] => True
  | c :: cs => isBlank c ∨ isWord c ∧ Wordy cs

theorem Edge.wordy {r : List Char} (h : Edge r) : ∀ {w : List Char}, (∀ c ∈ w, isWord c) →
    Wordy (w ++ r)
  | [], _ => by
    cases r with
    | nil => trivial
    | cons c r => exact Or.inl h.cons
  | c :: w, hw => Or.inr ⟨hw c List.mem_cons_self, h.wordy fun d hd => hw d (List.mem_cons_of_mem c hd)⟩

/-- A character that is neither a word character nor a blank does not stand in front. -/
theorem Wordy.head {c : Char} {cs : List Char} (h : Wordy (c :: cs)) : isWord c ∨ isBlank c := by
  rcases h with hblank | ⟨hword, -⟩
  · exact Or.inr hblank
  · exact Or.inl hword

theorem Wordy.tail {c : Char} {cs : List Char} (h : Wordy (c :: cs)) (hc : isWord c) :
    Wordy cs := by
  rcases h with hblank | ⟨-, hcs⟩
  · rw [isWord_of_isBlank hblank] at hc
    exact absurd hc Bool.false_ne_true
  · exact hcs

theorem word_front {cs r : List Char} {n : Nat} (h : word cs = some n) (hr : Edge r) :
    ∃ c x, cs.take n ++ r = c :: x ∧ isWordStart c ∧ Wordy x := by
  unfold word at h
  split at h
  · next c cs =>
    split at h
    · next hc =>
      obtain rfl := Option.some.inj h
      rw [List.take_succ_cons, List.cons_append, take_run]
      exact ⟨c, _, rfl, hc, hr.wordy fun d hd => List.mem_takeWhile_imp hd⟩
    · simp at h
  · simp at h

theorem word_kept : Kept word := by
  intro cs n r h hr
  rw [word_bounded.eq_of_steady word_steady (by rw [h]; exact le_refl n) hr.brink, h]

/-- The front of a text that starts with a name, plain or marked, with an edge behind it. -/
inductive NameFront : List Char → Prop
  | plain {c : Char} {cs : List Char} : isWordStart c → Wordy cs → NameFront (c :: cs)
  | marked {c : Char} {cs : List Char} : isWordStart c → NameFront ('r' :: '#' :: c :: cs)

theorem markedWord_plain {c : Char} {cs : List Char} (h : Wordy cs) :
    markedWord (c :: cs) = word (c :: cs) := by
  unfold markedWord
  split
  · next heq =>
    obtain ⟨-, rfl⟩ := List.cons.inj heq
    exact absurd h.head (by decide)
  · rfl

theorem markedWord_front {cs r : List Char} {n : Nat} (h : markedWord cs = some n) (hr : Edge r) :
    NameFront (cs.take n ++ r) ∧ markedWord (cs.take n ++ r) = some n := by
  have hplain : word cs = some n →
      NameFront (cs.take n ++ r) ∧ markedWord (cs.take n ++ r) = some n := by
    intro h
    have hkept := word_kept _ _ _ h hr
    obtain ⟨c, x, hx, hc, hwordy⟩ := word_front h hr
    rw [hx] at hkept ⊢
    exact ⟨.plain hc hwordy, by rw [markedWord_plain hwordy, hkept]⟩
  unfold markedWord at h
  split at h
  · next cs =>
    split at h
    · next k hk =>
      obtain rfl := Option.some.inj h
      have hkept := word_kept _ _ _ hk hr
      obtain ⟨c, x, hx, hc, -⟩ := word_front hk hr
      rw [List.take_succ_cons, List.take_succ_cons, List.cons_append, List.cons_append]
      refine ⟨hx ▸ .marked hc, ?_⟩
      rw [markedWord, hkept]
    · exact hplain h
  · exact hplain h

end Terminal

end TraitLift
