import Mathlib.Tactic
import TraitLift.Token.Terminal

/-!
How far a terminal reaches. Whatever terminal matches, its lexeme is not empty and lies within the
text; `first?_bounds` says so for the one that decides, and it is what lets a text be cut into
lexemes one after the other.
-/

namespace TraitLift.Terminal

open TraitLift.Text

/-- A terminal whose lexemes are not empty and end within the text. -/
def Bounded (m : List Char → Option Nat) : Prop :=
  ∀ cs n, m cs = some n → 0 < n ∧ n ≤ cs.length

/-! ### Parts of terminals -/

theorem run_le (p : Char → Bool) (cs : List Char) : run p cs ≤ cs.length :=
  (List.takeWhile_prefix p).length_le

theorem upTo_bounds {stop : List Char} : ∀ {cs : List Char} {n : Nat}, upTo stop cs = some n →
    stop.length ≤ n ∧ n ≤ cs.length
  | [], n, h => by simp [upTo] at h
  | c :: cs, n, h => by
    rw [upTo] at h
    split at h
    · next hp =>
      obtain rfl := Option.some.inj h
      exact ⟨le_refl _, (List.isPrefixOf_iff_prefix.1 hp).length_le⟩
    · obtain ⟨m, hm, rfl⟩ := Option.map_eq_some_iff.1 h
      have := upTo_bounds hm
      simp only [List.length_cons]
      omega

/-- A terminal that skips a fixed opener and then goes on to the first occurrence of a text. -/
theorem upTo_add_bounds {stop cs : List Char} {k n : Nat}
    (h : (upTo stop cs).map (· + k) = some n) : k ≤ n ∧ n ≤ cs.length + k := by
  obtain ⟨m, hm, rfl⟩ := Option.map_eq_some_iff.1 h
  have := upTo_bounds hm
  omega

theorem stringTail_bounds {cs : List Char} {n : Nat} (h : stringTail cs = some n) :
    0 < n ∧ n ≤ cs.length := by
  fun_induction stringTail cs generalizing n with
  | case1 => simp at h
  | case2 cs =>
    obtain rfl := Option.some.inj h
    simp
  | case3 => simp at h
  | case4 c cs ih =>
    obtain ⟨m, hm, rfl⟩ := Option.map_eq_some_iff.1 h
    have := ih hm
    simp only [List.length_cons]
    omega
  | case5 c cs _ _ _ ih =>
    obtain ⟨m, hm, rfl⟩ := Option.map_eq_some_iff.1 h
    have := ih hm
    simp only [List.length_cons]
    omega

theorem afterPrefix_bounded {m : List Char → Option Nat} (hm : Bounded m) :
    Bounded (afterPrefix m) := by
  intro cs n h
  unfold afterPrefix at h
  split at h
  · obtain ⟨k, hk, rfl⟩ := Option.map_eq_some_iff.1 h
    have := hm _ _ hk
    simp only [List.length_cons]
    omega
  · obtain ⟨k, hk, rfl⟩ := Option.map_eq_some_iff.1 h
    have := hm _ _ hk
    simp only [List.length_cons]
    omega
  · exact hm _ _ h

/-! ### Comments, strings and characters -/

theorem outerBlockDoc_bounded : Bounded outerBlockDoc := by
  intro cs n h
  unfold outerBlockDoc at h
  split at h
  · split at h
    · simp at h
    · have := upTo_add_bounds h
      simp only [List.length_cons] at this ⊢
      omega
  · simp at h

theorem innerBlockDoc_bounded : Bounded innerBlockDoc := by
  intro cs n h
  unfold innerBlockDoc at h
  split at h
  · have := upTo_add_bounds h
    simp only [List.length_cons]
    omega
  · simp at h

theorem blockComment_bounded : Bounded blockComment := by
  intro cs n h
  unfold blockComment at h
  split at h
  · have := upTo_add_bounds h
    simp only [List.length_cons]
    omega
  · simp at h

theorem outerDoc_bounded : Bounded outerDoc := by
  intro cs n h
  unfold outerDoc at h
  split at h
  · next rest =>
    split at h
    · simp at h
    · obtain rfl := Option.some.inj h
      have := run_le (· ≠ '\n') rest
      simp only [List.length_cons]
      omega
  · simp at h

theorem innerDoc_bounded : Bounded innerDoc := by
  intro cs n h
  unfold innerDoc at h
  split at h
  · next rest =>
    obtain rfl := Option.some.inj h
    have := run_le (· ≠ '\n') rest
    simp only [List.length_cons]
    omega
  · simp at h

theorem lineComment_bounded : Bounded lineComment := by
  intro cs n h
  unfold lineComment at h
  split at h
  · next rest =>
    obtain rfl := Option.some.inj h
    have := run_le (· ≠ '\n') rest
    simp only [List.length_cons]
    omega
  · simp at h

theorem blanks_bounded : Bounded blanks := by
  intro cs n h
  unfold blanks at h
  split at h
  · simp at h
  · next k hk =>
    obtain rfl := Option.some.inj h
    have := run_le isBlank cs
    omega

theorem rawString_bounded : Bounded rawString := by
  refine afterPrefix_bounded ?_
  intro cs n h
  beta_reduce at h
  split at h
  case h_5 => simp at h
  all_goals
    have := upTo_add_bounds h
    simp only [List.length_cons]
    omega

theorem string_bounded : Bounded string := by
  refine afterPrefix_bounded ?_
  intro cs n h
  beta_reduce at h
  split at h
  · obtain ⟨m, hm, rfl⟩ := Option.map_eq_some_iff.1 h
    have := stringTail_bounds hm
    simp only [List.length_cons]
    omega
  · simp at h

theorem quotedChar_bounded : Bounded quotedChar := by
  intro cs n h
  unfold quotedChar at h
  split at h
  · next rest =>
    split at h
    · next k hk =>
      split at h
      · next hq =>
        obtain rfl := Option.some.inj h
        have hlt : k < rest.length := by
          by_contra hge
          rw [List.drop_eq_nil_of_le (by omega)] at hq
          simp at hq
        simp only [List.length_cons]
        omega
      · simp at h
    · simp at h
  · simp at h

theorem char_bounded : Bounded char := by
  intro cs n h
  unfold char at h
  split at h
  · obtain ⟨m, hm, rfl⟩ := Option.map_eq_some_iff.1 h
    have := quotedChar_bounded _ _ hm
    simp only [List.length_cons]
    omega
  · exact quotedChar_bounded _ _ h

/-! ### Words and numbers -/

theorem word_bounded : Bounded word := by
  intro cs n h
  unfold word at h
  split at h
  · next c rest =>
    split at h
    · obtain rfl := Option.some.inj h
      have := run_le isWord rest
      simp only [List.length_cons]
      omega
    · simp at h
  · simp at h

theorem markedWord_bounded : Bounded markedWord := by
  intro cs n h
  unfold markedWord at h
  split at h
  · split at h
    · next k hk =>
      obtain rfl := Option.some.inj h
      have := word_bounded _ _ hk
      simp only [List.length_cons]
      omega
    · exact word_bounded _ _ h
  · exact word_bounded _ _ h

theorem lifetime_bounded : Bounded lifetime := by
  intro cs n h
  unfold lifetime at h
  split at h
  · obtain ⟨m, hm, rfl⟩ := Option.map_eq_some_iff.1 h
    have := markedWord_bounded _ _ hm
    simp only [List.length_cons]
    omega
  · simp at h

theorem radixDigits_bounds {p : Char → Bool} {cs : List Char} {n : Nat}
    (h : radixNumber.digits p cs = some n) : 0 < n ∧ n ≤ cs.length + 2 := by
  unfold radixNumber.digits at h
  split at h
  · simp at h
  · next k hk =>
    obtain rfl := Option.some.inj h
    have := run_le p cs
    omega

theorem radixNumber_bounded : Bounded radixNumber := by
  intro cs n h
  unfold radixNumber at h
  split at h
  · exact radixDigits_bounds h
  · exact radixDigits_bounds h
  · exact radixDigits_bounds h
  · simp at h

theorem decimalDigits_bounded : Bounded decimalDigits := by
  intro cs n h
  unfold decimalDigits at h
  split at h
  · next c rest =>
    split at h
    · obtain rfl := Option.some.inj h
      have := run_le isDigitOrBar rest
      simp only [List.length_cons]
      omega
    · simp at h
  · simp at h

theorem fraction_le (cs : List Char) : fraction cs ≤ cs.length := by
  unfold fraction
  split
  · next rest =>
    cases hd : decimalDigits rest with
    | none => simp
    | some n =>
      have := (decimalDigits_bounded _ _ hd).2
      simp only [Option.map_some, Option.getD_some, List.length_cons]
      omega
  · simp

theorem exponent_le (cs : List Char) : exponent cs ≤ cs.length := by
  unfold exponent
  split
  · next e rest =>
    split
    · simp only
      generalize hs : (if rest.head? = some '+' || rest.head? = some '-' then 1 else 0) = sign
      split
      · simp
      · next n hn =>
        have := run_le isDigitOrBar (rest.drop sign)
        rw [hn, List.length_drop] at this
        simp only [List.length_cons]
        omega
    · simp
  · simp

theorem decimalNumber_bounded : Bounded decimalNumber := by
  intro cs n h
  obtain ⟨k, hk, rfl⟩ := Option.map_eq_some_iff.1 h
  have hdigits := decimalDigits_bounded _ _ hk
  have hfraction := fraction_le (cs.drop k)
  have hexponent := exponent_le (cs.drop (k + fraction (cs.drop k)))
  rw [List.length_drop] at hfraction hexponent
  simp only
  omega

theorem number_bounded : Bounded number := by
  intro cs n h
  obtain ⟨k, hk, rfl⟩ := Option.map_eq_some_iff.1 h
  have hdigits : 0 < k ∧ k ≤ cs.length := by
    rcases (Option.orElse_eq_some _ _ _).1 hk with hr | ⟨-, hd⟩
    · exact radixNumber_bounded _ _ hr
    · exact decimalNumber_bounded _ _ hd
  have hsuffix : (word (cs.drop k)).getD 0 ≤ (cs.drop k).length := by
    cases hw : word (cs.drop k) with
    | none => simp
    | some m => exact (word_bounded _ _ hw).2
  rw [List.length_drop] at hsuffix
  omega

/-! ### Punctuation, and all terminals -/

theorem exactly_bounded {w : List Char} (hw : w ≠ []) : Bounded (exactly w) := by
  intro cs n h
  unfold exactly at h
  split at h
  · next hp =>
    obtain rfl := Option.some.inj h
    exact ⟨List.length_pos_iff.2 hw, (List.isPrefixOf_iff_prefix.1 hp).length_le⟩
  · simp at h

theorem otherPunct_bounded : Bounded otherPunct := by
  intro cs n h
  unfold otherPunct at h
  split at h
  · split at h
    · obtain rfl := Option.some.inj h
      simp
    · simp at h
  · simp at h

theorem all_bounded : ∀ t ∈ all, Bounded t.2 := by
  simp only [all, List.forall_mem_cons]
  refine ⟨outerBlockDoc_bounded, innerBlockDoc_bounded, outerDoc_bounded, innerDoc_bounded,
    rawString_bounded, string_bounded, char_bounded, number_bounded, lifetime_bounded,
    markedWord_bounded, blockComment_bounded, lineComment_bounded, blanks_bounded, ?_⟩
  -- what is left are the fixed texts, with the punctuation that has no kind of its own among them
  refine ⟨?_, ?_, ?_, ?_, otherPunct_bounded, ?_⟩
  all_goals simp [exactly_bounded]

/-- The lexeme that a text starts with is not empty and lies within the text. -/
theorem first?_bounds {cs : List Char} {o : Outcome} {n : Nat} (h : first? cs = some (o, n)) :
    0 < n ∧ n ≤ cs.length := by
  obtain ⟨t, ht, hm⟩ := List.exists_of_findSome?_eq_some h
  obtain ⟨k, hk, heq⟩ := Option.map_eq_some_iff.1 hm
  obtain ⟨-, rfl⟩ := Prod.mk.inj heq
  exact all_bounded t ht cs k hk

end TraitLift.Terminal
