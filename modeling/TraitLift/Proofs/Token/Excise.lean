import Mathlib.Tactic
import TraitLift.Proofs.Token.Boundary

/-!
Cutting lexemes out of a text. The lexemes in front of a cut stay as they are when the text behind
them is dropped (`Cuts.scanFrom_truncated`), when blanks take the place of the next lexemes
(`Cuts.scanFrom_blanked`), and, if they end with an attribute, when the text behind the next lexemes
closes up to them (`Cuts.scanFrom_joined`).
-/

namespace TraitLift

open TraitLift.Text TraitLift.Terminal

namespace Terminal

/-! ### Closers in a text -/

theorem upTo_eq_none_iff {stop : List Char} (hne : stop ≠ []) : ∀ {cs : List Char},
    upTo stop cs = none ↔ ¬ stop <:+: cs
  | [] => by simp [upTo, hne]
  | c :: cs => by
    rw [upTo, List.infix_cons_iff, not_or, ← upTo_eq_none_iff hne, ← List.isPrefixOf_iff_prefix]
    split <;> simp_all

/-- A text up to a closer ends with it. -/
theorem upTo_suffix {stop : List Char} (hne : stop ≠ []) : ∀ {cs : List Char} {n : Nat},
    upTo stop cs = some n → stop <:+ cs.take n
  | [], n, h => by simp [upTo] at h
  | c :: cs, n, h => by
    rw [upTo] at h
    split at h
    · next hp =>
      obtain rfl := Option.some.inj h
      rw [← List.prefix_iff_eq_take.1 (List.isPrefixOf_iff_prefix.1 hp)]
    · obtain ⟨m, hm, rfl⟩ := Option.map_eq_some_iff.1 h
      rw [List.take_succ_cons]
      exact (upTo_suffix hne hm).trans (List.suffix_cons ..)

theorem closer_ne_nil {stop : List Char} (hstop : stop ∈ closers) : stop ≠ [] := by
  have hall : ∀ stop ∈ closers, stop ≠ [] := by decide
  exact hall stop hstop

/-- A text within two texts is within one of them or begins in the first and ends in the second. -/
theorem infix_append_cases {s a b : List Char} (h : s <:+: a ++ b) :
    s <:+: a ∨ s <:+: b ∨ ∃ s₁ s₂, s = s₁ ++ s₂ ∧ s₁ ≠ [] ∧ s₂ ≠ [] ∧
      s₁ <:+ a ∧ s₂ <+: b := by
  obtain ⟨u, v, huv⟩ := h
  rcases List.append_eq_append_iff.1 huv with ⟨w, rfl, rfl⟩ | ⟨w, hw, rfl⟩
  · exact Or.inl ⟨u, w, rfl⟩
  rcases List.append_eq_append_iff.1 hw with ⟨z, rfl, rfl⟩ | ⟨z, rfl, rfl⟩
  · by_cases hz : z = []
    · subst hz
      exact Or.inr (Or.inl ⟨[], v, rfl⟩)
    by_cases hw : w = []
    · subst hw
      exact Or.inl ⟨u, [], by simp⟩
    exact Or.inr (Or.inr ⟨z, w, rfl, hz, hw, List.suffix_append .., List.prefix_append ..⟩)
  · exact Or.inr (Or.inl ⟨z, v, rfl⟩)

/-- No closer begins in front of a blank and ends behind it, or has a blank. -/
theorem not_mem_closer_of_isBlank {stop : List Char} (hstop : stop ∈ closers) {c : Char}
    (hc : isBlank c) : c ∉ stop := by
  have hall : ∀ stop ∈ closers, stop.all (!isBlank ·) = true := by decide
  exact not_mem_of_class (hall stop hstop) hc

/-- A closer in a text with blanks in the middle is in front of them or behind them. -/
theorem infix_blanks_cases {stop q bs y : List Char} (hstop : stop ∈ closers) (hne : bs ≠ [])
    (hbs : ∀ c ∈ bs, isBlank c) (h : stop <:+: q ++ (bs ++ y)) : stop <:+: q ∨ stop <:+: y := by
  rcases infix_append_cases h with h | h | ⟨s₁, s₂, rfl, -, hs₂, -, hprefix⟩
  · exact Or.inl h
  · rcases infix_append_cases h with h | h | ⟨s₁, s₂, rfl, hs₁, -, hsuffix, -⟩
    · obtain ⟨c, stop, rfl⟩ := List.exists_cons_of_ne_nil (closer_ne_nil hstop)
      exact absurd List.mem_cons_self
        (not_mem_closer_of_isBlank hstop (hbs c (h.subset List.mem_cons_self)))
    · exact Or.inr h
    · obtain ⟨c, s₁, rfl⟩ := List.exists_cons_of_ne_nil hs₁
      exact absurd List.mem_cons_self
        (not_mem_closer_of_isBlank hstop (hbs c (hsuffix.subset List.mem_cons_self)))
  · obtain ⟨b, bs, rfl⟩ := List.exists_cons_of_ne_nil hne
    obtain ⟨c, s₂, rfl⟩ := List.exists_cons_of_ne_nil hs₂
    rw [List.cons_append] at hprefix
    obtain ⟨rfl, -⟩ := List.cons_prefix_cons.1 hprefix
    exact absurd (by simp) (not_mem_closer_of_isBlank hstop (hbs c List.mem_cons_self))

/-! ### What can stand in the place of a text -/

section

variable {p x y : List Char}

theorem Replaces.nil (p x : List Char) : Replaces p x [] where
  brink := by simp [Brink]
  slash := by simp
  line _ := by simp [LineEdge]
  join := by simp
  closed stop hstop q _ hnone := by
    rw [upTo_eq_none_iff (closer_ne_nil hstop)] at hnone ⊢
    rw [List.append_nil]
    exact fun h => hnone (h.trans (List.prefix_append q x).isInfix)

/-- Blanks, and behind them a part of what was there. -/
theorem Replaces.blanks {bs : List Char} (hne : bs ≠ []) (hbs : ∀ c ∈ bs, isBlank c)
    (hline : ¬ LineEdge x) (hy : y <:+: x) : Replaces p x (bs ++ y) := by
  obtain ⟨b, bs', rfl⟩ := List.exists_cons_of_ne_nil hne
  have hb := hbs b List.mem_cons_self
  refine ⟨?_, ?_, fun h => absurd h hline, ?_, ?_⟩
  · intro c hc
    obtain rfl : b = c := by simpa using hc
    exact isBrink_of_isBlank hb
  · intro h
    obtain rfl : b = '/' := by simpa using h
    exact absurd hb (by decide)
  · intro c hc
    obtain rfl : b = c := by simpa using hc
    constructor <;> rintro rfl <;> exact absurd hb (by decide)
  · intro stop hstop q _ hnone
    rw [upTo_eq_none_iff (closer_ne_nil hstop)] at hnone ⊢
    intro h
    rcases infix_blanks_cases hstop hne hbs h with h | h
    · exact hnone (h.trans (List.prefix_append q x).isInfix)
    · exact hnone (h.trans (hy.trans (List.suffix_append q x).isInfix))

/-- The same lexeme, if no closer can begin with it, and behind it a part of what was there. -/
theorem Replaces.seam {lexeme : List Char} {c d : Char} (hfirst : lexeme.head? = some c)
    (hc : isBrink c) (hjoin : c ≠ '>' ∧ c ≠ ':') (hlast : lexeme.getLast? = some d)
    (hd : d ∉ ['*', '"', '#']) (hy : y <:+: x) : Replaces p (lexeme ++ x) (lexeme ++ y) := by
  have hhead : ∀ z, (lexeme ++ z).head? = some c := by
    intro z
    rw [List.head?_append, hfirst]
    rfl
  refine ⟨?_, ?_, ?_, ?_, ?_⟩
  · intro a ha
    rw [hhead, Option.mem_some_iff] at ha
    exact ha ▸ hc
  · rw [hhead, hhead]
    exact id
  · intro h a ha
    rw [hhead] at ha
    exact h a (by rw [hhead]; exact ha)
  · intro a ha
    rw [hhead, Option.mem_some_iff] at ha
    exact ha ▸ hjoin
  · intro stop hstop q _ hnone
    rw [upTo_eq_none_iff (closer_ne_nil hstop), ← List.append_assoc] at hnone ⊢
    intro h
    rcases infix_append_cases h with h | h | ⟨s₁, s₂, rfl, hs₁, hs₂, hsuffix, -⟩
    · exact hnone (h.trans (List.prefix_append _ x).isInfix)
    · exact hnone (h.trans (hy.trans (List.suffix_append _ x).isInfix))
    · -- the part of the closer up to the seam ends with the last character of the lexeme
      have hall : ∀ stop ∈ closers, stop.dropLast.all (· ∈ ['*', '"', '#']) = true := by decide
      refine hd (of_decide_eq_true (List.all_eq_true.1 (hall _ hstop) d ?_))
      rw [List.dropLast_append_of_ne_nil hs₂]
      refine List.mem_append_left _ (List.mem_of_getLast? ?_)
      obtain ⟨t, ht⟩ := hsuffix
      have hend := congrArg List.getLast? ht
      rw [List.getLast?_append, List.getLast?_append, hlast, Option.some_or,
        List.getLast?_eq_some_getLast hs₁, Option.some_or] at hend
      rw [List.getLast?_eq_some_getLast hs₁, hend]

end

/-! ### The lexeme in front of a gap -/

theorem first?_bracket (y : List Char) : first? (']' :: y) = some (.token .rsqb, 1) := by
  have hsign : isSign ']' = true := isSign_of_classes
    (isWordStart_of_isWord (isWord_of_mem_signs (by simp))) (by decide) (by decide) (by decide)
  obtain ⟨h₁, h₂, h₃, h₄, h₅, h₆⟩ := slashless (c := ']') (by decide) y
  obtain ⟨hraw, hstring, hchar, hnumber, hlifetime, hword, hblanks⟩ :=
    isSign_silent hsign y
  have hother : otherPunct (']' :: y) = none := rfl
  have hbracket : exactly [']'] (']' :: y) = some 1 := rfl
  have hexactly : ∀ a w, a ≠ ']' → exactly (a :: w) (']' :: y) = none := by
    intro a w h
    simp [exactly, List.isPrefixOf, h]
  simp (disch := decide) only [first?, all, findSome?_cons_or, h₁, h₂, h₃, h₄, h₅, h₆,
    hraw, hstring, hchar, hnumber, hlifetime, hword, hblanks, hother, hbracket, hexactly, Option.map_none,
    Option.map_some, Option.none_or, Option.some_or]

/-- The first lexeme of a text with `x` behind it does not depend on `x`: it is a run of blanks, a
closing bracket or a comment that is closed. -/
inductive Seam (x : List Char) : List Char → Prop where
  | blanks {bs : List Char} (hne : bs ≠ []) (h : ∀ c ∈ bs, isBlank c) : Seam x bs
  | bracket : Seam x [']']
  | comment {q : List Char} (h : upTo ['*', '/'] (q ++ x) = some q.length) :
      Seam x ('/' :: '*' :: q)

/-- What can stand in front of the next attribute: gaps, and the ends of attributes. -/
def Outcome.isGap : Outcome → Bool
  | .skip => true
  | .token k => k = .rsqb || k = .outerDoc || k = .outerBlockDoc
  | .word => false

theorem run_eq_zero_of_append {p : Char → Bool} {x : List Char} : ∀ {q : List Char},
    run p (q ++ x) = q.length → run p x = 0
  | [], h => h
  | c :: q, h => by
    rw [List.cons_append, run_cons] at h
    split at h
    · exact run_eq_zero_of_append (q := q) (by simpa using h)
    · simp at h

theorem seam_of_slash {q x : List Char} {o : Outcome}
    (h : first? ('/' :: (q ++ x)) = some (o, q.length + 1)) (hgap : o.isGap) (hx : ¬ LineEdge x) :
    Seam x ('/' :: q) := by
  by_cases hsign : (q ++ x).head? ≠ some '/' ∧ (q ++ x).head? ≠ some '*'
  · rw [first?_slash hsign.1 hsign.2, Option.some.injEq, Prod.mk.injEq] at h
    exact absurd hgap (by rw [← h.1]; decide)
  rcases q with _ | ⟨c, q⟩
  · -- two characters at least open a comment
    rw [List.nil_append] at h hsign
    rcases not_and_or.1 hsign with hx | hx
    · obtain ⟨y, rfl⟩ := List.head?_eq_some_iff.1 (not_not.1 hx)
      rw [first?_slashes, Option.some.injEq, Prod.mk.injEq, List.length_nil] at h
      omega
    · obtain ⟨y, rfl⟩ := List.head?_eq_some_iff.1 (not_not.1 hx)
      cases hy : upTo ['*', '/'] y with
      | none =>
        rw [first?_opened hy, Option.some.injEq, Prod.mk.injEq] at h
        exact absurd hgap (by rw [← h.1]; decide)
      | some k =>
        rw [first?_closed hy, Option.some.injEq, Prod.mk.injEq, List.length_nil] at h
        omega
  rw [List.cons_append] at h hsign
  rw [List.length_cons] at h
  rcases not_and_or.1 hsign with hc | hc
  · -- a line of comment goes on to the end of the line
    obtain rfl : c = '/' := by simpa using hc
    rw [first?_slashes, Option.some.injEq, Prod.mk.injEq] at h
    exact absurd (lineEdge_of_run (run_eq_zero_of_append (q := q) (by omega))) hx
  · obtain rfl : c = '*' := by simpa using hc
    cases hq : upTo ['*', '/'] (q ++ x) with
    | none =>
      rw [first?_opened hq, Option.some.injEq, Prod.mk.injEq] at h
      exact absurd hgap (by rw [← h.1]; decide)
    | some k =>
      rw [first?_closed hq, Option.some.injEq, Prod.mk.injEq] at h
      obtain rfl : k = q.length := by omega
      exact .comment hq

theorem seam_of_sign {c : Char} {q x : List Char} {o : Outcome} (hblank : isBlank c = false)
    (hslash : c ≠ '/') (h : first? (c :: (q ++ x)) = some (o, q.length + 1)) (hgap : o.isGap) :
    Seam x (c :: q) := by
  obtain ⟨h₁, -, h₃, -, h₅, h₆⟩ := slashless hslash (q ++ x)
  have hblanks : Terminal.blanks (c :: (q ++ x)) = none := by
    rw [Terminal.blanks, run_cons, hblank, if_neg Bool.false_ne_true]
  -- of the terminals in question all but the bracket start with a slash or a blank
  have hgaps : all.filter (·.1.isGap) =
      [(.token .outerBlockDoc, outerBlockDoc), (.token .outerDoc, outerDoc), (.skip, blockComment),
       (.skip, lineComment), (.skip, Terminal.blanks), (.token .rsqb, exactly [']'])] := rfl
  have hall : ∀ t ∈ all.filter (·.1.isGap), t.2 (c :: (q ++ x)) = some (q.length + 1) →
      exactly [']'] (c :: (q ++ x)) = some (q.length + 1) := by
    rw [hgaps]
    simp [h₁, h₃, h₅, h₆, hblanks]
  obtain ⟨m, hm, hn⟩ := exists_terminal_of_first? h
  have hbracket := hall (o, m) (List.mem_filter.2 ⟨hm, hgap⟩) hn
  unfold exactly at hbracket
  split at hbracket
  · next hp =>
    obtain ⟨rfl, -⟩ := List.cons_prefix_cons.1 (List.isPrefixOf_iff_prefix.1 hp)
    obtain rfl : q = [] := by simpa using hbracket
    exact .bracket
  · simp at hbracket

theorem seam_of_first? {lexeme x : List Char} {o : Outcome}
    (h : first? (lexeme ++ x) = some (o, lexeme.length)) (hgap : o.isGap) (hx : ¬ LineEdge x) :
    Seam x lexeme := by
  cases lexeme with
  | nil =>
    have := (first?_bounds h).1
    simp at this
  | cons c q =>
  rw [List.cons_append, List.length_cons] at h
  by_cases hc : isBlank c
  · have hrun := first?_blank hc (q ++ x)
    rw [h, Option.some.injEq, Prod.mk.injEq] at hrun
    have htake : (c :: (q ++ x)).take (q.length + 1) = c :: q := by simp
    rw [hrun.2, take_run] at htake
    exact .blanks (by simp) fun d hd => List.mem_takeWhile_imp (htake ▸ hd)
  by_cases hslash : c = '/'
  · subst hslash
    exact seam_of_slash h hgap hx
  · exact seam_of_sign (by simpa using hc) hslash h hgap

section

variable {lexeme x y p : List Char}

theorem Seam.replaces (h : Seam x lexeme) (hy : y <:+: x) :
    Replaces p (lexeme ++ x) (lexeme ++ y) := by
  cases h with
  | blanks hne hbs =>
    have hfirst := hbs _ (List.head_mem hne)
    refine Replaces.seam (List.head?_eq_some_head hne) (isBrink_of_isBlank hfirst) ?_
      (List.getLast?_eq_some_getLast hne) ?_ hy
    · constructor <;> intro heq <;> rw [heq] at hfirst <;> exact absurd hfirst (by decide)
    exact not_mem_of_class (by decide) (hbs _ (List.getLast_mem hne))
  | bracket => exact Replaces.seam rfl (by decide) (by decide) rfl (by decide) hy
  | @comment q hq =>
    have hend := upTo_suffix (by simp) hq
    rw [List.take_left] at hend
    obtain ⟨z, rfl⟩ := hend
    have hlast : ('/' :: '*' :: (z ++ ['*', '/'])).getLast? = some '/' := by
      simp [List.getLast?_cons]
    exact Replaces.seam rfl (by decide) (by decide) hlast (by decide) hy

/-- The lexeme in front of a gap is the same whatever stands behind it. -/
theorem Seam.scanFrom {o : Outcome} (h : Seam x lexeme)
    (hfirst : first? (lexeme ++ x) = some (o, lexeme.length)) (start : Nat) (loc : Loc) :
    scanFrom start loc (lexeme ++ y) =
      (scanFrom (start + lexeme.length) (loc.after lexeme) y).prepend
        (o.token? lexeme start loc).toList := by
  have hlexeme : first? (lexeme ++ y) = some (o, lexeme.length) →
      TraitLift.scanFrom start loc (lexeme ++ y) =
        (TraitLift.scanFrom (start + lexeme.length) (loc.after lexeme) y).prepend
          (o.token? lexeme start loc).toList := by
    intro hnew
    rw [scanFrom_lexeme hnew, List.take_left, List.drop_left]
  cases h with
  | blanks hne hbs =>
    obtain ⟨b, bs, rfl⟩ := List.exists_cons_of_ne_nil hne
    have hrun := first?_blank (hbs b List.mem_cons_self) (bs ++ x)
    rw [← List.cons_append, hfirst, Option.some.injEq, Prod.mk.injEq] at hrun
    rw [scanFrom_blanks start loc y hbs, hrun.1]
    rfl
  | bracket =>
    rw [List.singleton_append, first?_bracket, Option.some.injEq, Prod.mk.injEq] at hfirst
    exact hlexeme (by rw [List.singleton_append, first?_bracket, ← hfirst.1]; rfl)
  | comment hq =>
    exact hlexeme ((first?_closed_replaced hq le_rfl).trans hfirst)

end

end Terminal

/-! ### The last lexeme in front of a text -/

theorem Cuts.eq_nil {start : Nat} {loc : Loc} {cs : List Char} {ts : List Token}
    (h : Cuts start loc cs ts cs) : ts = [] := by
  cases h with
  | stop => rfl
  | @lexeme _ _ _ _ o n ts hfirst hcuts =>
    obtain ⟨pre, hpre⟩ := hcuts.suffix
    obtain ⟨hpos, hle⟩ := first?_bounds hfirst
    have hlen := congrArg List.length hpre
    rw [List.length_drop, List.length_append] at hlen
    omega

theorem Cuts.exists_last {start : Nat} {loc : Loc} {p x : List Char} {us : List Token}
    (h : Cuts start loc (p ++ x) us x) (hp : p ≠ []) :
    ∃ p' lexeme us' o, p = p' ++ lexeme ∧ Cuts start loc (p' ++ (lexeme ++ x)) us' (lexeme ++ x) ∧
      first? (lexeme ++ x) = some (o, lexeme.length) ∧
      us = us' ++ (o.token? lexeme (start + p'.length) (loc.after p')).toList := by
  generalize hcs : p ++ x = cs at h
  induction h generalizing p with
  | stop => exact absurd (by simpa using hcs) hp
  | @lexeme start loc cs x o n ts hfirst hcuts ih =>
    subst hcs
    obtain ⟨pre, hpre⟩ := hcuts.suffix
    have hlen := List.length_take_of_le (first?_bounds hfirst).2
    generalize hlexeme : (p ++ x).take n = lexeme at *
    obtain rfl : p = lexeme ++ pre := by
      have hsplit : p ++ x = (lexeme ++ pre) ++ x := by
        rw [List.append_assoc, ← hpre, ← hlexeme, List.take_append_drop]
      exact List.append_cancel_right hsplit
    rw [hpre] at hcuts
    by_cases hne : pre = []
    · subst hne
      obtain rfl := hcuts.eq_nil
      rw [List.append_nil, ← hlen] at hfirst
      exact ⟨[], lexeme, [], o, by simp, .stop, hfirst, by simp⟩
    · obtain ⟨p', last, us', o', rfl, hcuts', hfirst', rfl⟩ := ih hne hpre.symm
      have hfront : Cuts start loc (lexeme ++ (p' ++ (last ++ x)))
          ((o.token? lexeme start loc).toList ++ us') (last ++ x) := by
        rw [List.append_assoc, List.append_assoc, ← hlen] at hfirst
        exact Cuts.lexeme_append hfirst (by rwa [hlen])
      rw [← List.append_assoc] at hfront
      refine ⟨lexeme ++ p', last, _, o', by simp, hfront, hfirst', ?_⟩
      rw [List.length_append, hlen, Loc.after_append, List.append_assoc, Nat.add_assoc]

/-! ### Cutting -/

/-- Lexemes at the end of a text are those in front of more text. -/
theorem Cuts.scanFrom_truncated {start : Nat} {loc : Loc} {p x : List Char} {us : List Token}
    (h : Cuts start loc (p ++ x) us x) : scanFrom start loc p = ⟨us, none⟩ := by
  have hscan := h.scanFrom_replaced (Replaces.nil p x)
  rw [List.append_nil] at hscan
  rw [hscan, scanFrom_nil]
  simp [Scan.prepend]

/-- The tokens of some lexemes stand within them. -/
theorem Cuts.inOrder_front {start : Nat} {loc : Loc} {p x : List Char} {us : List Token}
    (h : Cuts start loc (p ++ x) us x) : InOrder start (start + p.length) us := by
  rcases scanFrom_cuts start loc p with ⟨ts, hscan, hcuts⟩ | ⟨ts, _, _, _, _, _, hscan, _⟩
  · rw [h.scanFrom_truncated, Scan.mk.injEq] at hscan
    exact hscan.1 ▸ hcuts.inOrder
  · rw [h.scanFrom_truncated, Scan.mk.injEq] at hscan
    exact absurd hscan.2 (by simp)

/-- Blanks in the place of the text behind some lexemes, and behind the blanks a part of that text:
the lexemes stay as they are. -/
theorem Cuts.scanFrom_blanked {start : Nat} {loc : Loc} {p x bs y : List Char} {us : List Token}
    (h : Cuts start loc (p ++ x) us x) (hne : bs ≠ []) (hbs : ∀ c ∈ bs, isBlank c)
    (hx : ¬ LineEdge x) (hy : y <:+: x) :
    scanFrom start loc (p ++ (bs ++ y)) =
      (scanFrom (start + p.length + bs.length) ((loc.after p).after bs) y).prepend us := by
  rw [h.scanFrom_replaced (Replaces.blanks hne hbs hx hy), scanFrom_blanks _ _ y hbs]

theorem ofWord_isGap (w : String) : (Outcome.token (Kind.ofWord w)).isGap = false := by
  have hall : ∀ k ∈ Kind.name :: Kind.keywords.map Prod.snd, (Outcome.token k).isGap = false := by
    decide
  exact hall _ (Kind.ofWord_mem w)

/-- A part of the text behind some lexemes right behind them: if these end with an attribute or a
gap, they stay as they are. -/
theorem Cuts.scanFrom_joined {start : Nat} {loc : Loc} {p x y : List Char} {us : List Token}
    (h : Cuts start loc (p ++ x) us x) (hus : ∀ t ∈ us.getLast?, (Outcome.token t.kind).isGap)
    (hx : ¬ LineEdge x) (hy : y <:+: x) :
    scanFrom start loc (p ++ y) = (scanFrom (start + p.length) (loc.after p) y).prepend us := by
  by_cases hp : p = []
  · subst hp
    obtain rfl := h.eq_nil
    rfl
  obtain ⟨p', lexeme, us', o, rfl, hcuts, hfirst, rfl⟩ := h.exists_last hp
  have hgap : o.isGap := by
    have hlast : ∀ t, o.token? lexeme (start + p'.length) (loc.after p') = some t →
        (Outcome.token t.kind).isGap := fun t ht => hus t (by simp [ht])
    cases o with
    | skip => rfl
    | token k => exact hlast _ rfl
    | word => exact absurd (hlast _ rfl) (by simp [ofWord_isGap])
  have hseam := seam_of_first? hfirst hgap hx
  rw [List.append_assoc, hcuts.scanFrom_replaced (hseam.replaces hy), hseam.scanFrom hfirst,
    List.length_append, Loc.after_append, Nat.add_assoc]
  simp only [Scan.prepend, List.append_assoc]

end TraitLift
