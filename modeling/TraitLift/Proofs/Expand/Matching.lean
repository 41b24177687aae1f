import Mathlib.Tactic
import TraitLift.Proofs.Expand.Extent

/-!
The bracket that closes another, by the scanner and by the grammar. The scanner keeps a stack of the
brackets to close; the grammar derives token trees, one rule for each kind of bracket. `Unclosed` is what
the two have in common: the tokens of a group that is still open, with the brackets that would close it. A
token more makes it a token tree, keeps it open, or closes a bracket by the wrong kind (`Unclosed.resolve`),
and the scan goes through an open group without a result (`Unclosed.group?_append`). So what the scanner
finds behind a bracket is the end of the one token tree that starts there (`closing?_tokenTree`).
-/

namespace TraitLift

open TraitLift.Grammar

/-! ### Token trees -/

section

variable {t t' : Token} {u v w x : List Token}

/-- What stands between two brackets. -/
theorem derives_brackets_iff {o c : Kind} :
    rust.Derives (Expr.all [Syn.k o, Expr.star Syn.inTree, Syn.k c]) w ↔
      ∃ (t : Token) (x : List Token) (t' : Token), w = t :: (x ++ [t']) ∧ t.kind = o ∧ t'.kind = c ∧
        rust.Derives (.star Syn.inTree) x := by
  constructor
  · intro h
    obtain ⟨_, _, rfl, hopen, h⟩ := derives_seq_iff.1 h
    obtain ⟨x, _, rfl, hx, hclose⟩ := derives_seq_iff.1 h
    obtain ⟨t, rfl, ht⟩ := derives_k_iff.1 hopen
    obtain ⟨t', rfl, ht'⟩ := derives_k_iff.1 hclose
    exact ⟨t, x, t', rfl, ht, ht', hx⟩
  · rintro ⟨t, x, t', rfl, ht, ht', hx⟩
    exact .seq (u := [t]) (derives_k_iff.2 ⟨t, rfl, ht⟩) (.seq hx (derives_k_iff.2 ⟨t', rfl, ht'⟩))

/-- A token tree is a bracket, a row of trees and plain tokens, and the bracket that closes the first. -/
theorem derives_tokenTree_iff : rust.Derives Syn.tokenTree w ↔
    ∃ (t : Token) (x : List Token) (t' : Token), w = t :: (x ++ [t']) ∧ t.kind.closer? = some t'.kind ∧
      rust.Derives (.star Syn.inTree) x := by
  constructor
  · intro h
    have hrule : ∀ {r : Rule} {o c : Kind},
        ruleBody r = Expr.all [Syn.k o, Expr.star Syn.inTree, Syn.k c] → o.closer? = some c →
        rust.Derives (Syn.use r) w → ∃ (t : Token) (x : List Token) (t' : Token), w = t :: (x ++ [t']) ∧
          t.kind.closer? = some t'.kind ∧ rust.Derives (.star Syn.inTree) x := by
      intro r o c hbody hc h
      rw [derives_use_iff, hbody, derives_brackets_iff] at h
      obtain ⟨t, x, t', rfl, rfl, rfl, hx⟩ := h
      exact ⟨t, x, t', rfl, hc, hx⟩
    cases h with
    | altLeft h => exact hrule (r := .parenTree) rfl rfl h
    | altRight h =>
      cases h with
      | altLeft h => exact hrule (r := .bracketTree) rfl rfl h
      | altRight h => exact hrule (r := .braceTree) rfl rfl h
  · rintro ⟨t, x, t', rfl, hc, hx⟩
    have hbody : ∀ {o c : Kind}, t.kind = o → o.closer? = some c →
        rust.Derives (Expr.all [Syn.k o, Expr.star Syn.inTree, Syn.k c]) (t :: (x ++ [t'])) := by
      intro o c ho hoc
      rw [ho, hoc, Option.some.injEq] at hc
      exact derives_brackets_iff.2 ⟨t, x, t', rfl, ho, hc.symm, hx⟩
    have hkind : t.kind = .lpar ∨ t.kind = .lsqb ∨ t.kind = .lbrace := by
      cases hk : t.kind <;> simp_all [Kind.closer?]
    rcases hkind with ht | ht | ht
    · exact .altLeft (derives_use_iff.2 (hbody ht rfl))
    · exact .altRight (.altLeft (derives_use_iff.2 (hbody ht rfl)))
    · exact .altRight (.altRight (derives_use_iff.2 (hbody ht rfl)))

/-- Every token but a bracket can stand in a tree. -/
theorem derives_inTree_of_other (hopen : t.kind.closer? = none) (hclose : t.kind.isCloser = false) :
    rust.Derives Syn.inTree [t] := by
  have hkind : TokenClass.plain.has t.kind ∨ t.kind = .comma ∨ t.kind = .colon ∨ t.kind = .semi ∨
      t.kind = .pound := by
    cases hk : t.kind <;> simp_all [Kind.closer?, Kind.isCloser, TokenClass.has]
  have hk : ∀ {k : Kind}, t.kind = k → rust.Derives (Syn.k k) [t] :=
    fun h => derives_k_iff.2 ⟨t, rfl, h⟩
  rcases hkind with h | h | h | h | h
  · exact .altRight (.altLeft (.tok h))
  · exact .altRight (.altRight (.altLeft (hk h)))
  · exact .altRight (.altRight (.altRight (.altLeft (hk h))))
  · exact .altRight (.altRight (.altRight (.altRight (.altLeft (hk h)))))
  · exact .altRight (.altRight (.altRight (.altRight (.altRight (hk h)))))

theorem derives_star_concat {e : Syn} (hu : rust.Derives (.star e) u) (hv : rust.Derives e v) :
    rust.Derives (.star e) (u ++ v) := by
  generalize he : Expr.star e = s at hu
  induction hu with
  | starNil =>
    cases he
    simpa using Derives.starCons hv .starNil
  | starCons ha _ _ ih =>
    cases he
    rw [List.append_assoc]
    exact .starCons ha (ih rfl)
  | _ => cases he

end

/-! ### Open groups -/

/-- The tokens of a group that is not closed yet: an open bracket and a row of trees and plain tokens, and
the same again for each bracket that is open within. `closers` has the kinds that would close these
brackets, the innermost first. -/
inductive Unclosed : List Kind → List Token → Prop where
  | first {t : Token} {c : Kind} {x : List Token} : t.kind.closer? = some c →
      rust.Derives (.star Syn.inTree) x → Unclosed [c] (t :: x)
  | inner {closers : List Kind} {w : List Token} {t : Token} {c : Kind} {x : List Token} :
      Unclosed closers w → t.kind.closer? = some c → rust.Derives (.star Syn.inTree) x →
      Unclosed (c :: closers) (w ++ t :: x)

/-- Some tokens in which an open group meets a bracket that closes another kind than its innermost one. -/
def Mismatched (ts : List Token) : Prop :=
  ∃ (u : List Token) (t : Token) (after : List Token) (c : Kind) (closers : List Kind),
    ts = u ++ t :: after ∧ Unclosed (c :: closers) u ∧ t.kind.isCloser ∧ t.kind ≠ c

namespace Unclosed

variable {closers : List Kind} {w x : List Token} {t : Token} {c : Kind}

theorem ne_nil (h : Unclosed closers w) : closers ≠ [] := by
  cases h <;> simp

/-- An open group goes on with a tree or a plain token. -/
theorem concat (h : Unclosed closers w) (hx : rust.Derives Syn.inTree x) : Unclosed closers (w ++ x) := by
  cases h with
  | first hc hy => exact .first hc (derives_star_concat hy hx)
  | inner hw hc hy =>
    rw [List.append_assoc, List.cons_append]
    exact .inner hw hc (derives_star_concat hy hx)

/-- A bracket of the right kind ends the group, or a tree within it. -/
theorem close (h : Unclosed (c :: closers) w) (ht : t.kind = c) :
    (closers = [] ∧ rust.Derives Syn.tokenTree (w ++ [t])) ∨ Unclosed closers (w ++ [t]) := by
  cases h with
  | @first o _ x hc hx =>
    exact Or.inl ⟨rfl, derives_tokenTree_iff.2 ⟨o, x, t, rfl, by rw [hc, ht], hx⟩⟩
  | @inner _ w o _ x hw hc hx =>
    have htree : rust.Derives Syn.tokenTree (o :: (x ++ [t])) :=
      derives_tokenTree_iff.2 ⟨o, x, t, rfl, by rw [hc, ht], hx⟩
    rw [List.append_assoc, List.cons_append]
    exact Or.inr (hw.concat (.altLeft htree))

/-- However an open group goes on, it becomes a token tree, stays open or is closed by a wrong bracket. -/
theorem resolve (h : Unclosed closers w) (ts : List Token) :
    (∃ g after, ts = g ++ after ∧ rust.Derives Syn.tokenTree (w ++ g)) ∨
      (∃ closers', Unclosed closers' (w ++ ts)) ∨ Mismatched (w ++ ts) := by
  induction ts generalizing closers w with
  | nil => exact Or.inr (Or.inl ⟨closers, by simpa using h⟩)
  | cons t ts ih =>
    have hnext : ∀ {closers'}, Unclosed closers' (w ++ [t]) →
        (∃ g after, t :: ts = g ++ after ∧ rust.Derives Syn.tokenTree (w ++ g)) ∨
          (∃ closers'', Unclosed closers'' (w ++ t :: ts)) ∨ Mismatched (w ++ t :: ts) := by
      intro closers' h'
      have hsplit : w ++ t :: ts = (w ++ [t]) ++ ts := by simp
      rcases ih h' with ⟨g, after, rfl, hg⟩ | hlater
      · exact Or.inl ⟨t :: g, after, rfl, by simpa using hg⟩
      · rw [hsplit]
        exact Or.inr hlater
    cases hopen : t.kind.closer? with
    | some c => exact hnext (.inner h hopen .starNil)
    | none =>
      cases hclose : t.kind.isCloser with
      | false => exact hnext (h.concat (derives_inTree_of_other hopen hclose))
      | true =>
        obtain ⟨c, outer, rfl⟩ := List.exists_cons_of_ne_nil h.ne_nil
        by_cases hc : t.kind = c
        · rcases h.close hc with ⟨-, htree⟩ | h'
          · exact Or.inl ⟨[t], ts, rfl, htree⟩
          · exact hnext h'
        · exact Or.inr (Or.inr ⟨w, t, ts, c, outer, rfl, h, hclose, hc⟩)

/-- The scanner goes through an open group and keeps the brackets that would close it. -/
theorem group?_append (h : Unclosed closers w) (rest : List Token) :
    group? (w ++ rest) = (closeGroup closers rest).map fun (g, after) => (w ++ g, after) := by
  have hrow : ∀ {x : List Token} (c : Kind) (outer : List Kind) (rest : List Token),
      rust.Derives (.star Syn.inTree) x → closeGroup (c :: outer) (x ++ rest) =
        (closeGroup (c :: outer) rest).map fun (g, after) => (x ++ g, after) :=
    fun c outer rest hx => closeGroup_of_derives (by decide +kernel) hx c outer rest
  induction h generalizing rest with
  | first hc hx =>
    rw [group?, List.cons_append, closeGroup_opener hc, hrow _ _ _ hx, Option.map_map]
    rfl
  | inner hw hc hx ih =>
    rw [List.append_assoc, ih, List.cons_append, closeGroup_opener hc, hrow _ _ _ hx, Option.map_map,
      Option.map_map]
    congr 1
    funext p
    simp

end Unclosed

/-! ### Groups -/

section

variable {ts g after : List Token} {t : Token}

/-- A token tree is a group, whatever follows. -/
theorem group?_of_tokenTree (h : rust.Derives Syn.tokenTree g) (after : List Token) :
    group? (g ++ after) = some (g, after) := by
  obtain ⟨t, x, t', rfl, hc, hx⟩ := derives_tokenTree_iff.1 h
  have hgroup := group?_of_inner hc (by decide +kernel) rfl hx rfl after
  simpa using hgroup

theorem group?_of_unclosed {closers : List Kind} (h : Unclosed closers ts) : group? ts = none := by
  have hgroup := h.group?_append []
  rwa [List.append_nil, closeGroup, Option.map_none] at hgroup

theorem group?_of_mismatched (h : Mismatched ts) : group? ts = none := by
  obtain ⟨u, t, after, c, closers, rfl, hu, hclose, hc⟩ := h
  have hopen : t.kind.closer? = none := by
    cases hk : t.kind <;> simp_all [Kind.isCloser, Kind.closer?]
  rw [hu.group?_append, closeGroup, hopen]
  simp [hclose, hc.symm]

/-- The tokens from a bracket on start with a token tree, or its group is not closed, or closed wrong. -/
theorem tokenTree_or_unclosed_or_mismatched (ht : t.kind.closer?.isSome) (ts : List Token) :
    (∃ g after, t :: ts = g ++ after ∧ rust.Derives Syn.tokenTree g) ∨
      (∃ closers, Unclosed closers (t :: ts)) ∨ Mismatched (t :: ts) := by
  obtain ⟨c, hc⟩ := Option.isSome_iff_exists.1 ht
  rcases (Unclosed.first hc .starNil).resolve ts with ⟨g, after, rfl, hg⟩ | hother
  · exact Or.inl ⟨t :: g, after, rfl, hg⟩
  · exact Or.inr hother

theorem group?_eq_some_iff (ht : t.kind.closer?.isSome) : group? (t :: ts) = some (g, after) ↔
    t :: ts = g ++ after ∧ rust.Derives Syn.tokenTree g := by
  constructor
  · intro h
    rcases tokenTree_or_unclosed_or_mismatched ht ts with ⟨g', after', happ, hg⟩ | ⟨_, hopen⟩ | hwrong
    · rw [happ, group?_of_tokenTree hg] at h
      obtain ⟨rfl, rfl⟩ := Prod.mk.inj (Option.some.inj h)
      exact ⟨happ, hg⟩
    · simp [group?_of_unclosed hopen] at h
    · simp [group?_of_mismatched hwrong] at h
  · rintro ⟨happ, hg⟩
    rw [happ, group?_of_tokenTree hg]

theorem group?_eq_none_iff (ht : t.kind.closer?.isSome) : group? (t :: ts) = none ↔
    (∃ closers, Unclosed closers (t :: ts)) ∨ Mismatched (t :: ts) := by
  constructor
  · intro h
    rcases tokenTree_or_unclosed_or_mismatched ht ts with ⟨g, after, happ, hg⟩ | hother
    · simp [happ, group?_of_tokenTree hg] at h
    · exact hother
  · rintro (⟨_, hopen⟩ | hwrong)
    · exact group?_of_unclosed hopen
    · exact group?_of_mismatched hwrong

end

/-! ### The closing bracket -/

/-- The index of the bracket that closes the one at an index, as the scanner finds it. -/
def closing? (ts : List Token) (index : Nat) : Option Nat :=
  (group? (ts.drop index)).map fun (g, _) => index + (g.length - 1)

/-- The tokens from one index up to another are a token tree. -/
def IsTreeAt (ts : List Token) (first last : Nat) : Prop :=
  first ≤ last ∧ last < ts.length ∧ rust.Derives Syn.tokenTree ((ts.take (last + 1)).drop first)

theorem isTreeAt_iff {ts : List Token} {first last : Nat} : IsTreeAt ts first last ↔
    ∃ g after, ts.drop first = g ++ after ∧ rust.Derives Syn.tokenTree g ∧
      first + (g.length - 1) = last := by
  constructor
  · rintro ⟨hle, hlast, htree⟩
    have hlength : ((ts.take (last + 1)).drop first).length = last + 1 - first := by
      rw [List.length_drop, List.length_take_of_le hlast]
    refine ⟨(ts.take (last + 1)).drop first, ts.drop (last + 1), ?_, htree, by omega⟩
    rw [← List.drop_append_of_le_length, List.take_append_drop]
    rw [List.length_take_of_le hlast]
    omega
  · rintro ⟨g, after, happ, hg, rfl⟩
    have hpos : 0 < g.length := by
      obtain ⟨o, x, o', rfl, -⟩ := derives_tokenTree_iff.1 hg
      simp
    have hlength := congrArg List.length happ
    rw [List.length_drop, List.length_append] at hlength
    have hlast : first + (g.length - 1) + 1 = first + g.length := by omega
    refine ⟨Nat.le_add_right .., by omega, ?_⟩
    rw [hlast, ← List.take_drop, happ, List.take_left]
    exact hg

/-- A bracket is closed where the token tree that starts with it ends. There is at most one such tree; and
if there is none, the group is open at the end of the tokens or meets a closing bracket of a wrong kind. -/
theorem closing?_tokenTree {ts : List Token} {index : Nat} {t : Token} (hindex : ts[index]? = some t)
    (ht : t.kind.closer?.isSome) :
    (∀ i, closing? ts index = some i ↔ IsTreeAt ts index i) ∧
    (∀ i i', IsTreeAt ts index i → IsTreeAt ts index i' → i = i') ∧
    (closing? ts index = none ↔ ∀ i, ¬ IsTreeAt ts index i) ∧
    (closing? ts index = none ↔
      (∃ closers, Unclosed closers (ts.drop index)) ∨ Mismatched (ts.drop index)) := by
  obtain ⟨hlt, hget⟩ := List.getElem?_eq_some_iff.1 hindex
  have hdrop : ts.drop index = t :: ts.drop (index + 1) := by
    rw [List.drop_eq_getElem_cons hlt, hget]
  have hsome : ∀ i, closing? ts index = some i ↔ IsTreeAt ts index i := by
    intro i
    rw [isTreeAt_iff, closing?, Option.map_eq_some_iff, Prod.exists]
    simp only [hdrop, group?_eq_some_iff ht, and_assoc]
  refine ⟨hsome, fun i i' h h' => ?_, ?_, ?_⟩
  · exact Option.some.inj (((hsome i).2 h).symm.trans ((hsome i').2 h'))
  · simp only [← hsome, Option.eq_none_iff_forall_ne_some, ne_eq]
  · rw [closing?, Option.map_eq_none_iff, hdrop, group?_eq_none_iff ht]

/-- The arguments of a call, in front of a bracket that opens nothing. -/
theorem closing?_tokenTree_call :
    let ts := (scan "f(a[0], \x7b b; \x7d) )".toList).tokens
    closing? ts 1 = some 11 ∧ IsTreeAt ts 1 11 := by
  intro ts
  have hclosing : closing? ts 1 = some 11 := by decide +kernel
  have hopen : ts[1]? = some ⟨.lpar, "(", 1, 2, ⟨1, 2⟩, ⟨1, 3⟩⟩ := by decide +kernel
  exact ⟨hclosing, ((closing?_tokenTree hopen (by decide)).1 11).1 hclosing⟩

end TraitLift
