import Mathlib.Tactic
import TraitLift.Proofs.Token.Terminal
import TraitLift.Token.Lexer

/-!
A text as a row of lexemes. `Cuts` says that some tokens are what the lexemes at the front of a text
give, without saying how far to go; `scan_eq_complete_iff` and `scan_eq_stuck_iff` say
that scanning goes as far as a lexeme starts. From the lexemes come the order and the bounds of the
tokens: `InOrder` is the row of tokens with gaps between them, and `scan_inOrder` says that a scan
gives one. No two tokens stand at the same place (`scan_loc_inj`).
-/

namespace TraitLift

/-- Lexemes off the front of `cs`, which stands at offset `start` and place `loc` of a text: the
tokens they give and the text they leave. -/
inductive Cuts : Nat → Loc → List Char → List Token → List Char → Prop where
  | stop {start : Nat} {loc : Loc} {cs : List Char} : Cuts start loc cs [] cs
  | lexeme {start : Nat} {loc : Loc} {cs rest : List Char} {o : Terminal.Outcome} {n : Nat}
      {ts : List Token} : Terminal.first? cs = some (o, n) →
      Cuts (start + n) (loc.after (cs.take n)) (cs.drop n) ts rest →
      Cuts start loc cs ((o.token? (cs.take n) start loc).toList ++ ts) rest

theorem Cuts.lexeme_append {start : Nat} {loc : Loc} {lexeme x rest : List Char}
    {o : Terminal.Outcome} {ts : List Token}
    (hfirst : Terminal.first? (lexeme ++ x) = some (o, lexeme.length))
    (h : Cuts (start + lexeme.length) (loc.after lexeme) x ts rest) :
    Cuts start loc (lexeme ++ x) ((o.token? lexeme start loc).toList ++ ts) rest := by
  have hcut : Cuts start loc (lexeme ++ x) _ rest :=
    .lexeme hfirst (by rw [List.take_left, List.drop_left]; exact h)
  rwa [List.take_left] at hcut

/-! ### One step of a scan -/

theorem Terminal.first?_nil : Terminal.first? [] = none := by
  cases h : Terminal.first? [] with
  | none => rfl
  | some p =>
    have := Terminal.first?_bounds h
    simp only [List.length_nil] at this
    omega

/-- Tokens put in front of those of a scan. -/
def Scan.prepend (ts : List Token) (s : Scan) : Scan := { s with tokens := ts ++ s.tokens }

@[simp]
theorem scanFrom_nil (start : Nat) (loc : Loc) : scanFrom start loc [] = ⟨[], none⟩ := by
  rw [scanFrom]

theorem scanFrom_lexeme {start : Nat} {loc : Loc} {cs : List Char} {o : Terminal.Outcome} {n : Nat}
    (h : Terminal.first? cs = some (o, n)) :
    scanFrom start loc cs =
      (scanFrom (start + n) (loc.after (cs.take n)) (cs.drop n)).prepend
        (o.token? (cs.take n) start loc).toList := by
  obtain ⟨hpos, hle⟩ := Terminal.first?_bounds h
  cases cs with
  | nil =>
    simp only [List.length_nil] at hle
    omega
  | cons c rest =>
    obtain ⟨k, rfl⟩ := Nat.exists_eq_add_of_lt hpos
    simp only [Nat.zero_add] at h hle ⊢
    have hlen : ((c :: rest).take (k + 1)).length = k + 1 := List.length_take_of_le hle
    rw [scanFrom]
    simp only [h, hlen, List.drop_succ_cons]
    cases o.token? ((c :: rest).take (k + 1)) start loc <;> rfl

theorem scanFrom_stuck {start : Nat} {loc : Loc} {c : Char} {rest : List Char}
    (h : Terminal.first? (c :: rest) = none) :
    scanFrom start loc (c :: rest) = ⟨[], some (c, loc)⟩ := by
  rw [scanFrom]
  simp only [h]

/-! ### Scans and cuts -/

theorem Cuts.suffix {start : Nat} {loc : Loc} {cs rest : List Char} {ts : List Token}
    (h : Cuts start loc cs ts rest) : ∃ pre, cs = pre ++ rest := by
  induction h with
  | stop => exact ⟨[], rfl⟩
  | @lexeme start loc cs rest o n ts hfirst _ ih =>
    obtain ⟨pre, hpre⟩ := ih
    refine ⟨cs.take n ++ pre, ?_⟩
    rw [List.append_assoc, ← hpre, List.take_append_drop]

/-- Scanning can be interrupted after any number of lexemes. -/
theorem Cuts.scanFrom_eq {start : Nat} {loc : Loc} {pre rest : List Char} {ts : List Token}
    (h : Cuts start loc (pre ++ rest) ts rest) :
    scanFrom start loc (pre ++ rest) =
      (scanFrom (start + pre.length) (loc.after pre) rest).prepend ts := by
  generalize hcs : pre ++ rest = cs at h
  induction h generalizing pre with
  | @stop start loc cs =>
    have hpre : pre = [] := by simpa using hcs
    subst hpre
    rfl
  | @lexeme start loc cs rest o n ts hfirst hcuts ih =>
    obtain ⟨tail, htail⟩ := hcuts.suffix
    have hle := (Terminal.first?_bounds hfirst).2
    have hpre : pre = cs.take n ++ tail := by
      have hsplit : pre ++ rest = (cs.take n ++ tail) ++ rest := by
        rw [hcs, List.append_assoc, ← htail, List.take_append_drop]
      exact List.append_cancel_right hsplit
    have hlen : pre.length = n + tail.length := by
      rw [hpre, List.length_append, List.length_take_of_le hle]
    rw [scanFrom_lexeme hfirst, ih htail.symm, hlen, hpre, Loc.after_append, Nat.add_assoc]
    simp only [Scan.prepend, List.append_assoc]

/-- What a scan leaves: a cut of the text to its end, or to a place where no lexeme starts. -/
theorem scanFrom_cuts (start : Nat) (loc : Loc) (cs : List Char) :
    (∃ ts, scanFrom start loc cs = ⟨ts, none⟩ ∧ Cuts start loc cs ts []) ∨
    ∃ ts pre c post, cs = pre ++ c :: post ∧ Terminal.first? (c :: post) = none ∧
      scanFrom start loc cs = ⟨ts, some (c, loc.after pre)⟩ ∧ Cuts start loc cs ts (c :: post) := by
  induction hn : cs.length using Nat.strong_induction_on generalizing start loc cs with
  | _ n ih =>
    cases hfirst : Terminal.first? cs with
    | none =>
      cases cs with
      | nil => exact Or.inl ⟨[], scanFrom_nil .., Cuts.stop⟩
      | cons c post =>
        exact Or.inr ⟨[], [], c, post, rfl, hfirst, scanFrom_stuck hfirst, Cuts.stop⟩
    | some found =>
      obtain ⟨o, k⟩ := found
      obtain ⟨hpos, hle⟩ := Terminal.first?_bounds hfirst
      have hlt : (cs.drop k).length < n := by
        rw [List.length_drop]
        omega
      rcases ih _ hlt (start + k) (loc.after (cs.take k)) (cs.drop k) rfl with
        ⟨ts, hscan, hcuts⟩ | ⟨ts, pre, c, post, hdrop, hstuck, hscan, hcuts⟩
      · refine Or.inl ⟨_, ?_, Cuts.lexeme hfirst hcuts⟩
        rw [scanFrom_lexeme hfirst, hscan]
        rfl
      · refine Or.inr ⟨_, cs.take k ++ pre, c, post, ?_, hstuck, ?_, Cuts.lexeme hfirst hcuts⟩
        · rw [List.append_assoc, ← hdrop, List.take_append_drop]
        · rw [scanFrom_lexeme hfirst, hscan, Loc.after_append]
          rfl

/-- A scan is complete, with the tokens `ts`, exactly if lexemes with these tokens make up the
whole text. -/
theorem scan_eq_complete_iff {source : List Char} {ts : List Token} :
    scan source = ⟨ts, none⟩ ↔ Cuts 0 Loc.origin source ts [] := by
  constructor
  · intro h
    rcases scanFrom_cuts 0 Loc.origin source with ⟨ts', hscan, hcuts⟩ | ⟨_, _, _, _, _, _, hscan, _⟩
    · rw [scan, hscan, Scan.mk.injEq] at h
      exact h.1 ▸ hcuts
    · rw [scan, hscan, Scan.mk.injEq] at h
      exact absurd h.2 (by simp)
  · intro h
    have happ : source = source ++ [] := by simp
    rw [happ] at h
    have hscan := h.scanFrom_eq
    rw [← happ] at hscan
    rw [scan, hscan, scanFrom_nil]
    simp [Scan.prepend]

/-- A scan is stuck at `c`, with the tokens `ts` before it, exactly if lexemes with these tokens
make up the text before `c` and no terminal matches from there on. -/
theorem scan_eq_stuck_iff {source : List Char} {ts : List Token} {c : Char} {loc : Loc} :
    scan source = ⟨ts, some (c, loc)⟩ ↔
      ∃ pre post, source = pre ++ c :: post ∧ Cuts 0 Loc.origin source ts (c :: post) ∧
        Terminal.first? (c :: post) = none ∧ loc = Loc.origin.after pre := by
  constructor
  · intro h
    rcases scanFrom_cuts 0 Loc.origin source with ⟨_, hscan, _⟩ |
      ⟨ts', pre, c', post, happ, hstuck, hscan, hcuts⟩
    · rw [scan, hscan, Scan.mk.injEq] at h
      exact absurd h.2 (by simp)
    · rw [scan, hscan, Scan.mk.injEq, Option.some.injEq, Prod.mk.injEq] at h
      obtain ⟨rfl, rfl, rfl⟩ := h
      exact ⟨pre, post, happ, hcuts, hstuck, rfl⟩
  · rintro ⟨pre, post, rfl, hcuts, hstuck, rfl⟩
    rw [scan, hcuts.scanFrom_eq, scanFrom_stuck hstuck]
    simp [Scan.prepend]

/-! ### The order of tokens -/

/-- Tokens between the offsets `lo` and `hi`, none of them empty, each after the one before it. -/
def InOrder (lo hi : Nat) : List Token → Prop
  | [] => lo ≤ hi
  | t :: ts => lo ≤ t.start ∧ t.start < t.stop ∧ InOrder t.stop hi ts

namespace InOrder

theorem le {lo hi : Nat} : ∀ {ts : List Token}, InOrder lo hi ts → lo ≤ hi
  | [], h => h
  | t :: ts, h => by
    have := le h.2.2
    have := h.1
    have := h.2.1
    omega

theorem weaken {lo lo' hi : Nat} (hlo : lo' ≤ lo) : ∀ {ts : List Token}, InOrder lo hi ts →
    InOrder lo' hi ts
  | [], h => le_trans hlo h
  | _ :: _, h => ⟨le_trans hlo h.1, h.2⟩

theorem append_right {lo hi : Nat} : ∀ {u v : List Token}, InOrder lo hi (u ++ v) → InOrder lo hi v
  | [], _, h => h
  | _ :: u, _, h => by
    have := h.1
    have := h.2.1
    exact (append_right (u := u) h.2.2).weaken (by omega)

/-- What follows a token starts where the token ends, or later. -/
theorem after_last {lo hi : Nat} {t : Token} : ∀ {u v : List Token},
    InOrder lo hi (u ++ v) → u.getLast? = some t → InOrder t.stop hi v
  | [], _, _, ht => by simp at ht
  | [a], v, h, ht => by
    obtain rfl : a = t := by simpa using ht
    exact h.2.2
  | _ :: a :: u, v, h, ht => by
    rw [List.getLast?_cons_cons] at ht
    exact after_last (u := a :: u) h.2.2 ht

theorem head_le {lo hi : Nat} {ts : List Token} {t : Token} (h : InOrder lo hi ts)
    (ht : ts.head? = some t) : lo ≤ t.start := by
  obtain ⟨ts', rfl⟩ := List.head?_eq_some_iff.1 ht
  exact h.1

/-- Every token of a row is within its bounds. -/
theorem mem_bounds {lo hi : Nat} {t : Token} : ∀ {ts : List Token}, InOrder lo hi ts → t ∈ ts →
    lo ≤ t.start ∧ t.start < t.stop ∧ t.stop ≤ hi
  | a :: ts, h, ht => by
    rcases List.mem_cons.1 ht with rfl | ht
    · exact ⟨h.1, h.2.1, h.2.2.le⟩
    · obtain ⟨hlo, hlt, hhi⟩ := mem_bounds h.2.2 ht
      have := h.1
      have := h.2.1
      exact ⟨by omega, hlt, hhi⟩

/-- No token stands twice in a row. -/
theorem nodup {lo hi : Nat} : ∀ {ts : List Token}, InOrder lo hi ts → ts.Nodup
  | [], _ => .nil
  | t :: ts, h => List.nodup_cons.2 ⟨fun hmem => by
      have := (h.2.2.mem_bounds hmem).1
      have := h.2.1
      omega, h.2.2.nodup⟩

/-- Each token of a row ends where a later one starts, or before. -/
theorem stop_le {lo hi : Nat} {a b : Token} : ∀ {us vs : List Token}, InOrder lo hi (us ++ vs) →
    a ∈ us → b ∈ vs → a.stop ≤ b.start
  | x :: us, vs, h, ha, hb => by
    rcases List.mem_cons.1 ha with rfl | ha
    · exact (mem_bounds h.2.2 (List.mem_append_right us hb)).1
    · exact stop_le h.2.2 ha hb

/-- A row that is not empty covers at least one character. -/
theorem head_lt_last {lo hi : Nat} {a b : Token} : ∀ {u v : List Token},
    InOrder lo hi (u ++ v) → u.head? = some a → u.getLast? = some b → a.start < b.stop
  | [], _, _, ha, _ => by simp at ha
  | [x], v, h, ha, hb => by
    obtain rfl : x = a := by simpa using ha
    obtain rfl : x = b := by simpa using hb
    exact h.2.1
  | x :: y :: u, v, h, ha, hb => by
    obtain rfl : x = a := by simpa using ha
    rw [List.getLast?_cons_cons] at hb
    have hpos := h.2.1
    have hnext : x.stop ≤ y.start := h.2.2.1
    have hlast := head_lt_last (u := y :: u) h.2.2 rfl hb
    omega

end InOrder

theorem Terminal.Outcome.token?_range {o : Terminal.Outcome} {cs : List Char} {start : Nat}
    {loc : Loc} {t : Token} (h : o.token? cs start loc = some t) :
    t.start = start ∧ t.stop = start + cs.length := by
  cases o <;> simp only [Terminal.Outcome.token?, Option.some.injEq, reduceCtorEq] at h
  all_goals
    subst h
    exact ⟨rfl, rfl⟩

theorem Cuts.inOrder {start : Nat} {loc : Loc} {cs rest : List Char} {ts : List Token}
    (h : Cuts start loc cs ts rest) : InOrder start (start + cs.length) ts := by
  induction h with
  | stop => exact Nat.le_add_right ..
  | @lexeme start loc cs rest o n ts hfirst _ ih =>
    obtain ⟨hpos, hle⟩ := Terminal.first?_bounds hfirst
    have hsum : start + n + (cs.drop n).length = start + cs.length := by
      rw [List.length_drop]
      omega
    rw [hsum] at ih
    cases ht : o.token? (cs.take n) start loc with
    | none => exact ih.weaken (by omega)
    | some t =>
      obtain ⟨hstart, hstop⟩ := Terminal.Outcome.token?_range ht
      rw [List.length_take_of_le hle] at hstop
      refine ⟨by omega, by omega, ?_⟩
      rw [hstop]
      exact ih

/-- The tokens of a text stand in order and within the text. -/
theorem scan_inOrder (source : List Char) : InOrder 0 source.length (scan source).tokens := by
  rcases scanFrom_cuts 0 Loc.origin source with ⟨ts, hscan, hcuts⟩ | ⟨ts, _, _, _, _, _, hscan, hcuts⟩
  · rw [scan, hscan]
    simpa using hcuts.inOrder
  · rw [scan, hscan]
    simpa using hcuts.inOrder

/-! ### The places of tokens -/

/-- `a.Before b`: the place `a` comes before `b` in a text. -/
def Loc.Before (a b : Loc) : Prop := a.line < b.line ∨ a.line = b.line ∧ a.column < b.column

theorem Loc.before_step (l : Loc) (c : Char) : l.Before (l.step c) := by
  unfold Loc.step Loc.Before
  split
  · exact Or.inl (Nat.lt_succ_self _)
  · exact Or.inr ⟨rfl, Nat.lt_succ_self _⟩

theorem Loc.Before.trans {a b c : Loc} (hab : a.Before b) (hbc : b.Before c) : a.Before c := by
  unfold Loc.Before at *
  omega

theorem Loc.before_after : ∀ (l : Loc) {cs : List Char}, cs ≠ [] → l.Before (l.after cs)
  | _, [], h => absurd rfl h
  | l, [c], _ => l.before_step c
  | l, c :: c' :: cs, _ =>
    (l.before_step c).trans ((l.step c).before_after (List.cons_ne_nil c' cs))

theorem Terminal.Outcome.token?_loc {o : Terminal.Outcome} {cs : List Char} {start : Nat}
    {loc : Loc} {t : Token} (h : o.token? cs start loc = some t) :
    t.loc = loc ∧ t.endLoc = loc.after cs := by
  cases o <;> simp only [Terminal.Outcome.token?, Option.some.injEq, reduceCtorEq] at h
  all_goals
    subst h
    exact ⟨rfl, rfl⟩

/-- Each token stands at the place of the first lexeme or after it, and after the tokens before it. -/
theorem Cuts.places {start : Nat} {loc : Loc} {cs rest : List Char} {ts : List Token}
    (h : Cuts start loc cs ts rest) :
    (∀ t ∈ ts, loc = t.loc ∨ loc.Before t.loc) ∧ ts.Pairwise fun a b => a.loc.Before b.loc := by
  induction h with
  | stop => exact ⟨by simp, List.Pairwise.nil⟩
  | @lexeme start loc cs rest o n ts hfirst _ ih =>
    obtain ⟨hpos, hle⟩ := Terminal.first?_bounds hfirst
    have hne : cs.take n ≠ [] := by
      rw [Ne, List.take_eq_nil_iff, not_or]
      refine ⟨by omega, ?_⟩
      rintro rfl
      simp at hle
      omega
    have hlater : ∀ t ∈ ts, loc.Before t.loc := by
      intro t ht
      rcases ih.1 t ht with heq | hlt
      · exact heq ▸ loc.before_after hne
      · exact (loc.before_after hne).trans hlt
    cases ht : o.token? (cs.take n) start loc with
    | none => exact ⟨fun t ht => Or.inr (hlater t ht), ih.2⟩
    | some t =>
      have hloc := (Terminal.Outcome.token?_loc ht).1
      refine ⟨fun t' ht' => ?_, List.pairwise_cons.2 ⟨fun t' ht' => ?_, ih.2⟩⟩
      · rcases List.mem_cons.1 ht' with rfl | ht'
        · exact Or.inl hloc.symm
        · exact Or.inr (hlater t' ht')
      · rw [hloc]
        exact hlater t' ht'

/-- Each token of a text stands after the tokens before it. -/
theorem scan_places (source : List Char) :
    (scan source).tokens.Pairwise fun a b => a.loc.Before b.loc := by
  rcases scanFrom_cuts 0 Loc.origin source with
    ⟨ts, hscan, hcuts⟩ | ⟨ts, _, _, _, _, _, hscan, hcuts⟩
  · rw [scan, hscan]
    exact hcuts.places.2
  · rw [scan, hscan]
    exact hcuts.places.2

theorem Loc.Before.ne {a b : Loc} (h : a.Before b) : a ≠ b := by
  rintro rfl
  unfold Loc.Before at h
  omega

/-- No two tokens of a text stand at the same place. -/
theorem scan_loc_inj {source : List Char} {i j : Nat} {a b : Token}
    (ha : (scan source).tokens[i]? = some a) (hb : (scan source).tokens[j]? = some b)
    (hloc : a.loc = b.loc) : i = j := by
  have hpairwise := scan_places source
  obtain ⟨hi, rfl⟩ := List.getElem?_eq_some_iff.1 ha
  obtain ⟨hj, rfl⟩ := List.getElem?_eq_some_iff.1 hb
  rcases Nat.lt_trichotomy i j with hlt | rfl | hlt
  · exact absurd hloc (List.pairwise_iff_getElem.1 hpairwise i j hi hj hlt).ne
  · rfl
  · exact absurd hloc.symm (List.pairwise_iff_getElem.1 hpairwise j i hj hi hlt).ne

/-- The tokens of a text that can be cut to its end are those of its scan. -/
theorem lex_eq_ok_iff {source : String} {ts : List Token} :
    lex source = .ok ts ↔ scan source.toList = ⟨ts, none⟩ := by
  unfold lex
  cases hscan : scan source.toList with
  | mk tokens stuck =>
    cases stuck with
    | none => simp
    | some place => simp

theorem tokenText_of_scan {source : List Char} {ts : List Token} (h : scan source = ⟨ts, none⟩) :
    tokenText (String.ofList source) = .ok (" ".intercalate (ts.map Token.text)) := by
  have hlex : lex (String.ofList source) = .ok ts := lex_eq_ok_iff.2 (by rwa [String.toList_ofList])
  rw [tokenText, hlex]
  rfl

end TraitLift
