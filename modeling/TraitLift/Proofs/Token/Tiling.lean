import Mathlib.Tactic
import TraitLift.Proofs.Token.Boundary
import TraitLift.Proofs.Token.Place

/-!
A text is tiled by its tokens and the gaps between them. `Tiled` says what that means in terms of the text
alone: each token stands where the first terminal matches, with the part of the text between its offsets
and with places counted from the line breaks before them, and what lies between two tokens is a gap.
`exists_tiled` cuts every text in this way as far as lexemes start, and `Tiled.scanFrom` says that a scan
goes along any tiling. So the tokens of a text are those that tile it, and a text that cannot be cut is
reported at the end of its longest tiling (`lex_tiled`).
-/

namespace TraitLift

open TraitLift.Text TraitLift.Terminal

/-! ### Stretches of a text -/

/-- The part of a text between two offsets. -/
def stretch (source : List Char) (lo hi : Nat) : List Char := (source.drop lo).take (hi - lo)

section

variable {source : List Char} {lo hi : Nat}

theorem stretch_append_drop (h : lo ≤ hi) : stretch source lo hi ++ source.drop hi = source.drop lo := by
  have hdrop : source.drop hi = (source.drop lo).drop (hi - lo) := by
    rw [List.drop_drop, Nat.add_sub_of_le h]
  rw [stretch, hdrop, List.take_append_drop]

theorem length_stretch (h : hi ≤ source.length) : (stretch source lo hi).length = hi - lo := by
  rw [stretch, List.length_take_of_le]
  rw [List.length_drop]
  omega

theorem stretch_append {mid : Nat} (hlo : lo ≤ mid) (hhi : mid ≤ hi) :
    stretch source lo mid ++ stretch source mid hi = stretch source lo hi := by
  have hsum : hi - lo = (mid - lo) + (hi - mid) := by omega
  rw [stretch, stretch, stretch, hsum, List.take_add, List.drop_drop, Nat.add_sub_of_le hlo]

theorem stretch_of_drop {k : Nat} {g rest : List Char} (h : source.drop k = g ++ rest) :
    stretch source k (k + g.length) = g := by
  rw [stretch, h, Nat.add_sub_cancel_left, List.take_left]

theorem stretch_self (source : List Char) (lo : Nat) : stretch source lo lo = [] := by
  rw [stretch, Nat.sub_self, List.take_zero]

theorem ofOffset_after (h : lo ≤ hi) :
    (Loc.ofOffset source lo).after (stretch source lo hi) = Loc.ofOffset source hi := by
  have htake : source.take hi = source.take lo ++ stretch source lo hi := by
    rw [stretch, ← List.take_add, Nat.add_sub_of_le h]
  rw [Loc.ofOffset_eq, Loc.ofOffset_eq, htake, Loc.after_append]

end

/-! ### Tilings -/

/-- A token stands in a text where it says. It covers a stretch that is not empty, which is its text and
whose ends are its places; and of the terminals that match at its start the first gives its length and its
kind. -/
structure Token.StandsIn (t : Token) (source : List Char) : Prop where
  start_lt : t.start < t.stop
  stop_le : t.stop ≤ source.length
  text : t.text = String.ofList (stretch source t.start t.stop)
  loc : t.loc = Loc.ofOffset source t.start
  endLoc : t.endLoc = Loc.ofOffset source t.stop
  lexeme : ∃ o, first? (source.drop t.start) = some (o, t.stop - t.start) ∧
    o.kind? (stretch source t.start t.stop) = some t.kind

/-- The tokens `ts` tile a text from the offset `k` to the offset `stop`: in front of each of them and
behind the last one is a gap. -/
def Tiled (source : List Char) (stop : Nat) : Nat → List Token → Prop
  | k, [] => k ≤ stop ∧ stop ≤ source.length ∧ Gap (stretch source k stop)
  | k, t :: ts => k ≤ t.start ∧ Gap (stretch source k t.start) ∧ t.StandsIn source ∧
      Tiled source stop t.stop ts

/-- A comment on the last line of a text, if no line break ends it. -/
def IsLastComment (cs : List Char) : Prop :=
  ∃ body, cs = '/' :: '/' :: body ∧ '\n' ∉ body ∧ isDocLine body = false

/-! ### A scan goes along a tiling -/

theorem scanFrom_skip {lexeme cs : List Char} (h : first? (lexeme ++ cs) = some (.skip, lexeme.length))
    (start : Nat) (loc : Loc) : scanFrom start loc (lexeme ++ cs) =
      scanFrom (start + lexeme.length) (loc.after lexeme) cs := by
  rw [scanFrom_lexeme h, List.take_left, List.drop_left]
  rfl

/-- A gap in front of a text only moves its tokens. -/
theorem Gap.scanFrom {g : List Char} (hg : Gap g) : ∀ (start : Nat) (loc : Loc) (cs : List Char),
    scanFrom start loc (g ++ cs) = TraitLift.scanFrom (start + g.length) (loc.after g) cs := by
  have hblank : ∀ {c : Char} {g : List Char}, isBlank c →
      (∀ start loc cs, TraitLift.scanFrom start loc (g ++ cs) =
        TraitLift.scanFrom (start + g.length) (loc.after g) cs) →
      ∀ start loc cs, TraitLift.scanFrom start loc ((c :: g) ++ cs) =
        TraitLift.scanFrom (start + (c :: g).length) (loc.after (c :: g)) cs := by
    intro c g hc ih start loc cs
    rw [List.cons_append, scanFrom_blank hc, ih, List.length_cons, Loc.after_cons, Nat.add_assoc,
      Nat.add_comm 1]
  induction hg with
  | nil => exact fun _ _ _ => rfl
  | blank hc _ ih => exact hblank hc ih
  | @line body g hbreak hdoc _ ih =>
    intro start loc cs
    have hsplit : '/' :: '/' :: (body ++ '\n' :: g) = ('/' :: '/' :: body) ++ ('\n' :: g) := rfl
    rw [hsplit, List.append_assoc, scanFrom_skip (first?_line hbreak hdoc (g ++ cs)),
      hblank (by decide) ih, List.length_append, Loc.after_append, Nat.add_assoc]
  | @block body g hclose hdoc _ ih =>
    intro start loc cs
    have hsplit : '/' :: '*' :: (body ++ '*' :: '/' :: g) =
        ('/' :: '*' :: (body ++ ['*', '/'])) ++ g := by simp
    rw [hsplit, List.append_assoc, scanFrom_skip (by simpa using first?_block hclose hdoc (g ++ cs)),
      ih, List.length_append, Loc.after_append, Nat.add_assoc]

/-- A token that stands in a text is the one that its lexeme becomes. -/
theorem Token.StandsIn.token? {t : Token} {source : List Char} (h : t.StandsIn source) {o : Outcome}
    (hk : o.kind? (stretch source t.start t.stop) = some t.kind) :
    o.token? (stretch source t.start t.stop) t.start (Loc.ofOffset source t.start) = some t := by
  have hstop : t.start + (stretch source t.start t.stop).length = t.stop := by
    rw [length_stretch h.stop_le, Nat.add_sub_of_le h.start_lt.le]
  have hmake : (⟨t.kind, String.ofList (stretch source t.start t.stop), t.start,
      t.start + (stretch source t.start t.stop).length, Loc.ofOffset source t.start,
      (Loc.ofOffset source t.start).after (stretch source t.start t.stop)⟩ : Token) = t := by
    rw [hstop, ofOffset_after h.start_lt.le, ← h.text, ← h.loc, ← h.endLoc]
  cases o with
  | skip => simp [Outcome.kind?] at hk
  | token k =>
    obtain rfl := Option.some.inj hk
    exact congrArg some hmake
  | word =>
    have hword := Option.some.inj hk
    rw [← hword] at hmake
    exact congrArg some hmake

theorem Tiled.le {source : List Char} {stop : Nat} : ∀ {k : Nat} {ts : List Token},
    Tiled source stop k ts → k ≤ stop ∧ stop ≤ source.length
  | _, [], h => ⟨h.1, h.2.1⟩
  | k, t :: ts, ⟨hk, _, ht, hts⟩ => by
    have := ht.start_lt
    have := le hts
    omega

theorem Tiled.scanFrom {source : List Char} {stop : Nat} : ∀ {k : Nat} {ts : List Token},
    Tiled source stop k ts → TraitLift.scanFrom k (Loc.ofOffset source k) (source.drop k) =
      (TraitLift.scanFrom stop (Loc.ofOffset source stop) (source.drop stop)).prepend ts
  | k, [], ⟨hk, hstop, hgap⟩ => by
    rw [← stretch_append_drop hk, hgap.scanFrom, length_stretch hstop, ofOffset_after hk,
      Nat.add_sub_of_le hk]
    rfl
  | k, t :: ts, ⟨hk, hgap, ht, hts⟩ => by
    have hlen : t.start ≤ source.length := ht.start_lt.le.trans ht.stop_le
    obtain ⟨o, hfirst, hkind⟩ := ht.lexeme
    have hlexeme : (source.drop t.start).take (t.stop - t.start) = stretch source t.start t.stop := rfl
    have hrest : (source.drop t.start).drop (t.stop - t.start) = source.drop t.stop := by
      rw [List.drop_drop, Nat.add_sub_of_le ht.start_lt.le]
    rw [← stretch_append_drop hk, hgap.scanFrom, length_stretch hlen, ofOffset_after hk,
      Nat.add_sub_of_le hk, scanFrom_lexeme hfirst, hlexeme, hrest, ht.token? hkind,
      ofOffset_after ht.start_lt.le, Nat.add_sub_of_le ht.start_lt.le, hts.scanFrom]
    rfl

/-! ### Every text has a tiling -/

/-- A text up to the end of a block comment. -/
theorem exists_of_upTo : ∀ {cs : List Char} {n : Nat}, upTo ['*', '/'] cs = some n →
    ∃ body x, cs = body ++ '*' :: '/' :: x ∧ ¬ ['*', '/'] <:+: body
  | [], _, h => by simp [upTo] at h
  | c :: cs, n, h => by
    rw [upTo] at h
    split at h
    · next hclose =>
      obtain ⟨x, hx⟩ := List.isPrefixOf_iff_prefix.1 hclose
      exact ⟨[], x, hx.symm, by decide⟩
    · next hclose =>
      obtain ⟨m, hm, -⟩ := Option.map_eq_some_iff.1 h
      obtain ⟨body, x, rfl, hbody⟩ := exists_of_upTo hm
      refine ⟨c :: body, x, rfl, fun hinfix => ?_⟩
      rcases List.infix_cons_iff.1 hinfix with hstart | hinfix
      · refine hclose (List.isPrefixOf_iff_prefix.2 (hstart.trans ?_))
        exact (List.prefix_cons_inj c).2 (List.prefix_append ..)
      · exact hbody hinfix

theorem isDocLine_of_skip {y : List Char} (h : lineOutcome y = .skip) :
    isDocLine (y.takeWhile (· ≠ '\n')) = false := by
  cases y with
  | nil => rfl
  | cons c cs =>
    by_cases hslash : c = '/'
    · subst hslash
      have hhead : cs.head? = some '/' := by
        by_contra hne
        simp [lineOutcome, hne] at h
      obtain ⟨cs, rfl⟩ := List.head?_eq_some_iff.1 hhead
      rfl
    · have hbang : c ≠ '!' := by
        rintro rfl
        simp [lineOutcome] at h
      by_cases hbreak : c = '\n'
      · subst hbreak
        rfl
      · rw [List.takeWhile_cons_of_pos (by simpa using hbreak)]
        simp [isDocLine, hslash, hbang]

theorem isDocBlock_of_skip {body x : List Char} (hbody : ¬ ['*', '/'] <:+: body)
    (h : blockOutcome (body ++ '*' :: '/' :: x) = .skip) : isDocBlock body = false := by
  match body with
  | [] => rfl
  | [c] =>
    have hbang : c ≠ '!' := by
      rintro rfl
      simp [blockOutcome] at h
    simp [isDocBlock, hbang]
  | c :: d :: body =>
    have hbang : c ≠ '!' := by
      rintro rfl
      simp [blockOutcome] at h
    by_cases hstar : c = '*'
    · subst hstar
      have hslash : d ≠ '/' := by
        rintro rfl
        exact hbody ⟨[], body, rfl⟩
      simpa [blockOutcome, isDocBlock, hslash] using h
    · simp [isDocBlock, hbang, hstar]

/-- What a scan leaves out begins with a blank or is a comment that is no doc comment; a comment on a line
goes on to the end of the line. -/
theorem shape_of_skip {cs : List Char} {n : Nat} (h : first? cs = some (.skip, n)) :
    (∃ c x, cs = c :: x ∧ isBlank c) ∨
    (∃ body x, cs = '/' :: '*' :: (body ++ '*' :: '/' :: x) ∧ ¬ ['*', '/'] <:+: body ∧
      isDocBlock body = false) ∨
    (∃ body x, cs = '/' :: '/' :: (body ++ '\n' :: x) ∧ '\n' ∉ body ∧ isDocLine body = false) ∨
    IsLastComment cs := by
  obtain ⟨m, hm, hn⟩ := exists_terminal_of_first? h
  obtain rfl | rfl | rfl : m = blockComment ∨ m = lineComment ∨ m = blanks := by simpa [all] using hm
  · refine Or.inr (Or.inl ?_)
    unfold blockComment at hn
    split at hn
    · next y =>
      obtain ⟨k, hk, -⟩ := Option.map_eq_some_iff.1 hn
      obtain ⟨body, x, rfl, hbody⟩ := exists_of_upTo hk
      rw [first?_closed hk] at h
      exact ⟨body, x, rfl, hbody, isDocBlock_of_skip hbody (Prod.mk.inj (Option.some.inj h)).1⟩
    · simp at hn
  · refine Or.inr (Or.inr ?_)
    unfold lineComment at hn
    split at hn
    · next y =>
      rw [first?_slashes] at h
      have hdoc := isDocLine_of_skip (Prod.mk.inj (Option.some.inj h)).1
      have hbreak : '\n' ∉ y.takeWhile (· ≠ '\n') := fun hmem => by
        simpa using List.mem_takeWhile_imp hmem
      have hsplit := List.takeWhile_append_dropWhile (p := (· ≠ '\n')) (l := y)
      cases hrest : y.dropWhile (· ≠ '\n') with
      | nil =>
        rw [hrest, List.append_nil] at hsplit
        exact Or.inr ⟨_, by rw [hsplit], hbreak, hdoc⟩
      | cons c x =>
        have hhead := List.head?_dropWhile_not (· ≠ '\n') y
        rw [hrest] at hhead
        obtain rfl : c = '\n' := by simpa using hhead
        exact Or.inl ⟨_, x, by rw [← hrest, hsplit], hbreak, hdoc⟩
    · simp at hn
  · refine Or.inl ?_
    cases cs with
    | nil => simp [blanks, run] at hn
    | cons c x =>
      refine ⟨c, x, rfl, ?_⟩
      by_contra hc
      simp [blanks, run_cons, hc] at hn

theorem Gap.append {g g' : List Char} (h : Gap g) (h' : Gap g') : Gap (g ++ g') := by
  induction h with
  | nil => exact h'
  | blank hc _ ih => exact .blank hc ih
  | @line body g hbreak hdoc _ ih =>
    rw [List.cons_append, List.cons_append, List.append_assoc, List.cons_append]
    exact .line hbreak hdoc ih
  | @block body g hclose hdoc _ ih =>
    rw [List.cons_append, List.cons_append, List.append_assoc, List.cons_append, List.cons_append]
    exact .block hclose hdoc ih

/-- A gap in front of a tiling. -/
theorem Tiled.behind_gap {source : List Char} {stop k k' : Nat} (hk : k ≤ k')
    (hg : Gap (stretch source k k')) : ∀ {ts : List Token}, Tiled source stop k' ts →
      Tiled source stop k ts
  | [], ⟨hk', hstop, hgap⟩ => by
    refine ⟨hk.trans hk', hstop, ?_⟩
    rw [← stretch_append hk hk']
    exact hg.append hgap
  | t :: ts, ⟨hk', hgap, ht, hts⟩ => by
    refine ⟨hk.trans hk', ?_, ht, hts⟩
    rw [← stretch_append hk hk']
    exact hg.append hgap

/-- No terminal matches any more, or a comment goes on to the end of the text. -/
def EndsAt (source : List Char) (stop : Nat) : Prop :=
  first? (source.drop stop) = none ∨ IsLastComment (source.drop stop)

/-- Every text is tiled as far as lexemes start. -/
theorem exists_tiled (source : List Char) (k : Nat) (hk : k ≤ source.length) : ∃ stop ts,
    Tiled source stop k ts ∧ EndsAt source stop := by
  have hhere : EndsAt source k → ∃ stop ts, Tiled source stop k ts ∧ EndsAt source stop := fun hend =>
    ⟨k, [], ⟨le_refl k, hk, by rw [stretch_self]; exact .nil⟩, hend⟩
  have hgap : ∀ {g rest}, source.drop k = g ++ rest → g ≠ [] → Gap g →
      ∃ stop ts, Tiled source stop k ts ∧ EndsAt source stop := by
    intro g rest hdrop hne hg
    have hpos := List.length_pos_iff.2 hne
    have hle : k + g.length ≤ source.length := by
      have hlength := congrArg List.length hdrop
      rw [List.length_drop, List.length_append] at hlength
      omega
    obtain ⟨stop, ts, htiled, hend⟩ := exists_tiled source (k + g.length) hle
    exact ⟨stop, ts, htiled.behind_gap (Nat.le_add_right ..) (by rwa [stretch_of_drop hdrop]), hend⟩
  cases hfirst : first? (source.drop k) with
  | none => exact hhere (Or.inl hfirst)
  | some found =>
    obtain ⟨o, n⟩ := found
    obtain ⟨hpos, hle⟩ := first?_bounds hfirst
    rw [List.length_drop] at hle
    cases hkind : o.kind? (stretch source k (k + n)) with
    | none =>
      obtain rfl : o = .skip := by cases o <;> simp_all [Outcome.kind?]
      rcases shape_of_skip hfirst with ⟨c, x, hdrop, hc⟩ | ⟨body, x, hdrop, hclose, hdoc⟩ |
        ⟨body, x, hdrop, hbreak, hdoc⟩ | hlast
      · exact hgap (g := [c]) hdrop (by simp) (.blank hc .nil)
      · exact hgap (g := '/' :: '*' :: (body ++ ['*', '/'])) (by simpa using hdrop) (by simp)
          (.block hclose hdoc .nil)
      · exact hgap (g := '/' :: '/' :: (body ++ ['\n'])) (by simpa using hdrop) (by simp)
          (.line hbreak hdoc .nil)
      · exact hhere (Or.inr hlast)
    | some kind =>
      have hsum : k + n ≤ source.length := by omega
      obtain ⟨stop, ts, htiled, hend⟩ := exists_tiled source (k + n) hsum
      refine ⟨stop, ⟨kind, String.ofList (stretch source k (k + n)), k, k + n, Loc.ofOffset source k,
        Loc.ofOffset source (k + n)⟩ :: ts, ⟨le_refl k, ?_, ?_, htiled⟩, hend⟩
      · rw [stretch_self]
        exact .nil
      · refine ⟨Nat.lt_add_of_pos_right hpos, hsum, rfl, rfl, rfl, o, ?_, hkind⟩
        rw [hfirst, Nat.add_sub_cancel_left]
termination_by source.length - k

/-! ### The tokens of a text -/

theorem first?_eq_none_iff {cs : List Char} : first? cs = none ↔ ∀ t ∈ all, t.2 cs = none := by
  rw [first?, List.findSome?_eq_none_iff]
  exact forall₂_congr fun t _ => Option.map_eq_none_iff

theorem Tiled.scan {source : List Char} {stop : Nat} {ts : List Token} (h : Tiled source stop 0 ts) :
    scan source =
      (TraitLift.scanFrom stop (Loc.ofOffset source stop) (source.drop stop)).prepend ts := by
  rw [← h.scanFrom]
  rfl

theorem scanFrom_lastComment {cs : List Char} (h : IsLastComment cs) (start : Nat) (loc : Loc) :
    scanFrom start loc cs = ⟨[], none⟩ := by
  obtain ⟨body, rfl, hbreak, hdoc⟩ := h
  have hrun : run (· ≠ '\n') body = body.length := by
    rw [run, List.takeWhile_eq_self_iff.2]
    intro c hc
    have hne : c ≠ '\n' := fun heq => hbreak (heq ▸ hc)
    simpa using hne
  have houtcome : lineOutcome body = .skip := by
    unfold lineOutcome
    unfold isDocLine at hdoc
    split <;> simp_all
  have hfirst := first?_slashes body
  rw [hrun, houtcome] at hfirst
  rw [scanFrom_lexeme hfirst, List.drop_eq_nil_of_le (by simp), scanFrom_nil]
  rfl

/-- A tiling up to the end of the text, or to a comment that goes on to there, has all its tokens. -/
theorem Tiled.scan_complete {source : List Char} {stop : Nat} {ts : List Token}
    (h : Tiled source stop 0 ts) (hend : stop = source.length ∨ IsLastComment (source.drop stop)) :
    TraitLift.scan source = ⟨ts, none⟩ := by
  have hrest : TraitLift.scanFrom stop (Loc.ofOffset source stop) (source.drop stop) = ⟨[], none⟩ := by
    rcases hend with rfl | hlast
    · rw [List.drop_length, scanFrom_nil]
    · exact scanFrom_lastComment hlast ..
  rw [h.scan, hrest, Scan.prepend, List.append_nil]

/-- Where no terminal matches behind a tiling, the scan is stuck. -/
theorem Tiled.scan_stuck {source : List Char} {stop : Nat} {ts : List Token} {c : Char}
    (h : Tiled source stop 0 ts) (hc : source[stop]? = some c) (hfirst : first? (source.drop stop) = none) :
    TraitLift.scan source = ⟨ts, some (c, Loc.ofOffset source stop)⟩ := by
  obtain ⟨hlt, rfl⟩ := List.getElem?_eq_some_iff.1 hc
  rw [List.drop_eq_getElem_cons hlt] at hfirst
  rw [h.scan, List.drop_eq_getElem_cons hlt, scanFrom_stuck hfirst, Scan.prepend, List.append_nil]

/-- No tiling goes on behind a place where no terminal matches. -/
theorem Tiled.stop_le_of_stuck {source : List Char} {stop stop' : Nat} {ts ts' : List Token} {c : Char}
    (h : TraitLift.scan source = ⟨ts, some (c, Loc.ofOffset source stop)⟩)
    (h' : Tiled source stop' 0 ts') : stop' ≤ stop := by
  by_contra hlt
  have hle := Nat.le_of_lt (Nat.lt_of_not_le hlt)
  rw [h'.scan] at h
  have hstuck := congrArg Scan.stuck h
  rcases scanFrom_cuts stop' (Loc.ofOffset source stop') (source.drop stop') with
    ⟨us, hscan, -⟩ | ⟨us, pre, d, post, -, -, hscan, -⟩
  · rw [hscan] at hstuck
    simp [Scan.prepend] at hstuck
  · rw [hscan] at hstuck
    have hloc := (Prod.mk.inj (Option.some.inj hstuck)).2
    rw [← ofOffset_after hle, ← Loc.after_append] at hloc
    have hne : stretch source stop stop' ++ pre ≠ [] := by
      rw [← List.length_pos_iff, List.length_append, length_stretch h'.le.2]
      omega
    exact (Loc.before_after _ hne).ne hloc.symm

theorem lex_eq_error {source : String} {ts : List Token} {c : Char} {loc : Loc}
    (h : scan source.toList = ⟨ts, some (c, loc)⟩) :
    lex source = .error (.unexpectedChar c .tokens loc) := by
  rw [lex, h]

/-- A text is tiled to its end or to a place where no terminal matches. -/
theorem exists_tiled_or_stuck (source : List Char) :
    (∃ stop ts, Tiled source stop 0 ts ∧ (stop = source.length ∨ IsLastComment (source.drop stop))) ∨
    ∃ stop ts c, Tiled source stop 0 ts ∧ source[stop]? = some c ∧
      first? (source.drop stop) = none := by
  obtain ⟨stop, ts, htiled, hfirst | hlast⟩ := exists_tiled source 0 (Nat.zero_le _)
  · rcases htiled.le.2.eq_or_lt with heq | hlt
    · exact Or.inl ⟨stop, ts, htiled, Or.inl heq⟩
    · exact Or.inr ⟨stop, ts, source[stop], htiled, List.getElem?_eq_getElem hlt, hfirst⟩
  · exact Or.inl ⟨stop, ts, htiled, Or.inr hlast⟩

/-- The tokens of a text that can be cut to its end are those that tile it, up to its end or to a comment
that goes on to there. A text that cannot be cut to its end is reported at the first place that no tiling
covers: no terminal matches there, and all tilings end there or earlier. -/
theorem lex_tiled (source : String) :
    (∀ ts, lex source = .ok ts ↔ ∃ stop, Tiled source.toList stop 0 ts ∧
      (stop = source.toList.length ∨ IsLastComment (source.toList.drop stop))) ∧
    ∀ f, lex source = .error f ↔ ∃ stop ts c, Tiled source.toList stop 0 ts ∧
      source.toList[stop]? = some c ∧ (∀ t ∈ Terminal.all, t.2 (source.toList.drop stop) = none) ∧
      (∀ stop' ts', Tiled source.toList stop' 0 ts' → stop' ≤ stop) ∧
      f = .unexpectedChar c .tokens (Loc.ofOffset source.toList stop) := by
  refine ⟨fun ts => ⟨fun h => ?_, ?_⟩, fun f => ⟨fun h => ?_, ?_⟩⟩
  · rcases exists_tiled_or_stuck source.toList with
      ⟨stop, us, htiled, hend⟩ | ⟨stop, us, c, htiled, hc, hfirst⟩
    · have hlex := lex_eq_ok_iff.2 (htiled.scan_complete hend)
      obtain rfl := Except.ok.inj (hlex.symm.trans h)
      exact ⟨stop, htiled, hend⟩
    · simp [lex_eq_error (htiled.scan_stuck hc hfirst)] at h
  · rintro ⟨stop, htiled, hend⟩
    exact lex_eq_ok_iff.2 (htiled.scan_complete hend)
  · rcases exists_tiled_or_stuck source.toList with
      ⟨stop, us, htiled, hend⟩ | ⟨stop, us, c, htiled, hc, hfirst⟩
    · simp [lex_eq_ok_iff.2 (htiled.scan_complete hend)] at h
    · have hscan := htiled.scan_stuck hc hfirst
      obtain rfl := Except.error.inj ((lex_eq_error hscan).symm.trans h)
      exact ⟨stop, us, c, htiled, hc, first?_eq_none_iff.1 hfirst,
        fun _ _ h' => h'.stop_le_of_stuck hscan, rfl⟩
  · rintro ⟨stop, us, c, htiled, hc, hnone, -, rfl⟩
    exact lex_eq_error (htiled.scan_stuck hc (first?_eq_none_iff.2 hnone))

/-- A string that goes on over the end of its line, between two comments. -/
theorem lex_tiled_string :
    let source := "// x\n\"a\nb\" // y"
    ∃ stop, Tiled source.toList stop 0 [⟨.string, "\"a\nb\"", 5, 10, ⟨2, 1⟩, ⟨3, 3⟩⟩] ∧
      (stop = source.toList.length ∨ IsLastComment (source.toList.drop stop)) :=
  ((lex_tiled "// x\n\"a\nb\" // y").1 [⟨.string, "\"a\nb\"", 5, 10, ⟨2, 1⟩, ⟨3, 3⟩⟩]).1
    (by decide +kernel)

end TraitLift
