import Mathlib.Tactic
import Mathlib.Data.List.DropRight
import TraitLift.Proofs.Token.Cut

/-!
Places in a fragment of a text. A fragment that starts at the place `base` of a text has its own
lines and columns, counted from one; `base.locate l` is where its place `l` is in the text. Lines
add up, and columns do on the first line of the fragment only. Lexemes know nothing of the place
they are found at, so the tokens of a fragment are those of the text, moved (`Cuts.moved`).
-/

namespace TraitLift

namespace Loc

/-- Lines and columns count from one. -/
def Counted (l : Loc) : Prop := 1 ≤ l.line ∧ 1 ≤ l.column

/-- Where in a text the place `l` of a fragment is that starts at `base`. -/
def locate (base l : Loc) : Loc :=
  if l.line = 1 then ⟨base.line, base.column + (l.column - 1)⟩
  else ⟨base.line + (l.line - 1), l.column⟩

theorem counted_origin : origin.Counted := ⟨le_refl 1, le_refl 1⟩

theorem Counted.step {l : Loc} (h : l.Counted) (c : Char) : (l.step c).Counted := by
  unfold Loc.step Counted at *
  split
  · simp
  · exact ⟨h.1, Nat.le_add_left ..⟩

theorem Counted.after : ∀ {l : Loc}, l.Counted → ∀ cs : List Char, (l.after cs).Counted
  | _, h, [] => h
  | _, h, c :: cs => (h.step c).after cs

theorem locate_origin (base : Loc) : base.locate origin = base := rfl

theorem locate_step (base : Loc) {l : Loc} (h : l.Counted) (c : Char) :
    base.locate (l.step c) = (base.locate l).step c := by
  obtain ⟨line, column⟩ := l
  obtain ⟨hline, hcolumn⟩ := h
  simp only at hline hcolumn
  by_cases hc : c = '\n'
  · -- the first line of the fragment ends where the line of the text ends
    by_cases hfirst : line = 1
    · simp [locate, step, hc, hfirst]
    · simp only [locate, step, hc, hfirst, if_true, if_false]
      rw [if_neg (by omega), Loc.mk.injEq]
      exact ⟨by omega, rfl⟩
  · by_cases hfirst : line = 1
    · simp only [locate, step, hc, hfirst, if_true, if_false, Loc.mk.injEq, true_and]
      omega
    · simp [locate, step, hc, hfirst]

theorem locate_after (base : Loc) : ∀ {l : Loc}, l.Counted → ∀ cs : List Char,
    base.locate (l.after cs) = (base.locate l).after cs
  | _, _, [] => rfl
  | l, h, c :: cs => by rw [after_cons, locate_after base (h.step c), locate_step base h, after_cons]

/-- Only line ends and the number of characters after the last of them count. -/
theorem after_map {f : Char → Char} (hf : ∀ c, f c = '\n' ↔ c = '\n') :
    ∀ (l : Loc) (cs : List Char), l.after (cs.map f) = l.after cs
  | _, [] => rfl
  | l, c :: cs => by
    have hstep : l.step (f c) = l.step c := by simp only [step, hf]
    rw [List.map_cons, after_cons, after_cons, hstep, after_map hf]

/-- The place of an offset of a text, told by the line breaks in front of it: the number of its line is one
more than theirs, and its column is one more than the number of characters behind the last of them. -/
def ofOffset (text : List Char) (k : Nat) : Loc :=
  ⟨1 + (text.take k).count '\n', 1 + ((text.take k).rtakeWhile (· ≠ '\n')).length⟩

theorem after_origin (cs : List Char) :
    origin.after cs = ⟨1 + cs.count '\n', 1 + (cs.rtakeWhile (· ≠ '\n')).length⟩ := by
  induction cs using List.reverseRecOn with
  | nil => rfl
  | append_singleton cs c ih =>
    rw [after_append, ih, after_cons, after_nil, step, List.count_append]
    by_cases hc : c = '\n'
    · subst hc
      rw [if_pos rfl, List.rtakeWhile_concat_neg _ _ _ (by simp)]
      simp [Nat.add_assoc]
    · rw [if_neg hc, List.rtakeWhile_concat_pos _ _ _ (by simpa using hc)]
      simp [Nat.add_assoc, hc]

/-- Counting the line breaks in front of an offset comes to the same as going there. -/
theorem ofOffset_eq (text : List Char) (k : Nat) : ofOffset text k = origin.after (text.take k) :=
  (after_origin _).symm

/-- Offsets of a fragment of a text. -/
theorem ofOffset_append (front fragment back : List Char) {k : Nat} (hk : k ≤ fragment.length) :
    ofOffset (front ++ (fragment ++ back)) (front.length + k) =
      (ofOffset (front ++ (fragment ++ back)) front.length).locate (ofOffset fragment k) := by
  have htake : (front ++ (fragment ++ back)).take (front.length + k) = front ++ fragment.take k := by
    rw [List.take_length_add_append, List.take_append_of_le_length hk]
  rw [ofOffset_eq, ofOffset_eq, ofOffset_eq, htake, List.take_left, after_append,
    locate_after _ counted_origin, locate_origin]

end Loc

/-- The token of a text that a token of a fragment is; the fragment starts at offset `k` and place
`base`. -/
def Token.moved (k : Nat) (base : Loc) (t : Token) : Token :=
  { t with
    start := t.start + k
    stop := t.stop + k
    loc := base.locate t.loc
    endLoc := base.locate t.endLoc }

section

variable (k : Nat) (base : Loc) (t : Token)

@[simp]
theorem Token.moved_kind : (t.moved k base).kind = t.kind := rfl

@[simp]
theorem Token.moved_text : (t.moved k base).text = t.text := rfl

@[simp]
theorem Token.moved_start : (t.moved k base).start = t.start + k := rfl

@[simp]
theorem Token.moved_stop : (t.moved k base).stop = t.stop + k := rfl

@[simp]
theorem Token.moved_loc : (t.moved k base).loc = base.locate t.loc := rfl

end

theorem Terminal.Outcome.token?_moved (o : Outcome) (cs : List Char) (start k : Nat) (base : Loc)
    {loc : Loc} (h : loc.Counted) :
    o.token? cs (start + k) (base.locate loc) = (o.token? cs start loc).map (Token.moved k base) := by
  have hstop : start + k + cs.length = start + cs.length + k := by omega
  cases o <;>
    simp [token?, Token.moved, Loc.locate_after base h, hstop]

/-- The lexemes of a fragment are those of the text. -/
theorem Cuts.moved {start : Nat} {loc : Loc} {cs rest : List Char} {ts : List Token} (k : Nat)
    (base : Loc) (h : Cuts start loc cs ts rest) (hloc : loc.Counted) :
    Cuts (start + k) (base.locate loc) cs (ts.map (Token.moved k base)) rest := by
  induction h with
  | stop => exact .stop
  | @lexeme start loc cs rest o n ts hfirst _ ih =>
    have ih := ih (hloc.after _)
    rw [Loc.locate_after base hloc, Nat.add_right_comm] at ih
    rw [List.map_append, ← Option.toList_map, ← o.token?_moved _ start k base hloc]
    exact .lexeme hfirst ih

/-- A row of lexemes is divided by the lexeme of each of its tokens. -/
theorem Cuts.divide {start : Nat} {loc : Loc} {cs rest : List Char} {us vs : List Token} {t : Token}
    (h : Cuts start loc cs (us ++ t :: vs) rest) :
    ∃ pre lexeme post o, cs = pre ++ (lexeme ++ post) ∧
      Terminal.first? (lexeme ++ post) = some (o, lexeme.length) ∧
      o.token? lexeme (start + pre.length) (loc.after pre) = some t ∧
      Cuts start loc cs us (lexeme ++ post) ∧
      Cuts (start + pre.length + lexeme.length) ((loc.after pre).after lexeme) post vs rest := by
  generalize hts : us ++ t :: vs = ts at h
  induction h generalizing us with
  | stop => simp at hts
  | @lexeme start loc cs rest o n ts hfirst hcuts ih =>
    have hlen := List.length_take_of_le (Terminal.first?_bounds hfirst).2
    -- the first lexeme is a gap, a token before `t`, or `t` itself
    have hlater : ∀ {us'}, us' ++ t :: vs = ts → ∃ pre lexeme post o', cs = pre ++ (lexeme ++ post) ∧
        Terminal.first? (lexeme ++ post) = some (o', lexeme.length) ∧
        o'.token? lexeme (start + pre.length) (loc.after pre) = some t ∧
        Cuts start loc cs ((o.token? (cs.take n) start loc).toList ++ us') (lexeme ++ post) ∧
        Cuts (start + pre.length + lexeme.length) ((loc.after pre).after lexeme) post vs rest := by
      intro us' hus
      obtain ⟨pre, lexeme, post, o', htext, hfirst', htoken, hfront, hback⟩ := ih hus
      refine ⟨cs.take n ++ pre, lexeme, post, o', ?_, hfirst', ?_, .lexeme hfirst hfront, ?_⟩
      · rw [List.append_assoc, ← htext, List.take_append_drop]
      · rw [List.length_append, hlen, Loc.after_append, ← Nat.add_assoc]
        exact htoken
      · rw [List.length_append, hlen, Loc.after_append, ← Nat.add_assoc]
        exact hback
    cases htoken : o.token? (cs.take n) start loc with
    | none =>
      rw [htoken] at hts hlater
      exact hlater hts
    | some t' =>
      rw [htoken] at hts hlater
      cases us with
      | nil =>
        obtain ⟨rfl, rfl⟩ := List.cons.inj hts
        refine ⟨[], cs.take n, cs.drop n, o, ?_, ?_, htoken, ?_, ?_⟩
        · rw [List.nil_append, List.take_append_drop]
        · rw [List.take_append_drop, hlen, hfirst]
        · rw [List.take_append_drop]
          exact .stop
        · rw [hlen]
          exact hcuts
      | cons u us =>
        obtain ⟨rfl, hus⟩ := List.cons.inj hts
        exact hlater hus

/-- Lexemes and the lexemes behind them are a row of lexemes. -/
theorem Cuts.append {start : Nat} {loc : Loc} {p x rest : List Char} {us vs : List Token}
    (h : Cuts start loc (p ++ x) us x) (h' : Cuts (start + p.length) (loc.after p) x vs rest) :
    Cuts start loc (p ++ x) (us ++ vs) rest := by
  generalize hcs : p ++ x = cs at h
  induction h generalizing p with
  | stop =>
    obtain rfl : p = [] := by simpa using hcs
    exact h'
  | @lexeme start loc cs x o n ts hfirst hcuts ih =>
    subst hcs
    obtain ⟨pre, hpre⟩ := hcuts.suffix
    have hlen := List.length_take_of_le (Terminal.first?_bounds hfirst).2
    have hp : p = (p ++ x).take n ++ pre := by
      have hsplit : p ++ x = ((p ++ x).take n ++ pre) ++ x := by
        rw [List.append_assoc, ← hpre, List.take_append_drop]
      exact List.append_cancel_right hsplit
    rw [List.append_assoc]
    refine .lexeme hfirst (ih ?_ hpre.symm)
    have hlength := congrArg List.length hp
    rw [List.length_append, hlen] at hlength
    rwa [hlength, ← Nat.add_assoc, hp, Loc.after_append] at h'

/-- A row of lexemes is divided in front of each of its tokens. -/
theorem Cuts.before {start : Nat} {loc : Loc} {cs rest : List Char} {us vs : List Token} {t : Token}
    (h : Cuts start loc cs (us ++ t :: vs) rest) :
    ∃ p x, cs = p ++ x ∧ Cuts start loc (p ++ x) us x ∧
      Cuts (start + p.length) (loc.after p) x (t :: vs) rest ∧
      t.start = start + p.length ∧ t.loc = loc.after p := by
  obtain ⟨p, lexeme, x, o, rfl, hfirst, htoken, hfront, hback⟩ := h.divide
  have hrest := Cuts.lexeme_append hfirst hback
  rw [htoken] at hrest
  exact ⟨p, lexeme ++ x, rfl, hfront, hrest, (Terminal.Outcome.token?_range htoken).1,
    (Terminal.Outcome.token?_loc htoken).1⟩

/-- A row of lexemes is divided behind each of its tokens. -/
theorem Cuts.behind {start : Nat} {loc : Loc} {cs rest : List Char} {us vs : List Token} {t : Token}
    (h : Cuts start loc cs (us ++ vs) rest) (ht : us.getLast? = some t) :
    ∃ p x, cs = p ++ x ∧ Cuts start loc (p ++ x) us x ∧
      Cuts (start + p.length) (loc.after p) x vs rest ∧
      t.stop = start + p.length ∧ t.endLoc = loc.after p := by
  obtain ⟨us, rfl⟩ := List.getLast?_eq_some_iff.1 ht
  rw [List.append_assoc, List.singleton_append] at h
  obtain ⟨p, lexeme, x, o, rfl, hfirst, htoken, hfront, hback⟩ := h.divide
  have hlast : Cuts (start + p.length) (loc.after p) (lexeme ++ x) _ x := .lexeme_append hfirst .stop
  rw [htoken, List.append_nil] at hlast
  have hall := hfront.append hlast
  rw [← List.append_assoc] at hall
  refine ⟨p ++ lexeme, x, by simp, hall, ?_, ?_, ?_⟩
  · rwa [List.length_append, Loc.after_append, ← Nat.add_assoc]
  · rw [(Terminal.Outcome.token?_range htoken).2, List.length_append, Nat.add_assoc]
  · rw [(Terminal.Outcome.token?_loc htoken).2, Loc.after_append]

/-- The tokens of a text that stands somewhere in another are its own, moved. -/
theorem scanFrom_moved (k : Nat) (base : Loc) (cs : List Char) :
    scanFrom k base cs = ⟨(scan cs).tokens.map (Token.moved k base),
      (scan cs).stuck.map fun (c, l) => (c, base.locate l)⟩ := by
  rcases scanFrom_cuts 0 Loc.origin cs with
    ⟨ts, hscan, hcuts⟩ | ⟨ts, p, c, x, rfl, hstuck, hscan, hcuts⟩
  · have hmoved := hcuts.moved k base Loc.counted_origin
    rw [Nat.zero_add, Loc.locate_origin, ← List.append_nil cs] at hmoved
    have heq := hmoved.scanFrom_eq
    rw [List.append_nil, scanFrom_nil] at heq
    rw [scan, hscan, heq]
    simp [Scan.prepend]
  · have hmoved := hcuts.moved k base Loc.counted_origin
    rw [Nat.zero_add, Loc.locate_origin] at hmoved
    rw [scan, hscan, hmoved.scanFrom_eq, scanFrom_stuck hstuck]
    simp [Scan.prepend, Loc.locate_after base Loc.counted_origin, Loc.locate_origin]

end TraitLift
