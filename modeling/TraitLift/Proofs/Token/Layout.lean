import Mathlib.Tactic
import TraitLift.Proofs.Token.Apart
import TraitLift.Proofs.Token.Cut

/-!
Layout between tokens. A `Gap` is made of blanks and of complete comments that are no doc comments.
`Spells` reads a text as the kinds and texts of its tokens and forgets where they stand, and
`spells_laidOut` says that the tokens of a text, laid out anew with gaps between them, spell the
same. What a layout has to keep is said by `Spacing`: a blank behind each token but the last, and a
line break behind a line of doc comment.
-/

namespace TraitLift

open TraitLift.Text TraitLift.Terminal

/-- What a token is, wherever it stands. -/
def Token.lexeme (t : Token) : Kind × String := (t.kind, t.text)

/-- Doc comments that go on to the end of the line. -/
def Kind.isLineDoc : Kind → Bool
  | outerDoc | innerDoc => true
  | _ => false

/-- A word is a name or a keyword. -/
theorem Kind.ofWord_mem (w : String) : Kind.ofWord w ∈ Kind.name :: Kind.keywords.map Prod.snd := by
  unfold Kind.ofWord
  cases hlookup : Kind.keywords.lookup w with
  | none => exact List.mem_cons_self
  | some k =>
    obtain ⟨u, v, happ, -⟩ := List.lookup_eq_some_iff.1 hlookup
    exact List.mem_cons_of_mem _ (List.mem_map.2 ⟨(w, k), by rw [happ]; simp, rfl⟩)

/-- The kind of token a lexeme becomes, if it becomes one. -/
def Terminal.Outcome.kind? (o : Outcome) (cs : List Char) : Option Kind :=
  match o with
  | .skip => none
  | .token k => some k
  | .word => some (Kind.ofWord (String.ofList cs))

/-- A text that can be cut into lexemes to its end, by the kinds and texts of its tokens. -/
inductive Spells : List Char → List (Kind × String) → Prop where
  | nil : Spells [] []
  | skip {cs : List Char} {n : Nat} {ws : List (Kind × String)} :
      first? cs = some (.skip, n) → Spells (cs.drop n) ws → Spells cs ws
  | token {cs : List Char} {o : Outcome} {n : Nat} {k : Kind} {ws : List (Kind × String)} :
      first? cs = some (o, n) → o.kind? (cs.take n) = some k → Spells (cs.drop n) ws →
      Spells cs ((k, String.ofList (cs.take n)) :: ws)

/-! ### Spelling and cutting -/

theorem Terminal.Outcome.token?_eq (o : Outcome) (cs : List Char) (start : Nat) (loc : Loc) :
    (o.token? cs start loc).map Token.lexeme = (o.kind? cs).map (·, String.ofList cs) := by
  cases o <;> rfl

theorem Cuts.spells {start : Nat} {loc : Loc} {cs : List Char} {ts : List Token}
    (h : Cuts start loc cs ts []) : Spells cs (ts.map Token.lexeme) := by
  generalize hrest : ([] : List Char) = rest at h
  induction h with
  | stop =>
    subst hrest
    exact .nil
  | @lexeme start loc cs rest o n ts hfirst _ ih =>
    have hface := o.token?_eq (cs.take n) start loc
    cases htoken : o.token? (cs.take n) start loc with
    | none =>
      have hskip : o = .skip := by cases o <;> simp_all [Outcome.token?]
      subst hskip
      exact .skip hfirst (ih hrest)
    | some t =>
      rw [htoken, Option.map_some, eq_comm, Option.map_eq_some_iff] at hface
      obtain ⟨k, hk, hface⟩ := hface
      rw [Option.toList_some, List.singleton_append, List.map_cons, ← hface]
      exact .token hfirst hk (ih hrest)

theorem Spells.cuts {cs : List Char} {ws : List (Kind × String)} (h : Spells cs ws) :
    ∀ start loc, ∃ ts, Cuts start loc cs ts [] ∧ ts.map Token.lexeme = ws := by
  induction h with
  | nil => exact fun start loc => ⟨[], .stop, rfl⟩
  | @skip cs n ws hfirst _ ih =>
    intro start loc
    obtain ⟨ts, hcuts, hts⟩ := ih (start + n) (loc.after (cs.take n))
    exact ⟨_, .lexeme hfirst hcuts, hts⟩
  | @token cs o n k ws hfirst hk _ ih =>
    intro start loc
    obtain ⟨ts, hcuts, hts⟩ := ih (start + n) (loc.after (cs.take n))
    refine ⟨_, .lexeme hfirst hcuts, ?_⟩
    have hface := o.token?_eq (cs.take n) start loc
    rw [hk, Option.map_some, Option.map_eq_some_iff] at hface
    obtain ⟨t, ht, hface⟩ := hface
    rw [ht, Option.toList_some, List.singleton_append, List.map_cons, hface, hts]

/-- A text spells what its tokens are. -/
theorem spells_iff {source : String} {ws : List (Kind × String)} :
    Spells source.toList ws ↔ ∃ ts, lex source = .ok ts ∧ ts.map Token.lexeme = ws := by
  constructor
  · intro h
    obtain ⟨ts, hcuts, hts⟩ := h.cuts 0 Loc.origin
    exact ⟨ts, lex_eq_ok_iff.2 (scan_eq_complete_iff.2 hcuts), hts⟩
  · rintro ⟨ts, hlex, rfl⟩
    exact (scan_eq_complete_iff.1 (lex_eq_ok_iff.1 hlex)).spells

/-! ### Gaps -/

/-- Whether a line comment, by what follows its two slashes, is a doc comment. -/
def isDocLine : List Char → Bool
  | '!' :: _ => true
  | '/' :: cs => cs.head? ≠ some '/'
  | _ => false

/-- Whether a block comment, by what stands between its openers and closers, is a doc comment. -/
def isDocBlock : List Char → Bool
  | '!' :: _ => true
  | '*' :: c :: _ => c ≠ '*'
  | _ => false

/-- Blanks and complete comments that are no doc comments. A line comment includes its line break. -/
inductive Gap : List Char → Prop where
  | nil : Gap []
  | blank {c : Char} {g : List Char} : isBlank c → Gap g → Gap (c :: g)
  | line {body g : List Char} : '\n' ∉ body → isDocLine body = false → Gap g →
      Gap ('/' :: '/' :: (body ++ '\n' :: g))
  | block {body g : List Char} : ¬ ['*', '/'] <:+: body → isDocBlock body = false → Gap g →
      Gap ('/' :: '*' :: (body ++ '*' :: '/' :: g))

theorem first?_blank {c : Char} (hc : isBlank c) (cs : List Char) :
    first? (c :: cs) = some (.skip, run isBlank (c :: cs)) := by
  have hopen : c ∉ ['/', 'b', 'c', 'r', '"', '\''] := not_mem_of_class (by decide) hc
  rw [List.mem_cons, not_or] at hopen
  obtain ⟨h₁, h₂, h₃, h₄, h₅, h₆⟩ := slashless hopen.1 cs
  obtain ⟨hraw, hstring, hchar, hlifetime⟩ := quoteless hopen.2 cs
  have hdigit : isLatinDigit c = false := by
    have := isDigitOrBar_of_isBlank hc
    rw [isDigitOrBar, Bool.or_eq_false_iff] at this
    exact this.1
  have hname : markedWord (c :: cs) = none := markedWord_of_not_start (isWordStart_of_isBlank hc) cs
  have hblanks : blanks (c :: cs) = some (run isBlank (c :: cs)) := by
    rw [blanks, run_cons, if_pos hc]
  simp only [first?, all, List.findSome?_cons, h₁, h₂, h₃, h₄, h₅, h₆, hraw, hstring, hchar,
    hlifetime, number_of_not_digit hdigit, hname, hblanks, Option.map_none, Option.map_some]

theorem Spells.drop_of_skip {cs : List Char} {ws : List (Kind × String)} {n : Nat}
    (h : Spells cs ws) (hfirst : first? cs = some (.skip, n)) : Spells (cs.drop n) ws := by
  cases h with
  | nil => simp [first?_nil] at hfirst
  | skip hskip h =>
    rw [hfirst, Option.some.injEq, Prod.mk.injEq] at hskip
    rw [hskip.2]
    exact h
  | token htoken hk _ =>
    rw [hfirst, Option.some.injEq, Prod.mk.injEq] at htoken
    rw [← htoken.1] at hk
    simp [Outcome.kind?] at hk

theorem Spells.drop_of_token {cs : List Char} {ws : List (Kind × String)} {o : Outcome} {n : Nat}
    {k : Kind} (h : Spells cs ws) (hfirst : first? cs = some (o, n))
    (hk : o.kind? (cs.take n) = some k) :
    ∃ ws', ws = (k, String.ofList (cs.take n)) :: ws' ∧ Spells (cs.drop n) ws' := by
  cases h with
  | nil => simp [first?_nil] at hfirst
  | skip hskip _ =>
    rw [hfirst, Option.some.injEq, Prod.mk.injEq] at hskip
    rw [hskip.1] at hk
    simp [Outcome.kind?] at hk
  | token htoken hk' h =>
    rw [hfirst, Option.some.injEq, Prod.mk.injEq] at htoken
    obtain ⟨rfl, rfl⟩ := htoken
    rw [hk] at hk'
    obtain rfl := Option.some.inj hk'
    exact ⟨_, rfl, h⟩

theorem spells_drop_blanks {cs : List Char} {ws : List (Kind × String)} :
    Spells (cs.drop (run isBlank cs)) ws ↔ Spells cs ws := by
  cases cs with
  | nil => exact Iff.rfl
  | cons c cs =>
    by_cases hc : isBlank c
    · exact ⟨fun h => .skip (first?_blank hc cs) h, fun h => h.drop_of_skip (first?_blank hc cs)⟩
    · rw [run_cons, if_neg hc, List.drop_zero]

/-- A blank in front of a text changes nothing in what the text spells. -/
theorem spells_blank_cons {c : Char} (hc : isBlank c) {cs : List Char} {ws : List (Kind × String)} :
    Spells (c :: cs) ws ↔ Spells cs ws := by
  rw [← spells_drop_blanks, run_cons, if_pos hc, List.drop_succ_cons, spells_drop_blanks]

theorem first?_line {body : List Char} (hbreak : '\n' ∉ body) (hdoc : isDocLine body = false)
    (x : List Char) :
    first? ('/' :: '/' :: (body ++ '\n' :: x)) = some (.skip, body.length + 2) := by
  have hrun : run (· ≠ '\n') (body ++ '\n' :: x) = body.length := by
    rw [run, List.takeWhile_append_of_pos, List.length_append]
    · simp
    · intro c hc
      have hne : c ≠ '\n' := by
        rintro rfl
        exact hbreak hc
      simpa using hne
  have houter : outerDoc ('/' :: '/' :: (body ++ '\n' :: x)) = none := by
    cases body with
    | nil => rfl
    | cons c body =>
      by_cases hc : c = '/'
      · subst hc
        have hhead : body.head? = some '/' := by simpa [isDocLine] using hdoc
        rw [List.cons_append, outerDoc, if_pos]
        rw [List.head?_append, hhead]
        rfl
      · rw [List.cons_append, outerDoc]
        simpa using hc
  have hinner : innerDoc ('/' :: '/' :: (body ++ '\n' :: x)) = none := by
    cases body with
    | nil => rfl
    | cons c body =>
      have hc : c ≠ '!' := by
        rintro rfl
        simp [isDocLine] at hdoc
      rw [List.cons_append, innerDoc]
      simpa using hc
  have h₁ : outerBlockDoc ('/' :: '/' :: (body ++ '\n' :: x)) = none := rfl
  have h₂ : innerBlockDoc ('/' :: '/' :: (body ++ '\n' :: x)) = none := rfl
  have h₃ : blockComment ('/' :: '/' :: (body ++ '\n' :: x)) = none := rfl
  simp only [first?, all, List.findSome?_cons, h₁, h₂, h₃, houter, hinner, lineComment, hrun,
    isSign_silent (c := '/') (by decide), Option.map_none, Option.map_some]

theorem upTo_closer {body : List Char} (h : ¬ ['*', '/'] <:+: body) (x : List Char) :
    upTo ['*', '/'] (body ++ '*' :: '/' :: x) = some (body.length + 2) := by
  induction body with
  | nil => rfl
  | cons c body ih =>
    have hearly : ¬ ['*', '/'].isPrefixOf (c :: (body ++ '*' :: '/' :: x)) = true := by
      rw [List.isPrefixOf_iff_prefix]
      intro hprefix
      obtain ⟨rfl, hslash⟩ := List.cons_prefix_cons.1 hprefix
      cases body with
      | nil => simp at hslash
      | cons d body =>
        obtain ⟨rfl, -⟩ := List.cons_prefix_cons.1 hslash
        exact h ⟨[], body, rfl⟩
    have htail : ¬ ['*', '/'] <:+: body := fun hinfix => h (List.infix_cons hinfix)
    rw [List.cons_append, upTo, if_neg hearly, ih htail]
    rfl

theorem first?_block {body : List Char} (hclose : ¬ ['*', '/'] <:+: body)
    (hdoc : isDocBlock body = false) (x : List Char) :
    first? ('/' :: '*' :: (body ++ '*' :: '/' :: x)) = some (.skip, body.length + 4) := by
  have houter : outerBlockDoc ('/' :: '*' :: (body ++ '*' :: '/' :: x)) = none := by
    match body, hclose, hdoc with
    | [], _, _ => rfl
    | [c], _, _ =>
      by_cases hc : c = '*'
      · subst hc
        rfl
      · simp [outerBlockDoc, hc]
    | c :: d :: body, _, hdoc =>
      by_cases hc : c = '*'
      · subst hc
        obtain rfl : d = '*' := by simpa [isDocBlock] using hdoc
        rfl
      · simp [outerBlockDoc, hc]
  have hinner : innerBlockDoc ('/' :: '*' :: (body ++ '*' :: '/' :: x)) = none := by
    cases body with
    | nil => rfl
    | cons c body =>
      have hc : c ≠ '!' := by
        rintro rfl
        simp [isDocBlock] at hdoc
      rw [List.cons_append, innerBlockDoc]
      simpa using hc
  have h₁ : outerDoc ('/' :: '*' :: (body ++ '*' :: '/' :: x)) = none := rfl
  have h₂ : innerDoc ('/' :: '*' :: (body ++ '*' :: '/' :: x)) = none := rfl
  simp only [first?, all, List.findSome?_cons, h₁, h₂, houter, hinner, blockComment,
    upTo_closer hclose, isSign_silent (c := '/') (by decide), Option.map_none, Option.map_some]

/-- A gap in front of a text changes nothing in what the text spells. -/
theorem Gap.spells {g cs : List Char} {ws : List (Kind × String)} (hg : Gap g) (h : Spells cs ws) :
    Spells (g ++ cs) ws := by
  induction hg with
  | nil => exact h
  | blank hc _ ih => exact (spells_blank_cons hc).2 ih
  | @line body g hbreak hdoc _ ih =>
    rw [List.cons_append, List.cons_append, List.append_assoc, List.cons_append]
    refine .skip (first?_line hbreak hdoc _) ?_
    rw [List.drop_succ_cons, List.drop_succ_cons, List.drop_left]
    exact (spells_blank_cons (by decide)).2 ih
  | @block body g hclose hdoc _ ih =>
    rw [List.cons_append, List.cons_append, List.append_assoc, List.cons_append, List.cons_append]
    refine .skip (first?_block hclose hdoc _) ?_
    rw [List.drop_succ_cons, List.drop_succ_cons, ← List.drop_drop, List.drop_left]
    exact ih

/-! ### Tokens between gaps -/

/-- A kind and a text that some text spells. -/
def IsLexeme (w : Kind × String) : Prop :=
  ∃ cs o n, first? cs = some (o, n) ∧ o.kind? (cs.take n) = some w.1 ∧ w.2.toList = cs.take n

theorem Spells.isLexeme {cs : List Char} {ws : List (Kind × String)} (h : Spells cs ws) :
    ∀ w ∈ ws, IsLexeme w := by
  induction h with
  | nil => simp
  | skip _ _ ih => exact ih
  | @token cs o n k ws hfirst hk _ ih =>
    exact List.forall_mem_cons.2 ⟨⟨cs, o, n, hfirst, hk, String.toList_ofList⟩, ih⟩

theorem isLexeme_of_lex {source : String} {ts : List Token} (h : lex source = .ok ts) :
    ∀ t ∈ ts, IsLexeme t.lexeme := fun _ ht =>
  (spells_iff.2 ⟨ts, h, rfl⟩).isLexeme _ (List.mem_map_of_mem ht)

/-- In front of an edge a token is spelled as it was where it came from. -/
theorem IsLexeme.first?_append {w : Kind × String} (h : IsLexeme w) {r : List Char} (hr : Edge r)
    (hline : w.1.isLineDoc → LineEdge r) :
    ∃ o, first? (w.2.toList ++ r) = some (o, w.2.toList.length) ∧
      o.kind? w.2.toList = some w.1 := by
  obtain ⟨cs, o, n, hfirst, hk, htext⟩ := h
  have hskip : o ≠ .skip := by
    rintro rfl
    simp [Outcome.kind?] at hk
  refine ⟨o, ?_, by rw [htext, hk]⟩
  rw [htext, List.length_take_of_le (first?_bounds hfirst).2]
  refine first?_take_append hfirst hskip hr ?_
  rintro (rfl | rfl)
  all_goals
    rw [Outcome.kind?, Option.some.injEq] at hk
    rw [← hk] at hline
    exact hline rfl

theorem IsLexeme.spells {w : Kind × String} (h : IsLexeme w) {r : List Char} (hr : Edge r)
    (hline : w.1.isLineDoc → LineEdge r) {ws : List (Kind × String)} (hws : Spells r ws) :
    Spells (w.2.toList ++ r) (w :: ws) := by
  obtain ⟨o, hfirst, hk⟩ := h.first?_append hr hline
  have hspells := Spells.token hfirst (by rw [List.take_left, hk]) (by rw [List.drop_left]; exact hws)
  rw [List.take_left, String.ofList_toList] at hspells
  exact hspells

/-- Gaps behind tokens, one for each: a blank starts each gap but the last, and a line break starts
the gap behind a line of doc comment; the last gap may be empty. -/
inductive Spacing : List Token → List (List Char) → Prop where
  | nil : Spacing [] []
  | cons {t : Token} {g : List Char} {ts : List Token} {gs : List (List Char)} :
      Gap g → Edge g → (t.kind.isLineDoc → LineEdge g) →
      (ts ≠ [] → g ≠ []) → Spacing ts gs → Spacing (t :: ts) (g :: gs)

/-- The texts of tokens, each with the gap behind it. -/
def laidOut (ts : List Token) (gs : List (List Char)) : List Char :=
  (List.zipWith (fun t g => t.text.toList ++ g) ts gs).flatten

theorem spells_laidOut {ts : List Token} {gs : List (List Char)} (h : Spacing ts gs)
    (hts : ∀ t ∈ ts, IsLexeme t.lexeme) : Spells (laidOut ts gs) (ts.map Token.lexeme) := by
  induction h with
  | nil => exact .nil
  | @cons t g ts gs hgap hedge hline hne hrest ih =>
    rw [List.forall_mem_cons] at hts
    have htext : laidOut (t :: ts) (g :: gs) = t.text.toList ++ (g ++ laidOut ts gs) := by
      simp [laidOut]
    -- the gap is empty behind the last token only, where the text ends
    have hhead : (g ++ laidOut ts gs).head? = g.head? := by
      cases g with
      | nil =>
        obtain rfl : ts = [] := by
          by_contra hts
          exact hne hts rfl
        cases hrest
        rfl
      | cons c g => rfl
    rw [htext, List.map_cons]
    refine hts.1.spells ?_ ?_ (hgap.spells (ih hts.2))
    · rw [Edge, hhead]
      exact hedge
    · intro hdoc
      rw [LineEdge, hhead]
      exact hline hdoc

/-! ### Tokens between single blanks -/

/-- A blank behind each token but the last. -/
def singleBlanks : List Token → List (List Char)
  | [] => []
  | [_] => [[]]
  | _ :: t :: ts => [' '] :: singleBlanks (t :: ts)

theorem laidOut_singleBlanks : ∀ ts : List Token,
    laidOut ts (singleBlanks ts) = (" ".intercalate (ts.map Token.text)).toList
  | [] => rfl
  | [t] => by simp [laidOut, singleBlanks]
  | t :: t' :: ts => by
    have ih := laidOut_singleBlanks (t' :: ts)
    rw [List.map_cons] at ih
    rw [List.map_cons, List.map_cons, String.intercalate_cons_cons, String.toList_append,
      String.toList_append, ← ih]
    simp [laidOut, singleBlanks]

theorem spacing_singleBlanks : ∀ {ts : List Token}, (∀ t ∈ ts.dropLast, t.kind.isLineDoc = false) →
    Spacing ts (singleBlanks ts)
  | [], _ => .nil
  | [t], _ => .cons .nil (by simp [Edge]) (fun _ => by simp [LineEdge]) (fun h => absurd rfl h) .nil
  | t :: t' :: ts, h => by
    rw [List.dropLast_cons_cons, List.forall_mem_cons] at h
    refine .cons (.blank (by decide) .nil) ?_ (fun hdoc => ?_) (fun _ => by simp)
      (spacing_singleBlanks h.2)
    · rintro c hc
      obtain rfl : ' ' = c := by simpa using hc
      decide
    · rw [h.1] at hdoc
      exact absurd hdoc Bool.false_ne_true

end TraitLift
