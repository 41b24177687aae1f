import Mathlib.Tactic
import TraitLift.Proofs.Token.Lexeme

/-!
Texts that are put together from pieces. A brick is a gap, a token, or the part of a source that some
of its tokens cover. If each brick `Meets` the next one, then the bricks are cut into their tokens
again (`exists_lays`): a piece is `Firm` in front of a text if it is cut into the same tokens there as
by itself, and a slice is firm if what stands behind it closes nothing that was open in the source.
That is so if the bricks come in the order of the source.
-/

namespace TraitLift

open TraitLift.Text TraitLift.Terminal

/-! ### Firm pieces -/

/-- The tokens of a text that stands at an offset and a place. -/
def tokensAt (start : Nat) (loc : Loc) (cs : List Char) : List Token := (scanFrom start loc cs).tokens

/-- In front of `r`, the text `p` is cut into the same tokens as by itself. -/
def Firm (p r : List Char) : Prop := ∀ start loc, scanFrom start loc (p ++ r) =
  (scanFrom (start + p.length) (loc.after p) r).prepend (tokensAt start loc p)

theorem Cuts.anywhere {start : Nat} {loc : Loc} {cs rest : List Char} {ts : List Token}
    (h : Cuts start loc cs ts rest) (start' : Nat) (loc' : Loc) :
    ∃ ts', Cuts start' loc' cs ts' rest := by
  induction h generalizing start' loc' with
  | stop => exact ⟨[], .stop⟩
  | lexeme hfirst _ ih =>
    obtain ⟨ts', h'⟩ := ih _ _
    exact ⟨_, .lexeme hfirst h'⟩

/-- A text is firm in front of one that all its lexemes admit. -/
theorem firm_of_cuts {start : Nat} {loc : Loc} {p x r : List Char} {us : List Token}
    (h : Cuts start loc (p ++ x) us x) (hrep : ∀ q, Boundary x p q → q ≠ [] → Admits q x r) :
    Firm p r := by
  intro start' loc'
  obtain ⟨vs, hvs⟩ := h.anywhere start' loc'
  rw [hvs.scanFrom_admitted hrep, tokensAt, hvs.scanFrom_truncated]

theorem firm_blanks {p : List Char} (hp : ∀ c ∈ p, isBlank c) (r : List Char) : Firm p r := by
  intro start loc
  have hnone : tokensAt start loc p = [] := by
    rw [tokensAt, ← List.append_nil p, scanFrom_blanks start loc [] hp, scanFrom_nil]
  rw [scanFrom_blanks start loc r hp, hnone]
  rfl

/-- One lexeme is firm in front of whatever leaves it the first lexeme. -/
theorem firm_lexeme {p r : List Char} {o : Outcome} (halone : first? p = some (o, p.length))
    (h : first? (p ++ r) = some (o, p.length)) : Firm p r := by
  intro start loc
  rw [scanFrom_lexeme h, List.take_left, List.drop_left, tokensAt, scanFrom_lexeme halone,
    List.take_length, List.drop_length, scanFrom_nil]
  simp [Scan.prepend]

theorem firm_token {w : Kind × String} (hw : IsLexeme w) {r : List Char}
    (hr : w.1.isFree ∨ Verge w.1 r) : Firm w.2.toList r := by
  obtain ⟨o, halone, -, h⟩ := hw.first?_verge hr
  exact firm_lexeme halone h

/-! ### Slices of a source -/

/-- The slice that some neighbouring tokens cover. -/
structure IsSlice (src : List Char) (us : List Token) (pre p x : List Char) : Prop where
  split : src = pre ++ (p ++ x)
  cuts : ∃ loc, Cuts pre.length loc (p ++ x) us x
  first : ∀ t ∈ us.head?, t.start = pre.length
  last : ∀ t ∈ us.getLast?, t.stop = pre.length + p.length

theorem exists_isSlice {src : List Char} {ts us : List Token} (h : Cuts 0 Loc.origin src ts [])
    (hsub : us <:+: ts) (hne : us ≠ []) : ∃ pre p x, IsSlice src us pre p x := by
  obtain ⟨as, bs, rfl⟩ := hsub
  obtain ⟨a, us', rfl⟩ := List.exists_cons_of_ne_nil hne
  rw [List.append_assoc, List.cons_append] at h
  obtain ⟨pre, y, rfl, -, hcuts, hstart, -⟩ := h.before
  obtain ⟨t, ht⟩ : ∃ t, (a :: us').getLast? = some t := ⟨_, List.getLast?_eq_some_getLast hne⟩
  rw [← List.cons_append] at hcuts
  obtain ⟨p, x, rfl, hfront, -, hstop, -⟩ := hcuts.behind ht
  rw [Nat.zero_add] at hfront hstart hstop
  refine ⟨pre, p, x, rfl, ⟨_, hfront⟩, ?_, ?_⟩
  · rintro t ⟨⟩
    exact hstart
  · rintro t' ht'
    obtain rfl := Option.some.inj (ht.symm.trans ht')
    exact hstop

theorem IsSlice.sliceOf {src pre p x : List Char} {us : List Token} (h : IsSlice src us pre p x)
    (hne : us ≠ []) : sliceOf src us = String.ofList p := by
  obtain ⟨a, us', rfl⟩ := List.exists_cons_of_ne_nil hne
  obtain ⟨t, ht⟩ : ∃ t, (a :: us').getLast? = some t := ⟨_, List.getLast?_eq_some_getLast hne⟩
  have hstart := h.first a rfl
  have hstop := h.last t ht
  simp only [TraitLift.sliceOf, List.head?_cons, ht]
  rw [h.split, hstart, List.drop_left, hstop, Nat.add_sub_cancel_left, List.take_left]

theorem Terminal.Outcome.text_of_token? {o : Outcome} {cs : List Char} {start : Nat} {loc : Loc}
    {t : Token} (h : o.token? cs start loc = some t) : t.text = String.ofList cs := by
  have hkind := Outcome.token?_eq o cs start loc
  rw [h] at hkind
  cases hk : o.kind? cs with
  | none => simp [hk] at hkind
  | some k =>
    rw [hk, Option.map_some, Option.map_some, Option.some.injEq] at hkind
    exact (Prod.mk.inj hkind).2

/-- The text of a token is the slice that it covers. -/
theorem sliceOf_token {src : List Char} {ts : List Token} (h : Cuts 0 Loc.origin src ts [])
    {t : Token} (ht : t ∈ ts) : sliceOf src [t] = t.text := by
  obtain ⟨as, bs, rfl⟩ := List.append_of_mem ht
  obtain ⟨pre, lexeme, post, o, rfl, -, htoken, -, -⟩ := h.divide
  obtain ⟨hstart, hstop⟩ := Outcome.token?_range htoken
  have htext := Outcome.text_of_token? htoken
  simp only [sliceOf, List.head?_cons, List.getLast?_singleton]
  rw [hstart, hstop, Nat.zero_add, List.drop_left, Nat.add_sub_cancel_left, List.take_left, htext]

/-- A row of lexemes is divided at every boundary. -/
theorem Boundary.cuts {x p q : List Char} (h : Boundary x p q) : ∀ {start : Nat} {loc : Loc}
    {us : List Token}, Cuts start loc (p ++ x) us x → ∃ p' us' vs, p = p' ++ q ∧ us = us' ++ vs ∧
      Cuts start loc (p' ++ (q ++ x)) us' (q ++ x) ∧
      Cuts (start + p'.length) (loc.after p') (q ++ x) vs x := by
  induction h with
  | here => exact fun hcuts => ⟨[], [], _, rfl, rfl, .stop, hcuts⟩
  | @next p q o n hfirst hn _ ih =>
    intro start loc us hcuts
    have hne : p ≠ [] := by
      rintro rfl
      have := (first?_bounds hfirst).1
      simp at hn
      omega
    generalize hcs : p ++ x = cs at hcuts
    cases hcuts with
    | stop => exact absurd (by simpa using hcs) hne
    | @lexeme _ _ _ _ o' n' ts hfirst' hrest =>
      subst hcs
      obtain ⟨rfl, rfl⟩ := Prod.mk.inj (Option.some.inj (hfirst.symm.trans hfirst'))
      rw [List.drop_append_of_le_length hn, List.take_append_of_le_length hn] at hrest
      obtain ⟨p', us', vs, hp, rfl, hfront, hback⟩ := ih hrest
      have hsplit : p = p.take n ++ p' ++ q := by
        rw [List.append_assoc, ← hp, List.take_append_drop]
      have hlen : (p.take n).length = n := List.length_take_of_le hn
      refine ⟨p.take n ++ p', _, vs, hsplit, (List.append_assoc ..).symm, ?_, ?_⟩
      · have hwhole : p.take n ++ p' ++ (q ++ x) = p ++ x := by
          rw [← List.append_assoc, ← hsplit]
        rw [hwhole]
        refine .lexeme hfirst ?_
        rwa [List.drop_append_of_le_length hn, List.take_append_of_le_length hn, hp,
          List.append_assoc]
      · rwa [List.length_append, hlen, Loc.after_append, ← Nat.add_assoc]

/-- What is cut into one lexeme gives its token. -/
theorem Cuts.eq_token {start : Nat} {loc : Loc} {q x : List Char} {vs : List Token} {o : Outcome}
    (h : Cuts start loc (q ++ x) vs x) (hq : q ≠ []) (hfirst : first? (q ++ x) = some (o, q.length)) :
    vs = (o.token? q start loc).toList := by
  generalize hcs : q ++ x = cs at h
  cases h with
  | stop => exact absurd (by simpa using hcs) hq
  | lexeme hfirst' hrest =>
    subst hcs
    obtain ⟨rfl, rfl⟩ := Prod.mk.inj (Option.some.inj (hfirst.symm.trans hfirst'))
    rw [List.drop_left, List.take_left] at hrest
    rw [hrest.eq_nil, List.append_nil, List.take_left]

/-- The last lexeme of a slice is that of its last token. -/
theorem IsSlice.kind_of_last {src pre p x q : List Char} {us : List Token}
    (h : IsSlice src us pre p x) (hne : us ≠ []) (hb : Boundary x p q) (hq : q ≠ []) {o : Outcome}
    (hfirst : first? (q ++ x) = some (o, q.length)) :
    ∀ t ∈ us.getLast?, o.kind? q = some t.kind := by
  obtain ⟨loc, hcuts⟩ := h.cuts
  obtain ⟨p', us', vs, rfl, rfl, hfront, hback⟩ := hb.cuts hcuts
  rw [hback.eq_token hq hfirst] at h ⊢
  intro t ht
  cases htoken : o.token? q (pre.length + p'.length) (loc.after p') with
  | some u =>
    rw [htoken] at ht
    obtain rfl : u = t := by simpa using ht
    have hkind := Outcome.token?_eq o q (pre.length + p'.length) (loc.after p')
    rw [htoken] at hkind
    cases hk : o.kind? q with
    | none => simp [hk] at hkind
    | some k =>
      rw [hk, Option.map_some, Option.map_some, Option.some.injEq] at hkind
      rw [(Prod.mk.inj hkind).1]
  | none =>
    -- the slice would end in front of its last lexeme
    rw [htoken, Option.toList_none, List.append_nil] at ht h
    have hstop := h.last t ht
    have hle := (hfront.inOrder_front.mem_bounds (List.mem_of_getLast? ht)).2.2
    have hlen := List.length_pos_of_ne_nil hq
    rw [List.length_append] at hstop
    omega

/-- A slice is firm in front of a text that does not go on with its last token and closes nothing
that is open in it. -/
theorem IsSlice.firm {src pre p x r : List Char} {us : List Token} (h : IsSlice src us pre p x)
    {t : Token} (ht : us.getLast? = some t) (hr : Verge t.kind r) (hopen : KeepsOpen p x r) :
    Firm p r := by
  have hne : us ≠ [] := by
    rintro rfl
    simp at ht
  obtain ⟨loc, hcuts⟩ := h.cuts
  refine firm_of_cuts hcuts fun q hb hq => ?_
  have hlast : ∀ {o : Outcome}, first? (q ++ x) = some (o, q.length) → o.kind? q = some t.kind :=
    fun hfirst => h.kind_of_last hne hb hq hfirst t ht
  refine ⟨hr.brink, fun hslash => absurd hslash hr.slash, ?_, ?_, ?_, ?_⟩
  · rintro q' rfl hbreak hx
    have hrun : run (· ≠ '\n') (q' ++ x) = q'.length := by
      have hstop : ∀ c ∈ x.head?, decide (c ≠ '\n') = false := fun c hc => by simp [hx c hc]
      have hall : ∀ c ∈ q', decide (c ≠ '\n') = true := fun c hc =>
        decide_eq_true fun heq => hbreak (heq ▸ hc)
      have htake := run_take_append hstop (run_le (fun c => decide (c ≠ '\n')) q')
      rw [List.take_length] at htake
      rw [htake, run, List.takeWhile_eq_self_iff.2 hall]
    have hfirst := first?_slashes (q' ++ x)
    rw [hrun] at hfirst
    exact hr.line (isLineDoc_of_lineOutcome (hlast hfirst))
  · rintro c d rfl hd hdouble
    obtain ⟨p', us', vs, -, -, -, hback⟩ := hb.cuts hcuts
    obtain ⟨o, n, hfirst, hn⟩ := hback.follows hq
    obtain rfl : n = 1 := by
      have := (first?_bounds hfirst).1
      simp only [List.length_singleton] at hn
      omega
    obtain ⟨p, hp, hpc, rfl⟩ := exists_sign_of_double hdouble hfirst
    exact hr.join p hp (Option.some.inj (hlast hfirst)) c d hpc hd hdouble
  · exact rawString_replaced hr.brink (hopen.of_suffix hb.suffix) hq
  · rintro q' rfl hnone
    exact hopen _ (by decide) q' ((List.suffix_append ['/', '*'] q').trans hb.suffix) hnone

/-! ### Bricks -/

/-- A piece of a text that is put together: blanks, a token, or what some tokens of a source cover. -/
inductive Brick where
  | gap (g : List Char)
  | tok (t : Token)
  | slice (us : List Token)

/-- The kinds whose lexemes start with a character that ends words and numbers. -/
def Kind.brinks : List Kind :=
  [rsqb, rpar, rbrace, gt, lsqb, lpar, lbrace, lt, comma, semi, colon, dcolon, bang]

/-- Whether a lexeme of the first kind would join one of the second kind right behind it. -/
def Kind.joins (a b : Kind) : Bool :=
  (Kind.signs.any fun p => p.1 = a && p.2.length = 1 && Kind.signs.any fun q => q.1 = b &&
    (q.2.head?.map fun d => doubles.contains (p.2 ++ [d])).getD false)

/-- Whether a lexeme of kind `b` can stand right behind a slice that ends with one of kind `a`. -/
def Kind.abuts (a b : Kind) : Bool := brinks.contains b && !a.isLineDoc && !a.joins b

/-- Whether a lexeme of kind `b` can stand right behind one of kind `a`. -/
def Kind.touches (a b : Kind) : Bool := a.isFree && !slashed.contains b || a.abuts b

namespace Brick

/-- The characters of a brick. -/
def text (src : List Char) : Brick → List Char
  | gap g => g
  | tok t => t.text.toList
  | slice us => (sliceOf src us).toList

/-- The tokens of a brick. -/
def tokens : Brick → List Token
  | gap _ => []
  | tok t => [t]
  | slice us => us

/-- The brick is what it says: blanks, a lexeme, or neighbouring tokens of the source. -/
def Sits (ts : List Token) : Brick → Prop
  | gap g => g ≠ [] ∧ ∀ c ∈ g, isBlank c
  | tok t => IsLexeme t.lexeme
  | slice us => us ≠ [] ∧ us <:+: ts

/-- The second brick can stand right behind the first one. -/
def Meets : Brick → Brick → Prop
  | gap _, _ => True
  | tok t, gap g => t.kind.isLineDoc → LineEdge g
  | tok t, tok u => t.kind.touches u.kind
  | tok t, slice us => ∀ u ∈ us.head?, t.kind.touches u.kind
  | slice us, gap g => ∀ t ∈ us.getLast?, t.kind.isLineDoc → LineEdge g
  | slice us, tok u => ∀ t ∈ us.getLast?, t.kind.abuts u.kind
  | slice us, slice vs => ∀ t ∈ us.getLast?, ∀ u ∈ vs.head?, t.kind.abuts u.kind

end Brick

/-- The characters of a row of bricks. -/
def textOf (src : List Char) (bs : List Brick) : List Char := bs.flatMap (Brick.text src)

/-- The tokens of a row of bricks. -/
def tokensOf (bs : List Brick) : List Token := bs.flatMap Brick.tokens

@[simp]
theorem textOf_nil (src : List Char) : textOf src [] = [] := rfl

@[simp]
theorem textOf_cons (src : List Char) (b : Brick) (bs : List Brick) :
    textOf src (b :: bs) = b.text src ++ textOf src bs := List.flatMap_cons

@[simp]
theorem textOf_append (src : List Char) (as bs : List Brick) :
    textOf src (as ++ bs) = textOf src as ++ textOf src bs := List.flatMap_append

@[simp]
theorem tokensOf_nil : tokensOf [] = [] := rfl

@[simp]
theorem tokensOf_cons (b : Brick) (bs : List Brick) :
    tokensOf (b :: bs) = b.tokens ++ tokensOf bs := List.flatMap_cons

@[simp]
theorem tokensOf_append (as bs : List Brick) :
    tokensOf (as ++ bs) = tokensOf as ++ tokensOf bs := List.flatMap_append

/-! ### The text behind a brick -/

theorem isBrink_of_brinks {k : Kind} (hk : k ∈ Kind.brinks) {w : String} (h : IsLexeme (k, w)) :
    ∀ c ∈ w.toList.head?, isBrink c := by
  have hall : ∀ k ∈ Kind.brinks, ∃ p ∈ Kind.signs, p.1 = k ∧ p.2.head?.all isBrink := by
    decide
  obtain ⟨p, hp, rfl, hhead⟩ := hall k hk
  rw [show w.toList = p.2 from h.text_of_sign hp]
  intro c hc
  simpa [Option.mem_def.1 hc] using hhead

theorem verge_append {k k' : Kind} {w : String} (h : IsLexeme (k', w)) (habuts : k.abuts k')
    (r : List Char) : Verge k (w.toList ++ r) := by
  simp only [Kind.abuts, Bool.and_eq_true, Bool.not_eq_true', List.contains_eq_mem,
    decide_eq_true_eq] at habuts
  obtain ⟨⟨hbrink, hline⟩, hjoin⟩ := habuts
  have hhead : (w.toList ++ r).head? = w.toList.head? := by
    obtain ⟨c, cs, hcs⟩ := List.exists_cons_of_ne_nil h.ne_nil
    have hcs' : w.toList = c :: cs := hcs
    rw [hcs']
    rfl
  have hslashed : ∀ k ∈ Kind.brinks, k ∉ Kind.slashed := by decide
  refine ⟨?_, ?_, ?_, fun h => absurd h (by simp [hline])⟩
  · intro c hc
    rw [hhead] at hc
    exact isBrink_of_brinks hbrink h c hc
  · rw [hhead]
    exact h.head_ne_slash (hslashed _ hbrink)
  · rintro p hp rfl c d hpc hd hdouble
    have hall : ∀ k ∈ Kind.brinks, ∃ q ∈ Kind.signs, q.1 = k := by decide
    obtain ⟨q, hq, rfl⟩ := hall k' hbrink
    rw [hhead, show w.toList = q.2 from h.text_of_sign hq] at hd
    have hjoins : p.1.joins q.1 := by
      simp only [Kind.joins, List.any_eq_true, Bool.and_eq_true]
      exact ⟨p, hp, by simp [hpc], q, hq, by simp [hpc, hd, hdouble]⟩
    rw [hjoins] at hjoin
    simp at hjoin

theorem verge_nil (k : Kind) : Verge k [] :=
  ⟨by simp [Brink], by simp, by simp, fun _ => by simp [LineEdge]⟩

theorem verge_gap {k : Kind} {g : List Char} (hne : g ≠ []) (hg : ∀ c ∈ g, isBlank c)
    (hline : k.isLineDoc → LineEdge g) (r : List Char) : Verge k (g ++ r) := by
  obtain ⟨b, g, rfl⟩ := List.exists_cons_of_ne_nil hne
  have hb := hg b (List.mem_cons_self ..)
  refine ⟨?_, ?_, ?_, hline⟩
  · rintro c ⟨⟩
    exact isBrink_of_isBlank hb
  · rintro ⟨⟩
    exact absurd hb (by decide)
  · rintro p - - c d - ⟨⟩ hdouble
    have hall : ∀ w ∈ doubles, w.getLast?.all fun d => !isBlank d := by decide
    have hlast : isBlank b = false := by simpa using hall _ hdouble
    rw [hlast] at hb
    exact absurd hb Bool.false_ne_true

section

variable {src : List Char} {ts : List Token} (hcuts : Cuts 0 Loc.origin src ts [])

include hcuts

theorem isLexeme_of_mem {t : Token} (ht : t ∈ ts) : IsLexeme t.lexeme :=
  hcuts.spells.isLexeme _ (List.mem_map_of_mem ht)

/-- A slice starts with its first token. -/
theorem exists_text_slice {u : Token} {us : List Token} (hsub : u :: us <:+: ts) :
    ∃ rest, (sliceOf src (u :: us)).toList = u.text.toList ++ rest := by
  obtain ⟨pre, p, x, hslice⟩ := exists_isSlice hcuts hsub (List.cons_ne_nil u us)
  rw [hslice.sliceOf (List.cons_ne_nil u us), String.toList_ofList]
  obtain ⟨loc, hp⟩ := hslice.cuts
  obtain ⟨pre', lexeme, post, o, hsplit, hfirst, htoken, -, -⟩ :=
    Cuts.divide (show Cuts _ _ _ ([] ++ u :: us) x from hp)
  have hstart := hslice.first u rfl
  rw [(Outcome.token?_range htoken).1] at hstart
  obtain rfl : pre' = [] := List.length_eq_zero_iff.1 (by omega)
  rw [List.nil_append] at hsplit
  have hne : p ≠ [] := by
    rintro rfl
    rw [List.nil_append] at hp
    have := hp.eq_nil
    simp at this
  obtain ⟨o', n, hfirst', hn⟩ := hp.follows hne
  rw [hsplit, hfirst, Option.some.injEq, Prod.mk.injEq] at hfirst'
  obtain ⟨rest, rfl⟩ : lexeme <+: p := List.prefix_of_prefix_length_le
    (hsplit ▸ List.prefix_append lexeme post) (List.prefix_append p x) (hfirst'.2 ▸ hn)
  exact ⟨rest, by rw [Outcome.text_of_token? htoken, String.toList_ofList]⟩

namespace Brick

/-- What does not go on with a brick in front of it: the text of one that meets it. -/
theorem Meets.verge {a b : Brick} (h : a.Meets b) (hb : b.Sits ts) {t : Token}
    (ht : a.tokens.getLast? = some t) (r : List Char) :
    (∃ u, a = .tok u ∧ u.kind.isFree) ∨ Verge t.kind (b.text src ++ r) := by
  have hslice : ∀ {u : Token} {us : List Token}, u :: us <:+: ts → t.kind.abuts u.kind →
      Verge t.kind ((sliceOf src (u :: us)).toList ++ r) := by
    intro u us hsub habuts
    obtain ⟨rest, hrest⟩ := exists_text_slice hcuts hsub
    rw [hrest, List.append_assoc]
    exact verge_append (isLexeme_of_mem hcuts (hsub.subset (List.mem_cons_self ..))) habuts _
  cases a with
  | gap g => simp [tokens] at ht
  | tok u =>
    obtain rfl : u = t := by simpa [tokens] using ht
    cases b with
    | gap g => exact Or.inr (verge_gap hb.1 hb.2 h r)
    | tok v =>
      by_cases hfree : u.kind.isFree
      · exact Or.inl ⟨u, rfl, hfree⟩
      · have habuts : u.kind.abuts v.kind := by simpa [Meets, Kind.touches, hfree] using h
        exact Or.inr (verge_append hb habuts r)
    | slice vs =>
      by_cases hfree : u.kind.isFree
      · exact Or.inl ⟨u, rfl, hfree⟩
      · obtain ⟨v, vs, rfl⟩ := List.exists_cons_of_ne_nil hb.1
        have habuts : u.kind.abuts v.kind := by
          have := h v rfl
          simpa [Kind.touches, hfree] using this
        exact Or.inr (hslice hb.2 habuts)
  | slice us =>
    right
    cases b with
    | gap g => exact verge_gap hb.1 hb.2 (h t ht) r
    | tok v => exact verge_append hb (h t ht) r
    | slice vs =>
      obtain ⟨v, vs, rfl⟩ := List.exists_cons_of_ne_nil hb.1
      exact hslice hb.2 (h t ht v rfl)

end Brick

/-! ### Closers in a row of bricks -/

omit hcuts in
/-- What is left of a closer behind its first characters. -/
theorem head_of_closer {stop s₁ s₂ : List Char} (hstop : stop ∈ closers) (h : stop = s₁ ++ s₂)
    (h₁ : s₁ ≠ []) (h₂ : s₂ ≠ []) : s₂.head? = some '/' ∨ s₂.head? = some '#' := by
  have hall : ∀ stop ∈ closers, ∀ i < stop.length, i ≠ 0 →
      (stop.drop i).head? = some '/' ∨ (stop.drop i).head? = some '#' := by decide
  have hlen : stop.length = s₁.length + s₂.length := by rw [h, List.length_append]
  have hpos₁ := List.length_pos_of_ne_nil h₁
  have hpos₂ := List.length_pos_of_ne_nil h₂
  have := hall stop hstop s₁.length (by omega) (by omega)
  rwa [h, List.drop_left] at this

omit hcuts in
theorem Verge.no_closer {k : Kind} {r : List Char} (hr : Verge k r) {stop s₁ s₂ : List Char}
    (hstop : stop ∈ closers) (h : stop = s₁ ++ s₂) (h₁ : s₁ ≠ []) (h₂ : s₂ ≠ []) :
      ¬ s₂ <+: r := by
  rintro ⟨y, rfl⟩
  obtain ⟨c, s, rfl⟩ := List.exists_cons_of_ne_nil h₂
  rcases head_of_closer hstop h h₁ h₂ with hc | hc
  · exact hr.slash hc
  · obtain rfl : c = '#' := by simpa using hc
    have := hr.brink '#' rfl
    exact absurd this (by decide)

namespace Brick

theorem Meets.head_ne_slash {u : Token} {b : Brick} (h : (tok u).Meets b) (hb : b.Sits ts)
    (r : List Char) : (b.text src ++ r).head? ≠ some '/' := by
  have htouches : ∀ {k k' : Kind}, k.touches k' → k' ∉ Kind.slashed := by
    intro k k' htouch
    have hbrinks : ∀ k ∈ Kind.brinks, k ∉ Kind.slashed := by decide
    simp only [Kind.touches, Kind.abuts, Bool.or_eq_true, Bool.and_eq_true, Bool.not_eq_true',
      List.contains_eq_mem, decide_eq_true_eq, decide_eq_false_iff_not] at htouch
    rcases htouch with htouch | htouch
    · exact htouch.2
    · exact hbrinks _ htouch.1.1
  have htoken : ∀ {v : Token} {y : List Char}, IsLexeme v.lexeme → u.kind.touches v.kind →
      (v.text.toList ++ y).head? ≠ some '/' := by
    intro v y hv htouch
    obtain ⟨c, cs, hcs⟩ := List.exists_cons_of_ne_nil hv.ne_nil
    have hhead := hv.head_ne_slash (htouches htouch)
    rw [hcs] at hhead
    rw [show v.text.toList = c :: cs from hcs]
    exact hhead
  cases b with
  | gap g =>
    obtain ⟨c, g, rfl⟩ := List.exists_cons_of_ne_nil hb.1
    rintro ⟨⟩
    exact absurd (hb.2 '/' (List.mem_cons_self ..)) (by decide)
  | tok v => exact htoken hb h
  | slice vs =>
    obtain ⟨v, vs, rfl⟩ := List.exists_cons_of_ne_nil hb.1
    obtain ⟨rest, hrest⟩ := exists_text_slice hcuts hb.2
    rw [text, hrest, List.append_assoc]
    exact htoken (isLexeme_of_mem hcuts (hb.2.subset (List.mem_cons_self ..))) (h v rfl)

/-- No closer begins in a brick and ends behind it. -/
theorem Meets.no_closer {a b : Brick} (h : a.Meets b) (ha : a.Sits ts) (hb : b.Sits ts)
    {stop s₁ s₂ : List Char} (hstop : stop ∈ closers) (hsplit : stop = s₁ ++ s₂)
      (h₁ : s₁ ≠ [])
    (h₂ : s₂ ≠ []) (hsuffix : s₁ <:+ a.text src) (r : List Char) :
    ¬ s₂ <+: b.text src ++ r := by
  cases ha' : a.tokens.getLast? with
  | none =>
    cases a with
    | tok t => simp [tokens] at ha'
    | slice us => exact absurd (List.getLast?_eq_none_iff.1 ha') ha.1
    | gap g =>
      obtain ⟨c, s, rfl⟩ := List.exists_cons_of_ne_nil h₁
      have hc := ha.2 c (hsuffix.subset (List.mem_cons_self ..))
      exact absurd (hsplit ▸ List.mem_cons_self ..) (not_mem_closer_of_isBlank hstop hc)
  | some t =>
    rcases h.verge hcuts hb ha' r with ⟨u, rfl, hfree⟩ | hverge
    · -- the only sign that a closer begins with is the star of `*/`
      have hstar : ∀ p ∈ Kind.signs, ∀ stop ∈ closers, ∀ i < stop.length, i ≠ 0 →
          stop.take i <:+ p.2 → stop.drop i = ['/'] := by decide
      have hmem : u.kind ∈ Kind.signs.map Prod.fst := by
        rw [Kind.isFree, Bool.and_eq_true] at hfree
        simpa using hfree.1
      obtain ⟨p, hp, hpk⟩ := List.mem_map.1 hmem
      have hu : IsLexeme (p.1, u.text) := hpk ▸ ha
      have hsign : u.text.toList = p.2 := hu.text_of_sign hp
      have hlen : stop.length = s₁.length + s₂.length := by rw [hsplit, List.length_append]
      have hpos₁ := List.length_pos_of_ne_nil h₁
      have hpos₂ := List.length_pos_of_ne_nil h₂
      have hslash := hstar p hp stop hstop s₁.length (by omega) (by omega) (by
        rw [hsplit, List.take_left, ← hsign]
        exact hsuffix)
      rw [hsplit, List.drop_left] at hslash
      rintro ⟨y, hy⟩
      refine h.head_ne_slash hcuts hb r ?_
      rw [← hy, hslash]
      rfl
    · exact hverge.no_closer hstop hsplit h₁ h₂

end Brick

/-- A closer in a row of bricks is in one of them. -/
theorem exists_of_infix_textOf {stop : List Char} (hstop : stop ∈ closers) : ∀ {bs : List Brick},
    (∀ b ∈ bs, b.Sits ts) → bs.IsChain Brick.Meets → stop <:+: textOf src bs →
    ∃ b ∈ bs, stop <:+: b.text src
  | [], _, _, h => by
    rw [textOf_nil, List.infix_nil] at h
    exact absurd h (closer_ne_nil hstop)
  | b :: bs, hsits, hchain, h => by
    rw [textOf_cons] at h
    rcases infix_append_cases h with h | h | ⟨s₁, s₂, hsplit, h₁, h₂, hsuffix, hprefix⟩
    · exact ⟨b, List.mem_cons_self .., h⟩
    · obtain ⟨c, hc, hstop'⟩ := exists_of_infix_textOf hstop
        (fun c hc => hsits c (List.mem_cons_of_mem b hc)) hchain.tail h
      exact ⟨c, List.mem_cons_of_mem b hc, hstop'⟩
    · cases bs with
      | nil => exact absurd (List.prefix_nil.1 hprefix) h₂
      | cons c bs =>
        rw [textOf_cons] at hprefix
        exact absurd hprefix ((List.isChain_cons_cons.1 hchain).1.no_closer hcuts
          (hsits b (by simp)) (hsits c (by simp)) hstop hsplit h₁ h₂ hsuffix _)

/-! ### The order of the source -/

omit hcuts in
theorem InOrder.pairwise {lo hi : Nat} : ∀ {us : List Token}, InOrder lo hi us →
    us.Pairwise fun a b => a.stop ≤ b.start
  | [], _ => .nil
  | _ :: _, h => .cons (fun _ hb => (h.2.2.mem_bounds hb).1) h.2.2.pairwise

/-- A slice of two tokens or more starts with the first one and ends with the last one. -/
theorem exists_text_between {o c : Token} {us : List Token} (hsub : (o :: (us ++ [c])).Sublist ts) :
    ∃ gap, (sliceOf src (o :: (us ++ [c]))).toList = o.text.toList ++ (gap ++ c.text.toList) := by
  have ho : o ∈ ts := hsub.subset (by simp)
  have hc : c ∈ ts := hsub.subset (by simp)
  have horder : o.stop ≤ c.start :=
    (List.pairwise_cons.1 (hcuts.inOrder.pairwise.sublist hsub)).1 c (by simp)
  have hopen := hcuts.inOrder.mem_bounds ho
  have hclose := hcuts.inOrder.mem_bounds hc
  rw [← sliceOf_token hcuts ho, ← sliceOf_token hcuts hc]
  have hlast : (o :: (us ++ [c])).getLast? = some c := by rw [← List.cons_append, List.getLast?_concat]
  simp only [sliceOf, List.head?_cons, hlast, List.getLast?_singleton, String.toList_ofList]
  refine ⟨(src.drop o.stop).take (c.start - o.stop), ?_⟩
  rw [show c.stop - o.start = (o.stop - o.start) + ((c.start - o.stop) + (c.stop - c.start)) by omega,
    List.take_add, List.take_add, List.drop_drop, List.drop_drop,
    show o.start + (o.stop - o.start) = o.stop by omega,
    show o.stop + (c.start - o.stop) = c.start by omega]

omit hcuts in
theorem infix_drop {cs : List Char} {m n : Nat} (h : n ≤ m) (k : Nat) :
    (cs.drop m).take k <:+: cs.drop n := by
  obtain ⟨d, rfl⟩ := Nat.exists_eq_add_of_le h
  rw [← List.drop_drop]
  exact (List.take_prefix ..).isInfix.trans (List.drop_suffix ..).isInfix

/-- A closer in a brick that comes from behind a place in the source stands behind that place. -/
theorem infix_of_behind {b : Brick} (hb : b.Sits ts) (hsub : b.tokens ⊆ ts) {n : Nat}
    (hbehind : ∀ t ∈ b.tokens, n ≤ t.start) {stop : List Char} (hstop : stop ∈ closers)
    (h : stop <:+: b.text src) : stop <:+: src.drop n := by
  have hslice : ∀ {us : List Token}, us ≠ [] → (∀ t ∈ us, n ≤ t.start) →
      (sliceOf src us).toList <:+: src.drop n := by
    intro us hne hus
    obtain ⟨a, us, rfl⟩ := List.exists_cons_of_ne_nil hne
    obtain ⟨t, ht⟩ : ∃ t, (a :: us).getLast? = some t := ⟨_, List.getLast?_eq_some_getLast hne⟩
    simp only [sliceOf, List.head?_cons, ht, String.toList_ofList]
    exact infix_drop (hus a (List.mem_cons_self ..)) _
  cases b with
  | gap g =>
    obtain ⟨c, s, hs⟩ := List.exists_cons_of_ne_nil (closer_ne_nil hstop)
    have hc : c ∈ stop := hs ▸ List.mem_cons_self ..
    exact absurd hc (not_mem_closer_of_isBlank hstop (hb.2 c (h.subset hc)))
  | tok t =>
    have htext := sliceOf_token hcuts (hsub (List.mem_singleton.2 rfl))
    rw [Brick.text, ← htext] at h
    exact h.trans (hslice (by simp) hbehind)
  | slice us => exact h.trans (hslice hb.1 hbehind)

/-- Bricks in the order of the source close nothing that is open in a slice in front of them. -/
theorem keepsOpen_of_order {us : List Token} {bs : List Brick} (hsits : (Brick.slice us).Sits ts)
    (hsits' : ∀ b ∈ bs, b.Sits ts) (hchain : (Brick.slice us :: bs).IsChain Brick.Meets)
    (horder : (us ++ tokensOf bs).Sublist ts) {pre p x : List Char} (hslice : IsSlice src us pre p x) :
    KeepsOpen p x (textOf src bs) := by
  intro stop hstop q hq hnone
  rw [upTo_eq_none_iff (closer_ne_nil hstop)] at hnone ⊢
  intro h
  rcases infix_append_cases h with h | h | ⟨s₁, s₂, hsplit, h₁, h₂, hsuffix, hprefix⟩
  · exact hnone (h.trans (List.prefix_append q x).isInfix)
  · obtain ⟨b, hb, hstop'⟩ := exists_of_infix_textOf hcuts hstop hsits' hchain.tail h
    obtain ⟨t, ht⟩ : ∃ t, us.getLast? = some t := ⟨_, List.getLast?_eq_some_getLast hsits.1⟩
    have hbtokens : b.tokens ⊆ tokensOf bs := fun u hu => List.mem_flatMap.2 ⟨b, hb, hu⟩
    have hafter := (List.pairwise_append.1 (hcuts.inOrder.pairwise.sublist horder)).2.2 t
      (List.mem_of_getLast? ht)
    have hdrop := infix_of_behind hcuts (hsits' b hb)
      (fun u hu => horder.subset (List.mem_append_right us (hbtokens hu)))
      (n := t.stop) (fun u hu => hafter u (hbtokens hu)) hstop hstop'
    rw [hslice.last t ht, hslice.split, ← List.append_assoc, ← List.length_append,
      List.drop_left] at hdrop
    exact hnone (hdrop.trans (List.suffix_append q x).isInfix)
  · cases bs with
    | nil => exact h₂ (List.prefix_nil.1 hprefix)
    | cons b bs =>
      rw [textOf_cons] at hprefix
      refine (List.isChain_cons_cons.1 hchain).1.no_closer hcuts hsits (hsits' b (by simp)) hstop
        hsplit h₁ h₂ ?_ _ hprefix
      rw [Brick.text, hslice.sliceOf hsits.1, String.toList_ofList]
      exact hsuffix.trans hq

/-! ### Cutting a row of bricks -/

/-- A brick is firm in front of the ones behind it. -/
theorem firm_brick {b : Brick} {bs : List Brick} (hsits : ∀ c ∈ b :: bs, c.Sits ts)
    (hchain : (b :: bs).IsChain Brick.Meets) (horder : (tokensOf (b :: bs)).Sublist ts) :
    Firm (b.text src) (textOf src bs) := by
  have hb := hsits b (List.mem_cons_self ..)
  have hbs : ∀ c ∈ bs, c.Sits ts := fun c hc => hsits c (List.mem_cons_of_mem b hc)
  have hverge : ∀ {t : Token}, b.tokens.getLast? = some t →
      (∃ u, b = .tok u ∧ u.kind.isFree) ∨ Verge t.kind (textOf src bs) := by
    intro t ht
    cases bs with
    | nil => exact Or.inr (verge_nil _)
    | cons c bs =>
      exact (List.isChain_cons_cons.1 hchain).1.verge hcuts (hbs c (List.mem_cons_self ..)) ht _
  cases b with
  | gap g => exact firm_blanks hb.2 _
  | tok t =>
    refine firm_token hb ?_
    rcases hverge (t := t) rfl with ⟨u, heq, hfree⟩ | h
    · rw [← Brick.tok.inj heq] at hfree
      exact Or.inl hfree
    · exact Or.inr h
  | slice us =>
    obtain ⟨pre, p, x, hslice⟩ := exists_isSlice hcuts hb.2 hb.1
    obtain ⟨t, ht⟩ : ∃ t, us.getLast? = some t := ⟨_, List.getLast?_eq_some_getLast hb.1⟩
    rw [Brick.text, hslice.sliceOf hb.1, String.toList_ofList]
    rcases hverge (t := t) ht with ⟨u, heq, -⟩ | h
    · simp at heq
    · rw [tokensOf_cons] at horder
      exact hslice.firm ht h (keepsOpen_of_order hcuts hb hbs hchain horder hslice)

/-- `us` are tokens of `src'` that are those of the bricks, one brick after the other: they are the
same lexemes, and they cover the same text. -/
inductive Lays (src src' : List Char) : List Brick → List Token → Prop
  | nil : Lays src src' [] []
  | cons {b : Brick} {bs : List Brick} {us vs : List Token} :
      us.map Token.lexeme = b.tokens.map Token.lexeme →
      (b.tokens ≠ [] → sliceOf src' us = String.ofList (b.text src)) →
      Lays src src' bs vs → Lays src src' (b :: bs) (us ++ vs)

/-- A brick is cut into its tokens, which cover it. -/
theorem lay_brick {b : Brick} (hb : b.Sits ts) (pre post : List Char) (loc : Loc) :
    (tokensAt pre.length loc (b.text src)).map Token.lexeme = b.tokens.map Token.lexeme ∧
      (b.tokens ≠ [] → sliceOf (pre ++ (b.text src ++ post)) (tokensAt pre.length loc (b.text src)) =
        String.ofList (b.text src)) := by
  cases b with
  | gap g =>
    have hnone : tokensAt pre.length loc g = [] := by
      rw [tokensAt, ← List.append_nil g, scanFrom_blanks _ _ [] hb.2, scanFrom_nil]
    exact ⟨by rw [Brick.text, hnone]; rfl, fun h => absurd rfl h⟩
  | tok t =>
    obtain ⟨o, halone, hk, -⟩ := IsLexeme.first?_verge hb (r := []) (Or.inr (verge_nil _))
    have hp : ∀ p : List Char, first? p = some (o, p.length) → o.kind? p = some t.kind →
        tokensAt pre.length loc p = [⟨t.kind, String.ofList p, pre.length, pre.length + p.length, loc,
          loc.after p⟩] := by
      intro p halone hk
      rw [tokensAt, scanFrom_lexeme halone, List.take_length, List.drop_length, scanFrom_nil]
      cases o <;> simp [Outcome.kind?] at hk <;> simp [Outcome.token?, Scan.prepend, hk]
    have hone := hp _ halone hk
    simp only [Token.lexeme] at hone
    rw [Brick.text, hone]
    refine ⟨by simp [Brick.tokens, Token.lexeme], fun _ => ?_⟩
    simp only [sliceOf, List.head?_cons, List.getLast?_singleton]
    rw [List.drop_left, Nat.add_sub_cancel_left, List.take_left]
  | slice us =>
    obtain ⟨pre', p, x, hslice⟩ := exists_isSlice hcuts hb.2 hb.1
    obtain ⟨loc', hp⟩ := hslice.cuts
    -- the tokens of the slice by itself, which are moved to the old place and to the new one
    have hus : us = (scan p).tokens.map (Token.moved pre'.length loc') := by
      have hscan := hp.scanFrom_truncated
      rw [scanFrom_moved, Scan.mk.injEq] at hscan
      exact hscan.1.symm
    have htext : (Brick.slice us).text src = p := by
      rw [Brick.text, hslice.sliceOf hb.1, String.toList_ofList]
    have hhere : tokensAt pre.length loc p = (scan p).tokens.map (Token.moved pre.length loc) := by
      rw [tokensAt, scanFrom_moved]
    rw [htext, hhere]
    refine ⟨?_, fun _ => ?_⟩
    · rw [Brick.tokens, hus, List.map_map, List.map_map]
      rfl
    · have hne := hb.1
      obtain ⟨a, as, has⟩ := List.exists_cons_of_ne_nil (l := (scan p).tokens) (by
        rintro hnil
        rw [hnil] at hus
        exact hne hus)
      obtain ⟨z, hz⟩ : ∃ z, (a :: as).getLast? = some z :=
        ⟨_, List.getLast?_eq_some_getLast (List.cons_ne_nil a as)⟩
      have hstart := hslice.first (a.moved pre'.length loc') (by rw [hus, has]; rfl)
      have hstop := hslice.last (z.moved pre'.length loc') (by
        rw [hus, has, List.getLast?_map, hz]
        rfl)
      rw [Token.moved_start] at hstart
      rw [Token.moved_stop] at hstop
      have hlast : ((a :: as).map (Token.moved pre.length loc)).getLast? =
          some (z.moved pre.length loc) := by
        rw [List.getLast?_map, hz, Option.map_some]
      simp only [sliceOf, has, List.map_cons, List.head?_cons]
      simp only [List.map_cons] at hlast
      simp only [hlast, Token.moved_start, Token.moved_stop]
      have hzero : a.start = 0 := by omega
      rw [hzero, Nat.zero_add, List.drop_left, List.take_left' (by omega)]

/-- Bricks that meet each other and come in the order of the source are cut into their tokens. -/
theorem exists_lays : ∀ {bs : List Brick} (pre : List Char) (loc : Loc), (∀ b ∈ bs, b.Sits ts) →
    bs.IsChain Brick.Meets → (tokensOf bs).Sublist ts →
    ∃ us, scanFrom pre.length loc (textOf src bs) = ⟨us, none⟩ ∧
      Lays src (pre ++ textOf src bs) bs us
  | [], pre, loc, _, _, _ => ⟨[], scanFrom_nil .., .nil⟩
  | b :: bs, pre, loc, hsits, hchain, horder => by
    have hfirm := firm_brick hcuts hsits hchain horder
    have hrest : (tokensOf bs).Sublist ts := (List.sublist_append_right _ _).trans horder
    obtain ⟨us, hscan, hlays⟩ := exists_lays (pre ++ b.text src) (loc.after (b.text src))
      (fun c hc => hsits c (List.mem_cons_of_mem b hc)) hchain.tail hrest
    obtain ⟨hlexemes, hslice⟩ := lay_brick hcuts (hsits b (List.mem_cons_self ..)) pre
      (textOf src bs) loc
    rw [List.length_append] at hscan
    rw [List.append_assoc] at hlays
    refine ⟨tokensAt pre.length loc (b.text src) ++ us, ?_, ?_⟩
    · rw [textOf_cons, hfirm, hscan]
      rfl
    · rw [textOf_cons]
      exact .cons hlexemes hslice hlays

end

end TraitLift
