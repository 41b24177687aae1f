import Mathlib.Tactic
import TraitLift.Proofs.Token.Excise

/-!
What is known of a lexeme by its kind alone. A sign is a fixed text (`IsLexeme.text_of_sign`), only
comments and punctuation that has no kind of its own start with a slash (`IsLexeme.head_ne_slash`), and
a lexeme stays one in front of what neither joins it nor goes on with it (`IsLexeme.first?_verge`).
-/

namespace TraitLift

open TraitLift.Text TraitLift.Terminal

/-! ### Signs -/

/-- The signs that have a kind of their own, with their texts. -/
def Kind.signs : List (Kind × List Char) :=
  [(.ellipsis, ['.', '.', '.']), (.arrow, ['-', '>']), (.dcolon, [':', ':']), (.fatArrow, ['=', '>']),
   (.lpar, ['(']), (.rpar, [')']), (.lsqb, ['[']), (.rsqb, [']']), (.lbrace, ['{']), (.rbrace, ['}']),
   (.colon, [':']), (.semi, [';']), (.comma, [',']), (.dot, ['.']), (.equal, ['=']), (.plus, ['+']),
   (.minus, ['-']), (.star, ['*']), (.amp, ['&']), (.bang, ['!']), (.qmark, ['?']), (.pound, ['#']),
   (.lt, ['<']), (.gt, ['>'])]

/-- The terminals that are not a sign with a kind of its own. -/
def Terminal.unsigned : List (Outcome × (List Char → Option Nat)) :=
  [(.token .outerBlockDoc, outerBlockDoc), (.token .innerBlockDoc, innerBlockDoc),
   (.token .outerDoc, outerDoc), (.token .innerDoc, innerDoc),
   (.token .rawString, rawString), (.token .string, string), (.token .char, char),
   (.token .number, number), (.token .lifetime, lifetime), (.word, markedWord),
   (.skip, blockComment), (.skip, lineComment), (.skip, blanks), (.token .otherPunct, otherPunct)]

theorem Terminal.mem_all {t : Outcome × (List Char → Option Nat)} (h : t ∈ all) :
    t ∈ unsigned ∨ ∃ p ∈ Kind.signs, t = (.token p.1, exactly p.2) := by
  have hsplit : all = unsigned.take 13 ++ ((Kind.signs.take 4).map
      (fun p => (Outcome.token p.1, exactly p.2)) ++ (unsigned.drop 13 ++
        (Kind.signs.drop 4).map (fun p => (Outcome.token p.1, exactly p.2)))) := rfl
  rw [hsplit] at h
  simp only [List.mem_append, List.mem_map] at h
  rcases h with h | ⟨p, hp, rfl⟩ | h | ⟨p, hp, rfl⟩
  · exact Or.inl (List.mem_of_mem_take h)
  · exact Or.inr ⟨p, List.mem_of_mem_take hp, rfl⟩
  · exact Or.inl (List.mem_of_mem_drop h)
  · exact Or.inr ⟨p, List.mem_of_mem_drop hp, rfl⟩

/-- No word is read as a sign. -/
theorem ofWord_not_sign (w : String) : Kind.ofWord w ∉ Kind.signs.map Prod.fst := by
  have hall : ∀ k ∈ Kind.name :: Kind.keywords.map Prod.snd, k ∉ Kind.signs.map Prod.fst := by
    decide
  exact hall _ (Kind.ofWord_mem w)

theorem kind?_unsigned {o : Outcome} {m : List Char → Option Nat} (h : (o, m) ∈ unsigned)
    {cs : List Char} {k : Kind} (hk : o.kind? cs = some k) : k ∉ Kind.signs.map Prod.fst := by
  have hall : ∀ o ∈ unsigned.map Prod.fst, ∀ k ∈ Kind.signs.map Prod.fst, o ≠ .token k := by
    decide
  cases o with
  | skip => simp [Outcome.kind?] at hk
  | token k' =>
    obtain rfl := Option.some.inj hk
    exact fun hmem => hall _ (List.mem_map_of_mem h) _ hmem rfl
  | word =>
    obtain rfl := Option.some.inj hk
    exact ofWord_not_sign _

theorem exactly_eq_some_iff {w cs : List Char} {n : Nat} :
    exactly w cs = some n ↔ w <+: cs ∧ n = w.length := by
  rw [exactly, Option.ite_none_right_eq_some, List.isPrefixOf_iff_prefix, Option.some.injEq,
    eq_comm (a := w.length)]

theorem IsLexeme.ne_nil {w : Kind × String} (h : IsLexeme w) : w.2.toList ≠ [] := by
  obtain ⟨cs, o, n, hfirst, -, htext⟩ := h
  have := first?_bounds hfirst
  rw [htext]
  intro hnil
  rw [List.take_eq_nil_iff] at hnil
  rcases hnil with rfl | rfl
  · omega
  · simp [first?_nil] at hfirst

/-- The text of a sign. -/
theorem IsLexeme.text_of_sign {w : Kind × String} (h : IsLexeme w) {s : List Char}
    (hs : (w.1, s) ∈ Kind.signs) : w.2.toList = s := by
  obtain ⟨cs, o, n, hfirst, hk, htext⟩ := h
  obtain ⟨m, hm, hn⟩ := exists_terminal_of_first? hfirst
  rcases mem_all hm with hm | ⟨p, hp, heq⟩
  · exact absurd (List.mem_map_of_mem (f := Prod.fst) hs) (kind?_unsigned hm hk)
  · obtain ⟨rfl, rfl⟩ := Prod.mk.inj heq
    obtain ⟨⟨y, rfl⟩, rfl⟩ := exactly_eq_some_iff.1 hn
    have hunique : ∀ p ∈ Kind.signs, ∀ q ∈ Kind.signs, p.1 = q.1 → p.2 = q.2 := by decide
    rw [htext, List.take_left]
    exact hunique p hp _ hs (Option.some.inj hk)

/-! ### Words -/

theorem mem_keywords_of_ofWord {w : String} {k : Kind} (h : Kind.ofWord w = k) (hk : k ≠ .name) :
    (w, k) ∈ Kind.keywords := by
  unfold Kind.ofWord at h
  cases hlookup : Kind.keywords.lookup w with
  | none =>
    rw [hlookup] at h
    exact absurd h.symm hk
  | some k' =>
    rw [hlookup] at h
    obtain rfl : k' = k := h
    obtain ⟨u, v, happ, -⟩ := List.lookup_eq_some_iff.1 hlookup
    rw [happ]
    simp

/-- The text of a keyword. -/
theorem IsLexeme.text_of_keyword {w : Kind × String} (h : IsLexeme w) {s : String}
    (hs : (s, w.1) ∈ Kind.keywords) : w.2 = s := by
  obtain ⟨cs, o, n, hfirst, hk, htext⟩ := h
  obtain ⟨m, hm, hn⟩ := exists_terminal_of_first? hfirst
  have hno : ∀ o ∈ all.map Prod.fst, ∀ p ∈ Kind.keywords, o ≠ .token p.2 := by decide +kernel
  have hunique : ∀ p ∈ Kind.keywords, ∀ q ∈ Kind.keywords, p.2 = q.2 → p.1 = q.1 := by decide +kernel
  have hname : ∀ p ∈ Kind.keywords, p.2 ≠ .name := by decide
  cases o with
  | skip => simp [Outcome.kind?] at hk
  | token k' =>
    obtain rfl := Option.some.inj hk
    exact absurd rfl (hno _ (List.mem_map_of_mem hm) _ hs)
  | word =>
    rw [← htext, Outcome.kind?, String.ofList_toList] at hk
    exact hunique _ (mem_keywords_of_ofWord (Option.some.inj hk) (hname _ hs)) _ hs rfl

/-! ### Slashes -/

/-- The kinds of lexemes that can start with a slash. -/
def Kind.slashed : List Kind := [.outerBlockDoc, .innerBlockDoc, .outerDoc, .innerDoc, .otherPunct]

theorem kind_of_slash {y : List Char} {o : Outcome} {n : Nat} {k : Kind} {cs : List Char}
    (h : first? ('/' :: y) = some (o, n)) (hk : o.kind? cs = some k) : k ∈ Kind.slashed := by
  rw [first?_of_slash] at h
  simp only [Option.or_eq_some_iff, Option.map_eq_some_iff, Prod.mk.injEq, Option.some.injEq] at h
  obtain ⟨_, _, rfl, -⟩ | ⟨-, ⟨_, _, rfl, -⟩ | ⟨-, ⟨_, _, rfl, -⟩ | ⟨-, ⟨_, _, rfl, -⟩ |
    ⟨-, ⟨_, _, rfl, -⟩ | ⟨-, ⟨_, _, rfl, -⟩ | ⟨-, rfl, -⟩⟩⟩⟩⟩⟩ := h <;>
    simp only [Outcome.kind?, Option.some.injEq, reduceCtorEq] at hk <;> subst hk <;> decide

theorem IsLexeme.head_ne_slash {w : Kind × String} (h : IsLexeme w) (hk : w.1 ∉ Kind.slashed) :
    w.2.toList.head? ≠ some '/' := by
  obtain ⟨cs, o, n, hfirst, hkind, htext⟩ := h
  intro hslash
  rw [htext] at hslash
  cases cs with
  | nil => simp at hslash
  | cons c y =>
    cases n with
    | zero => simp at hslash
    | succ n =>
      obtain rfl : c = '/' := by simpa using hslash
      exact hk (kind_of_slash hfirst hkind)

/-! ### Lexemes in front of other text -/

/-- The signs that nothing behind them joins. -/
def Kind.isFree (k : Kind) : Bool :=
  (Kind.signs.map Prod.fst).contains k && !([dot, colon, equal, minus].contains k)

theorem first?_free {p : Kind × List Char} (hp : p ∈ Kind.signs) (hfree : p.1.isFree)
    (r : List Char) : first? (p.2 ++ r) = some (.token p.1, p.2.length) := by
  have hfixed : ∀ p ∈ Kind.signs, first? p.2 = some (.token p.1, p.2.length) := by decide +kernel
  have hhead : ∀ p ∈ Kind.signs, p.2 ≠ [] ∧ p.2.head?.all (fun c => isSign c && c != '/') := by
    decide
  have hlongest : ∀ p ∈ Kind.signs, p.1.isFree → ∀ q ∈ Kind.signs, p.2 <+: q.2 → q.2 = p.2 := by
    decide +kernel
  rw [← hfixed p hp]
  obtain ⟨hne, hhead⟩ := hhead p hp
  obtain ⟨c, v, hs⟩ := List.exists_cons_of_ne_nil hne
  obtain ⟨hsign, hslash⟩ : isSign c = true ∧ c ≠ '/' := by simpa [hs] using hhead
  refine first?_congr fun t ht => ?_
  rcases mem_all ht with ht | ⟨q, hq, rfl⟩
  · have hcomments := slashless hslash (v ++ r)
    have hcomments' := slashless hslash v
    have hsilent := isSign_silent hsign (v ++ r)
    have hsilent' := isSign_silent hsign v
    have hother : otherPunct (c :: (v ++ r)) = otherPunct (c :: v) := rfl
    rw [hs, List.cons_append]
    simp only [unsigned, List.mem_cons, List.not_mem_nil, or_false] at ht
    rcases ht with rfl | rfl | rfl | rfl | rfl | rfl | rfl | rfl | rfl | rfl | rfl | rfl | rfl | rfl <;>
      simp only [hcomments, hcomments', hsilent, hsilent', hother]
  · have hiff : q.2 <+: p.2 ++ r ↔ q.2 <+: p.2 := by
      constructor
      · intro h
        rcases List.prefix_or_prefix_of_prefix h (List.prefix_append p.2 r) with h | h
        · exact h
        · rw [hlongest p hp hfree q hq h]
      · exact fun h => h.trans (List.prefix_append ..)
    simp only [exactly, List.isPrefixOf_iff_prefix, hiff]

/-- The text `r` neither goes on with a lexeme of kind `k` in front of it nor joins it. -/
structure Verge (k : Kind) (r : List Char) : Prop where
  brink : Brink r
  slash : r.head? ≠ some '/'
  join : ∀ p ∈ Kind.signs, p.1 = k → ∀ c d, p.2 = [c] → r.head? = some d → [c, d] ∉ doubles
  line : k.isLineDoc → LineEdge r

theorem mem_take_of_word {cs : List Char} {n : Nat} (h : word cs = some n) :
    ∀ c ∈ cs.take n, isWord c := by
  cases cs with
  | nil => simp [word] at h
  | cons c cs =>
    rw [word] at h
    split at h
    · next hc =>
      obtain rfl := Option.some.inj h
      rw [List.take_succ_cons, take_run]
      intro d hd
      rcases List.mem_cons.1 hd with rfl | hd
      · exact isWord_of_isWordStart hc
      · exact List.mem_takeWhile_imp hd
    · simp at h

theorem mem_take_of_markedWord {cs : List Char} {n : Nat} (h : markedWord cs = some n) :
    ∀ c ∈ cs.take n, isWord c ∨ c = '#' := by
  unfold markedWord at h
  split at h
  · next cs =>
    cases hword : word cs with
    | none =>
      rw [hword] at h
      exact fun c hc => Or.inl (mem_take_of_word h c hc)
    | some k =>
      rw [hword] at h
      obtain rfl := Option.some.inj h
      intro c hc
      simp only [List.take_succ_cons, List.mem_cons] at hc
      rcases hc with rfl | rfl | hc
      · exact Or.inl (by decide)
      · exact Or.inr rfl
      · exact Or.inl (mem_take_of_word hword c hc)
  · exact fun c hc => Or.inl (mem_take_of_word h c hc)

theorem rawBody_of_quoteless {p r : List Char} (hp : '"' ∉ p) (hr : Brink r) :
    rawBody (p ++ r) = none := by
  have hopen : ∀ {u cs : List Char}, u.all (!isBrink ·) = true → '"' ∈ u → p ++ r = u ++ cs →
      False := by
    intro u cs hu hquote heq
    obtain ⟨q, rfl, -⟩ := exists_opener hr heq hu
    exact hp (List.mem_append_left q hquote)
  generalize hy : p ++ r = y at *
  unfold rawBody
  split
  · exact (hopen (u := ['r', '"']) (by decide) (by decide) rfl).elim
  · exact (hopen (u := ['r', '#', '"']) (by decide) (by decide) rfl).elim
  · exact (hopen (u := ['r', '#', '#', '"']) (by decide) (by decide) rfl).elim
  · exact (hopen (u := ['r', '#', '#', '#', '"']) (by decide) (by decide) rfl).elim
  · rfl

theorem rawString_of_head {c : Char} (hc : c ∉ ['b', 'c', 'r']) (cs : List Char) :
    rawString (c :: cs) = none := by
  simp only [List.mem_cons, List.not_mem_nil, or_false, not_or] at hc
  rw [rawString_eq, afterPrefix_of_head _ (by simp [hc])]
  unfold rawBody
  split <;> simp_all

/-- A lexeme that is no raw string opens none, whatever brink stands behind it. -/
theorem rawString_of_lexeme {p r : List Char} {o : Outcome} (h : first? p = some (o, p.length))
    (hr : Brink r) (hnone : rawString p = none) : rawString (p ++ r) = none := by
  obtain ⟨c, q, rfl⟩ : ∃ c q, p = c :: q := by
    cases p with
    | nil => simp [first?_nil] at h
    | cons c q => exact ⟨c, q, rfl⟩
  by_cases hletter : isWordStart c
  · rw [first?_of_letter hletter, hnone, Option.map_none, Option.none_or] at h
    have hwhole : ∀ {m : List Char → Option Nat} {k : Nat}, Closed m → m (c :: q) = some k →
        k = (c :: q).length → m (c :: q ++ r) = some k := by
      rintro m k hm hk rfl
      simpa using hm _ _ r hk
    cases hstring : string (c :: q) with
    | some k =>
      rw [hstring] at h
      exact rawString_of_string (hwhole string_closed hstring (Prod.mk.inj (Option.some.inj h)).2)
    | none =>
      cases hchar : char (c :: q) with
      | some k =>
        rw [hstring, hchar] at h
        exact (strings_of_char (hwhole char_closed hchar (Prod.mk.inj (Option.some.inj h)).2)).1
      | none =>
        -- what is left is a word, and no word has a quote in it
        rw [hstring, hchar, Option.map_none, Option.none_or, Option.map_none, Option.none_or,
          Option.map_eq_some_iff] at h
        obtain ⟨k, hk, heq⟩ := h
        obtain ⟨-, rfl⟩ := Prod.mk.inj heq
        have hquote : '"' ∉ c :: q := by
          intro hmem
          rcases mem_take_of_markedWord hk '"' (by rwa [List.take_length]) with hword | hmark
          · rw [isWord_of_mem_signs (by simp)] at hword
            exact absurd hword Bool.false_ne_true
          · exact absurd hmark (by decide)
        rw [rawString_eq, List.cons_append]
        by_cases hb : c = 'b' ∨ c = 'c'
        · have hrest := rawBody_of_quoteless (fun hmem => hquote (List.mem_cons_of_mem c hmem)) hr
          rcases hb with rfl | rfl <;> rw [afterPrefix, hrest, Option.map_none]
        · rw [not_or] at hb
          rw [afterPrefix_of_head _ (by simpa using hb), ← List.cons_append]
          exact rawBody_of_quoteless hquote hr
  · refine rawString_of_head (fun hmem => hletter (isWordStart_of_mem_letters ?_)) _
    simp only [List.mem_cons, List.not_mem_nil, or_false] at hmem ⊢
    tauto

theorem isLineDoc_of_lineOutcome {y cs : List Char} {k : Kind} (h : (lineOutcome y).kind? cs = some k) :
    k.isLineDoc := by
  unfold lineOutcome at h
  split at h
  · obtain rfl := Option.some.inj h
    rfl
  · split at h
    · simp [Outcome.kind?] at h
    · obtain rfl := Option.some.inj h
      rfl
  · simp [Outcome.kind?] at h

/-- A lexeme of one character that could begin a longer sign is a sign. -/
theorem exists_sign_of_double {c d : Char} (hdouble : [c, d] ∈ doubles) {x : List Char} {o : Outcome}
    (h : first? (c :: x) = some (o, 1)) : ∃ p ∈ Kind.signs, p.2 = [c] ∧ o = .token p.1 := by
  have hhead : ∀ w ∈ doubles, w.head?.all fun c => isSign c && c != '/' && (otherPunct [c]).isNone := by
    decide
  obtain ⟨⟨hsign, hslash⟩, hother⟩ : (isSign c = true ∧ c ≠ '/') ∧ otherPunct [c] = none := by
    simpa using hhead _ hdouble
  obtain ⟨m, hm, hn⟩ := exists_terminal_of_first? h
  rcases mem_all hm with hm | ⟨p, hp, heq⟩
  · have hcomments := slashless hslash x
    have hsilent := isSign_silent hsign x
    have hother' : otherPunct (c :: x) = none := hother
    simp only [unsigned, List.mem_cons, List.not_mem_nil, or_false, Prod.mk.injEq] at hm
    rcases hm with ⟨-, rfl⟩ | ⟨-, rfl⟩ | ⟨-, rfl⟩ | ⟨-, rfl⟩ | ⟨-, rfl⟩ |
      ⟨-, rfl⟩ | ⟨-, rfl⟩ | ⟨-, rfl⟩ | ⟨-, rfl⟩ | ⟨-, rfl⟩ |
      ⟨-, rfl⟩ | ⟨-, rfl⟩ | ⟨-, rfl⟩ | ⟨-, rfl⟩ <;>
      simp [hcomments, hsilent, hother'] at hn
  · obtain ⟨rfl, rfl⟩ := Prod.mk.inj heq
    obtain ⟨⟨y, hy⟩, hlen⟩ := exactly_eq_some_iff.1 hn
    obtain ⟨a, ha⟩ := List.length_eq_one_iff.1 hlen.symm
    rw [ha, List.cons_append] at hy
    exact ⟨p, hp, by rw [ha, (List.cons.inj hy).1], rfl⟩

/-- A lexeme of a token admits what does not go on with it. -/
theorem Verge.admits {k : Kind} {p r : List Char} (h : Verge k r) {o : Outcome}
    (hfirst : first? p = some (o, p.length)) (hk : o.kind? p = some k) : Admits p [] r where
  brink := h.brink
  slash := fun hslash => absurd hslash h.slash
  line := by
    rintro q rfl hbreak -
    rw [first?_slashes, Option.some.injEq, Prod.mk.injEq] at hfirst
    rw [← hfirst.1] at hk
    exact h.line (isLineDoc_of_lineOutcome hk)
  join := by
    rintro c d rfl hd hdouble
    obtain ⟨p, hp, hpc, rfl⟩ := exists_sign_of_double hdouble hfirst
    exact h.join p hp (Option.some.inj hk) c d hpc hd hdouble
  raw := by
    rw [List.append_nil]
    exact rawString_of_lexeme hfirst h.brink
  block := by
    rintro q rfl hq
    rw [List.append_nil] at hq
    rw [first?_opened hq] at hfirst
    simp at hfirst

/-- A lexeme is one in front of whatever does not go on with it. -/
theorem IsLexeme.first?_verge {w : Kind × String} (h : IsLexeme w) {r : List Char}
    (hr : w.1.isFree ∨ Verge w.1 r) :
    ∃ o, first? w.2.toList = some (o, w.2.toList.length) ∧ o.kind? w.2.toList = some w.1 ∧
      first? (w.2.toList ++ r) = some (o, w.2.toList.length) := by
  obtain ⟨o, hfirst, hk⟩ := h.first?_append (r := []) (by simp [Edge]) (by simp [LineEdge])
  rw [List.append_nil] at hfirst
  refine ⟨o, hfirst, hk, ?_⟩
  by_cases hfree : w.1.isFree
  · have hmem : w.1 ∈ Kind.signs.map Prod.fst := by
      rw [Kind.isFree, Bool.and_eq_true] at hfree
      simpa using hfree.1
    obtain ⟨p, hp, hpk⟩ := List.mem_map.1 hmem
    have htext := h.text_of_sign (s := p.2) (by rw [← hpk]; exact hp)
    rw [← hpk] at hfree
    have hsame := first?_free hp hfree []
    rw [htext] at hfirst ⊢
    rw [List.append_nil, hfirst] at hsame
    rw [first?_free hp hfree r, ← hsame]
  · have hadmits := (hr.resolve_left hfree).admits hfirst hk
    cases hp : w.2.toList with
    | nil => simp [hp, first?_nil] at hfirst
    | cons c q =>
      rw [hp] at hfirst hk hadmits
      have hblank : isBlank c = false := by
        by_contra hc
        rw [first?_blank (by simpa using hc), Option.some.injEq, Prod.mk.injEq] at hfirst
        rw [← hfirst.1] at hk
        simp [Outcome.kind?] at hk
      exact first?_replaced (x := []) hblank (by rwa [List.append_nil]) (Nat.le_refl _)
        (fun hlt => absurd hlt (Nat.lt_irrefl _)) hadmits

end TraitLift
