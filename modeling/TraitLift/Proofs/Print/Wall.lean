import Mathlib.Tactic
import TraitLift.Proofs.Grammar.TrimTree
import TraitLift.Proofs.Token.Brick

/-!
The bricks of a type. A tree of a type is laid out with the blanks that types are written with
(`wall`): every token is a brick, and what is only kept as text, such as a constant argument, is a
slice of the source. In a tree without optional tokens, bricks that stand next to each other do not
join (`Syntax.isChain_wall`).
-/

namespace TraitLift

open TraitLift.Grammar

/-- The blank between two bricks. -/
def Brick.blank : Brick := .gap [' ']

namespace Grammar

/-- Signs with a blank on either side. -/
def parted : List Kind := [.plus, .arrow, .equal, .kwAs]

/-- Tokens with a blank behind them. -/
def spaced : List Kind := [.kwMut, .kwConst, .kwImpl, .kwDyn, .kwUnsafe, .colon]

/-- A token of a rule with the blanks around it; `cs` are the trees behind it. -/
def seat (r : Rule) (t : Token) (cs : List Syntax) : List Brick :=
  if t.kind ∈ parted then [.blank, .tok t, .blank]
  else if t.kind ∈ spaced || t.kind = .comma && !closes cs || r = .refType && t.kind = .lifetime ||
    r = .fnAbi && !cs.isEmpty then [.tok t, .blank]
  else [.tok t]

/-- The blank behind a tree of a rule. -/
def margin (r : Rule) : List Brick := if r = .forLifetimes ∨ r = .fnAbi then [.blank] else []

/-- What is kept as text, around the tokens between. -/
def quotation (cs : List Syntax) : List Brick := cs.map fun
  | .leaf t => .tok t
  | c => .slice c.leaves

/-- The length of an array, with the bracket behind it. -/
def arrayTail (cs : List Syntax) : List Brick :=
  .slice (leavesOf cs).dropLast :: (leavesOf cs).getLast?.toList.map .tok

mutual

/-- The bricks of a tree. -/
def wall : Syntax → List Brick
  | .leaf t => [.tok t]
  | .node .constArg cs => [.slice (leavesOf cs)]
  | .node .macroType cs => quotation cs
  | .node r cs => wallOf r cs

/-- The bricks of some trees of a rule. -/
def wallOf (r : Rule) : List Syntax → List Brick
  | [] => []
  | .leaf t :: cs =>
    if r = .arrayType ∧ t.kind = .semi then .tok t :: .blank :: arrayTail cs
    else seat r t cs ++ wallOf r cs
  | .node a ds :: cs => wall (.node a ds) ++ margin a ++ wallOf r cs

end

theorem wall_node {r : Rule} (hr : r ≠ .constArg ∧ r ≠ .macroType) (cs : List Syntax) :
    wall (.node r cs) = wallOf r cs := by
  rw [wall]
  · exact hr.1
  · exact hr.2

theorem tokensOf_seat (r : Rule) (t : Token) (cs : List Syntax) : tokensOf (seat r t cs) = [t] := by
  unfold seat
  split
  · rfl
  · split <;> rfl

theorem tokensOf_margin (r : Rule) : tokensOf (margin r) = [] := by
  unfold margin
  split <;> rfl

theorem tokensOf_quotation (cs : List Syntax) : tokensOf (quotation cs) = leavesOf cs := by
  induction cs with
  | nil => rfl
  | cons c cs ih =>
    cases c with
    | leaf t =>
      rw [leavesOf, ← ih]
      rfl
    | node r ds =>
      rw [leavesOf, ← ih]
      rfl

theorem tokensOf_arrayTail (cs : List Syntax) : tokensOf (arrayTail cs) = leavesOf cs := by
  cases h : leavesOf cs using List.reverseRecOn with
  | nil => simp [arrayTail, h, Brick.tokens]
  | append_singleton ts t _ => simp [arrayTail, h, Brick.tokens]

mutual

/-- The tokens of a tree are laid out in their order. -/
theorem tokensOf_wall : ∀ c : Syntax, tokensOf (wall c) = c.leaves
  | .leaf t => rfl
  | .node r cs => by
    by_cases hr : r ≠ .constArg ∧ r ≠ .macroType
    · rw [wall_node hr, tokensOf_wallOf, Tree.leaves]
    · obtain rfl | rfl : r = .constArg ∨ r = .macroType := by tauto
      · simp [wall, Brick.tokens, Tree.leaves]
      · rw [wall, tokensOf_quotation, Tree.leaves]

theorem tokensOf_wallOf (r : Rule) : ∀ cs : List Syntax, tokensOf (wallOf r cs) = leavesOf cs
  | [] => rfl
  | .leaf t :: cs => by
    rw [wallOf, leavesOf]
    split
    · simp [Brick.blank, Brick.tokens, tokensOf_arrayTail, Tree.leaves]
    · rw [tokensOf_append, tokensOf_seat, tokensOf_wallOf r cs, Tree.leaves]
  | .node a ds :: cs => by
    rw [wallOf, leavesOf, tokensOf_append, tokensOf_append, tokensOf_wall (.node a ds),
      tokensOf_wallOf r cs, tokensOf_margin, List.append_nil]

end

/-! ### Slices -/

theorem slice_not_mem_seat (r : Rule) (t : Token) (cs : List Syntax) (us : List Token) :
    Brick.slice us ∉ seat r t cs := by
  unfold seat
  split
  · simp [Brick.blank]
  · split <;> simp [Brick.blank]

theorem slice_not_mem_margin (r : Rule) (us : List Token) : Brick.slice us ∉ margin r := by
  unfold margin
  split <;> simp [Brick.blank]

/-- The slices in the parts of a rule are those in its trees. -/
theorem slice_mem_wallOf_iff {r : Rule} (hr : r ≠ .arrayType) {us : List Token} :
    ∀ {cs : List Syntax}, .slice us ∈ wallOf r cs ↔ ∃ c ∈ cs, .slice us ∈ wall c
  | [] => by simp [wallOf]
  | .leaf t :: cs => by
    rw [wallOf, if_neg (by simp [hr]), List.mem_append, slice_mem_wallOf_iff hr]
    simp [slice_not_mem_seat, wall]
  | .node a ds :: cs => by
    rw [wallOf, List.mem_append, List.mem_append, slice_mem_wallOf_iff hr]
    simp [slice_not_mem_margin]

/-! ### Blanks -/

theorem gap_of_mem_seat {r : Rule} {t : Token} {cs : List Syntax} {g : List Char}
    (h : .gap g ∈ seat r t cs) : g = [' '] := by
  unfold seat at h
  split at h
  · simpa [Brick.blank] using h
  · split at h <;> simp_all [Brick.blank]

theorem gap_of_mem_margin {r : Rule} {g : List Char} (h : .gap g ∈ margin r) : g = [' '] := by
  unfold margin at h
  split at h <;> simp_all [Brick.blank]

mutual

/-- All gaps in a type are single blanks. -/
theorem gap_of_mem_wall {g : List Char} : ∀ {c : Syntax}, .gap g ∈ wall c → g = [' ']
  | .leaf t, h => by simp [wall] at h
  | .node r cs, h => by
    by_cases hr : r ≠ .constArg ∧ r ≠ .macroType
    · rw [wall_node hr] at h
      exact gap_of_mem_wallOf h
    · obtain rfl | rfl : r = .constArg ∨ r = .macroType := by tauto
      · simp [wall] at h
      · obtain ⟨c, -, hc⟩ := List.mem_map.1 h
        cases c <;> simp at hc

theorem gap_of_mem_wallOf {r : Rule} {g : List Char} : ∀ {cs : List Syntax},
    .gap g ∈ wallOf r cs → g = [' ']
  | [], h => by simp [wallOf] at h
  | .leaf t :: cs, h => by
    rw [wallOf] at h
    split at h
    · simpa [Brick.blank, arrayTail] using h
    · exact (List.mem_append.1 h).elim gap_of_mem_seat gap_of_mem_wallOf
  | .node a ds :: cs, h => by
    rw [wallOf, List.mem_append, List.mem_append] at h
    exact h.elim (fun h => h.elim gap_of_mem_wall gap_of_mem_margin) gap_of_mem_wallOf

end

/-! ### How types end -/

/-- The rules that a type can end with. -/
def lastRules : List Rule := typeRules ++ [Rule.parenTree, .bracketTree, .braceTree]

/-- The kinds of tokens that a type can end with. -/
def typeEnders : List Kind :=
  [.gt, .rpar, .rsqb, .rbrace, .bang, .underscore, .lifetime, .plus, .kwExtern, .name, .kwSelf,
   .kwSelfType, .kwSuper, .kwCrate, .number, .string, .rawString, .char, .kwTrue, .kwFalse]

/-- The kinds of tokens that a rule of types can end with. -/
def Rule.enders : Rule → List Kind
  | .lifetimeParam => .colon :: typeEnders
  | _ => typeEnders

theorem typeEnders_subset (r : Rule) : typeEnders ⊆ r.enders := by
  unfold Rule.enders
  split
  · exact List.subset_cons_self ..
  · exact List.Subset.refl _

theorem enders_subset (r : Rule) : r.enders ⊆ .colon :: typeEnders := by
  unfold Rule.enders
  split
  · exact List.Subset.refl _
  · exact List.subset_cons_self ..

/-- Whether a rule of types can end with a symbol, and with all that the symbol ends with. -/
def Rule.endsWith (r : Rule) : Symbol TokenClass Rule → Bool
  | .tok c => c.kinds.all (· ∈ r.enders)
  | .rule a => a ∈ lastRules && a ≠ .lifetimeParam

theorem endsWith_last {r : Rule} (hr : r ∈ lastRules) {k m : List Syn} {s : Symbol TokenClass Rule}
    (hk : k ∈ (ruleBody r).rests) (hs : (s, m) ∈ stepsRest k) (hm : nullableRest m) :
    r.endsWith s := by
  have hall : ∀ r ∈ lastRules, ∀ k ∈ (ruleBody r).rests, ∀ p ∈ stepsRest k, nullableRest p.2 →
      r.endsWith p.1 := by
    decide +kernel
  exact hall r hr k hk (s, m) hs hm

theorem isLineDoc_of_mem_enders {r : Rule} {k : Kind} (hk : k ∈ r.enders) : k.isLineDoc = false := by
  have hall : ∀ k ∈ Kind.colon :: typeEnders, k.isLineDoc = false := by decide
  exact hall k (enders_subset r hk)

mutual

theorem kind_mem_enders {r : Rule} (hr : r ∈ lastRules) : ∀ {c : Syntax},
    (Symbol.rule r).HasTree rust c → ∀ t ∈ c.leaves.getLast?, t.kind ∈ r.enders
  | .leaf _, ⟨_, h, _⟩ => by simp at h
  | .node a cs, h => by
    obtain ⟨ds, heq, hds⟩ := h
    obtain ⟨rfl, rfl⟩ := Tree.node.inj heq
    exact kind_mem_enders_of_parses hr (List.mem_cons_self ..) hds

theorem kind_mem_enders_of_parses {r : Rule} (hr : r ∈ lastRules) : ∀ {k : List Syn}
    {ps : List Syntax}, k ∈ (ruleBody r).rests → Parses rust k ps →
    ∀ t ∈ (leavesOf ps).getLast?, t.kind ∈ r.enders
  | _, [], _, _ => by simp [leavesOf]
  | k, c :: ps, hk, h => by
    obtain ⟨s, m, hs, hc, hps⟩ := parses_cons_iff.1 h
    intro t ht
    rw [leavesOf, List.getLast?_append] at ht
    cases hlast : (leavesOf ps).getLast? with
    | some u =>
      rw [hlast] at ht
      obtain rfl : u = t := by simpa using ht
      exact kind_mem_enders_of_parses hr (Expr.mem_rests_of_mem_stepsRest hk hs) hps u hlast
    | none =>
      rw [hlast, Option.none_or] at ht
      obtain rfl := hps.leavesOf_eq_nil (List.getLast?_eq_none_iff.1 hlast)
      have hends := endsWith_last hr hk hs (parses_nil_iff.1 hps)
      cases s with
      | tok x =>
        obtain ⟨u, rfl, hu⟩ := hc
        obtain rfl : u = t := by simpa [Tree.leaves] using ht
        simp only [Rule.endsWith, List.all_eq_true, decide_eq_true_eq] at hends
        exact hends _ (TokenClass.mem_kinds.2 hu)
      | rule a =>
        simp only [Rule.endsWith, Bool.and_eq_true, decide_eq_true_eq] at hends
        have henders : a.enders = typeEnders := by
          rw [Rule.enders]
          exact hends.2
        exact typeEnders_subset r (henders ▸ kind_mem_enders hends.1 hc t ht)

end

/-! ### Bricks side by side -/

/-- The rules that are laid out part by part. -/
def rowRules : List Rule := typeRules.filter (· ∉ [.constArg, .macroType, .arrayType])

/-- Whether a token of a rule has a blank behind it wherever something follows it. -/
def Rule.spaces (r : Rule) (k : Kind) : Bool :=
  k ∈ parted || k ∈ spaced || r = .refType && k = .lifetime || r = .fnAbi

/-- The kinds of tokens that a symbol can start with if no attributes stand in front of it. -/
def Symbol.firsts : Symbol TokenClass Rule → List Kind
  | .rule .bareFnArg => Rule.typeStarters
  | s => s.kinds

/-- Whether a symbol stands for a sign with a blank on either side. -/
def Symbol.isParted : Symbol TokenClass Rule → Bool
  | .tok c => c.kinds.all (· ∈ parted)
  | .rule _ => false

/-- Kinds of tokens that can stand right behind a tree of a rule. -/
def Rule.followers : Rule → List Kind
  | .lifetimeParam => [.comma, .gt]
  | _ => [.comma, .gt, .rpar, .rsqb, .colon, .dcolon]

theorem abuts_of_mem_followers {r : Rule} {x y : Kind} (hx : x ∈ r.enders) (hy : y ∈ r.followers) :
    x.abuts y := by
  have hall : ∀ x ∈ typeEnders, ∀ y ∈ Rule.followers .type, x.abuts y := by decide
  have hcolon : ∀ y ∈ Rule.followers .lifetimeParam, Kind.colon.abuts y := by decide
  by_cases hr : r = .lifetimeParam
  · subst hr
    rcases List.mem_cons.1 hx with rfl | hx
    · exact hcolon y hy
    · exact hall x hx y (List.mem_of_mem_take (i := 2) hy)
  · have henders : r.enders = typeEnders := by
      rw [Rule.enders]
      exact hr
    have hfollowers : r.followers = Rule.followers .type := by
      unfold Rule.followers
      split
      · exact absurd rfl hr
      · rfl
    exact hall x (henders ▸ hx) y (hfollowers ▸ hy)

/-- Whether a tree of one symbol can stand behind a tree of another in the layout of a rule. -/
def Rule.fits (r : Rule) : Symbol TokenClass Rule → Symbol TokenClass Rule → Bool
  | .tok c, s => s.isParted ||
    c.kinds.all fun x => r.spaces x || s.firsts.all fun y => x.touches y
  | .rule a, s => s.isParted || a = .forLifetimes || a = .fnAbi ||
    s.firsts.all (· ∈ a.followers)

/-- Whether a part of a rule that is laid out part by part can be laid out. -/
def Symbol.isPlain : Symbol TokenClass Rule → Bool
  | .tok c => c.kinds.all fun x => !x.isLineDoc
  | .rule a => a ∈ typeRules

theorem fits_of_step {r : Rule} (hr : r ∈ rowRules) {k m : List Syn}
    {s : Symbol TokenClass Rule} (hk : k ∈ (terseBody r).rests) (hs : (s, m) ∈ stepsRest k) :
    s.isPlain ∧ ∀ s' m', (s', m') ∈ stepsRest m → r.fits s s' := by
  have hall : ∀ r ∈ rowRules, ∀ k ∈ (terseBody r).rests, ∀ p ∈ stepsRest k,
      p.1.isPlain ∧ ∀ q ∈ stepsRest p.2, r.fits p.1 q.1 := by
    decide +kernel
  obtain ⟨hplain, hfits⟩ := hall r hr k hk (s, m) hs
  exact ⟨hplain, fun s' m' hs' => hfits (s', m') hs'⟩

theorem kind_mem_firsts {s : Symbol TokenClass Rule} {c : Syntax} (hc : s.HasTree rust c)
    (hterse : Terse c) : ∀ t ∈ c.leaves.head?, t.kind ∈ s.firsts := by
  intro t ht
  unfold Symbol.firsts
  split
  · obtain ⟨cs, rfl, -⟩ := hc
    have honwards : onwards [terseBody .bareFnArg] ⊆ Rule.typeStarters := by decide
    exact honwards ((hterse (by decide)).1.kind_mem_onwards t ht)
  · exact hc.kind_mem t ht

theorem meets_blank {b : Brick} (h : ∀ t ∈ b.tokens.getLast?, t.kind.isLineDoc = false) :
    b.Meets .blank := by
  cases b with
  | gap g => trivial
  | tok t => exact fun hline => absurd (h t rfl) (by simp [hline])
  | slice us => exact fun t ht hline => absurd (h t ht) (by simp [hline])

theorem meets_of_abuts {a b : Brick} (h : ∀ t ∈ a.tokens.getLast?, ∀ u ∈ b.tokens.head?,
    t.kind.abuts u.kind) (hline : ∀ t ∈ a.tokens.getLast?, t.kind.isLineDoc = false) :
    a.Meets b := by
  cases b with
  | gap g =>
    cases a with
    | gap g => trivial
    | tok t => exact fun hdoc => absurd (hline t rfl) (by simp [hdoc])
    | slice us => exact fun t ht hdoc => absurd (hline t ht) (by simp [hdoc])
  | tok u =>
    cases a with
    | gap g => trivial
    | tok t => exact Bool.or_eq_true_iff.2 (Or.inr (h t rfl u rfl))
    | slice us => exact fun t ht => h t ht u rfl
  | slice vs =>
    cases a with
    | gap g => trivial
    | tok t => exact fun u hu => Bool.or_eq_true_iff.2 (Or.inr (h t rfl u hu))
    | slice us => exact h

theorem tok_meets {t : Token} {b : Brick} (h : ∀ u ∈ b.tokens.head?, t.kind.touches u.kind)
    (hline : t.kind.isLineDoc = false) : (Brick.tok t).Meets b := by
  cases b with
  | gap g => exact fun hdoc => absurd hline (by simp [hdoc])
  | tok u => exact h u rfl
  | slice vs => exact h

theorem head?_tokens {bs : List Brick} {b : Brick} (hb : b ∈ bs.head?) {t : Token}
    (ht : t ∈ b.tokens.head?) : t ∈ (tokensOf bs).head? := by
  cases bs with
  | nil => simp at hb
  | cons a bs =>
    obtain rfl := Option.some.inj hb
    rw [tokensOf_cons, List.head?_append, Option.mem_def.1 ht]
    rfl

theorem getLast?_tokens {bs : List Brick} {b : Brick} (hb : b ∈ bs.getLast?) {t : Token}
    (ht : t ∈ b.tokens.getLast?) : t ∈ (tokensOf bs).getLast? := by
  obtain ⟨as, rfl⟩ := List.getLast?_eq_some_iff.1 hb
  rw [tokensOf_append, List.getLast?_append, tokensOf_cons, tokensOf_nil, List.append_nil,
    Option.mem_def.1 ht]
  rfl

theorem isChain_seat {r : Rule} {t : Token} (hline : t.kind.isLineDoc = false) (cs : List Syntax) :
    (seat r t cs).IsChain Brick.Meets := by
  have hblank : (Brick.tok t).Meets .blank := meets_blank (by simpa [Brick.tokens] using hline)
  unfold seat
  split
  · exact .cons_cons trivial (.cons_cons hblank (.singleton _))
  · split
    · exact .cons_cons hblank (.singleton _)
    · exact .singleton _

/-- A token that something follows has a blank behind it, or it is not one that a rule spaces. -/
theorem getLast?_seat {r : Rule} {t : Token} {cs : List Syntax} (hcs : cs ≠ []) :
    ∀ b ∈ (seat r t cs).getLast?, b = .blank ∨ b = .tok t ∧ r.spaces t.kind = false := by
  have hne : cs.isEmpty = false := by simpa using hcs
  intro b hb
  unfold seat at hb
  split at hb
  · exact Or.inl (Option.some.inj hb).symm
  · next hparted =>
    split at hb
    · exact Or.inl (Option.some.inj hb).symm
    · next hspaced =>
      refine Or.inr ⟨(Option.some.inj hb).symm, ?_⟩
      rw [hne] at hspaced
      simp only [Rule.spaces]
      grind

theorem head?_seat {r : Rule} {t : Token} (ht : t.kind ∈ parted) (cs : List Syntax) :
    (seat r t cs).head? = some .blank := by
  rw [seat, if_pos ht]
  rfl

/-- The brick is the first of a tree of a symbol, with no blank in front of it. -/
def Symbol.Opens (s : Symbol TokenClass Rule) (b : Brick) : Prop :=
  s.isParted = false ∧ ∀ u ∈ b.tokens.head?, u.kind ∈ s.firsts

/-- The brick is the last of a tree of a symbol, with no blank behind it. -/
def Symbol.Ends (r : Rule) : Symbol TokenClass Rule → Brick → Prop
  | .tok c, a => ∃ t, a = .tok t ∧ t.kind ∈ c.kinds ∧ r.spaces t.kind = false
  | .rule q, a => q ≠ .forLifetimes ∧ q ≠ .fnAbi ∧ ∀ t ∈ a.tokens.getLast?, t.kind ∈ q.enders

theorem opens_wallOf {r : Rule} (hr : r ≠ .arrayType) {s : Symbol TokenClass Rule} {d : Syntax}
    {ps : List Syntax} (hd : s.HasTree rust d) (hterse : Terse d) :
    ∀ b ∈ (wallOf r (d :: ps)).head?, b = .blank ∨ s.Opens b := by
  intro b hb
  have hfirst : ∀ u ∈ b.tokens.head?, u.kind ∈ s.firsts := by
    intro u hu
    have htoken := head?_tokens hb hu
    obtain ⟨t, ts, ht⟩ := hd.exists_leaf
    rw [tokensOf_wallOf, leavesOf, ht, List.cons_append, List.head?_cons] at htoken
    exact kind_mem_firsts hd hterse u (by rw [ht]; exact htoken)
  cases hparted : s.isParted with
  | false => exact Or.inr ⟨hparted, hfirst⟩
  | true =>
    cases s with
    | rule q => simp [Symbol.isParted] at hparted
    | tok c =>
      simp only [Symbol.isParted, List.all_eq_true, decide_eq_true_eq] at hparted
      obtain ⟨t, rfl, ht⟩ := hd
      rw [wallOf, if_neg (by simp [hr]), List.head?_append,
        head?_seat (hparted _ (TokenClass.mem_kinds.2 ht))] at hb
      exact Or.inl (Option.some.inj hb).symm

theorem meets_of_fits {r : Rule} {s s' : Symbol TokenClass Rule} (hfits : r.fits s s') {a b : Brick}
    (ha : s.Ends r a) (hb : s'.Opens b)
    (hline : ∀ t ∈ a.tokens.getLast?, t.kind.isLineDoc = false) : a.Meets b := by
  cases s with
  | tok c =>
    obtain ⟨t, rfl, ht, hspaces⟩ := ha
    simp only [Rule.fits, hb.1, Bool.false_or, List.all_eq_true, Bool.or_eq_true] at hfits
    exact tok_meets (fun u hu => ((hfits _ ht).resolve_left (by simp [hspaces])) _ (hb.2 u hu))
      (hline t rfl)
  | rule q =>
    obtain ⟨hbinder, habi, henders⟩ := ha
    simp only [Rule.fits, hb.1, hbinder, habi, decide_false, Bool.false_or, List.all_eq_true,
      decide_eq_true_eq] at hfits
    exact meets_of_abuts
      (fun t ht u hu => abuts_of_mem_followers (henders t ht) (hfits _ (hb.2 u hu))) hline

theorem ne_of_mem_rowRules {r : Rule} (hr : r ∈ rowRules) :
    r ≠ .constArg ∧ r ≠ .macroType ∧ r ≠ .arrayType := by
  simpa [not_or] using (List.mem_filter.1 hr).2

theorem mem_rowRules {r : Rule} (hr : r ∈ typeRules) (hconst : r ≠ .constArg) (hcall : r ≠ .macroType)
    (harray : r ≠ .arrayType) : r ∈ rowRules :=
  List.mem_filter.2 ⟨hr, by simp [hconst, hcall, harray]⟩

/-- No slice ends with a doc comment that goes to the end of its line. -/
def SlicesEnd (bs : List Brick) : Prop :=
  ∀ us, Brick.slice us ∈ bs → ∀ t ∈ us.getLast?, t.kind.isLineDoc = false

theorem SlicesEnd.mono {as bs : List Brick} (h : SlicesEnd bs) (hsub : as ⊆ bs) : SlicesEnd as :=
  fun us hus => h us (hsub hus)

/-- A bracket or a `!` can stand behind anything but a comment. -/
theorem abuts_of_not_lineDoc {k b : Kind} (hk : k.isLineDoc = false)
    (hb : b ∈ [Kind.rsqb, .bang, .semi]) : k.abuts b := by
  have hall : ∀ k ∈ Kind.all, k.isLineDoc = false → ∀ b ∈ [Kind.rsqb, .bang, .semi], k.abuts b := by
    decide +kernel
  exact hall k (Kind.mem_all k) hk b hb

theorem isChain_arrayTail {cs : List Syntax} {t : Token} (ht : t.kind = .semi)
    (hlast : ∀ u ∈ (leavesOf cs).getLast?, u.kind = .rsqb) (hends : SlicesEnd (arrayTail cs)) :
    (Brick.tok t :: .blank :: arrayTail cs).IsChain Brick.Meets := by
  unfold arrayTail at hends ⊢
  refine .cons_cons (meets_blank (by simp [Brick.tokens, ht, Kind.isLineDoc])) (.cons_cons trivial ?_)
  cases h : (leavesOf cs).getLast? with
  | none => exact .singleton _
  | some u =>
    refine .cons_cons (fun v hv => ?_) (.singleton _)
    rw [hlast u h]
    exact abuts_of_not_lineDoc (hends _ (List.mem_cons_self ..) v hv) (by decide)

theorem wallOf_array {l t : Token} (hl : l.kind = .lsqb) (ht : t.kind = .semi)
    (es rest : List Syntax) :
    wallOf .arrayType (.leaf l :: .node .type es :: .leaf t :: rest) =
      .tok l :: (wall (.node .type es) ++ .tok t :: .blank :: arrayTail rest) := by
  simp [wallOf, seat, margin, hl, ht, parted, spaced]

/-- The bricks of an array type can stand side by side if those of its element type can. -/
theorem isChain_array {l t : Token} (hl : l.kind = .lsqb) (ht : t.kind = .semi)
    {es rest : List Syntax} (hes : (Symbol.rule .type).HasTree rust (.node .type es))
    (htype : (wall (.node .type es)).IsChain Brick.Meets)
    (hlast : ∀ u ∈ (leavesOf rest).getLast?, u.kind = .rsqb) (hends : SlicesEnd (arrayTail rest)) :
    (wallOf .arrayType (.leaf l :: .node .type es :: .leaf t :: rest)).IsChain Brick.Meets := by
  have hopen : ∀ k ∈ Rule.type.starters, Kind.lsqb.touches k := by decide
  obtain ⟨v, vs, hv⟩ := hes.exists_leaf
  rw [wallOf_array hl ht]
  refine List.isChain_cons.2 ⟨fun b hb => ?_, List.isChain_append.2
    ⟨htype, isChain_arrayTail ht hlast hends, fun a ha b hb => ?_⟩⟩
  · refine tok_meets (fun u hu => ?_) (by rw [hl]; rfl)
    have hfirst : u ∈ (tokensOf (wall (.node .type es) ++ .tok t :: .blank :: arrayTail rest)).head? :=
      head?_tokens hb hu
    rw [tokensOf_append, tokensOf_wall, hv, List.cons_append, List.head?_cons] at hfirst
    rw [hl]
    exact hopen _ (hes.kind_mem u (by rw [hv]; exact hfirst))
  · obtain rfl := Option.some.inj hb
    have hline : ∀ u ∈ a.tokens.getLast?, u.kind.isLineDoc = false := by
      intro u hu
      have hlast := getLast?_tokens ha hu
      rw [tokensOf_wall] at hlast
      exact isLineDoc_of_mem_enders (kind_mem_enders (r := .type) (by decide) hes u hlast)
    refine meets_of_abuts (fun u hu v hv => ?_) hline
    obtain rfl := Option.some.inj hv
    exact ht ▸ abuts_of_not_lineDoc (hline u hu) (by decide)

theorem isChain_macro {cs : List Syntax} (h : Parses rust [ruleBody .macroType] cs) :
    (quotation cs).IsChain Brick.Meets := by
  obtain ⟨_, _, rfl, ⟨ps, rfl, hps⟩, _, _, rfl, ⟨t, rfl, ht⟩, htree⟩ := parses_iff_covers.1 h
  obtain ⟨a, ha, c, rfl, hc⟩ : ∃ a ∈ [Rule.parenTree, .bracketTree, .braceTree], ∃ c, _ = [c] ∧
      (Symbol.rule a).HasTree rust c := exists_of_covers_any (by decide) htree
  have hbang := kind_eq ht
  have hpath : ∀ u ∈ (Tree.node Rule.pathType ps).leaves.getLast?, u.kind.isLineDoc = false :=
    fun u hu => isLineDoc_of_mem_enders
      (kind_mem_enders (r := .pathType) (by decide) ⟨ps, rfl, hps⟩ u hu)
  have hopen : ∀ a ∈ [Rule.parenTree, .bracketTree, .braceTree], ∀ k ∈ a.starters,
      Kind.bang.touches k := by decide
  obtain ⟨cs, rfl, hcs⟩ := hc
  refine .cons_cons (fun u hu => ?_) (.cons_cons (fun u hu => ?_) (.singleton _))
  · rw [hbang]
    exact abuts_of_not_lineDoc (hpath u hu) (by decide)
  · rw [hbang]
    exact hopen a ha _ (Symbol.HasTree.kind_mem (s := .rule a) ⟨cs, rfl, hcs⟩ u hu)

theorem typeRules_subset_lastRules : typeRules ⊆ lastRules := List.subset_append_left _ _

mutual

/-- The bricks of a type without optional tokens can stand side by side. -/
theorem isChain_wall {r : Rule} (hr : r ∈ typeRules) : ∀ {c : Syntax},
    (Symbol.rule r).HasTree rust c → Terse c → SlicesEnd (wall c) → (wall c).IsChain Brick.Meets
  | .leaf _, ⟨_, h, _⟩, _, _ => by simp at h
  | .node a cs, h, hterse, hends => by
    obtain ⟨ds, heq, hds⟩ := h
    obtain ⟨rfl, rfl⟩ := Tree.node.inj heq
    by_cases hconst : a = .constArg
    · subst hconst
      exact .singleton _
    by_cases hcall : a = .macroType
    · subst hcall
      exact isChain_macro hds
    rw [wall_node ⟨hconst, hcall⟩] at hends ⊢
    by_cases harray : a = .arrayType
    · subst harray
      have hwalls := isChain_walls ((hterse hr).2 hcall)
      obtain ⟨_, _, rfl, ⟨l, rfl, hl⟩, _, _, rfl, ⟨es, rfl, hes⟩, _, rest, rfl,
        ⟨t, rfl, ht⟩, hrest⟩ :=
        parses_iff_covers.1 hds
      obtain ⟨_, _, rfl, -, e, rfl, he⟩ := hrest
      have hl := kind_eq hl
      have ht := kind_eq ht
      have hlast : ∀ qs : List Syntax, (leavesOf (qs ++ [Tree.leaf e])).getLast? = some e := fun qs => by
        rw [leavesOf_append, leavesOf, Tree.leaves, leavesOf, List.append_nil,
          List.getLast?_append, List.getLast?_singleton, Option.some_or]
      simp only [List.cons_append, List.nil_append] at hends hwalls ⊢
      rw [wallOf_array hl ht] at hends
      refine isChain_array hl ht ⟨es, rfl, hes⟩ (hwalls _ (by simp) .type (by decide) ⟨es, rfl, hes⟩
        (hends.mono fun b hb => ?_)) (fun u hu => ?_) (hends.mono fun b hb => ?_)
      · exact List.mem_cons_of_mem _ (List.mem_append_left _ hb)
      · rw [hlast] at hu
        obtain rfl := Option.some.inj hu
        exact kind_eq he
      · simp [hb]
    · exact isChain_wallOf (mem_rowRules hr hconst hcall harray) (List.mem_cons_self ..) (hterse hr).1
        ((hterse hr).2 hcall) hends

theorem isChain_walls : ∀ {ps : List Syntax}, TerseAll ps → ∀ c ∈ ps, ∀ q ∈ typeRules,
    (Symbol.rule q).HasTree rust c → SlicesEnd (wall c) → (wall c).IsChain Brick.Meets
  | [], _, c, hmem, _, _, _, _ => by simp at hmem
  | d :: ps, hterse, c, hmem, q, hq, hc, hends => by
    rcases List.mem_cons.1 hmem with heq | hmem
    · rw [heq] at hc hends ⊢
      exact isChain_wall hq hc hterse.1 hends
    · exact isChain_walls hterse.2 c hmem q hq hc hends

theorem isChain_wallOf {r : Rule} (hr : r ∈ rowRules) : ∀ {k : List Syn} {ps : List Syntax},
    k ∈ (terseBody r).rests → Parses rust k ps → TerseAll ps → SlicesEnd (wallOf r ps) →
    (wallOf r ps).IsChain Brick.Meets
  | _, [], _, _, _, _ => .nil
  | k, .leaf t :: ps, hk, h, hterse, hends => by
    obtain ⟨s, m, hs, hc, hps⟩ := parses_cons_iff.1 h
    obtain ⟨hplain, hfits⟩ := fits_of_step hr hk hs
    have harray := (ne_of_mem_rowRules hr).2.2
    obtain ⟨c, rfl, ht⟩ : ∃ c, s = .tok c ∧ t.kind ∈ c.kinds := by
      cases s with
      | rule q =>
        obtain ⟨_, heq, -⟩ := hc
        simp at heq
      | tok c =>
        obtain ⟨_, heq, ht⟩ := hc
        obtain rfl := Tree.leaf.inj heq
        exact ⟨c, rfl, TokenClass.mem_kinds.2 ht⟩
    have hline : t.kind.isLineDoc = false := by
      simp only [Symbol.isPlain, List.all_eq_true, Bool.not_eq_true'] at hplain
      exact hplain _ ht
    rw [wallOf, if_neg (by simp [harray])] at hends ⊢
    refine List.isChain_append.2 ⟨isChain_seat hline ps,
      isChain_wallOf hr (Expr.mem_rests_of_mem_stepsRest hk hs) hps hterse.2
        (hends.mono (List.subset_append_right ..)), fun a ha b hb => ?_⟩
    have hlast : ∀ u ∈ a.tokens.getLast?, u.kind.isLineDoc = false := by
      intro u hu
      have := getLast?_tokens ha hu
      rw [tokensOf_seat] at this
      obtain rfl : t = u := by simpa using this
      exact hline
    cases ps with
    | nil => simp [wallOf] at hb
    | cons d ps =>
      obtain ⟨s', m', hs', hd, -⟩ := parses_cons_iff.1 hps
      rcases opens_wallOf harray hd hterse.2.1 b hb with rfl | hopens
      · exact meets_blank hlast
      · rcases getLast?_seat (List.cons_ne_nil d ps) a ha with rfl | ⟨rfl, hspaces⟩
        · trivial
        · exact meets_of_fits (hfits s' m' hs') ⟨t, rfl, ht, hspaces⟩ hopens hlast
  | k, .node q cs :: ps, hk, h, hterse, hends => by
    obtain ⟨s, m, hs, hc, hps⟩ := parses_cons_iff.1 h
    obtain ⟨hplain, hfits⟩ := fits_of_step hr hk hs
    have harray := (ne_of_mem_rowRules hr).2.2
    obtain rfl : s = .rule q := by
      cases s with
      | tok c =>
        obtain ⟨_, heq, -⟩ := hc
        simp at heq
      | rule q' =>
        obtain ⟨_, heq, -⟩ := hc
        rw [(Tree.node.inj heq).1]
    have hq : q ∈ typeRules := of_decide_eq_true hplain
    have hline : ∀ a ∈ (wall (.node q cs)).getLast?, ∀ u ∈ a.tokens.getLast?,
      u.kind ∈ q.enders := by
      intro a ha u hu
      have := getLast?_tokens ha hu
      rw [tokensOf_wall] at this
      exact kind_mem_enders (typeRules_subset_lastRules hq) hc u this
    rw [wallOf] at hends ⊢
    have hwall := isChain_wall hq hc hterse.1
      (hends.mono (List.Subset.trans (List.subset_append_left ..) (List.subset_append_left ..)))
    have hrest := isChain_wallOf hr (Expr.mem_rests_of_mem_stepsRest hk hs) hps hterse.2
      (hends.mono (List.subset_append_right ..))
    have hnoline : ∀ a ∈ (wall (.node q cs)).getLast?, ∀ u ∈ a.tokens.getLast?,
        u.kind.isLineDoc = false := fun a ha u hu => isLineDoc_of_mem_enders (hline a ha u hu)
    rw [margin]
    split
    · rw [List.append_assoc]
      refine List.isChain_append.2 ⟨hwall, ?_, fun a ha b hb => ?_⟩
      · exact List.isChain_append.2 ⟨.singleton _, hrest, by rintro _ ⟨⟩ b -; trivial⟩
      · obtain rfl := Option.some.inj hb
        exact meets_blank (hnoline a ha)
    · next hmargin =>
      rw [List.append_nil]
      refine List.isChain_append.2 ⟨hwall, hrest, fun a ha b hb => ?_⟩
      cases ps with
      | nil => simp [wallOf] at hb
      | cons d ps =>
        obtain ⟨s', m', hs', hd, -⟩ := parses_cons_iff.1 hps
        rcases opens_wallOf harray hd hterse.2.1 b hb with rfl | hopens
        · exact meets_blank (hnoline a ha)
        · exact meets_of_fits (hfits s' m' hs') ⟨(not_or.1 hmargin).1, (not_or.1 hmargin).2,
            hline a ha⟩ hopens (hnoline a ha)

end

end Grammar

end TraitLift
