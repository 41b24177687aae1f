import Mathlib.Tactic
import TraitLift.Proofs.Grammar.Covers
import TraitLift.Proofs.Grammar.Rules

/-!
What can stand next to each other in a derivation tree. `Rule.starters` are the kinds of tokens that
a rule can start with, `bars` the kinds of tokens that must not follow a tree because one of the rules
that end where it ends could have read them, too. A tree is `Neat` if no tree in it is followed by
such a token, and if it takes no list of bounds for a single one. All that can go wrong in a
derivation is a `::` behind a segment and a `!` behind a path that both end in the type a function
returns (`neatAll_of_calm`): every other place is safe by the grammar alone.
-/

namespace TraitLift

/-- Every kind of token. -/
def Kind.all : List Kind :=
  [outerBlockDoc, innerBlockDoc, outerDoc, innerDoc, rawString, string, char, number, lifetime, name,
   kwAs, kwAsync, kwConst, kwCrate, kwDyn, kwEnum, kwExtern, kwFalse, kwFn, kwFor,
   kwImpl, kwIn, kwMod, kwMut, kwPub, kwSelf, kwSelfType, kwStatic, kwStruct, kwSuper,
   kwTrait, kwTrue, kwType, kwUnsafe, kwUse, kwWhere, underscore,
   lpar, rpar, lsqb, rsqb, lbrace, rbrace,
   arrow, fatArrow, dcolon, colon, semi, comma, ellipsis, dot, equal, plus, minus,
   star, amp, bang, qmark, pound, lt, gt, otherPunct]

theorem Kind.mem_all (k : Kind) : k ∈ Kind.all := by
  cases k <;> decide

namespace Grammar

/-- A derivation tree of this grammar. -/
abbrev Syntax := Tree Token Rule

/-! ### What a rule starts with -/

/-- The kinds of tokens of a class. -/
def TokenClass.kinds (c : TokenClass) : List Kind := Kind.all.filter c.has

namespace Rule

/-- The kinds of words that stand in a path. -/
def pathWords : List Kind := [.name, .kwCrate, .kwSelf, .kwSelfType, .kwSuper]

/-- The kinds of tokens that attributes start with. -/
def attrStarters : List Kind := [.pound, .outerDoc, .outerBlockDoc]

/-- The kinds of tokens that a bound starts with. -/
def boundStarters : List Kind := .lifetime :: .lpar :: .kwFor :: .qmark :: .dcolon :: pathWords

/-- The kinds of tokens that a type starts with. -/
def typeStarters : List Kind :=
  .dcolon :: .lt :: .amp :: .star :: .lsqb :: .lpar :: .bang :: .underscore :: .kwFor :: .kwUnsafe ::
    .kwExtern :: .kwFn :: .kwImpl :: .kwDyn :: pathWords

/-- The kinds of tokens that a rule can start with. -/
def starters : Rule → List Kind
  | implBlock => .name :: .kwUnsafe :: .kwImpl :: attrStarters
  | marker | typeParam | bindingArg | constraintArg => [.name]
  | traitTarget => .bang :: .dcolon :: pathWords
  | implBody | braceTree => [.lbrace]
  | methodMember =>
    .kwPub :: .kwCrate :: .name :: .kwConst :: .kwAsync :: .kwUnsafe :: .kwExtern :: .kwFn ::
      attrStarters
  | constMember => .kwPub :: .kwCrate :: .name :: .kwConst :: attrStarters
  | typeMember => .kwPub :: .kwCrate :: .name :: .kwType :: attrStarters
  | macroMember => .dcolon :: pathWords ++ attrStarters
  | foreignMember =>
    .kwPub :: .kwCrate :: .kwStruct :: .kwEnum :: .kwStatic :: .kwUse :: .kwMod :: .kwTrait ::
      .kwImpl :: .kwExtern :: attrStarters
  | fnItem => [.kwConst, .kwAsync, .kwUnsafe, .kwExtern, .kwFn]
  | fnAbi => [.kwExtern]
  | fnParam => attrStarters ++ [.lpar, .lsqb, .lbrace] ++ TokenClass.plain.kinds
  | constInit | typeDef => [.equal]
  | typeBounds => [.colon]
  | plainPath | pathType | macroType => .dcolon :: pathWords
  | foreignHead =>
    [.kwStruct, .kwEnum, .kwStatic, .kwUse, .kwMod, .kwTrait, .kwImpl, .kwExtern]
  | outerAttr => attrStarters
  | innerAttr => [.pound, .innerDoc, .innerBlockDoc]
  | visibility => [.kwPub, .kwCrate]
  | visScope => [.kwCrate, .kwSelf, .kwSuper, .kwIn]
  | generics | qpathType | angleArgs => [.lt]
  | genericParam => .lifetime :: .name :: .kwConst :: attrStarters
  | lifetimeParam | lifetimeBounds | lifetimeBound | lifetimePredicate | lifetimeArg => [.lifetime]
  | constParam => [.kwConst]
  | constValue =>
    .minus :: .lbrace :: .dcolon :: pathWords ++ TokenClass.literal.kinds
  | forLifetimes => [.kwFor]
  | bounds => boundStarters
  | traitBound => .kwFor :: .qmark :: .dcolon :: pathWords
  | parenBound | tupleType | parenType | parenArgs | parenTree => [.lpar]
  | whereClause => [.kwWhere]
  | typePredicate | type | typeNoBounds | inherentTarget | typeArg => typeStarters
  | implType | implOneType => [.kwImpl]
  | dynType | dynOneType => [.kwDyn]
  | refType => [.amp]
  | ptrType => [.star]
  | sliceType | arrayType | bracketTree => [.lsqb]
  | neverType => [.bang]
  | inferType => [.underscore]
  | fnPtrType => [.kwFor, .kwUnsafe, .kwExtern, .kwFn]
  | pathSegment | turbofishSegment => pathWords
  | constArg => .minus :: .lbrace :: TokenClass.literal.kinds
  | bareFnArg => attrStarters ++ typeStarters

end Rule

/-- The kinds of tokens that a symbol can start with. -/
def Symbol.kinds : Symbol TokenClass Rule → List Kind
  | .tok c => c.kinds
  | .rule r => r.starters

/-- The kinds of tokens that what is left to read can go on with. -/
def onwards (k : List Syn) : List Kind := (stepsRest k).flatMap fun (s, _) => s.kinds

theorem TokenClass.mem_kinds {c : TokenClass} {k : Kind} : k ∈ c.kinds ↔ c.has k := by
  simp [kinds, Kind.mem_all]

theorem Rule.onwards_subset_starters (r : Rule) : onwards [ruleBody r] ⊆ r.starters := by
  have hall : ∀ r ∈ Rule.all, ∀ k ∈ onwards [ruleBody r], k ∈ r.starters := by decide +kernel
  exact fun k hk => hall r (rust_listed r) k hk

theorem mem_onwards {k m : List Syn} {s : Symbol TokenClass Rule} {x : Kind}
    (hs : (s, m) ∈ stepsRest k) (hx : x ∈ s.kinds) : x ∈ onwards k :=
  List.mem_flatMap.2 ⟨_, hs, hx⟩

/-- A tree of a rule has leaves. -/
theorem Parses.exists_leaf {r : Rule} {cs : List Syntax} (h : Parses rust [ruleBody r] cs) :
    ∃ t ts, leavesOf cs = t :: ts :=
  List.exists_cons_of_ne_nil (h.reads.ne_nil_of_body rust_solid)

theorem Symbol.HasTree.exists_leaf {s : Symbol TokenClass Rule} {c : Syntax} (h : s.HasTree rust c) :
    ∃ t ts, c.leaves = t :: ts := by
  cases s with
  | tok c =>
    obtain ⟨u, rfl, -⟩ := h
    exact ⟨u, [], rfl⟩
  | rule r =>
    obtain ⟨cs, rfl, hcs⟩ := h
    exact hcs.exists_leaf

/-- The first leaf of what is read is of a kind that the reading can go on with. -/
theorem Parses.kind_mem_onwards {k : List Syn} {ps : List Syntax} (h : Parses rust k ps) :
    ∀ t ∈ (leavesOf ps).head?, t.kind ∈ onwards k := by
  induction h with
  | done _ => simp [leavesOf]
  | leaf hs hc _ _ =>
    rintro t ht
    obtain rfl := Option.some.inj ht
    exact mem_onwards hs (TokenClass.mem_kinds.2 hc)
  | @node k m r cs ps hs hcs _ ih _ =>
    intro t ht
    obtain ⟨u, us, hus⟩ := hcs.exists_leaf
    rw [leavesOf, Tree.leaves, hus] at ht
    obtain rfl := Option.some.inj ht
    exact mem_onwards hs (r.onwards_subset_starters (ih u (by rw [hus]; rfl)))

/-! ### What must not follow a tree -/

/-- The kinds of tokens that a whole rule could still read, or that never stand behind one. -/
def Rule.halts : Rule → List Kind
  | macroMember | foreignMember => [.semi]
  | fnAbi => [.string, .rawString]
  | fnParam => .lpar :: .lsqb :: .lbrace :: .colon :: TokenClass.plain.kinds
  | constInit =>
    .lpar :: .lsqb :: .lbrace :: .comma :: .colon :: .pound :: TokenClass.plain.kinds
  | typeBounds | typePredicate => boundStarters
  | typeDef => [.kwWhere]
  | plainPath | pathType | qpathType => [.dcolon]
  | visibility => [.lpar]
  | lifetimeParam => [.colon, .lifetime]
  | lifetimeBounds => [.plus, .lifetime]
  | lifetimePredicate => [.lifetime]
  | typeParam => .colon :: .equal :: boundStarters
  | constParam => [.equal]
  | bounds => .plus :: boundStarters
  | whereClause => .comma :: .lifetime :: typeStarters
  | type => [.plus]
  | fnPtrType | parenArgs => [.arrow]
  | pathSegment => [.lt, .lpar]
  | typeArg => [.equal, .colon]
  | bareFnArg => [.colon]
  | _ => []

/-- The kinds of tokens that must not follow a rule with these parts. A `!` behind a type that is
a path makes it a macro. -/
def stops : Rule → List Syntax → List Kind
  | .typeNoBounds, [.node .pathType _] => [.bang]
  | r, _ => r.halts

mutual

/-- The kinds of tokens that must not follow a tree. -/
def bars : Syntax → List Kind
  | .leaf _ => []
  | .node r cs => stops r cs ++ barsLast cs

/-- The kinds of tokens that must not follow the last of some trees. -/
def barsLast : List Syntax → List Kind
  | [] => []
  | c :: cs => if cs.isEmpty then bars c else barsLast cs

end

namespace Rule

/-- What must not follow a type that ends in a path. -/
def openEnds : List Kind := [.lpar, .lt, .arrow, .dcolon, .bang]

/-- The kinds of tokens that must not follow some tree of a rule. -/
def limits : Rule → List Kind
  | macroMember | foreignMember => [.semi]
  | fnAbi => [.string, .rawString]
  | fnParam => .lpar :: .lsqb :: .lbrace :: .colon :: TokenClass.plain.kinds
  | constInit =>
    .lpar :: .lsqb :: .lbrace :: .comma :: .colon :: .pound :: TokenClass.plain.kinds
  | typeDef | whereClause =>
    .kwWhere :: .comma :: .plus :: .arrow :: .qmark :: .lifetime :: typeStarters
  | plainPath | visScope => [.dcolon]
  | visibility => [.lpar]
  | lifetimeBounds | lifetimePredicate => [.plus, .lifetime]
  | lifetimeParam => [.colon, .plus, .lifetime]
  | genericParam | typeParam | constParam =>
    .colon :: .equal :: .plus :: boundStarters ++ openEnds
  | traitTarget | inherentTarget | typeBounds | typePredicate | bounds | implType | dynType | type |
    bindingArg | constraintArg => .plus :: boundStarters ++ openEnds
  | typeArg | bareFnArg => .equal :: .colon :: .plus :: boundStarters ++ openEnds
  | constValue | traitBound | typeNoBounds | implOneType | dynOneType | pathType | qpathType |
    refType | ptrType | fnPtrType | pathSegment | parenArgs => openEnds
  | _ => []

end Rule

theorem stops_subset_limits (r : Rule) (cs : List Syntax) : stops r cs ⊆ r.limits := by
  have hall : ∀ r ∈ Rule.all, ∀ k ∈ r.halts, k ∈ r.limits := by decide
  unfold stops
  split
  · decide
  · exact fun k hk => hall _ (rust_listed _) k hk

/-- The kinds of tokens that must not follow some tree of a symbol. -/
def Symbol.limits : Symbol TokenClass Rule → List Kind
  | .tok _ => []
  | .rule r => r.limits

theorem limits_subset_of_last {r a : Rule} {k m : List Syn} (hk : k ∈ (ruleBody r).rests)
    (hs : (.rule a, m) ∈ stepsRest k) (hm : nullableRest m) : a.limits ⊆ r.limits := by
  have hall : ∀ r ∈ Rule.all, ∀ k ∈ (ruleBody r).rests, ∀ p ∈ stepsRest k, nullableRest p.2 →
      ∀ x ∈ p.1.limits, x ∈ r.limits := by decide +kernel
  exact hall r (rust_listed r) k hk _ hs hm

/-- Places where the grammar alone does not keep a tree from being followed by what it bars. -/
def isRisky (r : Rule) (x : Kind) : Bool :=
  (r = .pathType || r = .qpathType) && x = .dcolon || r = .macroType && x = .bang

theorem isRisky_of_mem_limits {r : Rule} {s : Symbol TokenClass Rule} {k m : List Syn} {x : Kind}
    (hk : k ∈ (ruleBody r).rests) (hs : (s, m) ∈ stepsRest k) (hx : x ∈ s.limits)
    (hon : x ∈ onwards m) : isRisky r x := by
  have hall : ∀ r ∈ Rule.all, ∀ k ∈ (ruleBody r).rests, ∀ p ∈ stepsRest k,
      ∀ x ∈ p.1.limits, x ∈ onwards p.2 → isRisky r x := by decide +kernel
  exact hall r (rust_listed r) k hk _ hs x hx hon

mutual

theorem bars_subset_limits : ∀ {s : Symbol TokenClass Rule} {c : Syntax}, s.HasTree rust c →
    bars c ⊆ s.limits
  | _, .leaf t, _ => by simp [bars]
  | .tok _, .node a cs, h => by
    obtain ⟨u, hu, -⟩ := h
    simp at hu
  | .rule r, .node a cs, h => by
    obtain ⟨cs', hcs, hps⟩ := h
    obtain ⟨rfl, rfl⟩ : a = r ∧ cs = cs' := by simpa using hcs
    rw [bars]
    exact List.append_subset.2 ⟨stops_subset_limits a cs,
      barsLast_subset_limits (List.mem_cons_self ..) hps⟩

theorem barsLast_subset_limits : ∀ {r : Rule} {k : List Syn} {ps : List Syntax},
    k ∈ (ruleBody r).rests → Parses rust k ps → barsLast ps ⊆ r.limits
  | r, k, [], _, _ => by simp [barsLast]
  | r, k, c :: ps, hk, h => by
    obtain ⟨s, m, hs, hc, hps⟩ := parses_cons_iff.1 h
    rw [barsLast]
    split
    · next hnil =>
      obtain rfl := List.isEmpty_iff.1 hnil
      cases s with
      | tok t =>
        obtain ⟨u, rfl, -⟩ := hc
        simp [bars]
      | rule a =>
        exact List.Subset.trans (bars_subset_limits hc)
          (limits_subset_of_last hk hs (parses_nil_iff.1 hps))
    · exact barsLast_subset_limits (Expr.mem_rests_of_mem_stepsRest hk hs) hps

end

/-! ### Neat trees -/

/-- The parts do not spell out a list of one bound where a single bound could stand. -/
def Spare : Rule → List Syntax → Prop
  | .type, [.node .implType [_, .node .bounds [.node .traitBound _]]] => False
  | .type, [.node .dynType [_, .node .bounds [_]]] => False
  | _, _ => True

mutual

/-- No tree in this one is followed by what it bars, and no single bound is read as a list. -/
def Neat : Syntax → Prop
  | .leaf _ => True
  | .node r cs => Spare r cs ∧ NeatAll cs

/-- None of some trees is followed by what it bars, nor any tree in them. -/
def NeatAll : List Syntax → Prop
  | [] => True
  | c :: cs => Neat c ∧ (∀ t ∈ (leavesOf cs).head?, t.kind ∉ bars c) ∧ NeatAll cs

end

/-- Parts are neat if each of them is and none is followed by what it bars at a risky place. -/
theorem neatAll_of_parses {r : Rule} : ∀ {k : List Syn} {ps : List Syntax},
    k ∈ (ruleBody r).rests → Parses rust k ps → (∀ c ∈ ps, Neat c) →
    (∀ xs c ys, ps = xs ++ c :: ys → ∀ t ∈ (leavesOf ys).head?, isRisky r t.kind →
      t.kind ∉ bars c) → NeatAll ps
  | _, [], _, _, _, _ => trivial
  | k, c :: ps, hk, h, hneat, hsafe => by
    obtain ⟨s, m, hs, hc, hps⟩ := parses_cons_iff.1 h
    refine ⟨hneat c (List.mem_cons_self ..), fun t ht hbar => ?_,
      neatAll_of_parses (Expr.mem_rests_of_mem_stepsRest hk hs) hps
        (fun d hd => hneat d (List.mem_cons_of_mem c hd))
        fun xs d ys heq => hsafe (c :: xs) d ys (by rw [heq, List.cons_append])⟩
    exact hsafe [] c ps rfl t ht (isRisky_of_mem_limits hk hs (bars_subset_limits hc hbar)
      (hps.kind_mem_onwards t ht)) hbar

/-- The rules where the grammar alone keeps trees from being followed by what they bar. -/
theorem neat_of_calm {r : Rule} (hr : r ≠ .pathType ∧ r ≠ .qpathType ∧ r ≠ .macroType)
    {cs : List Syntax} (h : Parses rust [ruleBody r] cs) (hspare : Spare r cs)
    (hneat : ∀ c ∈ cs, Neat c) : Neat (.node r cs) :=
  ⟨hspare, neatAll_of_parses (List.mem_cons_self ..) h hneat fun _ _ _ _ _ _ hrisky => by
    simp [isRisky, hr] at hrisky⟩

end Grammar

end TraitLift
