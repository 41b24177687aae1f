import Mathlib.Tactic
import TraitLift.Proofs.Print.Type

/-!
Types are written as they are laid out: the text of a type is that of the bricks of its tree, if the
tree has no optional tokens (`chars_wall`).
-/

namespace TraitLift

open TraitLift.Grammar

namespace Reading

open Parts

variable {source : List Char} {cs : List Syntax}

/-! ### Arguments -/

theorem yields_genericArg : Yields source Meaning.arg? GenericArg.doc Syn.genericArg := by
  rintro _ (⟨es, rfl, -⟩ | ⟨es, rfl, -⟩ | ⟨es, rfl, -⟩ | ⟨es, rfl, -⟩ | ⟨es, rfl, -⟩) <;>
    exact ⟨_, es, _, rfl, rfl, rfl⟩

theorem chars_angleArgs (h : Grammar.Covers rust (terseBody .angleArgs) cs)
    (hkids : Written source cs) (hlex : Spelled source (leavesOf cs)) :
    (ruleMeaning source .angleArgs (cs.map (phrase source))).doc.chars =
      textOf source (wallOf .angleArgs cs) := by
  obtain ⟨_, _, rfl, ⟨l, rfl, hl⟩, us, _, rfl, hus, g, rfl, hg⟩ := h
  obtain ⟨_, _, _, _, rfl⟩ := hlex.leaf "<" hl (by simp) (by decide)
  obtain ⟨_, _, _, _, rfl⟩ := hlex.leaf ">" hg (by simp) (by decide)
  refine chars_eq (m := .args (.angle (pick Meaning.arg? (us.map (phrase source))) false)) ?_ ?_
  · refine congrArg (fun as => Meaning.args (.angle as false)) (show pick Meaning.arg? _ = _ from ?_)
    simp [pick_append, pick_leaf (f := Meaning.arg?) (fun _ => rfl)]
  · rcases hus with hus | rfl
    · obtain ⟨-, hlist⟩ := textOf_list (r := .angleArgs) (by decide) (w := ", ") (by decide)
        (fun _ => rfl) yields_genericArg hus hkids.of_append.2.of_append.1 hlex.of_append.2.of_append.1
      simp [Meaning.doc, GenericArgs.doc, argDocs_eq_map, hlist, wallOf, seat, parted, spaced, Brick.text]
    · simp [Meaning.doc, GenericArgs.doc, argDocs, Doc.sepBy, wallOf, seat, parted, spaced, Brick.text]

theorem chars_bindingArg (h : Grammar.Covers rust (terseBody .bindingArg) cs)
    (hkids : Written source cs) (hlex : Spelled source (leavesOf cs)) :
    (ruleMeaning source .bindingArg (cs.map (phrase source))).doc.chars =
      textOf source (wallOf .bindingArg cs) := by
  obtain ⟨_, _, rfl, ⟨n, rfl, hn⟩, as, _, rfl, has, _, _, rfl, ⟨e, rfl, he⟩, es, rfl, -⟩ := h
  obtain ⟨ts, t, hp, ht⟩ := hkids.type (r := .type) (by decide) (e := es) (by simp)
  obtain ⟨s, _, _, _, _, rfl, -⟩ := hlex.word hn (by simp)
  obtain ⟨_, _, _, _, rfl⟩ := hlex.leaf "=" he (by simp) (by decide)
  rcases has with ⟨ds, rfl, -⟩ | rfl
  · obtain ⟨ts', hp', ht'⟩ := hkids.node (a := .angleArgs) (e := ds)
      (m := .args (.angle (pick Meaning.arg? (ds.map (phrase source))) false)) (by simp) rfl
    refine chars_eq (m := .arg (.binding s
      (some (.angle (pick Meaning.arg? (ds.map (phrase source))) false)) t)) ?_ ?_
    · simp only [List.singleton_append, List.map_cons, List.map_nil, hp, hp']
      rfl
    · rw [Meaning.doc] at ht'
      simp [Meaning.doc, GenericArg.doc, argsDoc, ht, ht', wallOf, seat, parted, spaced, margin,
        Brick.text, Brick.blank]
  · refine chars_eq (m := .arg (.binding s none t)) ?_ ?_
    · simp only [List.singleton_append, List.nil_append, List.map_cons, List.map_nil, hp]
      rfl
    · simp [Meaning.doc, GenericArg.doc, argsDoc, ht, wallOf, seat, parted, spaced, margin, Brick.text,
        Brick.blank]

theorem chars_constraintArg (h : Grammar.Covers rust (terseBody .constraintArg) cs)
    (hkids : Written source cs) (hlex : Spelled source (leavesOf cs)) :
    (ruleMeaning source .constraintArg (cs.map (phrase source))).doc.chars =
      textOf source (wallOf .constraintArg cs) := by
  obtain ⟨_, _, rfl, ⟨n, rfl, hn⟩, as, _, rfl, has, _, _, rfl, ⟨c, rfl, hc⟩, es, rfl, -⟩ := h
  obtain ⟨ts, hp, ht⟩ := hkids.node (a := .bounds) (e := es)
    (m := .bounds (eachBound (es.map (phrase source)))) (by simp) rfl
  obtain ⟨s, _, _, _, _, rfl, -⟩ := hlex.word hn (by simp)
  obtain ⟨_, _, _, _, rfl⟩ := hlex.leaf ":" hc (by simp) (by decide)
  simp [Meaning.doc, boundsDoc, margin] at ht
  rcases has with ⟨ds, rfl, -⟩ | rfl
  · obtain ⟨ts', hp', ht'⟩ := hkids.node (a := .angleArgs) (e := ds)
      (m := .args (.angle (pick Meaning.arg? (ds.map (phrase source))) false)) (by simp) rfl
    refine chars_eq (m := .arg (.constraint s
      (some (.angle (pick Meaning.arg? (ds.map (phrase source))) false))
      (eachBound (es.map (phrase source))))) ?_ ?_
    · simp only [List.singleton_append, List.map_cons, List.map_nil, hp, hp']
      rfl
    · rw [Meaning.doc] at ht'
      simp [Meaning.doc, GenericArg.doc, argsDoc, ht, ht', wallOf, seat, parted, spaced, margin,
        Brick.text, Brick.blank]
  · refine chars_eq (m := .arg (.constraint s none (eachBound (es.map (phrase source))))) ?_ ?_
    · simp only [List.singleton_append, List.nil_append, List.map_cons, List.map_nil, hp]
      rfl
    · simp [Meaning.doc, GenericArg.doc, argsDoc, ht, wallOf, seat, parted, spaced, margin, Brick.text,
        Brick.blank]

theorem chars_bareFnArg (h : Grammar.Covers rust (terseBody .bareFnArg) cs)
    (hkids : Written source cs) (hlex : Spelled source (leavesOf cs)) :
    (ruleMeaning source .bareFnArg (cs.map (phrase source))).doc.chars =
      textOf source (wallOf .bareFnArg cs) := by
  obtain ⟨ns, _, rfl, hns, es, rfl, -⟩ := h
  obtain ⟨ts, t, hp, ht⟩ := hkids.type (r := .type) (by decide) (e := es) (by simp)
  rcases hns with ⟨_, _, rfl, hn, c, rfl, hc⟩ | rfl
  · obtain ⟨_, _, _, _, rfl⟩ := hlex.leaf ":" hc (by simp) (by decide)
    rcases hn with ⟨n, rfl, hn⟩ | ⟨n, rfl, hn⟩
    all_goals
      obtain ⟨s, _, _, _, _, rfl, -⟩ := hlex.word hn (by simp)
      refine chars_eq (m := .bareArg ⟨some s, t⟩) ?_ ?_
      · simp only [List.cons_append, List.nil_append, List.map_cons, List.map_nil, hp]
        rfl
      · simp [Meaning.doc, BareArg.doc, ht, wallOf, seat, parted, spaced, margin, Brick.text,
          Brick.blank]
  · refine chars_eq (m := .bareArg ⟨none, t⟩) ?_ ?_
    · simp only [List.nil_append, List.map_cons, List.map_nil, hp]
      rfl
    · simp [Meaning.doc, BareArg.doc, ht, wallOf, margin]

/-! ### Functions -/

theorem chars_parenArgs (h : Grammar.Covers rust (terseBody .parenArgs) cs)
    (hkids : Written source cs) (hlex : Spelled source (leavesOf cs)) :
    (ruleMeaning source .parenArgs (cs.map (phrase source))).doc.chars =
      textOf source (wallOf .parenArgs cs) := by
  obtain ⟨_, _, rfl, ⟨l, rfl, hl⟩, us, _, rfl, hus, _, os, rfl, ⟨g, rfl, hg⟩, hos⟩ := h
  obtain ⟨_, _, _, _, rfl⟩ := hlex.leaf "(" hl (by simp) (by decide)
  obtain ⟨_, _, _, _, rfl⟩ := hlex.leaf ")" hg (by simp) (by decide)
  obtain ⟨o, hO⟩ := exists_returns (r := .parenArgs)
    (by decide) hos hkids.of_append.2.of_append.2.of_append.2
    hlex.of_append.2.of_append.2.of_append.2
  refine chars_eq (m := .args (.paren (pick Meaning.type? (us.map (phrase source))) o)) ?_ ?_
  · have hfront : ∀ a b : Token, a.kind = .lpar → b.kind = .rpar →
        ∀ p ∈ phrase source (.leaf a) :: us.map (phrase source) ++ [phrase source (.leaf b)],
          p.isToken .arrow = false := by
      intro a b ha hb p hp
      simp only [List.cons_append, List.mem_cons, List.mem_append, List.not_mem_nil, or_false] at hp
      rcases hp with rfl | hp | rfl
      · simp [isToken_leaf, Token.is, ha]
      · exact isToken_of_covers source hus (by decide) p hp
      · simp [isToken_leaf, Token.is, hb]
    have hparts : ∀ a b : Token,
      ([Grammar.Tree.leaf a] ++ (us ++ ([Grammar.Tree.leaf b] ++ os))).map (phrase source) =
        (phrase source (.leaf a) :: us.map (phrase source) ++ [phrase source (.leaf b)]) ++
          os.map (phrase source) := by simp
    have hafter := hO.after (f := Meaning.type?)
    rw [hparts]
    refine congrArg Meaning.args ?_
    rw [parenArgs, before_append (hfront _ _ rfl rfl), after_append (hfront _ _ rfl rfl), hO.before]
    change GenericArgs.paren (pick Meaning.type? _) (pick Meaning.type? _).head? = _
    rw [hafter]
    cases o <;> simp [pick_append, pick_leaf (f := Meaning.type?) (fun _ => rfl), Meaning.type?]
  · rcases hus with hus | rfl
    · obtain ⟨-, hlist⟩ := textOf_list (r := .parenArgs) (by decide) (w := ", ") (by decide)
        (fun _ => rfl) (yields_type source) hus hkids.of_append.2.of_append.1 hlex.of_append.2.of_append.1
      simp [Meaning.doc, GenericArgs.doc, typeDocs_eq_map, hlist, hO.text, wallOf, seat, parted, spaced,
        Brick.text]
    · simp [Meaning.doc, GenericArgs.doc, typeDocs, Doc.sepBy, hO.text, wallOf, seat, parted, spaced,
        Brick.text]

/-- The parameters of a function pointer. -/
structure Takes (source : List Char) (as : List Syntax) (is : List BareArg) (v : Bool) : Prop where
  has : ∀ k, k ≠ .comma → has k (as.map (phrase source)) = (.ellipsis == k && v)
  pick : ∀ {β : Type} {f : Meaning → Option β}, (∀ t, f (.token t) = none) →
    pick f (as.map (phrase source)) = is.filterMap fun a => f (.bareArg a)
  text : ∀ ds, textOf source (wallOf .fnPtrType (as ++ ds)) =
    (Doc.sepBy ", " (bareArgDocs is ++ if v then [Doc.str "..."] else [])).chars ++
      textOf source (wallOf .fnPtrType ds)

theorem yields_bareFnArg :
    Yields source Meaning.bareArg? BareArg.doc (Syn.use .bareFnArg) := by
  rintro _ ⟨es, rfl, -⟩
  exact ⟨_, es, _, rfl, rfl, rfl⟩

/-- The parameters of a function pointer, as its body without optional tokens lists them. -/
def bareArgs : Syn :=
  Expr.any [Expr.all [sepList .comma (Syn.use .bareFnArg),
    Expr.opt (Expr.all [Syn.k .comma, Syn.k .ellipsis])],
    Syn.k .ellipsis]

theorem exists_takes {as : List Syntax} (h : Grammar.Covers rust (Expr.opt bareArgs) as)
    (hkids : Written source as) (hlex : Spelled source (leavesOf as)) :
    ∃ is v, Takes source as is v := by
  rcases h with (⟨us, vs, rfl, hus, hvs⟩ | ⟨t, rfl, ht⟩) | rfl
  · obtain ⟨hne, hlist⟩ := textOf_list (r := .fnPtrType) (by decide) (w := ", ") (by decide)
      (fun _ => rfl) yields_bareFnArg hus hkids.of_append.1 hlex.of_append.1
    have hhas : ∀ k, k ≠ .comma → Parts.has k (us.map (phrase source)) = false := by
      intro k hk
      have hutters : utters k (sepList .comma (Syn.use .bareFnArg)) = false := by
        simp [sepList, Expr.all, Syn.k, Syn.use, utters, TokenClass.has, hk.symm]
      simpa [Parts.has] using isToken_of_covers source hus hutters
    have hpick : ∀ {β : Type} {f : Meaning → Option β}, (∀ t, f (.token t) = none) →
        Parts.pick f (us.map (phrase source)) =
          (Parts.pick Meaning.bareArg? (us.map (phrase source))).filterMap fun a => f (.bareArg a) := by
      intro β f hf
      simp only [Parts.pick, List.filterMap_filterMap]
      refine List.filterMap_congr fun p hp => ?_
      obtain ⟨c, hc, rfl⟩ := List.mem_map.1 hp
      cases c with
      | leaf t => exact hf t
      | node a es =>
        have ha := mentions_of_covers hus hc
        obtain rfl : a = .bareFnArg := by simpa [sepList, Expr.all, Syn.k, Syn.use, mentions] using ha
        rw [phrase_node]
        rfl
    rcases hvs with ⟨_, _, rfl, ⟨c, rfl, hc⟩, e, rfl, he⟩ | rfl
    · obtain ⟨_, _, _, _, rfl⟩ := hlex.leaf "," hc (by simp) (by decide)
      obtain ⟨_, _, _, _, rfl⟩ := hlex.leaf "..." he (by simp) (by decide)
      refine ⟨Parts.pick Meaning.bareArg? (us.map (phrase source)), true, fun k hk => ?_,
        fun {β f} hf => ?_, fun ds => ?_⟩
      · rw [List.map_append, has_append, hhas k hk]
        simp [Parts.has, isToken_leaf, Token.is, hk.symm]
      · rw [List.map_append, pick_append, hpick hf]
        simp [pick_leaf hf]
      · rw [List.append_assoc, hlist, bareArgDocs_eq_map, if_pos rfl,
          Doc.chars_sepBy_append _ (by simpa using hne)]
        simp [wallOf, seat, parted, spaced, closes, Brick.text, Brick.blank]
    · refine ⟨Parts.pick Meaning.bareArg? (us.map (phrase source)), false, fun k hk => ?_,
        fun {β f} hf => ?_, fun ds => ?_⟩
      · rw [List.append_nil, hhas k hk, Bool.and_false]
      · rw [List.append_nil, hpick hf]
      · simp [hlist, bareArgDocs_eq_map]
  · obtain ⟨_, _, _, _, rfl⟩ := hlex.leaf "..." ht (by simp) (by decide)
    refine ⟨[], true, fun k hk => ?_, fun hf => ?_, fun ds => ?_⟩
    · simp [Parts.has, isToken_leaf, Token.is]
    · exact pick_leaf hf _ []
    · simp [wallOf, seat, parted, spaced, Brick.text, bareArgDocs, Doc.sepBy]
  · exact ⟨[], false, fun k hk => by simp [Parts.has], fun _ => rfl, fun ds => rfl⟩

/-- What a function pointer means, from what its parts give. -/
theorem fnPtr_eq {ps : Parts} {x : Option (List LifetimeParam)} {y : Option String}
    {is : List BareArg} {o : Option TypeExpr}
    (h : ∀ {β : Type} {f : Meaning → Option β}, (∀ t, f (.token t) = none) →
      pick f ps = (x.bind fun ls => f (.binder ls)).toList ++ ((y.bind fun s => f (.abi s)).toList ++
        ((is.filterMap fun a => f (.bareArg a)) ++ (o.bind fun t => f (.type t)).toList))) :
    fnPtr ps = .fnPtr (x.getD []) (has .kwUnsafe ps) y is (has .ellipsis ps) o := by
  have hbinder := h (f := Meaning.binder?) fun _ => rfl
  have habi := h (f := Meaning.abi?) fun _ => rfl
  have hargs := h (f := Meaning.bareArg?) fun _ => rfl
  have htype := h (f := Meaning.type?) fun _ => rfl
  change TypeExpr.fnPtr ((pick Meaning.binder? ps).head?.getD []) _ (pick Meaning.abi? ps).head?
    (pick Meaning.bareArg? ps) _ (pick Meaning.type? ps).head? = _
  rw [hbinder, habi, hargs, htype]
  cases x <;> cases y <;> cases o <;>
    simp [Meaning.binder?, Meaning.abi?, Meaning.bareArg?, Meaning.type?]

theorem chars_fnPtrType (h : Grammar.Covers rust (terseBody .fnPtrType) cs)
    (hkids : Written source cs) (hlex : Spelled source (leavesOf cs)) :
    (ruleMeaning source .fnPtrType (cs.map (phrase source))).doc.chars =
      textOf source (wallOf .fnPtrType cs) := by
  obtain ⟨bs, _, rfl, hbs, us, _, rfl, hus, as, _, rfl, has, _, _, rfl, ⟨f, rfl, hf⟩, _, _, rfl,
    ⟨l, rfl, hl⟩, is, _, rfl, his, _, os, rfl, ⟨g, rfl, hg⟩, hos⟩ := h
  obtain ⟨x, hB⟩ := exists_optional (r := .fnPtrType) (w := Meaning.binder) (fun _ => ⟨_, rfl⟩) hbs
    hkids.of_append.1
  obtain ⟨b, hU⟩ := exists_flags (r := .fnPtrType) (w := "unsafe") (s := "unsafe ") hus
    hlex.of_append.2.of_append.1 (by decide) fun t cs ht hw => by
      simp [wallOf, seat, ht, hw, parted, spaced, Brick.text, Brick.blank]
  obtain ⟨y, hA⟩ := exists_optional (r := .fnPtrType) (w := Meaning.abi) (fun _ => ⟨_, rfl⟩) has
    hkids.of_append.2.of_append.2.of_append.1
  obtain ⟨js, v, hI⟩ := exists_takes his
    hkids.of_append.2.of_append.2.of_append.2.of_append.2.of_append.2.of_append.1
    hlex.of_append.2.of_append.2.of_append.2.of_append.2.of_append.2.of_append.1
  obtain ⟨o, hO⟩ := exists_returns (r := .fnPtrType) (by decide) hos
    hkids.of_append.2.of_append.2.of_append.2.of_append.2.of_append.2.of_append.2.of_append.2
    hlex.of_append.2.of_append.2.of_append.2.of_append.2.of_append.2.of_append.2.of_append.2
  obtain ⟨_, _, _, _, rfl⟩ := hlex.leaf "fn" hf (by simp) (by decide)
  obtain ⟨_, _, _, _, rfl⟩ := hlex.leaf "(" hl (by simp) (by decide)
  obtain ⟨_, _, _, _, rfl⟩ := hlex.leaf ")" hg (by simp) (by decide)
  refine chars_eq (m := .type (.fnPtr (x.getD []) b y js v o)) (congrArg Meaning.type ?_) ?_
  · have hb : ∀ k, Parts.has k (bs.map (phrase source)) = false := fun k => by simpa using hB.has k []
    have hu : Parts.has .kwUnsafe (us.map (phrase source)) = b := by simpa using hU.has []
    have hdots := has_of_covers source (k := .ellipsis) hus (by decide)
    have ha : ∀ k, Parts.has k (as.map (phrase source)) = false := fun k => by simpa using hA.has k []
    refine (fnPtr_eq (x := x) (y := y) (o := o) ?_).trans
      (congrArg₂ (fun b v => TypeExpr.fnPtr (x.getD []) b y js v o) ?_ ?_)
    rotate_left
    · simp only [List.map_append, List.map_cons, List.map_nil, has_append, has_leaf, has_nil, hb, hu, ha,
        hI.has .kwUnsafe (by decide), hO.has .kwUnsafe (by decide)]
      cases b <;> rfl
    · simp only [List.map_append, List.map_cons, List.map_nil, has_append, has_leaf, has_nil, hb, hdots, ha,
        hI.has .ellipsis (by decide), hO.has .ellipsis (by decide)]
      cases v <;> rfl
    · intro β f hf
      simp only [List.map_append, List.map_cons, List.singleton_append]
      rw [hB.pick, hU.pick hf, hA.pick, pick_leaf hf, pick_leaf hf, pick_append, hI.pick hf, pick_leaf hf,
        hO.pick hf]
  · simp [Meaning.doc, TypeExpr.doc, hB.text, chars_binderDoc, hU.text, hA.text, chars_abiDoc, hI.text,
      hO.text, wallOf, seat, parted, spaced, Brick.text]

/-! ### Parts that are kept as text -/

theorem chars_constArg (cs : List Syntax) :
    (ruleMeaning source .constArg (cs.map (phrase source))).doc.chars =
      textOf source (wall (.node .constArg cs)) := by
  refine chars_eq (m := .arg (.const (sliceOf source (leavesOf cs)))) ?_ ?_
  · rw [ruleMeaning, Parts.text, tokens_phrases]
  · simp [Meaning.doc, GenericArg.doc, wall, Brick.text]

theorem chars_arrayType (h : Grammar.Covers rust (terseBody .arrayType) cs)
    (hkids : ∀ es, .node .type es ∈ cs → Written source [.node .type es])
      (hlex : Spelled source (leavesOf cs)) :
    (ruleMeaning source .arrayType (cs.map (phrase source))).doc.chars =
      textOf source (wallOf .arrayType cs) := by
  obtain ⟨_, _, rfl, ⟨l, rfl, hl⟩, _, _, rfl, ⟨es, rfl, -⟩, _, _, rfl,
    ⟨t, rfl, ht⟩, ms, _, rfl, -, g, rfl, hg⟩ := h
  obtain ⟨ts, ty, hp, hty⟩ := (hkids es (by simp)).type (r := .type) (by decide) (e := es) (by simp)
  obtain ⟨_, _, _, _, rfl⟩ := hlex.leaf "[" hl (by simp) (by decide)
  obtain ⟨_, _, _, _, rfl⟩ := hlex.leaf ";" ht (by simp) (by decide)
  obtain ⟨_, _, _, _, rfl⟩ := hlex.leaf "]" hg (by simp) (by decide)
  simp only [List.cons_append, List.nil_append]
  refine chars_eq (m := .type (.array ty (sliceOf source (leavesOf ms))))
    (congrArg₂ (fun t n => Meaning.type (.array t n)) ?_ ?_) ?_
  · simp only [List.map_cons, hp]
    rfl
  · rw [arrayLength, after_semi rfl rfl, List.map_append, List.map_singleton, List.dropLast_concat,
      Parts.text, tokens_phrases]
  · have hleaves : ∀ t, leavesOf (ms ++ [Grammar.Tree.leaf t]) = leavesOf ms ++ [t] := fun t => by
      simp [leavesOf_append, leavesOf, Grammar.Tree.leaves]
    rw [wallOf_array rfl rfl]
    simp [Meaning.doc, TypeExpr.doc, hty, arrayTail, hleaves, Brick.text, Brick.blank]

theorem chars_macroType (h : Grammar.Covers rust (ruleBody .macroType) cs)
    (hlex : Spelled source (leavesOf cs)) :
    (ruleMeaning source .macroType (cs.map (phrase source))).doc.chars =
      textOf source (wall (.node .macroType cs)) := by
  obtain ⟨_, _, rfl, ⟨ps, rfl, hps⟩, _, _, rfl, ⟨t, rfl, ht⟩, htree⟩ := h
  obtain ⟨_, _, _, _, rfl⟩ := hlex.leaf "!" ht (by simp) (by decide)
  obtain ⟨a, -, c, rfl, es, rfl, -⟩ : ∃ a ∈ [Rule.parenTree, .bracketTree, .braceTree],
    ∃ c, _ = [c] ∧
      (Grammar.Symbol.rule a).HasTree rust c := exists_of_covers_any (by decide) htree
  refine chars_eq (m := .type
    (.macroCall (sliceOf source (leavesOf ps)) (sliceOf source (leavesOf es)))) ?_ ?_
  · simp [ruleMeaning, before, after, isToken_leaf, isToken_node, Token.is, Parts.text, Parts.tokens,
      tokens_phrase, Grammar.Tree.leaves]
  · simp [Meaning.doc, TypeExpr.doc, wall, quotation, Grammar.Tree.leaves, Brick.text]

/-! ### Trees -/

theorem chars_row {r : Rule} (hr : r ∈ rowRules) (h : Parses rust [terseBody r] cs)
    (hkids : Written source cs) (hlex : Spelled source (leavesOf cs)) :
    (ruleMeaning source r (cs.map (phrase source))).doc.chars =
      textOf source (wallOf r cs ++ margin r) := by
  rw [textOf_append]
  have hcovers := parses_iff_covers.1 h
  cases r
  case fnAbi => rw [← textOf_append, chars_fnAbi hcovers hlex]
  case forLifetimes => rw [← textOf_append, chars_forLifetimes hcovers hkids hlex]
  all_goals rw [show textOf source (margin _) = [] by rfl, List.append_nil]
  case lifetimeParam => exact chars_lifetimeParam hcovers hkids hlex
  case lifetimeBounds => exact chars_lifetimeBounds hcovers hlex
  case lifetimeBound => exact chars_token (by decide) hcovers hlex
  case lifetimeArg => exact chars_token (by decide) hcovers hlex
  case neverType => exact chars_token (by decide) hcovers hlex
  case inferType => exact chars_token (by decide) hcovers hlex
  case bounds => exact chars_bounds hcovers hkids hlex
  case traitBound => exact chars_traitBound hcovers hkids hlex
  case parenBound => exact chars_parenBound hcovers hkids hlex
  case type => exact chars_choice (by decide) h hkids
  case typeNoBounds => exact chars_choice (by decide) h hkids
  case typeArg => exact chars_typeArg hcovers hkids
  case implType => exact chars_listType (Or.inl rfl) hcovers hkids hlex
  case dynType => exact chars_listType (Or.inr rfl) hcovers hkids hlex
  case implOneType => exact chars_oneType (List.mem_cons_self ..) hcovers hkids hlex
  case dynOneType => exact chars_oneType (List.mem_cons_of_mem _ (List.mem_cons_self ..)) hcovers hkids hlex
  case pathType => exact chars_pathType hcovers hkids hlex
  case qpathType => exact chars_qpathType hcovers hkids hlex
  case refType => exact chars_refType hcovers hkids hlex
  case ptrType => exact chars_ptrType hcovers hkids hlex
  case sliceType => exact chars_sliceType hcovers hkids hlex
  case tupleType => exact chars_tupleType hcovers hkids hlex
  case parenType => exact chars_parenType hcovers hkids hlex
  case fnPtrType => exact chars_fnPtrType hcovers hkids hlex
  case pathSegment => exact chars_pathSegment hcovers hkids hlex
  case turbofishSegment => exact chars_turbofishSegment hcovers hkids hlex
  case angleArgs => exact chars_angleArgs hcovers hkids hlex
  case parenArgs => exact chars_parenArgs hcovers hkids hlex
  case bindingArg => exact chars_bindingArg hcovers hkids hlex
  case constraintArg => exact chars_constraintArg hcovers hkids hlex
  case bareFnArg => exact chars_bareFnArg hcovers hkids hlex
  all_goals exact absurd hr (by decide)

theorem mentions_typeRules {r : Rule} (hr : r ∈ rowRules) {a : Rule} (ha : mentions a (terseBody r)) :
    a ∈ typeRules := by
  have hall : ∀ r ∈ rowRules, ∀ a ∈ Rule.all, mentions a (terseBody r) → a ∈ typeRules := by
    decide +kernel
  exact hall r hr a (rust_listed a) ha

mutual

/-- A type without optional tokens is written as it is laid out. -/
theorem chars_wall {r : Rule} (hr : r ∈ typeRules) : ∀ {c : Syntax},
    (Grammar.Symbol.rule r).HasTree rust c → Terse c → Spelled source c.leaves →
    (phrase source c).meaning.doc.chars = textOf source (wall c ++ margin r)
  | .leaf _, ⟨_, h, _⟩, _, _ => by simp at h
  | .node a cs, h, hterse, hlex => by
    obtain ⟨ds, heq, hds⟩ := h
    obtain ⟨rfl, rfl⟩ := Grammar.Tree.node.inj heq
    obtain ⟨hparses, hall⟩ := hterse hr
    rw [Grammar.Tree.leaves] at hlex
    rw [phrase_node]
    by_cases hconst : a = .constArg
    · subst hconst
      rw [chars_constArg, show margin .constArg = [] by rfl, List.append_nil]
    by_cases hcall : a = .macroType
    · subst hcall
      rw [chars_macroType (parses_iff_covers.1 hds) hlex, show margin .macroType = [] by rfl,
        List.append_nil]
    have hkids := chars_walls (hall hcall) hlex
    rw [wall_node ⟨hconst, hcall⟩]
    by_cases harray : a = .arrayType
    · subst harray
      rw [show margin .arrayType = [] by rfl, List.append_nil]
      refine chars_arrayType (parses_iff_covers.1 hparses) (fun es hmem b ds hb => ?_) hlex
      obtain ⟨rfl, rfl⟩ := Grammar.Tree.node.inj (List.mem_singleton.1 hb)
      exact hkids _ _ hmem (by decide) (hds.of_node_mem hmem)
    · have hrow := mem_rowRules hr hconst hcall harray
      exact chars_row hrow hparses (fun b es hmem => hkids b es hmem (mentions_typeRules hrow
        (mentions_of_covers (parses_iff_covers.1 hparses) hmem)) (hds.of_node_mem hmem)) hlex

theorem chars_walls : ∀ {ps : List Syntax}, TerseAll ps → Spelled source (leavesOf ps) →
    ∀ q es, .node q es ∈ ps → q ∈ typeRules → Parses rust [ruleBody q] es →
      (phrase source (.node q es)).meaning.doc.chars =
        textOf source (wall (.node q es) ++ margin q)
  | [], _, _, _, _, hmem, _, _ => by simp at hmem
  | d :: ps, hterse, hlex, q, es, hmem, hq, hes => by
    rw [leavesOf] at hlex
    rcases List.mem_cons.1 hmem with heq | hmem
    · rw [heq]
      exact chars_wall hq (heq ▸ ⟨es, rfl, hes⟩) hterse.1 fun t ht => hlex t (List.mem_append_left _ ht)
    · exact chars_walls hterse.2 (fun t ht => hlex t (List.mem_append_right _ ht)) q es hmem hq hes

end

end Reading

end TraitLift
