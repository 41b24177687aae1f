import Mathlib.Tactic
import TraitLift.Proofs.Expand.Extent
import TraitLift.Proofs.Parse.Flaw
import TraitLift.Proofs.Reading.Quote

/-!
A block that is read quotes its source (`parseBlock_quotes`). The tokens between its braces are those of
its inner attributes and of its members, one row behind the other. Each member was read from a tree of its
own, whose rule tells what the member is, and keeps the texts of this tree, each in its place
(`Member.Quotes`); so does the header (`ImplBlock.Quotes`).
-/

namespace TraitLift

open TraitLift.Grammar

/-- The tokens are a brace, some tokens, and the brace that closes the first one. -/
def IsBraced (row : List Token) : Prop :=
  ∃ (o : Token) (inside : List Token) (c : Token),
    row = o :: (inside ++ [c]) ∧ o.kind = .lbrace ∧ c.kind = .rbrace ∧
    ∀ after, group? (row ++ after) = some (row, after)

/-- The member has no body, no value or no definition. -/
def Bodiless : Rule → List Syntax → Prop
  | .methodMember, cs => ∃ fs, kids .fnItem cs = [.node .fnItem fs] ∧ kids .braceTree fs = []
  | .constMember, cs => kids .constInit cs = []
  | .typeMember, cs => kids .typeDef cs = []
  | _, _ => False

/-- `m.Quotes source c`: the member was read from the tree `c`, whose rule tells what it is, and its texts are
those of the tree, each in its place. -/
inductive Member.Quotes (source : List Char) : Member → Syntax → Prop
  /-- The body runs from an opening brace to the one that closes it. -/
  | method {f : Method} {cs fs bs : List Syntax} (attrs : f.attrs = attributesIn source cs)
      (function : kids .fnItem cs = [.node .fnItem fs]) (sig : f.sig.Quotes source fs)
      (block : kids .braceTree fs = [.node .braceTree bs]) (braced : IsBraced (leavesOf bs))
      (body : f.body = sliceOf source (leavesOf bs))
      (braces : ∃ text, f.body.toList = '{' :: (text ++ ['}'])) :
      Quotes source (.method f) (.node .methodMember cs)
  /-- The value is all that stands behind the equals sign. -/
  | constant {c : Constant} {cs vs : List Syntax} {t : Token} (attrs : c.attrs = attributesIn source cs)
      (type_texts : c.ty.excerpts = textsIn source (kids .type cs))
      (init : kids .constInit cs = [.node .constInit (.leaf t :: vs)]) (equal : t.kind = .equal)
      (value : c.value = sliceOf source (leavesOf vs)) : Quotes source (.constant c) (.node .constMember cs)
  | assocType {t : AssociatedType} {cs ds : List Syntax} (attrs : t.attrs = attributesIn source cs)
      (params : List.Forall₂ (GenericParam.Quotes source) t.generics.params (paramsIn cs))
      (bounds : boundExcerpts t.bounds = textsIn source (kids .typeBounds cs))
      (node : kids .typeDef cs = [.node .typeDef ds])
      (definition : t.definition.excerpts = textsIn source (kids .type ds))
      (predicates : predicateExcerpts t.generics.predicates =
        textsIn source (kids .whereClause cs ++ kids .whereClause ds)) :
      Quotes source (.assocType t) (.node .typeMember cs)
  /-- The argument is all between the exclamation mark and the closing semicolon, if there is one. -/
  | macroCall {m : MacroCall} {front ps row tail : List Syntax} {t : Token}
      (attrs : m.attrs = attributesIn source front) (node : kids .plainPath front = [.node .plainPath ps])
      (path : m.path = sliceOf source (leavesOf ps)) (bang : t.kind = .bang)
      (argument : Grammar.Covers rust (Expr.all [Expr.opt (Syn.k .name), Syn.tokenTree]) row)
      (tokens : m.tokens = sliceOf source (leavesOf row))
      (semi : if m.semi then ∃ u, tail = [.leaf u] ∧ u.kind = .semi else tail = []) :
      Quotes source (.macroCall m) (.node .macroMember (front ++ .leaf t :: (row ++ tail)))
  | verbatim {r : Rule} {cs : List Syntax} {loc : Option Loc} (bodiless : Bodiless r cs) :
      Quotes source (.verbatim (sliceOf source (leavesOf cs)) loc) (.node r cs)
  | foreign {cs ds : List Syntax} {loc : Option Loc} (head : kids .foreignHead cs = [.node .foreignHead ds]) :
      Quotes source (.foreign (sliceOf source (leavesOf ds)) (sliceOf source (leavesOf cs)) loc)
        (.node .foreignMember cs)

/-- The parts of what a block is for: the trait, if there is one, and the type. -/
def targetOf (cs : List Syntax) : List Syntax :=
  (kids .inherentTarget cs ++ kids .traitTarget cs).flatMap partsOf

/-- `b.Quotes source header o attrs items c`: the block was read from the parts of a header and from a body
that is made of the brace `o`, the trees `attrs` and `items`, and the brace `c`. The braces match, no token
is in two of the trees, each inner attribute and each member was read from a tree of its own, and the other
texts of the block are those of the header, each in its place. -/
structure ImplBlock.Quotes (source : List Char) (b : ImplBlock) (header : List Syntax) (o : Token)
    (attrs items : List Syntax) (c : Token) : Prop where
  outerAttrs : b.attrs = attributesIn source header
  params : List.Forall₂ (GenericParam.Quotes source) b.generics.params (paramsIn header)
  traitRef : asTraitExcerpts (b.traitRef.map TraitRef.path) =
    textsIn source (kids .pathType (targetOf header))
  selfTy : b.selfTy.excerpts = textsIn source (kids .type (targetOf header))
  predicates : predicateExcerpts b.generics.predicates = textsIn source (kids .whereClause header)
  braced : IsBraced (o :: (leavesOf (attrs ++ items) ++ [c]))
  disjoint : ((attrs ++ items).map Grammar.Tree.leaves).Pairwise List.Disjoint
  innerAttrs : List.Forall₂ (fun a c => Grammar.Covers rust (Syn.use .innerAttr) [c] ∧
    a = ⟨sliceOf source c.leaves, true⟩) b.innerAttrs attrs
  items : List.Forall₂ (Member.Quotes source) b.items items

namespace Reading

open Parts (pick)
open Meaning (as)

variable {source : List Char} {cs us : List Syntax} {e : Syn} {s : Sense}

variable (source) in
/-- What is picked of a sort was read from the trees of its only rule. -/
theorem forall₂_read {r : Rule} (h : Grammar.Covers rust e cs) (hs : Single r s e)
    (hgives : ∀ ps, ∃ b, (ruleMeaning source r ps).as s = some b) :
    List.Forall₂ (fun b c => ∃ ds, c = .node r ds ∧ Grammar.Covers rust (ruleBody r) ds ∧
      (ruleMeaning source r (ds.map (phrase source))).as s = some b) (pick (as s) (cs.map (phrase source)))
      (kids r cs) := by
  refine forall₂_pick (fun c hc hr => as_eq_none h hs.1 hs.2.1 hc hr) fun ds hds => ?_
  obtain ⟨b, hb⟩ := hgives (ds.map (phrase source))
  exact ⟨b, hb, ds, rfl, parses_iff_covers.1 (h.parses.of_node_mem hds), hb⟩

/-- The first part of a sort was read from the one tree of its rule. -/
theorem exists_of_head {r : Rule} {b : s.Value} (h : Grammar.Covers rust e cs) (hs : Single r s e)
    (hgives : ∀ ps, ∃ b, (ruleMeaning source r ps).as s = some b)
    (hb : (pick (as s) (cs.map (phrase source))).head? = some b) :
    ∃ ds, kids r cs = [.node r ds] ∧ Grammar.Covers rust (ruleBody r) ds ∧
      (ruleMeaning source r (ds.map (phrase source))).as s = some b := by
  have hread := forall₂_read source h hs hgives
  rcases pick_cases source h hs.2.2 with hpick | ⟨b', hpick⟩ <;> rw [hpick] at hread hb
  · simp at hb
  · obtain rfl : b' = b := Option.some.inj hb
    obtain ⟨c, rest, ⟨ds, rfl, hds, hmeaning⟩, hrest, hkids⟩ := List.forall₂_cons_left_iff.1 hread
    rw [List.forall₂_nil_left_iff.1 hrest] at hkids
    exact ⟨ds, hkids, hds, hmeaning⟩

/-- If no part of a sort is found, there is no tree of its rule. -/
theorem kids_of_head_none {r : Rule} (h : Grammar.Covers rust e cs) (hs : Single r s e)
    (hgives : ∀ ps, ∃ b, (ruleMeaning source r ps).as s = some b)
    (hnone : (pick (as s) (cs.map (phrase source))).head? = none) : kids r cs = [] := by
  have hread := forall₂_read source h hs hgives
  rw [List.head?_eq_none_iff.1 hnone] at hread
  exact List.forall₂_nil_left_iff.1 hread

variable (source) in
/-- What is read from the one tree of the rule of a sort is found. -/
theorem head_of_kids {r : Rule} (ds : List Syntax) {b : s.Value} (h : Grammar.Covers rust e cs)
    (hs : Single r s e) (hgives : ∀ ps, ∃ b, (ruleMeaning source r ps).as s = some b)
    (hkids : kids r cs = [.node r ds]) (hb : (ruleMeaning source r (ds.map (phrase source))).as s = some b) :
    (pick (as s) (cs.map (phrase source))).head? = some b := by
  have hread := forall₂_read source h hs hgives
  rw [hkids] at hread
  obtain ⟨b', rest, ⟨_, heq, -, hb'⟩, -, hpick⟩ := List.forall₂_cons_right_iff.1 hread
  obtain ⟨-, rfl⟩ := Grammar.Tree.node.inj heq
  rw [hpick, List.head?_cons, ← hb, hb']

/-! ### Members -/

/-- A member without what a block must give it is kept as it is written. -/
theorem quotes_verbatim {r : Rule} (hlacks : Bodiless r cs) :
    (Reading.verbatim source (cs.map (phrase source))).Quotes source (.node r cs) := by
  rw [Reading.verbatim, Parts.text, tokens_phrases]
  exact .verbatim hlacks

theorem quotes_constMember {m : Member} (h : Grammar.Covers rust (ruleBody .constMember) cs)
    (hm : constMember source (cs.map (phrase source)) = .ok m) : m.Quotes source (.node .constMember cs) := by
  obtain ⟨isDefault, -, hm⟩ := bind_eq_ok hm
  split at hm
  · next value hvalue =>
    obtain rfl := Except.ok.inj hm
    obtain ⟨_, hkids, ⟨_, vs, rfl, ⟨t, rfl, ht⟩, hvs⟩, hread⟩ :=
      exists_of_head (s := .value) (r := .constInit) h (by decide) (fun _ => ⟨_, rfl⟩) hvalue
    obtain rfl : sliceOf source (Parts.tokens (vs.map (phrase source))) = value := Option.some.inj hread
    exact .constant (attrs_eq source h (by decide)) (type_texts h (by decide)) hkids (kind_eq ht)
      (congrArg (sliceOf source) (tokens_phrases source vs))
  · next hnone =>
    obtain rfl := Except.ok.inj hm
    exact quotes_verbatim (r := .constMember)
      (kids_of_head_none (s := .value) (r := .constInit) h (by decide) (fun _ => ⟨_, rfl⟩) hnone)

theorem mergeClauses_getD (c d : Option (List Predicate)) :
    (mergeClauses c d).getD [] = c.getD [] ++ d.getD [] := by
  cases c <;> cases d <;> simp [mergeClauses]

theorem quotes_typeMember {m : Member} (h : Grammar.Covers rust (ruleBody .typeMember) cs)
    (hm : typeMember source (cs.map (phrase source)) = .ok m) : m.Quotes source (.node .typeMember cs) := by
  obtain ⟨isDefault, -, hm⟩ := bind_eq_ok hm
  split at hm
  · next definition clause hdefinition =>
    obtain rfl := Except.ok.inj hm
    obtain ⟨ds, hkids, hds, hread⟩ :=
      exists_of_head (s := .definition) (r := .typeDef) h (by decide) (fun _ => ⟨_, rfl⟩) hdefinition
    obtain ⟨rfl, rfl⟩ := Prod.mk.inj (Option.some.inj hread)
    refine .assocType (attrs_eq source h (by decide)) (quotes_params source h (by decide))
      (bounds_texts h (by decide) (by decide)) hkids (type_texts hds (by decide)) ?_
    rw [Generics.predicates, mergeClauses_getD, predicateExcerpts, List.flatMap_append, textsIn_append,
      ← clause_texts source h (by decide), ← clause_texts source hds (by decide)]
    rfl
  · next hnone =>
    obtain rfl := Except.ok.inj hm
    exact quotes_verbatim (r := .typeMember)
      (kids_of_head_none (s := .definition) (r := .typeDef) h (by decide) (fun _ => ⟨_, rfl⟩) hnone)

theorem exists_memberTail {e : Syn} (h : Grammar.Covers rust (Expr.all (Syn.memberHead ++ [e])) cs) :
    ∃ us vs, cs = us ++ vs ∧ Grammar.Covers rust (Expr.all Syn.memberHead) us ∧
      Grammar.Covers rust e vs := by
  obtain ⟨as, _, rfl, has, ws, _, rfl, hws, ms, vs, rfl, hms, hvs⟩ := h
  exact ⟨as ++ (ws ++ ms), vs, by simp, ⟨_, _, rfl, has, _, _, rfl, hws, hms⟩, hvs⟩

/-- What stands in front of the body of a function or of its semicolon. -/
def fnHead : Syn :=
  Expr.all [Expr.opt (Syn.k .kwConst), Expr.opt (Syn.k .kwAsync), Expr.opt (Syn.k .kwUnsafe),
    Expr.opt (Syn.use .fnAbi), Syn.k .kwFn, Syn.k .name, Expr.opt (Syn.use .generics), Syn.k .lpar,
    Expr.opt (Syn.commaList (Syn.use .fnParam)), Syn.k .rpar,
    Expr.opt (Expr.all [Syn.k .arrow, Syn.use .type]), Expr.opt (Syn.use .whereClause)]

theorem exists_fnHead {fs : List Syntax} (h : Grammar.Covers rust (ruleBody .fnItem) fs) :
    ∃ hs tail, fs = hs ++ tail ∧ Grammar.Covers rust fnHead hs ∧
      Grammar.Covers rust (Expr.any [Syn.use .braceTree, Syn.k .semi]) tail := by
  obtain ⟨c, _, rfl, hc, a, _, rfl, ha, u, _, rfl, hu, x, _, rfl, hx, f, _, rfl, hf, n, _, rfl, hn, g,
    _, rfl, hg, l, _, rfl, hl, ps, _, rfl, hps, r, _, rfl, hr, o, _, rfl, ho, w, tail, rfl, hw,
    htail⟩ := h
  refine ⟨c ++ (a ++ (u ++ (x ++ (f ++ (n ++ (g ++ (l ++ (ps ++ (r ++ (o ++ w)))))))))),
    tail, by simp, ?_, htail⟩
  exact ⟨_, _, rfl, hc, _, _, rfl, ha, _, _, rfl, hu, _, _, rfl, hx, _, _, rfl, hf, _, _, rfl, hn, _,
    _, rfl, hg, _, _, rfl, hl, _, _, rfl, hps, _, _, rfl, hr, _, _, rfl, ho, hw⟩

/-- A function has one body at most. -/
theorem body_cases {fs : List Syntax} (h : Grammar.Covers rust (ruleBody .fnItem) fs) :
    kids .braceTree fs = [] ∨
      ∃ bs, kids .braceTree fs = [.node .braceTree bs] ∧ Parses rust [ruleBody .braceTree] bs := by
  obtain ⟨hs, tail, rfl, hhs, htail⟩ := exists_fnHead h
  rw [kids_append, kids_eq_nil hhs (by decide), List.nil_append]
  rcases htail with ⟨bs, rfl, hbs⟩ | ⟨t, rfl, -⟩
  · exact .inr ⟨bs, rfl, hbs⟩
  · exact .inl rfl

/-! #### Braces -/

theorem derives_of_covers {e : Syn} (h : Grammar.Covers rust e cs) : rust.Derives e (leavesOf cs) :=
  derives_iff_reads.2 h.parses.reads

theorem isBraced_of_inner {inner : Syn}
    (htrack : Syn.track calm .inside inner (some ([], false)) = some (some ([], false))) {o c : Token}
    (ho : o.kind = .lbrace) (hc : c.kind = .rbrace) {inside : List Token} (h : rust.Derives inner inside) :
    IsBraced (o :: (inside ++ [c])) := by
  refine ⟨o, inside, c, rfl, ho, hc, fun after => ?_⟩
  have hgroup := group?_of_inner (o := .lbrace) (c := .rbrace) rfl htrack ho h hc after
  simpa using hgroup

theorem isBraced_of_braceTree {bs : List Syntax} (h : Parses rust [ruleBody .braceTree] bs) :
    IsBraced (leavesOf bs) := by
  obtain ⟨_, _, rfl, ⟨o, rfl, ho⟩, xs, _, rfl, hxs, ⟨c, rfl, hc⟩⟩ := parses_iff_covers.1 h
  rw [List.singleton_append, leavesOf, leavesOf_append]
  exact isBraced_of_inner (by decide +kernel) (kind_eq ho) (kind_eq hc) (derives_of_covers hxs)

/-- The text of braces and of what stands between them. -/
theorem exists_text_of_isBraced {row ts : List Token} (hcuts : Cuts 0 Loc.origin source ts [])
    (h : IsBraced row) (hsub : row.Sublist ts) :
    ∃ text, (sliceOf source row).toList = '{' :: (text ++ ['}']) := by
  obtain ⟨o, inside, c, rfl, ho, hc, -⟩ := h
  obtain ⟨gap, hgap⟩ := exists_text_between hcuts hsub
  have hopen := (isLexeme_of_mem hcuts (hsub.subset (by simp : o ∈ _))).text_of_sign (s := ['{'])
    (by rw [show o.lexeme.1 = .lbrace from ho]; decide)
  have hclose := (isLexeme_of_mem hcuts (hsub.subset (by simp : c ∈ _))).text_of_sign (s := ['}'])
    (by rw [show c.lexeme.1 = .rbrace from hc]; decide)
  exact ⟨gap, by rw [hgap, show o.text.toList = _ from hopen, show c.text.toList = _ from hclose]; rfl⟩

/-! #### Methods -/

theorem sublist_of_kids {r : Rule} {ds : List Syntax} (h : kids r cs = [.node r ds]) :
    (leavesOf ds).Sublist (leavesOf cs) := by
  have hmem : .node r ds ∈ kids r cs := h ▸ List.mem_singleton_self _
  rw [leavesOf_eq_flatten cs]
  exact List.sublist_flatten_of_mem
    (List.mem_map_of_mem (f := Grammar.Tree.leaves) (List.mem_filter.1 hmem).1)

theorem quotes_methodMember {ts : List Token} (hcuts : Cuts 0 Loc.origin source ts []) {m : Member}
    (h : Grammar.Covers rust (ruleBody .methodMember) cs)
    (hm : methodMember source (cs.map (phrase source)) = .ok m) (hsub : (leavesOf cs).Sublist ts) :
    m.Quotes source (.node .methodMember cs) := by
  have hattrs := attrs_eq source h (by decide)
  have hhead := fun fs hkids => head_of_kids (s := .function) (r := .fnItem) source fs h (by decide)
    (fun _ => ⟨_, rfl⟩) hkids rfl
  obtain ⟨us, _, rfl, hus, fs, rfl, hfs⟩ := exists_memberTail h
  have hfunction : kids .fnItem (us ++ [(.node .fnItem fs : Syntax)]) = [.node .fnItem fs] := by
    rw [kids_append, kids_eq_nil hus (by decide)]
    rfl
  have hcovers := parses_iff_covers.1 hfs
  have hread := hhead fs hfunction
  rw [plain_fnItem source hfs] at hread
  obtain ⟨isDefault, -, hm⟩ := bind_eq_ok hm
  rcases body_cases hcovers with hnone | ⟨bs, hblock, hbs⟩
  · rw [hnone] at hread
    split at hm
    · next sig body hfound => cases hfound.symm.trans hread
    · obtain rfl := Except.ok.inj hm
      exact quotes_verbatim (r := .methodMember) ⟨fs, hfunction, hnone⟩
  · rw [hblock] at hread
    split at hm
    · next sig body hfound =>
      obtain ⟨rfl, hbody⟩ := Prod.mk.inj (Option.some.inj (hfound.symm.trans hread))
      obtain ⟨sig, hsig, hm⟩ := bind_eq_ok hm
      obtain rfl := Except.ok.inj hm
      have hslice : body = sliceOf source (leavesOf bs) := by
        rw [Option.some.inj hbody, List.map_singleton, Parts.text, Parts.tokens, List.flatMap_singleton,
          tokens_phrase]
        rfl
      have hbraced := isBraced_of_braceTree hbs
      have hinside : (leavesOf bs).Sublist ts :=
        (sublist_of_kids hblock).trans ((sublist_of_kids hfunction).trans hsub)
      refine .method hattrs hfunction (quotes_signature hcovers hsig) hblock hbraced hslice ?_
      rw [show (Method.body _) = body from rfl, hslice]
      exact exists_text_of_isBraced hcuts hbraced hinside
    · next hne => exact absurd hread (hne _ _)

/-! #### Macros and foreign items -/

variable (source) in
/-- What stands in front of the first token of a kind, and what stands behind it. -/
theorem before_after_leaf {k : Kind} {e : Syn} {us : List Syntax} (h : Grammar.Covers rust e us)
    (he : utters k e = false) {t : Token} (ht : t.kind = k) (vs : List Syntax) :
    before k ((us ++ .leaf t :: vs).map (phrase source)) = us.map (phrase source) ∧
      after k ((us ++ .leaf t :: vs).map (phrase source)) = vs.map (phrase source) := by
  have hnot := isToken_of_covers source h he
  rw [List.map_append, List.map_cons, before_append hnot, after_append hnot]
  simp [before, after, isToken_leaf, Token.is, ht]

/-- The parts of a macro call: its attributes and its path, the exclamation mark, the argument, and perhaps a
semicolon. -/
theorem exists_macroParts (h : Grammar.Covers rust (ruleBody .macroMember) cs) : ∃ front ps b row tail,
    cs = front ++ .leaf b :: (row ++ tail) ∧
      Grammar.Covers rust (.seq Syn.attrs (Syn.use .plainPath)) front ∧
      kids .plainPath front = [.node .plainPath ps] ∧ b.kind = .bang ∧
        Grammar.Covers rust (Expr.all [Expr.opt (Syn.k .name), Syn.tokenTree]) row ∧
          Grammar.Covers rust (Expr.opt (Syn.k .semi)) tail := by
  obtain ⟨as, _, rfl, has, _, _, rfl, ⟨ps, rfl, hps⟩, _, _, rfl, ⟨b, rfl, hb⟩, ns, _, rfl,
    hns, ts, tail, rfl, hts, htail⟩ := h
  refine ⟨as ++ [.node .plainPath ps], ps, b, ns ++ ts, tail, by simp,
    ⟨_, _, rfl, has, ps, rfl, hps⟩, ?_, kind_eq hb, ⟨_, _, rfl, hns, hts⟩, htail⟩
  rw [kids_append, kids_eq_nil has (by decide)]
  rfl

/-- A macro keeps all behind its exclamation mark but a closing semicolon. -/
theorem quotes_macroMember (h : Grammar.Covers rust (ruleBody .macroMember) cs) :
    (macroMember source (cs.map (phrase source))).Quotes source (.node .macroMember cs) := by
  have hattrs := attrs_eq source h (by decide)
  obtain ⟨front, ps, b, row, tail, rfl, hfront, hpath, hb, hrow, htail⟩ := exists_macroParts h
  obtain ⟨hbefore, hafter⟩ := before_after_leaf source hfront (by decide) hb (row ++ tail)
  have hback : kids .outerAttr (.leaf b :: (row ++ tail)) = [] := by
    change kids .outerAttr (row ++ tail) = []
    rw [kids_append, kids_eq_nil hrow (by decide), kids_eq_nil htail (by decide), List.append_nil]
  have hname : Parts.text source (Parts.plain (front.map (phrase source))) =
    sliceOf source (leavesOf ps) := by
    rw [plain_eq_kids (r := .plainPath) hfront (by decide), hpath, Parts.text, tokens_phrases,
      leavesOf, leavesOf, List.append_nil, Grammar.Tree.leaves]
  have hargument : before .semi ((row ++ tail).map (phrase source)) = row.map (phrase source) := by
    rw [List.map_append, before_append (isToken_of_covers source hrow (by decide))]
    rcases htail with ⟨u, rfl, hu⟩ | rfl
    · simp [before, isToken_leaf, Token.is, kind_eq hu]
    · simp [before]
  have hsemi : Parts.has .semi ((front ++ .leaf b :: (row ++ tail)).map (phrase source)) =
      Parts.has .semi (tail.map (phrase source)) := by
    rw [List.map_append, List.map_cons, List.map_append, ← List.singleton_append, has_append,
      has_append, has_append, has_of_covers source hfront (by decide),
      has_of_covers source hrow (by decide)]
    simp [Parts.has, isToken_leaf, Token.is, hb]
  rw [macroMember, hbefore, hafter, hargument, hname, hsemi, hattrs, Parts.text, tokens_phrases, attributesIn,
    kids_append, hback, List.append_nil, ← attributesIn]
  refine .macroCall rfl hpath rfl hb hrow rfl ?_
  rcases htail with ⟨u, rfl, hu⟩ | rfl
  · rw [if_pos (by simp [Parts.has, isToken_leaf, Token.is, kind_eq hu])]
    exact ⟨u, rfl, kind_eq hu⟩
  · rfl

/-- An item that has no place in a block is kept as it is written; its first words say what it is. -/
theorem quotes_foreignMember (h : Grammar.Covers rust (ruleBody .foreignMember) cs) :
    (foreignMember source (cs.map (phrase source))).Quotes source (.node .foreignMember cs) := by
  obtain ⟨as, _, rfl, has, vs, _, rfl, hvs, _, _, rfl, ⟨hs, rfl, hhs⟩, rest, tail, rfl, hrest,
    htail⟩ := h
  have hfront : Grammar.Covers rust
    (Expr.all [Syn.attrs, Expr.opt (Syn.use .visibility), Syn.use .foreignHead])
      (as ++ (vs ++ [.node .foreignHead hs])) := ⟨_, _, rfl, has, _, _, rfl, hvs, hs, rfl, hhs⟩
  have hhead : kids .foreignHead (as ++ (vs ++ [(.node .foreignHead hs : Syntax)])) =
    [.node .foreignHead hs] := by
    rw [kids_append, kids_append, kids_eq_nil has (by decide), kids_eq_nil hvs (by decide)]
    rfl
  have hword : Parts.text source ((Parts.plain ((as ++ (vs ++ [(.node .foreignHead hs : Syntax)]) ++
      (rest ++ tail)).map (phrase source))).take 1) = sliceOf source (leavesOf hs) := by
    rw [List.map_append, Parts.plain, List.filter_append, ← Parts.plain,
      plain_eq_kids (r := .foreignHead) hfront (by decide), hhead, List.map_singleton, List.singleton_append,
      List.take_succ_cons, List.take_zero, Parts.text, Parts.tokens, List.flatMap_singleton, tokens_phrase,
      Grammar.Tree.leaves]
  rw [show as ++ (vs ++ ([(.node .foreignHead hs : Syntax)] ++ (rest ++ tail))) =
    as ++ (vs ++ [(.node .foreignHead hs : Syntax)]) ++ (rest ++ tail) by simp, foreignMember, hword,
    Parts.text, tokens_phrases]
  refine .foreign ?_
  rw [kids_append, hhead, kids_append, kids_eq_nil hrest (by decide), kids_eq_nil htail (by decide)]
  rfl

/-- A member quotes the tree that it was read from. -/
theorem quotes_of_member {ts : List Token} (hcuts : Cuts 0 Loc.origin source ts []) {r : Rule}
    (hr : r ∈ .foreignMember :: ownRules) (hcs : Parses rust [ruleBody r] cs) :
    ∃ e, (phrase source (.node r cs)).meaning = .member e ∧ ∀ m, e = .ok m →
      (Grammar.Tree.node r cs).leaves.Sublist ts → m.Quotes source (.node r cs) := by
  have h := parses_iff_covers.1 hcs
  simp only [phrase_node]
  simp only [ownRules, List.mem_cons, List.not_mem_nil, or_false] at hr
  rcases hr with rfl | rfl | rfl | rfl | rfl <;> refine ⟨_, rfl, fun m hm hsub => ?_⟩
  · obtain rfl := Except.ok.inj hm
    exact quotes_foreignMember h
  · exact quotes_methodMember hcuts h hm (by rwa [Grammar.Tree.leaves] at hsub)
  · exact quotes_constMember h hm
  · exact quotes_typeMember h hm
  · obtain rfl := Except.ok.inj hm
    exact quotes_macroMember h

/-! ### Blocks -/

/-- What stands in front of the body of a block. -/
def headerBody : Syn :=
  Expr.all [Syn.attrs, Expr.opt (Syn.use .marker), Expr.opt (Syn.k .kwUnsafe), Syn.k .kwImpl,
    Expr.opt (Syn.use .generics), Expr.any [Syn.use .inherentTarget, Syn.use .traitTarget],
    Expr.opt (Syn.use .whereClause)]

theorem exists_header (h : Grammar.Covers rust (ruleBody .implBlock) cs) :
    ∃ hs bs : List Syntax, cs = hs ++ [Grammar.Tree.node .implBody bs] ∧ Grammar.Covers rust headerBody hs ∧
      Parses rust [ruleBody .implBody] bs := by
  obtain ⟨as, _, rfl, has, ms, _, rfl, hms, us, _, rfl, hus, is, _, rfl, his, gs, _, rfl, hgs, ts,
    _, rfl, hts, ws, _, rfl, hws, bs, rfl, hbs⟩ := h
  exact ⟨as ++ (ms ++ (us ++ (is ++ (gs ++ (ts ++ ws))))), bs, by simp,
    ⟨_, _, rfl, has, _, _, rfl, hms, _, _, rfl, hus, _, _, rfl, his, _, _, rfl, hgs, _, _, rfl, hts,
      hws⟩, hbs⟩

/-- The header of a block has one part that says what the block is for. -/
theorem exists_target {hs : List Syntax} (h : Grammar.Covers rust headerBody hs) :
    ∃ (us : List Syntax) (r : Rule) (ds ws : List Syntax),
    hs = us ++ ([Grammar.Tree.node r ds] ++ ws) ∧ r ∈ [Rule.inherentTarget, .traitTarget] ∧
      Grammar.Covers rust (ruleBody r) ds ∧
      Grammar.Covers rust (Expr.all
        [Syn.attrs, Expr.opt (Syn.use .marker), Expr.opt (Syn.k .kwUnsafe), Syn.k .kwImpl,
        Expr.opt (Syn.use .generics)]) us ∧ Grammar.Covers rust (Expr.opt (Syn.use .whereClause)) ws := by
  obtain ⟨as, _, rfl, has, ms, _, rfl, hms, us, _, rfl, hus, is, _, rfl, his, gs, _, rfl, hgs, ts, ws,
    rfl, hts, hws⟩ := h
  obtain ⟨r, hr, c, rfl, ds, rfl, hds⟩ : ∃ r ∈ [Rule.inherentTarget, .traitTarget], ∃ c,
      ts = [c] ∧ (Grammar.Symbol.rule r).HasTree rust c := exists_of_covers_any (by decide) hts
  exact ⟨as ++ (ms ++ (us ++ (is ++ gs))), r, ds, ws, by simp, hr, parses_iff_covers.1 hds,
    ⟨_, _, rfl, has, _, _, rfl, hms, _, _, rfl, hus, _, _, rfl, his, hgs⟩, hws⟩

variable (source) in
/-- What a block is for keeps the texts of its parts. -/
theorem target_texts {r : Rule} {ds : List Syntax} (hr : r ∈ [Rule.inherentTarget, .traitTarget])
    (h : Grammar.Covers rust (ruleBody r) ds) : ∃ t ty,
      ruleMeaning source r (ds.map (phrase source)) = .target t ty ∧
      asTraitExcerpts (t.map TraitRef.path) = textsIn source (kids .pathType ds) ∧
        ty.excerpts = textsIn source (kids .type ds) := by
  simp only [List.mem_cons, List.not_mem_nil, or_false] at hr
  rcases hr with rfl | rfl <;> refine ⟨_, _, rfl, ?_, type_texts h (by decide)⟩
  · rw [kids_eq_nil h (by decide)]
    rfl
  · rw [← keptAs_eq_textsIn (s := .path) h (by decide) rfl (by decide), ← path_kept h (by decide)]
    rfl

variable (source) in
/-- The header of a block keeps what it is for. -/
theorem quotes_target {hs : List Syntax} (bs : List Syntax) (h : Grammar.Covers rust headerBody hs) : ∃ t ty,
    (pick (as .target) ((hs ++ [(.node .implBody bs : Syntax)]).map (phrase source))).head? = some (t, ty) ∧
      asTraitExcerpts (t.map TraitRef.path) = textsIn source (kids .pathType (targetOf hs)) ∧
        ty.excerpts = textsIn source (kids .type (targetOf hs)) := by
  obtain ⟨us, r, ds, ws, rfl, hr, hds, hus, hws⟩ := exists_target h
  obtain ⟨t, ty, hmeaning, hpath, hty⟩ := target_texts source hr hds
  have htarget : targetOf (us ++ ([.node r ds] ++ ws)) = ds := by
    simp only [targetOf, kids_append, kids_eq_nil hus (r := .inherentTarget) (by decide),
      kids_eq_nil hus (r := .traitTarget) (by decide), kids_eq_nil hws (r := .inherentTarget) (by decide),
      kids_eq_nil hws (r := .traitTarget) (by decide), List.nil_append, List.append_nil]
    simp only [List.mem_cons, List.not_mem_nil, or_false] at hr
    rcases hr with rfl | rfl <;> simp [kids, isNode, partsOf]
  have hbody : pick (as .target) [phrase source (.node .implBody bs)] = [] := by
    rw [phrase_node]
    rfl
  refine ⟨t, ty, ?_, by rwa [htarget], by rwa [htarget]⟩
  rw [List.map_append, List.map_append, List.map_append, List.map_singleton, List.map_singleton, pick_append,
    pick_append, pick_append, pick_eq_nil hus (by decide), pick_eq_nil hws (by decide), hbody,
      pick_node (by rw [hmeaning]; rfl)]
  rfl

/-- What is read of a block whose body and whose target are known. -/
theorem implBlock_fields {ps : Parts} {b : ImplBlock} {as : List Attribute} {is : List (Except Fault Member)}
    {t : Option TraitRef} {ty : TypeExpr} (hbody : (pick (Meaning.as .body) ps).head? = some (as, is))
    (htarget : (pick (Meaning.as .target) ps).head? = some (t, ty)) (hb : implBlock source ps = .ok b) :
    is.mapM id = .ok b.items ∧ b.innerAttrs = as ∧ b.attrs = Parts.attrs ps ∧
      b.generics = Parts.generics ps ∧ b.traitRef = t ∧ b.selfTy = ty := by
  obtain ⟨isDefault, -, hb⟩ := bind_eq_ok hb
  obtain ⟨items, hitems, hb⟩ := bind_eq_ok hb
  obtain rfl := Except.ok.inj hb
  have hbody : (pick (Meaning.as .body) ps).head?.getD ([], []) = (as, is) := by rw [hbody]; rfl
  have htarget : (pick (Meaning.as .target) ps).head?.getD (none, default) = (t, ty) := by rw [htarget]; rfl
  refine ⟨?_, congrArg Prod.fst hbody, rfl, rfl, congrArg Prod.fst htarget, congrArg Prod.snd htarget⟩
  rw [← hitems]
  exact congrArg (List.mapM id) (congrArg Prod.snd hbody).symm

variable (source) in
/-- The inner attributes of a body are the texts of their trees. -/
theorem quotes_innerAttrs {bs : List Syntax} (h : Grammar.Covers rust (ruleBody .implBody) bs) :
    List.Forall₂ (fun a c => Grammar.Covers rust (Syn.use .innerAttr) [c] ∧
      a = ⟨sliceOf source c.leaves, true⟩)
      (Parts.attrs (bs.map (phrase source))) (kids .innerAttr bs) := by
  refine forall₂_pick (f := as .attr) (fun c hc hr => as_eq_none h (r := .innerAttr) rfl (by decide) hc hr)
    fun ds hds => ⟨_, rfl, ⟨ds, rfl, h.parses.of_node_mem hds⟩, ?_⟩
  rw [Parts.text, tokens_phrases, Grammar.Tree.leaves]

theorem kids_innerAttr {pss qss : List (List Syntax)} {o c : Token}
    (hpss : ∀ ps ∈ pss, Grammar.Covers rust (Syn.use .innerAttr) ps)
    (hqss : ∀ qs ∈ qss, Grammar.Covers rust Syn.member qs) :
    kids .innerAttr (.leaf o :: (pss.flatten ++ qss.flatten ++ [.leaf c])) = pss.flatten := by
  have hattrs : kids .innerAttr pss.flatten = pss.flatten := List.filter_eq_self.2 fun c hc => by
    obtain ⟨ps, hps, hc⟩ := List.mem_flatten.1 hc
    obtain ⟨ds, rfl, -⟩ := hpss ps hps
    rw [List.mem_singleton.1 hc]
    rfl
  have hmembers : Grammar.Covers rust (Expr.star Syn.member) qss.flatten := ⟨qss, rfl, hqss⟩
  change kids .innerAttr (pss.flatten ++ qss.flatten ++ [.leaf c]) = pss.flatten
  rw [kids_append, kids_append, hattrs, kids_eq_nil hmembers (by decide), List.append_nil]
  exact List.append_nil _

/-- What holds of each two under a condition on the second holds of all if the condition does. -/
theorem forall₂_of_forall {α β : Type} {R : α → β → Prop} {p : β → Prop} :
    ∀ {l : List α} {m : List β}, List.Forall₂ (fun a b => p b → R a b) l m → (∀ b ∈ m, p b) →
      List.Forall₂ R l m
  | _, _, .nil, _ => .nil
  | _, _, .cons h hs, hp => .cons (h (hp _ (List.mem_cons_self ..)))
      (forall₂_of_forall hs fun b hb => hp b (List.mem_cons_of_mem _ hb))

/-- The header of a block has the parts of the block but its body. -/
theorem kids_header {r : Rule} (hr : r ≠ .implBody) (hs bs : List Syntax) :
    kids r (hs ++ [.node .implBody bs]) = kids r hs := by
  rw [kids_append, kids, kids, List.filter_cons, isNode_of_ne hr.symm, List.filter_nil]
  exact List.append_nil _

end Reading

open Reading

/-- A block that is read quotes its source: the tokens between the braces of its body are those of its
inner attributes and of its members, in order, and every text that it keeps as it is written is that of
its place in the tree that was read. -/
theorem parseBlock_quotes {source : String} {b : ImplBlock} (h : parseBlock source = .ok b) :
    ∃ (header : List Syntax) (o : Token) (attrs items : List Syntax) (c : Token),
      rust.read (Syn.use .implBlock) (leavesOf header ++ (o :: (leavesOf (attrs ++ items) ++ [c]))) =
        .sentence [.node .implBlock
          (header ++ [.node .implBody (.leaf o :: (attrs ++ items ++ [.leaf c]))])] ∧
      lex source = .ok (leavesOf header ++ (o :: (leavesOf (attrs ++ items) ++ [c]))) ∧
      b.Quotes source.toList header o attrs items c := by
  obtain ⟨cs, hcs, hlex, hread, hb⟩ := exists_tree_of_parseBlock h
  have hcuts := scan_eq_complete_iff.1 (lex_eq_ok_iff.1 hlex)
  have hcovers := parses_iff_covers.1 hcs
  have hattrs := attrs_eq source.toList hcovers (by decide)
  have hparams := quotes_params source.toList hcovers (by decide)
  have hclause := clause_texts source.toList hcovers (by decide)
  have hhead := fun bs hkids => head_of_kids (s := .body) (r := .implBody) source.toList bs hcovers
    (by decide) (fun _ => ⟨_, rfl⟩) hkids rfl
  obtain ⟨hs, bs, rfl, hhs, hbs⟩ := exists_header hcovers
  obtain ⟨t, ty, htarget, hpath, hty⟩ := quotes_target source.toList bs hhs
  have hbs' : kids .implBody (hs ++ [(.node .implBody bs : Syntax)]) = [.node .implBody bs] := by
    rw [kids_append, kids_eq_nil hhs (by decide)]
    rfl
  obtain ⟨hmembers, hinner, houter, hgenerics, rfl, rfl⟩ := implBlock_fields (hhead bs hbs') htarget hb
  obtain ⟨o, pss, qss, c, hbody, ho, hc, hpss, hqss, hitems⟩ := exists_members_of_body
    (P := fun m c => c.leaves.Sublist (leavesOf (hs ++ [(.node .implBody bs : Syntax)])) →
      m.Quotes source.toList c)
    (quotes_of_member hcuts) hbs hmembers
  obtain rfl : bs = .leaf o :: (pss.flatten ++ qss.flatten ++ [.leaf c]) := by simp [hbody]
  have hleaves : leavesOf (hs ++
    [(.node .implBody (.leaf o :: (pss.flatten ++ qss.flatten ++ [.leaf c])) : Syntax)]) =
      leavesOf hs ++ (o :: (leavesOf (pss.flatten ++ qss.flatten) ++ [c])) := by
    simp [leavesOf_append, leavesOf, Grammar.Tree.leaves]
  have hinside : (leavesOf (pss.flatten ++ qss.flatten)).Sublist
      (leavesOf hs ++ (o :: (leavesOf (pss.flatten ++ qss.flatten) ++ [c]))) :=
    ((List.sublist_append_left _ _).cons o).trans (List.sublist_append_right _ _)
  rw [hleaves] at hlex hread hcuts hitems
  refine ⟨hs, o, pss.flatten, qss.flatten, c, hread, hlex, ?_, ?_, hpath, hty, ?_, ?_, ?_, ?_, ?_⟩
  · rw [houter, hattrs, attributesIn, kids_header (by decide), ← attributesIn]
  · rw [paramsIn, kids_header (by decide), ← paramsIn] at hparams
    rwa [hgenerics]
  · rw [kids_header (by decide)] at hclause
    rwa [hgenerics]
  · have hinner : rust.Derives (.seq (Expr.star (Syn.use .innerAttr)) (Expr.star Syn.member))
        (leavesOf (pss.flatten ++ qss.flatten)) :=
      derives_of_covers ⟨_, _, rfl, ⟨pss, rfl, hpss⟩, qss, rfl, hqss⟩
    exact isBraced_of_inner (by decide +kernel) ho hc hinner
  · have hnodup := hcuts.inOrder.nodup.sublist hinside
    rw [leavesOf_eq_flatten] at hnodup
    exact (List.nodup_flatten.1 hnodup).2
  · have hquotes := quotes_innerAttrs source.toList (parses_iff_covers.1 hbs)
    rwa [← hinner, kids_innerAttr hpss hqss] at hquotes
  · refine forall₂_of_forall hitems fun d hd => List.Sublist.trans ?_ hinside
    rw [leavesOf_eq_flatten]
    exact List.sublist_flatten_of_mem (List.mem_map_of_mem (List.mem_append_right _ hd))

/-- One member of each sort: a function, a constant, an associated type, a macro call, a function without a
body and an item that has no place in a block. -/
theorem parseBlock_quotes_members :
    let source :=
      "impl X { #![a] #[c] fn f(#[d] b: [u; 2]) {b} const C: u = 1+2; type T = u; m!{x} fn g(); struct S; }"
    let u : TypeExpr := .path ⟨[⟨"u", none⟩], none, false⟩
    let members : List Member := [
      .method
        { sig := { name := "f", inputs := [.typed "b" (.array u "2") [⟨"#[d]", false⟩]] }
          body := "\x7bb\x7d"
          attrs := [⟨"#[c]", false⟩]
          loc := some ⟨1, 16⟩ },
      .constant { name := "C", ty := u, value := "1+2", loc := some ⟨1, 46⟩ },
      .assocType { name := "T", definition := u, loc := some ⟨1, 64⟩ },
      .macroCall { path := "m", tokens := "\x7bx\x7d", semi := false, loc := some ⟨1, 76⟩ },
      .verbatim "fn g();" (some ⟨1, 82⟩),
      .foreign "struct" "struct S;" (some ⟨1, 90⟩)]
    ∃ b header o attrs items c, parseBlock source = .ok b ∧ b.innerAttrs = [⟨"#![a]", true⟩] ∧
      b.items = members ∧ b.Quotes source.toList header o attrs items c := by
  intro source u members
  have hparse : ((parseBlock source).toOption.map fun b => (b.innerAttrs, b.items)) =
      some ([⟨"#![a]", true⟩], members) := by decide +kernel +zetaReduce
  obtain ⟨b, hb, hparts⟩ := Option.map_eq_some_iff.1 hparse
  obtain ⟨hinner, hitems⟩ := Prod.mk.inj hparts
  have hok := ok_of_toOption hb
  obtain ⟨header, o, attrs, items, c, -, -, hquotes⟩ := parseBlock_quotes hok
  exact ⟨b, header, o, attrs, items, c, hok, hinner, hitems, hquotes⟩

end TraitLift
