import TraitLift.Proofs.Print.Parts
import TraitLift.Proofs.Reading.Sense

/-!
A type keeps the texts of its tree. `textsOf` lists the texts that are kept of a tree: the lengths of
arrays, the constant arguments and the tokens of macros. Reading the tree keeps these, all of them and in
their order (`excerpts_of_tree`). A rule without such a text of its own hands on what its parts keep.
-/

namespace TraitLift

open TraitLift.Grammar

/-! ### The texts of a tree -/

namespace Grammar

/-- The parts that a tree is made of. -/
def partsOf : Syntax → List Syntax
  | .leaf _ => []
  | .node _ cs => cs

/-- Whether the tree is a token of a kind. -/
def isLeaf (k : Kind) : Syntax → Bool
  | .leaf t => t.is k
  | .node _ _ => false

/-- The parts in front of the first token of a kind. -/
def ahead (k : Kind) (cs : List Syntax) : List Syntax := cs.takeWhile (!isLeaf k ·)

/-- The parts behind the first token of a kind. -/
def behind (k : Kind) (cs : List Syntax) : List Syntax := (cs.dropWhile (!isLeaf k ·)).drop 1

end Grammar

mutual

/-- The texts that are kept of a tree: of an array all between its semicolon and its closing bracket, of a
macro its path and all behind its exclamation mark. -/
def textsOf (source : List Char) : Syntax → List Excerpt
  | .leaf _ => []
  | .node .constArg cs => [⟨.constArg, sliceOf source (leavesOf cs)⟩]
  | .node .macroType cs =>
    [⟨.macroPath, sliceOf source (leavesOf (ahead .bang cs))⟩,
      ⟨.macroTokens, sliceOf source (leavesOf (behind .bang cs))⟩]
  | .node .arrayType cs =>
    textsIn source cs ++ [⟨.arrayLength, sliceOf source (leavesOf (behind .semi cs).dropLast)⟩]
  | .node _ cs => textsIn source cs

/-- The texts that are kept of some trees. -/
def textsIn (source : List Char) : List Syntax → List Excerpt
  | [] => []
  | c :: cs => textsOf source c ++ textsIn source cs

end

theorem textsIn_append (source : List Char) : ∀ cs ds : List Syntax,
    textsIn source (cs ++ ds) = textsIn source cs ++ textsIn source ds
  | [], _ => rfl
  | c :: cs, ds => by rw [List.cons_append, textsIn, textsIn, textsIn_append source cs, List.append_assoc]

@[simp] theorem textsIn_singleton (source : List Char) (c : Syntax) :
    textsIn source [c] = textsOf source c := by
  rw [textsIn, textsIn, List.append_nil]

namespace Reading

open Parts (pick)
open Meaning (as kept)

variable {source : List Char} {cs : List Syntax} {e : Syn}

/-! ### What is picked keeps what the parts keep -/

section

variable (h : Grammar.Covers rust e cs)

include h

theorem type?_kept (hs : follows .type .type e = false) :
    outputExcerpts (Parts.type? (cs.map (phrase source))) = keptAs source .type cs :=
  head_kept (g := outputExcerpts) h hs rfl fun _ => rfl

theorem type_kept (hs : follows .type .type e = false) :
    (Parts.type (cs.map (phrase source))).excerpts = keptAs source .type cs :=
  head_kept (g := fun o : Option TypeExpr => (o.getD default).excerpts) h hs rfl fun _ => rfl

theorem path?_kept (hs : follows .path .path e = false) :
    asTraitExcerpts (Parts.path? (cs.map (phrase source))) = keptAs source .path cs :=
  head_kept (g := asTraitExcerpts) h hs rfl fun _ => rfl

theorem path_kept (hs : follows .path .path e = false) :
    ((Parts.path? (cs.map (phrase source))).getD default).excerpts = keptAs source .path cs :=
  head_kept (g := fun o : Option Path => (o.getD default).excerpts) h hs rfl fun _ => rfl

theorem args?_kept (hs : follows .args .args e = false) :
    argsExcerpts (Parts.args? (cs.map (phrase source))) = keptAs source .args cs :=
  head_kept (g := argsExcerpts) h hs rfl fun _ => rfl

theorem binder_kept (hs : follows .binder .binder e = false) :
    binderExcerpts (Parts.binder (cs.map (phrase source))) = keptAs source .binder cs :=
  head_kept (g := fun o => binderExcerpts (o.getD [])) h hs rfl fun _ => rfl

theorem bounds_kept (hs : follows .bounds .bounds e = false) :
    boundExcerpts (Parts.bounds (cs.map (phrase source))) = keptAs source .bounds cs :=
  head_kept (g := fun o => boundExcerpts (o.getD [])) h hs rfl fun _ => rfl

end

variable (source cs) in
theorem types_kept : typeExcerpts (Parts.types (cs.map (phrase source))) = keptAs source .type cs :=
  (typeExcerpts_eq_flatMap _).trans (flatMap_pick .type cs)

variable (source cs) in
theorem segments_kept : segmentExcerpts (Parts.segments (cs.map (phrase source))) =
    keptAs source .segment cs :=
  (segmentExcerpts_eq_flatMap _).trans (flatMap_pick .segment cs)

variable (source cs) in
theorem eachBound_kept : boundExcerpts (Parts.eachBound (cs.map (phrase source))) = keptAs source .bound cs :=
  (boundExcerpts_eq_flatMap _).trans (flatMap_pick .bound cs)

variable (source cs) in
theorem args_kept : argExcerpts (pick (as .arg) (cs.map (phrase source))) = keptAs source .arg cs :=
  (argExcerpts_eq_flatMap _).trans (flatMap_pick .arg cs)

variable (source cs) in
theorem bareArgs_kept :
    bareArgExcerpts (pick (as .bareArg) (cs.map (phrase source))) = keptAs source .bareArg cs :=
  (bareArgExcerpts_eq_flatMap _).trans (flatMap_pick .bareArg cs)

/-! ### Rules that hand on what their parts keep -/

/-- The rules that types are made of, those of where clauses, and what can stand within them. -/
def textRules : List Rule :=
  typeRules ++ [Rule.typeBounds, .whereClause, .lifetimePredicate, .typePredicate, .outerAttr, .parenTree,
    .bracketTree, .braceTree]

theorem textRules_closed : ∀ r ∈ textRules, ∀ a ∈ Rule.all, mentions a (ruleBody r) →
    a ∈ textRules := by
  decide +kernel

/-- The sorts of the parts that a rule is put together from, in the order of the parts. -/
def senses : Rule → List Sense
  | .type | .typeNoBounds => [.type, .path]
  | .typeBounds | .implType | .dynType => [.bounds]
  | .bounds | .parenBound | .implOneType | .dynOneType => [.bound]
  | .traitBound => [.binder, .path]
  | .forLifetimes => [.lifetimeParam]
  | .whereClause => [.predicate]
  | .typePredicate => [.binder, .type, .bounds]
  | .pathType => [.segment]
  | .macroType => [.path]
  | .qpathType => [.type, .path, .segment]
  | .pathSegment | .turbofishSegment => [.args]
  | .angleArgs => [.arg]
  | .bindingArg => [.args, .type]
  | .constraintArg => [.args, .bounds]
  | .refType | .ptrType | .sliceType | .arrayType | .parenType | .typeArg | .tupleType | .parenArgs => [.type]
  | .fnPtrType => [.binder, .bareArg, .type]
  | .bareFnArg => [.attr, .type]
  | _ => []

/-- No part of a rule is of another sort, and none stands behind a part of a later sort. -/
theorem senses_ordered {r : Rule} (hr : r ∈ textRules) :
    (∀ s ∈ Sense.all, uses s (ruleBody r) → s ∈ senses r) ∧ (senses r).Nodup ∧
      (senses r).Pairwise fun s t => follows t s (ruleBody r) = false := by
  have hall : ∀ r ∈ textRules, (∀ s ∈ Sense.all, uses s (ruleBody r) → s ∈ senses r) ∧
      (senses r).Nodup ∧ (senses r).Pairwise fun s t => follows t s (ruleBody r) = false := by
    decide +kernel
  exact hall r hr

variable (source) in
/-- The rule keeps what its parts keep. -/
def Hands (r : Rule) (cs : List Syntax) : Prop :=
  (ruleMeaning source r (cs.map (phrase source))).excerpts = keptOf source cs

section

variable {r : Rule} (h : Grammar.Covers rust (ruleBody r) cs) (hr : r ∈ textRules)

include h hr

/-- The parts of a rule keep what they keep sort by sort. -/
theorem keptOf_senses : keptOf source cs = (senses r).flatMap (keptAs source · cs) := by
  obtain ⟨hall, hnodup, horder⟩ := senses_ordered hr
  exact keptOf_eq (senses r) h hall hnodup horder

theorem keptOf_silent (hs : senses r = []) : keptOf source cs = [] := by
  rw [keptOf_senses h hr, hs, List.flatMap_nil]

theorem keptOf_single {s : Sense} (hs : senses r = [s]) : keptOf source cs = keptAs source s cs := by
  rw [keptOf_senses h hr, hs, List.flatMap_singleton]

theorem keptOf_pair {s t : Sense} (hs : senses r = [s, t]) :
    keptOf source cs = keptAs source s cs ++ keptAs source t cs := by
  rw [keptOf_senses h hr, hs, List.flatMap_cons, List.flatMap_singleton]

theorem keptOf_triple {s t u : Sense} (hs : senses r = [s, t, u]) :
    keptOf source cs = keptAs source s cs ++ (keptAs source t cs ++ keptAs source u cs) := by
  rw [keptOf_senses h hr, hs, List.flatMap_cons, List.flatMap_cons, List.flatMap_singleton]

end

/-! #### Bounds and predicates -/

theorem hands_traitBound (h : Grammar.Covers rust (ruleBody .traitBound) cs) :
    Hands source .traitBound cs := by
  rw [Hands, keptOf_pair h (by decide) rfl,
    ← binder_kept h (by decide), ← path_kept h (by decide)]
  rfl

theorem hands_parenBound (h : Grammar.Covers rust (ruleBody .parenBound) cs) :
    Hands source .parenBound cs := by
  have hread : Parts.eachBound (cs.map (phrase source)) = pick (as .bound) (cs.map (phrase source)) := rfl
  rw [Hands, keptOf_single h (by decide) rfl, ← flatMap_pick, ruleMeaning, hread]
  rcases pick_cases source (s := .bound) h (by decide) with hpick | ⟨b, hpick⟩ <;> rw [hpick]
  · rfl
  · rw [List.flatMap_singleton]
    cases b <;> rfl

theorem hands_bounds (h : Grammar.Covers rust (ruleBody .bounds) cs) : Hands source .bounds cs := by
  rw [Hands, keptOf_single h (by decide) rfl, ← eachBound_kept]
  rfl

theorem hands_typeBounds (h : Grammar.Covers rust (ruleBody .typeBounds) cs) :
    Hands source .typeBounds cs := by
  rw [Hands, keptOf_single h (by decide) rfl, ← bounds_kept h (by decide)]
  rfl

theorem hands_typePredicate (h : Grammar.Covers rust (ruleBody .typePredicate) cs) :
    Hands source .typePredicate cs := by
  rw [Hands, keptOf_triple h (by decide) rfl,
    ← binder_kept h (by decide), ← type_kept h (by decide), ← bounds_kept h (by decide),
    ← List.append_assoc]
  rfl

theorem hands_whereClause (h : Grammar.Covers rust (ruleBody .whereClause) cs) :
    Hands source .whereClause cs := by
  rw [Hands, keptOf_single h (by decide) rfl, ← flatMap_pick]
  rfl

theorem hands_forLifetimes (h : Grammar.Covers rust (ruleBody .forLifetimes) cs) :
    Hands source .forLifetimes cs := by
  rw [Hands, keptOf_single h (by decide) rfl, ← flatMap_pick]
  rfl

/-! #### Paths and their arguments -/

theorem hands_pathType (h : Grammar.Covers rust (ruleBody .pathType) cs) :
    Hands source .pathType cs := by
  rw [Hands, keptOf_single h (by decide) rfl, ← segments_kept]
  rfl

theorem hands_qpathType (h : Grammar.Covers rust (ruleBody .qpathType) cs) :
    Hands source .qpathType cs := by
  rw [Hands, keptOf_triple h (by decide) rfl,
    ← type_kept h (by decide), ← path?_kept h (by decide), ← segments_kept, ← List.append_assoc]
  rfl

theorem segment_excerpts (turbofish : Bool) (ps : Parts) :
    (segment turbofish source ps).excerpts = argsExcerpts (Parts.args? ps) := by
  unfold segment
  split
  · next h => rw [h]; rfl
  · rfl

theorem hands_segment {r : Rule} (hr : r ∈ [Rule.pathSegment, .turbofishSegment])
    (h : Grammar.Covers rust (ruleBody r) cs) : Hands source r cs := by
  simp only [List.mem_cons, List.not_mem_nil, or_false] at hr
  rcases hr with rfl | rfl <;>
    rw [Hands, keptOf_single h (by decide) rfl, ← args?_kept h (by decide)] <;>
    exact segment_excerpts _ _

theorem hands_angleArgs (h : Grammar.Covers rust (ruleBody .angleArgs) cs) :
    Hands source .angleArgs cs := by
  rw [Hands, keptOf_single h (by decide) rfl, ← args_kept]
  rfl

theorem hands_bindingArg (h : Grammar.Covers rust (ruleBody .bindingArg) cs) :
    Hands source .bindingArg cs := by
  rw [Hands, keptOf_pair h (by decide) rfl,
    ← args?_kept h (by decide), ← type_kept h (by decide)]
  rfl

theorem hands_constraintArg (h : Grammar.Covers rust (ruleBody .constraintArg) cs) :
    Hands source .constraintArg cs := by
  rw [Hands, keptOf_pair h (by decide) rfl,
    ← args?_kept h (by decide), ← bounds_kept h (by decide)]
  rfl

variable (source) in
theorem isToken_phrase (k : Kind) (c : Syntax) : (phrase source c).isToken k = isLeaf k c := by
  cases c with
  | leaf t => rfl
  | node r ds => exact isToken_node k r ds

variable (source) in
theorem before_phrases (k : Kind) (cs : List Syntax) :
    before k (cs.map (phrase source)) = (ahead k cs).map (phrase source) := by
  rw [before, List.takeWhile_map, ahead]
  congr 2
  funext c
  exact congrArg not (isToken_phrase source k c)

variable (source) in
theorem after_phrases (k : Kind) (cs : List Syntax) :
    after k (cs.map (phrase source)) = (behind k cs).map (phrase source) := by
  rw [after, List.dropWhile_map, ← List.map_drop, behind]
  congr 3
  funext c
  exact congrArg not (isToken_phrase source k c)

variable (source) in
/-- The parts of what a function returns: nothing, or an arrow and a type. -/
theorem return_kept (h : Grammar.Covers rust Syn.plainReturn cs) :
    before .arrow (cs.map (phrase source)) = [] ∧
      outputExcerpts (Parts.type? (after .arrow (cs.map (phrase source)))) = keptAs source .type cs := by
  rcases h with ⟨_, vs, rfl, ⟨a, rfl, ha⟩, hvs⟩ | rfl
  · refine ⟨by simp [before, isToken_leaf, Token.is, kind_eq ha], ?_⟩
    have hafter : after .arrow (([(.leaf a : Syntax)] ++ vs).map (phrase source)) =
      vs.map (phrase source) := by
      simp [after, isToken_leaf, Token.is, kind_eq ha]
    rw [hafter, type?_kept hvs (by decide)]
    rfl
  · exact ⟨rfl, rfl⟩

theorem hands_parenArgs (h : Grammar.Covers rust (ruleBody .parenArgs) cs) :
    Hands source .parenArgs cs := by
  have hkept : keptOf source cs = keptAs source .type cs := keptOf_single h (by decide) rfl
  obtain ⟨l, _, rfl, hl, ts, _, rfl, hts, p, vs, rfl, hp, hvs⟩ := h
  have hfront : Grammar.Covers rust
      (.seq (Syn.k .lpar) (.seq (Expr.opt (Syn.commaList (Syn.use .type))) (Syn.k .rpar))) (l ++ (ts ++ p)) :=
    ⟨_, _, rfl, hl, _, _, rfl, hts, hp⟩
  have harrow := isToken_of_covers source hfront (k := .arrow) (by decide)
  have happend : l ++ (ts ++ (p ++ vs)) = (l ++ (ts ++ p)) ++ vs := by simp
  obtain ⟨hbefore, hafter⟩ := return_kept source hvs
  rw [Hands, hkept, happend, keptAs, List.flatMap_append, ← keptAs, ← keptAs, ← types_kept, ← hafter,
    List.map_append, ruleMeaning, parenArgs, before_append harrow, hbefore, List.append_nil,
    after_append harrow]
  rfl

/-! #### Types -/

variable (source) in
theorem exists_type_meaning {r : Rule} (hr : r.sense? = some .type) (ps : Parts) :
    ∃ t, ruleMeaning source r ps = .type t := by
  by_cases hchoice : r ∈ choices
  · exact exists_type source hchoice ps
  · cases r <;> first
      | exact ⟨_, rfl⟩
      | exact absurd (by decide) hchoice
      | exact absurd hr (by decide)

/-- What a choice between types means if one of them is there. -/
theorem choice_of_type {r : Rule} (hr : r ∈ choices) {p : Phrase} {t : TypeExpr}
    (hp : p.meaning = .type t) :
    ruleMeaning source r [p] = .type t := by
  simp only [choices, List.mem_cons, List.not_mem_nil, or_false] at hr
  rcases hr with rfl | rfl <;>
    simp [ruleMeaning, Parts.path?, Parts.type, Parts.type?, Parts.types, pick, hp]

/-- What a choice between types means if a path is there. -/
theorem choice_of_path {r : Rule} (hr : r ∈ choices) {p : Phrase} {x : Path} (hp : p.meaning = .path x) :
    ruleMeaning source r [p] = .type (.path x) := by
  simp only [choices, List.mem_cons, List.not_mem_nil, or_false] at hr
  rcases hr with rfl | rfl <;> simp [ruleMeaning, Parts.path?, pick, hp]

theorem hands_choice {r : Rule} (hr : r ∈ choices) (h : Grammar.Covers rust (ruleBody r) cs) :
    Hands source r cs := by
  obtain ⟨a, ha, _, rfl, ds, rfl, -⟩ := exists_alternative hr h.parses
  rw [Hands, keptOf, List.flatMap_singleton, List.map_singleton]
  by_cases hpath : a = .pathType
  · subst hpath
    have hmeaning : (phrase source (.node .pathType ds)).meaning = .path (path (ds.map (phrase source))) := by
      rw [phrase_node]
      rfl
    rw [choice_of_path hr hmeaning, hmeaning]
    rfl
  · have htype : a.sense? = some .type := by
      revert ha hpath
      simp only [choices, List.mem_cons, List.not_mem_nil, or_false] at hr
      rcases hr with rfl | rfl <;> cases a <;> decide
    obtain ⟨t, ht⟩ := exists_type_meaning source htype (ds.map (phrase source))
    have hmeaning : (phrase source (.node a ds)).meaning = .type t := by rw [phrase_node, ht]
    rw [choice_of_type hr hmeaning, hmeaning]

theorem hands_boundsType {r : Rule} (hr : r ∈ [Rule.implType, .dynType])
    (h : Grammar.Covers rust (ruleBody r) cs) : Hands source r cs := by
  simp only [List.mem_cons, List.not_mem_nil, or_false] at hr
  rcases hr with rfl | rfl <;>
    rw [Hands, keptOf_single h (by decide) rfl, ← bounds_kept h (by decide)] <;> rfl

theorem hands_boundType {r : Rule} (hr : r ∈ [Rule.implOneType, .dynOneType])
    (h : Grammar.Covers rust (ruleBody r) cs) : Hands source r cs := by
  simp only [List.mem_cons, List.not_mem_nil, or_false] at hr
  rcases hr with rfl | rfl <;>
    rw [Hands, keptOf_single h (by decide) rfl, ← eachBound_kept] <;> rfl

/-- A type around one other type, or an argument that is a type. -/
theorem hands_around {r : Rule} (hr : r ∈ [Rule.refType, .ptrType, .sliceType, .parenType, .typeArg])
    (h : Grammar.Covers rust (ruleBody r) cs) : Hands source r cs := by
  simp only [List.mem_cons, List.not_mem_nil, or_false] at hr
  rcases hr with rfl | rfl | rfl | rfl | rfl <;>
    rw [Hands, keptOf_single h (by decide) rfl, ← type_kept h (by decide)] <;> rfl

theorem hands_tupleType (h : Grammar.Covers rust (ruleBody .tupleType) cs) :
    Hands source .tupleType cs := by
  rw [Hands, keptOf_single h (by decide) rfl, ← types_kept]
  rfl

theorem hands_fnPtrType (h : Grammar.Covers rust (ruleBody .fnPtrType) cs) :
    Hands source .fnPtrType cs := by
  rw [Hands, keptOf_triple h (by decide) rfl,
    ← binder_kept h (by decide), ← bareArgs_kept, ← type?_kept h (by decide), ← List.append_assoc]
  rfl

/-- The attributes of a parameter of a function pointer are not kept. -/
theorem hands_bareFnArg (h : Grammar.Covers rust (ruleBody .bareFnArg) cs) :
    Hands source .bareFnArg cs := by
  have hattrs : keptAs source .attr cs = [] := List.flatMap_eq_nil_iff.2 fun c _ => by
    rw [kept]
    cases (phrase source c).meaning.as .attr <;> rfl
  rw [Hands, keptOf_pair h (by decide) rfl, hattrs, List.nil_append,
    ← type_kept h (by decide)]
  rfl

/-! ### The texts of a tree are kept -/

/-- The rules that keep a text of their own. -/
def ownTexts : List Rule := [.arrayType, .constArg, .macroType]

theorem hands_of_covers {r : Rule} (hr : r ∈ textRules) (hown : r ∉ ownTexts)
    (h : Grammar.Covers rust (ruleBody r) cs) : Hands source r cs := by
  cases r
  case typeBounds => exact hands_typeBounds h
  case forLifetimes => exact hands_forLifetimes h
  case bounds => exact hands_bounds h
  case traitBound => exact hands_traitBound h
  case parenBound => exact hands_parenBound h
  case whereClause => exact hands_whereClause h
  case typePredicate => exact hands_typePredicate h
  case type | typeNoBounds => exact hands_choice (by decide) h
  case implType | dynType => exact hands_boundsType (by decide) h
  case implOneType | dynOneType => exact hands_boundType (by decide) h
  case pathType => exact hands_pathType h
  case qpathType => exact hands_qpathType h
  case refType | ptrType | sliceType | parenType | typeArg => exact hands_around (by decide) h
  case tupleType => exact hands_tupleType h
  case fnPtrType => exact hands_fnPtrType h
  case pathSegment | turbofishSegment => exact hands_segment (by decide) h
  case angleArgs => exact hands_angleArgs h
  case parenArgs => exact hands_parenArgs h
  case bindingArg => exact hands_bindingArg h
  case constraintArg => exact hands_constraintArg h
  case bareFnArg => exact hands_bareFnArg h
  all_goals first
    | exact absurd hr (by decide)
    | exact absurd (by decide) hown
    | exact (keptOf_silent h hr rfl).symm

/-- The texts that are kept of a tree of a rule without a text of its own are those of its parts. -/
theorem textsOf_node {r : Rule} (hown : r ∉ ownTexts) (cs : List Syntax) :
    textsOf source (.node r cs) = textsIn source cs := by
  rw [textsOf] <;> rintro rfl <;> exact hown (by decide)

theorem excerpts_arrayType (h : Grammar.Covers rust (ruleBody .arrayType) cs)
    (hparts : keptOf source cs = textsIn source cs) :
    (ruleMeaning source .arrayType (cs.map (phrase source))).excerpts =
      textsOf source (.node .arrayType cs) := by
  rw [textsOf, ← hparts, keptOf_single h (by decide) rfl, ← type_kept h (by decide), ruleMeaning,
    arrayLength, after_phrases, ← List.map_dropLast, Parts.text, tokens_phrases]
  rfl

theorem excerpts_macroType (source : List Char) (cs : List Syntax) :
    (ruleMeaning source .macroType (cs.map (phrase source))).excerpts =
      textsOf source (.node .macroType cs) := by
  rw [textsOf, ruleMeaning, before_phrases, after_phrases, Parts.text, Parts.text, tokens_phrases,
    tokens_phrases]
  rfl

theorem excerpts_constArg (source : List Char) (cs : List Syntax) :
    (ruleMeaning source .constArg (cs.map (phrase source))).excerpts =
      textsOf source (.node .constArg cs) := by
  rw [textsOf, ruleMeaning, Parts.text, tokens_phrases]
  rfl

mutual

/-- Of a type, or of anything that can stand within one, all texts of its tree are kept, in order. -/
theorem excerpts_of_tree {r : Rule} (hr : r ∈ textRules) : ∀ {c : Syntax},
    (Grammar.Symbol.rule r).HasTree rust c → (phrase source c).meaning.excerpts = textsOf source c
  | .leaf _, ⟨_, h, _⟩ => by simp at h
  | .node a cs, h => by
    obtain ⟨ds, heq, hds⟩ := h
    obtain ⟨rfl, rfl⟩ := Grammar.Tree.node.inj heq
    have hcovers := parses_iff_covers.1 hds
    have hparts : keptOf source cs = textsIn source cs := excerpts_of_parts hr hcovers fun _ hc => hc
    rw [phrase_node]
    by_cases hown : a ∈ ownTexts
    · simp only [ownTexts, List.mem_cons, List.not_mem_nil, or_false] at hown
      rcases hown with rfl | rfl | rfl
      · exact excerpts_arrayType hcovers hparts
      · exact excerpts_constArg source cs
      · exact excerpts_macroType source cs
    · rw [textsOf_node hown, ← hparts]
      exact hands_of_covers hr hown hcovers
termination_by c => sizeOf c

theorem excerpts_of_parts {r : Rule} (hr : r ∈ textRules) {us : List Syntax}
    (h : Grammar.Covers rust (ruleBody r) us) : ∀ {cs : List Syntax}, cs ⊆ us →
    keptOf source cs = textsIn source cs
  | [], _ => rfl
  | d :: cs, hsub => by
    rw [keptOf, List.flatMap_cons, ← keptOf, textsIn,
      excerpts_of_parts hr h fun c hc => hsub (List.mem_cons_of_mem d hc)]
    congr 1
    cases d with
    | leaf t => rfl
    | node a es =>
      have hmem := hsub (List.mem_cons_self ..)
      exact excerpts_of_tree (textRules_closed r hr a (rust_listed a) (mentions_of_covers h hmem))
        ⟨es, rfl, h.parses.of_node_mem hmem⟩
termination_by cs => sizeOf cs

end

end Reading

end TraitLift
