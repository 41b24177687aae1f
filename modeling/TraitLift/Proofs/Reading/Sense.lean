import Mathlib.Tactic
import TraitLift.Proofs.Grammar.TrimTree
import TraitLift.Proofs.Node.Excerpt
import TraitLift.Proofs.Reading.Relocate

/-!
What the parts of a tree keep of their texts, sort by sort. A meaning lists what it is put together from by
sorts (`Sense`): first all parts of one sort, then those of the next. If the grammar lets no part of an
earlier sort follow one of a later sort, this is the order in which the parts are written (`keptOf_eq`).
-/

namespace TraitLift

open TraitLift.Grammar

/-! ### Parts of one rule -/

namespace Grammar

/-- Whether the tree belongs to a rule. -/
def isNode (r : Rule) : Syntax → Bool
  | .leaf _ => false
  | .node a _ => a = r

/-- The trees that belong to a rule. -/
def kids (r : Rule) (cs : List Syntax) : List Syntax := cs.filter (isNode r)

theorem kids_append (r : Rule) (cs ds : List Syntax) : kids r (cs ++ ds) = kids r cs ++ kids r ds :=
  List.filter_append ..

theorem isNode_of_ne {a r : Rule} (h : a ≠ r) (ds : List Syntax) : isNode r (.node a ds) = false :=
  decide_eq_false h

theorem exists_of_isNode {r : Rule} {c : Syntax} (h : isNode r c) : ∃ ds, c = .node r ds := by
  cases c with
  | leaf t => exact absurd h Bool.false_ne_true
  | node a ds => exact ⟨ds, by rw [of_decide_eq_true h]⟩

/-- An expression that does not use a rule gives no part of it. -/
theorem kids_eq_nil {r : Rule} {e : Syn} {cs : List Syntax} (h : Covers rust e cs)
    (hr : mentions r e = false) : kids r cs = [] := by
  refine List.filter_eq_nil_iff.2 fun c hc hnode => ?_
  obtain ⟨ds, rfl⟩ := exists_of_isNode hnode
  simp [mentions_of_covers h hc] at hr

end Grammar

/-! ### Sorts of meanings -/

/-- The sorts of meanings that the parts of a block are put together from. -/
inductive Sense where
  | attr | params | param | fnArg | function | value | definition | target | body
  | type | path | segment | args | arg | bareArg | binder | lifetimeParam | bounds | bound | clause
  | predicate
deriving DecidableEq

namespace Sense

/-- Every sort. -/
def all : List Sense :=
  [attr, params, param, fnArg, function, value, definition, target, body, type, path, segment, args, arg,
   bareArg, binder, lifetimeParam, bounds, bound, clause, predicate]

theorem mem_all (s : Sense) : s ∈ all := by cases s <;> decide

/-- What is meant. -/
abbrev Value : Sense → Type
  | attr => Attribute
  | params => List GenericParam
  | param => GenericParam
  | fnArg => Except Fault FnArg
  | function => Except Fault Signature × Option String
  | value => String
  | definition => TypeExpr × Option (List Predicate)
  | target => Option TraitRef × TypeExpr
  | body => List Attribute × List (Except Fault Member)
  | type => TypeExpr
  | path => Path
  | segment => Segment
  | args => GenericArgs
  | arg => GenericArg
  | bareArg => BareArg
  | binder => List LifetimeParam
  | lifetimeParam => LifetimeParam
  | bounds => List Bound
  | bound => Bound
  | clause => List Predicate
  | predicate => Predicate

/-- The texts that are kept of what is meant within a type. -/
def excerpts : (s : Sense) → s.Value → List Excerpt
  | type, t => TypeExpr.excerpts t
  | path, p => Path.excerpts p
  | segment, s => Segment.excerpts s
  | args, a => GenericArgs.excerpts a
  | arg, a => GenericArg.excerpts a
  | bareArg, a => BareArg.excerpts a
  | binder, ls => binderExcerpts ls
  | lifetimeParam, l => LifetimeParam.excerpts l
  | bounds, bs => boundExcerpts bs
  | bound, b => Bound.excerpts b
  | clause, ps => predicateExcerpts ps
  | predicate, p => Predicate.excerpts p
  | attr, _ | params, _ | param, _ | fnArg, _ | function, _ | value, _ | definition, _ | target, _
  | body, _ => []

end Sense

/-- The sort of what a rule means. -/
def Grammar.Rule.sense? : Rule → Option Sense
  | .outerAttr | .innerAttr => some .attr
  | .generics => some .params
  | .genericParam | .typeParam | .constParam => some .param
  | .fnParam => some .fnArg
  | .fnItem => some .function
  | .constInit => some .value
  | .typeDef => some .definition
  | .inherentTarget | .traitTarget => some .target
  | .implBody => some .body
  | .type | .typeNoBounds | .implType | .dynType | .implOneType | .dynOneType | .qpathType | .refType
  | .ptrType | .sliceType | .arrayType | .tupleType | .parenType | .neverType | .inferType | .fnPtrType
  | .macroType => some .type
  | .pathType => some .path
  | .pathSegment | .turbofishSegment => some .segment
  | .angleArgs | .parenArgs => some .args
  | .typeArg | .lifetimeArg | .constArg | .bindingArg | .constraintArg => some .arg
  | .bareFnArg => some .bareArg
  | .forLifetimes => some .binder
  | .lifetimeParam => some .lifetimeParam
  | .bounds | .typeBounds => some .bounds
  | .lifetimeBound | .traitBound | .parenBound => some .bound
  | .whereClause => some .clause
  | .lifetimePredicate | .typePredicate => some .predicate
  | _ => none

namespace Meaning

/-- What is meant, if it is of the sort `s`. -/
def as : (s : Sense) → Meaning → Option s.Value
  | .attr => fun | .attr x => some x | _ => none
  | .params => fun | .params x => some x | _ => none
  | .param => fun | .param x => some x | _ => none
  | .fnArg => fun | .fnArg x => some x | _ => none
  | .function => fun | .function x y => some (x, y) | _ => none
  | .value => fun | .value x => some x | _ => none
  | .definition => fun | .definition x y => some (x, y) | _ => none
  | .target => fun | .target x y => some (x, y) | _ => none
  | .body => fun | .body x y => some (x, y) | _ => none
  | .type => fun | .type x => some x | _ => none
  | .path => fun | .path x => some x | _ => none
  | .segment => fun | .segment x => some x | _ => none
  | .args => fun | .args x => some x | _ => none
  | .arg => fun | .arg x => some x | _ => none
  | .bareArg => fun | .bareArg x => some x | _ => none
  | .binder => fun | .binder x => some x | _ => none
  | .lifetimeParam => fun | .lifetimeParam x => some x | _ => none
  | .bounds => fun | .bounds x => some x | _ => none
  | .bound => fun | .bound x => some x | _ => none
  | .clause => fun | .clause x => some x | _ => none
  | .predicate => fun | .predicate x => some x | _ => none

/-- The sort of a meaning. -/
def sense? : Meaning → Option Sense
  | .attr _ => some .attr
  | .params _ => some .params
  | .param _ => some .param
  | .fnArg _ => some .fnArg
  | .function .. => some .function
  | .value _ => some .value
  | .definition .. => some .definition
  | .target .. => some .target
  | .body .. => some .body
  | .type _ => some .type
  | .path _ => some .path
  | .segment _ => some .segment
  | .args _ => some .args
  | .arg _ => some .arg
  | .bareArg _ => some .bareArg
  | .binder _ => some .binder
  | .lifetimeParam _ => some .lifetimeParam
  | .bounds _ => some .bounds
  | .bound _ => some .bound
  | .clause _ => some .clause
  | .predicate _ => some .predicate
  | _ => none

/-- Whether a part is only kept as text. -/
def isPlain : Meaning → Bool
  | .plain => true
  | _ => false

/-- The texts that are kept of a meaning of the sort `s`. -/
def kept (s : Sense) (m : Meaning) : List Excerpt := ((m.as s).map s.excerpts).getD []

/-- The texts that are kept of a meaning. -/
def excerpts (m : Meaning) : List Excerpt := (m.sense?.map (kept · m)).getD []

theorem sense?_of_as {s : Sense} {m : Meaning} {b : s.Value} (h : m.as s = some b) :
    m.sense? = some s := by
  cases s <;> simp only [as] at h <;> split at h <;> first | rfl | simp at h

theorem kept_eq_nil {s : Sense} {m : Meaning} (h : m.sense? ≠ some s) : m.kept s = [] := by
  rw [kept, Option.eq_none_iff_forall_not_mem.2 fun b hb => h (sense?_of_as hb)]
  rfl

/-- Of a meaning that is of one of some sorts, what is kept is what is kept of it as any of them. -/
theorem flatMap_kept {m : Meaning} : ∀ ss : List Sense, ss.Nodup →
    (∀ s, m.sense? = some s → s ∈ ss) → ss.flatMap (kept · m) = m.excerpts
  | [], _, h => by
    rw [excerpts, Option.eq_none_iff_forall_not_mem.2 fun s hs => List.not_mem_nil (h s hs)]
    rfl
  | s :: ss, hnodup, h => by
    obtain ⟨hs, hnodup⟩ := List.nodup_cons.1 hnodup
    rw [List.flatMap_cons]
    by_cases hsense : m.sense? = some s
    · have hrest : ss.flatMap (kept · m) = [] := List.flatMap_eq_nil_iff.2 fun t ht =>
        kept_eq_nil fun heq => hs (Option.some.inj (hsense.symm.trans heq) ▸ ht)
      rw [hrest, List.append_nil, excerpts, hsense]
      rfl
    · rw [kept_eq_nil hsense, List.nil_append]
      refine flatMap_kept ss hnodup fun t ht => (List.mem_cons.1 (h t ht)).resolve_left ?_
      rintro rfl
      exact hsense ht

end Meaning

/-! ### The order of the parts -/

namespace Grammar

/-- Whether an expression uses a rule of a sort. -/
def uses (s : Sense) : Syn → Bool
  | .empty | .tok _ => false
  | .rule r => r.sense? = some s
  | .seq e f | .alt e f => uses s e || uses s f
  | .star e => uses s e

/-- Whether a rule of the sort `t` can be used behind one of the sort `s` in an expression. -/
def follows (s t : Sense) : Syn → Bool
  | .seq e f => follows s t e || follows s t f || (uses s e && uses t f)
  | .alt e f => follows s t e || follows s t f
  | .star e => follows s t e || (uses s e && uses t e)
  | .empty | .tok _ | .rule _ => false

/-- The tree belongs to a rule of a sort. -/
def IsOf (s : Sense) (c : Syntax) : Prop := ∃ r ds, c = .node r ds ∧ r.sense? = some s

theorem uses_of_covers {s : Sense} {c : Syntax} (hc : IsOf s c) : ∀ {e : Syn} {us : List Syntax},
    Covers rust e us → c ∈ us → uses s e
  | .empty, _, h, hmem => by
    obtain rfl := h
    simp at hmem
  | .tok _, _, h, hmem => by
    obtain ⟨t, rfl, -⟩ := h
    obtain ⟨r, ds, rfl, -⟩ := hc
    simp at hmem
  | .rule b, _, h, hmem => by
    obtain ⟨cs, rfl, -⟩ := h
    obtain ⟨r, ds, rfl, hr⟩ := hc
    obtain ⟨rfl, -⟩ := Tree.node.inj (List.mem_singleton.1 hmem)
    exact decide_eq_true hr
  | .seq e f, _, h, hmem => by
    obtain ⟨us, vs, rfl, he, hf⟩ := h
    rw [uses, Bool.or_eq_true]
    exact (List.mem_append.1 hmem).imp (uses_of_covers hc he) (uses_of_covers hc hf)
  | .alt e f, _, h, hmem => by
    rw [uses, Bool.or_eq_true]
    exact h.imp (uses_of_covers hc · hmem) (uses_of_covers hc · hmem)
  | .star e, _, h, hmem => by
    obtain ⟨pss, rfl, hall⟩ := h
    obtain ⟨us, hus, hmem⟩ := List.mem_flatten.1 hmem
    exact uses_of_covers (e := e) hc (hall us hus) hmem

/-- Of two parts the sort of the second can follow that of the first. -/
def InTurn (e : Syn) (c d : Syntax) : Prop := ∀ s t, IsOf s c → IsOf t d → follows s t e

theorem inTurn_of_covers : ∀ {e : Syn} {cs : List Syntax}, Covers rust e cs → cs.Pairwise (InTurn e)
  | .empty, _, h => by
    obtain rfl := h
    exact .nil
  | .tok _, _, h => by
    obtain ⟨t, rfl, -⟩ := h
    exact List.pairwise_singleton ..
  | .rule _, _, h => by
    obtain ⟨ds, rfl, -⟩ := h
    exact List.pairwise_singleton ..
  | .seq e f, _, h => by
    obtain ⟨us, vs, rfl, hus, hvs⟩ := h
    refine List.pairwise_append.2 ⟨(inTurn_of_covers hus).imp ?_, (inTurn_of_covers hvs).imp ?_, ?_⟩
    · intro c d hcd s t hc hd
      simp [follows, hcd s t hc hd]
    · intro c d hcd s t hc hd
      simp [follows, hcd s t hc hd]
    · intro c hcmem d hdmem s t hc hd
      simp [follows, uses_of_covers hc hus hcmem, uses_of_covers hd hvs hdmem]
  | .alt e f, _, h => by
    rcases h with h | h
    · refine (inTurn_of_covers h).imp fun hcd s t hc hd => ?_
      simp [follows, hcd s t hc hd]
    · refine (inTurn_of_covers h).imp fun hcd s t hc hd => ?_
      simp [follows, hcd s t hc hd]
  | .star e, _, h => by
    obtain ⟨pss, rfl, hpss⟩ := h
    refine List.pairwise_flatten.2 ⟨fun us hus => ?_, List.pairwise_of_forall_mem_list ?_⟩
    · refine (inTurn_of_covers (hpss us hus)).imp fun hcd s t hc hd => ?_
      simp [follows, hcd s t hc hd]
    · intro us hus vs hvs c hcmem d hdmem s t hc hd
      simp [follows, uses_of_covers hc (hpss us hus) hcmem, uses_of_covers hd (hpss vs hvs) hdmem]

/-- The rule `r` is the only one of its sort in an expression. -/
def Lone (r : Rule) (e : Syn) : Prop := ∀ a ∈ Rule.all, mentions a e → a.sense? = r.sense? → a = r

instance {r : Rule} {e : Syn} : Decidable (Lone r e) := by
  unfold Lone
  infer_instance

end Grammar

/-- If nothing of one sort stands behind something of another, the two can be read one after the
other or together. -/
theorem flatMap_append_flatMap {α β : Type} {g h : α → List β} : ∀ {l : List α},
    (l.Pairwise fun a b => h a = [] ∨ g b = []) →
    l.flatMap g ++ l.flatMap h = l.flatMap fun a => g a ++ h a
  | [], _ => rfl
  | a :: as, hl => by
    obtain ⟨ha, hl⟩ := List.pairwise_cons.1 hl
    rw [List.flatMap_cons, List.flatMap_cons, List.flatMap_cons, ← flatMap_append_flatMap hl]
    by_cases hnil : h a = []
    · simp [hnil]
    · have hrest : as.flatMap g = [] :=
        List.flatMap_eq_nil_iff.2 fun b hb => (ha b hb).resolve_left hnil
      simp [hrest]

/-- What stands in the order of some sorts can be read sort by sort. -/
theorem flatMap_comm_of_pairwise {α σ β : Type} {R : α → α → Prop} {g : σ → α → List β} {l : List α}
    (hl : l.Pairwise R) : ∀ ss : List σ,
    (∀ a b, R a b → ss.Pairwise fun s t => g t a = [] ∨ g s b = []) →
    ss.flatMap (fun s => l.flatMap (g s)) = l.flatMap fun a => ss.flatMap (g · a)
  | [], _ => by simp
  | s :: ss, h => by
    rw [List.flatMap_cons,
      flatMap_comm_of_pairwise hl ss fun a b hab => (List.pairwise_cons.1 (h a b hab)).2]
    refine flatMap_append_flatMap (hl.imp fun {a b} hab => ?_)
    by_cases hb : g s b = []
    · exact .inr hb
    · refine .inl (List.flatMap_eq_nil_iff.2 fun t ht => ?_)
      exact ((List.pairwise_cons.1 (h a b hab)).1 t ht).resolve_right hb

namespace Reading

open Parts (pick)
open Meaning (as kept)

variable {source : List Char} {cs : List Syntax} {e : Syn} {s : Sense}

/-! ### What the parts keep -/

/-- The texts that are kept of parts of one sort. -/
def keptAs (source : List Char) (s : Sense) (cs : List Syntax) : List Excerpt :=
  cs.flatMap fun c => (phrase source c).meaning.kept s

/-- The texts that are kept of all parts. -/
def keptOf (source : List Char) (cs : List Syntax) : List Excerpt :=
  cs.flatMap fun c => (phrase source c).meaning.excerpts

/-- What a rule means is of the sort of the rule. -/
theorem sense?_ruleMeaning {r : Rule} {ps : Parts} (h : (ruleMeaning source r ps).sense? = some s) :
    r.sense? = some s := by
  revert h
  cases r <;> first
    | exact id
    | rintro ⟨⟩
    | (simp only [ruleMeaning, genericParam]; split <;> first | exact id | rintro ⟨⟩)

theorem isOf_phrase {c : Syntax} (h : (phrase source c).meaning.sense? = some s) : IsOf s c := by
  cases c with
  | leaf t => cases h
  | node r ds =>
    rw [phrase_node] at h
    exact ⟨r, ds, rfl, sense?_ruleMeaning h⟩

/-- What parts keep that stand in the order of some sorts. -/
theorem keptOf_eq (ss : List Sense) (h : Grammar.Covers rust e cs)
    (hall : ∀ s ∈ Sense.all, uses s e → s ∈ ss) (hnodup : ss.Nodup)
    (horder : ss.Pairwise fun s t => follows t s e = false) :
    keptOf source cs = ss.flatMap (keptAs source · cs) := by
  have hcomm := flatMap_comm_of_pairwise (g := fun s c => (phrase source c).meaning.kept s)
    (inTurn_of_covers h) ss fun c d hcd => horder.imp fun {s t} hst => ?_
  · rw [show ss.flatMap (keptAs source · cs) = _ from hcomm]
    refine List.flatMap_congr fun c hc => (Meaning.flatMap_kept ss hnodup fun s hs => ?_).symm
    exact hall s (Sense.mem_all s) (uses_of_covers (isOf_phrase hs) h hc)
  · by_contra hne
    obtain ⟨hc, hd⟩ := not_or.1 hne
    have hturn := hcd t s (isOf_phrase (not_imp_comm.1 Meaning.kept_eq_nil hc))
      (isOf_phrase (not_imp_comm.1 Meaning.kept_eq_nil hd))
    simp [hst] at hturn

/-- Of a sort that an expression does not use, nothing is picked. -/
theorem pick_eq_nil (h : Grammar.Covers rust e cs) (hs : uses s e = false) :
    pick (as s) (cs.map (phrase source)) = [] := by
  refine List.filterMap_eq_nil_iff.2 (List.forall_mem_map.2 fun c hc => ?_)
  refine Option.eq_none_iff_forall_not_mem.2 fun x hx => ?_
  simp [uses_of_covers (isOf_phrase (Meaning.sense?_of_as hx)) h hc] at hs

/-- What is picked of one sort keeps what the parts of this sort keep. -/
theorem flatMap_pick (s : Sense) (cs : List Syntax) :
    (pick (as s) (cs.map (phrase source))).flatMap s.excerpts = keptAs source s cs := by
  induction cs with
  | nil => rfl
  | cons c cs ih =>
    rw [keptAs, List.flatMap_cons, ← keptAs, ← ih, kept, List.map_cons, pick, pick, List.filterMap_cons]
    cases (phrase source c).meaning.as s <;> simp

variable (source) in
/-- At most one part is of a sort that cannot follow itself. -/
theorem pick_cases (h : Grammar.Covers rust e cs) (hs : follows s s e = false) :
    pick (as s) (cs.map (phrase source)) = [] ∨ ∃ b, pick (as s) (cs.map (phrase source)) = [b] := by
  have hone : cs.Pairwise fun c d => (phrase source c).meaning.as s = none ∨
      (phrase source d).meaning.as s = none := by
    refine (inTurn_of_covers h).imp fun {c d} hcd => ?_
    by_contra hne
    obtain ⟨hc, hd⟩ := not_or.1 hne
    obtain ⟨x, hx⟩ := Option.ne_none_iff_exists'.1 hc
    obtain ⟨y, hy⟩ := Option.ne_none_iff_exists'.1 hd
    have hturn := hcd s s (isOf_phrase (Meaning.sense?_of_as hx)) (isOf_phrase (Meaning.sense?_of_as hy))
    simp [hs] at hturn
  clear h
  induction cs with
  | nil => exact .inl rfl
  | cons c cs ih =>
    obtain ⟨hc, hcs⟩ := List.pairwise_cons.1 hone
    rw [List.map_cons, pick, List.filterMap_cons]
    cases hx : (phrase source c).meaning.as s with
    | none => exact ih hcs
    | some x =>
      refine .inr ⟨x, ?_⟩
      have hrest : (cs.map (phrase source)).filterMap (fun p => p.meaning.as s) = [] :=
        List.filterMap_eq_nil_iff.2 (List.forall_mem_map.2 fun d hd => (hc d hd).resolve_left (by simp [hx]))
      simp [hrest]

/-- The one part of a sort keeps what all of them keep. -/
theorem head_kept (h : Grammar.Covers rust e cs) (hs : follows s s e = false)
    {g : Option s.Value → List Excerpt}
    (hnone : g none = []) (hsome : ∀ b, g (some b) = s.excerpts b) :
    g (pick (as s) (cs.map (phrase source))).head? = keptAs source s cs := by
  rw [← flatMap_pick]
  rcases pick_cases source h hs with hpick | ⟨b, hpick⟩ <;> rw [hpick]
  · exact hnone
  · simpa using hsome b

/-! ### The parts of one rule -/

variable {r : Rule}

/-- Only the trees of the one rule of a sort mean something of this sort. -/
theorem as_eq_none (h : Grammar.Covers rust e cs) (hs : r.sense? = some s) (hlone : Lone r e) {c : Syntax}
    (hc : c ∈ cs) (hr : isNode r c = false) : (phrase source c).meaning.as s = none := by
  by_contra hne
  obtain ⟨x, hx⟩ := Option.ne_none_iff_exists'.1 hne
  obtain ⟨a, ds, rfl, ha⟩ := isOf_phrase (Meaning.sense?_of_as hx)
  obtain rfl := hlone a (rust_listed a) (mentions_of_covers h hc) (ha.trans hs.symm)
  simp [isNode] at hr

/-- What is picked comes tree by tree from the trees of one rule, if each of them gives something. -/
theorem forall₂_pick {β : Type} {f : Meaning → Option β} {R : β → Syntax → Prop}
    (hnone : ∀ c ∈ cs, isNode r c = false → f (phrase source c).meaning = none)
    (hsome : ∀ ds, .node r ds ∈ cs →
      ∃ b, f (ruleMeaning source r (ds.map (phrase source))) = some b ∧
      R b (.node r ds)) :
    List.Forall₂ R (pick f (cs.map (phrase source))) (kids r cs) := by
  induction cs with
  | nil => exact .nil
  | cons c cs ih =>
    have hrest := ih (fun d hd => hnone d (List.mem_cons_of_mem c hd))
      (fun ds hds => hsome ds (List.mem_cons_of_mem c hds))
    rw [List.map_cons, pick, List.filterMap_cons, kids, List.filter_cons, ← kids]
    by_cases hc : isNode r c
    · obtain ⟨ds, rfl⟩ := exists_of_isNode hc
      obtain ⟨b, hb, hR⟩ := hsome ds (List.mem_cons_self ..)
      rw [if_pos hc, phrase_node, hb]
      exact .cons hR hrest
    · rw [if_neg hc, hnone c (List.mem_cons_self ..) (by simpa using hc)]
      exact hrest

/-- Whether what the rule covers is only kept as text. -/
def isText : Rule → Bool
  | .plainPath | .foreignHead | .constValue | .parenTree | .bracketTree | .braceTree => true
  | _ => false

/-- The rules that may mean nothing. -/
def unsure : List Rule := [.marker, .genericParam, .parenBound]

theorem isPlain_ruleMeaning {a : Rule} (ha : a ∉ unsure) (ps : Parts) :
    (ruleMeaning source a ps).isPlain = isText a := by
  cases a <;> first
    | rfl
    | (simp only [ruleMeaning]; split <;> rfl)
    | exact absurd (by decide) ha

/-- If one rule is the only one in an expression of which a text is kept, the trees of this rule are the
parts that are only kept as text. -/
theorem plain_eq_kids (h : Grammar.Covers rust e cs)
    (honly : ∀ a ∈ Rule.all, mentions a e → a ∉ unsure ∧ (isText a ↔ a = r)) :
    Parts.plain (cs.map (phrase source)) = (kids r cs).map (phrase source) := by
  change (cs.map (phrase source)).filter (fun p => p.meaning.isPlain) = _
  rw [List.filter_map]
  refine congrArg _ (List.filter_congr fun c hc => ?_)
  cases c with
  | leaf t => rfl
  | node a ds =>
    obtain ⟨ha, htext⟩ := honly a (rust_listed a) (mentions_of_covers h hc)
    rw [Function.comp_apply, phrase_node, isPlain_ruleMeaning ha, Bool.eq_iff_iff, htext]
    exact decide_eq_true_iff.symm

end Reading

end TraitLift
