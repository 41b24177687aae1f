import TraitLift.Proofs.Reading.Excerpt
import TraitLift.Proofs.Reading.Flaw

/-!
What the head of a function quotes. Its generic parameters and the parameters between its round brackets
are read one by one from trees of their own, and each keeps as attributes, pattern, default value and texts
of types what its tree has in these places (`GenericParam.Quotes`, `FnArg.Quotes`, `Signature.Quotes`).
-/

namespace TraitLift

open TraitLift.Grammar

/-! ### What a tree has in its places -/

/-- The attributes among some parts, each as it is written. -/
def attributesIn (source : List Char) (cs : List Syntax) : List Attribute :=
  (kids .outerAttr cs).map fun c => ⟨sliceOf source c.leaves, false⟩

/-- The trees of the generic parameters that are declared among some parts. -/
def paramsIn (cs : List Syntax) : List Syntax :=
  (kids .generics cs).flatMap fun c => kids .genericParam (partsOf c)

/-- `p.Quotes source c`: the generic parameter was read from the tree `c`, which is made of attributes and of
what tells its kind, and keeps the texts of it, each in its place. -/
inductive GenericParam.Quotes (source : List Char) : GenericParam → Syntax → Prop
  | lifetime {p : LifetimeParam} {as ds : List Syntax} (attrs : p.attrs = attributesIn source as) :
      Quotes source (.lifetime p) (.node .genericParam (as ++ [Grammar.Tree.node .lifetimeParam ds]))
  | type {name : String} {bs : List Bound} {fallback : Option TypeExpr} {as ds : List Syntax}
      (bounds : boundExcerpts bs = textsIn source (kids .bounds ds))
      (fallback_texts : outputExcerpts fallback = textsIn source (kids .type ds)) :
      Quotes source (.type name bs fallback (attributesIn source as))
        (.node .genericParam (as ++ [Grammar.Tree.node .typeParam ds]))
  | const {name : String} {ty : TypeExpr} {as ds : List Syntax}
      (type_texts : ty.excerpts = textsIn source (kids .type ds)) :
      Quotes source
        (.const name ty ((kids .constValue ds).head?.map fun c => sliceOf source c.leaves)
          (attributesIn source as))
        (.node .genericParam (as ++ [Grammar.Tree.node .constParam ds]))

/-- `a.Quotes source c`: the parameter was read from the tree `c`, which is made of attributes, of a pattern
and perhaps of a type. The tokens of the pattern tell whether it is a receiver or stands for all further
parameters; otherwise its text is kept. -/
inductive FnArg.Quotes (source : List Char) : FnArg → Syntax → Prop
  | receiver {reference mutable : Bool} {lifetime : Option String} {ty : Option TypeExpr}
      {ps as row ts : List Syntax} (parts : ParamParts ps as row ts)
      (self : (leavesOf row).map Token.kind ∈ if reference then Kind.borrowedSelves else Kind.ownedSelves)
      (type_texts : outputExcerpts ty = textsIn source (kids .type ts)) :
      Quotes source (.receiver reference lifetime mutable ty (attributesIn source as)) (.node .fnParam ps)
  | typed {ty : TypeExpr} {ps as row ts : List Syntax} (parts : ParamParts ps as row ts)
      (self : (leavesOf row).map Token.kind ∉ Kind.borrowedSelves ++ Kind.ownedSelves)
      (type_texts : ty.excerpts = textsIn source (kids .type ts)) :
      Quotes source (.typed (sliceOf source (leavesOf row)) ty (attributesIn source as)) (.node .fnParam ps)
  | variadic {ps as row : List Syntax} (parts : ParamParts ps as row [])
      (dots : (leavesOf row).map Token.kind = [.ellipsis]) :
      Quotes source (.variadic none (attributesIn source as)) (.node .fnParam ps)

/-- `s.Quotes source fs`: the head was read from the parts `fs` of a function. -/
structure Signature.Quotes (source : List Char) (s : Signature) (fs : List Syntax) : Prop where
  params : List.Forall₂ (GenericParam.Quotes source) s.generics.params (paramsIn fs)
  inputs : List.Forall₂ (FnArg.Quotes source) s.inputs (kids .fnParam fs)
  output : outputExcerpts s.output = textsIn source (kids .type fs)
  predicates : predicateExcerpts s.generics.predicates = textsIn source (kids .whereClause fs)

namespace Reading

open Parts (pick)
open Meaning (as kept)

variable {source : List Char} {cs : List Syntax} {e : Syn} {s : Sense} {r : Rule}

/-! ### The texts of parts of one rule -/

/-- What parts of one sort keep are the texts of the trees of their rule. -/
theorem keptAs_eq_textsIn (h : Grammar.Covers rust e cs) (hr : r ∈ textRules) (hs : r.sense? = some s)
    (hlone : Lone r e) : keptAs source s cs = textsIn source (kids r cs) := by
  have hpart : ∀ c ∈ cs, (phrase source c).meaning.kept s =
    textsIn source (if isNode r c then [c] else []) := by
    intro c hc
    by_cases hnode : isNode r c
    · obtain ⟨ds, rfl⟩ := exists_of_isNode hnode
      have htree : (Grammar.Symbol.rule r).HasTree rust (.node r ds) := ⟨ds, rfl, h.parses.of_node_mem hc⟩
      rw [if_pos hnode, textsIn_singleton, ← excerpts_of_tree hr htree,
        ← Meaning.flatMap_kept [s] (List.nodup_singleton s), List.flatMap_singleton]
      intro t ht
      obtain ⟨a, _, heq, ha⟩ := isOf_phrase ht
      obtain ⟨rfl, -⟩ := Grammar.Tree.node.inj heq
      exact List.mem_singleton.2 (Option.some.inj (ha.symm.trans hs))
    · rw [if_neg hnode, kept, as_eq_none h hs hlone hc (by simpa using hnode)]
      rfl
  clear h
  induction cs with
  | nil => rfl
  | cons c cs ih =>
    rw [keptAs, List.flatMap_cons, ← keptAs, ih fun d hd => hpart d (List.mem_cons_of_mem c hd),
      hpart c (List.mem_cons_self ..), ← textsIn_append, kids, kids, List.filter_cons]
    split <;> rfl

variable (source) in
/-- The attributes among some parts are the texts of their trees. -/
theorem attrs_eq (h : Grammar.Covers rust e cs) (hlone : Lone .outerAttr e) :
    Parts.attrs (cs.map (phrase source)) = attributesIn source cs := by
  have hforall : List.Forall₂ (fun a c => a = (⟨sliceOf source c.leaves, false⟩ : Attribute))
      (pick (as .attr) (cs.map (phrase source))) (kids .outerAttr cs) := by
    refine forall₂_pick (fun c hc hr => as_eq_none h rfl hlone hc hr) fun ds hds => ?_
    refine ⟨_, rfl, ?_⟩
    rw [Parts.text, tokens_phrases, Grammar.Tree.leaves]
  exact List.forall₂_eq_eq_eq ▸ List.forall₂_map_right_iff.2 hforall

/-! ### Generic parameters -/

/-- The rule `r` is the only one of its sort in an expression, and is used at most once. -/
def Single (r : Rule) (s : Sense) (e : Syn) : Prop := r.sense? = some s ∧ Lone r e ∧ follows s s e = false

instance : Decidable (Single r s e) := by
  unfold Single
  infer_instance

theorem type_texts (h : Grammar.Covers rust e cs) (hs : Single .type .type e) :
    (Parts.type (cs.map (phrase source))).excerpts = textsIn source (kids .type cs) := by
  rw [type_kept h hs.2.2, keptAs_eq_textsIn h (by decide) rfl hs.2.1]

variable (source) in
theorem type?_texts (h : Grammar.Covers rust e cs) (hs : Single .type .type e) :
    outputExcerpts (Parts.type? (cs.map (phrase source))) = textsIn source (kids .type cs) := by
  rw [type?_kept h hs.2.2, keptAs_eq_textsIn h (by decide) rfl hs.2.1]

theorem bounds_texts (h : Grammar.Covers rust e cs) (hr : r ∈ textRules) (hs : Single r .bounds e) :
    boundExcerpts (Parts.bounds (cs.map (phrase source))) = textsIn source (kids r cs) := by
  rw [bounds_kept h hs.2.2, keptAs_eq_textsIn h hr hs.1 hs.2.1]

variable (source) in
theorem clause_texts (h : Grammar.Covers rust e cs) (hs : Single .whereClause .clause e) :
    predicateExcerpts ((Parts.clause? (cs.map (phrase source))).getD []) =
      textsIn source (kids .whereClause cs) := by
  rw [← keptAs_eq_textsIn h (by decide) rfl hs.2.1]
  exact head_kept (g := fun o : Option (List Predicate) => predicateExcerpts (o.getD [])) h hs.2.2 rfl
    fun _ => rfl

/-- A generic parameter is made of its attributes and of one tree that tells its kind. -/
theorem exists_genericParam (h : Grammar.Covers rust (ruleBody .genericParam) cs) :
    ∃ (as : List Syntax) (r : Rule) (ds : List Syntax), cs = as ++ [Grammar.Tree.node r ds] ∧
      Grammar.Covers rust Syn.attrs as ∧ r ∈ [Rule.lifetimeParam, .typeParam, .constParam] ∧
      Parses rust [ruleBody r] ds := by
  obtain ⟨as, vs, rfl, has, hvs⟩ := h
  obtain ⟨r, hr, c, rfl, ds, rfl, hds⟩ : ∃ r ∈ [Rule.lifetimeParam, .typeParam, .constParam], ∃ c,
      vs = [c] ∧ (Grammar.Symbol.rule r).HasTree rust c := exists_of_covers_any (by decide) hvs
  exact ⟨as, r, ds, rfl, has, hr, hds⟩

/-- The generic parameter that a part means, before it gets its attributes. -/
def generic? : Meaning → Option GenericParam
  | .param p => some p
  | .lifetimeParam p => some (.lifetime p)
  | _ => none

theorem genericParam_eq {ps : Parts} {p : GenericParam} (h : pick generic? ps = [p]) :
    genericParam ps = .param (withAttrs (Parts.attrs ps) p) := by
  have hhead : (pick generic? ps).head? = some p := by rw [h]; rfl
  rw [genericParam]
  split
  · next p' hp =>
    obtain rfl : p' = p := Option.some.inj (hp.symm.trans hhead)
    rfl
  · next hp => cases hp.symm.trans hhead

/-- Attributes mean no parameter. -/
theorem pick_generic {as ds : List Syntax} (has : Grammar.Covers rust Syn.attrs as) {p : GenericParam}
    (hp : generic? (ruleMeaning source r (ds.map (phrase source))) = some p) :
    pick generic? ((as ++ [(.node r ds : Syntax)]).map (phrase source)) = [p] := by
  have hall : ∀ a ∈ Rule.all, mentions a Syn.attrs → a = .outerAttr := by decide
  rw [List.map_append, pick_append, pick_of_covers (fun _ => rfl) (fun a ha ps => ?_) has, List.map_singleton,
    pick_node hp]
  · rfl
  · obtain rfl := hall a (rust_listed a) ha
    rfl

/-- The default value of a constant parameter is kept as it is written. -/
theorem fallback_constParam (h : Grammar.Covers rust (ruleBody .constParam) cs) :
    (if (Parts.plain (cs.map (phrase source))).isEmpty then none
      else some (Parts.text source (Parts.plain (cs.map (phrase source))))) =
      (kids .constValue cs).head?.map fun c => sliceOf source c.leaves := by
  have hkids : kids .constValue cs = [] ∨ ∃ vs, kids .constValue cs = [.node .constValue vs] := by
    obtain ⟨_, _, rfl, ⟨c, rfl, -⟩, _, _, rfl, ⟨n, rfl, -⟩, _, _, rfl,
      ⟨o, rfl, -⟩, _, ds, rfl, ⟨es, rfl, -⟩, hds⟩ := h
    rcases hds with ⟨_, _, rfl, ⟨e, rfl, -⟩, vs, rfl, -⟩ | rfl
    · exact .inr ⟨vs, rfl⟩
    · exact .inl rfl
  rw [plain_eq_kids (r := .constValue) h (by decide)]
  rcases hkids with hkids | ⟨vs, hkids⟩ <;> rw [hkids]
  · rfl
  · rw [if_neg (by simp), Parts.text, tokens_phrases, leavesOf, leavesOf, List.append_nil]
    rfl

variable (source) in
theorem quotes_genericParam (h : Grammar.Covers rust (ruleBody .genericParam) cs) :
    ∃ p, ruleMeaning source .genericParam (cs.map (phrase source)) = .param p ∧
      p.Quotes source (.node .genericParam cs) := by
  obtain ⟨as, r, ds, rfl, has, hr, hds⟩ := exists_genericParam h
  rw [parses_iff_covers] at hds
  have hattrs : Parts.attrs ((as ++ [(.node r ds : Syntax)]).map (phrase source)) =
    attributesIn source as := by
    rw [attrs_eq source h (by decide +kernel), attributesIn, attributesIn, kids_append]
    simp only [List.mem_cons, List.not_mem_nil, or_false] at hr
    rcases hr with rfl | rfl | rfl <;> simp [kids, isNode]
  simp only [List.mem_cons, List.not_mem_nil, or_false] at hr
  rcases hr with rfl | rfl | rfl
  · refine ⟨_, genericParam_eq (pick_generic has rfl), ?_⟩
    rw [hattrs]
    exact .lifetime rfl
  · refine ⟨_, genericParam_eq (pick_generic has rfl), ?_⟩
    rw [hattrs]
    exact .type (bounds_texts hds (by decide) (by decide)) (type?_texts source hds (by decide))
  · refine ⟨_, genericParam_eq (pick_generic has rfl), ?_⟩
    rw [hattrs, withAttrs, fallback_constParam hds]
    exact .const (type_texts hds (by decide))

variable (source) in
/-- The generic parameters that are declared are read one by one from their trees. -/
theorem quotes_params (h : Grammar.Covers rust e cs) (honce : follows .params .params e = false) :
    List.Forall₂ (GenericParam.Quotes source) (Parts.params (cs.map (phrase source))) (paramsIn cs) := by
  have hlone : Lone .generics e := fun a _ _ ha => by
    revert ha
    cases a <;> decide
  have hlists : List.Forall₂
    (fun ps c => List.Forall₂ (GenericParam.Quotes source) ps (kids .genericParam (partsOf c)))
      (pick (as .params) (cs.map (phrase source))) (kids .generics cs) := by
    refine forall₂_pick (fun c hc hr => as_eq_none h rfl hlone hc hr) fun gs hgs => ⟨_, rfl, ?_⟩
    have hparts := parses_iff_covers.1 (h.parses.of_node_mem hgs)
    refine forall₂_pick (f := as .param) (fun c hc hr => as_eq_none hparts rfl (by decide) hc hr)
      fun ds hds => ?_
    obtain ⟨p, hp, hquotes⟩ :=
      quotes_genericParam source (parses_iff_covers.1 (hparts.parses.of_node_mem hds))
    exact ⟨p, by rw [hp]; rfl, hquotes⟩
  have hread : Parts.params (cs.map (phrase source)) =
    (pick (as .params) (cs.map (phrase source))).head?.getD [] := rfl
  rw [hread, paramsIn]
  rcases pick_cases source h honce with hpick | ⟨ps, hpick⟩ <;> rw [hpick] at hlists ⊢
  · rw [List.forall₂_nil_left_iff.1 hlists]
    exact .nil
  · obtain ⟨c, rest, hc, hrest, hkids⟩ := List.forall₂_cons_left_iff.1 hlists
    rw [hkids, List.forall₂_nil_left_iff.1 hrest]
    simpa using hc

/-! ### Functions -/

/-- What the tokens of a receiver look like. -/
theorem self_of_receiver {row : List Token} {reference mutable : Bool} {lifetime : Option String}
    (h : receiver? row = some (reference, lifetime, mutable)) :
    row.map Token.kind ∈ if reference then Kind.borrowedSelves else Kind.ownedSelves := by
  have hshape := receiver_shape row
  rw [h, Option.map_some] at hshape
  split at hshape
  · next hborrowed =>
    obtain rfl : reference = true := Option.some.inj hshape
    exact hborrowed
  · split at hshape
    · next howned =>
      obtain rfl : reference = false := Option.some.inj hshape
      exact howned
    · simp at hshape

theorem not_self_of_receiver {row : List Token} (h : receiver? row = none) :
    row.map Token.kind ∉ Kind.borrowedSelves ++ Kind.ownedSelves := by
  have hshape := receiver_shape row
  rw [h] at hshape
  rw [List.mem_append, not_or]
  refine ⟨fun hborrowed => ?_, fun howned => ?_⟩
  · simp [hborrowed] at hshape
  · rw [if_pos howned] at hshape
    split at hshape <;> simp at hshape

/-- A parameter that is read quotes its tree. -/
theorem quotes_fnParam {ps : List Syntax} (h : Grammar.Covers rust (ruleBody .fnParam) ps) {a : FnArg}
    (ha : fnArg source (ps.map (phrase source)) = .ok a) : a.Quotes source (.node .fnParam ps) := by
  have htexts := type?_texts source h (by decide)
  have hattrs := attrs_eq source h (by decide)
  obtain ⟨as, _, rfl, has, row, ts, rfl, hrow, hts⟩ := h
  have parts := paramParts has hrow hts
  have htyped := parts.type?_isSome source
  rw [kids_append, kids_append, kids_eq_nil has (by decide), kids_eq_nil hrow (by decide)] at htexts
  rw [attributesIn, kids_append, kids_append, kids_eq_nil hrow (by decide), kids_eq_nil hts (by decide),
    List.append_nil, List.append_nil, ← attributesIn] at hattrs
  rw [fnArg, parts.patternParts_eq source, tokens_phrases, hattrs, Parts.text, tokens_phrases] at ha
  generalize Parts.type? ((as ++ (row ++ ts)).map (phrase source)) = type at ha htexts htyped
  cases hreceiver : receiver? (leavesOf row) with
  | some x =>
    obtain ⟨reference, lifetime, mutable⟩ := x
    have hself := self_of_receiver hreceiver
    rw [hreceiver] at ha
    obtain rfl : .receiver reference lifetime mutable type (attributesIn source as) = a := by
      cases reference <;> cases type <;> first | exact Except.ok.inj ha | cases ha
    exact .receiver parts hself htexts
  | none =>
    rw [hreceiver] at ha
    cases type with
    | some t =>
      obtain rfl := Except.ok.inj ha
      exact .typed parts (not_self_of_receiver hreceiver) htexts
    | none =>
      obtain rfl : ts = [] := by simpa using htyped
      dsimp only at ha
      split at ha
      · next hdots =>
        obtain rfl := Except.ok.inj ha
        exact .variadic parts hdots
      · simp at ha

/-- The head of a function quotes the parts of the function. -/
theorem quotes_signature {fs : List Syntax} (h : Grammar.Covers rust (ruleBody .fnItem) fs) {sig : Signature}
    (hsig : signature (fs.map (phrase source)) = .ok sig) : sig.Quotes source fs := by
  obtain ⟨inputs, hinputs, hsig⟩ := bind_eq_ok hsig
  obtain rfl := Except.ok.inj hsig
  refine ⟨quotes_params source h (by decide), ?_, type?_texts source h (by decide),
    clause_texts source h (by decide)⟩
  have hargs : List.Forall₂ (fun x c => ∀ a, x = .ok a → a.Quotes source c)
      (pick (as .fnArg) (fs.map (phrase source))) (kids .fnParam fs) := by
    refine forall₂_pick (fun c hc hr => as_eq_none h rfl (by decide) hc hr) fun ps hps => ⟨_, rfl, ?_⟩
    exact fun a ha => quotes_fnParam (parses_iff_covers.1 (h.parses.of_node_mem hps)) ha
  exact (forall₂_mapM hinputs hargs).imp fun a c ha => ha a rfl

end Reading

end TraitLift
