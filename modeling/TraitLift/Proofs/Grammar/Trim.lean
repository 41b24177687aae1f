import Mathlib.Tactic
import TraitLift.Proofs.Grammar.Rename
import TraitLift.Proofs.Grammar.Terse

/-!
Types without their optional tokens. `trim` leaves out of a tree what writing the type leaves out: a
comma in front of a closing bracket, a `+` or a colon with nothing behind it, a binder that binds
nothing, and the attributes of the parameters of function pointers; and it reads a list of one bound as
a single bound. What is left of the parts of a rule fits the terse form of the rule (`parses_reduce`).
The path of a macro stays as it is written.
-/

namespace TraitLift.Grammar

/-- Whether trees start with a closing bracket. -/
def closes : List Syntax → Bool
  | .leaf t :: _ => t.kind = .rpar || t.kind = .gt
  | _ => false

/-- Whether a token of a rule can be left out in front of the trees `cs`. -/
def isSpare (r : Rule) (t : Token) (cs : List Syntax) : Bool :=
  match r with
  | .lifetimeParam => t.kind = .colon && cs.isEmpty
  | .lifetimeBounds | .bounds => t.kind = .plus && cs.isEmpty
  | .forLifetimes | .angleArgs | .parenArgs | .fnPtrType | .tupleType =>
    t.kind = .comma && closes cs
  | _ => false

/-- The parts of a rule without the tokens that can be left out. -/
def pare (r : Rule) : List Syntax → List Syntax
  | [] => []
  | .leaf t :: cs => if isSpare r t cs then pare r cs else .leaf t :: pare r cs
  | .node a ds :: cs => .node a ds :: pare r cs

/-- Whether a tree is a binder that binds nothing. -/
def isVoid : Syntax → Bool
  | .node .forLifetimes [_, _, _] => true
  | _ => false

/-- Whether a tree in front of the parts of a rule can be left out. -/
def isIdle : Rule → Syntax → Bool
  | .bareFnArg, .node .outerAttr _ => true
  | .traitBound, c | .fnPtrType, c => isVoid c
  | _, _ => false

/-- The parts of a rule without attributes, or without a binder that binds nothing. -/
def strip (r : Rule) (cs : List Syntax) : List Syntax := cs.dropWhile (isIdle r)

/-- A list of one bound as a single bound. -/
def settle : Rule → List Syntax → List Syntax
  | .type, [.node .implType [k, .node .bounds [.node .traitBound ds]]] =>
    [.node .typeNoBounds [.node .implOneType [k, .node .traitBound ds]]]
  | .type, [.node .dynType [k, .node .bounds [b]]] =>
    [.node .typeNoBounds [.node .dynOneType [k, b]]]
  | _, cs => cs

/-- The parts of a rule without all that can be left out. The comma of a tuple of one stays. -/
def reduce (r : Rule) (cs : List Syntax) : List Syntax :=
  if r = .tupleType ∧ cs.length = 4 then cs else settle r (pare r (strip r cs))

mutual

/-- The tree of a type without optional tokens. -/
def trim : Syntax → Syntax
  | .leaf t => .leaf t
  | .node r cs =>
    if r ∈ typeRules ∧ r ≠ .macroType then .node r (reduce r (trimAll cs)) else .node r cs

/-- The trees of types without optional tokens. -/
def trimAll : List Syntax → List Syntax
  | [] => []
  | c :: cs => trim c :: trimAll cs

end

theorem trimAll_eq_map : ∀ cs : List Syntax, trimAll cs = cs.map trim
  | [] => rfl
  | c :: cs => by rw [trimAll, trimAll_eq_map cs, List.map_cons]

/-! ### What is left -/

theorem pare_sublist (r : Rule) : ∀ cs : List Syntax, (pare r cs).Sublist cs
  | [] => .slnil
  | .leaf t :: cs => by
    rw [pare]
    split
    · exact (pare_sublist r cs).cons _
    · exact (pare_sublist r cs).cons_cons _
  | .node a ds :: cs => (pare_sublist r cs).cons_cons _

theorem strip_sublist (r : Rule) (cs : List Syntax) : (strip r cs).Sublist cs :=
  List.dropWhile_sublist _

theorem strip_eq_self {r : Rule} (hr : r ∉ [Rule.bareFnArg, .traitBound, .fnPtrType])
    (cs : List Syntax) : strip r cs = cs := by
  have hno : ∀ c, isIdle r c = false := by
    intro c
    unfold isIdle
    split <;> simp_all
  cases cs with
  | nil => rfl
  | cons c cs => rw [strip, List.dropWhile_cons, hno, if_neg Bool.false_ne_true]

theorem isSpare_node (r : Rule) (t : Token) (a : Rule) (ds cs : List Syntax) :
    isSpare r t (.node a ds :: cs) = false := by
  cases r <;> simp [isSpare, closes]

theorem isSpare_of_kind {r : Rule} {t : Token} (ht : t.kind ∉ [Kind.comma, .plus, .colon])
    (cs : List Syntax) : isSpare r t cs = false := by
  simp only [List.mem_cons, List.not_mem_nil, or_false, not_or] at ht
  cases r <;> simp [isSpare, ht]

theorem pare_eq_self {r : Rule} (hr : ∀ t cs, isSpare r t cs = false) :
    ∀ cs : List Syntax, pare r cs = cs
  | [] => rfl
  | .leaf t :: cs => by rw [pare, hr, if_neg Bool.false_ne_true, pare_eq_self hr cs]
  | .node a ds :: cs => by rw [pare, pare_eq_self hr cs]

theorem pare_of_spare {r : Rule} {t : Token} {cs : List Syntax} (h : isSpare r t cs) :
    pare r (.leaf t :: cs) = pare r cs := by
  rw [pare, if_pos h]

theorem pare_of_not_spare {r : Rule} {t : Token} {cs : List Syntax} (h : isSpare r t cs = false) :
    pare r (.leaf t :: cs) = .leaf t :: pare r cs := by
  rw [pare, h, if_neg Bool.false_ne_true]

/-- Nothing is left out of the trees `us`, whatever stands behind them. -/
def Solid (r : Rule) (us : List Syntax) : Prop := ∀ vs, pare r (us ++ vs) = us ++ pare r vs

theorem solid_nil {r : Rule} : Solid r [] := fun _ => rfl

theorem Solid.append {r : Rule} {us vs : List Syntax} (hu : Solid r us) (hv : Solid r vs) :
    Solid r (us ++ vs) := fun ws => by
  rw [List.append_assoc, hu, hv, List.append_assoc]

theorem Solid.eq_self {r : Rule} {us : List Syntax} (h : Solid r us) : pare r us = us := by
  have := h []
  rwa [List.append_nil, pare, List.append_nil] at this

theorem solid_leaf {r : Rule} {t : Token} (ht : t.kind ∉ [Kind.comma, .plus, .colon]) :
    Solid r [.leaf t] := fun vs => by
  rw [List.singleton_append, pare, isSpare_of_kind ht, if_neg Bool.false_ne_true,
    List.singleton_append]

/-- Whether an expression has no comma, `+` or colon outside its rules. -/
def isSignless : Syn → Bool
  | .tok c => c.kinds.all (· ∉ [Kind.comma, .plus, .colon])
  | .seq a b | .alt a b => isSignless a && isSignless b
  | .star a => isSignless a
  | .empty | .rule _ => true

theorem solid_of_covers {r : Rule} : ∀ {e : Syn} {us : List Syntax}, isSignless e →
    Covers rust e us → Solid r us
  | .empty, _, _, h => h ▸ fun _ => rfl
  | .tok c, _, hsign, ⟨t, h, ht⟩ => h ▸ solid_leaf (by
    simp only [isSignless, List.all_eq_true, decide_eq_true_eq] at hsign
    exact hsign _ (TokenClass.mem_kinds.2 ht))
  | .rule a, _, _, ⟨cs, h, _⟩ => h ▸ fun _ => rfl
  | .seq a b, _, hsign, ⟨us, vs, h, ha, hb⟩ => by
    rw [isSignless, Bool.and_eq_true] at hsign
    exact h ▸ (solid_of_covers hsign.1 ha).append (solid_of_covers hsign.2 hb)
  | .alt a b, _, hsign, .inl h => by
    rw [isSignless, Bool.and_eq_true] at hsign
    exact solid_of_covers hsign.1 h
  | .alt a b, _, hsign, .inr h => by
    rw [isSignless, Bool.and_eq_true] at hsign
    exact solid_of_covers hsign.2 h
  | .star a, _, hsign, ⟨pss, h, hall⟩ => by
    subst h
    rw [isSignless] at hsign
    induction pss with
    | nil => exact fun _ => rfl
    | cons us pss ih =>
      exact (solid_of_covers hsign (hall us (List.mem_cons_self ..))).append
        (ih fun vs hvs => hall vs (List.mem_cons_of_mem _ hvs))

/-- A token that is a separator of a rule stays in front of the trees of an expression. -/
def Holds (r : Rule) (x : Kind) (e : Syn) : Prop :=
  ∀ us t vs, Covers rust e us → t.kind = x → isSpare r t (us ++ vs) = false

theorem holds_of_single {r : Rule} {x : Kind} {e : Syn}
    (he : ∀ us, Covers rust e us → ∃ a ds, us = [.node a ds]) : Holds r x e := by
  intro us t vs hus _
  obtain ⟨a, ds, rfl⟩ := he us hus
  exact isSpare_node r t a ds vs

/-- The separators of a list stay. -/
theorem solid_of_rounds {r : Rule} {x : Kind} {e : Syn} (he : isSignless e) (hx : Holds r x e) :
    ∀ {pss : List (List Syntax)}, (∀ us ∈ pss, Covers rust (Expr.all [Syn.k x, e]) us) →
      Solid r pss.flatten
  | [], _ => fun _ => rfl
  | us :: pss, h => by
    have hrest := solid_of_rounds he hx fun vs hvs => h vs (List.mem_cons_of_mem us hvs)
    obtain ⟨_, vs, rfl, ⟨t, rfl, ht⟩, hvs⟩ := h us (List.mem_cons_self ..)
    intro ws
    rw [List.flatten_cons, List.append_assoc, List.append_assoc, List.singleton_append, pare,
      hx _ _ _ hvs (kind_eq ht), if_neg Bool.false_ne_true, solid_of_covers he hvs, hrest]
    simp

/-- Only the separator at the end of a list is left out, if it can be left out there. -/
theorem pare_list {r : Rule} {x : Kind} {e : Syn} (he : isSignless e) (hx : Holds r x e)
    {us v : List Syntax} (h : Covers rust (Expr.all [e, .star (Expr.all [Syn.k x, e]),
      Expr.opt (Syn.k x)]) us) (hvs : ∀ t : Token, t.kind = x → isSpare r t v) :
    ∃ us', Covers rust (sepList x e) us' ∧ pare r (us ++ v) = us' ++ pare r v := by
  obtain ⟨first, _, rfl, hfirst, _, last, rfl, ⟨pss, rfl, hpss⟩, hlast⟩ := h
  refine ⟨first ++ pss.flatten, ⟨first, _, rfl, hfirst, pss, rfl, hpss⟩, ?_⟩
  rw [List.append_assoc, List.append_assoc, solid_of_covers he hfirst, solid_of_rounds he hx hpss,
    List.append_assoc]
  rcases hlast with ⟨t, rfl, ht⟩ | rfl
  · rw [List.singleton_append, pare, if_pos (hvs t (kind_eq ht))]
  · rw [List.nil_append]

/-! ### Terse parts -/

theorem holds_use (r : Rule) (x : Kind) (a : Rule) : Holds r x (Syn.use a) := by
  refine holds_of_single fun us hus => ?_
  obtain ⟨_, rfl, cs, rfl, -⟩ := covers_use_iff.1 hus
  exact ⟨a, cs, rfl⟩

theorem holds_any (r : Rule) (x : Kind) {l : List Rule} (has : l ≠ []) :
    Holds r x (Expr.any (l.map Syn.use)) := by
  refine holds_of_single fun us hus => ?_
  obtain ⟨a, -, _, rfl, cs, rfl, -⟩ := exists_of_covers_any has hus
  exact ⟨a, cs, rfl⟩

theorem holds_lifetime : Holds .lifetimeBounds .plus (Syn.k .lifetime) := by
  rintro _ t vs ⟨u, rfl, -⟩ -
  simp [isSpare]

/-- A comma can be left out in front of a closing bracket. -/
theorem isSpare_comma {r : Rule}
    (hr : r ∈ [Rule.forLifetimes, .angleArgs, .parenArgs, .fnPtrType, .tupleType]) {t c : Token}
    (ht : t.kind = .comma) (hc : c.kind = .rpar ∨ c.kind = .gt) (cs : List Syntax) :
    isSpare r t (.leaf c :: cs) := by
  simp only [List.mem_cons, List.not_mem_nil, or_false] at hr
  rcases hr with rfl | rfl | rfl | rfl | rfl <;> simp [isSpare, closes, ht, hc]

/-- A list between brackets without the comma at its end. -/
theorem pare_brackets {r : Rule}
    (hr : r ∈ [Rule.forLifetimes, .angleArgs, .parenArgs, .fnPtrType, .tupleType]) {e : Syn}
    (he : isSignless e) (hx : Holds r .comma e) {us vs : List Syntax} {c : Token}
    (hc : c.kind = .rpar ∨ c.kind = .gt) (hvs : Solid r vs)
    (h : Covers rust (Expr.opt (Syn.commaList e)) us) :
    ∃ us', Covers rust (Expr.opt (sepList .comma e)) us' ∧
      pare r (us ++ ([Tree.leaf c] ++ vs)) = us' ++ ([Tree.leaf c] ++ vs) := by
  have hclose : pare r ([Tree.leaf c] ++ vs) = [Tree.leaf c] ++ vs := by
    have hkind : c.kind ∉ [Kind.comma, .plus, .colon] := by rcases hc with hc | hc <;> simp [hc]
    exact ((solid_leaf hkind).append hvs).eq_self
  rcases h with h | rfl
  · obtain ⟨us', hus', hpare⟩ := pare_list he hx (v := [Tree.leaf c] ++ vs) h
      fun t ht => isSpare_comma hr ht hc vs
    exact ⟨us', Or.inl hus', by rw [hpare, hclose]⟩
  · exact ⟨[], Or.inr rfl, hclose⟩

theorem strip_cons {r : Rule} (hr : r = .traitBound ∨ r = .fnPtrType) (c : Syntax)
    (cs : List Syntax) : strip r (c :: cs) = if isVoid c then strip r cs else c :: cs := by
  rcases hr with rfl | rfl <;> rw [strip, List.dropWhile_cons] <;> rfl

/-- A binder in front of other parts goes if it binds nothing. -/
theorem exists_strip {r : Rule} (hr : r = .traitBound ∨ r = .fnPtrType) {bs cs : List Syntax}
    (hb : Covers rust (Expr.opt (Syn.use .forLifetimes)) bs)
    (hcs : ∀ c ∈ cs.head?, isVoid c = false) :
    ∃ bs', Covers rust (Expr.opt (Syn.use .forLifetimes)) bs' ∧ (∀ c ∈ bs', isVoid c = false) ∧
      strip r (bs ++ cs) = bs' ++ cs := by
  have hstay : strip r cs = cs := by
    cases cs with
    | nil => rfl
    | cons c cs => rw [strip_cons hr, hcs c rfl, if_neg Bool.false_ne_true]
  rcases hb with ⟨ds, rfl, hds⟩ | rfl
  · cases hvoid : isVoid (.node .forLifetimes ds) with
    | false =>
      refine ⟨_, Or.inl ⟨ds, rfl, hds⟩, by simpa using hvoid, ?_⟩
      rw [List.singleton_append, strip_cons hr, hvoid, if_neg Bool.false_ne_true]
    | true =>
      refine ⟨[], Or.inr rfl, by simp, ?_⟩
      rw [List.singleton_append, strip_cons hr, hvoid, if_pos rfl, hstay, List.nil_append]
  · exact ⟨[], Or.inr rfl, by simp, hstay⟩

/-- Trees of an expression that neither a binder nor an attribute starts have nothing in front that
can be left out. -/
theorem isIdle_of_covers {r : Rule} {e : Syn} {cs : List Syntax} (h : Covers rust e cs)
    (he : ∀ p ∈ stepsRest [e], p.1 ∉ [Symbol.rule .forLifetimes, .rule .outerAttr]) :
    ∀ c ∈ cs.head?, isIdle r c = false := by
  intro c hc
  cases cs with
  | nil => simp at hc
  | cons d ds =>
    obtain rfl := Option.some.inj hc
    obtain ⟨s, m, hs, hd, -⟩ := parses_cons_iff.1 h.parses
    have hrule : ∀ a es, d = .node a es → a ≠ .forLifetimes ∧ a ≠ .outerAttr := by
      rintro a es rfl
      have hne := he _ hs
      cases s with
      | tok x =>
        obtain ⟨_, heq, -⟩ := hd
        simp at heq
      | rule b =>
        obtain ⟨_, heq, -⟩ := hd
        obtain ⟨rfl, -⟩ := Tree.node.inj heq
        simpa using hne
    have hvoid : isVoid d = false := by
      unfold isVoid
      split
      · exact absurd rfl (hrule _ _ rfl).1
      · rfl
    unfold isIdle
    split
    · exact absurd rfl (hrule _ _ rfl).2
    · exact hvoid
    · exact hvoid
    · rfl

/-- The rules whose parts can be fewer than they are, or of another shape. -/
def looseRules : List Rule :=
  [.forLifetimes, .lifetimeParam, .lifetimeBounds, .bounds, .angleArgs, .parenArgs, .tupleType,
   .fnPtrType, .traitBound, .bareFnArg, .type]

theorem reduce_eq_self {r : Rule} (hr : r ∉ looseRules) (cs : List Syntax) : reduce r cs = cs := by
  simp only [looseRules, List.mem_cons, List.not_mem_nil, or_false, not_or] at hr
  have hspare : ∀ t cs, isSpare r t cs = false := by
    intro t cs
    unfold isSpare
    split <;> simp_all
  rw [reduce, if_neg (by simp [hr]), strip_eq_self (by simp [hr]), pare_eq_self hspare]
  unfold settle
  split <;> simp_all

theorem reduce_type_eq (cs : List Syntax) : reduce .type cs = settle .type cs := by
  have hspare : ∀ t cs, isSpare .type t cs = false := fun _ _ => rfl
  rw [reduce, if_neg (by simp), strip_eq_self (by decide), pare_eq_self hspare]

theorem settle_eq_self {r : Rule} (hr : r ≠ .type) (cs : List Syntax) : settle r cs = cs := by
  unfold settle
  split
  · exact absurd rfl hr
  · exact absurd rfl hr
  · rfl

theorem reduce_sublist {r : Rule} (hr : r ≠ .type) (cs : List Syntax) : (reduce r cs).Sublist cs := by
  rw [reduce, settle_eq_self hr]
  split
  · exact List.Sublist.refl _
  · exact (pare_sublist r _).trans (strip_sublist r cs)

theorem reduce_eq_pare {r : Rule} (hr : r ∉ [Rule.tupleType, .type]) {cs : List Syntax} :
    reduce r cs = pare r (strip r cs) := by
  simp only [List.mem_cons, List.not_mem_nil, or_false, not_or] at hr
  rw [reduce, if_neg (by simp [hr]), settle_eq_self hr.2]

/-- The binder without the comma behind the last lifetime; it may bind nothing. -/
theorem reduce_forLifetimes {cs : List Syntax} (h : Covers rust (ruleBody .forLifetimes) cs) :
    Covers rust (terseBody .forLifetimes) (reduce .forLifetimes cs) ∨
      isVoid (.node .forLifetimes (reduce .forLifetimes cs)) = true ∧
        Covers rust (ruleBody .forLifetimes) (reduce .forLifetimes cs) := by
  obtain ⟨_, _, rfl, ⟨f, rfl, hf⟩, _, _, rfl, ⟨l, rfl, hl⟩, us, _, rfl, hus, g, rfl, hg⟩ := h
  obtain ⟨us', hus', hpare⟩ := pare_brackets (r := .forLifetimes) (by decide) rfl (holds_use _ _ _)
    (Or.inr (kind_eq hg)) solid_nil hus
  rw [List.append_nil] at hpare
  rw [reduce_eq_pare (by decide), strip_eq_self (by decide), solid_leaf (by simp [kind_eq hf]),
    solid_leaf (by simp [kind_eq hl]), hpare]
  rcases hus' with hus' | rfl
  · exact Or.inl ⟨_, _, rfl, ⟨f, rfl, hf⟩, _, _, rfl, ⟨l, rfl, hl⟩, us', _, rfl, hus',
      g, rfl, hg⟩
  · exact Or.inr ⟨rfl, _, _, rfl, ⟨f, rfl, hf⟩, _, _, rfl, ⟨l, rfl, hl⟩,
      [], _, rfl, Or.inr rfl, g, rfl, hg⟩

theorem reduce_lifetimeParam {cs : List Syntax} (h : Covers rust (ruleBody .lifetimeParam) cs) :
    Covers rust (terseBody .lifetimeParam) (reduce .lifetimeParam cs) := by
  obtain ⟨_, vs, rfl, ⟨l, rfl, hl⟩, hvs⟩ := h
  rw [reduce_eq_pare (by decide), strip_eq_self (by decide), solid_leaf (by simp [kind_eq hl])]
  refine ⟨_, _, rfl, ⟨l, rfl, hl⟩, ?_⟩
  rcases hvs with ⟨_, ws, rfl, ⟨c, rfl, hc⟩, hws⟩ | rfl
  · rcases hws with ⟨ds, rfl, hds⟩ | rfl
    · rw [List.singleton_append, pare, isSpare_node, if_neg Bool.false_ne_true]
      exact Or.inl ⟨[.leaf c], _, rfl, ⟨c, rfl, hc⟩, ds, rfl, hds⟩
    · rw [List.append_nil, pare, if_pos (by simp [isSpare, kind_eq hc])]
      exact Or.inr rfl
  · exact Or.inr rfl

/-- The `+` behind the last entry of a list goes. -/
theorem reduce_plusList {r : Rule} (hr : r = .lifetimeBounds ∨ r = .bounds) {e : Syn}
    (he : isSignless e) (hx : Holds r .plus e) {cs : List Syntax}
    (h : Covers rust (Syn.plusList e) cs) : Covers rust (sepList .plus e) (reduce r cs) := by
  have hrule : r ∉ [Rule.tupleType, .type] ∧ r ∉ [Rule.bareFnArg, .traitBound, .fnPtrType] := by
    rcases hr with rfl | rfl <;> decide
  obtain ⟨us', hus', hpare⟩ := pare_list he hx (v := []) h fun t ht => by
    rcases hr with rfl | rfl <;> simp [isSpare, ht]
  rw [List.append_nil, pare, List.append_nil] at hpare
  rw [reduce_eq_pare hrule.1, strip_eq_self hrule.2, hpare]
  exact hus'

theorem reduce_angleArgs {cs : List Syntax} (h : Covers rust (ruleBody .angleArgs) cs) :
    Covers rust (terseBody .angleArgs) (reduce .angleArgs cs) := by
  obtain ⟨_, _, rfl, ⟨l, rfl, hl⟩, us, _, rfl, hus, g, rfl, hg⟩ := h
  obtain ⟨us', hus', hpare⟩ := pare_brackets (r := .angleArgs) (by decide) rfl
    (holds_any _ _ (l := [.typeArg, .lifetimeArg, .constArg, .bindingArg, .constraintArg])
      (by decide)) (Or.inr (kind_eq hg)) solid_nil hus
  rw [List.append_nil] at hpare
  rw [reduce_eq_pare (by decide), strip_eq_self (by decide), solid_leaf (by simp [kind_eq hl]), hpare]
  exact ⟨_, _, rfl, ⟨l, rfl, hl⟩, us', _, rfl, hus', g, rfl, hg⟩

theorem reduce_parenArgs {cs : List Syntax} (h : Covers rust (ruleBody .parenArgs) cs) :
    Covers rust (terseBody .parenArgs) (reduce .parenArgs cs) := by
  obtain ⟨_, _, rfl, ⟨l, rfl, hl⟩, us, _, rfl, hus, _, ret, rfl, ⟨g, rfl, hg⟩, hret⟩ := h
  obtain ⟨us', hus', hpare⟩ := pare_brackets (r := .parenArgs) (by decide) rfl (holds_use _ _ _)
    (Or.inl (kind_eq hg)) (solid_of_covers (e := Syn.plainReturn) (by decide) hret) hus
  rw [reduce_eq_pare (by decide), strip_eq_self (by decide), solid_leaf (by simp [kind_eq hl]),
    hpare]
  exact ⟨_, _, rfl, ⟨l, rfl, hl⟩, us', _, rfl, hus', _, ret, rfl, ⟨g, rfl, hg⟩, hret⟩

theorem reduce_tuple_eq {cs : List Syntax} (h : cs.length ≠ 4) :
    reduce .tupleType cs = pare .tupleType cs := by
  rw [reduce, if_neg fun h' => h h'.2, strip_eq_self (by decide)]
  rfl

theorem reduce_unit {l g : Token} (hl : l.kind = .lpar) (hg : g.kind = .rpar) :
    reduce .tupleType ([Tree.leaf l] ++ [Tree.leaf g]) = [Tree.leaf l] ++ [Tree.leaf g] := by
  rw [reduce_tuple_eq (by simp), solid_leaf (by simp [hl]), (solid_leaf (by simp [hg])).eq_self]

/-- A comma behind the last of several entries of a tuple goes. -/
theorem reduce_tuple {l g : Token} (hl : l.kind = .lpar) (hg : g.kind = .rpar) {ds : List Syntax}
    {pss : List (List Syntax)} {last : List Syntax} (hds : Covers rust (Syn.use .type) ds)
    (hpss : ∀ us ∈ pss, Covers rust (Expr.all [Syn.k .comma, Syn.use .type]) us)
    (hlast : Covers rust (Expr.opt (Syn.k .comma)) last) (hlen : 2 ≤ pss.flatten.length) :
    reduce .tupleType ([Tree.leaf l] ++ (ds ++ (pss.flatten ++ (last ++ [Tree.leaf g])))) =
      [Tree.leaf l] ++ (ds ++ (pss.flatten ++ [Tree.leaf g])) := by
  have hclose : pare .tupleType (last ++ [Tree.leaf g]) = [Tree.leaf g] := by
    have hstay := (solid_leaf (r := .tupleType) (t := g) (by simp [hg])).eq_self
    rcases hlast with ⟨t, rfl, ht⟩ | rfl
    · exact (pare_of_spare (isSpare_comma (by decide) (kind_eq ht) (Or.inl hg) [])).trans hstay
    · exact hstay
  have hds' : ds.length = 1 := by
    obtain ⟨es, rfl, -⟩ := hds
    rfl
  rw [reduce_tuple_eq (by simp only [List.length_append, List.length_singleton]; omega),
    solid_leaf (by simp [hl]), solid_of_covers rfl hds, solid_of_rounds rfl (holds_use _ _ _) hpss,
    hclose]

/-- The comma of a tuple of one stays. -/
theorem reduce_tupleType {cs : List Syntax} (h : Covers rust (ruleBody .tupleType) cs) :
    Covers rust (terseBody .tupleType) (reduce .tupleType cs) := by
  rcases h with h | h | ⟨_, _, rfl, ⟨l, rfl, hl⟩, ds, _, rfl, hds, _, _, rfl, hps, last, _, rfl, hlast,
    g, rfl, hg⟩
  · obtain ⟨_, _, rfl, ⟨l, rfl, hl⟩, g, rfl, hg⟩ := h
    rw [reduce_unit (kind_eq hl) (kind_eq hg)]
    exact Or.inl ⟨_, _, rfl, ⟨l, rfl, hl⟩, g, rfl, hg⟩
  · obtain ⟨_, _, rfl, ⟨l, rfl, hl⟩, _, _, rfl, ⟨ds, rfl, hds⟩, _, _, rfl,
      ⟨c, rfl, hc⟩, g, rfl, hg⟩ := h
    rw [reduce, if_pos ⟨rfl, rfl⟩]
    exact Or.inr (Or.inl ⟨_, _, rfl, ⟨l, rfl, hl⟩, _, _, rfl, ⟨ds, rfl, hds⟩, _, _, rfl,
      ⟨c, rfl, hc⟩, g, rfl, hg⟩)
  · obtain ⟨us, _, rfl, hus, pss, rfl, hpss⟩ := hps
    have hlen : 2 ≤ (us :: pss).flatten.length := by
      obtain ⟨_, _, rfl, ⟨c, rfl, -⟩, es, rfl, -⟩ := hus
      simp
    rw [← List.flatten_cons, reduce_tuple (kind_eq hl) (kind_eq hg) hds
      (List.forall_mem_cons.2 ⟨hus, hpss⟩) hlast hlen]
    exact Or.inr (Or.inr ⟨_, _, rfl, ⟨l, rfl, hl⟩, ds, _, rfl, hds, _, _, rfl,
      ⟨us, _, rfl, hus, pss, rfl, hpss⟩, g, rfl, hg⟩)

open TraitLift.Grammar.Syn TraitLift.Grammar.Expr in
/-- The parameters of a function pointer with no comma behind them. -/
def terseArgs : Syn :=
  any [all [sepList .comma (use .bareFnArg), opt (all [k .comma, k .ellipsis])], k .ellipsis]

/-- The comma behind the parameters of a function pointer goes. -/
theorem pare_bareFnArgs {us vs : List Syntax} {c : Token} (hc : c.kind = .rpar)
    (hvs : Solid .fnPtrType vs) (h : Covers rust (Expr.opt Syn.bareFnArgs) us) :
    ∃ us', Covers rust (Expr.opt terseArgs) us' ∧
      pare .fnPtrType (us ++ ([Tree.leaf c] ++ vs)) = us' ++ ([Tree.leaf c] ++ vs) := by
  have hclose : Solid .fnPtrType ([Tree.leaf c] ++ vs) :=
    (solid_leaf (by simp [hc])).append hvs
  rcases h with (⟨first, _, rfl, hfirst, _, _, rfl, ⟨pss, rfl, hpss⟩, dots, last, rfl, hdots,
    hlast⟩ | h)
    | rfl
  · have hlast' : pare .fnPtrType (last ++ ([Tree.leaf c] ++ vs)) = [Tree.leaf c] ++ vs := by
      rcases hlast with ⟨t, rfl, ht⟩ | rfl
      · exact (pare_of_spare (isSpare_comma (by decide) (kind_eq ht) (Or.inl hc) vs)).trans
          hclose.eq_self
      · rw [List.nil_append, hclose.eq_self]
    have hdots' : Solid .fnPtrType dots := by
      rcases hdots with ⟨_, _, rfl, ⟨t, rfl, ht⟩, e, rfl, he⟩ | rfl
      · intro ws
        have hstay : isSpare .fnPtrType t ([Tree.leaf e] ++ ws) = false := by
          simp [isSpare, closes, kind_eq he]
        rw [List.append_assoc, List.singleton_append, pare_of_not_spare hstay,
          solid_leaf (by simp [kind_eq he]), List.append_assoc]
        rfl
      · exact solid_nil
    refine ⟨(first ++ pss.flatten) ++ dots, Or.inl (Or.inl
      ⟨_, dots, rfl, ⟨first, _, rfl, hfirst, pss, rfl, hpss⟩, hdots⟩), ?_⟩
    simp only [List.append_assoc]
    rw [solid_of_covers rfl hfirst, solid_of_rounds rfl (holds_use _ _ _) hpss, hdots', hlast']
  · exact ⟨us, Or.inl (Or.inr h), by
      rw [solid_of_covers (e := Syn.k .ellipsis) (by decide) h, hclose.eq_self]⟩
  · exact ⟨[], Or.inr rfl, hclose.eq_self⟩

theorem reduce_fnPtrType {cs : List Syntax} (h : Covers rust (ruleBody .fnPtrType) cs) :
    Covers rust (terseBody .fnPtrType) (reduce .fnPtrType cs) := by
  obtain ⟨bs, rest, rfl, hbs, hrest⟩ := h
  obtain ⟨bs', hbs', -, hstrip⟩ := exists_strip (Or.inr rfl) hbs
    (isIdle_of_covers (r := .traitBound) hrest (by decide))
  obtain ⟨us, _, rfl, hus, as, _, rfl, has, _, _, rfl, ⟨f, rfl, hf⟩, _, _, rfl, ⟨l, rfl, hl⟩, ps, _,
    rfl, hps, _, ret, rfl, ⟨g, rfl, hg⟩, hret⟩ := hrest
  obtain ⟨ps', hps', hpare⟩ := pare_bareFnArgs (kind_eq hg)
    (solid_of_covers (e := Syn.plainReturn) (by decide) hret) hps
  rw [reduce_eq_pare (by decide), hstrip, solid_of_covers (by decide) hbs',
    solid_of_covers (by decide) hus, solid_of_covers (by decide) has, solid_leaf (by simp [kind_eq hf]),
    solid_leaf (by simp [kind_eq hl]), hpare]
  exact ⟨bs', _, rfl, hbs', us, _, rfl, hus, as, _, rfl, has, _, _, rfl, ⟨f, rfl, hf⟩, _, _, rfl,
    ⟨l, rfl, hl⟩, ps', _, rfl, hps', _, ret, rfl, ⟨g, rfl, hg⟩, hret⟩

theorem reduce_traitBound {cs : List Syntax} (h : Covers rust (ruleBody .traitBound) cs) :
    Covers rust (terseBody .traitBound) (reduce .traitBound cs) := by
  obtain ⟨bs, rest, rfl, hbs, hrest⟩ := h
  obtain ⟨bs', hbs', -, hstrip⟩ := exists_strip (Or.inl rfl) hbs
    (isIdle_of_covers (r := .traitBound) hrest (by decide))
  rw [reduce_eq_pare (by decide), hstrip, (solid_of_covers (by decide) hbs').append
    (solid_of_covers (by decide) hrest) |>.eq_self]
  exact ⟨bs', rest, rfl, hbs', hrest⟩

theorem reduce_bareFnArg {cs : List Syntax} (h : Covers rust (ruleBody .bareFnArg) cs) :
    Covers rust (terseBody .bareFnArg) (reduce .bareFnArg cs) := by
  obtain ⟨_, rest, rfl, ⟨pss, rfl, hpss⟩, hrest⟩ := h
  have hspare : ∀ t cs, isSpare .bareFnArg t cs = false := fun _ _ => rfl
  have hstay : strip .bareFnArg rest = rest := by
    have hhead := isIdle_of_covers (r := .bareFnArg) hrest (by decide)
    cases rest with
    | nil => rfl
    | cons c rest => rw [strip, List.dropWhile_cons, hhead c rfl, if_neg Bool.false_ne_true]
  have hstrip : strip .bareFnArg (pss.flatten ++ rest) = rest := by
    clear hrest
    induction pss with
    | nil => exact hstay
    | cons us pss ih =>
      obtain ⟨ds, rfl, -⟩ := hpss us (List.mem_cons_self ..)
      exact ih fun vs hvs => hpss vs (List.mem_cons_of_mem _ hvs)
  rw [reduce_eq_pare (by decide), hstrip, pare_eq_self hspare]
  exact hrest

/-- The types with a list of bounds, the ones with a single bound, and what such a bound is. -/
def oneRules : List (Rule × Rule × Syn) :=
  [(.implType, .implOneType, Syn.use .traitBound), (.dynType, .dynOneType, Syn.bound)]

/-- A type with a list of one bound is a type with a single bound. -/
theorem parses_one {p : Rule × Rule × Syn} (hp : p ∈ oneRules) {k b : Syntax}
    (h : Parses rust [ruleBody p.1] [k, .node .bounds [b]]) (hb : Covers rust p.2.2 [b]) :
    Parses rust [ruleBody .typeNoBounds] [.node p.2.1 [k, b]] := by
  have hbody : ∀ p ∈ oneRules, ∃ x, ruleBody p.1 = Expr.all [Syn.k x, Syn.use .bounds] ∧
      ruleBody p.2.1 = Expr.all [Syn.k x, p.2.2] := by
    simp only [oneRules, List.forall_mem_cons]
    exact ⟨⟨.kwImpl, rfl, rfl⟩, ⟨.kwDyn, rfl, rfl⟩, by simp⟩
  have hstep : ∀ p ∈ oneRules, (Symbol.rule p.2.1, []) ∈ stepsRest [ruleBody .typeNoBounds] := by
    decide
  obtain ⟨x, hlist, hone⟩ := hbody p hp
  rw [hlist, parses_iff_covers] at h
  obtain ⟨_, _, heq, ⟨t, rfl, ht⟩, -⟩ := h
  obtain ⟨rfl, -⟩ := List.cons.inj heq
  refine .node (hstep p hp) ?_ (.done rfl)
  rw [show rust.body p.2.1 = ruleBody p.2.1 from rfl, hone, parses_iff_covers]
  exact ⟨[.leaf t], [b], rfl, ⟨t, rfl, ht⟩, hb⟩

theorem covers_bound {b : Syntax} (h : Parses rust [ruleBody .bounds] [b]) :
    Covers rust Syn.bound [b] := by
  obtain ⟨_, _, heq, hb, -⟩ := parses_iff_covers.1 h
  obtain ⟨_, -, _, rfl, -⟩ := exists_of_covers_bound hb
  obtain ⟨rfl, -⟩ := List.cons.inj heq
  exact hb

theorem reduce_type {cs : List Syntax} (h : Covers rust (ruleBody .type) cs) :
    Covers rust (terseBody .type) (reduce .type cs) := by
  rw [reduce_type_eq]
  unfold settle
  split
  · next k ds _ =>
    have himpl := h.parses.of_node_mem (List.mem_singleton.2 rfl)
    have hbounds := himpl.of_node_mem (List.mem_cons_of_mem _ (List.mem_singleton.2 rfl))
    have hbound := hbounds.of_node_mem (List.mem_singleton.2 rfl)
    exact Or.inl ⟨_, rfl, parses_one (p := (.implType, .implOneType, Syn.use .traitBound)) (by decide)
      himpl ⟨ds, rfl, hbound⟩⟩
  · next k b _ =>
    have hdyn := h.parses.of_node_mem (List.mem_singleton.2 rfl)
    have hbounds := hdyn.of_node_mem (List.mem_cons_of_mem _ (List.mem_singleton.2 rfl))
    exact Or.inl ⟨_, rfl, parses_one (p := (.dynType, .dynOneType, Syn.bound)) (by decide)
      hdyn (covers_bound hbounds)⟩
  · exact h

/-- What is left of the parts of a rule is terse, but for a binder that binds nothing. -/
theorem parses_reduce {r : Rule} {cs : List Syntax} (h : Parses rust [ruleBody r] cs)
    (hvoid : isVoid (.node r (reduce r cs)) = false) : Parses rust [terseBody r] (reduce r cs) := by
  by_cases hr : r ∉ looseRules
  · have hbody : ∀ r ∈ Rule.all, r ∉ looseRules → terseBody r = ruleBody r := by
      decide +kernel
    rw [reduce_eq_self hr, hbody r (rust_listed r) hr]
    exact h
  rw [parses_iff_covers] at h ⊢
  simp only [not_not, looseRules, List.mem_cons, List.not_mem_nil, or_false] at hr
  rcases hr with rfl | rfl | rfl | rfl | rfl | rfl | rfl | rfl | rfl | rfl | rfl
  · exact (reduce_forLifetimes h).resolve_right fun h => by simp [hvoid] at h
  · exact reduce_lifetimeParam h
  · exact reduce_plusList (Or.inl rfl) rfl holds_lifetime h
  · exact reduce_plusList (Or.inr rfl) rfl
      (holds_any _ _ (l := [.lifetimeBound, .traitBound, .parenBound]) (by decide)) h
  · exact reduce_angleArgs h
  · exact reduce_parenArgs h
  · exact reduce_tupleType h
  · exact reduce_fnPtrType h
  · exact reduce_traitBound h
  · exact reduce_bareFnArg h
  · exact reduce_type h

/-- What is left of the parts of a rule is derived from the rule. -/
theorem parses_body_reduce {r : Rule} {cs : List Syntax} (h : Parses rust [ruleBody r] cs) :
    Parses rust [ruleBody r] (reduce r cs) := by
  by_cases hr : r = .forLifetimes
  · subst hr
    rcases reduce_forLifetimes (parses_iff_covers.1 h) with h | ⟨-, h⟩
    · exact parses_of_terse h.parses
    · exact h.parses
  · refine parses_of_terse (parses_reduce h ?_)
    unfold isVoid
    split
    · next heq => exact absurd (Tree.node.inj heq).1 hr
    · rfl

end TraitLift.Grammar
