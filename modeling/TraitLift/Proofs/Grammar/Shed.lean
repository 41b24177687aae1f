import Mathlib.Tactic
import TraitLift.Proofs.Grammar.TrimTree

/-!
Which tokens a type can do without. `Sheds c us` says that `us` are the tokens of the tree `c` without
some that can be left out there: a comma in front of a closing bracket, a `+` behind the last bound,
the colon of a lifetime parameter without bounds and a binder that binds nothing. The tree without
optional tokens sheds nothing else unless an attribute stands at a parameter of a function pointer
(`sheds_trim`).
-/

namespace TraitLift.Grammar

/-- The rules of lists between brackets that may end with a comma. -/
def commaLists : List Rule := [.forLifetimes, .angleArgs, .parenArgs, .fnPtrType, .tupleType]

mutual

/-- The tokens of a tree without some that can be left out. -/
inductive Sheds : Syntax → List Token → Prop
  | leaf (t : Token) : Sheds (.leaf t) [t]
  | node {r : Rule} {cs : List Syntax} {us : List Token} : ShedsAll r cs us → Sheds (.node r cs) us

/-- The tokens of the parts of a rule without some that can be left out. -/
inductive ShedsAll : Rule → List Syntax → List Token → Prop
  | nil {r : Rule} : ShedsAll r [] []
  | cons {r : Rule} {c : Syntax} {cs : List Syntax} {us vs : List Token} :
      Sheds c us → ShedsAll r cs vs → ShedsAll r (c :: cs) (us ++ vs)
  | comma {r : Rule} {t c : Token} {cs : List Syntax} {us : List Token} :
      r ∈ commaLists → t.kind = .comma → c.kind = .rpar ∨ c.kind = .gt →
      ShedsAll r (.leaf c :: cs) us → ShedsAll r (.leaf t :: .leaf c :: cs) us
  | plus {r : Rule} {t : Token} : r = .lifetimeBounds ∨ r = .bounds → t.kind = .plus →
      ShedsAll r [.leaf t] []
  | colon {t : Token} : t.kind = .colon → ShedsAll .lifetimeParam [.leaf t] []
  | binder {r : Rule} {f l g : Token} {cs : List Syntax} {us : List Token} :
      f.kind = .kwFor → l.kind = .lt → g.kind = .gt → ShedsAll r cs us →
      ShedsAll r (.node .forLifetimes [.leaf f, .leaf l, .leaf g] :: cs) us

end

mutual

/-- Whether an attribute stands at a parameter of a function pointer. -/
def adorned : Syntax → Bool
  | .leaf _ => false
  | .node .macroType _ => false
  | .node r cs => adornedOf r cs

/-- Whether an attribute stands at a parameter of a function pointer among the parts of a rule. -/
def adornedOf (r : Rule) : List Syntax → Bool
  | [] => false
  | .leaf _ :: cs => adornedOf r cs
  | .node a ds :: cs => (r = .bareFnArg ∧ a = .outerAttr) || adorned (.node a ds) || adornedOf r cs

end

theorem adorned_node {r : Rule} (hr : r ≠ .macroType) (cs : List Syntax) :
    adorned (.node r cs) = adornedOf r cs := by
  rw [adorned]
  exact hr

theorem not_adorned_of_mem {r : Rule} {c : Syntax} : ∀ {cs : List Syntax}, adornedOf r cs = false →
    c ∈ cs → adorned c = false ∧ ∀ ds, c = .node .outerAttr ds → r ≠ .bareFnArg
  | .leaf t :: cs, h, hc => by
    rw [adornedOf] at h
    rcases List.mem_cons.1 hc with rfl | hc
    · exact ⟨by rw [adorned], by simp⟩
    · exact not_adorned_of_mem h hc
  | .node a ds :: cs, h, hc => by
    rw [adornedOf, Bool.or_eq_false_iff, Bool.or_eq_false_iff, decide_eq_false_iff_not] at h
    rcases List.mem_cons.1 hc with rfl | hc
    · refine ⟨h.1.2, fun es heq hr => h.1.1 ⟨hr, (Tree.node.inj heq).1⟩⟩
    · exact not_adorned_of_mem h.2 hc

mutual

/-- A tree with an attribute at a parameter of a function pointer has the first token of one. -/
theorem exists_of_adorned : ∀ {s : Symbol TokenClass Rule} {c : Syntax}, s.HasTree rust c →
    adorned c → ∃ t ∈ c.leaves, t.kind ∈ Rule.outerAttr.starters
  | _, .leaf t, _, h => by simp [adorned] at h
  | .tok _, .node _ _, h, _ => by
    obtain ⟨_, heq, -⟩ := h
    simp at heq
  | .rule r, .node a cs, h, hadorned => by
    obtain ⟨ds, heq, hds⟩ := h
    obtain ⟨rfl, rfl⟩ := Tree.node.inj heq
    by_cases ha : a = .macroType
    · subst ha
      simp [adorned] at hadorned
    · rw [adorned_node ha] at hadorned
      exact exists_of_adornedOf hds hadorned

theorem exists_of_adornedOf {r : Rule} : ∀ {k : List Syn} {cs : List Syntax}, Parses rust k cs →
    adornedOf r cs → ∃ t ∈ leavesOf cs, t.kind ∈ Rule.outerAttr.starters
  | _, [], _, h => by simp [adornedOf] at h
  | k, .leaf t :: cs, h, hadorned => by
    obtain ⟨s, m, -, -, hcs⟩ := parses_cons_iff.1 h
    rw [adornedOf] at hadorned
    obtain ⟨u, hu, hkind⟩ := exists_of_adornedOf hcs hadorned
    exact ⟨u, List.mem_append_right _ hu, hkind⟩
  | k, .node a ds :: cs, h, hadorned => by
    obtain ⟨s, m, -, hnode, hcs⟩ := parses_cons_iff.1 h
    rw [adornedOf, Bool.or_eq_true, Bool.or_eq_true, decide_eq_true_eq] at hadorned
    rw [leavesOf]
    rcases hadorned with (⟨-, rfl⟩ | hadorned) | hadorned
    · obtain ⟨t, ts, ht⟩ := hnode.exists_leaf
      have htree : (Symbol.rule .outerAttr).HasTree rust (.node .outerAttr ds) :=
        ⟨ds, rfl, h.of_node_mem (List.mem_cons_self ..)⟩
      exact ⟨t, by simp [ht], htree.kind_mem t (by simp [ht])⟩
    · obtain ⟨u, hu, hkind⟩ := exists_of_adorned hnode hadorned
      exact ⟨u, List.mem_append_left _ hu, hkind⟩
    · obtain ⟨u, hu, hkind⟩ := exists_of_adornedOf hcs hadorned
      exact ⟨u, List.mem_append_right _ hu, hkind⟩

end

/-! ### Parts of a rule -/

theorem shedsAll_keep {r : Rule} : ∀ {cs : List Syntax}, (∀ c ∈ cs, Sheds c (trim c).leaves) →
    ShedsAll r cs (leavesOf (trimAll cs))
  | [], _ => .nil
  | c :: cs, h => by
    rw [trimAll, leavesOf]
    exact .cons (h c (List.mem_cons_self ..)) (shedsAll_keep fun d hd => h d (List.mem_cons_of_mem c hd))

theorem trim_leaf (t : Token) : trim (.leaf t) = .leaf t := rfl

theorem trim_eq_leaf {c : Syntax} {t : Token} (h : trim c = .leaf t) : c = .leaf t := by
  cases c with
  | leaf u => exact h
  | node a ds =>
    obtain ⟨es, hes⟩ := exists_trim_node a ds
    rw [hes] at h
    simp at h

/-- A token is left out only where that is possible. -/
theorem shedsAll_of_spare {r : Rule} {t : Token} {cs : List Syntax} {us : List Token}
    (h : isSpare r t (trimAll cs)) (hcs : ShedsAll r cs us) (hus : cs = [] → us = []) :
    ShedsAll r (.leaf t :: cs) us := by
  have hcomma : r ∈ commaLists → t.kind = .comma ∧ closes (trimAll cs) →
      ShedsAll r (.leaf t :: cs) us := by
    rintro hr ⟨ht, hclose⟩
    cases cs with
    | nil => simp [trimAll, closes] at hclose
    | cons c cs =>
      rw [trimAll] at hclose
      cases hc : trim c with
      | node a ds => simp [hc, closes] at hclose
      | leaf u =>
        obtain rfl := trim_eq_leaf hc
        have hclose : u.kind = .rpar ∨ u.kind = .gt := by simpa [trim, closes] using hclose
        exact .comma hr ht hclose hcs
  have hnil : trimAll cs = [] → cs = [] ∧ us = [] := fun hnil => by
    rw [trimAll_eq_map, List.map_eq_nil_iff] at hnil
    exact ⟨hnil, hus hnil⟩
  unfold isSpare at h
  split at h <;> simp only [Bool.and_eq_true, decide_eq_true_eq, List.isEmpty_iff,
    Bool.false_eq_true] at h
  · obtain ⟨rfl, rfl⟩ := hnil h.2
    exact .colon h.1
  · obtain ⟨rfl, rfl⟩ := hnil h.2
    exact .plus (Or.inl rfl) h.1
  · obtain ⟨rfl, rfl⟩ := hnil h.2
    exact .plus (Or.inr rfl) h.1
  all_goals exact hcomma (by decide) h

theorem shedsAll_pare {r : Rule} : ∀ {cs : List Syntax}, (∀ c ∈ cs, Sheds c (trim c).leaves) →
    ShedsAll r cs (leavesOf (pare r (trimAll cs)))
  | [], _ => .nil
  | .leaf t :: cs, h => by
    have hrest : ShedsAll r cs (leavesOf (pare r (trimAll cs))) :=
      shedsAll_pare fun d hd => h d (List.mem_cons_of_mem _ hd)
    rw [trimAll, trim]
    cases hspare : isSpare r t (trimAll cs) with
    | true =>
      rw [pare_of_spare hspare]
      exact shedsAll_of_spare hspare hrest fun hnil => by rw [hnil]; rfl
    | false =>
      rw [pare_of_not_spare hspare, leavesOf, Tree.leaves]
      exact .cons (.leaf t) hrest
  | .node a ds :: cs, h => by
    have hrest : ShedsAll r cs (leavesOf (pare r (trimAll cs))) :=
      shedsAll_pare fun d hd => h d (List.mem_cons_of_mem _ hd)
    have hnode := h (.node a ds) (List.mem_cons_self ..)
    obtain ⟨es, hes⟩ := exists_trim_node a ds
    rw [hes] at hnode
    rw [trimAll, hes, pare, leavesOf]
    exact .cons hnode hrest

/-- A binder that binds nothing without its optional tokens is `for<>`. -/
theorem exists_of_void {ds : List Syntax} (h : Parses rust [ruleBody .forLifetimes] ds)
    (hvoid : isVoid (trim (.node .forLifetimes ds))) : ∃ f l g : Token,
      ds = [.leaf f, .leaf l, .leaf g] ∧ f.kind = .kwFor ∧ l.kind = .lt ∧ g.kind = .gt := by
  obtain ⟨_, _, rfl, ⟨f, rfl, hf⟩, _, _, rfl, ⟨l, rfl, hl⟩, us, _, rfl, hus, g, rfl, hg⟩ :=
    parses_iff_covers.1 h
  have hf := kind_eq hf
  have hl := kind_eq hl
  have hg := kind_eq hg
  rcases hus with ⟨_, vs, rfl, ⟨es, rfl, -⟩, -⟩ | rfl
  · rw [trim_node (by decide) (by decide), reduce_eq_pare (by decide), strip_eq_self (by decide)] at hvoid
    obtain ⟨es', hes'⟩ := exists_trim_node .lifetimeParam es
    have hlast := getLast?_pare (r := .forLifetimes) (fun t => by simp [isSpare, closes])
      (trimAll (vs ++ [Tree.leaf g]))
    have hstay : pare .forLifetimes (trimAll (vs ++ [Tree.leaf g])) ≠ [] := by
      intro hnil
      rw [hnil, trimAll_eq_map] at hlast
      simp at hlast
    simp only [List.cons_append, List.nil_append, trimAll, trim_leaf, hes', pare,
      isSpare_of_kind (r := .forLifetimes) (t := f) (by simp [hf]),
      isSpare_of_kind (r := .forLifetimes) (t := l) (by simp [hl]), Bool.false_eq_true, if_false] at hvoid
    unfold isVoid at hvoid
    split at hvoid
    · next heq =>
      have := (Tree.node.inj heq).2
      simp [hstay] at this
    · simp at hvoid
  · exact ⟨f, l, g, rfl, hf, hl, hg⟩

theorem shedsAll_strip {r : Rule} : ∀ {k : List Syn} {cs : List Syntax}, Parses rust k cs →
    adornedOf r cs = false → (∀ c ∈ cs, Sheds c (trim c).leaves) →
    ShedsAll r cs (leavesOf (pare r (strip r (trimAll cs))))
  | _, [], _, _, _ => .nil
  | k, c :: cs, h, hbare, hcs => by
    obtain ⟨s, m, -, hc, hrest⟩ := parses_cons_iff.1 h
    cases hidle : isIdle r (trim c) with
    | false =>
      rw [strip, trimAll, List.dropWhile_cons, hidle, if_neg Bool.false_ne_true, ← trimAll]
      exact shedsAll_pare hcs
    | true =>
      rw [strip, trimAll, List.dropWhile_cons, hidle, if_pos rfl]
      cases c with
      | leaf t => cases r <;> simp [trim, isIdle, isVoid] at hidle
      | node a ds =>
        obtain ⟨es, hes⟩ := exists_trim_node a ds
        have hds := h.of_node_mem (List.mem_cons_self ..)
        have hvoid : isVoid (trim (.node a ds)) := by
          unfold isIdle at hidle
          split at hidle
          · next heq =>
            rw [hes] at heq
            obtain ⟨rfl, -⟩ := Tree.node.inj heq
            exact absurd rfl ((not_adorned_of_mem hbare (List.mem_cons_self ..)).2 ds rfl)
          · exact hidle
          · exact hidle
          · simp at hidle
        obtain rfl : a = .forLifetimes := by
          rw [hes] at hvoid
          unfold isVoid at hvoid
          split at hvoid
          · next heq => exact (Tree.node.inj heq).1
          · simp at hvoid
        obtain ⟨f, l, g, rfl, hf, hl, hg⟩ := exists_of_void hds hvoid
        refine .binder hf hl hg (shedsAll_strip hrest ?_ fun d hd => hcs d (List.mem_cons_of_mem _ hd))
        rw [adornedOf, Bool.or_eq_false_iff] at hbare
        exact hbare.2

theorem shedsAll_reduce {r : Rule} {cs : List Syntax} (h : Parses rust [ruleBody r] cs)
    (hbare : adornedOf r cs = false) (hcs : ∀ c ∈ cs, Sheds c (trim c).leaves) :
    ShedsAll r cs (leavesOf (reduce r (trimAll cs))) := by
  by_cases hr : r = .type
  · subst hr
    rw [reduce_type_eq, leavesOf_settle]
    exact shedsAll_keep hcs
  · by_cases htuple : r = .tupleType ∧ (trimAll cs).length = 4
    · rw [reduce, if_pos htuple]
      exact shedsAll_keep hcs
    · rw [reduce, if_neg htuple, settle_eq_self hr]
      exact shedsAll_strip h hbare hcs

mutual

theorem sheds_self : ∀ c : Syntax, Sheds c c.leaves
  | .leaf t => .leaf t
  | .node r cs => .node (shedsAll_self r cs)

theorem shedsAll_self (r : Rule) : ∀ cs : List Syntax, ShedsAll r cs (leavesOf cs)
  | [] => .nil
  | c :: cs => .cons (sheds_self c) (shedsAll_self r cs)

end

mutual

/-- Without its optional tokens a type has all tokens but those that it can do without, if no
attribute stands at a parameter of a function pointer. -/
theorem sheds_trim : ∀ {s : Symbol TokenClass Rule} {c : Syntax}, s.HasTree rust c →
    adorned c = false → Sheds c (trim c).leaves
  | _, .leaf t, _, _ => .leaf t
  | .tok _, .node _ _, h, _ => by
    obtain ⟨_, heq, -⟩ := h
    simp at heq
  | .rule r, .node a cs, h, hbare => by
    obtain ⟨ds, heq, hds⟩ := h
    obtain ⟨rfl, rfl⟩ := Tree.node.inj heq
    by_cases ha : a ∈ typeRules ∧ a ≠ .macroType
    · rw [adorned_node ha.2] at hbare
      rw [trim_node ha.1 ha.2, Tree.leaves]
      exact .node (shedsAll_reduce hds hbare fun c hc =>
        sheds_trim_of_mem hds c hc (not_adorned_of_mem hbare hc).1)
    · rw [trim_node_other ha]
      exact sheds_self _

theorem sheds_trim_of_mem : ∀ {k : List Syn} {cs : List Syntax}, Parses rust k cs →
    ∀ c ∈ cs, adorned c = false → Sheds c (trim c).leaves
  | _, [], _, _, hmem, _ => by simp at hmem
  | k, d :: cs, h, c, hmem, hbare => by
    obtain ⟨s, m, hs, hd, hcs⟩ := parses_cons_iff.1 h
    rcases List.mem_cons.1 hmem with heq | hmem
    · rw [heq] at hbare ⊢
      exact sheds_trim hd hbare
    · exact sheds_trim_of_mem hcs c hmem hbare

end

end TraitLift.Grammar
