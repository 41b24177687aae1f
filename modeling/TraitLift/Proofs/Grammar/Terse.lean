import Mathlib.Tactic
import TraitLift.Proofs.Grammar.Prefer

/-!
Types without the tokens that they can do without. `terseBody` is the body of a rule that leaves out
a comma behind the last entry of a list, a `+` behind the last bound, the colon of a lifetime without
bounds, a binder that binds nothing, and the attributes of the parameters of function pointers. A tree
is `Terse` if the parts of every rule in it that has to do with types are derived from that body; the
path of a macro is kept as it is written.
-/

namespace TraitLift.Grammar

/-- The rules that types are made of. -/
def typeRules : List Rule :=
  [.fnAbi, .forLifetimes, .lifetimeParam, .lifetimeBounds, .bounds, .lifetimeBound, .traitBound,
   .parenBound, .type, .typeNoBounds, .implType, .dynType, .implOneType, .dynOneType, .pathType,
   .qpathType, .refType, .ptrType, .sliceType, .arrayType, .tupleType, .parenType, .neverType,
   .inferType, .fnPtrType, .macroType, .pathSegment, .turbofishSegment, .angleArgs, .parenArgs,
   .typeArg, .lifetimeArg, .constArg, .bindingArg, .constraintArg, .bareFnArg]

/-- One or more of something with tokens of one kind between them. -/
def sepList (k : Kind) (e : Syn) : Syn := Expr.all [e, .star (Expr.all [Syn.k k, e])]

open TraitLift.Grammar.Syn TraitLift.Grammar.Expr in
/-- The body of each rule without what types can do without. -/
def terseBody : Rule → Syn
  | .forLifetimes => all [k .kwFor, k .lt, sepList .comma (use .lifetimeParam), k .gt]
  | .lifetimeParam => all [k .lifetime, opt (all [k .colon, use .lifetimeBounds])]
  | .lifetimeBounds => sepList .plus (k .lifetime)
  | .bounds => sepList .plus bound
  | .angleArgs => all [k .lt, opt (sepList .comma genericArg), k .gt]
  | .parenArgs => all [k .lpar, opt (sepList .comma (use .type)), k .rpar, plainReturn]
  | .tupleType =>
    any [all [k .lpar, k .rpar], all [k .lpar, use .type, k .comma, k .rpar],
      all [k .lpar, use .type, plus (all [k .comma, use .type]), k .rpar]]
  | .fnPtrType =>
    all [opt (use .forLifetimes), opt (k .kwUnsafe), opt (use .fnAbi), k .kwFn, k .lpar,
      opt (any [all [sepList .comma (use .bareFnArg), opt (all [k .comma, k .ellipsis])],
        k .ellipsis]), k .rpar, plainReturn]
  | .bareFnArg => all [opt (all [any [k .name, k .underscore], k .colon]), use .type]
  | r => ruleBody r

/-! ### Shapes -/

theorem covers_use_iff {r : Rule} {ps : List Syntax} :
    Covers rust (Syn.use r) ps ↔ ∃ c, ps = [c] ∧ (Symbol.rule r).HasTree rust c := by
  constructor
  · rintro ⟨cs, rfl, hcs⟩
    exact ⟨_, rfl, cs, rfl, hcs⟩
  · rintro ⟨_, rfl, cs, rfl, hcs⟩
    exact ⟨cs, rfl, hcs⟩

/-- What is derived without optional tokens is derived. -/
theorem parses_of_terse {r : Rule} {cs : List Syntax} (h : Parses rust [terseBody r] cs) :
    Parses rust [ruleBody r] cs := by
  have hlist : ∀ {k : Kind} {e : Syn} {ps : List Syntax}, Covers rust (sepList k e) ps →
      Covers rust (Expr.all [e, .star (Expr.all [Syn.k k, e]), Expr.opt (Syn.k k)]) ps := by
    rintro k e _ ⟨us, vs, rfl, hus, hvs⟩
    exact ⟨us, vs, rfl, hus, vs, [], (List.append_nil vs).symm, hvs, Or.inr rfl⟩
  have hopt : ∀ {e f : Syn} {ps : List Syntax}, (∀ {qs}, Covers rust e qs → Covers rust f qs) →
      Covers rust (Expr.opt e) ps → Covers rust (Expr.opt f) ps := fun hef h => h.imp hef id
  rw [parses_iff_covers] at h ⊢
  cases r
  case forLifetimes =>
    obtain ⟨us, _, rfl, hus, vs, _, rfl, hvs, ws, xs, rfl, hws, hxs⟩ := h
    exact ⟨us, _, rfl, hus, vs, _, rfl, hvs, ws, xs, rfl, Or.inl (hlist hws), hxs⟩
  case lifetimeParam =>
    obtain ⟨us, _, rfl, hus, hvs⟩ := h
    refine ⟨us, _, rfl, hus, hopt ?_ hvs⟩
    rintro _ ⟨vs, ws, rfl, hvs, hws⟩
    exact ⟨vs, ws, rfl, hvs, Or.inl hws⟩
  case lifetimeBounds => exact hlist h
  case bounds => exact hlist h
  case angleArgs =>
    obtain ⟨us, _, rfl, hus, vs, ws, rfl, hvs, hws⟩ := h
    exact ⟨us, _, rfl, hus, vs, ws, rfl, hopt hlist hvs, hws⟩
  case parenArgs =>
    obtain ⟨us, _, rfl, hus, vs, ws, rfl, hvs, hws⟩ := h
    exact ⟨us, _, rfl, hus, vs, ws, rfl, hopt hlist hvs, hws⟩
  case tupleType =>
    rcases h with h | h | ⟨us, _, rfl, hus, vs, _, rfl, hvs, ws, xs, rfl, hws, hxs⟩
    · exact Or.inl h
    · exact Or.inr (Or.inl h)
    · exact Or.inr (Or.inr ⟨us, _, rfl, hus, vs, _, rfl, hvs, ws, xs, rfl, hws, [], xs, rfl,
        Or.inr rfl, hxs⟩)
  case fnPtrType =>
    obtain ⟨us, _, rfl, hus, vs, _, rfl, hvs, ws, _, rfl, hws, xs, _, rfl, hxs, ys, _, rfl, hys, zs,
      _, rfl, hzs, hrest⟩ := h
    refine ⟨us, _, rfl, hus, vs, _, rfl, hvs, ws, _, rfl, hws, xs, _, rfl, hxs, ys, _, rfl, hys, zs,
      _, rfl, hopt ?_ hzs, hrest⟩
    rintro _ (⟨_, es, rfl, ⟨as, bs, rfl, has, hbs⟩, hes⟩ | h)
    · exact Or.inl ⟨as, _, List.append_assoc .., has, bs, _, rfl, hbs, es, [],
        (List.append_nil es).symm, hes, Or.inr rfl⟩
    · exact Or.inr h
  case bareFnArg =>
    exact ⟨[], _, rfl, ⟨[], rfl, by simp⟩, h⟩
  all_goals exact h

mutual

/-- No part of the tree that has to do with types has optional tokens. -/
def Terse : Syntax → Prop
  | .leaf _ => True
  | .node r cs => r ∈ typeRules → Parses rust [terseBody r] cs ∧ (r ≠ .macroType → TerseAll cs)

/-- All of the trees are terse. -/
def TerseAll : List Syntax → Prop
  | [] => True
  | c :: cs => Terse c ∧ TerseAll cs

end

theorem terseAll_iff {cs : List Syntax} : TerseAll cs ↔ ∀ c ∈ cs, Terse c := by
  induction cs with
  | nil => simp [TerseAll]
  | cons c cs ih => simp [TerseAll, ih]

end TraitLift.Grammar
