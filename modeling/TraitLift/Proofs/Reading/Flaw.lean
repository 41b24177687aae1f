import Mathlib.Tactic
import TraitLift.Proofs.Print.Parts
import TraitLift.Proofs.Reading.Members

/-!
Faults that only the meaning of a block shows. `Flaw` says which nodes of a tree are at fault, in
whatever order they are looked at. The walk `flaws` finds just these (`mem_flaws_iff`), in the order of
the source (`firsts_sublist`), and reading a parameter reports the fault that it has (`fnArg_fault`).
-/

namespace TraitLift

open TraitLift.Grammar

/-! ### Nodes at fault -/

namespace Grammar

/-- `Within d c`: the tree `d` is the tree `c` or stands somewhere in it. -/
inductive Within (d : Syntax) : Syntax → Prop
  | here : Within d d
  | child {r : Rule} {cs : List Syntax} {c : Syntax} : c ∈ cs → Within d c → Within d (.node r cs)

/-- Whether the tree is an attribute. -/
def isAttr : Syntax → Bool
  | .node .outerAttr _ => true
  | _ => false

/-- Whether the tree is a colon. -/
def isColon : Syntax → Bool
  | .leaf t => t.is .colon
  | _ => false

/-- The tokens of the pattern of a parameter: those behind its attributes and in front of its colon. -/
def patternOf (ps : List Syntax) : List Token := leavesOf ((ps.dropWhile isAttr).takeWhile (!isColon ·))

/-- Whether a parameter has a type. -/
def isTyped (ps : List Syntax) : Bool := ps.any fun
  | .node .type _ => true
  | _ => false

/-- Whether a function has a body. -/
def hasBody (fs : List Syntax) : Bool := fs.any fun
  | .node .braceTree _ => true
  | _ => false

/-- The place of the first token. -/
def locOf (cs : List Syntax) : Loc := ((leavesOf cs).head?.map Token.loc).getD Loc.origin

end Grammar

/-- What can stand between `&` and `self`. -/
def Kind.selfMarks : List (List Kind) := [[], [.kwMut], [.lifetime], [.lifetime, .kwMut]]

/-- The shapes of a `self` behind `&`. -/
def Kind.borrowedSelves : List (List Kind) := selfMarks.map fun ks => .amp :: (ks ++ [.kwSelf])

/-- The shapes of a `self` that is not behind `&`. -/
def Kind.ownedSelves : List (List Kind) := [[.kwSelf], [.kwMut, .kwSelf]]

/-- The fault of a parameter: a `self` behind `&` that has a type, or anything else without a type that
is neither a `self` nor a lone `...`. -/
def paramFault? (source : List Char) (ps : List Syntax) : Option Fault :=
  let shape := (patternOf ps).map Token.kind
  if isTyped ps then if shape ∈ Kind.borrowedSelves then some (.typedReceiver (locOf ps)) else none
  else if shape ∈ Kind.borrowedSelves ++ Kind.ownedSelves ++ [[.ellipsis]] then none
  else some (.untypedParam (sliceOf source (patternOf ps)) (locOf ps))

/-- `Flaw source c d f`: the node `d` of the tree `c` is at fault. It is a marker other than `default`,
or a parameter of a function that has a body. -/
inductive Flaw (source : List Char) (c : Syntax) : Syntax → Fault → Prop
  | marker {t : Token} : Within (.node .marker [.leaf t]) c → t.text ≠ "default" →
      Flaw source c (.node .marker [.leaf t]) (.strayName t.text t.loc)
  | param {fs ps : List Syntax} {f : Fault} : Within (.node .fnItem fs) c → hasBody fs →
      .node .fnParam ps ∈ fs → paramFault? source ps = some f → Flaw source c (.node .fnParam ps) f

/-! ### Nodes at fault in order -/

/-- The fault of a node by itself; `inBody` says whether it belongs to a function that has a body. -/
def ownFlaw (source : List Char) (inBody : Bool) : Rule → List Syntax → List (Syntax × Fault)
  | .marker, [.leaf t] =>
    if t.text = "default" then [] else [(.node .marker [.leaf t], .strayName t.text t.loc)]
  | .fnParam, ps =>
    if inBody then (paramFault? source ps).toList.map (Prod.mk (.node .fnParam ps)) else []
  | _, _ => []

mutual

/-- The nodes at fault in a tree, from left to right. -/
def flaws (source : List Char) (inBody : Bool) : Syntax → List (Syntax × Fault)
  | .leaf _ => []
  | .node r cs =>
    ownFlaw source inBody r cs ++ flawsOf source (decide (r = .fnItem) && hasBody cs) cs

/-- The nodes at fault in some trees, from left to right. -/
def flawsOf (source : List Char) (inBody : Bool) : List Syntax → List (Syntax × Fault)
  | [] => []
  | c :: cs => flaws source inBody c ++ flawsOf source inBody cs

end

section

variable {source : List Char} {inBody : Bool}

theorem flawsOf_append : ∀ us vs : List Syntax,
    flawsOf source inBody (us ++ vs) = flawsOf source inBody us ++ flawsOf source inBody vs
  | [], _ => rfl
  | u :: us, vs => by
    rw [List.cons_append, flawsOf, flawsOf, flawsOf_append us vs, List.append_assoc]

theorem flaws_subset_flawsOf {c : Syntax} {cs : List Syntax} (h : c ∈ cs) :
    flaws source inBody c ⊆ flawsOf source inBody cs := by
  obtain ⟨us, vs, rfl⟩ := List.append_of_mem h
  rw [flawsOf_append, flawsOf]
  exact fun p hp => List.mem_append_right _ (List.mem_append_left _ hp)

theorem flawsOf_subset_flaws {r : Rule} {cs : List Syntax} :
    flawsOf source (decide (r = .fnItem) && hasBody cs) cs ⊆ flaws source inBody (.node r cs) := by
  rw [flaws]
  exact List.subset_append_right ..

/-- The walk finds what the nodes under it find. -/
theorem flaws_of_within {d c : Syntax} (h : Within d c) {p : Syntax × Fault}
    (hp : ∀ b, p ∈ flaws source b d) : ∀ b, p ∈ flaws source b c := by
  induction h with
  | here => exact hp
  | child hmem _ ih => exact fun b => flawsOf_subset_flaws (flaws_subset_flawsOf hmem (ih _))

theorem mem_flaws {c d : Syntax} {f : Fault} (h : Flaw source c d f) :
    (d, f) ∈ flaws source inBody c := by
  cases h with
  | marker hwithin htext =>
    refine flaws_of_within hwithin (fun b => ?_) inBody
    simp [flaws, ownFlaw, htext]
  | param hwithin hbody hmem hfault =>
    refine flaws_of_within hwithin (fun b => ?_) inBody
    refine flawsOf_subset_flaws (flaws_subset_flawsOf hmem ?_)
    simp [flaws, ownFlaw, hbody, hfault]

theorem Grammar.Within.trans {d c e : Syntax} (h : Within d c) (h' : Within c e) : Within d e := by
  induction h' with
  | here => exact h
  | child hmem _ ih => exact .child hmem ih

theorem exists_of_ownFlaw {r : Rule} {cs : List Syntax} {p : Syntax × Fault}
    (h : p ∈ ownFlaw source inBody r cs) :
    (∃ t, r = .marker ∧ cs = [.leaf t] ∧ t.text ≠ "default" ∧
      p = (.node .marker [.leaf t], .strayName t.text t.loc)) ∨
    (inBody = true ∧ r = .fnParam ∧ ∃ f, paramFault? source cs = some f ∧
      p = (.node .fnParam cs, f)) := by
  unfold ownFlaw at h
  split at h
  · next t =>
    split at h
    · simp at h
    · next htext => exact Or.inl ⟨t, rfl, rfl, htext, List.mem_singleton.1 h⟩
  · split at h
    · next hbody =>
      obtain ⟨f, hf, rfl⟩ := List.mem_map.1 h
      exact Or.inr ⟨hbody, rfl, f, Option.mem_toList.1 hf, rfl⟩
    · simp at h
  · simp at h

mutual

/-- What the walk finds is at fault. -/
theorem flaw_of_mem {root : Syntax} {p : Syntax × Fault} : ∀ {b : Bool} {c : Syntax}, Within c root →
    (b → ∃ fs, Within (.node .fnItem fs) root ∧ hasBody fs ∧ c ∈ fs) → p ∈ flaws source b c →
    Flaw source root p.1 p.2
  | _, .leaf _, _, _, h => by simp [flaws] at h
  | b, .node r cs, hwithin, hctx, h => by
    rw [flaws] at h
    rcases List.mem_append.1 h with h | h
    · obtain ⟨t, rfl, rfl, htext, rfl⟩ | ⟨rfl, rfl, f, hf, rfl⟩ := exists_of_ownFlaw h
      · exact .marker hwithin htext
      · obtain ⟨fs, hfs, hbody, hmem⟩ := hctx rfl
        exact .param hfs hbody hmem hf
    · refine flaw_of_memOf (fun c hc => (Within.child hc .here).trans hwithin) ?_ h
      intro hb
      rw [Bool.and_eq_true, decide_eq_true_eq] at hb
      obtain ⟨rfl, hbody⟩ := hb
      exact ⟨cs, hwithin, hbody, List.Subset.refl cs⟩

theorem flaw_of_memOf {root : Syntax} {p : Syntax × Fault} : ∀ {b : Bool} {cs : List Syntax},
    (∀ c ∈ cs, Within c root) →
    (b → ∃ fs, Within (.node .fnItem fs) root ∧ hasBody fs ∧ cs ⊆ fs) →
    p ∈ flawsOf source b cs → Flaw source root p.1 p.2
  | _, [], _, _, h => by simp [flawsOf] at h
  | b, c :: cs, hwithin, hctx, h => by
    rw [flawsOf] at h
    rcases List.mem_append.1 h with h | h
    · refine flaw_of_mem (hwithin c (List.mem_cons_self ..)) (fun hb => ?_) h
      obtain ⟨fs, hfs, hbody, hsub⟩ := hctx hb
      exact ⟨fs, hfs, hbody, hsub (List.mem_cons_self ..)⟩
    · refine flaw_of_memOf (fun d hd => hwithin d (List.mem_cons_of_mem c hd)) (fun hb => ?_) h
      obtain ⟨fs, hfs, hbody, hsub⟩ := hctx hb
      exact ⟨fs, hfs, hbody, fun d hd => hsub (List.mem_cons_of_mem c hd)⟩

end

theorem mem_flaws_iff {c d : Syntax} {f : Fault} :
    (d, f) ∈ flaws source false c ↔ Flaw source c d f :=
  ⟨flaw_of_mem .here (by simp), mem_flaws⟩

/-! ### Rules without faults -/

/-- The rules that blocks and members are put together from, and their markers and parameters. -/
def loudRules : List Rule :=
  [.implBlock, .implBody, .methodMember, .constMember, .typeMember, .macroMember, .foreignMember,
   .marker, .fnItem, .fnParam]

/-- The tree is a token, or of a rule that no fault can be found in. -/
def Quiet (c : Syntax) : Prop :=
  (∃ t, c = .leaf t) ∨ ∃ q ∉ loudRules, (Grammar.Symbol.rule q).HasTree rust c

theorem quiet_of_covers {e : Syn} {us : List Syntax} (h : Grammar.Covers rust e us)
    (he : ∀ q ∈ Rule.all, mentions q e → q ∉ loudRules) : ∀ c ∈ us, Quiet c := by
  intro c hc
  cases c with
  | leaf t => exact Or.inl ⟨t, rfl⟩
  | node q ds =>
    exact Or.inr ⟨q, he q (rust_listed q) (mentions_of_covers h hc), ds, rfl, h.parses.of_node_mem hc⟩

/-- No other rule has one of them in it. -/
theorem loudRules_closed : ∀ q ∈ Rule.all, q ∉ loudRules →
    ∀ a ∈ Rule.all, mentions a (ruleBody q) → a ∉ loudRules := by decide +kernel

mutual

theorem Quiet.flaws : ∀ {c : Syntax}, Quiet c → ∀ b, flaws source b c = []
  | .leaf _, _, _ => rfl
  | .node r cs, h, b => by
    obtain ⟨t, ht⟩ | ⟨q, hq, ds, heq, hds⟩ := h
    · simp at ht
    · obtain ⟨rfl, rfl⟩ := Grammar.Tree.node.inj heq
      have hparts := quiet_of_covers (parses_iff_covers.1 hds) (loudRules_closed r (rust_listed r) hq)
      have hown : ownFlaw source b r cs = [] := by
        refine List.eq_nil_iff_forall_not_mem.2 fun p hp => hq ?_
        obtain ⟨t, rfl, -⟩ | ⟨-, rfl, -⟩ := exists_of_ownFlaw hp <;> decide
      rw [TraitLift.flaws, hown, Quiet.flawsOf hparts, List.append_nil]

theorem Quiet.flawsOf : ∀ {cs : List Syntax}, (∀ c ∈ cs, Quiet c) → ∀ b, flawsOf source b cs = []
  | [], _, _ => rfl
  | c :: cs, h, b => by
    rw [TraitLift.flawsOf, (h c (List.mem_cons_self ..)).flaws,
      Quiet.flawsOf fun d hd => h d (List.mem_cons_of_mem c hd), List.append_nil]

end

/-! ### The order of the faults -/

theorem firsts_ownFlaw (r : Rule) (cs : List Syntax) :
    ((ownFlaw source inBody r cs).flatMap fun p => p.1.leaves.head?.toList).Sublist (leavesOf cs) := by
  cases hown : ownFlaw source inBody r cs with
  | nil => exact List.nil_sublist _
  | cons p ps =>
    have hnode : p :: ps = [p] ∧ p.1.leaves = leavesOf cs := by
      obtain ⟨t, rfl, rfl, htext, rfl⟩ | ⟨rfl, rfl, f, hf, rfl⟩ :=
        exists_of_ownFlaw (hown ▸ List.mem_cons_self .. : p ∈ ownFlaw source inBody r cs)
      · rw [← hown, ownFlaw, if_neg htext]
        exact ⟨rfl, rfl⟩
      · rw [← hown, ownFlaw, if_pos rfl, hf]
        exact ⟨rfl, rfl⟩
    rw [hnode.1, List.flatMap_singleton, hnode.2]
    cases leavesOf cs with
    | nil => exact List.nil_sublist _
    | cons t ts => exact List.Sublist.cons_cons t (List.nil_sublist ts)

mutual

/-- The first tokens of the nodes at fault come in the order of the source. -/
theorem firsts_sublist : ∀ {b : Bool} {k : List Syn} {c : Syntax}, Parses rust k [c] →
    ((flaws source b c).flatMap fun p => p.1.leaves.head?.toList).Sublist c.leaves
  | _, _, .leaf _, _ => List.nil_sublist _
  | b, _, .node r cs, h => by
    have hcs := h.of_node_mem (List.mem_cons_self ..)
    rw [flaws, List.flatMap_append, Grammar.Tree.leaves]
    cases hown : ownFlaw source b r cs with
    | nil => exact firsts_sublistOf hcs
    | cons p ps =>
      -- a node at fault has no other one in it
      have hquiet : ∀ c ∈ cs, Quiet c := by
        obtain ⟨t, rfl, rfl, -⟩ | ⟨-, rfl, -⟩ :=
          exists_of_ownFlaw (hown ▸ List.mem_cons_self .. : p ∈ ownFlaw source b r cs)
        · exact fun c hc => Or.inl ⟨t, List.mem_singleton.1 hc⟩
        · exact quiet_of_covers (parses_iff_covers.1 hcs) (by decide)
      rw [← hown, Quiet.flawsOf hquiet, List.flatMap_nil, List.append_nil]
      exact firsts_ownFlaw r cs

theorem firsts_sublistOf : ∀ {b : Bool} {k : List Syn} {cs : List Syntax}, Parses rust k cs →
    ((flawsOf source b cs).flatMap fun p => p.1.leaves.head?.toList).Sublist (leavesOf cs)
  | _, _, [], _ => List.nil_sublist _
  | b, k, c :: cs, h => by
    obtain ⟨s, m, -, hc, hcs⟩ := parses_cons_iff.1 h
    have hone : ∃ k, Parses rust k [c] := by
      cases s with
      | tok x =>
        obtain ⟨t, rfl, ht⟩ := hc
        exact ⟨[.tok x], parses_iff_covers.2 ⟨t, rfl, ht⟩⟩
      | rule r =>
        obtain ⟨ds, rfl, hds⟩ := hc
        exact ⟨[.rule r], parses_iff_covers.2 ⟨ds, rfl, hds⟩⟩
    obtain ⟨k', hone⟩ := hone
    rw [flawsOf, List.flatMap_append, leavesOf]
    exact (firsts_sublist hone).append (firsts_sublistOf hcs)

end

/-! ### Parameters -/

/-- What stands between `&` and `self` decides whether they are a receiver. -/
theorem refReceiver_isSome (ts : List Token) : (Reading.refReceiver? ts).isSome ↔
    ts.map Token.kind ∈ Kind.selfMarks := by
  match ts with
  | [] => simp [Reading.refReceiver?, Kind.selfMarks]
  | [t] =>
    by_cases hmut : t.kind = .kwMut <;> by_cases hlife : t.kind = .lifetime <;>
      simp [Reading.refReceiver?, Kind.selfMarks, Token.is, hmut, hlife]
  | [t, u] =>
    by_cases hlife : t.kind = .lifetime <;> by_cases hmut : u.kind = .kwMut <;>
      simp [Reading.refReceiver?, Kind.selfMarks, Token.is, hmut, hlife]
  | _ :: _ :: _ :: _ => simp [Reading.refReceiver?, Kind.selfMarks]

theorem mem_borrowedSelves_iff {ks : List Kind} :
    .amp :: (ks ++ [.kwSelf]) ∈ Kind.borrowedSelves ↔ ks ∈ Kind.selfMarks := by
  simp [Kind.borrowedSelves]

theorem exists_of_mem_borrowedSelves {ks : List Kind} (h : ks ∈ Kind.borrowedSelves) :
    ks.head? = some .amp ∧ ks.getLast? = some .kwSelf := by
  revert h ks
  decide

/-- A receiver is told by the kinds of its tokens. -/
theorem receiver_shape (ts : List Token) : (Reading.receiver? ts).map Prod.fst =
    if ts.map Token.kind ∈ Kind.borrowedSelves then some true
    else if ts.map Token.kind ∈ Kind.ownedSelves then some false else none := by
  cases ts with
  | nil => rfl
  | cons t ts =>
    by_cases hamp : t.kind = .amp
    · have howned : (t :: ts).map Token.kind ∉ Kind.ownedSelves := by
        simp [Kind.ownedSelves, hamp]
      rw [if_neg howned, Reading.receiver?, if_pos (by simp [Token.is, hamp])]
      rcases List.eq_nil_or_concat ts with rfl | ⟨us, last, rfl⟩
      · rw [if_neg (by rw [List.map_singleton, hamp]; decide)]
        rfl
      · rw [List.concat_eq_append, List.getLast?_concat, List.dropLast_concat]
        dsimp only
        by_cases hself : last.kind = .kwSelf
        · rw [if_pos (by simp [Token.is, hself]), Option.map_map]
          have hshape : (t :: (us ++ [last])).map Token.kind = .amp :: (us.map Token.kind ++ [.kwSelf]) := by
            simp [hamp, hself]
          rw [hshape]
          simp only [mem_borrowedSelves_iff, ← refReceiver_isSome]
          cases Reading.refReceiver? us <;> rfl
        · rw [if_neg (by simp [Token.is, hself]), if_neg fun h => hself ?_]
          · rfl
          · have hlast := (exists_of_mem_borrowedSelves h).2
            rw [List.map_cons, List.map_append, ← List.cons_append, List.map_singleton,
              List.getLast?_concat] at hlast
            exact Option.some.inj hlast
    · have hborrowed : (t :: ts).map Token.kind ∉ Kind.borrowedSelves := fun h =>
        hamp (by simpa using (exists_of_mem_borrowedSelves h).1)
      rw [if_neg hborrowed, Reading.receiver?, if_neg (by simp [Token.is, hamp])]
      by_cases hself : t.kind = .kwSelf
      · cases ts <;> simp [Token.is, Kind.ownedSelves, hself]
      · by_cases hmut : t.kind = .kwMut
        · by_cases hrest : ts.map Token.kind = [.kwSelf] <;>
            simp [Token.is, Kind.ownedSelves, hmut, hrest]
        · simp [Token.is, Kind.ownedSelves, hself, hmut]

/-- The tree is a token other than a colon, or a bracketed group. -/
def IsPattern (q : Syntax) : Prop :=
  (∃ t, q = .leaf t ∧ t.kind ≠ .colon) ∨
    ∃ r ds, q = .node r ds ∧ r ∈ [Rule.parenTree, .bracketTree, .braceTree]

theorem exists_isPattern {us : List Syntax} (h : Grammar.Covers rust Syn.inPattern us) :
    ∃ q, us = [q] ∧ IsPattern q := by
  rcases h with (⟨ds, rfl, -⟩ | ⟨ds, rfl, -⟩ | ⟨ds, rfl, -⟩) | ⟨t, rfl, ht⟩
  · exact ⟨_, rfl, Or.inr ⟨_, ds, rfl, by decide⟩⟩
  · exact ⟨_, rfl, Or.inr ⟨_, ds, rfl, by decide⟩⟩
  · exact ⟨_, rfl, Or.inr ⟨_, ds, rfl, by decide⟩⟩
  · refine ⟨_, rfl, Or.inl ⟨t, rfl, fun hcolon => ?_⟩⟩
    have hplain : TokenClass.plain.has t.kind := ht
    rw [hcolon] at hplain
    exact absurd hplain (by decide)

variable (source) in
theorem IsPattern.meaning {q : Syntax} (h : IsPattern q) :
    (∃ t, (Reading.phrase source q).meaning = .token t ∧ t.kind ≠ .colon) ∨
      (Reading.phrase source q).meaning = .plain := by
  obtain ⟨t, rfl, ht⟩ | ⟨r, ds, rfl, hr⟩ := h
  · exact Or.inl ⟨t, rfl, ht⟩
  · rw [Reading.phrase_node]
    refine Or.inr ?_
    cases r <;> first | rfl | simp at hr

/-- The parts of a parameter: its attributes, its pattern, and its type if it has one. -/
structure ParamParts (ps as qs ts : List Syntax) : Prop where
  eq : ps = as ++ (qs ++ ts)
  attrs : ∀ a ∈ as, ∃ ds, a = .node .outerAttr ds
  pattern : ∀ q ∈ qs, IsPattern q
  ne_nil : qs ≠ []
  typed : ts = [] ∨ ∃ c ds, ts = [.leaf c, .node .type ds] ∧ c.kind = .colon

theorem paramParts {as qs ts : List Syntax} (has : Grammar.Covers rust Syn.attrs as)
    (hqs : Grammar.Covers rust (Expr.plus Syn.inPattern) qs)
    (hts : Grammar.Covers rust (Expr.opt (Expr.all [Syn.k .colon, Syn.use .type])) ts) :
    ParamParts (as ++ (qs ++ ts)) as qs ts := by
  obtain ⟨ass, rfl, hass⟩ := has
  refine ⟨rfl, fun a ha => ?_, fun q hq => ?_, ?_, ?_⟩
  · obtain ⟨us, hus, ha⟩ := List.mem_flatten.1 ha
    obtain ⟨ds, rfl, -⟩ := hass us hus
    exact ⟨ds, List.mem_singleton.1 ha⟩
  · obtain ⟨us, _, rfl, hus, vss, rfl, hvss⟩ := hqs
    have hrow : ∃ us, Grammar.Covers rust Syn.inPattern us ∧ q ∈ us := by
      rcases List.mem_append.1 hq with hq | hq
      · exact ⟨us, hus, hq⟩
      · obtain ⟨vs, hvs, hq⟩ := List.mem_flatten.1 hq
        exact ⟨vs, hvss vs hvs, hq⟩
    obtain ⟨us, hus, hq⟩ := hrow
    obtain ⟨q', rfl, hpattern⟩ := exists_isPattern hus
    obtain rfl := List.mem_singleton.1 hq
    exact hpattern
  · rintro rfl
    exact absurd (parses_nil_iff.1 hqs.parses) (by decide)
  · rcases hts with ⟨_, _, rfl, ⟨c, rfl, hc⟩, ds, rfl, -⟩ | rfl
    · exact Or.inr ⟨c, ds, rfl, kind_eq hc⟩
    · exact Or.inl rfl

theorem exists_paramParts {ps : List Syntax} (h : Parses rust [ruleBody .fnParam] ps) :
    ∃ as qs ts, ParamParts ps as qs ts := by
  obtain ⟨as, _, rfl, has, qs, ts, rfl, hqs, hts⟩ := parses_iff_covers.1 h
  exact ⟨as, qs, ts, paramParts has hqs hts⟩

namespace ParamParts

variable {ps as qs ts : List Syntax} (h : ParamParts ps as qs ts)

include h

theorem patternOf_eq : patternOf ps = leavesOf qs := by
  have hattrs : ∀ a ∈ as, isAttr a := fun a ha => by
    obtain ⟨ds, rfl⟩ := h.attrs a ha
    rfl
  have hpattern : ∀ q ∈ qs, isAttr q = false ∧ isColon q = false := by
    intro q hq
    obtain ⟨t, rfl, ht⟩ | ⟨r, ds, rfl, hr⟩ := h.pattern q hq
    · exact ⟨rfl, beq_eq_false_iff_ne.2 ht⟩
    · refine ⟨?_, rfl⟩
      cases r <;> first | rfl | simp at hr
  obtain ⟨q, qs', rfl⟩ := List.exists_cons_of_ne_nil h.ne_nil
  have hhead : ¬ isAttr q := by
    rw [(hpattern q (List.mem_cons_self ..)).1]
    exact Bool.false_ne_true
  have hrest : ts.takeWhile (!isColon ·) = [] := by
    obtain rfl | ⟨c, ds, rfl, hc⟩ := h.typed
    · rfl
    · simp [isColon, Token.is, hc]
  rw [patternOf, h.eq, List.dropWhile_append_of_pos hattrs, List.cons_append,
    List.dropWhile_cons_of_neg hhead, ← List.cons_append,
    List.takeWhile_append_of_pos fun q hq => by rw [(hpattern q hq).2]; rfl, hrest, List.append_nil]

theorem isTyped_eq : isTyped ps = !ts.isEmpty := by
  have hnone : ∀ us : List Syntax, (∀ u ∈ us, ∀ ds, u ≠ .node .type ds) → isTyped us = false := by
    refine fun us hus => List.any_eq_false.2 fun u hu => ?_
    split
    · exact absurd rfl (hus _ hu _)
    · exact Bool.false_ne_true
  have hfront : isTyped (as ++ qs) = false := by
    refine hnone _ fun u hu ds heq => ?_
    rcases List.mem_append.1 hu with hu | hu
    · obtain ⟨es, rfl⟩ := h.attrs u hu
      simp at heq
    · obtain ⟨t, rfl, -⟩ | ⟨r, es, rfl, hr⟩ := h.pattern u hu
      · simp at heq
      · obtain ⟨rfl, -⟩ := Grammar.Tree.node.inj heq
        simp at hr
  have hsplit : isTyped ps = (isTyped (as ++ qs) || isTyped ts) := by
    rw [h.eq, ← List.append_assoc, isTyped, List.any_append]
    rfl
  rw [hsplit, hfront, Bool.false_or]
  obtain rfl | ⟨c, ds, rfl, -⟩ := h.typed <;> rfl

variable (source) in
theorem patternParts_eq : Reading.patternParts (ps.map (Reading.phrase source)) =
    qs.map (Reading.phrase source) := by
  rw [h.eq, List.map_append, List.map_append, Reading.patternParts, List.filter_append,
    List.filter_append]
  have hattrs : ∀ p ∈ as.map (Reading.phrase source), ∃ a, p.meaning = .attr a := by
    refine List.forall_mem_map.2 fun a ha => ?_
    obtain ⟨ds, rfl⟩ := h.attrs a ha
    exact ⟨_, by rw [Reading.phrase_node]; rfl⟩
  have htyped : ∀ p ∈ ts.map (Reading.phrase source),
      (∃ t, p.meaning = .token t ∧ t.kind = .colon) ∨ ∃ t, p.meaning = .type t := by
    obtain rfl | ⟨c, ds, rfl, hc⟩ := h.typed
    · simp
    · obtain ⟨t, ht⟩ := Reading.exists_type source (r := .type) (by decide)
        (ds.map (Reading.phrase source))
      refine List.forall_mem_cons.2
        ⟨Or.inl ⟨c, rfl, hc⟩, List.forall_mem_singleton.2 (Or.inr ⟨t, ?_⟩)⟩
      rw [Reading.phrase_node, ht]
  have hpattern : ∀ p ∈ qs.map (Reading.phrase source),
      (∃ t, p.meaning = .token t ∧ t.kind ≠ .colon) ∨ p.meaning = .plain :=
    List.forall_mem_map.2 fun q hq => (h.pattern q hq).meaning source
  rw [List.filter_eq_nil_iff.2, List.filter_eq_self.2, List.filter_eq_nil_iff.2, List.nil_append,
    List.append_nil]
  · intro p hp
    rcases htyped p hp with ⟨t, ht, hc⟩ | ⟨t, ht⟩
    · simp [ht, Token.is, hc]
    · simp [ht]
  · intro p hp
    rcases hpattern p hp with ⟨t, ht, hc⟩ | ht
    · simp [ht, Token.is, hc]
    · simp [ht]
  · intro p hp
    obtain ⟨a, ha⟩ := hattrs p hp
    simp [ha]

variable (source) in
theorem type?_isSome : (Parts.type? (ps.map (Reading.phrase source))).isSome = !ts.isEmpty := by
  have hnone : ∀ u ∈ as ++ qs, ∀ t, (Reading.phrase source u).meaning ≠ .type t := by
    intro u hu t ht
    rcases List.mem_append.1 hu with hu | hu
    · obtain ⟨ds, rfl⟩ := h.attrs u hu
      rw [Reading.phrase_node] at ht
      simp [Reading.ruleMeaning] at ht
    · rcases (h.pattern u hu).meaning source with ⟨t', ht', -⟩ | ht' <;> simp [ht'] at ht
  have hfront : Parts.types ((as ++ qs).map (Reading.phrase source)) = [] := by
    refine List.filterMap_eq_nil_iff.2 (List.forall_mem_map.2 fun u hu => ?_)
    have hother := hnone u hu
    dsimp only
    split
    · next heq => exact absurd heq (hother _)
    · rfl
  rw [Parts.type?, h.eq, ← List.append_assoc, List.map_append, Parts.types, Reading.pick_append]
  rw [Parts.types] at hfront
  rw [hfront, List.nil_append]
  obtain rfl | ⟨c, ds, rfl, -⟩ := h.typed
  · rfl
  · obtain ⟨t, ht⟩ := Reading.exists_type source (r := .type) (by decide)
      (ds.map (Reading.phrase source))
    rw [List.map_cons, Reading.pick_leaf (fun _ => rfl), List.map_singleton, Reading.phrase_node, ht]
    rfl

end ParamParts

variable (source) in
/-- Reading a parameter reports the fault that it has, if any. -/
theorem fnArg_fault {ps : List Syntax} (h : Parses rust [ruleBody .fnParam] ps) :
    match paramFault? source ps with
    | some f => Reading.fnArg source (ps.map (Reading.phrase source)) = .error f
    | none => ∃ a, Reading.fnArg source (ps.map (Reading.phrase source)) = .ok a := by
  obtain ⟨as, qs, ts, hparts⟩ := exists_paramParts h
  have hpattern := hparts.patternParts_eq source
  have htype := hparts.type?_isSome source
  have hshape := receiver_shape (leavesOf qs)
  have hloc : Parts.loc (ps.map (Reading.phrase source)) = locOf ps := by
    rw [Parts.loc, Reading.tokens_phrases, locOf]
  rw [Reading.fnArg, hpattern, Reading.tokens_phrases, Parts.text, Reading.tokens_phrases, hloc,
    paramFault?, hparts.isTyped_eq, hparts.patternOf_eq, ← htype]
  simp only [List.mem_append, List.mem_singleton]
  generalize Parts.type? (ps.map (Reading.phrase source)) = type
  by_cases hborrowed : (leavesOf qs).map Token.kind ∈ Kind.borrowedSelves
  · rw [if_pos hborrowed] at hshape
    obtain ⟨⟨reference, l, m⟩, hreceiver, rfl⟩ := Option.map_eq_some_iff.1 hshape
    cases type with
    | none => simp [hreceiver, hborrowed]
    | some t => simp [hreceiver, hborrowed]
  · rw [if_neg hborrowed] at hshape
    by_cases howned : (leavesOf qs).map Token.kind ∈ Kind.ownedSelves
    · rw [if_pos howned] at hshape
      obtain ⟨⟨reference, l, m⟩, hreceiver, rfl⟩ := Option.map_eq_some_iff.1 hshape
      cases type with
      | none => simp [hreceiver, howned]
      | some t => simp [hreceiver, hborrowed]
    · rw [if_neg howned, Option.map_eq_none_iff] at hshape
      cases type with
      | none =>
        by_cases hdots : (leavesOf qs).map Token.kind = [.ellipsis]
        · simp [hshape, hdots]
        · simp [hshape, hborrowed, howned, hdots]
      | some t => simp [hshape, hborrowed]

end

end TraitLift
