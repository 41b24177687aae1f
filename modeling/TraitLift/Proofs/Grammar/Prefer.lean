import Mathlib.Tactic
import TraitLift.Proofs.Grammar.Clash

/-!
The trees that are found are the preferred ones. Of the ranges of a rule that begin at one place the
longest is tried first (`ends_descending`), so a rule that is found with a shorter range has no longer
one from which there is a way to the end. From this the trees that reading gives are neat
(`read_neat`): where a `::` or a `!` follows what it could belong to, the longer range would have been
taken.
-/

namespace TraitLift.Grammar

variable {α τ ν : Type}

/-! ### The longest range first -/

namespace Spans

/-- The ranges that begin at a place end at `stop` or before, the last first. -/
def Ordered (stop : Nat) (spans : Spans ν) : Prop := ∀ pos : Nat,
  (((spans[pos]?).getD []).Pairwise fun a b => b.2 ≤ a.2) ∧ ∀ a ∈ (spans[pos]?).getD [], a.2 ≤ stop

theorem Ordered.mono {m n : Nat} {spans : Spans ν} (h : Ordered m spans) (hmn : m ≤ n) :
    Ordered n spans :=
  fun pos => ⟨(h pos).1, fun a ha => Nat.le_trans ((h pos).2 a ha) hmn⟩

variable [DecidableEq ν]

theorem Ordered.enterItem {stop : Nat} {spans : Spans ν} (h : Ordered stop spans)
    (i : Item τ ν) : Ordered stop (enterItem stop spans i) := by
  intro pos
  have hpos := h pos
  simp only [Spans.enterItem, enter, List.foldl_cons, List.foldl_nil]
  split
  · rw [Array.getElem?_modify]
    split
    · next heq =>
      subst heq
      cases hl : spans[i.start]? with
      | none => simp
      | some l =>
        rw [hl] at hpos
        simp only [Option.map_some, Option.getD_some] at hpos ⊢
        split
        · exact hpos
        · refine ⟨List.pairwise_cons.2 ⟨fun a ha => hpos.2 a ha, hpos.1⟩, fun a ha => ?_⟩
          rcases List.mem_cons.1 ha with rfl | ha
          · exact Nat.le_refl _
          · exact hpos.2 a ha
    · exact hpos
  · exact hpos

theorem Ordered.enter {stop : Nat} (items : List (Item τ ν)) : ∀ {spans : Spans ν},
    Ordered stop spans → Ordered stop (items.foldl (Spans.enterItem stop) spans) := by
  induction items with
  | nil => exact fun h => h
  | cons i items ih => exact fun h => ih (h.enterItem i)

theorem Ordered.foldl : ∀ (cols : List (Column τ ν)) {n : Nat} {spans : Spans ν}, Ordered n spans →
    Ordered (n + cols.length) ((cols.zipIdx n).foldl (fun spans (col, stop) => spans.enter stop col) spans)
  | [], _, _, h => h
  | col :: cols, n, spans, h => by
    have henter : Ordered n (spans.enter n col) := enter_eq_foldl spans n col ▸ h.enter col.items
    have hrest := Ordered.foldl cols (henter.mono (Nat.le_succ n))
    rw [List.length_cons, Nat.add_comm cols.length, ← Nat.add_assoc]
    exact hrest

/-- In the ranges of a chart, those that begin at one place come in the order of their length. -/
theorem ordered_ofChart (columns : Array (Column τ ν)) :
    Ordered columns.toList.length (ofChart columns) := by
  have hempty : Ordered 0 (Array.replicate columns.size ([] : List (ν × Nat))) := by
    intro pos
    rw [Array.getElem?_replicate]
    split <;> simp
  simpa [ofChart] using Ordered.foldl columns.toList hempty

end Spans

variable [DecidableEq ν]

/-- The ranges of a rule that begin at one place are tried from the longest to the shortest. -/
def Forest.Descends (F : Forest α τ ν) : Prop :=
  ∀ r pos, (F.ends r pos).Pairwise fun a b => b ≤ a

theorem Spans.Ordered.descends {stop : Nat} {F : Forest α τ ν} (h : Spans.Ordered stop F.spans) :
    F.Descends := by
  intro r pos
  rw [Forest.ends, List.pairwise_filterMap]
  refine (h pos).1.imp fun {a b} hab c hc d hd => ?_
  simp only [Option.ite_none_right_eq_some, Option.some.injEq] at hc hd
  obtain ⟨-, rfl⟩ := hc
  obtain ⟨-, rfl⟩ := hd
  exact hab

/-! ### Steps of a way -/

namespace Forest

variable {F : Forest α τ ν} {stop fuel pos : Nat} {k : List (Expr τ ν)} {ps : List (Part α ν)}

theorem way_eq_some_token {t : α} (h : F.way stop fuel k pos = some (.token t :: ps)) :
    ∃ n c m, fuel = n + 1 ∧ (.tok c, m) ∈ stepsRest k ∧ F.tokens[pos]? = some t ∧
      F.grammar.accepts c t ∧ F.way stop n m (pos + 1) = some ps := by
  cases fuel with
  | zero => simp [way] at h
  | succ n =>
    rw [way] at h
    split at h
    · split at h <;> simp at h
    · obtain ⟨⟨s, m⟩, hs, hfound⟩ := List.exists_of_findSome?_eq_some h
      cases s with
      | tok c =>
        simp only at hfound
        split at hfound
        · next u hu =>
          split at hfound
          · next hc =>
            obtain ⟨qs, hqs, heq⟩ := Option.map_eq_some_iff.1 hfound
            obtain ⟨hut, rfl⟩ := List.cons.inj heq
            obtain rfl := Part.token.inj hut
            exact ⟨n, c, m, rfl, hs, hu, hc, hqs⟩
          · simp at hfound
        · simp at hfound
      | rule r =>
        simp only at hfound
        obtain ⟨e, -, hfound⟩ := List.exists_of_findSome?_eq_some hfound
        split at hfound
        · obtain ⟨qs, -, heq⟩ := Option.map_eq_some_iff.1 hfound
          simp at heq
        · simp at hfound

/-- Where a way goes on with a range, it is that of a rule that can come next, and no longer range of
the rule leads to the end. -/
theorem way_eq_some_range (hF : F.Descends) {r : ν} {i j : Nat}
    (h : F.way stop fuel k pos = some (.range r i j :: ps)) :
    i = pos ∧ ∃ n m, fuel = n + 1 ∧ (.rule r, m) ∈ stepsRest k ∧ j ∈ F.ends r pos ∧
      j ≤ stop ∧ F.way stop n m j = some ps ∧
      ∀ l ∈ F.ends r pos, j < l → l ≤ stop → F.way stop n m l = none := by
  cases fuel with
  | zero => simp [way] at h
  | succ n =>
    rw [way] at h
    split at h
    · split at h <;> simp at h
    · obtain ⟨⟨s, m⟩, hs, hfound⟩ := List.exists_of_findSome?_eq_some h
      cases s with
      | tok c =>
        simp only at hfound
        split at hfound
        · split at hfound
          · obtain ⟨qs, -, heq⟩ := Option.map_eq_some_iff.1 hfound
            simp at heq
          · simp at hfound
        · simp at hfound
      | rule a =>
        simp only at hfound
        obtain ⟨before, l, behind, hends, hl, hnone⟩ := List.findSome?_eq_some_iff.1 hfound
        split at hl
        · next hle =>
          obtain ⟨qs, hqs, heq⟩ := Option.map_eq_some_iff.1 hl
          obtain ⟨hpart, rfl⟩ := List.cons.inj heq
          obtain ⟨rfl, rfl, rfl⟩ := Part.range.inj hpart
          refine ⟨rfl, n, m, rfl, hs, by rw [hends]; simp, hle, hqs, fun l' hl' hlt hle' => ?_⟩
          have hsorted := hF a pos
          rw [hends] at hl' hsorted
          rcases List.mem_append.1 hl' with hl' | hl'
          · have := hnone l' hl'
            rw [if_pos hle'] at this
            simpa using this
          · have hge := (List.pairwise_cons.1 (List.pairwise_append.1 hsorted).2.1).1
            rcases List.mem_cons.1 hl' with rfl | hl'
            · exact absurd hlt (Nat.lt_irrefl _)
            · exact absurd (hge l' hl') (by omega)
        · simp at hl

namespace Searched

variable {e : Expr τ ν} {ts : List α}

/-- Where there is a way, one is found. -/
theorem exists_way_of_route (hF : F.Searched e ts) (h : Route F stop k pos ps) :
    stop - pos < fuel → ∃ qs, F.way stop fuel k pos = some qs := by
  induction h generalizing fuel with
  | @done k hk =>
    intro hfuel
    obtain ⟨n, rfl⟩ : ∃ n, fuel = n + 1 := ⟨fuel - 1, by omega⟩
    exact ⟨[], by rw [way, if_pos rfl, if_pos hk]⟩
  | @token k m c t pos ps hs ht hc hroute ih =>
    intro hfuel
    have hle := hF.le_of_route hroute
    obtain ⟨n, rfl⟩ : ∃ n, fuel = n + 1 := ⟨fuel - 1, by omega⟩
    rw [way, if_neg (by omega)]
    refine exists_findSome?_eq_some hs ?_
    obtain ⟨qs, hqs⟩ := @ih n (by omega)
    simp only [ht, hc, if_true]
    exact ⟨_, Option.map_eq_some_iff.2 ⟨qs, hqs, rfl⟩⟩
  | @range k m r pos l ps hs hl hle hroute ih =>
    intro hfuel
    have hlt := (hF.lt_of_mem_ends hl).1
    obtain ⟨n, rfl⟩ : ∃ n, fuel = n + 1 := ⟨fuel - 1, by omega⟩
    rw [way, if_neg (by omega)]
    refine exists_findSome?_eq_some hs ?_
    refine exists_findSome?_eq_some hl ?_
    obtain ⟨qs, hqs⟩ := @ih n (by omega)
    rw [if_pos hle]
    exact ⟨_, Option.map_eq_some_iff.2 ⟨qs, hqs, rfl⟩⟩

end Searched

end Forest

namespace Forest

variable {F : Forest α τ ν} {stop n pos l : Nat} {k m : List (Expr τ ν)}

/-- If the first rule that can come next has a range that leads to the end, the way takes the rule. -/
theorem exists_way_head {r : ν} {steps : List (Symbol τ ν × List (Expr τ ν))}
    (hk : stepsRest k = (.rule r, m) :: steps) (hl : l ∈ F.ends r pos) (hpos : pos < stop)
    (hle : l ≤ stop) (h : ∃ qs, F.way stop n m l = some qs) :
    ∃ j rs, F.way stop (n + 1) k pos = some (.range r pos j :: rs) := by
  obtain ⟨qs, hqs⟩ := h
  obtain ⟨ps, hps⟩ := exists_findSome?_eq_some
    (f := fun e => if e ≤ stop then (F.way stop n m e).map (.range r pos e :: ·) else none) hl
    ⟨.range r pos l :: qs, by rw [if_pos hle, hqs, Option.map_some]⟩
  obtain ⟨j, -, hj⟩ := List.exists_of_findSome?_eq_some hps
  split at hj
  · obtain ⟨rs, -, rfl⟩ := Option.map_eq_some_iff.1 hj
    refine ⟨j, rs, ?_⟩
    rw [way, if_neg (Nat.ne_of_lt hpos), hk, List.findSome?_cons]
    simp only [hps]
  · simp at hj

end Forest

/-! ### Longer ranges -/

/-- The rules that can end in a type that has no bounds of its own. -/
def openRules : List Rule :=
  [.constValue, .traitBound, .typeNoBounds, .implOneType, .dynOneType, .pathType, .qpathType,
   .refType, .ptrType, .fnPtrType, .pathSegment, .parenArgs]

/-- What a `::` or a `!` begins behind a path. -/
def sequel : Kind → List Syn
  | .dcolon => [Syn.k .dcolon, Syn.segment]
  | .bang => [Syn.k .bang, Syn.tokenTree]
  | _ => []

theorem openRules_of_last {r : Rule} (hr : r ∈ openRules) {s : Symbol TokenClass Rule}
    {k m : List Syn} (hk : k ∈ (ruleBody r).rests) (hs : (s, m) ∈ stepsRest k)
    (hm : nullableRest m) {x : Kind} (hx : x ∈ [Kind.dcolon, .bang]) (hlimit : x ∈ s.limits) :
    ∃ a ∈ openRules, s = .rule a := by
  have hall : ∀ r ∈ openRules, ∀ k ∈ (ruleBody r).rests, ∀ p ∈ stepsRest k, nullableRest p.2 →
      ∀ x ∈ [Kind.dcolon, .bang], x ∈ p.1.limits → ∃ a ∈ openRules, p.1 = .rule a := by
    decide
  exact hall r hr k hk _ hs hm x hx hlimit

theorem mem_halts_openRules {r : Rule} (hr : r ∈ openRules) {x : Kind}
    (hx : x ∈ [Kind.dcolon, .bang]) (h : x ∈ r.halts) :
    x = .dcolon ∧ (r = .pathType ∨ r = .qpathType) := by
  have hall : ∀ r ∈ openRules, ∀ x ∈ [Kind.dcolon, .bang], x ∈ r.halts →
      x = .dcolon ∧ (r = .pathType ∨ r = .qpathType) := by decide
  exact hall r hr x hx h

/-- A path goes on behind any of its segments in the same way. -/
theorem rest_of_path {r : Rule} (hr : r = .pathType ∨ r = .qpathType) {k : List Syn}
    (hk : k ∈ (ruleBody r).rests) (hnull : nullableRest k) :
    k = [.star (.all [Syn.k .dcolon, Syn.segment])] := by
  have hall : ∀ r ∈ [Rule.pathType, .qpathType], ∀ k ∈ (ruleBody r).rests, nullableRest k →
      k = [.star (.all [Syn.k .dcolon, Syn.segment])] := by decide
  exact hall r (by simpa using hr) k hk hnull

/-- Another segment can be read behind a path. -/
theorem Parses.reads_segment {r : Rule} (hr : r = .pathType ∨ r = .qpathType) {w : List Token}
    (hw : Reads rust (sequel .dcolon) w) : ∀ {k : List Syn} {ps : List Syntax},
    k ∈ (ruleBody r).rests → Parses rust k ps → Reads rust k (leavesOf ps ++ w)
  | k, [], hk, h => by
    obtain rfl := rest_of_path hr hk (parses_nil_iff.1 h)
    have hmore : Reads rust ([Syn.k .dcolon, Syn.segment] ++
        [Expr.star (Expr.all [Syn.k .dcolon, Syn.segment])]) (w ++ []) := hw.append (.done rfl)
    rw [List.append_nil] at hmore
    exact hmore.mono (by decide) (by decide)
  | k, c :: ps, hk, h => by
    obtain ⟨s, m, hs, hc, hps⟩ := parses_cons_iff.1 h
    have hrest := hps.reads_segment hr hw (Expr.mem_rests_of_mem_stepsRest hk hs)
    cases s with
    | tok t =>
      obtain ⟨u, rfl, hu⟩ := hc
      exact .token hs hu hrest
    | rule a =>
      obtain ⟨cs, rfl, hcs⟩ := hc
      rw [leavesOf, List.append_assoc]
      exact .rule hs hcs.reads hrest

/-- A type that is a path becomes a macro by a `!` and a bracketed group. -/
theorem Parses.reads_macro {us : List Syntax} {w : List Token}
    (h : Parses rust [ruleBody .typeNoBounds] [.node .pathType us])
    (hw : Reads rust (sequel .bang) w) :
    Reads rust [ruleBody .typeNoBounds] (leavesOf [.node .pathType us] ++ w) := by
  obtain ⟨s, m, -, hc, -⟩ := parses_cons_iff.1 h
  have hpath : Parses rust [ruleBody .pathType] us := by
    cases s with
    | tok c => simp [Symbol.HasTree] at hc
    | rule r =>
      obtain ⟨cs, hcs, hparse⟩ := hc
      obtain ⟨rfl, rfl⟩ : .pathType = r ∧ us = cs := by simpa using hcs
      exact hparse
  have hcall : Reads rust [ruleBody .macroType] (leavesOf us ++ w) :=
    .rule (r := .pathType) (m := [.seq (Syn.k .bang) Syn.tokenTree]) (by decide) hpath.reads
      (hw.mono (by decide) (by decide))
  have hread := Reads.rule (G := rust) (k := [ruleBody .typeNoBounds]) (r := .macroType) (m := [])
    (by decide) hcall (.done rfl)
  simpa [leavesOf, Tree.leaves] using hread

mutual

/-- Where a tree bars a `::` or a `!` behind it, what these begin can be read as part of it. -/
theorem reads_onto {r : Rule} {cs : List Syntax} {x : Kind} {w : List Token} (hr : r ∈ openRules)
    (hx : x ∈ [Kind.dcolon, .bang]) (hw : Reads rust (sequel x) w)
    (h : Parses rust [ruleBody r] cs) (hbar : x ∈ bars (.node r cs)) :
    Reads rust [ruleBody r] (leavesOf cs ++ w) := by
  rw [bars, List.mem_append] at hbar
  rcases hbar with hbar | hbar
  · unfold stops at hbar
    split at hbar
    · obtain rfl := List.mem_singleton.1 hbar
      exact h.reads_macro hw
    · obtain ⟨rfl, hpath⟩ := mem_halts_openRules hr hx hbar
      exact h.reads_segment hpath hw (List.mem_cons_self ..)
  · exact reads_last_onto hr hx hw (List.mem_cons_self ..) h hbar
termination_by (sizeOf cs, 1)

theorem reads_last_onto {r : Rule} {k : List Syn} {ps : List Syntax} {x : Kind} {w : List Token}
    (hr : r ∈ openRules) (hx : x ∈ [Kind.dcolon, .bang]) (hw : Reads rust (sequel x) w)
    (hk : k ∈ (ruleBody r).rests) (h : Parses rust k ps) (hbar : x ∈ barsLast ps) :
    Reads rust k (leavesOf ps ++ w) := by
  match ps with
  | [] => simp [barsLast] at hbar
  | c :: ps =>
    obtain ⟨s, m, hs, hc, hps⟩ := parses_cons_iff.1 h
    rw [barsLast] at hbar
    split at hbar
    · next hnil =>
      obtain rfl := List.isEmpty_iff.1 hnil
      have hnull := parses_nil_iff.1 hps
      obtain ⟨a, ha, rfl⟩ := openRules_of_last hr hk hs hnull hx (bars_subset_limits hc hbar)
      obtain ⟨cs, rfl, hcs⟩ := hc
      have hread := Reads.rule hs (reads_onto ha hx hw hcs hbar) (.done hnull)
      simpa [leavesOf, Tree.leaves] using hread
    · have hrest := reads_last_onto hr hx hw (Expr.mem_rests_of_mem_stepsRest hk hs) hps hbar
      cases s with
      | tok t =>
        obtain ⟨u, rfl, hu⟩ := hc
        exact .token hs hu hrest
      | rule a =>
        obtain ⟨cs, rfl, hcs⟩ := hc
        rw [leavesOf, List.append_assoc]
        exact .rule hs hcs.reads hrest
termination_by (sizeOf ps, 0)

end

/-! ### Trees that are found -/

/-- Only tokens come behind a tree of a path that can bar a `::`. -/
theorem tok_of_segment {r a : Rule} (hr : r = .pathType ∨ r = .qpathType) {k m : List Syn}
    (hk : k ∈ (ruleBody r).rests) (hs : (.rule a, m) ∈ stepsRest k) (hlimit : .dcolon ∈ a.limits)
    (b : Rule) (m₁ : List Syn) : (.rule b, m₁) ∉ stepsRest m := by
  have hall : ∀ r ∈ [Rule.pathType, .qpathType], ∀ k ∈ (ruleBody r).rests, ∀ p ∈ stepsRest k,
      .dcolon ∈ p.1.limits → ∀ q ∈ stepsRest p.2, ∀ b ∈ Rule.all, q.1 ≠ .rule b := by
    decide
  exact fun h => hall r (by simpa using hr) k hk _ hs hlimit _ h b (rust_listed b) rfl

/-- A tree that can bar a `::` and is followed by one in a path is a segment, and behind the next one
the path goes on as it does behind this one. -/
theorem rests_of_segment {r a : Rule} (hr : r = .pathType ∨ r = .qpathType) {k m m₁ : List Syn}
    (hk : k ∈ (ruleBody r).rests) (hs : (.rule a, m) ∈ stepsRest k) (hlimit : .dcolon ∈ a.limits)
    {c : TokenClass} (hs₁ : (.tok c, m₁) ∈ stepsRest m) (hkind : c.has .dcolon) :
    a ∈ openRules ∧ ¬ nullableRest m₁ ∧ (∀ d m₂, (.tok d, m₂) ∉ stepsRest m₁) ∧
      ∀ b m₂, (.rule b, m₂) ∈ stepsRest m₁ → m₂ = m ∧
        (.rule b, []) ∈ stepsRest [Syn.segment] := by
  have hall : ∀ r ∈ [Rule.pathType, .qpathType], ∀ k ∈ (ruleBody r).rests, ∀ p ∈ stepsRest k,
      .dcolon ∈ p.1.limits → ∀ q ∈ stepsRest p.2, .dcolon ∈ q.1.kinds →
      (∃ a ∈ openRules, p.1 = .rule a) ∧ ¬ nullableRest q.2 ∧ ∀ z ∈ stepsRest q.2,
        ∃ b ∈ Rule.all, z = (.rule b, p.2) ∧ (.rule b, []) ∈ stepsRest [Syn.segment] := by
    decide
  obtain ⟨⟨a', ha, heq⟩, hnull, hnext⟩ := hall r (by simpa using hr) k hk _ hs hlimit _ hs₁
    (TokenClass.mem_kinds.2 hkind)
  obtain rfl := Symbol.rule.inj heq
  refine ⟨ha, hnull, fun d m₂ hd => ?_, fun b m₂ hb => ?_⟩
  · obtain ⟨b, -, heq, -⟩ := hnext _ hd
    simp at heq
  · obtain ⟨b', -, heq, hb'⟩ := hnext _ hb
    obtain ⟨hsym, rfl⟩ := Prod.mk.inj heq
    obtain rfl := Symbol.rule.inj hsym
    exact ⟨rfl, hb'⟩

section

variable {tokens : Array Token} {spans : Spans Rule} {e : Syn} {ts : List Token}

/-- What a rule reads from the place where it has a range is the range of another one, if it is that
long. -/
theorem Forest.Searched.mem_ends_of_reads_range
    (hF : Forest.Searched ⟨rust, tokens, spans⟩ e ts) {r : Rule} {k m : List Syn} {i l start : Nat}
    {rule : Option Rule} (hl : l ≤ ts.length) (hil : i ≤ l)
    (hi : Reach rust e ts i ⟨start, rule, k⟩) (hs : (.rule r, m) ∈ stepsRest k)
    (h : Reads rust [ruleBody r] (range ts i l)) :
    l ∈ (⟨rust, tokens, spans⟩ : Forest Token TokenClass Rule).ends r i := by
  have hmem := (hF.mem_ends_of_reads hl hil hi hs h (List.append_nil _).symm).1
  rwa [length_range hl, Nat.add_sub_cancel' hil] at hmem

/-- A segment that is followed by a `::` in a path that is found does not bar it. -/
theorem not_mem_bars_of_segment (hF : Forest.Searched ⟨rust, tokens, spans⟩ e ts)
    (hdesc : Forest.Descends (⟨rust, tokens, spans⟩ : Forest Token TokenClass Rule))
    {r a : Rule} (hr : r = .pathType ∨ r = .qpathType) {k : List Syn}
    (hk : k ∈ (ruleBody r).rests) {i l stop n start : Nat} {rule : Option Rule}
    (hstop : stop ≤ ts.length) (hfuel : stop - i < n) (hi : Reach rust e ts i ⟨start, rule, k⟩)
    {parts : List (Part Token Rule)} (hway : Forest.way ⟨rust, tokens, spans⟩ stop n k i =
      some (.range a i l :: parts)) {cs : List Syntax} (hcs : Parses rust [ruleBody a] cs)
    (hleaves : leavesOf cs = range ts i l) {t : Token} (ht : ts[l]? = some t) (hlt : l < stop)
    (hkind : t.kind = .dcolon) : .dcolon ∉ bars (.node a cs) := by
  intro hbar
  have hlimit := bars_subset_limits (s := .rule a) ⟨cs, rfl, hcs⟩ hbar
  obtain ⟨-, n, m, rfl, hs, hends, hle, hrest, hlongest⟩ := Forest.way_eq_some_range hdesc hway
  have hil := (hF.lt_of_mem_ends hends).1
  cases Forest.route_of_way hrest with
  | done => omega
  | range hs₁ => exact tok_of_segment hr hk hs hlimit _ _ hs₁
  | @token _ m₁ c t' _ parts hs₁ ht' hc hroute =>
    rw [hF.token] at ht'
    obtain rfl := Option.some.inj (ht.symm.trans ht')
    have hhas : c.has .dcolon := hkind ▸ hc
    obtain ⟨ha, hnull, htok, hnext⟩ := rests_of_segment hr hk hs hlimit hs₁ hhas
    cases hroute with
    | done h => exact hnull h
    | token hs₂ => exact htok _ _ hs₂
    | @range _ m₂ b _ l₂ parts hs₂ hends₂ hle₂ hroute =>
      -- the segment could have been read up to the end of the next one
      obtain ⟨rfl, hb⟩ := hnext _ _ hs₂
      have hl₂ := (hF.lt_of_mem_ends hends₂).1
      obtain ⟨k₂, hnull₂, hf⟩ := (hF.ends _ _ _).1 hends₂
      have hsequel : Reads rust (sequel .dcolon) (range ts l l₂) := by
        have hseg : Reads rust [Syn.segment] (range ts (l + 1) l₂ ++ []) :=
          .rule hb (hf.reads_range hnull₂) (.done rfl)
        rw [List.append_nil] at hseg
        rw [← range_append ts (Nat.le_succ l) (Nat.le_of_lt hl₂), range_succ ht]
        exact .token (c := .one .dcolon) (by decide) (by simp [rust, TokenClass.has, hkind]) hseg
      have hlong := reads_onto ha (by simp) hsequel hcs hbar
      rw [hleaves, range_append ts (Nat.le_of_lt hil) (by omega)] at hlong
      have hmem := hF.mem_ends_of_reads_range (by omega) (by omega) hi hs hlong
      have hnone := hlongest l₂ hmem (by omega) hle₂
      obtain ⟨qs, hqs⟩ := hF.exists_way_of_route hroute (show _ < n by omega)
      rw [hqs] at hnone
      simp at hnone

/-- The parts of a path that is found are neat if each of them is. -/
theorem neatAll_of_path (hF : Forest.Searched ⟨rust, tokens, spans⟩ e ts)
    (hdesc : Forest.Descends (⟨rust, tokens, spans⟩ : Forest Token TokenClass Rule))
    {r : Rule} (hr : r = .pathType ∨ r = .qpathType) {stop fuel start : Nat} {rule : Option Rule}
    (hstop : stop ≤ ts.length) : ∀ {parts : List (Part Token Rule)} {k : List Syn} {i n : Nat}
    {ps : List Syntax}, Forest.way ⟨rust, tokens, spans⟩ stop n k i = some parts →
    Reach rust e ts i ⟨start, rule, k⟩ → k ∈ (ruleBody r).rests → stop - i < n →
    List.Forall₂ (fun part p => Forest.treeOf ⟨rust, tokens, spans⟩ fuel part = some p) parts ps →
    (∀ c ∈ ps, Neat c) → NeatAll ps
  | [], _, _, _, _, _, _, _, _, hps, _ => by
    obtain rfl := List.forall₂_nil_left_iff.1 hps
    trivial
  | .token t :: parts, k, i, n, _, hway, hi, hk, hfuel, hps, hneat => by
    obtain ⟨p, ps, hp, htail, rfl⟩ := List.forall₂_cons_left_iff.1 hps
    obtain rfl := Option.some.inj hp
    obtain ⟨n, c, m, rfl, hs, ht, hc, hrest⟩ := Forest.way_eq_some_token hway
    have hle := hF.le_of_route (Forest.route_of_way hrest)
    refine ⟨hneat _ (List.mem_cons_self ..), by simp [bars], ?_⟩
    exact neatAll_of_path hF hdesc hr hstop hrest (.scan hi hs (hF.token i ▸ ht) hc)
      (Expr.mem_rests_of_mem_stepsRest hk hs) (by omega) htail
      fun c hc => hneat c (List.mem_cons_of_mem _ hc)
  | .range a i' l :: parts, k, i, n, _, hway, hi, hk, hfuel, hps, hneat => by
    obtain ⟨p, ps, hp, htail, rfl⟩ := List.forall₂_cons_left_iff.1 hps
    obtain ⟨cs, hcs, rfl⟩ := Option.map_eq_some_iff.1 hp
    obtain ⟨rfl, n', m, hn, hs, hends, hle, hrest, -⟩ := Forest.way_eq_some_range hdesc hway
    have hil := (hF.lt_of_mem_ends hends).1
    obtain ⟨k', hnull, hf⟩ := (hF.ends _ _ _).1 hends
    obtain ⟨hparse, hleaves⟩ := hF.trees_parses hcs
    obtain ⟨hparses, hrange⟩ := hF.parses_of_route (fun _ _ _ _ h => hF.trees_parses h)
      (Forest.route_of_way hrest) htail
    refine ⟨hneat _ (List.mem_cons_self ..), fun t ht hbar => ?_, ?_⟩
    · have hrisky := isRisky_of_mem_limits hk hs
        (bars_subset_limits (s := .rule a) ⟨cs, rfl, hparse⟩ hbar)
        (hparses.kind_mem_onwards t ht)
      have hkind : t.kind = .dcolon := by
        rcases hr with rfl | rfl <;> simpa [isRisky] using hrisky
      have hlt : l < stop := by
        by_contra hge
        obtain rfl : l = stop := by omega
        rw [hrange, range_self] at ht
        simp at ht
      have hget : ts[l]? = some t := by
        rw [hrange, range, List.head?_drop, List.getElem?_take_of_lt hlt] at ht
        exact ht
      exact not_mem_bars_of_segment hF hdesc hr hk hstop hfuel hi hway hparse hleaves hget hlt hkind
        (hkind ▸ hbar)
    · exact neatAll_of_path hF hdesc hr hstop hrest (.complete hf rfl hnull hi hs)
        (Expr.mem_rests_of_mem_stepsRest hk hs) (by omega) htail
        fun c hc => hneat c (List.mem_cons_of_mem _ hc)

/-- The parts of a macro are neat if each of them is and the whole of it is not a path. -/
theorem neatAll_of_macro (hF : Forest.Searched ⟨rust, tokens, spans⟩ e ts) {pos stop : Nat}
    {cs : List Syntax} (hstop : stop ≤ ts.length) (hpos : pos ≤ stop)
    (hi : Reach rust e ts pos (rust.begin pos .macroType))
    (h : Parses rust [ruleBody .macroType] cs) (hleaves : leavesOf cs = range ts pos stop)
    (hneat : ∀ c ∈ cs, Neat c)
    (hpath : stop ∉ (⟨rust, tokens, spans⟩ : Forest Token TokenClass Rule).ends .pathType pos) :
    NeatAll cs := by
  obtain ⟨_, _, rfl, ⟨us, rfl, hus⟩, _, _, rfl, ⟨t, rfl, ht⟩, htree⟩ := parses_iff_covers.1 h
  have hkind : t.kind = .bang := (eq_of_beq ht).symm
  have hsafe : .bang ∉ bars (.node .pathType us) := by
    intro hbar
    have hlong := reads_onto (r := .pathType) (x := .bang) (by decide) (by decide)
      (.token (c := .one .bang) (by decide) ht htree.parses.reads) hus hbar
    refine hpath (hF.mem_ends_of_reads_range (m := [.seq (Syn.k .bang) Syn.tokenTree]) hstop hpos hi
      (by decide) (hleaves ▸ ?_))
    simpa [leavesOf, Tree.leaves] using hlong
  have hnil : ∀ {c : Syntax}, Neat c → NeatAll [c] := fun hc => ⟨hc, by simp [leavesOf], trivial⟩
  refine ⟨hneat _ (by simp), fun u hu => ?_, trivial, by simp [bars], ?_⟩
  · obtain rfl : t = u := by simpa [leavesOf, Tree.leaves] using hu
    exact hkind ▸ hsafe
  · rcases htree with ⟨vs, rfl, -⟩ | ⟨vs, rfl, -⟩ | ⟨vs, rfl, -⟩ <;>
      exact hnil (hneat _ (by simp))

/-- A choice between rules is one range, that of the first rule if it has it. -/
theorem way_eq_some_choice (hF : Forest.Searched ⟨rust, tokens, spans⟩ e ts)
    (hdesc : Forest.Descends (⟨rust, tokens, spans⟩ : Forest Token TokenClass Rule))
    {k : List Syn} {b : Rule} {steps : List (Symbol TokenClass Rule × List Syn)} {n pos stop : Nat}
    {parts : List (Part Token Rule)} (hk : stepsRest k = (.rule b, []) :: steps)
    (hnull : nullableRest k = false) (hsteps : ∀ p ∈ steps, ∃ a ∈ Rule.all, p = (.rule a, []))
    (h : Forest.way ⟨rust, tokens, spans⟩ stop n k pos = some parts) :
    ∃ a, parts = [.range a pos stop] ∧
      (stop ∈ (⟨rust, tokens, spans⟩ : Forest Token TokenClass Rule).ends b pos → a = b) := by
  have hrule : ∀ s m, (s, m) ∈ stepsRest k → ∃ a, s = .rule a ∧ m = [] := by
    intro s m hs
    rw [hk] at hs
    rcases List.mem_cons.1 hs with heq | hs
    · exact ⟨b, (Prod.mk.inj heq).1, (Prod.mk.inj heq).2⟩
    · obtain ⟨a, -, heq⟩ := hsteps _ hs
      exact ⟨a, (Prod.mk.inj heq).1, (Prod.mk.inj heq).2⟩
  have hroute := Forest.route_of_way h
  cases hroute with
  | done hk' => simp [hnull] at hk'
  | token hs => simpa using hrule _ _ hs
  | @range _ m a _ l parts hs hl hle hrest =>
    obtain ⟨-, -, rfl⟩ := hrule _ _ hs
    cases hrest with
    | token hs => simp [stepsRest] at hs
    | range hs => simp [stepsRest] at hs
    | done =>
      refine ⟨a, rfl, fun hmem => ?_⟩
      obtain ⟨-, n', m', rfl, -, -, -, hnil, -⟩ := Forest.way_eq_some_range hdesc h
      have hn' : stop - stop < n' := by
        cases n' with
        | zero => simp [Forest.way] at hnil
        | succ => omega
      obtain ⟨j, rs, hhead⟩ := Forest.exists_way_head (n := n') hk hmem (hF.lt_of_mem_ends hmem).1
        (Nat.le_refl _) (hF.exists_way_of_route (.done rfl) hn')
      rw [h] at hhead
      exact (Part.range.inj (List.cons.inj (Option.some.inj hhead)).1).1

/-- A part of a tree is that of a symbol that is read somewhere in the body of the rule. -/
theorem Parses.exists_step {r : Rule} : ∀ {k : List Syn} {ps : List Syntax},
    k ∈ (ruleBody r).rests → Parses rust k ps → ∀ c ∈ ps,
      ∃ l ∈ (ruleBody r).rests, ∃ s m, (s, m) ∈ stepsRest l ∧ s.HasTree rust c
  | _, [], _, _, c, hc => by simp at hc
  | k, d :: ps, hk, h, c, hc => by
    obtain ⟨s, m, hs, hd, hps⟩ := parses_cons_iff.1 h
    rcases List.mem_cons.1 hc with rfl | hc
    · exact ⟨k, hk, s, m, hs, hd⟩
    · exact hps.exists_step (Expr.mem_rests_of_mem_stepsRest hk hs) c hc

theorem parent_of_macro {r : Rule} {k m : List Syn} (hk : k ∈ (ruleBody r).rests)
    (hs : (.rule .macroType, m) ∈ stepsRest k) : r = .typeNoBounds := by
  have hall : ∀ r ∈ Rule.all, ∀ k ∈ (ruleBody r).rests, ∀ p ∈ stepsRest k,
      p.1 = .rule .macroType → r = .typeNoBounds := by decide +kernel
  exact hall r (rust_listed r) k hk _ hs rfl

theorem way_typeNoBounds (hF : Forest.Searched ⟨rust, tokens, spans⟩ e ts)
    (hdesc : Forest.Descends (⟨rust, tokens, spans⟩ : Forest Token TokenClass Rule)) {n pos stop : Nat}
    {parts : List (Part Token Rule)}
    (h : Forest.way ⟨rust, tokens, spans⟩ stop n [ruleBody .typeNoBounds] pos = some parts) :
    ∃ a, parts = [.range a pos stop] ∧
      (stop ∈ (⟨rust, tokens, spans⟩ : Forest Token TokenClass Rule).ends .pathType pos →
        a = .pathType) :=
  way_eq_some_choice hF hdesc
    (show stepsRest [ruleBody .typeNoBounds] =
      (.rule .pathType, []) :: (stepsRest [ruleBody .typeNoBounds]).tail by decide)
    (by decide) (by decide +kernel) h

theorem way_type (hF : Forest.Searched ⟨rust, tokens, spans⟩ e ts)
    (hdesc : Forest.Descends (⟨rust, tokens, spans⟩ : Forest Token TokenClass Rule)) {n pos stop : Nat}
    {parts : List (Part Token Rule)}
    (h : Forest.way ⟨rust, tokens, spans⟩ stop n [ruleBody .type] pos = some parts) :
    ∃ a, parts = [.range a pos stop] ∧
      (stop ∈ (⟨rust, tokens, spans⟩ : Forest Token TokenClass Rule).ends .typeNoBounds pos →
        a = .typeNoBounds) :=
  way_eq_some_choice hF hdesc
    (show stepsRest [ruleBody .type] =
      (.rule .typeNoBounds, []) :: (stepsRest [ruleBody .type]).tail by decide)
    (by decide) (by decide +kernel) h

/-- A type with a list of one bound can be read as one that has no list. -/
theorem reads_one {one list : Rule} {kw : Kind} (hone : (one, list, kw) ∈ boundTypes)
    {c b : Syntax} (hb : one = .implOneType → ∃ zs, b = .node .traitBound zs)
    (h : Parses rust [ruleBody .type] [.node list [c, .node .bounds [b]]]) :
    Reads rust [ruleBody .typeNoBounds] (leavesOf [.node list [c, .node .bounds [b]]]) := by
  obtain ⟨a, -, d, hd, ha⟩ := exists_alternative (by decide) h
  obtain rfl := (List.cons.inj hd).1
  obtain ⟨us, hus, hlist⟩ := ha
  obtain ⟨rfl, rfl⟩ : list = a ∧ [c, .node .bounds [b]] = us := by simpa using hus
  obtain ⟨t, rfl, ht, hbounds⟩ : ∃ t, c = .leaf t ∧ rust.accepts (.one kw) t ∧
      Parses rust [ruleBody .bounds] [b] := by
    simp only [boundTypes, List.mem_cons, Prod.mk.injEq, List.not_mem_nil, or_false] at hone
    rcases hone with ⟨-, rfl, rfl⟩ | ⟨-, rfl, rfl⟩ <;>
    · obtain ⟨_, _, heq, ⟨t, rfl, ht⟩, ⟨bs, rfl, hbs⟩⟩ := parses_iff_covers.1 hlist
      obtain ⟨rfl, rfl⟩ : c = .leaf t ∧ [b] = bs := by simpa using heq
      exact ⟨t, rfl, ht, hbs⟩
  obtain ⟨β, hβ, b', rest, k, hcons, ⟨zs, rfl, hzs⟩, -⟩ := exists_of_bounds hbounds
  obtain ⟨rfl, -⟩ := List.cons.inj hcons
  have hread : Reads rust [ruleBody one] (t :: (leavesOf zs ++ [])) := by
    simp only [boundTypes, List.mem_cons, Prod.mk.injEq, List.not_mem_nil, or_false] at hone
    rcases hone with ⟨rfl, -, rfl⟩ | ⟨rfl, -, rfl⟩
    · obtain ⟨_, heq⟩ := hb rfl
      obtain ⟨rfl, -⟩ := Tree.node.inj heq
      exact .token (m := [Syn.use .traitBound]) (by decide) ht
        (.rule (m := []) (by decide) hzs.reads (.done rfl))
    · have hbound : ∀ β ∈ boundRules, (.rule β, []) ∈ stepsRest [Syn.bound] := by decide
      exact .token (m := [Syn.bound]) (by decide) ht
        (.rule (hbound β hβ) hzs.reads (.done rfl))
  have hsteps : ∀ p ∈ boundTypes, (.rule p.1, []) ∈ stepsRest [ruleBody .typeNoBounds] := by
    decide
  simpa [leavesOf, Tree.leaves] using
    Reads.rule (G := rust) (hsteps _ hone) hread (.done (k := []) rfl)

/-- A type that is read without a list of bounds where it can be is spare. -/
theorem spare_of_reads {r : Rule} {cs : List Syntax} (h : Parses rust [ruleBody r] cs)
    (hcs : r = .type → Reads rust [ruleBody .typeNoBounds] (leavesOf cs) →
      ∃ us, cs = [.node .typeNoBounds us]) : Spare r cs := by
  unfold Spare
  split
  · have hread := reads_one (show (Rule.implOneType, Rule.implType, Kind.kwImpl) ∈ boundTypes by decide)
      (fun _ => ⟨_, rfl⟩) h
    obtain ⟨us, hus⟩ := hcs rfl hread
    simp at hus
  · have hread := reads_one (show (Rule.dynOneType, Rule.dynType, Kind.kwDyn) ∈ boundTypes by decide)
      (by simp) h
    obtain ⟨us, hus⟩ := hcs rfl hread
    simp at hus
  · trivial

theorem exists_of_forall₂ {β γ : Type} {R : β → γ → Prop} {y : γ} :
    ∀ {xs : List β} {ys : List γ}, List.Forall₂ R xs ys → y ∈ ys → ∃ x ∈ xs, R x y
  | _, _, .nil, hy => by simp at hy
  | _, _, .cons (a := x) hxy hrest, hy => by
    rcases List.mem_cons.1 hy with rfl | hy
    · exact ⟨x, List.mem_cons_self .., hxy⟩
    · obtain ⟨x', hx', hr⟩ := exists_of_forall₂ hrest hy
      exact ⟨x', List.mem_cons_of_mem x hx', hr⟩

/-- The trees that are found for a rule are neat, for a macro if it is no path. The induction is on
the fuel, as the parts of a tree are found with less. -/
theorem neat_of_trees (hF : Forest.Searched ⟨rust, tokens, spans⟩ e ts)
    (hdesc : Forest.Descends (⟨rust, tokens, spans⟩ : Forest Token TokenClass Rule)) :
    ∀ {fuel : Nat} {r : Rule} {pos stop : Nat} {cs : List Syntax}, stop ≤ ts.length → pos ≤ stop →
    Reach rust e ts pos (rust.begin pos r) →
    Forest.trees ⟨rust, tokens, spans⟩ fuel (ruleBody r) pos stop = some cs →
    (r = .macroType →
      stop ∉ (⟨rust, tokens, spans⟩ : Forest Token TokenClass Rule).ends .pathType pos) →
    Neat (.node r cs)
  | 0, _, _, _, _, _, _, _, h, _ => by simp [Forest.trees] at h
  | fuel + 1, r, pos, stop, cs, hstop, hpos, hi, h, hcall => by
    obtain ⟨hparse, hleaves⟩ := hF.trees_parses h
    rw [Forest.trees_succ] at h
    obtain ⟨parts, hway, hparts⟩ := Option.bind_eq_some_iff.1 h
    rw [Forest.mapM_eq_some_iff] at hparts
    have hneat : ∀ c ∈ cs, Neat c := by
      intro c hc
      obtain ⟨part, hpart, htree⟩ := exists_of_forall₂ hparts hc
      cases part with
      | token t =>
        obtain rfl := Option.some.inj htree
        trivial
      | range a i j =>
        obtain ⟨us, hus, rfl⟩ := Option.map_eq_some_iff.1 htree
        obtain ⟨hbegin, hends, -, hj, -⟩ := hF.mem_route (Forest.route_of_way hway) hi a i j hpart
        refine neat_of_trees hF hdesc (Nat.le_trans hj hstop) (Nat.le_of_lt (hF.lt_of_mem_ends hends).1)
          hbegin hus ?_
        rintro rfl
        -- only a type that has no bounds of its own can be a macro, and it would rather be a path
        obtain ⟨l, hl, s, m, hs, hsc⟩ := hparse.exists_step (List.mem_cons_self ..) _ hc
        obtain rfl : s = .rule .macroType := by
          cases s with
          | tok c => simp [Symbol.HasTree] at hsc
          | rule r =>
            obtain ⟨_, heq, -⟩ := hsc
            rw [(Tree.node.inj heq).1]
        obtain rfl := parent_of_macro hl hs
        obtain ⟨b, rfl, hb⟩ := way_typeNoBounds hF hdesc hway
        obtain ⟨rfl, rfl, rfl⟩ := Part.range.inj (List.mem_singleton.1 hpart)
        exact fun hmem => by simpa using hb hmem
    by_cases hr : r ≠ .pathType ∧ r ≠ .qpathType ∧ r ≠ .macroType
    · refine neat_of_calm hr hparse (spare_of_reads hparse ?_) hneat
      rintro rfl hread
      obtain ⟨a, rfl, ha⟩ := way_type hF hdesc hway
      obtain ⟨m, hm⟩ : ∃ m, (.rule .typeNoBounds, m) ∈ stepsRest [ruleBody .type] :=
        ⟨[], by decide⟩
      obtain rfl := ha (hF.mem_ends_of_reads_range hstop hpos hi hm (hleaves ▸ hread))
      obtain ⟨c, cs, hc, hnil, rfl⟩ := List.forall₂_cons_left_iff.1 hparts
      obtain ⟨us, -, rfl⟩ := Option.map_eq_some_iff.1 hc
      obtain rfl := List.forall₂_nil_left_iff.1 hnil
      exact ⟨us, rfl⟩
    · by_cases hm : r = .macroType
      · subst hm
        exact ⟨trivial, neatAll_of_macro hF hstop hpos hi hparse hleaves hneat (hcall rfl)⟩
      · have hpath : r = .pathType ∨ r = .qpathType := by tauto
        exact ⟨by rcases hpath with rfl | rfl <;> trivial,
          neatAll_of_path hF hdesc hpath hstop hway hi (List.mem_cons_self ..) (by omega) hparts hneat⟩

end

/-- The tree of a sentence of one rule that reading gives is neat. -/
theorem read_neat {r : Rule} (hr : r ≠ .macroType) {ts : List Token} {ps : List Syntax}
    (h : rust.read (Syn.use r) ts = .sentence ps) :
    ∃ c, ps = [c] ∧ (Symbol.rule r).HasTree rust c ∧ Neat c ∧ c.leaves = ts := by
  have hholds := read_holds rust_proper rust_ranked (Syn.use r) ts
  rw [h] at hholds
  obtain ⟨hparses, hleaves⟩ := hholds
  obtain ⟨cs, rfl, hcs⟩ := hparses.of_rule
  refine ⟨_, rfl, ⟨cs, rfl, hcs⟩, ?_, by simpa [leavesOf] using hleaves⟩
  obtain ⟨m, columns, hchart, hcolumns, hm, -, -⟩ := exists_chart_eq rust_proper (Syn.use r) ts
  unfold read at h
  rw [hchart] at h
  dsimp only at h
  split at h
  · simp at h
  · next hrest =>
    rw [List.drop_eq_nil_iff] at hrest
    obtain rfl : m = ts.length := by omega
    split at h
    · split at h
      · next trees htrees =>
        obtain rfl := Reading.sentence.inj h
        have hF := hcolumns.searched rust_proper
        have hdesc : Forest.Descends (⟨rust, ts.toArray, Spans.ofChart columns⟩ :
            Forest Token TokenClass Rule) := (Spans.ordered_ofChart columns).descends
        obtain ⟨fuel, hfuel⟩ : ∃ n, (ts.length + 1) * (rust.rules.length + 1) = n + 1 :=
          ⟨_, (Nat.succ_pred_eq_of_pos (by positivity)).symm⟩
        rw [hfuel, Forest.trees_succ] at htrees
        obtain ⟨parts, hway, hparts⟩ := Option.bind_eq_some_iff.1 htrees
        rw [Forest.mapM_eq_some_iff] at hparts
        obtain ⟨part, hpart, hpart'⟩ := exists_of_forall₂ hparts (List.mem_cons_self ..)
        cases part with
        | token t => simp [Forest.treeOf] at hpart'
        | range a i j =>
          obtain ⟨us, hus, heq⟩ := Option.map_eq_some_iff.1 hpart'
          obtain ⟨rfl, rfl⟩ := Tree.node.inj heq
          obtain ⟨hbegin, hends, -, hj, -⟩ :=
            hF.mem_route (Forest.route_of_way hway) .first a i j hpart
          exact neat_of_trees hF hdesc hj (Nat.le_of_lt (hF.lt_of_mem_ends hends).1) hbegin hus
            fun h => absurd h hr
      · simp at h
    · simp at h

/-- Reading the leaves of a neat tree gives that tree. -/
theorem read_leaves {r : Rule} (hr : r ≠ .macroType) (hb : r ∉ blockRules) {c : Syntax}
    (hc : (Symbol.rule r).HasTree rust c) (hneat : Neat c) :
    rust.read (Syn.use r) c.leaves = .sentence [c] := by
  have hderives : rust.Derives (Syn.use r) c.leaves := by
    obtain ⟨cs, rfl, hcs⟩ := hc
    exact .rule (derives_iff_reads.2 hcs.reads)
  obtain ⟨ps, hps⟩ := (exists_read_eq_sentence_iff rust_proper rust_ranked).2 hderives
  obtain ⟨d, rfl, hd, hdn, hleaves⟩ := read_neat hr hps
  rw [hps, neat_unique hb hc hd hneat hdn hleaves.symm]

end TraitLift.Grammar
