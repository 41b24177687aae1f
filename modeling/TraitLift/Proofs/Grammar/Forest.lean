import Mathlib.Tactic
import TraitLift.Grammar.Tree
import TraitLift.Proofs.Grammar.Chart

/-!
Derivation trees are found and are derivations. `Parses` says that trees are a derivation of what is
to be read, `Route` that some parts are a way through it. Main statements: the trees that are found
for a range are a derivation with the tokens of the range at the leaves (`Searched.trees_parses`), and
trees are found for every sentence (`Searched.exists_trees`). The search ends because no rule is a part
of itself over the same range, which a rank of the rules shows.
-/

namespace TraitLift.Grammar

variable {α τ ν : Type}

/-! ### Derivation trees -/

/-- `Parses G k ps`: the trees `ps` are a derivation of what is left to read, `k`. -/
inductive Parses (G : Grammar α τ ν) : List (Expr τ ν) → List (Tree α ν) → Prop
  | done {k} : nullableRest k → Parses G k []
  | leaf {k m c t ps} : (.tok c, m) ∈ stepsRest k → G.accepts c t → Parses G m ps →
      Parses G k (.leaf t :: ps)
  | node {k m r cs ps} : (.rule r, m) ∈ stepsRest k → Parses G [G.body r] cs → Parses G m ps →
      Parses G k (.node r cs :: ps)

theorem Parses.reads {G : Grammar α τ ν} {k : List (Expr τ ν)} {ps : List (Tree α ν)}
    (h : Parses G k ps) : Reads G k (leavesOf ps) := by
  induction h with
  | done hk => exact .done hk
  | leaf hs hc _ ih => exact .token hs hc ih
  | node hs _ _ ihc ih => exact .rule hs ihc ih

theorem Parses.of_seq {G : Grammar α τ ν} {a b : Expr τ ν} {ps : List (Tree α ν)}
    (h : Parses G [.seq a b] ps) : Parses G [a, b] ps := by
  cases h with
  | done hk => exact .done (by simpa [nullableRest, Expr.nullable] using hk)
  | leaf hs hc hps => exact .leaf (stepsRest_seq a b ▸ hs) hc hps
  | node hs hcs hps => exact .node (stepsRest_seq a b ▸ hs) hcs hps

theorem Parses.of_rule {G : Grammar α τ ν} {r : ν} {ps : List (Tree α ν)}
    (h : Parses G [.rule r] ps) : ∃ cs, ps = [.node r cs] ∧ Parses G [G.body r] cs := by
  cases h with
  | done hk => simp [nullableRest, Expr.nullable] at hk
  | leaf hs => simp [stepsRest, Expr.steps] at hs
  | node hs hcs hps =>
    obtain ⟨rfl, rfl⟩ : _ = r ∧ _ = [] := by simpa [stepsRest, Expr.steps] using hs
    cases hps with
    | done => exact ⟨_, rfl, hcs⟩
    | leaf hs => simp [stepsRest] at hs
    | node hs => simp [stepsRest] at hs

/-! ### The ranges of the rules -/

variable [DecidableEq ν]

namespace Spans

/-- Enters the rule of one item that ends at `stop`. -/
def enterItem (stop : Nat) (spans : Spans ν) (i : Item τ ν) : Spans ν :=
  spans.enter stop ⟨[i], [], []⟩

theorem enter_eq_foldl (spans : Spans ν) (stop : Nat) (col : Column τ ν) :
    spans.enter stop col = col.items.foldl (enterItem stop) spans := rfl

/-- `spans.Has r pos stop`: the range of `r` from `pos` to `stop` is entered. -/
def Has (spans : Spans ν) (r : ν) (pos stop : Nat) : Prop := (r, stop) ∈ (spans[pos]?).getD []

/-- `Ends i r pos`: the item `i` began the rule `r` at `pos` and can end. -/
def Ends (i : Item τ ν) (r : ν) (pos : Nat) : Prop :=
  nullableRest i.rest ∧ i.rule = some r ∧ i.start = pos

theorem size_enterItem (stop : Nat) (spans : Spans ν) (i : Item τ ν) :
    (enterItem stop spans i).size = spans.size := by
  simp only [enterItem, enter, List.foldl_cons, List.foldl_nil]
  split
  · exact Array.size_modify
  · rfl

theorem has_enterItem {spans : Spans ν} {i : Item τ ν} {r : ν} {pos stop stop' : Nat} :
    (enterItem stop spans i).Has r pos stop' ↔
      spans.Has r pos stop' ∨ stop' = stop ∧ pos < spans.size ∧ Ends i r pos := by
  simp only [enterItem, enter, List.foldl_cons, List.foldl_nil, Item.isFinished, Ends]
  split
  · next r' hnull hr =>
    rw [Has, Has, Array.getElem?_modify, hnull, hr]
    split
    · next hpos =>
      subst hpos
      by_cases hlt : i.start < spans.size
      · rw [Array.getElem?_eq_getElem hlt, Option.map_some, Option.getD_some, Option.getD_some]
        split
        · next hmem =>
          constructor
          · exact Or.inl
          · rintro (h | ⟨rfl, -, -, heq, -⟩)
            · exact h
            · obtain rfl := Option.some.inj heq
              exact hmem
        · rw [List.mem_cons, Prod.mk.injEq]
          constructor
          · rintro (⟨rfl, rfl⟩ | h)
            · exact Or.inr ⟨rfl, hlt, rfl, rfl, rfl⟩
            · exact Or.inl h
          · rintro (h | ⟨rfl, -, -, heq, -⟩)
            · exact Or.inr h
            · exact Or.inl ⟨(Option.some.inj heq).symm, rfl⟩
      · rw [Array.getElem?_eq_none (Nat.le_of_not_lt hlt)]
        simp [hlt]
    · next hpos => simp [hpos]
  · next hno =>
    constructor
    · exact Or.inl
    · rintro (h | ⟨-, -, hnull, hr, -⟩)
      · exact h
      · exact absurd hr (hno r hnull)

theorem size_foldl_enterItem (stop : Nat) (items : List (Item τ ν)) : ∀ spans : Spans ν,
    (items.foldl (enterItem stop) spans).size = spans.size := by
  induction items with
  | nil => exact fun _ => rfl
  | cons i items ih =>
    intro spans
    rw [List.foldl_cons, ih, size_enterItem]

theorem has_foldl_enterItem {r : ν} {pos stop stop' : Nat} {items : List (Item τ ν)} :
    ∀ {spans : Spans ν}, (items.foldl (enterItem stop) spans).Has r pos stop' ↔
      spans.Has r pos stop' ∨ stop' = stop ∧ pos < spans.size ∧ ∃ i ∈ items, Ends i r pos := by
  induction items with
  | nil => simp
  | cons i items ih =>
    intro spans
    rw [List.foldl_cons, ih, has_enterItem, size_enterItem]
    simp only [List.mem_cons, exists_eq_or_imp]
    tauto

/-- A range is entered exactly if an item of its rule ends there. -/
theorem has_foldl_enter {r : ν} {pos stop : Nat} : ∀ {cols : List (Column τ ν × Nat)}
    {spans : Spans ν},
    (cols.foldl (fun spans (col, stop) => spans.enter stop col) spans).Has r pos stop ↔
      spans.Has r pos stop ∨ pos < spans.size ∧
        ∃ col, (col, stop) ∈ cols ∧ ∃ i ∈ col.items, Ends i r pos
  | [], spans => by simp
  | (col, m) :: cols, spans => by
    rw [List.foldl_cons, has_foldl_enter]
    simp only [enter_eq_foldl, has_foldl_enterItem, size_foldl_enterItem, List.mem_cons,
      Prod.mk.injEq]
    constructor
    · rintro ((h | ⟨rfl, hlt, hi⟩) | ⟨hlt, col', hmem, hi⟩)
      · exact Or.inl h
      · exact Or.inr ⟨hlt, col, Or.inl ⟨rfl, rfl⟩, hi⟩
      · exact Or.inr ⟨hlt, col', Or.inr hmem, hi⟩
    · rintro (h | ⟨hlt, col', ⟨rfl, rfl⟩ | hmem, hi⟩)
      · exact Or.inl (Or.inl h)
      · exact Or.inl (Or.inr ⟨rfl, hlt, hi⟩)
      · exact Or.inr ⟨hlt, col', hmem, hi⟩

theorem has_ofChart {columns : Array (Column τ ν)} {r : ν} {pos stop : Nat} :
    (ofChart columns).Has r pos stop ↔ pos < columns.size ∧
      ∃ col, columns[stop]? = some col ∧ ∃ i ∈ col.items, Ends i r pos := by
  rw [ofChart, has_foldl_enter]
  have hempty : ¬ Has (Array.replicate columns.size ([] : List (ν × Nat))) r pos stop := by
    rw [Has, Array.getElem?_replicate]
    split <;> simp
  simp only [hempty, false_or, Array.size_replicate, List.mk_mem_zipIdx_iff_getElem?,
    Array.getElem?_toList]

end Spans

/-! ### The search for a way -/

/-- `F.Searched e ts`: the forest holds the tokens and all ranges of rules that can be used in a
sentence derived from `e`. -/
structure Forest.Searched (F : Forest α τ ν) (e : Expr τ ν) (ts : List α) : Prop where
  proper : F.grammar.Proper
  token : ∀ j : Nat, F.tokens[j]? = ts[j]?
  ends : ∀ r pos stop, stop ∈ F.ends r pos ↔
    ∃ k, nullableRest k ∧ Reach F.grammar e ts stop ⟨pos, some r, k⟩

theorem Forest.mem_ends {F : Forest α τ ν} {r : ν} {pos stop : Nat} :
    stop ∈ F.ends r pos ↔ F.spans.Has r pos stop := by
  rw [Forest.ends, Spans.Has, List.mem_filterMap]
  constructor
  · rintro ⟨⟨r', stop'⟩, hmem, heq⟩
    simp only [Option.ite_none_right_eq_some, Option.some.injEq] at heq
    obtain ⟨rfl, rfl⟩ := heq
    exact hmem
  · intro hmem
    exact ⟨_, hmem, if_pos rfl⟩

/-- The forest of a chart of all tokens. -/
theorem ChartAt.searched [DecidableEq τ] {G : Grammar α τ ν} (hG : G.Proper) {e : Expr τ ν}
    {ts : List α} {columns : Array (Column τ ν)} (h : ChartAt G e ts ts.length columns) :
    Forest.Searched ⟨G, ts.toArray, Spans.ofChart columns⟩ e ts := by
  refine ⟨hG, fun j => List.getElem?_toArray, fun r pos stop => ?_⟩
  rw [Forest.mem_ends, Spans.has_ofChart]
  constructor
  · rintro ⟨-, col, hget, ⟨start, rule, k⟩, hi, hnull, hr, hstart⟩
    dsimp only at hr hstart
    subst hr hstart
    exact ⟨k, hnull, ((h.column _ _ hget).items _).1 hi |>.1⟩
  · rintro ⟨k, hnull, hi⟩
    have hlt := hi.start_lt hG rfl hnull
    have hle := hi.le_length
    obtain ⟨col, hget, hcol⟩ := h.exists_column hle
    exact ⟨by rw [h.size]; dsimp only at hlt; omega, col, hget, _,
      (hcol.items _).2 ⟨hi, Or.inr hlt⟩, hnull, rfl, rfl⟩

/-- `Route F stop k pos parts`: the parts are a way through `k` from `pos` to `stop`. -/
inductive Route (F : Forest α τ ν) (stop : Nat) :
    List (Expr τ ν) → Nat → List (Part α ν) → Prop
  | done {k} : nullableRest k → Route F stop k stop []
  | token {k m c t pos ps} : (.tok c, m) ∈ stepsRest k → F.tokens[pos]? = some t →
      F.grammar.accepts c t → Route F stop m (pos + 1) ps → Route F stop k pos (.token t :: ps)
  | range {k m r pos e ps} : (.rule r, m) ∈ stepsRest k → e ∈ F.ends r pos → e ≤ stop →
      Route F stop m e ps → Route F stop k pos (.range r pos e :: ps)

namespace Forest

variable {F : Forest α τ ν}

theorem route_of_way {stop : Nat} : ∀ {fuel : Nat} {k : List (Expr τ ν)} {pos : Nat}
    {ps : List (Part α ν)}, F.way stop fuel k pos = some ps → Route F stop k pos ps
  | 0, _, _, _, h => by simp [way] at h
  | fuel + 1, k, pos, ps, h => by
    rw [way] at h
    split at h
    · next hpos =>
      split at h
      · next hk =>
        obtain rfl := Option.some.inj h
        exact hpos ▸ .done hk
      · simp at h
    · obtain ⟨⟨s, m⟩, hs, hfound⟩ := List.exists_of_findSome?_eq_some h
      cases s with
      | tok c =>
        simp only at hfound
        split at hfound
        · next t ht =>
          split at hfound
          · next hc =>
            obtain ⟨ps, hps, rfl⟩ := Option.map_eq_some_iff.1 hfound
            exact .token hs ht hc (route_of_way hps)
          · simp at hfound
        · simp at hfound
      | rule r =>
        simp only at hfound
        obtain ⟨e, he, hfound⟩ := List.exists_of_findSome?_eq_some hfound
        split at hfound
        · next hle =>
          obtain ⟨ps, hps, rfl⟩ := Option.map_eq_some_iff.1 hfound
          exact .range hs he hle (route_of_way hps)
        · simp at hfound

theorem exists_findSome?_eq_some {β γ : Type} {f : β → Option γ} {xs : List β} {x : β}
    (hx : x ∈ xs) (h : ∃ y, f x = some y) : ∃ y, xs.findSome? f = some y := by
  obtain ⟨y, hy⟩ := h
  rw [← Option.isSome_iff_exists, List.findSome?_isSome_iff]
  exact ⟨x, hx, by rw [hy]; rfl⟩

namespace Searched

variable {e : Expr τ ν} {ts : List α}

/-- The first token of a range that is not empty. -/
theorem getElem?_of_range {pos stop : Nat} {t : α} {v : List α} (hstop : stop ≤ ts.length)
    (hpos : pos ≤ stop) (hw : Grammar.range ts pos stop = t :: v) :
    pos + 1 ≤ stop ∧ ts[pos]? = some t ∧ Grammar.range ts (pos + 1) stop = v := by
  obtain ⟨hle, ht, hrest⟩ := range_eq_append (u := [t]) hstop hpos hw
  rw [List.length_singleton] at hle
  have hlt : pos < ts.length := by omega
  have hone := range_succ (List.getElem?_eq_getElem hlt)
  rw [List.length_singleton, hone, List.singleton_inj] at ht
  exact ⟨hle, by rw [List.getElem?_eq_getElem hlt, ht], hrest⟩

/-- A rule that is waited for and can be read from a range has that range. -/
theorem mem_ends_of_reads (hF : F.Searched e ts) {stop pos start : Nat} {rule : Option ν} {r : ν}
    {k m : List (Expr τ ν)} {u v : List α} (hstop : stop ≤ ts.length) (hpos : pos ≤ stop)
    (hi : Reach F.grammar e ts pos ⟨start, rule, k⟩) (hs : (.rule r, m) ∈ stepsRest k)
    (hu : Reads F.grammar [F.grammar.body r] u) (hw : Grammar.range ts pos stop = u ++ v) :
    pos + u.length ∈ F.ends r pos ∧ pos < pos + u.length ∧ pos + u.length ≤ stop ∧
      Grammar.range ts (pos + u.length) stop = v ∧
      Reach F.grammar e ts (pos + u.length) ⟨start, rule, m⟩ := by
  obtain ⟨hle, hrange, hrest⟩ := range_eq_append hstop hpos hw
  obtain ⟨m', hnull, hf⟩ := hu.reach (.predict hi hs) hrange (Nat.le_add_right ..)
    (Nat.le_trans hle hstop)
  have hlt := hf.start_lt hF.proper rfl hnull
  exact ⟨(hF.ends r pos _).2 ⟨m', hnull, hf⟩, hlt, hle, hrest, .complete hf rfl hnull hi hs⟩

/-- A way is found through whatever can be read. -/
theorem exists_way (hF : F.Searched e ts) {stop : Nat} (hstop : stop ≤ ts.length) :
    ∀ (fuel : Nat) {k : List (Expr τ ν)} {pos start : Nat} {rule : Option ν},
    Reach F.grammar e ts pos ⟨start, rule, k⟩ → Reads F.grammar k (Grammar.range ts pos stop) →
    pos ≤ stop → stop - pos < fuel → ∃ ps, F.way stop fuel k pos = some ps
  | 0, _, _, _, _, _, _, _, hfuel => by omega
  | fuel + 1, k, pos, start, rule, hi, hread, hpos, hfuel => by
    rw [way]
    split
    · next heq =>
      subst heq
      rw [range_self] at hread
      rw [if_pos (hread.nullableRest_of_nil hF.proper.solid rfl)]
      exact ⟨[], rfl⟩
    · next hne =>
      generalize hw : Grammar.range ts pos stop = w at hread
      cases hread with
      | done =>
        have hlength := congrArg List.length hw
        rw [length_range hstop, List.length_nil] at hlength
        omega
      | @token _ m c t v hs hc hv =>
        obtain ⟨hle, hget, hrest⟩ := getElem?_of_range hstop hpos hw
        refine exists_findSome?_eq_some hs ?_
        obtain ⟨ps, hps⟩ := hF.exists_way hstop fuel (.scan hi hs hget hc)
          (hrest.symm ▸ hv) hle (by omega)
        simp only [hF.token, hget, hc, if_true]
        exact ⟨_, Option.map_eq_some_iff.2 ⟨ps, hps, rfl⟩⟩
      | @rule _ m r u v hs hu hv =>
        obtain ⟨hends, hlt, hle, hrest, hnext⟩ := hF.mem_ends_of_reads hstop hpos hi hs hu hw
        refine exists_findSome?_eq_some hs ?_
        refine exists_findSome?_eq_some hends ?_
        obtain ⟨ps, hps⟩ := hF.exists_way hstop fuel hnext (hrest.symm ▸ hv) hle (by omega)
        rw [if_pos hle]
        exact ⟨_, Option.map_eq_some_iff.2 ⟨ps, hps, rfl⟩⟩

theorem lt_of_mem_ends (hF : F.Searched e ts) {r : ν} {pos stop : Nat}
    (h : stop ∈ F.ends r pos) : pos < stop ∧ stop ≤ ts.length := by
  obtain ⟨k, hnull, hi⟩ := (hF.ends r pos stop).1 h
  exact ⟨hi.start_lt hF.proper rfl hnull, hi.le_length⟩

theorem le_of_route (hF : F.Searched e ts) {stop : Nat} {k : List (Expr τ ν)} {pos : Nat}
    {ps : List (Part α ν)} (h : Route F stop k pos ps) : pos ≤ stop := by
  cases h with
  | done => exact Nat.le_refl _
  | token _ _ _ h => exact Nat.le_of_succ_le (hF.le_of_route h)
  | range _ he hle _ => exact Nat.le_trans (Nat.le_of_lt (hF.lt_of_mem_ends he).1) hle

/-- A way that has no room left is empty. -/
theorem nullableRest_of_route (hF : F.Searched e ts) {stop : Nat} {k : List (Expr τ ν)}
    {ps : List (Part α ν)} (h : Route F stop k stop ps) : nullableRest k := by
  cases h with
  | done hk => exact hk
  | token _ _ _ h =>
    have hle := hF.le_of_route h
    omega
  | range _ he hle _ =>
    have hlt := (hF.lt_of_mem_ends he).1
    omega

/-- The ranges of a way lie in its range, each is that of a rule that can be begun there, and one that
covers the whole range is all of the way. -/
theorem mem_route (hF : F.Searched e ts) {stop : Nat} {k : List (Expr τ ν)} {pos : Nat}
    {ps : List (Part α ν)} (h : Route F stop k pos ps) :
    ∀ {start rule}, Reach F.grammar e ts pos ⟨start, rule, k⟩ → ∀ r i j, .range r i j ∈ ps →
      Reach F.grammar e ts i (F.grammar.begin i r) ∧ j ∈ F.ends r i ∧ pos ≤ i ∧ j ≤ stop ∧
        (i = pos → j = stop → ∃ m, (.rule r, m) ∈ stepsRest k ∧ nullableRest m) := by
  induction h with
  | done => simp
  | @token k m c t pos ps hs ht hc _ ih =>
    intro start rule hi r i j hmem
    rw [hF.token] at ht
    obtain ⟨hb, he, hi', hj, -⟩ := ih (.scan hi hs ht hc) r i j (by simpa using hmem)
    exact ⟨hb, he, by omega, hj, fun _ _ => by omega⟩
  | @range k m r pos l ps hs he hle hroute ih =>
    intro start rule hi r' i j hmem
    rcases List.mem_cons.1 hmem with heq | hmem
    · obtain ⟨rfl, rfl, rfl⟩ := Part.range.inj heq
      exact ⟨.predict hi hs, he, Nat.le_refl _, hle,
        fun _ hj => ⟨m, hs, hF.nullableRest_of_route (hj ▸ hroute)⟩⟩
    · obtain ⟨m', hnull, hf⟩ := (hF.ends r pos l).1 he
      have hlt := (hF.lt_of_mem_ends he).1
      obtain ⟨hb, he', hi', hj, -⟩ := ih (.complete hf rfl hnull hi hs) r' i j hmem
      exact ⟨hb, he', by omega, hj, fun _ _ => by omega⟩

end Searched

/-! ### The trees of a way -/

theorem mapM_eq_some_iff {β γ : Type} {f : β → Option γ} : ∀ {xs : List β} {ys : List γ},
    xs.mapM f = some ys ↔ List.Forall₂ (fun x y => f x = some y) xs ys
  | [], ys => by simp [eq_comm]
  | x :: xs, ys => by
    rw [List.mapM_cons]
    cases hx : f x with
    | none =>
      constructor
      · intro h
        simp at h
      · intro h
        cases h with
        | cons hhead _ => simp [hx] at hhead
    | some y =>
      cases hxs : xs.mapM f with
      | none =>
        constructor
        · intro h
          simp at h
        · intro h
          cases h with
          | cons _ htail =>
            rw [mapM_eq_some_iff.2 htail] at hxs
            simp at hxs
      | some zs =>
        constructor
        · intro h
          obtain rfl := Option.some.inj h
          exact .cons hx (mapM_eq_some_iff.1 hxs)
        · intro h
          cases h with
          | cons hhead htail =>
            obtain rfl := Option.some.inj (hx.symm.trans hhead)
            obtain rfl := Option.some.inj (hxs.symm.trans (mapM_eq_some_iff.2 htail))
            rfl

theorem exists_mapM_eq_some {β γ : Type} {f : β → Option γ} : ∀ {xs : List β},
    (∀ x ∈ xs, ∃ y, f x = some y) → ∃ ys, xs.mapM f = some ys
  | [], _ => ⟨[], rfl⟩
  | x :: xs, h => by
    obtain ⟨y, hy⟩ := h x (List.mem_cons_self ..)
    obtain ⟨ys, hys⟩ := exists_mapM_eq_some fun x' hx' => h x' (List.mem_cons_of_mem _ hx')
    exact ⟨y :: ys, mapM_eq_some_iff.2 (.cons hy (mapM_eq_some_iff.1 hys))⟩

/-- The tree of one part. -/
def treeOf (F : Forest α τ ν) (fuel : Nat) : Part α ν → Option (Tree α ν)
  | .token t => some (.leaf t)
  | .range r i j => (F.trees fuel (F.grammar.body r) i j).map (.node r)

theorem trees_succ (F : Forest α τ ν) (fuel : Nat) (e : Expr τ ν) (pos stop : Nat) :
    F.trees (fuel + 1) e pos stop =
      (F.way stop (stop - pos + 1) [e] pos).bind (List.mapM (F.treeOf fuel)) := by
  rw [trees]
  rfl

namespace Searched

variable {e : Expr τ ν} {ts : List α}

/-- The trees of the parts of a way are a derivation, if those of its ranges are. -/
theorem parses_of_route (hF : F.Searched e ts) {fuel : Nat}
    (hsub : ∀ r i j cs, F.trees fuel (F.grammar.body r) i j = some cs →
      Parses F.grammar [F.grammar.body r] cs ∧ leavesOf cs = Grammar.range ts i j)
    {stop : Nat} {k : List (Expr τ ν)} {pos : Nat} {parts : List (Part α ν)}
    (h : Route F stop k pos parts) : ∀ {ps : List (Tree α ν)},
    List.Forall₂ (fun part p => F.treeOf fuel part = some p) parts ps →
    Parses F.grammar k ps ∧ leavesOf ps = Grammar.range ts pos stop := by
  induction h with
  | done hk =>
    rintro _ ⟨⟩
    exact ⟨.done hk, (range_self ..).symm⟩
  | @token k m c t pos parts hs ht hc hroute ih =>
    rintro _ (_ | ⟨hhead, htail⟩)
    obtain rfl := Option.some.inj hhead
    obtain ⟨hparse, hleaves⟩ := ih htail
    refine ⟨.leaf hs hc hparse, ?_⟩
    rw [hF.token] at ht
    rw [leavesOf, Tree.leaves, hleaves, ← range_succ ht,
      range_append ts (Nat.le_succ pos) (hF.le_of_route hroute)]
  | @range k m r pos l parts hs he hle hroute ih =>
    rintro _ (_ | ⟨hhead, htail⟩)
    obtain ⟨cs, hcs, rfl⟩ := Option.map_eq_some_iff.1 hhead
    have hlt := (hF.lt_of_mem_ends he).1
    obtain ⟨hbody, hcover⟩ := hsub r pos l cs hcs
    obtain ⟨hparse, hleaves⟩ := ih htail
    refine ⟨.node hs hbody hparse, ?_⟩
    rw [leavesOf, Tree.leaves, hcover, hleaves, range_append ts (Nat.le_of_lt hlt) hle]

/-- The trees that are found are a derivation with the tokens of the range at the leaves. -/
theorem trees_parses (hF : F.Searched e ts) : ∀ {fuel : Nat} {e' : Expr τ ν} {pos stop : Nat}
    {ps : List (Tree α ν)}, F.trees fuel e' pos stop = some ps →
    Parses F.grammar [e'] ps ∧ leavesOf ps = Grammar.range ts pos stop
  | 0, _, _, _, _, h => by simp [trees] at h
  | fuel + 1, e', pos, stop, ps, h => by
    rw [trees_succ] at h
    obtain ⟨parts, hway, hparts⟩ := Option.bind_eq_some_iff.1 h
    exact hF.parses_of_route (fun _ _ _ _ hcs => hF.trees_parses hcs) (route_of_way hway)
      (mapM_eq_some_iff.1 hparts)

/-- Trees are found for whatever can be read. A part of the range is shorter, or it is that of a rule
of lower rank. -/
theorem exists_trees (hF : F.Searched e ts) {rank : ν → Nat} {b : Nat}
    (hrank : ∀ r r' m, (.rule r', m) ∈ stepsRest [F.grammar.body r] → nullableRest m →
      rank r' < rank r) (hb : ∀ r, rank r < b) :
    ∀ (fuel : Nat) {e' : Expr τ ν} {pos stop start : Nat} {rule : Option ν},
    Reach F.grammar e ts pos ⟨start, rule, [e']⟩ →
    Reads F.grammar [e'] (Grammar.range ts pos stop) → pos ≤ stop → stop ≤ ts.length →
    (stop - pos) * (b + 1) ≤ fuel →
    (∀ r m, (.rule r, m) ∈ stepsRest [e'] → nullableRest m →
      (stop - pos) * (b + 1) + rank r + 1 ≤ fuel) →
    ∃ ps, F.trees (fuel + 1) e' pos stop = some ps
  | fuel, e', pos, stop, start, rule, hi, hread, hpos, hstop, hfuel, hunit => by
    obtain ⟨parts, hway⟩ := hF.exists_way hstop (stop - pos + 1) hi hread hpos (by omega)
    have hroute := hF.mem_route (route_of_way hway) hi
    rw [trees_succ, hway, Option.bind_some]
    refine exists_mapM_eq_some fun part hpart => ?_
    cases part with
    | token t => exact ⟨_, rfl⟩
    | range r i j =>
      obtain ⟨hbegin, hends, hpi, hjs, hwhole⟩ := hroute r i j hpart
      obtain ⟨m, hnull, hf⟩ := (hF.ends r i j).1 hends
      have hlt := (hF.lt_of_mem_ends hends).1
      have hbody : Reads F.grammar [F.grammar.body r] (Grammar.range ts i j) :=
        hf.reads_range hnull
      -- the fuel that is left exceeds the size of the part by one
      have hleft : (j - i) * (b + 1) + rank r + 1 ≤ fuel := by
        by_cases hfull : i = pos ∧ j = stop
        · obtain ⟨rfl, rfl⟩ := hfull
          obtain ⟨m, hm, hmnull⟩ := hwhole rfl rfl
          exact hunit r m hm hmnull
        · have hshort : j - i + 1 ≤ stop - pos := by omega
          have hmul := Nat.mul_le_mul_right (b + 1) hshort
          have hr := hb r
          rw [Nat.add_mul] at hmul
          omega
      obtain ⟨fuel, rfl⟩ : ∃ n, fuel = n + 1 := ⟨fuel - 1, by omega⟩
      obtain ⟨cs, hcs⟩ := hF.exists_trees hrank hb fuel hbegin hbody (Nat.le_of_lt hlt)
        (Nat.le_trans hjs hstop) (by omega) fun r' m hm hmnull => by
          have hr' := hrank r r' m hm hmnull
          omega
      exact ⟨.node r cs, Option.map_eq_some_iff.2 ⟨cs, hcs, rfl⟩⟩
termination_by fuel => fuel

end Searched

end Forest

/-! ### Reading a sequence -/

/-- `G.Ranked rank`: a rule that can be all of another one has a lower rank than it, so no rule is a
part of itself over the same range. -/
structure Ranked (G : Grammar α τ ν) (rank : ν → Nat) : Prop where
  lower : ∀ r r' m, (.rule r', m) ∈ stepsRest [G.body r] → nullableRest m → rank r' < rank r
  bound : ∀ r, rank r < G.rules.length

/-- What a reading says of the sequence `ts` is so. -/
def Reading.Holds (G : Grammar α τ ν) (e : Expr τ ν) (ts : List α) : Reading α ν → Prop
  | .sentence ps => Parses G [e] ps ∧ leavesOf ps = ts
  | .stuck t => ∃ m, ts[m]? = some t ∧ G.Extendable e (ts.take m) ∧
      ¬ G.Extendable e (ts.take (m + 1))
  | .short => ¬ G.Derives e ts ∧ G.Extendable e ts

/-- Reading tells what a sequence is. -/
theorem read_holds [DecidableEq τ] {G : Grammar α τ ν} (hG : G.Proper) {rank : ν → Nat}
    (hrank : G.Ranked rank) (e : Expr τ ν) (ts : List α) : (G.read e ts).Holds G e ts := by
  obtain ⟨m, columns, hchart, hcolumns, hm, hext, hstuck⟩ := exists_chart_eq hG e ts
  unfold read
  rw [hchart]
  dsimp only
  split
  · next t rest hrest =>
    have hlt : m < ts.length := by
      by_contra hge
      rw [List.drop_of_length_le (by omega)] at hrest
      simp at hrest
    refine ⟨m, ?_, hext, hstuck hlt⟩
    rw [← List.head?_drop, hrest, List.head?_cons]
  · next hrest =>
    rw [List.drop_eq_nil_iff] at hrest
    obtain rfl : m = ts.length := by omega
    rw [List.take_length] at hext
    split
    · next hsentence =>
      have hF := hcolumns.searched hG
      have hderives := hcolumns.isSentence_iff.1 hsentence
      have hfuel : (ts.length + 1) * (G.rules.length + 1) =
          ts.length * (G.rules.length + 1) + G.rules.length + 1 := by ring
      obtain ⟨ps, hps⟩ := hF.exists_trees hrank.lower hrank.bound
        (ts.length * (G.rules.length + 1) + G.rules.length) .first
        (by rw [range_zero, List.take_length]; exact hderives.reads) (Nat.zero_le _) (Nat.le_refl _) (by simp)
        (fun r m _ _ => by
          have := hrank.bound r
          simp only [Nat.sub_zero]
          omega)
      rw [hfuel, hps]
      obtain ⟨hparses, hleaves⟩ := hF.trees_parses hps
      rw [range_zero, List.take_length] at hleaves
      exact ⟨hparses, hleaves⟩
    · next hsentence => exact ⟨fun h => hsentence (hcolumns.isSentence_iff.2 h), hext⟩

section

variable [DecidableEq τ] {G : Grammar α τ ν} {rank : ν → Nat} {e : Expr τ ν} {ts : List α}

theorem exists_read_eq_sentence_iff (hG : G.Proper) (hrank : G.Ranked rank) :
    (∃ ps, G.read e ts = .sentence ps) ↔ G.Derives e ts := by
  have hread := read_holds hG hrank e ts
  constructor
  · rintro ⟨ps, hps⟩
    rw [hps] at hread
    obtain ⟨hparses, hleaves⟩ := hread
    rw [derives_iff_reads, ← hleaves]
    exact hparses.reads
  · intro hderives
    cases hcase : G.read e ts with
    | sentence ps => exact ⟨ps, rfl⟩
    | stuck t =>
      rw [hcase] at hread
      obtain ⟨m, -, -, hno⟩ := hread
      exact absurd (hderives.extendable.take _) hno
    | short =>
      rw [hcase] at hread
      exact absurd hderives hread.1

theorem read_eq_stuck_iff (hG : G.Proper) (hrank : G.Ranked rank) {t : α} :
    G.read e ts = .stuck t ↔ ∃ m, ts[m]? = some t ∧ G.Extendable e (ts.take m) ∧
      ¬ G.Extendable e (ts.take (m + 1)) := by
  have hread := read_holds hG hrank e ts
  constructor
  · intro h
    rw [h] at hread
    exact hread
  · rintro ⟨m, ht, hext, hno⟩
    cases hcase : G.read e ts with
    | sentence ps =>
      have hderives := (exists_read_eq_sentence_iff hG hrank).1 ⟨ps, hcase⟩
      exact absurd (hderives.extendable.take _) hno
    | short =>
      rw [hcase] at hread
      exact absurd (hread.2.take _) hno
    | stuck t' =>
      rw [hcase] at hread
      obtain ⟨m', ht', hext', hno'⟩ := hread
      -- two such positions are the same one
      obtain rfl : m = m' := by
        rcases Nat.lt_trichotomy m m' with hlt | heq | hlt
        · exact absurd (hext'.take_of_le hlt) hno
        · exact heq
        · exact absurd (hext.take_of_le hlt) hno'
      rw [Option.some.inj (ht.symm.trans ht')]

theorem read_eq_short_iff (hG : G.Proper) (hrank : G.Ranked rank) :
    G.read e ts = .short ↔ ¬ G.Derives e ts ∧ G.Extendable e ts := by
  have hread := read_holds hG hrank e ts
  constructor
  · intro h
    rw [h] at hread
    exact hread
  · rintro ⟨hno, hext⟩
    cases hcase : G.read e ts with
    | sentence ps => exact absurd ((exists_read_eq_sentence_iff hG hrank).1 ⟨ps, hcase⟩) hno
    | stuck t =>
      rw [hcase] at hread
      obtain ⟨m, -, -, hstuck⟩ := hread
      exact absurd (hext.take _) hstuck
    | short => rfl

end

end TraitLift.Grammar
