import Mathlib.Tactic
import TraitLift.Proofs.Grammar.Closure
import TraitLift.Proofs.Grammar.Reach

/-!
Charts hold exactly the items that can be under way. `ColumnAt` says this of one column and `ChartAt`
of the columns up to a position; every further token keeps it. Main statements: `feed` stops at the
first token with which the tokens read so far can no longer be extended to a sentence
(`exists_chart_eq`), and `isSentence` tells whether they are one (`ChartAt.isSentence_iff`).
-/

namespace TraitLift.Grammar

variable {α τ ν : Type}

/-! ### What an item does next -/

namespace Item

theorem mem_waiting {i i' : Item τ ν} {r : ν} :
    (r, i') ∈ i.waiting ↔ ∃ k, (.rule r, k) ∈ stepsRest i.rest ∧ i' = { i with rest := k } := by
  rw [waiting, List.mem_filterMap]
  constructor
  · rintro ⟨⟨s, k⟩, hs, heq⟩
    cases s with
    | tok c => simp at heq
    | rule r' =>
      simp only [Option.some.injEq, Prod.mk.injEq] at heq
      obtain ⟨rfl, rfl⟩ := heq
      exact ⟨k, hs, rfl⟩
  · rintro ⟨k, hs, rfl⟩
    exact ⟨_, hs, rfl⟩

theorem mem_reading {i i' : Item τ ν} {c : τ} :
    (c, i') ∈ i.reading ↔ ∃ k, (.tok c, k) ∈ stepsRest i.rest ∧ i' = { i with rest := k } := by
  rw [reading, List.mem_filterMap]
  constructor
  · rintro ⟨⟨s, k⟩, hs, heq⟩
    cases s with
    | rule r => simp at heq
    | tok c' =>
      simp only [Option.some.injEq, Prod.mk.injEq] at heq
      obtain ⟨rfl, rfl⟩ := heq
      exact ⟨k, hs, rfl⟩
  · rintro ⟨k, hs, rfl⟩
    exact ⟨_, hs, rfl⟩

theorem mem_map_waiting {i : Item τ ν} {r : ν} :
    r ∈ i.waiting.map Prod.fst ↔ ∃ k, (.rule r, k) ∈ stepsRest i.rest := by
  rw [List.mem_map]
  constructor
  · rintro ⟨⟨_, i'⟩, h, rfl⟩
    obtain ⟨k, hk, -⟩ := mem_waiting.1 h
    exact ⟨k, hk⟩
  · rintro ⟨k, hk⟩
    exact ⟨(r, _), mem_waiting.2 ⟨k, hk, rfl⟩, rfl⟩

end Item

/-! ### All items there can be -/

/-- All items that can be under way at a position up to `n`. -/
def itemsUpTo (G : Grammar α τ ν) (e : Expr τ ν) (n : Nat) : List (Item τ ν) :=
  (List.range (n + 1)).flatMap fun start =>
    e.rests.map (⟨start, none, ·⟩) ++
      G.rules.flatMap fun r => (G.body r).rests.map (⟨start, some r, ·⟩)

theorem mem_itemsUpTo {G : Grammar α τ ν} (hG : G.Proper) {e : Expr τ ν} {n : Nat}
    {i : Item τ ν} : i ∈ itemsUpTo G e n ↔ i.start ≤ n ∧ i.rest ∈ (i.goal G e).rests := by
  obtain ⟨start, rule, rest⟩ := i
  simp only [itemsUpTo, List.mem_flatMap, List.mem_range, Nat.lt_succ_iff, List.mem_append,
    List.mem_map, Item.mk.injEq]
  constructor
  · rintro ⟨_, hstart, ⟨k, hk, rfl, rfl, rfl⟩ | ⟨r, -, k, hk, rfl, rfl, rfl⟩⟩
    · exact ⟨hstart, hk⟩
    · exact ⟨hstart, hk⟩
  · rintro ⟨hstart, hrest⟩
    refine ⟨start, hstart, ?_⟩
    cases rule with
    | none => exact Or.inl ⟨rest, hrest, rfl, rfl, rfl⟩
    | some r => exact Or.inr ⟨r, hG.listed r, rest, hrest, rfl, rfl, rfl⟩

theorem length_flatMap_rests (G : Grammar α τ ν) (start : Nat) : ∀ rs : List ν,
    (rs.flatMap fun r => (G.body r).rests.map (Item.mk start (some r) ·)).length ≤
      rs.foldr (fun r n => (G.body r).size + 1 + n) 0
  | [] => by simp
  | r :: rs => by
    have hr := (G.body r).length_positions
    have hrs := length_flatMap_rests G start rs
    simp only [List.flatMap_cons, List.length_append, List.length_map, List.foldr_cons, Expr.rests,
      List.length_cons] at *
    omega

theorem length_flatMap_le {β : Type} {f : Nat → List β} {b : Nat} (h : ∀ x, (f x).length ≤ b) :
    ∀ xs : List Nat, (xs.flatMap f).length ≤ b * xs.length
  | [] => by simp
  | x :: xs => by
    have hx := h x
    have hxs := length_flatMap_le h xs
    rw [List.flatMap_cons, List.length_append, List.length_cons, Nat.mul_succ]
    omega

theorem length_itemsUpTo (G : Grammar α τ ν) (e : Expr τ ν) (n : Nat) :
    (itemsUpTo G e n).length ≤ (G.restLimit + e.size + 1) * (n + 1) := by
  have hone : ∀ start, (e.rests.map (Item.mk start none ·) ++
      G.rules.flatMap fun r => (G.body r).rests.map (Item.mk start (some r) ·)).length ≤
        G.restLimit + e.size + 1 := by
    intro start
    have he := e.length_positions
    have hrules := length_flatMap_rests G start G.rules
    simp only [List.length_append, List.length_map, Expr.rests, List.length_cons, restLimit] at *
    omega
  have hall := length_flatMap_le hone (List.range (n + 1))
  rwa [List.length_range] at hall

/-! ### What columns say -/

/-- `ColumnAt G e ts j col`: the column says what can be under way at position `j`. -/
structure ColumnAt (G : Grammar α τ ν) (e : Expr τ ν) (ts : List α) (j : Nat)
    (col : Column τ ν) : Prop where
  items : ∀ i, i ∈ col.items ↔ Reach G e ts j i ∧ (i.rule = none ∨ i.start < j)
  waiting : ∀ r i', (r, i') ∈ col.waiting ↔
    ∃ i k, Reach G e ts j i ∧ (.rule r, k) ∈ stepsRest i.rest ∧ i' = { i with rest := k }
  reading : ∀ c i', (c, i') ∈ col.reading ↔
    ∃ i k, Reach G e ts j i ∧ (.tok c, k) ∈ stepsRest i.rest ∧ i' = { i with rest := k }

/-- `ChartAt G e ts n columns`: there is a column for every position up to `n`, and each says what
can be under way there. -/
structure ChartAt (G : Grammar α τ ν) (e : Expr τ ν) (ts : List α) (n : Nat)
    (columns : Array (Column τ ν)) : Prop where
  size : columns.size = n + 1
  column : ∀ j col, columns[j]? = some col → ColumnAt G e ts j col

variable {G : Grammar α τ ν} {e : Expr τ ν} {ts : List α} {j n : Nat}
  {columns : Array (Column τ ν)}

theorem ChartAt.exists_column (h : ChartAt G e ts n columns) (hj : j ≤ n) :
    ∃ col, columns[j]? = some col ∧ ColumnAt G e ts j col := by
  have hlt : j < columns.size := by rw [h.size]; omega
  exact ⟨columns[j], Array.getElem?_eq_getElem hlt, h.column j _ (Array.getElem?_eq_getElem hlt)⟩

theorem ChartAt.exists_back (h : ChartAt G e ts n columns) :
    ∃ col, columns.back? = some col ∧ ColumnAt G e ts n col := by
  obtain ⟨col, hget, hcol⟩ := h.exists_column (Nat.le_refl n)
  refine ⟨col, ?_, hcol⟩
  rw [Array.back?, h.size]
  exact hget

/-! ### One column -/

variable [DecidableEq ν]

theorem mem_predicted (hG : G.Proper) {awaited : List ν} {r : ν} :
    r ∈ G.predicted awaited ↔ ∃ r₀ ∈ awaited,
      Relation.ReflTransGen (fun a b => b ∈ (G.begin 0 a).waiting.map Prod.fst) r₀ r :=
  mem_closure_iff G.rules (fun r _ => hG.listed r) (fun _ _ r _ => hG.listed r) (Nat.le_refl _)

/-- The rules predicted from the items that have read something are those that begin. -/
theorem mem_predicted_iff_reach (hG : G.Proper) {items : List (Item τ ν)}
    (hitems : ∀ i, i ∈ items ↔ Reach G e ts j i ∧ (i.rule = none ∨ i.start < j)) {r : ν} :
    r ∈ G.predicted (items.flatMap fun i => i.waiting.map Prod.fst) ↔
      Reach G e ts j (G.begin j r) := by
  constructor
  · intro h
    obtain ⟨r₀, hr₀, hr⟩ := (mem_predicted hG).1 h
    induction hr with
    | refl =>
      obtain ⟨i, hi, hw⟩ := List.mem_flatMap.1 hr₀
      obtain ⟨k, hk⟩ := Item.mem_map_waiting.1 hw
      exact .predict ((hitems i).1 hi).1 hk
    | @tail a b hab hb ih =>
      obtain ⟨k, hk⟩ := Item.mem_map_waiting.1 hb
      exact .predict (ih ((mem_predicted hG).2 ⟨r₀, hr₀, hab⟩)) hk
  · intro h
    -- every item under way is among the items or begins a rule that is predicted
    suffices hall : ∀ {l i}, Reach G e ts l i → l = j → i ∈ items ∨ ∃ r', i = G.begin j r' ∧
        r' ∈ G.predicted (items.flatMap fun i => i.waiting.map Prod.fst) by
      rcases hall h rfl with hi | ⟨r', heq, hr'⟩
      · rcases ((hitems _).1 hi).2 with hnone | hlt
        · simp [Grammar.begin] at hnone
        · exact absurd hlt (Nat.lt_irrefl j)
      · simp only [Grammar.begin, Item.mk.injEq, Option.some.injEq] at heq
        exact heq.2.1 ▸ hr'
    intro l i hi
    induction hi with
    | first =>
      rintro rfl
      exact Or.inl ((hitems _).2 ⟨.first, Or.inl rfl⟩)
    | @predict l i r k hi hs ih =>
      rintro rfl
      refine Or.inr ⟨r, rfl, (mem_predicted hG).2 ?_⟩
      rcases ih rfl with hmem | ⟨r', rfl, hr'⟩
      · exact ⟨r, List.mem_flatMap.2 ⟨i, hmem, Item.mem_map_waiting.2 ⟨k, hs⟩⟩, .refl⟩
      · obtain ⟨r₀, hr₀, hreach⟩ := (mem_predicted hG).1 hr'
        exact ⟨r₀, hr₀, hreach.tail (Item.mem_map_waiting.2 ⟨k, hs⟩)⟩
    | @scan l i c k t hi hs ht hc _ =>
      rintro rfl
      exact Or.inl ((hitems _).2 ⟨.scan hi hs ht hc, Or.inr (Nat.lt_succ_of_le hi.start_le)⟩)
    | @complete l i f r k hf hr hnull hi hs _ _ =>
      rintro rfl
      exact Or.inl ((hitems _).2 ⟨.complete hf hr hnull hi hs,
        Or.inr (Nat.lt_of_le_of_lt hi.start_le (hf.start_lt hG hr hnull))⟩)

/-- The column of the items that have read something. -/
theorem columnAt_column (hG : G.Proper) {items : List (Item τ ν)}
    (hitems : ∀ i, i ∈ items ↔ Reach G e ts j i ∧ (i.rule = none ∨ i.start < j)) :
    ColumnAt G e ts j (G.column j items) := by
  have hunder : ∀ i, i ∈ items ++ (G.predicted (items.flatMap fun i =>
      i.waiting.map Prod.fst)).map (G.begin j) ↔ Reach G e ts j i := by
    intro i
    rw [List.mem_append, List.mem_map]
    constructor
    · rintro (hi | ⟨r, hr, rfl⟩)
      · exact ((hitems i).1 hi).1
      · exact (mem_predicted_iff_reach hG hitems).1 hr
    · intro hi
      rcases hi.begun_or hG with ⟨r, rfl⟩ | hread
      · exact Or.inr ⟨r, (mem_predicted_iff_reach hG hitems).2 hi, rfl⟩
      · exact Or.inl ((hitems i).2 ⟨hi, hread⟩)
  refine ⟨hitems, fun r i' => ?_, fun c i' => ?_⟩
  · simp only [column, List.mem_flatMap, hunder, Item.mem_waiting]
    constructor
    · rintro ⟨i, hi, k, hk, rfl⟩
      exact ⟨i, k, hi, hk, rfl⟩
    · rintro ⟨i, k, hi, hk, rfl⟩
      exact ⟨i, hi, k, hk, rfl⟩
  · simp only [column, List.mem_flatMap, hunder, Item.mem_reading]
    constructor
    · rintro ⟨i, hi, k, hk, rfl⟩
      exact ⟨i, k, hi, hk, rfl⟩
    · rintro ⟨i, k, hi, hk, rfl⟩
      exact ⟨i, hi, k, hk, rfl⟩

/-! ### All columns -/

/-- The items that go on after an item that has ended. -/
theorem ChartAt.mem_resumed (h : ChartAt G e ts n columns) {f i' : Item τ ν} :
    i' ∈ resumed columns f ↔ ∃ r i k, f.rule = some r ∧ nullableRest f.rest ∧ f.start ≤ n ∧
      Reach G e ts f.start i ∧ (.rule r, k) ∈ stepsRest i.rest ∧ i' = { i with rest := k } := by
  unfold resumed Item.isFinished
  constructor
  · intro hi'
    split at hi'
    · next r col hnull hr hget =>
      obtain ⟨⟨r', i''⟩, hw, heq⟩ := List.mem_filterMap.1 hi'
      simp only [Option.ite_none_right_eq_some, Option.some.injEq] at heq
      obtain ⟨rfl, rfl⟩ := heq
      obtain ⟨i, k, hi, hk, rfl⟩ := ((h.column _ _ hget).waiting r i'').1 hw
      have hlt := (Array.getElem?_eq_some_iff.1 hget).1
      rw [h.size] at hlt
      exact ⟨r, i, k, hr, hnull, Nat.lt_succ_iff.1 hlt, hi, hk, rfl⟩
    · simp at hi'
  · rintro ⟨r, i, k, hr, hnull, hle, hi, hk, rfl⟩
    obtain ⟨col, hget, hcol⟩ := h.exists_column hle
    rw [hnull, hr, hget]
    refine List.mem_filterMap.2 ⟨(r, _), (hcol.waiting r _).2 ⟨i, k, hi, hk, rfl⟩, ?_⟩
    simp

omit [DecidableEq ν] in
/-- The items that read a token. -/
theorem ChartAt.mem_kernel (h : ChartAt G e ts n columns) (t : α) (i' : Item τ ν) :
    i' ∈ ((columns.back?.map Column.reading).getD []).filterMap
        (fun (c, i) => if G.accepts c t then some i else none) ↔
      ∃ i c k, Reach G e ts n i ∧ (.tok c, k) ∈ stepsRest i.rest ∧ G.accepts c t ∧
        i' = { i with rest := k } := by
  obtain ⟨col, hback, hcol⟩ := h.exists_back
  rw [hback, Option.map_some, Option.getD_some, List.mem_filterMap]
  constructor
  · rintro ⟨⟨c, i''⟩, hread, heq⟩
    simp only [Option.ite_none_right_eq_some, Option.some.injEq] at heq
    obtain ⟨hc, rfl⟩ := heq
    obtain ⟨i, k, hi, hk, rfl⟩ := (hcol.reading c i'').1 hread
    exact ⟨i, c, k, hi, hk, hc, rfl⟩
  · rintro ⟨i, c, k, hi, hk, hc, rfl⟩
    exact ⟨(c, _), (hcol.reading c _).2 ⟨i, k, hi, hk, rfl⟩, if_pos hc⟩

variable [DecidableEq τ]

/-- The items that read a token, and those that go on after these, are the ones that have read
something after it. -/
theorem ChartAt.mem_closure_resumed (hG : G.Proper) (h : ChartAt G e ts n columns) {t : α}
    (ht : ts[n]? = some t) {kernel : List (Item τ ν)}
    (hkernel : ∀ i', i' ∈ kernel ↔ ∃ i c k, Reach G e ts n i ∧ (.tok c, k) ∈ stepsRest i.rest ∧
      G.accepts c t ∧ i' = { i with rest := k }) (i : Item τ ν) :
    i ∈ closure (resumed columns) ((G.restLimit + e.size + 1) * (columns.size + 1)) kernel ↔
      Reach G e ts (n + 1) i ∧ (i.rule = none ∨ i.start < n + 1) := by
  rw [mem_closure_iff (itemsUpTo G e (n + 1))]
  · constructor
    · rintro ⟨i₀, hi₀, hreach⟩
      induction hreach with
      | refl =>
        obtain ⟨i, c, k, hi, hs, hc, rfl⟩ := (hkernel i₀).1 hi₀
        exact ⟨.scan hi hs ht hc, Or.inr (Nat.lt_succ_of_le hi.start_le)⟩
      | tail _ hnext ih =>
        obtain ⟨r, i, k, hr, hnull, hle, hi, hk, rfl⟩ := h.mem_resumed.1 hnext
        exact ⟨.complete ih.1 hr hnull hi hk,
          Or.inr (Nat.lt_succ_of_le (Nat.le_trans hi.start_le hle))⟩
    · rintro ⟨hi, hread⟩
      suffices hall : ∀ {l i}, Reach G e ts l i → l = n + 1 → (i.rule = none ∨ i.start < n + 1) →
          ∃ x ∈ kernel, Relation.ReflTransGen (fun a b => b ∈ resumed columns a) x i from
        hall hi rfl hread
      clear hi hread i
      intro l i hi
      induction hi with
      | first => intro hl; omega
      | predict =>
        rintro rfl (hnone | hlt)
        · simp [Grammar.begin] at hnone
        · exact absurd hlt (Nat.lt_irrefl _)
      | @scan l i c k t' hi hs ht' hc _ =>
        intro hl _
        obtain rfl : l = n := by omega
        obtain rfl := Option.some.inj (ht'.symm.trans ht)
        exact ⟨_, (hkernel _).2 ⟨i, c, k, hi, hs, hc, rfl⟩, .refl⟩
      | @complete l i f r k hf hr hnull hi hs ihf _ =>
        rintro rfl _
        have hlt := hf.start_lt hG hr hnull
        obtain ⟨x, hx, hxf⟩ := ihf rfl (Or.inr hlt)
        exact ⟨x, hx, hxf.tail (h.mem_resumed.2
          ⟨r, i, k, hr, hnull, Nat.lt_succ_iff.1 hlt, hi, hs, rfl⟩)⟩
  · intro i' hi'
    obtain ⟨i, c, k, hi, hs, -, rfl⟩ := (hkernel i').1 hi'
    exact (mem_itemsUpTo hG).2 ⟨Nat.le_succ_of_le hi.start_le,
      Expr.mem_rests_of_mem_stepsRest hi.rest_mem hs⟩
  · intro f _ i' hi'
    obtain ⟨r, i, k, -, -, hle, hi, hs, rfl⟩ := h.mem_resumed.1 hi'
    exact (mem_itemsUpTo hG).2 ⟨Nat.le_succ_of_le (Nat.le_trans hi.start_le hle),
      Expr.mem_rests_of_mem_stepsRest hi.rest_mem hs⟩
  · rw [h.size]
    exact length_itemsUpTo G e (n + 1)

/-! ### Reading on -/

/-- No column follows if nothing is under way after the token; otherwise the chart goes on. -/
theorem ChartAt.advance (hG : G.Proper) (h : ChartAt G e ts n columns) {t : α}
    (ht : ts[n]? = some t) :
    match G.advance (G.restLimit + e.size + 1) columns t with
    | none => ¬ ∃ i, Reach G e ts (n + 1) i
    | some col => ChartAt G e ts (n + 1) (columns.push col) ∧ ∃ i, Reach G e ts (n + 1) i := by
  have hkernel := h.mem_kernel t
  unfold Grammar.advance
  dsimp only
  split_ifs with hempty
  · rintro ⟨i, hi⟩
    obtain ⟨i', c, k, t', hi', hs, ht', hc⟩ := hi.exists_scan rfl
    obtain rfl := Option.some.inj (ht'.symm.trans ht)
    have hmem := (hkernel _).2 ⟨i', c, k, hi', hs, hc, rfl⟩
    rw [List.isEmpty_iff.1 hempty] at hmem
    simp at hmem
  · have hcol := columnAt_column hG (h.mem_closure_resumed hG ht hkernel)
    rw [← h.size] at hcol
    refine ⟨⟨by rw [Array.size_push, h.size], fun j col hget => ?_⟩, ?_⟩
    · rw [Array.getElem?_push] at hget
      split at hget
      · next hj =>
        obtain rfl := Option.some.inj hget
        rw [hj]
        exact hcol
      · exact h.column j col hget
    · obtain ⟨i', hi'⟩ := List.isEmpty_eq_false_iff_exists_mem.1 (Bool.not_eq_true _ ▸ hempty)
      obtain ⟨i, c, k, hi, hs, hc, -⟩ := (hkernel i').1 hi'
      exact ⟨_, .scan hi hs ht hc⟩

theorem chartAt_first (hG : G.Proper) (e : Expr τ ν) (ts : List α) :
    ChartAt G e ts 0 #[G.column 0 [⟨0, none, [e]⟩]] := by
  have hitems : ∀ i : Item τ ν, i ∈ [(⟨0, none, [e]⟩ : Item τ ν)] ↔
      Reach G e ts 0 i ∧ (i.rule = none ∨ i.start < 0) := by
    intro i
    rw [List.mem_singleton]
    constructor
    · rintro rfl
      exact ⟨.first, Or.inl rfl⟩
    · rintro ⟨hi, hnone | hlt⟩
      · suffices hall : ∀ {l i}, Reach G e ts l i → l = 0 → i.rule = none →
            i = ⟨0, none, [e]⟩ from hall hi rfl hnone
        intro l i hi hl hnone
        cases hi with
        | first => rfl
        | predict => simp [Grammar.begin] at hnone
        | scan => omega
        | complete hf hr hnull _ _ =>
          have := hf.start_lt hG hr hnull
          omega
      · omega
  refine ⟨rfl, fun j col hget => ?_⟩
  obtain ⟨hj, rfl⟩ := Array.getElem?_eq_some_iff.1 hget
  obtain rfl : j = 0 := by simpa using hj
  exact columnAt_column hG hitems

/-- What `feed` comes to after `n` tokens: it reads on up to a position `m`, the chart is right up to
there, and with the token at that position, if there is one left, nothing is under way. -/
theorem ChartAt.feed (hG : G.Proper) : ∀ {rest : List α} {n : Nat} {columns : Array (Column τ ν)},
    ChartAt G e ts n columns → (∃ i, Reach G e ts n i) → ts.drop n = rest →
    ∃ m columns', G.feed (G.restLimit + e.size + 1) columns rest = (columns', ts.drop m) ∧
      ChartAt G e ts m columns' ∧ m ≤ ts.length ∧ (∃ i, Reach G e ts m i) ∧
      ∀ t, ts[m]? = some t → ¬ ∃ i, Reach G e ts (m + 1) i
  | [], n, columns, h, hn, hrest => by
    obtain ⟨i, hi⟩ := hn
    refine ⟨n, columns, by rw [hrest]; rfl, h, hi.le_length, ⟨i, hi⟩, fun t ht => ?_⟩
    have hlt := (List.getElem?_eq_some_iff.1 ht).1
    rw [List.drop_eq_nil_iff] at hrest
    omega
  | t :: rest, n, columns, h, hn, hrest => by
    have ht : ts[n]? = some t := by
      rw [← List.head?_drop, hrest, List.head?_cons]
    have hstep := h.advance hG ht
    rw [Grammar.feed]
    cases hadv : G.advance (G.restLimit + e.size + 1) columns t with
    | none =>
      rw [hadv] at hstep
      obtain ⟨i, hi⟩ := hn
      exact ⟨n, columns, by rw [hrest], h, hi.le_length, ⟨i, hi⟩, fun _ _ => hstep⟩
    | some col =>
      rw [hadv] at hstep
      refine ChartAt.feed hG hstep.1 hstep.2 ?_
      rw [← List.drop_drop, hrest]
      rfl

/-- The chart of a sequence: it is right up to the position `m` it comes to, and either that is the
end or with the next token the sequence can no longer be extended to a sentence. -/
theorem exists_chart_eq (hG : G.Proper) (e : Expr τ ν) (ts : List α) :
    ∃ m columns, G.chart e ts = (columns, ts.drop m) ∧ ChartAt G e ts m columns ∧
      m ≤ ts.length ∧ G.Extendable e (ts.take m) ∧
      (m < ts.length → ¬ G.Extendable e (ts.take (m + 1))) := by
  obtain ⟨m, columns, hfeed, hchart, hm, hreach, hstuck⟩ :=
    (chartAt_first hG e ts).feed hG ⟨_, .first⟩ List.drop_zero
  refine ⟨m, columns, hfeed, hchart, hm, (extendable_take_iff hG hm).2 hreach, fun hlt => ?_⟩
  rw [extendable_take_iff hG hlt]
  exact hstuck _ (List.getElem?_eq_getElem hlt)

omit [DecidableEq ν] [DecidableEq τ] in
/-- Whether the tokens read are a whole sentence. -/
theorem ChartAt.isSentence_iff (h : ChartAt G e ts ts.length columns) :
    isSentence columns ↔ G.Derives e ts := by
  obtain ⟨col, hback, hcol⟩ := h.exists_back
  rw [derives_iff_reach, isSentence, hback]
  simp only [List.any_eq_true, Bool.and_eq_true, Option.isNone_iff_eq_none, hcol.items]
  constructor
  · rintro ⟨⟨start, rule, k⟩, ⟨hi, -⟩, hnone, hnull⟩
    dsimp only at hnone
    subst hnone
    obtain rfl : start = 0 := hi.start_eq_zero rfl
    exact ⟨k, hnull, hi⟩
  · rintro ⟨k, hnull, hi⟩
    exact ⟨_, ⟨hi, Or.inl rfl⟩, rfl, hnull⟩

end TraitLift.Grammar
