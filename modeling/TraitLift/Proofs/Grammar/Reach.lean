import Mathlib.Tactic
import TraitLift.Grammar.Chart
import TraitLift.Proofs.Grammar.Reads

/-!
Which items can be under way at a position. `Reach` is the rule system behind charts: an item begins a
rule that another one waits for, reads a token, or goes on after a rule that has ended. Main
statements: an item is under way at the end of a sequence exactly if the sequence can be extended to
a sentence (`extendable_take_iff`), and a whole sentence ends an item that began with it
(`derives_iff_reach`).
-/

namespace TraitLift.Grammar

variable {α τ ν : Type}

/-! ### Ranges of tokens -/

/-- The tokens from position `i` up to position `j`. -/
def range (ts : List α) (i j : Nat) : List α := (ts.take j).drop i

theorem range_self (ts : List α) (i : Nat) : range ts i i = [] := by
  simp [range]

theorem range_zero (ts : List α) (j : Nat) : range ts 0 j = ts.take j := rfl

theorem range_append (ts : List α) {i j k : Nat} (hij : i ≤ j) (hjk : j ≤ k) :
    range ts i j ++ range ts j k = range ts i k := by
  have htake : ts.take k = ts.take j ++ range ts j k := by
    conv_lhs => rw [← List.take_append_drop j (ts.take k), List.take_take, Nat.min_eq_left hjk]
    rfl
  by_cases hj : j ≤ ts.length
  · have hle : i ≤ (ts.take j).length := by
      rw [List.length_take_of_le hj]
      exact hij
    conv_rhs => rw [range, htake, List.drop_append_of_le_length hle]
    rfl
  · -- past the end there is nothing to add
    have hnil : range ts j k = [] := by
      rw [range, List.drop_eq_nil_iff, List.length_take]
      omega
    rw [hnil, List.append_nil, range, range, List.take_of_length_le (by omega),
      List.take_of_length_le (by omega)]

theorem range_succ {ts : List α} {j : Nat} {t : α} (h : ts[j]? = some t) :
    range ts j (j + 1) = [t] := by
  obtain ⟨hj, rfl⟩ := List.getElem?_eq_some_iff.1 h
  rw [range, List.take_succ_eq_append_getElem hj, List.drop_append_of_le_length (by simp; omega)]
  simp

theorem length_range {ts : List α} {i j : Nat} (hj : j ≤ ts.length) :
    (range ts i j).length = j - i := by
  simp [range, Nat.min_eq_left hj]

/-- A range that starts with some tokens is cut after them. -/
theorem range_eq_append {ts u v : List α} {i j : Nat} (hj : j ≤ ts.length) (hij : i ≤ j)
    (h : range ts i j = u ++ v) :
    i + u.length ≤ j ∧ range ts i (i + u.length) = u ∧ range ts (i + u.length) j = v := by
  have hlength := congrArg List.length h
  rw [length_range hj, List.length_append] at hlength
  have hle : i + u.length ≤ j := by omega
  rw [← range_append ts (Nat.le_add_right i u.length) hle] at h
  obtain ⟨hu, hv⟩ := List.append_inj h (by rw [length_range (by omega)]; omega)
  exact ⟨hle, hu, hv⟩

/-! ### Grammars that charts work for -/

/-- No rule derives the empty sequence, every rule derives some sequence, and every class has a
token. -/
structure Proper (G : Grammar α τ ν) : Prop where
  listed : ∀ r, r ∈ G.rules
  solid : ∀ r, (G.body r).nullable = false
  productive : ∀ r, ∃ w, G.Derives (G.body r) w
  inhabited : ∀ c, ∃ t, G.accepts c t

variable {G : Grammar α τ ν}

theorem Proper.exists_derives (hG : G.Proper) : ∀ e : Expr τ ν, ∃ w, G.Derives e w
  | .empty => ⟨[], .empty⟩
  | .tok c => (hG.inhabited c).elim fun t ht => ⟨[t], .tok ht⟩
  | .rule r => (hG.productive r).elim fun w hw => ⟨w, .rule hw⟩
  | .seq a b => by
    obtain ⟨u, hu⟩ := hG.exists_derives a
    obtain ⟨v, hv⟩ := hG.exists_derives b
    exact ⟨u ++ v, .seq hu hv⟩
  | .alt a b => (hG.exists_derives a).elim fun w hw => ⟨w, .altLeft hw⟩
  | .star a => ⟨[], .starNil⟩

theorem Proper.exists_reads (hG : G.Proper) : ∀ k : List (Expr τ ν), ∃ w, Reads G k w
  | [] => ⟨[], .done rfl⟩
  | e :: k => by
    obtain ⟨u, hu⟩ := hG.exists_derives e
    obtain ⟨v, hv⟩ := hG.exists_reads k
    exact ⟨u ++ v, hu.reads.append hv⟩

/-- Whether some sentence derived from `e` begins with `w`. -/
def Extendable (G : Grammar α τ ν) (e : Expr τ ν) (w : List α) : Prop := ∃ v, G.Derives e (w ++ v)

/-- Fewer tokens can be extended, too. -/
theorem Extendable.take_of_le {e : Expr τ ν} {ts : List α} {i j : Nat} (hij : i ≤ j)
    (h : G.Extendable e (ts.take j)) : G.Extendable e (ts.take i) := by
  obtain ⟨v, hv⟩ := h
  rw [← range_zero, ← range_append ts (Nat.zero_le i) hij, List.append_assoc] at hv
  exact ⟨_, hv⟩

theorem Extendable.take {e : Expr τ ν} {ts : List α} (h : G.Extendable e ts) (i : Nat) :
    G.Extendable e (ts.take i) := by
  obtain ⟨v, hv⟩ := h
  rw [← List.take_append_drop i ts, List.append_assoc] at hv
  exact ⟨_, hv⟩

theorem Derives.extendable {e : Expr τ ν} {ts : List α} (h : G.Derives e ts) :
    G.Extendable e ts :=
  ⟨[], by rwa [List.append_nil]⟩

/-! ### Items under way -/

/-- `Reach G e ts j i`: the item `i` can be under way at position `j` of `ts`, if what is read is to
be derived from `e`. -/
inductive Reach (G : Grammar α τ ν) (e : Expr τ ν) (ts : List α) : Nat → Item τ ν → Prop
  | first : Reach G e ts 0 ⟨0, none, [e]⟩
  | predict {j i r k} : Reach G e ts j i → (.rule r, k) ∈ stepsRest i.rest →
      Reach G e ts j (G.begin j r)
  | scan {j i c k t} : Reach G e ts j i → (.tok c, k) ∈ stepsRest i.rest → ts[j]? = some t →
      G.accepts c t → Reach G e ts (j + 1) { i with rest := k }
  | complete {j i f r k} : Reach G e ts j f → f.rule = some r → nullableRest f.rest →
      Reach G e ts f.start i → (.rule r, k) ∈ stepsRest i.rest →
      Reach G e ts j { i with rest := k }

/-- What an item reads in the end. -/
def Item.goal (G : Grammar α τ ν) (e : Expr τ ν) (i : Item τ ν) : Expr τ ν :=
  match i.rule with
  | none => e
  | some r => G.body r

variable {e : Expr τ ν} {ts : List α} {j : Nat} {i : Item τ ν}

namespace Reach

theorem start_le (h : Reach G e ts j i) : i.start ≤ j := by
  induction h with
  | first => exact Nat.le_refl _
  | predict => exact Nat.le_refl _
  | scan _ _ _ _ ih => exact Nat.le_succ_of_le ih
  | complete _ _ _ _ _ ihf ihi => exact Nat.le_trans ihi ihf

theorem le_length (h : Reach G e ts j i) : j ≤ ts.length := by
  induction h with
  | first => exact Nat.zero_le _
  | predict _ _ ih => exact ih
  | scan _ _ ht _ _ => exact (List.getElem?_eq_some_iff.1 ht).1
  | complete _ _ _ _ _ ihf _ => exact ihf

theorem start_eq_zero (h : Reach G e ts j i) : i.rule = none → i.start = 0 := by
  induction h with
  | first => exact fun _ => rfl
  | predict => simp [Grammar.begin]
  | scan _ _ _ _ ih => exact ih
  | complete _ _ _ _ _ _ ihi => exact ihi

theorem rest_mem (h : Reach G e ts j i) : i.rest ∈ (i.goal G e).rests := by
  induction h with
  | first => exact List.mem_cons_self ..
  | predict => exact List.mem_cons_self ..
  | scan _ hs _ _ ih => exact Expr.mem_rests_of_mem_stepsRest ih hs
  | complete _ _ _ _ hs _ ihi => exact Expr.mem_rests_of_mem_stepsRest ihi hs

/-- An item has read what stands between its start and its position. -/
theorem reads (h : Reach G e ts j i) :
    ∀ {v}, Reads G i.rest v → Reads G [i.goal G e] (range ts i.start j ++ v) := by
  induction h with
  | first =>
    intro v hv
    rw [range_self]
    exact hv
  | predict =>
    intro v hv
    rw [Grammar.begin, range_self]
    exact hv
  | @scan j i c k t hi hs ht hc ih =>
    intro v hv
    have hread := ih (.token hs hc hv)
    rw [← range_append ts hi.start_le (Nat.le_succ j), range_succ ht, List.append_assoc]
    exact hread
  | @complete j i f r k hf hr hnull hi hs ihf ihi =>
    intro v hv
    have hbody := ihf (.done hnull)
    rw [List.append_nil, Item.goal, hr] at hbody
    have hread := ihi (.rule hs hbody hv)
    rw [← range_append ts hi.start_le hf.start_le, List.append_assoc]
    exact hread

theorem reads_range (h : Reach G e ts j i) (hnull : nullableRest i.rest) :
    Reads G [i.goal G e] (range ts i.start j) := by
  have hread := h.reads (.done hnull)
  rwa [List.append_nil] at hread

/-- A rule that ends has read something. -/
theorem start_lt (hG : G.Proper) {r : ν} (h : Reach G e ts j i) (hr : i.rule = some r)
    (hnull : nullableRest i.rest) : i.start < j := by
  have hread := h.reads_range hnull
  rw [Item.goal, hr] at hread
  refine lt_of_le_of_ne h.start_le fun heq => ?_
  rw [heq, range_self] at hread
  exact hread.ne_nil_of_body hG.solid rfl

/-- An item has just begun its rule, or it has read something, or it reads the whole sentence. -/
theorem begun_or (hG : G.Proper) (h : Reach G e ts j i) :
    (∃ r, i = G.begin j r) ∨ i.rule = none ∨ i.start < j := by
  cases h with
  | first => exact Or.inr (Or.inl rfl)
  | predict => exact Or.inl ⟨_, rfl⟩
  | scan hi => exact Or.inr (Or.inr (Nat.lt_succ_of_le hi.start_le))
  | complete hf hr hnull hi =>
    exact Or.inr (Or.inr (Nat.lt_of_le_of_lt hi.start_le (hf.start_lt hG hr hnull)))

/-- Whatever an item can still read belongs to the beginning of some sentence. -/
theorem viable (hG : G.Proper) (h : Reach G e ts j i) :
    ∀ {w}, Reads G i.rest w → ∃ v, Reads G [e] (ts.take j ++ (w ++ v)) := by
  induction h with
  | first =>
    intro w hw
    exact ⟨[], by simpa using hw⟩
  | @predict j i r k _ hs ih =>
    -- the item that waits for the rule has to read on after it
    intro w hw
    obtain ⟨w', hw'⟩ := hG.exists_reads k
    obtain ⟨v, hv⟩ := ih (.rule hs hw hw')
    exact ⟨w' ++ v, by rwa [List.append_assoc] at hv⟩
  | @scan j i c k t _ hs ht hc ih =>
    intro w hw
    obtain ⟨v, hv⟩ := ih (.token hs hc hw)
    refine ⟨v, ?_⟩
    rw [← range_zero, ← range_append ts (Nat.zero_le j) (Nat.le_succ j), range_succ ht, range_zero,
      List.append_assoc]
    exact hv
  | @complete j i f r k hf hr hnull _ hs _ ihi =>
    intro w hw
    have hbody := hf.reads_range hnull
    rw [Item.goal, hr] at hbody
    obtain ⟨v, hv⟩ := ihi (.rule hs hbody hw)
    refine ⟨v, ?_⟩
    rw [← range_zero, ← range_append ts (Nat.zero_le _) hf.start_le, range_zero, List.append_assoc]
    rwa [List.append_assoc] at hv

/-- What is under way at a position depends on the tokens before it only. -/
theorem congr {ts' : List α} (h : Reach G e ts j i) : ts.take j = ts'.take j →
    j ≤ ts'.length → Reach G e ts' j i := by
  induction h with
  | first => exact fun _ _ => .first
  | predict _ hs ih => exact fun heq hle => .predict (ih heq hle) hs
  | @scan j i c k t _ hs ht hc ih =>
    intro heq hle
    have hprefix : ts.take j = ts'.take j := by
      have hprefix := congrArg (List.take j) heq
      rwa [List.take_take, List.take_take, Nat.min_eq_left (Nat.le_succ j)] at hprefix
    have hget : ts'[j]? = some t := by
      rw [← List.getElem?_take_of_lt (Nat.lt_succ_self j), ← heq,
        List.getElem?_take_of_lt (Nat.lt_succ_self j), ht]
    exact .scan (ih hprefix (Nat.le_of_succ_le hle)) hs hget hc
  | @complete j i f r k hf hr hnull _ hs ihf ihi =>
    intro heq hle
    refine .complete (ihf heq hle) hr hnull (ihi ?_ (Nat.le_trans hf.start_le hle)) hs
    have hprefix := congrArg (List.take f.start) heq
    rwa [List.take_take, List.take_take, Nat.min_eq_left hf.start_le] at hprefix

/-- Nothing is under way after a token that no item can read. -/
theorem exists_scan (h : Reach G e ts j i) : ∀ {m}, j = m + 1 →
    ∃ i c k t, Reach G e ts m i ∧ (.tok c, k) ∈ stepsRest i.rest ∧ ts[m]? = some t ∧
      G.accepts c t := by
  induction h with
  | first => intro m hm; omega
  | predict _ _ ih => exact ih
  | @scan j i c k t hi hs ht hc _ =>
    intro m hm
    obtain rfl : j = m := by omega
    exact ⟨i, c, k, t, hi, hs, ht, hc⟩
  | complete _ _ _ _ _ ihf _ => exact ihf

theorem exists_of_le (h : Reach G e ts j i) : ∀ {m}, m ≤ j → ∃ i, Reach G e ts m i := by
  induction j generalizing i with
  | zero => exact fun hm => ⟨i, by rwa [Nat.le_zero.1 hm]⟩
  | succ j ih =>
    intro m hm
    rcases Nat.lt_or_eq_of_le hm with hm | rfl
    · obtain ⟨i', _, _, _, hi', _⟩ := h.exists_scan rfl
      exact ih hi' (Nat.lt_succ_iff.1 hm)
    · exact ⟨i, h⟩

end Reach

/-- What is read from the position of an item takes the item along. The induction is on the way of
reading, so a rule is begun, read and completed before what follows it is read. -/
theorem Reads.reach {k : List (Expr τ ν)} {w : List α} (h : Reads G k w) :
    ∀ {j l start rule}, Reach G e ts j ⟨start, rule, k⟩ → range ts j l = w → j ≤ l →
      l ≤ ts.length → ∃ m, nullableRest m ∧ Reach G e ts l ⟨start, rule, m⟩ := by
  induction h with
  | @done k hk =>
    intro j l start rule hi hw hjl hl
    have hlength := congrArg List.length hw
    rw [length_range hl, List.length_nil] at hlength
    obtain rfl : j = l := by omega
    exact ⟨k, hk, hi⟩
  | @token k m c t v hs hc _ ih =>
    intro j l start rule hi hw hjl hl
    obtain ⟨hle, ht, hv⟩ := range_eq_append (u := [t]) hl hjl hw
    have hj : j < ts.length := by
      rw [List.length_singleton] at hle
      omega
    have hget : ts[j]? = some t := by
      rw [List.getElem?_eq_getElem hj]
      have hone := range_succ (List.getElem?_eq_getElem hj)
      rw [List.length_singleton, hone, List.singleton_inj] at ht
      rw [ht]
    exact ih (.scan hi hs hget hc) hv hle hl
  | @rule k m r u v hs _ _ ihu ihv =>
    intro j l start rule hi hw hjl hl
    obtain ⟨hle, hu, hv⟩ := range_eq_append hl hjl hw
    obtain ⟨m', hnull, hf⟩ := ihu (.predict hi hs) hu (Nat.le_add_right ..) (Nat.le_trans hle hl)
    exact ihv (.complete hf rfl hnull hi hs) hv hle hl

/-- A sequence is a sentence exactly if at its end the item for the whole of it can end. -/
theorem derives_iff_reach : G.Derives e ts ↔
    ∃ k, nullableRest k ∧ Reach G e ts ts.length ⟨0, none, k⟩ := by
  rw [derives_iff_reads]
  constructor
  · intro h
    exact h.reach .first (by simp [range]) (Nat.zero_le _) (Nat.le_refl _)
  · rintro ⟨k, hnull, h⟩
    have hread := h.reads_range hnull
    simpa [range, Item.goal] using hread

/-- The first tokens of a sequence can be extended to a sentence exactly if after them some item is
under way. -/
theorem extendable_take_iff (hG : G.Proper) (hj : j ≤ ts.length) :
    G.Extendable e (ts.take j) ↔ ∃ i, Reach G e ts j i := by
  constructor
  · rintro ⟨v, hv⟩
    obtain ⟨k, -, hk⟩ := derives_iff_reach.1 hv
    have hlength : (ts.take j).length = j := List.length_take_of_le hj
    obtain ⟨i, hi⟩ := hk.exists_of_le (m := j) (by rw [List.length_append]; omega)
    refine ⟨i, hi.congr ?_ hj⟩
    rw [List.take_append_of_le_length (by omega), List.take_take, Nat.min_self]
  · rintro ⟨i, hi⟩
    obtain ⟨w, hw⟩ := hG.exists_reads i.rest
    obtain ⟨v, hv⟩ := hi.viable hG hw
    exact ⟨w ++ v, derives_iff_reads.2 hv⟩

end TraitLift.Grammar
