import Mathlib.Tactic
import TraitLift.Expand.Site
import TraitLift.Proofs.Grammar.Nesting
import TraitLift.Token.Lexer

/-!
Where an `impl` item ends. The scanner counts angle brackets and skips groups; the grammar derives a
header and a body. `implItem_of_derives` says that the two agree on every item the grammar derives:
the scanner takes it for an item and cuts it at its own closing brace, whatever follows.
-/

namespace TraitLift

open TraitLift.Grammar

/-! ### One token of a scan -/

theorem closeGroup_opener {closers : List Kind} {t : Token} {c : Kind} (h : t.kind.closer? = some c)
    (rest : List Token) : closeGroup closers (t :: rest) =
      (closeGroup (c :: closers) rest).map fun (g, after) => (t :: g, after) := by
  rw [closeGroup.eq_def]
  simp only [h]

theorem closeGroup_closer {outer : List Kind} {t : Token} (h : t.kind.isCloser)
    (rest : List Token) : closeGroup (t.kind :: outer) (t :: rest) =
      if outer.isEmpty then some ([t], rest)
      else (closeGroup outer rest).map fun (g, after) => (t :: g, after) := by
  have hopen : t.kind.closer? = none := by
    cases hk : t.kind <;> simp_all [Kind.isCloser, Kind.closer?]
  rw [closeGroup, hopen]
  simp only [h, if_true, ne_eq, not_true_eq_false, if_false]

theorem closeGroup_other {closers : List Kind} {t : Token} (hopen : t.kind.closer? = none)
    (hclose : t.kind.isCloser = false) (rest : List Token) : closeGroup closers (t :: rest) =
      (closeGroup closers rest).map fun (g, after) => (t :: g, after) := by
  rw [closeGroup.eq_def]
  simp only [hopen, hclose, Bool.false_eq_true, if_false]

section

variable {angles : Int} {t : Token}

theorem implItem?_lt (h : t.kind = .lt) (rest : List Token) :
    implItem? angles (t :: rest) = implItem?.prepend (implItem? (angles + 1) rest) [t] := by
  rw [implItem?]
  simp [Token.is, h]

theorem implItem?_gt (h : t.kind = .gt) (rest : List Token) :
    implItem? angles (t :: rest) = implItem?.prepend (implItem? (angles - 1) rest) [t] := by
  rw [implItem?]
  simp [Token.is, h]

theorem implItem?_body (h : t.kind = .lbrace) (hangles : angles ≤ 0) (rest : List Token) :
    implItem? angles (t :: rest) = group? (t :: rest) := by
  rw [implItem?]
  simp [Token.is, h, hangles]

theorem implItem?_group (h : t.kind.closer?.isSome) (hbrace : t.kind = .lbrace → ¬ angles ≤ 0)
    (rest : List Token) : implItem? angles (t :: rest) = (group? (t :: rest)).bind
      fun (g, after) => implItem?.prepend (implItem? angles after) g := by
  have hlt : t.kind ≠ .lt := by
    intro heq
    simp [heq, Kind.closer?] at h
  have hgt : t.kind ≠ .gt := by
    intro heq
    simp [heq, Kind.closer?] at h
  have hbody : ¬ (t.kind = .lbrace ∧ angles ≤ 0) := fun hb => hbrace hb.1 hb.2
  rw [implItem?]
  simp only [Token.is, beq_iff_eq, hlt, hgt, Bool.and_eq_true, decide_eq_true_eq, hbody, h, if_false,
    if_true]
  split <;> simp_all

theorem implItem?_other (hopen : t.kind.closer? = none) (hlt : t.kind ≠ .lt) (hgt : t.kind ≠ .gt)
    (hstop : t.kind ≠ .semi ∧ t.kind ≠ .rbrace) (rest : List Token) :
    implItem? angles (t :: rest) = implItem?.prepend (implItem? angles rest) [t] := by
  have hbody : t.kind ≠ .lbrace := by
    intro heq
    simp [heq, Kind.closer?] at hopen
  rw [implItem?]
  simp [Token.is, hlt, hgt, hbody, hopen, hstop]

end

/-! ### Walks and groups -/

/-- What one more token does to the open brackets, where no angle brackets count. -/
theorem nest_inside {z : Zone} {r r' : List Kind} {k : Kind} (hz : z.within r = .inside)
    (h : nest z r k = some r') :
    (∃ c, k.closer? = some c ∧ r' = c :: r) ∨
    (k.closer? = none ∧ k.isCloser ∧ r = k :: r') ∨
    (k.closer? = none ∧ k.isCloser = false ∧ r' = r) := by
  unfold nest at h
  cases hk : k.closer? with
  | some c =>
    simp only [hk, Option.some.injEq] at h
    exact Or.inl ⟨c, rfl, h.symm⟩
  | none =>
    simp only [hk, hz, if_true] at h
    cases hc : k.isCloser with
    | false =>
      simp only [hc, Bool.false_eq_true, if_false, Option.some.injEq] at h
      exact Or.inr (Or.inr ⟨rfl, rfl, h.symm⟩)
    | true =>
      simp only [hc, if_true] at h
      cases r with
      | nil => simp [nest.close] at h
      | cons c r =>
        simp only [nest.close] at h
        split at h
        · next heq => exact Or.inr (Or.inl ⟨rfl, rfl, by rw [heq, Option.some.inj h]⟩)
        · simp at h

theorem isCloser_of_closer? {k c : Kind} (h : k.closer? = some c) : c.isCloser := by
  cases k <;> simp_all [Kind.closer?] <;> subst h <;> rfl

theorem within_inside {r : List Kind} (hr : ∀ c ∈ r, c.isCloser) (hne : r ≠ []) (z : Zone)
    (o : List Kind) : z.within (r ++ o) = .inside := by
  cases r with
  | nil => exact absurd rfl hne
  | cons c r =>
    have hangle : c ≠ .gt := by
      rintro rfl
      exact absurd (hr .gt List.mem_cons_self) (by decide)
    rw [List.cons_append, Zone.within]
    exact hangle

theorem step_eq_amid {z : Zone} {opened opened' : List Kind} {bang bang' : Bool} {t : Token}
    (h : (Walk.amid opened bang).step z t = .amid opened' bang') :
    nest z opened t.kind = some opened' ∧ ¬ (z.within opened = .bare ∧ t.kind = .lbrace) := by
  simp only [Walk.step] at h
  split_ifs at h with hbare
  split at h
  · next hnest =>
    obtain ⟨rfl, -⟩ := Walk.amid.inj h
    exact ⟨hnest, hbare⟩
  · simp at h

/-- A walk that stays somewhere went through its tokens one by one. -/
theorem walk_cons_eq_amid {z : Zone} {opened opened' : List Kind} {bang bang' : Bool} {t : Token}
    {ts : List Token} (h : walk z (.amid opened bang) (t :: ts) = .amid opened' bang') :
    ∃ o b, (Walk.amid opened bang).step z t = .amid o b ∧
      walk z (.amid o b) ts = .amid opened' bang' := by
  rw [walk_cons] at h
  cases hstep : (Walk.amid opened bang).step z t with
  | lost =>
    rw [hstep, walk_lost] at h
    exact absurd h (by simp)
  | exposed =>
    rw [hstep, walk_exposed] at h
    exact absurd h (by simp)
  | amid o b => exact ⟨o, b, rfl, hstep ▸ h⟩

/-- Closing a group goes through a walk that closes no bracket around it. -/
theorem closeGroup_walk {c : Kind} {outer : List Kind} : ∀ {w : List Token} {r r' : List Kind}
    {bang bang' : Bool}, (∀ c ∈ r, c.isCloser) → walk .inside (.amid r bang) w = .amid r' bang' →
    ∀ rest, closeGroup (r ++ c :: outer) (w ++ rest) =
      (closeGroup (r' ++ c :: outer) rest).map fun (g, after) => (w ++ g, after)
  | [], r, r', bang, bang', _, h, rest => by
    obtain ⟨rfl, -⟩ := Walk.amid.inj h
    simp
  | t :: w, r, r', bang, bang', hr, h, rest => by
    obtain ⟨o, b, hstep, hwalk⟩ := walk_cons_eq_amid h
    have hz : Zone.inside.within r = .inside := by
      cases r with
      | nil => rfl
      | cons d r => simpa using within_inside hr (by simp) .inside []
    have htail : ∀ x : Option (List Token × List Token),
        (x.map fun (g, after) => (w ++ g, after)).map (fun (g, after) => (t :: g, after)) =
          x.map fun (g, after) => (t :: w ++ g, after) := by
      intro x
      cases x <;> rfl
    rcases nest_inside hz (step_eq_amid hstep).1 with
      ⟨d, hd, rfl⟩ | ⟨hopen, hclose, rfl⟩ | ⟨hopen, hclose, rfl⟩
    · have hr' : ∀ c ∈ d :: r, c.isCloser := List.forall_mem_cons.2 ⟨isCloser_of_closer? hd, hr⟩
      rw [List.cons_append, closeGroup_opener hd, ← List.cons_append, closeGroup_walk hr' hwalk, htail]
    · have hr' : ∀ c ∈ o, c.isCloser := fun c hc => hr c (List.mem_cons_of_mem _ hc)
      rw [List.cons_append, List.cons_append, closeGroup_closer hclose, if_neg (by simp),
        closeGroup_walk hr' hwalk, htail]
    · rw [List.cons_append, closeGroup_other hopen hclose, closeGroup_walk hr hwalk, htail]

/-! ### Walks and items -/

/-- The scan of an item with `angles` angle brackets open, interrupted within a group of which the
brackets `groups` are open. -/
def resume (groups : List Kind) (angles : Nat) (ts : List Token) :
    Option (List Token × List Token) :=
  if groups.isEmpty then implItem? angles ts
  else (closeGroup groups ts).bind fun (g, after) => implItem?.prepend (implItem? angles after) g

theorem prepend_prepend (x : Option (List Token × List Token)) (u v : List Token) :
    implItem?.prepend (implItem?.prepend x v) u = implItem?.prepend x (u ++ v) := by
  cases x <;> simp [implItem?.prepend]

/-- The open brackets as the scanner keeps them: groups within angle brackets. -/
def openBrackets (groups : List Kind) (angles : Nat) : List Kind :=
  groups ++ List.replicate angles Kind.gt

theorem resume_nil (angles : Nat) (ts : List Token) : resume [] angles ts = implItem? angles ts := rfl

theorem resume_cons (c : Kind) (groups : List Kind) (angles : Nat) (ts : List Token) :
    resume (c :: groups) angles ts = (closeGroup (c :: groups) ts).bind
      fun (g, after) => implItem?.prepend (implItem? angles after) g := rfl

/-- A group is closed first and the item scanned after it, wherever the group is interrupted. -/
theorem bind_closeGroup_cons (t : Token) (groups : List Kind) (angles : Nat) (rest : List Token)
    (hne : groups ≠ []) :
    (((closeGroup groups rest).map fun (g, after) => (t :: g, after)).bind
      fun (g, after) => implItem?.prepend (implItem? angles after) g) =
      implItem?.prepend (resume groups angles rest) [t] := by
  obtain ⟨c, groups, rfl⟩ := List.exists_cons_of_ne_nil hne
  rw [resume_cons]
  cases closeGroup (c :: groups) rest with
  | none => rfl
  | some p => simp [prepend_prepend]

theorem resume_opener {groups : List Kind} {angles : Nat} {t : Token} {c : Kind}
    (hc : t.kind.closer? = some c)
    (hbare : ¬ (Zone.bare.within (openBrackets groups angles) = .bare ∧ t.kind = .lbrace))
    (rest : List Token) :
    resume groups angles (t :: rest) = implItem?.prepend (resume (c :: groups) angles rest) [t] := by
  cases groups with
  | nil =>
    have hangles : t.kind = .lbrace → ¬ (angles : Int) ≤ 0 := by
      intro hbrace hle
      obtain rfl : angles = 0 := by omega
      exact hbare ⟨rfl, hbrace⟩
    rw [resume_nil, implItem?_group (by rw [hc]; rfl) hangles, group?, closeGroup_opener hc,
      bind_closeGroup_cons t _ _ _ (by simp)]
  | cons b groups => rw [resume_cons, closeGroup_opener hc, bind_closeGroup_cons t _ _ _ (by simp)]

theorem resume_inside {c : Kind} {groups opened : List Kind} {angles : Nat}
    (hgroups : ∀ d ∈ c :: groups, d.isCloser) {t : Token} (hopen : t.kind.closer? = none)
    (h : nest .bare (openBrackets (c :: groups) angles) t.kind = some opened) :
    ∃ groups', opened = openBrackets groups' angles ∧ (∀ d ∈ groups', d.isCloser) ∧
      ∀ rest, resume (c :: groups) angles (t :: rest) =
        implItem?.prepend (resume groups' angles rest) [t] := by
  have hz : Zone.bare.within (openBrackets (c :: groups) angles) = .inside :=
    within_inside hgroups (by simp) .bare _
  rcases nest_inside hz h with ⟨d, hd, -⟩ | ⟨-, hclose, hcons⟩ | ⟨-, hclose, hopened⟩
  · rw [hopen] at hd
    exact absurd hd (by simp)
  · obtain ⟨rfl, hopened⟩ := List.cons.inj hcons
    refine ⟨groups, hopened.symm, fun d hd => hgroups d (List.mem_cons_of_mem _ hd), fun rest => ?_⟩
    rw [resume_cons, closeGroup_closer hclose]
    cases groups with
    | nil => rfl
    | cons b groups => rw [if_neg (by simp), bind_closeGroup_cons t _ _ _ (by simp)]
  · refine ⟨c :: groups, hopened, hgroups, fun rest => ?_⟩
    rw [resume_cons, closeGroup_other hopen hclose, bind_closeGroup_cons t _ _ _ (by simp)]

theorem resume_outside {opened : List Kind} {angles : Nat} {t : Token}
    (hopen : t.kind.closer? = none) (h : nest .bare (openBrackets [] angles) t.kind = some opened) :
    ∃ angles', opened = openBrackets [] angles' ∧
      ∀ rest, resume [] angles (t :: rest) = implItem?.prepend (resume [] angles' rest) [t] := by
  have hz : Zone.bare.within (openBrackets [] angles) ≠ .inside := by
    cases angles <;> simp [openBrackets, Zone.within, List.replicate_succ]
  simp only [nest, hopen, hz, if_false] at h
  split_ifs at h with hlt hgt hstop
  · obtain rfl := Option.some.inj h
    exact ⟨angles + 1, rfl, fun rest => by rw [resume_nil, implItem?_lt hlt]; rfl⟩
  · cases angles with
    | zero => simp [openBrackets, nest.close] at h
    | succ n =>
      have hopened : opened = openBrackets [] n := by
        simpa [openBrackets, List.replicate_succ, nest.close, hgt, eq_comm] using h
      refine ⟨n, hopened, fun rest => ?_⟩
      rw [resume_nil, implItem?_gt hgt, resume_nil, Nat.cast_succ, add_sub_cancel_right]
  · obtain rfl := Option.some.inj h
    rw [Bool.or_eq_true, not_or] at hstop
    have hsemi : t.kind ≠ .semi := by simpa using hstop.2
    have hbrace : t.kind ≠ .rbrace := by
      intro heq
      rw [heq] at hstop
      exact hstop.1 rfl
    refine ⟨angles, rfl, fun rest => ?_⟩
    rw [resume_nil, implItem?_other hopen hlt hgt ⟨hsemi, hbrace⟩]
    rfl

/-- One token of a walk outside all brackets is one step of the scan. -/
theorem resume_step {groups : List Kind} {angles : Nat} (hgroups : ∀ c ∈ groups, c.isCloser)
    {t : Token} {opened : List Kind} {bang bang' : Bool}
    (h : (Walk.amid (openBrackets groups angles) bang).step .bare t = .amid opened bang') :
    ∃ groups' angles', opened = openBrackets groups' angles' ∧ (∀ c ∈ groups', c.isCloser) ∧
      ∀ rest, resume groups angles (t :: rest) = implItem?.prepend (resume groups' angles' rest) [t] := by
  obtain ⟨hnest, hbare⟩ := step_eq_amid h
  cases hopen : t.kind.closer? with
  | some c =>
    have hopened : opened = c :: openBrackets groups angles := by
      simp only [nest, hopen, Option.some.injEq] at hnest
      exact hnest.symm
    exact ⟨c :: groups, angles, hopened,
      List.forall_mem_cons.2 ⟨isCloser_of_closer? hopen, hgroups⟩, resume_opener hopen hbare⟩
  | none =>
    cases groups with
    | nil =>
      obtain ⟨angles', hopened, hresume⟩ := resume_outside hopen hnest
      exact ⟨[], angles', hopened, by simp, hresume⟩
    | cons c groups =>
      obtain ⟨groups', hopened, hgroups', hresume⟩ := resume_inside hgroups hopen hnest
      exact ⟨groups', angles, hopened, hgroups', hresume⟩

/-- The scan of an item goes through whatever a walk goes through. -/
theorem resume_walk : ∀ {w : List Token} {groups opened : List Kind} {angles : Nat}
    {bang bang' : Bool}, (∀ c ∈ groups, c.isCloser) →
    walk .bare (.amid (openBrackets groups angles) bang) w = .amid opened bang' →
    ∃ groups' angles', opened = openBrackets groups' angles' ∧
      ∀ rest, resume groups angles (w ++ rest) = implItem?.prepend (resume groups' angles' rest) w
  | [], groups, opened, angles, bang, bang', _, h => by
    obtain ⟨rfl, -⟩ := Walk.amid.inj h
    refine ⟨groups, angles, rfl, fun rest => ?_⟩
    cases hr : resume groups angles rest <;> simp [implItem?.prepend, hr]
  | t :: w, groups, opened, angles, bang, bang', hgroups, h => by
    obtain ⟨o, b, hstep, hwalk⟩ := walk_cons_eq_amid h
    obtain ⟨groups₁, angles₁, rfl, hgroups₁, hfirst⟩ := resume_step hgroups hstep
    obtain ⟨groups', angles', hopened, hrest⟩ := resume_walk hgroups₁ hwalk
    refine ⟨groups', angles', hopened, fun rest => ?_⟩
    rw [List.cons_append, hfirst, hrest, prepend_prepend]
    rfl

/-- A header that opens and closes its brackets is passed over. -/
theorem implItem?_header {header : List Token} {bang bang' : Bool}
    (h : walk .bare (.amid [] bang) header = .amid [] bang') (rest : List Token) :
    implItem? 0 (header ++ rest) = implItem?.prepend (implItem? 0 rest) header := by
  have hstart : walk .bare (.amid (openBrackets [] 0) bang) header = .amid [] bang' := h
  obtain ⟨groups, angles, hopened, hresume⟩ := resume_walk (by simp) hstart
  obtain ⟨rfl, hangles⟩ := List.append_eq_nil_iff.1 hopened.symm
  obtain rfl : angles = 0 := by simpa using hangles
  exact hresume rest

/-! ### The header and the body -/

/-- The header of an item: all that stands in front of its body, without attributes. -/
def implHeader : Syn :=
  Expr.all [Expr.opt (Syn.use .marker), Expr.opt (Syn.k .kwUnsafe), Syn.k .kwImpl,
    Expr.opt (Syn.use .generics), Expr.any [Syn.use .inherentTarget, Syn.use .traitTarget],
    Expr.opt (Syn.use .whereClause)]

section

variable {a b : Syn} {w : List Token}

theorem derives_seq_iff : rust.Derives (.seq a b) w ↔
    ∃ u v, w = u ++ v ∧ rust.Derives a u ∧ rust.Derives b v := by
  constructor
  · intro h
    cases h with
    | seq ha hb => exact ⟨_, _, rfl, ha, hb⟩
  · rintro ⟨u, v, rfl, ha, hb⟩
    exact .seq ha hb

theorem derives_opt_iff : rust.Derives (Expr.opt a) w ↔ w = [] ∨ rust.Derives a w := by
  constructor
  · intro h
    cases h with
    | altLeft h => exact Or.inr h
    | altRight h =>
      cases h
      exact Or.inl rfl
  · rintro (rfl | h)
    · exact .altRight .empty
    · exact .altLeft h

theorem derives_k_iff {k : Kind} : rust.Derives (Syn.k k) w ↔ ∃ t, w = [t] ∧ t.kind = k := by
  constructor
  · intro h
    cases h with
    | @tok c t h =>
      have hkind : (k == t.kind) = true := h
      exact ⟨t, rfl, (eq_of_beq hkind).symm⟩
  · rintro ⟨t, rfl, rfl⟩
    exact .tok (beq_self_eq_true t.kind)

theorem derives_use_iff {r : Rule} : rust.Derives (Syn.use r) w ↔ rust.Derives (ruleBody r) w := by
  constructor
  · intro h
    cases h with
    | rule h => exact h
  · exact .rule

end

theorem isImplHead_of_derives {header : List Token} (h : rust.Derives implHeader header)
    (hlead : ∀ t ∈ header.head?, t.kind = .name → t.text = "default") (rest : List Token) :
    isImplHead (header ++ rest) := by
  obtain ⟨m, _, rfl, hm, h⟩ := derives_seq_iff.1 h
  obtain ⟨u, _, rfl, hu, h⟩ := derives_seq_iff.1 h
  obtain ⟨i, _, rfl, hi, -⟩ := derives_seq_iff.1 h
  obtain ⟨ti, rfl, hti⟩ := derives_k_iff.1 hi
  rw [derives_opt_iff, derives_use_iff] at hm
  rw [derives_opt_iff, derives_k_iff] at hu
  rcases hm with rfl | hm
  · rcases hu with rfl | ⟨tu, rfl, htu⟩
    · simp [isImplHead, Token.is, hti]
    · simp [isImplHead, Token.is, hti, htu]
  · obtain ⟨tm, rfl, htm⟩ := derives_k_iff.1 hm
    have htext : tm.text = "default" := hlead tm rfl htm
    rcases hu with rfl | ⟨tu, rfl, htu⟩
    · simp [isImplHead, Token.is, hti, htm, htext]
    · simp [isImplHead, Token.is, hti, htu, htm, htext]

theorem walk_ne_exposed {z : Zone} (hz : z ≠ .bare) : ∀ {w : List Token} {s : Walk},
    s ≠ .exposed → walk z s w ≠ .exposed
  | [], _, hs => hs
  | t :: w, s, hs => by
    refine walk_ne_exposed (w := w) hz ?_
    cases s with
    | lost => exact hs
    | exposed => exact hs
    | amid opened bang =>
      have hbare : z.within opened ≠ .bare := by
        cases opened with
        | nil => exact hz
        | cons k opened => cases k <;> simp [Zone.within]
      rw [Walk.step, if_neg (fun h => hbare h.1)]
      cases nest z opened t.kind <;> simp

/-- Closing a group goes through what is derived within it. -/
theorem closeGroup_of_derives {inner : Syn}
    (htrack : Syn.track calm .inside inner (some ([], false)) = some (some ([], false)))
    {x : List Token} (hx : rust.Derives inner x) (c : Kind) (outer : List Kind) (rest : List Token) :
    closeGroup (c :: outer) (x ++ rest) =
      (closeGroup (c :: outer) rest).map fun (g, after) => (x ++ g, after) := by
  have hstart : (Walk.amid [] false).Meets (some ([], false)) := ⟨rfl, fun h => h⟩
  have hmeets := meets_of_derives isCalm_calm hx hstart htrack
  rcases hmeets.eq_or_exists with hexposed | ⟨opened, bang, _, hwalk, hsome, -⟩
  · exact absurd hexposed (walk_ne_exposed (by decide) (by simp))
  obtain ⟨rfl, -⟩ := Prod.mk.inj (Option.some.inj hsome)
  exact closeGroup_walk (r := []) (by simp) hwalk rest

/-- What is derived between a bracket and the one that closes it makes a group with the two. -/
theorem group?_of_inner {o c : Kind} (hc : o.closer? = some c) {inner : Syn}
    (htrack : Syn.track calm .inside inner (some ([], false)) = some (some ([], false)))
    {t t' : Token} {x : List Token} (ht : t.kind = o) (hx : rust.Derives inner x) (ht' : t'.kind = c)
    (after : List Token) : group? (t :: (x ++ t' :: after)) = some (t :: (x ++ [t']), after) := by
  have hlast : closeGroup [c] (t' :: after) = some ([t'], after) := by
    rw [← ht', closeGroup_closer (by rw [ht']; exact isCloser_of_closer? hc)]
    rfl
  rw [group?, closeGroup_opener (by rw [ht, hc]), closeGroup_of_derives htrack hx, hlast]
  rfl

/-- The body of a block is a group. -/
theorem group?_of_derives {body : List Token} (h : rust.Derives (Syn.use .implBody) body)
    (after : List Token) :
    ∃ t rest, body = t :: rest ∧ t.kind = .lbrace ∧ group? (body ++ after) = some (body, after) := by
  rw [derives_use_iff] at h
  obtain ⟨_, _, rfl, hopen, h⟩ := derives_seq_iff.1 h
  obtain ⟨x, _, rfl, hx, h⟩ := derives_seq_iff.1 h
  obtain ⟨y, _, rfl, hy, hclose⟩ := derives_seq_iff.1 h
  obtain ⟨t, rfl, ht⟩ := derives_k_iff.1 hopen
  obtain ⟨t', rfl, ht'⟩ := derives_k_iff.1 hclose
  have hgroup := group?_of_inner (o := .lbrace) rfl (by decide +kernel) ht (hx.seq hy) ht' after
  exact ⟨t, _, rfl, ht, by simpa using hgroup⟩

/-! ### Macros in braces -/

/-- The brackets that are open after some tokens, the innermost first. Angle brackets count outside
the others only. -/
def enclosing (ts : List Token) : List Kind :=
  ts.foldl (fun opened t => (nest .bare opened t.kind).getD opened) []

theorem enclosing_concat (ts : List Token) (t : Token) :
    enclosing (ts ++ [t]) = (nest .bare (enclosing ts) t.kind).getD (enclosing ts) :=
  List.foldl_concat ..

theorem walk_concat_eq_amid {z : Zone} {s : Walk} {ts : List Token} {t : Token} {opened : List Kind}
    {bang : Bool} (h : walk z s (ts ++ [t]) = .amid opened bang) :
    ∃ o b, walk z s ts = .amid o b ∧ nest z o t.kind = some opened ∧
      bang = decide (t.kind = .bang) := by
  rw [walk_append] at h
  cases hs : walk z s ts with
  | lost => simp [hs] at h
  | exposed => simp [hs] at h
  | amid o b =>
    rw [hs] at h
    have hstep : (Walk.amid o b).step z t = .amid opened bang := h
    refine ⟨o, b, rfl, (step_eq_amid hstep).1, ?_⟩
    simp only [Walk.step, if_neg (step_eq_amid hstep).2, (step_eq_amid hstep).1] at hstep
    exact (Walk.amid.inj hstep).2.symm

/-- A walk from outside all brackets keeps the brackets that enclose it. -/
theorem enclosing_of_walk {opened : List Kind} {bang : Bool} {ts : List Token}
    (h : walk .bare (.amid [] false) ts = .amid opened bang) : enclosing ts = opened := by
  induction ts using List.reverseRecOn generalizing opened bang with
  | nil => exact (Walk.amid.inj h).1
  | append_singleton ts t ih =>
    obtain ⟨o, b, hwalk, hnest, -⟩ := walk_concat_eq_amid h
    rw [enclosing_concat, ih hwalk, hnest, Option.getD_some]

theorem exists_of_step_exposed {z : Zone} {opened : List Kind} {bang : Bool} {t : Token}
    (h : (Walk.amid opened bang).step z t = .exposed) :
    z.within opened = .bare ∧ t.kind = .lbrace ∧ bang = true := by
  simp only [Walk.step] at h
  split_ifs at h with hbare hbang
  · exact ⟨hbare.1, hbare.2, hbang⟩
  · cases hnest : nest z opened t.kind <;> simp [hnest] at h

theorem nest_bang (z : Zone) (opened : List Kind) : nest z opened .bang = some opened := by
  simp [nest, Kind.closer?, Kind.isCloser]

/-- A walk is exposed at a macro in braces outside all brackets only. -/
theorem exists_of_walk_exposed {ts : List Token} (h : walk .bare (.amid [] false) ts = .exposed) :
    ∃ (u : List Token) (t b : Token) (v : List Token),
      ts = u ++ t :: b :: v ∧ t.kind = .bang ∧ b.kind = .lbrace ∧ enclosing u = [] := by
  induction ts using List.reverseRecOn with
  | nil => simp [walk] at h
  | append_singleton ts b ih =>
    rw [walk_append] at h
    cases hs : walk .bare (.amid [] false) ts with
    | lost => simp [hs] at h
    | exposed =>
      obtain ⟨u, t, b', v, rfl, ht, hb, hu⟩ := ih hs
      exact ⟨u, t, b', v ++ [b], by simp, ht, hb, hu⟩
    | amid opened bang =>
      rw [hs] at h
      obtain ⟨hbare, hb, rfl⟩ := exists_of_step_exposed (show _ = Walk.exposed from h)
      obtain rfl : opened = [] := by
        cases opened with
        | nil => rfl
        | cons k opened => cases k <;> simp [Zone.within] at hbare
      rcases List.eq_nil_or_concat ts with rfl | ⟨u, t, rfl⟩
      · simp [walk] at hs
      · rw [List.concat_eq_append] at hs
        obtain ⟨o, b', hwalk, hnest, hbang⟩ := walk_concat_eq_amid hs
        have ht : t.kind = .bang := by simpa using hbang
        have ho : o = [] := by
          rw [ht, nest_bang] at hnest
          exact Option.some.inj hnest
        exact ⟨u, t, b, [], by simp, ht, hb, by rw [enclosing_of_walk hwalk, ho]⟩

/-- The scanner and the grammar agree on `impl` items. Let the tokens from `j` on start with a header
and a body that the grammar derives; a name in front of the header is the word `default`, and no
macro of the header that stands outside all brackets has braces. Then the scanner takes them for an
item and cuts it off right behind the body. -/
theorem implItem_of_derives {ts header body : List Token} {j : Nat}
    (hitem : header ++ body <+: ts.drop j) (hheader : rust.Derives implHeader header)
    (hbody : rust.Derives (Syn.use .implBody) body)
    (hlead : ∀ t ∈ header.head?, t.kind = .name → t.text = "default")
    (hbraces : ∀ u t b v, header = u ++ t :: b :: v → t.kind = .bang → b.kind = .lbrace →
      enclosing u ≠ []) :
    isImplHead (ts.drop j) ∧
      implItem? 0 (ts.drop j) = some (header ++ body, ts.drop (j + (header ++ body).length)) := by
  obtain ⟨after, hafter⟩ := hitem
  have hdrop : ts.drop (j + (header ++ body).length) = after := by
    rw [← List.drop_drop, ← hafter, List.drop_left]
  rw [hdrop, ← hafter, List.append_assoc]
  refine ⟨isImplHead_of_derives hheader hlead _, ?_⟩
  have hstart : (Walk.amid [] false).Meets (some ([], false)) := ⟨rfl, fun h => h⟩
  have htrack : Syn.track calm .bare implHeader (some ([], false)) = some (some ([], false)) := by
    decide +kernel
  have hmeets := meets_of_derives isCalm_calm hheader hstart htrack
  rcases hmeets.eq_or_exists with hexposed | ⟨opened, bang, _, hwalk, hsome, -⟩
  · obtain ⟨u, t, b, v, happ, ht, hb, hu⟩ := exists_of_walk_exposed hexposed
    exact absurd hu (hbraces u t b v happ ht hb)
  obtain ⟨rfl, -⟩ := Prod.mk.inj (Option.some.inj hsome)
  obtain ⟨t, rest, hcons, ht, hgroup⟩ := group?_of_derives hbody after
  rw [implItem?_header hwalk]
  rw [hcons] at hgroup ⊢
  rw [List.cons_append] at hgroup ⊢
  rw [implItem?_body ht (le_refl 0), hgroup]
  rfl

/-- An item with a constant in braces between angle brackets, an array length in braces between
square brackets, and something else behind it. -/
theorem implItem_of_derives_constant :
    let ts := (scan "default impl A<\x7b N > 1 \x7d> for [u8; \x7b 2 \x7d] \x7b \x7d use b;".toList).tokens
    isImplHead ts ∧ implItem? 0 ts = some (ts.take 20, ts.drop 20) := by
  intro ts
  let sentence (e : Syn) (w : List Token) : Bool := match rust.read e w with
    | .sentence _ => true
    | _ => false
  have hderives : ∀ {e w}, sentence e w = true → rust.Derives e w := by
    intro e w h
    refine (exists_read_eq_sentence_iff rust_proper rust_ranked).1 ?_
    revert h
    simp only [sentence]
    split
    · next ps hps => exact fun _ => ⟨ps, hps⟩
    · simp
  -- All facts about the tokens are evaluated at once, so that the text is scanned once.
  obtain ⟨hsplit, hheader, hbody, hlead, hbraces, htake, hlength⟩ :
      (ts.take 18 ++ (ts.drop 18).take 2 <+: ts.drop 0) ∧ sentence implHeader (ts.take 18) = true ∧
        sentence (Syn.use .implBody) ((ts.drop 18).take 2) = true ∧
        (∀ t ∈ (ts.take 18).head?, t.kind = .name → t.text = "default") ∧
        (∀ t ∈ ts.take 18, t.kind ≠ .bang) ∧
        ts.take 18 ++ (ts.drop 18).take 2 = ts.take 20 ∧ 0 + (ts.take 20).length = 20 := by
    decide +kernel
  have hitem := implItem_of_derives hsplit (hderives hheader) (hderives hbody) hlead
    fun u t b v happ ht _ => absurd ht (hbraces t (by rw [happ]; simp))
  rw [htake, hlength] at hitem
  exact hitem

end TraitLift
