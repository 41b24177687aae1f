import Mathlib.Tactic
import TraitLift.Proofs.Expand.Extent
import TraitLift.Proofs.Expand.Sites
import TraitLift.Proofs.Token.Place

/-!
What the scanner looks at. It looks ahead, to the bracket that closes a group and to the body of an
item, but what it has found in complete items stays found when more tokens follow
(`Complete.findings_append`) or more text (`findings_text`), and it finds the same in tokens that
have moved because there is more in front of them (`findings_moved`).
-/

namespace TraitLift

/-! ### Balanced brackets -/

/-- The open brackets after one more token, each by the kind that closes it and the innermost first;
none if the token closes a bracket that is not the innermost one. -/
def bracketStep (opened : List Kind) (k : Kind) : Option (List Kind) :=
  match k.closer? with
  | some c => some (c :: opened)
  | none =>
    if k.isCloser then if opened.head? = some k then some opened.tail else none
    else some opened

/-- The open brackets after some more tokens. -/
def openAfter (opened : List Kind) : List Token → Option (List Kind)
  | [] => some opened
  | t :: ts => (bracketStep opened t.kind).bind fun opened' => openAfter opened' ts

/-- Every bracket is closed, by its own kind and the innermost first. -/
def Balanced (ts : List Token) : Prop := openAfter [] ts = some []

instance (ts : List Token) : Decidable (Balanced ts) :=
  inferInstanceAs (Decidable (openAfter [] ts = some []))

/-- Brackets that get closed are closed by a group. -/
theorem exists_closeGroup {outer final : List Kind} : ∀ {ts : List Token} {closers : List Kind},
    openAfter (closers ++ outer) ts = some final → closers ≠ [] → final.length ≤ outer.length →
    ∃ g rest, closeGroup closers ts = some (g, rest)
  | [], closers, h, hne, hle => by
    obtain rfl := Option.some.inj h
    have := List.length_pos_iff.2 hne
    rw [List.length_append] at hle
    omega
  | t :: ts, closers, h, hne, hle => by
    obtain ⟨opened, hstep, h⟩ := Option.bind_eq_some_iff.1 h
    unfold bracketStep at hstep
    cases hopen : t.kind.closer? with
    | some c =>
      simp only [hopen, Option.some.injEq] at hstep
      subst hstep
      obtain ⟨g, rest, hg⟩ := @exists_closeGroup outer final ts (c :: closers) h (by simp) hle
      exact ⟨t :: g, rest, by rw [closeGroup_opener hopen, hg, Option.map_some]⟩
    | none =>
      cases hclose : t.kind.isCloser with
      | false =>
        simp only [hopen, hclose, Bool.false_eq_true, if_false, Option.some.injEq] at hstep
        subst hstep
        obtain ⟨g, rest, hg⟩ := exists_closeGroup h hne hle
        exact ⟨t :: g, rest, by rw [closeGroup_other hopen hclose, hg, Option.map_some]⟩
      | true =>
        obtain ⟨c, closers, rfl⟩ := List.exists_cons_of_ne_nil hne
        simp only [hopen, hclose, if_true, List.cons_append, List.head?_cons, Option.some.injEq,
          List.tail_cons, Option.ite_none_right_eq_some] at hstep
        obtain ⟨rfl, rfl⟩ := hstep
        rw [closeGroup_closer hclose]
        split
        · exact ⟨_, _, rfl⟩
        · next hmore =>
          obtain ⟨g, rest, hg⟩ := exists_closeGroup h (by simpa using hmore) hle
          exact ⟨t :: g, rest, by rw [hg, Option.map_some]⟩

theorem exists_openAfter_of_append {final : List Kind} : ∀ {us vs : List Token} {opened : List Kind},
    openAfter opened (us ++ vs) = some final → ∃ opened', openAfter opened' vs = some final
  | [], _, opened, h => ⟨opened, h⟩
  | _ :: _, _, _, h => by
    obtain ⟨_, -, h⟩ := Option.bind_eq_some_iff.1 h
    exact exists_openAfter_of_append h

/-! ### More tokens behind -/

theorem closeGroup_append_right {closers : List Kind} {ts g rest : List Token}
    (h : closeGroup closers ts = some (g, rest)) (more : List Token) :
    closeGroup closers (ts ++ more) = some (g, rest ++ more) := by
  fun_induction closeGroup closers ts generalizing g rest with
  | case1 => simp at h
  | case2 closers t ts c hc ih =>
    obtain ⟨⟨g', rest'⟩, h', heq⟩ := Option.map_eq_some_iff.1 h
    obtain ⟨rfl, rfl⟩ := Prod.mk.inj heq
    rw [List.cons_append, closeGroup_opener hc, ih h', Option.map_some]
  | case3 => simp at h
  | case4 => simp at h
  | case5 t ts hc hcl c outer hk ho =>
    obtain ⟨rfl, rfl⟩ := Prod.mk.inj (Option.some.inj h)
    obtain rfl : c = t.kind := by simpa using hk
    rw [List.cons_append, closeGroup_closer hcl, if_pos ho]
  | case6 t ts hc hcl c outer hk ho ih =>
    obtain ⟨⟨g', rest'⟩, h', heq⟩ := Option.map_eq_some_iff.1 h
    obtain ⟨rfl, rfl⟩ := Prod.mk.inj heq
    obtain rfl : c = t.kind := by simpa using hk
    rw [List.cons_append, closeGroup_closer hcl, if_neg ho, ih h', Option.map_some]
  | case7 closers t ts hc hcl ih =>
    obtain ⟨⟨g', rest'⟩, h', heq⟩ := Option.map_eq_some_iff.1 h
    obtain ⟨rfl, rfl⟩ := Prod.mk.inj heq
    rw [List.cons_append, closeGroup_other hc (by simpa using hcl), ih h', Option.map_some]

/-- A group ends with the bracket that closes the outermost one. -/
theorem closeGroup_last {closers : List Kind} {ts g rest : List Token} {c : Kind}
    (h : closeGroup closers ts = some (g, rest)) (hc : closers.getLast? = some c) :
    ∃ t, g.getLast? = some t ∧ t.kind = c := by
  fun_induction closeGroup closers ts generalizing g rest with
  | case1 => simp at h
  | case2 closers t ts c' hc' ih =>
    obtain ⟨⟨g', rest'⟩, h', heq⟩ := Option.map_eq_some_iff.1 h
    obtain ⟨rfl, rfl⟩ := Prod.mk.inj heq
    obtain ⟨t', ht', hkind⟩ := ih h' (by rw [List.getLast?_cons, hc]; rfl)
    exact ⟨t', by rw [List.getLast?_cons, ht']; rfl, hkind⟩
  | case3 => simp at h
  | case4 => simp at h
  | case5 t ts hc' hcl c' outer hk ho =>
    obtain ⟨rfl, rfl⟩ := Prod.mk.inj (Option.some.inj h)
    obtain rfl : c' = t.kind := by simpa using hk
    obtain rfl := List.isEmpty_iff.1 ho
    exact ⟨t, rfl, by simpa using hc⟩
  | case6 t ts hc' hcl c' outer hk ho ih =>
    obtain ⟨⟨g', rest'⟩, h', heq⟩ := Option.map_eq_some_iff.1 h
    obtain ⟨rfl, rfl⟩ := Prod.mk.inj heq
    have houter : outer.getLast? = some c := by
      cases outer with
      | nil => simp at ho
      | cons d outer => simpa using hc
    obtain ⟨t', ht', hkind⟩ := ih h' houter
    exact ⟨t', by rw [List.getLast?_cons, ht']; rfl, hkind⟩
  | case7 closers t ts hc' hcl ih =>
    obtain ⟨⟨g', rest'⟩, h', heq⟩ := Option.map_eq_some_iff.1 h
    obtain ⟨rfl, rfl⟩ := Prod.mk.inj heq
    obtain ⟨t', ht', hkind⟩ := ih h' hc
    exact ⟨t', by rw [List.getLast?_cons, ht']; rfl, hkind⟩

/-- Tokens in which every bracket that they open is closed, and behind which no item and no attribute
goes on: the last of them is a closing brace or a semicolon. -/
structure Complete (us : List Token) : Prop where
  closed : ∃ opened, openAfter opened us = some []
  ended : ∀ t ∈ us.getLast?, t.kind = .rbrace ∨ t.kind = .semi

theorem Complete.of_append {us vs : List Token} (h : Complete (us ++ vs)) : Complete vs := by
  obtain ⟨⟨opened, hopened⟩, hended⟩ := h
  refine ⟨exists_openAfter_of_append hopened, fun t ht => hended t ?_⟩
  rw [List.getLast?_append, Option.mem_def.1 ht]
  rfl

theorem Complete.tail {t : Token} {ts : List Token} (h : Complete (t :: ts)) : Complete ts :=
  @Complete.of_append [t] ts h

theorem Complete.exists_group {t : Token} {ts : List Token} {c : Kind} (h : Complete (t :: ts))
    (hopen : t.kind.closer? = some c) : ∃ g rest, group? (t :: ts) = some (g, rest) := by
  obtain ⟨opened, hclosed⟩ := h.closed
  obtain ⟨opened', hstep, hclosed⟩ := Option.bind_eq_some_iff.1 hclosed
  obtain rfl : c :: opened = opened' := by simpa [bracketStep, hopen] using hstep
  obtain ⟨g, rest, hg⟩ := @exists_closeGroup opened [] ts [c] hclosed (by simp) (Nat.zero_le _)
  exact ⟨t :: g, rest, by rw [group?, closeGroup_opener hopen, hg, Option.map_some]⟩

/-! ### The start of an attribute -/

/-- What a token and those after it are the start of: a doc comment, an attribute in brackets, or
none of the two. -/
inductive AttrStart (t : Token) : List Token → Prop where
  | doc {ts : List Token} (h : t.kind = .outerDoc ∨ t.kind = .outerBlockDoc) : AttrStart t ts
  | bracket {b : Token} {ts : List Token} (ht : t.kind = .pound) (hb : b.kind = .lsqb) :
      AttrStart t (b :: ts)
  | other {ts : List Token} (hdoc : ¬ (t.kind = .outerDoc ∨ t.kind = .outerBlockDoc))
      (hb : t.kind = .pound → ts.head?.map Token.kind ≠ some .lsqb) : AttrStart t ts

theorem attrStart (t : Token) (ts : List Token) : AttrStart t ts := by
  by_cases hdoc : t.kind = .outerDoc ∨ t.kind = .outerBlockDoc
  · exact .doc hdoc
  by_cases hb : t.kind = .pound ∧ ts.head?.map Token.kind = some .lsqb
  · cases ts with
    | nil => simp at hb
    | cons b ts => exact .bracket hb.1 (by simpa using hb.2)
  · exact .other hdoc fun ht hts => hb ⟨ht, hts⟩

section

variable {t b : Token} {ts : List Token} (source : List Char)

theorem outerAttr?_doc (h : t.kind = .outerDoc ∨ t.kind = .outerBlockDoc) :
    outerAttr? source (t :: ts) = some (⟨t, t, none, none⟩, ts) := by
  rw [outerAttr?, if_pos (by simpa [Token.is] using h)]

theorem outerAttr?_bracket (ht : t.kind = .pound) (hb : b.kind = .lsqb) :
    outerAttr? source (t :: b :: ts) = (group? (b :: ts)).map fun (g, rest) =>
      (⟨t, g.getLast?.getD t, (attrContent source (g.drop 1).dropLast).1,
        (attrContent source (g.drop 1).dropLast).2⟩, rest) := by
  rw [outerAttr?, if_neg (by simp [Token.is, ht])]
  simp only [Token.is, ht, beq_self_eq_true, List.head?_cons, Option.map_some, hb]
  cases group? (b :: ts) <;> rfl

theorem outerAttr?_other (hdoc : ¬ (t.kind = .outerDoc ∨ t.kind = .outerBlockDoc))
    (hb : t.kind = .pound → ts.head?.map Token.kind ≠ some .lsqb) :
    outerAttr? source (t :: ts) = none := by
  rw [outerAttr?, if_neg (by simpa [Token.is] using hdoc)]
  split
  · next hpound hbracket => exact absurd hbracket (hb (by simpa [Token.is] using hpound))
  · rfl

end

section

variable {source : List Char} {c : Config} {us : List Token}

theorem attrRun_of_none (h : outerAttr? source us = none) : attrRun source us = ([], us) := by
  rw [attrRun]
  split <;> simp_all

theorem attrRun_of_some {a : OuterAttr} {rest : List Token}
    (h : outerAttr? source us = some (a, rest)) :
    attrRun source us = (a :: (attrRun source rest).1, (attrRun source rest).2) := by
  rw [attrRun]
  split <;> simp_all

theorem findings_of_none (h : outerAttr? source us = none) :
    findings source c us = findings source c us.tail := by
  cases us with
  | nil => rfl
  | cons t ts =>
    rw [findings]
    split <;> simp_all

theorem findings_of_some {a : OuterAttr} {rest : List Token}
    (h : outerAttr? source us = some (a, rest)) :
    findings source c us =
      let run := attrRun source rest
      let seen := inspect c (a :: run.1) run.2
      seen.1.toList ++ findings source c seen.2 := by
  cases us with
  | nil => simp [outerAttr?] at h
  | cons t ts =>
    rw [findings]
    split <;> simp_all

end

/-! ### More tokens behind complete ones -/

section

variable {source : List Char} {c : Config} {us : List Token}

/-- An attribute is followed by more of the complete tokens: it does not end with a brace or a
semicolon. -/
theorem Complete.after_attr {a : OuterAttr} {rest : List Token} (h : Complete us)
    (hattr : outerAttr? source us = some (a, rest)) : rest ≠ [] := by
  rintro rfl
  cases us with
  | nil => simp [outerAttr?] at hattr
  | cons t ts =>
    cases attrStart t ts with
    | doc hdoc =>
      rw [outerAttr?_doc source hdoc] at hattr
      obtain ⟨-, rfl⟩ := Prod.mk.inj (Option.some.inj hattr)
      have := h.ended t rfl
      rcases hdoc with hdoc | hdoc <;> simp [hdoc] at this
    | @bracket b ts ht hb =>
      rw [outerAttr?_bracket source ht hb] at hattr
      obtain ⟨⟨g, rest⟩, hg, heq⟩ := Option.map_eq_some_iff.1 hattr
      obtain rfl : rest = [] := (Prod.mk.inj heq).2
      have hall := group?_append hg
      rw [List.append_nil] at hall
      rw [group?, closeGroup_opener (by rw [hb]; rfl)] at hg
      obtain ⟨⟨g', rest'⟩, hg', heq'⟩ := Option.map_eq_some_iff.1 hg
      obtain ⟨last, hlast, hkind⟩ := closeGroup_last hg' rfl
      have hend : (t :: b :: ts).getLast? = some last := by
        rw [← hall, ← (Prod.mk.inj heq').1, List.getLast?_cons, List.getLast?_cons, hlast]
        rfl
      have := h.ended last hend
      simp [hkind] at this
    | other hdoc hb => simp [outerAttr?_other source hdoc hb] at hattr

variable (source) in
theorem Complete.outerAttr?_append {t : Token} {ts : List Token} (h : Complete (t :: ts))
    (more : List Token) : outerAttr? source (t :: ts ++ more) =
      (outerAttr? source (t :: ts)).map fun (a, rest) => (a, rest ++ more) := by
  cases attrStart t ts with
  | doc hdoc =>
    rw [outerAttr?_doc source hdoc, List.cons_append, outerAttr?_doc source hdoc, Option.map_some]
  | @bracket b ts ht hb =>
    obtain ⟨g, rest, hg⟩ := h.tail.exists_group (by rw [hb]; rfl)
    have hmore := closeGroup_append_right hg more
    rw [outerAttr?_bracket source ht hb, hg, List.cons_append, List.cons_append,
      outerAttr?_bracket source ht hb, group?, ← List.cons_append, hmore]
    rfl
  | other hdoc hb =>
    rw [outerAttr?_other source hdoc hb, List.cons_append, outerAttr?_other source hdoc]
    · rfl
    · intro ht
      cases ts with
      | nil => simpa [ht] using h.ended t rfl
      | cons b ts => exact hb ht

theorem Complete.of_attr {a : OuterAttr} {rest : List Token} (h : Complete us)
    (hattr : outerAttr? source us = some (a, rest)) : Complete rest := by
  obtain ⟨u, rfl, -⟩ := outerAttr?_split hattr
  exact h.of_append

end

/-- A run of attributes ends before complete tokens do. -/
theorem Complete.attrRun_append (source : List Char) {us : List Token} (h : Complete us)
    (hne : us ≠ []) (more : List Token) :
    attrRun source (us ++ more) = ((attrRun source us).1, (attrRun source us).2 ++ more) ∧
      (attrRun source us).2 ≠ [] := by
  obtain ⟨t, ts, rfl⟩ := List.exists_cons_of_ne_nil hne
  have happ := h.outerAttr?_append source more
  cases hattr : outerAttr? source (t :: ts) with
  | none =>
    rw [hattr] at happ
    rw [attrRun_of_none hattr, attrRun_of_none happ]
    exact ⟨rfl, hne⟩
  | some p =>
    obtain ⟨a, rest⟩ := p
    rw [hattr] at happ
    have := outerAttr?_length_lt hattr
    obtain ⟨hrun, hrest⟩ :=
      Complete.attrRun_append source (h.of_attr hattr) (h.after_attr hattr) more
    rw [attrRun_of_some hattr, attrRun_of_some happ, hrun]
    exact ⟨rfl, hrest⟩
termination_by us.length

/-- Tokens without the first one, if that is of the kind `p`. -/
def dropIf (p : Token → Bool) (ts : List Token) : List Token :=
  if (ts.head?.map p).getD false then ts.drop 1 else ts

theorem isImplHead_eq (ts : List Token) : isImplHead ts =
    (((dropIf (·.is .kwUnsafe) (dropIf (fun t => t.is .name && t.text == "default") ts)).head?.map
      (·.is .kwImpl)).getD false) := rfl

theorem Complete.dropIf_append {p : Token → Bool} {us : List Token} (h : Complete us)
    (hne : us ≠ []) (hp : ∀ t : Token, t.kind = .rbrace ∨ t.kind = .semi → p t = false)
    (more : List Token) :
    dropIf p (us ++ more) = dropIf p us ++ more ∧ Complete (dropIf p us) ∧ dropIf p us ≠ [] := by
  obtain ⟨t, ts, rfl⟩ := List.exists_cons_of_ne_nil hne
  cases hpt : p t with
  | false => simpa [dropIf, hpt] using h
  | true =>
    have hts : ts ≠ [] := by
      rintro rfl
      simp [hp t (h.ended t rfl)] at hpt
    simpa [dropIf, hpt, hts] using h.tail

theorem Complete.isImplHead_append {us : List Token} (h : Complete us) (hne : us ≠ [])
    (more : List Token) : isImplHead (us ++ more) = isImplHead us := by
  have hdefault : ∀ t : Token, t.kind = .rbrace ∨ t.kind = .semi →
      (t.is .name && t.text == "default") = false := by
    rintro t (ht | ht) <;> simp [Token.is, ht]
  have hunsafe : ∀ t : Token, t.kind = .rbrace ∨ t.kind = .semi → t.is .kwUnsafe = false := by
    rintro t (ht | ht) <;> simp [Token.is, ht]
  obtain ⟨hfirst, h₁, hne₁⟩ := h.dropIf_append hne hdefault more
  obtain ⟨hsecond, -, hne₂⟩ := h₁.dropIf_append hne₁ hunsafe more
  rw [isImplHead_eq, isImplHead_eq, hfirst, hsecond, List.head?_append_of_ne_nil _ hne₂]

theorem implItem?_append_right {angles : Int} {ts item rest : List Token}
    (h : implItem? angles ts = some (item, rest)) (more : List Token) :
    implItem? angles (ts ++ more) = some (item, rest ++ more) := by
  fun_induction implItem? angles ts generalizing item rest with
  | case1 => simp at h
  | case2 angles t ts hlt ih =>
    obtain ⟨item', h', rfl⟩ := implItem?.prepend_eq_some h
    rw [List.cons_append, implItem?_lt (by simpa [Token.is] using hlt), ih h']
    rfl
  | case3 angles t ts hlt hgt ih =>
    obtain ⟨item', h', rfl⟩ := implItem?.prepend_eq_some h
    rw [List.cons_append, implItem?_gt (by simpa [Token.is] using hgt), ih h']
    rfl
  | case4 angles t ts hlt hgt hbrace =>
    simp only [Token.is, Bool.and_eq_true, beq_iff_eq, decide_eq_true_eq] at hbrace
    rw [List.cons_append, implItem?_body hbrace.1 hbrace.2, group?, ← List.cons_append]
    exact closeGroup_append_right h more
  | case5 angles t ts hlt hgt hbrace hopen g after hg ih =>
    obtain ⟨item', h', rfl⟩ := implItem?.prepend_eq_some h
    simp only [Token.is, Bool.and_eq_true, beq_iff_eq, decide_eq_true_eq] at hbrace
    rw [List.cons_append, implItem?_group hopen fun hb hle => hbrace ⟨hb, hle⟩, group?,
      ← List.cons_append, closeGroup_append_right hg more, Option.bind_some]
    show implItem?.prepend (implItem? angles (after ++ more)) g = _
    rw [ih h']
    rfl
  | case6 => simp at h
  | case7 => simp at h
  | case8 angles t ts hlt hgt hbrace hopen hstop ih =>
    obtain ⟨item', h', rfl⟩ := implItem?.prepend_eq_some h
    simp only [Token.is, Bool.or_eq_true, beq_iff_eq, not_or] at hlt hgt hstop
    rw [List.cons_append, implItem?_other (by simpa using hopen) hlt hgt hstop, ih h']
    rfl

/-- A finding that is no problem. -/
def Finding.IsSite (f : Finding) : Prop := f.site?.isSome = true

theorem Complete.inspect_append {c : Config} {us : List Token} (h : Complete us) (hne : us ≠ [])
    (run : List OuterAttr) (hsites : ∀ f ∈ (inspect c run us).1, f.IsSite) (more : List Token) :
    inspect c run (us ++ more) = ((inspect c run us).1, (inspect c run us).2 ++ more) := by
  fun_cases inspect c run us with
  | case1 first mark hmark hfirst himpl item after hitem =>
    simp only [inspect, hfirst, hmark, h.isImplHead_append hne, himpl, if_true,
      implItem?_append_right hitem more]
  | case2 first mark hmark hfirst himpl hitem =>
    obtain ⟨t, ts, rfl⟩ := List.exists_cons_of_ne_nil hne
    have := hsites (.problem .noBody t.loc) (by simp [inspect, hfirst, hmark, himpl, hitem])
    simp [Finding.IsSite, Finding.site?] at this
  | case3 first mark hmark hfirst himpl =>
    have := hsites (.problem .notOnImpl mark.first.loc) (by simp [inspect, hfirst, hmark, himpl])
    simp [Finding.IsSite, Finding.site?] at this
  | case4 first mark second marks hmarks hfirst =>
    have := hsites (.problem .duplicate second.first.loc) (by simp [inspect, hfirst, hmarks])
    simp [Finding.IsSite, Finding.site?] at this
  | case5 hone hmany =>
    unfold inspect
    split
    · next hfirst hmark => exact absurd hmark (hone _ _ hfirst)
    · next hfirst hmarks => exact absurd hmarks (hmany _ _ _ _ hfirst)
    · rfl

/-- What the scanner finds in complete tokens stays found, if nothing there is a problem. -/
theorem Complete.findings_append {source : List Char} {c : Config} {us : List Token}
    (h : Complete us) (hsites : ∀ f ∈ findings source c us, f.IsSite) (more : List Token) :
    findings source c (us ++ more) = findings source c us ++ findings source c more := by
  fun_induction findings source c us with
  | case1 => rfl
  | case2 t rest hattr ih =>
    have happ := h.outerAttr?_append source more
    rw [hattr] at happ
    rw [findings_of_none happ]
    exact ih h.tail hsites
  | case3 t rest a after hattr run seen =>
    next ih =>
    have happ := h.outerAttr?_append source more
    rw [hattr] at happ
    obtain ⟨hrun, hne⟩ := (h.of_attr hattr).attrRun_append source (h.after_attr hattr) more
    obtain ⟨front, hfront, -⟩ := attrRun_split source after
    obtain ⟨item, hitem, -⟩ := inspect_split c (a :: run.1) run.2
    have hrest : Complete run.2 := by
      have := h.of_attr hattr
      rw [hfront] at this
      exact this.of_append
    have hseen := hrest.inspect_append hne (a :: run.1) (fun f hf => hsites f (by
      simpa using Or.inl hf)) more
    rw [findings_of_some happ]
    simp only
    rw [hrun]
    simp only
    rw [hseen, ih, List.append_assoc]
    · rw [hitem] at hrest
      exact hrest.of_append
    · exact fun f hf => hsites f (List.mem_append_right _ hf)

/-! ### More text behind -/

theorem between_append_left {a b : List Char} {start stop : Nat} (h : stop ≤ a.length) :
    between (a ++ b) start stop = between a start stop := by
  rw [between, between, List.drop_append, List.take_append_of_le_length]
  rw [List.length_drop]
  omega

/-- The path of an attribute, and where its arguments stand: the bracket that opens them and the
offset where they end. -/
def attrParts (inner : List Token) : Option String × Option (Token × Nat) :=
  let path := String.join ((inner.takeWhile isPathToken).map Token.text)
  match inner.dropWhile isPathToken with
  | [] => (some path, none)
  | opener :: rest =>
    match opener.is .lpar, group? (opener :: rest) with
    | true, some (g, []) => (some path, some (opener, (g.getLast?.map Token.start).getD opener.stop))
    | _, _ => (none, none)

/-- The text counts for the arguments only. -/
theorem attrContent_eq (source : List Char) (inner : List Token) : attrContent source inner =
    ((attrParts inner).1, (attrParts inner).2.map fun (opener, stop) =>
      ⟨String.ofList (between source opener.stop stop), opener⟩) := by
  unfold attrContent attrParts
  cases inner.dropWhile isPathToken with
  | nil => rfl
  | cons opener rest =>
    simp only
    generalize opener.is .lpar = isPar, group? (opener :: rest) = found
    rcases isPar with _ | _ <;> rcases found with _ | ⟨g, _ | _⟩ <;> rfl

theorem attrParts_eq_some {inner : List Token} {opener : Token} {stop : Nat}
    (h : (attrParts inner).2 = some (opener, stop)) :
    ∃ g last, inner.dropWhile isPathToken = g ∧ group? g = some (g, []) ∧
      g.head? = some opener ∧ opener.kind = .lpar ∧ g.getLast? = some last ∧ stop = last.start := by
  unfold attrParts at h
  cases hdrop : inner.dropWhile isPathToken with
  | nil => simp [hdrop] at h
  | cons o rest =>
    simp only [hdrop] at h
    split at h
    · next g hpar hg =>
      obtain rfl : g = o :: rest := by simpa using group?_append hg
      obtain ⟨rfl, rfl⟩ := Prod.mk.inj (Option.some.inj h)
      have hlast := List.getLast?_eq_some_getLast (List.cons_ne_nil o rest)
      exact ⟨_, _, rfl, hg, rfl, by simpa [Token.is] using hpar, hlast, by rw [hlast]; rfl⟩
    · simp at h

theorem attrContent_append {a b : List Char} {inner : List Token}
    (h : ∀ t ∈ inner, t.start ≤ a.length) : attrContent (a ++ b) inner = attrContent a inner := by
  rw [attrContent_eq, attrContent_eq]
  cases hargs : (attrParts inner).2 with
  | none => rfl
  | some p =>
    obtain ⟨opener, stop⟩ := p
    obtain ⟨g, last, rfl, -, -, -, hlast, rfl⟩ := attrParts_eq_some hargs
    have hmem := (List.dropWhile_sublist isPathToken).subset (List.mem_of_getLast? hlast)
    simp only [Option.map_some, between_append_left (h last hmem)]

section

variable {a b : List Char} {c : Config}

theorem outerAttr?_text {us : List Token} (h : ∀ t ∈ us, t.start ≤ a.length) :
    outerAttr? (a ++ b) us = outerAttr? a us := by
  cases us with
  | nil => rfl
  | cons t ts =>
    cases attrStart t ts with
    | doc hdoc => rw [outerAttr?_doc _ hdoc, outerAttr?_doc _ hdoc]
    | @bracket x ts ht hx =>
      rw [outerAttr?_bracket _ ht hx, outerAttr?_bracket _ ht hx]
      cases hg : group? (x :: ts) with
      | none => rfl
      | some p =>
        obtain ⟨g, rest⟩ := p
        have hinner : ∀ y ∈ (g.drop 1).dropLast, y.start ≤ a.length := by
          intro y hy
          have hy := List.mem_of_mem_drop (List.mem_of_mem_dropLast hy)
          refine h y (List.mem_cons_of_mem _ ?_)
          rw [← group?_append hg]
          exact List.mem_append_left _ hy
        simp only [Option.map_some, attrContent_append hinner]
    | other hdoc hx => rw [outerAttr?_other _ hdoc hx, outerAttr?_other _ hdoc hx]

theorem attrRun_text {us : List Token} (h : ∀ t ∈ us, t.start ≤ a.length) :
    attrRun (a ++ b) us = attrRun a us := by
  fun_induction attrRun a us with
  | case1 us hattr => rw [attrRun_of_none ((outerAttr?_text h).trans hattr)]
  | case2 us x rest hattr xs rest' hrun ih =>
    obtain ⟨u, rfl, -⟩ := outerAttr?_split hattr
    rw [attrRun_of_some ((outerAttr?_text h).trans hattr),
      ih fun t ht => h t (List.mem_append_right u ht), hrun]

/-- Text behind the tokens is not looked at. -/
theorem findings_text {us : List Token} (h : ∀ t ∈ us, t.start ≤ a.length) :
    findings (a ++ b) c us = findings a c us := by
  fun_induction findings a c us with
  | case1 => rw [findings]
  | case2 t rest hattr ih =>
    rw [findings_of_none ((outerAttr?_text h).trans hattr)]
    exact ih fun x hx => h x (List.mem_cons_of_mem t hx)
  | case3 t rest x after hattr run seen =>
    next ih =>
    obtain ⟨u, hus, -⟩ := outerAttr?_split hattr
    obtain ⟨front, hfront, -⟩ := attrRun_split a after
    obtain ⟨item, hitem, -⟩ := inspect_split c (x :: run.1) run.2
    have hafter : ∀ t ∈ after, t.start ≤ a.length := by
      intro y hy
      exact h y (by rw [hus]; exact List.mem_append_right u hy)
    rw [findings_of_some ((outerAttr?_text h).trans hattr), attrRun_text hafter]
    refine congrArg (_ ++ ·) (ih fun y hy => hafter y ?_)
    rw [hfront]
    refine List.mem_append_right front ?_
    show y ∈ run.2
    rw [hitem]
    exact List.mem_append_right item hy

end

/-! ### Text and tokens in front -/

theorem between_append_right (a b : List Char) (start stop : Nat) :
    between (a ++ b) (start + a.length) (stop + a.length) = between b start stop := by
  rw [between, between, Nat.add_sub_add_right, Nat.add_comm start, List.drop_append,
    List.drop_of_length_le (Nat.le_add_right ..), Nat.add_sub_cancel_left, List.nil_append]

section

variable {f : Token → Token} (hf : ∀ t, (f t).kind = t.kind)
include hf

theorem closeGroup_map (closers : List Kind) (ts : List Token) :
    closeGroup closers (ts.map f) =
      (closeGroup closers ts).map fun (g, rest) => (g.map f, rest.map f) := by
  fun_induction closeGroup closers ts with
  | case1 => rfl
  | case2 closers t ts c hc ih =>
    rw [List.map_cons, closeGroup_opener (by rw [hf, hc]), ih, Option.map_map, Option.map_map]
    rfl
  | case3 t ts hc hcl => rw [List.map_cons, closeGroup, hf, hc]; simp [hcl]
  | case4 t ts hc hcl c outer hk => rw [List.map_cons, closeGroup, hf, hc]; simp [hcl, hk]
  | case5 t ts hc hcl c outer hk ho =>
    obtain rfl : c = t.kind := by simpa using hk
    rw [List.map_cons, ← hf, closeGroup_closer (by rw [hf, hcl]), if_pos ho]
    rfl
  | case6 t ts hc hcl c outer hk ho ih =>
    obtain rfl : c = t.kind := by simpa using hk
    rw [List.map_cons, ← hf, closeGroup_closer (by rw [hf, hcl]), if_neg ho, ih, Option.map_map,
      Option.map_map]
    rfl
  | case7 closers t ts hc hcl ih =>
    rw [List.map_cons, closeGroup_other (by rw [hf, hc]) (by rw [hf]; simpa using hcl), ih,
      Option.map_map, Option.map_map]
    rfl

theorem group?_map (ts : List Token) :
    group? (ts.map f) = (group? ts).map fun (g, rest) => (g.map f, rest.map f) :=
  closeGroup_map hf [] ts

theorem implItem?_map (angles : Int) (ts : List Token) : implItem? angles (ts.map f) =
    (implItem? angles ts).map fun (item, rest) => (item.map f, rest.map f) := by
  have hprepend : ∀ (r : Option (List Token × List Token)) (front : List Token),
      implItem?.prepend (r.map fun (g, rest) => (g.map f, rest.map f)) (front.map f) =
        (implItem?.prepend r front).map fun (g, rest) => (g.map f, rest.map f) := by
    rintro (_ | ⟨g, rest⟩) front
    · rfl
    · simp [implItem?.prepend]
  fun_induction implItem? angles ts with
  | case1 => simp [implItem?]
  | case2 angles t ts hlt ih =>
    rw [List.map_cons, implItem?_lt (by rw [hf]; simpa [Token.is] using hlt), ih]
    exact hprepend _ [t]
  | case3 angles t ts hlt hgt ih =>
    rw [List.map_cons, implItem?_gt (by rw [hf]; simpa [Token.is] using hgt), ih]
    exact hprepend _ [t]
  | case4 angles t ts hlt hgt hbrace =>
    simp only [Token.is, Bool.and_eq_true, beq_iff_eq, decide_eq_true_eq] at hbrace
    rw [List.map_cons, implItem?_body (by rw [hf, hbrace.1]) hbrace.2]
    exact group?_map hf (t :: ts)
  | case5 angles t ts hlt hgt hbrace hopen g after hg ih =>
    simp only [Token.is, Bool.and_eq_true, beq_iff_eq, decide_eq_true_eq] at hbrace
    rw [List.map_cons, implItem?_group (by rwa [hf]) (by rw [hf]; exact fun hb hle => hbrace ⟨hb, hle⟩),
      ← List.map_cons, group?_map hf, hg, Option.map_some, Option.bind_some]
    simp only [ih]
    exact hprepend _ g
  | case6 angles t ts hlt hgt hbrace hopen hg =>
    simp only [Token.is, Bool.and_eq_true, beq_iff_eq, decide_eq_true_eq] at hbrace
    rw [List.map_cons, implItem?_group (by rwa [hf]) (by rw [hf]; exact fun hb hle => hbrace ⟨hb, hle⟩),
      ← List.map_cons, group?_map hf, hg]
    rfl
  | case7 angles t ts hlt hgt hbrace hopen hstop =>
    simp only [Token.is, Bool.and_eq_true, Bool.or_eq_true, beq_iff_eq, decide_eq_true_eq] at *
    rw [List.map_cons, implItem?]
    simp [Token.is, hf, hlt, hgt, hbrace, hopen, hstop]
  | case8 angles t ts hlt hgt hbrace hopen hstop ih =>
    simp only [Token.is, Bool.or_eq_true, beq_iff_eq, not_or] at hlt hgt hstop
    rw [List.map_cons, implItem?_other (by rw [hf]; simpa using hopen) (by rwa [hf]) (by rwa [hf])
      (by rwa [hf]), ih]
    exact hprepend _ [t]

end

section

variable (k : Nat) (base : Loc)

/-- Arguments that start elsewhere. -/
def AttrArgs.moved (x : AttrArgs) : AttrArgs := { x with opener := x.opener.moved k base }

/-- An attribute of moved tokens. -/
def OuterAttr.moved (x : OuterAttr) : OuterAttr :=
  ⟨x.first.moved k base, x.last.moved k base, x.path, x.args.map (AttrArgs.moved k base)⟩

/-- A marked block of moved tokens. -/
def Site.moved (s : Site) : Site :=
  ⟨s.first.moved k base, s.mark.moved k base, s.last.moved k base⟩

/-- What is found in moved tokens. -/
def Finding.moved : Finding → Finding
  | site s => site (s.moved k base)
  | problem e loc => problem e (base.locate loc)

theorem attrParts_moved (inner : List Token) : attrParts (inner.map (Token.moved k base)) =
    ((attrParts inner).1,
      (attrParts inner).2.map fun (opener, stop) => (opener.moved k base, stop + k)) := by
  have hpath : isPathToken ∘ Token.moved k base = isPathToken := rfl
  have htexts : Token.text ∘ Token.moved k base = Token.text := rfl
  unfold attrParts
  simp only [List.takeWhile_map, List.dropWhile_map, hpath, List.map_map, htexts]
  cases inner.dropWhile isPathToken with
  | nil => rfl
  | cons opener rest =>
    have hgroup := group?_map (Token.moved_kind k base) (opener :: rest)
    simp only [List.map_cons] at hgroup ⊢
    rw [hgroup]
    have hpar : (opener.moved k base).is .lpar = opener.is .lpar := rfl
    rw [hpar]
    generalize opener.is .lpar = isPar, group? (opener :: rest) = found
    rcases isPar with _ | _ <;> rcases found with _ | ⟨g, _ | _⟩ <;> try rfl
    cases hlast : g.getLast? <;> simp [List.getLast?_map, hlast]

end

section

variable (a b : List Char) (base : Loc)

theorem attrContent_moved (inner : List Token) :
    attrContent (a ++ b) (inner.map (Token.moved a.length base)) =
      ((attrContent b inner).1, (attrContent b inner).2.map (AttrArgs.moved a.length base)) := by
  rw [attrContent_eq, attrContent_eq, attrParts_moved]
  cases (attrParts inner).2 with
  | none => rfl
  | some p => simp [AttrArgs.moved, between_append_right]

theorem outerAttr?_moved (ts : List Token) :
    outerAttr? (a ++ b) (ts.map (Token.moved a.length base)) = (outerAttr? b ts).map
      fun (x, rest) => (x.moved a.length base, rest.map (Token.moved a.length base)) := by
  cases ts with
  | nil => rfl
  | cons t ts =>
    rw [List.map_cons]
    cases attrStart t ts with
    | doc hdoc =>
      rw [outerAttr?_doc _ hdoc, outerAttr?_doc (t := t.moved a.length base) _ hdoc]
      rfl
    | @bracket x ts ht hx =>
      rw [outerAttr?_bracket _ ht hx, List.map_cons, outerAttr?_bracket (t := t.moved a.length base)
        (b := x.moved a.length base) _ ht hx, ← List.map_cons,
        group?_map (Token.moved_kind a.length base), Option.map_map, Option.map_map]
      congr 1
      funext ⟨g, rest⟩
      have hlast : (g.map (Token.moved a.length base)).getLast?.getD (t.moved a.length base) =
          (g.getLast?.getD t).moved a.length base := by
        cases hg : g.getLast? <;> simp [List.getLast?_map, hg]
      simp only [Function.comp_apply, ← List.map_drop, ← List.map_dropLast, attrContent_moved, hlast]
      rfl
    | other hdoc hx =>
      rw [outerAttr?_other _ hdoc hx, outerAttr?_other (t := t.moved a.length base) _ hdoc]
      · rfl
      · cases ts <;> exact hx

theorem attrRun_moved (ts : List Token) :
    attrRun (a ++ b) (ts.map (Token.moved a.length base)) =
      ((attrRun b ts).1.map (OuterAttr.moved a.length base),
        (attrRun b ts).2.map (Token.moved a.length base)) := by
  have hmoved := outerAttr?_moved a b base ts
  fun_induction attrRun b ts with
  | case1 ts hattr =>
    rw [hattr] at hmoved
    exact attrRun_of_none hmoved
  | case2 ts x rest hattr xs rest' hrun ih =>
    rw [hattr] at hmoved
    rw [attrRun_of_some hmoved, ih (outerAttr?_moved a b base rest), hrun]
    rfl

end

section

variable (k : Nat) (base : Loc) (c : Config)

theorem isImplHead_moved (ts : List Token) :
    isImplHead (ts.map (Token.moved k base)) = isImplHead ts := by
  have hdrop : ∀ (p : Token → Bool) (ts : List Token), (∀ t, p (t.moved k base) = p t) →
      dropIf p (ts.map (Token.moved k base)) = (dropIf p ts).map (Token.moved k base) := by
    intro p ts hp
    cases ts with
    | nil => rfl
    | cons t ts => cases hpt : p t <;> simp [dropIf, hp, hpt]
  rw [isImplHead_eq, isImplHead_eq, hdrop _ _ (fun t => rfl), hdrop _ _ (fun t => rfl)]
  cases dropIf (·.is .kwUnsafe) (dropIf (fun t => t.is .name && t.text == "default") ts) <;> rfl

theorem inspect_moved (run : List OuterAttr) (ts : List Token) :
    inspect c (run.map (OuterAttr.moved k base)) (ts.map (Token.moved k base)) =
      ((inspect c run ts).1.map (Finding.moved k base),
        (inspect c run ts).2.map (Token.moved k base)) := by
  have hmarks : (run.map (OuterAttr.moved k base)).filter (·.isMark c) =
      (run.filter (·.isMark c)).map (OuterAttr.moved k base) := List.filter_map ..
  unfold inspect
  rw [List.head?_map, hmarks, isImplHead_moved, implItem?_map (Token.moved_kind k base)]
  cases run.head? with
  | none => rfl
  | some first =>
    clear hmarks
    generalize run.filter (·.isMark c) = marks
    rcases marks with _ | ⟨mark, _ | ⟨second, marks⟩⟩
    · rfl
    · cases isImplHead ts with
      | false => rfl
      | true =>
        rcases implItem? 0 ts with _ | ⟨item, after⟩
        · cases ts <;> rfl
        · cases hlast : item.getLast? <;>
            simp [List.getLast?_map, hlast, Finding.moved, Site.moved, OuterAttr.moved]
    · rfl

end

/-- In moved tokens of a text with more in front the same is found. -/
theorem findings_moved (a b : List Char) (base : Loc) (c : Config) (ts : List Token) :
    findings (a ++ b) c (ts.map (Token.moved a.length base)) =
      (findings b c ts).map (Finding.moved a.length base) := by
  fun_induction findings b c ts with
  | case1 => simp [findings]
  | case2 t rest hattr ih =>
    have hmoved := outerAttr?_moved a b base (t :: rest)
    rw [hattr] at hmoved
    rw [findings_of_none hmoved]
    exact ih
  | case3 t rest x after hattr run seen =>
    next ih =>
    have hmoved := outerAttr?_moved a b base (t :: rest)
    rw [hattr] at hmoved
    have hseen := inspect_moved a.length base c (x :: run.1) run.2
    rw [List.map_cons] at hseen
    rw [findings_of_some hmoved]
    simp only [attrRun_moved]
    rw [hseen, ih, List.map_append, Option.toList_map]

end TraitLift
