import Mathlib.Tactic
import TraitLift.Expand.Source
import TraitLift.Proofs.Token.Cut

/-!
Where the marked blocks of a text stand. The scanner goes on from an attribute run, from a head that
it could not follow, from a single token or from the brace that closes a block; in every case what
it has looked at is a front part of the tokens before it (`inspect_split`). So the blocks it finds
stand one after the other, each from a token to a token, with the mark inside (`findings_inOrder`).
-/

namespace TraitLift

/-! ### What the scanner takes off the front -/

theorem group?_ne_nil {ts g rest : List Token} (h : group? ts = some (g, rest)) : g ≠ [] :=
  (closeGroup_append h).2

/-- An attribute is the front part of the tokens, from its first token to its last. -/
theorem outerAttr?_split {source : List Char} {ts rest : List Token} {a : OuterAttr}
    (h : outerAttr? source ts = some (a, rest)) :
    ∃ u, ts = u ++ rest ∧ u.head? = some a.first ∧ u.getLast? = some a.last := by
  fun_cases outerAttr? source ts with
  | case1 => simp [outerAttr?] at h
  | case2 t ts hdoc =>
    simp only [outerAttr?, hdoc, if_true] at h
    obtain ⟨rfl, rfl⟩ := Prod.mk.inj (Option.some.inj h)
    exact ⟨[t], rfl, rfl, rfl⟩
  | case3 t ts hdoc hbracket hpound g rest' hg path args hcontent =>
    simp only [outerAttr?, hdoc, hbracket, hpound, hg, Bool.false_eq_true, if_false] at h
    obtain ⟨rfl, rfl⟩ := Prod.mk.inj (Option.some.inj h)
    refine ⟨t :: g, ?_, rfl, ?_⟩
    · rw [List.cons_append, group?_append hg]
    · cases g with
      | nil => exact absurd rfl (group?_ne_nil hg)
      | cons x g => rw [List.getLast?_cons_cons, List.getLast?_eq_some_getLast (by simp)]; rfl
  | case4 t ts hdoc hbracket hpound hg => simp [outerAttr?, hdoc, hbracket, hpound, hg] at h
  | case5 t ts hdoc hother => simp_all [outerAttr?]

/-- Each of the attributes covers a part of the tokens. -/
def Covers (front : List Token) (as : List OuterAttr) : Prop :=
  ∀ a ∈ as, ∃ u v w, front = u ++ (v ++ w) ∧ v.head? = some a.first ∧ v.getLast? = some a.last

theorem Covers.cons {block front : List Token} {a : OuterAttr} {as : List OuterAttr}
    (hfirst : block.head? = some a.first) (hlast : block.getLast? = some a.last)
    (h : Covers front as) : Covers (block ++ front) (a :: as) := by
  intro b hb
  rcases List.mem_cons.1 hb with rfl | hb
  · exact ⟨[], block, front, rfl, hfirst, hlast⟩
  · obtain ⟨u, v, w, hfront, hv⟩ := h b hb
    exact ⟨block ++ u, v, w, by rw [hfront, List.append_assoc], hv⟩

/-- The attributes of a run cover parts of what the run takes off the front. -/
theorem attrRun_split (source : List Char) (ts : List Token) :
    ∃ front, ts = front ++ (attrRun source ts).2 ∧ Covers front (attrRun source ts).1 := by
  fun_induction attrRun source ts with
  | case1 ts h => exact ⟨[], rfl, by simp [Covers]⟩
  | case2 ts a rest h as rest' hrun ih =>
    obtain ⟨block, hts, hfirst, hlast⟩ := outerAttr?_split h
    obtain ⟨front, hrest, hcovers⟩ := ih
    simp only [hrun] at hrest hcovers ⊢
    exact ⟨block ++ front, by rw [hts, hrest, List.append_assoc], hcovers.cons hfirst hlast⟩

theorem implItem?_ne_nil {angles : Int} {ts g after : List Token}
    (h : implItem? angles ts = some (g, after)) : g ≠ [] := by
  fun_cases implItem? angles ts with
  | case1 => simp [implItem?] at h
  | case2 t rest hlt =>
    rw [implItem?, if_pos hlt] at h
    obtain ⟨g', -, rfl⟩ := implItem?.prepend_eq_some h
    simp
  | case3 t rest hlt hgt =>
    rw [implItem?, if_neg hlt, if_pos hgt] at h
    obtain ⟨g', -, rfl⟩ := implItem?.prepend_eq_some h
    simp
  | case4 t rest hlt hgt hbrace =>
    rw [implItem?, if_neg hlt, if_neg hgt, if_pos hbrace] at h
    exact group?_ne_nil h
  | case5 t rest hlt hgt hbrace hopen g₀ after₀ hg =>
    rw [implItem?, if_neg hlt, if_neg hgt, if_neg hbrace, if_pos hopen] at h
    split at h
    · next g₁ after₁ hg₁ =>
      obtain ⟨g', -, rfl⟩ := implItem?.prepend_eq_some h
      simp [group?_ne_nil hg₁]
    · simp at h
  | case6 t rest hlt hgt hbrace hopen hg =>
    rw [implItem?, if_neg hlt, if_neg hgt, if_neg hbrace, if_pos hopen] at h
    split at h
    · next g₁ after₁ hg₁ => simp [hg] at hg₁
    · simp at h
  | case7 t rest hlt hgt hbrace hopen hend =>
    rw [implItem?, if_neg hlt, if_neg hgt, if_neg hbrace, if_neg hopen, if_pos hend] at h
    simp at h
  | case8 t rest hlt hgt hbrace hopen hend =>
    rw [implItem?, if_neg hlt, if_neg hgt, if_neg hbrace, if_neg hopen, if_neg hend] at h
    obtain ⟨g', -, rfl⟩ := implItem?.prepend_eq_some h
    simp

/-- After a run the scanner goes on further on in the tokens; if it has come upon a marked block, the
block starts with the run, has its mark there, and ends with the last token passed over. -/
theorem inspect_split (c : Config) (run : List OuterAttr) (ts : List Token) :
    ∃ front, ts = front ++ (inspect c run ts).2 ∧ ∀ s, (inspect c run ts).1 = some (.site s) →
      (∃ a, run.head? = some a ∧ s.first = a.first) ∧ s.mark ∈ run ∧
        front.getLast? = some s.last := by
  fun_cases inspect c run ts with
  | case1 first mark hmark hfirst himpl item after hitem =>
    refine ⟨item, (implItem?_append hitem).symm, ?_⟩
    rintro s hs
    obtain rfl := Finding.site.inj (Option.some.inj hs)
    refine ⟨⟨first, hfirst, rfl⟩, ?_, ?_⟩
    · have hmem : mark ∈ run.filter (·.isMark c) := by simp [hmark]
      exact (List.mem_filter.1 hmem).1
    · rw [List.getLast?_eq_some_getLast (implItem?_ne_nil hitem)]
      rfl
  | case2 first mark hmark hfirst himpl hitem =>
    refine ⟨ts.take 1, (List.take_append_drop 1 ts).symm, ?_⟩
    intro s hs
    cases ts <;> simp at hs
  | case3 first mark hmark hfirst himpl => exact ⟨[], rfl, by simp⟩
  | case4 => exact ⟨[], rfl, by simp⟩
  | case5 => exact ⟨[], rfl, by simp⟩

/-! ### The order of the marked blocks -/

/-- A marked block between two offsets, with its mark inside it. -/
structure Site.Within (s : Site) (lo hi : Nat) : Prop where
  lo_le : lo ≤ s.first.start
  start_le : s.first.start ≤ s.mark.first.start
  mark_lt : s.mark.first.start < s.mark.last.stop
  mark_le : s.mark.last.stop ≤ s.last.stop
  le_hi : s.last.stop ≤ hi

/-- A marked block from a token to a token of a text, with a mark from a token to a token. -/
structure Site.OnTokens (s : Site) (ts : List Token) : Prop where
  first : s.first ∈ ts
  markFirst : s.mark.first ∈ ts
  markLast : s.mark.last ∈ ts
  last : s.last ∈ ts

theorem Site.OnTokens.mono {s : Site} {ts us : List Token} (h : s.OnTokens ts) (hsub : ts ⊆ us) :
    s.OnTokens us := ⟨hsub h.first, hsub h.markFirst, hsub h.markLast, hsub h.last⟩

/-- Marked blocks between two offsets, each after the one before it. -/
def SitesInOrder (lo hi : Nat) : List Site → Prop
  | [] => True
  | s :: ss => s.Within lo hi ∧ SitesInOrder s.last.stop hi ss

namespace SitesInOrder

theorem weaken {lo lo' hi : Nat} (hlo : lo' ≤ lo) : ∀ {ss : List Site}, SitesInOrder lo hi ss →
    SitesInOrder lo' hi ss
  | [], _ => trivial
  | _ :: _, h => ⟨{ h.1 with lo_le := le_trans hlo h.1.lo_le }, h.2⟩

theorem within {lo hi : Nat} : ∀ {ss : List Site}, SitesInOrder lo hi ss →
    ∀ s ∈ ss, s.Within lo hi
  | [], _, _, hs => by simp at hs
  | s :: ss, h, s', hs => by
    have hw := h.1
    rcases List.mem_cons.1 hs with rfl | hs
    · exact hw
    · have hw' := within h.2 s' hs
      refine { hw' with lo_le := ?_ }
      have := hw.lo_le
      have := hw.start_le
      have := hw.mark_lt
      have := hw.mark_le
      have := hw'.lo_le
      omega

theorem pairwise {lo hi : Nat} : ∀ {ss : List Site}, SitesInOrder lo hi ss →
    ss.Pairwise fun s s' => s.last.stop ≤ s'.first.start
  | [], _ => List.Pairwise.nil
  | _ :: _, h => List.Pairwise.cons (fun s' hs' => (within h.2 s' hs').lo_le) (pairwise h.2)

end SitesInOrder

/-- A block that follows its run of attributes lies within the tokens of the two. -/
theorem Site.within_of_split {lo hi : Nat} {s : Site} {a : OuterAttr}
    {u v w item after : List Token}
    (h : InOrder lo hi (u ++ (v ++ (w ++ (item ++ after)))))
    (hfirst : (u ++ (v ++ w)).head? = some a.first) (hs : s.first = a.first)
    (hmark : v.head? = some s.mark.first) (hmarkLast : v.getLast? = some s.mark.last)
    (hlast : item.getLast? = some s.last) : s.Within lo hi := by
  have hv := h.append_right
  have hitem := hv.append_right.append_right
  have hafter := hv.after_last hmarkLast
  have hstart : s.first.start ≤ s.mark.first.start := by
    cases u with
    | nil =>
      have hhead : v.head? = some a.first := by
        cases v with
        | nil => simp at hmark
        | cons x v => simpa using hfirst
      rw [hhead] at hmark
      rw [hs, Option.some.inj hmark]
    | cons x u =>
      obtain rfl : x = a.first := by simpa using hfirst
      have hmem := h.2.2.append_right.head_le (t := s.mark.first) (by
        cases v with
        | nil => simp at hmark
        | cons y v => simpa using hmark)
      have := h.2.1
      rw [hs]
      omega
  refine ⟨?_, hstart, hv.head_lt_last hmark hmarkLast, ?_, ?_⟩
  · rw [hs]
    refine h.head_le ?_
    cases u <;> cases v <;> simp_all
  · obtain ⟨x, hx⟩ : ∃ x, item.head? = some x := by
      cases item with
      | nil => simp at hlast
      | cons x item => exact ⟨x, rfl⟩
    have hlt := hitem.head_lt_last hx hlast
    have hle := hafter.append_right.head_le (t := x) (by
      cases item with
      | nil => simp at hx
      | cons y item => simpa using hx)
    omega
  · exact (hitem.after_last hlast).le

/-- The marked blocks that the scanner finds stand in order, on tokens. -/
theorem findings_inOrder (source : List Char) (c : Config) {lo hi : Nat} {ts : List Token}
    (h : InOrder lo hi ts) :
    SitesInOrder lo hi ((findings source c ts).filterMap Finding.site?) ∧
      ∀ s ∈ (findings source c ts).filterMap Finding.site?, s.OnTokens ts := by
  fun_induction findings source c ts generalizing lo with
  | case1 => simp [SitesInOrder]
  | case2 t rest hattr ih =>
    have := h.2.1
    have := h.1
    obtain ⟨horder, hon⟩ := ih (h.2.2.weaken (by omega) : InOrder lo hi rest)
    exact ⟨horder, fun s hs => (hon s hs).mono (List.subset_cons_self ..)⟩
  | case3 t rest a after hattr run seen =>
    next ih =>
    -- the tokens are the first attribute, the rest of the run, what was looked at, and the rest
    obtain ⟨block, hts, hfirst, hlast⟩ := outerAttr?_split hattr
    obtain ⟨front, hafter, hcovers⟩ := attrRun_split source after
    obtain ⟨item, hrun, hsite⟩ := inspect_split c (a :: run.1) run.2
    have hall : t :: rest = (block ++ front) ++ (item ++ seen.2) := by
      rw [hts, hafter, List.append_assoc, ← hrun]
    rw [hall] at h ⊢
    cases hseen : seen.1 with
    | none =>
      obtain ⟨horder, hon⟩ := ih h.append_right.append_right
      exact ⟨horder, fun s hs => (hon s hs).mono fun x hx => by simp [hx]⟩
    | some f =>
      cases f with
      | problem e loc =>
        obtain ⟨horder, hon⟩ := ih h.append_right.append_right
        exact ⟨horder, fun s hs => (hon s hs).mono fun x hx => by simp [hx]⟩
      | site s =>
        obtain ⟨⟨a', ha', hs⟩, hmark, hend⟩ := hsite s hseen
        obtain rfl : a = a' := by simpa using ha'
        obtain ⟨u, v, w, hrow, hv, hv'⟩ := hcovers.cons hfirst hlast s.mark hmark
        obtain ⟨horder, hon⟩ := ih (h.append_right.after_last hend)
        have hhead : (block ++ front).head? = some a.first := by simp [hfirst]
        rw [hrow] at h hhead
        have hwithin : s.Within lo hi :=
          Site.within_of_split (by simpa using h) hhead hs hv hv' hend
        refine ⟨⟨hwithin, horder⟩, ?_⟩
        intro s' hs'
        rcases List.mem_cons.1 hs' with rfl | hs'
        · have hfirst' : s'.first ∈ u ++ (v ++ w) := hs ▸ List.mem_of_head? hhead
          have hmark' := List.mem_of_head? hv
          have hmarkLast := List.mem_of_getLast? hv'
          have hlast' := List.mem_of_getLast? hend
          rw [hrow]
          refine ⟨?_, ?_, ?_, ?_⟩
          · exact List.mem_append_left _ hfirst'
          · simp [hmark']
          · simp [hmarkLast]
          · simp [hlast']
        · exact (hon s' hs').mono fun x hx => by simp [hx]

end TraitLift
