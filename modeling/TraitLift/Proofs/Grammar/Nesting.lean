import Mathlib.Tactic
import TraitLift.Proofs.Grammar.Rules

/-!
Brackets in what the grammar derives. A `Walk` goes through tokens and keeps the brackets that are
open; angle brackets count as brackets only outside the others, where no rule has comparison signs.
`Expr.track` goes through an expression instead, and `Derives.meets` says that the two agree: what a
rule derives closes the brackets it opens and no others. The one thing in the header of a block that
a walk cannot pass is a macro in braces outside all brackets, and there the walk ends as `exposed`.
-/

namespace TraitLift

open TraitLift.Grammar

/-! ### Open brackets -/

/-- Where a token stands: outside all brackets, between angle brackets, or between others. -/
inductive Zone where
  | bare
  | angled
  | inside
deriving DecidableEq, Repr

/-- The zone within brackets that are opened in a zone, the innermost first; an open bracket is
given by the kind of token that closes it. -/
def Zone.within (z : Zone) : List Kind → Zone
  | [] => z
  | .gt :: _ => .angled
  | _ :: _ => .inside

/-- The brackets that are open after one more token, of those opened in a zone. -/
def nest (z : Zone) (opened : List Kind) (k : Kind) : Option (List Kind) :=
  match k.closer? with
  | some c => some (c :: opened)
  | none =>
    if z.within opened = .inside then
      if k.isCloser then close opened k else some opened
    else if k = .lt then some (.gt :: opened)
    else if k = .gt then close opened k
    else if k.isCloser || k = .semi then none
    else some opened
where
  /-- Closes the innermost bracket, which has to be of the right kind. -/
  close : List Kind → Kind → Option (List Kind)
    | c :: outer, k => if c = k then some outer else none
    | [], _ => none

/-- A way through tokens: at a place with brackets open and perhaps right behind a `!`, at a macro
in braces outside all brackets, or nowhere. -/
inductive Walk where
  | lost
  | exposed
  | amid (opened : List Kind) (bang : Bool)
deriving DecidableEq, Repr

/-- One token further. A brace outside all brackets can only belong to a macro. -/
def Walk.step (z : Zone) (s : Walk) (t : Token) : Walk :=
  match s with
  | .amid opened bang =>
    if z.within opened = .bare ∧ t.kind = .lbrace then
      if bang then .exposed else .lost
    else
      match nest z opened t.kind with
      | some opened' => .amid opened' (t.kind = .bang)
      | none => .lost
  | s => s

/-- The way through some tokens. -/
def walk (z : Zone) (s : Walk) (ts : List Token) : Walk := ts.foldl (Walk.step z) s

theorem walk_append (z : Zone) (s : Walk) (u v : List Token) :
    walk z s (u ++ v) = walk z (walk z s u) v := List.foldl_append

theorem walk_cons (z : Zone) (s : Walk) (t : Token) (ts : List Token) :
    walk z s (t :: ts) = walk z (s.step z t) ts := rfl

@[simp]
theorem walk_exposed (z : Zone) : ∀ ts : List Token, walk z .exposed ts = .exposed
  | [] => rfl
  | _ :: ts => walk_exposed z ts

@[simp]
theorem walk_lost (z : Zone) : ∀ ts : List Token, walk z .lost ts = .lost
  | [] => rfl
  | _ :: ts => walk_lost z ts

/-! ### Brackets around a walk -/

theorem Zone.within_within (z : Zone) (r : List Kind) : ∀ o : List Kind,
    (z.within r).within o = z.within (o ++ r)
  | [] => rfl
  | k :: o => by cases k <;> rfl

theorem nest_append {z : Zone} {r o o' : List Kind} {k : Kind}
    (h : nest (z.within r) o k = some o') : nest z (o ++ r) k = some (o' ++ r) := by
  have hclose : ∀ {o o' k}, nest.close o k = some o' → nest.close (o ++ r) k = some (o' ++ r) := by
    intro o o' k h
    cases o with
    | nil => simp [nest.close] at h
    | cons c o =>
      simp only [nest.close, List.cons_append] at h ⊢
      split at h
      · next hc => rw [if_pos hc, Option.some.inj h]
      · simp at h
  unfold nest at h ⊢
  rw [Zone.within_within] at h
  cases hk : k.closer? with
  | some c =>
    simp only [hk, Option.some.injEq] at h ⊢
    rw [← h, List.cons_append]
  | none =>
    simp only [hk] at h ⊢
    split_ifs at h ⊢
    · exact hclose h
    · rw [Option.some.inj h]
    · rw [← Option.some.inj h, List.cons_append]
    · exact hclose h
    · rw [Option.some.inj h]

/-- The same place with more brackets around. -/
def Walk.around (r : List Kind) : Walk → Walk
  | .amid opened bang => .amid (opened ++ r) bang
  | s => s

theorem Walk.step_around {z : Zone} {r : List Kind} {s : Walk} {t : Token}
    (h : s.step (z.within r) t ≠ .lost) :
    (s.around r).step z t = (s.step (z.within r) t).around r := by
  cases s with
  | lost => rfl
  | exposed => rfl
  | amid opened bang =>
    simp only [step, around, Zone.within_within] at h ⊢
    split_ifs at h ⊢
    · rfl
    · exact absurd rfl h
    · cases hnest : nest (z.within r) opened t.kind with
      | none => simp [hnest] at h
      | some opened' => simp only [nest_append hnest]

/-- A walk does not see the brackets around it, but for the zone they make. -/
theorem walk_around {z : Zone} {r : List Kind} : ∀ {ts : List Token} {s : Walk},
    walk (z.within r) s ts ≠ .lost → walk z (s.around r) ts = (walk (z.within r) s ts).around r
  | [], _, _ => rfl
  | t :: ts, s, h => by
    rw [walk_cons] at h
    have hstep : s.step (z.within r) t ≠ .lost := by
      intro hlost
      rw [hlost, walk_lost] at h
      exact h rfl
    rw [walk_cons, walk_cons, Walk.step_around hstep, walk_around h]

/-! ### Expressions -/

/-- What is known of a walk: the brackets it has opened, and whether it surely stands behind a `!`;
or, with no brackets to speak of, that it is exposed. -/
abbrev Mark := Option (List Kind × Bool)

/-- Walks in keeping with what is known of them. -/
def Walk.Meets : Walk → Mark → Prop
  | .exposed, _ => True
  | .amid opened bang, some (opened', bang') => opened = opened' ∧ (bang' → bang)
  | _, _ => False

/-- What is known after one of two ways. -/
def Mark.join : Mark → Mark → Option Mark
  | none, m => some m
  | m, none => some m
  | some (o, b), some (o', b') => if o = o' then some (some (o, b && b')) else none

/-- What is known after a token of a class. Where any plain token can come, angle brackets must not
count. -/
def Grammar.TokenClass.track (z : Zone) (opened : List Kind) (bang : Bool) : TokenClass → Option Mark
  | .one k =>
    if z.within opened = .bare ∧ k = .lbrace then
      if bang then some none else none
    else (nest z opened k).map fun opened' => some (opened', k = .bang)
  | .plain => if z.within opened = .inside then some (some (opened, false)) else none
  | .pathWord | .literal => some (some (opened, false))

/-- What is known after something derived from an expression, if the rules that are `calm` where
they are used leave no brackets open. -/
def Grammar.Syn.track (calm : Zone → Bool → Rule → Bool) (z : Zone) : Syn → Mark → Option Mark
  | _, none => some none
  | .empty, some m => some (some m)
  | .tok c, some (opened, bang) => c.track z opened bang
  | .rule r, some (opened, bang) =>
    if calm (z.within opened) bang r then some (some (opened, false)) else none
  | .seq a b, some m => (Syn.track calm z a (some m)).bind (Syn.track calm z b)
  | .alt a b, some m =>
    (Syn.track calm z a (some m)).bind fun x => (Syn.track calm z b (some m)).bind (Mark.join x)
  | .star a, some (opened, _) =>
    (Syn.track calm z a (some (opened, false))).bind fun x =>
      if x.all (·.1 = opened) then some (some (opened, false)) else none

/-! ### What derivations do to a walk -/

@[simp]
theorem Walk.meets_exposed (m : Mark) : Walk.exposed.Meets m := by
  cases m <;> trivial

theorem Walk.meets_none {s : Walk} (h : s.Meets none) : s = .exposed := by
  cases s with
  | lost => exact h.elim
  | exposed => rfl
  | amid opened bang => exact h.elim

theorem Walk.Meets.weaken {s : Walk} {opened : List Kind} {m : Mark} (h : s.Meets m)
    (hm : m.all (·.1 = opened)) : s.Meets (some (opened, false)) := by
  cases s with
  | lost => cases m <;> exact h.elim
  | exposed => trivial
  | amid opened' bang =>
    cases m with
    | none => exact h.elim
    | some m =>
      have hopened : m.1 = opened := by simpa using hm
      exact ⟨h.1.trans hopened, fun hb => absurd hb Bool.false_ne_true⟩

theorem Walk.Meets.join_left {s : Walk} {m m' n : Mark} (h : s.Meets m) (hn : m.join m' = some n) :
    s.Meets n := by
  cases m with
  | none =>
    rw [Walk.meets_none h]
    exact Walk.meets_exposed n
  | some m =>
    cases m' with
    | none =>
      obtain rfl := Option.some.inj hn
      exact h
    | some m' =>
      simp only [Mark.join] at hn
      split at hn
      · obtain rfl := Option.some.inj hn
        cases s with
        | lost => exact h.elim
        | exposed => trivial
        | amid opened bang =>
          refine ⟨h.1, fun hb => h.2 ?_⟩
          rw [Bool.and_eq_true] at hb
          exact hb.1
      · simp at hn

theorem Mark.join_comm (m m' : Mark) : m.join m' = m'.join m := by
  cases m with
  | none => cases m' <;> rfl
  | some m =>
    cases m' with
    | none => rfl
    | some m' =>
      simp only [Mark.join]
      by_cases h : m.1 = m'.1
      · rw [if_pos h, if_pos h.symm, h, Bool.and_comm]
      · rw [if_neg h, if_neg (Ne.symm h)]

/-- Words, names and literals are no brackets. -/
theorem nest_word {c : TokenClass} (hc : c = .pathWord ∨ c = .literal) {k : Kind} (hk : c.has k)
    (z : Zone) (opened : List Kind) : nest z opened k = some opened ∧ k ≠ .lbrace := by
  rcases hc with rfl | rfl
  all_goals
    unfold TokenClass.has at hk
    split at hk <;> simp_all [nest, Kind.closer?, Kind.isCloser]

theorem nest_plain {k : Kind} (hk : TokenClass.plain.has k) {z : Zone} {opened : List Kind}
    (hz : z.within opened = .inside) : nest z opened k = some opened := by
  cases k <;> simp_all [nest, Kind.closer?, Kind.isCloser, TokenClass.has]

theorem Grammar.TokenClass.meets_of_track {z : Zone} {c : TokenClass} {t : Token} (ht : c.has t.kind)
    {opened : List Kind} {bang bang' : Bool} {m : Mark} (h : c.track z opened bang' = some m)
    (hb : bang' → bang) : ((Walk.amid opened bang).step z t).Meets m := by
  cases c with
  | one k =>
    obtain rfl : k = t.kind := by simpa [TokenClass.has] using ht
    simp only [TokenClass.track, Walk.step] at h ⊢
    by_cases hbare : z.within opened = .bare ∧ t.kind = .lbrace
    · rw [if_pos hbare] at h ⊢
      cases bang' with
      | false => simp at h
      | true =>
        rw [if_pos (hb rfl)]
        exact Walk.meets_exposed m
    · rw [if_neg hbare] at h ⊢
      obtain ⟨opened', hnest, rfl⟩ := Option.map_eq_some_iff.1 h
      rw [hnest]
      exact ⟨rfl, fun h => h⟩
  | plain =>
    simp only [TokenClass.track] at h
    split at h
    · next hz =>
      obtain rfl := Option.some.inj h
      rw [Walk.step, if_neg (by simp [hz]), nest_plain ht hz]
      exact ⟨rfl, fun h => absurd h Bool.false_ne_true⟩
    · simp at h
  | pathWord =>
    obtain rfl := Option.some.inj h
    obtain ⟨hnest, hne⟩ := nest_word (.inl rfl) ht z opened
    rw [Walk.step, if_neg (fun h => hne h.2), hnest]
    exact ⟨rfl, fun h => absurd h Bool.false_ne_true⟩
  | literal =>
    obtain rfl := Option.some.inj h
    obtain ⟨hnest, hne⟩ := nest_word (.inr rfl) ht z opened
    rw [Walk.step, if_neg (fun h => hne h.2), hnest]
    exact ⟨rfl, fun h => absurd h Bool.false_ne_true⟩

/-- Which rules leave no brackets open, by zone and by whether they stand behind a `!`: their bodies
leave none open if the rules in them do not. -/
def IsCalm (calm : Zone → Bool → Rule → Bool) : Prop :=
  ∀ z bang r, calm z bang r →
    ∃ m, Syn.track calm z (ruleBody r) (some ([], bang)) = some m ∧ m.all (·.1 = [])

theorem Walk.Meets.eq_or_exists {s : Walk} {m : Mark} (h : s.Meets m) : s = .exposed ∨
    ∃ opened bang bang', s = .amid opened bang ∧ m = some (opened, bang') ∧ (bang' → bang) := by
  cases s with
  | lost => cases m <;> exact h.elim
  | exposed => exact Or.inl rfl
  | amid opened bang =>
    cases m with
    | none => exact h.elim
    | some m => exact Or.inr ⟨opened, bang, m.2, rfl, by rw [h.1], h.2⟩

/-- A rule that leaves no brackets open leaves none open within others. -/
theorem Walk.Meets.around {z : Zone} {opened : List Kind} {bang : Bool} {w : List Token} {m : Mark}
    (h : (walk (z.within opened) (.amid [] bang) w).Meets m) (hm : m.all (·.1 = [])) :
    (walk z (.amid opened bang) w).Meets (some (opened, false)) := by
  have hfound : walk (z.within opened) (.amid [] bang) w ≠ .lost := by
    intro hlost
    rw [hlost] at h
    cases m <;> exact h.elim
  have hwalk := walk_around hfound
  rw [Walk.around, List.nil_append] at hwalk
  rw [hwalk]
  rcases (h.weaken hm).eq_or_exists with hexposed | ⟨opened', bang', _, hamid, hsome, -⟩
  · rw [hexposed]
    trivial
  · obtain ⟨rfl, -⟩ := Prod.mk.inj (Option.some.inj hsome)
    rw [hamid]
    exact ⟨rfl, fun h => absurd h Bool.false_ne_true⟩

/-- A walk through something derived goes where the expression says. -/
theorem meets_of_derives {calm : Zone → Bool → Rule → Bool} (hcalm : IsCalm calm) {e : Syn}
    {w : List Token} (h : rust.Derives e w) : ∀ {z : Zone} {s : Walk} {m m' : Mark}, s.Meets m →
    Syn.track calm z e m = some m' → (walk z s w).Meets m' := by
  induction h with
  | empty =>
    intro z s m m' hs hm
    rcases hs.eq_or_exists with rfl | ⟨opened, bang, bang', rfl, rfl, hb⟩
    · simp
    · obtain rfl := Option.some.inj hm
      exact hs
  | @tok c t ht =>
    intro z s m m' hs hm
    rcases hs.eq_or_exists with rfl | ⟨opened, bang, bang', rfl, rfl, hb⟩
    · simp
    · exact c.meets_of_track ht hm hb
  | @rule r w _ ih =>
    intro z s m m' hs hm
    rcases hs.eq_or_exists with rfl | ⟨opened, bang, bang', rfl, rfl, hb⟩
    · simp
    · simp only [Syn.track] at hm
      split at hm
      · next hr =>
        obtain rfl := Option.some.inj hm
        obtain ⟨m, htrack, hm⟩ := hcalm _ _ _ hr
        have hstart : (Walk.amid [] bang).Meets (some ([], bang')) := ⟨rfl, hb⟩
        exact (ih hstart htrack).around hm
      · simp at hm
  | @seq a b u v _ _ iha ihb =>
    intro z s m m' hs hm
    rcases hs.eq_or_exists with rfl | ⟨opened, bang, bang', rfl, rfl, hb⟩
    · simp
    · obtain ⟨n, hn, hm⟩ := Option.bind_eq_some_iff.1 hm
      rw [walk_append]
      exact ihb (iha hs hn) hm
  | @altLeft a b w _ ih =>
    intro z s m m' hs hm
    rcases hs.eq_or_exists with rfl | ⟨opened, bang, bang', rfl, rfl, hb⟩
    · simp
    · obtain ⟨x, hx, hm⟩ := Option.bind_eq_some_iff.1 hm
      obtain ⟨y, -, hm⟩ := Option.bind_eq_some_iff.1 hm
      exact (ih hs hx).join_left hm
  | @altRight a b w _ ih =>
    intro z s m m' hs hm
    rcases hs.eq_or_exists with rfl | ⟨opened, bang, bang', rfl, rfl, hb⟩
    · simp
    · obtain ⟨x, -, hm⟩ := Option.bind_eq_some_iff.1 hm
      obtain ⟨y, hy, hm⟩ := Option.bind_eq_some_iff.1 hm
      rw [Mark.join_comm] at hm
      exact (ih hs hy).join_left hm
  | @starNil a =>
    intro z s m m' hs hm
    rcases hs.eq_or_exists with rfl | ⟨opened, bang, bang', rfl, rfl, hb⟩
    · simp
    · obtain ⟨x, -, hm⟩ := Option.bind_eq_some_iff.1 hm
      split at hm
      · obtain rfl := Option.some.inj hm
        exact hs.weaken (by simp)
      · simp at hm
  | @starCons a u v _ _ iha ihb =>
    intro z s m m' hs hm
    rcases hs.eq_or_exists with rfl | ⟨opened, bang, bang', rfl, rfl, hb⟩
    · simp
    · have hm' := hm
      obtain ⟨x, hx, hm⟩ := Option.bind_eq_some_iff.1 hm
      split at hm
      · next hall =>
        rw [walk_append]
        have hstart : (Walk.amid opened bang).Meets (some (opened, false)) := hs.weaken (by simp)
        have hbody := iha hstart hx
        exact ihb (hbody.weaken hall) hm'
      · simp at hm

/-! ### The rules of headers and bodies -/

/-- Rules of members, which may hold a semicolon or any plain token outside brackets. -/
def memberRules : List Rule :=
  [.implBlock, .methodMember, .constMember, .typeMember, .macroMember, .foreignMember, .fnItem,
   .fnParam, .constInit]

/-- Rules that may hold braces outside brackets of their own. -/
def braceRules : List Rule :=
  [.implBlock, .implBody, .genericParam, .constParam, .constValue, .constArg]

/-- Rules that leave no brackets open. A group in braces outside all brackets is that of a macro. -/
def calm : Zone → Bool → Rule → Bool
  | .inside, _, _ => true
  | .angled, _, r => r ∉ memberRules
  | .bare, bang, r => r ∉ memberRules ∧ r ∉ braceRules ∧ (r = .braceTree → bang)

theorem isCalm_calm : IsCalm calm := by
  have hall : ∀ z ∈ [Zone.bare, .angled, .inside], ∀ bang ∈ [false, true], ∀ r ∈ Rule.all,
      calm z bang r → (Syn.track calm z (ruleBody r) (some ([], bang))).any (·.all (·.1 = [])) := by
    decide +kernel
  intro z bang r hr
  have htrack := hall z (by cases z <;> simp) bang (by cases bang <;> simp) r (rust_listed r) hr
  cases hm : Syn.track calm z (ruleBody r) (some ([], bang)) with
  | none => simp [hm] at htrack
  | some m => exact ⟨m, rfl, by simpa [hm] using htrack⟩

end TraitLift
