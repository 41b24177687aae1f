import Mathlib.Tactic
import TraitLift.Proofs.Expand.Splice

/-!
When a name is reported as used twice (`expandSource_collisions`). The check remembers only the first
block of each name, which is enough: a lifted block is reported exactly if a block before it has its
name and the name of the block itself, or of the first one that has it, was made from a fingerprint
(`Clash`). So a name is reported as soon as two blocks have it and any of them has it from a fingerprint,
in whatever order they stand.
-/

namespace TraitLift

/-! ### Names of lifted blocks -/

namespace Made

/-- The name of the trait that was made of the block. -/
def ident (m : Made) : String := m.expansion.name.ident

/-- Whether the name was made from a fingerprint. -/
def isDerived (m : Made) : Bool := m.expansion.name.derived

end Made

/-- The block `later` at `j` has the name of a block before it, the first of which is `first`, and the
name of one of the two was made from a fingerprint. -/
structure Clash (ms : List Made) (j : Nat) (first later : Made) : Prop where
  later_at : ms[j]? = some later
  first_before : (ms.take j).find? (fun m => m.ident == later.ident) = some first
  derived : later.isDerived = true ∨ first.isDerived = true

/-- The lifted blocks of a text, in order. -/
def liftedIn (source : String) (file : Option String) (c : Config) : List Made :=
  match lex source with
  | .ok ts => madeOf source.toList file c (sitesOf source.toList c ts)
  | .error _ => []

namespace Diagnostic

/-- Whether the report is a warning about a name. -/
def isCollision (d : Diagnostic) : Bool := d.code == some "W-EXT-NAME-COLLISION"

/-- What a warning says about a name. -/
def collisionMessage (ident : String) : String :=
  "derived trait name `" ++ ident ++ "` is used by more than one ext impl"

/-- The report warns, at the block `later`, that its name is the one of `first`. -/
structure Warns (d : Diagnostic) (file : Option String) (first later : Made) : Prop where
  code : d.code = some "W-EXT-NAME-COLLISION"
  severity : d.severity = .warning
  message : d.message = collisionMessage later.ident
  place : d.span = (Span.ofLoc later.site.first.loc).withFile file
  note : "first used by the impl at line " ++ toString first.site.first.loc.line ∈ d.notes

end Diagnostic

/-- What the warnings about names are in the result of expanding a text. -/
structure CollisionsExact (source : String) (file : Option String) (c : Config) : Prop where
  /-- The expansions are those of the lifted blocks. -/
  lifted : (expandSource source file c).expansions = (liftedIn source file c).map Made.expansion
  /-- There is one warning for each clash, in the order of the later blocks. -/
  warnings : ∃ js : List Nat, js.Pairwise (· < ·) ∧
    (∀ j, j ∈ js ↔ ∃ first later, Clash (liftedIn source file c) j first later) ∧
    List.Forall₂ (fun j d => ∃ first later,
        Clash (liftedIn source file c) j first later ∧ d.Warns file first later)
      js ((expandSource source file c).diagnostics.filter Diagnostic.isCollision)
  /-- There is a warning about a name exactly if two expansions have it and one of those that have it
  has it from a fingerprint. -/
  warned : ∀ ident, (∃ d ∈ (expandSource source file c).diagnostics, d.isCollision = true ∧
      d.message = Diagnostic.collisionMessage ident) ↔
    2 ≤ (expandSource source file c).expansions.countP (fun e => e.name.ident == ident) ∧
      ∃ e ∈ (expandSource source file c).expansions, e.name.ident = ident ∧ e.name.derived = true
  /-- The result is as good as it is without the warnings. -/
  harmless : (expandSource source file c).isOk =
    !hasErrors ((expandSource source file c).diagnostics.filter fun d => !d.isCollision)
  /-- The text has every lifted block in its place, those with a warning included. -/
  text : (expandSource source file c).text.toList =
    splice source.toList 0 (liftedIn source file c)

/-- A warning tells the name that it is about. -/
theorem Diagnostic.collisionMessage_inj {a b : String}
    (h : collisionMessage a = collisionMessage b) : a = b :=
  (String.append_right_inj _).1 ((String.append_left_inj _).1 h)

/-! ### Clashes -/

/-- A member of a list stands beside a member of the other one. -/
theorem exists_beside {α β : Type} {R : α → β → Prop} {as : List α} {bs : List β}
    (h : List.Forall₂ R as bs) {a : α} (ha : a ∈ as) : ∃ b ∈ bs, R a b := by
  induction h with
  | nil => simp at ha
  | cons hab _ ih =>
    rcases List.mem_cons.1 ha with rfl | ha
    · exact ⟨_, List.mem_cons_self, hab⟩
    · obtain ⟨b, hb, hR⟩ := ih ha
      exact ⟨b, List.mem_cons_of_mem _ hb, hR⟩

/-- What follows a block does not matter for its clash. -/
theorem clash_append {front ms : List Made} {m first later : Made} :
    Clash (front ++ m :: ms) front.length first later ↔
      later = m ∧ front.find? (fun p => p.ident == m.ident) = some first ∧
        (m.isDerived = true ∨ first.isDerived = true) := by
  constructor
  · rintro ⟨hlater, hfirst, hderived⟩
    obtain rfl : m = later := by simpa using hlater
    exact ⟨rfl, by simpa using hfirst, hderived⟩
  · rintro ⟨rfl, hfirst, hderived⟩
    exact ⟨by simp, by simpa using hfirst, hderived⟩

/-- Two blocks of a name, and one that has it from a fingerprint, make a clash. -/
theorem exists_clash {ms : List Made} {ident : String} (htwo : 2 ≤ ms.countP (·.ident == ident))
    (hone : ∃ m ∈ ms, m.ident = ident ∧ m.isDerived = true) :
    ∃ j first later, Clash ms j first later ∧ later.ident = ident := by
  obtain ⟨m, hm, hident, hderived⟩ := hone
  obtain ⟨first, hfind⟩ : ∃ first, ms.find? (·.ident == ident) = some first :=
    Option.isSome_iff_exists.1 (List.find?_isSome.2 ⟨m, hm, by simp [hident]⟩)
  obtain ⟨hfirst, front, back, rfl, hfront⟩ := List.find?_eq_some_iff_append.1 hfind
  have hnone : front.countP (·.ident == ident) = 0 :=
    List.countP_eq_zero.2 fun x hx => by simpa using hfront x hx
  have hback : 0 < back.countP (·.ident == ident) := by
    rw [List.countP_append, hnone, List.countP_cons, if_pos hfirst] at htwo
    omega
  -- one that is not the first has the name, and it or the first has it from a fingerprint
  obtain ⟨later, hlater, hname, hmade⟩ : ∃ later ∈ back, later.ident = ident ∧
      (later.isDerived = true ∨ first.isDerived = true) := by
    rcases List.mem_append.1 hm with hm | hm
    · exact absurd hident (by simpa using hfront m hm)
    rcases List.mem_cons.1 hm with rfl | hm
    · obtain ⟨x, hx, hxident⟩ := List.countP_pos_iff.1 hback
      exact ⟨x, hx, by simpa using hxident, .inr hderived⟩
    · exact ⟨m, hm, hident, .inl hderived⟩
  obtain ⟨mid, rest, rfl⟩ := List.append_of_mem hlater
  refine ⟨(front ++ first :: mid).length, first, later, ?_, hname⟩
  have hsplit : front ++ first :: (mid ++ later :: rest) =
      (front ++ first :: mid) ++ later :: rest := by simp
  rw [hsplit, clash_append, hname]
  exact ⟨rfl, List.find?_eq_some_iff_append.2 ⟨hfirst, front, mid, rfl, hfront⟩, hmade⟩

/-- In a clash two blocks have the name, and one has it from a fingerprint. -/
theorem Clash.two_le {ms : List Made} {j : Nat} {first later : Made} (h : Clash ms j first later) :
    2 ≤ ms.countP (·.ident == later.ident) ∧
      ∃ m ∈ ms, m.ident = later.ident ∧ m.isDerived = true := by
  obtain ⟨hj, hlater⟩ := List.getElem?_eq_some_iff.1 h.later_at
  have hsplit : ms = ms.take j ++ later :: ms.drop (j + 1) := by
    rw [← hlater, List.getElem_cons_drop, List.take_append_drop]
  have hfirst : first ∈ ms.take j := List.mem_of_find?_eq_some h.first_before
  have hident : first.ident = later.ident := by simpa using List.find?_some h.first_before
  constructor
  · have hfront : 0 < (ms.take j).countP (·.ident == later.ident) :=
      List.countP_pos_iff.2 ⟨first, hfirst, by simp [hident]⟩
    rw [hsplit, List.countP_append, List.countP_cons]
    simp only [beq_self_eq_true, if_true]
    omega
  · rcases h.derived with hd | hd
    · exact ⟨later, List.mem_of_getElem? h.later_at, rfl, hd⟩
    · exact ⟨first, List.mem_of_mem_take hfirst, hident, hd⟩

/-! ### The check -/

/-- Every warning is one on two blocks. -/
theorem exists_of_mem_collisions (file : Option String) : ∀ {seen ms : List Made} {d : Diagnostic},
    d ∈ collisions file seen ms → ∃ first later, later ∈ ms ∧ d = collision first later file
  | _, [], _, hd => by simp [collisions] at hd
  | seen, m :: ms, d, hd => by
    have hlater : ∀ {seen}, d ∈ collisions file seen ms →
        ∃ first later, later ∈ m :: ms ∧ d = collision first later file := by
      intro seen h
      obtain ⟨first, later, hmem, heq⟩ := exists_of_mem_collisions file h
      exact ⟨first, later, List.mem_cons_of_mem m hmem, heq⟩
    rw [collisions] at hd
    split at hd
    · exact hlater hd
    · next first _ =>
      split at hd
      · rcases List.mem_cons.1 hd with rfl | hd
        · exact ⟨first, m, List.mem_cons_self, rfl⟩
        · exact hlater hd
      · exact hlater hd

theorem collision_warns (first later : Made) (file : Option String) :
    (collision first later file).Warns file first later :=
  ⟨rfl, rfl, rfl, rfl, List.mem_cons_self⟩

/-- The blocks that are remembered answer for all blocks so far: each name is first used by the same. -/
def Remembers (seen front : List Made) : Prop :=
  ∀ ident, seen.find? (fun m => m.ident == ident) = front.find? (fun m => m.ident == ident)

/-- A block of a name that is known need not be remembered. -/
theorem Remembers.skip {seen front : List Made} (h : Remembers seen front) {m first : Made}
    (hseen : seen.find? (fun p => p.ident == m.ident) = some first) :
    Remembers seen (front ++ [m]) := by
  intro ident
  rw [List.find?_append, ← h ident]
  by_cases hm : m.ident = ident
  · rw [← hm, hseen, Option.some_or]
  · simp [hm]

theorem Remembers.push {seen front : List Made} (h : Remembers seen front) (m : Made) :
    Remembers (seen ++ [m]) (front ++ [m]) := by
  intro ident
  rw [List.find?_append, List.find?_append, h ident]

/-- The warnings on the blocks `ms` behind `front` are those on their clashes. -/
theorem collisions_clashes (file : Option String) : ∀ seen front ms : List Made,
    Remembers seen front → ∃ js : List Nat, js.Pairwise (· < ·) ∧
      (∀ j, j ∈ js ↔ front.length ≤ j ∧ ∃ first later, Clash (front ++ ms) j first later) ∧
      List.Forall₂ (fun j d => ∃ first later,
        Clash (front ++ ms) j first later ∧ d.Warns file first later) js (collisions file seen ms)
  | seen, front, [], _ => by
    refine ⟨[], List.Pairwise.nil, fun j => ?_, .nil⟩
    simp only [List.not_mem_nil, List.append_nil, false_iff, not_and, not_exists]
    intro hj first later h
    have := (List.getElem?_eq_some_iff.1 h.later_at).1
    omega
  | seen, front, m :: ms, hseen => by
    have hmove : front ++ m :: ms = front ++ [m] ++ ms := by simp
    -- the places behind `m` are those of the clashes that the rest of the check finds
    have hlater : ∀ {js : List Nat}, (∀ j, j ∈ js ↔ (front ++ [m]).length ≤ j ∧
        ∃ first later, Clash (front ++ [m] ++ ms) j first later) →
        ∀ j, j ∈ js ↔ front.length < j ∧ ∃ first later, Clash (front ++ m :: ms) j first later := by
      intro js hjs j
      rw [hjs, hmove, List.length_append, List.length_singleton, Nat.succ_le_iff]
    have hquiet : ∀ {js : List Nat},
      (¬∃ first later, Clash (front ++ m :: ms) front.length first later) →
        (∀ j, j ∈ js ↔ front.length < j ∧ ∃ first later, Clash (front ++ m :: ms) j first later) →
        ∀ j, j ∈ js ↔ front.length ≤ j ∧
          ∃ first later, Clash (front ++ m :: ms) j first later := by
      intro js hnone hjs j
      rw [hjs, Nat.le_iff_lt_or_eq]
      constructor
      · exact fun h => ⟨.inl h.1, h.2⟩
      · rintro ⟨hlt | rfl, h⟩
        · exact ⟨hlt, h⟩
        · exact absurd h hnone
    rw [collisions]
    cases hfind : seen.find? (fun p => p.expansion.name.ident == m.expansion.name.ident) with
    | none =>
      obtain ⟨js, hsorted, hmem, hall⟩ := collisions_clashes file _ _ ms (hseen.push m)
      refine ⟨js, hsorted, hquiet ?_ (hlater hmem), by rwa [← hmove] at hall⟩
      rintro ⟨first, later, h⟩
      have hfirst := (clash_append.1 h).2.1
      rw [← hseen m.ident, Made.ident] at hfirst
      exact absurd hfirst (by simp [Made.ident, hfind])
    | some first =>
      obtain ⟨js, hsorted, hmem, hall⟩ := collisions_clashes file _ _ ms (hseen.skip hfind)
      have hfirst : front.find? (fun p => p.ident == m.ident) = some first := by
        rw [← hseen m.ident]
        exact hfind
      rw [← hmove] at hall
      by_cases hderived : m.isDerived = true ∨ first.isDerived = true
      · have hclash : Clash (front ++ m :: ms) front.length first m :=
          clash_append.2 ⟨rfl, hfirst, hderived⟩
        refine ⟨front.length :: js, List.pairwise_cons.2 ⟨fun j hj => ((hlater hmem j).1 hj).1,
          hsorted⟩, fun j => ?_, ?_⟩
        · rw [List.mem_cons, hlater hmem, Nat.le_iff_lt_or_eq]
          constructor
          · rintro (rfl | h)
            · exact ⟨.inr rfl, first, m, hclash⟩
            · exact ⟨.inl h.1, h.2⟩
          · rintro ⟨hlt | rfl, h⟩
            · exact .inr ⟨hlt, h⟩
            · exact .inl rfl
        · simp only
          rw [if_pos (by simpa [Made.isDerived] using hderived)]
          exact .cons ⟨first, m, hclash, collision_warns first m file⟩ hall
      · refine ⟨js, hsorted, hquiet ?_ (hlater hmem), ?_⟩
        · rintro ⟨first', later, h⟩
          obtain ⟨-, hfirst', hd⟩ := clash_append.1 h
          obtain rfl : first = first' := Option.some.inj (hfirst.symm.trans hfirst')
          exact hderived hd
        · simp only
          rwa [if_neg (by simpa [Made.isDerived] using hderived)]

/-! ### All other reports -/

theorem Fault.not_collision (f : Fault) (file : Option String) :
    (f.toDiagnostic file).isCollision = false := by
  cases f <;> simp [Fault.toDiagnostic, Diagnostic.isCollision, Fault.code]

theorem Site.failure?_not_collision {s : Site} {source : List Char} {file : Option String}
    {c : Config} {d : Diagnostic} (h : s.failure? source file c = some d) :
    d.isCollision = false := by
  have herror : s.expand source file c = .error d := by
    unfold Site.failure? at h
    split at h
    · rename_i d' hd
      rw [hd, Option.some.inj h]
    · simp at h
  cases hargs : s.args file with
  | error d' =>
    obtain rfl : d' = d := by
      rw [Site.expand, hargs] at herror
      exact Except.error.inj herror
    unfold Site.args at hargs
    split at hargs
    · simp at hargs
    · next a _ =>
      cases hp : parseArgs a.text with
      | ok args => simp [hp, Except.mapError] at hargs
      | error f =>
        simp only [hp, Except.mapError, Except.error.injEq] at hargs
        rw [← hargs]
        exact f.not_collision none
  | ok args =>
    rcases Site.expand_of_args source c hargs with ⟨e, text, -, -, he⟩ | ⟨f, -, hf⟩
    · simp [herror] at he
    · rw [herror, Except.error.injEq] at hf
      rw [hf]
      exact f.not_collision none

theorem Finding.diagnostic?_not_collision {f : Finding} {file : Option String} {d : Diagnostic}
    (h : f.diagnostic? file = some d) : d.isCollision = false := by
  cases f with
  | site s => simp [Finding.diagnostic?] at h
  | problem e loc =>
    rw [← Option.some.inj h]
    simp [MarkError.toDiagnostic, Diagnostic.isCollision]

/-- The warnings about names are the reports of the check on names. -/
theorem filter_isCollision (source : String) (file : Option String) (c : Config) :
    (expandSource source file c).diagnostics.filter Diagnostic.isCollision =
      collisions file [] (liftedIn source file c) := by
  have hkept : (collisions file [] (liftedIn source file c)).filter Diagnostic.isCollision =
      collisions file [] (liftedIn source file c) := by
    refine List.filter_eq_self.2 fun d hd => ?_
    obtain ⟨first, later, -, rfl⟩ := exists_of_mem_collisions file hd
    simp [Diagnostic.isCollision, (collision_warns first later file).code]
  cases hlex : lex source with
  | error f =>
    simp [expandSource, liftedIn, hlex, f.not_collision, collisions]
  | ok ts =>
    have hmarks : ((findings source.toList c ts).filterMap (Finding.diagnostic? file)).filter
        Diagnostic.isCollision = [] := by
      refine List.filter_eq_nil_iff.2 fun d hd => ?_
      obtain ⟨f, -, hf⟩ := List.mem_filterMap.1 hd
      simp [Finding.diagnostic?_not_collision hf]
    have hsites : ((sitesOf source.toList c ts).filterMap
        (Site.failure? source.toList file c)).filter Diagnostic.isCollision = [] := by
      refine List.filter_eq_nil_iff.2 fun d hd => ?_
      obtain ⟨s, -, hs⟩ := List.mem_filterMap.1 hd
      simp [Site.failure?_not_collision hs]
    simp only [liftedIn, hlex] at hkept ⊢
    simp only [expandSource_eq hlex, List.filter_append, hmarks, hsites, hkept, List.nil_append]

/-- The new text has every lifted block in its place. -/
theorem text_expandSource_lifted (source : String) (file : Option String) (c : Config) :
    (expandSource source file c).text.toList = splice source.toList 0 (liftedIn source file c) := by
  cases hlex : lex source with
  | error f => simp [expandSource, liftedIn, hlex, splice]
  | ok ts => simp [expandSource_eq hlex, liftedIn, hlex]

/-- The warnings about names are exactly those on clashes. -/
theorem expandSource_collisions (source : String) (file : Option String) (c : Config) :
    CollisionsExact source file c := by
  have hfilter := filter_isCollision source file c
  obtain ⟨js, hsorted, hmem, hall⟩ :=
    collisions_clashes file [] [] (liftedIn source file c) fun ident => rfl
  simp only [List.length_nil, Nat.zero_le, true_and, List.nil_append] at hmem hall
  have hlifted : (expandSource source file c).expansions =
      (liftedIn source file c).map Made.expansion := by
    cases hlex : lex source with
    | error f => simp [expandSource, liftedIn, hlex]
    | ok ts => rw [expandSource_eq hlex, liftedIn, hlex]
  refine ⟨hlifted, ⟨js, hsorted, hmem, hfilter ▸ hall⟩, fun ident => ?_, ?_,
    text_expandSource_lifted source file c⟩
  · have hcount : ((liftedIn source file c).map Made.expansion).countP (·.name.ident == ident) =
        (liftedIn source file c).countP (·.ident == ident) := List.countP_map ..
    rw [hlifted, hcount]
    constructor
    · rintro ⟨d, hd, hcollision, hmessage⟩
      have hwarning : d ∈ collisions file [] (liftedIn source file c) :=
        hfilter ▸ List.mem_filter.2 ⟨hd, hcollision⟩
      obtain ⟨j, -, first, later, hclash, hwarns⟩ := exists_beside hall.flip hwarning
      obtain rfl : later.ident = ident :=
        Diagnostic.collisionMessage_inj (hwarns.message.symm.trans hmessage)
      obtain ⟨htwo, m, hm, hident, hderived⟩ := hclash.two_le
      exact ⟨htwo, m.expansion, List.mem_map_of_mem hm, hident, hderived⟩
    · rintro ⟨htwo, e, he, hident, hderived⟩
      obtain ⟨m, hm, rfl⟩ := List.mem_map.1 he
      obtain ⟨j, first, later, hclash, hname⟩ := exists_clash htwo ⟨m, hm, hident, hderived⟩
      obtain ⟨d, hwarning, first', later', hclash', hwarns⟩ :=
        exists_beside hall ((hmem j).2 ⟨first, later, hclash⟩)
      obtain rfl : later = later' := Option.some.inj (hclash.later_at.symm.trans hclash'.later_at)
      rw [← hfilter] at hwarning
      obtain ⟨hd, hcollision⟩ := List.mem_filter.1 hwarning
      exact ⟨d, hd, hcollision, hname ▸ hwarns.message⟩
  · -- what the filter takes away is no error
    have hwarn : ∀ d ∈ (expandSource source file c).diagnostics, d.isCollision = true →
        d.isError = false := fun d hd hcollision => by
      have hmem : d ∈ collisions file [] (liftedIn source file c) :=
        hfilter ▸ List.mem_filter.2 ⟨hd, hcollision⟩
      simp [Diagnostic.isError, collisions_severity file _ _ d hmem]
    rw [Expanded.isOk, hasErrors, hasErrors, List.any_filter, Bool.not_inj_iff, Bool.eq_iff_iff,
      List.any_eq_true, List.any_eq_true]
    refine exists_congr fun d => and_congr_right fun hd => ?_
    cases hcollision : d.isCollision with
    | true => simp [hwarn d hd hcollision]
    | false => simp

end TraitLift
