import Mathlib.Tactic
import TraitLift.Proofs.Lift.Constraints

/-!
The steps of lifting in any order. A `Stage` is one of the steps that turn a block into another one,
and `run` takes them one after the other. What a block asks for, at its parameters and in its where
clause, `Self` and the self type being the same, is kept by every stage (`Keeps`). Once bounds
have been hoisted and predicates linked after that, it is all in the where clause, and stays there.
Main statement: two runs that do this, and that agree on what else is done at all, end in the same
block up to the order and repetition of predicates.
-/

namespace TraitLift

/-- The block with members that have no visibility of their own. -/
def ImplBlock.stripVisibility (b : ImplBlock) : ImplBlock :=
  { b with items := b.items.map Member.stripVisibility }

/-- One of the steps that turn a block into another. -/
inductive Stage where
  | hoist
  | link
  | strip
  | aim
deriving DecidableEq, Repr

/-- The block after one step; `name` is the trait that blocks are aimed at. -/
def Stage.apply (name : String) : Stage → ImplBlock → Except Misplaced ImplBlock
  | hoist, b => .ok b.hoistBounds
  | link, b => .ok b.linkSelf
  | strip, b => .ok b.stripVisibility
  | aim, b => b.retarget name

/-- The block after some steps, from the first to the last. -/
def ImplBlock.run (name : String) (b : ImplBlock) : List Stage → Except Misplaced ImplBlock
  | [] => .ok b
  | s :: ss => (s.apply name b).bind fun b' => b'.run name ss

/-! ### Parameters and members that a stage leaves -/

theorem GenericParam.withoutBounds_withoutBounds (p : GenericParam) :
    p.withoutBounds.withoutBounds = p.withoutBounds := withoutBounds_eq_self p.isPlain_withoutBounds

theorem GenericParam.toArg_withoutBounds (p : GenericParam) : p.withoutBounds.toArg = p.toArg := by
  cases p <;> rfl

theorem Member.stripVisibility_stripVisibility (m : Member) :
    m.stripVisibility.stripVisibility = m.stripVisibility := by
  cases m <;> rfl

/-- The parameters of a block without the bounds written at them. -/
def ImplBlock.plainParams (b : ImplBlock) : List GenericParam :=
  b.generics.params.map GenericParam.withoutBounds

/-- The members of a block without the visibility written at them. -/
def ImplBlock.bareItems (b : ImplBlock) : List Member := b.items.map Member.stripVisibility

theorem contractPath_withoutBounds (name : String) (ps : List GenericParam) :
    contractPath name (ps.map GenericParam.withoutBounds) = contractPath name ps := by
  have hmapM : ∀ ps : List GenericParam,
      (ps.map GenericParam.withoutBounds).mapM GenericParam.toArg = ps.mapM GenericParam.toArg := by
    intro ps
    induction ps with
    | nil => rfl
    | cons p ps ih => simp only [List.map_cons, List.mapM_cons, GenericParam.toArg_withoutBounds, ih]
  rw [contractPath, contractPath, projectParams, projectParams, hmapM, List.isEmpty_map]

/-- What comes of aiming a block at a trait: the same, or the same fault, whatever is hoisted. -/
theorem ImplBlock.retarget_eq (b : ImplBlock) (name : String) :
    b.retarget name = (contractPath name b.plainParams).map fun path =>
      { b with traitRef := some { path }, items := b.bareItems } := by
  rw [plainParams, contractPath_withoutBounds]
  unfold retarget
  cases contractPath name b.generics.params <;> rfl

/-- Only a node that is no parameter keeps a block from being aimed at a trait. -/
theorem exists_misplaced_of_contractPath {name : String} {ps : List GenericParam} {m : Misplaced}
    (h : contractPath name ps = .error m) : ∃ kind, .misplaced kind ∈ ps := by
  have hmapM : ∀ ps : List GenericParam, ps.mapM GenericParam.toArg = .error m →
      ∃ kind, .misplaced kind ∈ ps := by
    intro ps hps
    induction ps with
    | nil => simp [pure, Except.pure] at hps
    | cons p ps ih =>
      rw [List.mapM_cons] at hps
      cases hp : p.toArg with
      | error m' =>
        cases p with
        | misplaced kind => exact ⟨kind, List.mem_cons_self⟩
        | type => simp [GenericParam.toArg] at hp
        | lifetime => simp [GenericParam.toArg] at hp
        | const => simp [GenericParam.toArg] at hp
      | ok a =>
        cases hrest : ps.mapM GenericParam.toArg with
        | ok as => simp [hp, hrest, bind, Except.bind, pure, Except.pure] at hps
        | error m' =>
          obtain rfl : m' = m := by simpa [hp, hrest, bind, Except.bind] using hps
          obtain ⟨kind, hkind⟩ := ih hrest
          exact ⟨kind, List.mem_cons_of_mem p hkind⟩
  unfold contractPath projectParams at h
  split at h
  · simp [Except.map] at h
  · cases has : ps.mapM GenericParam.toArg with
    | ok as => simp [has, Except.map] at h
    | error m' =>
      obtain rfl : m' = m := by simpa [has, Except.map] using h
      exact hmapM ps has

/-! ### What a block asks for -/

namespace ImplBlock

/-- The block asks for `q`: in its where clause or at its parameters, or it asks for the same with
`Self` and the self type exchanged. -/
def Asks (b : ImplBlock) (q : Predicate) : Prop :=
  ∃ p ∈ b.generics.predicates ++ b.hoisted, p = q ∨ Predicate.Mirrors b.selfTy p q

/-- All that a block asks for is in its where clause. -/
def Settled (b : ImplBlock) : Prop := ∀ q, b.Asks q → q ∈ b.generics.predicates

theorem asks_of_mem {b : ImplBlock} {q : Predicate} (h : q ∈ b.generics.predicates) : b.Asks q :=
  ⟨q, List.mem_append_left _ h, Or.inl rfl⟩

theorem hoisted_eq_nil {b : ImplBlock} (h : b.generics.params = b.plainParams) : b.hoisted = [] := by
  rw [hoisted, List.filterMap_eq_nil_iff, h]
  intro p hp
  obtain ⟨p, -, rfl⟩ := List.mem_map.1 hp
  exact GenericParam.predicate?_eq_none_iff.2 p.isPlain_withoutBounds

theorem Asks.of_mirrors {b : ImplBlock} {p q : Predicate} (hp : b.Asks p)
    (h : Predicate.Mirrors b.selfTy p q) : b.Asks q := by
  obtain ⟨r, hr, rfl | hrp⟩ := hp
  · exact ⟨r, hr, Or.inr h⟩
  · by_cases hself : b.selfTy = TypeExpr.selfAlias
    · -- the self type is written `Self`, so mirroring changes nothing
      have hpq : p = q := by
        rcases h with _ | _ <;> rw [hself]
      exact ⟨r, hr, Or.inr (hpq ▸ hrp)⟩
    · exact ⟨r, hr, Or.inl (hrp.eq_of_mirrors hself h)⟩

theorem plainParams_hoistBounds (b : ImplBlock) : b.hoistBounds.plainParams = b.plainParams := by
  rw [plainParams, params_hoistBounds, plainParams, List.map_map]
  exact List.map_congr_left fun p _ => p.withoutBounds_withoutBounds

theorem params_hoistBounds_eq_plainParams (b : ImplBlock) :
    b.hoistBounds.generics.params = b.hoistBounds.plainParams := by
  rw [plainParams_hoistBounds, params_hoistBounds, plainParams]

theorem asks_hoistBounds (b : ImplBlock) (q : Predicate) : b.hoistBounds.Asks q ↔ b.Asks q := by
  rw [Asks, hoisted_eq_nil b.params_hoistBounds_eq_plainParams, List.append_nil,
    predicates_hoistBounds, selfTy_hoistBounds, Asks]

theorem selfTy_linkSelf (b : ImplBlock) : b.linkSelf.selfTy = b.selfTy := by
  unfold linkSelf
  split <;> rfl

theorem hoisted_linkSelf (b : ImplBlock) : b.linkSelf.hoisted = b.hoisted := by
  rw [hoisted, params_linkSelf, hoisted]

theorem asks_linkSelf (b : ImplBlock) (q : Predicate) : b.linkSelf.Asks q ↔ b.Asks q := by
  constructor
  · rintro ⟨p, hp, hpq⟩
    rw [selfTy_linkSelf] at hpq
    have hasks : b.Asks p := by
      rw [predicates_linkSelf, hoisted_linkSelf, List.mem_append, List.mem_append] at hp
      rcases hp with (hp | htwin) | hp
      · exact asks_of_mem hp
      · obtain ⟨-, -, r, hr, hrp⟩ := mem_twins_iff.1 htwin
        exact (asks_of_mem hr).of_mirrors hrp
      · exact ⟨p, List.mem_append_right _ hp, Or.inl rfl⟩
    rcases hpq with rfl | hpq
    · exact hasks
    · exact hasks.of_mirrors hpq
  · rintro ⟨p, hp, hpq⟩
    refine ⟨p, ?_, by rwa [selfTy_linkSelf]⟩
    rw [predicates_linkSelf, hoisted_linkSelf]
    rcases List.mem_append.1 hp with hp | hp
    · exact List.mem_append_left _ (List.mem_append_left _ hp)
    · exact List.mem_append_right _ hp

/-- Linking settles a block that has no bounds at its parameters. -/
theorem settled_linkSelf {b : ImplBlock} (h : b.generics.params = b.plainParams) :
    b.linkSelf.Settled := by
  intro q hq
  obtain ⟨p, hp, hpq⟩ := (asks_linkSelf b q).1 hq
  rw [hoisted_eq_nil h, List.append_nil] at hp
  rw [predicates_linkSelf, List.mem_append]
  rcases hpq with rfl | hpq
  · exact Or.inl hp
  · by_cases hold : q ∈ b.generics.predicates
    · exact Or.inl hold
    · refine Or.inr (mem_twins_iff.2 ⟨fun hself => hold ?_, hold, p, hp, hpq⟩)
      have heq : p = q := by
        rcases hpq with _ | _ <;> rw [hself]
      exact heq ▸ hp

end ImplBlock

/-! ### One stage -/

theorem ImplBlock.hoistBounds_eq (b : ImplBlock) :
    b.hoistBounds = { b with generics := b.hoistBounds.generics } := by
  unfold hoistBounds
  split <;> rfl

theorem ImplBlock.linkSelf_eq (b : ImplBlock) :
    b.linkSelf = { b with generics := b.linkSelf.generics } := by
  unfold linkSelf
  split <;> rfl

/-- All that a stage can do. -/
theorem Stage.apply_cases {name : String} {s : Stage} {b b' : ImplBlock}
    (h : s.apply name b = .ok b') :
    (s = .hoist ∧ b' = b.hoistBounds) ∨ (s = .link ∧ b' = b.linkSelf) ∨
    (s = .strip ∧ b' = { b with items := b.bareItems }) ∨
    (s = .aim ∧ ∃ path, contractPath name b.plainParams = .ok path ∧
      b' = { b with traitRef := some { path }, items := b.bareItems }) := by
  cases s with
  | hoist => exact Or.inl ⟨rfl, (Except.ok.inj h).symm⟩
  | link => exact Or.inr (Or.inl ⟨rfl, (Except.ok.inj h).symm⟩)
  | strip => exact Or.inr (Or.inr (Or.inl ⟨rfl, (Except.ok.inj h).symm⟩))
  | aim =>
    rw [apply, ImplBlock.retarget_eq] at h
    cases hpath : contractPath name b.plainParams with
    | error m => simp [hpath, Except.map] at h
    | ok path =>
      simp only [hpath, Except.map, Except.ok.injEq] at h
      exact Or.inr (Or.inr (Or.inr ⟨rfl, path, rfl, h.symm⟩))

/-- What no stage changes, and what no stage undoes. -/
structure Keeps (b b' : ImplBlock) : Prop where
  plainParams : b'.plainParams = b.plainParams
  bareItems : b'.bareItems = b.bareItems
  asks : ∀ q, b'.Asks q ↔ b.Asks q
  predicates : b.generics.predicates ⊆ b'.generics.predicates
  params : b.generics.params = b.plainParams → b'.generics.params = b'.plainParams
  /-- Generic part, members and trait apart, the block is the same. -/
  frame : ∃ generics items traitRef, b' = { b with generics, items, traitRef }

namespace Keeps

theorem refl (b : ImplBlock) : Keeps b b :=
  ⟨rfl, rfl, fun _ => Iff.rfl, fun _ hq => hq, id, b.generics, b.items, b.traitRef, rfl⟩

theorem trans {a b c : ImplBlock} (hab : Keeps a b) (hbc : Keeps b c) : Keeps a c := by
  refine ⟨hbc.plainParams.trans hab.plainParams, hbc.bareItems.trans hab.bareItems,
    fun q => (hbc.asks q).trans (hab.asks q), fun _ hq => hbc.predicates (hab.predicates hq),
    fun h => hbc.params (hab.params h), ?_⟩
  obtain ⟨_, _, _, rfl⟩ := hab.frame
  obtain ⟨generics, items, traitRef, rfl⟩ := hbc.frame
  exact ⟨generics, items, traitRef, rfl⟩

/-- A settled block stays settled. -/
theorem settled {b b' : ImplBlock} (h : Keeps b b') (hb : b.Settled) : b'.Settled :=
  fun q hq => h.predicates (hb q ((h.asks q).1 hq))

end Keeps

namespace ImplBlock

theorem keeps_hoistBounds (b : ImplBlock) : Keeps b b.hoistBounds := by
  refine ⟨b.plainParams_hoistBounds, ?_, b.asks_hoistBounds, ?_,
    fun _ => b.params_hoistBounds_eq_plainParams, _, _, _, b.hoistBounds_eq⟩
  · rw [hoistBounds_eq]
    rfl
  · rw [predicates_hoistBounds]
    exact List.subset_append_left ..

theorem keeps_linkSelf (b : ImplBlock) : Keeps b b.linkSelf := by
  refine ⟨?_, ?_, b.asks_linkSelf, ?_, ?_, _, _, _, b.linkSelf_eq⟩
  · rw [plainParams, params_linkSelf, plainParams]
  · rw [linkSelf_eq]
    rfl
  · rw [predicates_linkSelf]
    exact List.subset_append_left ..
  · rw [plainParams, plainParams, params_linkSelf]
    exact id

/-- A change of trait and of visibilities is a change of nothing else. -/
theorem keeps_bareItems (b : ImplBlock) (traitRef : Option TraitRef) :
    Keeps b { b with traitRef, items := b.bareItems } := by
  have hbare : b.bareItems.map Member.stripVisibility = b.bareItems := by
    rw [bareItems, List.map_map]
    exact List.map_congr_left fun m _ => m.stripVisibility_stripVisibility
  exact ⟨rfl, hbare, fun _ => Iff.rfl, fun _ hq => hq, id, b.generics, b.bareItems, traitRef, rfl⟩

end ImplBlock

theorem Stage.keeps_apply {name : String} {s : Stage} {b b' : ImplBlock}
    (h : s.apply name b = .ok b') : Keeps b b' := by
  rcases apply_cases h with ⟨-, rfl⟩ | ⟨-, rfl⟩ | ⟨-, rfl⟩ | ⟨-, path, -, rfl⟩
  · exact b.keeps_hoistBounds
  · exact b.keeps_linkSelf
  · exact b.keeps_bareItems b.traitRef
  · exact b.keeps_bareItems (some { path })

/-! ### Runs of stages -/

namespace ImplBlock

theorem run_cons_eq_ok {name : String} {s : Stage} {ss : List Stage} {b b' : ImplBlock}
    (h : b.run name (s :: ss) = .ok b') :
    ∃ b₁, s.apply name b = .ok b₁ ∧ b₁.run name ss = .ok b' := by
  rw [run] at h
  cases hs : s.apply name b with
  | error m => simp [hs, Except.bind] at h
  | ok b₁ => exact ⟨b₁, rfl, by simpa [hs, Except.bind] using h⟩

theorem keeps_run {name : String} : ∀ {ss : List Stage} {b b' : ImplBlock},
    b.run name ss = .ok b' → Keeps b b'
  | [], b, b', h => by
    obtain rfl := Except.ok.inj h
    exact .refl b
  | s :: ss, b, b', h => by
    obtain ⟨b₁, hs, hrun⟩ := run_cons_eq_ok h
    exact (Stage.keeps_apply hs).trans (keeps_run hrun)

/-- Bounds that have been hoisted are gone for good. -/
theorem params_run {name : String} : ∀ {ss : List Stage} {b b' : ImplBlock},
    b.run name ss = .ok b' → .hoist ∈ ss → b'.generics.params = b'.plainParams
  | [], _, _, _, hmem => by simp at hmem
  | s :: ss, b, b', h, hmem => by
    obtain ⟨b₁, hs, hrun⟩ := run_cons_eq_ok h
    rcases List.mem_cons.1 hmem with rfl | hmem
    · obtain rfl := Except.ok.inj hs
      exact (keeps_run hrun).params b.params_hoistBounds_eq_plainParams
    · exact params_run hrun hmem

/-- A block whose predicates have been linked after its bounds were hoisted is settled. -/
theorem settled_run {name : String} : ∀ {ss : List Stage} {b b' : ImplBlock},
    b.run name ss = .ok b' → (b.generics.params = b.plainParams ∧ .link ∈ ss) ∨
      [.hoist, .link].Sublist ss → b'.Settled
  | [], b, b', _, hss => by simp at hss
  | s :: ss, b, b', h, hss => by
    obtain ⟨b₁, hs, hrun⟩ := run_cons_eq_ok h
    have hplain := (Stage.keeps_apply hs).params
    rcases hss with ⟨hparams, hmem⟩ | hsub
    · rcases List.mem_cons.1 hmem with rfl | hmem
      · obtain rfl := Except.ok.inj hs
        exact (keeps_run hrun).settled (settled_linkSelf hparams)
      · exact settled_run hrun (Or.inl ⟨hplain hparams, hmem⟩)
    · cases hsub with
      | cons _ hsub => exact settled_run hrun (Or.inr hsub)
      | cons_cons _ hsub =>
        obtain rfl := Except.ok.inj hs
        exact settled_run hrun
          (Or.inl ⟨b.params_hoistBounds_eq_plainParams, List.singleton_sublist.1 hsub⟩)

/-- The members after a run: without visibility, if some stage takes it off. -/
theorem items_run {name : String} : ∀ {ss : List Stage} {b b' : ImplBlock},
    b.run name ss = .ok b' → b'.items = if .strip ∈ ss ∨ .aim ∈ ss then b.bareItems else b.items
  | [], b, b', h => by
    obtain rfl := Except.ok.inj h
    simp
  | s :: ss, b, b', h => by
    obtain ⟨b₁, hs, hrun⟩ := run_cons_eq_ok h
    rw [items_run hrun, (Stage.keeps_apply hs).bareItems]
    rcases Stage.apply_cases hs with ⟨rfl, rfl⟩ | ⟨rfl, rfl⟩ | ⟨rfl, rfl⟩ |
      ⟨rfl, path, -, rfl⟩
    · rw [hoistBounds_eq]
      simp
    · rw [linkSelf_eq]
      simp
    · simp
    · simp

/-- The trait after a run: the one that the block is aimed at, if it is. -/
theorem traitRef_run {name : String} : ∀ {ss : List Stage} {b b' : ImplBlock},
    b.run name ss = .ok b' →
    if .aim ∈ ss then ∃ path, contractPath name b.plainParams = .ok path ∧ b'.traitRef = some { path }
    else b'.traitRef = b.traitRef
  | [], b, b', h => by
    obtain rfl := Except.ok.inj h
    simp
  | s :: ss, b, b', h => by
    obtain ⟨b₁, hs, hrun⟩ := run_cons_eq_ok h
    have ih := traitRef_run hrun
    rw [(Stage.keeps_apply hs).plainParams] at ih
    by_cases hlater : Stage.aim ∈ ss
    · rw [if_pos hlater] at ih
      rwa [if_pos (List.mem_cons_of_mem s hlater)]
    · rw [if_neg hlater] at ih
      rcases Stage.apply_cases hs with ⟨rfl, rfl⟩ | ⟨rfl, rfl⟩ | ⟨rfl, rfl⟩ |
        ⟨rfl, path, hpath, rfl⟩
      · rw [if_neg (by simp [hlater]), ih, hoistBounds_eq]
      · rw [if_neg (by simp [hlater]), ih, linkSelf_eq]
      · rw [if_neg (by simp [hlater]), ih]
      · rw [if_pos List.mem_cons_self]
        exact ⟨path, hpath, ih⟩

/-- A run breaks off only where the block is aimed at a trait that cannot refer to its parameters. -/
theorem run_eq_error {name : String} {m : Misplaced} : ∀ {ss : List Stage} {b : ImplBlock},
    b.run name ss = .error m → .aim ∈ ss ∧ contractPath name b.plainParams = .error m
  | [], b, h => by simp [run] at h
  | s :: ss, b, h => by
    rw [run] at h
    cases hs : s.apply name b with
    | ok b₁ =>
      obtain ⟨hmem, hpath⟩ := run_eq_error (b := b₁) (by simpa [hs, Except.bind] using h)
      rw [(Stage.keeps_apply hs).plainParams] at hpath
      exact ⟨List.mem_cons_of_mem s hmem, hpath⟩
    | error m' =>
      obtain rfl : m' = m := by simpa [hs, Except.bind] using h
      cases s with
      | aim =>
        rw [Stage.apply, retarget_eq] at hs
        cases hpath : contractPath name b.plainParams with
        | ok path => simp [hpath, Except.map] at hs
        | error m =>
          obtain rfl : m = m' := by simpa [hpath, Except.map] using hs
          exact ⟨List.mem_cons_self, rfl⟩
      | hoist => simp [Stage.apply] at hs
      | link => simp [Stage.apply] at hs
      | strip => simp [Stage.apply] at hs

end ImplBlock

/-! ### Two runs -/

/-- Two blocks that are the same but for the order and the repetition of predicates. -/
structure ImplBlock.Agree (b b' : ImplBlock) : Prop where
  params : b'.generics.params = b.generics.params
  predicates : ∀ q, q ∈ b'.generics.predicates ↔ q ∈ b.generics.predicates
  /-- Items, trait, self type, attributes, markers, source and place are the same. -/
  rest : ∃ generics, b' = { b with generics }

/-- Runs that succeed with blocks that agree. -/
theorem ImplBlock.agree_of_run {name : String} {b p q : ImplBlock} {xs ys : List Stage}
    (hx : [.hoist, .link].Sublist xs) (hy : [.hoist, .link].Sublist ys)
    (hstrip : (.strip ∈ xs ∨ .aim ∈ xs) ↔ (.strip ∈ ys ∨ .aim ∈ ys))
    (haim : Stage.aim ∈ xs ↔ Stage.aim ∈ ys) (hp : b.run name xs = .ok p)
    (hq : b.run name ys = .ok q) : p.Agree q := by
  have hkp := keeps_run hp
  have hkq := keeps_run hq
  refine ⟨?_, fun r => ?_, ?_⟩
  · rw [params_run hp (hx.subset (by simp)), params_run hq (hy.subset (by simp)), hkp.plainParams,
      hkq.plainParams]
  · -- a settled block has in its clause what it asks for, and both ask for what `b` asks for
    have hsp := settled_run hp (Or.inr hx)
    have hsq := settled_run hq (Or.inr hy)
    have hboth := (hkq.asks r).trans (hkp.asks r).symm
    exact ⟨fun hr => hsp r (hboth.1 (asks_of_mem hr)), fun hr => hsq r (hboth.2 (asks_of_mem hr))⟩
  · have hitems : q.items = p.items := by
      rw [items_run hp, items_run hq]
      simp only [hstrip]
    have htrait : q.traitRef = p.traitRef := by
      have htp := traitRef_run hp
      have htq := traitRef_run hq
      by_cases hmem : Stage.aim ∈ xs
      · rw [if_pos hmem] at htp
        rw [if_pos (haim.1 hmem)] at htq
        obtain ⟨path, hpath, htp⟩ := htp
        obtain ⟨path', hpath', htq⟩ := htq
        obtain rfl : path = path' := Except.ok.inj (hpath.symm.trans hpath')
        rw [htp, htq]
      · rw [if_neg hmem] at htp
        rw [if_neg (fun h => hmem (haim.2 h))] at htq
        rw [htp, htq]
    obtain ⟨_, _, _, rfl⟩ := hkp.frame
    obtain ⟨generics, items, traitRef, rfl⟩ := hkq.frame
    obtain rfl : items = _ := hitems
    obtain rfl : traitRef = _ := htrait
    exact ⟨generics, rfl⟩

/-- A block with all its constraints gathered has nothing to gather. -/
theorem ImplBlock.gather_gather (b : ImplBlock) : b.gather.gather = b.gather := by
  have hplain : b.gather.generics.params = b.gather.plainParams :=
    (b.hoistBounds.keeps_linkSelf).params b.params_hoistBounds_eq_plainParams
  have hhoist : b.gather.hoistBounds = b.gather := by
    rw [hoistBounds, hoisted_eq_nil hplain]
    rfl
  have htwins : b.gather.twins = [] := by
    rw [List.eq_nil_iff_forall_not_mem]
    intro q hq
    obtain ⟨-, hnew, p, hp, hpq⟩ := mem_twins_iff.1 hq
    exact hnew (settled_linkSelf b.params_hoistBounds_eq_plainParams q ((asks_of_mem hp).of_mirrors hpq))
  rw [gather, hhoist, linkSelf, htwins]
  rfl

/-- Two runs of stages in which bounds are hoisted and predicates linked after that, and which agree
on whether visibility is taken off and on whether the block is aimed at the trait, end in blocks that
agree; or both break off, since the block has a parameter that nothing can refer to. Gathering the
constraints once more changes nothing. -/
theorem ImplBlock.run_confluent (name : String) (b : ImplBlock) {xs ys : List Stage}
    (hx : [.hoist, .link].Sublist xs) (hy : [.hoist, .link].Sublist ys)
    (hstrip : (.strip ∈ xs ∨ .aim ∈ xs) ↔ (.strip ∈ ys ∨ .aim ∈ ys))
    (haim : Stage.aim ∈ xs ↔ Stage.aim ∈ ys) :
    ((∃ p q, b.run name xs = .ok p ∧ b.run name ys = .ok q ∧ p.Agree q) ∨
      ∃ m kind, b.run name xs = .error m ∧ b.run name ys = .error m ∧ .aim ∈ xs ∧
        .misplaced kind ∈ b.generics.params) ∧
    b.gather.gather = b.gather := by
  refine ⟨?_, b.gather_gather⟩
  cases hp : b.run name xs with
  | ok p =>
    cases hq : b.run name ys with
    | ok q => exact Or.inl ⟨p, q, rfl, rfl, agree_of_run hx hy hstrip haim hp hq⟩
    | error m =>
      obtain ⟨hmem, hpath⟩ := run_eq_error hq
      have htrait := traitRef_run hp
      rw [if_pos (haim.2 hmem)] at htrait
      obtain ⟨path, hok, -⟩ := htrait
      simp [hok] at hpath
  | error m =>
    obtain ⟨hmem, hpath⟩ := run_eq_error hp
    have hpath' := hpath
    rw [plainParams, contractPath_withoutBounds] at hpath'
    obtain ⟨kind, hkind⟩ := exists_misplaced_of_contractPath hpath'
    cases hq : b.run name ys with
    | ok q =>
      have htrait := traitRef_run hq
      rw [if_pos (haim.1 hmem)] at htrait
      obtain ⟨path, hok, -⟩ := htrait
      simp [hok] at hpath
    | error m' =>
      obtain rfl : m = m' := by
        have hpath'' := (run_eq_error hq).2
        rw [hpath, Except.error.injEq] at hpath''
        exact hpath''
      exact Or.inr ⟨m, kind, rfl, rfl, hmem, hkind⟩

/-- `impl<T: 'a> T where Self: 'b`, gathered at once, and linked also before, between and after: the
blocks agree, but their predicates are written in different orders. -/
theorem ImplBlock.run_confluent_linked :
    let b : ImplBlock := { selfTy := TypeExpr.named "T", generics :=
      { params := [.type "T" [.lifetime "'a"] none []]
        clause := some [.type [] TypeExpr.selfAlias [.lifetime "'b"]] } }
    let xs : List Stage := [.hoist, .link, .aim]
    let ys : List Stage := [.link, .aim, .hoist, .strip, .link, .link]
    ∃ p q, b.run "B" xs = .ok p ∧ b.run "B" ys = .ok q ∧ p.Agree q ∧
      p.generics.predicates ≠ q.generics.predicates := by
  intro b xs ys
  have hdiffer : (b.run "B" xs).toOption.map (·.generics.predicates) ≠
      (b.run "B" ys).toOption.map (·.generics.predicates) := by
    decide +kernel
  have hconfluent := (@run_confluent "B" b xs ys (by decide) (by decide) (by decide)
    (by decide)).1
  rcases hconfluent with ⟨p, q, hp, hq, hagree⟩ | ⟨m, kind, -, -, -, hkind⟩
  · rw [hp, hq] at hdiffer
    exact ⟨p, q, hp, hq, hagree, fun heq => hdiffer (by simp [Except.toOption, heq])⟩
  · simp [b] at hkind

end TraitLift
