import Mathlib.Tactic
import TraitLift.Lift.Expansion
import TraitLift.Proofs.Print.Writable

/-!
Lifting keeps blocks writable. Every step of the work on a block makes its nodes out of writable ones,
so a writable block either gives an expansion that has a text or is refused for a fault of its own,
never for a misplaced node.
-/

namespace TraitLift

/-! ### Gathering constraints -/

namespace GenericParam

theorem withoutBounds_writable {p : GenericParam} (h : p.doc.Writable) :
    p.withoutBounds.doc.Writable := by
  cases p <;> simp_all [withoutBounds, GenericParam.doc]

theorem predicate?_writable {p : GenericParam} {q : Predicate} (h : p.doc.Writable)
    (hq : p.predicate? = some q) : q.doc.Writable := by
  cases p with
  | type n bs d attrs =>
    simp only [predicate?] at hq
    split at hq
    · simp at hq
    · next hbs =>
      obtain rfl := Option.some.inj hq
      simp_all [GenericParam.doc, Predicate.doc, TypeExpr.named, TypeExpr.doc, Path.simple,
        Path.doc, segmentDocs, Segment.doc, argsDoc]
  | lifetime p =>
    simp only [predicate?] at hq
    split at hq
    · simp at hq
    · obtain rfl := Option.some.inj hq
      simp [Predicate.doc]
  | const => simp [predicate?] at hq
  | misplaced => simp [predicate?] at hq

/-- A writable parameter has an argument that refers to it. -/
theorem exists_toArg {p : GenericParam} (h : p.doc.Writable) :
    ∃ a, p.toArg = .ok a ∧ a.doc.Writable := by
  cases p with
  | type n bs d attrs =>
    exact ⟨_, rfl, by simp [GenericArg.doc, TypeExpr.named, TypeExpr.doc, Path.simple, Path.doc,
      segmentDocs, Segment.doc, argsDoc]⟩
  | lifetime p => exact ⟨_, rfl, by simp [GenericArg.doc]⟩
  | const n t d attrs => exact ⟨_, rfl, by simp [GenericArg.doc]⟩
  | misplaced k => simp [GenericParam.doc] at h

end GenericParam

theorem Predicate.twin?_writable {selfTy : TypeExpr} {p q : Predicate} (ht : selfTy.doc.Writable)
    (hp : p.doc.Writable) (hq : p.twin? selfTy = some q) : q.doc.Writable := by
  cases p with
  | type ls t bs =>
    simp only [twin?] at hq
    split at hq
    · obtain rfl := Option.some.inj hq
      simp_all [Predicate.doc, TypeExpr.selfAlias, TypeExpr.named, TypeExpr.doc, Path.simple,
        Path.doc, segmentDocs, Segment.doc, argsDoc]
    · split at hq
      · obtain rfl := Option.some.inj hq
        simp_all [Predicate.doc]
      · simp at hq
  | lifetime => simp [twin?] at hq
  | misplaced => simp [twin?] at hq

theorem mem_newOnes_iff {β : Type} [DecidableEq β] {x : β} : ∀ {seen xs : List β},
    x ∈ newOnes seen xs ↔ x ∈ xs ∧ x ∉ seen
  | _, [] => by simp [newOnes]
  | seen, y :: ys => by
    rw [newOnes]
    split
    · next hy =>
      rw [mem_newOnes_iff, List.mem_cons]
      constructor
      · rintro ⟨hx, hseen⟩
        exact ⟨Or.inr hx, hseen⟩
      · rintro ⟨rfl | hx, hseen⟩
        · exact absurd hy hseen
        · exact ⟨hx, hseen⟩
    · next hy =>
      rw [List.mem_cons, mem_newOnes_iff, List.mem_cons, List.mem_cons, not_or]
      constructor
      · rintro (rfl | ⟨hx, -, hseen⟩)
        · exact ⟨Or.inl rfl, hy⟩
        · exact ⟨Or.inr hx, hseen⟩
      · rintro ⟨hx, hseen⟩
        by_cases hxy : x = y
        · exact Or.inl hxy
        · exact Or.inr ⟨hx.resolve_left hxy, hxy, hseen⟩

namespace ImplBlock

theorem Writable.predicates {b : ImplBlock} (h : b.Writable) :
    ∀ p ∈ b.generics.predicates, p.doc.Writable := by
  intro p hp
  unfold Generics.predicates at hp
  cases hc : b.generics.clause with
  | none => simp [hc] at hp
  | some ps =>
    rw [hc] at hp
    exact h.generics.clause ps hc p hp

theorem Writable.hoistBounds {b : ImplBlock} (h : b.Writable) : b.hoistBounds.Writable := by
  unfold ImplBlock.hoistBounds
  split
  · exact h
  · refine ⟨h.selfTy, h.items, ⟨?_, ?_⟩, h.traitRef⟩
    · intro p hp
      obtain ⟨q, hq, rfl⟩ := List.mem_map.1 hp
      exact GenericParam.withoutBounds_writable (h.generics.params q hq)
    · rintro ps hps p hp
      obtain rfl := Option.some.inj hps
      rcases List.mem_append.1 hp with hp | hp
      · exact h.predicates p hp
      · obtain ⟨q, hq, hqp⟩ := List.mem_filterMap.1 hp
        exact GenericParam.predicate?_writable (h.generics.params q hq) hqp

theorem Writable.linkSelf {b : ImplBlock} (h : b.Writable) : b.linkSelf.Writable := by
  unfold ImplBlock.linkSelf
  split
  · exact h
  · refine ⟨h.selfTy, h.items, ⟨h.generics.params, ?_⟩, h.traitRef⟩
    rintro ps hps p hp
    obtain rfl := Option.some.inj hps
    rcases List.mem_append.1 hp with hp | hp
    · exact h.predicates p hp
    · unfold ImplBlock.twins at hp
      split at hp
      · simp at hp
      · next qs hqs =>
        split at hp
        · simp at hp
        · obtain ⟨q, hq, hqp⟩ := List.mem_filterMap.1 (mem_newOnes_iff.1 hp).1
          exact Predicate.twin?_writable h.selfTy (h.generics.clause qs hqs q hq) hqp

theorem Writable.gather {b : ImplBlock} (h : b.Writable) : b.gather.Writable :=
  h.hoistBounds.linkSelf

end ImplBlock

/-! ### Aiming at the trait -/

theorem Member.stripVisibility_writable {m : Member} (h : m.Writable) :
    m.stripVisibility.Writable := by
  cases m <;> simp_all [Member.Writable, stripVisibility, Member.lines]

theorem exists_mapM_toArg : ∀ {ps : List GenericParam}, (∀ p ∈ ps, p.doc.Writable) →
    ∃ as, ps.mapM GenericParam.toArg = .ok as ∧ ∀ a ∈ as, a.doc.Writable
  | [], _ => ⟨[], rfl, by simp⟩
  | p :: ps, h => by
    obtain ⟨a, ha, haw⟩ := GenericParam.exists_toArg (h p (List.mem_cons_self ..))
    obtain ⟨as, has, hasw⟩ := exists_mapM_toArg fun q hq => h q (List.mem_cons_of_mem _ hq)
    refine ⟨a :: as, ?_, ?_⟩
    · rw [List.mapM_cons, ha, has]
      rfl
    · intro x hx
      rcases List.mem_cons.1 hx with rfl | hx
      · exact haw
      · exact hasw x hx

theorem exists_contractPath (name : String) {ps : List GenericParam}
    (h : ∀ p ∈ ps, p.doc.Writable) : ∃ path, contractPath name ps = .ok path ∧ path.doc.Writable := by
  unfold contractPath projectParams
  split
  · exact ⟨_, rfl, by simp [Path.simple, Path.doc, segmentDocs, Segment.doc, argsDoc]⟩
  · obtain ⟨as, has, hasw⟩ := exists_mapM_toArg h
    rw [has]
    refine ⟨_, rfl, ?_⟩
    simpa [Path.simple, Path.doc, segmentDocs, Segment.doc, argsDoc, GenericArgs.doc, Doc.sepBy,
      argDocs_eq_map] using hasw

theorem ImplBlock.Writable.exists_retarget {b : ImplBlock} (h : b.Writable) (name : String) :
    ∃ b', b.retarget name = .ok b' ∧ b'.Writable := by
  obtain ⟨path, hpath, hw⟩ := exists_contractPath name h.generics.params
  refine ⟨{ b with traitRef := some { path }, items := b.items.map Member.stripVisibility },
    ?_, h.selfTy, ?_, h.generics, ?_⟩
  · rw [retarget, hpath]
    rfl
  · intro m hm
    obtain ⟨m', hm', rfl⟩ := List.mem_map.1 hm
    exact Member.stripVisibility_writable (h.items m' hm')
  · rintro r hr
    obtain rfl := Option.some.inj hr
    simpa [TraitRef.doc] using hw

/-! ### Declaring members -/

theorem Member.declare_writable {m m' : Member} (h : m.Writable) (hm : m.declare = .ok m') :
    m'.Writable := by
  cases m <;> simp only [declare, Except.ok.injEq, reduceCtorEq] at hm <;> subst hm
  all_goals simp_all [Member.Writable, Member.lines]

theorem declareAll_writable {items decls : List Member} (h : ∀ m ∈ items, m.Writable)
    (hd : declareAll items = .ok decls) : ∀ m ∈ decls, m.Writable := by
  unfold declareAll at hd
  split at hd
  · simp at hd
  · obtain rfl := Except.ok.inj hd
    intro m hm
    obtain ⟨m', hm', hdecl⟩ := List.mem_filterMap.1 hm
    cases hr : m'.declare with
    | error text => simp [hr, Except.toOption] at hdecl
    | ok d =>
      obtain rfl : d = m := by simpa [hr, Except.toOption] using hdecl
      exact Member.declare_writable (h m' hm') hr

/-! ### The whole work on a block -/

/-- Only faults stop the search for a name. -/
theorem TraitName.resolve_writable {b : ImplBlock} (h : b.Writable) (args : ExtArgs) (c : Config) :
    (∃ name, TraitName.resolve args b c = .ok name) ∨
      ∃ f, TraitName.resolve args b c = .error (.fault f) := by
  unfold TraitName.resolve
  split
  · exact Or.inl ⟨_, rfl⟩
  · have hraw : ∃ raw, b.rawText = .ok raw := by
      unfold ImplBlock.rawText
      split
      · exact ⟨_, rfl⟩
      · exact h.doc.text_eq_ok
    obtain ⟨raw, hraw⟩ := hraw
    cases hf : fingerprint raw c with
    | ok digest => simp [hraw, hf, ofMisplaced, ofFault, bind, Except.bind, pure, Except.pure]
    | error f => simp [hraw, hf, ofMisplaced, ofFault, bind, Except.bind]

/-- A block gives an expansion exactly if it is inherent, a name is found, all members can be
declared and the block can be aimed at the trait. -/
theorem ImplBlock.expand_eq_ok_iff {b : ImplBlock} {args : ExtArgs} {c : Config} {e : Expansion} :
    b.expand args c = .ok e ↔
      b.traitRef = none ∧ ∃ name decls impl, TraitName.resolve args b c = .ok name ∧
        declareAll b.items = .ok decls ∧ b.gather.retarget name.ident = .ok impl ∧
        e = ⟨b.gather.declaration name decls, impl, name⟩ := by
  unfold ImplBlock.expand ImplBlock.ensureInherent
  cases hr : b.traitRef with
  | some r =>
    cases ht : r.doc.text <;> simp [ht, ofMisplaced, bind, Except.bind]
  | none =>
    cases hname : TraitName.resolve args b c with
    | error f => simp [bind, Except.bind]
    | ok name =>
      cases hd : declareAll b.items with
      | error f => simp [ofFault, bind, Except.bind]
      | ok decls =>
        cases hi : b.gather.retarget name.ident with
        | error m => simp [hi, ofFault, ofMisplaced, bind, Except.bind]
        | ok impl =>
          simp [hi, ofFault, ofMisplaced, bind, Except.bind, pure, Except.pure, eq_comm]

/-- A writable block gives an expansion that has a text, or it is refused for a fault. -/
theorem ImplBlock.Writable.expand_cases {b : ImplBlock} (h : b.Writable) (args : ExtArgs)
    (c : Config) :
    (∃ e text, b.expand args c = .ok e ∧ e.render = .ok text) ∨
      ∃ f, b.expand args c = .error (.fault f) := by
  cases hr : b.traitRef with
  | some r =>
    -- the text of the trait is there to be reported
    obtain ⟨text, htext⟩ := (h.traitRef r hr).text_eq_ok
    refine Or.inr ⟨.implementsTrait text b.loc, ?_⟩
    simp [expand, ensureInherent, hr, htext, ofMisplaced, bind, Except.bind]
  | none =>
    have hinherent : b.ensureInherent = .ok () := by rw [ensureInherent, hr]
    rcases TraitName.resolve_writable h args c with ⟨name, hname⟩ | ⟨f, hf⟩
    · cases hd : declareAll b.items with
      | error f =>
        refine Or.inr ⟨f, ?_⟩
        simp [expand, hinherent, hname, hd, ofFault, bind, Except.bind]
      | ok decls =>
        obtain ⟨impl, himpl, hw⟩ := h.gather.exists_retarget name.ident
        have hdecl : (b.gather.declaration name decls).doc.Writable :=
          TraitDecl.writable_doc h.gather.generics (declareAll_writable h.items hd)
        have hitems :
            (Doc.sepBy "\n" [(b.gather.declaration name decls).doc, impl.doc]).Writable := by
          simp [hdecl, hw.doc]
        obtain ⟨text, htext⟩ := hitems.text_eq_ok
        exact Or.inl ⟨_, text,
          expand_eq_ok_iff.2 ⟨hr, name, decls, impl, hname, hd, himpl, rfl⟩, htext⟩
    · refine Or.inr ⟨f, ?_⟩
      simp [expand, hinherent, hf, bind, Except.bind]

end TraitLift
