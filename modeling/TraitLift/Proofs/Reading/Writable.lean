import Mathlib.Tactic
import TraitLift.Parse
import TraitLift.Proofs.Except
import TraitLift.Proofs.Print.Writable

/-!
What is read can be written. No rule of the grammar makes a misplaced node: the meaning of a rule is
writable if the meanings of its parts are, so the meaning of every derivation tree is, and with it
every type and block that is read from a text.
-/

namespace TraitLift

open TraitLift.Grammar

/-- A part of the source whose nodes, as far as it has any, are writable. -/
def Meaning.Writable : Meaning → Prop
  | .target r t => (∀ r' ∈ r, r'.doc.Writable) ∧ t.doc.Writable
  | .body _ items => ∀ m, .ok m ∈ items → m.Writable
  | .member m => ∀ m', m = .ok m' → m'.Writable
  | .function sig _ => ∀ s, sig = .ok s → s.doc.Writable
  | .fnArg a => ∀ a', a = .ok a' → a'.doc.Writable
  | .definition t c => t.doc.Writable ∧ ∀ ps ∈ c, ∀ p ∈ ps, p.doc.Writable
  | .params ps => ∀ p ∈ ps, p.doc.Writable
  | .param p => p.doc.Writable
  | .bounds bs => ∀ b ∈ bs, b.doc.Writable
  | .bound b => b.doc.Writable
  | .clause ps => ∀ p ∈ ps, p.doc.Writable
  | .predicate p => p.doc.Writable
  | .type t => t.doc.Writable
  | .path p => p.doc.Writable
  | .segment s => s.doc.Writable
  | .args a => a.doc.Writable
  | .arg a => a.doc.Writable
  | .bareArg a => a.doc.Writable
  | .block b => ∀ b', b = .ok b' → b'.Writable
  | .token _ | .plain | .attr _ | .marker _ | .vis _ | .scope _ | .abi _ | .value _
  | .lifetimeParam _ | .lifetimes _ | .binder _ => True

namespace Parts

/-- All parts are writable. -/
def Writable (ps : Parts) : Prop := ∀ p ∈ ps, p.meaning.Writable

variable {ps : Parts}

theorem mem_pick {β : Type} {f : Meaning → Option β} {x : β} (h : x ∈ pick f ps) :
    ∃ p ∈ ps, f p.meaning = some x := List.mem_filterMap.1 h

/-- What is picked has a property if every writable meaning it is picked from gives it. -/
theorem Writable.of_pick {β : Type} {f : Meaning → Option β} {P : β → Prop} (h : Writable ps)
    (hf : ∀ m x, f m = some x → m.Writable → P x) : ∀ x ∈ pick f ps, P x := by
  intro x hx
  obtain ⟨p, hp, hfx⟩ := mem_pick hx
  exact hf p.meaning x hfx (h p hp)

theorem Writable.sublist {qs : Parts} (h : Writable ps) (hsub : qs ⊆ ps) : Writable qs :=
  fun p hp => h p (hsub hp)

theorem Writable.before (h : Writable ps) (k : Kind) : Writable (Reading.before k ps) :=
  h.sublist (List.takeWhile_subset _)

theorem Writable.after (h : Writable ps) (k : Kind) : Writable (Reading.after k ps) :=
  h.sublist fun _ hp => List.dropWhile_subset _ (List.mem_of_mem_drop hp)

/-- The first of what is picked has a property if every writable meaning gives it. -/
theorem Writable.of_head? {β : Type} {f : Meaning → Option β} {P : β → Prop} (h : Writable ps)
    (hf : ∀ m x, f m = some x → m.Writable → P x) : ∀ x ∈ (pick f ps).head?, P x :=
  fun x hx => h.of_pick hf x (List.mem_of_head? hx)

/-- The first of what is picked, or else a default, has a property if both give it. -/
theorem Writable.of_getD {β : Type} {f : Meaning → Option β} {P : β → Prop} {d : β}
    (h : Writable ps) (hd : P d) (hf : ∀ m x, f m = some x → m.Writable → P x) :
    P ((pick f ps).head?.getD d) := by
  cases hp : (pick f ps).head? with
  | none => exact hd
  | some x => exact h.of_head? hf x hp

theorem Writable.types (h : Writable ps) : ∀ t ∈ types ps, t.doc.Writable := by
  refine h.of_pick ?_
  intro m x hx hm
  split at hx <;> cases hx
  exact hm

theorem Writable.type? (h : Writable ps) : ∀ t ∈ type? ps, t.doc.Writable :=
  fun t ht => h.types t (List.mem_of_head? ht)

theorem Writable.type (h : Writable ps) : (type ps).doc.Writable := by
  unfold Parts.type
  cases ht : Parts.type? ps with
  | none => simp [default, TypeExpr.doc]
  | some t => exact h.type? t ht

theorem Writable.path? (h : Writable ps) : ∀ p ∈ path? ps, p.doc.Writable := by
  refine h.of_head? ?_
  intro m x hx hm
  split at hx <;> cases hx
  exact hm

theorem Writable.path (h : Writable ps) : ((Parts.path? ps).getD default).doc.Writable := by
  cases hp : Parts.path? ps with
  | none => simp [default, Path.doc, segmentDocs]
  | some p => exact h.path? p hp

theorem Writable.segments (h : Writable ps) : ∀ s ∈ segments ps, s.doc.Writable := by
  refine h.of_pick ?_
  intro m x hx hm
  split at hx <;> cases hx
  exact hm

theorem Writable.args? (h : Writable ps) : ∀ a ∈ args? ps, a.doc.Writable := by
  refine h.of_head? ?_
  intro m x hx hm
  split at hx <;> cases hx
  exact hm

theorem Writable.eachBound (h : Writable ps) : ∀ b ∈ eachBound ps, b.doc.Writable := by
  refine h.of_pick ?_
  intro m x hx hm
  split at hx <;> cases hx
  exact hm

theorem Writable.bounds (h : Writable ps) : ∀ b ∈ bounds ps, b.doc.Writable := by
  refine h.of_getD (P := fun bs : List Bound => ∀ b ∈ bs, b.doc.Writable) (by simp) ?_
  intro m x hx hm
  split at hx <;> cases hx
  exact hm

theorem Writable.params (h : Writable ps) : ∀ p ∈ params ps, p.doc.Writable := by
  refine h.of_getD (P := fun l : List GenericParam => ∀ p ∈ l, p.doc.Writable) (by simp) ?_
  intro m x hx hm
  split at hx <;> cases hx
  exact hm

theorem Writable.clause? (h : Writable ps) :
    ∀ l ∈ clause? ps, ∀ p ∈ l, p.doc.Writable := by
  refine h.of_head? ?_
  intro m x hx hm
  split at hx <;> cases hx
  exact hm

theorem Writable.generics (h : Writable ps) : (generics ps).Writable := ⟨h.params, h.clause?⟩

end Parts

namespace Reading

variable {source : List Char} {ps : Parts}

/-! ### Types -/

theorem path_writable (h : Parts.Writable ps) : (path ps).doc.Writable := by
  simpa [path, Path.doc, segmentDocs_eq_map] using h.segments

theorem qualifiedPath_writable (h : Parts.Writable ps) : (qualifiedPath ps).doc.Writable := by
  simp only [qualifiedPath, Path.doc, QSelf.doc, segmentDocs_eq_map, Doc.writable_append,
    Doc.writable_str, writable_asTraitDoc, Doc.writable_sepBy, List.mem_map, true_and, and_true]
  refine ⟨⟨h.type, h.path?⟩, ?_⟩
  rintro d ⟨s, hs, rfl⟩
  exact h.segments s hs

theorem segment_writable (turbofish : Bool) (h : Parts.Writable ps) :
    (segment turbofish source ps).doc.Writable := by
  have hargs := h.args?
  unfold segment
  split
  · next as t heq =>
    have := hargs _ heq
    simpa [Segment.doc, argsDoc, GenericArgs.doc] using this
  · simpa [Segment.doc] using hargs

theorem parenArgs_writable (h : Parts.Writable ps) : (parenArgs ps).doc.Writable := by
  simp only [parenArgs, GenericArgs.doc, typeDocs_eq_map, Doc.writable_append, Doc.writable_str,
    Doc.writable_sepBy, List.mem_map, writable_outputDoc, true_and, and_true]
  refine ⟨?_, (h.after .arrow).type?⟩
  rintro d ⟨t, ht, rfl⟩
  exact (h.before .arrow).types t ht

theorem fnPtr_writable (h : Parts.Writable ps) : (fnPtr ps).doc.Writable := by
  simp only [fnPtr, TypeExpr.doc, bareArgDocs_eq_map, Doc.writable_append, Doc.writable_str,
    Doc.writable_strIf, Doc.writable_sepBy, writable_binderDoc, writable_abiDoc,
    writable_outputDoc, true_and, and_true]
  refine ⟨?_, h.type?⟩
  intro d hd
  rcases List.mem_append.1 hd with hd | hd
  · obtain ⟨a, ha, rfl⟩ := List.mem_map.1 hd
    refine h.of_pick (P := fun a => a.doc.Writable) ?_ a ha
    intro m x hx hm
    split at hx <;> cases hx
    exact hm
  · split at hd <;> simp_all

theorem traitBound_writable (h : Parts.Writable ps) : (traitBound ps).doc.Writable := by
  simp [traitBound, Bound.doc, h.path]

theorem parenthesized_writable {b : Bound} (h : b.doc.Writable) :
    (parenthesized b).doc.Writable := by
  cases b with
  | trait ls m p par => simpa [parenthesized, Bound.doc] using h
  | lifetime n => exact h
  | misplaced k => exact h

theorem withAttrs_writable (attrs : List Attribute) {p : GenericParam} (h : p.doc.Writable) :
    (withAttrs attrs p).doc.Writable := by
  cases p <;> simp_all [withAttrs, GenericParam.doc]

theorem genericParam_writable (h : Parts.Writable ps) : (genericParam ps).Writable := by
  unfold genericParam
  simp only
  split
  · next p hp =>
    refine withAttrs_writable _ (h.of_head? (P := fun p => p.doc.Writable) ?_ p hp)
    intro m x hx hm
    split at hx <;> cases hx
    · exact hm
    · simp [GenericParam.doc]
  · trivial

/-! ### Members -/

theorem fnArg_writable (h : Parts.Writable ps) :
    ∀ a, fnArg source ps = .ok a → a.doc.Writable := by
  intro a ha
  have hty := h.type?
  unfold fnArg at ha
  rcases hr : receiver? (Parts.tokens (patternParts ps)) with _ | ⟨reference, lifetime, mutable⟩
  · cases ht : Parts.type? ps with
    | some ty =>
      simp only [hr, ht, Except.ok.injEq] at ha
      subst ha
      simpa [FnArg.doc] using hty ty ht
    | none =>
      simp only [hr, ht] at ha
      split at ha
      · obtain rfl := Except.ok.inj ha
        simp [FnArg.doc]
      · simp at ha
  · cases reference with
    | true =>
      cases ht : Parts.type? ps with
      | some ty => simp [hr, ht] at ha
      | none =>
        simp only [hr, ht, Except.ok.injEq] at ha
        subst ha
        simp [FnArg.doc]
    | false =>
      simp only [hr, Except.ok.injEq] at ha
      subst ha
      cases ht : Parts.type? ps with
      | none => simp [FnArg.doc]
      | some ty => simpa [FnArg.doc] using hty ty ht

theorem signature_writable (h : Parts.Writable ps) :
    ∀ s, signature ps = .ok s → s.doc.Writable := by
  intro s hs
  obtain ⟨inputs, hin, hs⟩ := bind_eq_ok hs
  obtain rfl := Except.ok.inj hs
  simp only [Signature.doc, Doc.writable_append, Doc.writable_strIf, Doc.writable_str,
    Doc.writable_sepBy, List.mem_map, writable_abiDoc, writable_paramsDoc, writable_outputDoc,
    writable_clauseDoc, true_and, and_true]
  refine ⟨⟨⟨h.params, ?_⟩, h.type?⟩, h.clause?⟩
  rintro d ⟨a, ha, rfl⟩
  refine h.of_pick (P := fun a => ∀ a', a = .ok a' → a'.doc.Writable) ?_ _
    (mem_of_mapM_id hin a ha) a rfl
  intro m x hx hm
  split at hx <;> cases hx
  exact hm

theorem verbatim_writable : (verbatim source ps).Writable := by
  simp [Member.Writable, verbatim, Member.lines]

theorem methodMember_writable (h : Parts.Writable ps) :
    ∀ m, methodMember source ps = .ok m → m.Writable := by
  intro m hm
  obtain ⟨isDefault, -, hm⟩ := bind_eq_ok hm
  split at hm
  · next sig body hf =>
    obtain ⟨s, hsig, hm⟩ := bind_eq_ok hm
    obtain rfl := Except.ok.inj hm
    have hs := h.of_head? (P := fun f => ∀ s, f.1 = .ok s → s.doc.Writable) (by
      intro m x hx hm
      split at hx <;> cases hx
      exact hm) _ hf s hsig
    simp [Member.Writable, Member.lines, hs]
  · obtain rfl := Except.ok.inj hm
    exact verbatim_writable

theorem constMember_writable (h : Parts.Writable ps) :
    ∀ m, constMember source ps = .ok m → m.Writable := by
  intro m hm
  obtain ⟨isDefault, -, hm⟩ := bind_eq_ok hm
  split at hm
  · obtain rfl := Except.ok.inj hm
    simp [Member.Writable, Member.lines, h.type]
  · obtain rfl := Except.ok.inj hm
    exact verbatim_writable

theorem mergeClauses_writable {c d : Option (List Predicate)}
    (hc : ∀ ps ∈ c, ∀ p ∈ ps, p.doc.Writable) (hd : ∀ ps ∈ d, ∀ p ∈ ps, p.doc.Writable) :
    ∀ ps ∈ mergeClauses c d, ∀ p ∈ ps, p.doc.Writable := by
  unfold mergeClauses
  split
  · next ps qs =>
    rintro l hl p hp
    obtain rfl : ps ++ qs = l := by simpa using hl
    rcases List.mem_append.1 hp with hp | hp
    · exact hc ps rfl p hp
    · exact hd qs rfl p hp
  · exact hc
  · exact hd

theorem typeMember_writable (h : Parts.Writable ps) :
    ∀ m, typeMember source ps = .ok m → m.Writable := by
  intro m hm
  obtain ⟨isDefault, -, hm⟩ := bind_eq_ok hm
  split at hm
  · next definition clause hf =>
    obtain rfl := Except.ok.inj hm
    obtain ⟨hty, hclause⟩ := h.of_head?
      (P := fun d => d.1.doc.Writable ∧ ∀ ps ∈ d.2, ∀ p ∈ ps, p.doc.Writable) (by
        intro m x hx hm
        split at hx <;> cases hx
        exact hm) _ hf
    simp only [Member.Writable, Member.lines, forall_mem_memberLines, Doc.writable_append,
      writable_markersDoc, writable_assocHeadDoc, Doc.writable_str, writable_clauseDoc, true_and,
      and_true]
    exact ⟨⟨⟨h.params, h.bounds⟩, hty⟩, mergeClauses_writable h.clause? hclause⟩
  · obtain rfl := Except.ok.inj hm
    exact verbatim_writable

/-! ### Blocks, rules and trees -/

theorem target_writable {m : Meaning} {x : Option TraitRef × TypeExpr}
    (hx : (match m with | .target r t => some (r, t) | _ => none) = some x) (hm : m.Writable) :
    (∀ r ∈ x.1, r.doc.Writable) ∧ x.2.doc.Writable := by
  split at hx <;> cases hx
  exact hm

theorem body_writable {m : Meaning} {x : List Attribute × List (Except Fault Member)}
    (hx : (match m with | .body as is => some (as, is) | _ => none) = some x) (hm : m.Writable) :
    ∀ m, .ok m ∈ x.2 → m.Writable := by
  split at hx <;> cases hx
  exact hm

theorem implBlock_writable (h : Parts.Writable ps) :
    ∀ b, implBlock source ps = .ok b → b.Writable := by
  intro b hb
  obtain ⟨isDefault, -, hb⟩ := bind_eq_ok hb
  obtain ⟨items, hitems, hb⟩ := bind_eq_ok hb
  obtain rfl := Except.ok.inj hb
  have htarget := h.of_getD (d := (none, default))
    (P := fun x : Option TraitRef × TypeExpr =>
      (∀ r ∈ x.1, r.doc.Writable) ∧ x.2.doc.Writable)
    ⟨by simp, by simp [default, TypeExpr.doc]⟩ fun _ _ => target_writable
  have hbody := h.of_getD (d := ([], []))
    (P := fun x : List Attribute × List (Except Fault Member) =>
      ∀ m, .ok m ∈ x.2 → m.Writable) (by simp) fun _ _ => body_writable
  exact ⟨htarget.2, fun m hm => hbody m (mem_of_mapM_id hitems m hm), h.generics, htarget.1⟩

/-- No rule makes a node that cannot be written out of nodes that can. -/
theorem ruleMeaning_writable (source : List Char) (r : Rule) {ps : Parts} (h : Parts.Writable ps) :
    (ruleMeaning source r ps).Writable := by
  have htype := h.type
  have hpath := h.path
  have hbounds := h.bounds
  have heach := h.eachBound
  cases r with
  | implBlock => exact implBlock_writable h
  | methodMember => exact methodMember_writable h
  | constMember => exact constMember_writable h
  | typeMember => exact typeMember_writable h
  | macroMember =>
    rintro m ⟨⟩
    simp [macroMember, Member.Writable, Member.lines]
  | foreignMember =>
    rintro m ⟨⟩
    simp [foreignMember, Member.Writable, Member.lines]
  | fnItem => exact signature_writable h
  | fnParam => exact fnArg_writable h
  | implBody =>
    intro m hm
    refine h.of_pick (P := fun a => ∀ m, a = .ok m → m.Writable) ?_ _ hm m rfl
    intro m x hx hm
    split at hx <;> cases hx
    exact hm
  | inherentTarget => exact ⟨by simp, htype⟩
  | traitTarget => exact ⟨by simp [TraitRef.doc, hpath], htype⟩
  | typeDef => exact ⟨htype, h.clause?⟩
  | generics =>
    refine h.of_pick ?_
    intro m x hx hm
    split at hx <;> cases hx
    exact hm
  | whereClause =>
    refine h.of_pick ?_
    intro m x hx hm
    split at hx <;> cases hx
    exact hm
  | genericParam => exact genericParam_writable h
  | typeParam =>
    have htype? := h.type?
    simp only [ruleMeaning, Meaning.Writable, GenericParam.doc]
    cases ht : Parts.type? ps <;> cases hb : Parts.bounds ps <;> simp_all
  | constParam =>
    simp only [ruleMeaning, Meaning.Writable, GenericParam.doc]
    split <;> simp [htype]
  | parenBound =>
    simp only [ruleMeaning]
    split
    · next b hb => exact parenthesized_writable (heach b (List.mem_of_head? hb))
    · trivial
  | marker =>
    simp only [ruleMeaning]
    split <;> trivial
  | type | typeNoBounds =>
    have hpath? := h.path?
    simp only [ruleMeaning]
    split
    · next p hp => simpa [Meaning.Writable, TypeExpr.doc] using hpath? p hp
    · exact htype
  | typeBounds => exact hbounds
  | bounds => exact heach
  | lifetimeBound => simp [ruleMeaning, Meaning.Writable, Bound.doc]
  | traitBound => exact traitBound_writable h
  | lifetimePredicate => simp [ruleMeaning, Meaning.Writable, Predicate.doc]
  | typePredicate =>
    simp only [ruleMeaning, Meaning.Writable, Predicate.doc]
    split <;> simp_all
  | implType | dynType =>
    simpa [ruleMeaning, Meaning.Writable, TypeExpr.doc, boundDocs_eq_map] using hbounds
  | implOneType | dynOneType =>
    simpa [ruleMeaning, Meaning.Writable, TypeExpr.doc, boundDocs_eq_map] using heach
  | pathType => exact path_writable h
  | qpathType => simpa [ruleMeaning, Meaning.Writable, TypeExpr.doc] using qualifiedPath_writable h
  | refType | ptrType | sliceType | arrayType | parenType | neverType | inferType | macroType =>
    simp [ruleMeaning, Meaning.Writable, TypeExpr.doc, htype]
  | tupleType =>
    have htypes := h.types
    simpa [ruleMeaning, Meaning.Writable, TypeExpr.doc, typeDocs_eq_map] using htypes
  | fnPtrType => exact fnPtr_writable h
  | pathSegment | turbofishSegment => exact segment_writable _ h
  | angleArgs =>
    simp only [ruleMeaning, Meaning.Writable, GenericArgs.doc, argDocs_eq_map, Doc.writable_append,
      Doc.writable_str, Doc.writable_sepBy, List.mem_map, true_and, and_true]
    rintro d ⟨a, ha, rfl⟩
    refine h.of_pick (P := fun a => a.doc.Writable) ?_ a ha
    intro m x hx hm
    split at hx <;> cases hx
    exact hm
  | parenArgs => exact parenArgs_writable h
  | typeArg => simpa [ruleMeaning, Meaning.Writable, GenericArg.doc] using htype
  | lifetimeArg | constArg => simp [ruleMeaning, Meaning.Writable, GenericArg.doc]
  | bindingArg =>
    have hargs := h.args?
    simpa [ruleMeaning, Meaning.Writable, GenericArg.doc, htype] using hargs
  | constraintArg =>
    have hargs := h.args?
    simpa [ruleMeaning, Meaning.Writable, GenericArg.doc, boundDocs_eq_map] using ⟨hargs, hbounds⟩
  | bareFnArg =>
    simp only [ruleMeaning, Meaning.Writable]
    cases Parts.word? [.name, .underscore] ps <;> simp [BareArg.doc, htype]
  | _ => trivial

mutual

theorem phrase_writable (source : List Char) : ∀ t : Tree Token Rule,
    (phrase source t).meaning.Writable
  | .leaf _ => trivial
  | .node r cs => ruleMeaning_writable source r (phrases_writable source cs)

theorem phrases_writable (source : List Char) : ∀ cs : List (Tree Token Rule),
    Parts.Writable (foldAll Phrase.ofToken
      (fun r ps => ⟨Parts.tokens ps, ruleMeaning source r ps⟩) cs)
  | [], p, hp => by simp [foldAll] at hp
  | c :: cs, p, hp => by
    rw [foldAll] at hp
    rcases List.mem_cons.1 hp with rfl | hp
    · exact phrase_writable source c
    · exact phrases_writable source cs p hp

end

end Reading

/-! ### Types and blocks that are read -/

theorem readParts_writable {goal : Goal} {e : Syn} {source : List Char} {ps : Parts}
    (h : readParts goal e source = .ok ps) : Parts.Writable ps := by
  unfold readParts at h
  simp only at h
  split at h <;> simp only [reduceCtorEq, Except.ok.injEq] at h
  subst h
  intro p hp
  obtain ⟨t, -, rfl⟩ := List.mem_map.1 hp
  exact Reading.phrase_writable source t

/-- Every part of a block that was read can be written. -/
theorem parseBlock_writable {source : String} {b : ImplBlock} (h : parseBlock source = .ok b) :
    b.Writable := by
  obtain ⟨ps, hps, hb⟩ := bind_eq_ok h
  split at hb
  · next found hfound =>
    refine (readParts_writable hps).of_head? (P := fun b => ∀ b', b = .ok b' → b'.Writable) ?_ _
      hfound b hb
    intro m x hx hm
    split at hx <;> cases hx
    exact hm
  · simp at hb

end TraitLift
