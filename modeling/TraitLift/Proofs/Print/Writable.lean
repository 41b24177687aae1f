import Mathlib.Tactic
import TraitLift.Print.Item

/-!
Nodes that can be written. A document is writable if no misplaced node is left in it; then it has
a text. Writability goes through every way of putting documents together, so that a node is writable
if its parts are.
-/

namespace TraitLift

namespace Doc

/-- No piece of the document is a misplaced node. -/
def Writable (d : Doc) : Prop := ∀ p ∈ d, ∃ s, p = Piece.text s

theorem Writable.text_eq_ok : ∀ {d : Doc}, d.Writable → ∃ s, d.text = .ok s
  | [], _ => ⟨"", rfl⟩
  | .text s :: d, h => by
    obtain ⟨t, ht⟩ := text_eq_ok (d := d) fun p hp => h p (List.mem_cons_of_mem _ hp)
    refine ⟨s ++ t, ?_⟩
    rw [Doc.text, ht]
    rfl
  | .misplaced m :: d, h => by
    obtain ⟨s, hs⟩ := h (.misplaced m) (List.mem_cons_self ..)
    simp at hs

@[simp]
theorem writable_nil : Writable [] := by
  intro p hp
  simp at hp

@[simp]
theorem writable_str (s : String) : Writable (str s) := by
  intro p hp
  exact ⟨s, List.mem_singleton.1 hp⟩

@[simp]
theorem not_writable_bad (place : Place) (kind : String) : ¬ Writable (bad place kind) := by
  intro h
  obtain ⟨s, hs⟩ := h _ (List.mem_singleton.2 rfl)
  simp at hs

@[simp]
theorem writable_append {d e : Doc} : Writable (d ++ e) ↔ Writable d ∧ Writable e := by
  simp only [Writable, List.mem_append]
  constructor
  · intro h
    exact ⟨fun p hp => h p (Or.inl hp), fun p hp => h p (Or.inr hp)⟩
  · rintro ⟨hd, he⟩ p (hp | hp)
    · exact hd p hp
    · exact he p hp

@[simp]
theorem writable_strIf (b : Bool) (s : String) : Writable (strIf b s) := by
  cases b <;> simp [strIf]

@[simp]
theorem writable_sepBy {s : String} : ∀ {l : List Doc},
    Writable (sepBy s l) ↔ ∀ d ∈ l, Writable d
  | [] => by simp [sepBy]
  | [d] => by simp [sepBy]
  | d :: e :: l => by
    rw [sepBy, writable_append, writable_append, writable_sepBy (l := e :: l)]
    · simp
    · simp

end Doc

/-! ### Types and bounds -/

@[simp]
theorem writable_lifetimeDoc (l : Option String) : (lifetimeDoc l).Writable := by
  unfold lifetimeDoc
  split
  · split <;> simp
  · simp

@[simp]
theorem writable_abiDoc (a : Option String) : (abiDoc a).Writable := by
  cases a <;> simp [abiDoc]

@[simp]
theorem writable_binderDoc (ls : List LifetimeParam) : (binderDoc ls).Writable := by
  unfold binderDoc
  split <;> simp

theorem typeDocs_eq_map : ∀ ts : List TypeExpr, typeDocs ts = ts.map TypeExpr.doc
  | [] => by rw [typeDocs]; rfl
  | t :: ts => by rw [typeDocs, typeDocs_eq_map ts]; rfl

theorem segmentDocs_eq_map : ∀ ss : List Segment, segmentDocs ss = ss.map Segment.doc
  | [] => by rw [segmentDocs]; rfl
  | s :: ss => by rw [segmentDocs, segmentDocs_eq_map ss]; rfl

theorem argDocs_eq_map : ∀ as : List GenericArg, argDocs as = as.map GenericArg.doc
  | [] => by rw [argDocs]; rfl
  | a :: as => by rw [argDocs, argDocs_eq_map as]; rfl

theorem boundDocs_eq_map : ∀ bs : List Bound, boundDocs bs = bs.map Bound.doc
  | [] => by rw [boundDocs]; rfl
  | b :: bs => by rw [boundDocs, boundDocs_eq_map bs]; rfl

theorem bareArgDocs_eq_map : ∀ as : List BareArg, bareArgDocs as = as.map BareArg.doc
  | [] => by rw [bareArgDocs]; rfl
  | a :: as => by rw [bareArgDocs, bareArgDocs_eq_map as]; rfl

@[simp]
theorem writable_outputDoc {o : Option TypeExpr} :
    (outputDoc o).Writable ↔ ∀ t ∈ o, t.doc.Writable := by
  cases o <;> simp [outputDoc]

@[simp]
theorem writable_asTraitDoc {p : Option Path} :
    (asTraitDoc p).Writable ↔ ∀ q ∈ p, q.doc.Writable := by
  cases p <;> simp [asTraitDoc]

@[simp]
theorem writable_argsDoc {a : Option GenericArgs} :
    (argsDoc a).Writable ↔ ∀ g ∈ a, g.doc.Writable := by
  cases a <;> simp [argsDoc]

@[simp]
theorem writable_boundsDoc {bs : List Bound} :
    (boundsDoc bs).Writable ↔ ∀ b ∈ bs, b.doc.Writable := by
  simp [boundsDoc, boundDocs_eq_map]

@[simp]
theorem writable_inlineAttrsDoc (attrs : List Attribute) : (inlineAttrsDoc attrs).Writable := by
  intro p hp
  obtain ⟨a, -, rfl⟩ := List.mem_map.1 hp
  exact ⟨_, rfl⟩

@[simp]
theorem writable_paramsDoc {ps : List GenericParam} :
    (paramsDoc ps).Writable ↔ ∀ p ∈ ps, p.doc.Writable := by
  unfold paramsDoc
  split
  · next h => simp [List.isEmpty_iff.1 h]
  · simp

@[simp]
theorem writable_clauseDoc {c : Option (List Predicate)} :
    (clauseDoc c).Writable ↔ ∀ ps ∈ c, ∀ p ∈ ps, p.doc.Writable := by
  unfold clauseDoc
  split <;> simp

/-! ### Members and blocks -/

/-- Every line of the member is writable. -/
def Member.Writable (m : Member) : Prop := ∀ d ∈ m.lines, d.Writable

@[simp]
theorem forall_mem_memberLines {attrs : List Attribute} {line : Doc} :
    (∀ d ∈ memberLines attrs line, d.Writable) ↔ line.Writable := by
  simp [memberLines, or_imp, forall_and]

@[simp]
theorem writable_markersDoc (vis : Visibility) (isDefault : Bool) :
    (markersDoc vis isDefault).Writable := by
  simp [markersDoc]

@[simp]
theorem writable_assocHeadDoc {name : String} {g : Generics} {bs : List Bound} :
    (assocHeadDoc name g bs).Writable ↔
      (∀ p ∈ g.params, p.doc.Writable) ∧ ∀ b ∈ bs, b.doc.Writable := by
  unfold assocHeadDoc
  cases bs <;> simp

theorem writable_wrapDoc {header : Doc} {attrs : List Attribute} {body : List Doc}
    (hheader : header.Writable) (hbody : ∀ d ∈ body, d.Writable) :
    (wrapDoc header attrs body).Writable := by
  unfold wrapDoc
  split
  · simp [hheader, or_imp, forall_and]
  · simp only [Doc.writable_sepBy, List.mem_append, List.mem_map, List.mem_singleton]
    rintro d (⟨a, -, rfl⟩ | (rfl | hd) | rfl)
    · simp
    · simp [hheader]
    · exact hbody d hd
    · simp

theorem writable_bodyLines {innerAttrs : List Attribute} {items : List Member}
    (h : ∀ m ∈ items, m.Writable) : ∀ d ∈ bodyLines innerAttrs items, d.Writable := by
  simp only [bodyLines, List.mem_map, List.mem_append, List.mem_flatMap]
  rintro d ⟨line, ⟨a, -, rfl⟩ | ⟨m, hm, hline⟩, rfl⟩
  · simp [indent]
  · simp [indent, h m hm line hline]

/-- Parameters and where clause are writable. -/
structure Generics.Writable (g : Generics) : Prop where
  params : ∀ p ∈ g.params, p.doc.Writable
  clause : ∀ ps ∈ g.clause, ∀ p ∈ ps, p.doc.Writable

/-- Every part of the block is writable. -/
structure ImplBlock.Writable (b : ImplBlock) : Prop where
  selfTy : b.selfTy.doc.Writable
  items : ∀ m ∈ b.items, m.Writable
  generics : b.generics.Writable
  traitRef : ∀ r ∈ b.traitRef, r.doc.Writable

theorem ImplBlock.Writable.doc {b : ImplBlock} (h : b.Writable) : b.doc.Writable := by
  refine writable_wrapDoc ?_ (writable_bodyLines h.items)
  have hparams := h.generics.params
  have hclause := h.generics.clause
  have htrait := h.traitRef
  unfold ImplBlock.header
  cases hr : b.traitRef with
  | none =>
    simp only [Doc.writable_append, Doc.writable_strIf, Doc.writable_str, Doc.writable_nil,
      writable_paramsDoc, writable_clauseDoc, true_and, and_true, h.selfTy]
    exact ⟨hparams, hclause⟩
  | some r =>
    simp only [Doc.writable_append, Doc.writable_strIf, Doc.writable_str, writable_paramsDoc,
      writable_clauseDoc, true_and, and_true, h.selfTy]
    exact ⟨⟨hparams, htrait r hr⟩, hclause⟩

theorem TraitDecl.writable_doc {d : TraitDecl} (hg : d.generics.Writable)
    (hitems : ∀ m ∈ d.items, m.Writable) : d.doc.Writable := by
  refine writable_wrapDoc ?_ (writable_bodyLines hitems)
  simp only [TraitDecl.header, Doc.writable_append, Doc.writable_strIf, Doc.writable_str,
    writable_paramsDoc, writable_clauseDoc, true_and]
  exact ⟨hg.params, hg.clause⟩

end TraitLift
