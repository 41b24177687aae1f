import Mathlib.Tactic
import TraitLift.Proofs.Lift.Constraints

/-!
The two items of an expansion agree. `Counterparts` says which members of the declaration and of the
implementation go with a member of the block, `Member.Aligned` that their lines do, and `Names` which
argument of the trait refers to a parameter. Main statement: every expansion has counterparts member
by member, aligned as text, and its implementation is the block aimed at the trait with one argument
for each parameter (`Paired`).
-/

namespace TraitLift

/-! ### Members that go together -/

/-- `m.Counterparts d p`: in an expansion, the member `m` of the block becomes `d` in the declaration
and `p` in the implementation. There is no such pair for members that have no place in a trait. -/
inductive Member.Counterparts : Member → Member → Member → Prop
  | method {m : Method} : Counterparts (.method m) (.traitMethod ⟨m.sig, m.attrs, m.loc⟩)
      (.method { m with vis := .inherited })
  | constant {c : Constant} : Counterparts (.constant c)
      (.traitConst ⟨c.name, c.ty, c.attrs, c.loc⟩) (.constant { c with vis := .inherited })
  | assocType {t : AssociatedType} : Counterparts (.assocType t)
      (.traitType ⟨t.name, t.generics, t.bounds, t.attrs, t.loc⟩)
      (.assocType { t with vis := .inherited })
  | macroCall {m : MacroCall} : Counterparts (.macroCall m) (.macroCall m) (.macroCall m)
  | verbatim {text loc} : Counterparts (.verbatim text loc) (.verbatim text loc)
      (.verbatim text loc)

theorem Member.counterparts_of_declare {m d : Member} (h : m.declare = .ok d) :
    m.Counterparts d m.stripVisibility := by
  cases m <;> simp only [declare, Except.ok.injEq, reduceCtorEq] at h <;> subst h
  case method => exact .method
  case constant => exact .constant
  case assocType => exact .assocType
  case macroCall => exact .macroCall
  case verbatim => exact .verbatim

/-- If all members can be declared, each of them is, in order. -/
theorem forall₂_of_declareAll {items decls : List Member} (h : declareAll items = .ok decls) :
    List.Forall₂ (fun m d => m.declare = .ok d) items decls := by
  have hall : ∀ m ∈ items, m.rejected? = none := by
    intro m hm
    by_contra hne
    obtain ⟨text, htext⟩ := Option.ne_none_iff_exists'.1 hne
    obtain ⟨m', hm'⟩ : ∃ m', items.find? (·.rejected?.isSome) = some m' := by
      rw [← Option.isSome_iff_exists, List.find?_isSome]
      exact ⟨m, hm, by rw [htext]; rfl⟩
    obtain ⟨text', others, hothers⟩ := List.exists_cons_of_ne_nil
      (List.ne_nil_of_mem (List.mem_filterMap.2 ⟨m, hm, htext⟩))
    simp [declareAll, hm', hothers] at h
  have hdecls : items.filterMap (·.declare.toOption) = decls := by
    have hnil : items.filterMap Member.rejected? = [] := List.filterMap_eq_nil_iff.2 hall
    simpa [declareAll, hnil] using h
  clear h
  induction items generalizing decls with
  | nil =>
    subst hdecls
    exact .nil
  | cons m items ih =>
    rw [List.forall_mem_cons] at hall
    have hm := hall.1
    unfold Member.rejected? at hm
    split at hm
    · next d hd =>
      subst hdecls
      rw [List.filterMap_cons_some (b := d) (by rw [hd]; rfl)]
      exact .cons hd (ih hall.2 rfl)
    · simp at hm

/-! ### Their lines -/

namespace Doc

theorem text_append (e : Doc) : ∀ d : Doc,
    (d ++ e).text = d.text.bind fun s => e.text.map (s ++ ·)
  | [] => by cases h : e.text <;> simp [text, h, Except.bind, Except.map]
  | .misplaced m :: d => rfl
  | .text s :: d => by
    rw [List.cons_append, text, text, text_append e d]
    cases text d <;> cases e.text <;> simp [Except.bind, Except.map, String.append_assoc]

theorem text_str (s : String) : (str s).text = .ok s := by
  simp [str, text, Except.map]

theorem text_append_str (d : Doc) (s : String) : (d ++ str s).text = d.text.map (· ++ s) := by
  rw [text_append, text_str]
  cases d.text <;> rfl

theorem text_str_append (s : String) (d : Doc) : (str s ++ d).text = d.text.map (s ++ ·) := by
  rw [text_append, text_str]
  rfl

end Doc

/-- What marks a member as one that can be specialised. -/
def defaultMark (isDefault : Bool) : String := if isDefault then "default " else ""

theorem markersDoc_inherited (isDefault : Bool) (d : Doc) :
    (markersDoc .inherited isDefault ++ d).text = d.text.map (defaultMark isDefault ++ ·) := by
  cases isDefault <;> cases hd : d.text <;>
    simp [markersDoc, Visibility.text, Doc.strIf, Doc.text_append, Doc.text_str, defaultMark, hd,
      Except.bind, Except.map]

/-- The lines of a member as text. -/
def Member.texts (m : Member) : List (Except Misplaced String) := m.lines.map Doc.text

/-- Attributes as lines of text. -/
def attrTexts (attrs : List Attribute) : List (Except Misplaced String) :=
  attrs.map fun a => .ok a.text

theorem map_text_memberLines (attrs : List Attribute) (line : Doc) :
    (memberLines attrs line).map Doc.text = attrTexts attrs ++ [line.text] := by
  simp [memberLines, attrTexts, Doc.text_str, Function.comp_def]

/-- `m.Aligned d p`: the lines of a declared member `d` and an implemented member `p` differ only in
what follows their common head and in a `default` in front of it. The head of a function is its
signature, the head of a constant its name and type; either can only be written in both members or in
neither. -/
def Member.Aligned (m d p : Member) : Prop :=
  match m with
  | .method m => ∃ head : Except Misplaced String,
      d.texts = attrTexts m.attrs ++ [head.map (· ++ ";")] ∧
      p.texts = attrTexts m.attrs ++
        [head.map fun s => defaultMark m.defaultness ++ s ++ " " ++ m.body]
  | .constant c => ∃ head : Except Misplaced String,
      d.texts = attrTexts c.attrs ++ [head.map (· ++ ";")] ∧
      p.texts = attrTexts c.attrs ++
        [head.map fun s => defaultMark c.defaultness ++ s ++ " = " ++ c.value ++ ";"]
  | .assocType t => ∃ head clause definition : Except Misplaced String,
      d.texts = attrTexts t.attrs ++ [head.bind fun s => clause.map fun c => s ++ c ++ ";"] ∧
      p.texts = attrTexts t.attrs ++ [head.bind fun s => definition.bind fun x =>
        clause.map fun c => defaultMark t.defaultness ++ s ++ " = " ++ x ++ c ++ ";"]
  | _ => d.texts = p.texts

theorem Member.Counterparts.aligned {m d p : Member} (h : m.Counterparts d p) :
    m.Aligned d p := by
  cases h with
  | @method m =>
    refine ⟨m.sig.doc.text, ?_, ?_⟩
    · rw [texts, lines, map_text_memberLines, Doc.text_append_str]
    · rw [texts, lines, map_text_memberLines, List.append_assoc, markersDoc_inherited,
        Doc.text_append_str]
      cases m.sig.doc.text <;> simp [Except.map, String.append_assoc]
  | @constant c =>
    refine ⟨(Doc.str ("const " ++ c.name ++ ": ") ++ c.ty.doc).text, ?_, ?_⟩
    · rw [texts, lines, map_text_memberLines, Doc.text_append_str]
    · rw [texts, lines, map_text_memberLines, List.append_assoc, List.append_assoc,
        markersDoc_inherited, ← List.append_assoc, Doc.text_append_str]
      cases (Doc.str ("const " ++ c.name ++ ": ") ++ c.ty.doc).text <;>
        simp [Except.map, String.append_assoc]
  | @assocType t =>
    refine ⟨(assocHeadDoc t.name t.generics t.bounds).text, (clauseDoc t.generics.clause).text,
      t.definition.doc.text, ?_, ?_⟩
    · rw [texts, lines, map_text_memberLines, Doc.text_append_str, Doc.text_append]
      cases (assocHeadDoc t.name t.generics t.bounds).text <;>
        cases (clauseDoc t.generics.clause).text <;> rfl
    · rw [texts, lines, map_text_memberLines]
      simp only [List.append_assoc]
      rw [markersDoc_inherited, Doc.text_append, Doc.text_str_append, Doc.text_append,
        Doc.text_append_str]
      cases (assocHeadDoc t.name t.generics t.bounds).text <;> cases t.definition.doc.text <;>
        cases (clauseDoc t.generics.clause).text <;>
        simp [Except.bind, Except.map, String.append_assoc]
  | macroCall => rfl
  | verbatim => rfl

/-! ### The trait of the implementation -/

/-- `p.Names a`: the argument `a` refers to the parameter `p`. -/
inductive GenericParam.Names : GenericParam → GenericArg → Prop
  | type {name bounds fallback attrs} :
      Names (.type name bounds fallback attrs) (.type (TypeExpr.named name))
  | lifetime {p : LifetimeParam} : Names (.lifetime p) (.lifetime p.name)
  | const {name ty fallback attrs} : Names (.const name ty fallback attrs) (.const name)

theorem GenericParam.names_of_toArg {p : GenericParam} {a : GenericArg} (h : p.toArg = .ok a) :
    p.Names a := by
  cases p <;> simp only [toArg, Except.ok.injEq, reduceCtorEq] at h <;> subst h
  case type => exact .type
  case lifetime => exact .lifetime
  case const => exact .const

/-- Taking the bounds off a parameter does not change what refers to it. -/
theorem GenericParam.Names.of_withoutBounds {p : GenericParam} {a : GenericArg}
    (h : p.withoutBounds.Names a) : p.Names a := by
  cases p with
  | type =>
    cases h
    exact .type
  | lifetime =>
    cases h
    exact .lifetime
  | const => exact h
  | misplaced => exact h

theorem forall₂_of_mapM_toArg : ∀ {ps : List GenericParam} {as : List GenericArg},
    ps.mapM GenericParam.toArg = .ok as → List.Forall₂ GenericParam.Names ps as
  | [], as, h => by
    obtain rfl : [] = as := Except.ok.inj h
    exact .nil
  | p :: ps, as, h => by
    rw [List.mapM_cons] at h
    cases ha : p.toArg with
    | error m => simp [ha, bind, Except.bind] at h
    | ok a =>
      cases has : ps.mapM GenericParam.toArg with
      | error m => simp [ha, has, bind, Except.bind] at h
      | ok as' =>
        obtain rfl : a :: as' = as := by
          simpa [ha, has, bind, Except.bind, pure, Except.pure] using h
        exact .cons (GenericParam.names_of_toArg ha) (forall₂_of_mapM_toArg has)

/-- `args` is what a trait needs to refer to all of some parameters, in order: nothing if there are
none. -/
def RefersTo (ps : List GenericParam) : Option GenericArgs → Prop
  | none => ps = []
  | some (.angle as false) => ps ≠ [] ∧ List.Forall₂ GenericParam.Names ps as
  | some _ => False

theorem refersTo_of_projectParams {ps : List GenericParam} {args : Option GenericArgs}
    (h : projectParams ps = .ok args) : RefersTo ps args := by
  unfold projectParams at h
  split at h
  · next hempty =>
    obtain rfl := Except.ok.inj h
    exact List.isEmpty_iff.1 hempty
  · next hne =>
    cases has : ps.mapM GenericParam.toArg with
    | error m => simp [has, Except.map] at h
    | ok as =>
      obtain rfl : some (.angle as false) = args := by simpa [has, Except.map] using h
      exact ⟨by simpa using hne, forall₂_of_mapM_toArg has⟩

theorem RefersTo.of_map_withoutBounds {ps : List GenericParam} {args : Option GenericArgs}
    (h : RefersTo (ps.map GenericParam.withoutBounds) args) : RefersTo ps args := by
  unfold RefersTo at h ⊢
  split at h
  · exact List.map_eq_nil_iff.1 h
  · obtain ⟨hne, hnames⟩ := h
    rw [List.forall₂_map_left_iff] at hnames
    exact ⟨by simpa using hne, hnames.imp fun _ _ => GenericParam.Names.of_withoutBounds⟩
  · exact h

/-- The block aimed at a trait is the block with the trait, the arguments that refer to its
parameters, and members without visibility. -/
theorem ImplBlock.eq_of_retarget {b impl : ImplBlock} {name : String}
    (h : b.retarget name = .ok impl) : ∃ args, RefersTo b.generics.params args ∧
    impl = { b with traitRef := some { path := Path.simple name args },
                    items := b.items.map Member.stripVisibility } := by
  unfold ImplBlock.retarget contractPath at h
  cases hargs : projectParams b.generics.params with
  | error m => simp [hargs, Except.map, bind, Except.bind] at h
  | ok args =>
    refine ⟨args, refersTo_of_projectParams hargs, ?_⟩
    simpa [hargs, Except.map, bind, Except.bind, pure, Except.pure, eq_comm] using h

/-- Gathering the constraints changes nothing but the generic part. -/
theorem ImplBlock.gather_eq (b : ImplBlock) : b.gather = { b with generics := b.gather.generics } := by
  unfold gather linkSelf hoistBounds
  split <;> split <;> rfl

/-! ### The whole expansion -/

/-- What holds of a block and the expansion made of it. -/
structure Paired (b : ImplBlock) (args : ExtArgs) (c : Config) (e : Expansion) : Prop where
  /-- The two items and the block have the same number of members. -/
  length : e.declaration.items.length = b.items.length ∧
    e.implementation.items.length = b.items.length
  /-- Member by member they go together, also as text. -/
  members : ∀ (i : Nat) (m : Member), b.items[i]? = some m → ∃ d p, e.declaration.items[i]? = some d ∧
    e.implementation.items[i]? = some p ∧ m.Counterparts d p ∧ m.Aligned d p
  /-- The trait has the name that is found for the block, and so does the declaration. -/
  name : TraitName.resolve args b c = .ok e.name ∧ e.declaration.name = e.name.ident ∧
    e.declaration.vis = e.name.vis
  /-- The implementation is one of this trait, with one argument for each parameter. -/
  traitRef : ∃ refs, RefersTo b.generics.params refs ∧
    e.implementation.traitRef = some { path := Path.simple e.name.ident refs, negative := false }
  /-- The rest of the implementation is the block, but for the generic part. -/
  implementation : ∃ generics traitRef items,
    e.implementation = { b with generics, traitRef, items }
  /-- Attributes and `unsafe` are those of the block on both sides. -/
  declaration : e.declaration.attrs = b.attrs ∧ e.declaration.innerAttrs = b.innerAttrs ∧
    e.declaration.unsafety = b.unsafety ∧ e.declaration.loc = b.loc

/-- The declaration and the implementation of every expansion agree member by member. -/
theorem ImplBlock.expand_paired {b : ImplBlock} {args : ExtArgs} {c : Config} {e : Expansion}
    (h : b.expand args c = .ok e) : Paired b args c e := by
  obtain ⟨-, name, decls, impl, hname, hdecls, himpl, rfl⟩ := expand_eq_ok_iff.1 h
  obtain ⟨refs, hrefs, himpl⟩ := eq_of_retarget himpl
  have hgather := b.gather_eq
  have hitems : b.gather.items = b.items := by rw [hgather]
  rw [hitems] at himpl
  have hdeclared := forall₂_of_declareAll hdecls
  refine ⟨⟨hdeclared.length_eq.symm, ?_⟩, ?_, ⟨hname, rfl, rfl⟩, ⟨refs, ?_, ?_⟩, ?_, ?_⟩
  · rw [himpl]
    exact List.length_map ..
  · intro i m hm
    obtain ⟨hi, rfl⟩ := List.getElem?_eq_some_iff.1 hm
    have hi' : i < decls.length := hdeclared.length_eq ▸ hi
    have hcounter := Member.counterparts_of_declare (hdeclared.get hi hi')
    refine ⟨_, _, List.getElem?_eq_getElem hi', ?_, hcounter, hcounter.aligned⟩
    rw [himpl]
    simp [hm]
  · rw [params_gather] at hrefs
    exact hrefs.of_map_withoutBounds
  · rw [himpl]
  · refine ⟨b.gather.generics, impl.traitRef, impl.items, ?_⟩
    rw [himpl, hgather]
  · have hframe : b.gather.attrs = b.attrs ∧ b.gather.innerAttrs = b.innerAttrs ∧
        b.gather.unsafety = b.unsafety ∧ b.gather.loc = b.loc := by
      rw [hgather]
      exact ⟨rfl, rfl, rfl, rfl⟩
    exact hframe

/-- A `default` constant with an attribute, in a block with a lifetime and a constant parameter: the
lines of the two members, and the arguments of the trait. -/
theorem ImplBlock.expand_paired_constant :
    ∃ b e, ImplBlock.expand b ⟨none, some "B"⟩ Config.default = .ok e ∧
      Paired b ⟨none, some "B"⟩ Config.default e ∧
      b.generics.params = [.lifetime ⟨"'a", [], []⟩, .const "N" (TypeExpr.named "u8") none []] ∧
      e.declaration.items.map Member.texts = [[.ok "#[a]", .ok "const M: u8;"]] ∧
      e.implementation.items.map Member.texts =
        [[.ok "#[a]", .ok "default const M: u8 = N;"]] ∧
      e.implementation.traitRef =
        some { path := Path.simple "B" (some (.angle [.lifetime "'a", .const "N"] false)) } := by
  let b : ImplBlock :=
    { selfTy := TypeExpr.named "A"
      items := [.constant ⟨"M", TypeExpr.named "u8", "N", [⟨"#[a]", false⟩], .pub, true, none⟩]
      generics := { params := [.lifetime ⟨"'a", [], []⟩, .const "N" (TypeExpr.named "u8") none []] } }
  have hsome : (b.expand ⟨none, some "B"⟩ Config.default).toOption.map
      (fun e => (e.declaration.items.map Member.texts, e.implementation.items.map Member.texts,
        e.implementation.traitRef)) =
      some ([[.ok "#[a]", .ok "const M: u8;"]], [[.ok "#[a]", .ok "default const M: u8 = N;"]],
        some { path := Path.simple "B" (some (.angle [.lifetime "'a", .const "N"] false)) }) := by
    decide +kernel
  cases he : b.expand ⟨none, some "B"⟩ Config.default with
  | error f => simp [he, Except.toOption] at hsome
  | ok e =>
    rw [he] at hsome
    simp only [Except.toOption, Option.map_some, Option.some.injEq, Prod.mk.injEq] at hsome
    exact ⟨b, e, he, expand_paired he, rfl, hsome.1, hsome.2.1, hsome.2.2⟩

end TraitLift
