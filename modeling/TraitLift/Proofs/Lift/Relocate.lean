import Mathlib.Tactic
import TraitLift.Proofs.Node.Relocate

/-!
What is made of a block does not depend on where the block was read, and of the text it was read from
only the tokens count (`ImplBlock.expand_relocate`). Places are not written
(`Expansion.render_relocate`).
-/

namespace TraitLift

variable (g : Loc → Loc)

/-! ### Members -/

namespace Member

theorem declare_relocate (m : Member) :
    (m.relocate g).declare = m.declare.map (Member.relocate g) := by
  cases m <;> rfl

theorem rejected?_relocate (m : Member) : (m.relocate g).rejected? = m.rejected? := by
  unfold rejected?
  rw [declare_relocate]
  cases m.declare <;> rfl

theorem describe_relocate (m : Member) : (m.relocate g).describe = m.describe := by
  cases m <;> rfl

theorem loc?_relocate (m : Member) : (m.relocate g).loc? = m.loc?.map g := by
  cases m <;> rfl

theorem stripVisibility_relocate (m : Member) :
    (m.relocate g).stripVisibility = m.stripVisibility.relocate g := by
  cases m <;> rfl

theorem lines_relocate (m : Member) : (m.relocate g).lines = m.lines := by
  cases m <;> rfl

end Member

theorem declareAll_relocate (items : List Member) :
    declareAll (items.map (Member.relocate g)) =
      relocated g (List.map (Member.relocate g)) (declareAll items) := by
  have hfind : (items.map (Member.relocate g)).find? (·.rejected?.isSome) =
      (items.find? (·.rejected?.isSome)).map (Member.relocate g) := by
    rw [List.find?_map]
    simp only [Function.comp_def, Member.rejected?_relocate]
  have htexts : (items.map (Member.relocate g)).filterMap Member.rejected? =
      items.filterMap Member.rejected? := by
    rw [List.filterMap_map]
    simp only [Function.comp_def, Member.rejected?_relocate]
  have hdecls : (items.map (Member.relocate g)).filterMap (·.declare.toOption) =
      (items.filterMap (·.declare.toOption)).map (Member.relocate g) := by
    rw [List.filterMap_map, List.map_filterMap]
    congr 1
    funext m
    rw [Function.comp_apply, Member.declare_relocate]
    cases m.declare <;> rfl
  unfold declareAll
  rw [hfind, htexts, hdecls]
  cases items.find? (·.rejected?.isSome) with
  | none => rfl
  | some m =>
    cases items.filterMap Member.rejected? with
    | nil => rfl
    | cons text others =>
      simp only [Option.map_some, relocated, Fault.relocate, Member.describe_relocate,
        Member.loc?_relocate]

/-! ### Blocks -/

namespace ImplBlock

variable (source : Option String) (b : ImplBlock)

theorem ensureInherent_relocate :
    (b.relocate g source).ensureInherent = relocatedResult g id b.ensureInherent := by
  unfold ensureInherent relocate
  cases b.traitRef with
  | none => rfl
  | some r =>
    simp only
    cases r.doc.text <;> rfl

theorem gather_relocate : (b.relocate g source).gather = b.gather.relocate g source := by
  have hhoist : (b.relocate g source).hoistBounds = b.hoistBounds.relocate g source := by
    have hhoisted : (b.relocate g source).hoisted = b.hoisted := rfl
    rw [hoistBounds, hoistBounds, hhoisted]
    split <;> rfl
  have hlink : ∀ b : ImplBlock, (b.relocate g source).linkSelf = b.linkSelf.relocate g source := by
    intro b
    have htwins : (b.relocate g source).twins = b.twins := rfl
    rw [linkSelf, linkSelf, htwins]
    split <;> rfl
  rw [gather, gather, hhoist, hlink]

theorem retarget_relocate (name : String) : (b.relocate g source).retarget name =
    (b.retarget name).map (ImplBlock.relocate g source) := by
  simp only [retarget, relocate]
  cases contractPath name b.generics.params with
  | error m => rfl
  | ok path =>
    simp only [bind, Except.bind, pure, Except.pure, Except.map, relocate, List.map_map,
      Function.comp_def, Member.stripVisibility_relocate]

end ImplBlock

/-- The name that the arguments give, or else the fingerprint of the tokens `joined`. -/
def TraitName.ofTokens (args : ExtArgs) (joined : String) (c : Config) : TraitName :=
  match args.name with
  | some ident => { ident, vis := args.vis.getD .inherited }
  | none =>
    { ident := c.namePrefix ++ toString (c.fingerprint joined.toUTF8.toList).toNat,
      vis := args.vis.getD .inherited, derived := true }

theorem TraitName.ofTokens_ident {args : ExtArgs} {joined : String} {c : Config}
    (h : (TraitName.ofTokens args joined c).derived = true) :
    (TraitName.ofTokens args joined c).ident =
      c.namePrefix ++ toString (c.fingerprint joined.toUTF8.toList).toNat := by
  unfold ofTokens at h ⊢
  cases hname : args.name with
  | some ident => simp [hname] at h
  | none => rfl

/-- Of the text that a block was read from only the tokens count for its name. -/
theorem TraitName.resolve_eq {b : ImplBlock} {text joined : String} (htext : b.source = some text)
    (hjoined : tokenText text = .ok joined) (args : ExtArgs) (c : Config) :
    TraitName.resolve args b c = .ok (TraitName.ofTokens args joined c) := by
  unfold resolve ofTokens
  cases args.name with
  | some ident => rfl
  | none =>
    simp [ImplBlock.rawText, htext, fingerprint, hjoined, ofMisplaced, ofFault, Except.map, bind,
      Except.bind, pure, Except.pure]

/-- The same is made of a block wherever it was read, from whatever text with the same tokens. -/
theorem ImplBlock.expand_relocate {b : ImplBlock} {text text' joined : String}
    (htext : b.source = some text) (hjoined : tokenText text = .ok joined)
    (hjoined' : tokenText text' = .ok joined) (args : ExtArgs) (c : Config) :
    (b.relocate g (some text')).expand args c =
      relocatedResult g (Expansion.relocate g (some text')) (b.expand args c) := by
  have hitems : (b.relocate g (some text')).items = b.items.map (Member.relocate g) := rfl
  have hname := TraitName.resolve_eq htext hjoined args c
  have hname' := TraitName.resolve_eq (b := b.relocate g (some text')) rfl hjoined' args c
  unfold expand
  rw [ensureInherent_relocate, hname, hname', hitems, declareAll_relocate, ofFault_relocated,
    gather_relocate]
  cases b.ensureInherent with
  | error f => rfl
  | ok u =>
    cases declareAll b.items with
    | error f => rfl
    | ok items =>
      simp only [ofFault, relocatedResult, bind, Except.bind, retarget_relocate]
      cases b.gather.retarget (TraitName.ofTokens args joined c).ident <;> rfl

/-! ### What is written -/

theorem bodyLines_relocate (innerAttrs : List Attribute) (items : List Member) :
    bodyLines innerAttrs (items.map (Member.relocate g)) = bodyLines innerAttrs items := by
  simp only [bodyLines, List.flatMap_map, Member.lines_relocate]

theorem Expansion.render_relocate (source : Option String) (e : Expansion) :
    (e.relocate g source).render = e.render := by
  have hdecl : (e.declaration.relocate g).doc = e.declaration.doc := by
    simp only [TraitDecl.doc, TraitDecl.relocate, TraitDecl.header, bodyLines_relocate]
  have himpl : (e.implementation.relocate g source).doc = e.implementation.doc := by
    simp only [ImplBlock.doc, ImplBlock.relocate, ImplBlock.header, bodyLines_relocate]
  simp only [render, items, renderItems, Expansion.relocate, List.map_cons, List.map_nil, Item.doc,
    hdecl, himpl]

end TraitLift
