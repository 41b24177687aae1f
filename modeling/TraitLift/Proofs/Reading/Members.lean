import Mathlib.Tactic
import TraitLift.Lift.Declare
import TraitLift.Proofs.Grammar.Terse
import TraitLift.Proofs.Parse.Sentence
import TraitLift.Proofs.Reading.Relocate
import TraitLift.Proofs.Reading.Writable

/-!
Where the members of a block come from. Each member was read from a row of tokens of its own, the rows
follow one another in the source, and a member that has no place in a block is the text of its row
(`Member.Occupies`, `parseBlock_members`).
-/

namespace TraitLift

namespace Grammar

/-- The rules of the members that a block can have. -/
def ownRules : List Rule := [.methodMember, .constMember, .typeMember, .macroMember]

theorem leavesOf_eq_flatten (cs : List Syntax) : leavesOf cs = (cs.map Tree.leaves).flatten := by
  induction cs with
  | nil => rfl
  | cons c cs ih => rw [leavesOf, ih, List.map_cons, List.flatten_cons]

end Grammar

open TraitLift.Grammar

namespace Member

/-- The text of an item that has no place in a block. -/
def foreignText? : Member → Option String
  | .foreign _ text _ => some text
  | _ => none

theorem foreignText?_of_declare {m m' : Member} (h : m.declare = .ok m') : m.foreignText? = none := by
  cases m <;> first | rfl | simp [declare] at h

/-- `m.Occupies source row`: the member was read from the tokens `row`. An item that has no place in a
block is the text of these tokens, at the place of the first one; any other member has a declaration. -/
structure Occupies (source : List Char) (m : Member) (row : List Token) : Prop where
  foreign : ∀ text, m.foreignText? = some text → rust.Derives (Syn.use .foreignMember) row ∧
    text = sliceOf source row ∧ ∃ t ∈ row.head?, m.loc? = some t.loc
  own : m.foreignText? = none →
    (∃ r ∈ ownRules, rust.Derives (Syn.use r) row) ∧ ∃ m', m.declare = .ok m'

end Member

namespace Reading

variable {source : List Char} {ps : Parts} {m : Member}

/-! ### Members by their rules -/

theorem methodMember_declares (h : methodMember source ps = .ok m) : ∃ m', m.declare = .ok m' := by
  obtain ⟨isDefault, -, h⟩ := bind_eq_ok h
  split at h
  · obtain ⟨sig, -, h⟩ := bind_eq_ok h
    obtain rfl := Except.ok.inj h
    exact ⟨_, rfl⟩
  · obtain rfl := Except.ok.inj h
    exact ⟨_, rfl⟩

theorem constMember_declares (h : constMember source ps = .ok m) : ∃ m', m.declare = .ok m' := by
  obtain ⟨isDefault, -, h⟩ := bind_eq_ok h
  split at h <;> obtain rfl := Except.ok.inj h <;> exact ⟨_, rfl⟩

theorem typeMember_declares (h : typeMember source ps = .ok m) : ∃ m', m.declare = .ok m' := by
  obtain ⟨isDefault, -, h⟩ := bind_eq_ok h
  split at h <;> obtain rfl := Except.ok.inj h <;> exact ⟨_, rfl⟩

/-- What a tree of a member means was read from the tokens of the tree. -/
theorem occupies_of_member {r : Rule} {cs : List Syntax} (hr : r ∈ .foreignMember :: ownRules)
    (hcs : Parses rust [ruleBody r] cs) :
    ∃ e, (phrase source (.node r cs)).meaning = .member e ∧
      ∀ m, e = .ok m → m.Occupies source (leavesOf cs) := by
  have hderives : rust.Derives (Syn.use r) (leavesOf cs) := .rule (derives_iff_reads.2 hcs.reads)
  rw [phrase_node]
  rcases List.mem_cons.1 hr with rfl | hown
  · obtain ⟨t, ts, hts⟩ := hcs.exists_leaf
    refine ⟨_, rfl, fun m hm => ?_⟩
    obtain rfl := Except.ok.inj hm
    refine ⟨fun text htext => ?_, fun h => by simp [foreignMember, Member.foreignText?] at h⟩
    obtain rfl := Option.some.inj htext
    refine ⟨hderives, by rw [Parts.text, tokens_phrases], t, by rw [hts]; rfl, ?_⟩
    rw [foreignMember, Member.loc?, Parts.loc, tokens_phrases, hts]
    rfl
  · have hdeclares : ∃ e, ruleMeaning source r (cs.map (phrase source)) = .member e ∧
        ∀ m, e = .ok m → ∃ m', m.declare = .ok m' := by
      simp only [ownRules, List.mem_cons, List.not_mem_nil, or_false] at hown
      rcases hown with rfl | rfl | rfl | rfl
      · exact ⟨_, rfl, fun _ => methodMember_declares⟩
      · exact ⟨_, rfl, fun _ => constMember_declares⟩
      · exact ⟨_, rfl, fun _ => typeMember_declares⟩
      · exact ⟨_, rfl, fun m hm => Except.ok.inj hm ▸ ⟨_, rfl⟩⟩
    obtain ⟨e, he, hdeclares⟩ := hdeclares
    refine ⟨e, he, fun m hm => ?_⟩
    obtain ⟨m', hm'⟩ := hdeclares m hm
    refine ⟨fun text htext => ?_, fun _ => ⟨⟨r, hown, hderives⟩, m', hm'⟩⟩
    rw [Member.foreignText?_of_declare hm'] at htext
    simp at htext

/-! ### The members of a body -/

/-- The members among some parts, with the faults found in them. -/
abbrev membersOf (ps : Parts) : List (Except Fault Member) :=
  Parts.pick (fun | .member m => some m | _ => none) ps

theorem membersOf_append (ps qs : Parts) : membersOf (ps ++ qs) = membersOf ps ++ membersOf qs :=
  List.filterMap_append

section

variable {P : Member → Syntax → Prop}
  (hP : ∀ {r : Rule} {cs : List Syntax},
    r ∈ .foreignMember :: ownRules → Parses rust [ruleBody r] cs →
    ∃ e, (phrase source (.node r cs)).meaning = .member e ∧ ∀ m, e = .ok m → P m (.node r cs))

include hP

/-- Members one after the other were read from trees one after the other, so what holds of each member
and its tree holds of all. -/
theorem forall₂_of_members : ∀ {qss : List (List Syntax)} {items : List Member},
    (∀ us ∈ qss, Grammar.Covers rust Syn.member us) →
    (membersOf (qss.flatten.map (phrase source))).mapM id = .ok items →
    List.Forall₂ P items qss.flatten
  | [], items, _, h => by
    obtain rfl : [] = items := Except.ok.inj h
    exact .nil
  | us :: qss, items, hqss, h => by
    obtain ⟨r, hr, c, rfl, cs, rfl, hcs⟩ : ∃ a ∈ [Rule.methodMember, .constMember, .typeMember,
        .macroMember, .foreignMember], ∃ c, us = [c] ∧ (Grammar.Symbol.rule a).HasTree rust c :=
      exists_of_covers_any (by simp) (hqss us (List.mem_cons_self ..))
    obtain ⟨e, he, hholds⟩ := @hP r cs (by revert hr; cases r <;> decide) hcs
    have hcons : membersOf (([(.node r cs : Syntax)] :: qss).flatten.map (phrase source)) =
        e :: membersOf (qss.flatten.map (phrase source)) := by
      rw [List.flatten_cons, List.singleton_append, List.map_cons]
      exact List.filterMap_cons_some (by rw [he])
    rw [hcons, List.mapM_cons] at h
    obtain ⟨m, hm, h⟩ := bind_eq_ok h
    obtain ⟨ms, hms, h⟩ := bind_eq_ok h
    obtain rfl := Except.ok.inj h
    exact .cons (hholds m hm) (forall₂_of_members (fun us hus => hqss us (List.mem_cons_of_mem _ hus)) hms)

/-- The body of a block is made of braces, attributes and members between them, and the members were
read from trees one after the other. -/
theorem exists_members_of_body {bs : List Syntax} {items : List Member}
    (h : Parses rust [ruleBody .implBody] bs)
    (hitems : (membersOf (bs.map (phrase source))).mapM id = .ok items) :
    ∃ (o : Token) (pss qss : List (List Syntax)) (e : Token),
      bs = [Grammar.Tree.leaf o] ++ (pss.flatten ++ (qss.flatten ++ [Grammar.Tree.leaf e])) ∧
      o.kind = .lbrace ∧ e.kind = .rbrace ∧
      (∀ ps ∈ pss, Grammar.Covers rust (Syn.use .innerAttr) ps) ∧
      (∀ qs ∈ qss, Grammar.Covers rust Syn.member qs) ∧ List.Forall₂ P items qss.flatten := by
  obtain ⟨_, _, rfl, ⟨o, rfl, ho⟩, _, _, rfl, ⟨pss, rfl, hpss⟩, _, _, rfl, ⟨qss, rfl, hqss⟩,
    ⟨e, rfl, he⟩⟩ := parses_iff_covers.1 h
  have hattrs : membersOf (pss.flatten.map (phrase source)) = [] := by
    refine List.filterMap_eq_nil_iff.2 fun p hp => ?_
    obtain ⟨c, hc, rfl⟩ := List.mem_map.1 hp
    obtain ⟨us, hus, hc⟩ := List.mem_flatten.1 hc
    obtain ⟨cs, rfl, hcs⟩ := hpss us hus
    obtain rfl := List.mem_singleton.1 hc
    rw [phrase_node]
    rfl
  have hleaf : ∀ t : Token, membersOf ([(.leaf t : Syntax)].map (phrase source)) = [] := fun _ => rfl
  simp only [List.map_append, membersOf_append, hleaf, hattrs, List.nil_append, List.append_nil]
    at hitems
  exact ⟨o, pss, qss, e, rfl, kind_eq ho, kind_eq he, hpss, hqss, forall₂_of_members hP hqss hitems⟩

end

/-- The members of the body of a block were read from rows one after the other. -/
theorem exists_rows_of_body {bs : List Syntax} {items : List Member}
    (h : Parses rust [ruleBody .implBody] bs)
    (hitems : (membersOf (bs.map (phrase source))).mapM id = .ok items) :
    ∃ front rows back, leavesOf bs = front ++ rows.flatten ++ back ∧
      List.Forall₂ (Member.Occupies source) items rows := by
  obtain ⟨o, pss, qss, e, rfl, -, -, -, -, hitems⟩ := exists_members_of_body
    (P := fun m c => m.Occupies source c.leaves) (fun hr hcs => occupies_of_member hr hcs) h hitems
  refine ⟨o :: leavesOf pss.flatten, qss.flatten.map Grammar.Tree.leaves, [e], ?_,
    List.forall₂_map_right_iff.2 hitems⟩
  simp only [leavesOf_append, ← leavesOf_eq_flatten, leavesOf, Grammar.Tree.leaves, List.append_assoc,
    List.cons_append, List.nil_append, List.append_nil]

/-- A body is the only part that means a body. -/
theorem eq_implBody {r : Rule} {ps : Parts} {as : List Attribute}
    {items : List (Except Fault Member)} (h : ruleMeaning source r ps = .body as items) :
    r = .implBody ∧ items = membersOf ps := by
  cases r <;> simp only [ruleMeaning, reduceCtorEq, Meaning.body.injEq] at h
  case implBody => exact ⟨rfl, h.2.symm⟩
  case genericParam => dsimp only [genericParam] at h; split at h <;> simp at h
  all_goals split at h <;> simp at h

theorem eq_body_of_some {m : Meaning} {x : List Attribute × List (Except Fault Member)}
    (h : (match m with | .body as is => some (as, is) | _ => none) = some x) :
    m = .body x.1 x.2 := by
  cases m <;> simp_all
  subst h
  exact ⟨rfl, rfl⟩

/-- The members of a block were read from rows one after the other. -/
theorem exists_rows_of_block {cs : List Syntax} {b : ImplBlock}
    (h : Parses rust [ruleBody .implBlock] cs)
    (hb : implBlock source (cs.map (phrase source)) = .ok b) :
    ∃ front rows back, leavesOf cs = front ++ rows.flatten ++ back ∧
      List.Forall₂ (Member.Occupies source) b.items rows := by
  obtain ⟨isDefault, -, hb⟩ := bind_eq_ok hb
  obtain ⟨items, hitems, hb⟩ := bind_eq_ok hb
  obtain rfl := Except.ok.inj hb
  generalize hfound : (Parts.pick _ (cs.map (phrase source))).head? = found at hitems
  cases found with
  | none =>
    obtain rfl : [] = items := Except.ok.inj hitems
    exact ⟨leavesOf cs, [], [], by simp, .nil⟩
  | some body =>
    obtain ⟨p, hp, hbody⟩ := Parts.mem_pick (List.mem_of_head? hfound)
    obtain ⟨c, hc, rfl⟩ := List.mem_map.1 hp
    cases c with
    | leaf t => simp [phrase, Grammar.Tree.fold, Phrase.ofToken] at hbody
    | node r bs =>
      rw [phrase_node] at hbody
      obtain ⟨rfl, hpicked⟩ := eq_implBody (eq_body_of_some hbody)
      rw [hpicked] at hitems
      obtain ⟨us, vs, rfl⟩ := List.append_of_mem hc
      obtain ⟨front, rows, back, hleaves, hrows⟩ :=
        exists_rows_of_body (h.of_node_mem hc) hitems
      refine ⟨leavesOf us ++ front, rows, back ++ leavesOf vs, ?_, hrows⟩
      rw [leavesOf_append, leavesOf, Grammar.Tree.leaves, hleaves]
      simp only [List.append_assoc]

end Reading

/-! ### The members of a block -/

/-- A block is read from a tree of all tokens of the source. -/
theorem exists_tree_of_parseBlock {source : String} {b : ImplBlock} (h : parseBlock source = .ok b) :
    ∃ cs, Parses rust [ruleBody .implBlock] cs ∧ lex source = .ok (leavesOf cs) ∧
      rust.read (Syn.use .implBlock) (leavesOf cs) = .sentence [.node .implBlock cs] ∧
      Reading.implBlock source.toList (cs.map (Reading.phrase source.toList)) = .ok b := by
  obtain ⟨parts, hparts, hb⟩ := bind_eq_ok h
  obtain ⟨hstuck, trees, htrees⟩ := exists_readParts_eq_ok_iff.1 ⟨parts, hparts⟩
  have hholds := read_holds rust_proper rust_ranked (Syn.use .implBlock) (scan source.toList).tokens
  rw [htrees] at hholds
  obtain ⟨hparses, hleaves⟩ := hholds
  obtain ⟨cs, rfl, hcs⟩ := parses_iff_covers.1 hparses
  obtain rfl : [Reading.phrase source.toList (.node .implBlock cs)] = parts := by
    simpa [readParts, htrees, hstuck] using hparts
  have htokens : leavesOf cs = (scan source.toList).tokens := by
    simpa [leavesOf, Grammar.Tree.leaves] using hleaves
  refine ⟨cs, hcs, lex_eq_ok_iff.2 (by rw [htokens, ← hstuck]), htokens ▸ htrees, ?_⟩
  simpa [Parts.pick, Reading.phrase_node, Reading.ruleMeaning] using hb

/-- The members of a block were read from rows of its tokens, one after the other. -/
theorem parseBlock_members {source : String} {b : ImplBlock} (h : parseBlock source = .ok b) :
    ∃ front rows back, lex source = .ok (front ++ rows.flatten ++ back) ∧
      List.Forall₂ (Member.Occupies source.toList) b.items rows := by
  obtain ⟨cs, hcs, hlex, -, hblock⟩ := exists_tree_of_parseBlock h
  obtain ⟨front, rows, back, hrow, hrows⟩ := Reading.exists_rows_of_block hcs hblock
  exact ⟨front, rows, back, hrow ▸ hlex, hrows⟩

end TraitLift
