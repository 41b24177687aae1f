import Mathlib.Tactic
import TraitLift.Proofs.Lift.Writable
import TraitLift.Proofs.Reading.Members

/-!
When the work on a block fails. A block that was read from a source has a name for its trait whatever the
arguments are, because its source can be cut into tokens once more; so it is refused exactly if it
implements a trait already or has an item that has no place in a trait. The first cause is reported
before the second, and the first such item before the others (`ImplBlock.Judged`).
-/

namespace TraitLift

namespace Member

/-- Whether the member is an item that has no place in a block. -/
def IsForeign (m : Member) : Prop := m.foreignText?.isSome

/-- The note on an item that is not the first of its kind. -/
def foreignNote (text : String) : String := "also unsupported: `" ++ Fault.summary text ++ "`"

theorem Occupies.rejected?_eq {source : List Char} {m : Member} {row : List Token}
    (h : m.Occupies source row) : m.rejected? = m.foreignText? := by
  cases hm : m.foreignText? with
  | none =>
    obtain ⟨-, m', hm'⟩ := h.own hm
    rw [rejected?, hm']
  | some text => cases m <;> simp_all [foreignText?, rejected?, declare]

end Member

/-- What the work on a block that was read comes to, for given arguments. -/
structure ImplBlock.Judged (b : ImplBlock) (args : ExtArgs) (c : Config) : Prop where
  /-- A name for the trait is always found. -/
  named : ∃ name, TraitName.resolve args b c = .ok name
  /-- The block is refused exactly if it names a trait or has an item with no place in one. -/
  refused : (∃ f, b.expand args c = .error (.fault f)) ↔
    b.traitRef ≠ none ∨ ∃ m ∈ b.items, m.IsForeign
  /-- In all other cases there is an expansion. -/
  expanded : (∃ e, b.expand args c = .ok e) ↔
    ¬ (b.traitRef ≠ none ∨ ∃ m ∈ b.items, m.IsForeign)
  /-- A block that names a trait is refused for that, whatever its members are. -/
  ofTrait : b.traitRef ≠ none → ∃ f, b.expand args c = .error (.fault f) ∧
    f.code = "E-EXT-ALREADY-IMPLEMENTS"
  /-- Otherwise the first foreign item is reported, at its place and with its text; the notes name
  the others, in order, before the hint. -/
  ofForeign : b.traitRef = none → ∀ front first back text, b.items = front ++ first :: back →
    (∀ m ∈ front, ¬ m.IsForeign) → first.foreignText? = some text →
    ∃ f others, b.expand args c = .error (.fault f) ∧
      f = .unsupported first.describe text others first.loc? ∧
      f.code = "E-EXT-UNSUPPORTED-MEMBER" ∧ f.loc? = first.loc? ∧
      f.notes = (back.filterMap Member.foreignText?).map Member.foreignNote ++
        ["only methods, associated constants, associated types and macro invocations can move " ++
          "into an ext trait"]

/-! ### Members -/

section

variable {source : List Char} {items : List Member} {rows : List (List Token)}

theorem rejected_eq (h : List.Forall₂ (Member.Occupies source) items rows) :
    items.filterMap Member.rejected? = items.filterMap Member.foreignText? := by
  induction h with
  | nil => rfl
  | cons hm _ ih => rw [List.filterMap_cons, List.filterMap_cons, ih, hm.rejected?_eq]

theorem find?_rejected (h : List.Forall₂ (Member.Occupies source) items rows) :
    items.find? (·.rejected?.isSome) = items.find? (·.foreignText?.isSome) := by
  induction h with
  | nil => rfl
  | cons hm _ ih => rw [List.find?_cons, List.find?_cons, ih, hm.rejected?_eq]

/-- Members without a foreign item can all be declared. -/
theorem exists_declareAll (h : List.Forall₂ (Member.Occupies source) items rows)
    (hown : ∀ m ∈ items, ¬ m.IsForeign) : ∃ decls, declareAll items = .ok decls := by
  have hnone : items.find? (·.foreignText?.isSome) = none := List.find?_eq_none.2 hown
  exact ⟨_, by rw [declareAll, find?_rejected h, hnone]⟩

/-- The first foreign item is reported, with the texts of those behind it. -/
theorem declareAll_eq_error (h : List.Forall₂ (Member.Occupies source) items rows)
    {front back : List Member} {first : Member} {text : String}
    (hitems : items = front ++ first :: back) (hfront : ∀ m ∈ front, ¬ m.IsForeign)
    (hfirst : first.foreignText? = some text) : declareAll items =
      .error (.unsupported first.describe text (back.filterMap Member.foreignText?) first.loc?) := by
  have hnone : front.filterMap Member.foreignText? = [] :=
    List.filterMap_eq_nil_iff.2 fun m hm => Option.not_isSome_iff_eq_none.1 (hfront m hm)
  have hfind : items.find? (·.foreignText?.isSome) = some first := by
    rw [hitems, List.find?_append, List.find?_eq_none.2 hfront, Option.none_or,
      List.find?_cons_of_pos (by rw [hfirst]; rfl)]
  have htexts : items.filterMap Member.foreignText? =
      text :: back.filterMap Member.foreignText? := by
    rw [hitems, List.filterMap_append, hnone, List.nil_append, List.filterMap_cons_some hfirst]
  rw [declareAll, find?_rejected h, rejected_eq h, hfind, htexts]

end

/-! ### Blocks -/

/-- A text that can be cut into tokens gives a name. -/
theorem TraitName.exists_resolve {b : ImplBlock} {source : String} {ts : List Token}
    (hsource : b.source = some source) (hlex : lex source = .ok ts) (args : ExtArgs) (c : Config) :
    ∃ name, TraitName.resolve args b c = .ok name := by
  have hdigest : ∃ digest, fingerprint source c = .ok digest :=
    ⟨_, by rw [fingerprint, tokenText, hlex, Except.map, Except.map]⟩
  obtain ⟨digest, hdigest⟩ := hdigest
  unfold TraitName.resolve
  split
  · exact ⟨_, rfl⟩
  · simp [ImplBlock.rawText, hsource, hdigest, ofMisplaced, ofFault, bind, Except.bind, pure,
      Except.pure]

variable {b : ImplBlock} {args : ExtArgs} {c : Config}

/-- A block that names a trait is refused before anything else is looked at. -/
theorem ImplBlock.Writable.expand_of_trait (h : b.Writable) {r : TraitRef}
    (hr : b.traitRef = some r) :
    ∃ path, b.expand args c = .error (.fault (.implementsTrait path b.loc)) := by
  obtain ⟨path, hpath⟩ := (h.traitRef r hr).text_eq_ok
  exact ⟨path, by simp [expand, ensureInherent, hr, hpath, ofMisplaced, bind, Except.bind]⟩

/-- An inherent block for which a name is found is refused for its members. -/
theorem ImplBlock.expand_of_fault (hr : b.traitRef = none) {name : TraitName} {f : Fault}
    (hname : TraitName.resolve args b c = .ok name) (hf : declareAll b.items = .error f) :
    b.expand args c = .error (.fault f) := by
  simp [expand, ensureInherent, hr, hname, hf, ofFault, bind, Except.bind]

/-- An inherent block for which a name is found and whose members can be declared is expanded. -/
theorem ImplBlock.Writable.expand_of_decls (h : b.Writable) (hr : b.traitRef = none)
    {name : TraitName} {decls : List Member} (hname : TraitName.resolve args b c = .ok name)
    (hd : declareAll b.items = .ok decls) : ∃ e, b.expand args c = .ok e := by
  obtain ⟨impl, himpl, -⟩ := h.gather.exists_retarget name.ident
  exact ⟨_, expand_eq_ok_iff.2 ⟨hr, name, decls, impl, hname, hd, himpl, rfl⟩⟩

/-- The first of the foreign items of a block. -/
theorem exists_first_foreign {items : List Member} (h : ∃ m ∈ items, m.IsForeign) :
    ∃ (front : List Member) (first : Member) (back : List Member) (text : String),
      items = front ++ first :: back ∧ (∀ m ∈ front, ¬ m.IsForeign) ∧ first.foreignText? = some text := by
  obtain ⟨first, hfirst⟩ := Option.isSome_iff_exists.1
    (List.find?_isSome (p := fun m : Member => m.foreignText?.isSome).2 h)
  obtain ⟨hforeign, front, back, hitems, hfront⟩ := List.find?_eq_some_iff_append.1 hfirst
  obtain ⟨text, htext⟩ := Option.isSome_iff_exists.1 hforeign
  exact ⟨front, first, back, text, hitems,
    fun m hm => by simpa [Member.IsForeign] using hfront m hm, htext⟩

/-- The work on a block that was read comes to what its header and its members say; the members were
read from rows of tokens in the order of the source. -/
theorem ImplBlock.expand_judged {source : String} {b : ImplBlock} (h : parseBlock source = .ok b) :
    (∃ front rows back, lex source = .ok (front ++ rows.flatten ++ back) ∧
      List.Forall₂ (Member.Occupies source.toList) b.items rows) ∧
    ∀ args c, b.Judged args c := by
  obtain ⟨front, rows, back, hlex, hrows⟩ := parseBlock_members h
  refine ⟨⟨front, rows, back, hlex, hrows⟩, fun args c => ?_⟩
  have hwritable := parseBlock_writable h
  have hsource : b.source = some source := by
    have hscan := lex_eq_ok_iff.1 hlex
    have hkept : b.source = some (String.ofList source.toList) :=
      parseBlock_source hscan (by simpa using h)
    simpa using hkept
  obtain ⟨name, hname⟩ := TraitName.exists_resolve hsource hlex args c
  have hofForeign : b.traitRef = none → ∀ front first back text, b.items = front ++ first :: back →
      (∀ m ∈ front, ¬ m.IsForeign) → first.foreignText? = some text → b.expand args c =
        .error (.fault (.unsupported first.describe text (back.filterMap Member.foreignText?)
          first.loc?)) := fun hr front first back text hitems hfront hfirst =>
    expand_of_fault hr hname (declareAll_eq_error hrows hitems hfront hfirst)
  have hbad : b.traitRef ≠ none ∨ (∃ m ∈ b.items, m.IsForeign) →
      ∃ f, b.expand args c = .error (.fault f) := by
    intro hcause
    cases hr : b.traitRef with
    | some r => exact (hwritable.expand_of_trait hr).imp' _ fun _ => id
    | none =>
      obtain ⟨front, first, back, text, hitems, hfront, hfirst⟩ :=
        exists_first_foreign (hcause.resolve_left (absurd hr))
      exact ⟨_, hofForeign hr front first back text hitems hfront hfirst⟩
  have hgood : ¬ (b.traitRef ≠ none ∨ ∃ m ∈ b.items, m.IsForeign) →
      ∃ e, b.expand args c = .ok e := by
    intro hno
    obtain ⟨hr, hown⟩ := not_or.1 hno
    obtain ⟨decls, hdecls⟩ := exists_declareAll hrows fun m hm hforeign => hown ⟨m, hm, hforeign⟩
    exact hwritable.expand_of_decls (not_not.1 hr) hname hdecls
  refine ⟨⟨name, hname⟩, ⟨fun ⟨f, hf⟩ => ?_, hbad⟩, ⟨fun ⟨e, he⟩ hcause => ?_, hgood⟩,
    fun hr => ?_, fun hr front first back text hitems hfront hfirst => ⟨_, _,
      hofForeign hr front first back text hitems hfront hfirst, rfl, rfl, rfl, ?_⟩⟩
  · by_contra hno
    obtain ⟨e, he⟩ := hgood hno
    rw [he] at hf
    simp at hf
  · obtain ⟨f, hf⟩ := hbad hcause
    rw [he] at hf
    simp at hf
  · obtain ⟨r, hr⟩ := Option.ne_none_iff_exists'.1 hr
    obtain ⟨path, hpath⟩ := hwritable.expand_of_trait hr
    exact ⟨_, hpath, rfl⟩
  · rfl

/-- A block with two foreign items around a function: the first is reported, the other is noted. -/
theorem ImplBlock.expand_judged_foreign :
    ∃ b f, parseBlock "impl A { use b; fn f() {} mod m; }" = .ok b ∧
      b.expand {} Config.default = .error (.fault f) ∧ f.code = "E-EXT-UNSUPPORTED-MEMBER" ∧
      f.loc? = some ⟨1, 10⟩ ∧ f.notes.head? = some "also unsupported: `mod m;`" := by
  have hread : ((parseBlock "impl A { use b; fn f() {} mod m; }").toOption.map
      fun b => (b.traitRef, b.items.map fun m => (m.foreignText?, m.loc?))) =
      some (none, [(some "use b;", some ⟨1, 10⟩), (none, some ⟨1, 17⟩),
        (some "mod m;", some ⟨1, 27⟩)]) := by decide +kernel
  obtain ⟨b, hb, hitems⟩ := Option.map_eq_some_iff.1 hread
  obtain ⟨hr, hitems⟩ := Prod.mk.inj hitems
  obtain ⟨first, items, hb', hfirst, hitems⟩ := List.map_eq_cons_iff.1 hitems
  obtain ⟨second, items, rfl, hsecond, hitems⟩ := List.map_eq_cons_iff.1 hitems
  obtain ⟨third, items, rfl, hthird, hitems⟩ := List.map_eq_cons_iff.1 hitems
  obtain rfl := List.map_eq_nil_iff.1 hitems
  obtain ⟨htext, hloc⟩ := Prod.mk.inj hfirst
  have hok := ok_of_toOption hb
  obtain ⟨f, others, hf, -, hcode, hplace, hnotes⟩ :=
    ((expand_judged hok).2 {} Config.default).ofForeign hr [] first _ _ hb' (by simp) htext
  have hback : [second, third].filterMap Member.foreignText? = ["mod m;"] := by
    simp [(Prod.mk.inj hsecond).1, (Prod.mk.inj hthird).1]
  have hnote : Member.foreignNote "mod m;" = "also unsupported: `mod m;`" := by decide +kernel
  refine ⟨b, f, hok, hf, hcode, hplace.trans hloc, ?_⟩
  rw [hnotes, hback, List.map_singleton, hnote, List.singleton_append, List.head?_cons]

end TraitLift
