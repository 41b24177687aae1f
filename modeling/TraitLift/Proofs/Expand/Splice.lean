import Mathlib.Tactic
import TraitLift.Proofs.Expand.Sites
import TraitLift.Proofs.Lift.Writable
import TraitLift.Proofs.Reading.Writable

/-!
What expanding does to a text. A marked block is either lifted or reported, and the new text is the
old one with each lifted block, from its first attribute to its closing brace, replaced by the text
of its trait and implementation. `replaceSites` says this block by block, whether lifted or not;
`splice`, which only looks at the lifted ones, comes to the same (`splice_eq_replaceSites`), since
blocks stand in order and a block that stays can be read off together with the text around it.
-/

namespace TraitLift

/-! ### Parts of a text -/

theorem between_append_drop {source : List Char} {a b : Nat} (hab : a ≤ b) :
    between source a b ++ source.drop b = source.drop a := by
  have hdrop : source.drop b = (source.drop a).drop (b - a) := by
    rw [List.drop_drop, Nat.add_sub_cancel' hab]
  rw [between, hdrop, List.take_append_drop]

theorem between_append_between {source : List Char} {a b c : Nat} (hab : a ≤ b) (hbc : b ≤ c) :
    between source a b ++ between source b c = between source a c := by
  have hsplit : c - a = (b - a) + (c - b) := by omega
  have hdrop : source.drop b = (source.drop a).drop (b - a) := by
    rw [List.drop_drop, Nat.add_sub_cancel' hab]
  rw [between, between, between, hsplit, List.take_add, hdrop]

/-- The text from offset `cursor` on with every marked block `s` replaced by `f s`. -/
def replaceSites (source : List Char) (f : Site → List Char) (cursor : Nat) :
    List Site → List Char
  | [] => source.drop cursor
  | s :: ss =>
    between source cursor s.first.start ++ f s ++ replaceSites source f s.last.stop ss

/-- The text of a marked block as it stands, its mark included. -/
def Site.ownText (source : List Char) (s : Site) : List Char :=
  between source s.first.start s.last.stop

/-- Text in front of the next block can be taken off. -/
theorem replaceSites_extend {source : List Char} {f : Site → List Char} {cursor mid : Nat}
    (hle : cursor ≤ mid) : ∀ {ss : List Site}, SitesInOrder mid source.length ss →
    between source cursor mid ++ replaceSites source f mid ss = replaceSites source f cursor ss
  | [], _ => between_append_drop hle
  | s :: ss, h => by
    simp only [replaceSites]
    rw [← List.append_assoc, ← List.append_assoc, between_append_between hle h.1.lo_le]

/-- Blocks that are all replaced by themselves leave the text as it is. -/
theorem replaceSites_ownText {source : List Char} : ∀ {cursor : Nat} {ss : List Site},
    SitesInOrder cursor source.length ss →
    replaceSites source (Site.ownText source) cursor ss = source.drop cursor
  | _, [], _ => rfl
  | cursor, s :: ss, h => by
    have hw := h.1
    have hown : s.first.start ≤ s.last.stop := by
      have := hw.start_le
      have := hw.mark_lt
      have := hw.mark_le
      omega
    rw [replaceSites, replaceSites_ownText h.2, Site.ownText, between_append_between hw.lo_le hown,
      between_append_drop (le_trans hw.lo_le hown)]

/-! ### Replacing what was lifted -/

/-- What stands for a marked block in the new text: the text of what was made of it, or else its own. -/
def Site.newText (source : List Char) (file : Option String) (c : Config) (s : Site) : List Char :=
  match s.expand source file c with
  | .ok (_, text) => text.toList
  | .error _ => s.ownText source

/-- The expansion of a marked block, if there is one. -/
def Site.expansion? (source : List Char) (file : Option String) (c : Config) (s : Site) :
    Option Expansion :=
  (s.expand source file c).toOption.map Prod.fst

/-- The report on a marked block, if it fails. -/
def Site.failure? (source : List Char) (file : Option String) (c : Config) (s : Site) :
    Option Diagnostic :=
  match s.expand source file c with
  | .error d => some d
  | .ok _ => none

/-- The lifted blocks, in order. -/
def madeOf (source : List Char) (file : Option String) (c : Config) (ss : List Site) : List Made :=
  ss.filterMap fun s => (s.expand source file c).toOption.map fun (e, text) => ⟨s, e, text⟩

theorem splice_eq_replaceSites {source : List Char} (file : Option String) (c : Config) :
    ∀ {cursor : Nat} {ss : List Site}, SitesInOrder cursor source.length ss →
    splice source cursor (madeOf source file c ss) =
      replaceSites source (Site.newText source file c) cursor ss
  | _, [], _ => rfl
  | cursor, s :: ss, h => by
    have hw := h.1
    have ih := splice_eq_replaceSites file c h.2
    cases hs : s.expand source file c with
    | ok made =>
      have hmade : madeOf source file c (s :: ss) =
          ⟨s, made.1, made.2⟩ :: madeOf source file c ss := by
        simp [madeOf, hs, Except.toOption]
      rw [hmade, splice, replaceSites, ih, Site.newText, hs]
    | error d =>
      have hmade : madeOf source file c (s :: ss) = madeOf source file c ss := by
        simp [madeOf, hs, Except.toOption]
      -- the block stays, so the cursor does: its text joins the text around it
      have hown : s.first.start ≤ s.last.stop := by
        have := hw.start_le
        have := hw.mark_lt
        have := hw.mark_le
        omega
      have hnew : s.newText source file c = s.ownText source := by rw [Site.newText, hs]
      rw [hmade, replaceSites, hnew, Site.ownText, between_append_between hw.lo_le hown,
        replaceSites_extend (le_trans hw.lo_le hown) h.2]
      exact splice_eq_replaceSites file c (h.2.weaken (le_trans hw.lo_le hown))

/-! ### Every marked block is lifted or reported -/

/-- A report is a coded error. -/
def Diagnostic.IsCoded (d : Diagnostic) : Prop := d.isError = true ∧ d.code.isSome = true

theorem Fault.toDiagnostic_isCoded (f : Fault) (file : Option String) :
    (f.toDiagnostic file).IsCoded := ⟨rfl, rfl⟩

theorem Diagnostic.IsCoded.rebase {d : Diagnostic} (h : d.IsCoded) (line column : Int)
    (file : Option String) : (d.rebase line column file).IsCoded := h

theorem Site.args_isCoded {s : Site} {file : Option String} {d : Diagnostic}
    (h : s.args file = .error d) : d.IsCoded := by
  unfold Site.args at h
  split at h
  · simp at h
  · next a ha =>
    cases hp : parseArgs a.text with
    | ok args => simp [hp, Except.mapError] at h
    | error f =>
      simp only [hp, Except.mapError, Except.error.injEq] at h
      subst h
      exact (f.toDiagnostic_isCoded none).rebase ..

/-- What is made of the block without its mark, with the arguments `args`. -/
def Site.lifted (s : Site) (source : List Char) (args : ExtArgs) (c : Config) : Result Expansion := do
  (← s.block source).expand args c

/-- A block whose mark has good arguments gives an expansion with its text, or it has a fault, which
is reported at its place in the text. -/
theorem Site.expand_of_args {s : Site} (source : List Char) {file : Option String} (c : Config)
    {args : ExtArgs} (hargs : s.args file = .ok args) :
    (∃ e text, s.lifted source args c = .ok e ∧ e.render = .ok text ∧
        s.expand source file c = .ok (e, text)) ∨
      ∃ f, s.lifted source args c = .error (.fault f) ∧ s.expand source file c =
        .error ((f.toDiagnostic none).rebase s.first.loc.line s.first.loc.column file) := by
  unfold Site.expand Site.lifted Site.block
  cases hb : parseBlock (String.ofList (s.fragment source)) with
  | error f => exact Or.inr ⟨f, rfl, by rw [hargs]; rfl⟩
  | ok b =>
    rcases (parseBlock_writable hb).expand_cases args c with ⟨e, text, he, ht⟩ | ⟨f, hf⟩
    · refine Or.inl ⟨e, text, he, ht, ?_⟩
      simp [hargs, he, ht, ofFault, ofMisplaced, bind, Except.bind, pure, Except.pure,
        Except.mapError]
    · refine Or.inr ⟨f, hf, ?_⟩
      simp [hargs, hf, ofFault, bind, Except.bind, Except.mapError, Failure.toDiagnostic]

theorem Site.exists_lifted_of_expand {s : Site} {source : List Char} {file : Option String}
    {c : Config} {e : Expansion} {text : String} (h : s.expand source file c = .ok (e, text)) :
    ∃ args, s.lifted source args c = .ok e := by
  cases hargs : s.args file with
  | error d => simp [Site.expand, hargs, bind, Except.bind] at h
  | ok args =>
    rcases Site.expand_of_args source c hargs with
      ⟨e', text', hlifted, -, he⟩ | ⟨f, -, hf⟩
    · rw [h, Except.ok.injEq, Prod.mk.injEq] at he
      exact ⟨args, by rw [hlifted, he.1]⟩
    · simp [h] at hf

/-- A marked block gives an expansion with its text, or one report, which is an error. -/
theorem Site.expand_cases (s : Site) (source : List Char) (file : Option String) (c : Config) :
    (∃ e text, s.expand source file c = .ok (e, text) ∧ e.render = .ok text) ∨
      ∃ d, s.expand source file c = .error d ∧ d.IsCoded := by
  cases hargs : s.args file with
  | error d => exact Or.inr ⟨d, by rw [Site.expand, hargs]; rfl, Site.args_isCoded hargs⟩
  | ok args =>
    rcases Site.expand_of_args source c hargs with
      ⟨e, text, -, ht, he⟩ | ⟨f, -, hf⟩
    · exact Or.inl ⟨e, text, he, ht⟩
    · exact Or.inr ⟨_, hf, (f.toDiagnostic_isCoded none).rebase ..⟩

/-! ### The new text -/

/-- What holds of a text with the tokens `ts` and of the result of expanding it. -/
structure Spliced (source : String) (file : Option String) (c : Config) (ts : List Token) :
    Prop where
  /-- Marked blocks and their marks go from token to token, within the text. -/
  onTokens : ∀ s ∈ sitesOf source.toList c ts, s.OnTokens ts ∧ s.Within 0 source.toList.length
  /-- Each block ends before the next one starts. -/
  disjoint : (sitesOf source.toList c ts).Pairwise fun s s' => s.last.stop ≤ s'.first.start
  /-- Each block gives an expansion with its text, or one error. -/
  decided : ∀ s ∈ sitesOf source.toList c ts,
    (∃ e text, s.expand source.toList file c = .ok (e, text) ∧ e.render = .ok text) ∨
      ∃ d, s.expand source.toList file c = .error d ∧ d.IsCoded
  /-- Blocks and what is between them make up the text. -/
  lossless : replaceSites source.toList (Site.ownText source.toList) 0
    (sitesOf source.toList c ts) = source.toList
  /-- The new text has the text of its expansion in the place of each block that has one, and is
  otherwise the old one. -/
  text : (expandSource source file c).text.toList =
    replaceSites source.toList (Site.newText source.toList file c) 0 (sitesOf source.toList c ts)
  /-- The expansions are listed in the order of the blocks. -/
  expansions : (expandSource source file c).expansions =
    (sitesOf source.toList c ts).filterMap (Site.expansion? source.toList file c)
  /-- Between the reports on marks and the warnings on names there is one report for each block that
  fails, in order. -/
  diagnostics : ∃ names : List Diagnostic, (∀ d ∈ names, d.severity = .warning) ∧
    (expandSource source file c).diagnostics =
      (findings source.toList c ts).filterMap (Finding.diagnostic? file) ++
        (sitesOf source.toList c ts).filterMap (Site.failure? source.toList file c) ++ names
  /-- If no block has an expansion, the text is unchanged. -/
  unchanged : (∀ s ∈ sitesOf source.toList c ts, s.expansion? source.toList file c = none) →
    (expandSource source file c).text = source

theorem collisions_severity (file : Option String) : ∀ (seen made : List Made),
    ∀ d ∈ collisions file seen made, d.severity = .warning
  | _, [], _, hd => by simp [collisions] at hd
  | seen, m :: ms, d, hd => by
    rw [collisions] at hd
    split at hd
    · exact collisions_severity file _ ms d hd
    · next first _ =>
      split at hd
      · rcases List.mem_cons.1 hd with rfl | hd
        · rfl
        · exact collisions_severity file seen ms d hd
      · exact collisions_severity file seen ms d hd

theorem map_expansion_madeOf (source : List Char) (file : Option String) (c : Config)
    (ss : List Site) :
    (madeOf source file c ss).map Made.expansion = ss.filterMap (Site.expansion? source file c) := by
  rw [madeOf, List.map_filterMap]
  congr
  funext s
  rw [Site.expansion?, Option.map_map]
  rfl

/-- A text that can be cut into tokens, expanded, in terms of its marked blocks. -/
theorem expandSource_eq {source : String} {ts : List Token} (h : lex source = .ok ts)
    (file : Option String) (c : Config) :
    expandSource source file c =
      let sites := sitesOf source.toList c ts
      let made := madeOf source.toList file c sites
      ⟨String.ofList (splice source.toList 0 made),
        (findings source.toList c ts).filterMap (Finding.diagnostic? file) ++
          sites.filterMap (Site.failure? source.toList file c) ++ collisions file [] made,
        made.map Made.expansion⟩ := by
  simp only [expandSource, h, madeOf, sitesOf, List.filterMap_map]
  rfl

/-- No block has an expansion: every block stands for itself in the new text. -/
theorem replaceSites_newText_eq_ownText {source : List Char} {file : Option String} {c : Config} :
    ∀ {cursor : Nat} {ss : List Site}, (∀ s ∈ ss, s.expansion? source file c = none) →
    replaceSites source (Site.newText source file c) cursor ss =
      replaceSites source (Site.ownText source) cursor ss
  | _, [], _ => rfl
  | cursor, s :: ss, h => by
    have hs : s.newText source file c = s.ownText source := by
      have hnone := h s (List.mem_cons_self ..)
      unfold Site.newText
      cases he : s.expand source file c with
      | ok made => simp [Site.expansion?, he, Except.toOption] at hnone
      | error d => rfl
    rw [replaceSites, replaceSites, hs,
      replaceSites_newText_eq_ownText fun s' hs' => h s' (List.mem_cons_of_mem _ hs')]

/-- Expanding a text that can be cut into tokens replaces the blocks that are lifted and nothing else;
a text that cannot be cut stays as it is. -/
theorem expandSource_spliced (source : String) (file : Option String) (c : Config) :
    (∀ ts, lex source = .ok ts → Spliced source file c ts) ∧
      ∀ f, lex source = .error f → (expandSource source file c).text = source ∧
        (expandSource source file c).expansions = [] := by
  constructor
  · intro ts hlex
    have hscan := scan_inOrder source.toList
    rw [lex_eq_ok_iff.1 hlex] at hscan
    obtain ⟨horder, hon⟩ := findings_inOrder source.toList c hscan
    have htext : (expandSource source file c).text.toList =
        replaceSites source.toList (Site.newText source.toList file c) 0
          (sitesOf source.toList c ts) := by
      rw [expandSource_eq hlex, String.toList_ofList]
      exact splice_eq_replaceSites file c horder
    have hown := replaceSites_ownText horder
    refine ⟨fun s hs => ⟨hon s hs, horder.within s hs⟩, horder.pairwise,
      fun s _ => s.expand_cases source.toList file c, hown, htext, ?_, ?_, ?_⟩
    · rw [expandSource_eq hlex]
      exact map_expansion_madeOf ..
    · rw [expandSource_eq hlex]
      exact ⟨_, collisions_severity file [] _, rfl⟩
    · intro hnone
      rw [replaceSites_newText_eq_ownText hnone] at htext
      rw [← String.toList_inj, htext]
      exact hown
  · intro f hlex
    simp [expandSource, hlex]

/-- Two blocks of which the first is lifted and the second, which has no place for its `use`, stays
with its mark. -/
theorem expandSource_spliced_mixed :
    ∃ ts, lex "#[ext(B)] impl A {} #[ext] impl C { use d; }" = .ok ts ∧
      Spliced "#[ext(B)] impl A {} #[ext] impl C { use d; }" none Config.default ts ∧
      (expandSource "#[ext(B)] impl A {} #[ext] impl C { use d; }" none Config.default).text =
        "trait B {}\nimpl B for A {} #[ext] impl C { use d; }" := by
  obtain ⟨hscan, htext⟩ :
      scan "#[ext(B)] impl A {} #[ext] impl C { use d; }".toList =
        ⟨(scan "#[ext(B)] impl A {} #[ext] impl C { use d; }".toList).tokens, none⟩ ∧
      (expandSource "#[ext(B)] impl A {} #[ext] impl C { use d; }" none Config.default).text =
        "trait B {}\nimpl B for A {} #[ext] impl C { use d; }" := by
    decide +kernel
  have hlex := lex_eq_ok_iff.2 hscan
  exact ⟨_, hlex, (expandSource_spliced _ none Config.default).1 _ hlex, htext⟩

end TraitLift
