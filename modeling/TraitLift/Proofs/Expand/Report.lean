import Mathlib.Tactic
import TraitLift.Proofs.Expand.Fragment
import TraitLift.Proofs.Expand.Splice
import TraitLift.Proofs.Lift.Relocate
import TraitLift.Proofs.Reading.Relocate

/-!
Where faults are reported. A fault of a marked block is found in a text of its own, which starts
somewhere in the file, and has its place there. It is always the place of a token
(`Site.loc_of_lifted`, `loc_of_parseArgs`), and it is reported at the place that this token has in the
file (`Fault.reports`).
-/

namespace TraitLift

open TraitLift.Grammar

/-! ### Faults stand at tokens -/

theorem Fault.loc?_relocate (g : Loc → Loc) (f : Fault) : (f.relocate g).loc? = f.loc?.map g := by
  cases f <;> rfl

/-- A place that stays whenever some places stay is one of them. -/
theorem mem_of_stays {ls : List Loc} {l : Loc}
    (h : ∀ g : Loc → Loc, (∀ x ∈ ls, g x = x) → g l = l) :
    l ∈ ls := by
  by_contra hl
  have hmoves := h (fun x => if x ∈ ls then x else x.step ' ') fun x hx => if_pos hx
  simp only [hl, if_false] at hmoves
  exact (Loc.before_step l ' ').ne hmoves.symm

/-- A fault that stays where it is whenever all tokens do stands at one of them. -/
theorem Fault.loc_of_stays {f : Fault} {ts : List Token}
    (h : ∀ g : Loc → Loc, (∀ t ∈ ts, g t.loc = t.loc) → f.relocate g = f) {l : Loc}
    (hl : f.loc? = some l) : ∃ t ∈ ts, t.loc = l := by
  refine List.mem_map.1 (mem_of_stays fun g hg => ?_)
  have hloc := f.loc?_relocate g
  rw [h g fun t ht => hg _ (List.mem_map_of_mem ht), hl, Option.map_some, Option.some.injEq] at hloc
  exact hloc.symm

/-- A fault of a block that was read, or of reading it, stands at a token. -/
theorem Site.loc_of_lifted {s : Site} {source : List Char} {args : ExtArgs} {c : Config}
    {fs : List Token} (hscan : scan (s.fragment source) = ⟨fs, none⟩) {f : Fault}
    (h : s.lifted source args c = .error (.fault f)) {l : Loc} (hl : f.loc? = some l) :
    ∃ t ∈ fs, t.loc = l := by
  refine f.loc_of_stays (fun g hg => ?_) hl
  have hstays := relocated_parseBlock hscan hg
  rw [Site.lifted, Site.block] at h
  cases hb : parseBlock (String.ofList (s.fragment source)) with
  | error f' =>
    obtain rfl : f' = f := by
      rw [hb] at h
      exact Failure.fault.inj (Except.error.inj h)
    rw [hb] at hstays
    exact Except.error.inj hstays
  | ok b =>
    rw [hb] at h hstays
    have hexpand : b.expand args c = .error (.fault f) := h
    have hmoved := b.expand_relocate g (parseBlock_source hscan hb) (tokenText_of_scan hscan)
      (tokenText_of_scan hscan) args c
    rw [Except.ok.inj hstays, hexpand] at hmoved
    exact (Failure.fault.inj (Except.error.inj hmoved)).symm

/-- A fault of arguments stands at one of their tokens. -/
theorem loc_of_parseArgs {text : List Char} {fs : List Token} (hscan : scan text = ⟨fs, none⟩)
    {f : Fault} (h : parseArgs (String.ofList text) = .error f) {l : Loc} (hl : f.loc? = some l) :
    ∃ t ∈ fs, t.loc = l := by
  have hholds := read_holds rust_proper rust_ranked Syn.extArgs fs
  unfold parseArgs at h
  split at h
  · simp at h
  simp only [parseSomeArgs, readParts, String.toList_ofList, hscan] at h
  cases hread : rust.read Syn.extArgs fs with
  | sentence trees => simp [hread] at h
  | short =>
    simp only [hread] at h
    rw [← Except.error.inj h] at hl
    simp [Fault.loc?] at hl
  | stuck t =>
    simp only [hread] at h
    rw [← Except.error.inj h] at hl
    rw [hread] at hholds
    obtain ⟨m, hm, -⟩ := hholds
    exact ⟨t, List.mem_of_getElem? hm, by simpa [Fault.loc?] using hl⟩

/-! ### Reports in a file -/

/-- The place of a fragment that a span gives, in the text that the fragment is of. -/
theorem Span.shifted_ofLoc (base : Loc) {l : Loc} (h : l.Counted) :
    (Span.ofLoc l).shifted (base.line - 1) (base.column - 1) = Span.ofLoc (base.locate l) := by
  obtain ⟨hline, hcolumn⟩ := h
  unfold Span.shifted Span.ofLoc Loc.locate
  by_cases hfirst : l.line = 1
  · simp [hfirst]
    omega
  · simp [hfirst]
    omega

theorem counted_of_mem_scan {source : List Char} {ts : List Token}
    (hscan : scan source = ⟨ts, none⟩) {t : Token} (ht : t ∈ ts) : t.loc.Counted := by
  obtain ⟨us, vs, rfl⟩ := List.append_of_mem ht
  obtain ⟨p, x, -, -, -, -, hloc⟩ := (scan_eq_complete_iff.1 hscan).before
  rw [hloc]
  exact Loc.counted_origin.after p

/-- `d` is the report on the fault `f` of a text that is a part of a file: its tokens are the tokens
`us` of the file, and it starts at the place `start` there. -/
structure Diagnostic.Reports (d : Diagnostic) (f : Fault) (file : Option String) (text : String)
    (us : List Token) (start : Loc) : Prop where
  /-- The report says what is wrong with the text. -/
  content : d = { f.toDiagnostic none with span := d.span }
  /-- A fault with a place stands at a token of the text, and is reported at the place of the same
  token in the file. -/
  at_token : ∀ l, f.loc? = some l → ∃ (fs : List Token) (i : Nat) (t u : Token),
    lex text = .ok fs ∧ fs[i]? = some t ∧ t.loc = l ∧
      us[i]? = some u ∧ u.lexeme = t.lexeme ∧ d.span = (Span.ofLoc u.loc).withFile file
  /-- A fault without a place is reported at the start. -/
  at_start : f.loc? = none → d.span = (Span.ofLoc start).withFile file

/-- A report that is moved from a text of its own to the file is at the right place there. -/
theorem Fault.reports {f : Fault} {text : List Char} {fs : List Token}
    (hscan : scan text = ⟨fs, none⟩)
      (hplace : ∀ l, f.loc? = some l → ∃ t ∈ fs, t.loc = l) (k : Nat)
    (base : Loc) (file : Option String) :
    ((f.toDiagnostic none).rebase base.line base.column file).Reports f file (String.ofList text)
      (fs.map (Token.moved k base)) base := by
  refine ⟨rfl, fun l hl => ?_, fun hnone => ?_⟩
  · obtain ⟨t, ht, rfl⟩ := hplace l hl
    obtain ⟨i, hi⟩ := List.getElem?_of_mem ht
    refine ⟨fs, i, t, t.moved k base, lex_eq_ok_iff.2 (by rwa [String.toList_ofList]), hi, rfl,
      by rw [List.getElem?_map, hi, Option.map_some], rfl, ?_⟩
    have hshifted := Span.shifted_ofLoc base (counted_of_mem_scan hscan ht)
    simp only [Diagnostic.rebase, Fault.toDiagnostic, hl, Span.ofLoc?, Token.moved_loc, ← hshifted]
    rfl
  · simp only [Diagnostic.rebase, Fault.toDiagnostic, hnone]
    rfl

/-! ### The arguments of a mark -/

/-- The arguments of an attribute stand between two of its brackets. -/
theorem outerAttr?_args {source : List Char} {ts rest : List Token} {m : OuterAttr} {a : AttrArgs}
    (h : outerAttr? source ts = some (m, rest)) (ha : m.args = some a) :
    ∃ (front inner : List Token) (closer : Token) (back : List Token),
      ts = front ++ a.opener :: (inner ++ closer :: (back ++ rest)) ∧
      a.opener.kind = .lpar ∧ closer.kind = .rpar ∧
      a.text = String.ofList (between source a.opener.stop closer.start) := by
  cases ts with
  | nil => simp [outerAttr?] at h
  | cons t ts =>
  cases attrStart t ts with
  | doc hdoc =>
    rw [outerAttr?_doc source hdoc] at h
    obtain ⟨rfl, -⟩ := Prod.mk.inj (Option.some.inj h)
    simp at ha
  | other hdoc hb => simp [outerAttr?_other source hdoc hb] at h
  | @bracket b ts ht hb =>
    rw [outerAttr?_bracket source ht hb] at h
    obtain ⟨⟨g, rest'⟩, hg, heq⟩ := Option.map_eq_some_iff.1 h
    obtain ⟨rfl, rfl⟩ := Prod.mk.inj heq
    rw [attrContent_eq] at ha
    obtain ⟨⟨opener, stop⟩, hparts, rfl⟩ := Option.map_eq_some_iff.1 ha
    obtain ⟨args, closer, hdrop, hargs, hopen, hpar, hlast, rfl⟩ := attrParts_eq_some hparts
    obtain ⟨args', rfl⟩ := List.head?_eq_some_iff.1 hopen
    rw [group?, closeGroup_opener (by rw [hpar]; rfl)] at hargs
    obtain ⟨⟨g', rest''⟩, hg', heq'⟩ := Option.map_eq_some_iff.1 hargs
    obtain rfl : g' = args' := (List.cons.inj (Prod.mk.inj heq').1).2
    obtain ⟨closer', hlast', hkind⟩ := closeGroup_last hg' rfl
    obtain rfl : closer' = closer := by
      rw [List.getLast?_cons, hlast'] at hlast
      exact Option.some.inj hlast
    obtain ⟨inner, rfl⟩ := List.getLast?_eq_some_iff.1 hlast'
    obtain ⟨back, hback⟩ := List.dropLast_prefix (g.drop 1)
    obtain ⟨front, hfront⟩ : ∃ front, g = front ++ opener :: (inner ++ closer' :: back) := by
      have hpath := List.takeWhile_append_dropWhile (p := isPathToken) (l := (g.drop 1).dropLast)
      rw [hdrop] at hpath
      set path := (g.drop 1).dropLast.takeWhile isPathToken
      refine ⟨g.take 1 ++ path, ?_⟩
      calc g = g.take 1 ++ g.drop 1 := (List.take_append_drop 1 g).symm
        _ = g.take 1 ++ ((path ++ opener :: (inner ++ [closer'])) ++ back) := by rw [hpath, hback]
        _ = g.take 1 ++ path ++ opener :: (inner ++ closer' :: back) := by simp
    refine ⟨t :: front, inner, closer', back, ?_, hpar, hkind, rfl⟩
    rw [← group?_append hg, hfront]
    simp

/-- The arguments `a` of an attribute in a text with the tokens `ts`: they are what stands between two
brackets of the attribute, and `inner` are their tokens. -/
structure OuterAttr.Encloses (m : OuterAttr) (source : List Char) (ts : List Token) (a : AttrArgs)
    (inner : List Token) : Prop where
  args : m.args = some a
  brackets : ∃ (front : List Token) (closer : Token) (back : List Token),
    ts = front ++ a.opener :: (inner ++ closer :: back) ∧
    a.opener.kind = .lpar ∧ closer.kind = .rpar ∧ m.first.start ≤ a.opener.start ∧
    closer.stop ≤ m.last.stop ∧ a.text = String.ofList (between source a.opener.stop closer.start)

theorem Site.Parting.exists_encloses {s : Site} {c : Config} {source : List Char} {ts : List Token}
    (p : s.Parting c source ts) {a : AttrArgs} (ha : s.mark.args = some a) :
    ∃ inner, s.mark.Encloses source ts a inner := by
  obtain ⟨front, inner, closer, back, hms, hopen, hclose, htext⟩ := outerAttr?_args p.laid.attr ha
  simp only [← List.append_assoc, ← List.cons_append] at hms
  have hmark := List.append_cancel_right (List.append_cancel_right hms)
  have hwithin : ∀ t ∈ p.mark.map (Token.moved s.first.start s.first.loc),
      s.mark.first.start ≤ t.start ∧ t.stop ≤ s.mark.last.stop := by
    intro t ht
    obtain ⟨t, hmem, rfl⟩ := List.mem_map.1 ht
    have hbounds := p.mark_cuts.inOrder_front.mem_bounds hmem
    rw [p.mark_start, p.mark_stop, Token.moved_start, Token.moved_stop]
    omega
  refine ⟨inner, ha, p.before ++ (p.attrs.map (Token.moved s.first.start s.first.loc) ++ front),
    closer, back ++ (p.rest ++ p.later).map (Token.moved s.first.start s.first.loc), ?_, hopen, hclose,
    (hwithin a.opener (by rw [hmark]; simp)).1, (hwithin closer (by rw [hmark]; simp)).2, htext⟩
  refine p.tokens_eq.trans ?_
  rw [List.map_append, List.map_append, hmark]
  simp

theorem lpar_sign : ∀ u ∈ Terminal.all, u.1 = .token .lpar → u.2 = Terminal.exactly ['('] :=
  eq_of_filter_all rfl

/-- The arguments have the same tokens as a text of their own, which starts right behind the
bracket. -/
theorem OuterAttr.Encloses.exists_scan {m : OuterAttr} {source : List Char} {ts inner : List Token}
    {a : AttrArgs} (h : m.Encloses source ts a inner) (hscan : scan source = ⟨ts, none⟩) :
    a.opener.endLoc = ⟨a.opener.loc.line, a.opener.loc.column + 1⟩ ∧
    ∃ text vs, a.text = String.ofList text ∧ scan text = ⟨vs, none⟩ ∧
      inner = vs.map (Token.moved a.opener.stop a.opener.endLoc) := by
  obtain ⟨front, closer, back, rfl, hopen, -, -, -, htext⟩ := h.brackets
  have hcuts := scan_eq_complete_iff.1 hscan
  obtain ⟨pre, lexeme, post, o, rfl, hfirst, htoken, -, hback⟩ := hcuts.divide
  have hsign := lexeme_eq_sign lpar_sign (by decide) hfirst htoken hopen
  obtain ⟨hloc, hend⟩ := Terminal.Outcome.token?_loc htoken
  obtain ⟨-, hstop⟩ := Terminal.Outcome.token?_range htoken
  rw [← hend, ← hstop] at hback
  obtain ⟨text, x, rfl, hinner, -, hstart, -⟩ := hback.before
  have hown := hinner.scanFrom_truncated
  rw [scanFrom_moved, Scan.mk.injEq, Option.map_eq_none_iff] at hown
  refine ⟨by rw [hend, hloc, hsign]; rfl, text, (scan text).tokens, ?_, by rw [← hown.2],
    hown.1.symm⟩
  have hpart : between (pre ++ (lexeme ++ (text ++ x))) a.opener.stop closer.start = text := by
    rw [between, hstart, hstop, Nat.add_sub_cancel_left, Nat.zero_add, ← List.append_assoc,
      ← List.length_append, List.drop_left, List.take_left]
  rw [htext, hpart]

/-! ### Marked blocks -/

/-- `d` is the report on a marked block of a text with the tokens `ts`: on a fault of the arguments
of the mark, found at one of the tokens between its brackets or, without a place, right behind the
bracket that opens them; or on a fault of the block, found at one of its tokens or, without a place,
at the first of them. -/
inductive Site.Reported (s : Site) (source : List Char) (file : Option String) (c : Config)
    (ts : List Token) (d : Diagnostic) : Prop where
  | args {a : AttrArgs} {inner : List Token} {f : Fault} : s.mark.Encloses source ts a inner →
      parseArgs a.text = .error f → d.Reports f file a.text inner a.opener.endLoc →
      Site.Reported s source file c ts d
  | block {args : ExtArgs} {f : Fault} : s.args file = .ok args →
      s.lifted source args c = .error (.fault f) →
      d.Reports f file (String.ofList (s.fragment source)) (s.tokens ts) s.first.loc →
      Site.Reported s source file c ts d

theorem Site.Parting.reported_of_args {s : Site} {c : Config} {source : List Char} {ts : List Token}
    (p : s.Parting c source ts) (hscan : scan source = ⟨ts, none⟩) {file : Option String}
    {d : Diagnostic} (h : s.args file = .error d) : s.Reported source file c ts d := by
  unfold Site.args at h
  cases ha : s.mark.args with
  | none => simp [ha] at h
  | some a =>
    obtain ⟨inner, hinner⟩ := p.exists_encloses ha
    obtain ⟨hend, text, vs, htext, hvs, hmoved⟩ := hinner.exists_scan hscan
    cases hargs : parseArgs a.text with
    | ok args => simp [ha, hargs, Except.mapError] at h
    | error f =>
      refine .args hinner hargs ?_
      simp only [ha, hargs, Except.mapError, Except.error.injEq] at h
      have hreports := f.reports hvs (fun l hl => loc_of_parseArgs hvs (htext ▸ hargs) hl)
        a.opener.stop a.opener.endLoc file
      rw [← hmoved, ← htext] at hreports
      rw [hend] at hreports ⊢
      rw [← h]
      exact hreports

theorem Site.Parting.reported_of_block {s : Site} {c : Config} {source : List Char} {ts : List Token}
    (p : s.Parting c source ts) (hscan : scan source = ⟨ts, none⟩) {file : Option String}
    {args : ExtArgs} (hargs : s.args file = .ok args) {d : Diagnostic}
    (h : s.expand source file c = .error d) : s.Reported source file c ts d := by
  rcases Site.expand_of_args source c hargs with
    ⟨e, text, -, -, he⟩ | ⟨f, hlifted, hf⟩
  · simp [h] at he
  · refine .block hargs hlifted ?_
    have horder := scan_inOrder source
    rw [hscan] at horder
    have hreports := f.reports p.scan_fragment
      (fun l hl => Site.loc_of_lifted p.scan_fragment hlifted hl) s.first.start s.first.loc file
    rw [← p.tokens_map horder] at hreports
    rw [h, Except.error.injEq] at hf
    rwa [hf]

/-- Every marked block that fails is reported, at the place of the fault in the file; and every error
that is reported is one on a marked block or on a mark that cannot be followed. -/
theorem expandSource_reports {source : String} {ts : List Token} (hlex : lex source = .ok ts)
    (file : Option String) (c : Config) :
    (∀ s ∈ sitesOf source.toList c ts, ∀ d, s.expand source.toList file c = .error d →
      d ∈ (expandSource source file c).diagnostics ∧ s.Reported source.toList file c ts d) ∧
    ∀ d ∈ (expandSource source file c).diagnostics, d.isError = true →
      (∃ s ∈ sitesOf source.toList c ts, s.expand source.toList file c = .error d) ∨
        ∃ f ∈ findings source.toList c ts, f.diagnostic? file = some d := by
  have hscan := lex_eq_ok_iff.1 hlex
  rw [expandSource_eq hlex]
  constructor
  · intro s hs d hd
    refine ⟨List.mem_append_left _ (List.mem_append_right _ (List.mem_filterMap.2 ⟨s, hs, ?_⟩)), ?_⟩
    · rw [Site.failure?, hd]
    · obtain ⟨p⟩ := exists_parting hscan hs
      cases hargs : s.args file with
      | error d' =>
        have hd' : s.expand source.toList file c = .error d' := by
          rw [Site.expand, hargs]
          rfl
        obtain rfl : d' = d := Except.error.inj (hd'.symm.trans hd)
        exact p.reported_of_args hscan hargs
      | ok args => exact p.reported_of_block hscan hargs hd
  · intro d hd herror
    rcases List.mem_append.1 hd with hd | hd
    · rcases List.mem_append.1 hd with hd | hd
      · exact Or.inr (List.mem_filterMap.1 hd)
      · obtain ⟨s, hs, hfail⟩ := List.mem_filterMap.1 hd
        refine Or.inl ⟨s, hs, ?_⟩
        unfold Site.failure? at hfail
        split at hfail
        · next d' hd' => rw [hd', Option.some.inj hfail]
        · simp at hfail
    · have hwarning := collisions_severity file [] _ d hd
      simp [Diagnostic.isError, hwarning] at herror

/-- A mark with a name too many, and a block on the next line with a `use` in it. -/
theorem expandSource_reports_places :
    let source := "use a; #[ext(b c)] impl A {}\n  #[ext] impl C { use d; }"
    ∃ ts, lex source = .ok ts ∧
      (expandSource source (some "e") Config.default).diagnostics.map Diagnostic.span =
        [(Span.ofLoc ⟨1, 16⟩).withFile (some "e"), (Span.ofLoc ⟨2, 19⟩).withFile (some "e")] ∧
      ∀ s ∈ sitesOf source.toList Config.default ts, ∀ d,
        s.expand source.toList (some "e") Config.default = .error d →
          d ∈ (expandSource source (some "e") Config.default).diagnostics ∧
            s.Reported source.toList (some "e") Config.default ts d := by
  intro source
  obtain ⟨hscan, hspans⟩ : scan source.toList = ⟨(scan source.toList).tokens, none⟩ ∧
      (expandSource source (some "e") Config.default).diagnostics.map Diagnostic.span =
        [(Span.ofLoc ⟨1, 16⟩).withFile (some "e"), (Span.ofLoc ⟨2, 19⟩).withFile (some "e")] := by
    decide +kernel
  have hlex := lex_eq_ok_iff.2 hscan
  exact ⟨_, hlex, hspans, (expandSource_reports hlex (some "e") Config.default).1⟩

end TraitLift
