import Mathlib.Tactic
import TraitLift.Proofs.Cli.Arguments
import TraitLift.Proofs.Cli.Disk
import TraitLift.Proofs.Text.Json

/-!
The program is all or nothing (`run_allOrNothing`). Whether it gives the new texts is settled by all
sources together: one that cannot be read, or one error in any of them, and no text is given and no
file is written. The reports are given in any case.

What a source comes to is stated apart from the run (`Disk.Yields`), and so are the lines and the JSON
value of a report (`Diagnostic.lines`, `Diagnostic.record`) and the answer to all sources
(`AllOrNothing`).
-/

namespace TraitLift

open Text

/-! ### Reports -/

namespace Diagnostic

/-- The file that a report on a source is about: the source, unless the report names another one. -/
def about (x : Diagnostic) (source : String) : String :=
  match x.span.file with
  | none => source
  | some f => if f = "" then source else f

/-- The lines of a report on a source: place, severity, message and code, and then the notes. -/
def lines (x : Diagnostic) (source : String) : List String :=
  let severity := match x.severity with
    | .error => "error"
    | .warning => "warning"
    | .other word => word
  let code := match x.code with
    | none => ""
    | some code => if code = "" then "" else " [" ++ code ++ "]"
  (x.about source ++ ":" ++ x.span.line.elim "?" toString ++ ":" ++
      x.span.column.elim "?" toString ++ ": " ++ severity ++ ": " ++ x.message ++ code) ::
    x.notes.map ("  note: " ++ ·)

/-- The JSON value of a report on a source. -/
def record (x : Diagnostic) (source : String) : Json :=
  .object [
    ("phase", x.phase.elim .null .str),
    ("code", x.code.elim .null .str),
    ("message", .str x.message),
    ("severity", .str (match x.severity with
      | .error => "error"
      | .warning => "warning"
      | .other word => word)),
    ("file", .str (x.about source)),
    ("line", x.span.line.elim .null .int),
    ("column", x.span.column.elim .null .int),
    ("notes", .list (x.notes.map .str))]

variable (x : Diagnostic) {source : String}

theorem file_eq_about : x.file (some source) = some (x.about source) := by
  unfold file orElseFile about
  cases x.span.file with
  | none => rfl
  | some f => dsimp only; split <;> rfl

theorem about_ne_empty (h : source ≠ "") : x.about source ≠ "" := by
  unfold about
  split
  · exact h
  · split
    · exact h
    · assumption

theorem part_eq_elim (n : Option Int) : Span.part n = n.elim "?" toString := by
  cases n <;> rfl

theorem format_eq_lines (h : source ≠ "") :
    x.format (some source) = "\n".intercalate (x.lines source) := by
  have hseverity : x.severity.label = (match x.severity with
      | .error => "error"
      | .warning => "warning"
      | .other word => word) := by
    cases x.severity <;> rfl
  have hfile : (orElseFile (x.file (some source)) (some "<input>")).getD "" = x.about source := by
    rw [file_eq_about, orElseFile, if_neg (x.about_ne_empty h)]
    rfl
  rw [format, lines, hfile, hseverity, Span.short, part_eq_elim, part_eq_elim]
  cases x.code <;> simp [String.append_assoc]

end Diagnostic

theorem Cli.DiskPath.text_ne_empty (p : DiskPath) : p.text ≠ "" := by
  unfold text
  dsimp only
  split
  · decide
  · assumption

theorem Cli.diagnosticJson_eq_record (p : DiskPath) (x : Diagnostic) :
    diagnosticJson p x = x.record p.text := by
  have hof : ∀ {α : Type} (f : α → Json) (a : Option α), Json.ofOption f a = a.elim .null f := by
    intro α f a
    cases a <;> rfl
  rw [diagnosticJson, Diagnostic.record, Diagnostic.file_eq_about]
  simp only [hof]
  cases x.severity <;> rfl

/-- The lines of a text with line feeds between them, and one behind the last. -/
theorem Cli.intercalate_append_lineEnd : ∀ {l : String} {ls : List String},
    "\n".intercalate (l :: ls) ++ "\n" = String.join ((l :: ls).map (· ++ "\n"))
  | l, [] => by simp
  | l, m :: ls => by
    rw [String.intercalate_cons_cons, String.append_assoc, intercalate_append_lineEnd]
    simp [String.append_assoc]

/-- Reports with a line end behind each are their lines with line ends. -/
theorem Cli.joinLines_format : ∀ xs : List (DiskPath × Diagnostic),
    joinLines (xs.map fun (p, x) => x.format (some p.text)) =
      String.join ((xs.flatMap fun (p, x) => x.lines p.text).map (· ++ "\n"))
  | [] => rfl
  | (p, x) :: xs => by
    have ih := joinLines_format xs
    rw [joinLines] at ih ⊢
    rw [List.map_cons, List.map_cons, String.join_cons, ih, List.flatMap_cons, List.map_append,
      String.join_append]
    dsimp only
    rw [x.format_eq_lines p.text_ne_empty, Diagnostic.lines, intercalate_append_lineEnd]

namespace Cli

/-! ### What the sources come to -/

/-- What the source at a path comes to: a report that it cannot be read, or its expansion. -/
inductive Disk.Yields (d : Disk) (c : Config) (source : String) : Expanded → Prop where
  | unread {e : Denial} : d.read (.ofString source) = .error e →
      Disk.Yields d c source
        { text := ""
          diagnostics := [
            { message := "cannot read source: " ++ e.reason
              code := some "E-EXT-IO"
              phase := some "driver"
              severity := .error
              span := { file := some (DiskPath.ofString source).text } }]
          expansions := [] }
  | read {bytes : ByteArray} {text : String} : d.read (.ofString source) = .ok bytes →
      decode bytes = some text →
      Disk.Yields d c source (expandSource text (some (DiskPath.ofString source).text) c)

/-- A source that cannot be read, or whose expansion reports an error. -/
def Disk.Fails (d : Disk) (c : Config) (source : String) : Prop :=
  (∃ e, d.read (.ofString source) = .error e) ∨
    ∃ bytes text, d.read (.ofString source) = .ok bytes ∧ decode bytes = some text ∧
      ∃ r ∈ (expandSource text (some (DiskPath.ofString source).text) c).diagnostics,
        r.severity = .error

/-- A path that can be handed on. -/
def Handable (path : String) : Prop := '\x00' ∉ (DiskPath.ofString path).text.toList

instance (path : String) : Decidable (Handable path) := inferInstanceAs (Decidable (¬_))

/-- A disk on which a command line can be carried out: the sources are text where they are files, and
the output file can be written. -/
structure Disk.Serves (d : Disk) (o : Options) : Prop where
  sources : ∀ s ∈ o.sources, Handable s
  isText : ∀ s ∈ o.sources, ∀ bytes, d.read (.ofString s) = .ok bytes → (decode bytes).isSome
  writable : ∀ s, o.output = some s →
    Handable s ∧ ∀ bytes, ∃ d', d.write (.ofString s) bytes = .ok d'

/-- The answer to the sources of `o` that came to `es`, and the disk `d'` after it, if the disk was
`d` before. -/
structure AllOrNothing (d : Disk) (c : Config) (o : Options) (es : List Expanded) (r : Report)
    (d' : Disk) : Prop where
  /-- Only failures change the exit status, and each one does. -/
  exit_eq_one : r.exit = 1 ↔ ∃ s ∈ o.sources, d.Fails c s
  exit_eq_zero : r.exit = 0 ↔ ∀ s ∈ o.sources, ¬d.Fails c s
  /-- No file is touched if something failed, or if no output file was asked for. -/
  untouched : r.exit = 1 ∨ o.output = none → d' = d
  /-- Otherwise the one source has its new text in the output file. -/
  stored : ∀ p, r.exit = 0 → o.output = some p → ∃ s e, o.sources = [s] ∧ es = [e] ∧
    d.Stored d' (.ofString p) e.text.toUTF8
  /-- Without JSON, the standard output is the new texts or nothing. -/
  plain : o.json = false →
    r.stdout = if r.exit = 0 ∧ o.output = none then String.join (es.map Expanded.text) else ""
  /-- With JSON, it stands for the exit status, all reports, and the new texts or nothing. -/
  json : o.json = true → ∀ v : Json, r.stdout = v.render ++ "\n" ↔ v =
    .object ([
      ("exit_code", Json.int r.exit),
      ("diagnostics", .list ((o.sources.zip es).flatMap fun (s, e) =>
        e.diagnostics.map (Diagnostic.record · (DiskPath.ofString s).text)))] ++
      if r.exit = 0 ∧ o.output = none then
        [("outputs", .list ((o.sources.zip es).map fun (s, e) =>
          .object [("file", .str (DiskPath.ofString s).text), ("text", .str e.text)]))]
      else [])
  /-- Without JSON, all reports go to the standard error, after the log if there is one. -/
  reports : ∃ log, (o.verbose = false → log = "") ∧ r.stderr = log ++
    if o.json then ""
    else String.join (((o.sources.zip es).flatMap fun (s, e) =>
      e.diagnostics.flatMap (Diagnostic.lines · (DiskPath.ofString s).text)).map (· ++ "\n"))

/-! ### Reading the sources -/

variable {v : Edition} {d d' : Disk} {c : Config} {o : Options} {source : String} {i : Input}

/-- One source that is text, and an output file that can be written. -/
theorem Disk.serves_of_read {bytes : ByteArray} {text out : String} (hsources : o.sources = [source])
    (hout : o.output = some out) (hsource : Handable source)
    (hread : d.read (.ofString source) = .ok bytes) (htext : decode bytes = some text)
    (hpath : Handable out) (hwrite : ∀ bytes, ∃ d', d.write (.ofString out) bytes = .ok d') :
    d.Serves o where
  sources s hs := by
    rw [hsources, List.mem_singleton] at hs
    exact hs ▸ hsource
  isText s hs bytes' hbytes := by
    rw [hsources, List.mem_singleton] at hs
    obtain rfl : bytes = bytes' := Except.ok.inj (hread.symm.trans (hs ▸ hbytes))
    exact Option.isSome_of_eq_some htext
  writable s hs := by
    obtain rfl : out = s := Option.some.inj (hout.symm.trans hs)
    exact ⟨hpath, hwrite⟩

theorem checkPath_of_handable (h : Handable source) :
    checkPath (.ofString source) = .ok (.ofString source) := by
  rw [checkPath, if_neg (by simpa [Handable] using h)]

@[simp] theorem Input.check_nil (i : Input) (c : Config) : i.check [] c = .ok i := by
  have hnone : i.hollow? [] c = none := by
    rw [Input.hollow?]
    split <;> simp
  rw [Input.check, hnone]

/-- Every source of the command line is found, and comes to what expanding it gives. -/
theorem Disk.input_yields (c : Config) (hserves : d.Serves o) (hs : source ∈ o.sources) :
    ∃ i, d.input [] c source = .ok i ∧ i.path = .ofString source ∧
      d.Yields c source (i.expand c) := by
  simp only [Disk.input, checkPath_of_handable (hserves.sources source hs), bind, Except.bind]
  cases hread : d.read (.ofString source) with
  | error e => exact ⟨⟨_, .error e⟩, Input.check_nil _ _, rfl, .unread hread⟩
  | ok bytes =>
    obtain ⟨text, htext⟩ := Option.isSome_iff_exists.1 (hserves.isText source hs bytes hread)
    simp only [Input.ofRead, htext]
    exact ⟨⟨_, .ok text⟩, Input.check_nil _ _, rfl, .read hread htext⟩

theorem Disk.inputs_yield (c : Config) (hserves : d.Serves o) :
    ∀ {sources : List String}, (∀ s ∈ sources, s ∈ o.sources) →
      ∃ is, sources.mapM (d.input [] c) = .ok is ∧
        is.map Input.path = sources.map DiskPath.ofString ∧
        List.Forall₂ (d.Yields c) sources (is.map (Input.expand · c))
  | [], _ => ⟨[], rfl, rfl, .nil⟩
  | s :: sources, h => by
    obtain ⟨i, hi, hpath, hyield⟩ := Disk.input_yields c hserves (h s List.mem_cons_self)
    obtain ⟨is, his, hpaths, hyields⟩ :=
      Disk.inputs_yield c hserves fun t ht => h t (List.mem_cons_of_mem s ht)
    refine ⟨i :: is, ?_, by simp [hpath, hpaths], .cons hyield hyields⟩
    simp [List.mapM_cons, hi, his, bind, Except.bind, pure, Except.pure]

theorem hasErrors_iff {ds : List Diagnostic} :
    hasErrors ds = true ↔ ∃ r ∈ ds, r.severity = .error := by
  simp [hasErrors, Diagnostic.isError]

/-- A source fails if what it comes to has an error. -/
theorem Disk.fails_iff {e : Expanded} (h : d.Yields c source e) :
    d.Fails c source ↔ hasErrors e.diagnostics = true := by
  rw [hasErrors_iff]
  cases h with
  | @unread e hread =>
    exact iff_of_true (.inl ⟨e, hread⟩) ⟨_, List.mem_singleton_self _, rfl⟩
  | @read bytes text hread htext =>
    constructor
    · rintro (⟨e, he⟩ | ⟨bytes', text', hread', htext', h⟩)
      · simp [hread] at he
      · obtain rfl : bytes = bytes' := by simpa [hread] using hread'
        obtain rfl : text = text' := by simpa [htext] using htext'
        exact h
    · exact fun h => .inr ⟨bytes, text, hread, htext, h⟩

/-- Some source fails if any of them comes to an error. -/
theorem Disk.exists_fails_iff : ∀ {sources : List String} {es : List Expanded},
    List.Forall₂ (d.Yields c) sources es →
      ((∃ s ∈ sources, d.Fails c s) ↔ ∃ e ∈ es, hasErrors e.diagnostics = true)
  | _, _, .nil => by simp
  | _, _, .cons h hs => by
    simp only [List.exists_mem_cons_iff, Disk.fails_iff h, Disk.exists_fails_iff hs]

/-! ### The answer -/

/-- What came of each source, by its path. -/
def Options.results (o : Options) (es : List Expanded) : Results :=
  (o.sources.zip es).map fun (s, e) => (.ofString s, e)

theorem Results.failed_iff (rs : Results) :
    rs.failed = true ↔ ∃ e ∈ rs.map Prod.snd, hasErrors e.diagnostics = true := by
  induction rs with
  | nil => simp [failed, diagnostics, hasErrors]
  | cons r rs ih =>
    have hcons : failed (r :: rs) = (hasErrors r.2.diagnostics || failed rs) := by
      simp [failed, diagnostics, hasErrors, List.any_append, Function.comp_def]
    rw [hcons, Bool.or_eq_true, ih, List.map_cons, List.exists_mem_cons_iff]

theorem Options.map_snd_results {es : List Expanded} (h : o.sources.length = es.length) :
    (o.results es).map Prod.snd = es := by
  rw [results, List.map_map]
  exact List.map_snd_zip h.ge

/-- The inputs in order, as what came of the sources of `o`. -/
theorem Options.results_eq {is : List Input}
    (hpaths : is.map Input.path = o.sources.map DiskPath.ofString) :
    o.results (is.map (Input.expand · c)) = is.map fun i => (i.path, i.expand c) := by
  have hzip : o.results (is.map (Input.expand · c)) =
      (o.sources.map DiskPath.ofString).zip (is.map (Input.expand · c)) := by
    rw [results, List.zip_map_left]
    rfl
  rw [hzip, ← hpaths, List.zip_map']

/-- The reports of all sources as JSON values. -/
theorem Options.records_eq (es : List Expanded) :
    (o.results es).diagnostics.map (fun (p, x) => diagnosticJson p x) =
      (o.sources.zip es).flatMap fun (s, e) =>
        e.diagnostics.map (Diagnostic.record · (DiskPath.ofString s).text) := by
  simp [Options.results, Results.diagnostics, List.map_flatMap, List.flatMap_map,
    diagnosticJson_eq_record, Function.comp_def]

/-- The reports of all sources as lines. -/
theorem Options.lines_eq (es : List Expanded) : joinLines (o.results es).formatted =
    String.join (((o.sources.zip es).flatMap fun (s, e) =>
      e.diagnostics.flatMap (Diagnostic.lines · (DiskPath.ofString s).text)).map (· ++ "\n")) := by
  rw [Results.formatted, joinLines_format]
  simp [Options.results, Results.diagnostics, List.flatMap_assoc, List.flatMap_map]

/-- All of it as one JSON value. -/
theorem Options.json_eq (es : List Expanded) (withTexts : Bool) :
    (o.results es).json withTexts = .object ([
      ("exit_code", Json.int (o.results es).exitCode),
      ("diagnostics", .list ((o.sources.zip es).flatMap fun (s, e) =>
        e.diagnostics.map (Diagnostic.record · (DiskPath.ofString s).text)))] ++
      if withTexts then
        [("outputs", .list ((o.sources.zip es).map fun (s, e) =>
          .object [("file", .str (DiskPath.ofString s).text), ("text", .str e.text)]))]
      else []) := by
  rw [Results.json, records_eq, results, List.map_map]
  rfl

/-- The answer in terms of what came of the sources. -/
theorem report_eq {is : List Input}
    (hpaths : is.map Input.path = o.sources.map DiskPath.ofString) :
    ∃ log, (o.verbose = false → log = "") ∧ report o c is =
      { (o.results (is.map (Input.expand · c))).report o with
        stderr := log ++ ((o.results (is.map (Input.expand · c))).report o).stderr } := by
  refine ⟨joinLines ((if o.verbose then is.flatMap (Input.events · c) else []).map Event.line),
    fun h => ?_, ?_⟩
  · simp [h, joinLines]
  · rw [Options.results_eq hpaths]
    rfl

/-- The last step of a run: the disk is left alone if something failed or no output file is asked
for, else it gets the text of the one source. -/
theorem Disk.save_target (hserves : d.Serves o) (rs : Results) {r : Report}
    (hone : o.output.isSome = true → ∃ x, rs = [x]) (hr : r.output = (rs.report o).output) :
    ∃ d', (r.target [] o >>= d.save) = .ok d' ∧ (rs.failed = true ∨ o.output = none → d' = d) ∧
      ∀ p, rs.failed = false → o.output = some p →
        ∃ x, rs = [x] ∧ d.Stored d' (.ofString p) x.2.text.toUTF8 := by
  rw [Results.report] at hr
  cases hout : o.output with
  | none =>
    refine ⟨d, ?_, fun _ => rfl, fun p _ hp => by simp at hp⟩
    simp [Report.target, hout, Disk.save, bind, Except.bind]
  | some p =>
    obtain ⟨x, rfl⟩ := hone (by simp [hout])
    obtain ⟨hpath, hwrite⟩ := hserves.writable p hout
    cases hfailed : Results.failed [x] with
    | true =>
      refine ⟨d, ?_, fun _ => rfl, fun p h => by simp at h⟩
      simp [Report.target, hout, hr, hfailed, Disk.save, bind, Except.bind]
    | false =>
      obtain ⟨d', hd'⟩ := hwrite x.2.text.toUTF8
      refine ⟨d', ?_, by simp, fun q _ hq => ⟨x, rfl, ?_⟩⟩
      · have htarget : r.target [] o = .ok (some (.ofString p, x.2.text)) := by
          simp [Report.target, hout, hr, hfailed, Results.texts, checkPath_of_handable hpath,
            bind, Except.bind, pure, Except.pure]
        simp only [htarget, bind, Except.bind, Disk.save, hd', Except.mapError]
      · obtain rfl : p = q := by simpa using hq
        exact stored_of_write hd'

/-- The answer to sources that came to `es`, and the disk after it. -/
theorem allOrNothing_of_report {es : List Expanded} {r : Report} {log : String}
    (hyields : List.Forall₂ (d.Yields c) o.sources es) (hlog : o.verbose = false → log = "")
    (hr : r = { (o.results es).report o with stderr := log ++ ((o.results es).report o).stderr })
    (hkept : (o.results es).failed = true ∨ o.output = none → d' = d)
    (hstored : ∀ p, (o.results es).failed = false → o.output = some p →
      ∃ s e, o.sources = [s] ∧ es = [e] ∧ d.Stored d' (.ofString p) e.text.toUTF8) :
    AllOrNothing d c o es r d' := by
  have hsnd : (o.results es).map Prod.snd = es := Options.map_snd_results hyields.length_eq
  have hfails : (o.results es).failed = true ↔ ∃ s ∈ o.sources, d.Fails c s := by
    rw [Results.failed_iff, hsnd, Disk.exists_fails_iff hyields]
  have hexit : r.exit = if (o.results es).failed then 1 else 0 := by rw [hr]; rfl
  have hone : r.exit = 1 ↔ (o.results es).failed = true := by
    rw [hexit]
    split <;> simp_all
  have hzero : r.exit = 0 ↔ (o.results es).failed = false := by
    rw [hexit]
    split <;> simp_all
  have htexts : (o.results es).texts = es.map Expanded.text := by
    conv_rhs => rw [← hsnd, List.map_map]
    rfl
  exact
    { exit_eq_one := hone.trans hfails
      exit_eq_zero := by rw [hzero, ← Bool.not_eq_true, hfails]; simp
      untouched := fun h => hkept (h.imp_left hone.1)
      stored := fun p h => hstored p (hzero.1 h)
      plain := fun h => by
        simp only [hzero]
        simp [hr, Results.report, h, htexts]
      json := fun h v => by
        have hvalue : r.stdout = ((o.results es).json
            (!(o.results es).failed && o.output.isNone)).render ++ "\n" := by
          simp [hr, Results.report, h]
        have hgiven : (!(o.results es).failed && o.output.isNone) = true ↔
            r.exit = 0 ∧ o.output = none := by
          simp [hzero]
        rw [hvalue, String.append_left_inj, Options.json_eq]
        simp only [hgiven, show (o.results es).exitCode = r.exit by rw [hr]; rfl]
        exact ⟨fun h => (Json.render_injective h).symm, fun h => by rw [h]⟩
      reports := ⟨log, hlog, by rw [← Options.lines_eq]; simp [hr, Results.report]⟩ }

/-- A command line that can be carried out is answered. The one file that may change is the output
file, which holds the new text of the one source. -/
theorem run_served (d : Disk) {argv : List String} (hargv : prepare v argv = .ok (o, c))
    (hserves : d.Serves o) :
    ∃ es log r d', List.Forall₂ (d.Yields c) o.sources es ∧ (o.verbose = false → log = "") ∧
      r = { (o.results es).report o with stderr := log ++ ((o.results es).report o).stderr } ∧
      run v d argv = .ok (r, d') ∧ ((o.results es).failed = true ∨ o.output = none → d' = d) ∧
      ∀ p, (o.results es).failed = false → o.output = some p →
        ∃ s e, o.sources = [s] ∧ es = [e] ∧ d.Stored d' (.ofString p) e.text.toUTF8 := by
  obtain ⟨is, his, hpaths, hyields⟩ := Disk.inputs_yield c hserves fun s hs => hs
  obtain ⟨log, hlog, hreport⟩ := report_eq (c := c) hpaths
  set es := is.map (Input.expand · c)
  obtain ⟨hsome, hlone⟩ := sources_of_readArguments (prepare_eq_ok_iff.1 hargv).1
  have hone : o.output.isSome = true →
      ∃ s e, o.sources = [s] ∧ es = [e] ∧ o.results es = [(.ofString s, e)] := by
    intro hout
    obtain ⟨s, hs⟩ : ∃ s, o.sources = [s] :=
      List.length_eq_one_iff.1 (le_antisymm (hlone hout) (List.length_pos_iff.2 hsome))
    obtain ⟨e, he⟩ : ∃ e, es = [e] := by
      rw [← List.length_eq_one_iff, ← hyields.length_eq, hs, List.length_singleton]
    exact ⟨s, e, hs, he, by rw [Options.results, hs, he]; rfl⟩
  obtain ⟨d', hsave, hkept, hstored⟩ := Disk.save_target hserves (o.results es)
    (fun hout => let ⟨_, _, _, _, h⟩ := hone hout; ⟨_, h⟩) (r := report o c is) (by rw [hreport])
  refine ⟨es, log, report o c is, d', hyields, hlog, hreport, ?_, hkept, ?_⟩
  · cases htarget : (report o c is).target [] o with
    | error b => simp [htarget, bind, Except.bind] at hsave
    | ok t =>
      have hd' : d.save t = .ok d' := by simpa [htarget, bind, Except.bind] using hsave
      simp only [run, hargv, Disk.carryOut, his, bind, Except.bind, htarget, hd', pure, Except.pure]
  · intro p hok hout
    obtain ⟨s, e, hs, he, hrs⟩ := hone (by simp [hout])
    obtain ⟨x, hx, hw⟩ := hstored p hok hout
    obtain rfl : (DiskPath.ofString s, e) = x := by simpa [hrs] using hx
    exact ⟨s, e, hs, he, hw⟩

/-- The program is all or nothing. -/
theorem run_allOrNothing (v : Edition) (d : Disk) {argv : List String} {o : Options} {c : Config}
    (hargv : prepare v argv = .ok (o, c)) (hserves : d.Serves o) :
    ∃ es r d', List.Forall₂ (d.Yields c) o.sources es ∧ run v d argv = .ok (r, d') ∧
      AllOrNothing d c o es r d' := by
  obtain ⟨es, log, r, d', hyields, hlog, hr, hrun, hkept, hstored⟩ := run_served d hargv hserves
  exact ⟨es, r, d', hyields, hrun, allOrNothing_of_report hyields hlog hr hkept hstored⟩

/-- A source without errors, with its text to be written to a new file above the working directory. -/
theorem run_allOrNothing_written :
    let d : Disk := {
      home := ["home"]
      entries := [(["home"], .dir), (["home", "a.rs"], .file 0)]
      contents := fun _ => "fn f() {}".toUTF8 }
    ∃ r d' e, run .late d ["/home/a.rs", "-o", "../out.rs"] = .ok (r, d') ∧ r.exit = 0 ∧
      d.Yields Config.default "/home/a.rs" e ∧ d.Stored d' (.ofString "../out.rs") e.text.toUTF8 := by
  intro d
  have hargv : prepare .late ["/home/a.rs", "-o", "../out.rs"] =
      .ok ({ sources := ["/home/a.rs"], output := some "../out.rs" }, Config.default) :=
    prepare_eq_ok_iff.2 ⟨by decide +kernel, rfl⟩
  have hfile : d.read (.ofString "/home/a.rs") = .ok "fn f() {}".toUTF8 := rfl
  have htext : decode "fn f() {}".toUTF8 = some "fn f() {}" := by decide +kernel
  have hserves : d.Serves { sources := ["/home/a.rs"], output := some "../out.rs" } :=
    d.serves_of_read rfl rfl (by decide +kernel) hfile htext (by decide +kernel) fun bytes => ⟨_, rfl⟩
  obtain ⟨es, r, d', hyields, hrun, hall⟩ := run_allOrNothing .late d hargv hserves
  have hzero : r.exit = 0 := by
    have hclean : hasErrors (expandSource "fn f() {}" (some (DiskPath.ofString "/home/a.rs").text)
        Config.default).diagnostics = false := by
      decide +kernel
    rw [hall.exit_eq_zero]
    simp only [List.mem_singleton, forall_eq, Disk.fails_iff (.read hfile htext), hclean]
    simp
  obtain ⟨s, e, hs, rfl, hstored⟩ := hall.stored "../out.rs" hzero rfl
  obtain ⟨hyield, -⟩ := List.forall₂_cons.1 hyields
  exact ⟨r, d', e, hrun, hzero, hyield, hstored⟩

end Cli

end TraitLift
