import Mathlib.Tactic
import TraitLift.Proofs.Cli.Outcome

/-!
How a run ends (`run_status`). A command line that is wrong ends with status 2, one that can be
carried out with 0 or 1, and every source that the system refuses to read is reported. What is not
foreseen is listed by `Breaks`: above all a source that is no text and an output file that cannot be
written, for which there is no report and no status (`run_breaks_off`).
-/

namespace TraitLift.Cli

open Text

/-! ### Ends of a run -/

/-- What makes a run break off. -/
inductive Breaks (v : Edition) (d : Disk) (argv : List String) : Break → Prop where
  /-- A source whose bytes stand for no text. -/
  | notText {q : Request} {s : String} {bytes : ByteArray} :
      readArguments v argv = .ok q → s ∈ q.options.sources → d.read (.ofString s) = .ok bytes →
      decode bytes = none → Breaks v d argv (.notText (.ofString s))
  /-- An output file that cannot be written. -/
  | unwritable {q : Request} {s : String} {bytes : ByteArray} {e : Denial} :
      readArguments v argv = .ok q → q.options.output = some s →
      d.write (.ofString s) bytes = .error e → Breaks v d argv (.unwritable (.ofString s) e)
  /-- A path that cannot be handed on. -/
  | nul {q : Request} {s : String} :
      readArguments v argv = .ok q → s ∈ q.options.sources ∨ q.options.output = some s →
      ¬Handable s → Breaks v d argv (.nul (.ofString s))
  /-- An option that was given without a value and is needed. -/
  | hollow {q : Request} {opt : Opt} :
      readArguments v argv = .ok q → opt ∈ q.hollow → Breaks v d argv (.hollow opt)

/-- The report `x` on a source is given: in the JSON value, or as lines of the standard error. -/
def Report.Gives (r : Report) (o : Options) (source : String) (x : Diagnostic) : Prop :=
  if o.json then
    ∃ xs fields, x.record (DiskPath.ofString source).text ∈ xs ∧ r.stdout =
      (Json.object
        (("exit_code", .int r.exit) :: ("diagnostics", .list xs) :: fields)).render ++ "\n"
  else
    ∃ before after, r.stderr = String.join
      ((before ++ x.lines (DiskPath.ofString source).text ++ after).map (· ++ "\n"))

/-- How a run ends. -/
structure Status (v : Edition) (d : Disk) (argv : List String) : Prop where
  /-- There is a status of 0 or 1, or one of 2 for a command line that is wrong. -/
  exits : ∀ r d', run v d argv = .ok (r, d') →
    r.exit = 0 ∨ r.exit = 1 ∨ r.exit = 2 ∧ ∃ e, prepare v argv = .error (.halt (.usage e))
  /-- A command line that is wrong has status 2. -/
  usage : ∀ e, prepare v argv = .error (.halt (.usage e)) →
    ∃ r, run v d argv = .ok (r, d) ∧ r.exit = 2
  /-- A command line that can be carried out has status 0 or 1. -/
  served : ∀ o c, prepare v argv = .ok (o, c) → d.Serves o →
    ∃ r d', run v d argv = .ok (r, d') ∧ (r.exit = 0 ∨ r.exit = 1)
  /-- Each source that the system refuses to read is reported, and the status is 1. -/
  unread : ∀ o c r d', prepare v argv = .ok (o, c) → run v d argv = .ok (r, d') →
    ∀ s ∈ o.sources, ∀ e, d.read (.ofString s) = .error e → r.exit = 1 ∧ r.Gives o s
      { message := "cannot read source: " ++ e.reason
        code := some "E-EXT-IO"
        phase := some "driver"
        severity := .error
        span := { file := some (DiskPath.ofString s).text } }
  /-- Otherwise the run breaks off, for one of the causes. -/
  broken : ∀ b, run v d argv = .error b → Breaks v d argv b
  /-- In the late edition it never does so for want of a value. -/
  filled : v = .late → ∀ opt, run v d argv ≠ .error (.hollow opt)
  /-- A source that is no text always makes it break off. -/
  notText : ∀ o c, prepare v argv = .ok (o, c) → ∀ s ∈ o.sources, ∀ bytes,
    d.read (.ofString s) = .ok bytes → decode bytes = none → ∃ b, run v d argv = .error b

/-! ### Reading the sources -/

section

variable {v : Edition} {d d' : Disk} {argv : List String} {c : Config} {o : Options} {s : String}
  {b : Break} {i : Input} {is : List Input} {r : Report} {q : Request} {hollow : List Opt}

theorem handable_of_checkPath {p : DiskPath} (h : checkPath (.ofString s) = .ok p) :
    p = .ofString s ∧ Handable s := by
  unfold checkPath at h
  split at h
  · simp at h
  · rename_i hnul
    exact ⟨(Except.ok.inj h).symm, by simpa [Handable] using hnul⟩

theorem checkPath_eq_error (h : checkPath (.ofString s) = .error b) :
    b = .nul (.ofString s) ∧ ¬Handable s := by
  unfold checkPath at h
  split at h
  · rename_i hnul
    exact ⟨(Except.error.inj h).symm, by simpa [Handable] using hnul⟩
  · simp at h

/-- What reading a file is taken as. -/
theorem Input.ofRead_eq_ok {p : DiskPath} {x : Except Denial ByteArray}
    (h : Input.ofRead p x = .ok i) : i.path = p ∧
      ((∃ e, x = .error e ∧ i.content = .error e) ∨
        ∃ bytes text, x = .ok bytes ∧ decode bytes = some text ∧ i.content = .ok text) := by
  cases x with
  | error e =>
    obtain rfl := Except.ok.inj h
    exact ⟨rfl, .inl ⟨e, rfl, rfl⟩⟩
  | ok bytes =>
    rw [Input.ofRead] at h
    cases htext : decode bytes with
    | none => simp [htext] at h
    | some text =>
      obtain rfl : ⟨p, .ok text⟩ = i := by simpa [htext] using h
      exact ⟨rfl, .inr ⟨bytes, text, rfl, htext, rfl⟩⟩

/-- A file that is no source. -/
theorem Input.ofRead_eq_error {p : DiskPath} {x : Except Denial ByteArray}
    (h : Input.ofRead p x = .error b) :
    b = .notText p ∧ ∃ bytes, x = .ok bytes ∧ decode bytes = none := by
  cases x with
  | error e => simp [Input.ofRead] at h
  | ok bytes =>
    rw [Input.ofRead] at h
    cases htext : decode bytes with
    | none => exact ⟨by simpa [htext] using h.symm, bytes, rfl, htext⟩
    | some text => simp [htext] at h

theorem Input.eq_of_check {j : Input} (h : i.check hollow c = .ok j) : i = j := by
  unfold Input.check at h
  split at h
  · simp at h
  · exact Except.ok.inj h

/-- A source that cannot be expanded wants an option that holds nothing. -/
theorem Input.mem_of_check (h : i.check hollow c = .error b) : ∃ opt ∈ hollow, b = .hollow opt := by
  unfold Input.check at h
  split at h
  · rename_i opt hopt
    refine ⟨opt, ?_, (Except.error.inj h).symm⟩
    unfold Input.hollow? at hopt
    split at hopt
    · simp at hopt
    · split at hopt
      · rename_i hattr
        obtain rfl := Option.some.inj hopt
        exact of_decide_eq_true (Bool.and_eq_true_iff.1 hattr).1
      · split at hopt
        · rename_i hseed
          obtain rfl := Option.some.inj hopt
          exact of_decide_eq_true (Bool.and_eq_true_iff.1 hseed).1
        · simp at hopt
  · simp at h

/-- What a source that was taken in holds. -/
theorem Disk.input_eq_ok (h : d.input hollow c s = .ok i) : i.path = .ofString s ∧
    ((∃ e, d.read (.ofString s) = .error e ∧ i.content = .error e) ∨
      ∃ bytes text, d.read (.ofString s) = .ok bytes ∧ decode bytes = some text ∧
        i.content = .ok text) := by
  obtain ⟨p, hpath, h⟩ := bind_eq_ok h
  obtain ⟨rfl, -⟩ := handable_of_checkPath hpath
  obtain ⟨j, hj, hcheck⟩ := bind_eq_ok h
  obtain rfl := Input.eq_of_check hcheck
  exact Input.ofRead_eq_ok hj

/-- Why a source could not be taken in. -/
theorem Disk.input_eq_error (hargv : readArguments v argv = .ok q) (hs : s ∈ q.options.sources)
    (h : d.input q.hollow c s = .error b) : Breaks v d argv b := by
  rcases bind_eq_error h with hpath | ⟨p, hpath, h⟩
  · obtain ⟨rfl, hnul⟩ := checkPath_eq_error hpath
    exact .nul hargv (.inl hs) hnul
  · obtain ⟨rfl, -⟩ := handable_of_checkPath hpath
    rcases bind_eq_error h with hread | ⟨j, -, hcheck⟩
    · obtain ⟨rfl, bytes, hbytes, htext⟩ := Input.ofRead_eq_error hread
      exact .notText hargv hs hbytes htext
    · obtain ⟨opt, hopt, rfl⟩ := Input.mem_of_check hcheck
      exact .hollow hargv hopt

/-! ### The end -/

/-- Why the output file could not be written. -/
theorem target_eq_error (hargv : readArguments v argv = .ok q)
    (h : (r.target q.hollow q.options >>= d.save) = .error b) : Breaks v d argv b := by
  unfold Report.target at h
  split at h
  · rename_i path text hout _
    split at h
    · rename_i hmem
      obtain rfl := Except.error.inj h
      exact .hollow hargv hmem
    rcases bind_eq_error h with htarget | ⟨t, htarget, h⟩
    · rcases bind_eq_error htarget with hpath | ⟨p, -, hp⟩
      · obtain ⟨rfl, hnul⟩ := checkPath_eq_error hpath
        exact .nul hargv (.inr hout) hnul
      · cases hp
    · obtain ⟨p, hpath, hp⟩ := bind_eq_ok htarget
      obtain rfl := Except.ok.inj hp
      obtain ⟨rfl, -⟩ := handable_of_checkPath hpath
      simp only [Disk.save] at h
      cases hwrite : d.write (.ofString path) text.toUTF8 with
      | error e =>
        simp only [hwrite, Except.mapError, Except.error.injEq] at h
        exact h ▸ .unwritable hargv hout hwrite
      | ok d' =>
        rw [hwrite] at h
        cases h
  · simp [bind, Except.bind, Disk.save] at h

/-- What was asked for was answered: all of the sources were taken in. -/
theorem carryOut_eq_ok (h : d.carryOut hollow o c = .ok (r, d')) :
    ∃ is, o.sources.mapM (d.input hollow c) = .ok is ∧ r = report o c is := by
  obtain ⟨is, his, h⟩ := bind_eq_ok h
  obtain ⟨t, -, h⟩ := bind_eq_ok h
  obtain ⟨d'', -, h⟩ := bind_eq_ok h
  exact ⟨is, his, (Prod.mk.inj (Except.ok.inj h)).1.symm⟩

/-- Why what was asked for was not answered. -/
theorem carryOut_eq_error (hargv : readArguments v argv = .ok q)
    (h : d.carryOut q.hollow q.options c = .error b) : Breaks v d argv b := by
  rcases bind_eq_error h with his | ⟨is, his, h⟩
  · obtain ⟨s, hs, hinput⟩ := exists_of_mapM_eq_error his
    exact Disk.input_eq_error hargv hs hinput
  · refine target_eq_error (r := report q.options c is) hargv ?_
    rcases bind_eq_error h with htarget | ⟨t, htarget, h⟩
    · simp [htarget, bind, Except.bind]
    · rcases bind_eq_error h with hsave | ⟨d', -, h⟩
      · simpa [htarget, bind, Except.bind] using hsave
      · cases h

theorem report_exit (o : Options) (c : Config) (is : List Input) :
    (report o c is).exit = 0 ∨ (report o c is).exit = 1 := by
  have hexit : (report o c is).exit =
      Results.exitCode (is.map fun i => (i.path, i.expand c)) := rfl
  rw [hexit, Results.exitCode]
  split <;> simp

/-- The report on a source that was refused is given. -/
theorem report_gives (hi : i ∈ is) (hpath : i.path = .ofString s) {e : Denial}
    (hcontent : i.content = .error e) :
    (report o c is).exit = 1 ∧
      (report o c is).Gives o s (unreadable (.ofString s) e) := by
  set rs : Results := is.map fun i => (i.path, i.expand c) with hrs
  have hmem : (.ofString s, unreadable (.ofString s) e) ∈ rs.diagnostics := by
    refine List.mem_flatMap.2 ⟨(i.path, i.expand c), List.mem_map_of_mem hi, ?_⟩
    simp [Input.expand, hcontent, hpath]
  have hfailed : rs.failed = true := by
    rw [Results.failed, hasErrors_iff]
    exact ⟨_, List.mem_map_of_mem hmem, rfl⟩
  have hexit : (report o c is).exit = 1 := by
    show rs.exitCode = 1
    rw [Results.exitCode, if_pos hfailed]
  refine ⟨hexit, ?_⟩
  unfold Report.Gives
  split
  · rename_i hjson
    refine ⟨rs.diagnostics.map fun y => diagnosticJson y.1 y.2, [], ?_, ?_⟩
    · rw [← diagnosticJson_eq_record]
      exact List.mem_map_of_mem (f := fun y => diagnosticJson y.1 y.2) hmem
    · simp [report, Results.report, hjson, ← hrs, Results.json, hfailed]
  · rename_i hjson
    obtain ⟨xs, ys, hsplit⟩ := List.append_of_mem hmem
    refine ⟨((if o.verbose then is.flatMap (Input.events · c) else []).map Event.line) ++
      xs.flatMap fun y => y.2.lines y.1.text, ys.flatMap fun y => y.2.lines y.1.text, ?_⟩
    have hstderr : (report o c is).stderr = joinLines
        ((if o.verbose then is.flatMap (Input.events · c) else []).map Event.line) ++
          joinLines rs.formatted := by
      simp [report, Results.report, hjson, hrs]
    rw [hstderr, Results.formatted, joinLines_format, hsplit, joinLines]
    simp only [List.flatMap_append, List.flatMap_cons, List.map_append, String.join_append,
      String.append_assoc]

/-- A run that breaks off does so for one of the causes. -/
theorem breaks_of_run (h : run v d argv = .error b) : Breaks v d argv b := by
  unfold run at h
  split at h
  · cases h
  · rename_i opt hargv
    obtain rfl := Except.error.inj h
    obtain ⟨halt, hs⟩ | ⟨q, hread, ⟨opt', hopt, hs⟩ | ⟨-, c, hs⟩⟩ := prepare_eq_error hargv
    · cases hs
    · cases hs
      exact .hollow hread hopt
    · cases hs
  · rename_i q c hargv
    obtain ⟨halt, hs⟩ | ⟨q', hread, ⟨opt, -, hs⟩ | ⟨-, c', hs⟩⟩ := prepare_eq_error hargv
    · cases hs
    · cases hs
    · cases hs
      exact carryOut_eq_error hread h
  · rename_i o c hargv
    exact carryOut_eq_error (prepare_eq_ok_iff.1 hargv).1 h

end

/-- How a run ends, whatever the command line and the disk are. -/
theorem run_status (v : Edition) (d : Disk) (argv : List String) : Status v d argv where
  exits r d' h := by
    unfold run at h
    split at h
    · rename_i halt hargv
      obtain rfl : halt.report = r := (Prod.mk.inj (Except.ok.inj h)).1
      cases halt with
      | help => exact .inl rfl
      | usage e => exact .inr (.inr ⟨rfl, e, hargv⟩)
    · cases h
    all_goals
      obtain ⟨is, -, rfl⟩ := carryOut_eq_ok h
      rcases report_exit _ _ is with h | h
      · exact .inl h
      · exact .inr (.inl h)
  usage e hargv := ⟨e.report, by simp only [run, hargv]; rfl, rfl⟩
  served o c hargv hserves := by
    obtain ⟨es, log, r, d', -, -, -, hrun, -⟩ := run_served d hargv hserves
    have hcarry : d.carryOut [] o c = .ok (r, d') := by simpa only [run, hargv] using hrun
    obtain ⟨is, -, rfl⟩ := carryOut_eq_ok hcarry
    exact ⟨_, d', hrun, report_exit o c is⟩
  unread o c r d' hargv hrun s hs e hread := by
    simp only [run, hargv] at hrun
    obtain ⟨is, his, rfl⟩ := carryOut_eq_ok hrun
    obtain ⟨i, hi, hinput⟩ := exists_mem_of_mapM his s hs
    obtain ⟨hpath, ⟨e', hread', hcontent⟩ | ⟨bytes, text, hread', -⟩⟩ := Disk.input_eq_ok hinput
    · obtain rfl : e = e' := by simpa [hread] using hread'
      exact report_gives hi hpath hcontent
    · simp [hread] at hread'
  broken b h := breaks_of_run h
  filled hv opt h := by
    subst hv
    cases breaks_of_run h with
    | hollow hread hopt => simp [hollow_of_late hread] at hopt
  notText o c hargv s hs bytes hread htext := by
    cases hrun : run v d argv with
    | error b => exact ⟨b, rfl⟩
    | ok x =>
      simp only [run, hargv] at hrun
      obtain ⟨is, his, -⟩ := carryOut_eq_ok hrun
      obtain ⟨i, -, hinput⟩ := exists_mem_of_mapM his s hs
      obtain ⟨-, ⟨e, hread', -⟩ | ⟨bytes', text, hread', htext', -⟩⟩ := Disk.input_eq_ok hinput
      · simp [hread] at hread'
      · obtain rfl : bytes = bytes' := by simpa [hread] using hread'
        simp [htext] at htext'

/-- Of two sources one is refused: it is reported, and the run ends with status 1. -/
theorem run_status_refused :
    let d : Disk := {
      entries := [(["a.rs"], .file 0), (["b.rs"], .file 1)]
      contents := fun _ => "fn f() {}".toUTF8
      refuses := fun p a =>
        if p = ["a.rs"] ∧ a = .read then some (.other "Permission denied") else none }
    let o : Options := { sources := ["a.rs", "b.rs"] }
    prepare .late ["a.rs", "b.rs"] = .ok (o, Config.default) ∧ d.Serves o ∧
      ∃ r d', run .late d ["a.rs", "b.rs"] = .ok (r, d') ∧ r.exit = 1 ∧ r.Gives o "a.rs"
        { message := "cannot read source: Permission denied"
          code := some "E-EXT-IO"
          phase := some "driver"
          severity := .error
          span := { file := some "a.rs" } } := by
  intro d o
  have hconfig : Options.config { sources := ["a.rs", "b.rs"] } = .ok Config.default := rfl
  have hargv : prepare .late ["a.rs", "b.rs"] = .ok (o, Config.default) :=
    prepare_eq_ok_iff.2 ⟨by decide +kernel, hconfig⟩
  have hrefused : d.read (.ofString "a.rs") = .error (.other "Permission denied") := rfl
  have hserves : d.Serves o :=
    { sources := by
        simp only [o, List.forall_mem_cons]
        exact ⟨by decide +kernel, by decide +kernel, by simp⟩
      isText := by
        simp only [o, List.forall_mem_cons, hrefused]
        refine ⟨by simp, fun bytes hread => ?_, by simp⟩
        obtain rfl := Except.ok.inj hread
        decide +kernel
      writable := by simp [o] }
  have hstatus := run_status .late d ["a.rs", "b.rs"]
  obtain ⟨r, d', hrun, -⟩ := hstatus.served o Config.default hargv hserves
  obtain ⟨hexit, hgives⟩ := hstatus.unread o Config.default r d' hargv hrun "a.rs"
    List.mem_cons_self _ hrefused
  exact ⟨hargv, hserves, r, d', hrun, hexit, hgives⟩

/-- A source that is no text gets no report and no status, nor does an output file that is a
directory. -/
theorem run_breaks_off :
    let bad : Disk := { entries := [(["a.rs"], .file 0)], contents := fun _ => ⟨#[0xff]⟩ }
    let good : Disk := {
      entries := [(["a.rs"], .file 0), (["out"], .dir)]
      contents := fun _ => "fn f() {}".toUTF8 }
    run .late bad ["a.rs"] = .error (.notText (.ofString "a.rs")) ∧
      run .late good ["a.rs", "-o", "out"] =
        .error (.unwritable (.ofString "out") .isDirectory) := by
  intro bad good
  have hbroken : ∀ {x : Except Break (Report × Disk)} {b : Break},
      x.map (fun _ => ()) = .error b → x = .error b := by
    rintro (b' | x) b h
    · exact congrArg _ (Except.error.inj h)
    · cases h
  exact ⟨hbroken (by decide +kernel), hbroken (by decide +kernel)⟩

end TraitLift.Cli
