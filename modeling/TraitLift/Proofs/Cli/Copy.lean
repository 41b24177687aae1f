import Mathlib.Tactic
import TraitLift.Proofs.Cli.Outcome
import TraitLift.Proofs.Expand.Collision
import TraitLift.Proofs.Expand.Markless

/-!
What the output file holds, byte by byte (`run_patches`). A file without carriage returns is copied, with
nothing but the bytes of the lifted blocks replaced (`patch`): reading it, cutting it into tokens,
replacing blocks and writing the new text all leave the other bytes alone. A carriage return is
another matter, since reading a file turns every line end into a line feed
(`run_drops_carriageReturn`).
-/

namespace TraitLift

/-! ### Texts as bytes -/

/-- The bytes of a text. -/
def encode (cs : List Char) : List UInt8 := cs.flatMap String.utf8EncodeChar

/-- The number of bytes in front of the character at `n`. -/
def byteOffset (cs : List Char) (n : Nat) : Nat := (encode (cs.take n)).length

@[simp] theorem encode_nil : encode [] = [] := rfl

@[simp] theorem encode_append (cs cs' : List Char) : encode (cs ++ cs') = encode cs ++ encode cs' :=
  List.flatMap_append ..

theorem encode_drop (cs : List Char) (n : Nat) :
    encode (cs.drop n) = (encode cs).drop (byteOffset cs n) := by
  conv_rhs => rw [← List.take_append_drop n cs, encode_append]
  exact (List.drop_left' (by rw [byteOffset, List.take_append_drop])).symm

theorem byteOffset_mono (cs : List Char) {m n : Nat} (h : m ≤ n) :
    byteOffset cs m ≤ byteOffset cs n := by
  obtain ⟨k, rfl⟩ := Nat.exists_eq_add_of_le h
  rw [byteOffset, byteOffset, List.take_add, encode_append, List.length_append]
  exact Nat.le_add_right _ _

theorem byteOffset_le (cs : List Char) (n : Nat) : byteOffset cs n ≤ (encode cs).length := by
  conv_rhs => rw [← List.take_append_drop n cs, encode_append, List.length_append]
  exact Nat.le_add_right _ _

theorem encode_between (cs : List Char) {m n : Nat} (h : m ≤ n) : encode (between cs m n) =
    ((encode cs).drop (byteOffset cs m)).take (byteOffset cs n - byteOffset cs m) := by
  have hlength : byteOffset cs n - byteOffset cs m = (encode (between cs m n)).length := by
    have hsplit : cs.take n = cs.take m ++ between cs m n := by
      obtain ⟨k, rfl⟩ := Nat.exists_eq_add_of_le h
      rw [between, Nat.add_sub_cancel_left, List.take_add]
    rw [byteOffset, byteOffset, hsplit, encode_append, List.length_append, Nat.add_sub_cancel_left]
  rw [← encode_drop, ← between_append_drop h, encode_append, hlength, List.take_left]

theorem toUTF8_eq (s : String) : s.toUTF8 = (encode s.toList).toByteArray := by
  conv_lhs => rw [← String.ofList_toList (s := s)]
  exact String.toByteArray_ofList

theorem toUTF8_of_fromUTF8? {bytes : ByteArray} {text : String}
    (h : String.fromUTF8? bytes = some text) : text.toUTF8 = bytes := by
  unfold String.fromUTF8? at h
  split at h
  · rw [← Option.some.inj h]
    rfl
  · simp at h

/-- The bytes that a text was made of. -/
theorem encode_of_fromUTF8? {bytes : ByteArray} {text : String}
    (h : String.fromUTF8? bytes = some text) : encode text.toList = bytes.data.toList := by
  rw [← toUTF8_of_fromUTF8? h, toUTF8_eq, List.data_toByteArray, List.toList_toArray]

/-! ### Replacing ranges of bytes -/

/-- A range of bytes, and the bytes that come in its place. -/
structure Edit where
  start : Nat
  stop : Nat
  replacement : List UInt8
deriving DecidableEq, Repr

/-- The bytes from `cursor` on with the ranges of some edits replaced. -/
def patch (bytes : List UInt8) (cursor : Nat) : List Edit → List UInt8
  | [] => bytes.drop cursor
  | e :: es => (bytes.drop cursor).take (e.start - cursor) ++ e.replacement ++ patch bytes e.stop es

/-- The ranges stand between two places, each after the one before it. -/
def EditsInOrder (lo hi : Nat) : List Edit → Prop
  | [] => lo ≤ hi
  | e :: es => lo ≤ e.start ∧ e.start ≤ e.stop ∧ EditsInOrder e.stop hi es

/-- The range of the bytes of a lifted block, and the bytes of what was made of it. -/
def Made.edit (source : List Char) (m : Made) : Edit :=
  ⟨byteOffset source m.site.first.start, byteOffset source m.site.last.stop, encode m.text.toList⟩

theorem SitesInOrder.lifted {source : List Char} {file : Option String} {c : Config} {hi : Nat} :
    ∀ {lo : Nat} {ss : List Site}, SitesInOrder lo hi ss →
      SitesInOrder lo hi ((madeOf source file c ss).map Made.site)
  | _, [], _ => trivial
  | lo, s :: ss, h => by
    have ih : SitesInOrder s.last.stop hi ((madeOf source file c ss).map Made.site) := h.2.lifted
    cases hs : s.expand source file c with
    | ok made =>
      have hmade : madeOf source file c (s :: ss) = ⟨s, made.1, made.2⟩ :: madeOf source file c ss := by
        simp [madeOf, hs, Except.toOption]
      rw [hmade, List.map_cons]
      exact ⟨h.1, ih⟩
    | error d =>
      have hmade : madeOf source file c (s :: ss) = madeOf source file c ss := by
        simp [madeOf, hs, Except.toOption]
      have hle : lo ≤ s.last.stop := by
        have := h.1.lo_le
        have := h.1.start_le
        have := h.1.mark_lt
        have := h.1.mark_le
        omega
      rw [hmade]
      exact ih.weaken hle

/-- The bytes of a text with its lifted blocks replaced. -/
theorem encode_splice (source : List Char) : ∀ {cursor : Nat} {ms : List Made},
    SitesInOrder cursor source.length (ms.map Made.site) →
      encode (splice source cursor ms) =
          patch (encode source) (byteOffset source cursor) (ms.map (Made.edit source)) ∧
        EditsInOrder (byteOffset source cursor) (encode source).length
          (ms.map (Made.edit source))
  | cursor, [], _ => ⟨encode_drop source cursor, byteOffset_le source cursor⟩
  | cursor, m :: ms, h => by
    obtain ⟨hbytes, horder⟩ := encode_splice source h.2
    have hsite : m.site.first.start ≤ m.site.last.stop := by
      have := h.1.start_le
      have := h.1.mark_lt
      have := h.1.mark_le
      omega
    refine ⟨?_, byteOffset_mono source h.1.lo_le, byteOffset_mono source hsite, horder⟩
    rw [splice, encode_append, encode_append, encode_between source h.1.lo_le, hbytes]
    rfl

/-- The lifted blocks of a text stand in order. -/
theorem liftedIn_inOrder (source : String) (file : Option String) (c : Config) :
    SitesInOrder 0 source.toList.length ((liftedIn source file c).map Made.site) := by
  unfold liftedIn
  cases hlex : lex source with
  | error f => trivial
  | ok ts =>
    have hscan := scan_inOrder source.toList
    rw [lex_eq_ok_iff.1 hlex] at hscan
    exact (findings_inOrder source.toList c hscan).1.lifted

/-- The bytes of the new text are those of the old one with the lifted blocks replaced. -/
theorem encode_expandSource (source : String) (file : Option String) (c : Config) :
    encode (expandSource source file c).text.toList =
        patch (encode source.toList) 0 ((liftedIn source file c).map (Made.edit source.toList)) ∧
      EditsInOrder 0 (encode source.toList).length
        ((liftedIn source file c).map (Made.edit source.toList)) := by
  have hsplice := encode_splice source.toList (liftedIn_inOrder source file c)
  rwa [← text_expandSource_lifted] at hsplice

/-- A text without a mark stays as it is, and nothing is reported. -/
theorem expandSource_of_markless {source : String} {ts : List Token} (file : Option String)
    {c : Config} (hlex : lex source = .ok ts) (h : Markless source.toList c ts) :
    expandSource source file c = ⟨source, [], []⟩ := by
  simp [expandSource, hlex, h.findings_eq_nil, splice, collisions]

namespace Cli

variable {v : Edition} {d d' : Disk} {c : Config} {o : Options} {src out : String} {text : String}
  {bytes : ByteArray}

theorem unifyLines_eq_self : ∀ {cs : List Char}, '\r' ∉ cs → unifyLines cs = cs
  | [], _ => rfl
  | c :: cs, h => by
    obtain ⟨hc, hcs⟩ := not_or.1 (mt List.mem_cons.2 h)
    rw [unifyLines, unifyLines_eq_self hcs]
    · rintro rest rfl -
      exact hc rfl
    · rintro rfl
      exact hc rfl

theorem decode_of_no_return (htext : String.fromUTF8? bytes = some text)
    (hlines : '\r' ∉ text.toList) : decode bytes = some text := by
  simp [decode, htext, unifyLines_eq_self hlines]

/-- What becomes of a source with the bytes `bytes`, which are those of `text`, and of the output
file. -/
structure Patched (v : Edition) (d : Disk) (argv : List String) (c : Config) (file : Option String)
    (text : String) (bytes : ByteArray) (out : DiskPath) : Prop where
  /-- If the source is expanded without an error, the output file has its bytes, with those of each
  lifted block replaced by the bytes of what was made of it. -/
  expanded : (expandSource text file c).isOk = true →
    EditsInOrder 0 bytes.size ((liftedIn text file c).map (Made.edit text.toList)) ∧
      ∃ r d', run v d argv = .ok (r, d') ∧ r.exit = 0 ∧ d.Stored d' out
        (patch bytes.data.toList 0
          ((liftedIn text file c).map (Made.edit text.toList))).toByteArray
  /-- If the source has tokens and no mark among them, the output file has its bytes. -/
  copied : ∀ ts, lex text = .ok ts → Markless text.toList c ts →
    ∃ r d', run v d argv = .ok (r, d') ∧ r.exit = 0 ∧ d.Stored d' out bytes

/-- A source that is expanded without an error has its new text in the output file. -/
theorem run_stores (hargv : prepare v argv = .ok (o, c)) (hserves : d.Serves o)
    (hsources : o.sources = [src]) (hout : o.output = some out)
    (hread : d.read (.ofString src) = .ok bytes) (htext : decode bytes = some text)
    (hok : (expandSource text (some (DiskPath.ofString src).text) c).isOk = true) :
    ∃ r d', run v d argv = .ok (r, d') ∧ r.exit = 0 ∧ d.Stored d' (.ofString out)
      (expandSource text (some (DiskPath.ofString src).text) c).text.toUTF8 := by
  obtain ⟨es, log, r, d', hyields, -, hr, hrun, -, hstored⟩ := run_served d hargv hserves
  rw [hsources] at hyields
  obtain ⟨e, hyield, rfl⟩ : ∃ e, d.Yields c src e ∧ es = [e] := by
    cases hyields with
    | cons hyield htail =>
      cases htail
      exact ⟨_, hyield, rfl⟩
  obtain rfl : e = expandSource text (some (DiskPath.ofString src).text) c := by
    cases hyield with
    | unread h => simp [hread] at h
    | @read bytes' text' h h' =>
      obtain rfl : bytes = bytes' := by simpa [hread] using h
      obtain rfl : text = text' := by simpa [htext] using h'
      rfl
  have hgood : (o.results [expandSource text (some (DiskPath.ofString src).text) c]).failed =
      false := by
    rw [Bool.eq_false_iff, Ne, Results.failed_iff, Options.results, hsources]
    simpa [Expanded.isOk] using hok
  obtain ⟨s, e, -, he, hstored⟩ := hstored out hgood hout
  obtain rfl := (List.cons.inj he).1
  exact ⟨r, d', hrun, by simp [hr, Results.report, Results.exitCode, hgood], hstored⟩

/-- A file without carriage returns is copied byte by byte, but for the blocks that are lifted. -/
theorem run_patches (hargv : prepare v argv = .ok (o, c)) (hserves : d.Serves o)
    (hsources : o.sources = [src]) (hout : o.output = some out)
    (hread : d.read (.ofString src) = .ok bytes) (htext : String.fromUTF8? bytes = some text)
    (hlines : '\r' ∉ text.toList) :
    Patched v d argv c (some (DiskPath.ofString src).text) text bytes (.ofString out) := by
  have hbytes := encode_of_fromUTF8? htext
  have hrun := run_stores hargv hserves hsources hout hread
    (decode_of_no_return htext hlines)
  obtain ⟨hpatch, horder⟩ :=
    encode_expandSource text (some (DiskPath.ofString src).text) c
  rw [hbytes] at hpatch horder
  constructor
  · intro hok
    refine ⟨horder, ?_⟩
    rw [← hpatch, ← toUTF8_eq]
    exact hrun hok
  · intro ts hlex hmarkless
    have hsame := expandSource_of_markless (some (DiskPath.ofString src).text) hlex hmarkless
    rw [hsame, toUTF8_of_fromUTF8? htext] at hrun
    exact hrun rfl

/-- A block behind a letter of two bytes. -/
theorem run_patches_lifted :
    let d : Disk := {
      entries := [(["a.rs"], .file 0)]
      contents := fun _ => "é #[ext(B)] impl A {}".toUTF8 }
    '\r' ∉ "é #[ext(B)] impl A {}".toList ∧
      Patched .late d ["a.rs", "-o", "out.rs"] Config.default (some "a.rs") "é #[ext(B)] impl A {}"
        "é #[ext(B)] impl A {}".toUTF8 (.ofString "out.rs") ∧
      (expandSource "é #[ext(B)] impl A {}" (some "a.rs") Config.default).isOk = true ∧
      (liftedIn "é #[ext(B)] impl A {}" (some "a.rs") Config.default).map
        (Made.edit "é #[ext(B)] impl A {}".toList) =
          [⟨3, 22, "trait B {}\nimpl B for A {}".toUTF8.data.toList⟩] := by
  intro d
  have hargv : prepare .late ["a.rs", "-o", "out.rs"] =
      .ok ({ sources := ["a.rs"], output := some "out.rs" }, Config.default) :=
    prepare_eq_ok_iff.2 ⟨by decide +kernel, rfl⟩
  have hlines : '\r' ∉ "é #[ext(B)] impl A {}".toList := by decide +kernel
  have htext : String.fromUTF8? "é #[ext(B)] impl A {}".toUTF8 = some "é #[ext(B)] impl A {}" := by
    decide +kernel
  have hserves : d.Serves { sources := ["a.rs"], output := some "out.rs" } :=
    d.serves_of_read rfl rfl (by decide +kernel) rfl (decode_of_no_return htext hlines) (by decide +kernel)
      fun bytes => ⟨_, rfl⟩
  refine ⟨hlines, run_patches hargv hserves rfl rfl rfl htext hlines, ?_⟩
  decide +kernel

/-- The carriage return of a file without a mark is lost. -/
theorem run_drops_carriageReturn :
    let d : Disk := {
      entries := [(["a.rs"], .file 0)]
      contents := fun _ => "fn f() {}\r\n".toUTF8 }
    String.fromUTF8? "fn f() {}\r\n".toUTF8 = some "fn f() {}\r\n" ∧
      (lex "fn f() {}\r\n").map (List.map Token.kind) =
        .ok [.kwFn, .name, .lpar, .rpar, .lbrace, .rbrace] ∧
      ∃ r d', run .late d ["a.rs", "-o", "out.rs"] = .ok (r, d') ∧ r.exit = 0 ∧
        d'.read (.ofString "out.rs") = .ok "fn f() {}\n".toUTF8 ∧
        "fn f() {}\n".toUTF8 ≠ "fn f() {}\r\n".toUTF8 := by
  intro d
  have hargv : prepare .late ["a.rs", "-o", "out.rs"] =
      .ok ({ sources := ["a.rs"], output := some "out.rs" }, Config.default) :=
    prepare_eq_ok_iff.2 ⟨by decide +kernel, rfl⟩
  have htext : decode "fn f() {}\r\n".toUTF8 = some "fn f() {}\n" := by decide +kernel
  have hserves : d.Serves { sources := ["a.rs"], output := some "out.rs" } :=
    d.serves_of_read rfl rfl (by decide +kernel) rfl htext (by decide +kernel) fun bytes => ⟨_, rfl⟩
  obtain ⟨r, d', hrun, hexit, hstored⟩ := run_stores hargv hserves rfl rfl
    rfl htext (by decide +kernel)
  have hsame : (expandSource "fn f() {}\n" (some (DiskPath.ofString "a.rs").text)
      Config.default).text = "fn f() {}\n" := by decide +kernel
  rw [hsame] at hstored
  exact ⟨by decide +kernel, by decide +kernel, r, d', hrun, hexit, hstored.read fun _ => rfl,
    by decide +kernel⟩

end Cli

end TraitLift
