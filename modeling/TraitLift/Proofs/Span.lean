import Mathlib.Tactic
import TraitLift.Span
import TraitLift.Proofs.Token.Place

/-!
Spans of a fragment in the text around it. The range of a fragment that lies between two offsets has a
span in the fragment (`Span.ofRange`) and one in the text, and `Span.shifted` should lead from the first to
the second. It does for both lines and for the column of the start. The column of the end is never moved,
so it is right only if the fragment starts a line or the range ends on a later line of it
(`Span.shifted_rebases`). Where a fragment has a fragment in turn, moving twice is moving once.
-/

namespace TraitLift

namespace Span

/-- The span from one place to another. -/
def ofLocs (file : Option String) (start stop : Loc) : Span :=
  { file, line := some start.line, column := some start.column, endLine := some stop.line,
    endColumn := some stop.column }

/-- The span of a range of a text, from one offset to another. -/
def ofRange (file : Option String) (text : List Char) (a b : Nat) : Span :=
  ofLocs file (Loc.ofOffset text a) (Loc.ofOffset text b)

end Span

namespace Loc

theorem counted_ofOffset (text : List Char) (k : Nat) : (ofOffset text k).Counted :=
  ⟨Nat.le_add_right .., Nat.le_add_right ..⟩

theorem locate_line (base l : Loc) : (base.locate l).line = base.line + (l.line - 1) := by
  unfold locate
  split
  · next hfirst => rw [hfirst]; rfl
  · rfl

theorem locate_column (base l : Loc) :
    (base.locate l).column = if l.line = 1 then base.column + (l.column - 1) else l.column := by
  unfold locate
  split <;> rfl

/-- A column stays as it is behind the first line, and everywhere if the fragment starts a line. -/
theorem locate_column_eq_iff {base l : Loc} (hbase : base.Counted) (hl : l.Counted) :
    (base.locate l).column = l.column ↔ base.column = 1 ∨ l.line ≠ 1 := by
  have hcolumns := And.intro hbase.2 hl.2
  rw [locate_column]
  split <;> omega

theorem ofOffset_line_ne_one_iff {text : List Char} {k : Nat} :
    (ofOffset text k).line ≠ 1 ↔ '\n' ∈ text.take k := by
  rw [← List.count_pos_iff]
  simp only [ofOffset]
  omega

end Loc

namespace Span

/-- Where `shifted` puts a span of a fragment: its end keeps the column that it has in the fragment. -/
theorem shifted_ofLocs (file : Option String) (base : Loc) {l l' : Loc} (h : l.Counted) (h' : l'.Counted) :
    (ofLocs file l l').shifted (base.line - 1) (base.column - 1) =
      { ofLocs file (base.locate l) (base.locate l') with endColumn := some l'.column } := by
  have hlines : ∀ {m : Loc}, m.Counted →
      (m.line : Int) + (base.line - 1) = ((base.locate m).line : Int) := by
    intro m hm
    have := hm.1
    rw [Loc.locate_line base m]
    omega
  have hcolumn : (if (l.line : Int) = 1 then some ((l.column : Int) + (base.column - 1))
      else some (l.column : Int)) = some ((base.locate l).column : Int) := by
    have := h.2
    rw [Loc.locate_column, ← apply_ite, Option.some.injEq]
    split_ifs <;> omega
  simp only [shifted, ofLocs, Option.map_some, hlines h, hlines h', hcolumn]

/-- Moving a span from a fragment of a fragment is moving it from the place that the inner one has in the
text. -/
theorem shifted_shifted (outer : Loc) {inner : Loc} (hinner : inner.Counted) {s : Span}
    (hs : ∀ l ∈ s.line, 1 ≤ l) :
    (s.shifted (inner.line - 1) (inner.column - 1)).shifted (outer.line - 1) (outer.column - 1) =
      s.shifted ((outer.locate inner).line - 1) ((outer.locate inner).column - 1) := by
  obtain ⟨file, line, column, endLine, endColumn⟩ := s
  cases line with
  | none => rfl
  | some l =>
    have hl : 1 ≤ l := hs l rfl
    obtain ⟨hline, hcolumn⟩ := hinner
    have hlines : ∀ n : Int, n + (inner.line - 1) + (outer.line - 1) =
        n + ((outer.locate inner).line - 1) := by
      intro n
      rw [Loc.locate_line]
      omega
    have hend : (endLine.map (· + ((inner.line : Int) - 1))).map (· + ((outer.line : Int) - 1)) =
        endLine.map (· + (((outer.locate inner).line : Int) - 1)) := by
      rw [Option.map_map]
      exact congrArg (Option.map · endLine) (funext hlines)
    -- the start is on the first line of the outer fragment if it is on the first line of the inner one
    -- and that starts on the first line of the outer one
    have hstart : (if l + (inner.line - 1) = 1
        then (if l = 1 then column.map (· + ((inner.column : Int) - 1)) else column).map
          (· + ((outer.column : Int) - 1))
        else if l = 1 then column.map (· + ((inner.column : Int) - 1)) else column) =
        if l = 1 then column.map (· + (((outer.locate inner).column : Int) - 1)) else column := by
      cases column with
      | none => simp
      | some c =>
        rw [Loc.locate_column]
        split_ifs <;> simp only [Option.map_some, Option.some.injEq] <;> omega
    simp only [shifted, hlines, hend, hstart]

/-- A span of a fragment is moved to the text by the place where the fragment starts. The moved span is
the one of the same range of the text but for the column of its end, which stays what it is in the
fragment; so it is right if the fragment starts a line or a line ends within the fragment before the range
does. And to move a span out of a fragment of the fragment takes one step, by the place where that one
starts in the text. -/
theorem shifted_rebases (file : Option String) (front fragment back : List Char) :
    let text := front ++ (fragment ++ back)
    let base := Loc.ofOffset text front.length
    (∀ a b, a ≤ b → b ≤ fragment.length →
      let part := ofRange file fragment a b
      let whole := ofRange file text (front.length + a) (front.length + b)
      part.shifted (base.line - 1) (base.column - 1) = { whole with endColumn := part.endColumn } ∧
      (part.shifted (base.line - 1) (base.column - 1) = whole ↔
        base.column = 1 ∨ '\n' ∈ fragment.take b)) ∧
    ∀ k ≤ fragment.length,
      let inner := Loc.ofOffset fragment k
      let here := Loc.ofOffset text (front.length + k)
      ∀ s : Span, (∀ l ∈ s.line, 1 ≤ l) →
        (s.shifted (inner.line - 1) (inner.column - 1)).shifted (base.line - 1) (base.column - 1) =
          s.shifted (here.line - 1) (here.column - 1) := by
  intro text base
  have hplace : ∀ k ≤ fragment.length, Loc.ofOffset text (front.length + k) =
      base.locate (Loc.ofOffset fragment k) := fun k hk => Loc.ofOffset_append front fragment back hk
  refine ⟨fun a b hab hb => ?_, fun k hk s hs => ?_⟩
  · have hend := Loc.counted_ofOffset fragment b
    have hshifted := shifted_ofLocs file base (Loc.counted_ofOffset fragment a) hend
    rw [← hplace a (hab.trans hb), ← hplace b hb] at hshifted
    refine ⟨hshifted, ?_⟩
    have hcolumn := Loc.locate_column_eq_iff (Loc.counted_ofOffset text front.length) hend
    rw [← hplace b hb, Loc.ofOffset_line_ne_one_iff] at hcolumn
    rw [← hcolumn, ofRange, hshifted]
    simp only [ofRange, ofLocs, mk.injEq, true_and, Option.some.injEq, Nat.cast_inj]
    exact eq_comm
  · simp only [hplace k hk]
    exact shifted_shifted base (Loc.counted_ofOffset fragment k) hs

/-- A range over a line end within an indented fragment, and a fragment of that one. -/
theorem shifted_rebases_lines :
    let text := "a\n  b c\nd e".toList
    ((ofRange none "b c\nd e".toList 2 5).shifted 1 2 = ofRange none text 6 9) ∧
    ((ofRange none "e".toList 0 1).shifted 1 2).shifted 1 2 = (ofRange none "e".toList 0 1).shifted 2 2 := by
  have hrebases := shifted_rebases none "a\n  ".toList "b c\nd e".toList []
  exact ⟨((hrebases.1 2 5 (by decide) (by decide)).2).2 (by decide),
    hrebases.2 6 (by decide) (ofRange none "e".toList 0 1) (by decide)⟩

/-- The end of a range on the first line of an indented fragment is not moved. -/
theorem shifted_leaves_endColumn :
    let base := Loc.ofOffset " a".toList 1
    (ofRange none "a".toList 0 1).shifted (base.line - 1) (base.column - 1) ≠
      ofRange none " a".toList 1 2 := by
  decide

end Span

end TraitLift
