import TraitLift.Config
import TraitLift.Expand.Attr
import TraitLift.Diagnostic

/-!
Finding the blocks that an attribute marks. The scanner works on tokens alone: it looks for runs of
outer attributes, and where one of them is a marking attribute it takes the `impl` item after the
run up to its closing brace. Marks that cannot be followed are reported.
-/

namespace TraitLift

/-- A marked block: the first token of its attributes, the marking attribute, and the brace that
closes it. -/
structure Site where
  first : Token
  mark : OuterAttr
  last : Token
deriving DecidableEq, Repr

/-- Whether a token list starts with the head of an `impl` item. -/
def isImplHead (ts : List Token) : Bool :=
  let ts := if (ts.head?.map fun t => t.is .name && t.text == "default").getD false then ts.drop 1
    else ts
  let ts := if (ts.head?.map (·.is .kwUnsafe)).getD false then ts.drop 1 else ts
  (ts.head?.map (·.is .kwImpl)).getD false

/-- The tokens of an `impl` item up to its closing brace, and the tokens after it. The body is the
first group in braces outside all angle brackets; `angles` of them are open. A semicolon or a
closing brace in front of the body means that there is none. -/
def implItem? (angles : Int) (ts : List Token) : Option (List Token × List Token) :=
  match ts with
  | [] => none
  | t :: rest =>
    if t.is .lt then prepend (implItem? (angles + 1) rest) [t]
    else if t.is .gt then prepend (implItem? (angles - 1) rest) [t]
    else if t.is .lbrace && angles ≤ 0 then group? (t :: rest)
    else if t.kind.closer?.isSome then
      match _h : group? (t :: rest) with
      | some (g, after) => prepend (implItem? angles after) g
      | none => none
    else if t.is .semi || t.is .rbrace then none
    else prepend (implItem? angles rest) [t]
termination_by ts.length
decreasing_by
  all_goals first
    | exact group?_length_lt _h
    | simp only [List.length_cons]; omega
where
  /-- Puts tokens in front of those of an item. -/
  prepend (r : Option (List Token × List Token)) (front : List Token) :
      Option (List Token × List Token) :=
    r.map fun (g, after) => (front ++ g, after)

theorem implItem?.prepend_eq_some {r : Option (List Token × List Token)}
    {front g after : List Token}
    (h : prepend r front = some (g, after)) :
    ∃ g', r = some (g', after) ∧ g = front ++ g' := by
  obtain ⟨⟨g', after'⟩, hr, heq⟩ := Option.map_eq_some_iff.1 h
  obtain ⟨rfl, rfl⟩ := Prod.mk.inj heq
  exact ⟨g', hr, rfl⟩

/-- An item and what follows it are the whole list. -/
theorem implItem?_append {angles : Int} {ts g after : List Token}
    (h : implItem? angles ts = some (g, after)) : g ++ after = ts := by
  fun_induction implItem? angles ts generalizing g after with
  | case1 => simp at h
  | case2 angles t rest _ ih =>
    obtain ⟨g', h', rfl⟩ := implItem?.prepend_eq_some h
    simp [ih h']
  | case3 angles t rest _ _ ih =>
    obtain ⟨g', h', rfl⟩ := implItem?.prepend_eq_some h
    simp [ih h']
  | case4 => exact group?_append h
  | case5 angles t rest _ _ _ _ g₀ after₀ hg ih =>
    obtain ⟨g', h', rfl⟩ := implItem?.prepend_eq_some h
    rw [List.append_assoc, ih h', group?_append hg]
  | case6 => simp at h
  | case7 => simp at h
  | case8 angles t rest _ _ _ _ _ ih =>
    obtain ⟨g', h', rfl⟩ := implItem?.prepend_eq_some h
    simp [ih h']

/-- Why a mark cannot be followed. -/
inductive MarkError where
  | duplicate
  | notOnImpl
  | noBody
deriving DecidableEq, Repr

namespace MarkError

/-- The reason in words. -/
def message : MarkError → String
  | duplicate => "duplicate ext attribute on one item"
  | notOnImpl => "ext attribute must be placed on an `impl` block"
  | noBody => "could not find the body of the ext impl block"

/-- What the reader is told beside the message. -/
def notes : MarkError → List String
  | duplicate => ["keep a single ext attribute"]
  | _ => []

/-- The report on a mark at a place of a file. -/
def toDiagnostic (e : MarkError) (loc : Loc) (file : Option String) : Diagnostic :=
  { message := e.message, code := some "E-EXT-MALFORMED", phase := some "expand",
    span := (Span.ofLoc loc).withFile file, notes := e.notes }

end MarkError

/-- What the scanner comes upon. -/
inductive Finding where
  | site (s : Site)
  | problem (e : MarkError) (loc : Loc)
deriving DecidableEq, Repr

namespace Finding

/-- The marked block, if it is one. -/
def site? : Finding → Option Site
  | site s => some s
  | problem .. => none

/-- The report, if there is something to report. -/
def diagnostic? (file : Option String) : Finding → Option Diagnostic
  | site _ => none
  | problem e loc => some (e.toDiagnostic loc file)

end Finding

/-- Whether an attribute is one of the marking ones. -/
def OuterAttr.isMark (c : Config) (a : OuterAttr) : Bool :=
  (a.path.map c.attributes.contains).getD false

/-- What the scanner makes of the attributes `run` and the tokens `ts` after them: what it comes
upon, and the tokens from which it goes on. -/
def inspect (c : Config) (run : List OuterAttr) (ts : List Token) :
    Option Finding × List Token :=
  match run.head?, run.filter (·.isMark c) with
  | some first, [mark] =>
    if isImplHead ts then
      match implItem? 0 ts with
      | some (item, after) =>
        (some (.site ⟨first.first, mark, item.getLast?.getD first.first⟩), after)
      | none => (ts.head?.map fun t => .problem .noBody t.loc, ts.drop 1)
    else (some (.problem .notOnImpl mark.first.loc), ts)
  | some _, _ :: second :: _ => (some (.problem .duplicate second.first.loc), ts)
  | _, _ => (none, ts)

theorem inspect_length_le (c : Config) (run : List OuterAttr) (ts : List Token) :
    (inspect c run ts).2.length ≤ ts.length := by
  fun_cases inspect c run ts with
  | case1 first _ mark _ _ item after hitem =>
    have := congrArg List.length (implItem?_append hitem)
    simp only [List.length_append] at this
    show after.length ≤ ts.length
    omega
  | case2 => simp
  | case3 => simp
  | case4 => simp
  | case5 => simp

/-- Everything the scanner comes upon in a token list, in order. -/
def findings (source : List Char) (c : Config) (ts : List Token) : List Finding :=
  match ts with
  | [] => []
  | t :: rest =>
    match _h : outerAttr? source (t :: rest) with
    | none => findings source c rest
    | some (a, after) =>
      let run := attrRun source after
      let seen := inspect c (a :: run.1) run.2
      seen.1.toList ++ findings source c seen.2
termination_by ts.length
decreasing_by
  · simp
  · have hattr := outerAttr?_length_lt _h
    have hrun := attrRun_length_le source after
    have hseen := inspect_length_le c (a :: (attrRun source after).1) (attrRun source after).2
    omega

end TraitLift
