import TraitLift.Expand.Group

/-!
Outer attributes in a token list. Of an attribute the scanner needs its tokens, its path, if it is
no more than a path with perhaps one group of arguments, and the text of those arguments.
-/

namespace TraitLift

/-- The arguments of an attribute: their text and the bracket that opens them. -/
structure AttrArgs where
  text : String
  opener : Token
deriving DecidableEq, Repr

/-- An outer attribute or doc comment in front of an item: its tokens from the first to the last,
its path, if it has the form of a path and arguments, and the arguments, where given. -/
structure OuterAttr where
  first : Token
  last : Token
  path : Option String := none
  args : Option AttrArgs := none
deriving DecidableEq, Repr

/-- Whether a token can be part of an attribute's path. -/
def isPathToken (t : Token) : Bool := t.is .name || t.is .dcolon

/-- The path and arguments of an attribute with the tokens `inner` between its brackets. -/
def attrContent (source : List Char) (inner : List Token) : Option String × Option AttrArgs :=
  let path := String.join ((inner.takeWhile isPathToken).map Token.text)
  match inner.dropWhile isPathToken with
  | [] => (some path, none)
  | opener :: rest =>
    match opener.is .lpar, group? (opener :: rest) with
    | true, some (g, []) =>
      let stop := (g.getLast?.map Token.start).getD opener.stop
      let text := String.ofList ((source.drop opener.stop).take (stop - opener.stop))
      (some path, some ⟨text, opener⟩)
    | _, _ => (none, none)

/-- The attribute that a token list starts with, and the tokens after it. -/
def outerAttr? (source : List Char) : List Token → Option (OuterAttr × List Token)
  | [] => none
  | t :: ts =>
    if t.is .outerDoc || t.is .outerBlockDoc then some (⟨t, t, none, none⟩, ts)
    else
      match t.is .pound, ts.head?.map Token.kind with
      | true, some .lsqb =>
        match group? ts with
        | some (g, rest) =>
          let (path, args) := attrContent source (g.drop 1).dropLast
          some (⟨t, g.getLast?.getD t, path, args⟩, rest)
        | none => none
      | _, _ => none

theorem outerAttr?_length_lt {source : List Char} {ts rest : List Token} {a : OuterAttr}
    (h : outerAttr? source ts = some (a, rest)) : rest.length < ts.length := by
  fun_cases outerAttr? source ts with
  | case1 => simp [outerAttr?] at h
  | case2 t ts hdoc =>
    simp only [outerAttr?, hdoc, if_true] at h
    obtain ⟨-, rfl⟩ := Prod.mk.inj (Option.some.inj h)
    simp
  | case3 t ts hdoc hbracket hpound g rest' hg path args hcontent =>
    simp only [outerAttr?, hdoc, hbracket, hpound, hg, Bool.false_eq_true, if_false] at h
    obtain ⟨-, rfl⟩ := Prod.mk.inj (Option.some.inj h)
    have := group?_length_lt hg
    simp only [List.length_cons]
    omega
  | case4 t ts hdoc hbracket hpound hg => simp [outerAttr?, hdoc, hbracket, hpound, hg] at h
  | case5 t ts hdoc hother => simp_all [outerAttr?]

/-- The attributes that a token list starts with, and the tokens after the last of them. -/
def attrRun (source : List Char) (ts : List Token) : List OuterAttr × List Token :=
  match _h : outerAttr? source ts with
  | none => ([], ts)
  | some (a, rest) =>
    let (as, rest') := attrRun source rest
    (a :: as, rest')
termination_by ts.length
decreasing_by exact outerAttr?_length_lt _h

theorem attrRun_length_le (source : List Char) (ts : List Token) :
    (attrRun source ts).2.length ≤ ts.length := by
  fun_induction attrRun source ts with
  | case1 => simp
  | case2 ts a rest h as rest' hrun ih =>
    have := outerAttr?_length_lt h
    simp only [hrun] at ih ⊢
    omega

end TraitLift
