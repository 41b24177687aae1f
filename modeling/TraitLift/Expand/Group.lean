import TraitLift.Token

/-!
Bracketed groups in a token list. `group?` takes a group off the front: the tokens up to the bracket
that closes the first one, provided that every bracket in between is closed by its own kind.
-/

namespace TraitLift

/-- Takes tokens off the front until every bracket of `closers`, the innermost first, is closed. -/
def closeGroup (closers : List Kind) : List Token → Option (List Token × List Token)
  | [] => none
  | t :: ts =>
    match t.kind.closer? with
    | some c => (closeGroup (c :: closers) ts).map fun (g, rest) => (t :: g, rest)
    | none =>
      if t.kind.isCloser then
        match closers with
        | [] => none
        | c :: outer =>
          if c ≠ t.kind then none
          else if outer.isEmpty then some ([t], ts)
          else (closeGroup outer ts).map fun (g, rest) => (t :: g, rest)
      else (closeGroup closers ts).map fun (g, rest) => (t :: g, rest)

/-- The group that a token list starts with, and the tokens after it. -/
def group? (ts : List Token) : Option (List Token × List Token) := closeGroup [] ts

theorem closeGroup_append {closers : List Kind} {ts g rest : List Token}
    (h : closeGroup closers ts = some (g, rest)) : g ++ rest = ts ∧ g ≠ [] := by
  fun_induction closeGroup closers ts generalizing g rest with
  | case1 => simp at h
  | case2 closers t ts c hc ih =>
    obtain ⟨⟨g', rest'⟩, h', heq⟩ := Option.map_eq_some_iff.1 h
    obtain ⟨rfl, rfl⟩ := Prod.mk.inj heq
    simp [(ih h').1]
  | case3 => simp at h
  | case4 => simp at h
  | case5 => obtain ⟨rfl, rfl⟩ := Prod.mk.inj (Option.some.inj h); simp
  | case6 t ts hc hcl c outer hk ho ih =>
    obtain ⟨⟨g', rest'⟩, h', heq⟩ := Option.map_eq_some_iff.1 h
    obtain ⟨rfl, rfl⟩ := Prod.mk.inj heq
    simp [(ih h').1]
  | case7 closers t ts hc hcl ih =>
    obtain ⟨⟨g', rest'⟩, h', heq⟩ := Option.map_eq_some_iff.1 h
    obtain ⟨rfl, rfl⟩ := Prod.mk.inj heq
    simp [(ih h').1]

/-- A group and what follows it are the whole list. -/
theorem group?_append {ts g rest : List Token} (h : group? ts = some (g, rest)) : g ++ rest = ts :=
  (closeGroup_append h).1

/-- A group has at least one token. -/
theorem group?_length_lt {ts g rest : List Token} (h : group? ts = some (g, rest)) :
    rest.length < ts.length := by
  obtain ⟨happ, hne⟩ := closeGroup_append h
  have := List.length_pos_iff.2 hne
  rw [← happ, List.length_append]
  omega

end TraitLift
