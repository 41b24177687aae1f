import TraitLift.Reading.Type

/-!
The meaning of members and blocks. A member without what a block must give it (a body, a value, a
definition) is kept as it is written.
-/

namespace TraitLift.Reading

/-- The marker in front of a block or a member: it must be `default`. -/
def defaultness (ps : Parts) : Except Fault Bool :=
  match (Parts.pick (fun | .marker t => some t | _ => none) ps).head? with
  | none => .ok false
  | some t => if t.text = "default" then .ok true else .error (.strayName t.text t.loc)

/-- The visibility that is written, as its parts tell. -/
def visibility (ps : Parts) : Visibility :=
  if Parts.has .kwCrate ps then .crate
  else
    match (Parts.pick (fun | .scope s => some s | _ => none) ps).head? with
    | some s => .restricted s
    | none => .pub

/-- The scope of a restricted visibility. -/
def scope (source : List Char) (ps : Parts) : String :=
  if Parts.has .kwIn ps then "in " ++ Parts.text source (Parts.plain ps)
  else Parts.text source ps

/-- The parts of a parameter that make up its pattern: those that are neither attributes nor the
colon and the type. -/
def patternParts (ps : Parts) : Parts :=
  ps.filter fun p => match p.meaning with
    | .token t => !t.is .colon
    | .plain => true
    | _ => false

/-- What lies between `&` and `self` in a receiver: a lifetime, `mut`, both or nothing. -/
def refReceiver? : List Token → Option (Option String × Bool)
  | [] => some (none, false)
  | [t] => if t.is .kwMut then some (none, true) else if t.is .lifetime then some (t.text, false)
    else none
  | [t, u] => if t.is .lifetime && u.is .kwMut then some (t.text, true) else none
  | _ => none

/-- The receiver that the tokens of a pattern spell, if they spell one: whether it is a reference,
its lifetime, and whether it is mutable. -/
def receiver? : List Token → Option (Bool × Option String × Bool)
  | [] => none
  | t :: ts =>
    if t.is .amp then
      match ts.getLast? with
      | some last =>
        if last.is .kwSelf then (refReceiver? ts.dropLast).map (true, ·) else none
      | none => none
    else if t.is .kwSelf && ts.isEmpty then some (false, none, false)
    else if t.is .kwMut && (ts.map Token.kind) == [.kwSelf] then some (false, none, true)
    else none

/-- A parameter of a function. A receiver is told by its tokens; any other pattern needs a type,
unless it is the lone `...`. -/
def fnArg (source : List Char) (ps : Parts) : Except Fault FnArg :=
  let attrs := Parts.attrs ps
  let pattern := patternParts ps
  match receiver? (Parts.tokens pattern), Parts.type? ps with
  | some (true, _, _), some _ => .error (.typedReceiver (Parts.loc ps))
  | some (reference, lifetime, mutable), ty => .ok (.receiver reference lifetime mutable ty attrs)
  | none, some ty => .ok (.typed (Parts.text source pattern) ty attrs)
  | none, none =>
    if (Parts.tokens pattern).map Token.kind = [.ellipsis] then .ok (.variadic none attrs)
    else .error (.untypedParam (Parts.text source pattern) (Parts.loc ps))

/-- The head of a function. -/
def signature (ps : Parts) : Except Fault Signature := do
  let inputs ← (Parts.pick (fun | .fnArg a => some a | _ => none) ps).mapM id
  return {
    name := Parts.name ps, generics := Parts.generics ps, inputs, output := Parts.type? ps,
    constness := Parts.has .kwConst ps, asyncness := Parts.has .kwAsync ps,
    unsafety := Parts.has .kwUnsafe ps, abi := Parts.abi? ps }

/-- A member kept as it is written. -/
def verbatim (source : List Char) (ps : Parts) : Member :=
  .verbatim (Parts.text source ps) (some (Parts.loc ps))

/-- A function; without a body its parameters are not looked at. -/
def methodMember (source : List Char) (ps : Parts) : Except Fault Member := do
  let isDefault ← defaultness ps
  match (Parts.pick (fun | .function s b => some (s, b) | _ => none) ps).head? with
  | some (sig, some body) =>
    let sig ← sig
    return .method {
      sig, body, attrs := Parts.attrs ps, vis := Parts.vis ps, defaultness := isDefault,
      loc := some (Parts.loc ps) }
  | _ => return verbatim source ps

/-- A constant. -/
def constMember (source : List Char) (ps : Parts) : Except Fault Member := do
  let isDefault ← defaultness ps
  match (Parts.pick (fun | .value v => some v | _ => none) ps).head? with
  | some value =>
    return .constant {
      name := (Parts.word? [.name, .underscore] ps).getD "", ty := Parts.type ps, value,
      attrs := Parts.attrs ps, vis := Parts.vis ps, defaultness := isDefault,
      loc := some (Parts.loc ps) }
  | none => return verbatim source ps

/-- Two where clauses as one; it exists if one of them does. -/
def mergeClauses : Option (List Predicate) → Option (List Predicate) → Option (List Predicate)
  | some ps, some qs => some (ps ++ qs)
  | some ps, none => some ps
  | none, qs => qs

/-- An associated type. It can have a where clause on either side of its definition. -/
def typeMember (source : List Char) (ps : Parts) : Except Fault Member := do
  let isDefault ← defaultness ps
  match (Parts.pick (fun | .definition t c => some (t, c) | _ => none) ps).head? with
  | some (definition, clause) =>
    return .assocType {
      name := Parts.name ps, definition, bounds := Parts.bounds ps,
      generics := ⟨Parts.params ps, mergeClauses (Parts.clause? ps) clause⟩,
      attrs := Parts.attrs ps, vis := Parts.vis ps, defaultness := isDefault,
      loc := some (Parts.loc ps) }
  | none => return verbatim source ps

/-- A macro call: all after the exclamation mark but a closing semicolon is its argument. -/
def macroMember (source : List Char) (ps : Parts) : Member :=
  .macroCall {
    path := Parts.text source (Parts.plain (before .bang ps))
    tokens := Parts.text source (before .semi (after .bang ps))
    semi := Parts.has .semi ps, attrs := Parts.attrs ps, loc := some (Parts.loc ps) }

/-- An item that has no place in a block; its head says what it is. -/
def foreignMember (source : List Char) (ps : Parts) : Member :=
  .foreign (Parts.text source ((Parts.plain ps).take 1)) (Parts.text source ps)
    (some (Parts.loc ps))

/-- A block. A wrong marker in front of it is reported before anything in its members. -/
def implBlock (source : List Char) (ps : Parts) : Except Fault ImplBlock := do
  let isDefault ← defaultness ps
  let (traitRef, selfTy) :=
    ((Parts.pick (fun | .target r t => some (r, t) | _ => none) ps).head?).getD (none, default)
  let (innerAttrs, items) :=
    ((Parts.pick (fun | .body as is => some (as, is) | _ => none) ps).head?).getD ([], [])
  let items ← items.mapM id
  return {
    selfTy, items, generics := Parts.generics ps, attrs := Parts.attrs ps, innerAttrs,
    unsafety := Parts.has .kwUnsafe ps, defaultness := isDefault, traitRef,
    source := some (String.ofList source), loc := some (Parts.loc ps) }

end TraitLift.Reading
