import TraitLift.Reading.Meaning
import TraitLift.Token.Lexer

/-!
Reading texts: types, implementation blocks and attribute arguments.

Tokens are taken one by one, so a token in the wrong place is reported before a later character that
starts no token, and both before an early end. Faults in the meaning of a block are looked for
only once all of it has been read.
-/

namespace TraitLift

open TraitLift.Grammar

/-- The parts of a text that is derived from `e`. -/
def readParts (goal : Goal) (e : Syn) (source : List Char) : Except Fault Parts :=
  let s := scan source
  match rust.read e s.tokens, s.stuck with
  | .stuck t, _ => .error (.unexpectedToken t.text goal t.loc)
  | _, some (c, loc) => .error (.unexpectedChar c goal loc)
  | .short, none => .error (.unexpectedEnd goal)
  | .sentence trees, none => .ok (trees.map (Reading.phrase source))

/-- Reads a type. -/
def parseType (source : String) : Except Fault TypeExpr :=
  (readParts .type (Syn.use .type) source.toList).map Parts.type

/-- Reads an implementation block with its attributes. -/
def parseBlock (source : String) : Except Fault ImplBlock := do
  let parts ← readParts .block (Syn.use .implBlock) source.toList
  match (Parts.pick (fun | .block b => some b | _ => none) parts).head? with
  | some b => b
  | none => .error (.unexpectedEnd .block)

/-- Reads attribute arguments as the grammar has them. Any other text is refused as a whole, at the place
where it goes wrong. -/
def parseSomeArgs (source : String) : Except Fault ExtArgs :=
  match readParts .tokens Syn.extArgs source.toList with
  | .ok parts =>
    .ok ⟨(Parts.pick (fun | .vis v => some v | _ => none) parts).head?,
      Parts.word? [.name] parts⟩
  | .error f =>
    .error (.badArguments (String.ofList (Text.strip source.toList)) f.loc?)

/-- Reads attribute arguments: a visibility and a name, both of which may be missing. A blank text is not
looked at. -/
def parseArgs (source : String) : Except Fault ExtArgs :=
  if (Text.strip source.toList).isEmpty then .ok {} else parseSomeArgs source

end TraitLift
