import TraitLift.Text.Quoted

/-!
JSON in ASCII: a blank after every comma and colon, and an escape for every character outside the
printable ones of ASCII. Characters beyond the first plane are written as surrogate pairs.
-/

namespace TraitLift.Text

/-- A JSON value; the fields of an object keep their order. -/
inductive Json where
  | null
  | int (n : Int)
  | str (s : String)
  | list (xs : List Json)
  | object (fields : List (String × Json))

namespace Json

/-- An escape of a code unit. -/
def unit (n : Nat) : List Char := '\\' :: 'u' :: hex 4 n

/-- A character of a string. -/
def char (c : Char) : List Char :=
  if c = '"' || c = '\\' then ['\\', c]
  else if c = '\n' then ['\\', 'n']
  else if c = '\r' then ['\\', 'r']
  else if c = '\t' then ['\\', 't']
  else if c = '\x08' then ['\\', 'b']
  else if c = '\x0c' then ['\\', 'f']
  else if 0x20 ≤ c.toNat && c.toNat ≤ 0x7E then [c]
  else if c.toNat < 0x10000 then unit c.toNat
  else
    let n := c.toNat - 0x10000
    unit (0xD800 + n / 0x400) ++ unit (0xDC00 + n % 0x400)

/-- A string with its quotation marks. -/
def string (s : String) : String := "\"" ++ String.ofList (s.toList.flatMap char) ++ "\""

mutual

/-- A value as text. -/
def render : Json → String
  | null => "null"
  | int n => toString n
  | str s => string s
  | list xs => "[" ++ ", ".intercalate (renderAll xs) ++ "]"
  | object fs => "\x7b" ++ ", ".intercalate (renderFields fs) ++ "\x7d"

/-- Values as texts. -/
def renderAll : List Json → List String
  | [] => []
  | x :: xs => x.render :: renderAll xs

/-- The fields of an object as texts. -/
def renderFields : List (String × Json) → List String
  | [] => []
  | (k, v) :: fs => (string k ++ ": " ++ v.render) :: renderFields fs

end

/-- The value of an optional part, null if it is missing. -/
def ofOption {α : Type} (f : α → Json) : Option α → Json
  | some a => f a
  | none => null

end Json

end TraitLift.Text
