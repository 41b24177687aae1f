import TraitLift.Config
import TraitLift.Text.Integer
import TraitLift.Text.Quoted

/-!
The command line: what the options are, how arguments are told apart, and what is wrong with a
command line that cannot be followed.

An argument that starts with a dash is an option if it is the name of one, if the part before its
first `=` is, if it begins the name of exactly one long option, or if its first two characters are a
short option. Otherwise it is a value if it is a negative number or holds a blank, and an unknown
option if not. After a lone `--` everything is a value.
-/

namespace TraitLift.Cli

/-- The options. -/
inductive Opt where
  | help | output | json | hash | seed | namePrefix | attr | verbose
deriving DecidableEq, Repr

namespace Opt

/-- Whether the option is followed by a value. -/
def takesValue : Opt → Bool
  | help | json | verbose => false
  | output | hash | seed | namePrefix | attr => true

/-- The names of all options. -/
def names : List (String × Opt) :=
  [("-h", help), ("--help", help), ("-o", output), ("--output", output), ("--json", json),
   ("--hash", hash), ("--seed", seed), ("--prefix", namePrefix), ("--attr", attr),
   ("-v", verbose), ("--verbose", verbose)]

/-- The option of a given name. -/
def ofName? (s : String) : Option Opt := names.lookup s

/-- All names of the option, as messages give them. -/
def label (o : Opt) : String :=
  "/".intercalate ((names.filter (·.2 == o)).map Prod.fst)

end Opt

/-- What is wrong with a command line. -/
inductive UsageError where
  | ambiguous (given : String) (candidates : List String)
  | missingValue (o : Opt)
  | ignoredValue (o : Opt) (value : String)
  | badInteger (o : Opt) (value : String)
  | badChoice (o : Opt) (value : String)
  | noSource
  | unrecognized (args : List String)
  | manySources
  | config (e : ConfigError)
deriving DecidableEq, Repr

namespace UsageError

/-- The reason in words. -/
def message : UsageError → String
  | ambiguous given candidates =>
    "ambiguous option: " ++ given ++ " could match " ++ ", ".intercalate candidates
  | missingValue o => "argument " ++ o.label ++ ": expected one argument"
  | ignoredValue o v => "argument " ++ o.label ++ ": ignored explicit argument " ++ Text.quoted v
  | badInteger o v => "argument " ++ o.label ++ ": invalid int value: " ++ Text.quoted v
  | badChoice o v =>
    "argument " ++ o.label ++ ": invalid choice: " ++ Text.quoted v ++ " (choose from "
      ++ ", ".intercalate (Algorithm.all.map fun a => Text.quoted a.label) ++ ")"
  | noSource => "the following arguments are required: source"
  | unrecognized args => "unrecognized arguments: " ++ " ".intercalate args
  | manySources => "-o/--output requires a single source file"
  | config e => e.message

end UsageError

/-- What is attached to an option, and whether an equals sign stands in front of it. -/
structure Attached where
  equals : Bool
  chars : List Char
deriving DecidableEq, Repr

/-- An argument of the command line. An option can have a value attached to it. -/
inductive Word where
  | separator
  | value (s : String)
  | option (o : Opt) (isLong : Bool) (attached : Option Attached)
  | unknown (s : String)
deriving DecidableEq, Repr

namespace Word

/-- The argument as it was given, for all but options. -/
def text : Word → String
  | separator => "--"
  | value s | unknown s => s
  | option .. => ""

/-- Whether the argument stands for itself. -/
def isValue : Word → Bool
  | value _ => true
  | _ => false

/-- Whether the argument is an option, known or not. -/
def isOption : Word → Bool
  | option .. | unknown _ => true
  | _ => false

end Word

/-- The part of a text before its first `=`, and the part after it, if there is one. -/
def splitEquals : List Char → List Char × Option (List Char)
  | [] => ([], none)
  | '=' :: cs => ([], some cs)
  | c :: cs =>
    let (name, value) := splitEquals cs
    (c :: name, value)

/-- Whether a text is a negative number, perhaps with a line end after it. -/
def isNegativeNumber : List Char → Bool
  | '-' :: cs =>
    let cs := if cs.getLast? = some '\n' then cs.dropLast else cs
    let whole := cs.takeWhile Text.isDigit
    match cs.dropWhile Text.isDigit with
    | [] => !whole.isEmpty
    | '.' :: fraction => !fraction.isEmpty && fraction.all Text.isDigit
    | _ => false
  | _ => false

/-- What an argument with a dash in front is that names no option. -/
def unnamed (arg : String) : Word :=
  if isNegativeNumber arg.toList || arg.toList.contains ' ' then .value arg else .unknown arg

/-- Tells what an argument is. -/
def classify (arg : String) : Except UsageError Word :=
  match arg.toList, Opt.ofName? arg with
  | '-' :: second, some o => .ok (.option o (second.head? == some '-') none)
  | '-' :: '-' :: cs, none =>
    let (name, value) := splitEquals ('-' :: '-' :: cs)
    match Opt.ofName? (String.ofList name), value with
    | some o, some v => .ok (.option o true (some ⟨true, v⟩))
    | _, _ =>
      match Opt.names.filter (fun (n, _) => name.isPrefixOf n.toList) with
      | [(_, o)] => .ok (.option o true (value.map (Attached.mk true)))
      | [] => .ok (unnamed arg)
      | candidates => .error (.ambiguous arg (candidates.map Prod.fst))
  | '-' :: c :: cs, none =>
    let (name, value) := splitEquals ('-' :: c :: cs)
    match Opt.ofName? (String.ofList name), value, Opt.ofName? (String.ofList ['-', c]) with
    | some o, some v, _ => .ok (.option o false (some ⟨true, v⟩))
    | _, _, some o => .ok (.option o false (some ⟨false, cs⟩))
    | _, _, none => .ok (unnamed arg)
  | _, _ => .ok (.value arg)

/-- Tells what all arguments are; after the separator they are values. -/
def classifyAll : List String → Except UsageError (List Word)
  | [] => .ok []
  | "--" :: args => .ok (.separator :: args.map .value)
  | arg :: args => do
    let w ← classify arg
    return w :: (← classifyAll args)

end TraitLift.Cli
