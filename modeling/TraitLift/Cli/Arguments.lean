import TraitLift.Cli.Options

/-!
Following a command line. The first run of values names the sources; later ones have no place. Short
options can share a dash as long as all but the last take no value. Options act from left to right,
those behind one dash only when all of them are known to be in order.

Argument parsers come in two editions. In the early one a separator is never a value: where it is
attached to an option as one, the option is given, but holds nothing.
-/

namespace TraitLift.Cli

/-- The edition of an argument parser. They differ in what can be attached to an option. -/
inductive Edition where
  /-- A separator that is attached is taken away, and only options stand behind one dash, with the value
  of the last one. -/
  | early
  /-- A separator can be attached as a value, an equals sign can stand in front of a value behind one
  dash, and what is no option there is an argument of its own, which has no place. -/
  | late
deriving DecidableEq, Repr

/-- What the command line asks for. -/
structure Options where
  sources : List String
  output : Option String := none
  json : Bool := false
  algorithm : String := "xxh64"
  seed : Int := 0
  namePrefix : String := Config.defaultPrefix
  attrs : List String := []
  verbose : Bool := false
deriving DecidableEq, Repr

/-- What a command line asks for, and which of its options hold nothing. What such an option would set is
as good as unset. -/
structure Request where
  options : Options := { sources := [] }
  hollow : List Opt := []
deriving DecidableEq, Repr

/-- Why a command line is not followed: it asks for help, or there is something wrong with it. -/
inductive Halt where
  | help
  | usage (e : UsageError)
deriving DecidableEq, Repr

/-- How far a command line has been followed. -/
structure Progress where
  request : Request := {}
  hasSources : Bool := false
  extras : List String := []
deriving DecidableEq, Repr

/-- An option, and what it holds, if it takes a value and holds one. -/
abbrev Action := Opt × Option String

namespace Request

/-- Notes whether an option holds something. The last value counts, but all attribute paths do. -/
def note (r : Request) (o : Opt) (v : Option String) : Request :=
  match v with
  | none => { r with hollow := o :: r.hollow }
  | some _ => if o = .attr then r else { r with hollow := r.hollow.filter (· ≠ o) }

/-- Carries out an option. -/
def act (r : Request) : Action → Except Halt Request
  | (.help, _) => .error .help
  | (.json, _) => .ok { r with options.json := true }
  | (.verbose, _) => .ok { r with options.verbose := true }
  | (.output, v) => .ok { r.note .output v with options.output := some (v.getD "") }
  | (.namePrefix, v) =>
    .ok { r.note .namePrefix v with options.namePrefix := v.getD Config.defaultPrefix }
  | (.attr, v) => .ok { r.note .attr v with options.attrs := r.options.attrs ++ v.toList }
  | (.hash, none) => .ok (r.note .hash none)
  | (.hash, some v) =>
    match Algorithm.ofLabel? v with
    | some _ => .ok { r.note .hash (some v) with options.algorithm := v }
    | none => .error (.usage (.badChoice .hash v))
  | (.seed, none) => .ok (r.note .seed none)
  | (.seed, some v) =>
    match Text.integer? v with
    | some n => .ok { r.note .seed (some v) with options.seed := n }
    | none => .error (.usage (.badInteger .seed v))

end Request

namespace Progress

/-- Takes a run of values: as the sources, if they are not known yet and there is one among them. -/
def takeValues (p : Progress) (run : List Word) : Progress :=
  if !p.hasSources && run.any Word.isValue then
    { p with
      request.options.sources := (run.filter Word.isValue).map Word.text
      hasSources := true }
  else { p with extras := p.extras ++ run.map Word.text }

end Progress

/-- What an option and those behind the same dash come to: what they do, arguments without a place, and
the arguments after them. -/
structure Cluster where
  actions : List Action
  extras : List String := []
  rest : List Word
deriving DecidableEq, Repr

namespace Cluster

/-- The same with an option in front that takes no value. -/
def cons (o : Opt) (k : Cluster) : Cluster := { k with actions := (o, none) :: k.actions }

end Cluster

/-- What an option does whose value, if it takes one, is the next argument. -/
def detached (o : Opt) (rest : List Word) : Except Halt Cluster :=
  if o.takesValue then
    match rest with
    | .value v :: rest => .ok { actions := [(o, some v)], rest }
    | _ => .error (.usage (.missingValue o))
  else .ok { actions := [(o, none)], rest }

/-- What an option with an attached value holds. -/
def Edition.held (v : Edition) (cs : List Char) : Option String :=
  if v = .early ∧ cs = ['-', '-'] then none else some (String.ofList cs)

/-- What `o` and the short options in `cs` behind it come to in the early edition. The first option that
takes a value takes all that is left of `cs`. -/
def earlyCluster (o : Opt) (rest : List Word) : List Char → Except Halt Cluster
  | [] =>
    if o.takesValue then .ok { actions := [(o, Edition.early.held [])], rest }
    else .error (.usage (.ignoredValue o ""))
  | c :: more =>
    if o.takesValue then .ok { actions := [(o, Edition.early.held (c :: more))], rest }
    else
      match Opt.ofName? (String.ofList ['-', c]), more with
      | none, _ => .error (.usage (.ignoredValue o (String.ofList (c :: more))))
      | some next, [] => (detached next rest).map (Cluster.cons o)
      | some next, d :: more => (earlyCluster next rest (d :: more)).map (Cluster.cons o)

/-- What `o` and the short options in `cs` behind it come to in the late edition. -/
def lateCluster (o : Opt) (rest : List Word) : Bool → List Char → Except Halt Cluster
  | _, [] =>
    if o.takesValue then .ok { actions := [(o, Edition.late.held [])], rest }
    else .error (.usage (.ignoredValue o ""))
  | equals, c :: more =>
    if o.takesValue then .ok { actions := [(o, Edition.late.held (c :: more))], rest }
    else if equals || c = '-' then
      .error (.usage (.ignoredValue o (String.ofList (c :: more))))
    else
      match Opt.ofName? (String.ofList ['-', c]), more with
      | none, _ =>
        .ok { actions := [(o, none)], extras := [String.ofList ('-' :: c :: more)], rest }
      | some next, [] => (detached next rest).map (Cluster.cons o)
      | some next, d :: more =>
        if d = '=' then (lateCluster next rest true more).map (Cluster.cons o)
        else (lateCluster next rest false (d :: more)).map (Cluster.cons o)

/-- What an option comes to. -/
def Edition.cluster (v : Edition) (o : Opt) (isLong : Bool) (attached : Option Attached)
    (rest : List Word) : Except Halt Cluster :=
  match attached with
  | none => detached o rest
  | some a =>
    if isLong then
      if o.takesValue then .ok { actions := [(o, v.held a.chars)], rest }
      else .error (.usage (.ignoredValue o (String.ofList a.chars)))
    else
      match v with
      | .early => earlyCluster o rest a.chars
      | .late => lateCluster o rest a.equals a.chars

/-- Follows an option. -/
def followOption (v : Edition) (p : Progress) (o : Opt) (isLong : Bool)
    (attached : Option Attached) (rest : List Word) : Except Halt (Progress × List Word) := do
  let k ← v.cluster o isLong attached rest
  let request ← k.actions.foldlM Request.act p.request
  return ({ p with request, extras := p.extras ++ k.extras }, k.rest)

/-- Follows all arguments; each round uses up at least one, so their number bounds `fuel`. -/
def follow (v : Edition) : Nat → Progress → List Word → Except Halt Progress
  | 0, p, _ => .ok p
  | _, p, [] => .ok p
  | fuel + 1, p, .option o isLong attached :: rest => do
    let (p, rest) ← followOption v p o isLong attached rest
    follow v fuel p rest
  | fuel + 1, p, .unknown s :: rest => follow v fuel { p with extras := p.extras ++ [s] } rest
  | fuel + 1, p, w :: rest =>
    let run := w :: rest.takeWhile (!·.isOption)
    follow v fuel (p.takeValues run) (rest.dropWhile (!·.isOption))

/-- Reads a command line. -/
def readArguments (v : Edition) (argv : List String) : Except Halt Request := do
  let words ← (classifyAll argv).mapError Halt.usage
  let p ← follow v words.length {} words
  if !p.hasSources then .error (.usage .noSource)
  else if !p.extras.isEmpty then .error (.usage (.unrecognized p.extras))
  else if p.request.options.output.isSome && 1 < p.request.options.sources.length then
    .error (.usage .manySources)
  else .ok p.request

namespace Options

/-- The attribute paths that mark a block. -/
def attributes (o : Options) : List String :=
  if o.attrs.isEmpty then Config.defaultAttributes else o.attrs

/-- The naming settings that the options ask for. -/
def config (o : Options) : Except ConfigError Config :=
  Config.make o.algorithm none o.seed o.namePrefix o.attributes

end Options

end TraitLift.Cli
