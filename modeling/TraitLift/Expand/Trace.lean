import TraitLift.Expand.Source

/-!
What happens while a text is expanded, step by step, for those who want to watch. The events follow
from the same functions that do the work.
-/

namespace TraitLift

/-- A step of the work. -/
inductive Event where
  | found (blocks : Nat) (file : Option String)
  | named (name : TraitName)
  | declared (members : Nat)
  | hoisted (lists : Nat)
  | linked (predicates : Nat)
  | retargeted (ident : String)
  | expanded (ident : String) (members params predicates : Nat)
  | finished (path : String) (expansions diagnostics : Nat)
deriving DecidableEq, Repr

namespace Event

/-- The part of the program that reports the step. -/
def origin : Event → String
  | found .. => "exttrait.expand"
  | named _ => "exttrait.transform.naming"
  | declared _ => "exttrait.transform.members"
  | hoisted _ | linked _ => "exttrait.transform.bounds"
  | retargeted _ => "exttrait.transform.retarget"
  | expanded .. => "exttrait.transform.pipeline"
  | finished .. => "exttrait.driver"

/-- The step in words. -/
def message : Event → String
  | found n file =>
    "expand_source: " ++ toString n ++ " ext impl block(s) in "
      ++ (orElseFile file (some "<input>")).getD ""
  | named n =>
    "resolve_name: " ++ (if n.derived then "derived" else "explicit") ++ " name " ++ n.ident
  | declared n => "convert_members: " ++ toString n ++ " member(s) converted"
  | hoisted n =>
    "normalize: moved " ++ toString n ++ " inline bound list(s) into the where-clause"
  | linked n => "relink: added " ++ toString n ++ " mirrored predicate(s)"
  | retargeted ident => "retarget: impl " ++ ident ++ " for self type"
  | expanded ident members params predicates =>
    "expand_block: " ++ ident ++ " with " ++ toString members ++ " member(s), " ++ toString params
      ++ " param(s), " ++ toString predicates ++ " predicate(s)"
  | finished path expansions diagnostics =>
    path ++ ": " ++ toString expansions ++ " expansion(s), " ++ toString diagnostics
      ++ " diagnostic(s)"

/-- Whether the step makes a name from a fingerprint. -/
def isDerivation : Event → Bool
  | named n => n.derived
  | _ => false

/-- The step as a line of a log. -/
def line (e : Event) : String := "DEBUG " ++ e.origin ++ ": " ++ e.message

end Event

/-- The steps of gathering constraints; a step that changes nothing is not reported. -/
def ImplBlock.gatherEvents (b : ImplBlock) : List Event :=
  let lists := b.hoisted.length
  let predicates := b.hoistBounds.twins.length
  (if lists = 0 then [] else [.hoisted lists])
    ++ (if predicates = 0 then [] else [.linked predicates])

/-- The steps of expanding a block, up to the one that fails. -/
def ImplBlock.events (b : ImplBlock) (args : ExtArgs) (c : Config) : List Event :=
  match b.ensureInherent, TraitName.resolve args b c with
  | .ok _, .ok name =>
    .named name ::
      match declareAll b.items with
      | .ok items =>
        let g := b.gather.generics
        [.declared items.length] ++ b.gatherEvents
          ++ [.retargeted name.ident,
            .expanded name.ident items.length g.params.length g.predicates.length]
      | .error _ => []
  | _, _ => []

/-- The steps of expanding a marked block. -/
def Site.events (s : Site) (source : List Char) (c : Config) : List Event :=
  match s.args none, s.block source with
  | .ok args, .ok b => b.events args c
  | _, _ => []

/-- The steps of expanding a text. -/
def sourceEvents (source : String) (file : Option String) (c : Config) : List Event :=
  match lex source with
  | .error _ => []
  | .ok ts =>
    let sites := sitesOf source.toList c ts
    .found sites.length file :: sites.flatMap (Site.events · source.toList c)

end TraitLift
