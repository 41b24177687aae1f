import TraitLift.Text.Class
import TraitLift.Hash.XxHash64
import TraitLift.Hash.Blake2b

/-!
Naming settings: which hash function fingerprints a block whose trait is unnamed, under which seed,
what the derived names start with, and which attribute paths mark a block. A `Config` holds only
settings that have been checked; `Config.make` is the check.
-/

namespace TraitLift

/-- The hash functions a configuration can name. -/
inductive Algorithm where
  | xxHash64
  | blake2b
deriving DecidableEq, Repr

namespace Algorithm

/-- The name by which a configuration asks for the function. -/
def label : Algorithm → String
  | xxHash64 => "xxh64"
  | blake2b => "blake2b"

/-- All functions, in the order of their names. -/
def all : List Algorithm := [blake2b, xxHash64]

/-- The function of a given name. -/
def ofLabel? (s : String) : Option Algorithm := all.find? (·.label == s)

/-- The hash of some bytes; of the seed only the residue modulo two to the sixty-four counts. -/
def hash (a : Algorithm) (data : List UInt8) (seed : Int) : UInt64 :=
  match a with
  | xxHash64 => UInt64.ofNat (Hash.XxHash64.hash data seed)
  | blake2b => Hash.Blake2b.hash data (Hash.wordOf seed)

end Algorithm

/-- Where fingerprints come from: a known function, or one that is given together with a label that is
not looked up. -/
inductive Hasher where
  | function (a : Algorithm)
  | custom (label : String) (f : List UInt8 → Int → Int)

namespace Hasher

/-- The name the hasher goes by. -/
def label : Hasher → String
  | function a => a.label
  | custom l _ => l

/-- The hash of some bytes under a seed. A given function may leave the range of a word. -/
def hash : Hasher → List UInt8 → Int → Int
  | function a, data, seed => (a.hash data seed).toNat
  | custom _ f, data, seed => f data seed

/-- One value for every block. -/
def constant (label : String) (value : Int) : Hasher := custom label fun _ _ => value

end Hasher

/-- Why settings are refused. -/
inductive ConfigError where
  | unknownAlgorithm (given : String)
  | badPrefix (given : String)
deriving DecidableEq, Repr

namespace ConfigError

/-- The reason in words. -/
def message : ConfigError → String
  | unknownAlgorithm given =>
    "unknown hash algorithm '" ++ given ++ "' (known: "
      ++ ", ".intercalate (Algorithm.all.map Algorithm.label) ++ ")"
  | badPrefix given => "name prefix '" ++ given ++ "' is not a valid identifier"

end ConfigError

/-- Checked naming settings. -/
structure Config where
  hasher : Hasher
  seed : Int
  namePrefix : String
  attributes : List String
  isIdentifier : Text.isIdentifier namePrefix.toList = true

namespace Config

/-- What derived names start with unless told otherwise. -/
def defaultPrefix : String := "__ExtTrait"

/-- The attribute paths that mark a block unless told otherwise. -/
def defaultAttributes : List String := ["ext", "ext_trait::ext"]

/-- Checks settings: first the name of the hash function, unless a function is given, then the start of
derived names. -/
def make (algorithm : String) (custom : Option (List UInt8 → Int → Int)) (seed : Int)
    (namePrefix : String) (attributes : List String) : Except ConfigError Config := do
  let hasher ←
    match custom, Algorithm.ofLabel? algorithm with
    | some f, _ => .ok (.custom algorithm f)
    | none, some a => .ok (.function a)
    | none, none => .error (.unknownAlgorithm algorithm)
  if h : Text.isIdentifier namePrefix.toList = true then
    .ok ⟨hasher, seed, namePrefix, attributes, h⟩
  else .error (.badPrefix namePrefix)

/-- The settings in force when none are given. -/
def default : Config :=
  ⟨.function .xxHash64, 0, defaultPrefix, defaultAttributes, by decide +kernel⟩

/-- The hash of some bytes under the configured seed, reduced to a word. -/
def fingerprint (c : Config) (data : List UInt8) : UInt64 :=
  Hash.wordOf (c.hasher.hash data c.seed)

end Config

end TraitLift
