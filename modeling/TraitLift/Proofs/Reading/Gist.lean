import Mathlib.Tactic
import TraitLift.Proofs.Grammar.Terse
import TraitLift.Proofs.Reading.Relocate

/-!
What the meaning of a type depends on. Besides the meanings of its parts it is only the texts that a
rule quotes (`ruleMeaning_congr`): what a constant argument, the length of an array, the parts of a
macro or a name cover. The signs between the parts do not matter.
-/

namespace TraitLift

open TraitLift.Grammar

/-- The meaning without the place of a token. -/
def Meaning.gist : Meaning → Meaning
  | .token t => .token ⟨t.kind, t.text, 0, 0, Loc.origin, Loc.origin⟩
  | m => m

/-- The phrase as its meaning alone. -/
def Phrase.gist (p : Phrase) : Phrase := ⟨[], p.meaning.gist⟩

/-- The parts as their meanings alone. -/
def Parts.gist (ps : Parts) : Parts := ps.map Phrase.gist

namespace Parts

variable (ps : Parts)

theorem pick_gist {β : Type} {f : Meaning → Option β} (h : ∀ m : Meaning, f m.gist = f m) :
    pick f (gist ps) = pick f ps := by
  simp only [pick, gist, List.filterMap_map]
  congr 1
  funext p
  exact h p.meaning

theorem token?_gist (p : Phrase) : p.gist.token? =
    p.token?.map fun t => ⟨t.kind, t.text, 0, 0, Loc.origin, Loc.origin⟩ := by
  obtain ⟨ts, m⟩ := p
  cases m <;> rfl

@[simp]
theorem isToken_gist (k : Kind) (p : Phrase) : p.gist.isToken k = p.isToken k := by
  unfold Phrase.isToken
  rw [token?_gist]
  cases p.token? <;> rfl

@[simp]
theorem has_gist (k : Kind) : has k (gist ps) = has k ps := by
  simp [has, gist, List.any_map, Function.comp_def]

@[simp]
theorem word?_gist (ks : List Kind) : word? ks (gist ps) = word? ks ps := by
  have htokens : (gist ps).filterMap Phrase.token? = (ps.filterMap Phrase.token?).map
      fun t => ⟨t.kind, t.text, 0, 0, Loc.origin, Loc.origin⟩ := by
    simp only [gist, List.filterMap_map, List.map_filterMap]
    congr 1
    funext p
    exact token?_gist p
  rw [word?, htokens, List.find?_map, Option.map_map, word?]
  rfl

@[simp]
theorem types_gist : types (gist ps) = types ps := pick_gist ps fun m => by cases m <;> rfl

@[simp]
theorem type?_gist : type? (gist ps) = type? ps := by
  simp [type?]

@[simp]
theorem type_gist : type (gist ps) = type ps := by
  simp [type]

@[simp]
theorem path?_gist : path? (gist ps) = path? ps := by
  unfold path?
  rw [pick_gist ps fun m => by cases m <;> rfl]

@[simp]
theorem segments_gist : segments (gist ps) = segments ps :=
  pick_gist ps fun m => by cases m <;> rfl

@[simp]
theorem args?_gist : args? (gist ps) = args? ps := by
  unfold args?
  rw [pick_gist ps fun m => by cases m <;> rfl]

@[simp]
theorem eachBound_gist : eachBound (gist ps) = eachBound ps :=
  pick_gist ps fun m => by cases m <;> rfl

@[simp]
theorem bounds_gist : bounds (gist ps) = bounds ps := by
  unfold bounds
  rw [pick_gist ps fun m => by cases m <;> rfl]

@[simp]
theorem lifetimes_gist : lifetimes (gist ps) = lifetimes ps := by
  unfold lifetimes
  rw [pick_gist ps fun m => by cases m <;> rfl]

@[simp]
theorem binder_gist : binder (gist ps) = binder ps := by
  unfold binder
  rw [pick_gist ps fun m => by cases m <;> rfl]

@[simp]
theorem lifetimeParams_gist : lifetimeParams (gist ps) = lifetimeParams ps :=
  pick_gist ps fun m => by cases m <;> rfl

@[simp]
theorem abi?_gist : abi? (gist ps) = abi? ps := by
  unfold abi?
  rw [pick_gist ps fun m => by cases m <;> rfl]

@[simp]
theorem name_gist : name (gist ps) = name ps := by
  simp [name]

@[simp]
theorem lifetime?_gist : lifetime? (gist ps) = lifetime? ps := by
  simp [lifetime?]

end Parts

namespace Reading

open Parts

variable (source : List Char) (ps : Parts)

@[simp]
theorem before_gist (k : Kind) : before k (gist ps) = gist (before k ps) := by
  simp [before, gist, List.takeWhile_map, Function.comp_def]

@[simp]
theorem after_gist (k : Kind) : after k (gist ps) = gist (after k ps) := by
  simp [after, gist, List.dropWhile_map, Function.comp_def]

@[simp]
theorem path_gist : path (gist ps) = path ps := by
  have hhead : ((gist ps).head?.map (Phrase.isToken .dcolon)) =
      ps.head?.map (Phrase.isToken .dcolon) := by
    rw [gist, List.head?_map, Option.map_map]
    simp only [Function.comp_def, isToken_gist]
  simp only [path, segments_gist, hhead]

@[simp]
theorem qualifiedPath_gist : qualifiedPath (gist ps) = qualifiedPath ps := by
  simp [qualifiedPath]

@[simp]
theorem parenArgs_gist : parenArgs (gist ps) = parenArgs ps := by
  simp [parenArgs]

@[simp]
theorem fnPtr_gist : fnPtr (gist ps) = fnPtr ps := by
  simp only [fnPtr, binder_gist, has_gist, abi?_gist, type?_gist]
  rw [pick_gist ps fun m => by cases m <;> rfl]

/-- The rules whose meaning has texts of the source in it. -/
def quoters : List Rule :=
  [.constArg, .arrayType, .macroType, .pathSegment, .turbofishSegment, .lifetimeBounds]

/-- The texts that a rule takes from the source. -/
def quoted : Rule → List String
  | .constArg => [Parts.text source ps]
  | .arrayType => [arrayLength source ps]
  | .macroType => [Parts.text source (before .bang ps), Parts.text source (after .bang ps)]
  | .pathSegment | .turbofishSegment => [Parts.text source (ps.take 1)]
  | .lifetimeBounds => ((Parts.tokens ps).filter (·.is .lifetime)).map Token.text
  | _ => []

theorem ruleMeaning_gist {r : Rule} (hr : r ∈ typeRules) (hquote : r ∉ quoters) :
    ruleMeaning [] r (gist ps) = ruleMeaning source r ps := by
  cases r
  case angleArgs =>
    simp only [ruleMeaning]
    rw [pick_gist ps fun m => by cases m <;> rfl]
  all_goals first
    | exact absurd hr (by decide)
    | exact absurd (by decide) hquote
    | simp only [ruleMeaning, type_gist, path?_gist, has_gist, word?_gist, bounds_gist, name_gist,
        lifetime?_gist, lifetimes_gist, lifetimeParams_gist, eachBound_gist, traitBound, binder_gist,
        path_gist, qualifiedPath_gist, types_gist, fnPtr_gist, parenArgs_gist, args?_gist]

variable {source ps}

/-- Parts with the same meanings and quoted texts have the same meaning together. -/
theorem ruleMeaning_congr {source' : List Char} {qs : Parts} {r : Rule} (hr : r ∈ typeRules)
    (hgist : gist ps = gist qs) (hquoted : quoted source ps r = quoted source' qs r) :
    ruleMeaning source r ps = ruleMeaning source' r qs := by
  by_cases hquote : r ∈ quoters
  · have htype : type ps = type qs := by rw [← type_gist, hgist, type_gist]
    have hargs : args? ps = args? qs := by rw [← args?_gist, hgist, args?_gist]
    simp only [quoters, List.mem_cons, List.not_mem_nil, or_false] at hquote
    rcases hquote with rfl | rfl | rfl | rfl | rfl | rfl
    case inr.inr.inr.inr.inr => exact congrArg Meaning.lifetimes hquoted
    all_goals
      simp only [quoted, List.cons.injEq, and_true] at hquoted
      simp only [ruleMeaning, segment, hquoted, htype, hargs]
  · rw [← ruleMeaning_gist source ps hr hquote, hgist, ruleMeaning_gist source' qs hr hquote]

/-! ### Signs between the parts -/

section

variable {t : Token} (ht : t.kind ∈ [Kind.comma, .plus, .colon]) (ps qs : Parts)

theorem pick_sign {β : Type} {f : Meaning → Option β} (hf : ∀ t, f (.token t) = none) :
    pick f (ps ++ Phrase.ofToken t :: qs) = pick f (ps ++ qs) := by
  simp [pick, Phrase.ofToken, hf]

include ht

theorem isToken_sign {k : Kind} (hk : k ∉ [Kind.comma, .plus, .colon]) :
    (Phrase.ofToken t).isToken k = false := by
  have hne : t.kind ≠ k := fun h => hk (h ▸ ht)
  simpa [Phrase.isToken, Phrase.ofToken, Phrase.token?, Token.is] using hne

theorem has_sign {k : Kind} (hk : k ∉ [Kind.comma, .plus, .colon]) :
    has k (ps ++ Phrase.ofToken t :: qs) = has k (ps ++ qs) := by
  simp [has, isToken_sign ht hk]

theorem word?_sign {ks : List Kind} (hks : ∀ k ∈ ks, k ∉ [Kind.comma, .plus, .colon]) :
    word? ks (ps ++ Phrase.ofToken t :: qs) = word? ks (ps ++ qs) := by
  have hno : ks.contains t.kind = false := by
    simpa using fun h => hks _ h ht
  have htoken : (Phrase.ofToken t).token? = some t := rfl
  simp only [word?, List.filterMap_append, List.filterMap_cons, htoken, List.find?_append,
    List.find?_cons, hno]

theorem pick_before_sign {β : Type} {f : Meaning → Option β} (hf : ∀ t, f (.token t) = none)
    {k : Kind} (hk : k ∉ [Kind.comma, .plus, .colon]) :
    pick f (before k (ps ++ Phrase.ofToken t :: qs)) = pick f (before k (ps ++ qs)) := by
  have hsign := isToken_sign ht hk
  induction ps with
  | nil =>
    rw [List.nil_append, List.nil_append, before, List.takeWhile_cons, hsign]
    simp [pick, before, Phrase.ofToken, hf]
  | cons p ps ih =>
    simp only [before, List.cons_append, List.takeWhile_cons] at ih ⊢
    split
    · simp only [pick, List.filterMap_cons] at ih ⊢
      rw [ih]
    · rfl

theorem pick_after_sign {β : Type} {f : Meaning → Option β} (hf : ∀ t, f (.token t) = none)
    {k : Kind} (hk : k ∉ [Kind.comma, .plus, .colon]) :
    pick f (after k (ps ++ Phrase.ofToken t :: qs)) = pick f (after k (ps ++ qs)) := by
  have hsign := isToken_sign ht hk
  induction ps with
  | nil => simp [after, hsign]
  | cons p ps ih =>
    simp only [after, List.cons_append, List.dropWhile_cons] at ih ⊢
    split
    · exact ih
    · exact pick_sign ps qs hf

/-- The rules whose parts have signs between them that do not matter. -/
def signRules : List Rule :=
  [.forLifetimes, .lifetimeParam, .lifetimeBounds, .bounds, .parenArgs, .angleArgs, .tupleType,
   .fnPtrType]

/-- A comma, a `+` or a colon between the parts does not matter. -/
theorem ruleMeaning_sign {r : Rule} (hr : r ∈ signRules) :
    ruleMeaning source r (ps ++ Phrase.ofToken t :: qs) = ruleMeaning source r (ps ++ qs) := by
  simp only [signRules, List.mem_cons, List.not_mem_nil, or_false] at hr
  rcases hr with rfl | rfl | rfl | rfl | rfl | rfl | rfl | rfl
  case inr.inr.inl =>
    have hne : t.is .lifetime = false := by
      have : t.kind ≠ .lifetime := by
        intro h
        simp [h] at ht
      simpa [Token.is] using this
    simp [ruleMeaning, Parts.tokens, Phrase.ofToken, hne]
  case inr.inr.inr.inr.inl =>
    simp only [ruleMeaning, parenArgs, types, type?]
    rw [pick_before_sign ht ps qs (fun _ => rfl) (by decide),
      pick_after_sign ht ps qs (fun _ => rfl) (by decide)]
  all_goals
    simp only [ruleMeaning, fnPtr, lifetimeParams, lifetimes, eachBound, types, type?, binder, abi?,
      lifetime?]
    simp (disch := simp) only [pick_sign, has_sign ht, word?_sign ht]

end

end Reading

end TraitLift
