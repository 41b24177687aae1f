import Mathlib.Tactic
import TraitLift.Parse
import TraitLift.Proofs.Grammar.Rename
import TraitLift.Proofs.Grammar.Rules
import TraitLift.Proofs.Node.Relocate

/-!
What a part of the source means does not depend on where it stands. If tokens get new places, and
the text between any two tokens of one part stays the same, then the meaning of every part stays the
same but for the places in it (`phrase_relocate`).
-/

namespace TraitLift

/-- New ranges and places for tokens, whose kinds and texts stay. Where a token stood decides where
it stands. -/
structure Relocation where
  token : Token → Token
  place : Loc → Loc
  kind : ∀ t, (token t).kind = t.kind
  text : ∀ t, (token t).text = t.text
  loc : ∀ t, (token t).loc = place t.loc

attribute [simp] Relocation.kind Relocation.text Relocation.loc

section

variable (ρ : Relocation) (text : String)

@[simp]
theorem Relocation.is (t : Token) (k : Kind) : (ρ.token t).is k = t.is k := by
  simp [Token.is]

/-- The meaning at another place; `text` is the text that a block is read from. -/
def Meaning.relocate : Meaning → Meaning
  | .token t => .token (ρ.token t)
  | .marker t => .marker (ρ.token t)
  | .body attrs items => .body attrs (items.map (relocated ρ.place (Member.relocate ρ.place)))
  | .member m => .member (relocated ρ.place (Member.relocate ρ.place) m)
  | .function sig code => .function (relocated ρ.place id sig) code
  | .fnArg a => .fnArg (relocated ρ.place id a)
  | .block b => .block (relocated ρ.place (ImplBlock.relocate ρ.place (some text)) b)
  | m => m

/-- The phrase at another place. -/
def Phrase.relocate (p : Phrase) : Phrase := ⟨p.tokens.map ρ.token, p.meaning.relocate ρ text⟩

/-- The parts at another place. -/
def Parts.relocate (ps : Parts) : Parts := ps.map (Phrase.relocate ρ text)

end

/-- The text between any two of the tokens is the same at the old and at the new places. -/
def Relocation.Keeps (ρ : Relocation) (source source' : List Char) (ts : List Token) : Prop :=
  ∀ a ∈ ts, ∀ b ∈ ts, (source.drop a.start).take (b.stop - a.start) =
    (source'.drop (ρ.token a).start).take ((ρ.token b).stop - (ρ.token a).start)

theorem Relocation.Keeps.mono {ρ : Relocation} {source source' : List Char} {ts us : List Token}
    (h : ρ.Keeps source source' ts) (hsub : us ⊆ ts) : ρ.Keeps source source' us :=
  fun a ha b hb => h a (hsub ha) b (hsub hb)

/-! ### Parts -/

namespace Parts

variable {ρ : Relocation} {text : String} {source source' : List Char}

theorem tokens_relocate (ps : Parts) : tokens (relocate ρ text ps) = (tokens ps).map ρ.token := by
  simp [tokens, relocate, List.flatMap_map, List.map_flatMap, Phrase.relocate]

theorem tokens_subset {ps qs : Parts} (h : qs ⊆ ps) : tokens qs ⊆ tokens ps := by
  intro t ht
  obtain ⟨p, hp, hmem⟩ := List.mem_flatMap.1 ht
  exact List.mem_flatMap.2 ⟨p, h hp, hmem⟩

theorem sliceOf_relocate {ts : List Token} (h : ρ.Keeps source source' ts) :
    sliceOf source' (ts.map ρ.token) = sliceOf source ts := by
  unfold sliceOf
  rw [List.head?_map, List.getLast?_map]
  cases hhead : ts.head? with
  | none => rfl
  | some a =>
    cases hlast : ts.getLast? with
    | none => rfl
    | some b =>
      simp only [Option.map_some]
      rw [h a (List.mem_of_head? hhead) b (List.mem_of_getLast? hlast)]

/-- The text of some of the parts. -/
theorem text_relocate {ps qs : Parts} (h : ρ.Keeps source source' (tokens ps)) (hsub : qs ⊆ ps) :
    Parts.text source' (relocate ρ text qs) = Parts.text source qs := by
  rw [Parts.text, Parts.text, tokens_relocate, sliceOf_relocate (h.mono (tokens_subset hsub))]

theorem loc_relocate {ps : Parts} (hne : tokens ps ≠ []) :
    loc (relocate ρ text ps) = ρ.place (loc ps) := by
  obtain ⟨t, ts, hts⟩ := List.exists_cons_of_ne_nil hne
  simp [loc, tokens_relocate, hts]

variable (ps : Parts)

/-- Meanings that are picked out and moved are the moved ones that are picked out. -/
theorem pick_relocate {β : Type} {f : Meaning → Option β} (move : β → β)
    (h : ∀ m : Meaning, f (m.relocate ρ text) = (f m).map move) :
    pick f (relocate ρ text ps) = (pick f ps).map move := by
  simp only [pick, relocate, List.filterMap_map, List.map_filterMap]
  congr 1
  funext p
  exact h p.meaning

/-- Meanings without places. -/
theorem pick_relocate_of_eq {β : Type} {f : Meaning → Option β}
    (h : ∀ m : Meaning, f (m.relocate ρ text) = f m) :
    pick f (relocate ρ text ps) = pick f ps := by
  rw [pick_relocate ps id (fun m => by rw [h, Option.map_id_fun, id]), List.map_id]

theorem token?_relocate (p : Phrase) : (p.relocate ρ text).token? = p.token?.map ρ.token := by
  obtain ⟨ts, m⟩ := p
  cases m <;> rfl

@[simp]
theorem isToken_relocate (k : Kind) (p : Phrase) :
    (p.relocate ρ text).isToken k = p.isToken k := by
  unfold Phrase.isToken
  rw [token?_relocate]
  cases p.token? <;> simp

@[simp]
theorem has_relocate (k : Kind) : has k (relocate ρ text ps) = has k ps := by
  simp [has, relocate, List.any_map, Function.comp_def]

@[simp]
theorem word?_relocate (ks : List Kind) : word? ks (relocate ρ text ps) = word? ks ps := by
  have htokens : (relocate ρ text ps).filterMap Phrase.token? =
      (ps.filterMap Phrase.token?).map ρ.token := by
    simp only [relocate, List.filterMap_map, List.map_filterMap]
    congr 1
    funext p
    exact token?_relocate p
  rw [word?, htokens, List.find?_map, Option.map_map, word?]
  simp only [Function.comp_def, Relocation.kind, Relocation.text]

@[simp]
theorem attrs_relocate : attrs (relocate ρ text ps) = attrs ps :=
  pick_relocate_of_eq ps fun m => by cases m <;> rfl

@[simp]
theorem vis_relocate : vis (relocate ρ text ps) = vis ps := by
  unfold vis
  rw [pick_relocate_of_eq ps fun m => by cases m <;> rfl]

@[simp]
theorem types_relocate : types (relocate ρ text ps) = types ps :=
  pick_relocate_of_eq ps fun m => by cases m <;> rfl

@[simp]
theorem path?_relocate : path? (relocate ρ text ps) = path? ps := by
  unfold path?
  rw [pick_relocate_of_eq ps fun m => by cases m <;> rfl]

@[simp]
theorem segments_relocate : segments (relocate ρ text ps) = segments ps :=
  pick_relocate_of_eq ps fun m => by cases m <;> rfl

@[simp]
theorem args?_relocate : args? (relocate ρ text ps) = args? ps := by
  unfold args?
  rw [pick_relocate_of_eq ps fun m => by cases m <;> rfl]

@[simp]
theorem eachBound_relocate : eachBound (relocate ρ text ps) = eachBound ps :=
  pick_relocate_of_eq ps fun m => by cases m <;> rfl

@[simp]
theorem bounds_relocate : bounds (relocate ρ text ps) = bounds ps := by
  unfold bounds
  rw [pick_relocate_of_eq ps fun m => by cases m <;> rfl]

@[simp]
theorem lifetimes_relocate : lifetimes (relocate ρ text ps) = lifetimes ps := by
  unfold lifetimes
  rw [pick_relocate_of_eq ps fun m => by cases m <;> rfl]

@[simp]
theorem binder_relocate : binder (relocate ρ text ps) = binder ps := by
  unfold binder
  rw [pick_relocate_of_eq ps fun m => by cases m <;> rfl]

@[simp]
theorem lifetimeParams_relocate : lifetimeParams (relocate ρ text ps) = lifetimeParams ps :=
  pick_relocate_of_eq ps fun m => by cases m <;> rfl

@[simp]
theorem params_relocate : params (relocate ρ text ps) = params ps := by
  unfold params
  rw [pick_relocate_of_eq ps fun m => by cases m <;> rfl]

@[simp]
theorem clause?_relocate : clause? (relocate ρ text ps) = clause? ps := by
  unfold clause?
  rw [pick_relocate_of_eq ps fun m => by cases m <;> rfl]

@[simp]
theorem abi?_relocate : abi? (relocate ρ text ps) = abi? ps := by
  unfold abi?
  rw [pick_relocate_of_eq ps fun m => by cases m <;> rfl]

@[simp]
theorem name_relocate : name (relocate ρ text ps) = name ps := by
  simp [name]

@[simp]
theorem lifetime?_relocate : lifetime? (relocate ρ text ps) = lifetime? ps := by
  simp [lifetime?]

@[simp]
theorem type?_relocate : type? (relocate ρ text ps) = type? ps := by
  simp [type?]

@[simp]
theorem type_relocate : type (relocate ρ text ps) = type ps := by
  simp [type]

@[simp]
theorem generics_relocate : generics (relocate ρ text ps) = generics ps := by
  simp [generics]

/-! ### Some of the parts -/

theorem filter_relocate {q : Phrase → Bool} (hq : ∀ p, q (p.relocate ρ text) = q p) :
    (relocate ρ text ps).filter q = relocate ρ text (ps.filter q) := by
  rw [relocate, List.filter_map, relocate]
  congr 2
  funext p
  exact hq p

@[simp]
theorem plain_relocate : plain (relocate ρ text ps) = relocate ρ text (plain ps) := by
  refine filter_relocate ps fun p => ?_
  obtain ⟨ts, m⟩ := p
  cases m <;> rfl

theorem plain_subset : plain ps ⊆ ps := List.filter_subset_self ..

@[simp]
theorem take_relocate (n : Nat) : (relocate ρ text ps).take n = relocate ρ text (ps.take n) :=
  (List.map_take ..).symm

@[simp]
theorem drop_relocate (n : Nat) : (relocate ρ text ps).drop n = relocate ρ text (ps.drop n) :=
  (List.map_drop ..).symm

@[simp]
theorem dropLast_relocate : (relocate ρ text ps).dropLast = relocate ρ text ps.dropLast :=
  (List.map_dropLast ..).symm

@[simp]
theorem isEmpty_relocate : (relocate ρ text ps).isEmpty = ps.isEmpty := by
  simp [relocate]

end Parts

namespace Reading

open Parts

variable {ρ : Relocation} {text : String} (ps : Parts)

@[simp]
theorem before_relocate (k : Kind) :
    before k (relocate ρ text ps) = relocate ρ text (before k ps) := by
  simp [before, relocate, List.takeWhile_map, Function.comp_def]

@[simp]
theorem after_relocate (k : Kind) : after k (relocate ρ text ps) = relocate ρ text (after k ps) := by
  simp [after, relocate, List.dropWhile_map, Function.comp_def]

@[simp]
theorem patternParts_relocate :
    patternParts (relocate ρ text ps) = relocate ρ text (patternParts ps) := by
  refine filter_relocate ps fun p => ?_
  obtain ⟨ts, m⟩ := p
  cases m <;> simp [Phrase.relocate, Meaning.relocate]

theorem before_subset (k : Kind) : before k ps ⊆ ps := (List.takeWhile_sublist _).subset

theorem after_subset (k : Kind) : after k ps ⊆ ps :=
  ((List.drop_sublist 1 _).trans (List.dropWhile_sublist _)).subset

theorem patternParts_subset : patternParts ps ⊆ ps := List.filter_subset_self ..

theorem refReceiver?_map (ts : List Token) :
    refReceiver? (ts.map ρ.token) = refReceiver? ts := by
  rcases ts with _ | ⟨t, _ | ⟨u, _ | ⟨v, ts⟩⟩⟩ <;> simp [refReceiver?]

theorem receiver?_map (ts : List Token) : receiver? (ts.map ρ.token) = receiver? ts := by
  cases ts with
  | nil => rfl
  | cons t ts =>
    simp only [List.map_cons, receiver?, Relocation.is, List.getLast?_map, ← List.map_dropLast,
      refReceiver?_map, List.isEmpty_map, List.map_map, Function.comp_def, Relocation.kind]
    cases ts.getLast? <;> simp

/-! ### Types -/

@[simp]
theorem path_relocate : path (relocate ρ text ps) = path ps := by
  have hhead : ((relocate ρ text ps).head?.map (Phrase.isToken .dcolon)) =
      ps.head?.map (Phrase.isToken .dcolon) := by
    rw [relocate, List.head?_map, Option.map_map]
    simp only [Function.comp_def, isToken_relocate]
  simp only [path, segments_relocate, hhead]

@[simp]
theorem parenArgs_relocate : parenArgs (relocate ρ text ps) = parenArgs ps := by
  simp [parenArgs]

@[simp]
theorem fnPtr_relocate : fnPtr (relocate ρ text ps) = fnPtr ps := by
  simp only [fnPtr, binder_relocate, has_relocate, abi?_relocate, type?_relocate]
  rw [pick_relocate_of_eq ps fun m => by cases m <;> rfl]

@[simp]
theorem genericParam_relocate :
    genericParam (relocate ρ text ps) = (genericParam ps).relocate ρ text := by
  simp only [genericParam, attrs_relocate]
  rw [pick_relocate_of_eq ps fun m => by cases m <;> rfl]
  cases (pick _ ps).head? <;> rfl

theorem segment_relocate {source source' : List Char} {ps : Parts}
    (hkeeps : ρ.Keeps source source' (tokens ps)) (turbofish : Bool) :
    segment turbofish source' (relocate ρ text ps) = segment turbofish source ps := by
  simp only [segment, take_relocate, text_relocate hkeeps (List.take_subset 1 ps), args?_relocate]

/-! ### Members -/

theorem defaultness_relocate :
    defaultness (relocate ρ text ps) = relocated ρ.place id (defaultness ps) := by
  unfold defaultness
  rw [pick_relocate ps ρ.token fun m => by cases m <;> rfl, List.head?_map]
  cases (pick _ ps).head? with
  | none => rfl
  | some t =>
    simp only [Option.map_some, Relocation.text, Relocation.loc]
    split <;> rfl

/-- The first fault of some results is moved with them. -/
theorem mapM_relocated {α : Type} (g : Loc → Loc) (move : α → α) : ∀ rs : List (Except Fault α),
    (rs.map (relocated g move)).mapM id = relocated g (List.map move) (rs.mapM id)
  | [] => rfl
  | r :: rs => by
    rw [List.map_cons, List.mapM_cons, List.mapM_cons, mapM_relocated g move rs]
    cases r with
    | error f => rfl
    | ok a => cases rs.mapM id <;> rfl

theorem signature_relocate :
    signature (relocate ρ text ps) = relocated ρ.place id (signature ps) := by
  unfold signature
  rw [pick_relocate ps (relocated ρ.place id) fun m => by cases m <;> rfl, mapM_relocated]
  simp only [name_relocate, generics_relocate, type?_relocate, has_relocate, abi?_relocate]
  cases (pick _ ps).mapM (m := Except Fault) id with
  | error f => rfl
  | ok inputs => simp [relocated]

section

variable {source source' : List Char} {ps} (hkeeps : ρ.Keeps source source' (tokens ps))

include hkeeps

theorem scope_relocate : scope source' (relocate ρ text ps) = scope source ps := by
  simp only [scope, has_relocate, plain_relocate, text_relocate hkeeps (plain_subset ps),
    text_relocate hkeeps (List.Subset.refl ps)]

variable (hne : tokens ps ≠ [])

include hne

theorem fnArg_relocate :
    fnArg source' (relocate ρ text ps) = relocated ρ.place id (fnArg source ps) := by
  simp only [fnArg, attrs_relocate, patternParts_relocate, type?_relocate, tokens_relocate,
    receiver?_map, loc_relocate hne, text_relocate hkeeps (patternParts_subset ps), List.map_map,
    Function.comp_def, Relocation.kind]
  cases receiver? (tokens (patternParts ps)) with
  | some r =>
    obtain ⟨_ | _, lifetime, mutable⟩ := r <;> cases type? ps <;> rfl
  | none =>
    cases type? ps with
    | some ty => rfl
    | none =>
      simp only
      split <;> rfl

theorem verbatim_relocate :
    verbatim source' (relocate ρ text ps) = (verbatim source ps).relocate ρ.place := by
  simp [verbatim, Member.relocate, loc_relocate hne, text_relocate hkeeps (List.Subset.refl ps)]

theorem methodMember_relocate : methodMember source' (relocate ρ text ps) =
    relocated ρ.place (Member.relocate ρ.place) (methodMember source ps) := by
  unfold methodMember
  rw [defaultness_relocate, pick_relocate ps (Prod.map (relocated ρ.place id) id) fun m => by
    cases m <;> rfl, List.head?_map, verbatim_relocate hkeeps hne]
  simp only [attrs_relocate, vis_relocate, loc_relocate hne]
  cases defaultness ps with
  | error f => rfl
  | ok isDefault =>
    cases (pick _ ps).head? with
    | none => rfl
    | some sb =>
      obtain ⟨sig, _ | body⟩ := sb
      · rfl
      · cases sig <;> rfl

theorem constMember_relocate : constMember source' (relocate ρ text ps) =
    relocated ρ.place (Member.relocate ρ.place) (constMember source ps) := by
  unfold constMember
  rw [defaultness_relocate, pick_relocate_of_eq ps fun m => by cases m <;> rfl,
    verbatim_relocate hkeeps hne]
  simp only [word?_relocate, type_relocate, attrs_relocate, vis_relocate, loc_relocate hne]
  cases defaultness ps with
  | error f => rfl
  | ok isDefault => cases (pick _ ps).head? <;> rfl

theorem typeMember_relocate : typeMember source' (relocate ρ text ps) =
    relocated ρ.place (Member.relocate ρ.place) (typeMember source ps) := by
  unfold typeMember
  rw [defaultness_relocate, pick_relocate_of_eq ps fun m => by cases m <;> rfl,
    verbatim_relocate hkeeps hne]
  simp only [name_relocate, bounds_relocate, params_relocate, clause?_relocate, attrs_relocate,
    vis_relocate, loc_relocate hne]
  cases defaultness ps with
  | error f => rfl
  | ok isDefault => cases (pick _ ps).head? <;> rfl

theorem macroMember_relocate : macroMember source' (relocate ρ text ps) =
    (macroMember source ps).relocate ρ.place := by
  have hpath : plain (before .bang ps) ⊆ ps := List.Subset.trans (plain_subset _) (before_subset ps _)
  have htokens : before .semi (after .bang ps) ⊆ ps :=
    List.Subset.trans (before_subset _ _) (after_subset ps _)
  simp only [macroMember, Member.relocate, before_relocate, after_relocate, plain_relocate,
    text_relocate hkeeps hpath, text_relocate hkeeps htokens, has_relocate, attrs_relocate,
    loc_relocate hne, Option.map_some]

theorem foreignMember_relocate : foreignMember source' (relocate ρ text ps) =
    (foreignMember source ps).relocate ρ.place := by
  have hhead : (plain ps).take 1 ⊆ ps := List.Subset.trans (List.take_subset _ _) (plain_subset ps)
  simp only [foreignMember, Member.relocate, plain_relocate, take_relocate,
    text_relocate hkeeps hhead, text_relocate hkeeps (List.Subset.refl ps), loc_relocate hne,
    Option.map_some]

end

theorem implBlock_relocate (source : List Char) {source' : List Char} (hne : tokens ps ≠ []) :
    implBlock source' (relocate ρ (String.ofList source') ps) =
      relocated ρ.place (ImplBlock.relocate ρ.place (some (String.ofList source')))
        (implBlock source ps) := by
  unfold implBlock
  rw [defaultness_relocate, pick_relocate_of_eq ps fun m => by cases m <;> rfl,
    pick_relocate ps (Prod.map id (List.map (relocated ρ.place (Member.relocate ρ.place))))
      fun m => by cases m <;> rfl, List.head?_map]
  simp only [generics_relocate, attrs_relocate, has_relocate, loc_relocate hne]
  cases defaultness ps with
  | error f => rfl
  | ok isDefault =>
    cases (pick _ ps).head? with
    | none => rfl
    | some body =>
      obtain ⟨innerAttrs, items⟩ := body
      simp only [Option.map_some, Option.getD_some, Prod.map, mapM_relocated]
      cases items.mapM id <;> rfl

/-! ### Rules -/

/-- What a rule covers means the same at the new places. -/
theorem ruleMeaning_relocate {source source' : List Char} {ps : Parts} (r : Grammar.Rule)
    (hkeeps : r ≠ .implBlock → ρ.Keeps source source' (tokens ps)) (hne : tokens ps ≠ []) :
    ruleMeaning source' r (relocate ρ (String.ofList source') ps) =
      (ruleMeaning source r ps).relocate ρ (String.ofList source') := by
  by_cases hr : r = .implBlock
  · subst hr
    simp only [ruleMeaning, Meaning.relocate, implBlock_relocate ps source hne]
  have hall := hkeeps hr
  have htext : ∀ {qs : Parts}, qs ⊆ ps →
      Parts.text source' (relocate ρ (String.ofList source') qs) = Parts.text source qs :=
    fun hsub => text_relocate hall hsub
  have hself : Parts.text source' (relocate ρ (String.ofList source') ps) = Parts.text source ps :=
    htext (List.Subset.refl ps)
  clear hkeeps
  cases r
  case implBlock => exact absurd rfl hr
  case marker =>
    simp only [ruleMeaning, relocate, List.head?_map]
    cases ps.head? with
    | none => rfl
    | some p =>
      simp only [Option.map_some, Option.bind_some, token?_relocate]
      cases p.token? <;> rfl
  case implBody =>
    simp only [ruleMeaning, Meaning.relocate, attrs_relocate]
    rw [pick_relocate ps (relocated ρ.place (Member.relocate ρ.place)) fun m => by
      cases m <;> rfl]
  case methodMember => simp only [ruleMeaning, Meaning.relocate, methodMember_relocate hall hne]
  case constMember => simp only [ruleMeaning, Meaning.relocate, constMember_relocate hall hne]
  case typeMember => simp only [ruleMeaning, Meaning.relocate, typeMember_relocate hall hne]
  case macroMember =>
    simp only [ruleMeaning, Meaning.relocate, macroMember_relocate hall hne, relocated]
  case foreignMember =>
    simp only [ruleMeaning, Meaning.relocate, foreignMember_relocate hall hne, relocated]
  case fnItem =>
    simp only [ruleMeaning, Meaning.relocate, signature_relocate, plain_relocate, isEmpty_relocate,
      htext (plain_subset ps)]
  case fnParam => simp only [ruleMeaning, Meaning.relocate, fnArg_relocate hall hne]
  case constInit =>
    simp only [ruleMeaning, Meaning.relocate, drop_relocate, htext (List.drop_subset 1 ps)]
  case visibility =>
    simp only [ruleMeaning, Meaning.relocate, visibility, has_relocate]
    rw [pick_relocate_of_eq ps fun m => by cases m <;> rfl]
  case visScope => simp only [ruleMeaning, Meaning.relocate, scope_relocate hall]
  case lifetimeBounds =>
    simp only [ruleMeaning, Meaning.relocate, tokens_relocate, List.filter_map, List.map_map,
      Function.comp_def, Relocation.is, Relocation.text]
  case constParam =>
    simp only [ruleMeaning, Meaning.relocate, plain_relocate, isEmpty_relocate, name_relocate,
      type_relocate, htext (plain_subset ps)]
  case arrayType =>
    have hlength : (after .semi ps).dropLast ⊆ ps :=
      List.Subset.trans (List.dropLast_subset _) (after_subset ps _)
    simp only [ruleMeaning, Meaning.relocate, arrayLength, after_relocate, dropLast_relocate,
      type_relocate, htext hlength]
  case macroType =>
    simp only [ruleMeaning, Meaning.relocate, before_relocate, after_relocate,
      htext (before_subset ps _), htext (after_subset ps _)]
  case pathSegment | turbofishSegment =>
    simp only [ruleMeaning, Meaning.relocate, segment_relocate hall]
  case genericParam => exact genericParam_relocate ps
  case generics | whereClause | angleArgs =>
    simp only [ruleMeaning, Meaning.relocate]
    rw [pick_relocate_of_eq ps fun m => by cases m <;> rfl]
  case parenBound =>
    simp only [ruleMeaning, eachBound_relocate]
    cases (eachBound ps).head? <;> rfl
  case type | typeNoBounds =>
    simp only [ruleMeaning, path?_relocate, type_relocate]
    cases path? ps <;> rfl
  all_goals
    simp only [ruleMeaning, Meaning.relocate, type_relocate, path?_relocate, has_relocate,
      word?_relocate, bounds_relocate, clause?_relocate, hself, name_relocate, type?_relocate,
      lifetime?_relocate, lifetimes_relocate, lifetimeParams_relocate, eachBound_relocate,
      traitBound, binder_relocate, path_relocate, qualifiedPath, segments_relocate, types_relocate,
      fnPtr_relocate, parenArgs_relocate, args?_relocate]

/-! ### Trees -/

open TraitLift.Grammar (Rule rust leavesOf)

theorem phrase_node (source : List Char) (r : Rule) (cs : List (Grammar.Tree Token Rule)) :
    phrase source (.node r cs) =
      ⟨tokens (cs.map (phrase source)), ruleMeaning source r (cs.map (phrase source))⟩ := by
  rw [phrase, Grammar.Tree.fold, Grammar.foldAll_eq_map]

mutual

theorem tokens_phrase (source : List Char) :
    ∀ t : Grammar.Tree Token Rule, (phrase source t).tokens = t.leaves
  | .leaf _ => rfl
  | .node r cs => by
    rw [phrase_node, Grammar.Tree.leaves]
    exact tokens_phrases source cs

theorem tokens_phrases (source : List Char) :
    ∀ cs : List (Grammar.Tree Token Rule), tokens (cs.map (phrase source)) = leavesOf cs
  | [] => rfl
  | c :: cs => by
    rw [List.map_cons, tokens, List.flatMap_cons, tokens_phrase source c, leavesOf]
    exact congrArg _ (tokens_phrases source cs)

end

/-- Every part of a tree covers a token, and the text between the tokens of a part that is no block is
the same at the new places. -/
inductive Movable (ρ : Relocation) (source source' : List Char) : Grammar.Tree Token Rule → Prop where
  | leaf (t : Token) : Movable ρ source source' (.leaf t)
  | node {r : Rule} {cs : List (Grammar.Tree Token Rule)} : leavesOf cs ≠ [] →
      (r ≠ .implBlock → ρ.Keeps source source' (leavesOf cs)) →
      (∀ c ∈ cs, Movable ρ source source' c) → Movable ρ source source' (.node r cs)

/-- A part of the source means the same at the new places. -/
theorem phrase_relocate {source source' : List Char} {t : Grammar.Tree Token Rule}
    (h : Movable ρ source source' t) :
    phrase source' (t.map ρ.token) = (phrase source t).relocate ρ (String.ofList source') := by
  induction h with
  | leaf t => rfl
  | @node r cs hne hkeeps _ ih =>
    have hparts : (cs.map (Grammar.Tree.map ρ.token)).map (phrase source') =
        relocate ρ (String.ofList source') (cs.map (phrase source)) := by
      rw [List.map_map, relocate, List.map_map]
      exact List.map_congr_left ih
    rw [← tokens_phrases source cs] at hne hkeeps
    rw [Grammar.Tree.map_node, phrase_node, phrase_node, hparts, tokens_relocate,
      ruleMeaning_relocate r hkeeps hne]
    rfl

/-- The trees of a derivation can be moved if the text between their tokens stays. -/
theorem movable_of_parses {source source' : List Char} {k : List Grammar.Syn}
    {ps : List (Grammar.Tree Token Rule)} (h : rust.Parses k ps) :
    ∀ t ∈ ps, ρ.Keeps source source' t.leaves → Movable ρ source source' t := by
  induction h with
  | done => simp
  | leaf _ _ _ ih =>
    intro t ht hkeeps
    rcases List.mem_cons.1 ht with rfl | ht
    · exact .leaf _
    · exact ih t ht hkeeps
  | @node k m r cs ps _ hcs _ ihcs ihps =>
    intro t ht hkeeps
    rcases List.mem_cons.1 ht with rfl | ht
    · rw [Grammar.Tree.leaves] at hkeeps
      refine .node (hcs.reads.ne_nil_of_body Grammar.rust_solid) (fun _ => hkeeps) fun c hc => ?_
      exact ihcs c hc (hkeeps.mono (Grammar.leaves_subset_leavesOf hc))
    · exact ihps t ht hkeeps

end Reading

/-! ### Texts -/

open TraitLift.Grammar

variable {ρ : Relocation} {source source' : List Char} {ts : List Token}

theorem readParts_relocate (goal : Goal) {e : Syn} (hscan : scan source = ⟨ts, none⟩)
    (hscan' : scan source' = ⟨ts.map ρ.token, none⟩)
    (h : ∀ trees, rust.read e ts = .sentence trees →
      ∀ t ∈ trees, Reading.Movable ρ source source' t) :
    readParts goal e source' =
      relocated ρ.place (Parts.relocate ρ (String.ofList source')) (readParts goal e source) := by
  have hread := read_map (G := rust) (f := ρ.token) (fun c t => by simp [rust]) e ts
  simp only [readParts, hscan, hscan', hread]
  cases hcase : rust.read e ts with
  | stuck t => simp [Grammar.Reading.map, relocated, Fault.relocate]
  | short => rfl
  | sentence trees =>
    simp only [Grammar.Reading.map, relocated, List.map_map]
    congr 1
    rw [Parts.relocate, List.map_map]
    exact List.map_congr_left fun t ht => Reading.phrase_relocate (h trees hcase t ht)

/-- Other places for its tokens move a block, and change nothing else about it. -/
theorem parseBlock_relocate (hscan : scan source = ⟨ts, none⟩)
    (hscan' : scan source' = ⟨ts.map ρ.token, none⟩)
    (h : ∀ trees, rust.read (Syn.use .implBlock) ts = .sentence trees →
      ∀ t ∈ trees, Reading.Movable ρ source source' t) :
    parseBlock (String.ofList source') =
      relocated ρ.place (ImplBlock.relocate ρ.place (some (String.ofList source')))
        (parseBlock (String.ofList source)) := by
  unfold parseBlock
  rw [String.toList_ofList, String.toList_ofList, readParts_relocate .block hscan hscan' h]
  cases readParts .block (Syn.use .implBlock) source with
  | error f => rfl
  | ok parts =>
    simp only [relocated, bind, Except.bind]
    rw [Parts.pick_relocate parts
      (relocated ρ.place (ImplBlock.relocate ρ.place (some (String.ofList source'))))
      fun m => by cases m <;> rfl, List.head?_map]
    cases (Parts.pick _ parts).head? with
    | none => rfl
    | some b => cases b <;> rfl

/-! ### New places alone -/

/-- Tokens with new places and the same ranges. -/
def Relocation.ofPlace (g : Loc → Loc) : Relocation :=
  ⟨fun t => { t with loc := g t.loc }, g, fun _ => rfl, fun _ => rfl, fun _ => rfl⟩

/-- Every place in what is read is the place of a token: new places that are the old ones for all
tokens change nothing. -/
theorem relocated_parseBlock {g : Loc → Loc} (hscan : scan source = ⟨ts, none⟩)
    (hg : ∀ t ∈ ts, g t.loc = t.loc) :
    relocated g (ImplBlock.relocate g (some (String.ofList source)))
      (parseBlock (String.ofList source)) = parseBlock (String.ofList source) := by
  have hsame : ts.map (Relocation.ofPlace g).token = ts := by
    refine (List.map_congr_left fun t ht => ?_).trans (List.map_id ts)
    simp only [Relocation.ofPlace, hg t ht, id]
  refine (@parseBlock_relocate (.ofPlace g) source source ts hscan (by rw [hsame, hscan])
    fun trees h t ht => ?_).symm
  have hholds := read_holds rust_proper rust_ranked (Syn.use .implBlock) ts
  rw [h] at hholds
  exact Reading.movable_of_parses hholds.1 t ht fun _ _ _ _ => rfl

/-- A block knows the text it was read from. -/
theorem parseBlock_source (hscan : scan source = ⟨ts, none⟩) {b : ImplBlock}
    (h : parseBlock (String.ofList source) = .ok b) : b.source = some (String.ofList source) := by
  have hsame := relocated_parseBlock (g := id) hscan fun _ _ => rfl
  rw [h, relocated, Except.ok.injEq] at hsame
  rw [← hsame]
  rfl

end TraitLift
