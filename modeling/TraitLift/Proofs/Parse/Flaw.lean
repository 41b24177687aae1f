import Mathlib.Tactic
import TraitLift.Proofs.Reading.Flaw
import TraitLift.Proofs.Reading.Sense

/-!
Reading a block reports the leftmost of its faults. Each step of putting a block together `Reports` the
head of the list of faults of the tree that it reads (`reports_implBlock`), and that list is in the
order of the source, so a block is refused exactly if a node of it is at fault, and then for the fault
that starts first (`parseBlock_flaws`).
-/

namespace TraitLift

open TraitLift.Grammar

section

variable {source : List Char} {inBody : Bool}

/-! ### The head of the list is reported -/

/-- `Reports x l`: the computation fails with the first fault of the list, or the list is empty and it
gives a result. -/
def Reports {β : Type} (x : Except Fault β) : List (Syntax × Fault) → Prop
  | [] => ∃ b, x = .ok b
  | p :: _ => x = .error p.2

theorem Reports.bind {β γ : Type} {x : Except Fault β} {g : β → Except Fault γ}
    {as bs : List (Syntax × Fault)} (hx : Reports x as) (hg : ∀ b, Reports (g b) bs) :
    Reports (x >>= g) (as ++ bs) := by
  cases as with
  | nil =>
    obtain ⟨b, rfl⟩ := hx
    exact hg b
  | cons p as =>
    obtain rfl : x = .error p.2 := hx
    rfl

theorem Reports.bind_ok {β γ : Type} {x : Except Fault β} {g : β → Except Fault γ}
    {as : List (Syntax × Fault)} (hx : Reports x as) (hg : ∀ b, ∃ c, g b = .ok c) :
    Reports (x >>= g) as := by
  rw [← List.append_nil as]
  exact hx.bind hg

/-- Whether only one of the rules in which faults are looked for means this. -/
def Meaning.isLoud : Meaning → Bool
  | .marker _ | .body .. | .member _ | .function .. | .fnArg _ | .block _ => true
  | _ => false

namespace Meaning

/-- The marker that is meant. -/
def marker? : Meaning → Option Token
  | .marker t => some t
  | _ => none

theorem marker?_eq_none (m : Meaning) (h : m.isLoud = false) : m.marker? = none := by
  cases m <;> first | rfl | simp [isLoud] at h

/-- The parameter of a function that is meant, or the fault found in it. -/
def fnArg? : Meaning → Option (Except Fault FnArg)
  | .fnArg a => some a
  | _ => none

theorem fnArg?_eq_none (m : Meaning) (h : m.isLoud = false) : m.fnArg? = none := by
  cases m <;> first | rfl | simp [isLoud] at h

/-- The member that is meant, or the fault found in it. -/
def member? : Meaning → Option (Except Fault Member)
  | .member m => some m
  | _ => none

theorem member?_eq_none (m : Meaning) (h : m.isLoud = false) : m.member? = none := by
  cases m <;> first | rfl | simp [isLoud] at h

/-- The function that is meant: its head, or the fault found in it, and its body. -/
def function? : Meaning → Option (Except Fault Signature × Option String)
  | .function sig text => some (sig, text)
  | _ => none

theorem function?_eq_none (m : Meaning) (h : m.isLoud = false) : m.function? = none := by
  cases m <;> first | rfl | simp [isLoud] at h

/-- The body that is meant. -/
def body? : Meaning → Option (List Attribute × List (Except Fault Member))
  | .body as items => some (as, items)
  | _ => none

theorem body?_eq_none (m : Meaning) (h : m.isLoud = false) : m.body? = none := by
  cases m <;> first | rfl | simp [isLoud] at h

end Meaning

theorem Quiet.meaning {c : Syntax} (h : Quiet c) : (Reading.phrase source c).meaning.isLoud = false := by
  obtain ⟨t, rfl⟩ | ⟨q, hq, ds, rfl, -⟩ := h
  · rfl
  · rw [Reading.phrase_node]
    cases q
    case genericParam =>
      simp only [Reading.ruleMeaning, Reading.genericParam]
      split <;> rfl
    all_goals first
      | rfl
      | exact absurd (by decide) hq
      | (simp only [Reading.ruleMeaning]; split <;> rfl)

section

variable {β : Type} {g : Meaning → Option β} (hg : ∀ m, m.isLoud = false → g m = none)

include hg

theorem Quiet.pick_eq_nil {cs : List Syntax} (h : ∀ c ∈ cs, Quiet c) :
    Parts.pick g (cs.map (Reading.phrase source)) = [] :=
  List.filterMap_eq_nil_iff.2 (List.forall_mem_map.2 fun c hc => hg _ (h c hc).meaning)

end

/-- What the parts give one by one is reported as a whole. -/
theorem reports_pick {β : Type} {g : Meaning → Option (Except Fault β)}
    (hg : ∀ m, m.isLoud = false → g m = none) : ∀ {cs : List Syntax},
    (∀ c ∈ cs, Quiet c ∨ ∃ x, g (Reading.phrase source c).meaning = some x ∧
      Reports x (flaws source inBody c)) →
    Reports ((Parts.pick g (cs.map (Reading.phrase source))).mapM id) (flawsOf source inBody cs)
  | [], _ => ⟨[], rfl⟩
  | c :: cs, h => by
    have hrest := reports_pick hg fun d hd => h d (List.mem_cons_of_mem c hd)
    rw [flawsOf, List.map_cons, Parts.pick, List.filterMap_cons]
    rcases h c (List.mem_cons_self ..) with hquiet | ⟨x, hx, hreports⟩
    · rwa [hg _ hquiet.meaning, hquiet.flaws, List.nil_append]
    · rw [hx, List.mapM_cons]
      exact hreports.bind fun b => hrest.bind_ok fun bs => ⟨b :: bs, rfl⟩

/-! ### Functions -/

theorem reports_fnArg {ps : List Syntax} (h : Parses rust [ruleBody .fnParam] ps) :
    Reports (Reading.fnArg source (ps.map (Reading.phrase source)))
      (flaws source true (.node .fnParam ps)) := by
  have hquiet := quiet_of_covers (parses_iff_covers.1 h) (by decide)
  have hfault := fnArg_fault source h
  rw [flaws, Quiet.flawsOf hquiet, List.append_nil, ownFlaw, if_pos rfl]
  cases hf : paramFault? source ps with
  | none => simpa [hf, Reports] using hfault
  | some f => simpa [hf, Reports] using hfault

theorem reports_signature {fs : List Syntax} (h : Parses rust [ruleBody .fnItem] fs) :
    Reports (Reading.signature (fs.map (Reading.phrase source))) (flawsOf source true fs) := by
  have hrules : ∀ q ∈ Rule.all, mentions q (ruleBody .fnItem) → q ∉ loudRules ∨ q = .fnParam := by
    decide +kernel
  refine (reports_pick Meaning.fnArg?_eq_none fun c hc => ?_).bind_ok fun inputs => ⟨_, rfl⟩
  cases c with
  | leaf t => exact Or.inl (Or.inl ⟨t, rfl⟩)
  | node q ds =>
    have hds := h.of_node_mem hc
    rcases hrules q (rust_listed q) (mentions_of_covers (parses_iff_covers.1 h) hc) with hq | rfl
    · exact Or.inl (Or.inr ⟨q, hq, ds, rfl, hds⟩)
    · exact Or.inr ⟨_, by rw [Reading.phrase_node]; rfl, reports_fnArg hds⟩

/-- Without a body the parameters of a function are not looked at. -/
theorem flaws_fnItem {fs : List Syntax} (h : Parses rust [ruleBody .fnItem] fs) :
    flaws source inBody (.node .fnItem fs) = if hasBody fs then flawsOf source true fs else [] := by
  have hrules : ∀ q ∈ Rule.all, mentions q (ruleBody .fnItem) → q ∉ loudRules ∨ q = .fnParam := by
    decide +kernel
  have hnone : ∀ cs ⊆ fs, flawsOf source false cs = [] := by
    intro cs hsub
    induction cs with
    | nil => rfl
    | cons c cs ih =>
      obtain ⟨hc, hcs⟩ := List.cons_subset.1 hsub
      rw [flawsOf, ih hcs, List.append_nil]
      cases c with
      | leaf t => rfl
      | node q ds =>
        have hds := h.of_node_mem hc
        rcases hrules q (rust_listed q) (mentions_of_covers (parses_iff_covers.1 h) hc) with hq | rfl
        · have hquiet : Quiet (.node q ds) := Or.inr ⟨q, hq, ds, rfl, hds⟩
          exact hquiet.flaws false
        · rw [flaws, Quiet.flawsOf (quiet_of_covers (parses_iff_covers.1 hds) (by decide))]
          rfl
  rw [flaws, show ownFlaw source inBody .fnItem fs = [] from rfl, List.nil_append, decide_eq_true rfl,
    Bool.true_and]
  cases hbody : hasBody fs
  · exact hnone fs (List.Subset.refl fs)
  · rfl

theorem hasBody_eq (fs : List Syntax) : hasBody fs = fs.any (isNode .braceTree) := by
  rw [hasBody]
  congr 1
  funext c
  cases c with
  | leaf t => rfl
  | node r ds => cases r <;> rfl

variable (source) in
/-- The body of a function is the only part of it that is only kept as text. -/
theorem plain_fnItem {fs : List Syntax} (h : Parses rust [ruleBody .fnItem] fs) :
    Parts.plain (fs.map (Reading.phrase source)) = (kids .braceTree fs).map (Reading.phrase source) :=
  Reading.plain_eq_kids (parses_iff_covers.1 h) (by decide +kernel)

variable (source) in
theorem plain_isEmpty {fs : List Syntax} (h : Parses rust [ruleBody .fnItem] fs) :
    (Parts.plain (fs.map (Reading.phrase source))).isEmpty = !hasBody fs := by
  rw [plain_fnItem source h, hasBody_eq, kids, List.isEmpty_map, Bool.eq_iff_iff]
  simp

/-! ### Members -/

/-- What a marker says that may be missing. -/
def markedDefault : Option Token → Except Fault Bool
  | none => .ok false
  | some t => if t.text = "default" then .ok true else .error (.strayName t.text t.loc)

/-- What is read of a marker that may be missing. -/
theorem reports_defaultness {us ms vs : List Syntax} (hus : ∀ c ∈ us, Quiet c)
    (hms : Grammar.Covers rust (Expr.opt (Syn.use .marker)) ms)
    (hvs : Parts.pick Meaning.marker? (vs.map (Reading.phrase source)) = []) :
    Reports (Reading.defaultness ((us ++ (ms ++ vs)).map (Reading.phrase source)))
      (flawsOf source inBody ms) := by
  have hpick : Parts.pick Meaning.marker? ((us ++ (ms ++ vs)).map (Reading.phrase source)) =
      Parts.pick Meaning.marker? (ms.map (Reading.phrase source)) := by
    rw [List.map_append, List.map_append, Reading.pick_append, Reading.pick_append, hvs,
      Quiet.pick_eq_nil Meaning.marker?_eq_none hus, List.nil_append, List.append_nil]
  change Reports (markedDefault (Parts.pick Meaning.marker? _).head?) _
  rw [hpick]
  rcases hms with ⟨cs, rfl, hcs⟩ | rfl
  · obtain ⟨t, rfl, ht⟩ := parses_iff_covers.1 hcs
    rw [List.map_singleton, Reading.phrase_node]
    change Reports (if t.text = "default" then .ok true else .error (.strayName t.text t.loc)) _
    by_cases htext : t.text = "default"
    · rw [if_pos htext, flawsOf, flaws, ownFlaw, if_pos htext]
      exact ⟨true, rfl⟩
    · rw [if_neg htext, flawsOf, flaws, ownFlaw, if_neg htext]
      rfl
  · exact ⟨false, rfl⟩

/-- The attributes and the visibility in front of a member, its marker, and the rest of it. -/
theorem exists_head {e : Syn} {cs : List Syntax}
    (h : Grammar.Covers rust (Expr.all (Syn.memberHead ++ [e])) cs) :
    ∃ us ms vs, cs = us ++ (ms ++ vs) ∧ (∀ c ∈ us, Quiet c) ∧
      Grammar.Covers rust (Expr.opt (Syn.use .marker)) ms ∧ Grammar.Covers rust e vs := by
  obtain ⟨as, _, rfl, has, ws, _, rfl, hws, ms, vs, rfl, hms, hvs⟩ := h
  refine ⟨as ++ ws, ms, vs, (List.append_assoc ..).symm, List.forall_mem_append.2 ⟨?_, ?_⟩, hms, hvs⟩
  · exact quiet_of_covers has (by decide)
  · exact quiet_of_covers hws (by decide)

/-- What a method means is what its function means. -/
theorem pick_function {us ms fs : List Syntax} (hus : ∀ c ∈ us, Quiet c)
    (hms : Grammar.Covers rust (Expr.opt (Syn.use .marker)) ms) (hfs : Parses rust [ruleBody .fnItem] fs) :
    Parts.pick Meaning.function? ((us ++ (ms ++ [Grammar.Tree.node .fnItem fs])).map
      (Reading.phrase source)) = [(Reading.signature (fs.map (Reading.phrase source)),
        if hasBody fs then some (Parts.text source (Parts.plain (fs.map (Reading.phrase source))))
        else none)] := by
  have hmarker : Parts.pick Meaning.function? (ms.map (Reading.phrase source)) = [] := by
    rcases hms with ⟨cs, rfl, hcs⟩ | rfl
    · obtain ⟨t, rfl, -⟩ := parses_iff_covers.1 hcs
      rw [List.map_singleton, Reading.phrase_node]
      rfl
    · rfl
  rw [List.map_append, List.map_append, Reading.pick_append, Reading.pick_append, hmarker,
    Quiet.pick_eq_nil Meaning.function?_eq_none hus, List.map_singleton, Reading.phrase_node]
  have hempty := plain_isEmpty source hfs
  cases hbody : hasBody fs <;> simp [hbody] at hempty <;>
    simp [Parts.pick, Meaning.function?, Reading.ruleMeaning, hempty]

theorem reports_methodMember {cs : List Syntax} (h : Parses rust [ruleBody .methodMember] cs) :
    Reports (Reading.methodMember source (cs.map (Reading.phrase source)))
      (flawsOf source false cs) := by
  obtain ⟨us, ms, vs, rfl, hus, hms, fs, rfl, hfs⟩ := exists_head (parses_iff_covers.1 h)
  rw [flawsOf_append, flawsOf_append, Quiet.flawsOf hus, List.nil_append]
  refine (reports_defaultness hus hms ?_).bind fun isDefault => ?_
  · rw [List.map_singleton, Reading.phrase_node]
    rfl
  · rw [flawsOf, flawsOf, List.append_nil, flaws_fnItem hfs]
    generalize hfound : (Parts.pick _ ((us ++ (ms ++ [Grammar.Tree.node .fnItem fs])).map
      (Reading.phrase source))).head? = found
    replace hfound := hfound.symm.trans (congrArg List.head? (pick_function hus hms hfs))
    cases hbody : hasBody fs
    · simp only [hbody, List.head?_cons] at hfound
      subst hfound
      exact ⟨_, rfl⟩
    · simp only [hbody, List.head?_cons] at hfound
      subst hfound
      exact (reports_signature hfs).bind_ok fun sig => ⟨_, rfl⟩

/-- A member that has nothing but its marker to be at fault. -/
theorem reports_headed {β : Type} {e : Syn} {cs : List Syntax}
    (h : Grammar.Covers rust (Expr.all (Syn.memberHead ++ [e])) cs)
    (he : ∀ q ∈ Rule.all, mentions q e → q ∉ loudRules) {g : Bool → Except Fault β}
    (hg : ∀ b, ∃ m, g b = .ok m) :
    Reports (Reading.defaultness (cs.map (Reading.phrase source)) >>= g) (flawsOf source false cs) := by
  obtain ⟨us, ms, vs, rfl, hus, hms, hvs⟩ := exists_head h
  have hvs := quiet_of_covers hvs he
  rw [flawsOf_append, flawsOf_append, Quiet.flawsOf hus, Quiet.flawsOf hvs, List.nil_append,
    List.append_nil]
  exact (reports_defaultness hus hms (Quiet.pick_eq_nil Meaning.marker?_eq_none hvs)).bind_ok hg

theorem reports_member {r : Rule} (hr : r ∈ .foreignMember :: ownRules) {ms : List Syntax}
    (h : Parses rust [ruleBody r] ms) : ∃ x, (Reading.phrase source (.node r ms)).meaning = .member x ∧
      Reports x (flaws source inBody (.node r ms)) := by
  have hquiet : (∀ q ∈ Rule.all, mentions q (ruleBody r) → q ∉ loudRules) →
      flawsOf source false ms = [] :=
    fun hrules => Quiet.flawsOf (quiet_of_covers (parses_iff_covers.1 h) hrules) false
  rw [Reading.phrase_node]
  simp only [ownRules, List.mem_cons, List.not_mem_nil, or_false] at hr
  rcases hr with rfl | rfl | rfl | rfl | rfl
  · refine ⟨_, rfl, ?_⟩
    change Reports _ (flawsOf source false ms)
    rw [hquiet (by decide)]
    exact ⟨_, rfl⟩
  · exact ⟨_, rfl, reports_methodMember h⟩
  · refine ⟨_, rfl, reports_headed (parses_iff_covers.1 h) (by decide) fun b => ?_⟩
    split <;> exact ⟨_, rfl⟩
  · refine ⟨_, rfl, reports_headed (parses_iff_covers.1 h) (by decide) fun b => ?_⟩
    split <;> exact ⟨_, rfl⟩
  · refine ⟨_, rfl, ?_⟩
    change Reports _ (flawsOf source false ms)
    rw [hquiet (by decide)]
    exact ⟨_, rfl⟩

/-! ### Blocks -/

theorem reports_implBody {bs : List Syntax} (h : Parses rust [ruleBody .implBody] bs) :
    Reports ((Parts.pick Meaning.member? (bs.map (Reading.phrase source))).mapM id)
      (flawsOf source inBody bs) := by
  have hrules : ∀ q ∈ Rule.all, mentions q (ruleBody .implBody) →
      q ∉ loudRules ∨ q ∈ .foreignMember :: ownRules := by decide +kernel
  refine reports_pick Meaning.member?_eq_none fun c hc => ?_
  cases c with
  | leaf t => exact Or.inl (Or.inl ⟨t, rfl⟩)
  | node q ds =>
    have hds := h.of_node_mem hc
    rcases hrules q (rust_listed q) (mentions_of_covers (parses_iff_covers.1 h) hc) with hq | hq
    · exact Or.inl (Or.inr ⟨q, hq, ds, rfl, hds⟩)
    · obtain ⟨x, hx, hreports⟩ : ∃ x, _ ∧ Reports x (flaws source inBody (.node q ds)) :=
        reports_member hq hds
      exact Or.inr ⟨x, by rw [hx]; rfl, hreports⟩

variable (source) in
/-- Reading a block reports the first of its faults. -/
theorem reports_implBlock {cs : List Syntax} (h : Parses rust [ruleBody .implBlock] cs) :
    Reports (Reading.implBlock source (cs.map (Reading.phrase source)))
      (flawsOf source false cs) := by
  obtain ⟨as, _, rfl, has, ms, _, rfl, hms, us, _, rfl, hus, _, _, rfl, ⟨i, rfl, -⟩, gs, _, rfl, hgs,
    ts, _, rfl, hts, ws, _, rfl, hws, bs, rfl, hbs⟩ := parses_iff_covers.1 h
  have has := quiet_of_covers has (by decide)
  have hquiet : ∀ c ∈ us ++ (.leaf i :: (gs ++ (ts ++ ws))), Quiet c := by
    refine List.forall_mem_append.2 ⟨quiet_of_covers hus (by decide), List.forall_mem_cons.2
      ⟨Or.inl ⟨i, rfl⟩, List.forall_mem_append.2 ⟨quiet_of_covers hgs (by decide),
        List.forall_mem_append.2 ⟨?_, quiet_of_covers hws (by decide)⟩⟩⟩⟩
    exact quiet_of_covers hts (by decide)
  have hrest : us ++ ([.leaf i] ++ (gs ++ (ts ++ (ws ++ [.node .implBody bs])))) =
      us ++ (.leaf i :: (gs ++ (ts ++ ws))) ++ [Grammar.Tree.node .implBody bs] := by simp
  rw [hrest]
  clear h hrest
  generalize us ++ (.leaf i :: (gs ++ (ts ++ ws))) = front at hquiet
  have hpick : ∀ {β : Type} {g : Meaning → Option β}, (∀ m, m.isLoud = false → g m = none) →
      Parts.pick g ((front ++ [Grammar.Tree.node .implBody bs]).map (Reading.phrase source)) =
        Parts.pick g [Reading.phrase source (.node .implBody bs)] := by
    intro β g hg
    rw [List.map_append, Reading.pick_append, Quiet.pick_eq_nil hg hquiet, List.nil_append,
      List.map_singleton]
  have hmarker : Parts.pick Meaning.body? (ms.map (Reading.phrase source)) = [] := by
    rcases hms with ⟨ds, rfl, hds⟩ | rfl
    · obtain ⟨t, rfl, -⟩ := parses_iff_covers.1 hds
      rw [List.map_singleton, Reading.phrase_node]
      rfl
    · rfl
  have hbody : Parts.pick Meaning.body? ((as ++ (ms ++ (front ++ [Grammar.Tree.node .implBody bs]))).map
      (Reading.phrase source)) = [(Parts.attrs (bs.map (Reading.phrase source)),
        Parts.pick Meaning.member? (bs.map (Reading.phrase source)))] := by
    rw [List.map_append, List.map_append, Reading.pick_append, Reading.pick_append, hmarker,
      Quiet.pick_eq_nil Meaning.body?_eq_none has, hpick Meaning.body?_eq_none, Reading.phrase_node]
    rfl
  rw [flawsOf_append, flawsOf_append, flawsOf_append, Quiet.flawsOf has, Quiet.flawsOf hquiet,
    List.nil_append, List.nil_append]
  refine (reports_defaultness has hms ?_).bind fun isDefault => ?_
  · rw [hpick Meaning.marker?_eq_none, Reading.phrase_node]
    rfl
  · generalize Option.getD (List.head? (Parts.pick _ _)) (none, (default : TypeExpr)) = target
    obtain ⟨traitRef, selfTy⟩ := target
    generalize hfound : List.head? (Parts.pick _ ((as ++ (ms ++ (front ++
      [Grammar.Tree.node .implBody bs]))).map (Reading.phrase source))) = found
    obtain rfl := hfound.symm.trans (congrArg List.head? hbody)
    rw [flawsOf, flawsOf, List.append_nil]
    exact (reports_implBody hbs).bind_ok fun items => ⟨_, rfl⟩

end

/-! ### Blocks that are read -/

theorem parses_of_within {r : Rule} {ds : List Syntax} {c : Syntax} (h : Within (.node r ds) c) :
    ∀ {k : List Syn} {cs : List Syntax}, Parses rust k cs → c ∈ cs → Parses rust [ruleBody r] ds := by
  induction h with
  | here => exact fun hcs hmem => hcs.of_node_mem hmem
  | child hmem _ ih => exact fun hcs hnode => ih (hcs.of_node_mem hnode) hmem

/-- A node at fault starts with a token, which is the place of the fault. -/
theorem Flaw.exists_first {source : List Char} {c d : Syntax} {f : Fault} (h : Flaw source c d f)
    {k : List Syn} (hc : Parses rust k [c]) :
    ∃ t, d.leaves.head? = some t ∧ f.loc? = some t.loc ∧ f.code = "E-EXT-MALFORMED" := by
  cases h with
  | @marker t _ _ => exact ⟨t, rfl, rfl, rfl⟩
  | @param fs ps _ hwithin _ hmem hfault =>
    have hfs := parses_of_within hwithin hc (List.mem_singleton.2 rfl)
    have hps : Parses rust [ruleBody .fnParam] ps := hfs.of_node_mem hmem
    obtain ⟨t, us, hleaves⟩ := hps.exists_leaf
    refine ⟨t, by rw [Grammar.Tree.leaves, hleaves]; rfl, ?_⟩
    have hloc : locOf ps = t.loc := by rw [locOf, hleaves]; rfl
    rw [paramFault?, hloc] at hfault
    split at hfault <;> split at hfault <;> simp at hfault <;> subst hfault <;> exact ⟨rfl, rfl⟩

/-- A block whose tokens can be derived is refused exactly if a node of it is at fault, and then for the
fault that starts first. -/
theorem parseBlock_flaws {source : String} {ts : List Token} (hlex : lex source = .ok ts)
    (hderives : rust.Derives (Syn.use .implBlock) ts) :
    ∃ c, rust.read (Syn.use .implBlock) ts = .sentence [c] ∧ c.leaves = ts ∧
      (((∀ d f, ¬ Flaw source.toList c d f) ∧ ∃ b, parseBlock source = .ok b) ∨
        ∃ d f t, Flaw source.toList c d f ∧ d.leaves.head? = some t ∧
          parseBlock source = .error f ∧ f.loc? = some t.loc ∧ f.code = "E-EXT-MALFORMED" ∧
          ∀ d' f', Flaw source.toList c d' f' → (d' = d ∧ f' = f) ∨
            ∃ t', d'.leaves.head? = some t' ∧ t.start < t'.start) := by
  have hscan := lex_eq_ok_iff.1 hlex
  obtain ⟨trees, hread⟩ := (exists_read_eq_sentence_iff rust_proper rust_ranked).2 hderives
  have hholds := read_holds rust_proper rust_ranked (Syn.use .implBlock) ts
  rw [hread] at hholds
  obtain ⟨hparses, hleaves⟩ := hholds
  obtain ⟨cs, rfl, hcs⟩ := parses_iff_covers.1 hparses
  have hleaves : (Grammar.Tree.node .implBlock cs).leaves = ts := by simpa [leavesOf] using hleaves
  have hparse : parseBlock source =
      Reading.implBlock source.toList (cs.map (Reading.phrase source.toList)) := by
    simp [parseBlock, readParts, hscan, hread, bind, Except.bind, Parts.pick, Reading.phrase_node,
      Reading.ruleMeaning]
  have hreports := reports_implBlock source.toList hcs
  rw [← hparse] at hreports
  have hflaws : flaws source.toList false (.node .implBlock cs) = flawsOf source.toList false cs := rfl
  refine ⟨_, hread, hleaves, ?_⟩
  cases hlist : flawsOf source.toList false cs with
  | nil =>
    rw [hlist] at hreports hflaws
    refine Or.inl ⟨fun d f hflaw => ?_, hreports⟩
    have hmem := mem_flaws_iff.2 hflaw
    rw [hflaws] at hmem
    simp at hmem
  | cons p ps =>
    rw [hlist] at hreports hflaws
    have hflaw := mem_flaws_iff.1 (hflaws ▸ List.mem_cons_self .. : (p.1, p.2) ∈ _)
    obtain ⟨t, hfirst, hloc, hcode⟩ := hflaw.exists_first hparses
    refine Or.inr ⟨p.1, p.2, t, hflaw, hfirst, hreports, hloc, hcode, fun d' f' hflaw' => ?_⟩
    have hmem := mem_flaws_iff.2 hflaw'
    rw [hflaws] at hmem
    rcases List.mem_cons.1 hmem with rfl | hmem
    · exact Or.inl ⟨rfl, rfl⟩
    · obtain ⟨t', hfirst', -⟩ := hflaw'.exists_first hparses
      refine Or.inr ⟨t', hfirst', ?_⟩
      have horder : ts.Pairwise fun a b => a.start < b.start := by
        have hin := scan_inOrder source.toList
        rw [hscan] at hin
        exact hin.pairwise.imp_of_mem fun ha _ hle => (hin.mem_bounds ha).2.1.trans_le hle
      have hfirsts : ((flaws source.toList false (.node .implBlock cs)).flatMap fun p =>
          p.1.leaves.head?.toList).Sublist _ := firsts_sublist hparses
      rw [hflaws, hleaves, List.flatMap_cons, hfirst] at hfirsts
      refine List.rel_of_pairwise_cons (horder.sublist hfirsts) (List.mem_flatMap.2 ⟨_, hmem, ?_⟩)
      simp [hfirst']

theorem parseBlock_flaws_two : ∃ ts c d, lex "impl X { fn f(a) {} foo fn g(); }" = .ok ts ∧
    rust.Derives (Syn.use .implBlock) ts ∧
    Flaw "impl X { fn f(a) {} foo fn g(); }".toList c d (.untypedParam "a" ⟨1, 15⟩) ∧
    parseBlock "impl X { fn f(a) {} foo fn g(); }" = .error (.untypedParam "a" ⟨1, 15⟩) := by
  obtain ⟨hsome, hfault⟩ :
      (readParts .block (Syn.use .implBlock) "impl X { fn f(a) {} foo fn g(); }".toList).toOption.isSome =
        true ∧
      (match parseBlock "impl X { fn f(a) {} foo fn g(); }" with
        | .error f => some f
        | .ok _ => none) = some (.untypedParam "a" ⟨1, 15⟩) := by
    decide +kernel
  obtain ⟨parts, hparts⟩ := Option.isSome_iff_exists.1 hsome
  obtain ⟨ts, hcuts, hderives⟩ := exists_readParts_iff_derives.1 ⟨parts, ok_of_toOption hparts⟩
  have hlex := lex_eq_ok_iff.2 (scan_eq_complete_iff.2 hcuts)
  obtain ⟨c, -, -, ⟨-, b, hb⟩ | ⟨d, f, t, hflaw, -, herror, -⟩⟩ := parseBlock_flaws hlex hderives
  · simp [hb] at hfault
  · obtain rfl : f = .untypedParam "a" ⟨1, 15⟩ := by simpa [herror] using hfault
    exact ⟨ts, c, d, hlex, hderives, hflaw, herror⟩

end TraitLift
