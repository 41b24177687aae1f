import Mathlib.Tactic
import TraitLift.Cli.Session
import TraitLift.Proofs.Except

/-!
A command line that is followed to its end names a source, and just one if it names an output file
(`sources_of_readArguments`). The sources are known once there is one (`Progress.Sourced`), and every
step keeps it so. In the late edition no option is left without its value (`prepare_late_eq_error`).
-/

namespace TraitLift.Cli

/-! ### Sources -/

/-- Once the sources are known, there is one. -/
def Progress.Sourced (p : Progress) : Prop := p.hasSources = true → p.request.options.sources ≠ []

/-- An option leaves the sources alone. -/
theorem Request.sources_act {r r' : Request} {a : Action} (h : r.act a = .ok r') :
    r'.options.sources = r.options.sources := by
  have hnote : ∀ (r : Request) (o : Opt) (v : Option String),
      (r.note o v).options = r.options := by
    intro r o v
    unfold note
    split
    · rfl
    · split <;> rfl
  unfold act at h
  split at h <;> try split at h
  all_goals first
    | (obtain rfl := Except.ok.inj h; simp [hnote])
    | cases h

theorem Request.sources_actAll : ∀ {actions : List Action} {r r' : Request},
    actions.foldlM act r = .ok r' → r'.options.sources = r.options.sources
  | [], r, r', h => by
    obtain rfl : r = r' := by simpa [pure, Except.pure] using h
    rfl
  | a :: actions, r, r', h => by
    rw [List.foldlM_cons] at h
    obtain ⟨q, hq, h⟩ := bind_eq_ok h
    rw [sources_actAll h, sources_act hq]

theorem Progress.Sourced.followOption {v : Edition} {p q : Progress} {o : Opt} {isLong : Bool}
    {attached : Option Attached} {rest rest' : List Word} (hp : p.Sourced)
    (h : followOption v p o isLong attached rest = .ok (q, rest')) : q.Sourced := by
  obtain ⟨k, -, h⟩ := bind_eq_ok h
  obtain ⟨request, hacts, h⟩ := bind_eq_ok h
  obtain ⟨rfl, rfl⟩ := Prod.mk.inj (Except.ok.inj h)
  unfold Progress.Sourced
  rw [Request.sources_actAll hacts]
  exact hp

theorem Progress.Sourced.takeValues {p : Progress} (hp : p.Sourced) (run : List Word) :
    (p.takeValues run).Sourced := by
  unfold Progress.takeValues
  split
  · rename_i hrun
    obtain ⟨w, hw, hvalue⟩ := List.any_eq_true.1 (Bool.and_eq_true_iff.1 hrun).2
    intro _ hnone
    have hmem : w ∈ run.filter Word.isValue := List.mem_filter.2 ⟨hw, hvalue⟩
    rw [List.map_eq_nil_iff.1 hnone] at hmem
    exact List.not_mem_nil hmem
  · exact hp

theorem Progress.Sourced.follow {v : Edition} {fuel : Nat} {p q : Progress} {words : List Word}
    (hp : p.Sourced) (h : follow v fuel p words = .ok q) : q.Sourced := by
  fun_induction Cli.follow v fuel p words with
  | case1 => exact Except.ok.inj h ▸ hp
  | case2 => exact Except.ok.inj h ▸ hp
  | case3 fuel p o isLong attached rest ih =>
    obtain ⟨r, hr, h⟩ := bind_eq_ok h
    exact ih r.1 r.2 (hp.followOption hr) h
  | case4 fuel p s rest ih => exact ih hp h
  | case5 fuel p w rest _ _ run ih => exact ih (hp.takeValues run) h

/-- What a command line that is followed to its end was followed as. -/
theorem exists_follow {v : Edition} {argv : List String} {r : Request}
    (h : readArguments v argv = .ok r) :
    ∃ words p, follow v words.length {} words = .ok p ∧ p.request = r ∧ p.hasSources = true ∧
      (r.options.output.isSome = true → r.options.sources.length ≤ 1) := by
  obtain ⟨words, -, h⟩ := bind_eq_ok h
  obtain ⟨p, hp, h⟩ := bind_eq_ok h
  split at h
  · simp at h
  rename_i hsources
  split at h
  · simp at h
  split at h
  · simp at h
  rename_i hone
  obtain rfl := Except.ok.inj h
  exact ⟨words, p, hp, rfl, by simpa using hsources, fun hsome => by simpa [hsome] using hone⟩

/-- A command line that is followed to its end names a source, and just one if it names an output
file. -/
theorem sources_of_readArguments {v : Edition} {argv : List String} {r : Request}
    (h : readArguments v argv = .ok r) : r.options.sources ≠ [] ∧
      (r.options.output.isSome = true → r.options.sources.length ≤ 1) := by
  obtain ⟨words, p, hp, rfl, hsources, hone⟩ := exists_follow h
  have hsourced : p.Sourced := Progress.Sourced.follow (by simp [Progress.Sourced]) hp
  exact ⟨hsourced hsources, hone⟩

/-! ### Options that hold nothing -/

/-- Every option that takes a value has one. -/
def Cluster.Full (k : Cluster) : Prop := ∀ a ∈ k.actions, a.1.takesValue = true → a.2.isSome = true

theorem Cluster.Full.cons {k : Cluster} {o : Opt} (hk : k.Full) (ho : o.takesValue = false) :
    (k.cons o).Full := by
  rintro a ha
  rcases List.mem_cons.1 ha with rfl | ha
  · simp [ho]
  · exact hk a ha

theorem full_detached {o : Opt} {rest : List Word} {k : Cluster} (h : detached o rest = .ok k) :
    k.Full := by
  unfold detached at h
  split at h
  · split at h
    · obtain rfl := Except.ok.inj h
      simp [Cluster.Full]
    · simp at h
  · rename_i ho
    obtain rfl := Except.ok.inj h
    simpa [Cluster.Full] using ho

theorem full_map_cons {o : Opt} {x : Except Halt Cluster} {k : Cluster} (ho : ¬o.takesValue = true)
    (hx : ∀ {j}, x = .ok j → j.Full) (h : x.map (Cluster.cons o) = .ok k) : k.Full := by
  cases x with
  | error e => simp [Except.map] at h
  | ok j =>
    obtain rfl := Except.ok.inj h
    exact (hx rfl).cons (by simpa using ho)

theorem full_lateCluster {o : Opt} {rest : List Word} {equals : Bool} {cs : List Char}
    {k : Cluster} (h : lateCluster o rest equals cs = .ok k) : k.Full := by
  fun_induction lateCluster o rest equals cs generalizing k with
  | case1 | case3 =>
    obtain rfl := Except.ok.inj h
    simp [Cluster.Full, Edition.held]
  | case2 | case4 => simp at h
  | case5 o equals c more ho =>
    obtain rfl := Except.ok.inj h
    simpa [Cluster.Full] using ho
  | case6 o equals c ho _ next => exact full_map_cons ho full_detached h
  | case7 o equals c ho _ next more _ ih => exact full_map_cons ho ih h
  | case8 o equals c ho _ next d more _ _ ih => exact full_map_cons ho ih h

theorem full_of_late {o : Opt} {isLong : Bool} {attached : Option Attached} {rest : List Word}
    {k : Cluster} (h : Edition.late.cluster o isLong attached rest = .ok k) : k.Full := by
  unfold Edition.cluster at h
  split at h
  · exact full_detached h
  · split at h
    · split at h
      · obtain rfl := Except.ok.inj h
        simp [Cluster.Full, Edition.held]
      · simp at h
    · exact full_lateCluster h

/-- Options that have their values leave no option without one. -/
theorem Request.hollow_act {r r' : Request} {a : Action} (hr : r.hollow = [])
    (ha : a.1.takesValue = true → a.2.isSome = true) (h : r.act a = .ok r') : r'.hollow = [] := by
  have hnote : ∀ (o : Opt) (s : String), (r.note o (some s)).hollow = [] := by
    intro o s
    unfold note
    dsimp only
    split <;> simp [hr]
  obtain ⟨o, v⟩ := a
  cases o <;> cases v <;> simp only [Opt.takesValue, Option.isSome, forall_const,
    Bool.false_eq_true, imp_false, false_implies] at ha <;> unfold act at h
  all_goals first
    | (obtain rfl := Except.ok.inj h; first | exact hr | exact hnote _ _)
    | cases h
    | (dsimp only at h; split at h <;> first
        | (obtain rfl := Except.ok.inj h; exact hnote _ _)
        | cases h)

theorem Request.hollow_actAll : ∀ {actions : List Action} {r r' : Request}, r.hollow = [] →
    (∀ a ∈ actions, a.1.takesValue = true → a.2.isSome = true) →
    actions.foldlM act r = .ok r' → r'.hollow = []
  | [], r, r', hr, _, h => by
    obtain rfl : r = r' := by simpa [pure, Except.pure] using h
    exact hr
  | a :: actions, r, r', hr, hall, h => by
    rw [List.foldlM_cons] at h
    obtain ⟨q, hq, h⟩ := bind_eq_ok h
    exact hollow_actAll (hollow_act hr (hall a List.mem_cons_self) hq)
      (fun b hb => hall b (List.mem_cons_of_mem a hb)) h

theorem hollow_follow {fuel : Nat} {p q : Progress} {words : List Word}
    (hp : p.request.hollow = []) (h : follow .late fuel p words = .ok q) :
    q.request.hollow = [] := by
  fun_induction Cli.follow .late fuel p words with
  | case1 => exact Except.ok.inj h ▸ hp
  | case2 => exact Except.ok.inj h ▸ hp
  | case3 fuel p o isLong attached rest ih =>
    obtain ⟨r, hr, h⟩ := bind_eq_ok h
    obtain ⟨k, hk, hr⟩ := bind_eq_ok hr
    obtain ⟨request, hacts, hr⟩ := bind_eq_ok hr
    obtain rfl := Except.ok.inj hr
    exact ih _ _ (Request.hollow_actAll hp (full_of_late hk) hacts) h
  | case4 fuel p s rest ih => exact ih hp h
  | case5 fuel p w rest _ _ run ih =>
    refine ih ?_ h
    unfold Progress.takeValues
    split <;> exact hp

/-- In the late edition every option of a command line holds a value. -/
theorem hollow_of_late {argv : List String} {r : Request} (h : readArguments .late argv = .ok r) :
    r.hollow = [] := by
  obtain ⟨words, p, hp, rfl, -⟩ := exists_follow h
  exact hollow_follow rfl hp

/-! ### Settings -/

/-- What a command line asks for, and the settings that this comes to. -/
theorem prepare_eq_ok_iff {v : Edition} {argv : List String} {o : Options} {c : Config} :
    prepare v argv = .ok (o, c) ↔
      readArguments v argv = .ok { options := o } ∧ o.config = .ok c := by
  unfold prepare
  cases hread : readArguments v argv with
  | error e => simp [bind, Except.bind, Except.mapError]
  | ok r =>
    obtain ⟨o', hollow⟩ := r
    simp only [bind, Except.bind, Except.mapError, Except.ok.injEq, Request.mk.injEq]
    constructor
    · intro h
      cases hsettings : (Request.mk o' hollow).settings with
      | error s => simp [hsettings] at h
      | ok c' =>
        simp only [hsettings] at h
        cases hollow with
        | cons a as => simp at h
        | nil =>
          obtain ⟨rfl, rfl⟩ := Prod.mk.inj (Except.ok.inj h)
          refine ⟨⟨rfl, rfl⟩, ?_⟩
          cases hc : o'.config with
          | error e => simp [Request.settings, hc, Except.mapError] at hsettings
          | ok c => simpa [Request.settings, hc, Except.mapError] using hsettings
    · rintro ⟨⟨rfl, rfl⟩, hc⟩
      simp [Request.settings, hc, Except.mapError, pure, Except.pure]

/-- Why a command line is not carried out as it stands: it is not followed, or an option of it holds
nothing. -/
theorem prepare_eq_error {v : Edition} {argv : List String} {s : Stop}
    (h : prepare v argv = .error s) : (∃ halt, s = .halt halt) ∨
      ∃ r, readArguments v argv = .ok r ∧
        ((∃ o ∈ r.hollow, s = .blocked o) ∨ r.hollow ≠ [] ∧ ∃ c, s = .hollow r c) := by
  rcases bind_eq_error h with hread | ⟨r, hread, h⟩
  · cases hargs : readArguments v argv with
    | error halt =>
      refine .inl ⟨halt, ?_⟩
      simpa [hargs, Except.mapError] using hread.symm
    | ok r => simp [hargs, Except.mapError] at hread
  have hread : readArguments v argv = .ok r := by
    cases hargs : readArguments v argv <;> simp_all [Except.mapError]
  rcases bind_eq_error h with hsettings | ⟨c, -, h⟩
  · unfold Request.settings at hsettings
    split at hsettings
    · rename_i hhash
      exact .inr ⟨r, hread, .inl ⟨_, hhash, (Except.error.inj hsettings).symm⟩⟩
    split at hsettings
    · rename_i hprefix
      exact .inr ⟨r, hread, .inl ⟨_, hprefix, (Except.error.inj hsettings).symm⟩⟩
    · cases hc : r.options.config with
      | error e =>
        refine .inl ⟨.usage (.config e), ?_⟩
        simpa [hc, Except.mapError] using hsettings.symm
      | ok c => simp [hc, Except.mapError] at hsettings
  · split at h
    · cases h
    · rename_i hhollow
      refine .inr ⟨r, hread, .inr ⟨?_, c, (Except.error.inj h).symm⟩⟩
      simpa using hhollow

/-- In the late edition a command line is carried out, or help is asked for, or it is wrong. -/
theorem prepare_late_eq_error {argv : List String} {s : Stop} (h : prepare .late argv = .error s) :
    ∃ halt, s = .halt halt := by
  rcases prepare_eq_error h with hhalt | ⟨r, hread, ⟨o, ho, -⟩ | ⟨hne, -⟩⟩
  · exact hhalt
  · simp [hollow_of_late hread] at ho
  · exact absurd (hollow_of_late hread) hne

end TraitLift.Cli
