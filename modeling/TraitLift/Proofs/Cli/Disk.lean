import Mathlib.Tactic
import TraitLift.Cli.Disk

/-!
A file that was written is found under its path with the bytes that were written, and no other file is
touched (`Disk.stored_of_write`). Writing gives one file other bytes or makes a new one
(`Disk.Overwrites`), so every path leads where it led before, but for the place where the new file is
(`Disk.Overwrites.locate`).
-/

namespace TraitLift.Cli

namespace Disk

variable {d d' : Disk} {here place : Place} {id : Nat} {bytes : ByteArray} {p : DiskPath} {s : Spot}
  {onLink onLink' : Place → List String → Except Denial Spot}

/-! ### What writing does -/

/-- `d'` is `d` but for the file `id` at `place`, which holds `bytes`. It was there before, or is new. -/
structure Overwrites (d d' : Disk) (place : Place) (id : Nat) (bytes : ByteArray) : Prop where
  home : d'.home = d.home
  refuses : d'.refuses = d.refuses
  contents : d'.contents id = bytes
  otherContents : ∀ i ≠ id, d'.contents i = d.contents i
  entry : d'.entry? place = some (.file id)
  otherEntries : ∀ q ≠ place, d'.entry? q = d.entry? q
  before : d.entry? place = some (.file id) ∨
    d.entry? place = none ∧ ∀ q, d.entry? q ≠ some (.file id)

/-- `d'` is `d` with `bytes` in the file that the path `p` leads to. -/
def Stored (d d' : Disk) (p : DiskPath) (bytes : ByteArray) : Prop :=
  ∃ place id, d'.locate p = .ok (.file place id) ∧ d.Overwrites d' place id bytes

theorem overwrites_put (h : d.entry? place = some (.file id)) (bytes : ByteArray) :
    d.Overwrites (d.put id bytes) place id bytes where
  home := rfl
  refuses := rfl
  contents := if_pos rfl
  otherContents _ hi := if_neg hi
  entry := h
  otherEntries _ _ := rfl
  before := .inl h

theorem mem_of_lookup {α β : Type} [BEq α] [LawfulBEq α] {a : α} {b : β} : ∀ {l : List (α × β)},
    l.lookup a = some b → (a, b) ∈ l
  | [], h => by simp at h
  | (c, e) :: l, h => by
    rw [List.lookup_cons] at h
    split at h
    · rename_i heq
      rw [← Option.some.inj h, beq_iff_eq.1 heq]
      exact List.mem_cons_self
    · exact List.mem_cons_of_mem _ (mem_of_lookup h)

/-- The number of a new file is above those of all others. -/
theorem lt_unused {q : Place} (h : d.entry? q = some (.file id)) : id < d.unused := by
  have hmem : (q, Entry.file id) ∈ d.entries := mem_of_lookup h
  suffices hbound : ∀ es : List (Place × Entry), (q, .file id) ∈ es →
    id < ({ d with entries := es } : Disk).unused from
    hbound d.entries hmem
  intro es hes
  induction es with
  | nil => simp at hes
  | cons e es ih =>
    simp only [unused, List.foldr_cons] at ih ⊢
    rcases List.mem_cons.1 hes with rfl | hes
    · simp
    · have hlt := ih hes
      split
      · exact hlt.trans_le (le_max_right ..)
      · exact hlt

theorem overwrites_create (h : d.entry? place = none) (bytes : ByteArray) :
    d.Overwrites (d.create place bytes) place d.unused bytes where
  home := rfl
  refuses := rfl
  contents := if_pos rfl
  otherContents _ hi := if_neg hi
  entry := by simp [create, entry?]
  otherEntries q hq := by
    have hne : (q == place) = false := beq_eq_false_iff_ne.2 hq
    simp [create, put, entry?, List.lookup_cons, hne]
  before := .inr ⟨h, fun _ hq => (lt_unused hq).false⟩

/-! ### Where paths lead -/

/-- One step along a path: from a directory by a name that is not `..`. -/
theorem steps_cons {name : String} {rest : List String} (hup : name ≠ "..")
    (h : d.steps onLink here (name :: rest) = .ok s) :
    d.allow here .search = .ok () ∧ ¬nameLimit < name.utf8ByteSize ∧
      (d.entry? (here ++ [name]) = some .dir ∧ d.steps onLink (here ++ [name]) rest = .ok s ∨
       (∃ target, d.entry? (here ++ [name]) = some (.link target) ∧
        onLink (start here target) (target.parts ++ rest) = .ok s) ∨
       (∃ id, d.entry? (here ++ [name]) = some (.file id) ∧ rest = [] ∧
        s = .file (here ++ [name]) id) ∨
       d.entry? (here ++ [name]) = none ∧ rest = [] ∧ s = .vacant (here ++ [name])) := by
  rw [steps] at h
  cases hallow : d.allow here .search with
  | error e => simp [hallow, bind, Except.bind] at h
  | ok u =>
    simp only [hallow, bind, Except.bind, if_neg hup] at h
    split at h
    · simp at h
    · rename_i hlen
      refine ⟨rfl, hlen, ?_⟩
      cases hentry : d.entry? (here ++ [name]) with
      | none =>
        simp only [hentry] at h
        split at h
        · rename_i hlast
          exact .inr (.inr (.inr ⟨rfl, List.isEmpty_iff.1 hlast, (Except.ok.inj h).symm⟩))
        · simp at h
      | some e =>
        simp only [hentry] at h
        cases e with
        | dir => exact .inl ⟨rfl, h⟩
        | link target => exact .inr (.inl ⟨target, rfl, h⟩)
        | file id =>
          dsimp only at h
          split at h
          · rename_i hlast
            exact .inr (.inr (.inl ⟨id, rfl, List.isEmpty_iff.1 hlast, (Except.ok.inj h).symm⟩))
          · simp at h

/-- What a path leads to is what is there. -/
def Found (d : Disk) : Spot → Prop
  | .file place id => d.entry? place = some (.file id)
  | .vacant place => d.entry? place = none
  | .dir _ => True

theorem found_of_steps (hlink : ∀ {here names s}, onLink here names = .ok s → d.Found s) :
    ∀ {names : List String} {here : Place}, d.steps onLink here names = .ok s → d.Found s
  | [], _, h => by
    rw [← Except.ok.inj h]
    trivial
  | name :: rest, here, h => by
    by_cases hup : name = ".."
    · rw [steps] at h
      cases hallow : d.allow here .search with
      | error e => simp [hallow, bind, Except.bind] at h
      | ok u =>
        simp only [hallow, bind, Except.bind, if_pos hup] at h
        exact found_of_steps hlink h
    · obtain ⟨-, -, ⟨-, h⟩ | ⟨target, -, h⟩ | ⟨id, hentry, -, rfl⟩ | ⟨hentry, -, rfl⟩⟩ :=
        steps_cons hup h
      · exact found_of_steps hlink h
      · exact hlink h
      · exact hentry
      · exact hentry

theorem found_of_walk : ∀ {links : Nat} {here : Place} {names : List String} {s : Spot},
    d.walk links here names = .ok s → d.Found s
  | 0, _, _, _, h => found_of_steps (fun h => by simp at h) h
  | _ + 1, _, _, _, h => found_of_steps found_of_walk h

theorem locate_eq_ok_iff : d.locate p = .ok s ↔
    p.text.utf8ByteSize < pathLimit ∧ d.walk linkLimit (start d.home p) p.parts = .ok s := by
  rw [locate]
  split <;> simp_all

theorem found_of_locate (h : d.locate p = .ok s) : d.Found s := found_of_walk (locate_eq_ok_iff.1 h).2

/-! ### Where paths lead after a file was written -/

namespace Overwrites

/-- What a path leads to once there is a file `id` at `place`. -/
def filled (place : Place) (id : Nat) : Spot → Spot
  | .vacant q => if q = place then .file place id else .vacant q
  | s => s

variable (h : d.Overwrites d' place id bytes)

include h

theorem allow (q : Place) (a : Access) : d'.allow q a = d.allow q a := by
  rw [Disk.allow, h.refuses, Disk.allow]

theorem steps (hlink : ∀ {here names s}, onLink here names = .ok s →
      onLink' here names = .ok (filled place id s)) :
    ∀ {names : List String} {here : Place} {s : Spot}, d.steps onLink here names = .ok s →
      d'.steps onLink' here names = .ok (filled place id s)
  | [], here, s, hs => by
    rw [← Except.ok.inj hs]
    rfl
  | name :: rest, here, s, hs => by
    have hall := h.allow here .search
    by_cases hup : name = ".."
    · rw [Disk.steps] at hs ⊢
      cases hallow : d.allow here .search with
      | error e => simp [hallow, bind, Except.bind] at hs
      | ok u =>
        simp only [hallow, hall, bind, Except.bind, if_pos hup] at hs ⊢
        exact steps hlink hs
    · obtain ⟨hallow, hlen, hcases⟩ := steps_cons hup hs
      rw [Disk.steps]
      simp only [hall, hallow, bind, Except.bind, if_neg hup, if_neg hlen]
      -- the name itself: only at `place` can it lead elsewhere than before
      by_cases hplace : here ++ [name] = place
      · rw [hplace] at hcases ⊢
        rw [h.entry]
        rcases h.before with hbefore | ⟨hbefore, -⟩ <;>
          rcases hcases with ⟨hentry, -⟩ | ⟨target, hentry, -⟩ | ⟨i, hentry, rfl, rfl⟩ |
            ⟨hentry, rfl, rfl⟩ <;> rw [hbefore] at hentry <;> simp_all [filled]
      · rw [h.otherEntries _ hplace]
        rcases hcases with ⟨hentry, hs⟩ | ⟨target, hentry, hs⟩ | ⟨i, hentry, rfl, rfl⟩ |
          ⟨hentry, rfl, rfl⟩
        · simp only [hentry]
          exact steps hlink hs
        · simp only [hentry]
          exact hlink hs
        · simp [hentry, filled]
        · simp [hentry, filled, hplace]

theorem walk : ∀ {links : Nat} {here : Place} {names : List String} {s : Spot},
    d.walk links here names = .ok s → d'.walk links here names = .ok (filled place id s)
  | 0, _, _, _, hs => h.steps (fun hs => by simp at hs) hs
  | _ + 1, _, _, _, hs => h.steps walk hs

/-- A path leads where it led before a file was written, or to this file. -/
theorem locate (hs : d.locate p = .ok s) : d'.locate p = .ok (filled place id s) := by
  obtain ⟨hshort, hs⟩ := locate_eq_ok_iff.1 hs
  refine locate_eq_ok_iff.2 ⟨hshort, ?_⟩
  rw [h.home]
  exact h.walk hs

end Overwrites

/-! ### Reading it back -/

theorem stored_of_write (h : d.write p bytes = .ok d') : d.Stored d' p bytes := by
  rw [write] at h
  cases hlocate : d.locate p with
  | error e => simp [hlocate, bind, Except.bind] at h
  | ok s =>
    have hfound := found_of_locate hlocate
    simp only [hlocate, bind, Except.bind] at h
    cases s with
    | dir place => simp at h
    | file place id =>
      cases hallow : d.allow place .write with
      | error e => simp [hallow] at h
      | ok u =>
        obtain rfl : d.put id bytes = d' := by simpa [hallow, pure, Except.pure] using h
        have hwrites := overwrites_put hfound bytes
        exact ⟨place, id, hwrites.locate hlocate, hwrites⟩
    | vacant place =>
      cases hparent : d.allow place.dropLast .write with
      | error e => simp [hparent] at h
      | ok u =>
        cases hallow : d.allow place .write with
        | error e => simp [hparent, hallow] at h
        | ok u =>
          obtain rfl : d.create place bytes = d' := by
            simpa [hparent, hallow, pure, Except.pure] using h
          have hwrites := overwrites_create hfound bytes
          have hthere := hwrites.locate hlocate
          rw [Overwrites.filled, if_pos rfl] at hthere
          exact ⟨place, d.unused, hthere, hwrites⟩

/-- What was stored is read again, if the system lets it be read. -/
theorem Stored.read (h : d.Stored d' p bytes) (hallow : ∀ place, d.refuses place .read = none) :
    d'.read p = .ok bytes := by
  obtain ⟨place, id, hlocate, hwrites⟩ := h
  have hread : d'.allow place .read = .ok () := by
    rw [hwrites.allow, allow, hallow]
  simp [Disk.read, hlocate, hread, hwrites.contents, bind, Except.bind, pure, Except.pure]

end Disk

end TraitLift.Cli
