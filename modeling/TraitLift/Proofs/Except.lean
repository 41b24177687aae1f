import Mathlib.Tactic

/-!
Computations that can fail. A chain of steps has a result only if each step has one, and so has a list
of attempts.
-/

namespace TraitLift

variable {ε α β : Type}

theorem ok_of_toOption {x : Except ε α} {a : α} (h : x.toOption = some a) : x = .ok a := by
  cases x with
  | error e => simp [Except.toOption] at h
  | ok a' => rw [Option.some.inj h]

/-- A computation that goes on after a first attempt has a result only if the attempt has. -/
theorem bind_eq_ok {x : Except ε α} {f : α → Except ε β} {b : β} (h : (x >>= f) = .ok b) :
    ∃ a, x = .ok a ∧ f a = .ok b := by
  cases x with
  | error e => simp [bind, Except.bind] at h
  | ok a => exact ⟨a, rfl, h⟩

/-- A computation that goes on after a first attempt fails if the attempt fails, or later. -/
theorem bind_eq_error {x : Except ε α} {f : α → Except ε β} {e : ε} (h : (x >>= f) = .error e) :
    x = .error e ∨ ∃ a, x = .ok a ∧ f a = .error e := by
  cases x with
  | error e' => exact .inl (by simpa [bind, Except.bind] using h)
  | ok a => exact .inr ⟨a, rfl, h⟩

/-- What comes out of a list of attempts is one of the attempts. -/
theorem mem_of_mapM_id : ∀ {l : List (Except ε α)} {xs : List α},
    l.mapM id = .ok xs → ∀ x ∈ xs, .ok x ∈ l
  | [], xs, h, x, hx => by
    obtain rfl : [] = xs := Except.ok.inj h
    simp at hx
  | a :: l, xs, h, x, hx => by
    rw [List.mapM_cons] at h
    obtain ⟨y, hy, h⟩ := bind_eq_ok h
    obtain ⟨ys, hys, h⟩ := bind_eq_ok h
    obtain rfl := Except.ok.inj h
    obtain rfl : a = .ok y := hy
    rcases List.mem_cons.1 hx with rfl | hx
    · exact List.mem_cons_self ..
    · exact List.mem_cons_of_mem _ (mem_of_mapM_id hys x hx)

/-- Each attempt of a list that has a result has one. -/
theorem exists_mem_of_mapM {f : α → Except ε β} : ∀ {as : List α} {bs : List β},
    as.mapM f = .ok bs → ∀ a ∈ as, ∃ b ∈ bs, f a = .ok b
  | [], _, _, _, ha => by simp at ha
  | a :: as, bs, h, a', ha' => by
    rw [List.mapM_cons] at h
    obtain ⟨b, hb, h⟩ := bind_eq_ok h
    obtain ⟨bs', hbs, h⟩ := bind_eq_ok h
    obtain rfl := Except.ok.inj h
    rcases List.mem_cons.1 ha' with rfl | hmem
    · exact ⟨b, List.mem_cons_self, hb⟩
    · obtain ⟨b', hb', heq⟩ := exists_mem_of_mapM hbs a' hmem
      exact ⟨b', List.mem_cons_of_mem b hb', heq⟩

/-- The attempt that stopped the others. -/
theorem exists_of_mapM_eq_error {f : α → Except ε β} : ∀ {as : List α} {e : ε},
    as.mapM f = .error e → ∃ a ∈ as, f a = .error e
  | [], _, h => by simp [pure, Except.pure] at h
  | a :: as, e, h => by
    rw [List.mapM_cons] at h
    rcases bind_eq_error h with ha | ⟨b, -, h⟩
    · exact ⟨a, List.mem_cons_self, ha⟩
    · rcases bind_eq_error h with has | ⟨bs, -, h⟩
      · obtain ⟨a', hmem, ha'⟩ := exists_of_mapM_eq_error has
        exact ⟨a', List.mem_cons_of_mem a hmem, ha'⟩
      · simp [pure, Except.pure] at h

/-- What comes out of a list of attempts that all succeed. -/
theorem filterMap_of_mapM : ∀ {l : List (Except ε α)} {xs : List α},
    l.mapM id = .ok xs → l.filterMap Except.toOption = xs
  | [], _, h => Except.ok.inj h
  | a :: l, xs, h => by
    rw [List.mapM_cons] at h
    obtain ⟨x, hx, h⟩ := bind_eq_ok h
    obtain ⟨ys, hys, h⟩ := bind_eq_ok h
    obtain rfl := Except.ok.inj h
    obtain rfl : a = .ok x := hx
    rw [List.filterMap_cons_some (show Except.toOption (.ok x) = some x from rfl),
      filterMap_of_mapM hys]

/-- What each attempt has to do with something, its result has to do with it if all succeed. -/
theorem forall₂_mapM {γ : Type} {R : Except ε α → γ → Prop} :
    ∀ {l : List (Except ε α)} {xs : List α} {ys : List γ}, l.mapM id = .ok xs → List.Forall₂ R l ys →
      List.Forall₂ (fun x y => R (.ok x) y) xs ys
  | _, _, _, h, .nil => by
    obtain rfl := Except.ok.inj h
    exact .nil
  | _, _, _, h, .cons hR hRs => by
    rw [List.mapM_cons] at h
    obtain ⟨x, hx, h⟩ := bind_eq_ok h
    obtain ⟨xs, hxs, h⟩ := bind_eq_ok h
    obtain rfl := Except.ok.inj h
    obtain rfl : _ = Except.ok x := hx
    exact .cons hR (forall₂_mapM hxs hRs)

end TraitLift
