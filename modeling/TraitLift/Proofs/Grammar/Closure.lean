import Mathlib.Tactic
import TraitLift.Grammar.Chart

/-!
The search behind charts finds everything there is to find. `closure` looks at no more than `fuel`
elements; that is enough if all that can come up is in a list of that length. Main statement: then
the elements found are those that can be reached from the first ones.
-/

namespace TraitLift.Grammar

variable {β : Type} [DecidableEq β]

/-! ### Adding to a set -/

theorem mem_addNew {y : β} : ∀ {seen xs : List β},
    y ∈ (addNew seen xs).2 ↔ y ∈ seen ∨ y ∈ xs
  | _, [] => by simp [addNew]
  | seen, x :: xs => by
    rw [addNew]
    split
    · next hx =>
      rw [mem_addNew, List.mem_cons]
      constructor
      · rintro (hy | hy)
        · exact Or.inl hy
        · exact Or.inr (Or.inr hy)
      · rintro (hy | rfl | hy)
        · exact Or.inl hy
        · exact Or.inl hx
        · exact Or.inr hy
    · simp only [mem_addNew, List.mem_cons]
      rw [or_assoc, or_left_comm]

theorem mem_addNew_iff_fresh {y : β} : ∀ {seen xs : List β},
    y ∈ (addNew seen xs).2 ↔ y ∈ seen ∨ y ∈ (addNew seen xs).1
  | _, [] => by simp [addNew]
  | seen, x :: xs => by
    rw [addNew]
    split
    · exact mem_addNew_iff_fresh
    · simp only [mem_addNew_iff_fresh, List.mem_cons]
      rw [or_assoc, or_left_comm]

theorem nodup_addNew : ∀ {seen xs : List β}, seen.Nodup → (addNew seen xs).2.Nodup
  | _, [], h => h
  | seen, x :: xs, h => by
    rw [addNew]
    split
    · exact nodup_addNew h
    · next hx => exact nodup_addNew (List.nodup_cons.2 ⟨hx, h⟩)

theorem length_addNew : ∀ seen xs : List β,
    (addNew seen xs).2.length = seen.length + (addNew seen xs).1.length
  | _, [] => rfl
  | seen, x :: xs => by
    rw [addNew]
    split
    · exact length_addNew seen xs
    · simp only [length_addNew, List.length_cons]
      omega

/-! ### The search -/

section

variable {next : β → List β}

theorem subset_reach : ∀ (fuel : Nat) (work seen : List β), seen ⊆ reach next fuel work seen
  | 0, _, _ => List.Subset.refl _
  | _ + 1, [], _ => List.Subset.refl _
  | fuel + 1, _ :: _, _ => fun _ hy =>
    subset_reach fuel _ _ (mem_addNew.2 (Or.inl hy))

/-- Every element found can be reached from one that was there. -/
theorem exists_of_mem_reach {y : β} : ∀ {fuel : Nat} {work seen : List β}, work ⊆ seen →
    y ∈ reach next fuel work seen →
    ∃ x ∈ seen, Relation.ReflTransGen (fun a b => b ∈ next a) x y
  | 0, _, _, _, hy => ⟨y, hy, .refl⟩
  | _ + 1, [], _, _, hy => ⟨y, hy, .refl⟩
  | fuel + 1, x :: work, seen, hwork, hy => by
    have hwork' : (addNew seen (next x)).1 ++ work ⊆ (addNew seen (next x)).2 := by
      intro z hz
      rcases List.mem_append.1 hz with hz | hz
      · exact mem_addNew_iff_fresh.2 (Or.inr hz)
      · exact mem_addNew.2 (Or.inl (hwork (List.mem_cons_of_mem _ hz)))
    obtain ⟨z, hz, hzy⟩ := exists_of_mem_reach hwork' hy
    rcases mem_addNew.1 hz with hz | hz
    · exact ⟨z, hz, hzy⟩
    · exact ⟨x, hwork (List.mem_cons_self ..), .head hz hzy⟩

/-- The search ends with a closed set. What has been looked at, `seen` without `work`, grows by one
element in every round, so it cannot outgrow the list `all` of all elements. -/
theorem next_subset_reach {all : List β} : ∀ {fuel : Nat} {work seen : List β}, seen.Nodup →
    work ⊆ seen → seen ⊆ all → (∀ x ∈ all, next x ⊆ all) →
    (∀ x ∈ seen, x ∈ work ∨ next x ⊆ seen) → all.length + work.length ≤ fuel + seen.length →
    ∀ x ∈ reach next fuel work seen, next x ⊆ reach next fuel work seen
  | 0, work, seen, hnodup, _, hall, _, hdone, hfuel => by
    have hlength : seen.length ≤ all.length := (hnodup.subperm hall).length_le
    have hwork : work = [] := List.length_eq_zero_iff.1 (by omega)
    intro x hx
    exact (hdone x hx).resolve_left (by simp [hwork])
  | _ + 1, [], seen, _, _, _, _, hdone, _ => fun x hx => (hdone x hx).resolve_left (by simp)
  | fuel + 1, x :: work, seen, hnodup, hwork, hall, hnext, hdone, hfuel => by
    have hlength := length_addNew seen (next x)
    have hseen : seen ⊆ (addNew seen (next x)).2 := fun y hy => mem_addNew.2 (Or.inl hy)
    apply next_subset_reach (nodup_addNew hnodup) ?_ ?_ hnext ?_ ?_
    · intro y hy
      rcases List.mem_append.1 hy with hy | hy
      · exact mem_addNew_iff_fresh.2 (Or.inr hy)
      · exact hseen (hwork (List.mem_cons_of_mem _ hy))
    · intro y hy
      rcases mem_addNew.1 hy with hy | hy
      · exact hall hy
      · exact hnext x (hall (hwork (List.mem_cons_self ..))) hy
    · intro y hy
      rcases mem_addNew_iff_fresh.1 hy with hy | hy
      · rcases hdone y hy with hy | hy
        · rcases List.mem_cons.1 hy with rfl | hy
          · exact Or.inr fun z hz => mem_addNew.2 (Or.inr hz)
          · exact Or.inl (List.mem_append_right _ hy)
        · exact Or.inr (List.Subset.trans hy hseen)
      · exact Or.inl (List.mem_append_left _ hy)
    · rw [List.length_append, hlength]
      rw [List.length_cons] at hfuel
      omega

/-- What is found can be reached from one of the first elements. -/
theorem exists_of_mem_closure {init : List β} {fuel : Nat} {y : β} (hy : y ∈ closure next fuel init) :
    ∃ x ∈ init, Relation.ReflTransGen (fun a b => b ∈ next a) x y := by
  have hfresh : (addNew [] init).1 ⊆ (addNew [] init).2 := fun z hz => mem_addNew_iff_fresh.2 (Or.inr hz)
  obtain ⟨x, hx, hxy⟩ := exists_of_mem_reach hfresh hy
  exact ⟨x, by simpa using mem_addNew.1 hx, hxy⟩

/-- The elements that can be reached from the first ones are found if they are few enough. -/
theorem mem_closure_iff (all : List β) {init : List β} {fuel : Nat} {y : β} (hinit : init ⊆ all)
    (hnext : ∀ x ∈ all, next x ⊆ all) (hfuel : all.length ≤ fuel) :
    y ∈ closure next fuel init ↔
      ∃ x ∈ init, Relation.ReflTransGen (fun a b => b ∈ next a) x y := by
  have hfresh : ∀ z, z ∈ (addNew [] init).2 ↔ z ∈ (addNew [] init).1 := fun z => by
    rw [mem_addNew_iff_fresh]
    simp
  have hmem : ∀ z, z ∈ (addNew [] init).2 ↔ z ∈ init := fun z => by
    rw [mem_addNew]
    simp
  refine ⟨exists_of_mem_closure, ?_⟩
  rintro ⟨x, hx, hxy⟩
  have hclosed := next_subset_reach (nodup_addNew List.nodup_nil)
    (fun z hz => (hfresh z).2 hz) (fun z hz => hinit ((hmem z).1 hz)) hnext
    (fun z hz => Or.inl ((hfresh z).1 hz)) (by rw [length_addNew [] init]; simp; omega)
  induction hxy with
  | refl => exact subset_reach fuel _ _ ((hmem x).2 hx)
  | tail _ hyz ih => exact hclosed _ ih hyz

end

end TraitLift.Grammar
