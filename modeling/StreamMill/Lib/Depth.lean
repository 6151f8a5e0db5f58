import Mathlib.Data.List.Count
import Mathlib.Logic.Relation

/-!
# StreamMill.Lib.Depth

Relations without cycles on the members of a list. The depth of an element is the number of members
below it, so that every step goes down, and a recursion along the relation is one on the depth.
-/

namespace StreamMill.Lib

universe u

variable {α : Type u} {r : α → α → Prop} {P : List α} {x y : α}

def Acyclic (r : α → α → Prop) : Prop := ∀ x, ¬ Relation.TransGen r x x

open Classical in
/-- The number of members of the list below `x`. -/
noncomputable def depth (r : α → α → Prop) (P : List α) (x : α) : Nat :=
  (P.filter fun y => Relation.TransGen r x y).length

theorem depth_le : depth r P x ≤ P.length := List.length_filter_le _ _

theorem depth_lt (h : Acyclic r) (hy : y ∈ P) (hxy : r x y) : depth r P y < depth r P x := by
  classical
  have hsub : P.filter (Relation.TransGen r y) =
      (P.filter (Relation.TransGen r x)).filter (Relation.TransGen r y) := by
    rw [List.filter_filter]
    refine List.filter_congr fun z _ => ?_
    by_cases hz : Relation.TransGen r y z
    · have hxz := Relation.TransGen.head hxy hz
      simp [hz, hxz]
    · simp [hz]
  have hless : (P.filter (Relation.TransGen r y)).length <
      (P.filter (Relation.TransGen r x)).length := by
    rw [hsub, List.length_filter_lt_length_iff_exists]
    refine ⟨y, List.mem_filter.mpr ⟨hy, ?_⟩, ?_⟩
    · simpa using Relation.TransGen.single hxy
    · simpa using h y
  exact hless

theorem Acyclic.mono {r' : α → α → Prop} (h : Acyclic r) (hsub : ∀ x y, r' x y → r x y) :
    Acyclic r' := fun x hx => h x (Relation.TransGen.mono hsub x x hx)

theorem Acyclic.of_level (f : α → Nat) (h : ∀ x y, r x y → f y < f x) : Acyclic r := by
  have hdown : ∀ x y, Relation.TransGen r x y → f y < f x := by
    intro x y hxy
    induction hxy with
    | single hstep => exact h _ _ hstep
    | tail _ hstep ih => exact Nat.lt_trans (h _ _ hstep) ih
  exact fun x hx => Nat.lt_irrefl _ (hdown x x hx)

theorem Acyclic.exists_last (h : Acyclic r) (hP : ∀ x y, r x y → y ∈ P) (x : α) :
    ∃ y, Relation.ReflTransGen r x y ∧ ∀ z, ¬ r y z := by
  induction hn : depth r P x using Nat.strongRecOn generalizing x with
  | ind n ih =>
    by_cases hx : ∃ y, r x y
    · obtain ⟨y, hxy⟩ := hx
      obtain ⟨z, hyz, hlast⟩ := ih _ (hn ▸ depth_lt h (hP x y hxy) hxy) y rfl
      exact ⟨z, .head hxy hyz, hlast⟩
    · exact ⟨x, .refl, fun z hz => hx ⟨z, hz⟩⟩

end StreamMill.Lib
