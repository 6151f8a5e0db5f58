import Mathlib.Algebra.Group.Basic
import Mathlib.Data.List.Perm.Basic

/-!
# StreamMill.Lib.Parts

Sums of parts. `Parts P xs t` says that `t` is the sum of one part for each element of `xs`, the
part of `x` in the relation `P x` to it: how a tree adds up what its children hold. Only the
elements matter, not their order (`Parts.perm`).
-/

namespace StreamMill.Lib

universe u v w

variable {α : Type u} {M : Type v} [AddCommMonoid M] {P Q : α → M → Prop} {xs ys : List α}

def Parts (P : α → M → Prop) : List α → M → Prop
  | [], t => t = 0
  | x :: xs, t => ∃ u v, P x u ∧ Parts P xs v ∧ t = u + v

theorem parts_append {t : M} :
    Parts P (xs ++ ys) t ↔ ∃ u v, Parts P xs u ∧ Parts P ys v ∧ t = u + v := by
  induction xs generalizing t with
  | nil =>
    constructor
    · intro h; exact ⟨0, t, rfl, h, (zero_add t).symm⟩
    · rintro ⟨u, v, rfl, hv, rfl⟩
      rw [zero_add]; exact hv
  | cons x xs ih =>
    constructor
    · rintro ⟨u, v, hu, hv, rfl⟩
      obtain ⟨v1, v2, hv1, hv2, rfl⟩ := ih.mp hv
      exact ⟨u + v1, v2, ⟨u, v1, hu, hv1, rfl⟩, hv2, (add_assoc _ _ _).symm⟩
    · rintro ⟨w, v, ⟨u, v1, hu, hv1, rfl⟩, hv, rfl⟩
      exact ⟨u, v1 + v, hu, ih.mpr ⟨v1, v, hv1, hv, rfl⟩, add_assoc _ _ _⟩

theorem Parts.perm {t : M} (h : Parts P xs t) (hp : xs.Perm ys) : Parts P ys t := by
  induction hp generalizing t with
  | nil => exact h
  | cons x _ ih =>
    obtain ⟨u, v, hu, hv, rfl⟩ := h
    exact ⟨u, v, hu, ih hv, rfl⟩
  | swap x y l =>
    obtain ⟨u, _, hu, ⟨v, w, hv, hw, rfl⟩, rfl⟩ := h
    exact ⟨v, u + w, hv, ⟨u, w, hu, hw, rfl⟩, add_left_comm _ _ _⟩
  | trans _ _ ih₁ ih₂ => exact ih₂ (ih₁ h)

theorem parts_middle {x : α} {t : M} :
    Parts P (xs ++ x :: ys) t ↔ ∃ u v, P x u ∧ Parts P (xs ++ ys) v ∧ t = u + v := by
  show _ ↔ Parts P (x :: (xs ++ ys)) t
  exact ⟨fun h => h.perm List.perm_middle, fun h => h.perm List.perm_middle.symm⟩

theorem Parts.mono {t : M} (h : Parts P xs t)
    (hPQ : ∀ x ∈ xs, ∀ u v, t = u + v → P x u → Q x u) : Parts Q xs t := by
  induction xs generalizing t with
  | nil => exact h
  | cons x xs ih =>
    obtain ⟨u, v, hu, hv, rfl⟩ := h
    refine ⟨u, v, hPQ x List.mem_cons_self u v rfl hu, ih hv ?_, rfl⟩
    rintro y hy u' v' rfl hP
    exact hPQ y (List.mem_cons_of_mem _ hy) u' (u + v') (add_left_comm _ _ _) hP

theorem Parts.of_mem {t : M} {x : α} (h : Parts P xs t) (hx : x ∈ xs) :
    ∃ u v, P x u ∧ t = u + v := by
  obtain ⟨as, bs, rfl⟩ := List.append_of_mem hx
  obtain ⟨u, v, hu, -, rfl⟩ := parts_middle.mp h
  exact ⟨u, v, hu, rfl⟩

/-- What holds of every part and is kept by sums holds of the whole. -/
theorem Parts.sum_induct {t : M} (h : Parts P xs t) {R : M → Prop} (h0 : R 0)
    (hadd : ∀ u v, R u → R v → R (u + v)) (hP : ∀ x ∈ xs, ∀ u, P x u → R u) : R t := by
  induction xs generalizing t with
  | nil => exact h ▸ h0
  | cons x xs ih =>
    obtain ⟨u, v, hu, hv, rfl⟩ := h
    exact hadd u v (hP x List.mem_cons_self u hu)
      (ih hv fun y hy => hP y (List.mem_cons_of_mem _ hy))

theorem Parts.of_sum {t : M} (h : Parts P xs t) {R : M → Prop} (hR : R t) (h0 : ¬R 0)
    (hadd : ∀ u v, R (u + v) → R u ∨ R v) : ∃ x ∈ xs, ∃ u v, P x u ∧ R u ∧ t = u + v := by
  induction xs generalizing t with
  | nil => exact absurd (h ▸ hR) h0
  | cons x xs ih =>
    obtain ⟨u, v, hu, hv, rfl⟩ := h
    rcases hadd u v hR with hRu | hRv
    · exact ⟨x, List.mem_cons_self, u, v, hu, hRu, rfl⟩
    · obtain ⟨y, hy, u', v', hu', hRu', rfl⟩ := ih hv hRv
      exact ⟨y, List.mem_cons_of_mem _ hy, u', u + v', hu', hRu', add_left_comm _ _ _⟩

theorem Parts.rel {N : Type w} [AddCommMonoid N] {Q : α → N → Prop} {R : M → N → Prop} {t : M}
    (h : Parts P xs t) (h0 : R 0 0) (hadd : ∀ u v u' v', R u u' → R v v' → R (u + v) (u' + v'))
    (hP : ∀ x ∈ xs, ∀ u, P x u → ∃ u', Q x u' ∧ R u u') : ∃ t', Parts Q xs t' ∧ R t t' := by
  induction xs generalizing t with
  | nil => exact ⟨0, rfl, h ▸ h0⟩
  | cons x xs ih =>
    obtain ⟨u, v, hu, hv, rfl⟩ := h
    obtain ⟨u', hu', hR⟩ := hP x List.mem_cons_self u hu
    obtain ⟨v', hv', hR'⟩ := ih hv fun y hy => hP y (List.mem_cons_of_mem _ hy)
    exact ⟨u' + v', ⟨u', v', hu', hv', rfl⟩, hadd u v u' v' hR hR'⟩

theorem Parts.unique {t t' : M} (h : Parts P xs t) (h' : Parts Q xs t')
    (huniq : ∀ x ∈ xs, ∀ u u', P x u → Q x u' → u = u') : t = t' := by
  induction xs generalizing t t' with
  | nil => exact Eq.trans h (Eq.symm h')
  | cons x xs ih =>
    obtain ⟨u, v, hu, hv, rfl⟩ := h
    obtain ⟨u', v', hu', hv', rfl⟩ := h'
    rw [huniq x List.mem_cons_self u u' hu hu',
      ih hv hv' fun y hy => huniq y (List.mem_cons_of_mem _ hy)]

end StreamMill.Lib
