import Mathlib.Algebra.BigOperators.Group.List.Basic
import Mathlib.Algebra.Order.Ring.Nat
import Mathlib.Data.List.Nodup

/-!
# StreamMill.Lib.Weight

The weight of a property in a list of weighted elements: the sum of the weights of the elements
that have it. `weight_fiber` sums over keys of which each element has at most one.
-/

namespace StreamMill.Lib

universe u v

variable {α : Type u} {β : Type v} (w : α → Nat)

def weight (xs : List α) (p : α → Bool) : Nat := ((xs.filter p).map w).sum

variable {w} {xs ys : List α} {p q : α → Bool}

@[simp] theorem weight_nil : weight w [] p = 0 := rfl

theorem weight_cons (x : α) : weight w (x :: xs) p = (if p x then w x else 0) + weight w xs p := by
  cases hp : p x <;> simp [weight, hp]

theorem weight_append : weight w (xs ++ ys) p = weight w xs p + weight w ys p := by
  simp [weight]

theorem weight_concat (x : α) :
    weight w (xs ++ [x]) p = weight w xs p + if p x then w x else 0 := by
  rw [weight_append, weight_cons, weight_nil, Nat.add_zero]

theorem weight_congr (h : ∀ x ∈ xs, p x = q x) : weight w xs p = weight w xs q := by
  rw [weight, weight, List.filter_congr h]

theorem weight_zero (h : ∀ x ∈ xs, p x = false) : weight w xs p = 0 := by
  have hnil : xs.filter p = [] := by
    rw [List.filter_eq_nil_iff]
    intro x hx
    simp [h x hx]
  rw [weight, hnil]
  rfl

theorem weight_perm (h : xs.Perm ys) : weight w xs p = weight w ys p :=
  ((h.filter p).map w).sum_eq

theorem weight_mono (h : ∀ x ∈ xs, p x = true → q x = true) : weight w xs p ≤ weight w xs q := by
  induction xs with
  | nil => exact Nat.le_refl _
  | cons x xs ih =>
    have hle := ih fun y hy => h y (List.mem_cons_of_mem _ hy)
    rw [weight_cons, weight_cons]
    cases hp : p x with
    | false => simp only [Bool.false_eq_true, if_false]; omega
    | true =>
      rw [h x List.mem_cons_self hp]
      exact Nat.add_le_add_left hle _

theorem weight_add (h : ∀ x ∈ xs, p x = true → q x = false) :
    weight w xs p + weight w xs q = weight w xs fun x => p x || q x := by
  induction xs with
  | nil => rfl
  | cons x xs ih =>
    have hrest := ih fun y hy => h y (List.mem_cons_of_mem _ hy)
    have hx := h x List.mem_cons_self
    rw [weight_cons, weight_cons, weight_cons]
    cases hp : p x with
    | false => simp only [Bool.false_eq_true, if_false, Bool.false_or]; omega
    | true =>
      simp only [hx hp, Bool.false_eq_true, if_false, if_true, Bool.true_or]
      omega

theorem weight_map {f : β → α} {zs : List β} :
    weight w (zs.map f) p = weight (fun z => w (f z)) zs fun z => p (f z) := by
  rw [weight, List.filter_map, List.map_map]
  rfl

theorem weight_fiber {ks : List β} {r : β → α → Bool} (hnd : ks.Nodup)
    (huniq : ∀ x ∈ xs, ∀ k ∈ ks, ∀ k' ∈ ks, r k x = true → r k' x = true → k = k') :
    (ks.map fun k => weight w xs (r k)).sum = weight w xs fun x => ks.any fun k => r k x := by
  induction ks with
  | nil => simp [weight]
  | cons k ks ih =>
    obtain ⟨hk, hnd⟩ := List.nodup_cons.mp hnd
    have hrest := ih hnd fun x hx k₁ h₁ k₂ h₂ =>
      huniq x hx k₁ (List.mem_cons_of_mem _ h₁) k₂ (List.mem_cons_of_mem _ h₂)
    rw [List.map_cons, List.sum_cons, hrest]
    refine weight_add fun x hx hr => ?_
    rw [List.any_eq_false]
    intro k' hk' hr'
    have heq := huniq x hx k List.mem_cons_self k' (List.mem_cons_of_mem _ hk') hr hr'
    exact hk (heq ▸ hk')

end StreamMill.Lib
