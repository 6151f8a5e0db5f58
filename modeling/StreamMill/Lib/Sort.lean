import Mathlib.Data.List.Lex
import Mathlib.Data.List.Perm.Basic
import Mathlib.Order.Compare
import Mathlib.Algebra.Order.Ring.Int

/-!
# StreamMill.Lib.Sort

Comparison functions in the manner of C, which answer by the sign of a number, and library sorts,
which are correct for those that are total preorders (`Sorts`). `order` is the comparison of a
linear order; `order_cons` compares lists at the first difference.

`Sorts.rows`: sorting the records of rows sorts the rows.
-/

namespace StreamMill.Lib

open Std (TransCmp)

universe u v

variable {α : Type u} {β : Type v}

def order {κ : Type v} [LinearOrder κ] (a b : κ) : Ordering := cmp a b

def sgn (rc : Int) : Ordering := order rc 0

/-- A sort: correct for every comparison that is a total preorder. -/
def Sorts (qsort : (β → β → Int) → List β → List β) : Prop :=
  ∀ f : β → β → Int, TransCmp (fun a b => sgn (f a b)) → ∀ xs,
    (qsort f xs).Perm xs ∧ (qsort f xs).Pairwise fun a b => f a b ≤ 0

section Order

variable {κ : Type v} [LinearOrder κ] {a b : κ}

theorem order_lt (h : a < b) : order a b = .lt := h.cmp_eq_lt

theorem order_eq (h : a = b) : order a b = .eq := h.cmp_eq_eq

theorem order_gt (h : b < a) : order a b = .gt := h.cmp_eq_gt

theorem order_swap (a b : κ) : (order a b).swap = order b a := cmp_swap a b

theorem order_isLE : (order a b).isLE = true ↔ a ≤ b := by
  rcases lt_trichotomy a b with h | h | h
  · rw [order_lt h]
    simpa using le_of_lt h
  · rw [order_eq h]
    simpa using le_of_eq h
  · rw [order_gt h]
    simpa using h

theorem order_cons (a b : κ) (as bs : List κ) :
    order (a :: as) (b :: bs) = (order a b).then (order as bs) := by
  rcases lt_trichotomy a b with h | rfl | h
  · rw [order_lt h, order_lt (List.cons_lt_cons_iff.mpr (Or.inl h))]
    rfl
  · rw [order_eq (rfl : a = a)]
    rcases lt_trichotomy as bs with hs | rfl | hs
    · rw [order_lt hs, order_lt (List.cons_lt_cons_iff.mpr (Or.inr ⟨rfl, hs⟩))]
      rfl
    · rw [order_eq rfl, order_eq rfl]
      rfl
    · rw [order_gt hs, order_gt (List.cons_lt_cons_iff.mpr (Or.inr ⟨rfl, hs⟩))]
      rfl
  · rw [order_gt h, order_gt (List.cons_lt_cons_iff.mpr (Or.inl h))]
    rfl

theorem order_trans {α : Type u} (key : α → κ) : TransCmp fun a b => order (key a) (key b) where
  eq_swap := (order_swap _ _).symm
  isLE_trans {a b c} hab hbc := by
    rw [order_isLE] at hab hbc ⊢
    exact hab.trans hbc

end Order

theorem sgn_isLE (rc : Int) : (sgn rc).isLE = true ↔ rc ≤ 0 := order_isLE

theorem sgn_neg (rc : Int) : sgn (-rc) = (sgn rc).swap := by
  unfold sgn
  rw [order_swap]
  rcases lt_trichotomy rc 0 with h | h | h
  · rw [order_gt h, order_gt (by omega)]
  · rw [h]
    rfl
  · rw [order_lt h, order_lt (by omega)]

theorem sorts_mergeSort : Sorts fun (f : β → β → Int) xs => xs.mergeSort fun a b => f a b ≤ 0 := by
  intro f hf xs
  refine ⟨List.mergeSort_perm xs _, ?_⟩
  have htrans : ∀ a b c : β, decide (f a b ≤ 0) = true → decide (f b c ≤ 0) = true →
      decide (f a c ≤ 0) = true := by
    intro a b c hab hbc
    simp only [decide_eq_true_eq] at hab hbc ⊢
    rw [← sgn_isLE] at hab hbc ⊢
    exact hf.isLE_trans hab hbc
  have htotal : ∀ a b : β, (decide (f a b ≤ 0) || decide (f b a ≤ 0)) = true := by
    intro a b
    simp only [Bool.or_eq_true, decide_eq_true_eq]
    rw [← sgn_isLE, ← sgn_isLE, hf.eq_swap]
    cases sgn (f b a) <;> simp
  exact (List.pairwise_mergeSort htrans htotal xs).imp of_decide_eq_true

variable {qsort : (β → β → Int) → List β → List β} {R : α → β → Prop} {ord : α → α → Ordering}
  {f : β → β → Int}

theorem forall₂_mem {rows : List α} {recs : List β} (h : List.Forall₂ R rows recs) {r : α}
    (hr : r ∈ rows) : ∃ b ∈ recs, R r b := by
  induction h with
  | nil => cases hr
  | @cons r' b rows recs hrb _ ih =>
    cases hr with
    | head => exact ⟨b, List.mem_cons_self, hrb⟩
    | tail _ hr =>
      obtain ⟨b', hb', hrb'⟩ := ih hr
      exact ⟨b', List.mem_cons_of_mem _ hb', hrb'⟩

theorem forall₂_and {P : α → Prop} {rows : List α} {recs : List β} (h : List.Forall₂ R rows recs)
    (hP : ∀ r ∈ rows, P r) : List.Forall₂ (fun r b => P r ∧ R r b) rows recs := by
  induction h with
  | nil => exact List.Forall₂.nil
  | @cons r b rows recs hrb _ ih =>
    exact List.Forall₂.cons ⟨hP r List.mem_cons_self, hrb⟩
      (ih fun r hr => hP r (List.mem_cons_of_mem _ hr))

theorem forall₂_common {γ : Type u} {S : γ → β → Prop} {T : γ → α → Prop} {outs : List γ}
    {rows : List α} {recs : List β} (hS : List.Forall₂ S outs recs) (hR : List.Forall₂ R rows recs)
    (h : ∀ o r b, S o b → R r b → T o r) : List.Forall₂ T outs rows := by
  induction hS generalizing rows with
  | nil =>
    cases hR
    exact List.Forall₂.nil
  | cons hob _ ih =>
    cases hR with
    | cons hrb hrest => exact List.Forall₂.cons (h _ _ _ hob hrb) (ih hrest)

theorem pairwise_rows (hord : ∀ r r' b b', R r b → R r' b' → sgn (f b b') = ord r r')
    {rows : List α} {recs : List β} (hR : List.Forall₂ R rows recs)
    (h : recs.Pairwise fun a b => f a b ≤ 0) : rows.Pairwise fun r r' => ord r r' ≠ .gt := by
  induction hR with
  | nil => exact List.Pairwise.nil
  | @cons r b rows recs hrb hrest ih =>
    rw [List.pairwise_cons] at h ⊢
    refine ⟨?_, ih h.2⟩
    intro r' hr'
    obtain ⟨b', hb', hrb'⟩ := forall₂_mem hrest hr'
    have hle := (sgn_isLE _).mpr (h.1 b' hb')
    rw [hord _ _ _ _ hrb hrb'] at hle
    intro hgt
    rw [hgt] at hle
    cases hle

/-- Sorting the records of rows, with a comparison that says the order of the rows. -/
theorem Sorts.rows (h : Sorts qsort) (hf : TransCmp fun a b => sgn (f a b))
    (hord : ∀ r r' b b', R r b → R r' b' → sgn (f b b') = ord r r') {rows : List α}
    {recs : List β} (hR : List.Forall₂ R rows recs) :
    ∃ sorted : List α, sorted.Perm rows ∧ (sorted.Pairwise fun r r' => ord r r' ≠ .gt) ∧
      List.Forall₂ R sorted (qsort f recs) := by
  obtain ⟨hperm, hsorted⟩ := h f hf recs
  have hcomp : Relation.Comp (List.Forall₂ R) List.Perm rows (qsort f recs) :=
    ⟨recs, hR, hperm.symm⟩
  rw [List.forall₂_comp_perm_eq_perm_comp_forall₂] at hcomp
  obtain ⟨sorted, hrows, hrel⟩ := hcomp
  exact ⟨sorted, hrows.symm, pairwise_rows hord hrel hsorted, hrel⟩

end StreamMill.Lib
