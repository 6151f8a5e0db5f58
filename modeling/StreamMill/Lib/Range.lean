import Mathlib.Data.List.TakeWhile

/-!
# StreamMill.Lib.Range

Reading part of a list. What a scan skips at the front or leaves at the end does not matter to a
filter that would have dropped it anyway.
-/

namespace StreamMill.Lib

universe u

variable {α : Type u} {p q s : α → Bool} {l : List α}

theorem filter_dropWhile (h : ∀ a ∈ l, p a = true → s a = false) :
    (l.dropWhile p).filter s = l.filter s := by
  induction l with
  | nil => rfl
  | cons a l ih =>
    rw [List.dropWhile_cons]
    split
    · rename_i hp
      have hs := h a (List.mem_cons_self ..) hp
      rw [ih fun b hb => h b (List.mem_cons_of_mem _ hb), List.filter_cons, hs]
      rfl
    · rfl

theorem filter_eq_nil_of_pairwise {a : α} (hp : (a :: l).Pairwise fun a b => q a = false →
    s b = false) (hq : q a = false) (hs : s a = false) : (a :: l).filter s = [] := by
  rw [List.pairwise_cons] at hp
  rw [List.filter_eq_nil_iff]
  intro b hb
  rcases List.mem_cons.mp hb with rfl | hb
  · rw [hs]
    decide
  · rw [hp.1 b hb hq]
    decide

theorem filter_takeWhile (hp : l.Pairwise fun a b => q a = false → s b = false)
    (hself : ∀ a ∈ l, q a = false → s a = false) :
    (l.takeWhile q).filter s = l.filter s := by
  induction l with
  | nil => rfl
  | cons a l ih =>
    rw [List.takeWhile_cons]
    cases hq : q a with
    | true =>
      rw [if_pos rfl, List.filter_cons, List.filter_cons,
        ih hp.of_cons fun b hb => hself b (List.mem_cons_of_mem _ hb)]
    | false =>
      rw [filter_eq_nil_of_pairwise hp hq (hself a (List.mem_cons_self ..) hq)]
      rfl

theorem dropWhile_eq_filter (hp : l.Pairwise fun a b => q a = false → q b = false) :
    l.dropWhile q = l.filter fun a => !q a := by
  induction l with
  | nil => rfl
  | cons a l ih =>
    rw [List.pairwise_cons] at hp
    cases hq : q a with
    | true =>
      rw [List.dropWhile_cons_of_pos hq, List.filter_cons_of_neg (by simp [hq]), ih hp.2]
    | false =>
      rw [List.dropWhile_cons_of_neg (by simp [hq]), eq_comm, List.filter_eq_self]
      intro b hb
      rcases List.mem_cons.mp hb with rfl | hb
      · simp [hq]
      · simp [hp.1 b hb hq]

theorem takeWhile_eq_filter (hp : l.Pairwise fun a b => q a = false → q b = false) :
    l.takeWhile q = l.filter q := by
  rw [← filter_takeWhile hp fun a _ h => h, eq_comm, List.filter_eq_self]
  exact fun a ha => List.mem_takeWhile_imp ha

end StreamMill.Lib
