import StreamMill.Window.Aggregate
import Mathlib.Algebra.BigOperators.Ring.List
import Mathlib.Tactic.FieldSimp
import Mathlib.Tactic.Ring

/-!
# StreamMill.Window.Builtins

Each built-in aggregate maintains its result over the window. `SUM`, `COUNT` and `VAR` undo what an
expired tuple did (`maintains_of_inverse`); `MIN` and `MAX` keep in the buffer only the tuples that
no later one beats, so that the head is the answer (`maintains_of_prune`).
-/

namespace StreamMill.Window

open ImDb

variable {α σ : Type} [DecidableEq α] [Inhabited α]

omit [DecidableEq α] [Inhabited α] in
theorem dropWhile_left {size now : Nat} {es : List (WinTuple α)}
    (h : es.Pairwise fun d d' => d.tupleId ≤ d'.tupleId) :
    es.dropWhile (left size now) = es.filter fun d => !left size now d := by
  induction es with
  | nil => rfl
  | cons d es ih =>
    obtain ⟨hd, h⟩ := List.pairwise_cons.mp h
    cases hl : left size now d with
    | true =>
      rw [List.dropWhile_cons_of_pos hl, List.filter_cons_of_neg (by simp [hl]), ih h]
    | false =>
      have hall : ∀ d' ∈ es, (!left size now d') = true := by
        intro d' hd'
        have hle := hd d' hd'
        simp only [left, decide_eq_false_iff_not, Bool.not_eq_true'] at hl ⊢
        omega
      rw [List.dropWhile_cons_of_neg (by simp [hl]), List.filter_cons_of_pos (by simp [hl]),
        List.filter_eq_self.mpr hall]

/-- The state is a function `f` of the window that can be computed backwards. -/
theorem maintains_of_inverse {bi : Builtin α σ} (f : List α → σ) (hinit : ∀ v, bi.init v = f [v])
    (hexpire : ∀ v l, bi.expire (f (v :: l)) v = f l)
    (hiterate : ∀ l w v, bi.iterate (f l) w v = .ok (f (l ++ [v]), w)) :
    Maintains bi (fun W es s => es = W ∧ s = f (W.map WinTuple.value)) fun l s => s = f l where
  sub := fun W es s h => h.1 ▸ List.Subset.refl _
  init := fun d => ⟨⟨rfl, hinit d.value⟩, hinit d.value⟩
  expire := by
    intro W es s size now hsorted h
    obtain ⟨rfl, rfl⟩ := h
    refine ⟨dropWhile_left hsorted, ?_⟩
    rw [← dropWhile_left hsorted]
    clear hsorted
    induction es with
    | nil => rfl
    | cons d es ih =>
      cases hl : left size now d with
      | true =>
        rw [List.takeWhile_cons_of_pos hl, List.dropWhile_cons_of_pos hl, List.map_cons,
          List.map_cons, List.foldl_cons, hexpire]
        exact ih
      | false =>
        rw [List.takeWhile_cons_of_neg (by simp [hl]), List.dropWhile_cons_of_neg (by simp [hl])]
        rfl
  iterate := by
    intro W es s d w _ h hw
    obtain ⟨rfl, rfl⟩ := h
    refine ⟨_, w, es ++ [d], hiterate _ w d.value, hw, ⟨rfl, rfl, rfl, rfl⟩, ⟨rfl, ?_⟩, ?_⟩
    · rw [List.map_append]
      rfl
    · rw [List.map_append]
      rfl

theorem sumAggr_maintains [AddCommGroup α] :
    Maintains (sumAggr : Builtin α α) (fun W es s => es = W ∧ s = (W.map WinTuple.value).sum)
      fun l s => s = l.sum :=
  maintains_of_inverse List.sum (fun v => (List.sum_singleton).symm)
    (fun v l => by simp [sumAggr]) fun l w v => by simp [sumAggr]

theorem countAggr_maintains :
    Maintains (countAggr : Builtin α Int)
      (fun W es s => es = W ∧ s = ((W.map WinTuple.value).length : Int))
      fun l s => s = (l.length : Int) :=
  maintains_of_inverse (fun l => (l.length : Int)) (fun v => rfl)
    (fun v l => by simp [countAggr]) fun l w v => by simp [countAggr]

/-- Count, sum, mean and sum of squared deviations. -/
def varOf (l : List ℚ) : Var where
  value := (l.map fun x => (x - l.sum / l.length) ^ 2).sum
  sum := l.sum
  cnt := l.length
  avg := l.sum / l.length

theorem sum_sq_dev (l : List ℚ) (a : ℚ) :
    (l.map fun x => (x - a) ^ 2).sum =
      (l.map fun x => x ^ 2).sum - 2 * a * l.sum + l.length * a ^ 2 := by
  induction l with
  | nil => simp
  | cons x l ih =>
    simp only [List.map_cons, List.sum_cons, ih, List.length_cons, Nat.cast_add, Nat.cast_one]
    ring

theorem varOf_value_step (x : ℚ) {l : List ℚ} (hl : l ≠ []) {l' : List ℚ}
    (hsum : l'.sum = l.sum + x) (hlen : l'.length = l.length + 1)
    (hsq : (l'.map fun y => y ^ 2).sum = (l.map fun y => y ^ 2).sum + x ^ 2) :
    (varOf l').value =
      (varOf l).value + (x - l.sum / l.length) ^ 2 * l.length / (l.length + 1) := by
  have h1 : (l.length : ℚ) ≠ 0 := by
    simpa using hl
  simp only [varOf, sum_sq_dev, hsum, hlen, hsq, Nat.cast_add, Nat.cast_one]
  field_simp
  ring

theorem varOf_value_back (x : ℚ) {l : List ℚ} (hl : l ≠ []) :
    (varOf (x :: l)).value - (x - (x :: l).sum / (x :: l).length) ^ 2 * (x :: l).length /
      ((x :: l).length - 1) = (varOf l).value := by
  have h1 : (l.length : ℚ) ≠ 0 := by
    simpa using hl
  simp only [varOf, sum_sq_dev, List.map_cons, List.sum_cons, List.length_cons, Nat.cast_add,
    Nat.cast_one]
  have h3 : (l.length : ℚ) + 1 - 1 ≠ 0 := by simpa using h1
  field_simp
  ring

theorem varAggr_maintains :
    Maintains varAggr (fun W es s => es = W ∧ s = varOf (W.map WinTuple.value))
      fun l s => s = varOf l := by
  refine maintains_of_inverse varOf (fun v => ?_) (fun v l => ?_) fun l w v => ?_
  · simp [varAggr, varOf]
  · cases l with
    | nil => simp [varAggr, varOf]
    | cons x t =>
      have hcnt : (varOf (v :: x :: t)).cnt > 1 := by
        simp only [varOf, List.length_cons, Nat.cast_add, Nat.cast_one]
        omega
      have hback := varOf_value_back v (l := x :: t) (by simp)
      simp only [varAggr, if_pos hcnt]
      refine Var.ext ?_ ?_ ?_ ?_
      · rw [← hback]
        simp [varOf]
      · simp [varOf]
      · simp [varOf]
      · simp [varOf]
  · have hstep : (varOf (l ++ [v])).value =
        (varOf l).value + (v - (varOf l).avg) ^ 2 * (varOf l).cnt / ((varOf l).cnt + 1) := by
      by_cases hl : l = []
      · subst hl
        simp [varOf]
      · rw [varOf_value_step v hl (by simp) (by simp) (by simp)]
        simp [varOf]
    simp only [varAggr, Except.ok.injEq, Prod.mk.injEq, and_true]
    refine Var.ext hstep.symm ?_ ?_ ?_
    · simp [varOf]
    · simp [varOf]
    · simp [varOf]

section Prune

variable {le : α → α → Prop} [IsTrans α le] [Std.Total le]

def Best (le : α → α → Prop) (l : List α) (s : α) : Prop := s ∈ l ∧ ∀ x ∈ l, le s x

/-- What the buffer keeps of the window: every tuple has one in the buffer that is as good and
stays as long, and they get worse from the head on. -/
structure Pruned (le : α → α → Prop) (W es : List (WinTuple α)) : Prop where
  sub : es.Sublist W
  covered : ∀ x ∈ W, ∃ e ∈ es, le e.value x.value ∧ x.tupleId ≤ e.tupleId
  sorted : es.Pairwise fun e e' => le e.value e'.value

omit [DecidableEq α] [Inhabited α] [IsTrans α le] [Std.Total le] in
theorem Pruned.expire {W es : List (WinTuple α)} (h : Pruned le W es) (size now : Nat)
    (hW : W.Pairwise fun d d' => d.tupleId ≤ d'.tupleId) :
    Pruned le (W.filter fun d => !left size now d) (es.dropWhile (left size now)) := by
  rw [dropWhile_left (hW.sublist h.sub)]
  refine ⟨h.sub.filter _, fun x hx => ?_, h.sorted.filter _⟩
  obtain ⟨hx, hl⟩ := List.mem_filter.mp hx
  obtain ⟨e, he, hle, hid⟩ := h.covered x hx
  refine ⟨e, List.mem_filter.mpr ⟨he, ?_⟩, hle, hid⟩
  simp only [left, Bool.not_eq_true', decide_eq_false_iff_not] at hl ⊢
  omega

omit [DecidableEq α] [Inhabited α] in
theorem Pruned.concat [DecidableRel le] {W es : List (WinTuple α)} (h : Pruned le W es)
    {d : WinTuple α} (hd : ∀ x ∈ W, x.tupleId ≤ d.tupleId) :
    Pruned le (W ++ [d]) ((es.filter fun e => le e.value d.value) ++ [d]) := by
  refine ⟨(List.filter_sublist.trans h.sub).append_right [d], fun x hx => ?_, ?_⟩
  · rcases List.mem_append.mp hx with hx | hx
    · obtain ⟨e, he, hle, hid⟩ := h.covered x hx
      by_cases hed : le e.value d.value
      · exact ⟨e, by simp [he, hed], hle, hid⟩
      · have hde : le d.value e.value := (Std.Total.total (r := le) _ _).resolve_left hed
        exact ⟨d, by simp, trans_of le hde hle, hd x hx⟩
    · rw [List.mem_singleton.mp hx]
      exact ⟨d, by simp, refl_of le _, le_rfl⟩
  · rw [List.pairwise_append]
    refine ⟨h.sorted.filter _, List.pairwise_singleton _ _, fun e he e' he' => ?_⟩
    rw [List.mem_singleton.mp he']
    simpa using (List.mem_filter.mp he).2

omit [DecidableEq α] [Inhabited α] [Std.Total le] in
theorem Pruned.best {W es : List (WinTuple α)} (h : Pruned le W es) {e : WinTuple α}
    (he : es.head? = some e) : Best le (W.map WinTuple.value) e.value := by
  cases es with
  | nil => cases he
  | cons e' es =>
    cases he
    refine ⟨List.mem_map_of_mem (h.sub.subset List.mem_cons_self), fun x hx => ?_⟩
    obtain ⟨d, hd, rfl⟩ := List.mem_map.mp hx
    obtain ⟨e', he', hle, -⟩ := h.covered d hd
    rcases List.mem_cons.mp he' with rfl | he'
    · exact hle
    · exact trans_of le ((List.pairwise_cons.mp h.sorted).1 e' he') hle

theorem maintains_of_prune [DecidableRel le] [IntCast α] {bi : Builtin α α}
    (hinit : ∀ v, bi.init v = v)
    (hiterate : ∀ s w v, bi.iterate s w v =
      (deleteIf (fun val => !decide (le val v)) (w.b.fuel + 1) .first w >>= Winbuf.headValue)) :
    Maintains bi (fun W es _ => Pruned le W es) (Best le) where
  sub := fun W es s h => h.sub.subset
  init := by
    intro d
    rw [hinit]
    refine ⟨⟨List.Sublist.refl _, fun x hx => ?_, List.pairwise_singleton _ _⟩, by simp, ?_⟩
    · rw [List.mem_singleton.mp hx]
      exact ⟨d, by simp, refl_of le _, le_rfl⟩
    · intro x hx
      rw [List.mem_singleton.mp hx]
      exact refl_of le _
  expire := fun W es s size now hW h => h.expire size now hW
  iterate := by
    intro W es s d w hd h hw
    obtain ⟨w₁, hdel, hw₁, hsame₁⟩ := deleteIf_holds (fun val => !decide (le val d.value)) hw
    have hfilter : ((es ++ [d]).filter fun e => !!decide (le e.value d.value)) =
        (es.filter fun e => le e.value d.value) ++ [d] := by
      have hdd : le d.value d.value := refl_of le _
      simp [hdd]
    rw [hfilter] at hw₁
    obtain ⟨w₂, hget, hw₂, hsame₂⟩ := getHead_holds hw₁
    have hpr := h.concat hd
    obtain ⟨e, he⟩ : ∃ e, ((es.filter fun e => le e.value d.value) ++ [d]).head? = some e := by
      cases es.filter fun e => decide (le e.value d.value) with
      | nil => exact ⟨d, rfl⟩
      | cons e t => exact ⟨e, rfl⟩
    refine ⟨e.value, w₂, _, ?_, hw₂, hsame₁.trans hsame₂, hpr, hpr.best he⟩
    rw [hiterate, hdel, ok_bind, Winbuf.headValue, hget, he]
    rfl

end Prune

end StreamMill.Window
