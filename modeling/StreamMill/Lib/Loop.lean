import Mathlib.Data.List.Basic
import Mathlib.Data.List.Range
import Mathlib.Data.List.Perm.Basic

/-!
# StreamMill.Lib.Loop

Invariant rules for loops written as folds: a counting loop `for i in [0, n)`, the same loop in a
monad of errors, and a run of a partial step function over a list of inputs.
-/

namespace StreamMill.Lib

universe u v w

theorem bind_eq_ok {ε : Type u} {α β : Type v} {x : Except ε α} {f : α → Except ε β} {b : β}
    (h : (x >>= f) = .ok b) : ∃ a, x = .ok a ∧ f a = .ok b := by
  cases x with
  | error e => cases h
  | ok a => exact ⟨a, rfl, h⟩

theorem map_eq_ok {ε : Type u} {α : Type v} {β : Type w} {x : Except ε α} {f : α → β} {b : β}
    (h : x.map f = .ok b) : ∃ a, x = .ok a ∧ f a = b := by
  cases x with
  | error e => cases h
  | ok a => exact ⟨a, rfl, Except.ok.inj h⟩

/-- A counting loop keeps an invariant that may mention the counter. -/
theorem foldl_range_inv {σ : Type u} (f : σ → Nat → σ) (P : Nat → σ → Prop) {s : σ} (n : Nat)
    (h0 : P 0 s) (hstep : ∀ k t, k < n → P k t → P (k + 1) (f t k)) :
    P n ((List.range n).foldl f s) := by
  induction n with
  | zero => simpa using h0
  | succ n ih =>
    rw [List.range_succ, List.foldl_append]
    exact hstep n _ (Nat.lt_succ_self n) (ih fun k t hk => hstep k t (Nat.lt_succ_of_lt hk))

/-- A counting loop whose body cannot fail under the invariant does not fail, and keeps it. -/
theorem foldlM_range_inv {ε : Type u} {σ : Type v} (f : σ → Nat → Except ε σ)
    (P : Nat → σ → Prop) {s : σ} (n : Nat) (h0 : P 0 s)
    (hstep : ∀ k t, k < n → P k t → ∃ t', f t k = .ok t' ∧ P (k + 1) t') :
    ∃ t, (List.range n).foldlM f s = .ok t ∧ P n t := by
  induction n with
  | zero => exact ⟨s, rfl, h0⟩
  | succ n ih =>
    obtain ⟨t, ht, hP⟩ := ih fun k t hk => hstep k t (Nat.lt_succ_of_lt hk)
    obtain ⟨t', ht', hP'⟩ := hstep n t (Nat.lt_succ_self n) hP
    refine ⟨t', ?_, hP'⟩
    rw [List.range_succ, List.foldlM_append, ht]
    show (List.foldlM f t [n]) = _
    rw [List.foldlM_cons, ht']
    rfl

/-- A run over a list of inputs: if every step from a state that meets `P` after the inputs `xs`
succeeds and meets `P` after `xs ++ [x]`, so does the whole run. -/
theorem foldlM_inv {ε : Type u} {σ : Type v} {α : Type w} (f : σ → α → Except ε σ)
    (P : List α → σ → Prop) {s : σ} (h0 : P [] s)
    (hstep : ∀ xs x t, P xs t → ∃ t', f t x = .ok t' ∧ P (xs ++ [x]) t') (xs : List α) :
    ∃ t, xs.foldlM f s = .ok t ∧ P xs t := by
  induction xs using List.reverseRecOn with
  | nil => exact ⟨s, rfl, h0⟩
  | append_singleton xs x ih =>
    obtain ⟨t, ht, hP⟩ := ih
    obtain ⟨t', ht', hP'⟩ := hstep xs x t hP
    refine ⟨t', ?_, hP'⟩
    rw [List.foldlM_append, ht]
    show (List.foldlM f t [x]) = _
    rw [List.foldlM_cons, ht']
    rfl

theorem foldlM_ok_inv {ε : Type u} {σ : Type v} {α : Type w} {f : σ → α → Except ε σ} {P : σ → Prop}
    (hstep : ∀ x s s', P s → f s x = .ok s' → P s') {xs : List α} {s t : σ} (h0 : P s)
    (h : xs.foldlM f s = .ok t) : P t := by
  induction xs generalizing s with
  | nil =>
    cases h
    exact h0
  | cons x xs ih =>
    obtain ⟨s', hs', h⟩ := bind_eq_ok h
    exact ih (hstep x s s' h0 hs') h

theorem foldlM_ok_step {ε : Type u} {σ : Type v} {α : Type w} {f : σ → α → Except ε σ}
    {xs : List α} {s t : σ} (h : xs.foldlM f s = .ok t) {x : α} (hx : x ∈ xs) :
    ∃ s₁ s₂, f s₁ x = .ok s₂ := by
  induction xs generalizing s with
  | nil => cases hx
  | cons y ys ih =>
    obtain ⟨s', hs', h⟩ := bind_eq_ok h
    rcases List.mem_cons.mp hx with rfl | hx
    · exact ⟨s, s', hs'⟩
    · exact ih h hx

theorem filter_range_update {p : Nat → Bool} {i n : Nat} (hi : i < n) (hp : p i = true) :
    ((List.range n).filter fun j => !Function.update p i false j).Perm
      (i :: (List.range n).filter fun j => !p j) := by
  rw [List.perm_ext_iff_of_nodup (List.nodup_range.filter _)]
  · intro j
    by_cases h : j = i
    · subst h; simp [hi]
    · simp [h]
  · rw [List.nodup_cons]
    exact ⟨by simp [hp], List.nodup_range.filter _⟩

end StreamMill.Lib
