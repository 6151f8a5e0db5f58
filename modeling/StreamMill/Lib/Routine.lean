import Mathlib.Data.List.Basic
import Mathlib.Data.List.Range

/-!
# StreamMill.Lib.Routine

Resumable routines: a call takes the state that the call before left, and returns an element or
says that there is none left; `none` is a call that does not return. `calls_pass`: an invariant
that is indexed by the elements still to come gives what a whole pass returns. `calls_cycle`: a
routine that starts over after its last element returns the same elements again and again.
-/

namespace StreamMill.Lib

universe u v

variable {σ : Type u} {α : Type v} (next : σ → Option (Option α × σ))

def calls : Nat → σ → Option (List (Option α) × σ)
  | 0, s => some ([], s)
  | n + 1, s => do
    let (a, s) ← next s
    let (as, s) ← calls n s
    return (a :: as, s)

variable {next}

theorem calls_succ {n : Nat} {s s' s'' : σ} {a : Option α} {as : List (Option α)}
    (h : next s = some (a, s')) (hs : calls next n s' = some (as, s'')) :
    calls next (n + 1) s = some (a :: as, s'') := by
  unfold calls
  rw [h]
  show ((calls next n s').bind fun x => some (a :: x.1, x.2)) = _
  rw [hs]
  rfl

theorem calls_append {m n : Nat} {s s' s'' : σ} {as bs : List (Option α)}
    (h : calls next m s = some (as, s')) (h' : calls next n s' = some (bs, s'')) :
    calls next (m + n) s = some (as ++ bs, s'') := by
  induction m generalizing s as with
  | zero =>
    cases h
    rwa [Nat.zero_add]
  | succ m ih =>
    obtain ⟨⟨a, s₁⟩, ha, h⟩ := Option.bind_eq_some_iff.mp h
    obtain ⟨⟨as', s₂⟩, hs, h⟩ := Option.bind_eq_some_iff.mp h
    cases h
    rw [Nat.succ_add]
    exact calls_succ ha (ih hs)

variable {I : List α → σ → Prop}

theorem calls_pass {P : σ → Prop} (hend : ∀ s, I [] s → ∃ s', next s = some (none, s') ∧ P s')
    (hnext : ∀ x xs s, I (x :: xs) s → ∃ s', next s = some (some x, s') ∧ I xs s')
    (xs : List α) {s : σ} (h : I xs s) :
    ∃ s', calls next (xs.length + 1) s = some (xs.map some ++ [none], s') ∧ P s' := by
  induction xs generalizing s with
  | nil =>
    obtain ⟨s', hs, hP⟩ := hend s h
    exact ⟨s', calls_succ hs rfl, hP⟩
  | cons x xs ih =>
    obtain ⟨s₁, hs, hI⟩ := hnext x xs s h
    obtain ⟨s', hs', hP⟩ := ih hI
    exact ⟨s', calls_succ hs hs', hP⟩

theorem calls_cycle {all : List α}
    (hend : ∀ s, I [] s → ∃ s', next s = some (none, s') ∧ I all s')
    (hnext : ∀ x xs s, I (x :: xs) s → ∃ s', next s = some (some x, s') ∧ I xs s')
    (n : Nat) {s : σ} (h : I all s) :
    ∃ s', calls next n s =
      some ((List.range n).map fun j => all[j % (all.length + 1)]?, s') := by
  suffices hgen : ∀ n k s, k ≤ all.length → I (all.drop k) s → ∃ s', calls next n s =
      some ((List.range n).map fun j => all[(k + j) % (all.length + 1)]?, s') by
    simpa using hgen n 0 s (Nat.zero_le _) (by simpa using h)
  intro n
  induction n with
  | zero => exact fun k s _ _ => ⟨s, rfl⟩
  | succ n ih =>
    intro k s hk hI
    have hmod : (k + 0) % (all.length + 1) = k := Nat.mod_eq_of_lt (Nat.lt_add_one_of_le hk)
    rw [List.range_succ_eq_map, List.map_cons, List.map_map, hmod]
    rcases Nat.lt_or_eq_of_le hk with hlt | rfl
    · rw [List.drop_eq_getElem_cons hlt] at hI
      obtain ⟨s₁, hs, hI⟩ := hnext _ _ s hI
      obtain ⟨s', hs'⟩ := ih (k + 1) s₁ hlt hI
      rw [List.getElem?_eq_getElem hlt]
      refine ⟨s', calls_succ hs (hs'.trans ?_)⟩
      congr 3
      funext j
      show _ = all[(k + (j + 1)) % _]?
      rw [Nat.add_right_comm, Nat.add_assoc]
    · rw [List.drop_length] at hI
      obtain ⟨s₁, hs, hI⟩ := hend s hI
      obtain ⟨s', hs'⟩ := ih 0 s₁ (Nat.zero_le _) (by simpa using hI)
      rw [List.getElem?_eq_none (Nat.le_refl _)]
      refine ⟨s', calls_succ hs (hs'.trans ?_)⟩
      congr 3
      funext j
      show _ = all[(all.length + (j + 1)) % _]?
      rw [Nat.zero_add, ← Nat.add_assoc, Nat.add_right_comm, Nat.add_mod_left]

end StreamMill.Lib
