import Mathlib.Algebra.BigOperators.Group.Finset.Basic
import Mathlib.Data.Multiset.DershowitzManna

/-!
# StreamMill.Lib.Tokens

Tokens that lie at places with weights. A move takes a token from a place and adds tokens at
lighter places, any number of them. There is no endless run of moves (`tokens_lt`,
`lighter_wellFounded`).
-/

namespace StreamMill.Lib

universe u

variable {ι : Type u}

def tokens (s : Finset ι) (w n : ι → Nat) : Multiset Nat :=
  ∑ i ∈ s, Multiset.replicate (n i) (w i)

def Lighter (M N : Multiset Nat) : Prop := Multiset.IsDershowitzMannaLT M N

theorem lighter_wellFounded : WellFounded Lighter := Multiset.wellFounded_isDershowitzMannaLT

theorem Lighter.trans {M N K : Multiset Nat} (h : Lighter M N) (h' : Lighter N K) : Lighter M K :=
  Multiset.IsDershowitzMannaLT.trans h h'

theorem tokens_congr {s : Finset ι} {w n n' : ι → Nat} (h : ∀ i ∈ s, n' i = n i) :
    tokens s w n' = tokens s w n :=
  Finset.sum_congr rfl fun i hi => by rw [h i hi]

theorem tokens_add (s : Finset ι) (w n n' : ι → Nat) :
    tokens s w (fun i => n i + n' i) = tokens s w n + tokens s w n' := by
  rw [tokens, tokens, tokens, ← Finset.sum_add_distrib]
  exact Finset.sum_congr rfl fun i _ => Multiset.replicate_add _ _ _

theorem mem_tokens {s : Finset ι} {w n : ι → Nat} {x : Nat} :
    x ∈ tokens s w n ↔ ∃ i ∈ s, n i ≠ 0 ∧ x = w i := by
  simp [tokens, Multiset.mem_sum, Multiset.mem_replicate]

theorem tokens_lt {s : Finset ι} {w n n' : ι → Nat} {a : ι} (ha : a ∈ s) (hless : n' a < n a)
    (hmore : ∀ i ∈ s, n i < n' i → w i < w a) : Lighter (tokens s w n') (tokens s w n) := by
  have hn : tokens s w n = tokens s w (fun i => min (n i) (n' i)) +
      tokens s w fun i => n i - n' i := by
    rw [← tokens_add]
    exact tokens_congr fun i _ => by omega
  have hn' : tokens s w n' = tokens s w (fun i => min (n i) (n' i)) +
      tokens s w fun i => n' i - n i := by
    rw [← tokens_add]
    exact tokens_congr fun i _ => by omega
  have hw : w a ∈ tokens s w fun i => n i - n' i := mem_tokens.mpr ⟨a, ha, by omega, rfl⟩
  refine ⟨_, _, _, fun hnone => ?_, hn', hn, fun x hx => ⟨w a, hw, ?_⟩⟩
  · rw [hnone] at hw
    exact Multiset.notMem_zero _ hw
  · obtain ⟨i, hi, hpos, rfl⟩ := mem_tokens.mp hx
    exact hmore i hi (by omega)

end StreamMill.Lib
