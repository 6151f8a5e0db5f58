import Mathlib.Data.Prod.Lex
import Mathlib.Logic.Function.Basic
import Mathlib.Order.Lattice

/-!
# StreamMill.Lib.Merge

Merging queues that are fed while they are merged. A merge takes one of least rank from the heads
of the inputs: the least key, and among equal keys the input that comes first. `Merge start queue
fed taken`: the queues `start` are `queue` after `fed` came in and `taken` was taken. What came in
is what was taken and what is left (`Merge.split`), and `taken` is in the order of the ranks
(`Merge.sorted`).
-/

namespace StreamMill.Lib

universe u v w

variable {β : Type u} [DecidableEq β] {α : Type v} {κ : Type w} [LinearOrder κ] (key : α → κ)
  (inputs : List β)

def rank (e : β × α) : κ ×ₗ Nat := toLex (key e.2, inputs.idxOf e.1)

/-- The head of `b` has the least rank of the heads, and no input is empty. -/
def Least (queue : β → List α) (b : β) (a : α) : Prop :=
  b ∈ inputs ∧ (queue b).head? = some a ∧
    ∀ c ∈ inputs, ∃ a' ∈ (queue c).head?, rank key inputs (b, a) ≤ rank key inputs (c, a')

def takenOf (taken : List (β × α)) (b : β) : List α :=
  (taken.filter fun e => e.1 = b).map Prod.snd

inductive Merge (start : β → List α) : (β → List α) → (β → List α) → List (β × α) → Prop
  | start : Merge start start (fun _ => []) []
  | feed {queue queue' fed fed' new : β → List α} {taken : List (β × α)} :
      Merge start queue fed taken → (∀ b ∈ inputs, queue' b = queue b ++ new b) →
      (∀ b ∈ inputs, fed' b = fed b ++ new b) → Merge start queue' fed' taken
  | take {queue queue' fed : β → List α} {taken : List (β × α)} {b : β} {a : α} :
      Merge start queue fed taken → Least key inputs queue b a →
      (∀ c ∈ inputs, queue' c = if c = b then (queue c).tail else queue c) →
      Merge start queue' fed (taken ++ [(b, a)])

variable {key inputs}

@[simp] theorem takenOf_nil (b : β) : takenOf ([] : List (β × α)) b = [] := rfl

theorem takenOf_append (xs ys : List (β × α)) (b : β) :
    takenOf (xs ++ ys) b = takenOf xs b ++ takenOf ys b := by
  simp [takenOf]

theorem takenOf_single (c : β) (a : α) (b : β) :
    takenOf [(c, a)] b = if c = b then [a] else [] := by
  by_cases h : c = b <;> simp [takenOf, h]

theorem rank_lt_or (e f : β × α) (h : rank key inputs e ≤ rank key inputs f) :
    key e.2 < key f.2 ∨ key e.2 = key f.2 ∧ inputs.idxOf e.1 ≤ inputs.idxOf f.1 := by
  simpa [rank, Prod.Lex.toLex_le_toLex] using h

theorem rank_le_key {e f : β × α} (h : rank key inputs e ≤ rank key inputs f) :
    key e.2 ≤ key f.2 := by
  rcases rank_lt_or e f h with h | ⟨h, -⟩
  · exact le_of_lt h
  · exact le_of_eq h

theorem rank_same {b : β} {a a' : α} (h : key a ≤ key a') :
    rank key inputs (b, a) ≤ rank key inputs (b, a') := by
  rcases lt_or_eq_of_le h with h | h <;> simp [rank, Prod.Lex.toLex_le_toLex, h]

section Runs

variable {start queue fed : β → List α} {taken : List (β × α)}

section

variable (h : Merge key inputs start queue fed taken)
include h

theorem Merge.split {b : β} (hb : b ∈ inputs) :
    start b ++ fed b = takenOf taken b ++ queue b := by
  induction h with
  | start => simp
  | feed _ hq hf ih => rw [hq b hb, hf b hb, ← List.append_assoc, ih, List.append_assoc]
  | @take queue queue' fed taken c a _ hleast hq ih =>
    obtain ⟨-, hhead, -⟩ := hleast
    rw [ih, takenOf_append, takenOf_single, hq b hb]
    by_cases hbc : b = c
    · subst hbc
      cases hqb : queue b with
      | nil => simp [hqb] at hhead
      | cons a' rest =>
        have ha : a' = a := by simpa [hqb] using hhead
        simp [ha]
    · rw [if_neg hbc, if_neg (Ne.symm hbc), List.append_nil]

theorem Merge.mem_inputs {e : β × α} (he : e ∈ taken) :
    e.1 ∈ inputs := by
  induction h with
  | start => simp at he
  | feed _ _ _ ih => exact ih he
  | take _ hleast _ ih =>
    rcases List.mem_append.mp he with he | he
    · exact ih he
    · rw [List.mem_singleton.mp he]
      exact hleast.1

theorem Merge.bounds :
    ∀ later : β → List α,
      (∀ b ∈ inputs, (start b ++ fed b ++ later b).Pairwise fun a a' => key a ≤ key a') →
      taken.Pairwise (fun e f => rank key inputs e ≤ rank key inputs f) ∧
      ∀ e ∈ taken, ∀ b ∈ inputs, ∀ a ∈ queue b ++ later b,
        rank key inputs e ≤ rank key inputs (b, a) := by
  induction h with
  | start =>
    intro later hs
    exact ⟨List.Pairwise.nil, fun e he => nomatch he⟩
  | @feed queue queue' fed fed' new taken hm hq hf ih =>
    intro later hs
    obtain ⟨hsorted, hle⟩ := ih (fun b => new b ++ later b) (fun b hb => by
      simpa [hf b hb] using hs b hb)
    refine ⟨hsorted, ?_⟩
    intro e he b hb a ha
    rw [hq b hb, List.append_assoc] at ha
    exact hle e he b hb a ha
  | @take queue queue' fed taken b a hm hleast hq ih =>
    intro later hs
    obtain ⟨hsorted, hle⟩ := ih later hs
    obtain ⟨hb, hhead, hmin⟩ := hleast
    refine ⟨?_, ?_⟩
    · refine List.pairwise_append.mpr ⟨hsorted, List.pairwise_singleton _ _, ?_⟩
      intro e he f hf
      rw [List.mem_singleton.mp hf]
      exact hle e he b hb a (List.mem_append_left _ (List.mem_of_head? hhead))
    · intro e he c hc x hx
      have hx' : x ∈ queue c ++ later c := by
        rw [hq c hc] at hx
        rcases List.mem_append.mp hx with hx | hx
        · split at hx
          · exact List.mem_append_left _ (List.mem_of_mem_tail hx)
          · exact List.mem_append_left _ hx
        · exact List.mem_append_right _ hx
      rcases List.mem_append.mp he with he | he
      · exact hle e he c hc x hx'
      · rw [List.mem_singleton.mp he]
        -- the head of `c` is no greater than the rest of `c`, which is in order
        obtain ⟨y, hy, hby⟩ := hmin c hc
        obtain ⟨rest, hrest⟩ : ∃ rest, queue c = y :: rest := by
          cases hqc : queue c with
          | nil => simp [hqc] at hy
          | cons z rest =>
            rw [hqc] at hy
            exact ⟨rest, by rw [show z = y by simpa using hy]⟩
        have hpair : (queue c ++ later c).Pairwise fun a a' => key a ≤ key a' := by
          have hall := hs c hc
          rw [hm.split hc, List.append_assoc] at hall
          exact (List.pairwise_append.mp hall).2.1
        refine le_trans hby (rank_same ?_)
        rw [hrest] at hpair hx'
        rcases List.mem_cons.mp hx' with rfl | hx'
        · exact le_refl _
        · exact (List.pairwise_cons.mp hpair).1 x hx'

theorem Merge.sorted (hs : ∀ b ∈ inputs, (start b ++ fed b).Pairwise fun a a' => key a ≤ key a') :
    taken.Pairwise fun e f => rank key inputs e ≤ rank key inputs f :=
  (h.bounds (fun _ => []) (fun b hb => by simpa using hs b hb)).1

end

end Runs

end StreamMill.Lib
