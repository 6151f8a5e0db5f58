import Mathlib.Data.List.Rotate

/-!
# StreamMill.Lib.RoundRobin

A service of stations in turn. A turn is fair if it serves the first ready station after the one
served last, this one being the last of all. If all turns are fair, a station that is ready serves
within one round (`Turns.served`). A service that looks at the station served last first of all is
fair in a turn only if this one is not ready, or no other one (`turnFrom_fair_iff`).
-/

namespace StreamMill.Lib

universe u

variable {α : Type u} [DecidableEq α]

/-- The stations from the one after `last`, around the ring. -/
def ringAfter (xs : List α) : Option α → List α
  | none => xs
  | some x => xs.rotate (xs.idxOf x + 1)

/-- The stations from `last`, around the ring. -/
def ringFrom (xs : List α) : Option α → List α
  | none => xs
  | some x => xs.rotate (xs.idxOf x)

/-- The turns of a service, each with what is ready and what is served; all are fair. -/
inductive Turns (xs : List α) : Option α → List ((α → Bool) × α) → Prop
  | nil (last : Option α) : Turns xs last []
  | cons {last : Option α} {ready : α → Bool} {x : α} {rest : List ((α → Bool) × α)} :
      (ringAfter xs last).find? ready = some x → Turns xs (some x) rest →
      Turns xs last ((ready, x) :: rest)

theorem ringAfter_rotate (xs : List α) (last : Option α) :
    ∃ k, ringAfter xs last = xs.rotate k := by
  cases last with
  | none => exact ⟨0, (List.rotate_zero xs).symm⟩
  | some x => exact ⟨_, rfl⟩

variable {last : Option α} {x y : α} {xs : List α} {ready : α → Bool}
  {turns : List ((α → Bool) × α)}

@[simp] theorem mem_ringAfter :
    x ∈ ringAfter xs last ↔ x ∈ xs := by
  obtain ⟨k, hk⟩ := ringAfter_rotate xs last
  rw [hk, List.mem_rotate]

@[simp] theorem mem_ringFrom :
    x ∈ ringFrom xs last ↔ x ∈ xs := by
  cases last with
  | none => rfl
  | some y => exact List.mem_rotate

theorem ringAfter_some {before behind : List α} (hnd : xs.Nodup)
    (h : ringAfter xs last = before ++ x :: behind) :
    ringAfter xs (some x) = behind ++ (before ++ [x]) := by
  obtain ⟨k, hk⟩ := ringAfter_rotate xs last
  rw [h] at hk
  have hlen : before.length < xs.length := by
    have := congrArg List.length hk
    simp only [List.length_append, List.length_cons, List.length_rotate] at this
    omega
  have hidx : xs.idxOf x = (before.length + k) % xs.length := by
    have hget : (xs.rotate k)[before.length]? = some x := by simp [← hk]
    rw [List.getElem?_rotate hlen] at hget
    obtain ⟨hmod, hx⟩ := List.getElem?_eq_some_iff.mp hget
    rw [← hx, hnd.idxOf_getElem]
  calc ringAfter xs (some x) = xs.rotate (xs.idxOf x + 1) := rfl
    _ = xs.rotate (k + (before.length + 1)) := by
        rw [hidx, ← List.rotate_mod, Nat.mod_add_mod, List.rotate_mod]
        congr 1
        omega
    _ = (before ++ x :: behind).rotate (before ++ [x]).length := by
        rw [← List.rotate_rotate, ← hk, List.length_append, List.length_singleton]
    _ = behind ++ (before ++ [x]) := by
        rw [show before ++ x :: behind = (before ++ [x]) ++ behind by simp,
          List.rotate_append_length_eq]

/-- A ready station that is not served waits for fewer stations after the turn. -/
theorem ringAfter_wait (hnd : xs.Nodup) (h : (ringAfter xs last).find? ready = some x) (hy : y ∈ xs)
    (hready : ready y) (hne : y ≠ x) :
    (ringAfter xs (some x)).idxOf y < (ringAfter xs last).idxOf y := by
  obtain ⟨-, before, behind, hsplit, hskip⟩ := List.find?_eq_some_iff_append.mp h
  have hbefore : y ∉ before := fun hmem => by simpa [hready] using hskip y hmem
  have hbehind : y ∈ behind := by
    have hmem : y ∈ before ++ x :: behind := by rwa [← hsplit, mem_ringAfter]
    simpa [hbefore, hne] using hmem
  rw [ringAfter_some hnd hsplit, hsplit, List.idxOf_append_of_mem hbehind,
    List.idxOf_append_of_notMem hbefore, List.idxOf_cons_ne _ (Ne.symm hne)]
  omega

theorem Turns.length_le (h : Turns xs last turns) (hnd : xs.Nodup) (hy : y ∈ xs)
    (hready : ∀ e ∈ turns, e.1 y) (hne : ∀ e ∈ turns, e.2 ≠ y) :
    turns.length ≤ (ringAfter xs last).idxOf y := by
  induction h with
  | nil => exact Nat.zero_le _
  | @cons last ready x rest hfind _ ih =>
    have hrest := ih (fun e he => hready e (List.mem_cons_of_mem _ he))
      fun e he => hne e (List.mem_cons_of_mem _ he)
    have hwait := ringAfter_wait hnd hfind hy (hready _ List.mem_cons_self)
      (hne _ List.mem_cons_self).symm
    rw [List.length_cons]
    omega

theorem Turns.served (h : Turns xs last turns) (hnd : xs.Nodup) (hy : y ∈ xs)
    (hready : ∀ e ∈ turns, e.1 y) (hlen : xs.length ≤ turns.length) : ∃ e ∈ turns, e.2 = y := by
  by_contra hne
  push Not at hne
  have hwait := h.length_le hnd hy hready hne
  have hlt : (ringAfter xs last).idxOf y < (ringAfter xs last).length :=
    List.idxOf_lt_length_of_mem (mem_ringAfter.mpr hy)
  obtain ⟨k, hk⟩ := ringAfter_rotate xs last
  rw [congrArg List.length hk, List.length_rotate] at hlt
  omega

theorem Turns.of_append {more : List ((α → Bool) × α)} (h : Turns xs last (turns ++ more)) :
    ∃ last', Turns xs last' more := by
  induction turns generalizing last with
  | nil => exact ⟨last, h⟩
  | cons e turns ih =>
    cases h with
    | cons _ hrest => exact ih hrest

theorem Turns.take {xs : List α} {last : Option α} {turns more : List ((α → Bool) × α)}
    (h : Turns xs last (turns ++ more)) : Turns xs last turns := by
  induction turns generalizing last with
  | nil => exact .nil last
  | cons e turns ih =>
    cases h with
    | cons hfind hrest => exact .cons hfind (ih hrest)

theorem Turns.concat (h : Turns xs last turns)
    (hfind : (ringAfter xs ((turns.getLast?.map Prod.snd).or last)).find? ready = some x) :
    Turns xs last (turns ++ [(ready, x)]) := by
  induction h with
  | nil last => exact .cons hfind (.nil _)
  | @cons last ready₁ x₁ rest hfind₁ _ ih =>
    refine .cons hfind₁ (ih ?_)
    cases hrest : rest.getLast? with
    | none => simpa [List.getLast?_cons, hrest] using hfind
    | some e => simpa [List.getLast?_cons, hrest] using hfind

theorem ringFrom_cons (hx : x ∈ xs) :
    ∃ rest, ringFrom xs (some x) = x :: rest ∧ ringAfter xs (some x) = rest ++ [x] := by
  have hlt : xs.idxOf x < xs.length := List.idxOf_lt_length_of_mem hx
  have hhead : (xs.rotate (xs.idxOf x)).head? = some x := by
    rw [List.head?_rotate hlt, List.getElem?_eq_getElem hlt, List.getElem_idxOf]
  obtain ⟨rest, hrest⟩ : ∃ rest, xs.rotate (xs.idxOf x) = x :: rest := by
    cases hr : xs.rotate (xs.idxOf x) with
    | nil => simp [hr] at hhead
    | cons y rest => exact ⟨rest, by simpa [hr] using hhead⟩
  refine ⟨rest, hrest, ?_⟩
  calc ringAfter xs (some x) = (xs.rotate (xs.idxOf x)).rotate 1 := by
        rw [List.rotate_rotate]; rfl
    _ = rest ++ [x] := by rw [hrest]; simp

/-- A service that looks first at the station served last does the fair turn exactly if this station
is not ready, or no other one is. -/
theorem turnFrom_fair_iff (hnd : xs.Nodup) (hlast : ∀ y ∈ last, y ∈ xs)
    (h : (ringFrom xs last).find? ready = some x) :
    (ringAfter xs last).find? ready = some x ↔
      ∀ y ∈ last, ready y → ∀ z ∈ xs, ready z → z = y := by
  cases last with
  | none => exact ⟨fun _ => by simp, fun _ => h⟩
  | some y =>
    obtain ⟨rest, hfrom, hafter⟩ := ringFrom_cons (hlast y rfl)
    have hmem : ∀ z, z ∈ xs ↔ z = y ∨ z ∈ rest := by
      intro z
      rw [← List.mem_cons, ← hfrom, mem_ringFrom]
    have hrest : y ∉ rest := by
      have hnd' : (y :: rest).Nodup := hfrom ▸ List.nodup_rotate.mpr hnd
      exact (List.nodup_cons.mp hnd').1
    rw [hfrom] at h
    rw [hafter]
    by_cases hy : ready y
    · -- the station is served again
      obtain rfl : y = x := by simpa [hy] using h
      constructor
      · rintro hfind _ ⟨⟩ - z hz hreadyz
        rcases (hmem z).mp hz with hz | hz
        · exact hz
        · cases hf : rest.find? ready with
          | none => exact absurd hreadyz (by simpa using List.find?_eq_none.mp hf z hz)
          | some w =>
            obtain rfl : w = y := by simpa [hf] using hfind
            exact absurd (List.mem_of_find?_eq_some hf) hrest
      · intro hone
        have hnone : rest.find? ready = none := by
          refine List.find?_eq_none.mpr fun z hz hreadyz => hrest ?_
          rw [← hone y rfl hy z ((hmem z).mpr (.inr hz)) hreadyz]
          exact hz
        simp [List.find?_append, hnone, hy]
    · have hfind : rest.find? ready = some x := by simpa [hy] using h
      refine ⟨fun _ z hz hready => ?_, fun _ => by simp [List.find?_append, hfind]⟩
      obtain rfl : y = z := by simpa using hz
      exact absurd hready hy

end StreamMill.Lib
