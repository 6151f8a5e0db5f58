import StreamMill.Lib.Sort

/-!
# StreamMill.Lib.BinarySearch

The library's `bsearch`. What it finds compares equal, in any list (`bsearch_sound`); in a list
sorted by a key without duplicates it finds the element with the key (`bsearch_iff`).
-/

namespace StreamMill.Lib

universe u v

variable {α : Type u} {κ : Type v}

/-- The loop of `bsearch` between `l` and `u`; `f` compares the key to an element. -/
def bsearchFrom (f : α → Ordering) (xs : List α) : Nat → Nat → Nat → Option Nat
  | 0, _, _ => none
  | fuel + 1, l, u =>
    if l < u then
      match xs[(l + u) / 2]? with
      | none => none
      | some x =>
        match f x with
        | .lt => bsearchFrom f xs fuel l ((l + u) / 2)
        | .gt => bsearchFrom f xs fuel ((l + u) / 2 + 1) u
        | .eq => some ((l + u) / 2)
    else none

def bsearch (f : α → Ordering) (xs : List α) : Option Nat :=
  bsearchFrom f xs (xs.length + 1) 0 xs.length

theorem bsearchFrom_sound {f : α → Ordering} {xs : List α} {fuel l u i : Nat}
    (h : bsearchFrom f xs fuel l u = some i) : ∃ x, xs[i]? = some x ∧ f x = .eq := by
  induction fuel generalizing l u with
  | zero => cases h
  | succ fuel ih =>
    rw [bsearchFrom] at h
    split at h
    · split at h
      · cases h
      · next x hx =>
        split at h
        · exact ih h
        · exact ih h
        · next hf =>
          cases h
          exact ⟨x, hx, hf⟩
    · cases h

theorem bsearch_sound {f : α → Ordering} {xs : List α} {i : Nat} (h : bsearch f xs = some i) :
    ∃ x, xs[i]? = some x ∧ f x = .eq := bsearchFrom_sound h

variable [LinearOrder κ] {key : α → κ} {k : κ} {xs : List α} {x : α} {i : Nat}

section

variable (hs : xs.Pairwise fun a b => key a < key b)
include hs

theorem sorted_index (hi : xs[i]? = some x) {j : Nat} {y : α} (hj : xs[j]? = some y) :
    (i < j ↔ key x < key y) ∧ (i = j ↔ key x = key y) := by
  have hlt : ∀ {m n : Nat} {a b : α}, xs[m]? = some a → xs[n]? = some b → m < n →
      key a < key b := by
    intro m n a b hm hn hmn
    obtain ⟨hm', rfl⟩ := List.getElem?_eq_some_iff.mp hm
    obtain ⟨hn', rfl⟩ := List.getElem?_eq_some_iff.mp hn
    exact List.pairwise_iff_getElem.mp hs m n hm' hn' hmn
  rcases Nat.lt_trichotomy i j with h | h | h
  · have hk := hlt hi hj h
    exact ⟨⟨fun _ => hk, fun _ => h⟩, ⟨fun he => by omega, fun he => absurd he (ne_of_lt hk)⟩⟩
  · subst h
    obtain rfl : x = y := Option.some.inj (hi.symm.trans hj)
    simp
  · have hk := hlt hj hi h
    exact ⟨⟨fun hl => by omega, fun hl => absurd hl (lt_asymm hk)⟩,
      ⟨fun he => by omega, fun he => absurd he (ne_of_gt hk)⟩⟩

theorem bsearchFrom_complete (hi : xs[i]? = some x) {fuel l u : Nat} (hl : l ≤ i) (hu : i < u)
    (hlen : u ≤ xs.length) (hfuel : u - l < fuel) :
    bsearchFrom (fun y => order (key x) (key y)) xs fuel l u = some i := by
  induction fuel generalizing l u with
  | zero => omega
  | succ fuel ih =>
    have hmid : (l + u) / 2 < xs.length := by omega
    obtain ⟨y, hy⟩ : ∃ y, xs[(l + u) / 2]? = some y := ⟨_, List.getElem?_eq_getElem hmid⟩
    obtain ⟨hlt, heq⟩ := sorted_index hs hi hy
    rw [bsearchFrom, if_pos (by omega), hy]
    rcases lt_trichotomy (key x) (key y) with h | h | h
    · have hiy := hlt.mpr h
      simp only [order_lt h]
      exact ih hl hiy (by omega) (by omega)
    · simp only [order_eq h]
      rw [heq.mpr h]
    · have hyi : (l + u) / 2 < i := by
        rcases Nat.lt_trichotomy i ((l + u) / 2) with h' | h' | h'
        · exact absurd (hlt.mp h') (lt_asymm h)
        · exact absurd (heq.mp h') (ne_of_gt h)
        · exact h'
      simp only [order_gt h]
      exact ih hyi hu hlen (by omega)

theorem bsearch_iff :
    bsearch (fun y => order k (key y)) xs = some i ↔ ∃ x, xs[i]? = some x ∧ key x = k := by
  constructor
  · intro h
    obtain ⟨x, hx, hf⟩ := bsearch_sound h
    refine ⟨x, hx, ?_⟩
    rcases lt_trichotomy k (key x) with hlt | heq | hgt
    · rw [order_lt hlt] at hf
      cases hf
    · exact heq.symm
    · rw [order_gt hgt] at hf
      cases hf
  · rintro ⟨x, hx, rfl⟩
    obtain ⟨hlt, -⟩ := List.getElem?_eq_some_iff.mp hx
    exact bsearchFrom_complete hs hx (Nat.zero_le i) hlt (Nat.le_refl _) (by omega)

end

end StreamMill.Lib
