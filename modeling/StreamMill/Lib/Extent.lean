import StreamMill.Lib.Memory
import Mathlib.Data.List.Pairwise

/-!
# StreamMill.Lib.Extent

Areas of a memory. `Apart` areas share no byte, and a `Changes P` step from one memory to another
leaves every byte outside `P` as it was: `Changes.load` reads across such a step. `Malloc` gives
out blocks, and a sound one keeps them apart and below the limit of the address space.
-/

namespace StreamMill.Lib

open Memory

universe u

/-- The `n` bytes from `a` and the `k` bytes from `b` share none. -/
def Apart (a n b k : Nat) : Prop := a + n ≤ b ∨ b + k ≤ a

/-- `i` is one of the `n` bytes from `a`. -/
def Within (a n i : Nat) : Prop := a ≤ i ∧ i < a + n

theorem Within.sub {a n b k i : Nat} (h : Within a n i) (hle : b ≤ a) (hlt : a + n ≤ b + k) :
    Within b k i := ⟨hle.trans h.1, h.2.trans_le hlt⟩

theorem Apart.not_within {a n b k i : Nat} (h : Apart a n b k) (hi : Within a n i) :
    ¬Within b k i := by
  obtain ⟨h1, h2⟩ := hi
  rintro ⟨h3, h4⟩
  rcases h with h | h <;> omega

theorem Apart.symm {a n b k : Nat} (h : Apart a n b k) : Apart b k a n := Or.symm h

theorem Apart.sub {a n b k a' n' b' k' : Nat} (h : Apart a n b k) (ha : a ≤ a')
    (ha' : a' + n' ≤ a + n) (hb : b ≤ b') (hb' : b' + k' ≤ b + k) : Apart a' n' b' k' := by
  rcases h with h | h
  · exact Or.inl (by omega)
  · exact Or.inr (by omega)

theorem apart_mul {q i j n : Nat} (h : i ≠ j) : Apart (q + i * n) n (q + j * n) n := by
  rcases Nat.lt_or_gt_of_ne h with h | h
  · have hle := Nat.mul_le_mul_right n (Nat.succ_le_of_lt h)
    rw [Nat.succ_mul] at hle
    exact Or.inl (by omega)
  · have hle := Nat.mul_le_mul_right n (Nat.succ_le_of_lt h)
    rw [Nat.succ_mul] at hle
    exact Or.inr (by omega)

theorem mul_add_le {i k n : Nat} (h : i < k) : i * n + n ≤ k * n := by
  have hle := Nat.mul_le_mul_right n (Nat.succ_le_of_lt h)
  rwa [Nat.succ_mul] at hle

section Changes

variable {β : Type u} {m m' m'' : Memory β} {P Q : Nat → Prop}

def Changes (P : Nat → Prop) (m m' : Memory β) : Prop := ∀ i, ¬P i → m' i = m i

theorem Changes.refl : Changes P m m := fun _ _ => rfl

theorem Changes.trans (h : Changes P m m') (h' : Changes P m' m'') : Changes P m m'' :=
  fun i hi => (h' i hi).trans (h i hi)

theorem Changes.mono (h : Changes P m m') (hPQ : ∀ i, P i → Q i) : Changes Q m m' :=
  fun i hi => h i fun hp => hi (hPQ i hp)

theorem changes_store (m : Memory β) (off : Nat) (bs : List β) :
    Changes (Within off bs.length) m (store m off bs) := by
  intro i hi
  apply store_outside
  unfold Within at hi
  omega

theorem Changes.load {off n : Nat} (h : Changes P m m') (hP : ∀ i, Within off n i → ¬P i) :
    load m' off n = load m off n :=
  load_congr fun i h1 h2 => h i (hP i ⟨h1, h2⟩)

end Changes

section Malloc

abbrev Block := Nat × Nat

/-- What `malloc` returns while the blocks of the list are in use, and `none` for `NULL`. -/
abbrev Malloc := List Block → Nat → Option Nat

def Block.Apart (b c : Block) : Prop := Lib.Apart b.1 b.2 c.1 c.2

instance : Std.Symm Block.Apart := ⟨fun _ _ h => Apart.symm h⟩

/-- Addresses are below `limit`, and zero is none. -/
def Malloc.Sound (malloc : Malloc) (limit : Nat) : Prop :=
  ∀ bs n p, malloc bs n = some p →
    0 < p ∧ p + n ≤ limit ∧ ∀ b ∈ bs, Block.Apart (p, n) b

structure Blocks (limit : Nat) (bs : List Block) : Prop where
  apart : bs.Pairwise Block.Apart
  bound : ∀ b ∈ bs, 0 < b.1 ∧ b.1 + b.2 ≤ limit

variable {malloc : Malloc} {limit : Nat} {bs : List Block}

theorem Blocks.nil : Blocks limit [] := ⟨List.Pairwise.nil, fun b hb => by cases hb⟩

theorem Blocks.cons (h : Blocks limit bs) (hm : malloc.Sound limit) {n p : Nat}
    (hp : malloc bs n = some p) : Blocks limit ((p, n) :: bs) := by
  obtain ⟨hpos, hlt, hapart⟩ := hm bs n p hp
  refine ⟨List.pairwise_cons.mpr ⟨hapart, h.apart⟩, ?_⟩
  intro b hb
  rcases List.mem_cons.mp hb with rfl | hb
  · exact ⟨hpos, hlt⟩
  · exact h.bound b hb

theorem Blocks.perm {cs : List Block} (h : Blocks limit bs) (hp : bs.Perm cs) :
    Blocks limit cs :=
  ⟨(hp.pairwise_iff Apart.symm).mp h.apart,
    fun b hb => h.bound b (hp.mem_iff.mpr hb)⟩

theorem Blocks.sublist {cs : List Block} (h : Blocks limit bs) (hs : cs.Sublist bs) :
    Blocks limit cs :=
  ⟨h.apart.sublist hs, fun b hb => h.bound b (hs.subset hb)⟩

theorem Blocks.of_mem (h : Blocks limit bs) {b c : Block} (hb : b ∈ bs) (hc : c ∈ bs)
    (hne : b ≠ c) : Block.Apart b c :=
  h.apart.forall hb hc hne

end Malloc

end StreamMill.Lib
