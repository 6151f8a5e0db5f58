import StreamMill.Table.CompareOrder

/-!
# StreamMill.Table.IntComp

`_int_comp` of `adllib.cc`, the order of B-tree keys that start with an integer. The differences of
the integers and of the sizes may wrap around, and `strncmp` stops at a zero byte of the rest.

`intComp_orders_iff` gives the sets of keys that it orders.
-/

namespace StreamMill.Table

open ImDb (Byte)

/-- A key of a B-tree: an `int` and more bytes. The size is a `u_int32_t`. -/
structure IntKey where
  int : BitVec 32
  tail : List Byte
  short : 4 + tail.length < 2 ^ 32

def IntKey.size (k : IntKey) : Nat := 4 + k.tail.length

/-- `ai - bi` -/
def intDiff (a b : IntKey) : Int := (a.int - b.int).toInt

def sizeDiff (a b : IntKey) : Int := (BitVec.ofInt 32 ((a.size : Int) - b.size)).toInt

def intComp (a b : IntKey) : Int :=
  let res := intDiff a b
  if res ≠ 0 then res
  else
    let ss := sizeDiff a b
    if ss ≠ 0 then ss else strncmp a.tail b.tail

/-- A total order of the keys in `K`, by the integers first. -/
structure KeyOrder (K : Set IntKey) : Prop where
  antisymm : ∀ a ∈ K, ∀ b ∈ K, (intComp a b).sign = -(intComp b a).sign
  trans : ∀ a ∈ K, ∀ b ∈ K, ∀ c ∈ K, intComp a b ≤ 0 → intComp b c ≤ 0 → intComp a c ≤ 0
  zero : ∀ a ∈ K, ∀ b ∈ K, intComp a b = 0 ↔ a = b
  ints : ∀ a ∈ K, ∀ b ∈ K, a.int ≠ b.int → (intComp a b < 0 ↔ a.int.toInt < b.int.toInt)

/-- No two integers are `2 ^ 31` apart or more, and of keys with one integer the sizes are not that
far apart either, and no two different keys of one size are equal up to a zero byte. -/
structure Tame (K : Set IntKey) : Prop where
  ints : ∀ a ∈ K, ∀ b ∈ K, a.int.toInt - b.int.toInt < 2 ^ 31
  apart : ∀ a ∈ K, ∀ b ∈ K, a.int = b.int → a.size ≠ b.size + 2 ^ 31
  between : ∀ a ∈ K, ∀ b ∈ K, ∀ c ∈ K, a.int = b.int → b.int = c.int →
    a.size ≤ b.size → b.size ≤ c.size → b.size < a.size + 2 ^ 31 → c.size < b.size + 2 ^ 31 →
    c.size < a.size + 2 ^ 31
  tails : ∀ a ∈ K, ∀ b ∈ K, a.int = b.int → a.size = b.size → str a.tail = str b.tail → a = b

variable {K : Set IntKey} {a b c : IntKey}

theorem bmod_cases (d : Int) (h : -2 ^ 32 < d) (h' : d < 2 ^ 32) :
    -2 ^ 31 ≤ d.bmod (2 ^ 32) ∧ d.bmod (2 ^ 32) < 2 ^ 31 ∧
      (d.bmod (2 ^ 32) = d ∨ d.bmod (2 ^ 32) = d - 2 ^ 32 ∨ d.bmod (2 ^ 32) = d + 2 ^ 32) := by
  rw [Int.bmod_def]
  split <;> omega

theorem IntKey.size_lt (k : IntKey) : k.size < 2 ^ 32 := k.short

theorem sizeDiff_cases (a b : IntKey) : -2 ^ 31 ≤ sizeDiff a b ∧ sizeDiff a b < 2 ^ 31 ∧
    (sizeDiff a b = a.size - b.size ∨ sizeDiff a b = (a.size : Int) - b.size - 2 ^ 32 ∨
      sizeDiff a b = (a.size : Int) - b.size + 2 ^ 32) := by
  have ha := a.size_lt
  have hb := b.size_lt
  rw [sizeDiff, BitVec.toInt_ofInt]
  exact bmod_cases _ (by omega) (by omega)

theorem intDiff_cases (a b : IntKey) : -2 ^ 31 ≤ intDiff a b ∧ intDiff a b < 2 ^ 31 ∧
    (intDiff a b = a.int.toInt - b.int.toInt ∨ intDiff a b = a.int.toInt - b.int.toInt - 2 ^ 32 ∨
      intDiff a b = a.int.toInt - b.int.toInt + 2 ^ 32) := by
  have ha := a.int.toInt_lt
  have ha' := a.int.le_toInt
  have hb := b.int.toInt_lt
  have hb' := b.int.le_toInt
  rw [intDiff, BitVec.toInt_sub]
  exact bmod_cases _ (by omega) (by omega)

theorem intDiff_eq_zero : intDiff a b = 0 ↔ a.int = b.int := by
  rw [← BitVec.toInt_inj]
  have ha := a.int.toInt_lt
  have ha' := a.int.le_toInt
  have hb := b.int.toInt_lt
  have hb' := b.int.le_toInt
  have := intDiff_cases a b
  omega

theorem sizeDiff_eq_zero : sizeDiff a b = 0 ↔ a.size = b.size := by
  have ha := a.size_lt
  have hb := b.size_lt
  have := sizeDiff_cases a b
  omega

theorem intComp_int (h : a.int ≠ b.int) : intComp a b = intDiff a b :=
  if_pos (mt intDiff_eq_zero.mp h)

theorem intComp_size (h : a.int = b.int) (hs : a.size ≠ b.size) : intComp a b = sizeDiff a b :=
  (if_neg (not_not.mpr (intDiff_eq_zero.mpr h))).trans (if_pos (mt sizeDiff_eq_zero.mp hs))

theorem intComp_tail (h : a.int = b.int) (hs : a.size = b.size) :
    intComp a b = strncmp a.tail b.tail :=
  (if_neg (not_not.mpr (intDiff_eq_zero.mpr h))).trans
    (if_neg (not_not.mpr (sizeDiff_eq_zero.mpr hs)))

theorem tails_length (hs : a.size = b.size) : a.tail.length = b.tail.length :=
  Nat.add_left_cancel hs

theorem KeyOrder.tame (h : KeyOrder K) : Tame K := by
  have happart : ∀ a ∈ K, ∀ b ∈ K, a.int = b.int → a.size ≠ b.size + 2 ^ 31 := by
    intro a ha b hb hint hsize
    have hanti := h.antisymm a ha b hb
    rw [intComp_size hint (by omega), intComp_size hint.symm (by omega)] at hanti
    have hab := sizeDiff_cases a b
    have hba := sizeDiff_cases b a
    rw [Int.sign_eq_neg_one_of_neg (by omega), Int.sign_eq_neg_one_of_neg (by omega)] at hanti
    omega
  refine ⟨fun a ha b hb => ?_, happart, fun a ha b hb c hc hab hbc hle hle' hnear hnear' => ?_,
    fun a ha b hb hint hsize htail => ?_⟩
  · by_contra hfar
    have hne : b.int ≠ a.int := by
      rintro heq
      rw [heq] at hfar
      omega
    have hlt := (h.ints b hb a ha hne).mpr (by omega)
    have hanti := h.antisymm a ha b hb
    have hdiff := intDiff_cases a b
    have hb' := b.int.le_toInt
    have ha' := a.int.toInt_lt
    rw [intComp_int hne] at hlt
    rw [intComp_int hne, intComp_int hne.symm, Int.sign_eq_neg_one_of_neg hlt,
      Int.sign_eq_neg_one_of_neg (by omega)] at hanti
    omega
  · by_contra hfar
    have hexact := happart c hc a ha (hab.trans hbc).symm
    have hcases := sizeDiff_cases a b
    have hcases' := sizeDiff_cases b c
    have hcases'' := sizeDiff_cases a c
    have htrans := h.trans a ha b hb c hc
    rw [intComp_size hab (by omega), intComp_size hbc (by omega),
      intComp_size (hab.trans hbc) (by omega)] at htrans
    omega
  · rw [← h.zero a ha b hb, intComp_tail hint hsize, strncmp_eq_zero (tails_length hsize)]
    exact htail

theorem Tame.keyOrder (h : Tame K) : KeyOrder K := by
  have hdiff : ∀ a ∈ K, ∀ b ∈ K, intDiff a b = a.int.toInt - b.int.toInt := by
    intro a ha b hb
    have hab := h.ints a ha b hb
    have hba := h.ints b hb a ha
    have := intDiff_cases a b
    omega
  have hsize : ∀ a ∈ K, ∀ b ∈ K, a.int = b.int → (sizeDiff b a = -sizeDiff a b) := by
    intro a ha b hb hint
    have hab := h.apart a ha b hb hint
    have hba := h.apart b hb a ha hint.symm
    have hab' := sizeDiff_cases a b
    have hba' := sizeDiff_cases b a
    omega
  refine ⟨fun a ha b hb => ?_, fun a ha b hb c hc hab hbc => ?_, fun a ha b hb => ?_,
    fun a ha b hb hne => ?_⟩
  · by_cases hint : a.int = b.int
    · by_cases hs : a.size = b.size
      · rw [intComp_tail hint hs, intComp_tail hint.symm hs.symm, strncmp_sign (tails_length hs),
          strncmp_sign (tails_length hs.symm), lexSign_neg_swap]
      · rw [intComp_size hint hs, intComp_size hint.symm (Ne.symm hs), hsize a ha b hb hint,
          Int.sign_neg, neg_neg]
    · rw [intComp_int hint, intComp_int (Ne.symm hint), hdiff a ha b hb, hdiff b hb a ha,
        ← Int.sign_neg, neg_sub]
  · have hle : ∀ a ∈ K, ∀ b ∈ K, intComp a b ≤ 0 → a.int.toInt ≤ b.int.toInt := by
      intro a ha b hb hcomp
      by_cases hint : a.int = b.int
      · rw [hint]
      · rw [intComp_int hint, hdiff a ha b hb] at hcomp
        omega
    have hle' : ∀ a b, a.int = b.int → intComp a b ≤ 0 → sizeDiff a b ≤ 0 := by
      intro a b hint hcomp
      by_cases hs : a.size = b.size
      · rw [sizeDiff_eq_zero.mpr hs]
      · rwa [← intComp_size hint hs]
    have hxy := hle a ha b hb hab
    have hyz := hle b hb c hc hbc
    by_cases hint : a.int = c.int
    · -- one integer: the sizes, then the rests
      have hab_int : a.int = b.int := BitVec.toInt_inj.mp (by rw [← hint] at hyz; omega)
      have hbc_int : b.int = c.int := hab_int.symm.trans hint
      have h1 := hle' a b hab_int hab
      have h2 := hle' b c hbc_int hbc
      have hab' := sizeDiff_cases a b
      have hbc' := sizeDiff_cases b c
      have hac' := sizeDiff_cases a c
      have hsba' := h.apart b hb a ha hab_int.symm
      have hscb' := h.apart c hc b hb hbc_int.symm
      have hfirst := h.between a ha b hb c hc hab_int hbc_int
      have hsecond := h.between c hc a ha b hb hint.symm hab_int
      have hthird := h.between b hb c hc a ha hbc_int hint.symm
      have := a.size_lt
      have := b.size_lt
      have := c.size_lt
      by_cases hs : a.size = c.size
      · have hsab : a.size = b.size := by omega
        have hsbc : b.size = c.size := by omega
        rw [intComp_tail hab_int hsab, sign_nonpos, strncmp_sign (tails_length hsab),
          lexSign_nonpos] at hab
        rw [intComp_tail hbc_int hsbc, sign_nonpos, strncmp_sign (tails_length hsbc),
          lexSign_nonpos] at hbc
        rw [intComp_tail hint hs, sign_nonpos, strncmp_sign (tails_length hs), lexSign_nonpos]
        exact le_trans hab hbc
      · rw [intComp_size hint hs]
        omega
    · rw [intComp_int hint, hdiff a ha c hc]
      omega
  · by_cases hint : a.int = b.int
    · by_cases hs : a.size = b.size
      · rw [intComp_tail hint hs, strncmp_eq_zero (tails_length hs)]
        exact ⟨h.tails a ha b hb hint hs, fun heq => heq ▸ rfl⟩
      · rw [intComp_size hint hs, sizeDiff_eq_zero]
        exact ⟨fun heq => absurd heq hs, fun heq => absurd (heq ▸ rfl) hs⟩
    · rw [intComp_int hint, intDiff_eq_zero]
      exact ⟨fun heq => absurd heq hint, fun heq => absurd (heq ▸ rfl) hint⟩
  · rw [intComp_int hne, hdiff a ha b hb]
    omega

/-- `_int_comp` orders the tame sets of keys and no others. -/
theorem intComp_orders_iff (K : Set IntKey) : KeyOrder K ↔ Tame K :=
  ⟨KeyOrder.tame, Tame.keyOrder⟩

/-- The least integer and 1. -/
theorem intComp_misorders : ¬ KeyOrder Set.univ := by
  intro h
  have := (h.ints ⟨0x80000000, [], by decide⟩ trivial ⟨1, [], by decide⟩ trivial (by decide)).mpr
    (by decide)
  revert this
  decide

end StreamMill.Table
