import StreamMill.Table.Compare

/-!
# StreamMill.Table.CompareOrder

The comparison function of `transTabDec2C` against the order it stands for, the lexicographic one
of the key columns. The difference of two integers may wrap around, and the first string ends the
comparison, whatever columns follow.

`cmpFrom_spec` is the case analysis of one call: `Decided` pairs of keys come out as in the order,
and no others do. `cmp_orders_iff` gives the column lists all of whose pairs do.
-/

namespace StreamMill.Table

open Lib Lib.Memory
open ImDb (Byte)

def keyColumns : List Field → Nat → Memory Byte → List (List Int)
  | [], _, _ => []
  | f :: fs, off, m =>
    if f.iskey then
      match f.ty with
      | .int => [(readInt m off).toInt] :: keyColumns fs (off + 4) m
      | .string n => str (load m off n) :: keyColumns fs (off + n) m
      | .real => keyColumns fs (off + 8) m
      | .timestamp => keyColumns fs (off + 8) m
    else keyColumns fs off m

def lexSign (xs ys : List (List Int)) : Int :=
  if xs < ys then -1 else if xs = ys then 0 else 1

/-- The comparison of two keys says what their order says. -/
def Agrees (fs : List Field) (off : Nat) (a b : Memory Byte) : Prop :=
  (cmpFrom fs off a b).sign = lexSign (keyColumns fs off a) (keyColumns fs off b)

/-- The first difference is in no column behind a string, and if it is in an integer, it fits into
an `int`. -/
def Decided : List Field → Nat → Memory Byte → Memory Byte → Prop
  | [], _, _, _ => True
  | f :: fs, off, a, b =>
    if f.iskey then
      match f.ty with
      | .int =>
        let x := (readInt a off).toInt
        let y := (readInt b off).toInt
        if x = y then Decided fs (off + 4) a b else -2 ^ 31 ≤ x - y ∧ x - y < 2 ^ 31
      | .string n =>
        str (load a off n) = str (load b off n) →
          keyColumns fs (off + n) a = keyColumns fs (off + n) b
      | .real => True
      | .timestamp => True
    else Decided fs off a b

/-- The comparison function is the total order of the key columns. -/
structure Orders (fs : List Field) : Prop where
  antisymm : ∀ a b, (cmpFrom fs 0 a b).sign = -(cmpFrom fs 0 b a).sign
  trans : ∀ a b c, cmpFrom fs 0 a b ≤ 0 → cmpFrom fs 0 b c ≤ 0 → cmpFrom fs 0 a c ≤ 0
  lex : ∀ a b, Agrees fs 0 a b
  zero : ∀ a b, cmpFrom fs 0 a b = 0 ↔ keyColumns fs 0 a = keyColumns fs 0 b

def Comparable (fs : List Field) : Prop :=
  ∀ f ∈ fs, f.iskey = true → f.ty = .int ∨ ∃ n, f.ty = .string n

def keyTypes (fs : List Field) : List FieldTy := (fs.filter (·.iskey)).map (·.ty)

def OneString (tys : List FieldTy) : Prop :=
  tys = [] ∨ ∃ n rest, tys = .string n :: rest ∧ ∀ ty ∈ rest, ty = .string 0

section Values

variable {fs : List Field}

end Values

theorem lexSign_cons (x y : List Int) (xs ys : List (List Int)) :
    lexSign (x :: xs) (y :: ys) =
      if x < y then -1 else if x = y then lexSign xs ys else 1 := by
  unfold lexSign
  rcases lt_trichotomy x y with h | h | h
  · rw [if_pos h, if_pos (List.cons_lt_cons_iff.mpr (Or.inl h))]
  · subst h
    simp
  · have hne : x ≠ y := ne_of_gt h
    rw [if_neg (lt_asymm h), if_neg hne, if_neg, if_neg]
    · exact fun heq => hne (List.cons.inj heq).1
    · intro hlt
      rcases List.cons_lt_cons_iff.mp hlt with hxy | ⟨hxy, -⟩
      · exact lt_asymm h hxy
      · exact hne hxy

theorem lexSign_eq_zero {xs ys : List (List Int)} : lexSign xs ys = 0 ↔ xs = ys := by
  unfold lexSign
  by_cases h : xs < ys
  · rw [if_pos h]
    constructor
    · omega
    · rintro rfl
      exact absurd h (lt_irrefl xs)
  · rw [if_neg h]
    by_cases heq : xs = ys
    · simp [heq]
    · simp [heq]

theorem sub_sign (x y : BitVec 32) (hne : x.toInt ≠ y.toInt) :
    (x - y).toInt.sign = lexSign [[x.toInt]] [[y.toInt]] ↔
      -2 ^ 31 ≤ x.toInt - y.toInt ∧ x.toInt - y.toInt < 2 ^ 31 := by
  have hx := x.toInt_lt
  have hx' := x.le_toInt
  have hy := y.toInt_lt
  have hy' := y.le_toInt
  have hlex : lexSign [[x.toInt]] [[y.toInt]] = if x.toInt < y.toInt then -1 else 1 := by
    rw [lexSign_cons]
    by_cases hlt : x.toInt < y.toInt
    · rw [if_pos hlt, if_pos (List.cons_lt_cons_iff.mpr (Or.inl hlt))]
    · rw [if_neg hlt, if_neg, if_neg]
      · exact fun h => hne (List.cons.inj h).1
      · intro h
        rcases List.cons_lt_cons_iff.mp h with h | ⟨-, h⟩
        · exact hlt h
        · exact absurd h (lt_irrefl _)
  rw [hlex, BitVec.toInt_sub, Int.bmod_def]
  generalize x.toInt = u at *
  generalize y.toInt = v at *
  by_cases hlt : u < v
  · rw [if_pos hlt, Int.sign_eq_neg_one_iff_neg]
    split <;> omega
  · rw [if_neg hlt, Int.sign_eq_one_iff_pos]
    split <;> omega

theorem strncmp_sign {xs ys : List Byte} (hlen : xs.length = ys.length) :
    (strncmp xs ys).sign = lexSign [str xs] [str ys] := by
  rw [lexSign_cons]
  rcases strncmp_cases hlen with ⟨h, hs⟩ | ⟨h, hs⟩ | ⟨h, hs⟩
  · rw [if_pos hs, Int.sign_eq_neg_one_iff_neg.mpr h]
  · rw [h, hs, if_neg (lt_irrefl _), if_pos rfl]
    rfl
  · rw [if_neg hs.not_gt, if_neg hs.ne', Int.sign_eq_one_iff_pos.mpr h]

theorem cmpFrom_spec (a b : Memory Byte) {fs : List Field} (hkeys : Comparable fs) (off : Nat) :
    Agrees fs off a b ↔ Decided fs off a b := by
  induction fs generalizing off with
  | nil =>
    unfold Agrees Decided
    simp [cmpFrom, keyColumns, lexSign]
  | cons f fs ih =>
    have hrest : Comparable fs := fun g hg => hkeys g (List.mem_cons_of_mem _ hg)
    unfold Agrees Decided
    simp only [cmpFrom, keyColumns]
    cases hk : f.iskey with
    | false => exact ih hrest off
    | true =>
      rw [if_pos rfl, if_pos rfl, if_pos rfl, if_pos rfl]
      rcases hkeys f List.mem_cons_self hk with hty | ⟨n, hty⟩
      · rw [hty]
        by_cases heq : (readInt a off).toInt = (readInt b off).toInt
        · have hsub : (readInt a off - readInt b off).toInt = 0 := by
            rw [BitVec.toInt_inj.mp heq, BitVec.sub_self, BitVec.toInt_zero]
          rw [if_pos heq, hsub, heq, lexSign_cons, if_neg (lt_irrefl _),
            if_pos rfl]
          exact ih hrest (off + 4)
        · have hsub : (readInt a off - readInt b off).toInt ≠ 0 := by
            intro h
            have hzero : readInt a off - readInt b off = 0#32 := by
              rw [← BitVec.toInt_inj, h, BitVec.toInt_zero]
            have := BitVec.sub_eq_iff_eq_add.mp hzero
            rw [BitVec.zero_add] at this
            exact heq (congrArg BitVec.toInt this)
          have hcol : ¬ [(readInt a off).toInt] = [(readInt b off).toInt] :=
            fun h => heq (List.cons.inj h).1
          rw [if_neg heq, if_pos hsub, lexSign_cons, if_neg hcol,
            ← sub_sign _ _ heq, lexSign_cons, if_neg hcol]
      · rw [hty]
        dsimp only
        have hlen : (load a off n).length = (load b off n).length := by
          rw [load_length, load_length]
        rw [strncmp_sign hlen, lexSign_cons, lexSign_cons]
        by_cases heq : str (load a off n) = str (load b off n)
        · rw [heq, if_neg (lt_irrefl _), if_pos rfl, if_neg (lt_irrefl _), if_pos rfl]
          rw [show lexSign [] [] = 0 from rfl, eq_comm, lexSign_eq_zero]
          constructor
          · intro h _
            exact h
          · intro h
            exact h rfl
        · rw [if_neg heq, if_neg heq]
          exact iff_of_true rfl fun h => absurd h heq

section Columns

theorem lexSign_neg_swap (xs ys : List (List Int)) : lexSign ys xs = -lexSign xs ys := by
  unfold lexSign
  rcases lt_trichotomy xs ys with h | h | h
  · rw [if_neg (lt_asymm h), if_neg (ne_of_gt h), if_pos h]
    rfl
  · subst h
    simp
  · rw [if_pos h, if_neg (lt_asymm h), if_neg (ne_of_gt h)]

theorem lexSign_nonpos {xs ys : List (List Int)} : lexSign xs ys ≤ 0 ↔ xs ≤ ys := by
  unfold lexSign
  rcases lt_trichotomy xs ys with h | h | h
  · simp [h, le_of_lt h]
  · subst h
    simp
  · rw [if_neg (lt_asymm h), if_neg (ne_of_gt h)]
    simp [h]

theorem sign_nonpos {z : Int} : z ≤ 0 ↔ z.sign ≤ 0 := by
  rcases lt_trichotomy z 0 with h | h | h
  · rw [Int.sign_eq_neg_one_of_neg h]
    omega
  · simp
  · rw [Int.sign_eq_one_of_pos h]
    omega

variable {fs : List Field}

theorem Orders.of_agrees (h : ∀ a b, Agrees fs 0 a b) : Orders fs where
  antisymm := fun a b => by rw [h a b, h b a, lexSign_neg_swap]
  trans := by
    intro a b c hab hbc
    rw [sign_nonpos, h, lexSign_nonpos] at hab hbc ⊢
    exact le_trans hab hbc
  lex := h
  zero := fun a b => by rw [← Int.sign_eq_zero_iff_zero, h a b, lexSign_eq_zero]

theorem keyTypes_cons (f : Field) (fs : List Field) :
    keyTypes (f :: fs) = if f.iskey then f.ty :: keyTypes fs else keyTypes fs := by
  unfold keyTypes
  cases hk : f.iskey <;> simp [hk]

theorem keyColumns_empty (h : ∀ ty ∈ keyTypes fs, ty = .string 0) (off : Nat) (a b : Memory Byte) :
    keyColumns fs off a = keyColumns fs off b := by
  induction fs generalizing off with
  | nil => rfl
  | cons f fs ih =>
    rw [keyTypes_cons] at h
    simp only [keyColumns]
    cases hk : f.iskey with
    | false =>
      rw [hk] at h
      exact ih h off
    | true =>
      rw [hk] at h
      rw [h f.ty List.mem_cons_self]
      simp only [if_true]
      rw [ih (fun ty hty => h ty (List.mem_cons_of_mem _ hty)) (off + 0)]
      rfl

def onesFrom (n : Nat) : Memory Byte := fun i => if i < n then 0 else 1

theorem load_onesFrom {n off : Nat} (h : n ≤ off) (k : Nat) :
    load (onesFrom n) off k = List.replicate k 1 := by
  rw [← load_const (1 : Byte) off k]
  apply load_congr
  intro i hi _
  exact if_neg (by omega)

theorem load_onesFrom_zero (n : Nat) : load (onesFrom n) 0 n = List.replicate n 0 := by
  rw [← load_const (0 : Byte) 0 n]
  apply load_congr
  intro i _ hi
  exact if_pos (by omega)

theorem readInt_zeros (off : Nat) : readInt (fun _ => 0) off = 0 := by
  rfl

theorem readInt_ones {n off : Nat} (h : n ≤ off) : readInt (onesFrom n) off = 0x01010101 := by
  unfold readInt
  rw [load_onesFrom h]
  rfl

theorem str_ones (n : Nat) : str (List.replicate n 1) = List.replicate n 1 := by
  induction n with
  | zero => rfl
  | succ n ih =>
    rw [List.replicate_succ, str_cons, ih]
    rfl

theorem str_zeros (n : Nat) : str (List.replicate n 0) = [] := by
  cases n with
  | zero => rfl
  | succ n => rw [List.replicate_succ, str_cons, if_pos rfl]

theorem empty_of_keyColumns (hkeys : Comparable fs) {n off : Nat} (hoff : n ≤ off)
    (h : keyColumns fs off (fun _ => 0) = keyColumns fs off (onesFrom n)) :
    ∀ ty ∈ keyTypes fs, ty = .string 0 := by
  induction fs generalizing off with
  | nil => simp [keyTypes]
  | cons f fs ih =>
    have hrest : Comparable fs := fun g hg => hkeys g (List.mem_cons_of_mem _ hg)
    rw [keyTypes_cons]
    simp only [keyColumns] at h
    cases hk : f.iskey with
    | false =>
      rw [hk] at h
      exact ih hrest hoff h
    | true =>
      rw [hk] at h
      rcases hkeys f List.mem_cons_self hk with hty | ⟨k, hty⟩
      · rw [hty] at h
        rw [readInt_zeros, readInt_ones hoff] at h
        exact absurd (List.cons.inj h).1 (by decide)
      · rw [hty] at h
        dsimp only at h
        rw [load_const, load_onesFrom hoff, str_zeros, str_ones] at h
        obtain ⟨hcol, hcols⟩ := List.cons.inj h
        obtain rfl : 0 = k := by simpa using congrArg List.length hcol
        intro ty hmem
        rcases List.mem_cons.mp hmem with rfl | hmem
        · exact hty
        · exact ih hrest (by omega) hcols ty hmem

theorem decided_all_iff (hkeys : Comparable fs) :
    (∀ a b, Decided fs 0 a b) ↔ OneString (keyTypes fs) := by
  induction fs with
  | nil => exact iff_of_true (fun _ _ => trivial) (Or.inl rfl)
  | cons f fs ih =>
    have hrest : Comparable fs := fun g hg => hkeys g (List.mem_cons_of_mem _ hg)
    rw [keyTypes_cons]
    simp only [Decided]
    cases hk : f.iskey with
    | false => exact ih hrest
    | true =>
      rcases hkeys f List.mem_cons_self hk with hty | ⟨n, hty⟩
      · rw [hty]
        constructor
        · intro h
          have hmin := h (store (fun _ => 0) 0 (leBytes 4 (2 ^ 31))) (onesFrom 0)
          exact absurd hmin.1 (by decide)
        · rintro (h | ⟨n, rest, h, -⟩)
          · cases h
          · cases (List.cons.inj h).1
      · rw [hty]
        dsimp only
        constructor
        · intro h
          refine Or.inr ⟨n, keyTypes fs, rfl, ?_⟩
          apply empty_of_keyColumns hrest (Nat.le_refl n)
          have hcols := h (fun _ => 0) (onesFrom n)
          rw [load_const, load_onesFrom_zero, Nat.zero_add] at hcols
          exact hcols rfl
        · rintro (h | ⟨k, rest, h, hempty⟩)
          · cases h
          · intro a b _
            apply keyColumns_empty
            rw [(List.cons.inj h).2]
            exact hempty

end Columns

/-- The comparison function is the lexicographic order of the key columns on exactly the decided
pairs, and a total order exactly for a single string. -/
theorem cmp_orders_iff (fs : List Field) (hkeys : Comparable fs) :
    (Orders fs ↔ OneString (keyTypes fs)) ∧
      ∀ a b, (cmpFrom fs 0 a b).sign = lexSign (keyColumns fs 0 a) (keyColumns fs 0 b) ↔
        Decided fs 0 a b := by
  have hspec := fun a b => cmpFrom_spec a b hkeys 0
  refine ⟨?_, hspec⟩
  rw [← decided_all_iff hkeys]
  constructor
  · intro h a b
    exact (hspec a b).mp (h.lex a b)
  · intro h
    apply Orders.of_agrees
    intro a b
    exact (hspec a b).mpr (h a b)

theorem comparable_pair : Comparable [⟨"name", .string 2, true⟩, ⟨"no", .int, true⟩] := by
  intro f hf _
  simp only [List.mem_cons, List.not_mem_nil, or_false] at hf
  rcases hf with rfl | rfl
  · exact Or.inr ⟨2, rfl⟩
  · exact Or.inl rfl

theorem cmp_orders_pair :
    (Orders [⟨"name", .string 2, true⟩, ⟨"no", .int, true⟩] ↔
      OneString (keyTypes [⟨"name", .string 2, true⟩, ⟨"no", .int, true⟩])) ∧
      ∀ a b, (cmpFrom [⟨"name", .string 2, true⟩, ⟨"no", .int, true⟩] 0 a b).sign =
        lexSign (keyColumns [⟨"name", .string 2, true⟩, ⟨"no", .int, true⟩] 0 a)
          (keyColumns [⟨"name", .string 2, true⟩, ⟨"no", .int, true⟩] 0 b) ↔
        Decided [⟨"name", .string 2, true⟩, ⟨"no", .int, true⟩] 0 a b :=
  cmp_orders_iff [⟨"name", .string 2, true⟩, ⟨"no", .int, true⟩] comparable_pair

/-- Two keys with the same string and other numbers compare as equal, and the smallest integer
comes out above 1. -/
theorem cmp_misorders :
    ¬ Orders [⟨"name", .string 2, true⟩, ⟨"no", .int, true⟩] ∧
      ¬ Orders [⟨"no", .int, true⟩] := by
  constructor
  · intro h
    have hz := (h.zero (fun _ => 0) (onesFrom 2)).mp (by decide +kernel)
    revert hz
    decide +kernel
  · intro h
    have hz := h.lex (store (fun _ => 0) 0 (leBytes 4 (2 ^ 31)))
      (store (fun _ => 0) 0 (leBytes 4 1))
    revert hz
    unfold Agrees
    decide +kernel

end StreamMill.Table
