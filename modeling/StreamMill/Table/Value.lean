import StreamMill.Table.Record
import Mathlib.Data.List.TakeWhile

/-!
# StreamMill.Table.Value

Values of columns and their bytes. A `char(n)` is the memory at a `char *`, of which the code
copies `n` bytes whether or not the string ends before; as a value it is the string up to its
terminating zero. A real is the pattern of a `double`.
-/

namespace StreamMill.Table

open Lib Lib.Memory
open ImDb (Byte)

def Value : FieldTy → Type
  | .int => BitVec 32
  | .real => BitVec 64
  | .string _ => Memory Byte
  | .timestamp => BitVec 32 × BitVec 32

inductive Tuple : List Field → Type
  | nil : Tuple []
  | cons {f : Field} {fs : List Field} (v : Value f.ty) (t : Tuple fs) : Tuple (f :: fs)

def leBytes : Nat → Nat → List Byte
  | 0, _ => []
  | k + 1, n => BitVec.ofNat 8 n :: leBytes k (n / 256)

def cstr (n : Nat) (src : Memory Byte) : List Byte := (load src 0 n).takeWhile (· ≠ 0)

/-- The bytes that `memcpy` takes from a value. -/
def rawCell : (ty : FieldTy) → Value ty → Cell
  | .int, v => leBytes 4 (BitVec.toNat v)
  | .real, v => leBytes 8 (BitVec.toNat v)
  | .string n, src => load src 0 n
  | .timestamp, v => leBytes 4 v.1.toNat ++ leBytes 4 v.2.toNat

/-- `n` bytes that end with zeros after the string. -/
def paddedStr (n : Nat) (src : Memory Byte) : Cell :=
  cstr n src ++ (List.replicate n 0).drop (cstr n src).length

def SameReal (a b : BitVec 64) : Prop := a = b ∨ (a.toNat % 2 ^ 63 = 0 ∧ b.toNat % 2 ^ 63 = 0)

def SameValue : (ty : FieldTy) → Value ty → Value ty → Prop
  | .int, a, b => a = b
  | .real, a, b => SameReal a b
  | .string n, a, b => cstr n a = cstr n b
  | .timestamp, a, b => a = b

@[simp] theorem leBytes_length (k n : Nat) : (leBytes k n).length = k := by
  induction k generalizing n with
  | zero => rfl
  | succ k ih => simp [leBytes, List.length_cons, ih]

theorem leBytes_inj {k n m : Nat} (hn : n < 256 ^ k) (hm : m < 256 ^ k)
    (h : leBytes k n = leBytes k m) : n = m := by
  induction k generalizing n m with
  | zero =>
    omega
  | succ k ih =>
    simp only [leBytes, List.cons.injEq] at h
    obtain ⟨hlow, hhigh⟩ := h
    have hdiv := ih (Nat.div_lt_of_lt_mul (by rw [Nat.pow_succ'] at hn; exact hn))
      (Nat.div_lt_of_lt_mul (by rw [Nat.pow_succ'] at hm; exact hm)) hhigh
    have hmod := congrArg BitVec.toNat hlow
    simp only [BitVec.toNat_ofNat] at hmod
    omega

theorem leBytes_toNat_inj {k w : Nat} (hw : 256 ^ k = 2 ^ w) {a b : BitVec w}
    (h : leBytes k a.toNat = leBytes k b.toNat) : a = b := by
  apply BitVec.eq_of_toNat_eq
  apply leBytes_inj _ _ h
  · rw [hw]
    exact a.isLt
  · rw [hw]
    exact b.isLt

theorem cstr_length_le (n : Nat) (src : Memory Byte) : (cstr n src).length ≤ n := by
  have h := (List.takeWhile_prefix (l := load src 0 n) (fun b => decide (b ≠ 0))).length_le
  rw [load_length] at h
  exact h

theorem paddedStr_length (n : Nat) (src : Memory Byte) : (paddedStr n src).length = n := by
  have := cstr_length_le n src
  simp only [paddedStr, List.length_append, List.length_drop, List.length_replicate]
  omega

theorem rawCell_length (ty : FieldTy) (v : Value ty) : (rawCell ty v).length = ty.size := by
  cases ty with
  | int => exact leBytes_length _ _
  | real => exact leBytes_length _ _
  | string n => exact load_length _ _ _
  | timestamp =>
    rfl

theorem takeWhile_paddedStr (n : Nat) (src : Memory Byte) :
    (paddedStr n src).takeWhile (· ≠ 0) = cstr n src := by
  have hall : ∀ b ∈ cstr n src, decide (b ≠ 0) = true := by
    intro b hb
    exact List.mem_takeWhile_imp (p := fun b => decide (b ≠ 0)) hb
  unfold paddedStr
  rw [List.takeWhile_append_of_pos hall, List.drop_replicate]
  cases n - (cstr n src).length with
  | zero => exact List.append_nil _
  | succ k => exact List.append_nil _

end StreamMill.Table
