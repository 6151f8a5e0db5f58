import StreamMill.Table.Compare

/-!
# StreamMill.Table.Read

Writes in buffers of a fixed size, and what the code reads back from a buffer as the value of a
column. `readCell_same`: a column is read as it was written.
-/

namespace StreamMill.Table

open Lib Lib.Memory
open ImDb (Byte)

/-- A write in a buffer of `limit` bytes. -/
def write (limit : Nat) (m : Memory Byte) (offset : Nat) (bs : List Byte) : Option (Memory Byte) :=
  if offset + bs.length ≤ limit then some (m.store offset bs) else none

def atRecord (bs : List Byte) : Memory Byte := fun i => bs[i]?.getD 0

def readReal (m : Memory Byte) (offset : Nat) : BitVec 64 :=
  BitVec.ofNat 64 (leNat (load m offset 8))

def readTimeval (m : Memory Byte) (offset : Nat) : BitVec 32 × BitVec 32 :=
  (readInt m offset, readInt m (offset + 4))

def timevalCmp (x y : BitVec 32 × BitVec 32) : Int :=
  let result := (x.1 - y.1).toInt
  if result ≠ 0 then result else (x.2 - y.2).toInt

def readCell (m : Memory Byte) (offset : Nat) : (ty : FieldTy) → Value ty
  | .int => readInt m offset
  | .real => readReal m offset
  | .string n => fun i => if i < n then m (offset + i) else 0
  | .timestamp => readTimeval m offset

variable {m : Memory Byte}

theorem write_ok {limit offset : Nat} {bs : List Byte} (h : offset + bs.length ≤ limit)
    (m : Memory Byte) : write limit m offset bs = some (m.store offset bs) := if_pos h

theorem memory_atRecord (m : Memory Byte) {n i : Nat} (hi : i < n) :
    atRecord (load m 0 n) i = m i := by
  unfold atRecord
  rw [load_getElem? m hi, Nat.zero_add]
  rfl

theorem readReal_eq {offset : Nat} {v : BitVec 64} (h : load m offset 8 = leBytes 8 v.toNat) :
    readReal m offset = v := by
  unfold readReal
  rw [h, leNat_leBytes v.isLt]
  exact BitVec.ofNat_toNat _ _

theorem readTimeval_eq {offset : Nat} {v : BitVec 32 × BitVec 32}
    (h : load m offset 8 = leBytes 4 v.1.toNat ++ leBytes 4 v.2.toNat) :
    readTimeval m offset = v := by
  rw [show (8 : Nat) = 4 + 4 from rfl, load_append] at h
  obtain ⟨hsec, husec⟩ := List.append_inj h (by rw [load_length, leBytes_length])
  exact Prod.ext (readInt_eq hsec) (readInt_eq husec)

theorem load_shift {w : Memory Byte} {offset n : Nat} (h : ∀ i, i < n → w i = m (offset + i)) :
    load w 0 n = load m offset n := by
  apply List.ext_getElem?
  intro i
  by_cases hi : i < n
  · rw [load_getElem? w hi, load_getElem? m hi, Nat.zero_add, h i hi]
  · rw [List.getElem?_eq_none (by rw [load_length]; omega),
      List.getElem?_eq_none (by rw [load_length]; omega)]

theorem readCell_same {offset : Nat} {ty : FieldTy} {v : Value ty}
    (h : load m offset ty.size = rawCell ty v) : SameValue ty (readCell m offset ty) v := by
  cases ty with
  | int => exact readInt_eq h
  | real => exact Or.inl (readReal_eq h)
  | string n =>
    have hcell : load (readCell m offset (.string n)) 0 n = load m offset n :=
      load_shift fun i hi => if_pos hi
    show List.takeWhile _ (load (readCell m offset (.string n)) 0 n) = List.takeWhile _ (load v 0 n)
    rw [hcell]
    exact congrArg _ h
  | timestamp => exact readTimeval_eq h

end StreamMill.Table
