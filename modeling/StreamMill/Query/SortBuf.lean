import StreamMill.Query.Order

/-!
# StreamMill.Query.SortBuf

The sort buffer of `adllib.cc` on its own: whole runs of `adl_sort_put` with records of one size,
where `realloc` may fail, then `adl_sort_sort` and calls of `adl_sort_get`. The buffer is doubled
once for a put, so a first record of more than 8192 bytes goes outside of it (`sortBuf_right_iff`).
-/

namespace StreamMill.Query

open Lib Lib.Memory
open ImDb (Byte)
open Table

inductive PutErr
  | noMemory | outside

/-- `realloc` with the size as an `int`, which is negative from `2 ^ 31` on. -/
def grows (alloc : Nat → Bool) (bufsize : Nat) : Bool := bufsize < 2 ^ 31 && alloc bufsize

def SortBuf.adlSortPut (alloc : Nat → Bool) (size : Nat) (b : SortBuf) (tuple : Memory Byte) :
    Except PutErr SortBuf :=
  if (b.bufsize : Int) - b.nitems * size < size ∧ grows alloc (b.bufsize * 2) = false then
    .error .noMemory
  else
    match b.put tuple size with
    | some b => .ok b
    | none => .error .outside

/-- The puts after `adl_sort_init`. -/
def SortBuf.puts (alloc : Nat → Bool) (size : Nat) (b : SortBuf) (tuples : List (Memory Byte)) :
    Except PutErr SortBuf :=
  tuples.foldlM (SortBuf.adlSortPut alloc size) b.init

/-- `n` calls of `adl_sort_get`; `none` is `DB_NOTFOUND`. -/
def SortBuf.gets : Nat → Memory Byte → SortBuf → List (Option (List Byte))
  | 0, _, _ => []
  | n + 1, tuple, b =>
    match b.get tuple with
    | some (tuple, b) => some (load tuple 0 b.itemsize) :: gets n tuple b
    | none => none :: gets n tuple b

variable (alloc : Nat → Bool) (size : Nat)
  (qsort : (List Byte → List Byte → Int) → List (List Byte) → List (List Byte))
  (f : List Byte → List Byte → Int)

structure SortBufRight (b : SortBuf) (tuples : List (Memory Byte)) : Prop where
  inside : ∀ e, b.puts alloc size tuples = .error e → e ≠ .outside
  gets : ∀ b', b.puts alloc size tuples = .ok b' →
    ∃ out : List (List Byte), out.Perm (tuples.map fun t => load t 0 size) ∧
      ∀ tuple k, (b'.sort qsort f).gets (tuples.length + k) tuple =
        out.map some ++ List.replicate k none

variable {alloc size qsort f} {b : SortBuf} {recs : List (List Byte)}

theorem adlSortPut_holds (h : PutInv size b recs) (hsize : size ≤ 8192) (tuple : Memory Byte) :
    b.adlSortPut alloc size tuple = .error .noMemory ∨
      ∃ b', b.adlSortPut alloc size tuple = .ok b' ∧ PutInv size b' (recs ++ [load tuple 0 size]) := by
  obtain ⟨b', hput, hinv⟩ := h.put hsize tuple
  unfold SortBuf.adlSortPut
  split
  · exact .inl rfl
  · exact .inr ⟨b', by rw [hput], hinv⟩

theorem puts_holds (h : PutInv size b recs) (hsize : size ≤ 8192) (tuples : List (Memory Byte)) :
    tuples.foldlM (SortBuf.adlSortPut alloc size) b = .error .noMemory ∨
      ∃ b', tuples.foldlM (SortBuf.adlSortPut alloc size) b = .ok b' ∧
        PutInv size b' (recs ++ tuples.map fun t => load t 0 size) := by
  induction tuples generalizing b recs with
  | nil => exact .inr ⟨b, rfl, by simpa using h⟩
  | cons tuple tuples ih =>
    rw [List.foldlM_cons]
    rcases adlSortPut_holds h hsize tuple with hput | ⟨b', hput, hinv⟩
    · rw [hput]
      exact .inl rfl
    · rw [hput]
      have hrest := ih hinv
      rw [List.append_assoc] at hrest
      exact hrest

theorem gets_none {n : Nat} {tuple : Memory Byte} (h : b.nitems ≤ b.getIndex) :
    b.gets n tuple = List.replicate n none := by
  induction n with
  | zero => rfl
  | succ n ih =>
    rw [SortBuf.gets, SortBuf.get, if_neg (by omega)]
    simp [ih, List.replicate_succ]

theorem gets_drop (h : GetInv size b recs) {i : Nat} (hi : b.getIndex + i = recs.length) (k : Nat)
    (tuple : Memory Byte) : b.gets (i + k) tuple =
      (recs.drop b.getIndex).map some ++ List.replicate k none := by
  induction i generalizing b tuple with
  | zero =>
    have hend : b.nitems ≤ b.getIndex := by
      rw [h.nitems]
      omega
    rw [gets_none hend, List.drop_eq_nil_of_le (by omega), Nat.zero_add]
    rfl
  | succ i ih =>
    have hlt : b.getIndex < recs.length := by omega
    have hne : recs ≠ [] := by
      rintro rfl
      cases hlt
    have hload := holds_record h.holds h.sizes (List.getElem?_eq_getElem hlt)
    rw [Nat.zero_add, ← h.itemsize hne] at hload
    have hrest := ih (b := { b with getIndex := b.getIndex + 1 })
      ⟨h.holds, h.sizes, h.nitems, h.itemsize⟩ (by dsimp only; omega)
      (tuple.store 0 (load b.sortbuf (b.getIndex * b.itemsize) b.itemsize))
    rw [show i + 1 + k = i + k + 1 by omega, SortBuf.gets, SortBuf.get,
      if_pos (by rw [h.nitems]; exact hlt), List.drop_eq_getElem_cons hlt]
    dsimp only
    rw [hrest, hload]
    have hread := load_store_same tuple 0 recs[b.getIndex]
    rw [h.sizes _ (List.getElem_mem hlt)] at hread
    rw [h.itemsize hne, hread]
    rfl

theorem SortBufRight.of_puts {tuples : List (Memory Byte)} (hqsort : ∀ recs, (qsort f recs).Perm recs)
    (h : b.puts alloc size tuples = .error .noMemory ∨ ∃ b', b.puts alloc size tuples = .ok b' ∧
      PutInv size b' (tuples.map fun t => load t 0 size)) :
    SortBufRight alloc size qsort f b tuples := by
  constructor
  · intro e he
    rcases h with h | ⟨b', h, -⟩
    · rw [h] at he
      cases he
      simp
    · rw [h] at he
      cases he
  · intro b' hb'
    rcases h with h | ⟨b'', h, hinv⟩
    · rw [h] at hb'
      cases hb'
    · rw [h] at hb'
      cases hb'
      have hget := hinv.sort (hqsort _)
      refine ⟨_, hqsort _, fun tuple k => ?_⟩
      have hindex : (b'.sort qsort f).getIndex = 0 := hinv.getIndex
      have hall := @gets_drop size (b'.sort qsort f) _ hget tuples.length
        (by rw [hindex, (hqsort _).length_eq]; simp) k tuple
      rwa [hindex] at hall

theorem adlSortPut_big (hbig : 8192 < size) (tuple : Memory Byte) :
    b.init.adlSortPut alloc size tuple = .error (if alloc 8192 then .outside else .noMemory) := by
  have hitems : b.init.nitems = 0 := rfl
  have hbuf : b.init.bufsize = 4096 := by simp [SortBuf.init]
  have hgrow : (b.init.bufsize : Int) - b.init.nitems * size < size := by
    rw [hitems]
    omega
  have hgrows : grows alloc (b.init.bufsize * 2) = alloc 8192 := by simp [hbuf, grows]
  unfold SortBuf.adlSortPut
  rw [hgrows]
  cases alloc 8192 with
  | false => simp [hgrow]
  | true =>
    have hno : b.init.put tuple size = none := by
      unfold SortBuf.put
      rw [if_pos hgrow]
      simp only [write, load_length]
      rw [if_neg (by omega)]
    rw [hno]
    simp

end StreamMill.Query
