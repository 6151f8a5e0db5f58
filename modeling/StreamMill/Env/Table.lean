import Mathlib.Algebra.Order.BigOperators.Group.Finset
import Mathlib.Logic.Function.Basic

/-!
# StreamMill.Env.Table

The hash table with a history of `table.cc`. A pointer is its address, and `NULL` is 0. A bucket is
the list of its binders; `tableOf es` is the table after the entries `es`, the latest first.
-/

namespace StreamMill.Env

abbrev Ptr := Nat

def tabsize : Nat := 127

/-- What stops the program: an assertion that fails, or a write behind the end of an array. -/
inductive Fault
  | assertion
  | overflow
  deriving DecidableEq

/-- `binder_`; `next` is the rest of the list. -/
structure Binder where
  key : Ptr
  value : Ptr
  prevtop : Ptr
  deriving DecidableEq

structure TabTable where
  table : Nat → List Binder
  top : Ptr

/-- `((unsigned)key) % TABSIZE` -/
def tabIndex (key : Ptr) : Nat := key % 2 ^ 32 % tabsize

def tabEmpty : TabTable := ⟨fun _ => [], 0⟩

def tabEnter (t : TabTable) (key value : Ptr) : Except Fault TabTable :=
  if key = 0 then .error .assertion
  else .ok
    { table := Function.update t.table (tabIndex key)
        (⟨key, value, t.top⟩ :: t.table (tabIndex key))
      top := key }

def tabLook (t : TabTable) (key : Ptr) : Except Fault Ptr :=
  if key = 0 then .error .assertion
  else match (t.table (tabIndex key)).find? fun b => b.key = key with
    | some b => .ok b.value
    | none => .ok 0

/-- The table without the first binder of the bucket of its top. -/
def TabTable.drop (t : TabTable) (b : Binder) (next : List Binder) : TabTable :=
  { table := Function.update t.table (tabIndex t.top) next
    top := b.prevtop }

/-- The key and the value of the latest binding, and the table without it. -/
def tabPop (t : TabTable) : Except Fault ((Ptr × Ptr) × TabTable) :=
  if t.top = 0 then .error .assertion
  else match t.table (tabIndex t.top) with
    | [] => .error .assertion
    | b :: next => .ok ((b.key, b.value), t.drop b next)

def TabTable.size (t : TabTable) : Nat := ∑ i ∈ Finset.range tabsize, (t.table i).length

theorem drop_size {t : TabTable} {b : Binder} {next : List Binder}
    (h : t.table (tabIndex t.top) = b :: next) : (t.drop b next).size < t.size := by
  have hi : tabIndex t.top ∈ Finset.range tabsize :=
    Finset.mem_range.mpr (Nat.mod_lt _ (by decide))
  refine Finset.sum_lt_sum (fun i _ => ?_) ⟨_, hi, ?_⟩
  · by_cases hk : i = tabIndex t.top
    · subst hk
      simp [TabTable.drop, h]
    · simp [TabTable.drop, hk]
  · simp [TabTable.drop, h]

theorem tabPop_size {t t' : TabTable} {e : Ptr × Ptr} (h : tabPop t = .ok (e, t')) :
    t'.size < t.size := by
  rw [tabPop] at h
  split at h
  · cases h
  · cases hb : t.table (tabIndex t.top) with
    | nil => simp [hb] at h
    | cons b next =>
      simp only [hb, Except.ok.injEq, Prod.mk.injEq] at h
      rw [← h.2]
      exact drop_size hb

def tabDump (t : TabTable) : Except Fault (List (Ptr × Ptr) × TabTable) :=
  match _h : t.table (tabIndex t.top) with
  | [] => .ok ([], t)
  | b :: next =>
    match tabDump (t.drop b next) with
    | .error e => .error e
    | .ok (shown, t') =>
      if t'.top = b.prevtop ∧ t'.table (tabIndex t.top) = next then
        .ok ((b.key, b.value) :: shown,
          { table := Function.update t'.table (tabIndex t.top) (b :: next)
            top := t.top })
      else .error .assertion
-- a pair, as a measure in `Nat` would be evaluated
termination_by (t.size, 0)
decreasing_by exact Prod.Lex.left _ _ (drop_size _h)

def topOf : List (Ptr × Ptr) → Ptr
  | [] => 0
  | (key, _) :: _ => key

def binders : List (Ptr × Ptr) → List Binder
  | [] => []
  | (key, value) :: es => ⟨key, value, topOf es⟩ :: binders es

def tableOf (es : List (Ptr × Ptr)) : TabTable :=
  { table := fun i => (binders es).filter fun b => tabIndex b.key = i
    top := topOf es }

section Entries

variable {es : List (Ptr × Ptr)} {key value : Ptr}

theorem tabEmpty_eq : tabEmpty = tableOf [] := rfl

theorem tableOf_cons : tableOf ((key, value) :: es) =
    { table := Function.update (tableOf es).table (tabIndex key)
        (⟨key, value, (tableOf es).top⟩ :: (tableOf es).table (tabIndex key))
      top := key } := by
  rw [TabTable.mk.injEq]
  refine ⟨funext fun i => ?_, rfl⟩
  by_cases hi : i = tabIndex key
  · subst hi
    simp [tableOf, binders]
  · rw [Function.update_of_ne hi]
    simp [tableOf, binders, Ne.symm hi]

theorem tabEnter_tableOf (hkey : key ≠ 0) :
    tabEnter (tableOf es) key value = .ok (tableOf ((key, value) :: es)) := by
  rw [tabEnter, if_neg hkey, tableOf_cons]

theorem bucket_tableOf : (tableOf ((key, value) :: es)).table (tabIndex key) =
    ⟨key, value, topOf es⟩ :: (tableOf es).table (tabIndex key) := by
  simp [tableOf, binders]

theorem drop_tableOf : (tableOf ((key, value) :: es)).drop ⟨key, value, topOf es⟩
    ((tableOf es).table (tabIndex key)) = tableOf es := by
  rw [tableOf_cons, TabTable.drop]
  simp only [Function.update_idem, Function.update_eq_self]
  rfl

theorem tabPop_tableOf (hkey : key ≠ 0) :
    tabPop (tableOf ((key, value) :: es)) = .ok ((key, value), tableOf es) := by
  rw [tabPop, show (tableOf ((key, value) :: es)).top = key from rfl, if_neg hkey, bucket_tableOf]
  dsimp only
  rw [drop_tableOf]

theorem tabLook_tableOf (hkey : key ≠ 0) :
    tabLook (tableOf es) key = .ok ((es.lookup key).getD 0) := by
  have hfind : ((tableOf es).table (tabIndex key)).find? (fun b => b.key = key) =
      (binders es).find? fun b => b.key = key := by
    rw [tableOf, List.find?_filter]
    congr 1
    funext b
    by_cases hb : b.key = key
    · simp [hb]
    · simp [hb]
  rw [tabLook, if_neg hkey, hfind]
  clear hfind
  induction es with
  | nil => rfl
  | cons e es ih =>
    obtain ⟨k, v⟩ := e
    rw [binders]
    by_cases hk : k = key
    · simp [hk]
    · have hne : (key == k) = false := by simpa using Ne.symm hk
      rw [List.find?_cons_of_neg (by simpa using hk), List.lookup_cons, hne]
      exact ih

theorem tabDump_tableOf : tabDump (tableOf es) = .ok (es, tableOf es) := by
  induction es with
  | nil =>
    rw [tabDump]
    rfl
  | cons e es ih =>
    rw [tabDump]
    split
    · next h =>
      exact absurd (bucket_tableOf.symm.trans h) (by simp)
    · next b next h =>
      obtain ⟨rfl, rfl⟩ := List.cons.inj (bucket_tableOf.symm.trans h)
      rw [drop_tableOf, ih]
      dsimp only
      rw [if_pos ⟨rfl, rfl⟩, tableOf_cons]
      rfl

end Entries

end StreamMill.Env
