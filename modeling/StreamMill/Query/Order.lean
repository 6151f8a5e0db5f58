import StreamMill.Table.Read
import StreamMill.Lib.Sort
import Mathlib.Data.Rat.Cast.Order

/-!
# StreamMill.Query.Order

The ORDER node: every tuple of its source goes to a sort buffer, the order-by columns in front of
the other columns of the head, the buffer is sorted with a generated comparison function, and the
records are read back. The expressions of the node are columns of its one source and are given by
numbers, equal ones for those that `equalExp` finds equal. Reals are the rationals of their
patterns, infinities and NaN apart. A write outside of a buffer is `none`.

`order_right_iff`: the order is lexicographic and the output is the sorted input exactly if all
order-by columns are strings and the record fits in the sort buffer.
-/

namespace StreamMill.Query

open Lib Lib.Memory
open ImDb (Byte)
open Table

structure OrderItem where
  exp : Nat
  /-- descending -/
  dir : Bool

/-- An ORDER node, with the types of the expressions. -/
structure OrderOpr where
  ty : Nat → FieldTy
  prd : List OrderItem
  hxp : List Nat

abbrev QunRow (ty : Nat → FieldTy) := (e : Nat) → Value (ty e)

structure SortBuf where
  sortbuf : Memory Byte
  bufsize : Nat
  nitems : Nat
  itemsize : Nat
  getIndex : Nat

section Layout

def align (offset : Nat) : Nat :=
  if offset % 4 ≠ 0 then offset + (4 - offset % 4) else offset

def advance (ty : FieldTy) (offset : Nat) : Nat :=
  match ty with
  | .string n => align (offset + n)
  | .int => offset + 4
  | .real => offset + 8
  | .timestamp => offset + 8

variable (ty : Nat → FieldTy)

/-- `gboffset` of the first order-by column that is the expression. -/
def orderSlot : List OrderItem → Nat → Nat → Option Nat
  | [], _, _ => none
  | oi :: ois, offset, e =>
    if oi.exp = e then some offset else orderSlot ois (advance (ty oi.exp) offset) e

def orderEnd : List OrderItem → Nat → Nat
  | [], offset => offset
  | oi :: ois, offset => orderEnd ois (advance (ty oi.exp) offset)

variable (a : OrderOpr)

def OrderOpr.gboffset (e : Nat) : Option Nat := orderSlot a.ty a.prd 0 e

def OrderOpr.ordersize : Nat := orderEnd a.ty a.prd 0

/-- `hxoffset` -/
def OrderOpr.headSlots : List Nat → Nat → List Nat
  | [], _ => []
  | e :: es, offset =>
    match a.gboffset e with
    | some slot => slot :: OrderOpr.headSlots es offset
    | none => offset :: OrderOpr.headSlots es (advance (a.ty e) offset)

def OrderOpr.headEnd : List Nat → Nat → Nat
  | [], offset => offset
  | e :: es, offset =>
    match a.gboffset e with
    | some _ => OrderOpr.headEnd es offset
    | none => OrderOpr.headEnd es (advance (a.ty e) offset)

def OrderOpr.hxoffset : List Nat := a.headSlots a.hxp a.ordersize

def OrderOpr.size : Nat := a.headEnd a.hxp a.ordersize

/-- `hxoffset` and `gboffset` of the compiler have 32 entries. -/
def OrderOpr.compiles : Bool := a.prd.length ≤ 32 && a.hxp.length ≤ 32

end Layout

section Fill

def maxStrLen : Nat := 40960

def fillOrder (ty : Nat → FieldTy) (r : QunRow ty) :
    List OrderItem → Nat → Memory Byte → Option (Memory Byte)
  | [], _, m => some m
  | oi :: ois, offset, m =>
    match write maxStrLen m offset (rawCell (ty oi.exp) (r oi.exp)) with
    | none => none
    | some m => fillOrder ty r ois (advance (ty oi.exp) offset) m

variable (a : OrderOpr)

def fillColumn (ty : FieldTy) (v : Value ty) (offset : Nat) (m : Memory Byte) :
    Option (Memory Byte) :=
  match write maxStrLen m offset (rawCell ty v) with
  | none => none
  | some m =>
    match ty with
    | .string n => write maxStrLen m (offset + n) [0]
    | .int => some m
    | .real => some m
    | .timestamp => some m

def OrderOpr.fillHead (r : QunRow a.ty) : List Nat → Nat → Memory Byte → Option (Memory Byte)
  | [], _, m => some m
  | e :: es, offset, m =>
    match a.gboffset e with
    | some _ => OrderOpr.fillHead r es offset m
    | none =>
      match fillColumn (a.ty e) (r e) offset m with
      | none => none
      | some m => OrderOpr.fillHead r es (advance (a.ty e) offset) m

/-- `_adl_order_buf_` after the assignments. -/
def OrderOpr.fill (m : Memory Byte) (r : QunRow a.ty) : Option (Memory Byte) :=
  match fillOrder a.ty r a.prd 0 m with
  | none => none
  | some m => a.fillHead r a.hxp a.ordersize m

end Fill

def memcmp : List Byte → List Byte → Int
  | x :: xs, y :: ys => if x ≠ y then (x.toNat : Int) - y.toNat else memcmp xs ys
  | _, _ => 0

def realVal (b : BitVec 64) : ℚ :=
  let sign : ℚ := if b.msb then -1 else 1
  let expo := b.toNat / 2 ^ 52 % 2 ^ 11
  let frac : ℚ := (b.toNat % 2 ^ 52 : Nat)
  if expo = 0 then sign * frac / 2 ^ 1074
  else sign * (2 ^ 52 + frac) * 2 ^ expo / 2 ^ 1075

/-- The conversion of a `double` to `int`. -/
def realInt (q : ℚ) : BitVec 32 :=
  let t := q.num.tdiv q.den
  if -2 ^ 31 ≤ t ∧ t < 2 ^ 31 then BitVec.ofInt 32 t else 0x80000000#32

/-- `%c(...)` -/
def signed (dir : Bool) (rc : Int) : Int := if dir then -rc else rc

def ordercmpCol (dir : Bool) (offset : Nat) (s1 s2 : Memory Byte) : FieldTy → Option Int
  | .string n =>
    let rc := memcmp (load s1 offset n) (load s2 offset n)
    if rc ≠ 0 then some (signed dir rc) else none
  | .int =>
    let ia := (readInt s1 offset).toInt
    let ib := (readInt s2 offset).toInt
    if ia ≠ ib then some (signed dir (if ia > ib then 1 else 0)) else none
  | .real =>
    let ia := (realInt (realVal (readReal s1 offset))).toInt
    let ib := (realInt (realVal (readReal s2 offset))).toInt
    if ia ≠ ib then some (signed dir (if ia > ib then 1 else 0)) else none
  | .timestamp =>
    let c := timevalCmp (readTimeval s1 offset) (readTimeval s2 offset)
    if c ≠ 0 then some (signed dir (if c > 0 then 1 else 0)) else none

def ordercmpFrom (ty : Nat → FieldTy) : List OrderItem → Nat → Memory Byte → Memory Byte → Int
  | [], _, _, _ => 0
  | oi :: ois, offset, s1, s2 =>
    match ordercmpCol oi.dir offset s1 s2 (ty oi.exp) with
    | some rc => rc
    | none => ordercmpFrom ty ois (advance (ty oi.exp) offset) s1 s2

def OrderOpr.ordercmp (a : OrderOpr) (s1 s2 : List Byte) : Int :=
  ordercmpFrom a.ty a.prd 0 (atRecord s1) (atRecord s2)

def SortBuf.init (b : SortBuf) : SortBuf :=
  { b with nitems := 0, getIndex := 0, bufsize := 4096 }

def SortBuf.put (b : SortBuf) (tuple : Memory Byte) (size : Nat) : Option SortBuf :=
  let bufsize := if (b.bufsize : Int) - b.nitems * size < size then b.bufsize * 2 else b.bufsize
  match write bufsize b.sortbuf (b.nitems * size) (load tuple 0 size) with
  | none => none
  | some sortbuf =>
    some { b with sortbuf := sortbuf, bufsize := bufsize, nitems := b.nitems + 1, itemsize := size }

def SortBuf.records (b : SortBuf) : List (List Byte) :=
  (List.range b.nitems).map fun i => load b.sortbuf (i * b.itemsize) b.itemsize

def SortBuf.sort (qsort : (List Byte → List Byte → Int) → List (List Byte) → List (List Byte))
    (f : List Byte → List Byte → Int) (b : SortBuf) : SortBuf :=
  { b with sortbuf := b.sortbuf.store 0 (qsort f b.records).flatten }

/-- `none` is `DB_NOTFOUND`. -/
def SortBuf.get (b : SortBuf) (tuple : Memory Byte) : Option (Memory Byte × SortBuf) :=
  if b.getIndex < b.nitems then
    some (tuple.store 0 (load b.sortbuf (b.getIndex * b.itemsize) b.itemsize),
      { b with getIndex := b.getIndex + 1 })
  else none

section Operator

variable (a : OrderOpr)

/-- The expression of column `j` of the head. -/
def OrderOpr.head (j : Nat) : Nat := a.hxp.getD j 0

abbrev OrderOpr.Out := (j : Nat) → Value (a.ty (a.head j))

def OrderOpr.extract (m : Memory Byte) : a.Out := fun j =>
  readCell m (a.hxoffset.getD j 0) (a.ty (a.head j))

structure OrderSt where
  index : Nat
  sort : SortBuf
  /-- `_adl_order_buf_` -/
  buf : Memory Byte

def OrderOpr.putAll : List (QunRow a.ty) → OrderSt → Option OrderSt
  | [], s => some s
  | r :: rs, s =>
    match a.fill s.buf r with
    | none => none
    | some buf =>
      match s.sort.put buf a.size with
      | none => none
      | some sort => OrderOpr.putAll rs { s with sort := sort, buf := buf }

variable (qsort : (List Byte → List Byte → Int) → List (List Byte) → List (List Byte))

def OrderOpr.call (input : List (QunRow a.ty)) (s : OrderSt) : Option (OrderSt × Option a.Out) :=
  let sorted :=
    if s.index = 0 then
      match a.putAll input { s with sort := s.sort.init } with
      | none => none
      | some s => some { s with sort := s.sort.sort qsort a.ordercmp, index := s.index + 1 }
    else some s
  match sorted with
  | none => none
  | some s =>
    match s.sort.get s.buf with
    | some (buf, sort) => some ({ s with sort := sort, buf := buf }, some (a.extract buf))
    | none => some ({ s with index := 0 }, none)

/-- At most `n` calls, until one does not find a tuple. -/
def OrderOpr.calls (input : List (QunRow a.ty)) : Nat → OrderSt → Option (List a.Out)
  | 0, _ => some []
  | n + 1, s =>
    match a.call qsort input s with
    | none => none
    | some (_, none) => some []
    | some (s, some out) => (OrderOpr.calls input n s).map (out :: ·)

def OrderOpr.run (input : List (QunRow a.ty)) (s : OrderSt) : Option (List a.Out) :=
  if a.compiles then a.calls qsort input (input.length + 1) s else none

end Operator

section Spec

def colOrder : (ty : FieldTy) → Value ty → Value ty → Ordering
  | .int, v, w => order (BitVec.toInt v) (BitVec.toInt w)
  | .real, v, w => order (realVal v) (realVal w)
  | .string n, v, w => order (str (load v 0 n)) (str (load w 0 n))
  | .timestamp, v, w => (order v.1.toInt w.1.toInt).then (order v.2.toInt w.2.toInt)

def lexOrder (ty : Nat → FieldTy) : List OrderItem → QunRow ty → QunRow ty → Ordering
  | [], _, _ => .eq
  | oi :: ois, r, r' =>
    let o := colOrder (ty oi.exp) (r oi.exp) (r' oi.exp)
    (if oi.dir then o.swap else o).then (lexOrder ty ois r r')

def ZeroFilled : List Byte → Prop
  | [] => True
  | b :: bs => (b = 0 → ∀ c ∈ bs, c = 0) ∧ ZeroFilled bs

def Padded : (ty : FieldTy) → Value ty → Prop
  | .string n, v => ZeroFilled (load v 0 n)
  | _, _ => True

variable (a : OrderOpr) (padded : Bool)

def OrderOpr.Source (r : QunRow a.ty) : Prop := padded = true → ∀ e, Padded (a.ty e) (r e)

def OrderOpr.RecordOf (r : QunRow a.ty) (bs : List Byte) : Prop :=
  ∃ m m', a.fill m r = some m' ∧ bs = load m' 0 a.size

def OrderOpr.SameHead (out : a.Out) (r : QunRow a.ty) : Prop :=
  ∀ j, j < a.hxp.length → SameValue (a.ty (a.head j)) (out j) (r (a.head j))

structure OrderRight : Prop where
  compare : ∀ r r' bs bs', a.Source padded r → a.Source padded r' → a.RecordOf r bs →
    a.RecordOf r' bs' → sgn (a.ordercmp bs bs') = lexOrder a.ty a.prd r r'
  output : ∀ qsort, Sorts qsort → ∀ (input : List (QunRow a.ty)) (s : OrderSt),
    (∀ r ∈ input, a.Source padded r) → s.index = 0 →
    ∃ out, a.run qsort input s = some out ∧ ∃ sorted : List (QunRow a.ty), sorted.Perm input ∧
      (sorted.Pairwise fun r r' => lexOrder a.ty a.prd r r' ≠ .gt) ∧
      List.Forall₂ a.SameHead out sorted

/-- The condition on the node. -/
structure OrderFits : Prop where
  items : a.prd.length ≤ 32
  heads : a.hxp.length ≤ 32
  size : a.size ≤ 8192
  strings : ∀ oi ∈ a.prd, ∃ n, a.ty oi.exp = .string n ∧ (padded = true ∨ n ≤ 1)

end Spec

section Slots

variable {ty : Nat → FieldTy} {r : QunRow ty} {m m' : Memory Byte}

theorem advance_le (t : FieldTy) (offset : Nat) : offset + t.size ≤ advance t offset := by
  cases t with
  | int => exact Nat.le_refl _
  | real => exact Nat.le_refl _
  | string n =>
    show offset + n ≤ align (offset + n)
    unfold align
    split <;> omega
  | timestamp => exact Nat.le_refl _

theorem orderEnd_le (ty : Nat → FieldTy) (ois : List OrderItem) (offset : Nat) :
    offset ≤ orderEnd ty ois offset := by
  induction ois generalizing offset with
  | nil => exact Nat.le_refl _
  | cons oi ois ih =>
    have hadv := advance_le (ty oi.exp) offset
    have hend := ih (advance (ty oi.exp) offset)
    simp only [orderEnd]
    omega

/-- The order-by columns of the tuple lie in their slots. -/
def Slots (ty : Nat → FieldTy) (r : QunRow ty) : List OrderItem → Nat → Memory Byte → Prop
  | [], _, _ => True
  | oi :: ois, offset, m =>
    load m offset (ty oi.exp).size = rawCell (ty oi.exp) (r oi.exp) ∧
      Slots ty r ois (advance (ty oi.exp) offset) m

variable {offset : Nat} {ois : List OrderItem}

theorem Slots.congr (h : Slots ty r ois offset m)
    (hm : ∀ i, i < orderEnd ty ois offset → m' i = m i) : Slots ty r ois offset m' := by
  induction ois generalizing offset with
  | nil => trivial
  | cons oi ois ih =>
    obtain ⟨hload, hrest⟩ := h
    have hadv := advance_le (ty oi.exp) offset
    have hend := orderEnd_le ty ois (advance (ty oi.exp) offset)
    refine ⟨?_, ih hrest hm⟩
    rw [← hload]
    apply load_congr
    intro i _ hi
    exact hm i (by simp only [orderEnd]; omega)

theorem Slots.slot {e slot : Nat} (h : Slots ty r ois offset m)
    (hslot : orderSlot ty ois offset e = some slot) :
    load m slot (ty e).size = rawCell (ty e) (r e) ∧
      slot + (ty e).size ≤ orderEnd ty ois offset := by
  induction ois generalizing offset with
  | nil => cases hslot
  | cons oi ois ih =>
    obtain ⟨hload, hrest⟩ := h
    unfold orderSlot at hslot
    by_cases he : oi.exp = e
    · rw [if_pos he] at hslot
      obtain rfl := Option.some.inj hslot
      subst he
      have hadv := advance_le (ty oi.exp) offset
      have hend := orderEnd_le ty ois (advance (ty oi.exp) offset)
      exact ⟨hload, by simp only [orderEnd]; omega⟩
    · rw [if_neg he] at hslot
      exact ih hrest hslot

theorem load_store_below {n pos : Nat} {bs : List Byte} (h : pos + n ≤ offset) (m : Memory Byte) :
    load (m.store offset bs) pos n = load m pos n :=
  load_congr fun _ _ hi => store_outside (Or.inl (by omega))

theorem fillOrder_slots (r : QunRow ty) (h : orderEnd ty ois offset ≤ maxStrLen) (m : Memory Byte) :
    ∃ m', fillOrder ty r ois offset m = some m' ∧ (∀ i, i < offset → m' i = m i) ∧
      Slots ty r ois offset m' := by
  induction ois generalizing offset m with
  | nil => exact ⟨m, rfl, fun _ _ => rfl, trivial⟩
  | cons oi ois ih =>
    have hadv := advance_le (ty oi.exp) offset
    have hend := orderEnd_le ty ois (advance (ty oi.exp) offset)
    have hlen := rawCell_length (ty oi.exp) (r oi.exp)
    have hnext : orderEnd ty ois (advance (ty oi.exp) offset) ≤ maxStrLen := h
    obtain ⟨m', hfill, hbelow, hslots⟩ :=
      ih hnext (m.store offset (rawCell (ty oi.exp) (r oi.exp)))
    refine ⟨m', ?_, ?_, ?_, hslots⟩
    · rw [fillOrder, write_ok (by omega)]
      exact hfill
    · intro i hi
      rw [hbelow i (by omega)]
      exact store_outside (Or.inl hi)
    · have hsame := load_store_same m offset (rawCell (ty oi.exp) (r oi.exp))
      rw [hlen] at hsame
      rw [← hsame]
      exact load_congr fun i _ hi => hbelow i (by omega)

end Slots

section Record

variable {a : OrderOpr} {r : QunRow a.ty} {m m' : Memory Byte}

theorem OrderOpr.headEnd_le (es : List Nat) (offset : Nat) : offset ≤ a.headEnd es offset := by
  induction es generalizing offset with
  | nil => exact Nat.le_refl _
  | cons e es ih =>
    unfold OrderOpr.headEnd
    split
    · exact ih offset
    · have hadv := advance_le (a.ty e) offset
      have hend := ih (advance (a.ty e) offset)
      omega

def OrderOpr.HeadSlots (a : OrderOpr) (r : QunRow a.ty) : List Nat → Nat → Memory Byte → Prop
  | [], _, _ => True
  | e :: es, offset, m =>
    match a.gboffset e with
    | some _ => a.HeadSlots r es offset m
    | none => load m offset (a.ty e).size = rawCell (a.ty e) (r e) ∧
        a.HeadSlots r es (advance (a.ty e) offset) m

variable {offset : Nat}

theorem fillColumn_load {ty : FieldTy} (v : Value ty) (h : offset + ty.size < maxStrLen)
    (m : Memory Byte) :
    ∃ m', fillColumn ty v offset m = some m' ∧ (∀ i, i < offset → m' i = m i) ∧
      load m' offset ty.size = rawCell ty v := by
  have hlen := rawCell_length ty v
  have hsame := load_store_same m offset (rawCell ty v)
  rw [hlen] at hsame
  have hbelow : ∀ i, i < offset → (m.store offset (rawCell ty v)) i = m i :=
    fun i hi => store_outside (Or.inl hi)
  unfold fillColumn
  rw [write_ok (by omega)]
  cases ty with
  | int => exact ⟨_, rfl, hbelow, hsame⟩
  | real => exact ⟨_, rfl, hbelow, hsame⟩
  | timestamp => exact ⟨_, rfl, hbelow, hsame⟩
  | string n =>
    have hroom : offset + n < maxStrLen := h
    refine ⟨_, write_ok (by simp only [List.length_singleton]; omega) _, ?_, ?_⟩
    · intro i hi
      rw [store_outside (Or.inl (by omega))]
      exact hbelow i hi
    · exact (load_store_below (Nat.le_refl _) _).trans hsame

theorem fillHead_slots (r : QunRow a.ty) {es : List Nat} (h : a.headEnd es offset < maxStrLen)
    (m : Memory Byte) :
    ∃ m', a.fillHead r es offset m = some m' ∧ (∀ i, i < offset → m' i = m i) ∧
      a.HeadSlots r es offset m' := by
  induction es generalizing offset m with
  | nil => exact ⟨m, rfl, fun _ _ => rfl, trivial⟩
  | cons e es ih =>
    unfold OrderOpr.headEnd at h
    unfold OrderOpr.fillHead OrderOpr.HeadSlots
    cases hslot : a.gboffset e with
    | some slot =>
      rw [hslot] at h
      exact ih h m
    | none =>
      rw [hslot] at h
      have hadv := advance_le (a.ty e) offset
      have hend := a.headEnd_le es (advance (a.ty e) offset)
      have hroom : a.headEnd es (advance (a.ty e) offset) < maxStrLen := h
      have hcolumn : offset + (a.ty e).size < maxStrLen := by omega
      obtain ⟨m1, hcol, hbelow, hload⟩ := fillColumn_load (r e) hcolumn m
      obtain ⟨m', hfill, hbelow', hslots⟩ := ih hroom m1
      refine ⟨m', ?_, ?_, ?_, hslots⟩
      · rw [hcol]
        exact hfill
      · intro i hi
        rw [hbelow' i (by omega), hbelow i hi]
      · have hkeep : load m' offset (a.ty e).size = load m1 offset (a.ty e).size :=
          load_congr fun i _ hi => hbelow' i (by omega)
        exact hkeep.trans hload

/-- What `fill` makes of the buffer. -/
structure OrderOpr.Filled (a : OrderOpr) (r : QunRow a.ty) (m : Memory Byte) : Prop where
  order : Slots a.ty r a.prd 0 m
  head : a.HeadSlots r a.hxp a.ordersize m

theorem OrderOpr.ordersize_le (a : OrderOpr) : a.ordersize ≤ a.size := a.headEnd_le _ _

theorem fill_filled (hsize : a.size < maxStrLen) (m : Memory Byte) (r : QunRow a.ty) :
    ∃ m', a.fill m r = some m' ∧ a.Filled r m' := by
  have hle : orderEnd a.ty a.prd 0 ≤ a.size := a.ordersize_le
  obtain ⟨m1, hfill, -, hslots⟩ := fillOrder_slots r (le_of_lt (lt_of_le_of_lt hle hsize)) m
  obtain ⟨m', hhead, hbelow, hslots'⟩ := fillHead_slots r hsize m1
  refine ⟨m', ?_, hslots.congr hbelow, hslots'⟩
  unfold OrderOpr.fill
  rw [hfill]
  exact hhead

theorem HeadSlots.load {es : List Nat} (h : a.HeadSlots r es offset m)
    (horder : Slots a.ty r a.prd 0 m) (hoff : a.ordersize ≤ offset) {j : Nat} (hj : j < es.length) :
    Memory.load m ((a.headSlots es offset).getD j 0) (a.ty (es.getD j 0)).size =
        rawCell (a.ty (es.getD j 0)) (r (es.getD j 0)) ∧
      (a.headSlots es offset).getD j 0 + (a.ty (es.getD j 0)).size ≤ a.headEnd es offset := by
  induction es generalizing offset j with
  | nil => cases hj
  | cons e es ih =>
    unfold OrderOpr.HeadSlots at h
    unfold OrderOpr.headSlots OrderOpr.headEnd
    cases hslot : a.gboffset e with
    | some slot =>
      rw [hslot] at h
      cases j with
      | zero =>
        obtain ⟨hload, hend⟩ := horder.slot hslot
        have hle := a.headEnd_le es offset
        unfold OrderOpr.ordersize at hoff
        exact ⟨hload, by simp only [List.getD_cons_zero]; omega⟩
      | succ j => exact ih h hoff (by simpa using hj)
    | none =>
      rw [hslot] at h
      have hadv := advance_le (a.ty e) offset
      cases j with
      | zero =>
        have hle := a.headEnd_le es (advance (a.ty e) offset)
        exact ⟨h.1, by simp only [List.getD_cons_zero]; omega⟩
      | succ j => exact ih h.2 (by omega) (by simpa using hj)

theorem OrderOpr.RecordOf.slots (hsize : a.size < maxStrLen) {bs : List Byte}
    (h : a.RecordOf r bs) : Slots a.ty r a.prd 0 (atRecord bs) := by
  obtain ⟨m, m', hfill, rfl⟩ := h
  obtain ⟨m'', hfill', hfilled⟩ := fill_filled hsize m r
  rw [hfill] at hfill'
  cases hfill'
  have hle : orderEnd a.ty a.prd 0 ≤ a.size := a.ordersize_le
  exact hfilled.order.congr fun i hi => memory_atRecord m' (by omega)

theorem OrderOpr.RecordOf.extract (hsize : a.size < maxStrLen) {bs : List Byte}
    (h : a.RecordOf r bs) (hm : load m 0 a.size = bs) : a.SameHead (a.extract m) r := by
  obtain ⟨m1, m2, hfill, rfl⟩ := h
  obtain ⟨m', hfill', hfilled⟩ := fill_filled hsize m1 r
  rw [hfill] at hfill'
  cases hfill'
  intro j hj
  obtain ⟨hload, hend⟩ := HeadSlots.load hfilled.head hfilled.order (Nat.le_refl _) hj
  apply readCell_same
  have hsame : Memory.load m (a.hxoffset.getD j 0) (a.ty (a.head j)).size =
      Memory.load m2 (a.hxoffset.getD j 0) (a.ty (a.head j)).size := by
    apply load_congr
    intro i _ hi
    have hi' : i < a.size := lt_of_lt_of_le hi hend
    rw [← memory_atRecord m hi', ← memory_atRecord m2 hi', hm]
  exact hsame.trans hload

end Record

section Comparison

variable {ty : Nat → FieldTy} {r r' : QunRow ty} {s1 s2 : Memory Byte}

theorem sgn_signed (dir : Bool) (rc : Int) :
    sgn (signed dir rc) = if dir then (sgn rc).swap else sgn rc := by
  cases dir with
  | false => rfl
  | true => exact sgn_neg rc

variable {xs ys : List Byte} {n : Nat}

theorem memcmp_zeros (hx : ∀ c ∈ xs, c = 0) (hy : ∀ c ∈ ys, c = 0) :
    memcmp xs ys = 0 := by
  induction xs generalizing ys with
  | nil => rfl
  | cons x xs ih =>
    cases ys with
    | nil => rfl
    | cons y ys =>
      have hxy : x = y := (hx x List.mem_cons_self).trans (hy y List.mem_cons_self).symm
      unfold memcmp
      rw [if_neg (by simpa using hxy)]
      exact ih (fun c hc => hx c (List.mem_cons_of_mem _ hc))
        fun c hc => hy c (List.mem_cons_of_mem _ hc)

theorem memcmp_eq_strncmp (hx : ZeroFilled xs) (hy : ZeroFilled ys) :
    memcmp xs ys = strncmp xs ys := by
  induction xs generalizing ys with
  | nil => rfl
  | cons x xs ih =>
    cases ys with
    | nil => rfl
    | cons y ys =>
      unfold memcmp strncmp
      by_cases hxy : x = y
      · subst hxy
        rw [if_neg (by simp), if_neg (by simp)]
        by_cases hzero : x = 0
        · rw [if_pos hzero]
          exact memcmp_zeros (hx.1 hzero) (hy.1 hzero)
        · rw [if_neg hzero]
          exact ih hx.2 hy.2
      · rw [if_pos hxy, if_pos hxy]

theorem zeroFilled_short (h : xs.length ≤ 1) : ZeroFilled xs := by
  cases xs with
  | nil => trivial
  | cons x xs =>
    cases xs with
    | nil => exact ⟨fun _ c hc => absurd hc List.not_mem_nil, trivial⟩
    | cons y ys => simp at h

theorem sgn_strncmp (hlen : xs.length = ys.length) :
    sgn (strncmp xs ys) = order (str xs) (str ys) := by
  unfold sgn
  rcases strncmp_cases hlen with ⟨h, hs⟩ | ⟨h, hs⟩ | ⟨h, hs⟩
  · rw [order_lt h, order_lt hs]
  · rw [order_eq h, order_eq hs]
  · rw [order_gt h, order_gt hs]

def nums (bs : List Byte) : List Int := bs.map fun b => (b.toNat : Int)

theorem sgn_memcmp (hlen : xs.length = ys.length) :
    sgn (memcmp xs ys) = order (nums xs) (nums ys) := by
  induction xs generalizing ys with
  | nil =>
    obtain rfl := List.eq_nil_of_length_eq_zero hlen.symm
    rfl
  | cons x xs ih =>
    cases ys with
    | nil => cases hlen
    | cons y ys =>
      have htail := ih (Nat.succ.inj hlen)
      unfold memcmp
      show _ = order ((x.toNat : Int) :: nums xs) ((y.toNat : Int) :: nums ys)
      rw [order_cons]
      by_cases hxy : x = y
      · subst hxy
        rw [if_neg (by simp), htail, order_eq rfl]
        rfl
      · have hne : (x.toNat : Int) ≠ y.toNat := fun h => hxy (toNat_inj h)
        rw [if_pos hxy]
        unfold sgn
        rcases lt_or_gt_of_ne hne with h | h
        · rw [order_lt h, order_lt (by omega)]
          rfl
        · rw [order_gt h, order_gt (by omega)]
          rfl

theorem ordercmpFrom_cons (oi : OrderItem) (ois : List OrderItem) (offset : Nat) :
    ordercmpFrom ty (oi :: ois) offset s1 s2 =
      (ordercmpCol oi.dir offset s1 s2 (ty oi.exp)).getD
        (ordercmpFrom ty ois (advance (ty oi.exp) offset) s1 s2) := by
  rw [ordercmpFrom]
  cases ordercmpCol oi.dir offset s1 s2 (ty oi.exp) <;> rfl

theorem sgn_eq_iff (rc : Int) : sgn rc = .eq ↔ rc = 0 := by
  unfold sgn
  rcases lt_trichotomy rc 0 with h | h | h
  · rw [order_lt h]
    simpa using ne_of_lt h
  · rw [order_eq h]
    simpa using h
  · rw [order_gt h]
    simpa using ne_of_gt h

theorem sgn_string (ois : List OrderItem) {oi : OrderItem} {offset : Nat}
    (hty : ty oi.exp = .string n) :
    sgn (ordercmpFrom ty (oi :: ois) offset s1 s2) =
      (if oi.dir then (sgn (memcmp (load s1 offset n) (load s2 offset n))).swap
        else sgn (memcmp (load s1 offset n) (load s2 offset n))).then
      (sgn (ordercmpFrom ty ois (advance (ty oi.exp) offset) s1 s2)) := by
  rw [ordercmpFrom_cons, hty]
  by_cases hrc : memcmp (load s1 offset n) (load s2 offset n) = 0
  · have hcol : ordercmpCol oi.dir offset s1 s2 (.string n) = none := if_neg (by simpa using hrc)
    rw [hcol, hrc]
    cases oi.dir <;> rfl
  · have hcol : ordercmpCol oi.dir offset s1 s2 (.string n) =
        some (signed oi.dir (memcmp (load s1 offset n) (load s2 offset n))) := if_pos hrc
    have hne : sgn (memcmp (load s1 offset n) (load s2 offset n)) ≠ .eq := by
      rwa [Ne, sgn_eq_iff]
    rw [hcol, Option.getD_some, sgn_signed]
    cases hs : sgn (memcmp (load s1 offset n) (load s2 offset n)) with
    | lt => cases oi.dir <;> rfl
    | eq => exact absurd hs hne
    | gt => cases oi.dir <;> rfl

theorem zeroFilled_of {padded : Bool} {t : FieldTy} (hty : t = .string n)
    (hn : padded = true ∨ n ≤ 1) {v : Value t} (hv : padded = true → Padded t v) :
    ZeroFilled (rawCell t v) := by
  subst hty
  rcases hn with hp | hn
  · exact hv hp
  · apply zeroFilled_short
    rw [rawCell_length]
    exact hn

theorem colOrder_string {t : FieldTy} (hty : t = .string n) (v w : Value t) :
    colOrder t v w = order (str (rawCell t v)) (str (rawCell t w)) := by
  subst hty
  rfl

variable {padded : Bool}

theorem sgn_ordercmpFrom {ois : List OrderItem} {offset : Nat}
    (hall : ∀ oi ∈ ois, ∃ n, ty oi.exp = .string n ∧ (padded = true ∨ n ≤ 1))
    (hr : padded = true → ∀ e, Padded (ty e) (r e))
    (hr' : padded = true → ∀ e, Padded (ty e) (r' e))
    (h1 : Slots ty r ois offset s1) (h2 : Slots ty r' ois offset s2) :
    sgn (ordercmpFrom ty ois offset s1 s2) = lexOrder ty ois r r' := by
  induction ois generalizing offset with
  | nil => rfl
  | cons oi ois ih =>
    obtain ⟨n, hty, hn⟩ := hall oi List.mem_cons_self
    obtain ⟨hload1, hrest1⟩ := h1
    obtain ⟨hload2, hrest2⟩ := h2
    have hrest := ih (fun o ho => hall o (List.mem_cons_of_mem _ ho)) hrest1 hrest2
    have hsize : (ty oi.exp).size = n := by
      rw [hty]
      rfl
    have hfill1 := zeroFilled_of hty hn fun hp => hr hp oi.exp
    have hfill2 := zeroFilled_of hty hn fun hp => hr' hp oi.exp
    rw [hsize] at hload1 hload2
    rw [sgn_string ois hty, hrest, hload1, hload2, memcmp_eq_strncmp hfill1 hfill2,
      sgn_strncmp (by rw [rawCell_length, rawCell_length]), ← colOrder_string hty]
    rfl

theorem ordercmpFrom_trans {ois : List OrderItem} (hall : ∀ oi ∈ ois, ∃ n, ty oi.exp = .string n)
    (offset : Nat) : Std.TransCmp fun s1 s2 => sgn (ordercmpFrom ty ois offset s1 s2) := by
  induction ois generalizing offset with
  | nil => exact { eq_swap := rfl, isLE_trans := fun _ _ => rfl }
  | cons oi ois ih =>
    obtain ⟨n, hty⟩ := hall oi List.mem_cons_self
    have hrest := ih (fun o ho => hall o (List.mem_cons_of_mem _ ho)) (advance (ty oi.exp) offset)
    have hcol : Std.TransCmp fun s1 s2 : Memory Byte =>
        if oi.dir then (sgn (memcmp (load s1 offset n) (load s2 offset n))).swap
        else sgn (memcmp (load s1 offset n) (load s2 offset n)) := by
      have hkey := order_trans fun s : Memory Byte => nums (load s offset n)
      have hmem : ∀ s1 s2 : Memory Byte, sgn (memcmp (load s1 offset n) (load s2 offset n)) =
          order (nums (load s1 offset n)) (nums (load s2 offset n)) :=
        fun s1 s2 => sgn_memcmp (by rw [load_length, load_length])
      simp only [hmem, order_swap]
      cases oi.dir with
      | false => exact hkey
      | true => exact hkey.opposite
    have hlex : (fun s1 s2 => sgn (ordercmpFrom ty (oi :: ois) offset s1 s2)) = compareLex _ _ :=
      funext fun s1 => funext fun s2 => sgn_string ois hty
    rw [hlex]
    infer_instance

end Comparison

section Run

variable {a : OrderOpr} {recs : List (List Byte)} {size : Nat}

theorem flatten_length (h : ∀ bs ∈ recs, bs.length = size) :
    recs.flatten.length = recs.length * size := by
  induction recs with
  | nil => simp
  | cons bs recs ih =>
    rw [List.flatten_cons, List.length_append, h bs List.mem_cons_self,
      ih fun b hb => h b (List.mem_cons_of_mem _ hb), List.length_cons, Nat.succ_mul]
    omega

theorem holds_record {m : Memory Byte} {off : Nat} (h : Holds m off recs)
    (hsize : ∀ bs ∈ recs, bs.length = size) {i : Nat} {bs : List Byte} (hi : recs[i]? = some bs) :
    load m (off + i * size) size = bs := by
  induction recs generalizing off i with
  | nil => cases hi
  | cons b recs ih =>
    have hb := hsize b List.mem_cons_self
    cases i with
    | zero =>
      cases hi
      have hload := h.1
      rw [hb] at hload
      simpa using hload
    | succ i =>
      have hrest := ih h.2 (fun b hb => hsize b (List.mem_cons_of_mem _ hb)) hi
      rw [hb] at hrest
      rw [Nat.succ_mul, Nat.add_comm (i * size), ← Nat.add_assoc]
      exact hrest

theorem records_eq {b : SortBuf} (h : Holds b.sortbuf 0 recs)
    (hsize : ∀ bs ∈ recs, bs.length = size) (hn : b.nitems = recs.length)
    (hitem : recs ≠ [] → b.itemsize = size) : b.records = recs := by
  unfold SortBuf.records
  rw [hn]
  apply List.ext_getElem?
  intro i
  by_cases hi : i < recs.length
  · have hne : recs ≠ [] := by
      rintro rfl
      cases hi
    have hget := List.getElem?_eq_getElem hi
    have hload := holds_record h hsize hget
    rw [Nat.zero_add] at hload
    rw [List.getElem?_map, List.getElem?_range hi, hget, hitem hne]
    exact congrArg some hload
  · rw [List.getElem?_eq_none (by simpa using hi), List.getElem?_eq_none (by omega)]

structure PutInv (size : Nat) (b : SortBuf) (recs : List (List Byte)) : Prop where
  holds : Holds b.sortbuf 0 recs
  sizes : ∀ bs ∈ recs, bs.length = size
  nitems : b.nitems = recs.length
  itemsize : recs ≠ [] → b.itemsize = size
  getIndex : b.getIndex = 0
  room : recs.length * size ≤ b.bufsize
  start : 4096 ≤ b.bufsize

theorem PutInv.init (size : Nat) (b : SortBuf) : PutInv size b.init [] where
  holds := trivial
  sizes := nofun
  nitems := rfl
  itemsize := absurd rfl
  getIndex := rfl
  room := by simp
  start := Nat.le_refl _

/-- Doubling the buffer once makes room for a record of at most 8192 bytes. -/
theorem PutInv.put {b : SortBuf} (h : PutInv size b recs) (hsize : size ≤ 8192)
    (tuple : Memory Byte) :
    ∃ b', b.put tuple size = some b' ∧ PutInv size b' (recs ++ [load tuple 0 size]) := by
  have hroom := h.room
  have hstart := h.start
  have hmany : recs.length = 0 ∨ size ≤ recs.length * size := by
    cases recs.length with
    | zero => exact Or.inl rfl
    | succ n =>
      rw [Nat.succ_mul]
      omega
  have hzero : recs.length = 0 → recs.length * size = 0 := by
    intro h0
    rw [h0, Nat.zero_mul]
  have hlen := flatten_length h.sizes
  have hcast : (b.nitems : Int) * size = ((recs.length * size : Nat) : Int) := by
    rw [h.nitems]
    rfl
  have hbuf : recs.length * size + size ≤
      if (b.bufsize : Int) - b.nitems * size < size then b.bufsize * 2 else b.bufsize := by
    split
    · omega
    · omega
  have hsnoc := h.holds.snoc (load tuple 0 size)
  rw [Nat.zero_add, hlen, ← h.nitems] at hsnoc
  unfold SortBuf.put
  dsimp only
  have hoff : b.nitems * size = recs.length * size := by rw [h.nitems]
  rw [write_ok (by rw [load_length, hoff]; exact hbuf)]
  refine ⟨_, rfl, ⟨hsnoc, ?_, ?_, fun _ => rfl, h.getIndex, ?_, ?_⟩⟩
  · intro bs hbs
    rcases List.mem_append.mp hbs with hbs | hbs
    · exact h.sizes bs hbs
    · rw [List.mem_singleton.mp hbs]
      exact load_length _ _ _
  · rw [List.length_append, h.nitems]
    rfl
  · rw [List.length_append, List.length_singleton, Nat.succ_mul]
    exact hbuf
  · dsimp only
    split
    · omega
    · exact hstart

variable {s : OrderSt}

theorem putAll_holds (hsize : a.size ≤ 8192) (rows : List (QunRow a.ty))
    (h : PutInv a.size s.sort recs) :
    ∃ s' new, a.putAll rows s = some s' ∧ s'.index = s.index ∧
      PutInv a.size s'.sort (recs ++ new) ∧ List.Forall₂ a.RecordOf rows new := by
  induction rows generalizing s recs with
  | nil => exact ⟨s, [], rfl, rfl, by rwa [List.append_nil], List.Forall₂.nil⟩
  | cons r rows ih =>
    have hmax : a.size < maxStrLen := by
      unfold maxStrLen
      omega
    obtain ⟨buf, hfill, -⟩ := fill_filled hmax s.buf r
    obtain ⟨sort, hput, hinv⟩ := h.put hsize buf
    obtain ⟨s', new, hrun, hindex, hinv', hnew⟩ :=
      ih (s := { s with sort := sort, buf := buf }) hinv
    refine ⟨s', load buf 0 a.size :: new, ?_, hindex, ?_, List.Forall₂.cons ?_ hnew⟩
    · unfold OrderOpr.putAll
      rw [hfill]
      dsimp only
      rw [hput]
      exact hrun
    · rw [List.append_assoc] at hinv'
      exact hinv'
    · exact ⟨s.buf, buf, hfill, rfl⟩

/-- The sort buffer with the records that are still to be read. -/
structure GetInv (size : Nat) (b : SortBuf) (recs : List (List Byte)) : Prop where
  holds : Holds b.sortbuf 0 recs
  sizes : ∀ bs ∈ recs, bs.length = size
  nitems : b.nitems = recs.length
  itemsize : recs ≠ [] → b.itemsize = size

variable {qsort : (List Byte → List Byte → Int) → List (List Byte) → List (List Byte)}
  {f : List Byte → List Byte → Int}

theorem PutInv.sort {b : SortBuf} (h : PutInv size b recs) (hperm : (qsort f recs).Perm recs) :
    GetInv size (b.sort qsort f) (qsort f recs) := by
  have hrecords := records_eq h.holds h.sizes h.nitems h.itemsize
  refine ⟨?_, fun bs hbs => h.sizes bs (hperm.mem_iff.mp hbs), ?_, ?_⟩
  · rw [holds_iff]
    unfold SortBuf.sort
    rw [hrecords]
    exact load_store_same b.sortbuf 0 _
  · rw [hperm.length_eq]
    exact h.nitems
  · intro hne
    apply h.itemsize
    rintro rfl
    exact hne (List.perm_nil.mp hperm)

def OrderOpr.ReadFrom (a : OrderOpr) (out : a.Out) (bs : List Byte) : Prop :=
  ∃ m, load m 0 a.size = bs ∧ out = a.extract m

theorem calls_get (input : List (QunRow a.ty)) {n k : Nat} (hindex : s.index ≠ 0)
    (h : GetInv a.size s.sort recs) (hget : s.sort.getIndex = k) (hk : k ≤ recs.length)
    (hn : recs.length - k < n) :
    ∃ outs, a.calls qsort input n s = some outs ∧
      List.Forall₂ a.ReadFrom outs (recs.drop k) := by
  induction n generalizing s k with
  | zero => omega
  | succ n ih =>
    unfold OrderOpr.calls OrderOpr.call
    rw [if_neg hindex]
    dsimp only
    unfold SortBuf.get
    rw [hget, h.nitems]
    by_cases hlt : k < recs.length
    · rw [if_pos hlt]
      dsimp only
      have hne : recs ≠ [] := by
        rintro rfl
        cases hlt
      have hrec := holds_record h.holds h.sizes (List.getElem?_eq_getElem hlt)
      rw [Nat.zero_add] at hrec
      have hlen := h.sizes _ (List.getElem_mem hlt)
      let sort : SortBuf := ⟨s.sort.sortbuf, s.sort.bufsize, recs.length, a.size, k + 1⟩
      obtain ⟨outs, hcalls, hreads⟩ := ih (k := k + 1) (s := ⟨s.index, sort, s.buf.store 0 recs[k]⟩)
        hindex ⟨h.holds, h.sizes, rfl, fun _ => rfl⟩ rfl hlt (by omega)
      rw [List.drop_eq_getElem_cons hlt, h.itemsize hne, hrec, hcalls]
      refine ⟨_, rfl, List.Forall₂.cons ⟨_, ?_, rfl⟩ hreads⟩
      rw [← hlen]
      exact load_store_same _ _ _
    · rw [if_neg hlt, List.drop_eq_nil_of_le (by omega)]
      exact ⟨[], rfl, List.Forall₂.nil⟩

theorem run_sorted {padded : Bool} (hsize : a.size ≤ 8192) (hcomp : a.compiles = true)
    (hq : Sorts qsort) (htrans : Std.TransCmp fun s1 s2 => sgn (a.ordercmp s1 s2))
    (hcmp : ∀ r r' bs bs', a.Source padded r → a.Source padded r' → a.RecordOf r bs →
      a.RecordOf r' bs' → sgn (a.ordercmp bs bs') = lexOrder a.ty a.prd r r')
    {input : List (QunRow a.ty)} (hin : ∀ r ∈ input, a.Source padded r) (hs : s.index = 0) :
    ∃ out, a.run qsort input s = some out ∧ ∃ sorted : List (QunRow a.ty), sorted.Perm input ∧
      (sorted.Pairwise fun r r' => lexOrder a.ty a.prd r r' ≠ .gt) ∧
      List.Forall₂ a.SameHead out sorted := by
  obtain ⟨s1, recs, hput, hindex, hinv, hrecs⟩ := putAll_holds hsize input
    (s := { s with sort := s.sort.init }) (PutInv.init a.size s.sort)
  rw [List.nil_append] at hinv
  have hmax : a.size < maxStrLen := by
    unfold maxStrLen
    omega
  have hperm := (hq a.ordercmp htrans recs).1
  obtain ⟨sorted, hrows, hpairs, hrel⟩ := hq.rows htrans
    (fun r r' bs bs' h h' => hcmp r r' bs bs' h.1 h'.1 h.2 h'.2) (forall₂_and hrecs hin)
  obtain ⟨outs, hcalls, hreads⟩ := calls_get input (n := input.length + 1)
    (s := { s1 with sort := s1.sort.sort qsort a.ordercmp, index := s1.index + 1 })
    (Nat.succ_ne_zero _) (hinv.sort hperm) hinv.getIndex (Nat.zero_le _)
    (by rw [hperm.length_eq, ← hrecs.length_eq]; omega)
  have hfirst : a.calls qsort input (input.length + 1) s = a.calls qsort input (input.length + 1)
      { s1 with sort := s1.sort.sort qsort a.ordercmp, index := s1.index + 1 } := by
    unfold OrderOpr.calls OrderOpr.call
    rw [if_pos hs, if_neg (Nat.succ_ne_zero _), hput]
  refine ⟨outs, ?_, sorted, hrows, hpairs, ?_⟩
  · unfold OrderOpr.run
    rw [if_pos hcomp, hfirst, hcalls]
  · apply forall₂_common hreads hrel
    rintro out r bs ⟨m, hm, rfl⟩ ⟨-, hrec⟩
    exact hrec.extract hmax hm

end Run

section Failing

variable {ty : Nat → FieldTy} {r r' : QunRow ty} {s1 s2 : Memory Byte} {e : Nat}

def low : (t : FieldTy) → Value t
  | .int => (0 : BitVec 32)
  | .real => (0 : BitVec 64)
  | .string _ => fun _ => (0 : Byte)
  | .timestamp => ((0 : BitVec 32), (0 : BitVec 32))

/-- A value that is greater than `low`, or the same string with other bytes behind its end. -/
def high : (t : FieldTy) → Value t
  | .int => (1 : BitVec 32)
  | .real => (0x3FF0000000000000 : BitVec 64)
  | .string _ => fun i => if i = 1 then (1 : Byte) else 0
  | .timestamp => ((1 : BitVec 32), (0 : BitVec 32))

theorem colOrder_self (t : FieldTy) (v : Value t) : colOrder t v v = .eq := by
  cases t with
  | int => exact order_eq rfl
  | real => exact order_eq rfl
  | string n => exact order_eq rfl
  | timestamp =>
    show (order v.1.toInt v.1.toInt).then (order v.2.toInt v.2.toInt) = .eq
    rw [order_eq rfl, order_eq rfl]
    rfl

theorem lexOrder_eq_iff (ois : List OrderItem) :
    lexOrder ty ois r r' = .eq ↔ ∀ oi ∈ ois, colOrder (ty oi.exp) (r oi.exp) (r' oi.exp) = .eq := by
  induction ois with
  | nil => simp [lexOrder]
  | cons oi ois ih =>
    simp only [lexOrder, Ordering.then_eq_eq, ih, List.forall_mem_cons]
    cases oi.dir <;> simp

variable {offset : Nat} {t : FieldTy}

theorem readInt_congr (h : load s1 offset 4 = load s2 offset 4) :
    readInt s1 offset = readInt s2 offset := by
  unfold readInt
  rw [h]

theorem ordercmpCol_same (dir : Bool) (h : load s1 offset t.size = load s2 offset t.size) :
    ordercmpCol dir offset s1 s2 t = none := by
  cases t with
  | int => exact if_neg fun hne => hne (congrArg BitVec.toInt (readInt_congr h))
  | real =>
    have hload : load s1 offset 8 = load s2 offset 8 := h
    have hreal : readReal s1 offset = readReal s2 offset := by
      unfold readReal
      rw [hload]
    simp [ordercmpCol, hreal]
  | string n =>
    have hload : load s1 offset n = load s2 offset n := h
    have hzero : memcmp (load s1 offset n) (load s2 offset n) = 0 := by
      rw [← sgn_eq_iff, sgn_memcmp (by rw [hload]), hload]
      exact order_eq rfl
    exact if_neg fun hne => hne hzero
  | timestamp =>
    have hload : load s1 offset (4 + 4) = load s2 offset (4 + 4) := h
    rw [load_append, load_append] at hload
    obtain ⟨hsec, husec⟩ := List.append_inj hload (by rw [load_length, load_length])
    have htime : readTimeval s1 offset = readTimeval s2 offset :=
      Prod.ext (readInt_congr hsec) (readInt_congr husec)
    refine if_neg fun hne => hne ?_
    rw [htime]
    unfold timevalCmp
    rw [BitVec.sub_self, BitVec.sub_self]
    rfl

theorem ordercmpFrom_decides {ois : List OrderItem} (hsame : ∀ e', e' ≠ e → r e' = r' e')
    (h1 : Slots ty r ois offset s1) (h2 : Slots ty r' ois offset s2) (hmem : ∃ oi ∈ ois, oi.exp = e)
    {P : Int → Prop} (hcol : ∀ dir off, load s1 off (ty e).size = rawCell (ty e) (r e) →
      load s2 off (ty e).size = rawCell (ty e) (r' e) →
      ∃ rc, ordercmpCol dir off s1 s2 (ty e) = some rc ∧ P rc) :
    P (ordercmpFrom ty ois offset s1 s2) := by
  induction ois generalizing offset with
  | nil =>
    obtain ⟨oi, hoi, -⟩ := hmem
    cases hoi
  | cons oi ois ih =>
    obtain ⟨hload1, hrest1⟩ := h1
    obtain ⟨hload2, hrest2⟩ := h2
    rw [ordercmpFrom_cons]
    by_cases he : oi.exp = e
    · subst he
      obtain ⟨rc, hrc, hP⟩ := hcol oi.dir offset hload1 hload2
      rw [hrc]
      exact hP
    · rw [ordercmpCol_same oi.dir (by rw [hload1, hload2, hsame _ he])]
      apply ih hrest1 hrest2
      obtain ⟨oi', hoi', he'⟩ := hmem
      cases hoi' with
      | head => exact absurd he' he
      | tail _ hoi' => exact ⟨oi', hoi', he'⟩

theorem signed_zero (dir : Bool) : signed dir 0 = 0 := by
  cases dir <;> rfl

theorem ordercmpCol_wrong (ht : ∀ n, t = .string n → 2 ≤ n) (dir : Bool)
    (h1 : load s1 offset t.size = rawCell t (low t))
    (h2 : load s2 offset t.size = rawCell t (high t)) :
    ∃ rc, ordercmpCol dir offset s1 s2 t = some rc ∧
      (sgn rc = .eq ↔ colOrder t (low t) (high t) ≠ .eq) := by
  cases t with
  | int =>
    have hia : readInt s1 offset = 0#32 := readInt_eq h1
    have hib : readInt s2 offset = 1#32 := readInt_eq h2
    refine ⟨0, ?_, ?_⟩
    · simp only [ordercmpCol, hia, hib]
      rw [if_pos (by decide), if_neg (by decide), signed_zero]
    · decide
  | real =>
    have hra : readReal s1 offset = 0#64 := readReal_eq h1
    have hrb : readReal s2 offset = 0x3FF0000000000000#64 := readReal_eq h2
    refine ⟨0, ?_, ?_⟩
    · simp only [ordercmpCol, hra, hrb]
      rw [if_pos (by decide +kernel), if_neg (by decide +kernel), signed_zero]
    · decide +kernel
  | string n =>
    have hn := ht n rfl
    obtain ⟨k, rfl⟩ := Nat.exists_eq_add_of_le' hn
    have hl1 : load s1 offset (k + 2) = 0 :: 0 :: load (low (.string (k + 2))) 2 k := h1
    have hl2 : load s2 offset (k + 2) = 0 :: 1 :: load (high (.string (k + 2))) 2 k := h2
    have hrc : memcmp (load s1 offset (k + 2)) (load s2 offset (k + 2)) = -1 := by
      rw [hl1, hl2]
      rfl
    have hend : ∀ x bs, str ((0 : Byte) :: x :: bs) = [] := fun x bs => by
      rw [str_cons, if_pos rfl]
    have heq : colOrder (.string (k + 2)) (low (.string (k + 2))) (high (.string (k + 2))) = .eq :=
      order_eq ((hend _ _).trans (hend _ _).symm)
    refine ⟨signed dir (-1), ?_, ?_⟩
    · simp only [ordercmpCol, hrc]
      rw [if_pos (by decide)]
    · rw [heq]
      cases dir <;> decide
  | timestamp =>
    have hta : readTimeval s1 offset = (0#32, 0#32) := readTimeval_eq h1
    have htb : readTimeval s2 offset = (1#32, 0#32) := readTimeval_eq h2
    refine ⟨0, ?_, ?_⟩
    · simp only [ordercmpCol, hta, htb]
      rw [if_pos (by decide), if_neg (by decide), signed_zero]
    · decide

variable {a : OrderOpr} {padded : Bool}

theorem zeroFilled_zeros (off n : Nat) : ZeroFilled (load (fun _ => (0 : Byte)) off n) := by
  induction n generalizing off with
  | zero => trivial
  | succ n ih =>
    refine ⟨?_, ih (off + 1)⟩
    intro _ c hc
    rw [load_const] at hc
    exact List.eq_of_mem_replicate hc

theorem padded_low (t : FieldTy) : Padded t (low t) := by
  cases t with
  | string n => exact zeroFilled_zeros 0 n
  | int => trivial
  | real => trivial
  | timestamp => trivial

theorem padded_high (ht : ∀ n, t ≠ .string n) : Padded t (high t) := by
  cases t with
  | string n => exact absurd rfl (ht n)
  | int => trivial
  | real => trivial
  | timestamp => trivial

/-- The comparison function is wrong on some tuples if there is an order-by column that is not a
string, or one with bytes behind its end. -/
theorem compare_strings (hsize : a.size ≤ 8192)
    (h : ∀ r r' bs bs', a.Source padded r → a.Source padded r' → a.RecordOf r bs →
      a.RecordOf r' bs' → sgn (a.ordercmp bs bs') = lexOrder a.ty a.prd r r')
    {oi : OrderItem} (hoi : oi ∈ a.prd) :
    ∃ n, a.ty oi.exp = .string n ∧ (padded = true ∨ n ≤ 1) := by
  by_contra hbad
  have hstr : ∀ n, a.ty oi.exp = .string n → padded = false ∧ 2 ≤ n := by
    intro n hn
    constructor
    · cases hp : padded with
      | false => rfl
      | true => exact absurd ⟨n, hn, Or.inl hp⟩ hbad
    · by_contra hle
      exact hbad ⟨n, hn, Or.inr (by omega)⟩
  let r : QunRow a.ty := fun e => low (a.ty e)
  let r' : QunRow a.ty := Function.update r oi.exp (high (a.ty oi.exp))
  have hne : ∀ e, e ≠ oi.exp → r e = r' e := fun e he => (Function.update_of_ne he _ _).symm
  have hat : r' oi.exp = high (a.ty oi.exp) := Function.update_self _ _ _
  have hr : a.Source padded r := fun _ e => padded_low (a.ty e)
  have hr' : a.Source padded r' := by
    intro hp e
    by_cases he : e = oi.exp
    · subst he
      rw [hat]
      apply padded_high
      intro n hn
      have hfalse := (hstr n hn).1
      rw [hp] at hfalse
      cases hfalse
    · rw [← hne e he]
      exact padded_low (a.ty e)
  have hmax : a.size < maxStrLen := by
    unfold maxStrLen
    omega
  obtain ⟨m, hm, -⟩ := fill_filled hmax (fun _ => 0) r
  obtain ⟨m', hm', -⟩ := fill_filled hmax (fun _ => 0) r'
  have hrec : a.RecordOf r (load m 0 a.size) := ⟨_, m, hm, rfl⟩
  have hrec' : a.RecordOf r' (load m' 0 a.size) := ⟨_, m', hm', rfl⟩
  have hwrong : sgn (a.ordercmp (load m 0 a.size) (load m' 0 a.size)) = .eq ↔
      colOrder (a.ty oi.exp) (low (a.ty oi.exp)) (high (a.ty oi.exp)) ≠ .eq := by
    refine ordercmpFrom_decides (P := fun rc => sgn rc = .eq ↔ colOrder (a.ty oi.exp) (low _)
      (high _) ≠ .eq) hne (hrec.slots hmax) (hrec'.slots hmax) ⟨oi, hoi, rfl⟩ ?_
    intro dir off h1 h2
    rw [hat] at h2
    exact ordercmpCol_wrong (fun n hn => (hstr n hn).2) dir h1 h2
  have hlex : lexOrder a.ty a.prd r r' = .eq ↔
      colOrder (a.ty oi.exp) (low (a.ty oi.exp)) (high (a.ty oi.exp)) = .eq := by
    rw [lexOrder_eq_iff]
    constructor
    · intro hall
      have hcol := hall oi hoi
      rw [hat] at hcol
      exact hcol
    · intro hcol oi' hoi'
      by_cases he : oi'.exp = oi.exp
      · rw [he, hat]
        exact hcol
      · rw [← hne _ he]
        exact colOrder_self _ _
  rw [h r r' _ _ hr hr' hrec hrec', hlex] at hwrong
  exact iff_not_self hwrong

/-- A record that is too long is written behind the end of the buffer. -/
theorem run_size (qsort : (List Byte → List Byte → Int) → List (List Byte) → List (List Byte))
    (r : QunRow a.ty) {s : OrderSt} (hs : s.index = 0) {out : List a.Out}
    (h : a.run qsort [r] s = some out) : a.compiles = true ∧ a.size ≤ 8192 := by
  unfold OrderOpr.run at h
  cases hc : a.compiles with
  | false =>
    rw [hc] at h
    cases h
  | true =>
    refine ⟨rfl, ?_⟩
    rw [hc] at h
    by_contra hsize
    have hput : ∀ buf, s.sort.init.put buf a.size = none := by
      intro buf
      unfold SortBuf.put
      dsimp only
      have hlimit : ¬ s.sort.init.nitems * a.size + (load buf 0 a.size).length ≤
          if (s.sort.init.bufsize : Int) - s.sort.init.nitems * a.size < a.size
            then s.sort.init.bufsize * 2 else s.sort.init.bufsize := by
        rw [load_length]
        unfold SortBuf.init
        dsimp only
        split <;> omega
      unfold write
      rw [if_neg hlimit]
    have hall : a.putAll [r] { s with sort := s.sort.init } = none := by
      unfold OrderOpr.putAll
      cases a.fill s.buf r with
      | none => rfl
      | some buf =>
        dsimp only
        rw [hput]
    unfold OrderOpr.calls OrderOpr.call at h
    rw [if_pos hs, hall] at h
    cases h

end Failing

theorem order_right_iff (a : OrderOpr) (padded : Bool) :
    OrderRight a padded ↔ OrderFits a padded := by
  constructor
  · intro h
    let s : OrderSt := ⟨0, ⟨fun _ => 0, 0, 0, 0, 0⟩, fun _ => 0⟩
    let r : QunRow a.ty := fun e => low (a.ty e)
    obtain ⟨out, hout, -⟩ := h.output _ sorts_mergeSort [r] s
      (fun r' hr' => by
        rw [List.mem_singleton.mp hr']
        exact fun _ e => padded_low (a.ty e)) rfl
    obtain ⟨hcomp, hsize⟩ := run_size _ r rfl hout
    unfold OrderOpr.compiles at hcomp
    rw [Bool.and_eq_true, decide_eq_true_eq, decide_eq_true_eq] at hcomp
    exact ⟨hcomp.1, hcomp.2, hsize, fun oi hoi => compare_strings hsize h.compare hoi⟩
  · intro h
    have hcomp : a.compiles = true := by
      unfold OrderOpr.compiles
      rw [Bool.and_eq_true, decide_eq_true_eq, decide_eq_true_eq]
      exact ⟨h.items, h.heads⟩
    have hmax : a.size < maxStrLen := lt_of_le_of_lt h.size (by decide)
    have hcmp : ∀ r r' bs bs', a.Source padded r → a.Source padded r' → a.RecordOf r bs →
        a.RecordOf r' bs' → sgn (a.ordercmp bs bs') = lexOrder a.ty a.prd r r' :=
      fun r r' bs bs' hr hr' hrec hrec' =>
        sgn_ordercmpFrom h.strings hr hr' (hrec.slots hmax) (hrec'.slots hmax)
    refine ⟨hcmp, ?_⟩
    intro qsort hq input s hin hs
    have hmem := ordercmpFrom_trans (fun oi hoi => (h.strings oi hoi).imp fun _ hn => hn.1) 0
    have htrans : Std.TransCmp fun s1 s2 => sgn (a.ordercmp s1 s2) :=
      { eq_swap := hmem.eq_swap, isLE_trans := hmem.isLE_trans }
    exact run_sorted h.size hcomp hq htrans hcmp hin hs

/-- `SELECT id FROM t ORDER BY id` -/
def byId : OrderOpr where
  ty := fun _ => .int
  prd := [⟨0, false⟩]
  hxp := [0]

/-- The tuples 0 and 1 come out equal. -/
theorem byId_not_right : ¬ OrderRight byId true := by
  intro h
  obtain ⟨n, hn, -⟩ := compare_strings (a := byId) (by decide) h.compare List.mem_cons_self
  cases hn

end StreamMill.Query
