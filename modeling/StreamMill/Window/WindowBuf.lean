import StreamMill.Window.Winbuf
import StreamMill.Table.Compare

/-!
# StreamMill.Window.WindowBuf

The window buffer of `windowBuf.cc`. Unlike a `winbuf` it keeps the id of a tuple as its key of
four bytes, and a count `n`. `WindowBuf.Holds` says which tuples a buffer holds.
-/

namespace StreamMill.Window

open ImDb Lib
open Table (leBytes leNat leBytes_length leNat_leBytes)

structure WindowBuf (α : Type) where
  b : Rel 4 α
  temp : Cursor
  size : Nat
  tupleId : Nat
  /-- "actual window size -- including expired tuples" -/
  n : Int
  first : Bool
  firstTs : Timeval

section

variable {α : Type}

def newWindowBuf (mem : Addr → Tuple 4 α) (size : Nat) : WindowBuf α :=
  { b := imRelCreate mem false false
    temp := imRelCursor
    size := size
    tupleId := 0
    n := 0
    first := true
    firstTs := ⟨0, 0⟩ }

def idKey (id : Nat) : Key 4 := ⟨leBytes 4 id, leBytes_length 4 id⟩

def WindowBuf.updateTupleID (w : WindowBuf α) : Option Timeval → WindowBuf α
  | none => { w with tupleId := (w.tupleId + 1) % 2 ^ 32 }
  | some ts =>
    { w with
      first := false
      firstTs := if w.first then ts else w.firstTs
      tupleId :=
        ⌊timevalSubtract ts (if w.first then ts else w.firstTs) * 1000⌋.toNat % 2 ^ 32 }

/-- That `n` is counted up is commented out in the source. -/
def WindowBuf.put (w : WindowBuf α) (data : α) : Except Fault (WindowBuf α) := do
  let b ← imRelPut w.b (idKey w.tupleId) data .append
  return { w with b }

variable [DecidableEq α] [Inhabited α]

def WindowBuf.cGetFirst (w : WindowBuf α) :
    Except Fault (WindowBuf α × Option (Key 4 × α)) := do
  let (b, temp, found) ← imRelCursorGet w.b w.temp (idKey 0) default .first
  return ({ w with b, temp }, found.map fun r => (r.1, r.2.1))

def WindowBuf.pop (w : WindowBuf α) : Except Fault (WindowBuf α × Bool) := do
  let (w, found) ← w.cGetFirst
  match found with
  | none => return (w, false)
  | some _ =>
    let (b, temp, deleted) ← imRelCursorDel w.b w.temp
    return ({ w with b, temp, n := w.n - 1 }, deleted)

omit [DecidableEq α] [Inhabited α] in
def WindowBuf.bufSize (w : WindowBuf α) : Int := w.n

def WindowBuf.getExpired (w : WindowBuf α) : Except Fault (WindowBuf α × Option α) := do
  let (w, found) ← w.cGetFirst
  match found with
  | none => return (w, none)
  | some (key, data) =>
    return (w, if expired w.size w.tupleId (leNat key.val) then some data else none)

end

variable {α : Type} {w w' : WindowBuf α} {es : List (WinTuple α)}

def keyTuple (e : Entry 4 α) : WinTuple α := ⟨e.data, leNat e.key.val⟩

def WindowBuf.Holds (w : WindowBuf α) (es : List (WinTuple α)) : Prop :=
  ∃ l, ValueRel w.b l ∧ l.map keyTuple = es

/-- `w'` is `w` with another relation, cursor and count. -/
def WindowBuf.SameIds (w w' : WindowBuf α) : Prop :=
  w'.size = w.size ∧ w'.tupleId = w.tupleId ∧ w'.first = w.first ∧ w'.firstTs = w.firstTs

theorem newWindowBuf_holds (mem : Addr → Tuple 4 α) (size : Nat) :
    (newWindowBuf mem size).Holds [] :=
  ⟨[], valueRel_new mem, rfl⟩

theorem leNat_idKey {id : Nat} (h : id < 2 ^ 32) : leNat (idKey id).val = id :=
  leNat_leBytes h

theorem WindowBuf.put_holds (h : w.Holds es) (hid : w.tupleId < 2 ^ 32) (data : α) :
    ∃ w', w.put data = .ok w' ∧ w'.Holds (es ++ [⟨data, w.tupleId⟩]) ∧ w.SameIds w' ∧
      w'.n = w.n := by
  obtain ⟨l, hrel, rfl⟩ := h
  obtain ⟨b, hput, hb⟩ := hrel.put (idKey w.tupleId) data
  refine ⟨{ w with b }, ?_, ⟨_, hb, ?_⟩, ⟨rfl, rfl, rfl, rfl⟩, rfl⟩
  · rw [WindowBuf.put, hput]
    rfl
  · rw [List.map_append, List.map_singleton, keyTuple, leNat_idKey hid]

variable [DecidableEq α] [Inhabited α]

theorem WindowBuf.getExpired_holds (h : w.Holds es) :
    ∃ w', w.getExpired = .ok (w', (es.head?.filter fun d =>
        expired w.size w.tupleId d.tupleId).map WinTuple.value) ∧ w'.Holds es ∧
      w.SameIds w' ∧ w'.n = w.n := by
  obtain ⟨l, hrel, rfl⟩ := h
  cases l with
  | nil =>
    refine ⟨w, ?_, ⟨[], hrel, rfl⟩, ⟨rfl, rfl, rfl, rfl⟩, rfl⟩
    rw [WindowBuf.getExpired, WindowBuf.cGetFirst, hrel.first_none]
    rfl
  | cons e l =>
    obtain ⟨temp, hget, -⟩ := hrel.first w.temp (idKey 0) default
    refine ⟨{ w with temp }, ?_, ⟨_, hrel, rfl⟩, ⟨rfl, rfl, rfl, rfl⟩, rfl⟩
    rw [WindowBuf.getExpired, WindowBuf.cGetFirst, hget]
    simp only [ok_bind, Option.map_some, List.map_cons, List.head?_cons, Option.filter_some,
      keyTuple]
    change Except.ok _ = _
    split <;> rfl

theorem WindowBuf.pop_holds (h : w.Holds es) :
    ∃ w', w.pop = .ok (w', !es.isEmpty) ∧ w'.Holds es.tail ∧ w.SameIds w' ∧
      w'.n = w.n - if es.isEmpty then 0 else 1 := by
  obtain ⟨l, hrel, rfl⟩ := h
  cases l with
  | nil =>
    refine ⟨w, ?_, ⟨[], hrel, rfl⟩, ⟨rfl, rfl, rfl, rfl⟩, (Int.sub_zero _).symm⟩
    rw [WindowBuf.pop, WindowBuf.cGetFirst, hrel.first_none]
    rfl
  | cons e l =>
    obtain ⟨temp, hget, hcur⟩ := hrel.first w.temp (idKey 0) default
    obtain ⟨b, temp', hdel, hb⟩ := hrel.del hcur
    refine ⟨{ w with b := b, temp := temp', n := w.n - 1 }, ?_, ⟨l, hb, rfl⟩,
      ⟨rfl, rfl, rfl, rfl⟩, rfl⟩
    rw [WindowBuf.pop, WindowBuf.cGetFirst, hget]
    change (imRelCursorDel w.b temp).bind _ = _
    rw [hdel]
    rfl

end StreamMill.Window
