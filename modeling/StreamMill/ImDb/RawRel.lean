import StreamMill.Table.Compare
import StreamMill.Lib.Extent
import StreamMill.Lib.Walk

/-!
# StreamMill.ImDb.RawRel

The in-memory relation as its bytes, with keys and data of any size: `im_rel_put` (`im_rel.c`),
`im_rel_cursor_put` and the end of `im_rel_cursor_get` (`im_cursor.c`), and the buffer that they
take slots from (`buffer.c`). The memory holds the pages and the free pages of the buffer; the
relation and the buffer are records. Every slot has the size that the first tuple needs. Pointers
are four bytes, and `0` is `NULL`.
-/

namespace StreamMill.ImDb
namespace Raw

open Lib Lib.Memory
open Table (leBytes leNat)

/-- The bytes of a `DBT`, whose `size` is an `u_int32_t`. -/
abbrev Dbt := {bs : List Byte // bs.length < 2 ^ 32}

/-- `*(size_t *)p`; a pointer is read in the same way. -/
def word (m : Memory Byte) (p : Nat) : Nat := leNat (load m p 4)

def setWord (m : Memory Byte) (p : Nat) (v : Nat) : Memory Byte := store m p (leBytes 4 v)

/-- The fields of a `TLL`: the two DBTs, which start with their pointers, the status, the links. -/
def keyAt : Nat := 0
def dataAt : Nat := 24
def statusAt : Nat := 48
def prevAt : Nat := 52
def nextAt : Nat := 56
def hchainAt : Nat := 60
def sizeofTLL : Nat := 64

def sizeofSizeT : Nat := 4

/-- What a tuple takes: the `TLL`, the key and the data, each behind its size. -/
def tupleSize (key data : List Byte) : Nat :=
  sizeofTLL + key.length + sizeofSizeT + data.length + sizeofSizeT

/-- The arrays of pages only grow, and are lists here. -/
structure Buffer where
  itemSize : Nat
  pageSize : Nat
  /-- `pages[current_page]` -/
  page : Nat
  /-- The pages before it, the last one first. -/
  pages : List Nat
  pageOffset : Nat
  /-- `free_pages[current_free_page]` -/
  freePage : Nat
  /-- The free pages before it, the last one first. -/
  freePages : List Nat
  freePageOffset : Nat

def pageItems : Nat := 256
def freeItems : Nat := 1024

def Buffer.blocks (p : Buffer) : List Block :=
  (p.page :: p.pages).map (fun q => (q, p.pageSize)) ++
    (p.freePage :: p.freePages).map fun q => (q, freeItems * 4)

/-- `size` and the sizes computed from it are of type `int`. -/
def newBuffer (malloc : Malloc) (size : Nat) : Except Fault Buffer := do
  let itemSize := size % 2 ^ 32
  let pageSize := size * pageItems % 2 ^ 32
  match malloc [] pageSize with
  | none => .error .noMemory
  | some page =>
    match malloc [(page, pageSize)] (freeItems * 4) with
    | none => .error .noMemory
    | some freePage =>
      return { itemSize, pageSize, page, freePage, pages := [], pageOffset := 0, freePages := [],
               freePageOffset := 0 }

def checkFreeBuffer (m : Memory Byte) (p : Buffer) : Nat × Buffer :=
  if p.freePageOffset > 0 then
    (word m (p.freePage + 4 * (p.freePageOffset - 1)),
      { p with freePageOffset := p.freePageOffset - 1 })
  else
    match p.freePages with
    | q :: qs =>
      (word m (q + 4 * (freeItems - 1)),
        { p with freePage := q, freePages := qs, freePageOffset := freeItems - 1 })
    | [] => (0, p)

def nextSlot (p : Buffer) : Nat × Buffer :=
  (p.page + p.pageOffset, { p with pageOffset := (p.pageOffset + p.itemSize) % 2 ^ 32 })

def allocateBuffer (malloc : Malloc) (m : Memory Byte) (p : Buffer) :
    Except Fault (Nat × Buffer) :=
  let (tuple, q) := checkFreeBuffer m p
  if tuple ≠ 0 then .ok (tuple, q)
  else if q.pageOffset = q.pageSize then
    match malloc q.blocks q.pageSize with
    | none => .error .noMemory
    | some page => .ok (nextSlot { q with page, pages := q.page :: q.pages, pageOffset := 0 })
  else .ok (nextSlot q)

/-- The slot becomes the last entry of the free pages. -/
def freeBuffer (malloc : Malloc) (m : Memory Byte) (p : Buffer) (tuple : Nat) :
    Except Fault (Memory Byte × Buffer) :=
  if p.freePageOffset = freeItems then
    match malloc p.blocks (freeItems * 4) with
    | none => .error .noMemory
    | some q =>
      .ok (setWord m q tuple,
        { p with freePage := q, freePages := p.freePage :: p.freePages, freePageOffset := 1 })
  else
    .ok (setWord m (p.freePage + 4 * p.freePageOffset) tuple,
      { p with freePageOffset := p.freePageOffset + 1 })

inductive KeyPtr where
  | caller (k : List Byte)
  | tuple (p : Nat)
  deriving DecidableEq

structure Rel where
  mem : Memory Byte
  head : Option Nat
  hidx : Option (HashControl KeyPtr Nat)
  /-- `IS_OID_REL(flags)` -/
  oid : Bool
  buffer : Option Buffer

/-- `mem` is what the memory holds before it is used. -/
def imRelCreate (mem : Memory Byte) (oid indexed : Bool) : Rel :=
  { mem, oid, head := none, hidx := if indexed then some hashNew else none, buffer := none }

inductive PutFlags where
  /-- `0` -/
  | overwrite
  /-- `DB_APPEND` -/
  | append
  deriving DecidableEq

def keyMem (m : Memory Byte) : KeyPtr → Nat → Byte
  | .caller k, i => k.getD i 0
  | .tuple p, i => m (p + i)

def Rel.next (s : Rel) (a : Nat) : Nat := word s.mem (a + nextAt)

def Rel.prev (s : Rel) (a : Nat) : Nat := word s.mem (a + prevAt)

def Rel.setNext (s : Rel) (a b : Nat) : Rel := { s with mem := setWord s.mem (a + nextAt) b }

def Rel.setPrev (s : Rel) (a b : Nat) : Rel := { s with mem := setWord s.mem (a + prevAt) b }

def Rel.setChain (s : Rel) (a b : Nat) : Rel := { s with mem := setWord s.mem (a + hchainAt) b }

/-- `cur->key.data + sizeof(size_t)` -/
def Rel.keyBytes (s : Rel) (a : Nat) : Nat := word s.mem (a + keyAt) + sizeofSizeT

def Rel.dataPtr (s : Rel) (a : Nat) : Nat := word s.mem (a + dataAt)

/-- `!(IS_OID_REL(flags) && TUPLE_DELETED(status))` -/
def Rel.live (s : Rel) (a : Nat) : Bool :=
  !(s.oid && (s.mem (a + statusAt)).getLsbD 0)

/-- `memcmp`, which takes as many bytes as the caller's key has. -/
def Rel.keyIs (s : Rel) (key : List Byte) (a : Nat) : Bool :=
  load s.mem (s.keyBytes a) key.length = key

def Rel.fuel (s : Rel) : Nat :=
  match s.buffer with
  | none => 0
  | some p => pageItems * (p.pages.length + 1)

def Rel.last (s : Rel) : Option Nat := s.head.map s.prev

/-- The tuple that a put with flags `0` is to overwrite. -/
def Rel.overwritten (s : Rel) (key : List Byte) : Except Fault (Option Nat) :=
  match s.head with
  | none => .ok none
  | some head =>
    walk .loop (fun a => !(s.live a && s.keyIs key a)) (stepUntil s.next (s.prev head)) s.fuel
      (some head)

def setPointers (m : Memory Byte) (cur : Nat) (key : List Byte) : Memory Byte :=
  setWord (setWord m (cur + keyAt) (cur + sizeofTLL)) (cur + dataAt)
    (cur + sizeofTLL + key.length + sizeofSizeT)

def setBytes (m : Memory Byte) (field : Nat) (bs : List Byte) : Memory Byte :=
  let m := setWord m (word m field) bs.length
  store m (word m field + sizeofSizeT) bs

def Rel.fill (s : Rel) (cur : Nat) (key data : List Byte) : Rel :=
  let m := setBytes (setPointers s.mem cur key) (cur + keyAt) key
  let m := setBytes m (cur + dataAt) data
  { s with mem := setWord (store m (cur + statusAt) [0]) (cur + hchainAt) 0 }

/-- The double linkage. The source treats the second insertion apart, with the same effect. -/
def Rel.link (s : Rel) (cur : Nat) : Rel :=
  match s.head with
  | none => { (s.setPrev cur cur).setNext cur cur with head := some cur }
  | some head =>
    (((s.setPrev cur (s.prev head)).setNext (s.prev head) cur).setNext cur head).setPrev head cur

/-- The index gets `cur` in front of the chain of its key. -/
def Rel.index (s : Rel) (ht : HashControl KeyPtr Nat) (cur : Nat) (key : List Byte) :
    Except Fault Rel := do
  let (ht, oldEntry) ← hashFind (keyMem s.mem) ht (.caller key) key.length
  match oldEntry with
  | some old =>
    let (ht, _) ← hashReplace (keyMem s.mem) ht (.tuple (s.keyBytes cur)) key.length cur
    return { s.setChain cur old with hidx := some ht }
  | none =>
    let (ht, _) ← hashInsert (keyMem s.mem) ht (.tuple (s.keyBytes cur)) key.length cur
    return { s with hidx := some ht }

/-- Without an index, the last tuple before `cur` with its key is chained to it. -/
def Rel.chain (s : Rel) (cur : Nat) (key : List Byte) : Except Fault Rel :=
  match s.head with
  | none => .ok s
  | some head =>
    if cur = head then .ok s
    else do
      let p ← walk .loop (fun a => !s.keyIs key a) (stepUntil s.prev head) s.fuel
        (some (s.prev cur))
      match p with
      | none => return s
      | some p => return s.setChain p cur

def Rel.theBuffer (s : Rel) (malloc : Malloc) (key data : List Byte) : Except Fault Buffer :=
  match s.buffer with
  | some p => .ok p
  | none => newBuffer malloc (tupleSize key data)

def Rel.append (s : Rel) (p : Buffer) (cur : Nat) (key data : List Byte) : Rel :=
  (({ s with buffer := some p } : Rel).fill cur key data).link cur

/-- The part of `im_rel_put` that appends. -/
def Rel.putLast (s : Rel) (malloc : Malloc) (key data : List Byte) : Except Fault Rel := do
  let p ← s.theBuffer malloc key data
  let (cur, p) ← allocateBuffer malloc s.mem p
  match s.hidx with
  | some ht => (s.append p cur key data).index ht cur key
  | none => (s.append p cur key data).chain cur key

/-- To overwrite, the source frees the old data, which is a part of the tuple's slot. -/
def imRelPut (malloc : Malloc) (s : Rel) (key data : Dbt) (flags : PutFlags) :
    Except Fault Rel := do
  match ← (match flags with
    | .overwrite => s.overwritten key.val
    | .append => .ok none) with
  | some _ => .error .badFree
  | none => s.putLast malloc key.val data.val

/-- `im_rel_cursor_put` with flags `DB_CURRENT`; `false` is `DB_NOTFOUND`. -/
def imRelCursorPut (s : Rel) (cur : Option Nat) (data : Dbt) : Rel × Bool :=
  match cur with
  | none => (s, false)
  | some a => ({ s with mem := setBytes s.mem (a + dataAt) data.val }, true)

/-- The size of `rkey_data` and of `rdata_data`, which follows it. -/
def returnSize : Nat := 1024

/-- What `im_rel_cursor_get` returns of a tuple; `none` if a copy reaches beyond the two arrays. The
address of the tuple is copied behind its data. -/
def readTuple (m out : Memory Byte) (cur : Nat) : Option (List Byte × List Byte) :=
  let keySize := word m (word m (cur + keyAt))
  let dataSize := word m (word m (cur + dataAt))
  if keySize ≤ 2 * returnSize ∧ dataSize + 4 ≤ returnSize then
    let out := store out 0 (load m (word m (cur + keyAt) + sizeofSizeT) keySize)
    let out := store out returnSize (load m (word m (cur + dataAt) + sizeofSizeT) dataSize)
    let out := store out (returnSize + dataSize) (leBytes 4 cur)
    some (load out 0 keySize, load out returnSize dataSize)
  else none

end Raw
end StreamMill.ImDb
