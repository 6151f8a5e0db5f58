import StreamMill.ImDb.Hash
import StreamMill.Lib.Walk

/-!
# StreamMill.ImDb.Rel

The in-memory relation of `im_rel.c` and its cursors (`im_cursor.c`). Tuples live in slots of a
buffer (`buffer.c`) and form one circular doubly linked list; with an index, the hash table maps
the bytes of a key to the first tuple of a chain. The keys of a relation have one size `n` and
the data one type `δ`, as its schema says.
-/

namespace StreamMill.ImDb

open Lib

abbrev Addr := Nat

abbrev Key (n : Nat) := {k : List Byte // k.length = n}

/-- `TLL` -/
structure Tuple (n : Nat) (δ : Type) where
  key : Key n
  data : δ
  /-- `TUPLE_DELETED(status)` -/
  deleted : Bool
  prev : Addr
  next : Addr
  hchain : Option Addr

/-- `free` holds the slots on the free pages, the last one freed first; `fresh` counts the slots
given out from the pages. Memory does not run out. -/
structure Buffer where
  free : List Addr
  fresh : Nat

def allocateBuffer (p : Buffer) : Addr × Buffer :=
  match p.free with
  | a :: free => (a, { p with free })
  | [] => (p.fresh, { p with fresh := p.fresh + 1 })

def freeBuffer (p : Buffer) (tuple : Addr) : Buffer := { p with free := tuple :: p.free }

inductive KeyPtr (n : Nat) where
  | caller (k : Key n)
  | tuple (a : Addr)
  deriving DecidableEq

structure Rel (n : Nat) (δ : Type) where
  mem : Addr → Tuple n δ
  head : Option Addr
  hidx : Option (HashControl (KeyPtr n) Addr)
  /-- `IS_OID_REL(flags)` -/
  oid : Bool
  buffer : Buffer

structure Cursor where
  cur : Option Addr
  nextaccess : Option Addr

inductive PutFlags where
  /-- `0` -/
  | overwrite
  /-- `DB_APPEND` -/
  | append
  deriving DecidableEq

inductive GetFlags where
  | first | next | last | prev | current | set | getBoth | nextDup
  deriving DecidableEq

section

variable {n : Nat} {δ : Type}

def keyMem (mem : Addr → Tuple n δ) : KeyPtr n → Nat → Byte
  | .caller k, i => k.val.getD i 0
  | .tuple a, i => (mem a).key.val.getD i 0

/-- `mem` is what the slots hold before they are used. -/
def imRelCreate (mem : Addr → Tuple n δ) (oid indexed : Bool) : Rel n δ :=
  { mem, oid
    head := none
    hidx := if indexed then some hashNew else none
    buffer := { free := [], fresh := 0 } }

def imRelCursor : Cursor := { cur := none, nextaccess := none }

def Rel.modify (s : Rel n δ) (a : Addr) (f : Tuple n δ → Tuple n δ) : Rel n δ :=
  { s with mem := Function.update s.mem a (f (s.mem a)) }

def Rel.setNext (s : Rel n δ) (a b : Addr) : Rel n δ := s.modify a fun t => { t with next := b }

def Rel.setPrev (s : Rel n δ) (a b : Addr) : Rel n δ := s.modify a fun t => { t with prev := b }

def Rel.setChain (s : Rel n δ) (a : Addr) (b : Option Addr) : Rel n δ :=
  s.modify a fun t => { t with hchain := b }

/-- `status |= TUPLE_TOMBSTONE` -/
def Rel.mark (s : Rel n δ) (a : Addr) : Rel n δ := s.modify a fun t => { t with deleted := true }

def Rel.next (s : Rel n δ) (a : Addr) : Addr := (s.mem a).next

def Rel.prev (s : Rel n δ) (a : Addr) : Addr := (s.mem a).prev

def Rel.hchain (s : Rel n δ) (a : Addr) : Option Addr := (s.mem a).hchain

/-- `!(IS_OID_REL(flags) && TUPLE_DELETED(status))` -/
def Rel.live (s : Rel n δ) (a : Addr) : Bool := !(s.oid && (s.mem a).deleted)

def Rel.keyIs (s : Rel n δ) (key : Key n) (a : Addr) : Bool := (s.mem a).key = key

/-- Passes enough for a loop over the list or over a chain. -/
def Rel.fuel (s : Rel n δ) : Nat := s.buffer.fresh

def Rel.hashFind (s : Rel n δ) (ht : HashControl (KeyPtr n) Addr) (key : Key n) :
    Except Fault (Rel n δ × Option Addr) := do
  let (ht, cur) ← ImDb.hashFind (keyMem s.mem) ht (.caller key) n
  return ({ s with hidx := some ht }, cur)

/-- The tuple that a put with flags `0` is to overwrite. -/
def Rel.overwritten (s : Rel n δ) (key : Key n) : Except Fault (Option Addr) :=
  match s.head with
  | none => .ok none
  | some head =>
    walk .loop (fun a => !(s.live a && s.keyIs key a)) (stepUntil s.next (s.prev head)) s.fuel
      (some head)

def Rel.fill (s : Rel n δ) (cur : Addr) (key : Key n) (data : δ) : Rel n δ :=
  s.modify cur fun t => { t with key, data, deleted := false, hchain := none }

def Rel.link (s : Rel n δ) (cur : Addr) : Rel n δ :=
  match s.head with
  | none => { (s.setPrev cur cur).setNext cur cur with head := some cur }
  | some head =>
    (((s.setPrev cur (s.prev head)).setNext (s.prev head) cur).setNext cur head).setPrev head cur

/-- The index gets `cur` in front of the chain of its key. -/
def Rel.index (s : Rel n δ) (ht : HashControl (KeyPtr n) Addr) (cur : Addr) (key : Key n) :
    Except Fault (Rel n δ) := do
  let (ht, oldEntry) ← ImDb.hashFind (keyMem s.mem) ht (.caller key) n
  match oldEntry with
  | some old =>
    let (ht, _) ← hashReplace (keyMem s.mem) ht (.tuple cur) n cur
    return { s.setChain cur (some old) with hidx := some ht }
  | none =>
    let (ht, _) ← hashInsert (keyMem s.mem) ht (.tuple cur) n cur
    return { s with hidx := some ht }

/-- Without an index, the last tuple before `cur` with its key is chained to it. -/
def Rel.chain (s : Rel n δ) (cur : Addr) (key : Key n) : Except Fault (Rel n δ) :=
  match s.head with
  | none => .ok s
  | some head =>
    if cur = head then .ok s
    else do
      let p ← walk .loop (fun a => !s.keyIs key a) (stepUntil s.prev head) s.fuel
        (some (s.prev cur))
      match p with
      | none => return s
      | some p => return s.setChain p (some cur)

def newSlot (s : Rel n δ) : Addr := (allocateBuffer s.buffer).1

def Rel.append (s : Rel n δ) (key : Key n) (data : δ) : Rel n δ :=
  (({ s with buffer := (allocateBuffer s.buffer).2 } : Rel n δ).fill (newSlot s) key data).link
    (newSlot s)

/-- The part of `im_rel_put` that appends. -/
def Rel.putLast (s : Rel n δ) (key : Key n) (data : δ) : Except Fault (Rel n δ) :=
  match s.hidx with
  | some ht => (s.append key data).index ht (newSlot s) key
  | none => (s.append key data).chain (newSlot s) key

def imRelPut (s : Rel n δ) (key : Key n) (data : δ) (flags : PutFlags) :
    Except Fault (Rel n δ) := do
  match ← (match flags with
    | .overwrite => s.overwritten key
    | .append => .ok none) with
  | some _ => .error .badFree
  | none => s.putLast key data

def Rel.listNext (s : Rel n δ) (head a : Addr) : Option Addr := stepBefore s.next head a

/-- Where `DB_NEXT` starts. -/
def Rel.nextFrom (s : Rel n δ) (head : Addr) : Option Addr → Option Addr
  | none => some head
  | some a => s.listNext head a

def Rel.skipDeleted (s : Rel n δ) (step : Addr → Option Addr) (cur : Option Addr) :
    Except Fault (Option Addr) :=
  walk .loop (fun a => !s.live a) step s.fuel cur

/-- The loops of `DB_SET` and `DB_NEXT_DUP` without an index. Their test compares the key of
`cur` also when `cur` is `NULL`. -/
def Rel.seekKey (s : Rel n δ) (head : Addr) (key : Key n) (cur : Option Addr) :
    Except Fault (Option Addr) := do
  match ← walk .loop (fun a => !s.live a || !s.keyIs key a) (s.listNext head) s.fuel cur with
  | none => .error .nullPtr
  | some a => return some a

/-- What `DB_LAST` and `DB_PREV` leave in `nextaccess`. -/
def Rel.prevAccess (s : Rel n δ) (head a : Addr) : Option Addr :=
  if s.next a = s.prev head then none else some (s.prev a)

def Rel.cursorMove [DecidableEq δ] (s : Rel n δ) (c : Cursor) (head : Addr) (key : Key n)
    (data : δ) : GetFlags → Except Fault (Rel n δ × Cursor)
  | .first => do
    let cur ← s.skipDeleted (s.listNext head) (some head)
    return (s, { cur, nextaccess := cur.bind (s.listNext head) })
  | .next => do
    let cur ← s.skipDeleted (s.listNext head) (s.nextFrom head c.cur)
    return (s, { cur, nextaccess := cur.bind (s.listNext head) })
  | .last => do
    let cur ← s.skipDeleted (stepBefore s.prev (s.prev head)) (some (s.prev head))
    return (s, { cur, nextaccess := cur.bind (s.prevAccess head) })
  | .prev => do
    let cur ← s.skipDeleted (stepBefore s.prev (s.prev head)) c.nextaccess
    return (s, { cur, nextaccess := cur.bind (s.prevAccess head) })
  | .current =>
    if s.oid && c.cur.isNone then .error .nullPtr
    else return (s, c)
  | .set =>
    match s.hidx with
    | some ht => do
      let (s, cur) ← s.hashFind ht key
      let cur ← s.skipDeleted s.hchain cur
      return (s, { cur, nextaccess := cur.bind s.hchain })
    | none => do
      let cur ← s.seekKey head key (some head)
      return (s, { cur, nextaccess := cur.bind (s.listNext head) })
  | .getBoth =>
    match s.hidx with
    | some ht => do
      let (s, cur) ← s.hashFind ht key
      let cur ← walk .loop (fun a => !s.live a || (s.mem a).data ≠ data) s.hchain s.fuel cur
      return (s, { cur, nextaccess := cur.bind s.hchain })
    | none => do
      let cur ← walk .loop (fun a => !s.live a || (s.mem a).data ≠ data || !s.keyIs key a)
        (s.listNext head) s.fuel (some head)
      return (s, { cur, nextaccess := cur.bind (s.listNext head) })
  | .nextDup =>
    match s.hidx with
    | some _ => do
      let cur ← s.skipDeleted s.hchain c.nextaccess
      return (s, { cur, nextaccess := cur.bind s.hchain })
    | none => do
      let cur ← s.seekKey head key c.nextaccess
      return (s, { cur, nextaccess := cur.bind (s.listNext head) })

/-- The tuple found, with its data and its address as the OID, or `DB_NOTFOUND`. -/
def imRelCursorGet [DecidableEq δ] (s : Rel n δ) (c : Cursor) (key : Key n) (data : δ)
    (flags : GetFlags) : Except Fault (Rel n δ × Cursor × Option (Key n × δ × Addr)) :=
  match s.head with
  | none => .ok (s, c, none)
  | some head => do
    let (s, c) ← s.cursorMove c head key data flags
    return (s, c, c.cur.map fun a => ((s.mem a).key, (s.mem a).data, a))

/-- `DB_CURRENT`; `false` is `DB_NOTFOUND`. -/
def imRelCursorPut (s : Rel n δ) (c : Cursor) (data : δ) : Rel n δ × Bool :=
  match c.cur with
  | none => (s, false)
  | some a => (s.modify a fun t => { t with data }, true)

def Rel.bypass (s : Rel n δ) (cur : Addr) : Rel n δ :=
  (s.setNext (s.prev cur) (s.next cur)).setPrev (s.next cur) (s.prev cur)

/-- The list without `cur`, and what becomes of the cursor. -/
def Rel.unlink (s : Rel n δ) (c : Cursor) (cur : Addr) : Rel n δ × Cursor :=
  if s.head = some cur then
    if s.next cur = cur then ({ s with head := none }, c)
    else
      ({ s.bypass cur with head := some (s.next cur), buffer := freeBuffer s.buffer cur },
        { c with cur := none })
  else ({ s.bypass cur with buffer := freeBuffer s.buffer cur }, c)

def Rel.unindex (s : Rel n δ) (ht : HashControl (KeyPtr n) Addr) (cur : Addr) :
    Except Fault (Rel n δ) := do
  let (ht, oldEntry) ← ImDb.hashFind (keyMem s.mem) ht (.tuple cur) n
  match oldEntry with
  | none => .error .exit
  | some old =>
    if old = cur then
      match s.hchain cur with
      | some next =>
        let (ht, _) ← hashReplace (keyMem s.mem) ht (.tuple next) n next
        return { s with hidx := some ht }
      | none =>
        let (ht, value) ← hashDelete (keyMem s.mem) ht (.tuple cur) n
        match value with
        | none => .error .exit
        | some _ => return { s with hidx := some ht }
    else
      match ← walk .loop (fun a => (s.hchain a).isSome && s.hchain a ≠ some cur) s.hchain s.fuel
        (some old) with
      | none => .error .exit
      | some b => return { s.setChain b (s.hchain cur) with hidx := some ht }

/-- A tuple of an OID relation gets a tombstone, and the cursor goes on to the next one that has
none. -/
def Rel.tombstone (s : Rel n δ) (c : Cursor) (cur : Addr) : Except Fault (Rel n δ × Cursor) :=
  match s.head with
  | none => .error .loop
  | some head => do
    let next ← walk .loop (fun a => ((s.mark cur).mem a).deleted) (s.listNext head) s.fuel
      (s.listNext head cur)
    return (s.mark cur, { c with cur := next })

/-- `false` is `DB_NOTFOUND`. -/
def imRelCursorDel (s : Rel n δ) (c : Cursor) : Except Fault (Rel n δ × Cursor × Bool) :=
  match c.cur with
  | none => .ok (s, c, false)
  | some cur =>
    if s.oid then do
      let (s, c) ← s.tombstone c cur
      return (s, c, true)
    else do
      let (s, c) := s.unlink c cur
      match s.hidx with
      | none => return (s, c, true)
      | some ht =>
        let s ← s.unindex ht cur
        return (s, c, true)

/-- `im_rel_get` with flags `0`; `none` is `DB_NOTFOUND`. -/
def imRelGet (s : Rel n δ) (key : Key n) : Except Fault (Rel n δ × Option δ) :=
  match s.head with
  | none => .ok (s, none)
  | some head =>
    match s.hidx with
    | some ht => do
      let (s, cur) ← s.hashFind ht key
      let cur ← s.skipDeleted s.hchain cur
      return (s, cur.map fun a => (s.mem a).data)
    | none => do
      let cur ← walk .loop (fun a => !(s.live a && s.keyIs key a)) (s.listNext head) s.fuel
        (some head)
      return (s, cur.map fun a => (s.mem a).data)

def imRelGetBoth [DecidableEq δ] (s : Rel n δ) (key : Key n) (data : δ) :
    Except Fault (Rel n δ × Bool) :=
  match s.head with
  | none => .ok (s, false)
  | some head =>
    match s.hidx with
    | some ht => do
      let (s, cur) ← s.hashFind ht key
      let cur ← walk .loop (fun a => !(s.live a && (s.mem a).data = data)) s.hchain s.fuel cur
      return (s, cur.isSome)
    | none => do
      let cur ← walk .loop (fun a => !(s.live a && s.keyIs key a && (s.mem a).data = data))
        (s.listNext head) s.fuel (some head)
      return (s, cur.isSome)

/-- What `im_rel_del` does with a tuple of the key: a tombstone, or out of the list with it
unless it is the head. The slot is not given back. -/
def Rel.delTuple (s : Rel n δ) (cur : Addr) : Rel n δ :=
  if s.oid then s.mark cur
  else if s.head = some cur then s
  else s.bypass cur

/-- One pass of the loop of `im_rel_del`. -/
def Rel.delStep (s : Rel n δ) (key : Key n) (cur : Addr) : Rel n δ :=
  if s.keyIs key cur then s.delTuple cur else s

/-- The loop of `im_rel_del` from `cur` on; `ret` counts the tuples deleted. -/
def delLoop (key : Key n) (head : Addr) :
    Nat → Addr → Rel n δ → Nat → Except Fault (Rel n δ × Nat)
  | 0, _, _, _ => .error .loop
  | fuel + 1, cur, s, ret =>
    if (s.delStep key cur).next cur = head then
      .ok (s.delStep key cur, if s.keyIs key cur then ret + 1 else ret)
    else
      delLoop key head fuel ((s.delStep key cur).next cur) (s.delStep key cur)
        (if s.keyIs key cur then ret + 1 else ret)

def Rel.delHead (s : Rel n δ) (head : Addr) : Rel n δ :=
  if s.next head = head then { s with head := none }
  else { s.bypass head with head := some (s.next head) }

/-- `free` of a slot. Memory comes a page of 256 slots at a time, so only the first slot of a page
can be freed; the page then holds `junk`. -/
def Rel.free (s : Rel n δ) (junk : Addr → Tuple n δ) (a : Addr) : Except Fault (Rel n δ) :=
  if a % 256 = 0 then
    .ok { s with mem := fun b => if b / 256 = a / 256 then junk b else s.mem b }
  else .error .badFree

/-- `false` is `DB_NOTFOUND`. The loop meets the head once, so `head_deleted` is what it finds
there. -/
def imRelDel (s : Rel n δ) (junk : Addr → Tuple n δ) (key : Key n) :
    Except Fault (Rel n δ × Bool) :=
  match s.head with
  | none => .ok (s, false)
  | some head => do
    let (s', ret) ← delLoop key head s.fuel head s 0
    if !s.oid && s.keyIs key head then
      let s' ← (s'.delHead head).free junk head
      return (s', 0 < ret)
    else return (s', 0 < ret)

end

end StreamMill.ImDb
