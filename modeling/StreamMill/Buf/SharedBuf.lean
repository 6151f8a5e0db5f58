import StreamMill.ImDb.Hash
import Mathlib.Data.List.Nodup

/-!
# StreamMill.Buf.SharedBuf

The buffer in shared memory of `buffer.cc` and its tuples (`dbt.cc`). A `sharedBuf` is a linked
list of `sDBT`s with a head, a tail and a count; `tail` is left as it is when the list runs empty.
A field that no code has set is `wild`. What `mm_malloc` returns is given to every call, and the
calls of `mm_lock` and `mm_unlock` are listed beside the result.
-/

namespace StreamMill.Buf

open ImDb (Byte)

/-- Where the source goes wrong instead of returning. -/
inductive BufFault where
  | nullPtr
  /-- A pointer that was not set, or to memory that was freed. -/
  | wildPtr
  | overflow
  /-- `new` throws. -/
  | badAlloc
  deriving DecidableEq, Repr

@[simp] theorem bufOk_bind {α β : Type} (a : α) (f : α → Except BufFault β) :
    (Except.ok a >>= f) = f a := rfl

/-- `mm_lock(dbt_mm, MM_LOCK_RW)` and `mm_unlock(dbt_mm)`. -/
inductive LockOp where
  | lock
  | unlock
  deriving DecidableEq, Repr

inductive BufRc where
  | ok
  /-- `DB_NOTFOUND` -/
  | notFound
  /-- `ERR_BUFFER` -/
  | errBuffer
  deriving DecidableEq, Repr

structure Timestamp where
  sec : Int
  usec : Int
  deriving DecidableEq, Repr

inductive Ptr (β : Type) where
  | wild
  | null
  | ref (b : β)
  deriving DecidableEq

/-- `dbt`: a pointer to a buffer is the bytes of the buffer. -/
structure Dbt where
  keysz : Int
  datasz : Int
  key : Option (List Byte)
  data : Option (List Byte)
  atime : Option Timestamp
  deriving DecidableEq

/-- `DBT`; its size fits an `int`. -/
structure DBT where
  data : List Byte
  size : Nat
  deriving DecidableEq

abbrev ShmAddr := Nat

structure SDbt where
  keysz : Int
  datasz : Int
  key : Ptr (List Byte)
  data : Ptr (List Byte)
  atime : Ptr Timestamp
  next : Ptr ShmAddr

/-- What `mm_malloc` returns for a node and for its parts; `junk` is what its memory holds. -/
structure Mallocs where
  node : Option ShmAddr
  key : Bool
  data : Bool
  atime : Bool
  junk : Nat → Byte

def memcpy (dst src : List Byte) (n : Nat) : Except BufFault (List Byte) :=
  if n ≤ src.length ∧ n ≤ dst.length then .ok (src.take n ++ dst.drop n) else .error .overflow

/-- A part of `sDBT::init`: a block of `sz` bytes with the bytes at `src`; `none` if there is no
memory for it. -/
def initBytes (malloc : Bool) (junk : Nat → Byte) (src : Option (List Byte)) (sz : Int) :
    Except BufFault (Option (Ptr (List Byte))) :=
  if 0 < sz then
    if malloc then
      match src with
      | some k => do
        let block ← memcpy ((List.range sz.toNat).map junk) k sz.toNat
        return some (.ref block)
      | none => return some (.ref ((List.range sz.toNat).map junk))
    else return none
  else return some .null

/-- Without memory for a part, the fields that come after it are not set. -/
def SDbt.init (m : Mallocs) (d : Option (List Byte)) (dsz : Int) (a : Option Timestamp)
    (k : Option (List Byte)) (ksz : Int) : Except BufFault SDbt := do
  match ← initBytes m.key m.junk k ksz with
  | none => return ⟨ksz, dsz, .null, .wild, .wild, .wild⟩
  | some key =>
    match ← initBytes m.data m.junk d dsz with
    | none => return ⟨ksz, dsz, key, .null, .wild, .wild⟩
    | some data =>
      match a with
      | none => return ⟨ksz, dsz, key, data, .null, .null⟩
      | some t =>
        if m.atime then return ⟨ksz, dsz, key, data, .ref t, .null⟩
        else return ⟨ksz, dsz, key, data, .null, .wild⟩

/-- `mem` are the nodes of the buffer in the shared memory. -/
structure SharedBuf where
  head : Ptr ShmAddr
  tail : Ptr ShmAddr
  n : Int
  mem : ShmAddr → Option SDbt

def newSharedBuf : SharedBuf := { head := .null, tail := .null, n := 0, mem := fun _ => none }

def SharedBuf.deref (s : SharedBuf) : Ptr ShmAddr → Except BufFault (ShmAddr × SDbt)
  | .wild => .error .wildPtr
  | .null => .error .nullPtr
  | .ref p =>
    match s.mem p with
    | none => .error .wildPtr
    | some sdbt => .ok (p, sdbt)

/-- The part of `put` under the lock. -/
def SharedBuf.link (s : SharedBuf) (p : ShmAddr) : Except BufFault SharedBuf :=
  if s.n = 0 then .ok { s with head := .ref p, tail := .ref p, n := s.n + 1 }
  else do
    let (last, sdbt) ← s.deref s.tail
    return { s with
      tail := .ref p
      n := s.n + 1
      mem := Function.update s.mem last (some { sdbt with next := .ref p }) }

/-- Both `put`s: the tuple is made by `init` before the lock is taken. -/
def SharedBuf.putNode (s : SharedBuf) (node : Option ShmAddr) (init : Except BufFault SDbt) :
    Except BufFault (SharedBuf × BufRc × List LockOp) :=
  match node with
  | none => .ok (s, .errBuffer, [.unlock])
  | some p => do
    let sdbt ← init
    let s ← SharedBuf.link { s with mem := Function.update s.mem p (some sdbt) } p
    return (s, .ok, [.lock, .unlock])

/-- `put(DBT *d, timestamp *atime, DBT *k)` -/
def SharedBuf.putDBT (s : SharedBuf) (m : Mallocs) (d : DBT) (atime : Option Timestamp)
    (k : Option DBT) : Except BufFault (SharedBuf × BufRc × List LockOp) :=
  s.putNode m.node
    (match k with
    | none => .error .nullPtr
    | some k => SDbt.init m (some d.data) d.size atime (some k.data) k.size)

/-- `put(dbt *d)` -/
def SharedBuf.put (s : SharedBuf) (m : Mallocs) (d : Dbt) :
    Except BufFault (SharedBuf × BufRc × List LockOp) :=
  s.putNode m.node (SDbt.init m d.data d.datasz d.atime d.key d.keysz)

def SharedBuf.empty (s : SharedBuf) : Bool := s.n = 0 ∨ s.head = .null

def SharedBuf.bufSize (s : SharedBuf) : Int := s.n

def freePart {β : Type} : Ptr β → Except BufFault Unit
  | .wild => .error .wildPtr
  | _ => .ok ()

def SDbt.destroy (sdbt : SDbt) : Except BufFault Unit := do
  freePart sdbt.key
  freePart sdbt.data
  freePart sdbt.atime

def SharedBuf.pop (s : SharedBuf) : Except BufFault (SharedBuf × BufRc × List LockOp) :=
  if s.empty then .ok (s, .errBuffer, [])
  else do
    let (p, sdbt) ← s.deref s.head
    sdbt.destroy
    return ({ s with head := sdbt.next, n := s.n - 1, mem := Function.update s.mem p none },
      .ok, [.lock, .unlock])

/-- `dbt::copy` of a field into the receiver's buffer; without one, only the key is still copied. -/
def copyField (isKey : Bool) (dst : Option (List Byte)) (src : Ptr (List Byte)) (sz : Int) :
    Except BufFault (Option (List Byte)) :=
  if 0 < sz then
    match src, dst with
    | .wild, _ => .error .wildPtr
    | .null, _ => .ok dst
    | .ref _, none => if isKey then .error .nullPtr else .ok none
    | .ref src, some dst => do
      let bytes ← memcpy dst src sz.toNat
      return some bytes
  else .ok dst

def copyTime (dst : Option Timestamp) : Ptr Timestamp → Except BufFault (Option Timestamp)
  | .wild => .error .wildPtr
  | .null => .ok dst
  | .ref t => .ok (dst.map fun _ => t)

def Dbt.copy (r : Dbt) (d : SDbt) : Except BufFault Dbt := do
  let key ← copyField true r.key d.key d.keysz
  let data ← copyField false r.data d.data d.datasz
  let atime ← copyTime r.atime d.atime
  return { keysz := d.keysz, datasz := d.datasz, key, data, atime }

/-- `get(dbt *d)` -/
def SharedBuf.get (s : SharedBuf) (d : Dbt) : Except BufFault (Dbt × BufRc) :=
  if s.empty then .ok (d, .notFound)
  else do
    let (_, sdbt) ← s.deref s.head
    let d ← d.copy sdbt
    return (d, .ok)

/-- The arguments of `get(DBT *d, timestamp *a, DBT *k)`. -/
structure GetArgs where
  d : Option DBT
  a : Option Timestamp
  k : Option DBT
  deriving DecidableEq

/-- The `data` of a receiving `DBT`. -/
def getData (d : DBT) (sdbt : SDbt) : Except BufFault DBT :=
  match sdbt.data with
  | .wild => .error .wildPtr
  | .null => .ok { d with size := sdbt.datasz.toNat }
  | .ref block => do
    let bytes ← memcpy d.data block sdbt.datasz.toNat
    return { data := bytes, size := sdbt.datasz.toNat }

def getOptData (sdbt : SDbt) : Option DBT → Except BufFault (Option DBT)
  | none => .ok none
  | some d => do
    let d ← getData d sdbt
    return some d

def getAtime (a : Option Timestamp) : Ptr Timestamp → Except BufFault (Option Timestamp)
  | .wild => .error .wildPtr
  | .null => .ok a
  | .ref t =>
    match a with
    | none => .error .nullPtr
    | some _ => .ok (some t)

/-- `sDBT::get`; what it did with `k` is commented out. -/
def SDbt.get (sdbt : SDbt) (args : GetArgs) : Except BufFault GetArgs := do
  let d ← getOptData sdbt args.d
  let a ← getAtime args.a sdbt.atime
  return { args with d, a }

def SharedBuf.getDBT (s : SharedBuf) (args : GetArgs) : Except BufFault (GetArgs × BufRc) :=
  if s.empty then .ok (args, .notFound)
  else do
    let (_, sdbt) ← s.deref s.head
    let args ← sdbt.get args
    return (args, .ok)

def maxStrLen : Nat := 40960

def stackBuf (junk : Nat → Byte) : DBT := ⟨(List.range maxStrLen).map junk, 0⟩

/-- `get(timestamp *atime)`: the data go into a buffer of the stack, which holds `junk`. -/
def SharedBuf.getTimestamp (s : SharedBuf) (junk : Nat → Byte) (atime : Option Timestamp) :
    Except BufFault (Option Timestamp × BufRc) := do
  let (args, rc) ← s.getDBT ⟨some (stackBuf junk), atime, some (stackBuf junk)⟩
  return (args.a, rc)

end StreamMill.Buf
