import Mathlib.Algebra.Order.Ring.Nat
import Mathlib.Data.List.Basic
import Mathlib.Logic.Function.Basic

/-!
# StreamMill.ImDb.Hash

The hash table of `hash-arbitrary.c`: open addressing with linear probing, deleted slots that are
passed over by later probes, and growth by doubling. A slot holds the address of a key, not the
key, so every operation reads memory, `mem p i` being byte `i` from address `p` on. The access
statistics are left out.
-/

namespace StreamMill.ImDb

/-- `char`, which is signed. -/
abbrev Byte := BitVec 8

/-- Where the source goes wrong instead of returning. -/
inductive Fault where
  | nullPtr
  | badFree
  /-- The source prints an error and exits. -/
  | exit
  | noMemory
  /-- Not a fault of the source: a loop was given too few passes. -/
  | loop
  deriving DecidableEq, Repr

@[simp] theorem ok_bind {α β : Type} (a : α) (f : α → Except Fault β) :
    (Except.ok a >>= f) = f a := rfl

def bytes {ρ : Type} (mem : ρ → Nat → Byte) (p : ρ) (n : Nat) : List Byte :=
  (List.range n).map (mem p)

inductive HashKey (ρ : Type) where
  /-- `NULL`: the slot was never used. -/
  | null
  /-- `DELETED` -/
  | deleted
  | key (p : ρ)
  deriving DecidableEq

structure HashEntry (ρ ν : Type) where
  hashKey : HashKey ρ
  keySize : Nat
  hashValue : ν
  h : BitVec 32

structure HashControl (ρ ν : Type) where
  hashWhere : Nat → HashEntry ρ ν
  hashSizelog : Nat
  hashFull : Nat
  statUsed : Nat

def startPower : Nat := 10

def fullValue (n : Nat) : Nat := n / 2

section

variable {ρ ν : Type}

def HashControl.statSize (c : HashControl ρ ν) : Nat := 2 ^ c.hashSizelog

def HashControl.setSlot (c : HashControl ρ ν) (slot : Nat) (e : HashEntry ρ ν) :
    HashControl ρ ν :=
  { c with hashWhere := Function.update c.hashWhere slot e }

def emptyTable [Inhabited ν] (sizelog : Nat) (full : Nat) : HashControl ρ ν :=
  { hashWhere := fun _ => ⟨.null, 0, default, 0⟩
    hashSizelog := sizelog
    hashFull := full
    statUsed := 0 }

def hashNew [Inhabited ν] : HashControl ρ ν := emptyTable startPower (fullValue (2 ^ startPower))

/-- `long` is four bytes. -/
def hashCode (sizelog : Nat) (key : List Byte) : BitVec 32 :=
  key.foldl (fun h b =>
    let c := b.signExtend 32
    let h := h + c
    (h <<< 3) + h.sshiftRight (sizelog - 3) + c) 0

variable [DecidableEq ρ]

def hashHit (mem : ρ → Nat → Byte) (hcode : BitVec 32) (key : ρ) (n : Nat) (e : HashEntry ρ ν)
    (s : ρ) : Bool :=
  key = s || (e.h = hcode && bytes mem key n = bytes mem s n)

/-- The loop of `hash_ask`, at most once around the table. -/
def hashAskLoop (c : HashControl ρ ν) (hit : HashEntry ρ ν → ρ → Bool) :
    Nat → Nat → Option Nat → Option Nat × Bool
  | 0, _, ought => (ought, false)
  | fuel + 1, slot, ought =>
    match (c.hashWhere slot).hashKey with
    | .null => (ought.or (some slot), false)
    | .deleted => hashAskLoop c hit fuel ((slot + 1) % c.statSize) (ought.or (some slot))
    | .key s =>
      if hit (c.hashWhere slot) s then (some slot, true)
      else hashAskLoop c hit fuel ((slot + 1) % c.statSize) ought

/-- The slot where the key is or should go, and `hash_found`. -/
def hashAsk (mem : ρ → Nat → Byte) (c : HashControl ρ ν) (key : ρ) (n : Nat) :
    Except Fault (HashControl ρ ν × Nat × Bool) :=
  let hcode := hashCode c.hashSizelog (bytes mem key n)
  match hashAskLoop c (hashHit mem hcode key n) c.statSize (hcode.toNat % c.statSize) none with
  | (some slot, true) => .ok (c, slot, true)
  | (some slot, false) => .ok (c.setSlot slot { c.hashWhere slot with h := hcode }, slot, false)
  | (none, _) => .error .nullPtr

def hashFind (mem : ρ → Nat → Byte) (c : HashControl ρ ν) (key : ρ) (n : Nat) :
    Except Fault (HashControl ρ ν × Option ν) := do
  let (c, slot, found) ← hashAsk mem c key n
  return (c, if found then some (c.hashWhere slot).hashValue else none)

def hashDelete (mem : ρ → Nat → Byte) (c : HashControl ρ ν) (key : ρ) (n : Nat) :
    Except Fault (HashControl ρ ν × Option ν) := do
  let (c, slot, found) ← hashAsk mem c key n
  if found then
    let e := c.hashWhere slot
    return ({ c.setSlot slot { e with hashKey := .deleted } with statUsed := c.statUsed - 1 },
      some e.hashValue)
  else return (c, none)

def hashReplace (mem : ρ → Nat → Byte) (c : HashControl ρ ν) (key : ρ) (n : Nat) (value : ν) :
    Except Fault (HashControl ρ ν × Option ν) := do
  let (c, slot, found) ← hashAsk mem c key n
  if found then
    let e := c.hashWhere slot
    return (c.setSlot slot { e with hashValue := value, hashKey := .key key }, some e.hashValue)
  else return (c, none)

def hashJamRoom (mem : ρ → Nat → Byte) (c : HashControl ρ ν) (key : ρ) (n : Nat) (value : ν) :
    Except Fault (HashControl ρ ν) := do
  let (c, slot, found) ← hashAsk mem c key n
  let e := c.hashWhere slot
  if found then return c.setSlot slot { e with hashValue := value }
  else
    return { c.setSlot slot { e with hashKey := .key key, keySize := n, hashValue := value } with
      statUsed := c.statUsed + 1 }

/-- Slot `track` of the old table, put into the new one, which is never found too full; if it were,
the call would not return (`loop`). -/
def hashGrowStep (mem : ρ → Nat → Byte) (old new : HashControl ρ ν) (track : Nat) :
    Except Fault (HashControl ρ ν) :=
  let e := old.hashWhere track
  match e.hashKey with
  | .key p =>
    if new.statUsed > new.hashFull then .error .loop
    else hashJamRoom mem new p e.keySize e.hashValue
  | _ => .ok new

def hashGrow [Inhabited ν] (mem : ρ → Nat → Byte) (c : HashControl ρ ν) :
    Except Fault (HashControl ρ ν) :=
  (List.range c.statSize).foldlM (hashGrowStep mem c)
    (emptyTable (c.hashSizelog + 1) (c.hashFull * 2))

def hashGrowIfFull [Inhabited ν] (mem : ρ → Nat → Byte) (c : HashControl ρ ν) :
    Except Fault (HashControl ρ ν) :=
  if c.statUsed > c.hashFull then hashGrow mem c else .ok c

/-- The error `"exists"` is `false`. -/
def hashInsert [Inhabited ν] (mem : ρ → Nat → Byte) (c : HashControl ρ ν) (key : ρ) (n : Nat)
    (value : ν) : Except Fault (HashControl ρ ν × Bool) := do
  let c ← hashGrowIfFull mem c
  let (c, slot, found) ← hashAsk mem c key n
  if found then return (c, false)
  else
    let e := { c.hashWhere slot with hashValue := value, hashKey := .key key, keySize := n }
    return ({ c.setSlot slot e with statUsed := c.statUsed + 1 }, true)

def hashJam [Inhabited ν] (mem : ρ → Nat → Byte) (c : HashControl ρ ν) (key : ρ) (n : Nat)
    (value : ν) : Except Fault (HashControl ρ ν) := do
  let c ← hashGrowIfFull mem c
  hashJamRoom mem c key n value

end

end StreamMill.ImDb
