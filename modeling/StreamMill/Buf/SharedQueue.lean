import StreamMill.Buf.SharedBuf
import StreamMill.Lib.Loop

/-!
# StreamMill.Buf.SharedQueue

A `sharedBuf` is a first-in first-out queue. `SharedBuf.Holds` says which tuples it holds, and at
which nodes; nothing is said of `head` and `tail` when there are none. A put that has memory for
its node but not for a part of the tuple is left out (`Fits`).
-/

namespace StreamMill.Buf

open ImDb (Byte)
open Lib

structure BufTuple where
  key : List Byte
  data : List Byte
  atime : Option Timestamp
  deriving DecidableEq

/-- A part of a tuple: an empty one has no block. -/
def part (b : List Byte) : Ptr (List Byte) := if b = [] then .null else .ref b

def timePart : Option Timestamp → Ptr Timestamp
  | none => .null
  | some t => .ref t

structure SDbt.Stores (c : SDbt) (t : BufTuple) : Prop where
  keysz : c.keysz = t.key.length
  datasz : c.datasz = t.data.length
  key : c.key = part t.key
  data : c.data = part t.data
  atime : c.atime = timePart t.atime

def fieldOf (src : Option (List Byte)) (sz : Int) : List Byte := (src.getD []).take sz.toNat

def FieldOk (src : Option (List Byte)) (sz : Int) : Prop := ((fieldOf src sz).length : Int) = sz

structure Mallocs.Enough (m : Mallocs) (t : BufTuple) : Prop where
  key : t.key ≠ [] → m.key = true
  data : t.data ≠ [] → m.data = true
  atime : t.atime.isSome → m.atime = true

theorem initBytes_ok {malloc : Bool} {junk : Nat → Byte} {src : Option (List Byte)} {sz : Int}
    (h : FieldOk src sz) (hm : fieldOf src sz ≠ [] → malloc = true) :
    initBytes malloc junk src sz = .ok (some (part (fieldOf src sz))) := by
  by_cases hsz : 0 < sz
  · have hlen : (fieldOf src sz).length = sz.toNat := by
      rw [FieldOk] at h
      omega
    have hne : fieldOf src sz ≠ [] := by
      rw [← List.length_pos_iff]
      omega
    cases src with
    | none => simp [fieldOf] at hne
    | some k =>
      have hk : (fieldOf (some k) sz) = k.take sz.toNat := rfl
      have hroom : sz.toNat ≤ k.length := by
        rw [hk, List.length_take] at hlen
        omega
      have hcopy : memcpy ((List.range sz.toNat).map junk) k sz.toNat = .ok (k.take sz.toNat) := by
        rw [memcpy, if_pos (by simp [hroom])]
        simp
      unfold initBytes
      rw [if_pos hsz, if_pos (hm hne)]
      simp only [hcopy, bufOk_bind]
      rw [part, if_neg hne]
      rfl
  · have hnil : fieldOf src sz = [] := by
      rw [fieldOf, show sz.toNat = 0 by omega, List.take_zero]
    unfold initBytes
    rw [if_neg hsz, hnil]
    rfl

theorem init_ok {m : Mallocs} {d k : Option (List Byte)} {dsz ksz : Int} {a : Option Timestamp}
    (hd : FieldOk d dsz) (hk : FieldOk k ksz) (hm : m.Enough ⟨fieldOf k ksz, fieldOf d dsz, a⟩) :
    ∃ c, SDbt.init m d dsz a k ksz = .ok c ∧ c.Stores ⟨fieldOf k ksz, fieldOf d dsz, a⟩ ∧
      c.next = .null := by
  rw [SDbt.init, initBytes_ok hk hm.key]
  simp only [bufOk_bind, initBytes_ok hd hm.data]
  cases a with
  | none => exact ⟨_, rfl, ⟨hk.symm, hd.symm, rfl, rfl, rfl⟩, rfl⟩
  | some t =>
    have ht : m.atime = true := hm.atime rfl
    simp only [ht, if_true]
    exact ⟨_, rfl, ⟨hk.symm, hd.symm, rfl, rfl, rfl⟩, rfl⟩

def headOf : List (ShmAddr × BufTuple) → Ptr ShmAddr
  | [] => .null
  | (p, _) :: _ => .ref p

def Chain (mem : ShmAddr → Option SDbt) : List (ShmAddr × BufTuple) → Prop
  | [] => True
  | (p, t) :: q => (∃ c, mem p = some c ∧ c.Stores t ∧ c.next = headOf q) ∧ Chain mem q

structure SharedBuf.Holds (s : SharedBuf) (q : List (ShmAddr × BufTuple)) : Prop where
  n : s.n = q.length
  nodup : (q.map Prod.fst).Nodup
  head : q ≠ [] → s.head = headOf q
  tail : ∀ x, q.getLast? = some x → s.tail = .ref x.1
  chain : Chain s.mem q

variable {s s' : SharedBuf} {q : List (ShmAddr × BufTuple)} {p l : ShmAddr} {t tl : BufTuple}
  {c : SDbt} {mem : ShmAddr → Option SDbt}

theorem newSharedBuf_holds : newSharedBuf.Holds [] where
  n := rfl
  nodup := List.nodup_nil
  head := absurd rfl
  tail := fun x hx => by cases hx
  chain := trivial

theorem Chain.congr {mem' : ShmAddr → Option SDbt} (h : Chain mem q)
    (hmem : ∀ x ∈ q, mem' x.1 = mem x.1) : Chain mem' q := by
  induction q with
  | nil => trivial
  | cons x q ih =>
    obtain ⟨⟨c, hc, hrest⟩, hq⟩ := h
    exact ⟨⟨c, (hmem x List.mem_cons_self).trans hc, hrest⟩,
      ih hq fun y hy => hmem y (List.mem_cons_of_mem _ hy)⟩

theorem Chain.update (h : Chain mem q) (hp : p ∉ q.map Prod.fst) (o : Option SDbt) :
    Chain (Function.update mem p o) q :=
  h.congr fun x hx => Function.update_of_ne (fun he : x.1 = p => hp (by
    rw [← he]
    exact List.mem_map_of_mem hx)) _ _

theorem Chain.last (h : Chain mem (q ++ [(l, tl)])) : ∃ c, mem l = some c ∧ c.Stores tl := by
  induction q with
  | nil =>
    obtain ⟨⟨c, hc, hs, -⟩, -⟩ := h
    exact ⟨c, hc, hs⟩
  | cons x q ih => exact ih h.2

theorem headOf_concat (q : List (ShmAddr × BufTuple)) (l : ShmAddr) (tl : BufTuple)
    (q' : List (ShmAddr × BufTuple)) : headOf (q ++ (l, tl) :: q') = headOf (q ++ [(l, tl)]) := by
  cases q <;> rfl

theorem Chain.snoc (h : Chain mem (q ++ [(l, tl)])) (hnd : ((q ++ [(l, tl)]).map Prod.fst).Nodup)
    (hl : mem l = some c) (hp : ∃ c', mem p = some c' ∧ c'.Stores t ∧ c'.next = .null)
    (hpq : p ∉ (q ++ [(l, tl)]).map Prod.fst) :
    Chain (Function.update mem l (some { c with next := .ref p })) (q ++ [(l, tl), (p, t)]) := by
  induction q with
  | nil =>
    obtain ⟨⟨c₁, hc₁, hs, -⟩, -⟩ := h
    obtain ⟨c', hc', hs', hn'⟩ := hp
    have hne : p ≠ l := fun he => hpq (by simp [he])
    obtain rfl : c₁ = c := Option.some.inj (hc₁.symm.trans hl)
    refine ⟨⟨_, Function.update_self _ _ _, ⟨hs.keysz, hs.datasz, hs.key, hs.data, hs.atime⟩,
      rfl⟩, ⟨c', ?_, hs', hn'⟩, trivial⟩
    rw [Function.update_of_ne hne]
    exact hc'
  | cons x q ih =>
    obtain ⟨⟨cx, hcx, hsx, hnx⟩, hq⟩ := h
    rw [List.cons_append, List.map_cons, List.nodup_cons] at hnd
    rw [List.cons_append, List.map_cons, List.mem_cons, not_or] at hpq
    have hne : x.1 ≠ l := fun he => hnd.1 (by simp [he])
    refine ⟨⟨cx, ?_, hsx, ?_⟩, ih hq hnd.2 hpq.2⟩
    · rw [Function.update_of_ne hne]
      exact hcx
    · rw [hnx]
      exact (headOf_concat q l tl [(p, t)]).symm

theorem SharedBuf.link_holds (h : s.Holds q) (hp : p ∉ q.map Prod.fst) (hs : c.Stores t)
    (hn : c.next = .null) :
    ∃ s', SharedBuf.link { s with mem := Function.update s.mem p (some c) } p = .ok s' ∧
      s'.Holds (q ++ [(p, t)]) := by
  have hself : Function.update s.mem p (some c) p = some c := Function.update_self _ _ _
  have hupd := h.chain.update hp (some c)
  cases hq : q.getLast? with
  | none =>
    obtain rfl : q = [] := List.getLast?_eq_none_iff.mp hq
    have hzero : s.n = 0 := h.n
    refine ⟨_, if_pos hzero, ⟨?_, List.nodup_singleton p, fun _ => rfl, ?_,
      ⟨⟨c, hself, hs, hn⟩, trivial⟩⟩⟩
    · rw [hzero]
      rfl
    · rintro x hx
      cases hx
      rfl
  | some x =>
    obtain ⟨q', rfl⟩ := List.getLast?_eq_some_iff.mp hq
    obtain ⟨l, tl⟩ := x
    have htail : s.tail = .ref l := h.tail _ hq
    have hpos : ¬ s.n = 0 := by
      rw [h.n, List.length_append, List.length_singleton]
      omega
    obtain ⟨cl, hcl, -⟩ := hupd.last
    have hchain := hupd.snoc h.nodup hcl ⟨c, hself, hs, hn⟩ hp
    refine ⟨{ s with
      tail := .ref p
      n := s.n + 1
      mem := Function.update (Function.update s.mem p (some c)) l
        (some { cl with next := .ref p }) }, ?_, ⟨?_, ?_, ?_, ?_, ?_⟩⟩
    · rw [SharedBuf.link, if_neg hpos]
      simp only [SharedBuf.deref, htail, hcl, bufOk_bind]
      rfl
    · rw [h.n]
      simp only [List.length_append, List.length_singleton]
      omega
    · rw [List.map_append, List.nodup_append]
      refine ⟨h.nodup, List.nodup_singleton p, ?_⟩
      rintro a ha b hb rfl
      rw [List.mem_singleton.mp hb] at ha
      exact hp ha
    · intro _
      rw [h.head (by simp), List.append_assoc]
      exact (headOf_concat q' l tl [(p, t)]).symm
    · intro x hx
      rw [List.getLast?_concat] at hx
      cases hx
      rfl
    · rw [List.append_assoc]
      exact hchain

theorem SharedBuf.empty_of_nil (h : s.Holds []) : s.empty = true := by
  have hn : s.n = 0 := h.n
  simp [SharedBuf.empty, hn]

theorem SharedBuf.empty_of_cons (h : s.Holds ((p, t) :: q)) : s.empty = false := by
  have hn : s.n = q.length + 1 := h.n
  have hhead : s.head = .ref p := h.head (by simp)
  have hne : ¬ s.n = 0 := by omega
  simp [SharedBuf.empty, hne, hhead]

theorem SharedBuf.deref_head (h : s.Holds ((p, t) :: q)) :
    ∃ c, s.deref s.head = .ok (p, c) ∧ c.Stores t ∧ c.next = headOf q := by
  obtain ⟨⟨c, hc, hs, hn⟩, -⟩ := h.chain
  have hhead : s.head = .ref p := h.head (by simp)
  refine ⟨c, ?_, hs, hn⟩
  simp [SharedBuf.deref, hhead, hc]

theorem freePart_part (b : List Byte) : freePart (part b) = .ok () := by
  rw [part]
  split <;> rfl

theorem SDbt.Stores.destroy (h : c.Stores t) : c.destroy = .ok () := by
  rw [SDbt.destroy, h.key, h.data, h.atime, freePart_part, freePart_part]
  cases t.atime <;> rfl

theorem SharedBuf.pop_nil (h : s.Holds []) : s.pop = .ok (s, .errBuffer, []) := by
  rw [SharedBuf.pop, if_pos (empty_of_nil h)]

theorem SharedBuf.pop_cons (h : s.Holds ((p, t) :: q)) :
    ∃ s', s.pop = .ok (s', .ok, [.lock, .unlock]) ∧ s'.Holds q := by
  obtain ⟨c, hderef, hs, hn⟩ := deref_head h
  have hnd := h.nodup
  rw [List.map_cons, List.nodup_cons] at hnd
  refine ⟨{ s with head := c.next, n := s.n - 1, mem := Function.update s.mem p none }, ?_,
    ⟨?_, hnd.2, fun _ => hn, ?_, h.chain.2.update hnd.1 none⟩⟩
  · rw [SharedBuf.pop, if_neg (by rw [empty_of_cons h]; exact Bool.false_ne_true), hderef]
    simp only [bufOk_bind, hs.destroy]
    rfl
  · change s.n - 1 = _
    rw [h.n, List.length_cons]
    omega
  · intro x hx
    refine h.tail x ?_
    rw [List.getLast?_cons, hx]
    rfl

def Dbt.tuple (d : Dbt) : BufTuple := ⟨fieldOf d.key d.keysz, fieldOf d.data d.datasz, d.atime⟩

structure Dbt.Room (r : Dbt) (t : BufTuple) : Prop where
  key : t.key ≠ [] → ∃ b, r.key = some b ∧ t.key.length ≤ b.length
  data : t.data ≠ [] → ∃ b, r.data = some b ∧ t.data.length ≤ b.length
  atime : t.atime.isSome → r.atime.isSome

theorem memcpy_ok {dst src : List Byte} {n : Nat} (hs : n = src.length) (hd : n ≤ dst.length) :
    memcpy dst src n = .ok (src ++ dst.drop n) := by
  rw [memcpy, if_pos ⟨hs.le, hd⟩, hs, List.take_length]

theorem copyField_ok (isKey : Bool) {dst : Option (List Byte)} {b : List Byte}
    (hroom : b ≠ [] → ∃ r, dst = some r ∧ b.length ≤ r.length) :
    ∃ dst', copyField isKey dst (part b) b.length = .ok dst' ∧ fieldOf dst' b.length = b := by
  cases b with
  | nil => exact ⟨dst, rfl, by rfl⟩
  | cons x xs =>
    obtain ⟨r, rfl, hle⟩ := hroom (by simp)
    refine ⟨some ((x :: xs) ++ r.drop (x :: xs).length), ?_, ?_⟩
    · have hpos : (0 : Int) < (x :: xs).length := by simp
      have hpart : part (x :: xs) = .ref (x :: xs) := if_neg (by simp)
      unfold copyField
      rw [if_pos hpos, hpart]
      simp only [Int.toNat_natCast, memcpy_ok rfl hle, bufOk_bind]
      rfl
    · rw [fieldOf, Int.toNat_natCast, Option.getD_some, List.take_left]

theorem copyTime_ok {dst : Option Timestamp} {a : Option Timestamp}
    (hroom : a.isSome → dst.isSome) :
    copyTime dst (timePart a) = .ok (if a.isSome then a else dst) := by
  cases a with
  | none => rfl
  | some t =>
    obtain ⟨d, rfl⟩ := Option.isSome_iff_exists.mp (hroom rfl)
    rfl

theorem SharedBuf.get_cons (h : s.Holds ((p, t) :: q)) {r : Dbt} (hr : r.Room t) :
    ∃ r', s.get r = .ok (r', .ok) ∧
      r'.tuple = ⟨t.key, t.data, if t.atime.isSome then t.atime else r.atime⟩ ∧
      r'.datasz = t.data.length := by
  obtain ⟨c, hderef, hs, -⟩ := deref_head h
  obtain ⟨key, hkey, hkey'⟩ := copyField_ok true hr.key
  obtain ⟨data, hdata, hdata'⟩ := copyField_ok false hr.data
  refine ⟨⟨t.key.length, t.data.length, key, data, if t.atime.isSome then t.atime else r.atime⟩,
    ?_, ?_, rfl⟩
  · rw [SharedBuf.get, if_neg (by rw [empty_of_cons h]; exact Bool.false_ne_true), hderef]
    simp only [bufOk_bind, Dbt.copy, hs.key, hs.data, hs.atime, hs.keysz, hs.datasz, hkey, hdata,
      copyTime_ok hr.atime]
    rfl
  · rw [Dbt.tuple, hkey', hdata']

structure GetArgs.Room (args : GetArgs) (t : BufTuple) : Prop where
  data : ∀ d, args.d = some d → t.data.length ≤ d.data.length
  atime : t.atime.isSome → args.a.isSome

def DBT.bytes (d : DBT) : List Byte := d.data.take d.size

theorem getData_ok {d : DBT} (hs : c.Stores t) (hroom : t.data.length ≤ d.data.length) :
    ∃ d', getData d c = .ok d' ∧ d'.bytes = t.data := by
  rw [getData, hs.data, hs.datasz]
  cases hb : t.data with
  | nil => exact ⟨_, rfl, by rfl⟩
  | cons x xs =>
    have hpart : part (x :: xs) = .ref (x :: xs) := if_neg (by simp)
    rw [hb] at hroom
    rw [hpart]
    simp only [Int.toNat_natCast, memcpy_ok rfl hroom, bufOk_bind]
    refine ⟨_, rfl, ?_⟩
    rw [DBT.bytes, List.take_left]

theorem getAtime_ok {a : Option Timestamp} {b : Option Timestamp}
    (hroom : b.isSome → a.isSome) :
    getAtime a (timePart b) = .ok (if b.isSome then b else a) := by
  cases b with
  | none => rfl
  | some t =>
    obtain ⟨d, rfl⟩ := Option.isSome_iff_exists.mp (hroom rfl)
    rfl

theorem SharedBuf.getDBT_cons (h : s.Holds ((p, t) :: q)) {args : GetArgs} (hr : args.Room t) :
    ∃ args', s.getDBT args = .ok (args', .ok) ∧
      args'.d.map DBT.bytes = args.d.map (fun _ => t.data) ∧
      args'.a = (if t.atime.isSome then t.atime else args.a) ∧ args'.k = args.k := by
  obtain ⟨c, hderef, hs, -⟩ := deref_head h
  have hget : ∀ d, getOptData c args.d = .ok d →
      s.getDBT args = .ok ({ args with
        d := d, a := if t.atime.isSome then t.atime else args.a }, .ok) := by
    intro d hd
    rw [SharedBuf.getDBT, if_neg (by rw [empty_of_cons h]; exact Bool.false_ne_true), hderef]
    simp only [bufOk_bind, SDbt.get, hd, hs.atime, getAtime_ok hr.atime]
    rfl
  cases hd : args.d with
  | none => exact ⟨_, hget none (by rw [hd]; rfl), rfl, rfl, rfl⟩
  | some d =>
    obtain ⟨d', hd', hbytes⟩ := getData_ok hs (hr.data d hd)
    have hopt : getOptData c args.d = .ok (some d') := by
      rw [hd, getOptData, hd']
      rfl
    refine ⟨_, hget (some d') hopt, ?_, rfl, rfl⟩
    rw [Option.map_some, hbytes]
    rfl

theorem SharedBuf.getTimestamp_cons (h : s.Holds ((p, t) :: q)) (junk : Nat → Byte)
    {atime : Option Timestamp} (hlen : t.data.length ≤ maxStrLen)
    (hr : t.atime.isSome → atime.isSome) :
    s.getTimestamp junk atime = .ok (if t.atime.isSome then t.atime else atime, .ok) := by
  have hroom : GetArgs.Room ⟨some (stackBuf junk), atime, some (stackBuf junk)⟩ t := by
    refine ⟨fun d hd => ?_, hr⟩
    rw [← Option.some.inj hd, stackBuf, List.length_map, List.length_range]
    exact hlen
  obtain ⟨args', hget, -, ha, -⟩ := getDBT_cons h hroom
  rw [SharedBuf.getTimestamp, hget, bufOk_bind]
  simp only [ha]
  rfl

inductive SharedOp where
  | put (m : Mallocs) (d : Dbt)
  | putDBT (m : Mallocs) (d : DBT) (atime : Option Timestamp) (k : DBT)
  | pop

def SharedOp.isPut : SharedOp → Bool
  | .pop => false
  | _ => true

def SharedOp.run (s : SharedBuf) : SharedOp → Except BufFault (SharedBuf × BufRc × List LockOp)
  | .put m d => s.put m d
  | .putDBT m d atime k => s.putDBT m d atime (some k)
  | .pop => s.pop

def runShared (s : SharedBuf) : List SharedOp → Except BufFault (SharedBuf × List BufRc)
  | [] => .ok (s, [])
  | op :: ops => do
    let (s, rc, _) ← op.run s
    let (s, rcs) ← runShared s ops
    return (s, rc :: rcs)

def queuePut (q : List (ShmAddr × BufTuple)) (t : BufTuple) :
    Option ShmAddr → List (ShmAddr × BufTuple) × BufRc
  | none => (q, .errBuffer)
  | some p => (q ++ [(p, t)], .ok)

def SharedOp.step (q : List (ShmAddr × BufTuple)) :
    SharedOp → List (ShmAddr × BufTuple) × BufRc
  | .put m d => queuePut q d.tuple m.node
  | .putDBT m d atime k => queuePut q ⟨k.bytes, d.bytes, atime⟩ m.node
  | .pop =>
    match q with
    | [] => ([], .errBuffer)
    | _ :: q => (q, .ok)

def queueAfter (q : List (ShmAddr × BufTuple)) :
    List SharedOp → List (ShmAddr × BufTuple) × List BufRc
  | [] => (q, [])
  | op :: ops => ((queueAfter (op.step q).1 ops).1,
      (op.step q).2 :: (queueAfter (op.step q).1 ops).2)

/-- A tuple to put is whole; `mm_malloc` gives memory that is not in use for its node and, if it
does, has memory for its parts. -/
def SharedOp.Fits (q : List (ShmAddr × BufTuple)) : SharedOp → Prop
  | .put m d => FieldOk d.key d.keysz ∧ FieldOk d.data d.datasz ∧
      ∀ p, m.node = some p → p ∉ q.map Prod.fst ∧ m.Enough d.tuple
  | .putDBT m d atime k => k.size ≤ k.data.length ∧ d.size ≤ d.data.length ∧
      ∀ p, m.node = some p → p ∉ q.map Prod.fst ∧ m.Enough ⟨k.bytes, d.bytes, atime⟩
  | .pop => True

def AllFit (q : List (ShmAddr × BufTuple)) : List SharedOp → Prop
  | [] => True
  | op :: ops => op.Fits q ∧ AllFit (op.step q).1 ops

theorem SharedBuf.putNode_holds (h : s.Holds q) (t : BufTuple) (node : Option ShmAddr)
    (init : Except BufFault SDbt)
    (hinit : ∀ p, node = some p → p ∉ q.map Prod.fst ∧
      ∃ c, init = .ok c ∧ c.Stores t ∧ c.next = .null) :
    ∃ s' locks, s.putNode node init = .ok (s', (queuePut q t node).2, locks) ∧
      s'.Holds (queuePut q t node).1 := by
  cases node with
  | none => exact ⟨s, _, rfl, h⟩
  | some p =>
    obtain ⟨hp, c, hc, hs, hn⟩ := hinit p rfl
    obtain ⟨s', hlink, hs'⟩ := link_holds h hp hs hn
    refine ⟨s', [.lock, .unlock], ?_, hs'⟩
    rw [SharedBuf.putNode, hc]
    simp only [bufOk_bind, hlink]
    rfl

theorem fieldOk_DBT {d : DBT} (h : d.size ≤ d.data.length) : FieldOk (some d.data) d.size := by
  rw [FieldOk, fieldOf, Option.getD_some, Int.toNat_natCast, List.length_take, min_eq_left h]

theorem fieldOf_DBT (d : DBT) : fieldOf (some d.data) d.size = d.bytes := by
  rw [fieldOf, Option.getD_some, Int.toNat_natCast, DBT.bytes]

theorem SharedOp.call_holds (op : SharedOp) (h : s.Holds q) (hf : op.Fits q) :
    ∃ s' locks, op.run s = .ok (s', (op.step q).2, locks) ∧ s'.Holds (op.step q).1 := by
  cases op with
  | put m d =>
    obtain ⟨hk, hd, hm⟩ := hf
    exact SharedBuf.putNode_holds h d.tuple m.node _ fun p hp =>
      ⟨(hm p hp).1, init_ok hd hk (hm p hp).2⟩
  | putDBT m d atime k =>
    obtain ⟨hk, hd, hm⟩ := hf
    refine SharedBuf.putNode_holds h ⟨k.bytes, d.bytes, atime⟩ m.node _ fun p hp =>
      ⟨(hm p hp).1, ?_⟩
    have hm' := (hm p hp).2
    exact init_ok (fieldOk_DBT hd) (fieldOk_DBT hk) hm'
  | pop =>
    cases q with
    | nil => exact ⟨s, [], SharedBuf.pop_nil h, h⟩
    | cons x q =>
      obtain ⟨s', hpop, hs'⟩ := SharedBuf.pop_cons h
      exact ⟨s', _, hpop, hs'⟩

theorem runShared_holds {ops : List SharedOp} (h : s.Holds q) (hf : AllFit q ops) :
    ∃ s', runShared s ops = .ok (s', (queueAfter q ops).2) ∧ s'.Holds (queueAfter q ops).1 := by
  induction ops generalizing s q with
  | nil => exact ⟨s, rfl, h⟩
  | cons op ops ih =>
    obtain ⟨s₁, locks, hop, hs₁⟩ := op.call_holds h hf.1
    obtain ⟨s', hrun, hs'⟩ := ih hs₁ hf.2
    refine ⟨s', ?_, hs'⟩
    rw [runShared, hop]
    simp only [bufOk_bind, hrun]
    rfl

def succeeded (p : SharedOp → Bool) (ops : List SharedOp) (rcs : List BufRc) : Nat :=
  (ops.zip rcs).countP fun x => p x.1 && x.2 = .ok

theorem step_length (op : SharedOp) (q : List (ShmAddr × BufTuple)) :
    (op.step q).1.length + (if !op.isPut && (op.step q).2 = .ok then 1 else 0) =
      q.length + if op.isPut && (op.step q).2 = .ok then 1 else 0 := by
  cases op with
  | put m d =>
    rw [SharedOp.step]
    cases m.node <;> simp [queuePut, SharedOp.isPut]
  | putDBT m d atime k =>
    rw [SharedOp.step]
    cases m.node <;> simp [queuePut, SharedOp.isPut]
  | pop => cases q <;> simp [SharedOp.step, SharedOp.isPut]

theorem queueAfter_length (ops : List SharedOp) (q : List (ShmAddr × BufTuple)) :
    (queueAfter q ops).1.length + succeeded (fun op => !op.isPut) ops (queueAfter q ops).2 =
      q.length + succeeded SharedOp.isPut ops (queueAfter q ops).2 := by
  induction ops generalizing q with
  | nil => rfl
  | cons op ops ih =>
    have hih := ih (op.step q).1
    have hstep := step_length op q
    simp only [queueAfter, succeeded, List.zip_cons_cons, List.countP_cons] at hih ⊢
    omega

/-- After any operations the buffer is the queue: its gets return the oldest tuple, but for the key
in `get(DBT *d, timestamp *a, DBT *k)`, and its size is puts minus pops. -/
theorem sharedBuf_fifo (ops : List SharedOp) (hf : AllFit [] ops) :
    ∃ s rcs, runShared newSharedBuf ops = .ok (s, rcs) ∧
      rcs = (queueAfter [] ops).2 ∧
      s.bufSize = succeeded SharedOp.isPut ops rcs - succeeded (fun op => !op.isPut) ops rcs ∧
      s.bufSize = (queueAfter [] ops).1.length ∧
      ((queueAfter [] ops).1 = [] → (∀ r, s.get r = .ok (r, .notFound)) ∧
        ∀ args, s.getDBT args = .ok (args, .notFound)) ∧
      ∀ x q, (queueAfter [] ops).1 = x :: q →
        (∀ r : Dbt, r.Room x.2 → ∃ r', s.get r = .ok (r', .ok) ∧ r'.tuple =
          ⟨x.2.key, x.2.data, if x.2.atime.isSome then x.2.atime else r.atime⟩) ∧
        (∀ args : GetArgs, args.Room x.2 → ∃ args', s.getDBT args = .ok (args', .ok) ∧
          args'.d.map DBT.bytes = args.d.map (fun _ => x.2.data) ∧
          args'.a = (if x.2.atime.isSome then x.2.atime else args.a) ∧ args'.k = args.k) ∧
        ∀ junk atime, x.2.data.length ≤ maxStrLen → (x.2.atime.isSome → atime.isSome) →
          s.getTimestamp junk atime =
            .ok (if x.2.atime.isSome then x.2.atime else atime, .ok) := by
  obtain ⟨s, hrun, hs⟩ := runShared_holds newSharedBuf_holds hf
  have hlen := queueAfter_length ops []
  rw [List.length_nil, Nat.zero_add] at hlen
  have hn : s.bufSize = (queueAfter [] ops).1.length := hs.n
  refine ⟨s, _, hrun, rfl, by omega, hn, ?_, ?_⟩
  · intro hq
    rw [hq] at hs
    have hempty := SharedBuf.empty_of_nil hs
    exact ⟨fun r => if_pos hempty, fun args => if_pos hempty⟩
  · rintro ⟨p, t⟩ q hq
    rw [hq] at hs
    refine ⟨fun r hr => ?_, fun args hr => SharedBuf.getDBT_cons hs hr,
      fun junk atime hd ha => SharedBuf.getTimestamp_cons hs junk hd ha⟩
    obtain ⟨r', hget, ht, -⟩ := SharedBuf.get_cons hs hr
    exact ⟨r', hget, ht⟩

/-- There is memory for everything, and the node is at `p`. -/
def mallocAt (p : ShmAddr) : Mallocs := ⟨some p, true, true, true, fun _ => 0⟩

theorem sharedBuf_fifo_two : ∃ s, runShared newSharedBuf
    [.put (mallocAt 8) ⟨0, 1, none, some [4], none⟩, .pop, .pop,
      .putDBT (mallocAt 8) ⟨[5, 6], 1⟩ none ⟨[9], 1⟩] = .ok (s, [.ok, .ok, .errBuffer, .ok]) ∧
      s.bufSize = 1 ∧
      ∃ r', s.get ⟨0, 0, some [0], some [0, 0], none⟩ = .ok (r', .ok) ∧
        r'.tuple = ⟨[9], [5], none⟩ := by
  obtain ⟨s, rcs, hrun, hrcs, -, hn, -, hget⟩ := sharedBuf_fifo
    [.put (mallocAt 8) ⟨0, 1, none, some [4], none⟩, .pop, .pop,
      .putDBT (mallocAt 8) ⟨[5, 6], 1⟩ none ⟨[9], 1⟩]
    ⟨⟨rfl, rfl, by
        rintro p ⟨rfl⟩
        exact ⟨by decide, ⟨fun _ => rfl, fun _ => rfl, fun _ => rfl⟩⟩⟩, trivial, trivial,
      ⟨by decide, by decide, by
        rintro p ⟨rfl⟩
        exact ⟨by decide, ⟨fun _ => rfl, fun _ => rfl, fun _ => rfl⟩⟩⟩, trivial⟩
  subst hrcs
  refine ⟨s, hrun, hn, ?_⟩
  obtain ⟨r', hr', ht⟩ := (hget (8, ⟨[9], [5], none⟩) [] rfl).1
    ⟨0, 0, some [0], some [0, 0], none⟩
    ⟨fun _ => ⟨[0], rfl, by decide⟩, fun _ => ⟨[0, 0], rfl, by decide⟩, fun h => by cases h⟩
  exact ⟨r', hr', ht⟩

/-- A tuple with a key: the key `DBT` of the caller is as it was. -/
theorem getDBT_without_key : ∃ s, runShared newSharedBuf
    [.putDBT (mallocAt 8) ⟨[5], 1⟩ none ⟨[9], 1⟩] = .ok (s, [.ok]) ∧
      s.getDBT ⟨some ⟨[0], 0⟩, some ⟨0, 0⟩, some ⟨[0], 0⟩⟩ =
        .ok (⟨some ⟨[5], 1⟩, some ⟨0, 0⟩, some ⟨[0], 0⟩⟩, .ok) :=
  ⟨_, rfl, rfl⟩

end StreamMill.Buf
