import StreamMill.Buf.Codec

/-!
# StreamMill.Buf.Commands

The commands to the scheduler: the clients put them into `_queryBuffer`, and the loop of
`querySchdl::run` gets, reads and pops one after the other, into a `cDBT` that it keeps. It reads
three strings from every command: those that a command does not have are what longer ones before it
have left. After an `ADD_DECLARE_CMD_CODE` the handler takes the next command itself
(`commands_delivered`).
-/

namespace StreamMill.Buf

open ImDb (Byte)
open Table (leBytes leNat leBytes_length leNat_leBytes)
open Lib

def maxIdLen : Nat := 50

def maxBufCount : Nat := 25

def messageSize : Nat := 4 + (maxBufCount + 2) * maxIdLen

/-- A `cDBT` of the size of its data. -/
def dbtOf (msg : List Byte) : Dbt := ⟨0, msg.length, none, some msg, none⟩

def cstr (s : CStr) : List Byte := s.val ++ [0]

structure Taken where
  code : BitVec 32
  ids : List (List Byte)
  deriving DecidableEq

/-- `strcpy` of one string after the other, each into an array of its own size. -/
def readIds (data : List Byte) (off : Nat) : List Nat → Except BufFault (List (List Byte))
  | [] => .ok []
  | room :: rooms => do
    let id ← strAt data off
    if id.length < room then
      let ids ← readIds data (off + id.length + 1) rooms
      return id :: ids
    else .error .overflow

/-- The arrays `id`, `id2` and `id3`. -/
def idRooms : List Nat := [maxIdLen, maxBufCount * maxIdLen, maxIdLen]

def readCode (data : List Byte) : BitVec 32 := BitVec.ofNat 32 (leNat (data.take 4))

/-- Gets the command at the head, reads its strings into arrays of `rooms`, and pops it. -/
def take (s : SharedBuf) (cdbt : Dbt) (rooms : Int → List Nat) :
    Except BufFault (SharedBuf × Dbt × Option Taken) := do
  let (cdbt, rc) ← s.get cdbt
  match rc with
  | .ok =>
    let data := cdbt.data.getD []
    let ids ← readIds data 4 (rooms cdbt.datasz)
    let (s, _, _) ← s.pop
    return (s, cdbt, some ⟨readCode data, ids⟩)
  | _ => return (s, cdbt, none)

/-- One round of the loop of `querySchdl::run`, up to the execution of the command: `id`, `id2` and
`id3` are read. -/
def takeCommand (s : SharedBuf) (cdbt : Dbt) : Except BufFault (SharedBuf × Dbt × Option Taken) :=
  take s cdbt fun _ => idRooms

/-- `ADD_DECLARE_CMD_CODE_hndl`: `buffer::get(code, id)` over a `cDBT` of its own, and `pop`. -/
def takeAdded (s : SharedBuf) (junk : Nat → Byte) : Except BufFault (SharedBuf × Dbt × Option Taken) :=
  take s (cDbt junk maxStrLen) fun datasz => if 4 < datasz then [maxIdLen] else []

/-- Clients send any messages that begin with a code, and the scheduler takes them: `sent` are those
that the buffer has accepted, and `got` is what was read. A put that has memory for its node has
memory for the message. -/
inductive CommandRun (junk₀ : Nat → Byte) :
    SharedBuf → Dbt → List (List Byte) → List Taken → Prop
  | start : CommandRun junk₀ newSharedBuf (cDbt junk₀ messageSize) [] []
  | send {s s' c sent got m p locks} (msg : List Byte) (run : CommandRun junk₀ s c sent got)
      (coded : 4 ≤ msg.length) (node : m.node = some p) (free : s.mem p = none)
      (memory : m.data = true) (put : s.put m (dbtOf msg) = .ok (s', .ok, locks)) :
      CommandRun junk₀ s' c (sent ++ [msg]) got
  | refused {s s' c d sent got m rc locks} (run : CommandRun junk₀ s c sent got)
      (full : m.node = none) (put : s.put m d = .ok (s', rc, locks)) : CommandRun junk₀ s' c sent got
  | take {s s' c c' sent got t} (run : CommandRun junk₀ s c sent got)
      (step : takeCommand s c = .ok (s', c', t)) : CommandRun junk₀ s' c' sent (got ++ t.toList)
  | added {s s' c c' sent got junk t} (run : CommandRun junk₀ s c sent got)
      (step : takeAdded s junk = .ok (s', c', t)) : CommandRun junk₀ s' c sent (got ++ t.toList)

/-- The code of the message has been read, and the strings that lie behind it with their terminating
zeros, as many as were asked for. -/
def ReadAs (msg : List Byte) (t : Taken) : Prop :=
  ∀ (code : BitVec 32) (strs : List CStr) (tail : List Byte),
    msg = leBytes 4 code.toNat ++ strs.flatMap cstr ++ tail →
      t.code = code ∧ (strs.take t.ids.length).map Subtype.val <+: t.ids

def tupleOf (msg : List Byte) : BufTuple := ⟨[], msg, none⟩

variable {s s' : SharedBuf} {c c' : Dbt} {q : List (ShmAddr × BufTuple)} {p : ShmAddr}
  {b msg : List Byte} {sent ks rest : List (List Byte)} {got : List Taken} {t : Option Taken}

theorem readIds_append {strs : List CStr} {xs tail : List Byte} {off : Nat}
    {rooms : List Nat} {ids : List (List Byte)} (hoff : off = xs.length)
    (hread : readIds (xs ++ strs.flatMap cstr ++ tail) off rooms = .ok ids) :
    (strs.take ids.length).map Subtype.val <+: ids := by
  induction rooms generalizing strs xs off ids with
  | nil =>
    cases hread
    simp
  | cons room rooms ih =>
    obtain ⟨id, hid, hread⟩ := bind_eq_ok hread
    split at hread
    · obtain ⟨ids, hids, hread⟩ := bind_eq_ok hread
      cases hread
      cases strs with
      | nil => simp
      | cons s strs =>
        have hs : xs ++ (s :: strs).flatMap cstr ++ tail =
            xs ++ (s.val ++ [0]) ++ (strs.flatMap cstr ++ tail) := by
          simp [cstr]
        rw [hs, strAt_append hoff] at hid
        cases hid
        rw [hs, ← List.append_assoc] at hids
        have hoff' : off + s.val.length + 1 = (xs ++ (s.val ++ [0])).length := by
          rw [hoff, List.length_append, List.length_append]
          rfl
        have htail := ih hoff' hids
        simpa using htail
    · cases hread

theorem readAs_ids {rooms : List Nat} {ids : List (List Byte)} {left : List Byte}
    (hread : readIds (msg ++ left) 4 rooms = .ok ids) : ReadAs msg ⟨readCode (msg ++ left), ids⟩ := by
  rintro code strs tail rfl
  rw [List.append_assoc] at hread
  refine ⟨?_, readIds_append (leBytes_length 4 _).symm hread⟩
  rw [readCode, List.append_assoc, List.append_assoc, List.take_left' (leBytes_length 4 _),
    leNat_leBytes code.isLt]
  exact BitVec.ofNat_toNat _ _

/-- The command is copied over what lies in the `cDBT`. -/
theorem get_command (h : s.Holds ((p, tupleOf msg) :: q)) (hlen : 0 < msg.length)
    (hc : c.data = some b) : s.get c = if msg.length ≤ b.length then
      .ok (⟨0, msg.length, c.key, some (msg ++ b.drop msg.length), c.atime⟩, .ok)
    else .error .overflow := by
  obtain ⟨d, hderef, hs, -⟩ := SharedBuf.deref_head h
  have hpart : part msg = .ref msg := if_neg (List.ne_nil_of_length_pos hlen)
  have hpos : (0 : Int) < msg.length := Int.natCast_pos.mpr hlen
  have hget : s.get c = (memcpy b msg msg.length).map fun data =>
      (⟨0, msg.length, c.key, some data, c.atime⟩, .ok) := by
    rw [SharedBuf.get, if_neg (by simp [SharedBuf.empty_of_cons h]), hderef]
    simp only [bufOk_bind, Dbt.copy, copyField, copyTime, hs.keysz, hs.datasz, hs.data, hs.atime,
      tupleOf, timePart, hpart, hc, List.length_nil, Int.natCast_zero, lt_irrefl, if_false,
      if_pos hpos, Int.toNat_natCast]
    cases memcpy b msg msg.length <;> rfl
  rw [hget]
  split
  · next hroom => rw [memcpy_ok rfl hroom]; rfl
  · next hroom => rw [memcpy, if_neg fun hfit => hroom hfit.2]; rfl

theorem take_nil {rooms : Int → List Nat} (h : s.Holds []) : take s c rooms = .ok (s, c, none) := by
  rw [take, SharedBuf.get, if_pos (SharedBuf.empty_of_nil h)]
  rfl

theorem take_cons (h : s.Holds ((p, tupleOf msg) :: q)) (hlen : 0 < msg.length)
    (hc : c.data = some b) : ∃ s', s'.Holds q ∧ ∀ rooms, take s c rooms =
      if msg.length ≤ b.length then
        (readIds (msg ++ b.drop msg.length) 4 (rooms msg.length)).map fun ids =>
          (s', ⟨0, msg.length, c.key, some (msg ++ b.drop msg.length), c.atime⟩,
            some ⟨readCode (msg ++ b.drop msg.length), ids⟩)
      else .error .overflow := by
  obtain ⟨s', hpop, hs'⟩ := SharedBuf.pop_cons h
  refine ⟨s', hs', fun rooms => ?_⟩
  rw [take, get_command h hlen hc]
  split
  · simp only [bufOk_bind, Option.getD_some]
    cases readIds (msg ++ b.drop msg.length) 4 (rooms msg.length) with
    | error x => rfl
    | ok ids => simp only [bufOk_bind, hpop]; rfl
  · rfl

/-- The messages `ks` have been read, and `rest` are in the buffer. -/
structure Delivering (s : SharedBuf) (sent : List (List Byte)) (got : List Taken)
    (ks rest : List (List Byte)) (q : List (ShmAddr × BufTuple)) : Prop where
  sent : sent = ks ++ rest
  read : List.Forall₂ ReadAs ks got
  coded : ∀ msg ∈ rest, 4 ≤ msg.length
  holds : s.Holds q
  queue : q.map Prod.snd = rest.map tupleOf

theorem Delivering.front (h : Delivering s sent got ks (msg :: rest) q) :
    ∃ p q', q = (p, tupleOf msg) :: q' ∧ q'.map Prod.snd = rest.map tupleOf ∧ 0 < msg.length := by
  have hcoded := h.coded msg List.mem_cons_self
  obtain ⟨x, q', rfl, hx, hq⟩ := List.map_eq_cons_iff.mp h.queue
  exact ⟨x.1, q', by rw [← hx], hq, by omega⟩

theorem Delivering.take {rooms : Int → List Nat} (h : Delivering s sent got ks rest q)
    (hc : c.data = some b) (step : take s c rooms = .ok (s', c', t)) :
    (∃ ks' rest' q', Delivering s' sent (got ++ t.toList) ks' rest' q') ∧
      ∃ b', c'.data = some b' ∧ b'.length = b.length := by
  cases rest with
  | nil =>
    obtain rfl : q = [] := by simpa using h.queue
    rw [take_nil h.holds] at step
    cases step
    exact ⟨⟨ks, [], [], by simpa using h⟩, b, hc, rfl⟩
  | cons msg rest =>
    obtain ⟨p, q', rfl, hq, hlen⟩ := h.front
    obtain ⟨s₁, hs₁, htake⟩ := take_cons h.holds hlen hc
    rw [htake] at step
    split at step
    · next hroom =>
      cases hread : readIds (msg ++ b.drop msg.length) 4 (rooms msg.length) with
      | error x =>
        rw [hread] at step
        cases step
      | ok ids =>
        rw [hread] at step
        cases step
        refine ⟨⟨ks ++ [msg], rest, q', ?_, ?_, ?_, hs₁, hq⟩, _, rfl, ?_⟩
        · rw [h.sent, List.append_assoc]
          rfl
        · exact List.rel_append h.read (.cons (readAs_ids hread) .nil)
        · exact fun msg' hmsg' => h.coded msg' (.tail msg hmsg')
        · rw [List.length_append, List.length_drop]
          omega
    · cases step

theorem Chain.mem_ne_none {mem : ShmAddr → Option SDbt} (h : Chain mem q)
    (hp : p ∈ q.map Prod.fst) : mem p ≠ none := by
  induction q with
  | nil => cases hp
  | cons y q ih =>
    obtain ⟨⟨d, hd, -⟩, hq⟩ := h
    rcases List.mem_cons.mp hp with rfl | hp
    · simp [hd]
    · exact ih hq hp

theorem init_dbtOf {m : Mallocs} (hm : m.data = true) :
    ∃ c, SDbt.init m (some msg) msg.length none none 0 = .ok c ∧ c.Stores ⟨[], msg, none⟩ ∧
      c.next = .null := by
  have hfield : fieldOf (some msg) msg.length = msg := by
    rw [fieldOf, Option.getD_some, Int.toNat_natCast, List.take_length]
  have hinit := @init_ok m (some msg) none msg.length 0 none (by rw [FieldOk, hfield]) rfl
    ⟨fun h => absurd rfl h, fun _ => hm, fun h => by cases h⟩
  rwa [hfield] at hinit

theorem CommandRun.delivering {junk : Nat → Byte} (run : CommandRun junk s c sent got) :
    (∃ ks rest q, Delivering s sent got ks rest q) ∧
      ∃ b, c.data = some b ∧ b.length = messageSize := by
  induction run with
  | start => exact ⟨⟨[], [], [], rfl, .nil, by simp, newSharedBuf_holds, rfl⟩, _, rfl, by simp⟩
  | @send s s' c sent got m p locks msg _ coded node free memory put ih =>
    obtain ⟨⟨ks, rest, q, h⟩, hc⟩ := ih
    obtain ⟨s₁, locks₁, hput, hs₁⟩ := SharedBuf.putNode_holds h.holds (tupleOf msg) (some p) _
      fun p' hp' => ⟨fun hmem => h.holds.chain.mem_ne_none hmem (Option.some.inj hp' ▸ free),
        init_dbtOf memory⟩
    rw [SharedBuf.put, node] at put
    cases put.symm.trans hput
    refine ⟨⟨ks, rest ++ [msg], q ++ [(p, tupleOf msg)], ?_, h.read, ?_, hs₁, ?_⟩, hc⟩
    · rw [h.sent, List.append_assoc]
    · intro msg' hmsg'
      rcases List.mem_append.mp hmsg' with hmsg' | hmsg'
      · exact h.coded msg' hmsg'
      · exact List.mem_singleton.mp hmsg' ▸ coded
    · simp [h.queue]
  | refused _ full put ih =>
    rw [SharedBuf.put, full] at put
    cases put
    exact ih
  | take _ step ih =>
    obtain ⟨⟨ks, rest, q, h⟩, b, hc, hb⟩ := ih
    obtain ⟨h', b', hc', hb'⟩ := h.take hc step
    exact ⟨h', b', hc', hb'.trans hb⟩
  | added _ step ih =>
    obtain ⟨⟨ks, rest, q, h⟩, hc⟩ := ih
    exact ⟨(h.take rfl step).1, hc⟩

end StreamMill.Buf
