import StreamMill.ImDb.Runs
import Mathlib.Algebra.Order.Floor.Ring
import Mathlib.Data.Rat.Floor

/-!
# StreamMill.Window.Winbuf

The window buffer of `winbuf.cc`: an in-memory relation without keys whose tuples hold a value and
the id the window had when they were put. `Winbuf.Holds` says which tuples a buffer holds; the
operations pop the oldest one, or delete from the middle through the cursor that scans
(`deleteIf_holds`). `double` is taken as exact.
-/

namespace StreamMill.Window

open ImDb Lib

structure Timeval where
  sec : Int
  usec : Int
  deriving DecidableEq

def timevalSubtract (x y : Timeval) : ℚ :=
  x.sec + (x.usec : ℚ) / 1000000 - y.sec - (y.usec : ℚ) / 1000000

structure WinTuple (α : Type) where
  value : α
  tupleId : Nat
  deriving DecidableEq

/-- `unsigned int` fields are numbers below `2 ^ 32`. -/
structure Winbuf (α : Type) where
  b : Rel 0 (WinTuple α)
  temp : Cursor
  size : Nat
  tupleId : Nat
  first : Bool
  firstTs : Timeval

section

variable {α : Type}

def emptyKey : Key 0 := ⟨[], rfl⟩

def newWinbuf (mem : Addr → Tuple 0 (WinTuple α)) (size : Nat) : Winbuf α :=
  { b := imRelCreate mem false false
    temp := imRelCursor
    size := size
    tupleId := 0
    first := true
    firstTs := ⟨0, 0⟩ }

/-- The arrival time that `updateTupleID` takes: a time stamp of `0` seconds stands for `now`. -/
def arrival (ts now : Timeval) : Timeval := if ts.sec = 0 then now else ts

/-- `updateTupleID`, without a time stamp in a window of tuples. The id of a window of time are
the whole milliseconds since its first tuple. -/
def Winbuf.updateTupleID (w : Winbuf α) : Option Timeval → Winbuf α
  | none => { w with tupleId := (w.tupleId + 1) % 2 ^ 32 }
  | some ts =>
    { w with
      first := false
      firstTs := if w.first then ts else w.firstTs
      tupleId :=
        ⌊timevalSubtract ts (if w.first then ts else w.firstTs) * 1000⌋.toNat % 2 ^ 32 }

def Winbuf.put (w : Winbuf α) (value : α) : Except Fault (Winbuf α) := do
  let b ← imRelPut w.b emptyKey ⟨value, w.tupleId⟩ .append
  return { w with b }

variable [DecidableEq α] [Inhabited α]

def Winbuf.cGet (w : Winbuf α) (flags : GetFlags) :
    Except Fault (Winbuf α × Option (WinTuple α)) := do
  let (b, temp, found) ← imRelCursorGet w.b w.temp emptyKey ⟨default, 0⟩ flags
  return ({ w with b, temp }, found.map fun r => r.2.1)

omit [DecidableEq α] [Inhabited α] in
def Winbuf.cDel (w : Winbuf α) : Except Fault (Winbuf α) := do
  let (b, temp, _) ← imRelCursorDel w.b w.temp
  return { w with b, temp }

def Winbuf.pop (w : Winbuf α) : Except Fault (Winbuf α) := do
  let (w, found) ← w.cGet .first
  match found with
  | none => return w
  | some _ => w.cDel

/-- The test of `getExpired` on the id `t`. -/
def expired (size id t : Nat) : Bool :=
  if id < size then t ≤ 2 ^ 32 - 1 - size + id && id < t
  else t ≤ id - size || id < t

def Winbuf.getExpired (w : Winbuf α) : Except Fault (Winbuf α × Option α) := do
  let (w, found) ← w.cGet .first
  match found with
  | none => return (w, none)
  | some d => return (w, if expired w.size w.tupleId d.tupleId then some d.value else none)

def Winbuf.getHead (w : Winbuf α) : Except Fault (Winbuf α × Option α) := do
  let (w, found) ← w.cGet .first
  return (w, found.map WinTuple.value)

def deleteIf (p : α → Bool) : Nat → GetFlags → Winbuf α → Except Fault (Winbuf α)
  | 0, _, _ => .error .loop
  | fuel + 1, flags, w => do
    let (w, found) ← w.cGet flags
    match found with
    | none => return w
    | some d =>
      if p d.value then do
        let w ← w.cDel
        deleteIf p fuel .next w
      else deleteIf p fuel .next w

def Winbuf.deleteGreater [LT α] [DecidableLT α] (w : Winbuf α) (testVal : α) :
    Except Fault (Winbuf α) :=
  deleteIf (fun val => val > testVal) (w.b.fuel + 1) .first w

def Winbuf.deleteLesser [LT α] [DecidableLT α] (w : Winbuf α) (testVal : α) :
    Except Fault (Winbuf α) :=
  deleteIf (fun val => val < testVal) (w.b.fuel + 1) .first w

end

section

variable {n : Nat} {δ : Type} {s : Rel n δ} {l : List (Entry n δ)} {e : Entry n δ}

structure ValueRel (s : Rel n δ) (l : List (Entry n δ)) : Prop where
  rel : s.Holds l
  oid : s.oid = false
  hidx : s.hidx = none

theorem skipDeleted_value (ho : s.oid = false)
    (step : Addr → Option Addr) {o : Option Addr} (hfuel : o ≠ none → 0 < s.fuel) :
    s.skipDeleted step o = .ok o := by
  cases o with
  | none => rw [Rel.skipDeleted, walk]
  | some a =>
    obtain ⟨f, hf⟩ : ∃ f, s.fuel = f + 1 := ⟨s.fuel - 1, by have := hfuel (by simp); omega⟩
    have hlive : s.live a = true := by
      rw [Rel.live, ho]
      rfl
    rw [Rel.skipDeleted, hf, walk, hlive]
    rfl

theorem valueRel_new (mem : Addr → Tuple n δ) : ValueRel (imRelCreate mem false false) [] :=
  ⟨imRelCreate_holds mem false false, rfl, rfl⟩

theorem hidx_none_of_isSome_eq {s s' : Rel n δ} (h : s'.hidx.isSome = s.hidx.isSome)
    (hs : s.hidx = none) : s'.hidx = none := by
  rw [hs] at h
  exact Option.isNone_iff_eq_none.mp (Option.isSome_eq_false_iff.mp h)

theorem ValueRel.put (h : ValueRel s l) (key : Key n) (data : δ) :
    ∃ s', imRelPut s key data .append = .ok s' ∧
      ValueRel s' (l ++ [⟨newSlot s, key, data, false⟩]) := by
  obtain ⟨s', hput⟩ := imRelPut_ok h.rel key data .append fun hf => by cases hf
  obtain ⟨hrel, ho, hidx⟩ := imRelPut_holds h.rel hput
  exact ⟨s', hput, hrel, ho.trans h.oid, hidx_none_of_isSome_eq hidx h.hidx⟩

theorem ValueRel.first_none [DecidableEq δ] (h : ValueRel s []) (c : Cursor) (key : Key n)
    (data : δ) : imRelCursorGet s c key data .first = .ok (s, c, none) := by
  have hhead : s.head = none := h.rel.head
  rw [imRelCursorGet, hhead]

theorem ValueRel.first [DecidableEq δ] (h : ValueRel s (e :: l)) (c : Cursor) (key : Key n)
    (data : δ) :
    ∃ c', imRelCursorGet s c key data .first = .ok (s, c', some (e.key, e.data, e.slot)) ∧
      c'.cur = some e.slot := by
  have hhead : s.head = some e.slot := h.rel.head
  have hfuel : 0 < s.fuel := Nat.lt_of_le_of_lt (Nat.zero_le _)
    (h.rel.alloc.used e.slot (slot_mem List.mem_cons_self))
  have hskip := skipDeleted_value h.oid (s.listNext e.slot) (o := some e.slot) fun _ => hfuel
  obtain ⟨hkey, hdata, -⟩ := h.rel.stored e List.mem_cons_self
  refine ⟨⟨some e.slot, (some e.slot).bind (s.listNext e.slot)⟩, ?_, rfl⟩
  simp only [imRelCursorGet, hhead, Rel.cursorMove, hskip, ok_bind]
  rw [← hkey, ← hdata]
  rfl

theorem ValueRel.del (h : ValueRel s (e :: l)) {c : Cursor} (hc : c.cur = some e.slot) :
    ∃ s' c', imRelCursorDel s c = .ok (s', c', true) ∧ ValueRel s' l := by
  obtain ⟨s', hdel, hrel, hre, hidx⟩ :=
    @imRelCursorDel_value _ _ _ [] l e h.rel h.oid c hc
  have ho : s'.oid = false := hre.oid.trans ((unlink_relinked s c e.slot).oid.trans h.oid)
  exact ⟨s', _, hdel, hrel, ho, hidx_none_of_isSome_eq hidx h.hidx⟩

end

variable {α : Type} {w w' : Winbuf α} {es : List (WinTuple α)}

structure Plain (b : Rel 0 (WinTuple α)) (l : List (Entry 0 (WinTuple α))) : Prop where
  rel : b.Holds l
  oid : b.oid = false
  hidx : b.hidx = none

theorem Plain.value {b : Rel 0 (WinTuple α)} {l : List (Entry 0 (WinTuple α))} (h : Plain b l) :
    ValueRel b l := ⟨h.rel, h.oid, h.hidx⟩

theorem ValueRel.plain {b : Rel 0 (WinTuple α)} {l : List (Entry 0 (WinTuple α))}
    (h : ValueRel b l) : Plain b l := ⟨h.rel, h.oid, h.hidx⟩

def Winbuf.Holds (w : Winbuf α) (es : List (WinTuple α)) : Prop :=
  ∃ l, Plain w.b l ∧ l.map Entry.data = es

theorem newWinbuf_holds (mem : Addr → Tuple 0 (WinTuple α)) (size : Nat) :
    (newWinbuf mem size).Holds [] :=
  ⟨[], (valueRel_new mem).plain, rfl⟩

theorem put_holds (h : w.Holds es) (value : α) :
    ∃ w', w.put value = .ok w' ∧ w'.Holds (es ++ [⟨value, w.tupleId⟩]) ∧ w'.size = w.size ∧
      w'.tupleId = w.tupleId ∧ w'.first = w.first ∧ w'.firstTs = w.firstTs := by
  obtain ⟨l, hl, rfl⟩ := h
  obtain ⟨b, hput, hval⟩ := hl.value.put emptyKey ⟨value, w.tupleId⟩
  refine ⟨{ w with b }, ?_, ⟨_, hval.plain, by simp⟩, rfl, rfl, rfl, rfl⟩
  rw [Winbuf.put, hput]
  rfl

/-- A scan: `ks` is behind the cursor and `rs` is what `DB_NEXT` goes on to. -/
structure Winbuf.Scan (w : Winbuf α) (ks rs : List (Entry 0 (WinTuple α))) : Prop where
  has : Plain w.b (ks ++ rs)
  next : ∀ head, w.b.head = some head → w.b.nextFrom head w.temp.cur = (slots rs).head?

variable {l ks rs : List (Entry 0 (WinTuple α))} {e : Entry 0 (WinTuple α)}

theorem Plain.fuel_pos (h : Plain w.b (ks ++ e :: rs)) : 0 < w.b.fuel :=
  Nat.lt_of_le_of_lt (Nat.zero_le _)
    (h.rel.alloc.used e.slot (slot_mem (List.mem_append_right _ List.mem_cons_self)))

theorem plain_head_ne_none (h : Plain w.b (ks ++ e :: rs)) : ∃ head, w.b.head = some head := by
  rw [h.rel.head]
  cases ks with
  | nil => exact ⟨e.slot, rfl⟩
  | cons k ks => exact ⟨k.slot, rfl⟩

variable [DecidableEq α] [Inhabited α]

theorem scan_next (h : w.Scan ks (e :: rs)) :
    ∃ temp, w.cGet .next = .ok ({ w with temp }, some e.data) ∧ temp.cur = some e.slot := by
  obtain ⟨head, hhead⟩ := plain_head_ne_none h.has
  have hfuel := h.has.fuel_pos
  have hnext := h.next head hhead
  refine ⟨⟨some e.slot, (some e.slot).bind (w.b.listNext head)⟩, ?_, rfl⟩
  have hskip := skipDeleted_value h.has.oid (w.b.listNext head) (o := some e.slot)
    fun _ => hfuel
  have hget : imRelCursorGet w.b w.temp emptyKey ⟨default, 0⟩ .next =
      .ok (w.b, ⟨some e.slot, (some e.slot).bind (w.b.listNext head)⟩,
        some ((w.b.mem e.slot).key, (w.b.mem e.slot).data, e.slot)) := by
    have hskip : w.b.skipDeleted (w.b.listNext head) (w.b.nextFrom head w.temp.cur) =
        .ok (some e.slot) := by
      rw [hnext]
      exact hskip
    simp only [imRelCursorGet, hhead, Rel.cursorMove, hskip]
    rfl
  rw [Winbuf.cGet, hget]
  simp only [(h.has.rel.stored e (by simp)).2.1]
  rfl

theorem scan_end (h : w.Scan ks []) : ∃ temp, w.cGet .next = .ok ({ w with temp }, none) := by
  cases hhead : w.b.head with
  | none =>
    refine ⟨w.temp, ?_⟩
    rw [Winbuf.cGet, imRelCursorGet, hhead]
    rfl
  | some head =>
    have hnext := h.next head hhead
    have hskip : w.b.skipDeleted (w.b.listNext head) (w.b.nextFrom head w.temp.cur) = .ok none := by
      rw [hnext]
      exact skipDeleted_value h.has.oid _ (absurd rfl)
    refine ⟨⟨none, none⟩, ?_⟩
    simp only [Winbuf.cGet, imRelCursorGet, hhead, Rel.cursorMove, hskip]
    rfl

theorem scan_first (h : Plain w.b (e :: rs)) :
    ∃ temp, w.cGet .first = .ok ({ w with temp }, some e.data) ∧ temp.cur = some e.slot := by
  obtain ⟨c, hget, hcur⟩ := h.value.first w.temp emptyKey ⟨default, 0⟩
  refine ⟨c, ?_, hcur⟩
  rw [Winbuf.cGet, hget]
  rfl

theorem first_none (h : Plain w.b []) : ∃ temp, w.cGet .first = .ok ({ w with temp }, none) := by
  refine ⟨w.temp, ?_⟩
  rw [Winbuf.cGet, h.value.first_none]
  rfl

omit [DecidableEq α] [Inhabited α] in
theorem scan_keep (h : Plain w.b (ks ++ e :: rs)) (hcur : w.temp.cur = some e.slot) :
    w.Scan (ks ++ [e]) rs := by
  have hl : ks ++ [e] ++ rs = ks ++ e :: rs := by simp
  refine ⟨hl ▸ h, fun head hhead => ?_⟩
  rw [hcur]
  exact (h.rel.path (slots_middle ks rs e) hhead).2.head

omit [DecidableEq α] [Inhabited α] in
theorem scan_del (h : Plain w.b (ks ++ e :: rs)) (hcur : w.temp.cur = some e.slot) :
    ∃ b temp, w.cDel = .ok { w with b, temp } ∧ Winbuf.Scan { w with b, temp } ks rs := by
  obtain ⟨hrel, ho, hidx⟩ := h
  have hlisted := unlink_listed hrel.toListed w.temp
  have hrelinked := unlink_relinked w.b w.temp e.slot
  have hhead := hrel.head
  have hpath := fun (head : Addr) (hh : w.b.head = some head) =>
    (hrel.path (slots_middle ks rs e) hh).2.head
  have hcase : (∀ head, (w.b.unlink w.temp e.slot).1.head = some head →
      (w.b.unlink w.temp e.slot).1.nextFrom head (w.b.unlink w.temp e.slot).2.cur =
        (slots rs).head?) := by
    intro head hh
    have hh' := hlisted.head
    rw [hh] at hh'
    rw [Rel.unlink] at hh ⊢
    cases ks with
    | nil =>
      have hhead : w.b.head = some e.slot := hhead
      rw [if_pos hhead] at hh ⊢
      by_cases hone : w.b.next e.slot = e.slot
      · rw [if_pos hone] at hh
        cases hh
      · rw [if_neg hone]
        exact hh'
    | cons k ks =>
      have hne : ¬ w.b.head = some e.slot := by
        rw [hhead]
        intro he
        have he : k.slot = e.slot := Option.some.inj he
        have hnd := hrel.nodup
        rw [List.cons_append, slots_cons, List.nodup_cons] at hnd
        exact hnd.1 (by simp [he])
      rw [if_neg hne] at hh ⊢
      change (w.b.bypass e.slot).nextFrom head w.temp.cur = _
      rw [hcur, Rel.nextFrom, Rel.listNext, stepBefore, bypass_next_self]
      exact hpath head hh
  refine ⟨(w.b.unlink w.temp e.slot).1, (w.b.unlink w.temp e.slot).2, ?_,
    ⟨⟨hlisted, fun ht hht => ?_⟩, hrelinked.oid.trans ho, hrelinked.hidx.trans hidx⟩, hcase⟩
  · rw [Winbuf.cDel, imRelCursorDel, hcur]
    simp only [ho, Bool.false_eq_true, if_false, hrelinked.hidx, hidx]
    rfl
  · rw [hrelinked.hidx, hidx] at hht
    cases hht

/-- `w'` is `w` with another relation and cursor. -/
def SameIds (w w' : Winbuf α) : Prop :=
  w'.size = w.size ∧ w'.tupleId = w.tupleId ∧ w'.first = w.first ∧ w'.firstTs = w.firstTs

omit [DecidableEq α] [Inhabited α] in
theorem SameIds.trans {w'' : Winbuf α} (h : SameIds w w') (h' : SameIds w' w'') :
    SameIds w w'' :=
  ⟨h'.1.trans h.1, h'.2.1.trans h.2.1, h'.2.2.1.trans h.2.2.1, h'.2.2.2.trans h.2.2.2⟩

theorem deleteIf_scan (p : α → Bool) {fuel : Nat} (h : w.Scan ks rs) (hfuel : rs.length < fuel) :
    ∃ w', deleteIf p fuel .next w = .ok w' ∧
      w'.Holds ((ks ++ rs.filter fun e => !p e.data.value).map Entry.data) ∧ SameIds w w' := by
  induction rs generalizing w ks fuel with
  | nil =>
    obtain ⟨fuel, rfl⟩ : ∃ f, fuel = f + 1 := ⟨fuel - 1, by omega⟩
    obtain ⟨temp, hget⟩ := scan_end h
    refine ⟨{ w with temp }, ?_, ⟨ks ++ [], h.has, rfl⟩, rfl, rfl, rfl, rfl⟩
    rw [deleteIf, hget]
    rfl
  | cons e rs ih =>
    obtain ⟨fuel, rfl⟩ : ∃ f, fuel = f + 1 := ⟨fuel - 1, by omega⟩
    have hfuel : rs.length < fuel := by simpa using hfuel
    obtain ⟨temp, hget, hcur⟩ := scan_next h
    rw [deleteIf, hget, ok_bind]
    have hhas := h.has
    cases hp : p e.data.value with
    | true =>
      obtain ⟨b, temp', hdel, hscan⟩ := scan_del (w := { w with temp }) hhas hcur
      obtain ⟨w', hrun, hw', hsame⟩ := ih hscan hfuel
      refine ⟨w', ?_, ?_, hsame⟩
      · simp only [hp, if_true, hdel, ok_bind]
        exact hrun
      · rw [List.filter_cons_of_neg (by simp [hp])]
        exact hw'
    | false =>
      obtain ⟨w', hrun, hw', hsame⟩ := ih (scan_keep (w := { w with temp }) hhas hcur) hfuel
      refine ⟨w', ?_, ?_, hsame⟩
      · simp only [hp, Bool.false_eq_true, if_false]
        exact hrun
      · rw [List.filter_cons_of_pos (by simp [hp])]
        rw [List.append_assoc] at hw'
        exact hw'

theorem deleteIf_holds (p : α → Bool) (h : w.Holds es) :
    ∃ w', deleteIf p (w.b.fuel + 1) .first w = .ok w' ∧
      w'.Holds (es.filter fun d => !p d.value) ∧ SameIds w w' := by
  obtain ⟨l, hhas, rfl⟩ := h
  have hlen : l.length ≤ w.b.fuel := by
    have := hhas.rel.length_le
    rwa [slots, List.length_map] at this
  cases l with
  | nil =>
    obtain ⟨temp, hget⟩ := first_none hhas
    refine ⟨{ w with temp }, ?_, ⟨[], hhas, rfl⟩, rfl, rfl, rfl, rfl⟩
    rw [deleteIf, hget]
    rfl
  | cons e rs =>
    obtain ⟨temp, hget, hcur⟩ := scan_first hhas
    have hfuel : rs.length < w.b.fuel := Nat.lt_of_succ_le hlen
    rw [deleteIf, hget, ok_bind]
    have hhas' : Plain w.b ([] ++ e :: rs) := hhas
    cases hp : p e.data.value with
    | true =>
      obtain ⟨b, temp', hdel, hscan⟩ := scan_del (w := { w with temp }) hhas' hcur
      obtain ⟨w', hrun, hw', hsame⟩ := deleteIf_scan p hscan hfuel
      refine ⟨w', ?_, ?_, hsame⟩
      · simp only [hp, if_true, hdel, ok_bind]
        exact hrun
      · rw [List.map_cons, List.filter_cons_of_neg (by simp [hp]), List.filter_map]
        exact hw'
    | false =>
      obtain ⟨w', hrun, hw', hsame⟩ :=
        deleteIf_scan p (scan_keep (w := { w with temp }) hhas' hcur) hfuel
      refine ⟨w', ?_, ?_, hsame⟩
      · simp only [hp, Bool.false_eq_true, if_false]
        exact hrun
      · rw [List.map_cons, List.filter_cons_of_pos (by simp [hp]), List.filter_map]
        exact hw'

theorem cGet_first_holds (h : w.Holds es) :
    ∃ temp, w.cGet .first = .ok ({ w with temp }, es.head?) := by
  obtain ⟨l, hhas, rfl⟩ := h
  cases l with
  | nil => exact first_none hhas
  | cons e rs =>
    obtain ⟨temp, hget, -⟩ := scan_first hhas
    exact ⟨temp, hget⟩

theorem getExpired_holds (h : w.Holds es) :
    ∃ w', w.getExpired = .ok (w', (es.head?.filter fun d =>
        expired w.size w.tupleId d.tupleId).map WinTuple.value) ∧ w'.Holds es ∧ SameIds w w' := by
  obtain ⟨temp, hget⟩ := cGet_first_holds h
  refine ⟨{ w with temp }, ?_, h, rfl, rfl, rfl, rfl⟩
  rw [Winbuf.getExpired, hget, ok_bind]
  cases es with
  | nil => rfl
  | cons d es =>
    simp only [List.head?_cons, Option.filter_some]
    split <;> rfl

theorem getHead_holds (h : w.Holds es) :
    ∃ w', w.getHead = .ok (w', es.head?.map WinTuple.value) ∧ w'.Holds es ∧ SameIds w w' := by
  obtain ⟨temp, hget⟩ := cGet_first_holds h
  refine ⟨{ w with temp }, ?_, h, rfl, rfl, rfl, rfl⟩
  rw [Winbuf.getHead, hget]
  rfl

theorem pop_holds (h : w.Holds es) : ∃ w', w.pop = .ok w' ∧ w'.Holds es.tail ∧ SameIds w w' := by
  obtain ⟨l, hhas, rfl⟩ := h
  cases l with
  | nil =>
    obtain ⟨temp, hget⟩ := first_none hhas
    refine ⟨{ w with temp }, ?_, ⟨[], hhas, rfl⟩, rfl, rfl, rfl, rfl⟩
    rw [Winbuf.pop, hget]
    rfl
  | cons e rs =>
    obtain ⟨temp, hget, hcur⟩ := scan_first hhas
    have hhas' : Plain w.b ([] ++ e :: rs) := hhas
    obtain ⟨b, temp', hdel, hscan⟩ := scan_del (w := { w with temp }) hhas' hcur
    refine ⟨{ w with b := b, temp := temp' }, ?_, ⟨rs, hscan.has, rfl⟩, rfl, rfl, rfl, rfl⟩
    rw [Winbuf.pop, hget]
    exact hdel

end StreamMill.Window
