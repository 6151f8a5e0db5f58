import StreamMill.Window.Expiry

/-!
# StreamMill.Window.Timestamp

Time stamps with whole seconds added and subtracted (`adllib.cc`), and the time stamp of a tuple id
in the window buffers. Sums and differences of seconds are those without overflow.

`timestamps_right_iff` says when the arithmetic is exact and the comparison is the order,
`getTimestamp_inverts` that a window buffer gets its tuple id back from the time stamp.
-/

namespace StreamMill.Window

section Code

def timevalAdd (t : Timeval) (secs : Int) : Timeval := ⟨t.sec + secs, t.usec⟩

/-- `timeval_subtract` of a time stamp and an `int` -/
def timevalMinus (t : Timeval) (secs : Int) : Timeval := ⟨t.sec - secs, t.usec⟩

/-- `timeval_subtract` of an `int` and a time stamp -/
def secsMinus (secs : Int) (t : Timeval) : Timeval :=
  ⟨secs - t.sec - (if t.usec = 0 then 0 else 1), 1000000 - t.usec⟩

/-- `timeval_cmp`; the differences are `long`, and the result is an `int`. -/
def timevalCmp (x y : Timeval) : Int :=
  let result := x.sec - y.sec
  if result ≠ 0 then (BitVec.ofInt 32 result).toInt
  else (BitVec.ofInt 32 (x.usec - y.usec)).toInt

/-- The time of an id of a window that started at `first`. -/
def idTime (first : Timeval) (tupleId : Nat) : Timeval :=
  let microsecsInTho : Int := (tupleId % 1000 : Nat)
  let microsecs := first.usec + 1000 * microsecsInTho
  if microsecs ≥ 1000000 then
    ⟨first.sec + (tupleId - microsecsInTho) / 1000 + 1, microsecs - 1000000⟩
  else ⟨first.sec + (tupleId - microsecsInTho) / 1000, microsecs⟩

variable {α : Type}

def Winbuf.getTimestamp (w : Winbuf α) : Timeval := idTime w.firstTs w.tupleId

def WindowBuf.getTimestamp (w : WindowBuf α) (time : Bool) (current : Timeval) : Timeval :=
  if time then idTime w.firstTs w.tupleId else current

end Code

structure Timeval.Normal (t : Timeval) : Prop where
  nonneg : 0 ≤ t.usec
  lt : t.usec < 1000000

def Timeval.micros (t : Timeval) : Int := t.sec * 1000000 + t.usec

/-- `r` is the normalised time stamp of `m` microseconds. -/
def Timeval.Is (r : Timeval) (m : Int) : Prop := r.Normal ∧ r.micros = m

/-- The sum and the differences of a time stamp and seconds are exact, and undo each other. -/
structure ArithRight (t : Timeval) (s : Int) : Prop where
  add : (timevalAdd t s).Is (t.micros + s * 1000000)
  minus : (timevalMinus t s).Is (t.micros - s * 1000000)
  secsMinus : (secsMinus s t).Is (s * 1000000 - t.micros)
  minus_add : timevalMinus (timevalAdd t s) s = t
  secsMinus_secsMinus : Window.secsMinus s (Window.secsMinus s t) = t

structure CmpRight (x y : Timeval) : Prop where
  neg : timevalCmp x y < 0 ↔ x.micros < y.micros
  zero : timevalCmp x y = 0 ↔ x.micros = y.micros

/-- The low 32 bits of `d` are an `int` of the sign of `d`. -/
def LowSign (d : Int) : Prop :=
  d = 0 ∨ 0 < d ∧ 0 < d % 2 ^ 32 ∧ d % 2 ^ 32 < 2 ^ 31 ∨ d < 0 ∧ 2 ^ 31 ≤ d % 2 ^ 32

variable {t x y first : Timeval} {s : Int}

theorem arithRight_iff (ht : t.Normal) : ArithRight t s ↔ t.usec ≠ 0 := by
  obtain ⟨hnonneg, hlt⟩ := ht
  constructor
  · intro h h0
    have := h.secsMinus.1.lt
    simp only [secsMinus] at this
    omega
  · intro h
    refine ⟨⟨⟨hnonneg, hlt⟩, ?_⟩, ⟨⟨hnonneg, hlt⟩, ?_⟩, ⟨⟨?_, ?_⟩, ?_⟩, ?_, ?_⟩
    · simp only [Timeval.micros, timevalAdd]
      omega
    · simp only [Timeval.micros, timevalMinus]
      omega
    · simp only [secsMinus]
      omega
    · simp only [secsMinus]
      omega
    · simp only [Timeval.micros, secsMinus, if_neg h]
      omega
    · simp [timevalMinus, timevalAdd]
    · have h' : 1000000 - t.usec ≠ 0 := by omega
      simp only [secsMinus, if_neg h, if_neg h']
      rw [show s - (s - t.sec - 1) - 1 = t.sec by omega,
        show 1000000 - (1000000 - t.usec) = t.usec by omega]

theorem toInt_sign (d : Int) : LowSign d ↔
    ((BitVec.ofInt 32 d).toInt < 0 ↔ d < 0) ∧ ((BitVec.ofInt 32 d).toInt = 0 ↔ d = 0) := by
  rw [BitVec.toInt_ofInt, Int.bmod_def, LowSign]
  split <;> omega

theorem cmpRight_iff (hx : x.Normal) (hy : y.Normal) :
    CmpRight x y ↔ LowSign (x.sec - y.sec) := by
  obtain ⟨hx0, hx1⟩ := hx
  obtain ⟨hy0, hy1⟩ := hy
  by_cases hsec : x.sec - y.sec = 0
  · refine iff_of_true ?_ (.inl hsec)
    have hlow : LowSign (x.usec - y.usec) := by
      rw [LowSign]
      omega
    obtain ⟨hneg, hzero⟩ := (toInt_sign _).mp hlow
    constructor
    · rw [timevalCmp, Timeval.micros, Timeval.micros]
      omega
    · rw [timevalCmp, Timeval.micros, Timeval.micros]
      omega
  · have hcmp : timevalCmp x y = (BitVec.ofInt 32 (x.sec - y.sec)).toInt := if_pos hsec
    rw [toInt_sign]
    constructor
    · intro h
      rw [← hcmp, h.neg, h.zero, Timeval.micros, Timeval.micros]
      omega
    · rintro ⟨hneg, hzero⟩
      constructor
      · rw [Timeval.micros, Timeval.micros]
        omega
      · rw [Timeval.micros, Timeval.micros]
        omega

/-- The arithmetic is right unless a time stamp of whole seconds is subtracted, and the comparison
unless the seconds are too far apart. -/
theorem timestamps_right_iff (ht : t.Normal) (hx : x.Normal) (hy : y.Normal) (s : Int) :
    ArithRight t s ∧ CmpRight x y ↔ t.usec ≠ 0 ∧ LowSign (x.sec - y.sec) :=
  and_congr (arithRight_iff ht) (cmpRight_iff hx hy)

theorem timestamps_right_quarter :
    ArithRight ⟨5, 250000⟩ 7 ∧ CmpRight ⟨1, 999999⟩ ⟨2, 0⟩ :=
  (timestamps_right_iff ⟨by decide, by decide⟩ ⟨by decide, by decide⟩ ⟨by decide, by decide⟩ 7).mpr
    ⟨by decide, .inr (.inr ⟨by decide, by decide⟩)⟩

/-- Seven seconds minus five. -/
theorem wholeSeconds_not_right : Timeval.Normal ⟨5, 0⟩ ∧ ¬ ArithRight ⟨5, 0⟩ 7 := by
  refine ⟨⟨by decide, by decide⟩, fun h => ?_⟩
  have := h.secsMinus.1.lt
  simp [secsMinus] at this

theorem idTime_is (hfirst : first.Normal) (id : Nat) :
    (idTime first id).Is (first.micros + 1000 * id) := by
  obtain ⟨hnonneg, hlt⟩ := hfirst
  unfold idTime
  dsimp only
  split
  · refine ⟨⟨?_, ?_⟩, ?_⟩
    · dsimp only
      omega
    · dsimp only
      omega
    · simp only [Timeval.micros]
      omega
  · refine ⟨⟨?_, ?_⟩, ?_⟩
    · dsimp only
      omega
    · dsimp only
      omega
    · simp only [Timeval.micros]
      omega

theorem floor_idTime {ts : Timeval} {id : Nat} (h : ts.Is (first.micros + 1000 * id))
    (hid : id < 2 ^ 32) : ⌊timevalSubtract ts first * 1000⌋.toNat % 2 ^ 32 = id := by
  have hexact : timevalSubtract ts first * 1000 = (id : ℚ) := by
    have hmicros : ((ts.micros : Int) : ℚ) = ((first.micros + 1000 * id : Int) : ℚ) :=
      congrArg _ h.2
    simp only [Timeval.micros] at hmicros
    push_cast at hmicros
    unfold timevalSubtract
    linarith
  rw [hexact, Int.floor_natCast, Int.toNat_natCast, Nat.mod_eq_of_lt hid]

/-- A buffer that has got its first time stamp. -/
structure Started (first : Bool) (firstTs : Timeval) (tupleId : Nat) : Prop where
  first : first = false
  normal : firstTs.Normal
  id : tupleId < 2 ^ 32

variable {α : Type}

/-- The time stamp of the tuple id is exact and normalised, and gives the tuple id back, in a
`winbuf` unless its seconds are 0, which stands for now. -/
theorem getTimestamp_inverts {w : Winbuf α} {v : WindowBuf α}
    (hw : Started w.first w.firstTs w.tupleId) (hv : Started v.first v.firstTs v.tupleId)
    (now current : Timeval) :
    w.getTimestamp.Is (w.firstTs.micros + 1000 * w.tupleId) ∧
      (w.getTimestamp.sec ≠ 0 →
        (w.updateTupleID (some (arrival w.getTimestamp now))).tupleId = w.tupleId) ∧
      (v.getTimestamp true current).Is (v.firstTs.micros + 1000 * v.tupleId) ∧
      (v.updateTupleID (some (v.getTimestamp true current))).tupleId = v.tupleId := by
  have hwis := idTime_is hw.normal w.tupleId
  have hvis := idTime_is hv.normal v.tupleId
  refine ⟨hwis, fun hsec => ?_, hvis, ?_⟩
  · rw [arrival, if_neg hsec]
    simp only [Winbuf.updateTupleID, hw.first]
    exact floor_idTime hwis hw.id
  · simp only [WindowBuf.updateTupleID, hv.first]
    exact floor_idTime hvis hv.id

def startedWinbuf (firstTs : Timeval) (tupleId : Nat) : Winbuf Nat :=
  { newWinbuf unusedTuples 10 with first := false, firstTs := firstTs, tupleId := tupleId }

theorem getTimestamp_inverts_two :
    ((startedWinbuf ⟨5, 999999⟩ 2).updateTupleID
      (some (arrival (startedWinbuf ⟨5, 999999⟩ 2).getTimestamp ⟨9, 0⟩))).tupleId = 2 := by
  have hw : Started (startedWinbuf ⟨5, 999999⟩ 2).first (startedWinbuf ⟨5, 999999⟩ 2).firstTs
      (startedWinbuf ⟨5, 999999⟩ 2).tupleId := ⟨rfl, ⟨by decide, by decide⟩, by decide⟩
  have hv : Started ({ newWindowBuf unusedKeyTuples 10 with first := false } : WindowBuf Nat).first
      ⟨0, 0⟩ 0 := ⟨rfl, ⟨by decide, by decide⟩, by decide⟩
  exact (getTimestamp_inverts hw
    (v := { newWindowBuf unusedKeyTuples 10 with first := false }) hv ⟨9, 0⟩ ⟨0, 0⟩).2.1 (by decide)

/-- One second after a first time stamp of -1 seconds, at 100 seconds. -/
theorem getTimestamp_zero : (startedWinbuf ⟨-1, 0⟩ 1000).getTimestamp = ⟨0, 0⟩ ∧
    ((startedWinbuf ⟨-1, 0⟩ 1000).updateTupleID
      (some (arrival (startedWinbuf ⟨-1, 0⟩ 1000).getTimestamp ⟨100, 0⟩))).tupleId ≠ 1000 := by
  have htime : (startedWinbuf ⟨-1, 0⟩ 1000).getTimestamp = ⟨0, 0⟩ := by decide
  refine ⟨htime, ?_⟩
  rw [htime]
  have hexact : timevalSubtract ⟨100, 0⟩ ⟨-1, 0⟩ * 1000 = ((101000 : Int) : ℚ) := by
    norm_num [timevalSubtract]
  show ⌊timevalSubtract ⟨100, 0⟩ ⟨-1, 0⟩ * 1000⌋.toNat % 2 ^ 32 ≠ 1000
  rw [hexact, Int.floor_intCast]
  decide

end StreamMill.Window
