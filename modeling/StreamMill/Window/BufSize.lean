import StreamMill.Window.WindowBuf
import StreamMill.Esl.Driver

/-!
# StreamMill.Window.BufSize

The count of a `windowBuf` over its calls, and what `WRRDLGroupSchedule::updateQuotaByDeadline` of
`strategy.cc` makes of it. Reals are exact.
-/

namespace StreamMill.Window

open ImDb Lib

/-- The fields of a statement and of its entry that `updateQuotaByDeadline` uses. -/
structure StmtEntry where
  type : Esl.StmtType
  deadline : Int
  expectedQMax : Int
  quota : BitVec 32
  quotaLeft : BitVec 32
  deadlineQuota : BitVec 32
  deriving DecidableEq

def StmtEntry.resetDeadlineQuota (s : StmtEntry) : StmtEntry :=
  if 0 < s.deadlineQuota.toInt then { s with deadlineQuota := 0 } else s

def StmtEntry.increaseDeadlineQuota (s : StmtEntry) : StmtEntry :=
  { s with
    deadlineQuota := if s.deadlineQuota = 0 then s.quota * 2 else s.deadlineQuota * 2
    quotaLeft := if s.deadlineQuota = 0 then s.quota * 2 else s.deadlineQuota * 2 }

/-- `max_size`, with `last_win_total_p_time` -/
def StmtEntry.maxSize (s : StmtEntry) (lastWinTotalPTime : ℚ) : Int :=
  ⌈s.deadline * (if lastWinTotalPTime < 1 / 2 then 1 / 2 else lastWinTotalPTime) *
    s.expectedQMax⌉

/-- `curSize` is the `bufSize()` of the statement's input. -/
def updateQuotaByDeadline (s : StmtEntry) (lastWinTotalPTime : ℚ) (curSize : Int) : StmtEntry :=
  if s.deadline = 0 ∨ s.expectedQMax = 0 then s
  else if s.type = .tUnion ∨ s.type = .tlUnion ∨ s.type = .join then s
  else if curSize = 0 then s.resetDeadlineQuota
  else if s.maxSize lastWinTotalPTime > curSize then s.resetDeadlineQuota
  else s.increaseDeadlineQuota

inductive BufOp (α : Type) where
  | updateTupleID (ts : Option Timeval)
  | put (data : α)
  | pop
  deriving DecidableEq

section

variable {α : Type} [DecidableEq α] [Inhabited α]

def BufOp.run (w : WindowBuf α) : BufOp α → Except Fault (WindowBuf α × Nat)
  | .updateTupleID ts => .ok (w.updateTupleID ts, 0)
  | .put data => do
    let w ← w.put data
    return (w, 0)
  | .pop => do
    let (w, popped) ← w.pop
    return (w, if popped then 1 else 0)

def runOps (w : WindowBuf α) : List (BufOp α) → Except Fault (WindowBuf α × Nat)
  | [] => .ok (w, 0)
  | op :: ops => do
    let (w, popped) ← op.run w
    let (w, rest) ← runOps w ops
    return (w, popped + rest)

omit [DecidableEq α] [Inhabited α] in
def BufOp.isPut : BufOp α → Bool
  | .put _ => true
  | _ => false

variable {w : WindowBuf α} {es : List (WinTuple α)}

omit [DecidableEq α] [Inhabited α] in
theorem updateTupleID_lt (w : WindowBuf α) (ts : Option Timeval) :
    (w.updateTupleID ts).tupleId < 2 ^ 32 := by
  cases ts with
  | none => exact Nat.mod_lt _ (by decide)
  | some ts => exact Nat.mod_lt _ (by decide)

theorem BufOp.call_holds (op : BufOp α) (h : w.Holds es) (hid : w.tupleId < 2 ^ 32) :
    ∃ w' popped es', op.run w = .ok (w', popped) ∧ w'.Holds es' ∧ w'.tupleId < 2 ^ 32 ∧
      es'.length + popped = es.length + (if op.isPut then 1 else 0) ∧ w'.n = w.n - popped := by
  cases op with
  | updateTupleID ts =>
    refine ⟨_, 0, es, rfl, ?_, updateTupleID_lt w ts, rfl, ?_⟩
    · cases ts <;> exact h
    · cases ts <;> exact (Int.sub_zero _).symm
  | put data =>
    obtain ⟨w', hput, hw', hsame, hn⟩ := WindowBuf.put_holds h hid data
    refine ⟨w', 0, _, ?_, hw', ?_, ?_, ?_⟩
    · rw [BufOp.run, hput]
      rfl
    · rw [hsame.2.1]
      exact hid
    · rw [List.length_append]
      rfl
    · rw [hn]
      exact (Int.sub_zero _).symm
  | pop =>
    obtain ⟨w', hpop, hw', hsame, hn⟩ := WindowBuf.pop_holds h
    refine ⟨w', if !es.isEmpty then 1 else 0, es.tail, ?_, hw', ?_, ?_, ?_⟩
    · rw [BufOp.run, hpop]
      rfl
    · rw [hsame.2.1]
      exact hid
    · cases es <;> rfl
    · rw [hn]
      cases es <;> rfl

/-- Any calls: `n` is counted down for the tuples popped, and never up. -/
theorem runOps_holds (ops : List (BufOp α)) (h : w.Holds es) (hid : w.tupleId < 2 ^ 32) :
    ∃ w' popped es', runOps w ops = .ok (w', popped) ∧ w'.Holds es' ∧
      es'.length + popped = es.length + ops.countP BufOp.isPut ∧ w'.n = w.n - popped := by
  induction ops generalizing w es with
  | nil => exact ⟨w, 0, es, rfl, h, rfl, (Int.sub_zero _).symm⟩
  | cons op ops ih =>
    obtain ⟨w₁, p₁, es₁, hop, hw₁, hid₁, hlen₁, hn₁⟩ := op.call_holds h hid
    obtain ⟨w', p₂, es', hrun, hw', hlen, hn⟩ := ih hw₁ hid₁
    refine ⟨w', p₁ + p₂, es', ?_, hw', ?_, ?_⟩
    · rw [runOps, hop]
      simp only [ok_bind, hrun]
      rfl
    · rw [List.countP_cons]
      omega
    · omega

end

theorem maxSize_nonneg {s : StmtEntry} (hd : 0 ≤ s.deadline) (hq : 0 ≤ s.expectedQMax)
    (time : ℚ) : 0 ≤ s.maxSize time := by
  have hd : (0 : ℚ) ≤ s.deadline := by exact_mod_cast hd
  have hq : (0 : ℚ) ≤ s.expectedQMax := by exact_mod_cast hq
  have ht : (0 : ℚ) ≤ if time < 1 / 2 then 1 / 2 else time := by
    split
    · norm_num
    · next h => linarith [not_lt.mp h]
  exact Int.ceil_nonneg (mul_nonneg (mul_nonneg hd ht) hq)

theorem updateQuotaByDeadline_nonpos {s : StmtEntry} (hd : 0 ≤ s.deadline)
    (hq : 0 ≤ s.expectedQMax) (time : ℚ) {curSize : Int} (h : curSize ≤ 0) :
    updateQuotaByDeadline s time curSize = updateQuotaByDeadline s time 0 := by
  rcases eq_or_ne curSize 0 with rfl | hne
  · rfl
  · have hmax := maxSize_nonneg hd hq time
    have hgt : s.maxSize time > curSize := by omega
    rw [updateQuotaByDeadline, updateQuotaByDeadline, if_neg hne, if_pos hgt, if_pos rfl]

def leastEntry : StmtEntry :=
  { type := .normal, deadline := 1, expectedQMax := 1, quota := 1, quotaLeft := 0,
    deadlineQuota := 0 }

theorem leastEntry_maxSize : leastEntry.maxSize 0 = 1 := by
  rw [StmtEntry.maxSize, leastEntry]
  norm_num

theorem leastEntry_empty : updateQuotaByDeadline leastEntry 0 0 = leastEntry := rfl

theorem leastEntry_filled {curSize : Int} (h : 0 < curSize) :
    updateQuotaByDeadline leastEntry 0 curSize ≠ leastEntry := by
  have hne : curSize ≠ 0 := by omega
  have hgt : ¬ leastEntry.maxSize 0 > curSize := by
    rw [leastEntry_maxSize]
    omega
  rw [updateQuotaByDeadline, if_neg hne, if_neg hgt]
  decide

variable {α : Type} [DecidableEq α] [Inhabited α]

/-- After any calls the count is the number of stored tuples only if there was no put; the
scheduler decides by the true length only if there are no tuples. -/
theorem bufSize_iff (mem : Addr → Tuple 4 α) (size : Nat) (ops : List (BufOp α)) :
    ∃ w popped es, runOps (newWindowBuf mem size) ops = .ok (w, popped) ∧ w.Holds es ∧
      (es.length : Int) = ops.countP BufOp.isPut - popped ∧
      (w.bufSize = es.length ↔ ∀ op ∈ ops, op.isPut = false) ∧
      ((∀ s : StmtEntry, 0 ≤ s.deadline → 0 ≤ s.expectedQMax → ∀ time,
        updateQuotaByDeadline s time w.bufSize = updateQuotaByDeadline s time es.length) ↔
          es = []) := by
  obtain ⟨w, popped, es, hrun, hw, hlen, hn⟩ :=
    runOps_holds ops (newWindowBuf_holds mem size) (Nat.two_pow_pos 32)
  have hn : w.bufSize = -popped := by
    rw [WindowBuf.bufSize, hn]
    exact Int.zero_sub _
  rw [List.length_nil, Nat.zero_add] at hlen
  refine ⟨w, popped, es, hrun, hw, by omega, ?_, ?_, ?_⟩
  · rw [hn]
    have hzero : ops.countP BufOp.isPut = 0 ↔ ∀ op ∈ ops, op.isPut = false := by
      simp
    rw [← hzero]
    omega
  · intro h
    have hleast := h leastEntry (by decide) (by decide) 0
    rw [updateQuotaByDeadline_nonpos (by decide) (by decide) 0
      (show w.bufSize ≤ 0 by omega), leastEntry_empty] at hleast
    by_contra hne
    have hpos := List.length_pos_iff.mpr hne
    exact leastEntry_filled (by omega) hleast.symm
  · rintro rfl s hd hq time
    exact updateQuotaByDeadline_nonpos hd hq time (by omega)

/-- After one put the count is `0`. -/
theorem bufSize_after_put : ∃ w es,
    runOps (newWindowBuf (fun _ => ⟨idKey 0, (0 : Nat), false, 0, 0, none⟩) 5) [.put 7] =
      .ok (w, 0) ∧ w.Holds es ∧ w.bufSize ≠ es.length := by
  obtain ⟨w, hput, hw, -, hn⟩ := WindowBuf.put_holds
    (newWindowBuf_holds (fun _ => ⟨idKey 0, (0 : Nat), false, 0, 0, none⟩) 5) (by decide) 7
  refine ⟨w, _, ?_, hw, ?_⟩
  · rw [runOps, BufOp.run, hput]
    rfl
  · rw [WindowBuf.bufSize, hn]
    decide

end StreamMill.Window
