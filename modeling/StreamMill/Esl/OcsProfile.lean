import Mathlib.Algebra.Order.Field.Basic
import Mathlib.Algebra.Order.Ring.Rat
import StreamMill.Esl.WeightProfile

/-!
# StreamMill.Esl.OcsProfile

Output-capacity scheduling (`OCSProfile`, `strategy.cc`). A statement is ranked by the output it can
bring about in a unit of time along the path behind it: from its own statistics and the entry of the
statement its output goes to. The numbers are exact rationals here.
-/

namespace StreamMill.Esl

def NUM_INPUT_BEFORE_SET_STAT : Nat := 300

inductive QuotaMode where
  | quotaTimeMode
  | quotaCountMode
deriving DecidableEq

/-- `stmt_entry`: what the monitor has counted of a statement. -/
structure StmtStat where
  totalInput : Nat
  totalOutput : Nat
  totalPTime : ℚ
  lastKnownSelectivity : ℚ
  lastKnownProcessRate : ℚ

abbrev StmtStats := Name → Option StmtStat

def StmtStat.enough (m : StmtStat) : Bool :=
  NUM_INPUT_BEFORE_SET_STAT ≤ m.totalInput ∨ 0 < m.lastKnownSelectivity ∧ 0 < m.lastKnownProcessRate

structure OcsPath where
  outputProcTime : ℚ
  pathCapacity : ℚ
  pathSelectivity : ℚ
  priority : ℚ

def WeightProfile.DEFAULT_VALUE : ℚ := 1000000000

def OcsPath.default : OcsPath :=
  { outputProcTime := 0
    pathCapacity := WeightProfile.DEFAULT_VALUE
    pathSelectivity := WeightProfile.DEFAULT_VALUE
    priority := WeightProfile.DEFAULT_VALUE }

def calculatePriority (pathCapacity pathSelectivity : ℚ) : ℚ := pathCapacity * pathSelectivity

structure Rank where
  priority : ℚ
  rankSet : Bool

structure OCSEntry where
  oriPriority : ℚ
  priority : ℚ
  expectedQMax : Int
  outputProcTime : ℚ
  pathCapacity : ℚ
  pathSelectivity : ℚ

def OCSEntry.new (r : Rank) : OCSEntry :=
  { oriPriority := if r.rankSet then r.priority else WeightProfile.DEFAULT_VALUE
    priority := WeightProfile.DEFAULT_VALUE
    expectedQMax := 0
    outputProcTime := 0
    pathCapacity := WeightProfile.DEFAULT_VALUE
    pathSelectivity := WeightProfile.DEFAULT_VALUE }

def OCSEntry.path (e : OCSEntry) : OcsPath :=
  ⟨e.outputProcTime, e.pathCapacity, e.pathSelectivity, e.oriPriority⟩

/-- Under `QUOTA_TIME_MODE` the share is one of time, not of tuples. -/
def QuotaMode.adjust (mode : QuotaMode) (p : OcsPath) : ℚ :=
  match mode with
  | .quotaTimeMode => p.priority * p.pathCapacity
  | .quotaCountMode => p.priority

def OCSEntry.setPath (mode : QuotaMode) (e : OCSEntry) (p : OcsPath) : OCSEntry :=
  { e with
    outputProcTime := p.outputProcTime
    pathCapacity := p.pathCapacity
    pathSelectivity := p.pathSelectivity
    oriPriority := p.priority
    priority := mode.adjust p }

namespace StmtStat

def sinkPath (m : StmtStat) : OcsPath :=
  if NUM_INPUT_BEFORE_SET_STAT ≤ m.totalInput then
    let outputProcTime := m.totalPTime / m.totalInput
    let pathCapacity := 1 / outputProcTime
    let pathSelectivity := (m.totalOutput : ℚ) / m.totalInput
    ⟨outputProcTime, pathCapacity, pathSelectivity, calculatePriority pathCapacity pathSelectivity⟩
  else
    ⟨1 / m.lastKnownProcessRate, m.lastKnownProcessRate, m.lastKnownSelectivity,
      calculatePriority m.lastKnownProcessRate m.lastKnownSelectivity⟩

def opOutputProcTime (m : StmtStat) : ℚ :=
  if NUM_INPUT_BEFORE_SET_STAT ≤ m.totalInput then m.totalPTime / m.totalInput
  else 1 / m.lastKnownProcessRate

def opCapacity (m : StmtStat) : ℚ :=
  if NUM_INPUT_BEFORE_SET_STAT ≤ m.totalInput then m.totalInput / m.totalPTime
  else m.lastKnownProcessRate

def opSelectivity (m : StmtStat) : ℚ :=
  if NUM_INPUT_BEFORE_SET_STAT ≤ m.totalInput then (m.totalOutput : ℚ) / m.totalInput
  else m.lastKnownSelectivity

/-- The path of a statement before the one with the entry `se2`. -/
def path (m : StmtStat) (se2 : OCSEntry) : OcsPath :=
  let pathSelectivity := m.opSelectivity * se2.pathSelectivity
  let pathCapacity :=
    (1 / m.opSelectivity) / (1 / (m.opCapacity * m.opSelectivity) + 1 / se2.pathCapacity)
  { outputProcTime := m.opOutputProcTime + se2.outputProcTime
    pathCapacity := pathCapacity
    pathSelectivity := pathSelectivity
    priority := calculatePriority pathCapacity pathSelectivity }

end StmtStat

/-- `ocsInfo`, which is sorted by the names of the statements, and the ranks of the statements. -/
structure OcsState where
  ocsInfo : AList fun _ : Name => OCSEntry
  rank : StmtId → Rank

section UpdatePriority

variable (cat : Catalog) (stats : StmtStats) (mode : QuotaMode) (t : BufStateTbl)

def knownStat (s : StmtId) : Option StmtStat := (stats (cat s).name).filter StmtStat.enough

def OcsState.Ranked (st : OcsState) (s : StmtId) : Prop := (st.rank s).rankSet = true

instance (st : OcsState) (s : StmtId) : Decidable (st.Ranked s) :=
  inferInstanceAs (Decidable (_ = true))

def OcsState.entry (st : OcsState) (s : StmtId) : OCSEntry :=
  (st.ocsInfo.lookup (cat s).name).getD (.new (st.rank s))

def OcsState.ensure (st : OcsState) (s : StmtId) : OcsState :=
  if (st.ocsInfo.lookup (cat s).name).isSome then st
  else { st with ocsInfo := st.ocsInfo.insert (cat s).name (st.entry cat s) }

def OcsState.setPath (st : OcsState) (s : StmtId) (p : OcsPath) : OcsState :=
  { ocsInfo := st.ocsInfo.insert (cat s).name ((st.entry cat s).setPath mode p)
    rank := Function.update st.rank s ⟨mode.adjust p, true⟩ }

def forkDummies (b : Name) : List BufferEntry :=
  (t.entries.map Sigma.snd).filter fun e => e.bType = .forkDummy ∧ e.inplace = some b

/-- The loop over the dummies of a fork. Its test `s2 = NULL` is an assignment; the first branch
without a rank ends the loop. -/
def forkBranch (run : StmtId → OcsState → Option OcsState) :
    List BufferEntry → OcsState → Option (Option OCSEntry × OcsState)
  | [], st => some (none, st)
  | e :: _, st =>
    match e.statement with
    | none => none
    | some s3 =>
      match if st.Ranked s3 then some st else run s3 st with
      | none => none
      | some st => if st.Ranked s3 then none else some (none, st)

/-- The only statement downstream. `se2` is set by the call alone, so that it is undefined where
the statement has a rank before. -/
def onlyBranch (run : StmtId → OcsState → Option OcsState) (s2 : StmtId) (st : OcsState) :
    Option (Option OCSEntry × OcsState) :=
  if st.Ranked s2 then none
  else
    match run s2 st with
    | none => none
    | some st =>
      if st.Ranked s2 then some (some (st.entry cat s2), st) else some (none, st)

/-- `se2`, where the statement downstream has a rank. -/
def downstream (run : StmtId → OcsState → Option OcsState) (b : Name) (e : BufferEntry)
    (st : OcsState) : Option (Option OCSEntry × OcsState) :=
  if e.bType = .fork ∨ e.bType = .sourceFork then
    if e.forward = .forkCount (forkDummies t b).length then forkBranch run (forkDummies t b) st
    else some (none, st)
  else
    match e.statement with
    | none => none
    | some s2 => onlyBranch cat run s2 st

def setFound (s : StmtId) (m : StmtStat) : Option OCSEntry × OcsState → OcsState
  | (none, st) => st.setPath cat mode s .default
  | (some se2, st) => st.setPath cat mode s (m.path se2)

/-- `OCSProfile::update_priority`; a null pointer that is followed and an entry that was never set
have no result. -/
def updatePriority : Nat → StmtId → OcsState → Option OcsState
  | 0, _, _ => none
  | n + 1, s, st =>
    let st := st.ensure cat s
    if st.Ranked s then some st
    else
      match knownStat cat stats s with
      | none => some st
      | some m =>
        match t.lookup (cat s).out with
        | none => some (st.setPath cat mode s .default)
        | some e =>
          if e.bType = .sink ∨ e.bType = .mergeSink then some (st.setPath cat mode s m.sinkPath)
          else
            (downstream cat t (updatePriority n) (cat s).out e st).map (setFound cat mode s m)

def updatePriorities (n : Nat) : List StmtId → OcsState → Option OcsState
  | [], st => some st
  | s :: ss, st =>
    match updatePriority cat stats mode t n s st with
    | none => none
    | some st => updatePriorities n ss st

end UpdatePriority

end StreamMill.Esl
