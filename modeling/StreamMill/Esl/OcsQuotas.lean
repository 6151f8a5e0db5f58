import Mathlib.Data.Rat.Floor
import StreamMill.Esl.OcsProfile

/-!
# StreamMill.Esl.OcsQuotas

The quotas of output-capacity scheduling (`OCSProfile::update`, `update_quotas`, `strategy.cc`). The
statements that read a source are ranked, and a round of `roundTotal` tuples is shared among those
with a rank in proportion to their priorities; the others get the same quota each.
-/

namespace StreamMill.Esl

def WeightGroupSchedule.AVG_PER_JOB_ROUND : Int := 500

def WeightOnlyProfile.DEFAULT_QUOTA : Int := 150

def WeightOnlyProfile.MIN_QUOTA : Int := 5

def Monitor.EFFECTIVE_CPU_UTILIZATION : ℚ := 1

structure StmtEntry where
  pStmt : StmtId
  oriPriority : ℚ
  priority : ℚ
  expectedQMax : Int
  outputProcTime : ℚ

structure OcsGroup where
  weight : Int
  vSEntries : List StmtEntry

structure Quota where
  quota : Int
  quotaLeft : Int
  deadlineQuota : Int

abbrev Quotas := StmtId → Quota

def Quotas.set (q : Quotas) (s : StmtId) (v : Int) : Quotas := Function.update q s ⟨v, v, 0⟩

structure OcsProfile where
  roundTotal : Int
  mode : QuotaMode
  weights : WeightProfile
  vSGroups : List OcsGroup
  maxPriority : ℚ
  totalSrcOriPriority : ℚ
  totalSrcPriority : ℚ
  ocs : OcsState

section Ranking

variable (cat : Catalog) (stats : StmtStats) (mode : QuotaMode) (t : BufStateTbl)

/-- The state while the source statements are ranked. -/
structure Ranking where
  maxPriority : ℚ
  totalSrcOriPriority : ℚ
  totalSrcPriority : ℚ
  ocs : OcsState

/-- `WeightProfile::update_priority` copies from the entry that is returned. -/
def StmtEntry.of (s : StmtId) (e : OCSEntry) : StmtEntry :=
  { pStmt := s
    oriPriority := e.oriPriority
    priority := e.priority
    expectedQMax := e.expectedQMax
    outputProcTime := e.outputProcTime }

/-- The totals with an entry, if its statement has got a rank. -/
def Ranking.count (a : Ranking) (st : OcsState) (se : StmtEntry) : Ranking :=
  if st.Ranked se.pStmt then
    { totalSrcOriPriority := a.totalSrcOriPriority + se.oriPriority
      totalSrcPriority := a.totalSrcPriority + se.priority
      maxPriority := if a.maxPriority < se.priority then se.priority else a.maxPriority
      ocs := st }
  else { a with ocs := st }

def rankEntries (n : Nat) : List StmtId → Ranking → Option (List StmtEntry × Ranking)
  | [], a => some ([], a)
  | s :: ss, a =>
    match updatePriority cat stats mode t n s a.ocs with
    | none => none
    | some st =>
      let se := StmtEntry.of s (st.entry cat s)
      (rankEntries n ss (a.count st se)).map fun r => (se :: r.1, r.2)

def rankGroups (n : Nat) : List WeightGroup → Ranking → Option (List OcsGroup × Ranking)
  | [], a => some ([], a)
  | g :: gs, a =>
    match rankEntries cat stats mode t n g.vSEntries a with
    | none => none
    | some (es, a) => (rankGroups n gs a).map fun r => (⟨g.weight, es⟩ :: r.1, r.2)

def OcsState.reset (stmts : List StmtId) (st : OcsState) : OcsState :=
  stmts.foldl (fun st s =>
    { ocsInfo := st.ocsInfo.insert (cat s).name (.new ⟨WeightProfile.DEFAULT_VALUE, false⟩)
      rank := Function.update st.rank s ⟨WeightProfile.DEFAULT_VALUE, false⟩ })
    { st with ocsInfo := ∅ }

def Quotas.reset (stmts : List StmtId) (q : Quotas) : Quotas :=
  stmts.foldl (fun q s => q.set s WeightOnlyProfile.DEFAULT_QUOTA) q

end Ranking

section UpdateQuotas

def OcsProfile.round (p : OcsProfile) : Int :=
  if p.roundTotal = -1 then
    WeightGroupSchedule.AVG_PER_JOB_ROUND / WeightOnlyProfile.MIN_QUOTA * p.weights.totalSourceStmt
  else p.roundTotal

def OcsProfile.share (p : OcsProfile) (priority : ℚ) : ℚ :=
  priority * p.round / p.totalSrcPriority

variable (cat : Catalog)

def OcsProfile.quotaOf (p : OcsProfile) (se : StmtEntry) : Int :=
  if p.ocs.Ranked se.pStmt then ⌈p.share se.priority⌉ * WeightOnlyProfile.MIN_QUOTA
  else WeightGroupSchedule.AVG_PER_JOB_ROUND

def OcsProfile.expectedQMaxOf (p : OcsProfile) (se : StmtEntry) : Int :=
  if p.ocs.Ranked se.pStmt then
    match p.ocs.ocsInfo.lookup (cat se.pStmt).name with
    | some ocse => ⌈Monitor.EFFECTIVE_CPU_UTILIZATION * se.oriPriority * ocse.pathCapacity /
        p.totalSrcOriPriority⌉
    | none => se.expectedQMax
  else 0

/-- `gtSE`, and `gtOriSE` where the priorities are those of tuples. -/
def QuotaMode.gtSE (mode : QuotaMode) (e e' : StmtEntry) : Bool :=
  match mode with
  | .quotaTimeMode => e'.priority < e.priority
  | .quotaCountMode => e'.oriPriority < e.oriPriority

def OcsProfile.updateGroup (p : OcsProfile) (g : OcsGroup) : OcsGroup :=
  { g with
    vSEntries := (g.vSEntries.map fun se =>
      { se with expectedQMax := p.expectedQMaxOf cat se }).mergeSort fun e e' => !p.mode.gtSE e' e }

def OcsProfile.updateQuotas (p : OcsProfile) (q : Quotas) : OcsProfile × Quotas :=
  if p.maxPriority = 0 then (p, q)
  else
    let entries := p.vSGroups.flatMap OcsGroup.vSEntries
    let q :=
      if WeightGroupSchedule.AVG_PER_JOB_ROUND = 1 then
        entries.foldl (fun q se => q.set se.pStmt WeightOnlyProfile.DEFAULT_QUOTA) q
      else q
    ({ p with roundTotal := p.round, vSGroups := p.vSGroups.map (p.updateGroup cat) },
      entries.foldl (fun q se => q.set se.pStmt (p.quotaOf se)) q)

end UpdateQuotas

section Update

variable (cat : Catalog) (stats : StmtStats) (d : Driver)

def OcsProfile.new (mode : QuotaMode) (roundTotal : Int) (st : OcsState) : OcsProfile :=
  { roundTotal := roundTotal, mode := mode, weights := .new, vSGroups := [], maxPriority := 0,
    totalSrcOriPriority := 0, totalSrcPriority := 0, ocs := st }

/-- `OCSProfile::update` before the quotas. -/
def OcsProfile.prioritize (n : Nat) (p : OcsProfile) (w : Marking) :
    Option (OcsProfile × Marking) :=
  match p.weights.update cat d.bufStateTable n w with
  | none => none
  | some (wp, w) =>
    (rankGroups cat stats p.mode d.bufStateTable n wp.vSGroups
      ⟨0, 0, 0, p.ocs.reset cat d.stmts⟩).map fun r =>
        ({ p with
            weights := wp
            vSGroups := r.1
            maxPriority := r.2.maxPriority
            totalSrcOriPriority := r.2.totalSrcOriPriority
            totalSrcPriority := r.2.totalSrcPriority
            ocs := r.2.ocs }, w)

def OcsProfile.update (n : Nat) (p : OcsProfile) (w : Marking) (q : Quotas) :
    Option (OcsProfile × Marking × Quotas) :=
  (p.prioritize cat stats d n w).map fun r =>
    let pq := r.1.updateQuotas cat (q.reset d.stmts)
    (pq.1, r.2, pq.2)

end Update

end StreamMill.Esl
