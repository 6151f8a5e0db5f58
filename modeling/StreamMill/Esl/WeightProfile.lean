import StreamMill.Esl.GraphRun
import StreamMill.Lib.Depth

/-!
# StreamMill.Esl.WeightProfile

The weights of the scheduler (`WeightProfile`, `strategy.cc`). The user weighs the statements whose
output nothing reads. A statement before them gets the greatest weight of the statements that read
its output, and the statements that read a source are put into groups by weight. A flag on the
statement says that its weight is set; `update` walks the table once and clears the flags of the
statements it is about to weigh.
-/

namespace StreamMill.Esl

/-- The members of a statement that concern its weight. -/
structure Marks where
  weight : Int
  weightSet : Bool
  rankSet : Bool
  monitorSinkStat : Bool

abbrev Marking := StmtId → Marks

namespace Marking

def setWeight (w : Marking) (s : StmtId) (v : Int) : Marking :=
  Function.update w s { w s with weight := v, weightSet := true }

def setFlag (w : Marking) (s : StmtId) : Marking :=
  Function.update w s { w s with weightSet := true }

def clearWeight (w : Marking) (s : StmtId) : Marking :=
  Function.update w s { w s with weightSet := false }

def clear (w : Marking) (s : StmtId) : Marking :=
  Function.update w s { w s with weightSet := false, rankSet := false }

end Marking

structure WeightGroup where
  weight : Int
  vSEntries : List StmtId
deriving DecidableEq

def WeightGroup.addStmt (g : WeightGroup) (s : StmtId) : WeightGroup :=
  { g with vSEntries := g.vSEntries ++ [s] }

structure WeightProfile where
  queryGraph : BufStateTbl
  vSGroups : List WeightGroup
  totalSourceStmt : Nat

def WeightProfile.WEIGHT_MIN : Int := 1

def WeightProfile.new : WeightProfile := ⟨∅, [], 0⟩

section CalcWeight

variable (cat : Catalog) (t : BufStateTbl)

def weigh (run : StmtId → Marking → Option Marking) (s : StmtId) (w : Marking) : Option Marking :=
  if (w s).weightSet then some w else run s w

/-- The loop over the table that looks for the dummies of the fork `b`. -/
def forkWeight (run : StmtId → Marking → Option Marking) (b : Name) :
    List (Sigma fun _ : Name => BufferEntry) → Int → Marking → Option (Int × Marking)
  | [], maxWeight, w => some (maxWeight, w)
  | ⟨_, e⟩ :: es, maxWeight, w =>
    if e.bType = .forkDummy ∧ e.inplace = some b then
      match e.statement with
      | none => none
      | some s =>
        match weigh run s w with
        | none => none
        | some w => forkWeight run b es (max maxWeight (w s).weight) w
    else forkWeight run b es maxWeight w

/-- `WeightProfile::calc_weight`; a null pointer that is followed has no result. -/
def calcWeight : Nat → StmtId → Marking → Option Marking
  | 0, _, _ => none
  | n + 1, s, w =>
    if (w s).monitorSinkStat then some (w.setFlag s)
    else
      match t.lookup (cat s).out with
      | none => none
      | some e =>
        if e.bType = .fork ∨ e.bType = .mergeFork then
          match forkWeight (calcWeight n) (cat s).out t.entries WeightProfile.WEIGHT_MIN w with
          | none => none
          | some (v, w) => some (w.setWeight s v)
        else
          match e.statement with
          | none => none
          | some s2 =>
            match weigh (calcWeight n) s2 w with
            | none => none
            | some w => some (w.setWeight s (w s2).weight)

end CalcWeight

section Update

variable (cat : Catalog) (t : BufStateTbl)

/-- The statement goes to the group of its weight, at the place `lower_bound` finds in the groups
by decreasing weight. -/
def insertStmt (s : StmtId) (v : Int) (gs : List WeightGroup) : List WeightGroup :=
  let pre := gs.takeWhile fun g => v < g.weight
  match gs.dropWhile fun g => v < g.weight with
  | g :: post =>
    if g.weight = v then pre ++ g.addStmt s :: post else pre ++ ⟨v, [s]⟩ :: g :: post
  | [] => pre ++ [⟨v, [s]⟩]

def forkStmts (b : Option Name) :
    List (Sigma fun _ : Name => BufferEntry) → Option (List StmtId)
  | [] => some []
  | ⟨_, e⟩ :: es =>
    if e.bType = .forkDummy ∧ e.inplace = b then
      match e.statement with
      | none => none
      | some s => (forkStmts b es).map (s :: ·)
    else forkStmts b es

/-- `pStmts`: the statements that read a source. -/
def sourceStmts (e : BufferEntry) : Option (List StmtId) :=
  match e.bType with
  | .source => e.statement.map ([·])
  | .sourceFork => forkStmts e.buf t.entries
  | _ => some []

structure Walk where
  vSGroups : List WeightGroup
  totalSourceStmt : Nat
  marks : Marking

def Walk.put (a : Walk) (s : StmtId) (w : Marking) : Walk :=
  { vSGroups := insertStmt s (w s).weight a.vSGroups
    totalSourceStmt := a.totalSourceStmt + 1
    marks := w }

def groupStmts (n : Nat) : List StmtId → Walk → Option Walk
  | [], a => some a
  | s :: ss, a =>
    if (a.marks s).weightSet then groupStmts n ss a
    else
      match calcWeight cat t n s a.marks with
      | none => none
      | some w => groupStmts n ss (a.put s w)

def visit (n : Nat) (e : BufferEntry) (a : Walk) : Option Walk :=
  match sourceStmts t e with
  | none => none
  | some ss => groupStmts cat t n ss { a with marks := ss.foldl Marking.clearWeight a.marks }

def visits (n : Nat) : List (Sigma fun _ : Name => BufferEntry) → Walk → Option Walk
  | [], a => some a
  | ⟨_, e⟩ :: es, a =>
    match visit cat t n e a with
    | none => none
    | some a => visits n es a

def clearEntry (w : Marking) (e : BufferEntry) : Marking :=
  if e.bType ≠ .sink ∧ e.bType ≠ .mergeSink then
    match e.statement with
    | some s => w.clear s
    | none => w
  else w

def clearGraph (g : BufStateTbl) (w : Marking) : Marking :=
  g.entries.foldl (fun w e => clearEntry w e.2) w

def WeightProfile.update (n : Nat) (p : WeightProfile) (w : Marking) :
    Option (WeightProfile × Marking) :=
  match visits cat t n t.entries ⟨[], 0, clearGraph p.queryGraph w⟩ with
  | none => none
  | some a => some (⟨t, a.vSGroups, a.totalSourceStmt⟩, a.marks)

end Update

end StreamMill.Esl
