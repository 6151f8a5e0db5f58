import StreamMill.Esl.RunState

/-!
# StreamMill.Esl.OperatorPriority

The scheduler of the running system, `OperatorPriorityStrategy::runNextUnit` of `strategy.cc`, which
`Driver::run` calls for the strategy that `querySchdl::runDriver` creates. A call walks through the
statements from the highest priority down and executes those that have input, up to and including
the first one that has a rank. Tuples come in at any time, and the statistics can end a call at any
visit. Joins are not modelled (`none`).
-/

namespace StreamMill.Esl.OperatorPriority

/-- An execution of a statement on a tuple of the buffer that `in` stands for. -/
structure Exec (τ : Type) where
  stmt : StmtId
  buf : Name
  tuple : τ
  output : List τ

/-- `came` is all that was ever put to a buffer, and `execs` are the executions so far; no function
reads them. -/
structure OpSt (τ ω : Type) where
  store : Name → List τ
  processed : Name → Bool
  nTuples : Int
  world : ω
  came : Name → List τ
  execs : List (Exec τ)

/-- The code of the statements. `pick` is the search of a union for the input to take a tuple from;
what it looks at besides the inputs is in the world. -/
structure Code (cat : Catalog) (τ ω : Type) where
  exe : StmtId → Name → ω → τ → List τ × ExeRc × ω
  pick : StmtId → ω → (Name → List τ) → Option Name
  picks : ∀ s w st b, pick s w st = some b → b ∈ (cat s).unionBufs ∧ st b ≠ []

/-- A visit of the loop to an entry of `stmtsInfo`, with what comes from outside: tuples, the flag
`new_arrival` where it is read, and whether the statistics ask for new priorities or change the
strategy. -/
structure Visit (τ : Type) where
  stmt : StmtId
  arrivals : List (Name × List τ)
  newArrival : Bool
  newArrival₂ : Bool
  update : Bool
  tableChanged : Bool

/-- What a call finds: the statements of the manager's map, and those whose priority is no longer
`MAX_PRIORITY`. -/
structure Ranks where
  inUse : StmtId → Bool
  ranked : StmtId → Bool

/-- The variable `s_rc`, with `none` for `s_no_input`. -/
abbrev SRc := Option ExeRc

/-- How a visit ends: the loop goes on, or leaves, or the call returns. -/
inductive VisitEnd (τ ω : Type)
  | next (firstTuple : Bool) (rc : SRc) (σ : OpSt τ ω)
  | leave (rc : SRc) (σ : OpSt τ ω)
  | return (σ : OpSt τ ω)

section Model

variable {τ ω : Type}

namespace OpSt

def put (σ : OpSt τ ω) (b : Name) (ds : List τ) : OpSt τ ω :=
  { σ with store := Function.update σ.store b (σ.store b ++ ds)
           came := Function.update σ.came b (σ.came b ++ ds) }

def pop (σ : OpSt τ ω) (b : Name) : OpSt τ ω :=
  { σ with store := Function.update σ.store b (σ.store b).tail }

def spend (σ : OpSt τ ω) : OpSt τ ω := { σ with nTuples := σ.nTuples - 1 }

def mark (σ : OpSt τ ω) (k : Name) : OpSt τ ω :=
  { σ with processed := Function.update σ.processed k true }

def unmark (σ : OpSt τ ω) (ks : List Name) : OpSt τ ω :=
  { σ with processed := fun k => if ks.contains k then false else σ.processed k }

def arrive (σ : OpSt τ ω) (as : List (Name × List τ)) : OpSt τ ω :=
  as.foldl (fun σ a => σ.put a.1 a.2) σ

/-- An execution of `s` on the tuple `d` of `b`. -/
def exec (σ : OpSt τ ω) (s : StmtId) (b : Name) (d : τ) (out : Name) (r : List τ × ExeRc × ω) :
    OpSt τ ω :=
  { σ.put out r.1 with world := r.2.2, execs := σ.execs ++ [⟨s, b, d, r.1⟩] }

end OpSt

variable (cat : Catalog) (t : BufStateTbl) (code : Code cat τ ω)

/-- `s->exe()` with `in` at `b`. -/
def exeAt (s : StmtId) (b : Name) (σ : OpSt τ ω) : Option ExeRc × OpSt τ ω :=
  match σ.store b with
  | [] => (none, σ)
  | d :: _ =>
    let r := code.exe s b σ.world d
    (some r.2.1, σ.exec s b d (cat s).out r)

/-- The dummy that stands for the statement in a fork; `none` if there is none, or one without a
statement. -/
def ownDummy (s : StmtId) (b : Name) : Option Name :=
  let named : Name → Option Name := fun k =>
    ((t.lookup k).bind BufferEntry.statement).map fun c => (cat c).name
  if (dummiesOf t b).all fun k => (named k).isSome then
    (dummiesOf t b).reverse.find? fun k => named k = some (cat s).name
  else none

def afterExe (rk : Ranks) (s : StmtId) (rc : ExeRc) (σ : OpSt τ ω) : VisitEnd τ ω :=
  if rk.ranked s then .leave (some rc) σ else .next false (some rc) σ

/-- The end of a visit to a statement without input, after `updateLastInTurn`. -/
def idle (v : Visit τ) (first : Bool) (σ : OpSt τ ω) : VisitEnd τ ω :=
  if v.tableChanged then .return σ else .next first none σ

/-- A fork that all branches are through with pops its tuple and opens them again. -/
def cleanFork (e : BufferEntry) (b : Name) (σ : OpSt τ ω) : OpSt τ ω :=
  let ks := dummiesOf t b
  if ks.all σ.processed then
    let σ := (σ.unmark ks).pop b
    if e.bType = .sourceFork then σ.spend else σ
  else σ

/-- A statement whose input is a fork, with its dummy `k`. -/
def visitFork (rk : Ranks) (v : Visit τ) (first : Bool) (e : BufferEntry) (s : StmtId) (k : Name)
    (σ : OpSt τ ω) : VisitEnd τ ω :=
  let σ := cleanFork t e (cat s).inb σ
  if σ.processed k ∨ σ.store (cat s).inb = [] then idle v first σ
  else
    match exeAt cat code s (cat s).inb σ with
    | (none, σ) => .next first none σ
    | (some rc, σ) => afterExe rk s rc (σ.mark k)

/-- A statement whose input is not on a fork. -/
def visitPlain (rk : Ranks) (v : Visit τ) (first : Bool) (e : BufferEntry) (s : StmtId)
    (σ : OpSt τ ω) : VisitEnd τ ω :=
  if σ.store (cat s).inb = [] then idle v first σ
  else
    match exeAt cat code s (cat s).inb σ with
    | (none, σ) => .next first none σ
    | (some rc, σ) =>
      let σ := σ.pop (cat s).inb
      afterExe rk s rc (if e.bType = .source then σ.spend else σ)

def visitUnion (rk : Ranks) (first : Bool) (s : StmtId) (σ : OpSt τ ω) :
    Option (VisitEnd τ ω) :=
  match code.pick s σ.world σ.store with
  | none => some (.next first none σ)
  | some b =>
    match exeAt cat code s b σ with
    | (none, σ) => some (.next first none σ)
    | (some rc, σ) =>
      (tyAt t b).map fun ty =>
        afterExe rk s rc (if ty = .source then (σ.pop b).spend else σ.pop b)

/-- The `switch` of `runNextUnit`. -/
def visit (rk : Ranks) (v : Visit τ) (first : Bool) (σ : OpSt τ ω) : Option (VisitEnd τ ω) :=
  match (cat v.stmt).type with
  | .normal =>
    match t.lookup (cat v.stmt).inb with
    | none => none
    | some e =>
      if (e.bType = .source ∨ e.bType = .sourceFork) ∧ σ.nTuples ≤ 0 then
        some (.leave (some .success) σ)
      else if e.bType = .fork ∨ e.bType = .sourceFork then
        (ownDummy cat t v.stmt (cat v.stmt).inb).map fun k =>
          visitFork cat t code rk v first e v.stmt k σ
      else some (visitPlain cat code rk v first e v.stmt σ)
  | .tUnion | .tlUnion => visitUnion cat t code rk first v.stmt σ
  | .join => none
  | .coll => some (.next first (some .success) σ)

/-- What the call returns; `none` if `s_rc` was never set. -/
def runRc (rc : Option SRc) : Option RunRc :=
  rc.map fun rc => if rc = none then .noInput else .success

/-- `OperatorPriorityStrategy::runNextUnit`, for the visits to the entries from the one at hand
on. -/
def runNextUnit (rk : Ranks) :
    List (Visit τ) → Bool → Option SRc → OpSt τ ω → Option (Option RunRc × OpSt τ ω)
  | [], _, rc, σ => some (runRc rc, σ)
  | v :: vs, first, rc, σ =>
    let σ := σ.arrive v.arrivals
    if v.newArrival ∧ ¬ first then some (runRc rc, σ)
    else if ¬ rk.inUse v.stmt then some (runRc rc, σ)
    else if ¬ (cat v.stmt).valid then runNextUnit rk vs first rc σ
    else if v.update then some (runRc rc, σ)
    else if v.newArrival₂ ∧ ¬ first then runNextUnit rk vs first (some (some .success)) σ
    else
      match visit cat t code rk v first σ with
      | none => none
      | some (.next first rc σ) => runNextUnit rk vs first (some rc) σ
      | some (.leave rc σ) => some (runRc (some rc), σ)
      | some (.return σ) => some (some .success, σ)

/-- `Driver::run` with a strategy: `nTuples` is the driver's priority. -/
def driverRun (rk : Ranks) (priority : Int) (vs : List (Visit τ)) (σ : OpSt τ ω) :
    Option (Option RunRc × OpSt τ ω) :=
  runNextUnit cat t code rk vs true none { σ with nTuples := priority }

end Model

end StreamMill.Esl.OperatorPriority
