import StreamMill.Esl.GraphRun

/-!
# StreamMill.Esl.RunState

`WeightGroupSchedule::runState` of `strategy.cc` on query graphs of normal statements: the walk
that executes statements from a source on. It goes forward when there is output and back when a
buffer is empty; at a fork it runs every branch before the tuple is popped. The walk through unions
and joins is not modelled (`none`). No statistics are updated during the call.
-/

namespace StreamMill.Esl

inductive RunRc
  | success
  | failure
  | noInput
  deriving DecidableEq

/-- What an execution on a tuple returns, of `stmt_rc`. -/
inductive ExeRc
  | success
  | noOutput
  | failure
  deriving DecidableEq

/-- What a call of `runState` works on; `world` is all else that executions read and change. -/
structure RunSt (τ ω : Type) where
  store : Name → List τ
  processed : Name → Bool
  quotaLeft : StmtId → Int
  nTuples : Int
  recursionCount : Int
  world : ω

section Model

variable {τ ω : Type}

namespace RunSt

def put (σ : RunSt τ ω) (b : Name) (ds : List τ) : RunSt τ ω :=
  { σ with store := Function.update σ.store b (σ.store b ++ ds) }

def pop (σ : RunSt τ ω) (b : Name) : RunSt τ ω :=
  { σ with store := Function.update σ.store b (σ.store b).tail }

def draw (σ : RunSt τ ω) (s : StmtId) : RunSt τ ω :=
  { σ with nTuples := σ.nTuples - 1
           quotaLeft := Function.update σ.quotaLeft s (σ.quotaLeft s - 1) }

def mark (σ : RunSt τ ω) (k : Name) : RunSt τ ω :=
  { σ with processed := Function.update σ.processed k true }

def unmark (σ : RunSt τ ω) (ks : List Name) : RunSt τ ω :=
  { σ with processed := fun k => if ks.contains k then false else σ.processed k }

end RunSt

/-- How a call ends; `none` if it goes on for ever, follows a null pointer, or comes to a union or
a join. -/
abbrev RunEnd (τ ω : Type) := Option (RunRc × RunSt τ ω)

/-- The execution of a statement: the front tuple of its input gives what is put to the output. -/
abbrev Exe (τ ω : Type) := StmtId → ω → τ → List τ × ExeRc × ω

variable (cat : Catalog) (t : BufStateTbl) (exe : Exe τ ω)

/-- `Monitor::exeStmt`, with `none` for `s_no_input`. -/
def exeStmt (s : StmtId) (σ : RunSt τ ω) : Option ExeRc × RunSt τ ω :=
  if (cat s).valid then
    match σ.store (cat s).inb with
    | [] => (none, σ)
    | d :: _ =>
      (some (exe s σ.world d).2.1,
        { σ.put (cat s).out (exe s σ.world d).1 with world := (exe s σ.world d).2.2 })
  else (some .failure, σ)

/-- `if (rc == run_failure) return rc; return run_success;` -/
def orSuccess (r : RunEnd τ ω) : RunEnd τ ω :=
  r.map fun p => if p.1 = .failure then p else (.success, p.2)

/-- `runState((*segmentMap)[state->back.back_buf], ..)` -/
def runBack (run : Name → RunSt τ ω → RunEnd τ ω) (e : BufferEntry) (σ : RunSt τ ω) :
    RunEnd τ ω :=
  match e.back with
  | .backBuf (some k) => run k σ
  | _ => none

def tyAt (k : Name) : Option BufferTy := (t.lookup k).map fun e => e.bType

def runNext (run : Name → RunSt τ ω → RunEnd τ ω) (e : BufferEntry) (again : RunSt τ ω → RunEnd τ ω)
    (σ : RunSt τ ω) : RunEnd τ ω :=
  match e.forward with
  | .forwardBuf (some f) =>
    match tyAt t f with
    | none => none
    | some ty => if ty = .sink ∨ ty = .mergeSink then again σ else orSuccess (run f σ)
  | _ => none

/-- `runState((*segmentMap)[state->inplace], ..)` -/
def runAgain (run : Name → RunSt τ ω → RunEnd τ ω) (e : BufferEntry) (σ : RunSt τ ω) :
    RunEnd τ ω :=
  match e.inplace with
  | some k => orSuccess (run k σ)
  | none => none

def runOn (run : Name → RunSt τ ω → RunEnd τ ω) (e : BufferEntry) (rc : ExeRc) (σ : RunSt τ ω) :
    RunEnd τ ω :=
  match rc with
  | .success => runNext t run e (runAgain run e) σ
  | .noOutput => runAgain run e σ
  | .failure => some (.failure, σ)

/-- The action `act_cjump`, for the statement `s` and the buffer `b` of the state. -/
def runCjump (run : Name → RunSt τ ω → RunEnd τ ω) (e : BufferEntry) (s : StmtId) (b : Name)
    (σ : RunSt τ ω) : RunEnd τ ω :=
  if e.bType = .normal ∨ e.bType = .source then
    if σ.store b = [] then runBack run e σ
    else
      match exeStmt cat exe s σ with
      | (none, σ₁) => if e.bType = .source then some (.noInput, σ₁) else runBack run e σ₁
      | (some rc, σ₁) =>
        let σ₂ := if e.bType = .source then (σ₁.pop b).draw s else σ₁.pop b
        if e.bType = .source ∧ (σ₂.quotaLeft s < 0 ∨ σ₂.nTuples < 0) then some (.success, σ₂)
        else runOn t run e rc σ₂
  else some (.failure, σ)

/-- The action `act_jump`, for the statement `s` and the dummy `k`. -/
def runJump (run : Name → RunSt τ ω → RunEnd τ ω) (e : BufferEntry) (s : StmtId) (k : Name)
    (σ : RunSt τ ω) : RunEnd τ ω :=
  if e.bType = .forkDummy then
    if σ.processed k then some (.success, σ)
    else
      match exeStmt cat exe s σ with
      | (none, σ₁) => some (.noInput, σ₁)
      | (some rc, σ₁) =>
        match rc with
        | .success => runNext t run e (fun σ => some (.success, σ)) (σ₁.mark k)
        | .noOutput => some (.success, σ₁.mark k)
        | .failure => some (.failure, σ₁.mark k)
  else some (.failure, σ)

def dummiesOf (b : Name) : List Name :=
  t.keys.filter fun k =>
    match t.lookup k with
    | some e => e.bType = .forkDummy ∧ e.inplace = some b
    | none => false

def forkDone (run : Name → RunSt τ ω → RunEnd τ ω) (e : BufferEntry) (s : Option StmtId) (b : Name)
    (again : RunSt τ ω → RunEnd τ ω) (σ : RunSt τ ω) : RunEnd τ ω :=
  if e.bType = .sourceFork then
    match s with
    | none => none
    | some s =>
      let σ₁ := (σ.pop b).draw s
      if σ₁.quotaLeft s < 0 ∨ σ₁.nTuples < 0 ∨ σ₁.store b = [] then some (.success, σ₁)
      else again σ₁
  else if (σ.pop b).store b = [] then runBack run e (σ.pop b)
  else again (σ.pop b)

/-- The end of a pass of the loop of a fork. `rest` are the dummies from `itr2` on. -/
def forkPass (run : Name → RunSt τ ω → RunEnd τ ω) (e : BufferEntry) (s : Option StmtId) (b : Name)
    (dummies : List Name) (loop : List Name → Int → RunSt τ ω → RunEnd τ ω)
    (rest : List Name) (nFork : Int) (σ : RunSt τ ω) : RunEnd τ ω :=
  if 0 < nFork ∧ rest = [] then some (.failure, σ)
  else if nFork = 0 ∧ rest = [] then
    match dummies.dropWhile σ.processed with
    | [] => forkDone run e s b (loop dummies dummies.length) (σ.unmark dummies)
    | k :: ks => loop (k :: ks) (dummies.length - (dummies.takeWhile σ.processed).length) σ
  else loop rest nFork σ

/-- The loop of a fork; `dummies` are all its dummies, as many as `cnt`. -/
def forkLoop (run : Name → RunSt τ ω → RunEnd τ ω) (e : BufferEntry) (s : Option StmtId) (b : Name)
    (dummies : List Name) : Nat → List Name → Int → RunSt τ ω → RunEnd τ ω
  | 0, _, _, _ => none
  | fuel + 1, rest, nFork, σ =>
    if e.bType = .sourceFork ∧ σ.nTuples ≤ 0 then some (.success, σ)
    else
      match rest with
      | [] => none
      | k :: ks =>
        if σ.processed k then
          forkPass run e s b dummies (forkLoop run e s b dummies fuel) ks (nFork - 1) σ
        else
          match run k σ with
          | none => none
          | some (rc, σ₁) =>
            if nFork = dummies.length ∧ rc = .noInput then
              if e.bType = .sourceFork then some (.success, σ₁) else runBack run e σ₁
            else if rc = .failure then some (.failure, σ₁)
            else if σ₁.processed k then
              forkPass run e s b dummies (forkLoop run e s b dummies fuel) ks (nFork - 1) σ₁
            else forkLoop run e s b dummies fuel (k :: ks) nFork σ₁

/-- The action `act_cfork`, for the buffer `b` of the state. -/
def runCfork (run : Name → RunSt τ ω → RunEnd τ ω) (e : BufferEntry) (b : Name) (fuel : Nat)
    (σ : RunSt τ ω) : RunEnd τ ω :=
  if e.bType = .fork ∨ e.bType = .sourceFork then
    if σ.store b = [] then runBack run e σ
    else if e.forward = .forkCount (dummiesOf t b).length then
      forkLoop run e e.statement b (dummiesOf t b) fuel (dummiesOf t b) (dummiesOf t b).length σ
    else some (.failure, σ)
  else some (.failure, σ)

def runAction (run : Name → RunSt τ ω → RunEnd τ ω) (fuel : Nat) (k : Name) (e : BufferEntry)
    (σ : RunSt τ ω) : RunEnd τ ω :=
  match e.action with
  | .cjump =>
    match e.statement, e.buf with
    | some s, some b =>
      if (cat s).type = .normal then runCjump cat t exe run e s b σ else none
    | _, _ => none
  | .cfork =>
    match e.buf with
    | some b => runCfork t run e b fuel σ
    | none => none
  | .jump =>
    match e.statement with
    | some s => if (cat s).type = .normal then runJump cat t exe run e s k σ else none
    | none => none
  | .merge => if e.bType = .mergeSink then some (.success, σ) else some (.failure, σ)
  | .mergeJump | .mergeCfork => none
  | .none => some (.success, σ)

/-- `WeightGroupSchedule::runState`, for the entry of `k`. -/
def runState : Nat → Name → RunSt τ ω → RunEnd τ ω
  | 0, _, _ => none
  | fuel + 1, k, σ =>
    match t.lookup k with
    | none => none
    | some e =>
      let σ := { σ with recursionCount := σ.recursionCount + 1 }
      if e.bType = .source ∨ e.bType = .sourceFork then
        if 10 < σ.recursionCount then some (.success, { σ with recursionCount := 0 })
        else
          match e.statement, e.buf with
          | some s, some b =>
            if σ.store b = [] then some (.noInput, σ)
            else if σ.quotaLeft s ≤ 0 ∧ e.bType = .source then some (.success, σ)
            else if σ.nTuples ≤ 0 then some (.success, σ)
            else runAction cat t exe (runState fuel) fuel k e σ
          | _, _ => none
      else runAction cat t exe (runState fuel) fuel k e σ

end Model

end StreamMill.Esl
