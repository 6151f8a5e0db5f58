import Mathlib.Data.List.AList

/-!
# StreamMill.Esl.Driver

The query graph of the scheduler (`driver.h`, `driver.cc`). A driver keeps one table that
maps a buffer's name to what is known of that buffer: whether statements write and read it,
the statement to execute on its tuples and the buffers before and after it. A buffer with several
readers is a fork, and every reader has a dummy entry under the buffer's name followed by the name
of the reader's output.
-/

namespace StreamMill.Esl

/-- Names are C strings; the tables compare them by `strcmp`. -/
abbrev Name := List Char

/-- A statement is known by its address. -/
abbrev StmtId := Nat

inductive StmtType
  | normal
  | join
  | tUnion
  | tlUnion
  | coll
deriving DecidableEq, Repr

/-- `stmt` with the fields of `uStmt`, `jStmt` and `cStmt` (`stmt.h`). -/
structure Stmt where
  name : Name
  type : StmtType
  valid : Bool
  inb : Name
  out : Name
  unionBufs : List Name
  windowBufs : List Name
  subStmts : List StmtId
deriving DecidableEq, Repr

abbrev Catalog := StmtId → Stmt

inductive DAction
  | none
  | cjump
  | mergeJump
  | cfork
  | jump
  | merge
  | mergeCfork
deriving DecidableEq, Repr

inductive BufferTy
  | normal
  | source
  | fork
  | sourceFork
  | merge
  | sink
  | mergeSink
  | mergeFork
  | forkDummy
  | none
deriving DecidableEq, Repr

/-- The union `fw_entry`, with the member written last. -/
inductive Fw
  | forwardBuf (b : Option Name)
  | forkCount (n : Nat)
deriving DecidableEq, Repr

/-- The union `bk_entry`, with the member written last. -/
inductive Bk
  | backBuf (b : Option Name)
  | unionStmt (s : StmtId)
  | processed (p : Bool)
deriving DecidableEq, Repr

structure BufferEntry where
  bType : BufferTy
  statement : Option StmtId
  buf : Option Name
  back : Bk
  inplace : Option Name
  forward : Fw
  action : DAction
deriving DecidableEq, Repr

/-- `BufStateTblType`. The order in which a hash map is walked is not fixed; here it is the
order of the list. -/
abbrev BufStateTbl := AList fun _ : Name => BufferEntry

structure Driver where
  bufStateTable : BufStateTbl
  stmts : List StmtId
  bufs : List Name
deriving DecidableEq

def Driver.new : Driver := ⟨∅, [], []⟩

/-- How a call ends that does not return `SUCCESS`; `FAILURE` leaves behind what was changed before
it. -/
inductive Stop (σ : Type)
  | failure (d : σ)
  | crash

def sourceEntry (s : StmtId) (b out : Name) : BufferEntry :=
  { bType := .source, statement := some s, buf := some b, back := .backBuf none
    inplace := some b, forward := .forwardBuf (some out), action := .cjump }

def sinkEntry (out back : Name) : BufferEntry :=
  { bType := .sink, statement := none, buf := some out, back := .backBuf (some back)
    inplace := none, forward := .forwardBuf none, action := .none }

def mergeSinkEntry (s : StmtId) (out : Name) : BufferEntry :=
  { bType := .mergeSink, statement := none, buf := some out, back := .unionStmt s
    inplace := none, forward := .forwardBuf none, action := .merge }

def dummyEntry (s : Option StmtId) (b out : Name) : BufferEntry :=
  { bType := .forkDummy, statement := s, buf := none, back := .processed false
    inplace := some b, forward := .forwardBuf (some out), action := .jump }

namespace Driver

def set (d : Driver) (b : Name) (e : BufferEntry) : Driver :=
  { d with bufStateTable := d.bufStateTable.insert b e }

def pushBuf (d : Driver) (b : Name) : Driver := { d with bufs := d.bufs ++ [b] }

def pushStmt (d : Driver) (s : StmtId) : Driver := { d with stmts := d.stmts ++ [s] }

def getBufType (d : Driver) (b : Name) : BufferTy :=
  match d.bufStateTable.lookup b with
  | some e => e.bType
  | none => .none

end Driver

/-- `in_bufs`; a collection has none and is refused. -/
def Stmt.inBufs (s : Stmt) : Option (List Name) :=
  match s.type with
  | .normal => some [s.inb]
  | .tUnion | .tlUnion => some s.unionBufs
  | .join => some (s.windowBufs ++ [s.inb])
  | .coll => none

def addSources (s : StmtId) (out : Name) (d : Driver) (bs : List Name) : Driver :=
  bs.foldl (fun d b => (d.set b (sourceEntry s b out)).pushBuf b) d

/-- `addStmt` on a driver without statements. The input of a join becomes a source but is
not pushed to `bufs`. -/
def addFirst (cat : Catalog) (s : StmtId) (d : Driver) : Except (Stop Driver) Driver :=
  let c := cat s
  match c.type with
  | .normal =>
    let d := d.set c.inb (sourceEntry s c.inb c.out)
    let d := d.set c.out (sinkEntry c.out c.inb)
    .ok (((d.pushBuf c.inb).pushBuf c.out).pushStmt s)
  | .tUnion | .tlUnion =>
    let d := addSources s c.out d c.unionBufs
    .ok (((d.set c.out (mergeSinkEntry s c.out)).pushBuf c.out).pushStmt s)
  | .join =>
    let d := d.set c.inb (sourceEntry s c.inb c.out)
    let d := addSources s c.out d c.windowBufs
    .ok (((d.set c.out (mergeSinkEntry s c.out)).pushBuf c.out).pushStmt s)
  | .coll => .error (.failure d)

/-- The locals of `addStmt` that outlive one input buffer. -/
structure AddLoop where
  drv : Driver
  inType : BufferTy
  dummyName : Option Name

/-- The output buffer may be used: it is not in the table, or nothing produces it yet. -/
def outUsable (t : BufStateTbl) (out : Name) : Bool :=
  match t.lookup out with
  | none => true
  | some e => e.bType = .source ∨ e.bType = .sourceFork

def isMergeTy (ty : BufferTy) : Bool := ty = .merge ∨ ty = .mergeFork ∨ ty = .mergeSink

def isForkTy (ty : BufferTy) : Bool := ty = .fork ∨ ty = .sourceFork ∨ ty = .mergeFork

def BufferEntry.toFork (e : BufferEntry) : BufferEntry :=
  match e.bType with
  | .source => { e with bType := .sourceFork, action := .cfork, forward := .forkCount 2 }
  | .normal => { e with bType := .fork, action := .cfork, forward := .forkCount 2 }
  | .merge => { e with bType := .mergeFork, action := .mergeCfork, forward := .forkCount 2 }
  | _ => { e with forward := .forkCount 2 }

/-- A second statement reads `b`: each reader gets a dummy, and the output of the old one has its
`back` at the dummy, unless it is a merge buffer. -/
def makeFork (s : StmtId) (out : Name) (t : BufStateTbl) (b : Name) (e : BufferEntry) :
    Option BufStateTbl :=
  match e.forward with
  | .forwardBuf (some f) =>
    let t := (t.insert b e.toFork).insert (b ++ f) (dummyEntry e.statement b f)
    match t.lookup f with
    | none => none
    | some g =>
      let t := if isMergeTy g.bType then t
        else t.insert f { g with back := .backBuf (some (b ++ f)) }
      some (t.insert (b ++ out) (dummyEntry (some s) b out))
  | _ => none

def growFork (s : StmtId) (out : Name) (t : BufStateTbl) (b : Name) (e : BufferEntry) :
    Option BufStateTbl :=
  match e.forward with
  | .forkCount n =>
    some ((t.insert b { e with forward := .forkCount (n + 1) }).insert (b ++ out)
      (dummyEntry (some s) b out))
  | .forwardBuf _ => none

def BufferEntry.toRead (s : StmtId) (out b : Name) (e : BufferEntry) : BufferEntry :=
  if e.bType = .sink then
    { e with statement := some s, bType := .normal, action := .cjump
             inplace := some b, forward := .forwardBuf (some out) }
  else
    { e with statement := some s, bType := .merge, action := .mergeJump
             inplace := some b, forward := .forwardBuf (some out) }

def addInput (cat : Catalog) (s : StmtId) (a : AddLoop) (b : Name) :
    Except (Stop Driver) AddLoop :=
  let out := (cat s).out
  match a.drv.bufStateTable.lookup b with
  | none =>
    .ok { a with drv := (a.drv.set b (sourceEntry s b out)).pushBuf b, inType := .source }
  | some e =>
    if outUsable a.drv.bufStateTable out then
      match e.bType with
      | .source | .normal | .merge =>
        if (cat s).type = .join ∧ b ≠ (cat s).inb then .error (.failure a.drv)
        else
          match makeFork s out a.drv.bufStateTable b e with
          | some t => .ok { drv := { a.drv with bufStateTable := t }
                            inType := e.toFork.bType, dummyName := some (b ++ out) }
          | none => .error .crash
      | .fork | .sourceFork | .mergeFork =>
        match growFork s out a.drv.bufStateTable b e with
        | some t => .ok { drv := { a.drv with bufStateTable := t }
                          inType := e.bType, dummyName := some (b ++ out) }
        | none => .error .crash
      | .sink | .mergeSink =>
        .ok { a with drv := a.drv.set b (e.toRead s out b), inType := (e.toRead s out b).bType }
      | _ => .error (.failure a.drv)
    else .error (.failure a.drv)

def addInputs (cat : Catalog) (s : StmtId) : List Name → AddLoop → Except (Stop Driver) AddLoop
  | [], a => .ok a
  | b :: bs, a =>
    match addInput cat s a b with
    | .ok a' => addInputs cat s bs a'
    | .error x => .error x

/-- The `back` of the output of a normal statement: its input, or its dummy behind a fork. -/
def backOf (a : AddLoop) (inb : Name) : Bk :=
  if isForkTy a.inType then .backBuf a.dummyName else .backBuf (some inb)

/-- `addStmt` on the output buffer. -/
def addOut (cat : Catalog) (s : StmtId) (a : AddLoop) : Except (Stop Driver) Driver :=
  let c := cat s
  match c.type, a.drv.bufStateTable.lookup c.out with
  | .normal, none =>
    .ok ((a.drv.set c.out { sinkEntry c.out c.inb with back := backOf a c.inb }).pushBuf c.out)
  | .normal, some e =>
    match e.bType with
    | .source => .ok (a.drv.set c.out { e with bType := .normal, back := backOf a c.inb })
    | .sourceFork => .ok (a.drv.set c.out { e with bType := .fork, back := backOf a c.inb })
    | _ => .error (.failure a.drv)
  | _, none => .ok ((a.drv.set c.out (mergeSinkEntry s c.out)).pushBuf c.out)
  | _, some e =>
    match e.bType with
    | .source =>
      .ok (a.drv.set c.out { e with bType := .merge, action := .mergeJump, back := .unionStmt s })
    | .sourceFork =>
      .ok (a.drv.set c.out
        { e with bType := .mergeFork, action := .mergeCfork, back := .unionStmt s })
    | _ => .error (.failure a.drv)

def addStmt (cat : Catalog) (s : StmtId) (d : Driver) : Except (Stop Driver) Driver :=
  if (cat s).valid then
    if d.stmts = [] then addFirst cat s d
    else
      match (cat s).inBufs with
      | none => .error (.failure d)
      | some bs =>
        match addInputs cat s bs ⟨d, .none, none⟩ with
        | .error x => .error x
        | .ok a =>
          match addOut cat s a with
          | .error x => .error x
          | .ok d' => .ok (d'.pushStmt s)
  else .error (.failure d)

/-- A driver is known to the manager by its number. -/
abbrev DrvId := Nat

/-- `bufToDrvMap`: a buffer may be known to several drivers. -/
abbrev BufMap := List (Name × DrvId)

/-- What `dropStmt` works on: this driver, and the manager's map of the buffers. -/
structure DropState where
  drv : Driver
  bufToDrvMap : BufMap

namespace DropState

def set (st : DropState) (b : Name) (e : BufferEntry) : DropState :=
  { st with drv := st.drv.set b e }

def removeBuf (st : DropState) (me : DrvId) (b : Name) (e : BufferEntry) : DropState :=
  { drv := { st.drv with
      bufStateTable := st.drv.bufStateTable.erase b
      bufs := st.drv.bufs.filter fun x => some x ≠ e.buf }
    bufToDrvMap := st.bufToDrvMap.erase (b, me) }

end DropState

def BufferEntry.ofFork (entry : BufferEntry) (e : BufferEntry) : BufferEntry :=
  let entry := { entry with statement := e.statement, forward := e.forward }
  match entry.bType with
  | .fork => { entry with bType := .normal, action := .cjump }
  | .sourceFork => { entry with bType := .source, action := .cjump }
  | .mergeFork => { entry with bType := .merge, action := .mergeJump }
  | _ => entry

/-- One round of the loop that looks for the last dummy of the fork `b`; `last` is
`itr_tmp`. The output of the remaining reader gets `b` as its `back`. -/
def collapseStep (b : Name) (t : BufStateTbl) (last : Option Name) (k : Name) :
    Option (BufStateTbl × Option Name) :=
  match t.lookup k, t.lookup b with
  | some e, some entry =>
    if e.bType = .forkDummy ∧ e.inplace = entry.buf then
      match e.forward with
      | .forwardBuf (some f) =>
        let t := t.insert b (entry.ofFork e)
        match t.lookup f with
        | some g => some (t.insert f { g with back := .backBuf entry.buf }, some k)
        | none => none
      | _ => none
    else some (t, last)
  | _, _ => some (t, last)

def collapseLoop (b : Name) :
    List Name → BufStateTbl → Option Name → Option (BufStateTbl × Option Name)
  | [], t, last => some (t, last)
  | k :: ks, t, last =>
    match collapseStep b t last k with
    | some (t', last') => collapseLoop b ks t' last'
    | none => none

def collapse (b : Name) (t : BufStateTbl) : Option BufStateTbl :=
  match collapseLoop b t.keys t none with
  | some (t', some k) => some (t'.erase k)
  | _ => none

/-- The fork `b` loses the reader whose output is `out`. -/
def leaveFork (b out : Name) (t : BufStateTbl) (e : BufferEntry) : Option BufStateTbl :=
  match e.forward with
  | .forkCount n =>
    let t := (t.insert b { e with forward := .forkCount (n - 1) }).erase (b ++ out)
    if n - 1 = 1 then collapse b t else some t
  | .forwardBuf _ => none

def dropInput (cat : Catalog) (me : DrvId) (s : StmtId) (st : DropState) (b : Name) :
    Except (Stop DropState) DropState :=
  match st.drv.bufStateTable.lookup b with
  | none => .error .crash
  | some e =>
    match e.bType with
    | .source => .ok (st.removeBuf me b e)
    | .normal =>
      .ok (st.set b { e with bType := .sink, statement := none, inplace := none
                             forward := .forwardBuf none, action := .none })
    | .merge =>
      .ok (st.set b { e with bType := .mergeSink, statement := none, inplace := none
                             forward := .forwardBuf none, action := .merge })
    | .fork | .sourceFork | .mergeFork =>
      match leaveFork b (cat s).out st.drv.bufStateTable e with
      | some t => .ok { st with drv := { st.drv with bufStateTable := t } }
      | none => .error .crash
    | _ => .error (.failure st)

def dropInputs (cat : Catalog) (me : DrvId) (s : StmtId) :
    List Name → DropState → Except (Stop DropState) DropState
  | [], st => .ok st
  | b :: bs, st =>
    match dropInput cat me s st b with
    | .ok st' => dropInputs cat me s bs st'
    | .error x => .error x

/-- `dropStmt` on the output buffer. -/
def dropOut (cat : Catalog) (me : DrvId) (s : StmtId) (st : DropState) :
    Except (Stop DropState) DropState :=
  let out := (cat s).out
  match st.drv.bufStateTable.lookup out with
  | none => .error .crash
  | some e =>
    match e.bType with
    | .sink | .mergeSink => .ok (st.removeBuf me out e)
    | .normal | .merge =>
      .ok (st.set out { e with bType := .source, back := .backBuf none, action := .cjump })
    | .fork | .mergeFork =>
      .ok (st.set out { e with bType := .sourceFork, back := .backBuf none, action := .cfork })
    | _ => .error (.failure st)

/-- `Driver::dropStmt`. The statement leaves the list at the first place where its name
stands. -/
def dropStmt (cat : Catalog) (me : DrvId) (s : StmtId) (st : DropState) :
    Except (Stop DropState) DropState :=
  if st.drv.stmts.any fun x => (cat x).name = (cat s).name then
    match (cat s).inBufs with
    | none => .error (.failure st)
    | some bs =>
      match dropInputs cat me s bs st with
      | .error x => .error x
      | .ok st₁ =>
        match dropOut cat me s st₁ with
        | .error x => .error x
        | .ok st₂ =>
          .ok { st₂ with drv := { st₂.drv with
            stmts := st₂.drv.stmts.eraseP fun x => (cat x).name = (cat s).name } }
  else .error (.failure st)

end StreamMill.Esl
