import StreamMill.Esl.QueryGraph

/-!
# StreamMill.Esl.DrvMgr

The driver manager (`DrvMgr`, `driver.cc`). It knows in which drivers a buffer is and which driver
runs a statement. `addStmt` chooses the driver that the statement's buffers lead to, or makes
one, and `dropStmt` gives a driver up with its last statement.
-/

namespace StreamMill.Esl

/-- A driver is known by its `id`. `stmtToDrvMap` is keyed by the statement's name. -/
structure DrvMgr where
  drivers : List (DrvId × Driver)
  bufToDrvMap : BufMap
  stmtToDrvMap : AList fun _ : Name => DrvId
  idCount : Nat

namespace DrvMgr

def new : DrvMgr := ⟨[], [], ∅, 0⟩

def bufferInUse (m : DrvMgr) (bname : Name) : Bool := m.bufToDrvMap.any fun e => e.1 = bname

def stmtInUse (m : DrvMgr) (name : Name) : Bool := (m.stmtToDrvMap.lookup name).isSome

/-- `equal_range` -/
def driversOf (m : DrvMgr) (b : Name) : List DrvId :=
  (m.bufToDrvMap.filter fun e => e.1 = b).map Prod.snd

def driver (m : DrvMgr) (i : DrvId) : Option Driver := m.drivers.lookup i

def setDriver (m : DrvMgr) (i : DrvId) (d : Driver) : DrvMgr :=
  { m with drivers := m.drivers.map fun p => if p.1 = i then (i, d) else p }

def getBufType (m : DrvMgr) (i : DrvId) (b : Name) : BufferTy :=
  match m.driver i with
  | some d => d.getBufType b
  | none => .none

/-- `drv != 0 && drv->getBuffer(b) != 0`; a dummy has no buffer. -/
def inDrv (m : DrvMgr) (drv : Option DrvId) (b : Name) : Bool :=
  ((drv.bind m.driver).bind fun d => (d.bufStateTable.lookup b).bind BufferEntry.buf).isSome

end DrvMgr

def isSinkTy (ty : BufferTy) : Bool := ty = .sink ∨ ty = .mergeSink

def isSourceTy (ty : BufferTy) : Bool := ty = .source ∨ ty = .sourceFork

def Stmt.lookedUp (s : Stmt) : List Name :=
  if s.type = .tUnion ∨ s.type = .tlUnion then s.unionBufs else [s.inb]

namespace DrvMgr

/-- The driver for an input buffer that is in use; `none` is `FAILURE`. -/
def chooseInput (m : DrvMgr) (b : Name) (drv : Option DrvId) : Option (Option DrvId) :=
  match m.driversOf b with
  | [drv2, drv3] =>
    if isSinkTy (m.getBufType drv2 b) && isSourceTy (m.getBufType drv3 b) then
      if m.inDrv drv b && drv ≠ some drv3 then none
      else some (if m.inDrv drv b then drv else some drv3)
    else if isSinkTy (m.getBufType drv3 b) && isSourceTy (m.getBufType drv2 b) then
      if m.inDrv drv b && drv ≠ some drv2 then none
      else some (if m.inDrv drv b then drv else some drv2)
    else none
  | [drv2] =>
    match drv with
    | some i =>
      if m.inDrv drv b then
        if i = drv2 then some drv
        else if isSinkTy (m.getBufType drv2 b) && isSourceTy (m.getBufType i b) then some drv
        else if isSinkTy (m.getBufType i b) && isSourceTy (m.getBufType drv2 b) then
          some (some drv2)
        else none
      else some (some drv2)
    | none => some (some drv2)
  | _ => none

def outOk (m : DrvMgr) (out : Name) (drv : Option DrvId) : Bool :=
  match m.driversOf out with
  | [] => true
  | [drv4] => !(drv ≠ some drv4 && m.inDrv drv out)
  | _ => false

def chooseInputs (m : DrvMgr) (out : Name) : List Name → Option DrvId → Option (Option DrvId)
  | [], drv => some drv
  | b :: bs, drv =>
    match m.chooseInput b drv with
    | some drv => if m.outOk out drv then m.chooseInputs out bs drv else none
    | none => none

def chooseOut (m : DrvMgr) (out : Name) (drv : Option DrvId) : Option (Option DrvId) :=
  match m.driversOf out with
  | [] => some (drv.or (m.drivers.getLast?.map Prod.fst))
  | [drv2] =>
    if !isSourceTy (m.getBufType drv2 out) then none
    else if m.inDrv drv out && drv ≠ some drv2 then none
    else some (drv.or (some drv2))
  | _ => none

def choose (m : DrvMgr) (s : Stmt) (drv : Option DrvId) : Option (Option DrvId) :=
  match s.lookedUp.filter m.bufferInUse with
  | [] => m.chooseOut s.out drv
  | b :: bs => m.chooseInputs s.out (b :: bs) drv

def useBuf (i : DrvId) (m : DrvMgr) (b : Name) : DrvMgr :=
  if m.bufferInUse b then m else { m with bufToDrvMap := m.bufToDrvMap ++ [(b, i)] }

def record (m : DrvMgr) (s : Stmt) (i : DrvId) : DrvMgr :=
  let m := (s.lookedUp ++ [s.out]).foldl (useBuf i) m
  { m with stmtToDrvMap := m.stmtToDrvMap.insert s.name i }

/-- `DrvMgr::addStmt`, with the driver it returns in `drv`. -/
def addStmt (cat : Catalog) (s : StmtId) (drv : Option DrvId) (m : DrvMgr) :
    Except (Stop DrvMgr) (DrvMgr × Option DrvId) :=
  if m.stmtInUse (cat s).name then .ok (m, drv)
  else
    match m.choose (cat s) drv with
    | none => .error (.failure m)
    | some none =>
      let i := m.idCount + 1
      match Esl.addStmt cat s Driver.new with
      | .ok d =>
        .ok ({ m with drivers := m.drivers ++ [(i, d)], idCount := i }.record (cat s) i, some i)
      | .error (.failure _) => .error (.failure { m with idCount := i })
      | .error .crash => .error .crash
    | some (some i) =>
      match m.driver i with
      | none => .error .crash
      | some d =>
        match Esl.addStmt cat s d with
        | .ok d' => .ok ((m.setDriver i d').record (cat s) i, some i)
        | .error (.failure d') => .error (.failure (m.setDriver i d'))
        | .error .crash => .error .crash

/-- The manager after the driver `i` has come to `st`. -/
def after (m : DrvMgr) (i : DrvId) (st : DropState) : DrvMgr :=
  { m.setDriver i st.drv with bufToDrvMap := st.bufToDrvMap }

def dropStmt (cat : Catalog) (s : StmtId) (m : DrvMgr) : Except (Stop DrvMgr) DrvMgr :=
  match m.stmtToDrvMap.lookup (cat s).name with
  | none => .ok m
  | some i =>
    match m.driver i with
    | none => .error .crash
    | some d =>
      match Esl.dropStmt cat i s ⟨d, m.bufToDrvMap⟩ with
      | .ok st =>
        let m' := { m.after i st with stmtToDrvMap := m.stmtToDrvMap.erase (cat s).name }
        if st.drv.stmts = [] then .ok { m' with drivers := m'.drivers.filter fun p => p.1 ≠ i }
        else .ok m'
      | .error (.failure st) => .error (.failure (m.after i st))
      | .error .crash => .error .crash

end DrvMgr

end StreamMill.Esl
