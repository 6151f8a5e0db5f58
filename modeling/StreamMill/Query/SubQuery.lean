import StreamMill.Query.GroupBy

/-!
# StreamMill.Query.SubQuery

The code that is generated for a sub-query outside stream queries, as it runs: `transSelOpr`,
`transSqlQuery` and `transBaseQun` emit the code of a call, `transInitExp`, `transInitSqlQuery`,
`transInitQun` and `transInitSelOpr` the code that resets it. Each kind of node is a function on
the code of the nodes below it (`Compiled`), and the recursion comes last (`Qun.compile`). What an
ORDER and a GROUP BY node make of their tuples are functions.
-/

namespace StreamMill.Query

open Lib

/-- The code generated for a node: its variables and their initial values, a call with a bound for
its loops and the tuples of the FROM items around it, the code that resets it, and what an EXISTS
does besides to its first FROM item. -/
structure Compiled (α β : Type) where
  State : Type
  Initial : State → Prop
  get : Nat → List α → State → Option (β × State)
  init : State → State
  rearm : State → State

variable {α : Type}

structure ScanSt where
  firstEntry : Bool
  cursor : Nat

/-- A table: `tuples` is what its cursor lists for the tuples around it. -/
def nameQun (tuples : List α → List α) : Compiled α (Option α) where
  State := ScanSt
  Initial := fun s => s.firstEntry = true
  get := fun _ scope s =>
    let pos := if s.firstEntry then 0 else s.cursor + 1
    match (tuples scope)[pos]? with
    | some t => some (some t, ⟨false, pos⟩)
    | none => some (none, { s with firstEntry := true })
  init := fun s => { s with firstEntry := true }
  rearm := fun s => { s with firstEntry := true }

structure FunctionSt (α : Type) where
  firstEntry : Bool
  cursor : Nat
  ret : List α

/-- A table function, which is called on the first entry. -/
def functionQun (udf : List α → List α) : Compiled α (Option α) where
  State := FunctionSt α
  Initial := fun s => s.firstEntry = true
  get := fun _ scope s =>
    let ret := if s.firstEntry then udf scope else s.ret
    let pos := if s.firstEntry then 0 else s.cursor + 1
    match ret[pos]? with
    | some t => some (some t, ⟨false, pos, ret⟩)
    | none => some (none, { s with firstEntry := true, ret })
  init := fun s => s
  rearm := fun s => { s with firstEntry := true }

section SelNode

variable {n m : Nat} (quns : Fin n → Compiled α (Option α)) (prds : Fin m → Compiled α Bool)

structure SelSt where
  firstEntry : Bool
  index : Int
  tuple : Nat → α
  qunSt : ∀ i, (quns i).State
  prdSt : ∀ j, (prds j).State

variable {quns prds}

/-- The tuples that the items before item `i` stand on. -/
def SelSt.before (s : SelSt quns prds) (i : Nat) : List α := (List.range i).map s.tuple

def callQun (fuel : Nat) (scope : List α) (i : Fin n) (s : SelSt quns prds) :
    Option (Rc × SelSt quns prds) := do
  let (t, q) ← (quns i).get fuel (scope ++ s.before i) (s.qunSt i)
  let s := { s with qunSt := Function.update s.qunSt i q }
  match t with
  | some t => return (.ok, { s with tuple := Function.update s.tuple i t })
  | none => return (.notFound, s)

/-- `while (index>=0 && index<n) { switch (index) ... }`, with the value of `rc` after it. -/
def whileQuns (fuel : Nat) (scope : List α) :
    Nat → Rc → SelSt quns prds → Option (Rc × SelSt quns prds)
  | 0, _, _ => none
  | k + 1, rc, s =>
    if h : 0 ≤ s.index ∧ s.index < n then do
      let (rc, s) ← callQun fuel scope ⟨s.index.toNat, by omega⟩ s
      whileQuns fuel scope k rc
        { s with index := if rc = .ok then s.index + 1 else s.index - 1 }
    else some (rc, s)

/-- From the label `next` to the predicates. A scalar sub-query keeps in `first_entry` whether it
has returned a tuple; with two or more FROM items it then insists on what follows, or exits. -/
def fetch (scalar : Bool) (fuel : Nat) (scope : List α) (s : SelSt quns prds) :
    Option (Rc × SelSt quns prds) :=
  if n = 0 then
    some (if s.firstEntry then .ok else .notFound, { s with firstEntry := !s.firstEntry })
  else if h : n = 1 then do
    let (rc, s) ← callQun fuel scope ⟨0, by omega⟩ s
    return (rc, if scalar then { s with firstEntry := decide (rc ≠ .ok) } else s)
  else do
    let (rc, s) ← whileQuns fuel scope fuel .ok s
    if scalar && (s.firstEntry == decide (rc ≠ .ok)) then none
    else
      let s := if scalar then { s with firstEntry := decide (rc ≠ .ok) } else s
      return (rc, { s with index := if rc = .ok then s.index - 1 else s.index + 1 })

def evalPrds (fuel : Nat) (scope : List α) :
    List (Fin m) → SelSt quns prds → Option (Bool × SelSt quns prds)
  | [], s => some (true, s)
  | j :: js, s => do
    let (holds, p) ← (prds j).get fuel (scope ++ s.before n) (s.prdSt j)
    let s := { s with prdSt := Function.update s.prdSt j p }
    if holds then evalPrds fuel scope js s else return (false, s)

/-- `goto next` until the predicates hold. -/
def nextRow (scalar : Bool) (head : List α → α) (fuel : Nat) (scope : List α) :
    Nat → SelSt quns prds → Option (Option α × SelSt quns prds)
  | 0, _ => none
  | k + 1, s => do
    let (rc, s) ← fetch scalar fuel scope s
    match rc with
    | .notFound => return (none, s)
    | .ok => do
      let (holds, s) ← evalPrds fuel scope (List.finRange m) s
      if holds then return (some (head (scope ++ s.before n)), s)
      else nextRow scalar head fuel scope k s

def SelSt.Initial (s : SelSt quns prds) : Prop :=
  s.firstEntry = true ∧ s.index = 0 ∧ (∀ i, (quns i).Initial (s.qunSt i)) ∧
    ∀ j, (prds j).Initial (s.prdSt j)

/-- `transInitSelOpr` -/
def SelSt.init (s : SelSt quns prds) : SelSt quns prds :=
  { s with
    qunSt := fun i => (quns i).init (s.qunSt i)
    prdSt := fun j => (prds j).init (s.prdSt j) }

/-- `first_entry = 1` for the first FROM item, if it is a table or a function. -/
def SelSt.rearmFirst (s : SelSt quns prds) : SelSt quns prds :=
  { s with
    qunSt := fun i => if i.val = 0 then (quns i).rearm (s.qunSt i) else s.qunSt i }

variable (quns prds)

/-- A SEL node below a FROM item. The predicates that do not depend on its own items come first. -/
def selQuery (prep : List α → Bool) (head : List α → α) : Compiled α (Option α) where
  State := SelSt quns prds
  Initial := SelSt.Initial
  get := fun fuel scope s =>
    if prep scope then nextRow false head fuel scope fuel s else some (none, s)
  init := SelSt.init
  rearm := fun s => s

/-- How a sub-query is used in an expression. -/
inductive Oper
  | exists
  | notExists
  | scalar

/-- What an expression reads of a sub-query. -/
inductive Embed (α : Type)
  | exists (holds : Bool)
  | scalar (value : α)

/-- A SEL node in an expression, with `none` where its variable is not assigned. A scalar sub-query
must return one tuple, or it exits. -/
def selExp (oper : Oper) (prep : List α → Bool) (head : List α → α) :
    Compiled α (Option (Embed α)) where
  State := SelSt quns prds
  Initial := SelSt.Initial
  get := fun fuel scope s =>
    if prep scope then
      match oper with
      | .exists => do
        let (row, s) ← nextRow false head fuel scope fuel s
        let s := s.rearmFirst
        return (some (.exists row.isSome), if row.isSome then s.init else s)
      | .notExists => do
        let (row, s) ← nextRow false head fuel scope fuel s
        return (some (.exists row.isNone), s.rearmFirst)
      | .scalar => do
        let (row, s) ← nextRow true head fuel scope fuel s
        match row with
        | none => none
        | some value => do
          let (row, s) ← nextRow true head fuel scope fuel s
          if row.isSome then none else return (some (.scalar value), s)
    else some (none, s)
  init := fun s => { s.init with firstEntry := true }
  rearm := fun s => s

end SelNode

section Exp

variable {k : Nat} (subs : Fin k → Compiled α (Option (Embed α)))

def evalSubs (fuel : Nat) (scope : List α) :
    List (Fin k) → (Fin k → Option (Embed α)) → (∀ i, (subs i).State) →
      Option ((Fin k → Option (Embed α)) × ∀ i, (subs i).State)
  | [], vals, s => some (vals, s)
  | i :: is, vals, s => do
    let (val, q) ← (subs i).get fuel scope (s i)
    evalSubs fuel scope is (Function.update vals i val) (Function.update s i q)

def testExp (test : List α → (Fin k → Option (Embed α)) → Bool) : Compiled α Bool where
  State := ∀ i, (subs i).State
  Initial := fun s => ∀ i, (subs i).Initial (s i)
  get := fun fuel scope s => do
    let (vals, s) ← evalSubs subs fuel scope (List.finRange k) (fun _ => none) s
    return (test scope vals, s)
  init := fun s i => (subs i).init (s i)
  rearm := fun s => s

end Exp

section Union

variable {n : Nat} (quns : Fin n → Compiled α (Option α))

structure UnionSt where
  firstEntry : Bool
  index : Nat
  qunSt : ∀ i, (quns i).State

variable {quns}

/-- `do { switch (index) ... } while (rc == DB_NOTFOUND && index < n)`, and `first_entry` after
it. -/
def unionLoop (fuel : Nat) (scope : List α) : Nat → UnionSt quns → Option (Option α × UnionSt quns)
  | 0, _ => none
  | k + 1, s =>
    if h : s.index < n then do
      let (t, q) ← (quns ⟨s.index, h⟩).get fuel scope (s.qunSt ⟨s.index, h⟩)
      let s := { s with qunSt := Function.update s.qunSt ⟨s.index, h⟩ q }
      match t with
      | some t => return (some t, { s with firstEntry := false })
      | none => unionLoop fuel scope k { s with index := s.index + 1 }
    else some (none, { s with firstEntry := true })

/-- `if (first_entry==1) index = 0;` -/
def UnionSt.enter (s : UnionSt quns) : UnionSt quns :=
  { s with index := if s.firstEntry then 0 else s.index }

variable (quns)

def unionQuery : Compiled α (Option α) where
  State := UnionSt quns
  Initial := fun s => s.firstEntry = true ∧ s.index = 0 ∧ ∀ i, (quns i).Initial (s.qunSt i)
  get := fun fuel scope s => unionLoop fuel scope (n + 1) s.enter
  init := fun s => { s with qunSt := fun i => (quns i).init (s.qunSt i) }
  rearm := fun s => s

end Union

section Buffer

variable {π : Type} (qun : Compiled α (Option α))

/-- `reading` until the source has come to its end: `index == 0` of an ORDER node, `terminating == 0`
of a GROUP BY node. -/
structure BufferSt (π : Type) where
  reading : Bool
  rows : List α
  ptr : π
  qunSt : qun.State

variable {qun}

def drain (fuel : Nat) (scope : List α) : Nat → qun.State → Option (List α × qun.State)
  | 0, _ => none
  | k + 1, q => do
    let (t, q) ← qun.get fuel scope q
    match t with
    | none => return ([], q)
    | some t => do
      let (ts, q) ← drain fuel scope k q
      return (t :: ts, q)

/-- The first call reads the source; `fill` turns its tuples into rows. -/
def fillBuffer (fill : π → List α → Option (List α × π)) (fuel : Nat) (scope : List α)
    (s : BufferSt qun π) : Option (Unit × BufferSt qun π) :=
  if s.reading then do
    let (ts, qunSt) ← drain fuel scope fuel s.qunSt
    let (rows, ptr) ← fill s.ptr ts
    return ((), { reading := false, rows, ptr, qunSt })
  else some ((), s)

/-- The next row. With `once` the rows are dropped after the first one. -/
def takeRow (once : Bool) (s : BufferSt qun π) : Option α × BufferSt qun π :=
  match s.rows with
  | row :: rows =>
    (some row, if once then { s with reading := true, rows := [] } else { s with rows })
  | [] => (none, { s with reading := true })

variable (qun)

def bufferQuery (ptr : π) (fill : π → List α → Option (List α × π)) (once : Bool) :
    Compiled α (Option α) where
  State := BufferSt qun π
  Initial := fun s => s.reading = true ∧ s.ptr = ptr ∧ qun.Initial s.qunSt
  get := fun fuel scope s => (fillBuffer fill fuel scope s).map fun r => takeRow once r.2
  init := fun s => s
  rearm := fun s => s

/-- `sort` for the ORDER BY columns. -/
def orderQuery (sort : List α → List α) : Compiled α (Option α) :=
  bufferQuery qun () (fun _ ts => some (sort ts, ())) false

/-- `groups` evaluates the node with the status pointer that the evaluation before has left
(`StreamMill.Query.GroupEval`). The GROUP BY node of an EXISTS has `GB_EXISTS_FLAG`: it cleans up
after every call. -/
def gbQuery (existsFlag : Bool) (groups : StatusPtr → List α → Option (List α × StatusPtr)) :
    Compiled α (Option α) :=
  bufferQuery qun .null groups existsFlag

end Buffer

mutual

/-- `A_SQL_SEL`: the precomputed predicates, the FROM items, the other predicates and the head. -/
inductive SelOpr (α : Type) : Type
  | mk (prep : List α → Bool) (n : Nat) (quns : Fin n → Qun α) (m : Nat) (prds : Fin m → Exp α)
      (head : List α → α)

/-- `A_qun`, with the kinds of node of `QUN_QUERY`. -/
inductive Qun (α : Type) : Type
  | name (tuples : List α → List α)
  | function (udf : List α → List α)
  | sel (a : SelOpr α)
  | union (n : Nat) (quns : Fin n → Qun α)
  | order (sort : List α → List α) (qun : Qun α)
  | gb (existsFlag : Bool) (groups : StatusPtr → List α → Option (List α × StatusPtr))
      (qun : Qun α)

inductive Exp (α : Type) : Type
  | mk (k : Nat) (oper : Fin k → Oper) (subs : Fin k → SelOpr α)
      (test : List α → (Fin k → Option (Embed α)) → Bool)

end

mutual

def SelOpr.query : SelOpr α → Compiled α (Option α)
  | .mk prep _ quns _ prds head =>
    selQuery (fun i => (quns i).compile) (fun j => (prds j).compile) prep head

def SelOpr.exp (oper : Oper) : SelOpr α → Compiled α (Option (Embed α))
  | .mk prep _ quns _ prds head =>
    selExp (fun i => (quns i).compile) (fun j => (prds j).compile) oper prep head

def Qun.compile : Qun α → Compiled α (Option α)
  | .name tuples => nameQun tuples
  | .function udf => functionQun udf
  | .sel a => a.query
  | .union _ quns => unionQuery fun i => (quns i).compile
  | .order sort qun => orderQuery qun.compile sort
  | .gb existsFlag groups qun => gbQuery qun.compile existsFlag groups

def Exp.compile : Exp α → Compiled α Bool
  | .mk _ oper subs test => testExp (fun i => (subs i).exp (oper i)) test

end

end StreamMill.Query
