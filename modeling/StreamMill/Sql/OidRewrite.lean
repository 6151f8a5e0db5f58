import StreamMill.Sql.Meaning

/-!
# StreamMill.Sql.OidRewrite

`rewriteUpdate` of `oid_rewrite.cc`. In an update of a table in memory, a predicate that compares
the OID with an expression without columns of the table is taken out. When the expression is a
sub-query for one variable, the update becomes a `SELECT` over the FROM list of the sub-query, with
`variable->column` for the columns of the table.
-/

namespace StreamMill.Sql

def isOIDVar (a : Exp) (tabname : Symbol) : Bool :=
  match a with
  | .var (.simple sym) => sym = "oid"
  | .var (.field table sym) => table = tabname && sym = "oid"
  | _ => false

section

variable (venv : VEnv) (tab : Symbol) (x : VarEntry) (pointer : Var)

/-- A variable that is defined in `x`, the entry of `tab`, becomes `pointer->var`. -/
def replaceVar : Var → Except Err (Option Ref)
  | .field table sym => .ok (if table = tab then some (.var pointer sym) else none)
  | .simple sym =>
    match venv sym with
    | some _ => .ok none
    | none =>
      match x.ty with
      | none => .error .nullPtr
      | some fields =>
        match searchRecordField fields sym with
        | some _ => .ok (some (.var pointer sym))
        | none => .ok none
  | _ => .ok none

def replaceRef : Ref → Except Err Ref
  | .var v col => do
    match ← replaceVar venv tab x pointer v with
    | some aref => .ok (.ref aref col)
    | none => .ok (.var v col)
  | .ref r col => do
    let r ← replaceRef r
    .ok (.ref r col)

mutual

/-- The left hand side of an assignment that is not replaced becomes a `NULL` reference, which is
followed when the assignment is translated. -/
def replaceOID : Exp → Except Err Exp
  | .sqlopr (.mk kind updates hxpList jtlList prdList) => do
    let updates ← if kind = .update then replaceAll updates else .ok updates
    let hxpList ← if kind = .update then .ok hxpList else replaceItems hxpList
    let prdList ← replaceAll prdList
    .ok (.sqlopr (.mk kind updates hxpList jtlList prdList))
  | .assign var exp => do
    match ← replaceVar venv tab x pointer var with
    | none => .error .nullPtr
    | some aref =>
      let exp ← replaceOID exp
      .ok (.assign (.ref aref) exp)
  | .unary oper left => do
    let left ← replaceOID left
    .ok (.unary oper left)
  | .op oper left right => do
    let left ← replaceOID left
    let right ← replaceOID right
    .ok (.op oper left right)
  | .var v => do
    match ← replaceVar venv tab x pointer v with
    | some aref => .ok (.ref aref)
    | none => .ok (.var v)
  | .call func args member => do
    let args ← replaceAll args
    .ok (.call func args member)
  | .ref r => do
    let r ← replaceRef venv tab x pointer r
    .ok (.ref r)
  | .int n => .ok (.int n)
  | .real text => .ok (.real text)
  | .string s => .ok (.string s)
  | .timestamp sec usec => .ok (.timestamp sec usec)
  | .nil => .ok .nil
  | .select _ _ _ => .error .ntsqlInternal
  | .other => .error .ntsqlInternal

def replaceAll : List Exp → Except Err (List Exp)
  | [] => .ok []
  | e :: es => do
    let e ← replaceOID e
    let es ← replaceAll es
    .ok (e :: es)

def replaceItems : List SelectItem → Except Err (List SelectItem)
  | [] => .ok []
  | .simple e aliasName :: items => do
    let e ← replaceOID e
    let items ← replaceItems items
    .ok (.simple e aliasName :: items)
  | .star _ :: _ => .error .ntsqlInternal
  | .complex _ _ :: _ => .error .ntsqlInternal

end

end

def oidExp (table : Symbol) : Exp → Option Exp
  | .op oper left right =>
    if oper = .eq ∨ oper = .in then
      if isOIDVar left table then some right
      else if isOIDVar right table then some left
      else none
    else none
  | _ => none

/-- The state after the loop over the predicates: `oidExp` is that of the last predicate looked at,
and `removed` says that it has been taken out of the list. -/
structure Found where
  rc : Option Err
  oidExp : Option Exp
  removed : Bool
  prdList : List Exp

/-- The loop over the predicates. `compile` gives the error of `transExp` for an expression without
the FROM list of the update. -/
def findOID (compile : Exp → Option Err) (table : Symbol) (rc : Option Err) (last : Option Exp) :
    List Exp → Found
  | [] => { rc := rc, oidExp := last, removed := false, prdList := [] }
  | prd :: prds =>
    match oidExp table prd with
    | none =>
      let found := findOID compile table rc none prds
      { found with prdList := prd :: found.prdList }
    | some .nil =>
      let found := findOID compile table rc (some .nil) prds
      { found with prdList := prd :: found.prdList }
    | some e =>
      match compile e with
      | none => { rc := none, oidExp := some e, removed := true, prdList := prds }
      | some err =>
        let found := findOID compile table (some err) (some e) prds
        { found with prdList := prd :: found.prdList }

def SqlOpr.withoutItems : SqlOpr → SqlOpr
  | .mk kind updates _ jtlList prdList => .mk kind updates [] jtlList prdList

def SqlOpr.withoutFrom : SqlOpr → SqlOpr
  | .mk kind updates hxpList _ prdList => .mk kind updates hxpList [] prdList

/-- The sub-query that a predicate has the OID compared with is changed in place. -/
def onQuery (f : SqlOpr → SqlOpr) : Exp → Exp
  | .op oper left (.sqlopr s) => .op oper left (.sqlopr (f s))
  | .op oper (.sqlopr s) right => .op oper (.sqlopr (f s)) right
  | e => e

def queryPrds : Exp → List Exp
  | .op _ _ (.sqlopr s) => s.prdList
  | .op _ (.sqlopr s) _ => s.prdList
  | _ => []

/-- The last predicate, which still has the sub-query, is changed in place. -/
def onLast (f : Exp → Exp) (prds : List Exp) : List Exp :=
  prds.modify (prds.length - 1) f

def updatedTable (venv : VEnv) (table : Symbol) : Option (Symbol × VarEntry) :=
  match venv table with
  | some (.var x) => some (table, x)
  | some (.dynamic target) =>
    match venv target with
    | some (.var x) => some (target, x)
    | _ => none
  | _ => none

/-- The update becomes a `SELECT` over the FROM list of the sub-query, and `refvar` is the OID. -/
def joinQuery (venv : VEnv) (tab : Symbol) (x : VarEntry) (updates : List Exp) (found : Found)
    (refvar : Var) (jtlList : List Qun) (prdList : List Exp) : Except Err SqlOpr := do
  let prds :=
    if found.removed then found.prdList
    else onLast (onQuery SqlOpr.withoutItems) found.prdList
  let updates ← replaceAll venv tab x refvar updates
  let prds ← replaceAll venv tab x refvar prds
  let items := updates.map fun e => SelectItem.simple e none
  if found.removed then .ok (.mk .sel [] items jtlList (prds ++ prdList))
  else
    .ok (.mk .sel [] items jtlList
      (onLast (onQuery SqlOpr.withoutFrom) prds ++ prds.getLast?.elim [] queryPrds))

def Found.statement (found : Found) (kind : OprKind) (updates : List Exp)
    (hxpList : List SelectItem) (jtlList : List Qun) : Except Err SqlOpr :=
  match found.rc with
  | some err => .error err
  | none => .ok (.mk kind updates hxpList jtlList found.prdList)

def rewriteFound (venv : VEnv) (tab : Symbol) (x : VarEntry) (kind : OprKind) (updates : List Exp)
    (hxpList : List SelectItem) (jtlList : List Qun) (found : Found) : Except Err SqlOpr :=
  match found.oidExp with
  | none => found.statement kind updates hxpList jtlList
  | some (.sqlopr (.mk _ _ items quns prds)) =>
    match items with
    | _ :: _ :: _ => found.statement kind updates hxpList jtlList
    | [.simple (.var refvar) _] => joinQuery venv tab x updates found refvar quns prds
    | [.simple _ _] => found.statement kind updates hxpList jtlList
    | _ => .error .nullPtr
  | some (.op _ _ _) => found.statement kind updates hxpList jtlList
  | some (.unary _ _) => found.statement kind updates hxpList jtlList
  | some (.int _) => found.statement kind updates hxpList jtlList
  | some (.real _) => found.statement kind updates hxpList jtlList
  | some (.string _) => found.statement kind updates hxpList jtlList
  | some (.timestamp _ _) => found.statement kind updates hxpList jtlList
  | some (.var _) => found.statement kind updates hxpList jtlList
  | some _ => .error .ntsqlInternal

def rewriteUpdate (venv : VEnv) (compile : Exp → Option Err) : SqlOpr → Except Err SqlOpr
  | .mk kind updates hxpList (.name table aliasName :: quns) (prd :: prds) =>
    match updatedTable venv table with
    | none => .error (.undefinedVariable table)
    | some (tab, x) =>
      if x.scope ≠ .memory then
        .ok (.mk kind updates hxpList (.name table aliasName :: quns) (prd :: prds))
      else
        rewriteFound venv tab x kind updates hxpList (.name table aliasName :: quns)
          (findOID compile table none none (prd :: prds))
  | a => .ok a

end StreamMill.Sql
