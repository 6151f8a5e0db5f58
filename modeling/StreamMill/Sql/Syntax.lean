import Mathlib.Data.List.Basic

/-!
# StreamMill.Sql.Syntax

The abstract syntax of SQL expressions (`absyn.h`), the entries of the symbol table (`env.h`), and
`transVar` (`semant.cc`), which finds out what a variable of a statement stands for. Symbols are
strings; positions and parent pointers are left out.
-/

namespace StreamMill.Sql

abbrev Symbol := String

inductive Oper
  | plus | minus | times | divide | mod | pluseq | minuseq | eq | neq | lt | le | gt | ge | and | or
  | like | nlike | in | nin | exist | notexist | isnull | isnnull
  deriving DecidableEq

mutual

/-- `A_var_`; the variable of a field is a simple one. -/
inductive Var
  | simple (sym : Symbol)
  | ref (ref : Ref)
  | field (var sym : Symbol)
  | subscript
  deriving DecidableEq

/-- `A_ref_`: `pointer->col`. -/
inductive Ref
  | var (var : Var) (col : Symbol)
  | ref (ref : Ref) (col : Symbol)
  deriving DecidableEq

end

def Ref.first : Ref → Var
  | .var v _ => v
  | .ref r _ => r.first

/-- `sqlopr_t` -/
inductive OprKind
  | sel | gb | union | except | intersect | insert | delete | update | load | order
  deriving DecidableEq

mutual

/-- `A_exp_`. An operator has one argument or two; statements other than queries are `other`. -/
inductive Exp
  | var (var : Var)
  | ref (ref : Ref)
  | nil
  | int (n : Int)
  | real (text : String)
  | string (s : String)
  | timestamp (sec usec : Int)
  | call (func : Symbol) (args : List Exp) (member : Option Symbol)
  | unary (oper : Oper) (left : Exp)
  | op (oper : Oper) (left right : Exp)
  | assign (var : Var) (exp : Exp)
  | sqlopr (a : SqlOpr)
  | select (hxpList : List SelectItem) (joinTableList : List Qun) (rest : List Exp)
  | other

/-- `A_sqlopr_`. The `hxp_list` of an update is a list of expressions, that of the others one of
items. -/
inductive SqlOpr
  | mk (kind : OprKind) (updates : List Exp) (hxpList : List SelectItem) (jtlList : List Qun)
    (prdList : List Exp)

inductive SelectItem
  | simple (exp : Exp) (aliasName : Option Symbol)
  | star (table : Option Symbol)
  | complex (exp : Exp) (aliasList : List Symbol)

inductive Qun
  | name (table aliasName : Symbol)
  | function (name : Symbol) (args : List Exp) (aliasName : Symbol)
  | query (query : Exp) (aliasName : Symbol)
  | expired (aliasName : Symbol)
  | window (name aliasName : Symbol)

end

def SqlOpr.kind : SqlOpr → OprKind
  | .mk kind _ _ _ _ => kind

def SqlOpr.jtlList : SqlOpr → List Qun
  | .mk _ _ _ jtlList _ => jtlList

def SqlOpr.prdList : SqlOpr → List Exp
  | .mk _ _ _ _ prdList => prdList

def Qun.aliasName : Qun → Symbol
  | .name _ aliasName => aliasName
  | .function _ _ aliasName => aliasName
  | .query _ aliasName => aliasName
  | .expired aliasName => aliasName
  | .window _ aliasName => aliasName

structure Field where
  name : Symbol
  iskey : Bool
  deriving DecidableEq

/-- `tabindex_t` -/
inductive TabIndex
  | btree | hash | recno | queue | rtree | stream
  deriving DecidableEq

/-- `tabscope_t` -/
inductive TabScope
  | tabLocal | tabGlobal | memory | window | expired
  deriving DecidableEq

/-- `E_enventry_.u.var`; `ty` is `none` for a type other than a record. -/
structure VarEntry where
  ty : Option (List Field)
  sname : Option Symbol
  iname : Option Symbol
  scope : TabScope
  index : Option TabIndex
  haskey : Bool
  firstKey : Nat

/-- `E_enventry_`; the result of a function is `none` when it is no record. -/
inductive Entry
  | var (e : VarEntry)
  | stream (ty : Option (List Field)) (sname : Option Symbol)
  | dynamic (table : Symbol)
  | function (aggr : Bool) (result : Option (List Field))
  | other

abbrev VEnv := Symbol → Option Entry

inductive Err
  | undefinedVariable (sym : Symbol)
  | tupleTypeRequired (sym : Symbol)
  | undefinedField (sym : Symbol)
  | undefinedFunction (sym : Symbol)
  | complexFuncExpected (sym : Symbol)
  | unmatchCardinality (sym : Symbol)
  | tableNotExist (sym : Symbol)
  | functionAliasMissing
  | ntsqlInternal
  /-- Not an error of the source, but a fault: a `NULL` pointer is followed. -/
  | nullPtr
  deriving DecidableEq

@[simp] theorem ok_bind {α β : Type} (a : α) (f : α → Except Err β) :
    (Except.ok a >>= f) = f a := rfl

def searchRecordField (fields : List Field) (fname : Symbol) : Option Nat :=
  fields.findIdx? fun f => f.name = fname

def Entry.record : Entry → Option (List Field)
  | .var e => e.ty
  | .stream ty _ => ty
  | _ => none

/-- What the text of a variable stands for: a formal parameter, a column of a QUN of the statement,
or a field of another structure. -/
inductive Name
  | param (sym : Symbol)
  | column (qun idx : Nat)
  | field (struct sym : Symbol)
  deriving DecidableEq

/-- What `transVar` returns; a QUN is known by its place in the list. -/
structure VarResult where
  outqun : Option Nat
  fieldidx : Nat
  /-- `none` is a `NULL` result. -/
  name : Option Name

/-- The first QUN from place `i` on that has the column. -/
def findColumn (venv : VEnv) (sym : Symbol) : Nat → List Qun → Option (Nat × Nat)
  | _, [] => none
  | i, q :: quns =>
    match ((venv q.aliasName).bind Entry.record).bind fun fields => searchRecordField fields sym with
    | some idx => some (i, idx)
    | none => findColumn venv sym (i + 1) quns

def transColumn (venv : VEnv) (quns : List Qun) (sym : Symbol) : Except Err VarResult :=
  match findColumn venv sym 0 quns with
  | some (i, idx) => .ok { outqun := some i, fieldidx := idx, name := some (.column i idx) }
  | none => .error (.undefinedVariable sym)

/-- A field of the structure that `aliasName` names. -/
def transField (quns : List Qun) (ty : Option (List Field)) (sname : Option Symbol)
    (aliasName sym : Symbol) : Except Err VarResult :=
  match ty with
  | none => .error (.tupleTypeRequired aliasName)
  | some fields =>
    match searchRecordField fields sym with
    | none => .error (.undefinedField sym)
    | some idx =>
      match quns.findIdx? fun q => q.aliasName = aliasName with
      | some i => .ok { outqun := some i, fieldidx := idx, name := some (.column i idx) }
      | none =>
        .ok { outqun := none, fieldidx := idx, name := some (.field (sname.getD aliasName) sym) }

/-- For the name of a stream it prints an error and returns no result. -/
def transVar (venv : VEnv) (quns : List Qun) : Var → Except Err VarResult
  | .simple sym =>
    match venv sym with
    | some (.var e) =>
      match e.ty with
      | none => .ok { outqun := none, fieldidx := 0, name := some (.param (e.iname.getD sym)) }
      | some _ => transColumn venv quns sym
    | some (.stream _ _) => .ok { outqun := none, fieldidx := 0, name := none }
    | _ => transColumn venv quns sym
  | .field aliasName sym =>
    match venv aliasName with
    | some (.var e) => transField quns e.ty e.sname aliasName sym
    | some (.stream ty sname) => transField quns ty sname aliasName sym
    | _ => .error (.undefinedVariable aliasName)
  | .ref _ => .error .ntsqlInternal
  | .subscript => .error .ntsqlInternal

/-- The name is that of a column when the variable is one. -/
def VarResult.Right (x : VarResult) : Prop :=
  ∀ i, (x.outqun = some i → x.name = some (.column i x.fieldidx)) ∧
    ∀ idx, x.name = some (.column i idx) → x.outqun = some i

section

variable {venv : VEnv} {quns : List Qun} {x : VarResult}

theorem transColumn_right {sym : Symbol} (h : transColumn venv quns sym = .ok x) : x.Right := by
  unfold transColumn at h
  split at h
  · cases h
    exact fun i => ⟨fun hi => by cases hi; rfl, fun idx hx => by cases hx; rfl⟩
  · cases h

theorem transField_right {ty : Option (List Field)} {sname : Option Symbol}
    {aliasName sym : Symbol} (h : transField quns ty sname aliasName sym = .ok x) : x.Right := by
  unfold transField at h
  split at h
  · cases h
  · split at h
    · cases h
    · split at h
      · cases h
        exact fun i => ⟨fun hi => by cases hi; rfl, fun idx hx => by cases hx; rfl⟩
      · cases h
        exact fun i => ⟨nofun, nofun⟩

theorem transVar_right {v : Var} (h : transVar venv quns v = .ok x) : x.Right := by
  cases v with
  | simple sym =>
    rw [transVar] at h
    split at h
    · split at h
      · cases h
        exact fun i => ⟨nofun, nofun⟩
      · exact transColumn_right h
    · cases h
      exact fun i => ⟨nofun, nofun⟩
    · exact transColumn_right h
  | field aliasName sym =>
    rw [transVar] at h
    split at h
    · exact transField_right h
    · exact transField_right h
    · cases h
  | ref r => cases h
  | subscript => cases h

end

end StreamMill.Sql
