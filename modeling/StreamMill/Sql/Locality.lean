import StreamMill.Sql.SelectColumns
import StreamMill.Lib.Loop

/-!
# StreamMill.Sql.Locality

Which predicates of a `SEL` or `UPDATE` node are computed before its loop. `checkLocalExp` looks for
what makes a predicate local; `transExp` finds out what its names stand for, among the FROM items or
before these are entered. `checkLocalExp_iff` says what `checkLocalExp` finds.
-/

namespace StreamMill.Sql

open Lib (bind_eq_ok)

section

variable (venv : VEnv)

/-- Any column of a table of the FROM list; a qualified name is compared as the pointer that it is,
which is the name of no column. -/
def checkNames (sym : Option Symbol) : List Qun → Except Err Bool
  | [] => .ok false
  | .name table _ :: quns =>
    match tableEntry venv table with
    | some (.var { ty := some fields, .. }) | some (.stream (some fields) _) => do
      let found ← checkNames sym quns
      .ok (sym.any (fun sym => (searchRecordField fields sym).isSome) || found)
    | some (.var _) | some (.stream _ _) => .error .nullPtr
    | _ => .error (.undefinedVariable table)
  | _ :: quns => checkNames sym quns

/-- A qualified name falls through to the search for a simple one. -/
def checkLocalVar (quns : List Qun) : Var → Except Err Bool
  | .field aliasName _ => do
    let found ← checkNames venv none quns
    .ok (quns.any (fun q => q.aliasName = aliasName) || found)
  | .simple sym => checkNames venv (some sym) quns
  | .subscript => .ok false
  | .ref _ => .ok false

mutual

def checkLocalExp (quns : List Qun) : Exp → Except Err Bool
  | .ref r => checkLocalVar venv quns r.first
  | .call _ args _ => checkLocalArgs quns args
  | .var v => checkLocalVar venv quns v
  | .sqlopr _ => .ok true
  | .select _ _ _ => .ok true
  | .unary _ left => checkLocalExp quns left
  | .op _ left right => do
    if ← checkLocalExp quns left then .ok true else checkLocalExp quns right
  | .nil => .ok false
  | .int _ => .ok false
  | .real _ => .ok false
  | .string _ => .ok false
  | .timestamp _ _ => .ok false
  | .assign _ _ => .error .ntsqlInternal
  | .other => .error .ntsqlInternal

def checkLocalArgs (quns : List Qun) : List Exp → Except Err Bool
  | [] => .ok false
  | arg :: args => do
    if ← checkLocalExp quns arg then .ok true else checkLocalArgs quns args

end

end

inductive TExp
  | name (name : Name)
  | const (e : Exp)
  | deref (e : TExp) (col : Symbol)
  | call (func : Symbol) (args : List TExp) (member : Option Symbol)
  | unary (oper : Oper) (left : TExp)
  | op (oper : Oper) (left right : TExp)
  | query (e : Exp)

section

variable (env : VEnv) (quns : List Qun)

def transName (v : Var) : Except Err TExp := do
  let x ← transVar env quns v
  match x.name with
  | some name => .ok (.name name)
  | none => .error .nullPtr

def transRef : Ref → Except Err TExp
  | .var v col => do
    let e ← transName env quns v
    .ok (.deref e col)
  | .ref r col => do
    let e ← transRef r
    .ok (.deref e col)

mutual

/-- `transExp`, for what stands in a predicate; its types are left out. -/
def transExp : Exp → Except Err TExp
  | .var v => transName env quns v
  | .ref r => transRef env quns r
  | .call func args member => do
    let args ← transArgs args
    .ok (.call func args member)
  | .unary oper left => do
    let left ← transExp left
    .ok (.unary oper left)
  | .op oper left right => do
    let left ← transExp left
    let right ← transExp right
    .ok (.op oper left right)
  | .nil => .ok (.const .nil)
  | .int n => .ok (.const (.int n))
  | .real text => .ok (.const (.real text))
  | .string s => .ok (.const (.string s))
  | .timestamp sec usec => .ok (.const (.timestamp sec usec))
  | .sqlopr a => .ok (.query (.sqlopr a))
  | .select hxpList joinTableList rest => .ok (.query (.select hxpList joinTableList rest))
  | .assign _ _ => .error .ntsqlInternal
  | .other => .error .ntsqlInternal

def transArgs : List Exp → Except Err (List TExp)
  | [] => .ok []
  | arg :: args => do
    let arg ← transExp arg
    let args ← transArgs args
    .ok (arg :: args)

end

end

mutual

def Exp.vars : Exp → List Var
  | .var v => [v]
  | .ref r => [r.first]
  | .call _ args _ => varsAll args
  | .unary _ left => left.vars
  | .op _ left right => left.vars ++ right.vars
  | _ => []

def varsAll : List Exp → List Var
  | [] => []
  | e :: es => e.vars ++ varsAll es

end

mutual

def Exp.funcs : Exp → List Symbol
  | .call func args _ => func :: funcsAll args
  | .unary _ left => left.funcs
  | .op _ left right => left.funcs ++ right.funcs
  | _ => []

def funcsAll : List Exp → List Symbol
  | [] => []
  | e :: es => e.funcs ++ funcsAll es

end

mutual

def Exp.queries : Exp → List Exp
  | .sqlopr a => [.sqlopr a]
  | .select hxpList joinTableList rest => [.select hxpList joinTableList rest]
  | .call _ args _ => queriesAll args
  | .unary _ left => left.queries
  | .op _ left right => left.queries ++ right.queries
  | _ => []

def queriesAll : List Exp → List Exp
  | [] => []
  | e :: es => e.queries ++ queriesAll es

end

/-- A name that is qualified by a FROM item, or one that is a column of a table among these. -/
def LocalVar (venv : VEnv) (quns : List Qun) : Var → Prop
  | .field aliasName _ => aliasName ∈ quns.map Qun.aliasName
  | .simple sym => ∃ table aliasName fields, .name table aliasName ∈ quns ∧
      (tableEntry venv table).bind Entry.record = some fields ∧ sym ∈ fields.map Field.name
  | _ => False

/-- What ties an expression to the FROM items. -/
def Anchored (venv : VEnv) (quns : List Qun) (e : Exp) : Prop :=
  e.queries ≠ [] ∨ ∃ v ∈ e.vars, LocalVar venv quns v

def Tables (venv : VEnv) (quns : List Qun) : Prop :=
  ∀ table aliasName, .name table aliasName ∈ quns →
    ∃ fields, (tableEntry venv table).bind Entry.record = some fields

section

variable {venv env : VEnv} {quns : List Qun}

theorem checkNames_of_record {table aliasName : Symbol} {sym : Option Symbol} {fields : List Field}
    (h : (tableEntry venv table).bind Entry.record = some fields) :
    checkNames venv sym (.name table aliasName :: quns) = (checkNames venv sym quns >>= fun found =>
      .ok (sym.any (fun sym => (searchRecordField fields sym).isSome) || found)) := by
  rw [checkNames]
  rcases hentry : tableEntry venv table with _ | x
  · rw [hentry] at h
    cases h
  · rw [hentry] at h
    cases x with
    | var e =>
      obtain ⟨ty, sname, iname, scope, index, haskey, firstKey⟩ := e
      obtain rfl : ty = some fields := h
      rfl
    | stream ty sname =>
      obtain rfl : ty = some fields := h
      rfl
    | dynamic table => cases h
    | function aggr result => cases h
    | other => cases h

theorem searchRecordField_isSome {fields : List Field} {sym : Symbol} :
    (searchRecordField fields sym).isSome = true ↔ sym ∈ fields.map Field.name := by
  rw [searchRecordField, List.findIdx?_isSome]
  simp [decide_eq_true_eq]

theorem checkNames_iff (htables : Tables venv quns) (sym : Option Symbol) :
    ∃ b, checkNames venv sym quns = .ok b ∧
      (b = true ↔ ∃ s ∈ sym, LocalVar venv quns (.simple s)) := by
  induction quns with
  | nil =>
    refine ⟨false, rfl, iff_of_false (by decide) ?_⟩
    rintro ⟨s, -, table, aliasName, fields, hmem, -⟩
    cases hmem
  | cons q quns ih =>
    obtain ⟨b, hb, hiff⟩ := ih fun table aliasName hmem =>
      htables table aliasName (List.mem_cons_of_mem _ hmem)
    by_cases hname : ∃ table aliasName, q = .name table aliasName
    · obtain ⟨table, aliasName, rfl⟩ := hname
      obtain ⟨fields, hfields⟩ := htables table aliasName List.mem_cons_self
      refine ⟨_, by rw [checkNames_of_record hfields, hb]; rfl, ?_⟩
      rw [Bool.or_eq_true, hiff]
      constructor
      · rintro (hhere | ⟨s, hs, t, a, fs, hmem, hrest⟩)
        · obtain ⟨s, hs, hfound⟩ := (Option.any_eq_true _ _).mp hhere
          exact ⟨s, hs, table, aliasName, fields, List.mem_cons_self, hfields,
            searchRecordField_isSome.mp hfound⟩
        · exact ⟨s, hs, t, a, fs, List.mem_cons_of_mem _ hmem, hrest⟩
      · rintro ⟨s, rfl, t, a, fs, hmem, hfs, hs⟩
        rcases List.mem_cons.mp hmem with heq | hmem
        · obtain ⟨rfl, rfl⟩ := Qun.name.inj heq
          obtain rfl := Option.some.inj (hfields.symm.trans hfs)
          exact .inl (searchRecordField_isSome.mpr hs)
        · exact .inr ⟨s, rfl, t, a, fs, hmem, hfs, hs⟩
    · refine ⟨b, ?_, hiff.trans ⟨?_, ?_⟩⟩
      · cases q with
        | name table aliasName => exact absurd ⟨table, aliasName, rfl⟩ hname
        | function name args aliasName => exact hb
        | query query aliasName => exact hb
        | expired aliasName => exact hb
        | window name aliasName => exact hb
      · rintro ⟨s, hs, t, a, fs, hmem, hrest⟩
        exact ⟨s, hs, t, a, fs, List.mem_cons_of_mem _ hmem, hrest⟩
      · rintro ⟨s, hs, t, a, fs, hmem, hrest⟩
        rcases List.mem_cons.mp hmem with heq | hmem
        · exact absurd ⟨t, a, heq.symm⟩ hname
        · exact ⟨s, hs, t, a, fs, hmem, hrest⟩

theorem checkLocalVar_iff (htables : Tables venv quns) (v : Var) :
    ∃ b, checkLocalVar venv quns v = .ok b ∧ (b = true ↔ LocalVar venv quns v) := by
  cases v with
  | simple sym =>
    obtain ⟨b, hb, hiff⟩ := checkNames_iff htables (some sym)
    exact ⟨b, hb, by simpa using hiff⟩
  | field aliasName sym =>
    obtain ⟨b, hb, hiff⟩ := checkNames_iff htables none
    refine ⟨_, by rw [checkLocalVar, hb]; rfl, ?_⟩
    have hno : b = false := by
      simpa using hiff
    rw [hno, LocalVar]
    simp [decide_eq_true_eq]
  | subscript => exact ⟨false, rfl, iff_of_false (by decide) id⟩
  | ref r => exact ⟨false, rfl, iff_of_false (by decide) id⟩

theorem anchored_op {oper : Oper} {left right : Exp} : Anchored venv quns (.op oper left right) ↔
    Anchored venv quns left ∨ Anchored venv quns right := by
  show left.queries ++ right.queries ≠ [] ∨ (∃ v ∈ left.vars ++ right.vars, _) ↔ _
  simp only [Anchored, ne_eq, List.append_eq_nil_iff, not_and_or, List.mem_append, or_and_right,
    exists_or]
  exact or_or_or_comm

theorem anchored_args {arg : Exp} {args : List Exp} {func : Symbol} {member : Option Symbol} :
    Anchored venv quns (.call func (arg :: args) member) ↔
      Anchored venv quns arg ∨ Anchored venv quns (.call func args member) := by
  show arg.queries ++ queriesAll args ≠ [] ∨ (∃ v ∈ arg.vars ++ varsAll args, _) ↔
    _ ∨ queriesAll args ≠ [] ∨ (∃ v ∈ varsAll args, _)
  simp only [Anchored, ne_eq, List.append_eq_nil_iff, not_and_or, List.mem_append, or_and_right,
    exists_or]
  exact or_or_or_comm

theorem anchored_var {v : Var} : Anchored venv quns (.var v) ↔ LocalVar venv quns v := by
  show [] ≠ [] ∨ (∃ x ∈ [v], LocalVar venv quns x) ↔ _
  simp

theorem anchored_ref {r : Ref} : Anchored venv quns (.ref r) ↔ LocalVar venv quns r.first := by
  show [] ≠ [] ∨ (∃ x ∈ [r.first], LocalVar venv quns x) ↔ _
  simp

mutual

theorem checkLocalExp_iff (htables : Tables venv quns) :
    ∀ {e : Exp} {x : TExp}, transExp env quns e = .ok x →
      ∃ b, checkLocalExp venv quns e = .ok b ∧ (b = true ↔ Anchored venv quns e)
  | .var v, x, _ => by
    obtain ⟨b, hb, hiff⟩ := checkLocalVar_iff htables v
    exact ⟨b, hb, hiff.trans anchored_var.symm⟩
  | .ref r, x, _ => by
    obtain ⟨b, hb, hiff⟩ := checkLocalVar_iff htables r.first
    exact ⟨b, hb, hiff.trans anchored_ref.symm⟩
  | .call func args member, x, h => by
    rw [transExp] at h
    obtain ⟨xs, hargs, -⟩ := bind_eq_ok h
    obtain ⟨b, hb, hiff⟩ := checkLocalArgs_iff htables func member hargs
    exact ⟨b, by rw [checkLocalExp, hb], hiff⟩
  | .unary oper left, x, h => by
    rw [transExp] at h
    obtain ⟨y, hleft, -⟩ := bind_eq_ok h
    obtain ⟨b, hb, hiff⟩ := checkLocalExp_iff htables hleft
    exact ⟨b, by rw [checkLocalExp, hb], hiff⟩
  | .op oper left right, x, h => by
    rw [transExp] at h
    obtain ⟨y, hleft, h⟩ := bind_eq_ok h
    obtain ⟨z, hright, -⟩ := bind_eq_ok h
    obtain ⟨b, hb, hiff⟩ := checkLocalExp_iff htables hleft
    obtain ⟨b', hb', hiff'⟩ := checkLocalExp_iff htables hright
    refine ⟨b || b', ?_, by rw [Bool.or_eq_true, hiff, hiff', anchored_op]⟩
    rw [checkLocalExp, hb, ok_bind]
    cases b with
    | true => rfl
    | false => exact hb'
  | .nil, x, _ => ⟨false, by rw [checkLocalExp], by simp [Anchored, Exp.queries, Exp.vars]⟩
  | .int _, x, _ => ⟨false, by rw [checkLocalExp], by simp [Anchored, Exp.queries, Exp.vars]⟩
  | .real _, x, _ => ⟨false, by rw [checkLocalExp], by simp [Anchored, Exp.queries, Exp.vars]⟩
  | .string _, x, _ => ⟨false, by rw [checkLocalExp], by simp [Anchored, Exp.queries, Exp.vars]⟩
  | .timestamp _ _, x, _ =>
    ⟨false, by rw [checkLocalExp], by simp [Anchored, Exp.queries, Exp.vars]⟩
  | .sqlopr _, x, _ => ⟨true, by rw [checkLocalExp], by simp [Anchored, Exp.queries]⟩
  | .select _ _ _, x, _ => ⟨true, by rw [checkLocalExp], by simp [Anchored, Exp.queries]⟩
  | .assign _ _, x, h => by
    rw [transExp] at h
    cases h
  | .other, x, h => by
    rw [transExp] at h
    cases h

theorem checkLocalArgs_iff (htables : Tables venv quns) (func : Symbol) (member : Option Symbol) :
    ∀ {args : List Exp} {xs : List TExp}, transArgs env quns args = .ok xs →
      ∃ b, checkLocalArgs venv quns args = .ok b ∧
        (b = true ↔ Anchored venv quns (.call func args member))
  | [], xs, _ => ⟨false, by rw [checkLocalArgs], by
      simp [Anchored, Exp.queries, Exp.vars, queriesAll, varsAll]⟩
  | arg :: args, xs, h => by
    rw [transArgs] at h
    obtain ⟨y, harg, h⟩ := bind_eq_ok h
    obtain ⟨ys, hargs, -⟩ := bind_eq_ok h
    obtain ⟨b, hb, hiff⟩ := checkLocalExp_iff htables harg
    obtain ⟨b', hb', hiff'⟩ := checkLocalArgs_iff htables func member hargs
    refine ⟨b || b', ?_, by rw [Bool.or_eq_true, hiff, hiff', anchored_args]⟩
    rw [checkLocalArgs, hb, ok_bind]
    cases b with
    | true => rfl
    | false => exact hb'

end

end

end StreamMill.Sql
