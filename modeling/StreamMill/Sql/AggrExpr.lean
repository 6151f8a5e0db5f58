import StreamMill.Sql.Meaning
import StreamMill.Sql.Locality

/-!
# StreamMill.Sql.AggrExpr

The two tests that `constructSelOp` in `sql_rewrite.cc` puts to an expression of the head of a query
with aggregates: whether it contains an aggregate, and whether it is irrelevant to the FROM items.
That a call has a window is left out. `aggrExpr_tests` says what they tell.
-/

namespace StreamMill.Sql

open Lib

section Code

inductive AggrErr
  | cascading (func : Symbol)
  | undefinedFunction (func : Symbol)
  | syntaxError
  deriving DecidableEq

/-- `x->kind == E_aggrEntry` -/
def isAggr (venv : VEnv) (func : Symbol) : Bool :=
  match venv func with
  | some (.function aggr _) => aggr
  | _ => false

variable (venv : VEnv)

mutual

/-- It does not look at the second operand of an operator once the first contains an aggregate. -/
def exprContainAggr : Exp → Except AggrErr Bool
  | .call func args _ =>
    if (venv func).isSome then do
      let result ← argsContainAggr args
      if isAggr venv func then if result then .error (.cascading func) else .ok true
      else .ok result
    else .error (.undefinedFunction func)
  | .unary _ left => exprContainAggr left
  | .op _ left right => do
    let result ← exprContainAggr left
    if result then .ok true else exprContainAggr right
  | .assign _ _ => .error .syntaxError
  | .other => .error .syntaxError
  | _ => .ok false

def argsContainAggr : List Exp → Except AggrErr Bool
  | [] => .ok false
  | arg :: args => do
    let result ← exprContainAggr arg
    let rest ← argsContainAggr args
    return result || rest

end

/-- `sel` is not looked at. An operator of one argument has no second one to follow. -/
def irrelevantExpr : Exp → Except Err Bool
  | .op _ left right => do
    let result ← irrelevantExpr left
    if result then irrelevantExpr right else .ok false
  | .unary _ left => do
    let result ← irrelevantExpr left
    if result then .error .nullPtr else .ok false
  | .int _ => .ok true
  | .string _ => .ok true
  | .timestamp _ _ => .ok true
  | .real _ => .ok true
  | _ => .ok false

end Code

section Spec

variable (venv : VEnv)

def Calls (funcs : List Symbol) : Prop := ∃ func ∈ funcs, isAggr venv func = true

mutual

def Aggregable : Exp → Prop
  | .call func args _ => (venv func).isSome ∧ AggregableArgs args ∧
      (isAggr venv func = true → ¬ Calls venv (funcsAll args))
  | .unary _ left => Aggregable left
  | .op _ left right => Aggregable left ∧ Aggregable right
  | .assign _ _ => False
  | .other => False
  | _ => True

def AggregableArgs : List Exp → Prop
  | [] => True
  | arg :: args => Aggregable arg ∧ AggregableArgs args

end

end Spec

variable {venv : VEnv}

theorem calls_nil : ¬ Calls venv [] := by simp [Calls]

theorem calls_append {fs gs : List Symbol} :
    Calls venv (fs ++ gs) ↔ Calls venv fs ∨ Calls venv gs := by
  simp [Calls, or_and_right, exists_or]

theorem calls_cons {func : Symbol} {fs : List Symbol} :
    Calls venv (func :: fs) ↔ isAggr venv func = true ∨ Calls venv fs := by
  simp [Calls]

mutual

theorem exprContainAggr_iff : ∀ {e : Exp} {r : Bool}, exprContainAggr venv e = .ok r →
    (r = true ↔ Calls venv e.funcs)
  | .call func args member, r, h => by
    rw [exprContainAggr] at h
    split at h
    · obtain ⟨result, hargs, h⟩ := bind_eq_ok h
      have hiff := argsContainAggr_iff hargs
      rw [Exp.funcs, calls_cons, ← hiff]
      split at h
      · rename_i haggr
        split at h
        · cases h
        · cases h
          simp [haggr]
      · rename_i haggr
        cases h
        simp [haggr]
    · cases h
  | .unary oper left, r, h => by
    rw [exprContainAggr] at h
    exact exprContainAggr_iff (e := left) h
  | .op oper left right, r, h => by
    rw [exprContainAggr] at h
    obtain ⟨result, hleft, h⟩ := bind_eq_ok h
    have hiff := exprContainAggr_iff (e := left) hleft
    rw [Exp.funcs, calls_append, ← hiff]
    split at h
    · rename_i hresult
      cases h
      simp [hresult]
    · rename_i hresult
      rw [exprContainAggr_iff (e := right) h]
      simp [hresult]
  | .assign _ _, r, h => by cases h
  | .other, r, h => by cases h
  | .var _, r, h => by cases h; simp [Exp.funcs, calls_nil]
  | .ref _, r, h => by cases h; simp [Exp.funcs, calls_nil]
  | .nil, r, h => by cases h; simp [Exp.funcs, calls_nil]
  | .int _, r, h => by cases h; simp [Exp.funcs, calls_nil]
  | .real _, r, h => by cases h; simp [Exp.funcs, calls_nil]
  | .string _, r, h => by cases h; simp [Exp.funcs, calls_nil]
  | .timestamp _ _, r, h => by cases h; simp [Exp.funcs, calls_nil]
  | .sqlopr _, r, h => by cases h; simp [Exp.funcs, calls_nil]
  | .select _ _ _, r, h => by cases h; simp [Exp.funcs, calls_nil]

theorem argsContainAggr_iff : ∀ {args : List Exp} {r : Bool}, argsContainAggr venv args = .ok r →
    (r = true ↔ Calls venv (funcsAll args))
  | [], r, h => by cases h; simp [funcsAll, calls_nil]
  | arg :: args, r, h => by
    rw [argsContainAggr] at h
    obtain ⟨result, harg, h⟩ := bind_eq_ok h
    obtain ⟨rest, hargs, h⟩ := bind_eq_ok h
    cases h
    rw [funcsAll, calls_append, ← exprContainAggr_iff (e := arg) harg, ← argsContainAggr_iff hargs,
      Bool.or_eq_true]

end

mutual

theorem Aggregable.returns : ∀ {e : Exp}, Aggregable venv e → ∃ r, exprContainAggr venv e = .ok r
  | .call func args member, ⟨hdef, hargs, honly⟩ => by
    obtain ⟨result, hr⟩ := AggregableArgs.returns hargs
    rw [exprContainAggr, if_pos hdef, hr]
    cases haggr : isAggr venv func with
    | false => exact ⟨result, rfl⟩
    | true =>
      have hfalse : result = false := by
        rw [← Bool.not_eq_true, argsContainAggr_iff hr]
        exact honly haggr
      exact ⟨true, by rw [hfalse]; rfl⟩
  | .unary oper left, h => Aggregable.returns (e := left) h
  | .op oper left right, ⟨hleft, hright⟩ => by
    obtain ⟨x, hx⟩ := Aggregable.returns (e := left) hleft
    obtain ⟨y, hy⟩ := Aggregable.returns (e := right) hright
    rw [exprContainAggr, hx]
    cases x with
    | true => exact ⟨true, rfl⟩
    | false => exact ⟨y, hy⟩
  | .var _, _ => ⟨false, rfl⟩
  | .ref _, _ => ⟨false, rfl⟩
  | .nil, _ => ⟨false, rfl⟩
  | .int _, _ => ⟨false, rfl⟩
  | .real _, _ => ⟨false, rfl⟩
  | .string _, _ => ⟨false, rfl⟩
  | .timestamp _ _, _ => ⟨false, rfl⟩
  | .sqlopr _, _ => ⟨false, rfl⟩
  | .select _ _ _, _ => ⟨false, rfl⟩

theorem AggregableArgs.returns :
    ∀ {args : List Exp}, AggregableArgs venv args → ∃ r, argsContainAggr venv args = .ok r
  | [], _ => ⟨false, rfl⟩
  | arg :: args, ⟨harg, hargs⟩ => by
    obtain ⟨x, hx⟩ := Aggregable.returns (e := arg) harg
    obtain ⟨y, hy⟩ := AggregableArgs.returns hargs
    rw [argsContainAggr, hx, hy]
    exact ⟨x || y, rfl⟩

end

theorem irrelevantExpr_eval {V : Type} (W : World V) :
    ∀ {e : Exp}, irrelevantExpr e = .ok true → ∃ v, ∀ scope, eval W scope e = some v
  | .op oper left right, h => by
    obtain ⟨result, hleft, h⟩ := bind_eq_ok h
    split at h
    · rename_i hresult
      rw [hresult] at hleft
      obtain ⟨x, hx⟩ := irrelevantExpr_eval W hleft
      obtain ⟨y, hy⟩ := irrelevantExpr_eval W h
      exact ⟨W.binary oper x y, fun scope => by simp [eval, hx, hy]⟩
    · cases h
  | .unary oper left, h => by
    obtain ⟨result, hleft, h⟩ := bind_eq_ok h
    split at h <;> cases h
  | .int n, _ => ⟨W.constant (.int n), fun _ => by rw [eval]⟩
  | .string s, _ => ⟨W.constant (.string s), fun _ => by rw [eval]⟩
  | .timestamp sec usec, _ => ⟨W.constant (.timestamp sec usec), fun _ => by rw [eval]⟩
  | .real text, _ => ⟨W.constant (.real text), fun _ => by rw [eval]⟩

/-- An irrelevant expression has one value for all tuples of the FROM items; without an error, an
expression contains an aggregate if and only if one is called outside its sub-queries. -/
theorem aggrExpr_tests (venv : VEnv) (quns : List Qun) (e : Exp) :
    (irrelevantExpr e = .ok true → ∀ (V : Type) (W : World V), ∃ v, ∀ t ∈ combinations W quns,
      eval W (column W venv quns t) e = some v) ∧
    (∀ r, exprContainAggr venv e = .ok r → (r = true ↔ Calls venv e.funcs)) ∧
    (Aggregable venv e → ∃ r, exprContainAggr venv e = .ok r) := by
  refine ⟨fun h V W => ?_, fun r h => exprContainAggr_iff h, fun h => h.returns⟩
  obtain ⟨v, hv⟩ := irrelevantExpr_eval W h
  exact ⟨v, fun t _ => hv _⟩

def headFuncs : Exp → List Symbol
  | .select [.simple e _] _ _ => e.funcs
  | _ => []

/-- `(SELECT max(x) FROM t)` -/
theorem exprContainAggr_query :
    let venv : VEnv := fun sym => if sym = "max" then some (.function true none) else none
    let e : Exp := .select [.simple (.call "max" [.var (.simple "x")] none) none] [.name "t" "t"] []
    Calls venv (headFuncs e) ∧ exprContainAggr venv e = .ok false := by
  refine ⟨⟨"max", by simp [headFuncs, Exp.funcs], by simp [isAggr]⟩, rfl⟩

end StreamMill.Sql
