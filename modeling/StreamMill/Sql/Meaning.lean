import StreamMill.Sql.SelectColumns

/-!
# StreamMill.Sql.Meaning

What the statements mean that the rewriting of updates deals with. A `World` has the tuples of the
FROM items and the meaning of everything that is not looked into: constants, operators, functions,
variables from outside the statement, and `->`. Variables are found as `transVar` finds them.

`effect` lists, for each tuple that a statement selects, what it assigns to which columns of which
tuples. All values are those before the statement.
-/

namespace StreamMill.Sql

structure World (V : Type) where
  /-- The tuples of a FROM item, with the OID of a table in memory as one of the columns. -/
  tuples : Qun → List (List V)
  oid : Qun → List V → V
  constant : Exp → V
  unary : Oper → V → V
  binary : Oper → V → V → V
  call : Symbol → Option Symbol → List V → V
  /-- A variable that is no column of a FROM item. -/
  outer : Name → V
  /-- A column of the tuple that a reference leads to. -/
  deref : V → Symbol → Option V
  holds : V → Bool
  /-- A value compared with those that a sub-query returns. -/
  compare : Oper → V → List V → Bool
  /-- What a query other than a plain `SELECT` returns. -/
  returns : SqlOpr → List V

variable {V : Type} (W : World V) (venv : VEnv)

def column (quns : List Qun) (tuple : List (List V)) (v : Var) : Option V :=
  match transVar (fromEnv venv quns) quns v with
  | .ok x =>
    match x.outqun, x.name with
    | some i, _ => (tuple[i]?).bind (·[x.fieldidx]?)
    | none, name => name.map W.outer
  | .error _ => none

section

variable (scope : Var → Option V)

def refValue : Ref → Option V
  | .var v col => (scope v).bind (W.deref · col)
  | .ref r col => (refValue r).bind (W.deref · col)

mutual

def eval : Exp → Option V
  | .var v => scope v
  | .ref r => refValue W scope r
  | .nil => some (W.constant .nil)
  | .int n => some (W.constant (.int n))
  | .real text => some (W.constant (.real text))
  | .string s => some (W.constant (.string s))
  | .timestamp sec usec => some (W.constant (.timestamp sec usec))
  | .call func args member => (evalAll args).map (W.call func member)
  | .unary oper left => (eval left).map (W.unary oper)
  | .op oper left right => (eval left).bind fun x => (eval right).map (W.binary oper x)
  | .assign _ _ => none
  | .sqlopr _ => none
  | .select _ _ _ => none
  | .other => none

def evalAll : List Exp → Option (List V)
  | [] => some []
  | e :: es => (eval e).bind fun x => (evalAll es).map (x :: ·)

end

end

def combinations : List Qun → List (List (List V))
  | [] => [[]]
  | q :: quns => (W.tuples q).flatMap fun r => (combinations quns).map (r :: ·)

def itemValue (scope : Var → Option V) : List SelectItem → Option V
  | [.simple e _] => eval W scope e
  | _ => none

mutual

def sat (quns : List Qun) (tuple : List (List V)) : Exp → Bool
  | .op oper left (.sqlopr (.mk kind updates items jtl prds)) =>
    let values :=
      if kind = .sel then
        ((combinations W jtl).filter fun t => satAll jtl t prds).filterMap fun t =>
          itemValue W (column W venv jtl t) items
      else W.returns (.mk kind updates items jtl prds)
    (eval W (column W venv quns tuple) left).elim false fun x => W.compare oper x values
  | .op oper (.sqlopr (.mk kind updates items jtl prds)) right =>
    let values :=
      if kind = .sel then
        ((combinations W jtl).filter fun t => satAll jtl t prds).filterMap fun t =>
          itemValue W (column W venv jtl t) items
      else W.returns (.mk kind updates items jtl prds)
    (eval W (column W venv quns tuple) right).elim false fun x => W.compare oper x values
  | e => (eval W (column W venv quns tuple) e).elim false W.holds

def satAll (quns : List Qun) (tuple : List (List V)) : List Exp → Bool
  | [] => true
  | prd :: prds => sat quns tuple prd && satAll quns tuple prds

end

def selected (quns : List Qun) (prds : List Exp) : List (List (List V)) :=
  (combinations W quns).filter fun t => satAll W venv quns t prds

structure Write (V : Type) where
  target : Option V
  col : Symbol
  value : Option V

/-- What an assignment does; `own` is the OID of the tuple that is updated. -/
def assigned (scope : Var → Option V) (own : Option V) : Exp → Option (Write V)
  | .assign (.simple col) e => some ⟨own, col, eval W scope e⟩
  | .assign (.ref (.var v col)) e => some ⟨scope v, col, eval W scope e⟩
  | .assign (.ref (.ref r col)) e => some ⟨refValue W scope r, col, eval W scope e⟩
  | _ => none

/-- An item of the head of a `SEL` node. -/
def assignedItem (scope : Var → Option V) : SelectItem → Option (Write V)
  | .simple e _ => assigned W scope none e
  | _ => none

def effect : SqlOpr → List (List (Option (Write V)))
  | .mk .update updates _ (q :: _) prds => (selected W venv [q] prds).map fun t =>
    updates.map (assigned W (column W venv [q] t) (t.head?.map (W.oid q)))
  | .mk .sel _ items jtl prds => (selected W venv jtl prds).map fun t =>
    items.map (assignedItem W (column W venv jtl t))
  | _ => []

variable {W venv} {quns : List Qun} {t : List (List V)} {prds prds' : List Exp}

theorem satAll_append : satAll W venv quns t (prds ++ prds') =
    (satAll W venv quns t prds && satAll W venv quns t prds') := by
  induction prds with
  | nil => simp [satAll]
  | cons p prds ih => rw [List.cons_append, satAll, satAll, ih, Bool.and_assoc]

/-- Expressions that are not a comparison with a sub-query. -/
def NotQuery : Exp → Prop
  | .op _ left right => (∀ s, left ≠ .sqlopr s) ∧ ∀ s, right ≠ .sqlopr s
  | _ => True

theorem sat_of_notQuery {e : Exp} (h : NotQuery e) :
    sat W venv quns t e = (eval W (column W venv quns t) e).elim false W.holds := by
  unfold sat
  split
  · exact absurd rfl (h.2 _)
  · exact absurd rfl (h.1 _)
  · rfl

end StreamMill.Sql
