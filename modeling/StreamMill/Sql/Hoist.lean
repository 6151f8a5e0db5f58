import StreamMill.Sql.Locality

/-!
# StreamMill.Sql.Hoist

The predicates that `transSelOpr` tests before the loop over the FROM items. They are translated
before the items are entered in the symbol table, the other ones afterwards. `hoists_iff` says for
which nodes that makes no difference, whatever the tuples, the functions and the operators are.
-/

namespace StreamMill.Sql

open Lib (bind_eq_ok)

def tupleEntry (aliasName : Symbol) (fields : List Field) : Entry :=
  .var {
    ty := some fields
    sname := some aliasName
    iname := none
    scope := .tabLocal
    index := none
    haskey := false
    firstKey := 0 }

section

variable (queryType : Exp → Option (List Field))

/-- The entry of a FROM item (`transBaseQun`); `queryType` are the columns of a sub-query. -/
def itemEntry (env : VEnv) : Qun → Option Entry
  | .name table aliasName =>
    match env table, tableEntry env table with
    | some (.stream ty _), _ => some (.stream ty (some aliasName))
    | _, some (.var e) => some (.var { e with sname := some aliasName })
    | _, _ => none
  | .function name _ aliasName =>
    match env name with
    | some (.function false (some fields)) => some (tupleEntry aliasName fields)
    | _ => none
  | .query query aliasName => (queryType query).map (tupleEntry aliasName)
  | .window name aliasName =>
    match env name with
    | some (.stream (some fields) _) => some (tupleEntry aliasName fields)
    | _ => none
  | .expired _ => none

def enterItem (env : VEnv) (q : Qun) : VEnv :=
  (itemEntry queryType env q).elim env fun x => Function.update env q.aliasName (some x)

def itemsEnv (venv : VEnv) (quns : List Qun) : VEnv := quns.foldl (enterItem queryType) venv

end

abbrev Tuple (V : Type) := Nat → Nat → V

/-- What the generated code computes with. A function may depend on more than its arguments, and a
sub-query on the current tuples. -/
structure Setting (V : Type) where
  product : List (Tuple V)
  outer : Name → V
  constant : Exp → V
  deref : V → Symbol → V
  unary : Oper → V → V
  binary : Oper → V → V → V
  call : Tuple V → Symbol → Option Symbol → List V → V
  query : Tuple V → Exp → V
  holds : V → Bool

/-- Only these functions depend on more than their arguments. -/
def Setting.Steady {V : Type} (S : Setting V) (volatile : Symbol → Bool) : Prop :=
  ∀ func, volatile func = false → ∀ t t', S.call t func = S.call t' func

section

variable {V : Type} (S : Setting V) (t : Tuple V)

def nameValue : Name → V
  | .column i idx => t i idx
  | name => S.outer name

mutual

def TExp.eval : TExp → V
  | .name name => nameValue S t name
  | .const e => S.constant e
  | .deref e col => S.deref e.eval col
  | .call func args member => S.call t func member (evalArgs args)
  | .unary oper left => S.unary oper left.eval
  | .op oper left right => S.binary oper left.eval right.eval
  | .query e => S.query t e

def evalArgs : List TExp → List V
  | [] => []
  | arg :: args => arg.eval :: evalArgs args

end

def Meets (x : TExp) : Bool := S.holds (x.eval S t)

end

section

variable (queryType : Exp → Option (List Field)) (venv : VEnv) (quns : List Qun)

/-- The predicates computed before the loop, translated, and the other ones. -/
def precompute : List Exp → Except Err (List TExp × List Exp)
  | [] => .ok ([], [])
  | prd :: prds => do
    if ← checkLocalExp venv quns prd then
      let (early, late) ← precompute prds
      .ok (early, prd :: late)
    else
      let x ← transExp venv quns prd
      let (early, late) ← precompute prds
      .ok (x :: early, late)

/-- The combinations of tuples that the generated code lets through; `before` is what the tuple
variables hold before the loop. -/
def transSelOpr {V : Type} (S : Setting V) (before : Tuple V) (prds : List Exp) :
    Except Err (List (Tuple V)) := do
  let (early, late) ← precompute venv quns prds
  let late ← transArgs (itemsEnv queryType venv quns) quns late
  .ok (if early.all (Meets S before) then S.product.filter fun t => late.all (Meets S t) else [])

end

/-- A `SEL` or `UPDATE` node whose tables are defined and whose predicates stand for something. -/
structure SelNode (queryType : Exp → Option (List Field)) (venv : VEnv) where
  jtlList : List Qun
  prdList : List Exp
  exps : List TExp
  tables : Tables venv jtlList
  trans : transArgs (itemsEnv queryType venv jtlList) jtlList prdList = .ok exps

/-- The predicates before the loop do not depend on the tuples, and the node lets through what meets
all predicates. -/
def SelNode.Hoists {queryType : Exp → Option (List Field)} {venv : VEnv}
    (n : SelNode queryType venv) (volatile : Symbol → Bool) : Prop :=
  ∀ {V : Type} (S : Setting V), S.Steady volatile →
    (∀ prd x, (prd, x) ∈ n.prdList.zip n.exps → checkLocalExp venv n.jtlList prd = .ok false →
      ∀ t ∈ S.product, ∀ t' ∈ S.product, x.eval S t = x.eval S t') ∧
    ∀ before, transSelOpr queryType venv n.jtlList S before n.prdList =
      .ok (S.product.filter fun t => n.exps.all (Meets S t))

def IsColumn (env : VEnv) (quns : List Qun) (v : Var) : Prop :=
  ∃ x i idx, transVar env quns v = .ok x ∧ x.name = some (.column i idx)

/-- No column of a FROM item, and no function that depends on more than its arguments. -/
def Settled (env : VEnv) (quns : List Qun) (volatile : Symbol → Bool) (e : Exp) : Prop :=
  (∀ v ∈ e.vars, ¬ IsColumn env quns v) ∧ ∀ func ∈ e.funcs, volatile func = false

section

variable {queryType : Exp → Option (List Field)} {venv env : VEnv} {quns : List Qun} {q : Qun}
  {sym : Symbol}

/-- The entry is the old one, or that of a FROM item. -/
def Entered (venv env : VEnv) (sym : Symbol) : Prop :=
  env sym = venv sym ∨ ∃ fields, (env sym).bind Entry.record = some fields

theorem tableEntry_self {table : Symbol} (h : ∀ t, env table ≠ some (.dynamic t)) :
    tableEntry env table = env table := by
  rw [tableEntry]
  split
  · exact absurd ‹_› (h _)
  · rfl

theorem tableEntry_dynamic {table t : Symbol} (h : env table = some (.dynamic t)) :
    tableEntry env table = env t := by
  rw [tableEntry, h]

theorem record_not_dynamic {fields : List Field} (h : (env sym).bind Entry.record = some fields) :
    ∀ t, env sym ≠ some (.dynamic t) := by
  intro t heq
  rw [heq] at h
  cases h

theorem tableEntry_record (hold : ∀ sym, Entered venv env sym) {table : Symbol}
    (htable : ∃ fields, (tableEntry venv table).bind Entry.record = some fields) :
    ∃ fields, (tableEntry env table).bind Entry.record = some fields := by
  rcases hold table with hsame | ⟨fields, hfields⟩
  · by_cases hdyn : ∃ t, venv table = some (.dynamic t)
    · obtain ⟨t, ht⟩ := hdyn
      rw [tableEntry_dynamic ht] at htable
      rw [tableEntry_dynamic (hsame.trans ht)]
      rcases hold t with hsame' | hfields
      · rwa [hsame']
      · exact hfields
    · rw [not_exists] at hdyn
      rwa [tableEntry_self (fun t => hsame ▸ hdyn t), hsame, ← tableEntry_self hdyn]
  · exact ⟨fields, by rw [tableEntry_self (record_not_dynamic hfields), hfields]⟩

theorem itemEntry_record (hold : ∀ sym, Entered venv env sym)
    (htables : Tables venv [q]) {x : Entry} (h : itemEntry queryType env q = some x) :
    ∃ fields, x.record = some fields := by
  cases q with
  | name table aliasName =>
    obtain ⟨fields, hfields⟩ :=
      tableEntry_record hold (htables table aliasName List.mem_cons_self)
    rw [itemEntry] at h
    split at h
    · rename_i ty sname htable
      rw [tableEntry_self (by simp [htable]), htable] at hfields
      rw [← Option.some.inj h]
      exact ⟨fields, hfields⟩
    · rename_i e htable _
      rw [htable] at hfields
      rw [← Option.some.inj h]
      exact ⟨fields, hfields⟩
    · cases h
  | function name args aliasName =>
    rw [itemEntry] at h
    split at h
    · rw [← Option.some.inj h]
      exact ⟨_, rfl⟩
    · cases h
  | query query aliasName =>
    obtain ⟨fields, -, rfl⟩ := Option.map_eq_some_iff.mp h
    exact ⟨fields, rfl⟩
  | expired aliasName => cases h
  | window name aliasName =>
    rw [itemEntry] at h
    split at h
    · rw [← Option.some.inj h]
      exact ⟨_, rfl⟩
    · cases h

theorem enterItem_other (h : sym ≠ q.aliasName) : enterItem queryType env q sym = env sym := by
  rw [enterItem]
  cases itemEntry queryType env q with
  | none => rfl
  | some x => exact Function.update_of_ne h _ _

theorem enterItem_entered (hold : ∀ sym, Entered venv env sym) (htables : Tables venv [q])
    (sym : Symbol) : Entered venv (enterItem queryType env q) sym := by
  by_cases hsym : sym = q.aliasName
  · rw [enterItem]
    cases hx : itemEntry queryType env q with
    | none => exact hold sym
    | some x =>
      obtain ⟨fields, hfields⟩ := itemEntry_record hold htables hx
      refine .inr ⟨fields, ?_⟩
      rw [hsym, Option.elim_some, Function.update_self]
      exact hfields
  · rw [Entered, enterItem_other hsym]
    exact hold sym

theorem itemsEnv_entered (hold : ∀ sym, Entered venv env sym) (htables : Tables venv quns)
    (sym : Symbol) : Entered venv (itemsEnv queryType env quns) sym := by
  induction quns generalizing env with
  | nil => exact hold sym
  | cons q quns ih =>
    refine ih (enterItem_entered hold fun table aliasName hmem => ?_) fun table aliasName hmem => ?_
    · exact htables table aliasName (by simpa using .inl (List.mem_singleton.mp hmem))
    · exact htables table aliasName (List.mem_cons_of_mem _ hmem)

theorem itemsEnv_other (h : sym ∉ quns.map Qun.aliasName) :
    itemsEnv queryType env quns sym = env sym := by
  induction quns generalizing env with
  | nil => rfl
  | cons q quns ih =>
    rw [List.map_cons, List.mem_cons, not_or] at h
    exact (ih h.2).trans (enterItem_other h.1)

theorem transColumn_column {x : VarResult} (h : transColumn env quns sym = .ok x) :
    ∃ i idx, x.name = some (.column i idx) := by
  rw [transColumn] at h
  split at h
  · rw [← Except.ok.inj h]
    exact ⟨_, _, rfl⟩
  · cases h

/-- What is no column, and is not tied to the FROM items, stands for the same thing before they are
entered. -/
theorem transVar_before (htables : Tables venv quns) {v : Var} {x : VarResult} {name : Name}
    (h : transVar (itemsEnv queryType venv quns) quns v = .ok x) (hname : x.name = some name)
    (hlocal : ¬ LocalVar venv quns v) (hcol : ¬ IsColumn (itemsEnv queryType venv quns) quns v) :
    transVar venv quns v = .ok x := by
  have hentered (sym : Symbol) := @itemsEnv_entered queryType venv venv quns (fun _ => .inl rfl)
    htables sym
  cases v with
  | simple sym =>
    have hno {y : VarResult} (hy : transColumn (itemsEnv queryType venv quns) quns sym = .ok y)
        (hxy : x = y) : False := by
      obtain ⟨i, idx, hcolumn⟩ := transColumn_column hy
      exact hcol ⟨x, i, idx, h, hxy ▸ hcolumn⟩
    rw [transVar] at h
    split at h
    · rename_i e hentry
      split at h
      · rename_i hty
        rcases hentered sym with hsame | ⟨fields, hfields⟩
        · rw [hentry] at hsame
          rw [transVar, ← hsame]
          dsimp only
          rw [hty]
          exact h
        · rw [hentry] at hfields
          exact absurd (hty.symm.trans hfields) (by simp)
      · exact (hno h rfl).elim
    · rw [← Except.ok.inj h] at hname
      cases hname
    · exact (hno h rfl).elim
  | field aliasName sym =>
    rwa [transVar, itemsEnv_other hlocal] at h
  | ref r => cases h
  | subscript => cases h

end

section

variable {queryType : Exp → Option (List Field)} {venv env : VEnv} {quns : List Qun}
  {volatile : Symbol → Bool} {func : Symbol}

def Constant (volatile : Symbol → Bool) (x : TExp) : Prop :=
  ∀ {V : Type} (S : Setting V), S.Steady volatile → ∀ t t', x.eval S t = x.eval S t'

def ConstantArgs (volatile : Symbol → Bool) (xs : List TExp) : Prop :=
  ∀ {V : Type} (S : Setting V), S.Steady volatile → ∀ t t', evalArgs S t xs = evalArgs S t' xs

theorem settled_op {oper : Oper} {left right : Exp}
    (h : Settled env quns volatile (.op oper left right)) :
    Settled env quns volatile left ∧ Settled env quns volatile right := by
  simp only [Settled, Exp.vars, Exp.funcs, List.forall_mem_append] at h
  exact ⟨⟨h.1.1, h.2.1⟩, h.1.2, h.2.2⟩

theorem settled_args {arg : Exp} {args : List Exp} {member : Option Symbol}
    (h : Settled env quns volatile (.call func (arg :: args) member)) :
    Settled env quns volatile arg ∧ Settled env quns volatile (.call func args member) := by
  simp only [Settled, Exp.vars, varsAll, Exp.funcs, funcsAll, List.forall_mem_cons,
    List.forall_mem_append] at h ⊢
  exact ⟨⟨h.1.1, h.2.2.1⟩, h.1.2, h.2.1, h.2.2.2⟩

theorem transName_before (htables : Tables venv quns) {v : Var} {x : TExp}
    (h : transName (itemsEnv queryType venv quns) quns v = .ok x)
    (hlocal : ¬ LocalVar venv quns v) (hcol : ¬ IsColumn (itemsEnv queryType venv quns) quns v) :
    transName venv quns v = .ok x ∧ Constant volatile x := by
  obtain ⟨y, hy, h⟩ := bind_eq_ok h
  rcases hname : y.name with _ | name
  · rw [hname] at h
    cases h
  · rw [hname] at h
    refine ⟨?_, ?_⟩
    · rw [transName, transVar_before htables hy hname hlocal hcol, ok_bind, hname]
      exact h
    · rw [← Except.ok.inj h]
      intro V S _ t t'
      cases name with
      | column i idx => exact absurd ⟨y, i, idx, hy, hname⟩ hcol
      | param sym => rfl
      | field struct sym => rfl

theorem transRef_before (htables : Tables venv quns) :
    ∀ {r : Ref} {x : TExp}, transRef (itemsEnv queryType venv quns) quns r = .ok x →
      ¬ LocalVar venv quns r.first → ¬ IsColumn (itemsEnv queryType venv quns) quns r.first →
        transRef venv quns r = .ok x ∧ Constant volatile x
  | .var v col, x, h, hlocal, hcol => by
    obtain ⟨y, hy, h⟩ := bind_eq_ok h
    obtain ⟨hbefore, hconst⟩ := @transName_before _ _ _ volatile htables v y hy hlocal hcol
    refine ⟨by rw [transRef, hbefore, ok_bind, h], ?_⟩
    rw [← Except.ok.inj h]
    intro V S hS t t'
    rw [TExp.eval, TExp.eval, hconst S hS t t']
  | .ref r col, x, h, hlocal, hcol => by
    obtain ⟨y, hy, h⟩ := bind_eq_ok h
    obtain ⟨hbefore, hconst⟩ := transRef_before htables hy hlocal hcol
    refine ⟨by rw [transRef, hbefore, ok_bind, h], ?_⟩
    rw [← Except.ok.inj h]
    intro V S hS t t'
    rw [TExp.eval, TExp.eval, hconst S hS t t']

theorem const_before {e e' : Exp} {x : TExp} (h : transExp env quns e = .ok x)
    (he : ∀ env : VEnv, transExp env quns e = .ok (.const e')) :
    transExp venv quns e = .ok x ∧ Constant volatile x := by
  obtain rfl := Except.ok.inj ((he env).symm.trans h)
  exact ⟨he venv, fun _ _ _ _ => rfl⟩

mutual

/-- A settled expression that nothing ties to the FROM items has the same text before they are
entered, and one value. -/
theorem transExp_before (htables : Tables venv quns) :
    ∀ {e : Exp} {x : TExp}, transExp (itemsEnv queryType venv quns) quns e = .ok x →
      ¬ Anchored venv quns e → Settled (itemsEnv queryType venv quns) quns volatile e →
        transExp venv quns e = .ok x ∧ Constant volatile x
  | .var v, x, h, hfree, hset => by
    rw [transExp] at h ⊢
    exact transName_before htables h (fun hlocal => hfree (anchored_var.mpr hlocal))
      (hset.1 v (by simp [Exp.vars]))
  | .ref r, x, h, hfree, hset => by
    rw [transExp] at h ⊢
    exact transRef_before htables h (fun hlocal => hfree (anchored_ref.mpr hlocal))
      (hset.1 r.first (by simp [Exp.vars]))
  | .call func args member, x, h, hfree, hset => by
    rw [transExp] at h
    obtain ⟨xs, hargs, h⟩ := bind_eq_ok h
    obtain ⟨hbefore, hconst⟩ := transArgs_before htables func member hargs hfree hset
    have hfunc : volatile func = false := hset.2 func (by simp [Exp.funcs])
    refine ⟨by rw [transExp, hbefore, ok_bind, h], ?_⟩
    rw [← Except.ok.inj h]
    intro V S hS t t'
    rw [TExp.eval, TExp.eval, hconst S hS t t', hS func hfunc t t']
  | .unary oper left, x, h, hfree, hset => by
    rw [transExp] at h
    obtain ⟨y, hleft, h⟩ := bind_eq_ok h
    obtain ⟨hbefore, hconst⟩ := transExp_before htables hleft hfree hset
    refine ⟨by rw [transExp, hbefore, ok_bind, h], ?_⟩
    rw [← Except.ok.inj h]
    intro V S hS t t'
    rw [TExp.eval, TExp.eval, hconst S hS t t']
  | .op oper left right, x, h, hfree, hset => by
    rw [transExp] at h
    obtain ⟨y, hleft, h⟩ := bind_eq_ok h
    obtain ⟨z, hright, h⟩ := bind_eq_ok h
    rw [anchored_op, not_or] at hfree
    obtain ⟨hbefore, hconst⟩ := transExp_before htables hleft hfree.1 (settled_op hset).1
    obtain ⟨hbefore', hconst'⟩ := transExp_before htables hright hfree.2 (settled_op hset).2
    refine ⟨by rw [transExp, hbefore, hbefore', ok_bind, ok_bind, h], ?_⟩
    rw [← Except.ok.inj h]
    intro V S hS t t'
    rw [TExp.eval, TExp.eval, hconst S hS t t', hconst' S hS t t']
  | .nil, x, h, _, _ => const_before h fun _ => by rw [transExp]
  | .int _, x, h, _, _ => const_before h fun _ => by rw [transExp]
  | .real _, x, h, _, _ => const_before h fun _ => by rw [transExp]
  | .string _, x, h, _, _ => const_before h fun _ => by rw [transExp]
  | .timestamp _ _, x, h, _, _ => const_before h fun _ => by rw [transExp]
  | .sqlopr _, x, _, hfree, _ => absurd (.inl (by simp [Exp.queries])) hfree
  | .select _ _ _, x, _, hfree, _ => absurd (.inl (by simp [Exp.queries])) hfree
  | .assign _ _, x, h, _, _ => by
    rw [transExp] at h
    cases h
  | .other, x, h, _, _ => by
    rw [transExp] at h
    cases h

theorem transArgs_before (htables : Tables venv quns) (func : Symbol) (member : Option Symbol) :
    ∀ {args : List Exp} {xs : List TExp},
      transArgs (itemsEnv queryType venv quns) quns args = .ok xs →
        ¬ Anchored venv quns (.call func args member) →
          Settled (itemsEnv queryType venv quns) quns volatile (.call func args member) →
            transArgs venv quns args = .ok xs ∧ ConstantArgs volatile xs
  | [], xs, h, _, _ => by
    rw [transArgs] at h ⊢
    refine ⟨h, ?_⟩
    rw [← Except.ok.inj h]
    intro V S _ t t'
    rfl
  | arg :: args, xs, h, hfree, hset => by
    rw [transArgs] at h
    obtain ⟨y, harg, h⟩ := bind_eq_ok h
    obtain ⟨ys, hargs, h⟩ := bind_eq_ok h
    rw [anchored_args, not_or] at hfree
    obtain ⟨hbefore, hconst⟩ := transExp_before htables harg hfree.1 (settled_args hset).1
    obtain ⟨hbefore', hconst'⟩ :=
      transArgs_before htables func member hargs hfree.2 (settled_args hset).2
    refine ⟨by rw [transArgs, hbefore, hbefore', ok_bind, ok_bind, h], ?_⟩
    rw [← Except.ok.inj h]
    intro V S hS t t'
    rw [evalArgs, evalArgs, hconst S hS t t', hconst' S hS t t']

end

/-- A setting that follows what the tuples change: a value is `true` if it does. -/
def traced (volatile : Symbol → Bool) : Setting Bool where
  product := [fun _ _ => false, fun _ _ => true]
  outer _ := false
  constant _ := false
  deref x _ := x
  unary _ x := x
  binary _ x y := x || y
  call t func _ args := args.any id || (volatile func && t 0 0)
  query _ _ := false
  holds := id

theorem traced_steady : (traced volatile).Steady volatile := by
  intro func hfunc t t'
  simp [traced, hfunc]

def Traced (volatile : Symbol → Bool) (x : TExp) (P : Prop) : Prop :=
  x.eval (traced volatile) (fun _ _ => false) = false ∧
    (x.eval (traced volatile) (fun _ _ => true) = false → P)

theorem transName_traced {v : Var} {x : TExp} (h : transName env quns v = .ok x) :
    Traced volatile x (¬ IsColumn env quns v) := by
  obtain ⟨y, hy, h⟩ := bind_eq_ok h
  rcases hname : y.name with _ | name
  · rw [hname] at h
    cases h
  · rw [hname] at h
    rw [← Except.ok.inj h]
    cases name with
    | column i idx => exact ⟨rfl, fun htrue => by cases htrue⟩
    | param sym =>
      refine ⟨rfl, fun _ => ?_⟩
      rintro ⟨z, i, idx, hz, hcol⟩
      rw [← Except.ok.inj (hy.symm.trans hz), hname] at hcol
      cases hcol
    | field struct sym =>
      refine ⟨rfl, fun _ => ?_⟩
      rintro ⟨z, i, idx, hz, hcol⟩
      rw [← Except.ok.inj (hy.symm.trans hz), hname] at hcol
      cases hcol

theorem transRef_traced : ∀ {r : Ref} {x : TExp}, transRef env quns r = .ok x →
    Traced volatile x (¬ IsColumn env quns r.first)
  | .var v col, x, h => by
    obtain ⟨y, hy, h⟩ := bind_eq_ok h
    rw [← Except.ok.inj h]
    have htraced : Traced volatile y (¬ IsColumn env quns v) := transName_traced hy
    exact htraced
  | .ref r col, x, h => by
    obtain ⟨y, hy, h⟩ := bind_eq_ok h
    rw [← Except.ok.inj h]
    exact @transRef_traced r y hy

theorem const_traced {e e' : Exp} {x : TExp} (h : transExp env quns e = .ok x)
    (he : ∀ env : VEnv, transExp env quns e = .ok (.const e')) (hvars : e.vars = [])
    (hfuncs : e.funcs = []) : Traced volatile x (Settled env quns volatile e) := by
  obtain rfl := Except.ok.inj ((he env).symm.trans h)
  exact ⟨rfl, fun _ => ⟨by simp [hvars], by simp [hfuncs]⟩⟩

mutual

theorem transExp_traced : ∀ {e : Exp} {x : TExp}, transExp env quns e = .ok x → e.queries = [] →
    Traced volatile x (Settled env quns volatile e)
  | .var v, x, h, _ => by
    rw [transExp] at h
    obtain ⟨hfalse, htrue⟩ := @transName_traced _ _ volatile v x h
    exact ⟨hfalse, fun hx => ⟨by simpa [Exp.vars] using htrue hx, by simp [Exp.funcs]⟩⟩
  | .ref r, x, h, _ => by
    rw [transExp] at h
    obtain ⟨hfalse, htrue⟩ := @transRef_traced _ _ volatile r x h
    exact ⟨hfalse, fun hx => ⟨by simpa [Exp.vars] using htrue hx, by simp [Exp.funcs]⟩⟩
  | .call func args member, x, h, hq => by
    rw [transExp] at h
    obtain ⟨xs, hargs, h⟩ := bind_eq_ok h
    obtain ⟨hfalse, htrue⟩ := transArgs_traced hargs hq
    rw [← Except.ok.inj h]
    refine ⟨?_, fun hx => ?_⟩
    · show ((evalArgs (traced volatile) _ xs).any id || (volatile func && false)) = false
      rw [hfalse, Bool.and_false, Bool.or_false]
    · change ((evalArgs (traced volatile) _ xs).any id || (volatile func && true)) = false at hx
      rw [Bool.or_eq_false_iff, Bool.and_true] at hx
      obtain ⟨hvars, hfuncs⟩ := htrue hx.1
      exact ⟨by rwa [Exp.vars], by simpa [Exp.funcs, hx.2] using hfuncs⟩
  | .unary oper left, x, h, hq => by
    rw [transExp] at h
    obtain ⟨y, hleft, h⟩ := bind_eq_ok h
    rw [← Except.ok.inj h]
    exact @transExp_traced left y hleft hq
  | .op oper left right, x, h, hq => by
    rw [transExp] at h
    obtain ⟨y, hleft, h⟩ := bind_eq_ok h
    obtain ⟨z, hright, h⟩ := bind_eq_ok h
    rw [Exp.queries, List.append_eq_nil_iff] at hq
    obtain ⟨hfalse, htrue⟩ := transExp_traced hleft hq.1
    obtain ⟨hfalse', htrue'⟩ := transExp_traced hright hq.2
    rw [← Except.ok.inj h]
    refine ⟨?_, fun hx => ?_⟩
    · show (y.eval (traced volatile) _ || z.eval (traced volatile) _) = false
      rw [hfalse, hfalse', Bool.or_false]
    · change (y.eval (traced volatile) _ || z.eval (traced volatile) _) = false at hx
      rw [Bool.or_eq_false_iff] at hx
      obtain ⟨hvars, hfuncs⟩ := htrue hx.1
      obtain ⟨hvars', hfuncs'⟩ := htrue' hx.2
      exact ⟨by rw [Exp.vars]; exact List.forall_mem_append.mpr ⟨hvars, hvars'⟩,
        by rw [Exp.funcs]; exact List.forall_mem_append.mpr ⟨hfuncs, hfuncs'⟩⟩
  | .nil, x, h, _ => const_traced h (fun _ => by rw [transExp]) rfl rfl
  | .int _, x, h, _ => const_traced h (fun _ => by rw [transExp]) rfl rfl
  | .real _, x, h, _ => const_traced h (fun _ => by rw [transExp]) rfl rfl
  | .string _, x, h, _ => const_traced h (fun _ => by rw [transExp]) rfl rfl
  | .timestamp _ _, x, h, _ => const_traced h (fun _ => by rw [transExp]) rfl rfl
  | .sqlopr _, x, _, hq => by cases hq
  | .select _ _ _, x, _, hq => by cases hq
  | .assign _ _, x, h, _ => by
    rw [transExp] at h
    cases h
  | .other, x, h, _ => by
    rw [transExp] at h
    cases h

theorem transArgs_traced : ∀ {args : List Exp} {xs : List TExp},
    transArgs env quns args = .ok xs → queriesAll args = [] →
      (evalArgs (traced volatile) (fun _ _ => false) xs).any id = false ∧
        ((evalArgs (traced volatile) (fun _ _ => true) xs).any id = false →
          (∀ v ∈ varsAll args, ¬ IsColumn env quns v) ∧
            ∀ func ∈ funcsAll args, volatile func = false)
  | [], xs, h, _ => by
    rw [transArgs] at h
    rw [← Except.ok.inj h]
    exact ⟨rfl, fun _ => ⟨by simp [varsAll], by simp [funcsAll]⟩⟩
  | arg :: args, xs, h, hq => by
    rw [transArgs] at h
    obtain ⟨y, harg, h⟩ := bind_eq_ok h
    obtain ⟨ys, hargs, h⟩ := bind_eq_ok h
    rw [queriesAll, List.append_eq_nil_iff] at hq
    obtain ⟨hfalse, htrue⟩ := transExp_traced harg hq.1
    obtain ⟨hfalse', htrue'⟩ := transArgs_traced hargs hq.2
    rw [← Except.ok.inj h]
    refine ⟨?_, fun hx => ?_⟩
    · rw [evalArgs, List.any_cons, hfalse', id, hfalse, Bool.or_false]
    · rw [evalArgs, List.any_cons, Bool.or_eq_false_iff] at hx
      obtain ⟨hvars, hfuncs⟩ := htrue hx.1
      obtain ⟨hvars', hfuncs'⟩ := htrue' hx.2
      exact ⟨by rw [varsAll]; exact List.forall_mem_append.mpr ⟨hvars, hvars'⟩,
        by rw [funcsAll]; exact List.forall_mem_append.mpr ⟨hfuncs, hfuncs'⟩⟩

end

end

section

variable {queryType : Exp → Option (List Field)} {venv env : VEnv} {quns : List Qun}
  {volatile : Symbol → Bool} {prds : List Exp} {xs : List TExp}

theorem transArgs_zip (h : transArgs env quns prds = .ok xs) {prd : Exp} {x : TExp}
    (hmem : (prd, x) ∈ prds.zip xs) : transExp env quns prd = .ok x := by
  induction prds generalizing xs with
  | nil => cases hmem
  | cons p prds ih =>
    obtain ⟨y, hy, h⟩ := bind_eq_ok h
    obtain ⟨ys, hys, h⟩ := bind_eq_ok h
    rw [← Except.ok.inj h, List.zip_cons_cons, List.mem_cons] at hmem
    rcases hmem with heq | hmem
    · obtain ⟨rfl, rfl⟩ := Prod.mk.inj heq
      exact hy
    · exact ih hys hmem

theorem transArgs_mem (h : transArgs env quns prds = .ok xs) {prd : Exp} (hmem : prd ∈ prds) :
    ∃ x, (prd, x) ∈ prds.zip xs := by
  induction prds generalizing xs with
  | nil => cases hmem
  | cons p prds ih =>
    obtain ⟨y, hy, h⟩ := bind_eq_ok h
    obtain ⟨ys, hys, h⟩ := bind_eq_ok h
    rw [← Except.ok.inj h]
    rcases List.mem_cons.mp hmem with rfl | hmem
    · exact ⟨y, List.mem_cons_self⟩
    · obtain ⟨x, hx⟩ := ih hys hmem
      exact ⟨x, List.mem_cons_of_mem _ hx⟩

theorem precompute_spec (htables : Tables venv quns)
    (htrans : transArgs (itemsEnv queryType venv quns) quns prds = .ok xs)
    (hcond : ∀ prd ∈ prds, Anchored venv quns prd ∨
      Settled (itemsEnv queryType venv quns) quns volatile prd) :
    ∃ early late lates, precompute venv quns prds = .ok (early, late) ∧
      transArgs (itemsEnv queryType venv quns) quns late = .ok lates ∧
      (∀ x ∈ early, Constant volatile x) ∧
      ∀ {V : Type} (S : Setting V) (t : Tuple V),
        xs.all (Meets S t) = (early.all (Meets S t) && lates.all (Meets S t)) := by
  induction prds generalizing xs with
  | nil =>
    rw [← Except.ok.inj htrans]
    exact ⟨[], [], [], rfl, rfl, by simp, fun _ _ => rfl⟩
  | cons prd prds ih =>
    obtain ⟨x, hx, htrans⟩ := bind_eq_ok htrans
    obtain ⟨ys, hys, htrans⟩ := bind_eq_ok htrans
    rw [← Except.ok.inj htrans]
    rw [List.forall_mem_cons] at hcond
    obtain ⟨early, late, lates, hpre, hlates, hconst, hall⟩ := ih hys hcond.2
    obtain ⟨b, hb, hiff⟩ := checkLocalExp_iff htables hx
    cases b with
    | true =>
      refine ⟨early, prd :: late, x :: lates, ?_, ?_, hconst, fun S t => ?_⟩
      · rw [precompute, hb, hpre]
        rfl
      · rw [transArgs, hx, hlates]
        rfl
      · rw [List.all_cons, List.all_cons, hall S t, Bool.and_left_comm]
    | false =>
      have hfree : ¬ Anchored venv quns prd := fun hanchor => by
        cases hiff.mpr hanchor
      obtain ⟨hbefore, hone⟩ := transExp_before htables hx hfree (hcond.1.resolve_left hfree)
      refine ⟨x :: early, late, lates, ?_, hlates, List.forall_mem_cons.mpr ⟨hone, hconst⟩,
        fun S t => ?_⟩
      · rw [precompute, hb, hbefore, hpre]
        rfl
      · rw [List.all_cons, List.all_cons, hall S t, Bool.and_assoc]

theorem not_hoists {n : SelNode queryType venv} {prd : Exp} (hmem : prd ∈ n.prdList)
    (hfree : ¬ Anchored venv n.jtlList prd)
    (hset : ¬ Settled (itemsEnv queryType venv n.jtlList) n.jtlList volatile prd) :
    ¬ n.Hoists volatile := by
  intro h
  obtain ⟨x, hx⟩ := transArgs_mem n.trans hmem
  have htrans := transArgs_zip n.trans hx
  obtain ⟨b, hb, hiff⟩ := checkLocalExp_iff n.tables htrans
  have hearly : checkLocalExp venv n.jtlList prd = .ok false := by
    rw [hb, Bool.eq_false_iff.mpr fun htrue => hfree (hiff.mp htrue)]
  have hqueries : prd.queries = [] := by
    by_contra hne
    exact hfree (.inl hne)
  obtain ⟨hfalse, htrue⟩ := @transExp_traced _ _ volatile prd x htrans hqueries
  have hsame := (h (traced volatile) traced_steady).1 prd x hx hearly (fun _ _ => false)
    (by simp [traced]) (fun _ _ => true) (by simp [traced])
  exact hset (htrue (hsame ▸ hfalse))

/-- `SELECT ... FROM (SELECT c ...) AS x WHERE c > 3` -/
def bareColumn : SelNode (fun _ => some [⟨"c", false⟩]) (fun _ => none) where
  jtlList := [.query (.select [.simple (.var (.simple "c")) none] [] []) "x"]
  prdList := [.op .gt (.var (.simple "c")) (.int 3)]
  exps := [.op .gt (.name (.column 0 0)) (.const (.int 3))]
  tables table aliasName hmem := by simp at hmem
  trans := rfl

end

end StreamMill.Sql
