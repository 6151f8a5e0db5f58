import StreamMill.Sql.Syntax
import StreamMill.Lib.Loop
import Mathlib.Algebra.Order.Ring.Int

/-!
# StreamMill.Sql.Bind

The bounds of an index scan (`bind.cc`). `isExpBound` decides whether the value of an expression is
known before the scan of a QUN; `isQunBound` takes the bounds of the key columns from the
predicates of the statement. A bound is given by the expression that the generated code evaluates.
-/

namespace StreamMill.Sql

open Lib

inductive TrExp
  | name (name : Name)
  | int (n : Int)
  | quoteString (s : String)
  | timestamp (sec usec : Int)
  | op (left : TrExp) (oper : Oper) (right : TrExp)
  deriving DecidableEq

def Oper.isArith : Oper → Bool
  | .plus | .minus | .times | .divide | .mod => true
  | _ => false

/-- A variable that belongs to no QUN is a formal parameter. The loop over the QUNs meets `curqun`
or the QUN of the variable first. -/
def isVarBound (quns : List Qun) (curqun : Nat) (x : VarResult) : Except Err (Option TrExp) :=
  match x.name with
  | none => .error .nullPtr
  | some name =>
    match x.outqun with
    | none => .ok (some (.name name))
    | some outqun =>
      match (List.range quns.length).find? fun i => i = curqun || i = outqun with
      | some i => .ok (if i = curqun then none else some (.name name))
      | none => .ok none

def isExpBound (venv : VEnv) (quns : List Qun) (curqun : Nat) : Exp → Except Err (Option TrExp)
  | .var v => do
    let x ← transVar venv quns v
    isVarBound quns curqun x
  | .int n => .ok (some (.int n))
  | .string s => .ok (some (.quoteString s))
  | .timestamp sec usec => .ok (some (.timestamp sec usec))
  | .op oper left right =>
    if oper.isArith then do
      match ← isExpBound venv quns curqun left with
      | none => return none
      | some lexe =>
        match ← isExpBound venv quns curqun right with
        | none => return none
        | some rexe => return some (.op lexe oper rexe)
    else .ok none
  | _ => .ok none

/-- A predicate that compares a column of the current QUN: the index of the column, the expression
on the other side, and whether that is the left side. -/
structure Binding where
  fieldidx : Nat
  exp : Exp
  swapped : Bool

def columnOf (venv : VEnv) (quns : List Qun) (qunidx : Nat) : Exp → Except Err (Option Nat)
  | .var v => do
    let x ← transVar venv quns v
    return if x.outqun = some qunidx then some x.fieldidx else none
  | _ => .ok none

def bindingOf (venv : VEnv) (quns : List Qun) (qunidx : Nat) (left right : Exp) :
    Except Err (Option Binding) := do
  match ← columnOf venv quns qunidx left with
  | some fieldidx => return some { fieldidx, exp := right, swapped := false }
  | none =>
    match ← columnOf venv quns qunidx right with
    | some fieldidx => return some { fieldidx, exp := left, swapped := true }
    | none => return none

/-- `exep`, `exepUpper` and `exepLower` -/
structure Bounds where
  exep : Nat → Option TrExp
  upper : Nat → Option TrExp
  lower : Nat → Option TrExp

def Bounds.empty : Bounds := { exep := fun _ => none, upper := fun _ => none, lower := fun _ => none }

def Oper.isCompare : Oper → Bool
  | .eq | .lt | .le | .gt | .ge => true
  | _ => false

/-- The side on which the column stands makes no difference. -/
def Bounds.set (b : Bounds) (oper : Oper) (idx : Nat) (e : Option TrExp) : Bounds :=
  match oper with
  | .lt | .le => { b with upper := Function.update b.upper idx e }
  | .gt | .ge => { b with lower := Function.update b.lower idx e }
  | .eq =>
    { exep := Function.update b.exep idx e
      upper := Function.update b.upper idx e
      lower := Function.update b.lower idx e }
  | _ => b

def bindPrd (venv : VEnv) (quns : List Qun) (qunidx : Nat) (fieldlist : List Field) (b : Bounds) :
    Exp → Except Err Bounds
  | .op oper left right =>
    if oper.isCompare then do
      match ← bindingOf venv quns qunidx left right with
      | none => return b
      | some c =>
        match fieldlist[c.fieldidx]? with
        | none => .error .nullPtr
        | some f =>
          if f.iskey then do
            let e ← isExpBound venv quns qunidx c.exp
            return b.set oper c.fieldidx e
          else return b
    else .ok b
  | _ => .ok b

inductive BoundFlag
  | none | all | first | rtree
  deriving DecidableEq

/-- What `isQunBound` returns; an array that was freed is `none`. -/
structure QunBound where
  exep : Option (Nat → Option TrExp)
  upper : Option (Nat → Option TrExp)
  lower : Option (Nat → Option TrExp)
  flag : BoundFlag

def QunBound.unbound : QunBound := { exep := none, upper := none, lower := none, flag := .none }

/-- All keys have a value, or the first key has a value or a bound; then the rest of the arrays is
left as it is. -/
def chooseBtree (fieldlist : List Field) (firstKey : Nat) (b : Bounds) : Except Err QunBound :=
  if ∀ i < fieldlist.length, (fieldlist[i]?.any Field.iskey) → b.exep i ≠ none then
    .ok { exep := some b.exep, upper := some b.upper, lower := some b.lower, flag := .all }
  else
    match fieldlist[firstKey]? with
    | none => .error .nullPtr
    | some f =>
      if ¬f.iskey then .ok .unbound
      else if b.exep firstKey = none then
        if b.upper firstKey = none ∧ b.lower firstKey = none then .ok .unbound
        else
          .ok
            { exep := none
              upper := if b.upper firstKey = none then none else some b.upper
              lower := if b.lower firstKey = none then none else some b.lower
              flag := .first }
      else .ok { exep := some b.exep, upper := none, lower := none, flag := .first }

def chooseRtree (fieldlist : List Field) (b : Bounds) : QunBound :=
  if ∃ i < fieldlist.length, fieldlist[i]?.any Field.iskey ∧ (b.lower i ≠ none ∨ b.upper i ≠ none)
  then { exep := some b.exep, upper := some b.upper, lower := some b.lower, flag := .rtree }
  else .unbound

def chooseBounds (x : VarEntry) (fieldlist : List Field) (b : Bounds) : Except Err QunBound :=
  match x.index.getD .btree with
  | .btree => chooseBtree fieldlist x.firstKey b
  | .rtree => .ok (chooseRtree fieldlist b)
  | _ => .ok .unbound

/-- The entry of a table; another name of a table is followed once. -/
def lookTable (venv : VEnv) (name : Symbol) : Option Entry :=
  match venv name with
  | some (.dynamic table) => venv table
  | x => x

def isQunBound (venv : VEnv) (a : SqlOpr) (qunidx : Nat) : Except Err QunBound :=
  if a.jtlList = [] ∨ a.prdList = [] then .ok .unbound
  else
    match a.jtlList[qunidx]? with
    | some (.name table aliasName) =>
      match lookTable venv table with
      | some (.var x) =>
        match x.ty with
        | none => .error (.tupleTypeRequired aliasName)
        | some fieldlist =>
          if x.haskey then do
            let b ← a.prdList.foldlM (bindPrd venv a.jtlList qunidx fieldlist) .empty
            chooseBounds x fieldlist b
          else .ok .unbound
      | _ => .error (.undefinedVariable table)
    | some _ => .ok .unbound
    | none => .error .nullPtr

/-! ## Values -/

structure Sem (V : Type) where
  int : Int → V
  string : String → V
  timestamp : Int → Int → V
  arith : Oper → V → V → V

/-- The values of the parameters and of the current tuples, and of the expressions and predicates
that are not modelled. -/
structure Tuples (V : Type) where
  name : Name → V
  other : Exp → V
  truth : Exp → Prop

section

variable {V : Type} (m : Sem V) (s : Tuples V) (venv : VEnv) (quns : List Qun)

def TrExp.eval : TrExp → V
  | .name n => s.name n
  | .int n => m.int n
  | .quoteString t => m.string t
  | .timestamp sec usec => m.timestamp sec usec
  | .op left oper right => m.arith oper (TrExp.eval left) (TrExp.eval right)

def Exp.eval : Exp → V
  | .var v =>
    match transVar venv quns v with
    | .ok { name := some n, .. } => s.name n
    | _ => s.other (.var v)
  | .int n => m.int n
  | .string t => m.string t
  | .timestamp sec usec => m.timestamp sec usec
  | .op oper left right =>
    if oper.isArith then m.arith oper (Exp.eval left) (Exp.eval right)
    else s.other (.op oper left right)
  | e => s.other e

def Exp.Holds [LinearOrder V] : Exp → Prop
  | .op .eq left right => left.eval m s venv quns = right.eval m s venv quns
  | .op .lt left right => left.eval m s venv quns < right.eval m s venv quns
  | .op .le left right => left.eval m s venv quns ≤ right.eval m s venv quns
  | .op .gt left right => right.eval m s venv quns < left.eval m s venv quns
  | .op .ge left right => right.eval m s venv quns ≤ left.eval m s venv quns
  | e => s.truth e

end

def TrExp.Known (curqun : Nat) : TrExp → Prop
  | .name (.column qun _) => qun < curqun
  | .op left _ right => left.Known curqun ∧ right.Known curqun
  | _ => True

section

variable {V : Type} {m : Sem V} {s s' : Tuples V} {venv : VEnv} {quns : List Qun} {curqun : Nat}
  {e : Exp} {t : TrExp}

theorem isVarBound_some {x : VarResult} (hx : x.Right)
    (h : isVarBound quns curqun x = .ok (some t)) :
    ∃ n, x.name = some n ∧ t = .name n ∧ TrExp.Known curqun (.name n) := by
  unfold isVarBound at h
  split at h
  · cases h
  · next n hn =>
    have hcol : ∀ i idx, n = .column i idx → x.outqun = some i :=
      fun i idx hi => (hx i).2 idx (by rw [hn, hi])
    have hknown (hout : ∀ i, x.outqun = some i → i < curqun) : TrExp.Known curqun (.name n) := by
      cases n with
      | column i idx => exact hout i (hcol i idx rfl)
      | param sym => trivial
      | field struct sym => trivial
    split at h
    · next hout =>
      cases h
      exact ⟨n, hn, rfl, hknown fun i hi => by rw [hout] at hi; cases hi⟩
    · next outqun hout =>
      split at h
      · next i hfind =>
        split at h
        · cases h
        · next hne =>
          cases h
          refine ⟨n, hn, rfl, hknown fun j hj => ?_⟩
          rw [hout] at hj
          cases hj
          obtain ⟨hi, -, hfirst⟩ := List.find?_range_eq_some.mp hfind
          have hi : i = outqun := by simpa [hne] using hi
          by_contra hlt
          have := hfirst curqun (by omega)
          simp at this
      · cases h

/-- A bound has the value of the expression, and that is known before the scan. -/
theorem isExpBound_some (m : Sem V) (s : Tuples V)
    (h : isExpBound venv quns curqun e = .ok (some t)) :
    t.eval m s = e.eval m s venv quns ∧ t.Known curqun := by
  fun_induction isExpBound venv quns curqun e generalizing t with
  | case1 v =>
    obtain ⟨x, hx, h⟩ := bind_eq_ok h
    obtain ⟨n, hn, rfl, hknown⟩ := isVarBound_some (transVar_right hx) h
    refine ⟨?_, hknown⟩
    obtain ⟨outqun, fieldidx, name⟩ := x
    obtain rfl : name = some n := hn
    rw [Exp.eval, hx, TrExp.eval]
  | case2 n =>
    cases h
    exact ⟨by rw [TrExp.eval, Exp.eval], trivial⟩
  | case3 t =>
    cases h
    exact ⟨by rw [TrExp.eval, Exp.eval], trivial⟩
  | case4 sec usec =>
    cases h
    exact ⟨by rw [TrExp.eval, Exp.eval], trivial⟩
  | case5 oper left right harith ihl ihr =>
    obtain ⟨lexe, hl, h⟩ := bind_eq_ok h
    cases lexe with
    | none => cases h
    | some lexe =>
      obtain ⟨rexe, hr, h⟩ := bind_eq_ok h
      cases rexe with
      | none => cases h
      | some rexe =>
        cases h
        obtain ⟨hlv, hlk⟩ := ihl hl
        obtain ⟨hrv, hrk⟩ := ihr hr
        exact ⟨by rw [TrExp.eval, Exp.eval, if_pos harith, hlv, hrv], hlk, hrk⟩
  | case6 oper left right harith => cases h
  | case7 e => cases h

end

/-! ## The predicates -/

section

variable (venv : VEnv) (quns : List Qun) (qunidx : Nat) (fieldlist : List Field)

def IsKey (fieldlist : List Field) (k : Nat) : Prop := fieldlist[k]?.any Field.iskey

instance (fieldlist : List Field) (k : Nat) : Decidable (IsKey fieldlist k) :=
  inferInstanceAs (Decidable (_ = true))

def Oper.setsExep : Oper → Bool
  | .eq => true
  | _ => false

def Oper.setsUpper : Oper → Bool
  | .lt | .le | .eq => true
  | _ => false

def Oper.setsLower : Oper → Bool
  | .gt | .ge | .eq => true
  | _ => false

/-- The predicate sets the bound of key `k`. -/
def bindsAt (S : Oper → Bool) (k : Nat) : Exp → Option (Oper × Binding)
  | .op oper left right =>
    match bindingOf venv quns qunidx left right with
    | .ok (some c) =>
      if S oper ∧ c.fieldidx = k ∧ IsKey fieldlist k then some (oper, c) else none
    | _ => none
  | _ => none

def binder (S : Oper → Bool) (k : Nat) (prds : List Exp) : Option (Oper × Binding) :=
  prds.reverse.findSome? (bindsAt venv quns qunidx fieldlist S k)

/-- The expression is one whose value is known before the scan. -/
def knownExp (e : Exp) : Option TrExp := (isExpBound venv quns qunidx e).toOption.join

def boundAt (S : Oper → Bool) (prds : List Exp) (k : Nat) : Option TrExp :=
  (binder venv quns qunidx fieldlist S k prds).bind fun x => knownExp venv quns qunidx x.2.exp

end

section

variable {venv : VEnv} {quns : List Qun} {qunidx : Nat} {fieldlist : List Field} {b b' : Bounds}
  {prds : List Exp} {p : Exp} {k : Nat} {S : Oper → Bool} {get : Bounds → Nat → Option TrExp}

/-- `get` is the array that the operators of `S` set. -/
def Sets (S : Oper → Bool) (get : Bounds → Nat → Option TrExp) : Prop :=
  (∀ oper, S oper → oper.isCompare) ∧ ∀ b oper idx e, oper.isCompare →
    get (b.set oper idx e) = if S oper then Function.update (get b) idx e else get b

theorem sets_exep : Sets Oper.setsExep Bounds.exep := by
  refine ⟨fun oper h => ?_, fun b oper idx e h => ?_⟩ <;> cases oper <;> first | rfl | cases h

theorem sets_upper : Sets Oper.setsUpper Bounds.upper := by
  refine ⟨fun oper h => ?_, fun b oper idx e h => ?_⟩ <;> cases oper <;> first | rfl | cases h

theorem sets_lower : Sets Oper.setsLower Bounds.lower := by
  refine ⟨fun oper h => ?_, fun b oper idx e h => ?_⟩ <;> cases oper <;> first | rfl | cases h

theorem bindsAt_unset {oper : Oper} {left right : Exp} (hoper : ¬S oper) :
    bindsAt venv quns qunidx fieldlist S k (.op oper left right) = none := by
  rw [bindsAt]
  split
  · rw [if_neg fun h => hoper h.1]
  · rfl

theorem bindPrd_get (hS : Sets S get) (h : bindPrd venv quns qunidx fieldlist b p = .ok b') :
    get b' k = ((bindsAt venv quns qunidx fieldlist S k p).elim (get b k)
      fun x => knownExp venv quns qunidx x.2.exp) := by
  unfold bindPrd at h
  split at h
  · next oper left right =>
    split at h
    · next hcmp =>
      obtain ⟨c, hc, h⟩ := bind_eq_ok h
      rw [bindsAt, hc]
      cases c with
      | none =>
        cases h
        rfl
      | some c =>
        simp only at h ⊢
        split at h
        · cases h
        · next f hf =>
          have hkey : IsKey fieldlist c.fieldidx ↔ f.iskey := by rw [IsKey, hf]; rfl
          split at h
          · next hk =>
            obtain ⟨e, he, h⟩ := bind_eq_ok h
            cases h
            have hknown : knownExp venv quns qunidx c.exp = e := by rw [knownExp, he]; rfl
            rw [hS.2 b oper c.fieldidx e hcmp]
            by_cases hoper : S oper
            · rw [if_pos hoper]
              by_cases hidx : c.fieldidx = k
              · subst hidx
                rw [Function.update_self, if_pos ⟨hoper, rfl, hkey.mpr hk⟩, Option.elim_some,
                  hknown]
              · rw [Function.update_of_ne (Ne.symm hidx), if_neg fun h => hidx h.2.1]
                rfl
            · rw [if_neg hoper, if_neg fun h => hoper h.1]
              rfl
          · next hk =>
            cases h
            rw [if_neg]
            · rfl
            · rintro ⟨-, rfl, hkey'⟩
              exact hk (hkey.mp hkey')
    · next hcmp =>
      cases h
      rw [bindsAt_unset fun hoper => hcmp (hS.1 oper hoper)]
      rfl
  · next hp =>
    cases h
    unfold bindsAt
    split
    · next oper left right => exact absurd rfl (hp oper left right)
    · rfl

theorem binder_cons : binder venv quns qunidx fieldlist S k (p :: prds) =
    (binder venv quns qunidx fieldlist S k prds).or (bindsAt venv quns qunidx fieldlist S k p) := by
  rw [binder, List.reverse_cons, List.findSome?_append, List.findSome?_cons]
  cases bindsAt venv quns qunidx fieldlist S k p <;> rfl

theorem foldlM_get (hS : Sets S get)
    (h : prds.foldlM (bindPrd venv quns qunidx fieldlist) b = .ok b') :
    get b' k = ((binder venv quns qunidx fieldlist S k prds).elim (get b k)
      fun x => knownExp venv quns qunidx x.2.exp) := by
  induction prds generalizing b with
  | nil =>
    cases h
    rfl
  | cons p prds ih =>
    obtain ⟨b₁, hp, h⟩ := bind_eq_ok h
    rw [ih h, bindPrd_get hS hp, binder_cons]
    cases binder venv quns qunidx fieldlist S k prds <;> rfl

theorem foldlM_bounds
    (h : prds.foldlM (bindPrd venv quns qunidx fieldlist) .empty = .ok b) :
    b = { exep := boundAt venv quns qunidx fieldlist Oper.setsExep prds
          upper := boundAt venv quns qunidx fieldlist Oper.setsUpper prds
          lower := boundAt venv quns qunidx fieldlist Oper.setsLower prds } := by
  have hget {S : Oper → Bool} {get : Bounds → Nat → Option TrExp} (hS : Sets S get)
      (hempty : ∀ k, get .empty k = none) :
      get b = boundAt venv quns qunidx fieldlist S prds := by
    funext k
    rw [foldlM_get hS h, hempty, boundAt]
    cases binder venv quns qunidx fieldlist S k prds <;> rfl
  rw [← hget sets_exep fun _ => rfl, ← hget sets_upper fun _ => rfl,
    ← hget sets_lower fun _ => rfl]

theorem binder_mem {oper : Oper} {c : Binding}
    (h : binder venv quns qunidx fieldlist S k prds = some (oper, c)) :
    ∃ left right, .op oper left right ∈ prds ∧
      bindingOf venv quns qunidx left right = .ok (some c) ∧ S oper ∧ c.fieldidx = k := by
  obtain ⟨p, hp, h⟩ := List.exists_of_findSome?_eq_some h
  unfold bindsAt at h
  split at h
  · next oper' left right =>
    split at h
    · next c' hc =>
      split at h
      · next hset =>
        cases h
        exact ⟨left, right, List.mem_reverse.mp hp, hc, hset.1, hset.2.1⟩
      · cases h
    · cases h
  · cases h

/-! ## The arrays that are returned -/

def Uses (x : VarEntry) (fieldlist : List Field) (exep side : Nat → Option TrExp) : Prop :=
  match x.index.getD .btree with
  | .btree => (∀ i, IsKey fieldlist i → exep i ≠ none) ∨
    IsKey fieldlist x.firstKey ∧ exep x.firstKey = none ∧ side x.firstKey ≠ none
  | .rtree => True
  | _ => False

theorem IsKey.lt (h : IsKey fieldlist k) : k < fieldlist.length := by
  rw [IsKey, Option.any_eq_true] at h
  obtain ⟨f, hf, -⟩ := h
  exact (List.getElem?_eq_some_iff.mp hf).1

variable {x : VarEntry} {R : QunBound} {t : TrExp}

theorem first_spec {exep side : Nat → Option TrExp} {firstKey : Nat}
    (hall : ¬∀ i, IsKey fieldlist i → exep i ≠ none) (hkey : IsKey fieldlist firstKey)
    (hexep : exep firstKey = none) (t : TrExp) :
    (if side firstKey = none then none else some side).bind (· k) = some t ↔
      ((∀ i, IsKey fieldlist i → exep i ≠ none) ∨
        IsKey fieldlist firstKey ∧ exep firstKey = none ∧ side firstKey ≠ none) ∧
      side k = some t := by
  by_cases hside : side firstKey = none
  · rw [if_pos hside]
    exact ⟨nofun, fun h => absurd hside (h.1.resolve_left hall).2.2⟩
  · rw [if_neg hside]
    exact ⟨fun h => ⟨.inr ⟨hkey, hexep, hside⟩, h⟩, fun h => h.2⟩

theorem chooseBtree_spec (hindex : x.index.getD .btree = .btree)
    (h : chooseBtree fieldlist x.firstKey b = .ok R) :
    (∀ t, R.exep.bind (· k) = some t → b.exep k = some t) ∧
    (∀ t, R.upper.bind (· k) = some t ↔ Uses x fieldlist b.exep b.upper ∧ b.upper k = some t) ∧
    ∀ t, R.lower.bind (· k) = some t ↔ Uses x fieldlist b.exep b.lower ∧ b.lower k = some t := by
  simp only [Uses, hindex]
  unfold chooseBtree at h
  split at h
  · next hall =>
    cases h
    have hall : ∀ i, IsKey fieldlist i → b.exep i ≠ none := fun i hi => hall i hi.lt hi
    exact ⟨fun t ht => ht, fun t => (and_iff_right (.inl hall)).symm,
      fun t => (and_iff_right (.inl hall)).symm⟩
  · next hall =>
    have hall : ¬∀ i, IsKey fieldlist i → b.exep i ≠ none := fun h => hall fun i _ hi => h i hi
    -- without the first alternative the first key decides
    have hnone {side : Nat → Option TrExp}
        (hno : ¬(IsKey fieldlist x.firstKey ∧ b.exep x.firstKey = none ∧
          side x.firstKey ≠ none)) (t : TrExp) :
        (none : Option TrExp) = some t ↔
          ((∀ i, IsKey fieldlist i → b.exep i ≠ none) ∨
            IsKey fieldlist x.firstKey ∧ b.exep x.firstKey = none ∧ side x.firstKey ≠ none) ∧
          side k = some t := ⟨nofun, fun h => absurd h.1 (not_or.mpr ⟨hall, hno⟩)⟩
    split at h
    · cases h
    · next f hf =>
      have hkey : IsKey fieldlist x.firstKey ↔ f.iskey := by rw [IsKey, hf]; rfl
      split at h
      · next hk =>
        cases h
        exact ⟨nofun, hnone fun h => hk (hkey.mp h.1), hnone fun h => hk (hkey.mp h.1)⟩
      · next hk =>
        have hk : IsKey fieldlist x.firstKey := hkey.mpr (not_not.mp hk)
        split at h
        · next hexep =>
          split at h
          · next hside =>
            cases h
            exact ⟨nofun, hnone fun h => h.2.2 hside.1, hnone fun h => h.2.2 hside.2⟩
          · cases h
            exact ⟨nofun, first_spec hall hk hexep, first_spec hall hk hexep⟩
        · next hexep =>
          cases h
          exact ⟨fun t ht => ht, hnone fun h => hexep h.2.1, hnone fun h => hexep h.2.1⟩

theorem chooseBounds_spec (h : chooseBounds x fieldlist b = .ok R) (hk : IsKey fieldlist k) :
    (∀ t, R.exep.bind (· k) = some t → b.exep k = some t) ∧
    (∀ t, R.upper.bind (· k) = some t ↔ Uses x fieldlist b.exep b.upper ∧ b.upper k = some t) ∧
    ∀ t, R.lower.bind (· k) = some t ↔ Uses x fieldlist b.exep b.lower ∧ b.lower k = some t := by
  unfold chooseBounds at h
  split at h
  · next hindex => exact chooseBtree_spec hindex h
  · next hindex =>
    cases h
    simp only [Uses, hindex, true_and]
    unfold chooseRtree
    split
    · exact ⟨fun t ht => ht, fun t => Iff.rfl, fun t => Iff.rfl⟩
    · next hno =>
      refine ⟨nofun, fun t => ⟨nofun, fun ht => absurd ⟨k, hk.lt, hk, .inr ?_⟩ hno⟩,
        fun t => ⟨nofun, fun ht => absurd ⟨k, hk.lt, hk, .inl ?_⟩ hno⟩⟩ <;> simp [ht]
  · next hb hr =>
    cases h
    have hno (exep side : Nat → Option TrExp) : ¬Uses x fieldlist exep side := by
      unfold Uses
      split
      · next hindex => exact absurd hindex hb
      · next hindex => exact absurd hindex hr
      · exact not_false
    exact ⟨nofun, fun t => ⟨nofun, fun h => absurd h.1 (hno _ _)⟩,
      fun t => ⟨nofun, fun h => absurd h.1 (hno _ _)⟩⟩

end

/-! ## Soundness -/

section

variable {V : Type} {m : Sem V} {s : Tuples V} {venv : VEnv} {quns : List Qun} {qunidx : Nat}

theorem columnOf_eval {e : Exp} {idx : Nat} (h : columnOf venv quns qunidx e = .ok (some idx)) :
    e.eval m s venv quns = s.name (.column qunidx idx) := by
  unfold columnOf at h
  split at h
  · next v =>
    obtain ⟨x, hx, h⟩ := bind_eq_ok h
    obtain ⟨outqun, fieldidx, name⟩ := x
    by_cases hout : outqun = some qunidx
    · subst hout
      have hidx : fieldidx = idx := by simpa using Except.ok.inj h
      obtain rfl : name = some (.column qunidx fieldidx) := (transVar_right hx qunidx).1 rfl
      rw [Exp.eval, hx, hidx]
    · simp [hout] at h
      cases h
  · cases h

theorem bindingOf_sides {left right : Exp} {c : Binding}
    (h : bindingOf venv quns qunidx left right = .ok (some c)) :
    (c.swapped = false ∧ left.eval m s venv quns = s.name (.column qunidx c.fieldidx) ∧
      c.exp = right) ∨
    c.swapped = true ∧ right.eval m s venv quns = s.name (.column qunidx c.fieldidx) ∧
      c.exp = left := by
  obtain ⟨l, hl, h⟩ := bind_eq_ok h
  cases l with
  | some idx =>
    cases h
    exact .inl ⟨rfl, columnOf_eval hl, rfl⟩
  | none =>
    obtain ⟨r, hr, h⟩ := bind_eq_ok h
    cases r with
    | some idx =>
      cases h
      exact .inr ⟨rfl, columnOf_eval hr, rfl⟩
    | none => cases h

theorem boundAt_eval {fieldlist : List Field} {prds : List Exp} {S : Oper → Bool} {k : Nat}
    {t : TrExp}
    (h : boundAt venv quns qunidx fieldlist S prds k = some t) :
    ∃ oper c, binder venv quns qunidx fieldlist S k prds = some (oper, c) ∧
      t.eval m s = c.exp.eval m s venv quns := by
  obtain ⟨⟨oper, c⟩, hb, h⟩ := Option.bind_eq_some_iff.mp h
  refine ⟨oper, c, hb, ?_⟩
  cases he : isExpBound venv quns qunidx c.exp with
  | error e =>
    rw [knownExp, he] at h
    cases h
  | ok e =>
    rw [knownExp, he] at h
    obtain rfl : e = some t := h
    exact (isExpBound_some m s he).1

end

section

variable {V : Type} [LinearOrder V] (m : Sem V) (s : Tuples V) (venv : VEnv) (a : SqlOpr)
  (qunidx : Nat)

/-- What the bounds promise of the tuple. -/
structure BoundsHold (fieldlist : List Field) (R : QunBound) : Prop where
  exep : ∀ k, IsKey fieldlist k → ∀ t, R.exep.bind (· k) = some t →
    s.name (.column qunidx k) = t.eval m s
  upper : ∀ k, IsKey fieldlist k → ∀ t, R.upper.bind (· k) = some t →
    s.name (.column qunidx k) ≤ t.eval m s
  lower : ∀ k, IsKey fieldlist k → ∀ t, R.lower.bind (· k) = some t →
    t.eval m s ≤ s.name (.column qunidx k)

/-- The bound of key `k` in one direction, when the scan uses it, comes from a predicate with the
column on its left, an equality, or one with equal sides. -/
def StraightAt (x : VarEntry) (fieldlist : List Field) (S : Oper → Bool) (loose : Oper) (k : Nat) :
    Prop :=
  Uses x fieldlist (boundAt venv a.jtlList qunidx fieldlist Oper.setsExep a.prdList)
    (boundAt venv a.jtlList qunidx fieldlist S a.prdList) →
  boundAt venv a.jtlList qunidx fieldlist S a.prdList k ≠ none →
  ∀ oper c, binder venv a.jtlList qunidx fieldlist S k a.prdList = some (oper, c) → c.swapped →
    oper = .eq ∨ oper = loose ∧ c.exp.eval m s venv a.jtlList = s.name (.column qunidx k)

def Straight (x : VarEntry) (fieldlist : List Field) : Prop :=
  ∀ k, IsKey fieldlist k → StraightAt m s venv a qunidx x fieldlist Oper.setsUpper .le k ∧
    StraightAt m s venv a qunidx x fieldlist Oper.setsLower .ge k

structure Keyed (x : VarEntry) (fieldlist : List Field) : Prop where
  table : ∃ table aliasName, a.jtlList[qunidx]? = some (.name table aliasName) ∧
    lookTable venv table = some (.var x)
  ty : x.ty = some fieldlist
  haskey : x.haskey

variable {m s venv a qunidx} {x : VarEntry} {fieldlist : List Field} {R : QunBound}
variable {k : Nat} {t : TrExp}

theorem isQunBound_keyed (hk : Keyed venv a qunidx x fieldlist)
    (h : isQunBound venv a qunidx = .ok R) (hkey : IsKey fieldlist k) :
    (∀ t, R.exep.bind (· k) = some t →
      boundAt venv a.jtlList qunidx fieldlist Oper.setsExep a.prdList k = some t) ∧
    (∀ t, R.upper.bind (· k) = some t ↔
      Uses x fieldlist (boundAt venv a.jtlList qunidx fieldlist Oper.setsExep a.prdList)
        (boundAt venv a.jtlList qunidx fieldlist Oper.setsUpper a.prdList) ∧
      boundAt venv a.jtlList qunidx fieldlist Oper.setsUpper a.prdList k = some t) ∧
    ∀ t, R.lower.bind (· k) = some t ↔
      Uses x fieldlist (boundAt venv a.jtlList qunidx fieldlist Oper.setsExep a.prdList)
        (boundAt venv a.jtlList qunidx fieldlist Oper.setsLower a.prdList) ∧
      boundAt venv a.jtlList qunidx fieldlist Oper.setsLower a.prdList k = some t := by
  obtain ⟨table, aliasName, hqun, hlook⟩ := hk.table
  have hjtl : a.jtlList ≠ [] := by
    intro hnil
    rw [hnil] at hqun
    cases hqun
  rw [isQunBound] at h
  split at h
  · next hempty =>
    cases h
    rw [hempty.resolve_left hjtl]
    exact ⟨nofun, fun t => ⟨nofun, nofun⟩, fun t => ⟨nofun, nofun⟩⟩
  · simp only [hqun, hlook, hk.ty, hk.haskey, if_true] at h
    obtain ⟨b, hb, h⟩ := bind_eq_ok h
    obtain rfl := foldlM_bounds hb
    exact chooseBounds_spec h hkey

theorem binder_holds (hsat : ∀ p ∈ a.prdList, p.Holds m s venv a.jtlList) {S : Oper → Bool}
    {oper : Oper} {c : Binding}
    (h : binder venv a.jtlList qunidx fieldlist S k a.prdList = some (oper, c)) :
    S oper ∧ ∃ left right, Exp.Holds m s venv a.jtlList (.op oper left right) ∧
      ((c.swapped = false ∧ left.eval m s venv a.jtlList = s.name (.column qunidx k) ∧
        right.eval m s venv a.jtlList = c.exp.eval m s venv a.jtlList) ∨
      c.swapped = true ∧ right.eval m s venv a.jtlList = s.name (.column qunidx k) ∧
        left.eval m s venv a.jtlList = c.exp.eval m s venv a.jtlList) := by
  obtain ⟨left, right, hmem, hc, hS, rfl⟩ := binder_mem h
  refine ⟨hS, left, right, hsat _ hmem, ?_⟩
  rcases bindingOf_sides hc with ⟨hw, hcol, he⟩ | ⟨hw, hcol, he⟩
  · exact .inl ⟨hw, hcol, by rw [he]⟩
  · exact .inr ⟨hw, hcol, by rw [he]⟩

/-- A bound holds of the column exactly when it is not the other way round. `L` is the order of the
predicates that set the bound, `incl` the operator that stands for it. -/
theorem bound_iff {S : Oper → Bool} {incl : Oper} {L : V → V → Prop} [Std.Refl L] [Std.Antisymm L]
    (hS : ∀ oper left right, S oper → Exp.Holds m s venv a.jtlList (.op oper left right) →
      oper = .eq ∧ left.eval m s venv a.jtlList = right.eval m s venv a.jtlList ∨
        L (left.eval m s venv a.jtlList) (right.eval m s venv a.jtlList) ∧
          (oper = incl ∨
            left.eval m s venv a.jtlList ≠ right.eval m s venv a.jtlList))
    (hsat : ∀ p ∈ a.prdList, p.Holds m s venv a.jtlList)
    (ht : boundAt venv a.jtlList qunidx fieldlist S a.prdList k = some t) :
    L (s.name (.column qunidx k)) (t.eval m s) ↔
      ∀ oper c, binder venv a.jtlList qunidx fieldlist S k a.prdList = some (oper, c) →
        c.swapped →
        oper = .eq ∨ oper = incl ∧ c.exp.eval m s venv a.jtlList = s.name (.column qunidx k) := by
  obtain ⟨oper, c, hb, heval⟩ := boundAt_eval ht
  obtain ⟨hoper, left, right, hholds, hside⟩ := binder_holds hsat hb
  rw [heval]
  constructor
  · intro hle oper' c' hb' hw
    rw [hb] at hb'
    cases hb'
    obtain ⟨-, hr, hl⟩ := hside.resolve_left fun h => by rw [h.1] at hw; cases hw
    rw [← hl, ← hr] at hle ⊢
    rcases hS oper left right hoper hholds with ⟨heq, -⟩ | ⟨hback, hincl⟩
    · exact .inl heq
    · have heq := Std.Antisymm.antisymm _ _ hback hle
      exact .inr ⟨hincl.resolve_right (not_not_intro heq), heq⟩
  · intro hstraight
    rcases hside with ⟨-, hl, hr⟩ | ⟨hw, hr, hl⟩
    · rw [← hl, ← hr]
      rcases hS oper left right hoper hholds with ⟨-, heq⟩ | ⟨hle, -⟩
      · exact heq ▸ Std.Refl.refl _
      · exact hle
    · rcases hstraight oper c hb hw with rfl | ⟨rfl, heq⟩
      · rw [← hl, ← hr, show left.eval m s venv a.jtlList = _ from hholds]
        exact Std.Refl.refl _
      · exact heq ▸ Std.Refl.refl _

section

variable (hsat : ∀ p ∈ a.prdList, p.Holds m s venv a.jtlList)
include hsat

theorem upper_iff (ht : boundAt venv a.jtlList qunidx fieldlist Oper.setsUpper a.prdList k = some t) :
    s.name (.column qunidx k) ≤ t.eval m s ↔
      ∀ oper c, binder venv a.jtlList qunidx fieldlist Oper.setsUpper k a.prdList =
        some (oper, c) → c.swapped →
        oper = .eq ∨ oper = .le ∧ c.exp.eval m s venv a.jtlList = s.name (.column qunidx k) := by
  refine bound_iff (fun oper left right hoper hholds => ?_) hsat ht
  cases oper with
  | eq => exact .inl ⟨rfl, hholds⟩
  | le => exact .inr ⟨hholds, .inl rfl⟩
  | lt => exact .inr ⟨le_of_lt hholds, .inr (ne_of_lt hholds)⟩
  | _ => cases hoper

theorem lower_iff (ht : boundAt venv a.jtlList qunidx fieldlist Oper.setsLower a.prdList k = some t) :
    t.eval m s ≤ s.name (.column qunidx k) ↔
      ∀ oper c, binder venv a.jtlList qunidx fieldlist Oper.setsLower k a.prdList =
        some (oper, c) → c.swapped →
        oper = .eq ∨ oper = .ge ∧ c.exp.eval m s venv a.jtlList = s.name (.column qunidx k) := by
  refine bound_iff (L := (· ≥ ·)) (fun oper left right hoper hholds => ?_) hsat ht
  cases oper with
  | eq => exact .inl ⟨rfl, hholds⟩
  | ge => exact .inr ⟨hholds, .inl rfl⟩
  | gt => exact .inr ⟨le_of_lt hholds, .inr (ne_of_gt hholds)⟩
  | _ => cases hoper

theorem exep_eval (ht : boundAt venv a.jtlList qunidx fieldlist Oper.setsExep a.prdList k = some t) :
    s.name (.column qunidx k) = t.eval m s := by
  obtain ⟨oper, c, hb, heval⟩ := boundAt_eval ht
  obtain ⟨hS, left, right, hholds, hside⟩ := binder_holds hsat hb
  rw [heval]
  cases oper with
  | eq =>
    rcases hside with ⟨-, hl, hr⟩ | ⟨-, hr, hl⟩
    · rw [← hl, ← hr]
      exact hholds
    · rw [← hl, ← hr]
      exact Eq.symm hholds
  | _ => cases hS

end

/-- A tuple that meets all predicates is inside the bounds if and only if none in use comes from an
inequality with the column on its right. -/
theorem bounds_hold_iff (hk : Keyed venv a qunidx x fieldlist)
    (hrun : isQunBound venv a qunidx = .ok R)
    (hsat : ∀ p ∈ a.prdList, p.Holds m s venv a.jtlList) :
    BoundsHold m s qunidx fieldlist R ↔ Straight m s venv a qunidx x fieldlist := by
  constructor
  · intro hb k hkey
    obtain ⟨-, hupper, hlower⟩ := isQunBound_keyed hk hrun hkey
    refine ⟨fun huses hne => ?_, fun huses hne => ?_⟩
    · obtain ⟨t, ht⟩ := Option.ne_none_iff_exists'.mp hne
      exact (upper_iff hsat ht).mp (hb.upper k hkey t ((hupper t).mpr ⟨huses, ht⟩))
    · obtain ⟨t, ht⟩ := Option.ne_none_iff_exists'.mp hne
      exact (lower_iff hsat ht).mp (hb.lower k hkey t ((hlower t).mpr ⟨huses, ht⟩))
  · intro hs
    refine ⟨fun k hkey t ht => ?_, fun k hkey t ht => ?_, fun k hkey t ht => ?_⟩
    · exact exep_eval hsat ((isQunBound_keyed hk hrun hkey).1 t ht)
    · obtain ⟨huses, ht⟩ := ((isQunBound_keyed hk hrun hkey).2.1 t).mp ht
      exact (upper_iff hsat ht).mpr ((hs k hkey).1 huses (by simp [ht]))
    · obtain ⟨huses, ht⟩ := ((isQunBound_keyed hk hrun hkey).2.2 t).mp ht
      exact (lower_iff hsat ht).mpr ((hs k hkey).2 huses (by simp [ht]))

end

/-! ## Statements on a table with one key -/

def keyTable : VarEntry where
  ty := some [⟨"k", true⟩]
  sname := none
  iname := none
  scope := .tabGlobal
  index := none
  haskey := true
  firstKey := 0

def keyEnv : VEnv := fun sym => if sym = "t" then some (.var keyTable) else none

/-- `SELECT ... FROM t WHERE prd` -/
def selectWhere (prd : Exp) : SqlOpr := .mk .sel [] [] [.name "t" "t"] [prd]

def intSem : Sem Int where
  int n := n
  string _ := 0
  timestamp sec _ := sec
  arith oper a b :=
    match oper with
    | .plus => a + b
    | .minus => a - b
    | .times => a * b
    | .divide => a.tdiv b
    | .mod => a.tmod b
    | _ => 0

def tupleOf (k : Int) : Tuples Int where
  name _ := k
  other _ := 0
  truth _ := True

theorem ok_of_toOption {α : Type} {r : Except Err α} {b : α} (h : r.toOption = some b) :
    r = .ok b := by
  cases r with
  | error e => cases h
  | ok c =>
    cases h
    rfl

theorem keyTable_keyed (prd : Exp) :
    Keyed keyEnv (selectWhere prd) 0 keyTable [⟨"k", true⟩] where
  table := ⟨"t", "t", rfl, rfl⟩
  ty := rfl
  haskey := rfl

/-- `WHERE k > 5` gives the lower bound `5`. -/
theorem bounds_hold_iff_greater : ∃ R,
    isQunBound keyEnv (selectWhere (.op .gt (.var (.field "t" "k")) (.int 5))) 0 = .ok R ∧
      R.lower.bind (· 0) = some (.int 5) ∧ BoundsHold intSem (tupleOf 7) 0 [⟨"k", true⟩] R := by
  have hcheck : (isQunBound keyEnv
      (selectWhere (.op .gt (.var (.field "t" "k")) (.int 5))) 0).toOption.map
        (fun R => R.lower.bind (· 0)) = some (some (.int 5)) := by
    decide +kernel
  obtain ⟨R, hR, hlower⟩ := Option.map_eq_some_iff.mp hcheck
  have hrun := ok_of_toOption hR
  have hsat : ∀ p ∈ (selectWhere (.op .gt (.var (.field "t" "k")) (.int 5))).prdList,
      p.Holds intSem (tupleOf 7) keyEnv [.name "t" "t"] := by
    intro p hp
    rw [List.mem_singleton.mp hp]
    show (5 : Int) < 7
    decide
  refine ⟨R, hrun, hlower, (bounds_hold_iff (keyTable_keyed _) hrun hsat).mpr fun k hk => ?_⟩
  have hk0 : k = 0 := by simpa using hk.lt
  subst hk0
  refine ⟨fun _ hne => absurd (by rfl) hne, fun _ _ oper c hb hw => ?_⟩
  have hb' : binder keyEnv [.name "t" "t"] 0 [⟨"k", true⟩] Oper.setsLower 0
      [.op .gt (.var (.field "t" "k")) (.int 5)] = some (.gt, ⟨0, .int 5, false⟩) := by rfl
  have hc := hb'.symm.trans hb
  cases hc
  cases hw

/-- `WHERE 5 < k` gives the upper bound `5`, and the tuple with key `7` is outside. -/
theorem mirrored_not_boundsHold : ∃ R,
    isQunBound keyEnv (selectWhere (.op .lt (.int 5) (.var (.field "t" "k")))) 0 = .ok R ∧
      (∀ p ∈ (selectWhere (.op .lt (.int 5) (.var (.field "t" "k")))).prdList,
        p.Holds intSem (tupleOf 7) keyEnv [.name "t" "t"]) ∧
      ¬BoundsHold intSem (tupleOf 7) 0 [⟨"k", true⟩] R := by
  have hcheck : (isQunBound keyEnv
      (selectWhere (.op .lt (.int 5) (.var (.field "t" "k")))) 0).toOption.map
        (fun R => R.upper.bind (· 0)) = some (some (.int 5)) := by
    decide +kernel
  obtain ⟨R, hR, hupper⟩ := Option.map_eq_some_iff.mp hcheck
  refine ⟨R, ok_of_toOption hR, fun p hp => ?_, fun hb => ?_⟩
  · rw [List.mem_singleton.mp hp]
    show (5 : Int) < 7
    decide
  · have hle : (7 : Int) ≤ 5 := hb.upper 0 rfl _ hupper
    omega

end StreamMill.Sql
