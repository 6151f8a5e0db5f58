import StreamMill.Sql.Syntax
import Mathlib.Data.List.Forall2

/-!
# StreamMill.Sql.SelectList

`expandSelectList` of `sql_rewrite.cc`: a `*` of a select list becomes the columns of the FROM
items, a `T.*` the columns of one of them, and a call with a record as its result one item for each
field. The list is changed in place: the first new item overwrites the old one.

`expansion` is what one item becomes; the list becomes what its items become, one after the other,
or the first item without an expansion gives its error.
-/

namespace StreamMill.Sql

def overwriteElementList (l : List SelectItem) (position : Nat) (x : SelectItem) :
    List SelectItem := l.set position x

def insertElementList (l : List SelectItem) (position : Nat) (x : SelectItem) :
    List SelectItem := l.insertIdx position x

/-- The list, the position after the item that is expanded, and the FROM list. -/
structure Expanding where
  alist : List SelectItem
  nextpos : Nat
  quns : List Qun

def Expanding.put (s : Expanding) (first : Bool) (nsi : SelectItem) : Expanding :=
  if first then { s with alist := overwriteElementList s.alist (s.nextpos - 1) nsi }
  else { s with alist := insertElementList s.alist s.nextpos nsi, nextpos := s.nextpos + 1 }

def Expanding.putItems (first : Bool) : List SelectItem → Expanding → Expanding
  | [], s => s
  | c :: cs, s => putItems false cs (s.put first c)

/-- `A_SqlVarExp`, in an item without an alias. -/
def columnItem (qualifier sym : Symbol) : SelectItem := .simple (.var (.field qualifier sym)) none

def queryItem (aliasName : Symbol) : SelectItem → Except Err SelectItem
  | .simple (.var (.simple sym)) a => .ok (.simple (.var (.simple sym)) a)
  | .simple (.var (.ref r)) a => .ok (.simple (.var (.ref r)) a)
  | .simple (.var (.field _ sym)) a => .ok (.simple (.var (.field aliasName sym)) a)
  | .simple _ (some a) => .ok (columnItem aliasName a)
  | .simple _ none => .error .functionAliasMissing
  | .star _ => .error .nullPtr
  | .complex _ _ => .error .nullPtr

def Expanding.putQuery (aliasName : Symbol) (first : Bool) :
    List SelectItem → Expanding → Option Err × Expanding
  | [], s => (none, s)
  | c :: cs, s =>
    match queryItem aliasName c with
    | .ok nsi => putQuery aliasName false cs (s.put first nsi)
    | .error e => (some e, s)

/-- `query->u.select.hxp_list` -/
def Exp.selectItems : Exp → Option (List SelectItem)
  | .select hxpList _ _ => some hxpList
  | _ => none

section

variable (venv : VEnv)

/-- The columns of a table; `reported` is the name in the error. -/
def Expanding.putTable (table qualifier reported : Symbol) (first : Bool) (s : Expanding) :
    Option Err × Expanding :=
  match venv table with
  | none => (some (.tableNotExist reported), s)
  | some (.var e) =>
    match e.ty with
    | some cols => (none, s.putItems first (cols.map fun f => columnItem qualifier f.name))
    | none => (some .nullPtr, s)
  | some _ => (none, s)

def Expanding.putSubquery (query : Exp) (aliasName : Symbol) (first : Bool) (s : Expanding) :
    Option Err × Expanding :=
  match query.selectItems with
  | some items => s.putQuery aliasName first items
  | none => (some .nullPtr, s)

variable (expandQuery : Exp → Option Err × Exp)

/-- `table.*`: whether the FROM item has been found, the error, and the FROM list. What the
expansion of a sub-query returns is not looked at. -/
def starTable (table : Symbol) : List Qun → Expanding → Bool × Option Err × List Qun × Expanding
  | [], s => (false, none, [], s)
  | .name name aliasName :: quns, s =>
    if table = name ∨ table = aliasName then
      let (rc, s) := s.putTable venv name aliasName table true
      (true, rc, .name name aliasName :: quns, s)
    else
      let (found, rc, quns, s) := starTable table quns s
      (found, rc, .name name aliasName :: quns, s)
  | .query query aliasName :: quns, s =>
    let query := (expandQuery query).2
    if table = aliasName then
      let (rc, s) := s.putSubquery query aliasName true
      (true, rc, .query query aliasName :: quns, s)
    else
      let (found, rc, quns, s) := starTable table quns s
      (found, rc, .query query aliasName :: quns, s)
  | q :: quns, s =>
    let (found, rc, quns, s) := starTable table quns s
    (found, rc, q :: quns, s)

def starQun (first : Bool) (s : Expanding) : Qun → Option Err × Qun × Expanding
  | .name name aliasName =>
    let (rc, s) := s.putTable venv name name name first
    (rc, .name name aliasName, s)
  | .query query aliasName =>
    let query := (expandQuery query).2
    let (rc, s) := s.putSubquery query aliasName first
    (rc, .query query aliasName, s)
  | q => (none, q, s)

/-- `*`; `first` says that the FROM item is the first one. -/
def starAll (first : Bool) : List Qun → Expanding → Option Err × List Qun × Expanding
  | [], s => (none, [], s)
  | q :: quns, s =>
    match starQun venv expandQuery first s q with
    | (some e, q, s) => (some e, q :: quns, s)
    | (none, q, s) =>
      let (rc, quns, s) := starAll false quns s
      (rc, q :: quns, s)

def fieldItems (func : Symbol) (args : List Exp) (fields : List Field)
    (aliasList : List (Option Symbol)) : List SelectItem :=
  List.zipWith (fun f a => .simple (.call func args (some f.name)) a) fields aliasList

def expandSimple (exp : Exp) (s : Expanding) : Option Err × Expanding :=
  match exp with
  | .call func args none =>
    match venv func with
    | none => (some (.undefinedFunction func), s)
    | some (.function _ (some fields)) =>
      if 1 < fields.length then
        (none, s.putItems true (fieldItems func args fields (fields.map fun _ => none)))
      else (none, s)
    | some _ => (none, s)
  | _ => (none, s)

def expandComplex (exp : Exp) (aliasList : List Symbol) (s : Expanding) : Option Err × Expanding :=
  match exp with
  | .call func args _ =>
    match venv func with
    | some (.function _ (some fields)) =>
      if fields.length ≠ aliasList.length then (some (.unmatchCardinality func), s)
      else (none, s.putItems true (fieldItems func args fields (aliasList.map some)))
    | some (.function _ none) => (some (.complexFuncExpected func), s)
    | _ => (some (.undefinedFunction func), s)
  | _ => (some .nullPtr, s)

/-- One item. A FROM list without items is a `NULL` pointer. -/
def expandItem (si : SelectItem) (s : Expanding) : Option Err × Expanding :=
  match si with
  | .simple exp _ => expandSimple venv exp s
  | .complex exp aliasList => expandComplex venv exp aliasList s
  | .star (some table) =>
    if s.quns = [] then (some .nullPtr, s)
    else
      let (found, rc, quns, s) := starTable venv expandQuery table s.quns s
      match rc with
      | some e => (some e, { s with quns := quns })
      | none =>
        if found then (none, { s with quns := quns })
        else (some (.tableNotExist table), { s with quns := quns })
  | .star none =>
    if s.quns = [] then (some .nullPtr, s)
    else
      let (rc, quns, s) := starAll venv expandQuery true s.quns s
      (rc, { s with quns := quns })

def expandItems : Nat → Expanding → Option Err × Expanding
  | 0, s => (none, s)
  | k + 1, s =>
    match s.alist[s.nextpos]? with
    | none => (none, s)
    | some si =>
      match expandItem venv expandQuery si { s with nextpos := s.nextpos + 1 } with
      | (some e, s) => (some e, s)
      | (none, s) => expandItems k s

end

/-- `expandSelectList`, for sub-queries that are nested less than `n` deep. It returns the error and
the changed query. -/
def expandSelectList (venv : VEnv) : Nat → Exp → Option Err × Exp
  | 0, a => (none, a)
  | n + 1, .select hxpList quns rest =>
    let (rc, s) := expandItems venv (expandSelectList venv n) hxpList.length
      { alist := hxpList, nextpos := 0, quns := quns }
    (rc, .select s.alist s.quns rest)
  | n + 1, .sqlopr (.mk kind updates hxpList jtlList prdList) =>
    let (rc, s) := expandItems venv (expandSelectList venv n) hxpList.length
      { alist := hxpList, nextpos := 0, quns := [] }
    (rc, .sqlopr (.mk kind updates s.alist jtlList prdList))
  | _ + 1, a => (some .nullPtr, a)

/-! ## What an item becomes -/

def expandedQun (expandQuery : Exp → Option Err × Exp) : Qun → Qun
  | .query query aliasName => .query (expandQuery query).2 aliasName
  | q => q

def columnsOf (venv : VEnv) (expandQuery : Exp → Option Err × Exp) :
    Qun → Except Err (List SelectItem)
  | .name table aliasName =>
    match venv table with
    | some (.var e) => .ok ((e.ty.getD []).map fun f => columnItem aliasName f.name)
    | _ => .error (.tableNotExist table)
  | .query query aliasName =>
    ((expandQuery query).2.selectItems.getD []).mapM (queryItem aliasName)
  | _ => .ok []

/-- `T.*` stands for the columns of this FROM item. -/
def Qun.named (table : Symbol) : Qun → Bool
  | .name tableName aliasName => table = tableName ∨ table = aliasName
  | .query _ aliasName => table = aliasName
  | _ => false

def simpleExpansion (venv : VEnv) (exp : Exp) (aliasName : Option Symbol) :
    Except Err (List SelectItem) :=
  match exp with
  | .call func args none =>
    match venv func with
    | none => .error (.undefinedFunction func)
    | some (.function _ (some fields)) =>
      if 1 < fields.length then .ok (fieldItems func args fields (fields.map fun _ => none))
      else .ok [.simple exp aliasName]
    | some _ => .ok [.simple exp aliasName]
  | _ => .ok [.simple exp aliasName]

def complexExpansion (venv : VEnv) (exp : Exp) (aliasList : List Symbol) :
    Except Err (List SelectItem) :=
  match exp with
  | .call func args _ =>
    match venv func with
    | some (.function _ (some fields)) =>
      if fields.length ≠ aliasList.length then .error (.unmatchCardinality func)
      else if fields = [] then .ok [.complex exp aliasList]
      else .ok (fieldItems func args fields (aliasList.map some))
    | some (.function _ none) => .error (.complexFuncExpected func)
    | _ => .error (.undefinedFunction func)
  | _ => .error .nullPtr

def expansion (venv : VEnv) (expandQuery : Exp → Option Err × Exp) (quns : List Qun) :
    SelectItem → Except Err (List SelectItem)
  | .simple exp aliasName => simpleExpansion venv exp aliasName
  | .complex exp aliasList => complexExpansion venv exp aliasList
  | .star (some table) =>
    match quns.find? (Qun.named table) with
    | some q => columnsOf venv expandQuery q
    | none => .error (.tableNotExist table)
  | .star none => do
    let columns ← quns.mapM (columnsOf venv expandQuery)
    .ok columns.flatten

def Plain (venv : VEnv) : SelectItem → Prop
  | .simple (.call func _ none) _ =>
    ∃ x, venv func = some x ∧ ∀ aggr fields, x = .function aggr (some fields) → fields.length ≤ 1
  | .simple _ _ => True
  | _ => False

/-- A table, or a sub-query that has only plain items after its own expansion. -/
def FromItem (venv : VEnv) (expandQuery : Exp → Option Err × Exp) : Qun → Prop
  | .name table _ => ∃ e fields, venv table = some (.var e) ∧ e.ty = some fields ∧ fields ≠ []
  | .query query _ => ∃ items quns rest, (expandQuery query).2 = .select items quns rest ∧
      items ≠ [] ∧ ∀ i ∈ items, Plain venv i
  | _ => False

/-- A table under its own name, or a sub-query. -/
def Qun.OwnName : Qun → Prop
  | .name table aliasName => table = aliasName
  | _ => True

/-! ## Placing the new items -/

def Expanding.split (done rest : List SelectItem) (quns : List Qun) : Expanding :=
  { alist := done ++ rest, nextpos := done.length, quns := quns }

variable {venv : VEnv} {expandQuery : Exp → Option Err × Exp}
variable {done rest cs : List SelectItem} {item nsi : SelectItem} {quns quns' : List Qun}

open Expanding

theorem put_false : (split done rest quns).put false nsi = split (done ++ [nsi]) rest quns := by
  have hins : (done ++ rest).insertIdx done.length nsi = done ++ [nsi] ++ rest := by
    induction done with
    | nil => rfl
    | cons d done ih => exact congrArg (d :: ·) ih
  simp [put, split, insertElementList, hins]

theorem put_true : (split (done ++ [item]) rest quns).put true nsi =
    split (done ++ [nsi]) rest quns := by
  have hset : (done ++ [item] ++ rest).set done.length nsi = done ++ [nsi] ++ rest := by
    induction done with
    | nil => rfl
    | cons d done ih => exact congrArg (d :: ·) ih
  simp [put, split, overwriteElementList, List.length_append]

theorem putItems_false :
    (split done rest quns).putItems false cs = split (done ++ cs) rest quns := by
  induction cs generalizing done with
  | nil => rw [putItems, List.append_nil]
  | cons c cs ih => rw [putItems, put_false, ih, List.append_assoc, List.singleton_append]

def upTo (first : Bool) (done : List SelectItem) (item : SelectItem) : List SelectItem :=
  if first then done ++ [item] else done

theorem put_first {first : Bool} :
    (split (upTo first done item) rest quns).put first nsi = split (done ++ [nsi]) rest quns := by
  cases first
  · exact put_false
  · exact put_true

theorem putItems_first {first : Bool} (hcs : cs ≠ []) :
    (split (upTo first done item) rest quns).putItems first cs = split (done ++ cs) rest quns := by
  cases cs with
  | nil => exact absurd rfl hcs
  | cons c cs => rw [putItems, put_first, putItems_false, List.append_assoc, List.singleton_append]

theorem mapM_cons_ok {α β : Type} {f : α → Except Err β} {x : α} {xs : List α} {r : List β}
    (h : (x :: xs).mapM f = .ok r) : ∃ y ys, f x = .ok y ∧ xs.mapM f = .ok ys ∧ r = y :: ys := by
  rw [List.mapM_cons] at h
  cases hx : f x with
  | error e =>
    rw [hx] at h
    cases h
  | ok y =>
    rw [hx] at h
    cases hxs : xs.mapM f with
    | error e =>
      rw [hxs] at h
      cases h
    | ok ys =>
      rw [hxs] at h
      cases h
      exact ⟨y, ys, rfl, rfl, rfl⟩

theorem mapM_cons_error {α β : Type} {f : α → Except Err β} {x : α} {xs : List α} {e : Err}
    (h : (x :: xs).mapM f = .error e) :
    f x = .error e ∨ ∃ y, f x = .ok y ∧ xs.mapM f = .error e := by
  rw [List.mapM_cons] at h
  cases hx : f x with
  | error e' =>
    rw [hx] at h
    cases h
    exact .inl rfl
  | ok y =>
    rw [hx] at h
    cases hxs : xs.mapM f with
    | error e' =>
      rw [hxs] at h
      cases h
      exact .inr ⟨y, rfl, rfl⟩
    | ok ys =>
      rw [hxs] at h
      cases h

theorem mapM_getElem {α β : Type} {f : α → Except Err β} {xs : List α} {ys : List β}
    (h : xs.mapM f = .ok ys) : ys.length = xs.length ∧
      ∀ (i : Nat) (y : β), ys[i]? = some y → ∃ x, xs[i]? = some x ∧ f x = .ok y := by
  induction xs generalizing ys with
  | nil =>
    cases h
    exact ⟨rfl, nofun⟩
  | cons x xs ih =>
    obtain ⟨y, ys, hx, hxs, rfl⟩ := mapM_cons_ok h
    obtain ⟨hlen, hget⟩ := ih hxs
    refine ⟨congrArg Nat.succ hlen, fun i y' hi => ?_⟩
    cases i with
    | zero =>
      cases hi
      exact ⟨x, rfl, hx⟩
    | succ i => exact hget i y' hi

theorem mapM_mem {α β : Type} {f : α → Except Err β} {xs : List α} {ys : List β}
    (h : xs.mapM f = .ok ys) : List.Forall₂ (fun x y => f x = .ok y) xs ys ∧
      ∀ x ∈ xs, ∃ y, f x = .ok y := by
  induction xs generalizing ys with
  | nil =>
    cases h
    exact ⟨.nil, nofun⟩
  | cons x xs ih =>
    obtain ⟨y, ys, hx, hxs, rfl⟩ := mapM_cons_ok h
    obtain ⟨hall, hmem⟩ := ih hxs
    exact ⟨.cons hx hall, List.forall_mem_cons.mpr ⟨⟨y, hx⟩, hmem⟩⟩

theorem mapM_error_mem {α β : Type} {f : α → Except Err β} {xs : List α} {e : Err}
    (h : xs.mapM f = .error e) : ∃ x ∈ xs, f x = .error e := by
  induction xs with
  | nil => cases h
  | cons x xs ih =>
    rcases mapM_cons_error h with hx | ⟨y, -, hrest⟩
    · exact ⟨x, List.mem_cons_self, hx⟩
    · obtain ⟨x', hx', herr⟩ := ih hrest
      exact ⟨x', List.mem_cons_of_mem x hx', herr⟩

variable {items : List SelectItem} {aliasName : Symbol} {e : Err} {s : Expanding} {first : Bool}

theorem putQuery_false (h : items.mapM (queryItem aliasName) = .ok cs) :
    (split done rest quns).putQuery aliasName false items =
      (none, split (done ++ cs) rest quns) := by
  induction items generalizing done cs with
  | nil =>
    rw [List.mapM_nil] at h
    cases h
    rw [putQuery, List.append_nil]
  | cons i items ih =>
    obtain ⟨c, cs, hc, hcs, rfl⟩ := mapM_cons_ok h
    simp only [putQuery, hc]
    rw [put_false, ih hcs, List.append_assoc, List.singleton_append]

theorem putQuery_first (h : items.mapM (queryItem aliasName) = .ok cs) (hitems : items ≠ []) :
    (split (upTo first done item) rest quns).putQuery aliasName first items =
      (none, split (done ++ cs) rest quns) := by
  cases items with
  | nil => exact absurd rfl hitems
  | cons i items =>
    obtain ⟨c, cs, hc, hcs, rfl⟩ := mapM_cons_ok h
    simp only [putQuery, hc]
    rw [put_first, putQuery_false hcs, List.append_assoc, List.singleton_append]

theorem putQuery_error (h : items.mapM (queryItem aliasName) = .error e) :
    (s.putQuery aliasName first items).1 = some e := by
  induction items generalizing s first with
  | nil => cases h
  | cons i items ih =>
    rcases mapM_cons_error h with hi | ⟨c, hi, hrest⟩
    · simp [putQuery, hi]
    · simp only [putQuery, hi]
      exact ih hrest

/-! ## The FROM items -/

/-- An earlier item of the list may have expanded the sub-query. -/
def Touched (expandQuery : Exp → Option Err × Exp) (q q' : Qun) : Prop :=
  q' = q ∨ q' = expandedQun expandQuery q

def Stable (venv : VEnv) (expandQuery : Exp → Option Err × Exp) : Prop :=
  ∀ items quns rest, (∀ i ∈ items, Plain venv i) →
    expandQuery (.select items quns rest) = (none, .select items quns rest)

variable {q q' : Qun} {table : Symbol} {css : List (List SelectItem)}

section

variable (hst : Stable venv expandQuery) (hq : FromItem venv expandQuery q)
include hst hq

theorem expandedQun_touched (ht : Touched expandQuery q q') :
    expandedQun expandQuery q' = expandedQun expandQuery q := by
  rcases ht with rfl | rfl
  · rfl
  · cases q with
    | query a aliasName =>
      obtain ⟨items, quns, rest, ha, -, hplain⟩ := hq
      simp [expandedQun, ha, hst items quns rest hplain]
    | _ => rfl

theorem columnsOf_expanded :
    columnsOf venv expandQuery (expandedQun expandQuery q) = columnsOf venv expandQuery q := by
  cases q with
  | query a aliasName =>
    obtain ⟨items, quns, rest, ha, -, hplain⟩ := hq
    simp [expandedQun, columnsOf, ha, hst items quns rest hplain]
  | _ => rfl

theorem columnsOf_touched (ht : Touched expandQuery q q') :
    columnsOf venv expandQuery q' = columnsOf venv expandQuery q := by
  rcases ht with rfl | rfl
  · rfl
  · exact columnsOf_expanded hst hq

theorem FromItem.touched (ht : Touched expandQuery q q') : FromItem venv expandQuery q' := by
  rcases ht with rfl | rfl
  · exact hq
  · cases q with
    | query a aliasName =>
      obtain ⟨items, quns, rest, ha, hne, hplain⟩ := hq
      refine ⟨items, quns, rest, ?_, hne, hplain⟩
      rw [ha]
      exact congrArg Prod.snd (hst items quns rest hplain)
    | name table aliasName => exact hq
    | _ => exact hq.elim

end

theorem named_touched (ht : Touched expandQuery q q') : q'.named table = q.named table := by
  rcases ht with rfl | rfl
  · rfl
  · cases q <;> rfl

theorem ownName_touched (h : q.OwnName) (ht : Touched expandQuery q q') : q'.OwnName := by
  rcases ht with rfl | rfl
  · exact h
  · cases q <;> exact h

theorem Touched.trans (hst : Stable venv expandQuery) (hq : FromItem venv expandQuery q)
    (ht : Touched expandQuery q q') : Touched expandQuery q (expandedQun expandQuery q') :=
  .inr (expandedQun_touched hst hq ht)

variable (first done item rest quns) in
theorem putColumns (hq : FromItem venv expandQuery q)
    (hcols : columnsOf venv expandQuery q = .ok cs) :
    (∃ name aliasName, q = .name name aliasName ∧ ∀ reported,
      (split (upTo first done item) rest quns).putTable venv name aliasName reported first =
        (none, split (done ++ cs) rest quns)) ∨
    (∃ query aliasName, q = .query query aliasName ∧
      (split (upTo first done item) rest quns).putSubquery (expandQuery query).2 aliasName first =
        (none, split (done ++ cs) rest quns)) := by
  cases q with
  | name name aliasName =>
    obtain ⟨e, fields, hvenv, hty, hne⟩ := hq
    refine .inl ⟨name, aliasName, rfl, fun reported => ?_⟩
    simp only [columnsOf, hvenv, hty, Option.getD_some, Except.ok.injEq] at hcols
    simp only [putTable, hvenv, hty]
    rw [← hcols, putItems_first (by simpa using hne)]
  | query query aliasName =>
    obtain ⟨items, qs, r, ha, hne, -⟩ := hq
    refine .inr ⟨query, aliasName, rfl, ?_⟩
    simp only [columnsOf, ha, Exp.selectItems, Option.getD_some] at hcols
    simp only [putSubquery, ha, Exp.selectItems]
    exact putQuery_first hcols hne
  | _ => exact hq.elim

variable (first) in
theorem putColumns_error (hq : FromItem venv expandQuery q)
    (hcols : columnsOf venv expandQuery q = .error e) :
    ∃ query aliasName, q = .query query aliasName ∧
      ∀ s : Expanding, (s.putSubquery (expandQuery query).2 aliasName first).1 = some e := by
  cases q with
  | name name aliasName =>
    obtain ⟨e', fields, hvenv, hty, hne⟩ := hq
    simp only [columnsOf, hvenv] at hcols
    cases hcols
  | query query aliasName =>
    obtain ⟨items, qs, r, ha, hne, -⟩ := hq
    refine ⟨query, aliasName, rfl, fun s => ?_⟩
    simp only [columnsOf, ha, Exp.selectItems, Option.getD_some] at hcols
    simp only [putSubquery, ha, Exp.selectItems]
    exact putQuery_error hcols
  | _ => exact hq.elim

theorem starQun_ok (hq : FromItem venv expandQuery q) (hown : q.OwnName)
    (hcols : columnsOf venv expandQuery q = .ok cs) :
    starQun venv expandQuery first (split (upTo first done item) rest quns) q =
      (none, expandedQun expandQuery q, split (done ++ cs) rest quns) := by
  rcases putColumns done rest item quns first hq hcols with
    ⟨name, aliasName, rfl, hput⟩ | ⟨query, aliasName, rfl, hput⟩
  · obtain rfl : name = aliasName := hown
    simp only [starQun, hput name]
    rfl
  · simp only [starQun, hput]
    rfl

variable (first s) in
theorem starQun_error (hq : FromItem venv expandQuery q)
    (hcols : columnsOf venv expandQuery q = .error e) :
    ∃ q' s', starQun venv expandQuery first s q = (some e, q', s') := by
  obtain ⟨query, aliasName, rfl, hput⟩ := putColumns_error first hq hcols
  simp only [starQun, hput s]
  exact ⟨_, _, rfl⟩

variable {qs : List Qun} {exp : Exp}

theorem starAll_ok (hfrom : ∀ q ∈ quns, FromItem venv expandQuery q) (hown : ∀ q ∈ quns, q.OwnName)
    (hne : first = true → quns ≠ []) (hcols : quns.mapM (columnsOf venv expandQuery) = .ok css) :
    starAll venv expandQuery first quns (split (upTo first done item) rest qs) =
      (none, quns.map (expandedQun expandQuery), split (done ++ css.flatten) rest qs) := by
  induction quns generalizing first done css with
  | nil =>
    obtain rfl : first = false := by
      cases first
      · rfl
      · exact absurd rfl (hne rfl)
    cases hcols
    simp [starAll, upTo]
  | cons q quns ih =>
    obtain ⟨cs, css, hcs, hcss, rfl⟩ := mapM_cons_ok hcols
    rw [List.forall_mem_cons] at hfrom hown
    have hrest : starAll venv expandQuery false quns (split (done ++ cs) rest qs) = _ :=
      ih hfrom.2 hown.2 nofun hcss
    simp only [starAll, starQun_ok hfrom.1 hown.1 hcs]
    rw [hrest, List.flatten_cons, List.append_assoc, List.map_cons]

theorem starAll_error (hfrom : ∀ q ∈ quns, FromItem venv expandQuery q)
    (hown : ∀ q ∈ quns, q.OwnName) (hcols : quns.mapM (columnsOf venv expandQuery) = .error e) :
    (starAll venv expandQuery first quns (split (upTo first done item) rest qs)).1 = some e := by
  induction quns generalizing first done with
  | nil => cases hcols
  | cons q quns ih =>
    rw [List.forall_mem_cons] at hfrom hown
    rcases mapM_cons_error hcols with hq | ⟨cs, hcs, hrest⟩
    · obtain ⟨q', s', hstar⟩ :=
        starQun_error (split (upTo first done item) rest qs) first hfrom.1 hq
      simp [starAll, hstar]
    · have hih : (starAll venv expandQuery false quns (split (done ++ cs) rest qs)).1 = some e :=
        ih hfrom.2 hown.2 hrest
      simp only [starAll, starQun_ok hfrom.1 hown.1 hcs]
      exact hih

variable (venv expandQuery s) in
theorem starTable_none (hnone : quns.find? (Qun.named table) = none) :
    ∃ qs, List.Forall₂ (Touched expandQuery) quns qs ∧
      starTable venv expandQuery table quns s = (false, none, qs, s) := by
  induction quns with
  | nil => exact ⟨[], .nil, rfl⟩
  | cons q quns ih =>
    rw [List.find?_cons] at hnone
    split at hnone
    · cases hnone
    · next hq =>
      obtain ⟨qs, hqs, hstar⟩ := ih hnone
      cases q with
      | name tableName aliasName =>
        have hq : ¬(table = tableName ∨ table = aliasName) := by simpa [Qun.named] using hq
        refine ⟨_, .cons (.inl rfl) hqs, ?_⟩
        simp only [starTable, if_neg hq, hstar]
      | query a aliasName =>
        have hq : table ≠ aliasName := by simpa [Qun.named] using hq
        refine ⟨_, .cons (.inr rfl) hqs, ?_⟩
        simp only [starTable, if_neg hq, hstar, expandedQun]
      | _ =>
        refine ⟨_, .cons (.inl rfl) hqs, ?_⟩
        simp only [starTable, hstar]

variable (done rest item) in
theorem starTable_some (hfrom : ∀ q ∈ quns, FromItem venv expandQuery q)
    (hsome : quns.find? (Qun.named table) = some q) (qs : List Qun) :
    (∀ cs, columnsOf venv expandQuery q = .ok cs →
      ∃ quns', List.Forall₂ (Touched expandQuery) quns quns' ∧
        starTable venv expandQuery table quns (split (done ++ [item]) rest qs) =
          (true, none, quns', split (done ++ cs) rest qs)) ∧
    (∀ e, columnsOf venv expandQuery q = .error e →
      ∃ quns' s', starTable venv expandQuery table quns (split (done ++ [item]) rest qs) =
        (true, some e, quns', s')) := by
  induction quns with
  | nil => cases hsome
  | cons q₁ quns ih =>
    rw [List.forall_mem_cons] at hfrom
    have hsame : List.Forall₂ (Touched expandQuery) quns quns :=
      List.forall₂_same.mpr fun _ _ => .inl rfl
    rw [List.find?_cons] at hsome
    split at hsome
    · next hq =>
      cases hsome
      refine ⟨fun cs hcs => ?_, fun e he => ?_⟩
      · rcases putColumns done rest item qs true hfrom.1 hcs with
          ⟨tableName, aliasName, rfl, hput⟩ | ⟨query, aliasName, rfl, hput⟩
        · have hq : table = tableName ∨ table = aliasName := by simpa [Qun.named] using hq
          refine ⟨_, .cons (.inl rfl) hsame, ?_⟩
          simp only [upTo, if_true] at hput
          simp only [starTable, if_pos hq, hput table]
        · have hq : table = aliasName := by simpa [Qun.named] using hq
          refine ⟨_, .cons (.inr rfl) hsame, ?_⟩
          simp only [upTo, if_true] at hput
          simp only [starTable, if_pos hq, hput, expandedQun]
      · obtain ⟨query, aliasName, rfl, hput⟩ := putColumns_error true hfrom.1 he
        have hq : table = aliasName := by simpa [Qun.named] using hq
        simp only [starTable, if_pos hq, hput]
        exact ⟨_, _, rfl⟩
    · next hq =>
      obtain ⟨hok, herror⟩ := ih hfrom.2 hsome
      cases q₁ with
      | name tableName aliasName =>
        have hq : ¬(table = tableName ∨ table = aliasName) := by simpa [Qun.named] using hq
        refine ⟨fun cs hcs => ?_, fun e he => ?_⟩
        · obtain ⟨quns', hquns', hstar⟩ := hok cs hcs
          refine ⟨_, .cons (.inl rfl) hquns', ?_⟩
          simp only [starTable, if_neg hq, hstar]
        · obtain ⟨quns', s', hstar⟩ := herror e he
          simp only [starTable, if_neg hq, hstar]
          exact ⟨_, _, rfl⟩
      | query a aliasName =>
        have hq : table ≠ aliasName := by simpa [Qun.named] using hq
        refine ⟨fun cs hcs => ?_, fun e he => ?_⟩
        · obtain ⟨quns', hquns', hstar⟩ := hok cs hcs
          refine ⟨_, .cons (.inr rfl) hquns', ?_⟩
          simp only [starTable, if_neg hq, hstar, expandedQun]
        · obtain ⟨quns', s', hstar⟩ := herror e he
          simp only [starTable, if_neg hq, hstar]
          exact ⟨_, _, rfl⟩
      | _ => exact hfrom.1.elim

/-! ## The loop -/

abbrev TouchedAll (expandQuery : Exp → Option Err × Exp) : List Qun → List Qun → Prop :=
  List.Forall₂ (Touched expandQuery)

theorem TouchedAll.fromItems (hst : Stable venv expandQuery)
    (hfrom : ∀ q ∈ quns, FromItem venv expandQuery q) (ht : TouchedAll expandQuery quns quns') :
    ∀ q ∈ quns', FromItem venv expandQuery q := by
  induction ht with
  | nil => exact hfrom
  | cons h _ ih =>
    rw [List.forall_mem_cons] at hfrom ⊢
    exact ⟨hfrom.1.touched hst h, ih hfrom.2⟩

theorem TouchedAll.ownNames (hown : ∀ q ∈ quns, q.OwnName)
    (ht : TouchedAll expandQuery quns quns') : ∀ q ∈ quns', q.OwnName := by
  induction ht with
  | nil => exact hown
  | cons h _ ih =>
    rw [List.forall_mem_cons] at hown ⊢
    exact ⟨ownName_touched hown.1 h, ih hown.2⟩

theorem TouchedAll.mapM (hst : Stable venv expandQuery)
    (hfrom : ∀ q ∈ quns, FromItem venv expandQuery q) (ht : TouchedAll expandQuery quns quns') :
    quns'.mapM (columnsOf venv expandQuery) = quns.mapM (columnsOf venv expandQuery) := by
  induction ht with
  | nil => rfl
  | cons h _ ih =>
    rw [List.forall_mem_cons] at hfrom
    rw [List.mapM_cons, List.mapM_cons, columnsOf_touched hst hfrom.1 h, ih hfrom.2]

variable (table) in
theorem TouchedAll.find (ht : TouchedAll expandQuery quns quns') :
    (quns.find? (Qun.named table) = none ∧ quns'.find? (Qun.named table) = none) ∨
    ∃ q q', quns.find? (Qun.named table) = some q ∧ quns'.find? (Qun.named table) = some q' ∧
      Touched expandQuery q q' := by
  induction ht with
  | nil => exact .inl ⟨rfl, rfl⟩
  | cons h _ ih =>
    rw [List.find?_cons, List.find?_cons, named_touched h]
    split
    · exact .inr ⟨_, _, rfl, rfl, h⟩
    · exact ih

section

variable (hst : Stable venv expandQuery) (hfrom : ∀ q ∈ quns, FromItem venv expandQuery q)
  (ht : TouchedAll expandQuery quns quns')
include hst hfrom ht

/-- What an item becomes does not depend on which sub-queries have been expanded. -/
theorem expansion_touched (si : SelectItem) :
    expansion venv expandQuery quns' si = expansion venv expandQuery quns si := by
  cases si with
  | simple exp a => rfl
  | complex exp a => rfl
  | star t =>
    cases t with
    | none => simp [expansion, ht.mapM hst hfrom]
    | some table =>
      rcases ht.find table with ⟨h, h'⟩ | ⟨q, q', h, h', hq⟩
      · simp [expansion, h, h']
      · simp only [expansion, h, h']
        exact columnsOf_touched hst (hfrom q (List.mem_of_find?_eq_some h)) hq

theorem TouchedAll.trans {quns'' : List Qun} (ht' : TouchedAll expandQuery quns' quns'') :
    TouchedAll expandQuery quns quns'' := by
  induction ht generalizing quns'' with
  | nil => exact ht'
  | cons h _ ih =>
    rw [List.forall_mem_cons] at hfrom
    cases ht' with
    | cons h' hrest =>
      refine .cons ?_ (ih hfrom.2 hrest)
      rcases h' with rfl | rfl
      · exact h
      · exact h.trans hst hfrom.1

end

theorem fieldItems_ne_nil {func : Symbol} {args : List Exp} {fields : List Field}
    {aliasList : List (Option Symbol)} (hne : fields ≠ [])
    (hlen : fields.length = aliasList.length) : fieldItems func args fields aliasList ≠ [] := by
  cases fields with
  | nil => exact absurd rfl hne
  | cons f fields =>
    cases aliasList with
    | nil => cases hlen
    | cons a aliasList => exact List.cons_ne_nil _ _

theorem putItems_over (hcs : cs ≠ []) :
    (split (done ++ [item]) rest quns).putItems true cs = split (done ++ cs) rest quns := by
  cases cs with
  | nil => exact absurd rfl hcs
  | cons c cs => rw [putItems, put_true, putItems_false, List.append_assoc, List.singleton_append]

theorem expandSimple_ok {a : Option Symbol} (h : simpleExpansion venv exp a = .ok cs) :
    expandSimple venv exp (split (done ++ [.simple exp a]) rest quns) =
      (none, split (done ++ cs) rest quns) := by
  cases exp with
  | call func args member =>
    cases member with
    | some m =>
      cases h
      rfl
    | none =>
      cases hf : venv func with
      | none =>
        simp only [simpleExpansion, hf] at h
        cases h
      | some x =>
        cases x with
        | function aggr result =>
          cases result with
          | none =>
            simp only [simpleExpansion, hf] at h
            cases h
            simp [expandSimple, hf]
          | some fields =>
            by_cases hlen : 1 < fields.length
            · simp only [simpleExpansion, hf, if_pos hlen] at h
              cases h
              have hne : fields ≠ [] := List.ne_nil_of_length_pos (by omega)
              simp only [expandSimple, hf, if_pos hlen]
              rw [putItems_over (fieldItems_ne_nil hne (List.length_map _).symm)]
            · simp only [simpleExpansion, hf, if_neg hlen] at h
              cases h
              simp [expandSimple, hf, if_neg hlen]
        | _ =>
          simp only [simpleExpansion, hf] at h
          cases h
          simp [expandSimple, hf]
  | _ =>
    cases h
    rfl

theorem expandSimple_error {a : Option Symbol} (h : simpleExpansion venv exp a = .error e)
    (s : Expanding) :
    (expandSimple venv exp s).1 = some e := by
  cases exp with
  | call func args member =>
    cases member with
    | some m => cases h
    | none =>
      cases hf : venv func with
      | none =>
        simp only [simpleExpansion, hf] at h
        cases h
        simp [expandSimple, hf]
      | some x =>
        simp only [simpleExpansion, hf] at h
        split at h
        · next hx => cases hx
        · split at h <;> cases h
        · cases h
  | _ => cases h

theorem expandComplex_ok {aliasList : List Symbol}
    (h : complexExpansion venv exp aliasList = .ok cs) :
    expandComplex venv exp aliasList (split (done ++ [.complex exp aliasList]) rest quns) =
      (none, split (done ++ cs) rest quns) := by
  cases exp with
  | call func args member =>
    cases hf : venv func with
    | none =>
      simp only [complexExpansion, hf] at h
      cases h
    | some x =>
      cases x with
      | function aggr result =>
        cases result with
        | none =>
          simp only [complexExpansion, hf] at h
          cases h
        | some fields =>
          by_cases hlen : fields.length ≠ aliasList.length
          · simp only [complexExpansion, hf, if_pos hlen] at h
            cases h
          · simp only [complexExpansion, hf, if_neg hlen] at h
            simp only [expandComplex, hf, if_neg hlen]
            by_cases hne : fields = []
            · rw [if_pos hne] at h
              cases h
              subst hne
              rfl
            · rw [if_neg hne] at h
              cases h
              rw [putItems_over (fieldItems_ne_nil hne
                ((not_not.mp hlen).trans (List.length_map _).symm))]
      | _ =>
        simp only [complexExpansion, hf] at h
        cases h
  | _ => cases h

theorem expandComplex_error {aliasList : List Symbol}
    (h : complexExpansion venv exp aliasList = .error e) (s : Expanding) :
    (expandComplex venv exp aliasList s).1 = some e := by
  cases exp with
  | call func args member =>
    simp only [complexExpansion] at h
    simp only [expandComplex]
    split at h
    · split at h
      · next hlen =>
        cases h
        rw [if_pos hlen]
      · split at h <;> cases h
    · cases h
      rfl
    · cases h
      rfl
  | _ =>
    cases h
    rfl

theorem expandItem_table {found : Bool} {rc : Option Err} {s' : Expanding} (hne : s.quns ≠ [])
    (h : starTable venv expandQuery table s.quns s = (found, rc, qs, s')) :
    expandItem venv expandQuery (.star (some table)) s =
      (if found then rc else rc.or (some (.tableNotExist table)), { s' with quns := qs }) := by
  simp only [expandItem, if_neg hne, h]
  cases rc <;> cases found <;> rfl

theorem expandItem_all {rc : Option Err} {s' : Expanding} (hne : s.quns ≠ [])
    (h : starAll venv expandQuery true s.quns s = (rc, qs, s')) :
    expandItem venv expandQuery (.star none) s = (rc, { s' with quns := qs }) := by
  simp [expandItem, if_neg hne, h]

section

variable (hfrom : ∀ q ∈ quns, FromItem venv expandQuery q) (hne : quns ≠ [])
  (hown : item = .star none → ∀ q ∈ quns, q.OwnName)
include hfrom hne hown

variable (done rest) in
theorem expandItem_ok (h : expansion venv expandQuery quns item = .ok cs) :
    ∃ quns', TouchedAll expandQuery quns quns' ∧
      expandItem venv expandQuery item (split (done ++ [item]) rest quns) =
        (none, split (done ++ cs) rest quns') := by
  have hsame : TouchedAll expandQuery quns quns := List.forall₂_same.mpr fun _ _ => .inl rfl
  cases item with
  | simple exp a => exact ⟨quns, hsame, expandSimple_ok h⟩
  | complex exp a => exact ⟨quns, hsame, expandComplex_ok h⟩
  | star t =>
    cases t with
    | some table =>
      cases hfind : quns.find? (Qun.named table) with
      | none =>
        simp only [expansion, hfind] at h
        cases h
      | some q =>
        simp only [expansion, hfind] at h
        obtain ⟨quns', ht, hstar⟩ :=
          (starTable_some done rest (.star (some table)) hfrom hfind quns).1 cs h
        refine ⟨quns', ht, ?_⟩
        rw [expandItem_table hne hstar]
        rfl
    | none =>
      cases hcols : quns.mapM (columnsOf venv expandQuery) with
      | error e =>
        simp only [expansion, hcols] at h
        cases h
      | ok css =>
        simp only [expansion, hcols] at h
        cases h
        have hstar : starAll venv expandQuery true quns
            (split (done ++ [.star none]) rest quns) = _ :=
          starAll_ok hfrom (hown rfl) (fun _ => hne) hcols
        refine ⟨quns.map (expandedQun expandQuery), ?_, ?_⟩
        · exact List.forall₂_map_right_iff.mpr (List.forall₂_same.mpr fun _ _ => .inr rfl)
        · rw [expandItem_all hne hstar]
          rfl

theorem expandItem_error (h : expansion venv expandQuery quns item = .error e) :
    (expandItem venv expandQuery item (split (done ++ [item]) rest quns)).1 = some e := by
  cases item with
  | simple exp a => exact expandSimple_error h _
  | complex exp a => exact expandComplex_error h _
  | star t =>
    cases t with
    | some table =>
      cases hfind : quns.find? (Qun.named table) with
      | none =>
        simp only [expansion, hfind] at h
        cases h
        obtain ⟨qs, -, hstar⟩ := starTable_none venv expandQuery
          (split (done ++ [.star (some table)]) rest quns) hfind
        rw [expandItem_table hne hstar]
        rfl
      | some q =>
        simp only [expansion, hfind] at h
        obtain ⟨quns', s', hstar⟩ :=
          (starTable_some done rest (.star (some table)) hfrom hfind quns).2 e h
        rw [expandItem_table hne hstar]
        rfl
    | none =>
      cases hcols : quns.mapM (columnsOf venv expandQuery) with
      | ok css =>
        simp only [expansion, hcols] at h
        cases h
      | error e' =>
        simp only [expansion, hcols] at h
        cases h
        have hstar : (starAll venv expandQuery true quns
            (split (done ++ [.star none]) rest quns)).1 = some e :=
          starAll_error hfrom (hown rfl) hcols
        rw [expandItem_all hne rfl]
        exact hstar

end

theorem expandItems_cons (venv : VEnv) (expandQuery : Exp → Option Err × Exp)
    (done rest : List SelectItem) (item : SelectItem) (quns : List Qun) (k : Nat) :
    expandItems venv expandQuery (k + 1) (split done (item :: rest) quns) =
      (if (expandItem venv expandQuery item (split (done ++ [item]) rest quns)).1 = none then
        expandItems venv expandQuery k
          (expandItem venv expandQuery item (split (done ++ [item]) rest quns)).2
      else expandItem venv expandQuery item (split (done ++ [item]) rest quns)) := by
  have hget : (split done (item :: rest) quns).alist[(split done (item :: rest) quns).nextpos]? =
      some item := by
    simp [split]
  have hsplit : ({ split done (item :: rest) quns with
      nextpos := (split done (item :: rest) quns).nextpos + 1 } : Expanding) =
      split (done ++ [item]) rest quns := by
    simp [split]
  simp only [expandItems, hget, hsplit]
  rcases expandItem venv expandQuery item (split (done ++ [item]) rest quns) with ⟨rc, s'⟩
  cases rc <;> rfl

variable (done) in
theorem expandItems_ok (hst : Stable venv expandQuery)
    (hfrom : ∀ q ∈ quns, FromItem venv expandQuery q) (hne : quns ≠ [])
    (hown : .star none ∈ items → ∀ q ∈ quns, q.OwnName)
    (hcols : items.mapM (expansion venv expandQuery quns) = .ok css) :
    ∃ quns', TouchedAll expandQuery quns quns' ∧
      expandItems venv expandQuery items.length (split done items quns) =
        (none, split (done ++ css.flatten) [] quns') := by
  induction items generalizing done css quns with
  | nil =>
    rw [List.mapM_nil] at hcols
    cases hcols
    refine ⟨quns, List.forall₂_same.mpr fun _ _ => .inl rfl, ?_⟩
    simp [expandItems]
  | cons i items ih =>
    obtain ⟨cs, css, hcs, hcss, rfl⟩ := mapM_cons_ok hcols
    obtain ⟨quns₁, ht₁, hitem⟩ := expandItem_ok done items hfrom hne
      (fun h => hown (h ▸ List.mem_cons_self)) hcs
    have hne₁ : quns₁ ≠ [] := fun h => hne (by rw [h] at ht₁; cases ht₁; rfl)
    have hcss₁ : items.mapM (expansion venv expandQuery quns₁) = .ok css := by
      rw [← hcss, funext (expansion_touched hst hfrom ht₁)]
    obtain ⟨quns₂, ht₂, hrun⟩ := ih (done ++ cs) (ht₁.fromItems hst hfrom) hne₁
      (fun h => ht₁.ownNames (hown (List.mem_cons_of_mem i h))) hcss₁
    refine ⟨quns₂, ht₁.trans hst hfrom ht₂, ?_⟩
    rw [List.length_cons, expandItems_cons, hitem, List.flatten_cons, ← List.append_assoc]
    exact hrun

variable (done) in
theorem expandItems_error (hst : Stable venv expandQuery)
    (hfrom : ∀ q ∈ quns, FromItem venv expandQuery q) (hne : quns ≠ [])
    (hown : .star none ∈ items → ∀ q ∈ quns, q.OwnName)
    (hcols : items.mapM (expansion venv expandQuery quns) = .error e) :
    (expandItems venv expandQuery items.length (split done items quns)).1 = some e := by
  induction items generalizing done quns with
  | nil => cases hcols
  | cons i items ih =>
    have howni : i = .star none → ∀ q ∈ quns, q.OwnName := fun h => hown (h ▸ List.mem_cons_self)
    rcases mapM_cons_error hcols with hi | ⟨cs, hcs, hrest⟩
    · have hitem : (expandItem venv expandQuery i (split (done ++ [i]) items quns)).1 = some e :=
        expandItem_error hfrom hne howni hi
      rw [List.length_cons, expandItems_cons, hitem, if_neg nofun, hitem]
    · obtain ⟨quns₁, ht₁, hitem⟩ := expandItem_ok done items hfrom hne howni hcs
      have hne₁ : quns₁ ≠ [] := fun h => hne (by rw [h] at ht₁; cases ht₁; rfl)
      have hrest₁ : items.mapM (expansion venv expandQuery quns₁) = .error e := by
        rw [← hrest, funext (expansion_touched hst hfrom ht₁)]
      rw [List.length_cons, expandItems_cons, hitem]
      exact ih (done ++ cs) (ht₁.fromItems hst hfrom) hne₁
        (fun h => ht₁.ownNames (hown (List.mem_cons_of_mem i h))) hrest₁

theorem expandItem_plain (h : Plain venv item) (s : Expanding) :
    expandItem venv expandQuery item s = (none, s) := by
  cases item with
  | simple exp a =>
    cases exp with
    | call func args member =>
      cases member with
      | some m => rfl
      | none =>
        obtain ⟨x, hx, hshort⟩ := h
        cases x with
        | function aggr result =>
          cases result with
          | none => simp [expandItem, expandSimple, hx]
          | some fields =>
            have hlen : ¬1 < fields.length := by
              have := hshort aggr fields rfl
              omega
            simp [expandItem, expandSimple, hx, if_neg hlen]
        | _ => simp [expandItem, expandSimple, hx]
    | _ => rfl
  | _ => exact h.elim

theorem expandItems_plain (h : ∀ i ∈ items, Plain venv i) :
    expandItems venv expandQuery items.length (split done items quns) =
      (none, split (done ++ items) [] quns) := by
  induction items generalizing done with
  | nil => simp [expandItems]
  | cons i items ih =>
    rw [List.forall_mem_cons] at h
    rw [List.length_cons, expandItems_cons, expandItem_plain h.1, if_pos rfl, ih h.2,
      List.append_assoc, List.singleton_append]

theorem expandSelectList_stable (venv : VEnv) (n : Nat) :
    Stable venv (expandSelectList venv n) := by
  intro items quns rest h
  cases n with
  | zero => rfl
  | succ n =>
    have hrun : expandItems venv (expandSelectList venv n) items.length
        (split [] items quns) = (none, split items [] quns) :=
      expandItems_plain h
    have hrun : expandItems venv (expandSelectList venv n) items.length
        { alist := items, nextpos := 0, quns := quns } = (none, split items [] quns) := hrun
    simp [expandSelectList, hrun, split, List.append_nil]

variable {n : Nat} {restExps : List Exp}

variable (restExps) in
theorem expandSelectList_ok (hfrom : ∀ q ∈ quns, FromItem venv (expandSelectList venv n) q)
    (hne : quns ≠ []) (hown : .star none ∈ items → ∀ q ∈ quns, q.OwnName)
    (hcols : items.mapM (expansion venv (expandSelectList venv n) quns) = .ok css) :
    ∃ quns', TouchedAll (expandSelectList venv n) quns quns' ∧
      expandSelectList venv (n + 1) (.select items quns restExps) =
        (none, .select css.flatten quns' restExps) := by
  obtain ⟨quns', ht, hrun⟩ :=
    expandItems_ok [] (expandSelectList_stable venv n) hfrom hne hown hcols
  have hrun : expandItems venv (expandSelectList venv n) items.length
      { alist := items, nextpos := 0, quns := quns } = (none, split css.flatten [] quns') := hrun
  refine ⟨quns', ht, ?_⟩
  simp only [expandSelectList, hrun, split, List.append_nil]

variable (restExps) in
theorem expandSelectList_error (hfrom : ∀ q ∈ quns, FromItem venv (expandSelectList venv n) q)
    (hne : quns ≠ []) (hown : .star none ∈ items → ∀ q ∈ quns, q.OwnName)
    (hcols : items.mapM (expansion venv (expandSelectList venv n) quns) = .error e) :
    (expandSelectList venv (n + 1) (.select items quns restExps)).1 = some e :=
  expandItems_error [] (expandSelectList_stable venv n) hfrom hne hown hcols

end StreamMill.Sql
