import StreamMill.Sql.SelectList
import Mathlib.Data.List.Nodup
import Mathlib.Logic.Function.Basic

/-!
# StreamMill.Sql.SelectColumns

What the items that `expandSelectList` makes stand for. `fromEnv` is the symbol table in which they
are looked up later (`transBaseQun`), and `Resolves` says that `transVar` finds an item in a column
of a FROM item. `Expands` says of every item of a select list what takes its place.
-/

namespace StreamMill.Sql

variable {venv : VEnv} {expandQuery : Exp → Option Err × Exp}
variable {cs items : List SelectItem} {item nsi : SelectItem} {quns : List Qun} {q : Qun}
variable {table aliasName : Symbol}

def getVarNameSuffix : Var → Option Symbol
  | .simple sym => some sym
  | .field _ sym => some sym
  | _ => none

def columnName : SelectItem → Option Symbol
  | .simple _ (some a) => some a
  | .simple (.var v) none => getVarNameSuffix v
  | _ => none

/-- The name of a field of a `SEL` node (`transSelOpr`); `used` are the names before, `i` is the
place. -/
def fieldName (used : List Symbol) (i : Nat) : SelectItem → Symbol
  | .simple _ (some a) => a
  | .simple (.var v) none =>
    ((getVarNameSuffix v).filter (· ∉ used)).getD ("field_" ++ toString i)
  | _ => "field_" ++ toString i

def selFields (used : List Symbol) (i : Nat) : List SelectItem → List Symbol
  | [] => []
  | item :: items =>
    fieldName used i item :: selFields (used ++ [fieldName used i item]) (i + 1) items

def tableEntry (venv : VEnv) (table : Symbol) : Option Entry :=
  match venv table with
  | some (.dynamic t) => venv t
  | x => x

/-- The entry that `transBaseQun` makes for a FROM item. The source adds numbers to the names of
the C structures. -/
def qunEntry (venv : VEnv) : Qun → Option Entry
  | .name table aliasName =>
    match tableEntry venv table with
    | some (.var e) => some (.var { e with sname := some aliasName })
    | some (.stream ty _) => some (.stream ty (some aliasName))
    | _ => none
  | .query query aliasName =>
    query.selectItems.map fun items => .var {
      ty := some ((selFields [] 0 items).map fun f => { name := f, iskey := false })
      sname := some aliasName
      iname := none
      scope := .tabLocal
      index := none
      haskey := false
      firstKey := 0 }
  | _ => none

def enterQun (venv : VEnv) (q : Qun) : VEnv :=
  (qunEntry venv q).elim venv fun x => Function.update venv q.aliasName (some x)

def fromEnv (venv : VEnv) (quns : List Qun) : VEnv := quns.foldl enterQun venv

/-- `transVar` finds the variable of the item in column `idx` of FROM item `j`. -/
def Resolves (venv : VEnv) (quns : List Qun) (j idx : Nat) (item : SelectItem) : Prop :=
  ∃ v a x, item = .simple (.var v) a ∧ transVar venv quns v = .ok x ∧ x.outqun = some j ∧
    x.fieldidx = idx

structure Apart (quns : List Qun) : Prop where
  aliases : (quns.map Qun.aliasName).Nodup
  /-- No alias hides the table of another item. -/
  tables : ∀ q ∈ quns, ∀ table aliasName, Qun.name table aliasName ∈ quns →
    q.aliasName = table → q = .name table aliasName

def DistinctColumns (venv : VEnv) (expandQuery : Exp → Option Err × Exp) : Qun → Prop
  | .name table _ => ∀ e fields, venv table = some (.var e) → e.ty = some fields →
      (fields.map Field.name).Nodup
  | .query query _ => ∀ items, (expandQuery query).2.selectItems = some items →
      (items.filterMap columnName).Nodup ∧
        ∀ v a, .simple (.var v) a ∈ items → a = none ∧ getVarNameSuffix v ≠ none
  | _ => True

theorem findIdx_of_nodup {α : Type} {f : α → Symbol} {l : List α} (hn : (l.map f).Nodup) {i : Nat}
    {x : α} (hx : l[i]? = some x) : (l.findIdx? fun y => f y = f x) = some i := by
  obtain ⟨hi, hget⟩ := List.getElem?_eq_some_iff.mp hx
  rw [List.findIdx?_eq_some_iff_getElem]
  refine ⟨hi, by simp [hget], fun k hk hkx => ?_⟩
  have hkx : f l[k] = f x := by simpa using hkx
  have hk' : k < l.length := by omega
  have hin : ∀ n, n < l.length → n < (l.map f).length := fun n hn => by rwa [List.length_map]
  have heq : (l.map f).get ⟨k, hin k hk'⟩ = (l.map f).get ⟨i, hin i hi⟩ := by simp [hkx, hget]
  have hki := congrArg Fin.val (List.nodup_iff_injective_get.mp hn heq)
  exact absurd hki (Nat.ne_of_lt hk)

variable {env : VEnv} {idx : Nat} {sym : Symbol} {post pre : List Qun}

theorem resolves_column {qs : List Qun} {j : Nat} {fields : List Field} {f : Field} {x : VarEntry}
    {a : Option Symbol} (hn : (qs.map Qun.aliasName).Nodup) (hj : qs[j]? = some q)
    (henv : env q.aliasName = some (.var x)) (hty : x.ty = some fields)
    (hfields : (fields.map Field.name).Nodup) (hidx : fields[idx]? = some f) :
    Resolves env qs j idx (.simple (.var (.field q.aliasName f.name)) a) := by
  have hqun := findIdx_of_nodup hn hj
  have hfield : searchRecordField fields f.name = some idx := findIdx_of_nodup hfields hidx
  refine ⟨_, _, { outqun := some j, fieldidx := idx, name := some (.column j idx) }, rfl, ?_, rfl,
    rfl⟩
  simp [transVar, henv, transField, hty, hfield, hqun]

theorem selFields_eq {names used : List Symbol} {i : Nat}
    (hnames : items.map columnName = names.map some) (hn : names.Nodup)
    (hused : ∀ x ∈ names, x ∉ used) : selFields used i items = names := by
  induction items generalizing names used i with
  | nil =>
    cases names with
    | nil => rfl
    | cons x names => cases hnames
  | cons item items ih =>
    cases names with
    | nil => cases hnames
    | cons x names =>
      obtain ⟨hitem, hrest⟩ := List.cons.inj hnames
      rw [List.nodup_cons] at hn
      have hx : x ∉ used := hused x List.mem_cons_self
      have hfield : fieldName used i item = x := by
        unfold columnName at hitem
        split at hitem
        · exact Option.some.inj hitem
        · rw [fieldName, hitem, Option.filter_some, if_pos (decide_eq_true hx), Option.getD_some]
        · cases hitem
      rw [selFields, hfield, ih hrest hn.2]
      intro y hy
      rw [List.mem_append, List.mem_singleton]
      rintro (h | rfl)
      · exact hused y (List.mem_cons_of_mem x hy) h
      · exact hn.1 hy

theorem enterQun_other (h : sym ≠ q.aliasName) :
    enterQun env q sym = env sym := by
  unfold enterQun
  cases qunEntry env q with
  | none => rfl
  | some x => exact Function.update_of_ne h _ _

theorem fromEnv_other (h : sym ∉ quns.map Qun.aliasName) :
    fromEnv env quns sym = env sym := by
  induction quns generalizing env with
  | nil => rfl
  | cons q quns ih =>
    rw [List.map_cons, List.mem_cons, not_or] at h
    show fromEnv (enterQun env q) quns sym = _
    rw [ih h.2, enterQun_other h.1]

theorem fromEnv_get (venv : VEnv) (hn : ((pre ++ q :: post).map Qun.aliasName).Nodup) :
    fromEnv venv (pre ++ q :: post) q.aliasName = enterQun (fromEnv venv pre) q q.aliasName := by
  rw [List.map_append, List.map_cons, List.nodup_append, List.nodup_cons] at hn
  show List.foldl enterQun venv (pre ++ q :: post) q.aliasName = _
  rw [List.foldl_append]
  exact fromEnv_other hn.2.1.1

abbrev expandedQuns (expandQuery : Exp → Option Err × Exp) (quns : List Qun) : List Qun :=
  quns.map (expandedQun expandQuery)

theorem aliasName_expanded (q : Qun) : (expandedQun expandQuery q).aliasName = q.aliasName := by
  cases q <;> rfl

theorem aliasNames_expanded (quns : List Qun) :
    (expandedQuns expandQuery quns).map Qun.aliasName = quns.map Qun.aliasName := by
  rw [List.map_map]
  exact List.map_congr_left fun q _ => aliasName_expanded q

/-- Column `idx` of a sub-query is a variable without a qualifier, which is kept as it is. -/
def KeepsVariable (expandQuery : Exp → Option Err × Exp) (q : Qun) (idx : Nat) (nsi : SelectItem) :
    Prop :=
  ∃ query aliasName items sym, q = .query query aliasName ∧
    (expandQuery query).2.selectItems = some items ∧ items[idx]? = some nsi ∧
    nsi = .simple (.var (.simple sym)) none

def numColumns (venv : VEnv) (expandQuery : Exp → Option Err × Exp) : Qun → Nat
  | .name table _ =>
    match venv table with
    | some (.var e) => (e.ty.getD []).length
    | _ => 0
  | .query query _ => ((expandQuery query).2.selectItems.getD []).length
  | _ => 0

/-- `cs` are the columns of FROM item `j`, which is `q`, in their order. -/
structure AreColumns (venv : VEnv) (expandQuery : Exp → Option Err × Exp) (quns : List Qun)
    (j : Nat) (q : Qun) (cs : List SelectItem) : Prop where
  length : cs.length = numColumns venv expandQuery q
  found : ∀ idx nsi, cs[idx]? = some nsi →
    Resolves (fromEnv venv (expandedQuns expandQuery quns)) (expandedQuns expandQuery quns) j idx
      nsi ∨ KeepsVariable expandQuery q idx nsi

theorem Apart.table_not_mem (h : Apart quns) {aliasName : Symbol}
    (hsplit : quns = pre ++ .name table aliasName :: post) : table ∉ pre.map Qun.aliasName := by
  intro hmem
  obtain ⟨q, hq, hname⟩ := List.mem_map.mp hmem
  have hself : .name table aliasName ∈ quns := by simp [hsplit]
  obtain rfl := h.tables q (by simp [hsplit, hq]) table aliasName hself hname
  have hn := h.aliases
  rw [hsplit, List.map_append, List.nodup_append] at hn
  exact hn.2.2 _ (List.mem_map_of_mem hq) _ List.mem_cons_self rfl

variable (venv expandQuery) in
/-- What the symbol table has for FROM item `q` comes from `q`, in the symbol table that the items
before it leave. -/
theorem fromEnv_qun (hn : (quns.map Qun.aliasName).Nodup) (hsplit : quns = pre ++ q :: post) :
    fromEnv venv (expandedQuns expandQuery quns) q.aliasName =
      enterQun (fromEnv venv (expandedQuns expandQuery pre)) (expandedQun expandQuery q)
        q.aliasName := by
  have hmap : expandedQuns expandQuery quns = expandedQuns expandQuery pre ++
      expandedQun expandQuery q :: expandedQuns expandQuery post := by
    rw [hsplit]
    simp
  rw [hmap]
  have hnodup : ((expandedQuns expandQuery pre ++ expandedQun expandQuery q ::
      expandedQuns expandQuery post).map Qun.aliasName).Nodup := by
    rwa [← hmap, aliasNames_expanded]
  have hget := fromEnv_get venv hnodup
  rwa [aliasName_expanded] at hget

theorem tableColumns_found (h : Apart quns) {aliasName : Symbol}
    (hsplit : quns = pre ++ .name table aliasName :: post) {x : VarEntry} {fields : List Field}
    (hx : venv table = some (.var x)) (hty : x.ty = some fields)
    (hfields : (fields.map Field.name).Nodup) {f : Field} (hidx : fields[idx]? = some f) :
    Resolves (fromEnv venv (expandedQuns expandQuery quns)) (expandedQuns expandQuery quns)
      pre.length idx (columnItem aliasName f.name) := by
  have hn : ((expandedQuns expandQuery quns).map Qun.aliasName).Nodup := by
    rw [aliasNames_expanded]
    exact h.aliases
  have hj : (expandedQuns expandQuery quns)[pre.length]? = some (.name table aliasName) := by
    simp [hsplit, expandedQun]
  have henv := fromEnv_qun venv expandQuery h.aliases hsplit
  have hpre : fromEnv venv (expandedQuns expandQuery pre) table = some (.var x) := by
    rw [fromEnv_other (by rw [aliasNames_expanded]; exact h.table_not_mem hsplit), hx]
  have hentry : qunEntry (fromEnv venv (expandedQuns expandQuery pre)) (.name table aliasName) =
      some (.var { x with sname := some aliasName }) := by
    simp [qunEntry, tableEntry, hpre]
  have henter : enterQun (fromEnv venv (expandedQuns expandQuery pre)) (.name table aliasName)
      aliasName = some (.var { x with sname := some aliasName }) := by
    rw [enterQun, hentry]
    exact Function.update_self _ _ _
  exact resolves_column hn hj (henv.trans henter) hty hfields hidx

theorem queryColumns_found (h : Apart quns) {query : Exp}
    (hsplit : quns = pre ++ .query query aliasName :: post)
    (hitems : (expandQuery query).2.selectItems = some items) {names : List Symbol}
    (hnames : items.map columnName = names.map some) (hnd : names.Nodup)
    (hidx : names[idx]? = some sym) (a : Option Symbol) :
    Resolves (fromEnv venv (expandedQuns expandQuery quns)) (expandedQuns expandQuery quns)
      pre.length idx (.simple (.var (.field aliasName sym)) a) := by
  have hn : ((expandedQuns expandQuery quns).map Qun.aliasName).Nodup := by
    rw [aliasNames_expanded]
    exact h.aliases
  have hj : (expandedQuns expandQuery quns)[pre.length]? =
      some (.query (expandQuery query).2 aliasName) := by
    simp [hsplit, expandedQun]
  have henv := fromEnv_qun venv expandQuery h.aliases hsplit
  have hfields : selFields [] 0 items = names := selFields_eq hnames hnd fun _ _ => List.not_mem_nil
  have henter : enterQun (fromEnv venv (expandedQuns expandQuery pre))
      (.query (expandQuery query).2 aliasName) aliasName = some (.var {
        ty := some (names.map fun f => { name := f, iskey := false })
        sname := some aliasName, iname := none, scope := .tabLocal, index := none
        haskey := false, firstKey := 0 }) := by
    simp only [enterQun, qunEntry, hitems, Option.map_some, Option.elim_some, hfields]
    exact Function.update_self _ _ _
  refine resolves_column (f := ⟨sym, false⟩) hn hj (henv.trans henter) rfl ?_ ?_
  · rw [List.map_map]
    exact (List.map_id names).symm ▸ hnd
  · rw [List.getElem?_map, hidx]
    rfl

theorem columnName_of_queryItem {i : SelectItem} (h : queryItem aliasName i = .ok nsi)
    (hvar : ∀ v a, i = .simple (.var v) a → a = none ∧ getVarNameSuffix v ≠ none) :
    ∃ sym, columnName i = some sym ∧
      (nsi = .simple (.var (.field aliasName sym)) none ∨
        i = nsi ∧ nsi = .simple (.var (.simple sym)) none) := by
  cases i with
  | star t => cases h
  | complex exp aliasList => cases h
  | simple exp a =>
    cases exp with
    | var v =>
      obtain ⟨rfl, hsuffix⟩ := hvar v a rfl
      cases v with
      | simple sym =>
        cases h
        exact ⟨sym, rfl, .inr ⟨rfl, rfl⟩⟩
      | field x sym =>
        cases h
        exact ⟨sym, rfl, .inl rfl⟩
      | ref r => exact absurd rfl hsuffix
      | subscript => exact absurd rfl hsuffix
    | _ =>
      cases a with
      | none => cases h
      | some a =>
        cases h
        exact ⟨a, rfl, .inl rfl⟩

theorem map_filterMap_of_named (h : ∀ i ∈ items, ∃ sym, columnName i = some sym) :
    items.map columnName = (items.filterMap columnName).map some := by
  induction items with
  | nil => rfl
  | cons i items ih =>
    rw [List.forall_mem_cons] at h
    obtain ⟨⟨sym, hsym⟩, hrest⟩ := h
    rw [List.map_cons, List.filterMap_cons_some hsym, List.map_cons, hsym, ih hrest]

theorem areColumns (h : Apart quns) (hfrom : FromItem venv expandQuery q)
    (hdistinct : DistinctColumns venv expandQuery q) (hsplit : quns = pre ++ q :: post)
    (hcols : columnsOf venv expandQuery q = .ok cs) :
    AreColumns venv expandQuery quns pre.length q cs := by
  cases q with
  | name table aliasName =>
    obtain ⟨x, fields, hx, hty, -⟩ := hfrom
    simp only [columnsOf, hx, hty, Option.getD_some, Except.ok.injEq] at hcols
    refine ⟨?_, fun idx nsi hidx => .inl ?_⟩
    · simp [numColumns, hx, hty, ← hcols]
    · rw [← hcols, List.getElem?_map, Option.map_eq_some_iff] at hidx
      obtain ⟨f, hf, rfl⟩ := hidx
      exact tableColumns_found h hsplit hx hty (hdistinct x fields hx hty) hf
  | query query aliasName =>
    obtain ⟨items, qs, rest, hquery, -, -⟩ := hfrom
    have hitems : (expandQuery query).2.selectItems = some items := by
      rw [hquery]
      rfl
    obtain ⟨hnodup, hvars⟩ := hdistinct items hitems
    simp only [columnsOf, hitems, Option.getD_some] at hcols
    obtain ⟨hlen, hget⟩ := mapM_getElem hcols
    have hname := (mapM_mem hcols).2
    have hnames := map_filterMap_of_named fun i hi => by
      obtain ⟨nsi, hok⟩ := hname i hi
      obtain ⟨sym, hsym, -⟩ := columnName_of_queryItem hok fun v a hv => hvars v a (hv ▸ hi)
      exact ⟨sym, hsym⟩
    refine ⟨?_, fun idx nsi hidx => ?_⟩
    · simp [numColumns, hitems, hlen]
    · obtain ⟨i, hi, hok⟩ := hget idx nsi hidx
      have hmem : i ∈ items := List.mem_of_getElem? hi
      obtain ⟨sym, hsym, hnsi⟩ := columnName_of_queryItem hok fun v a hv => hvars v a (hv ▸ hmem)
      rcases hnsi with rfl | ⟨rfl, hnsi⟩
      · have hidx' : (items.filterMap columnName)[idx]? = some sym := by
          have := congrArg (·[idx]?) hnames
          simp only [List.getElem?_map, hi, Option.map_some, hsym] at this
          obtain ⟨s, hs, hss⟩ := Option.map_eq_some_iff.mp this.symm
          cases hss
          exact hs
        exact .inl (queryColumns_found h hsplit hitems hnames hnodup hidx' none)
      · exact .inr ⟨query, aliasName, items, sym, rfl, hitems, hi, hnsi⟩
  | _ => exact hfrom.elim

/-- All columns for a `*`, those of the first FROM item with that table name or alias for a `T.*`,
one item for each field for a call with a record as its result, and otherwise the item itself. -/
def Expands (venv : VEnv) (expandQuery : Exp → Option Err × Exp) (quns : List Qun) :
    SelectItem → List SelectItem → Prop
  | .simple exp a, out => simpleExpansion venv exp a = .ok out
  | .complex exp aliasList, out => complexExpansion venv exp aliasList = .ok out
  | .star none, out => ∃ css : List (List SelectItem), out = css.flatten ∧
      css.length = quns.length ∧ ∀ j q cs, quns[j]? = some q → css[j]? = some cs →
        AreColumns venv expandQuery quns j q cs
  | .star (some table), out => ∃ j q, quns[j]? = some q ∧ q.named table ∧
      (∀ i q', i < j → quns[i]? = some q' → ¬q'.named table) ∧
      AreColumns venv expandQuery quns j q out

theorem getElem_split {α : Type} {l : List α} {j : Nat} {x : α} (h : l[j]? = some x) :
    ∃ pre post, l = pre ++ x :: post ∧ pre.length = j := by
  obtain ⟨hj, hx⟩ := List.getElem?_eq_some_iff.mp h
  refine ⟨l.take j, l.drop (j + 1), ?_, by rw [List.length_take]; omega⟩
  rw [← hx, List.getElem_cons_drop, List.take_append_drop]

theorem expands_of_expansion (h : Apart quns) (hfrom : ∀ q ∈ quns, FromItem venv expandQuery q)
    (hdistinct : ∀ q ∈ quns, DistinctColumns venv expandQuery q)
    (hexp : expansion venv expandQuery quns item = .ok cs) :
    Expands venv expandQuery quns item cs := by
  cases item with
  | simple exp a => exact hexp
  | complex exp aliasList => exact hexp
  | star t =>
    cases t with
    | none =>
      cases hcols : quns.mapM (columnsOf venv expandQuery) with
      | error e =>
        simp only [expansion, hcols] at hexp
        cases hexp
      | ok css =>
        simp only [expansion, hcols] at hexp
        cases hexp
        obtain ⟨hlen, hget⟩ := mapM_getElem hcols
        refine ⟨css, rfl, hlen, fun j q cs hq hcs => ?_⟩
        obtain ⟨q', hq', hok⟩ := hget j cs hcs
        rw [hq] at hq'
        cases hq'
        have hmem : q ∈ quns := List.mem_of_getElem? hq
        obtain ⟨pre, post, hsplit, rfl⟩ := getElem_split hq
        exact areColumns h (hfrom q hmem) (hdistinct q hmem) hsplit hok
    | some table =>
      cases hfind : quns.find? (Qun.named table) with
      | none =>
        simp only [expansion, hfind] at hexp
        cases hexp
      | some q =>
        simp only [expansion, hfind] at hexp
        obtain ⟨hnamed, pre, post, hsplit, hbefore⟩ := List.find?_eq_some_iff_append.mp hfind
        have hmem : q ∈ quns := List.mem_of_find?_eq_some hfind
        refine ⟨pre.length, q, by simp [hsplit], hnamed, fun i q' hi hq' => ?_,
          areColumns h (hfrom q hmem) (hdistinct q hmem) hsplit hexp⟩
        rw [hsplit, List.getElem?_append_left hi] at hq'
        have := hbefore q' (List.mem_of_getElem? hq')
        simpa using this

def twoTables : VEnv := fun sym =>
  let fields : List Field := [⟨"a", true⟩, ⟨"b", false⟩]
  if sym = "A" ∨ sym = "B" then
    some (.var {
      ty := some fields, sname := none, iname := none, scope := .tabGlobal, index := none
      haskey := true, firstKey := 0 })
  else if sym = "minmax" then some (.function true (some fields))
  else none

end StreamMill.Sql
