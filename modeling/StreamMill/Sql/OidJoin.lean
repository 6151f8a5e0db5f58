import StreamMill.Sql.OidKept
import Mathlib.Data.List.Perm.Subperm

/-!
# StreamMill.Sql.OidJoin

Updates that `rewriteUpdate` turns into a `SELECT` over the FROM list of a sub-query. When all their
names are known, they are kept if and only if no tuple is returned twice (`OidJoin.kept_iff`).
`rewriteUpdate_kept_iff` puts this together with the updates that are not joined.
-/

namespace StreamMill.Sql

/-- An update of a table in memory, the OID of which is compared with a `SELECT` of one variable. -/
structure OidJoin (venv : VEnv) (compile : Exp → Option Err) where
  table : Symbol
  tab : Symbol
  x : VarEntry
  fields : List Field
  updates : List Exp
  hxpList : List SelectItem
  quns : List Qun
  front : List Exp
  prd : Exp
  rest : List Exp
  subUpdates : List Exp
  pointer : Var
  aliasName : Option Symbol
  jtlList : List Qun
  prdList : List Exp
  updated : updatedTable venv table = some (tab, x)
  memory : x.scope = .memory
  record : x.ty = some fields
  first : ∀ p ∈ front, independent compile table p = none
  query : independent compile table prd =
    some (.sqlopr (.mk .sel subUpdates [.simple (.var pointer) aliasName] jtlList prdList))

namespace OidJoin

variable {venv : VEnv} {compile : Exp → Option Err} (j : OidJoin venv compile)

def qun : Qun := .name j.table j.table

def subquery : Exp :=
  .sqlopr (.mk .sel j.subUpdates [.simple (.var j.pointer) j.aliasName] j.jtlList j.prdList)

def others : List Exp := j.front ++ j.rest

def update : SqlOpr :=
  .mk .update j.updates j.hxpList (j.qun :: j.quns) (j.front ++ j.prd :: j.rest)

def IsOid (v : Var) : Prop := ∃ res, transVar (fromEnv venv [j.qun]) [j.qun] v = .ok res ∧
  res.outqun = some 0 ∧ searchRecordField j.fields "oid" = some res.fieldidx

variable {V : Type} (W : World V)

/-- A row of the sub-query has the OID of a tuple. -/
def Points (t : List (List V)) (r : List V) : Prop :=
  column W venv j.jtlList t j.pointer = some (W.oid j.qun r)

def rows : List (List (List V)) := selected W venv j.jtlList j.prdList

structure Known : Prop where
  oid : ∃ oper v, (oper = .eq ∨ oper = .in) ∧ j.IsOid v ∧
    (j.prd = .op oper (.var v) j.subquery ∨ j.prd = .op oper j.subquery (.var v))
  updates : ∀ e ∈ j.updates, KnownUpdate venv j.table j.tab j.fields j.jtlList e
  others : ∀ p ∈ j.others, KnownPrd (KnownVar venv j.table j.tab j.fields j.jtlList)
    (Foreign venv j.tab j.fields) p
  rows : ∀ t ∈ j.rows W, ∃ r ∈ W.tuples j.qun, j.Points W t r

def Once : Prop := (j.rows W).Pairwise fun t t' => ∀ r ∈ W.tuples j.qun,
  j.Points W t r → j.Points W t' r → satAll W venv [j.qun] [r] j.others = false

variable {j W} {r : List V}

theorem rewrite_eq (hk : j.Known W) : ∃ updates' others' : List Exp,
    rewriteUpdate venv compile j.update = .ok (.mk .sel [] (updates'.map fun e => .simple e none)
      j.jtlList (others' ++ j.prdList)) ∧
    ∀ t r, SameScope W venv j.table j.tab j.fields j.jtlList j.pointer
        (column W venv [j.qun] [r]) (column W venv j.jtlList t) →
      satAll W venv j.jtlList t others' = satAll W venv [j.qun] [r] j.others ∧
      (updates'.map fun e => SelectItem.simple e none).map
          (assignedItem W (column W venv j.jtlList t)) =
        j.updates.map (assigned W (column W venv [j.qun] [r])
          (column W venv j.jtlList t j.pointer)) := by
  obtain ⟨updates', hupdates, hwrites⟩ := replaceUpdates_known W j.pointer j.record hk.updates
  obtain ⟨others', hothers, hsat⟩ := replacePrds_known W j.pointer j.record hk.others
  refine ⟨updates', others', ?_, fun t r hsame => ⟨hsat _ _ _ _ hsame, hwrites _ _ hsame⟩⟩
  rw [update, qun, rewriteUpdate_memory (by simp) j.updated j.memory,
    findOID_taken j.first j.query]
  simp only [rewriteFound, joinQuery, if_pos, hupdates, ok_bind]
  rw [show j.front ++ j.rest = j.others from rfl, hothers, ok_bind]

theorem sat_prd (hW : W.Stored j.qun j.fields) (hk : j.Known W) (hr : r ∈ W.tuples j.qun) :
    sat W venv [j.qun] [r] j.prd = true ↔ ∃ t ∈ j.rows W, j.Points W t r := by
  obtain ⟨oper, v, hoper, ⟨res, hres, hout, hidx⟩, hprd⟩ := hk.oid
  have hvalue : eval W (column W venv [j.qun] [r]) (.var v) = some (W.oid j.qun r) := by
    rw [eval, qun, StreamMill.Sql.column_eq hres hout, ← qun, hW.oid r hr _ hidx]
  have hmem : W.compare oper (W.oid j.qun r) ((j.rows W).filterMap fun t =>
      itemValue W (column W venv j.jtlList t) [.simple (.var j.pointer) j.aliasName]) = true ↔
      ∃ t ∈ j.rows W, j.Points W t r := by
    rw [hW.compare oper _ _ hoper]
    simp [itemValue, eval, Points]
  rw [← hmem]
  rcases hprd with hprd | hprd
  · rw [hprd, subquery, sat, hvalue]
    rfl
  · rw [hprd, subquery, sat, hvalue]
    · rfl
    · intro _ _ _ _ _ h
      cases h

def writes (j : OidJoin venv compile) (W : World V) (r : List V) : List (Option (Write V)) :=
  j.updates.map (assigned W (column W venv [j.qun] [r]) (some (W.oid j.qun r)))

theorem effect_update : effect W venv j.update =
    ((W.tuples j.qun).filter fun r =>
      satAll W venv [j.qun] [r] (j.front ++ j.prd :: j.rest)).map (j.writes W) := by
  have hcomb : combinations W [j.qun] = (W.tuples j.qun).map fun r => [r] := by
    simp [combinations, List.map_eq_flatMap]
  rw [update, effect, selected, hcomb, List.filter_map, List.map_map]
  rfl

theorem effect_joined {updates' others' : List Exp} (f : List (List V) → List V)
    (hsat : ∀ t ∈ j.rows W,
      satAll W venv j.jtlList t others' = satAll W venv [j.qun] [f t] j.others)
    (hwrites : ∀ t ∈ j.rows W, (updates'.map fun e => SelectItem.simple e none).map
      (assignedItem W (column W venv j.jtlList t)) = j.writes W (f t)) :
    effect W venv (.mk .sel [] (updates'.map fun e => .simple e none) j.jtlList
      (others' ++ j.prdList)) =
    (((j.rows W).filter fun t => satAll W venv [j.qun] [f t] j.others).map f).map
      (j.writes W) := by
  have hrows : selected W venv j.jtlList (others' ++ j.prdList) =
      (j.rows W).filter fun t => satAll W venv [j.qun] [f t] j.others := by
    rw [← List.filter_congr hsat, rows, selected, selected, List.filter_filter]
    exact List.filter_congr fun t _ => satAll_append
  rw [effect, hrows, List.map_map]
  exact List.map_congr_left fun t ht => hwrites t (List.mem_of_mem_filter ht)

theorem nodup_iff_length_eq {α : Type} {l l' : List α} (hl : l.Nodup)
    (hmem : ∀ a, a ∈ l' ↔ a ∈ l) : l'.Nodup ↔ l'.length = l.length := by
  refine ⟨fun hl' => ((List.perm_ext_iff_of_nodup hl' hl).mpr hmem).length_eq, fun hlen => ?_⟩
  have hsub : l.Subperm l' := hl.subperm fun a ha => (hmem a).mpr ha
  exact (hsub.perm_of_length_le (Nat.le_of_eq hlen)).nodup_iff.mp hl

theorem kept_iff (hW : W.Stored j.qun j.fields) (hk : j.Known W) :
    Kept W venv compile j.update ↔ j.Once W := by
  obtain ⟨updates', others', hok, hsame⟩ := rewrite_eq hk
  have hts : (W.tuples j.qun).Nodup := hW.nodup.of_map
  choose! f hf hpoints using hk.rows
  have hscope (t) (ht : t ∈ j.rows W) := hsame t (f t)
    (sameScope j.updated j.record hW (hf t ht) (hpoints t ht))
  have huniq {t r} (ht : t ∈ j.rows W) (hr : r ∈ W.tuples j.qun) (h : j.Points W t r) :
      r = f t := by
    have hoid : W.oid j.qun r = W.oid j.qun (f t) :=
      Option.some.inj (h.symm.trans (hpoints t ht))
    exact List.inj_on_of_nodup_map hW.nodup hr (hf t ht) hoid
  have heffect := effect_joined f (fun t ht => (hscope t ht).1) fun t ht =>
    (hscope t ht).2.trans (by rw [show _ = _ from hpoints t ht, writes])
  have hL : ((W.tuples j.qun).filter fun r =>
      satAll W venv [j.qun] [r] (j.front ++ j.prd :: j.rest)).Nodup := hts.filter _
  -- both statements update the same tuples
  have hmem (r : List V) :
      r ∈ ((j.rows W).filter fun t => satAll W venv [j.qun] [f t] j.others).map f ↔
        r ∈ (W.tuples j.qun).filter fun r =>
          satAll W venv [j.qun] [r] (j.front ++ j.prd :: j.rest) := by
    simp only [List.mem_map, List.mem_filter]
    constructor
    · rintro ⟨t, ⟨ht, hothers⟩, rfl⟩
      have hprd := (sat_prd hW hk (hf t ht)).mpr ⟨t, ht, hpoints t ht⟩
      rw [others, satAll_append, Bool.and_eq_true] at hothers
      rw [satAll_append, satAll, hprd, hothers.1, hothers.2]
      exact ⟨hf t ht, rfl⟩
    · rintro ⟨hr, hall⟩
      rw [satAll_append, satAll, Bool.and_eq_true, Bool.and_eq_true] at hall
      obtain ⟨t, ht, hpt⟩ := (sat_prd hW hk hr).mp hall.2.1
      obtain rfl := huniq ht hr hpt
      refine ⟨t, ⟨ht, ?_⟩, rfl⟩
      rw [others, satAll_append, hall.1, hall.2.2]
      rfl
  have honce : (((j.rows W).filter fun t => satAll W venv [j.qun] [f t] j.others).map f).Nodup ↔
      j.Once W := by
    rw [List.Nodup, List.pairwise_map, List.pairwise_filter]
    refine List.Pairwise.iff_of_mem fun {t t'} ht ht' => ⟨fun h r hr hpt hpt' => ?_, ?_⟩
    · by_contra hsat
      rw [Bool.not_eq_false] at hsat
      have htr := huniq ht hr hpt
      have htr' := huniq ht' hr hpt'
      exact h (htr ▸ hsat) (htr' ▸ hsat) (htr.symm.trans htr')
    · intro h hsat _ heq
      have hfalse := h (f t) (hf t ht) (hpoints t ht) (heq ▸ hpoints t' ht')
      rw [hsat] at hfalse
      cases hfalse
  rw [← honce, nodup_iff_length_eq hL hmem]
  constructor
  · intro h
    obtain ⟨a', hok', hperm, -⟩ := h (declared_of_updated j.updated)
    obtain rfl : _ = a' := Except.ok.inj (hok.symm.trans hok')
    rw [heffect, effect_update] at hperm
    simpa only [List.length_map] using hperm.length_eq
  · intro hlen _
    have hL' := (nodup_iff_length_eq hL hmem).mpr hlen
    refine ⟨_, hok, ?_, fun h => ?_⟩
    · rw [heffect, effect_update]
      exact ((List.perm_ext_iff_of_nodup hL' hL).mpr hmem).map _
    · cases h

end OidJoin

section

variable {V : Type} (W : World V) (venv : VEnv) (compile : Exp → Option Err) (a : SqlOpr)

def World.StoredIn : Prop := ∀ table tab x, updatedTable venv table = some (tab, x) →
  x.scope = .memory → ∃ fields, x.ty = some fields ∧ W.Stored (.name table table) fields

inductive KeptWhen : Prop
  | skipped (h : Skipped venv a)
  | noOid {table aliasName : Symbol} {quns : List Qun}
      (hjtl : a.jtlList = .name table aliasName :: quns) (hno : NoOid table a.prdList)
      (hlast : a.prdList.getLast?.bind (oidExp table) = none)
  | joined (j : OidJoin venv compile) (ha : a = j.update) (hk : j.Known W) (honce : j.Once W)

/-- The OID is compared with a sub-query for one variable, and the names are mixed up, or it does
not return OIDs of the table. -/
def MixedUp : Prop :=
  (∃ table aliasName quns e, a.jtlList = .name table aliasName :: quns ∧
    oidOf compile table a.prdList = some e ∧ e.OneVar) ∧
  ∀ j : OidJoin venv compile, a = j.update → ¬j.Known W

variable {W venv compile a}

theorem oidOf_of_noOid {table : Symbol} {prds : List Exp} (hno : NoOid table prds)
    (hlast : prds.getLast?.bind (oidExp table) = none) : oidOf compile table prds = none := by
  rw [oidOf, List.findSome?_eq_none_iff.mpr (independent_of_noOid hno), Option.none_or, hlast]

theorem exists_memory (h : ¬Skipped venv a) : ∃ table aliasName quns tab x,
    a.jtlList = .name table aliasName :: quns ∧ a.prdList ≠ [] ∧
      updatedTable venv table = some (tab, x) ∧ x.scope = .memory := by
  simp only [Skipped, not_or, not_forall, not_not, ne_eq] at h
  obtain ⟨hprds, table, aliasName, quns, hjtl, tab, x, hx, hscope⟩ := h
  exact ⟨table, aliasName, quns, tab, x, hjtl, hprds, hx, hscope⟩

end

def memoryFields : List Field := [⟨"a", false⟩, ⟨"oid", false⟩]

def memoryTable : VarEntry where
  ty := some memoryFields
  sname := none
  iname := none
  scope := .memory
  index := none
  haskey := false
  firstKey := 0

def refTable : VarEntry := { memoryTable with ty := some [⟨"p", false⟩], scope := .tabLocal }

/-- The table `t` is in memory, and `s` has references to it. -/
def refEnv : VEnv := fun sym =>
  if sym = "t" then some (.var memoryTable) else if sym = "s" then some (.var refTable) else none

/-- The tuples of `t` have the OIDs `1` and `3`, and `s` has a reference to the second. -/
def refTuples (table : Symbol) : List (List Int) :=
  if table = "t" then [[5, 1], [6, 3]] else if table = "s" then [[3]] else []

def refWorld : World Int where
  tuples q :=
    match q with
    | .name table _ => refTuples table
    | _ => []
  oid _ r := r.getLastD 0
  constant e :=
    match e with
    | .int n => n
    | _ => 0
  unary _ v := v
  binary oper v w := if oper = .eq ∧ v = w then 1 else 0
  call _ _ _ := 0
  outer _ := 0
  deref v sym := ((refTuples "t").find? fun r => r.getLastD 0 = v).bind fun r =>
    (searchRecordField memoryFields sym).bind (r[·]?)
  holds v := v ≠ 0
  compare _ v values := v ∈ values
  returns _ := []

/-- `UPDATE t SET a = 7 WHERE prd` -/
def updateWhere (prd : Exp) : SqlOpr :=
  .mk .update [.assign (.simple "a") (.int 7)] [] [.name "t" "t"] [prd]

theorem refWorld_stored : refWorld.StoredIn refEnv := by
  intro table tab x hx hscope
  have ht : table = "t" := by
    by_contra hne
    by_cases hs : table = "s"
    · rw [updatedTable, refEnv, if_neg hne, if_pos hs] at hx
      cases hx
      cases hscope
    · rw [updatedTable, refEnv, if_neg hne, if_neg hs] at hx
      cases hx
  subst ht
  cases hx
  have hfind : ∀ r ∈ refTuples "t",
      (refTuples "t").find? (fun r' => r'.getLastD 0 = r.getLastD 0) = some r := by
    decide
  refine ⟨memoryFields, rfl, by decide, fun r hr idx hidx => ?_, fun r hr sym idx hidx => ?_,
    fun oper v values _ => decide_eq_true_iff⟩
  · have hidx' : searchRecordField memoryFields "oid" = some 1 := by decide
    obtain rfl : 1 = idx := Option.some.inj (hidx'.symm.trans hidx)
    have hlast : ∀ r ∈ refTuples "t", r[1]? = some (r.getLastD 0) := by decide
    exact hlast r hr
  · show ((refTuples "t").find? fun r' => r'.getLastD 0 = r.getLastD 0).bind _ = r[idx]?
    rw [hfind r hr, Option.bind_some, hidx, Option.bind_some]

/-- `UPDATE t SET a = 7 WHERE oid IN (SELECT p FROM s)` -/
def refJoin : OidJoin refEnv fun _ => none where
  table := "t"
  tab := "t"
  x := memoryTable
  fields := memoryFields
  updates := [.assign (.simple "a") (.int 7)]
  hxpList := []
  quns := []
  front := []
  prd := .op .in (.var (.simple "oid"))
    (.sqlopr (.mk .sel [] [.simple (.var (.simple "p")) none] [.name "s" "s"] []))
  rest := []
  subUpdates := []
  pointer := .simple "p"
  aliasName := none
  jtlList := [.name "s" "s"]
  prdList := []
  updated := by rw [updatedTable, refEnv, if_pos rfl]
  memory := rfl
  record := rfl
  first := nofun
  query := by simp [independent, oidExp, isOIDVar]

theorem refJoin_rows : refJoin.rows refWorld = [[[3]]] := by decide

theorem refJoin_known : refJoin.Known refWorld where
  oid := by
    refine ⟨.in, .simple "oid", .inr rfl, ⟨⟨some 0, 1, some (.column 0 1)⟩, ?_, rfl, ?_⟩, .inl rfl⟩
    · rfl
    · decide
  updates := by
    intro e he
    obtain rfl := List.mem_singleton.mp he
    exact ⟨.simple rfl rfl, trivial⟩
  others := nofun
  rows := by
    intro t ht
    rw [refJoin_rows, List.mem_singleton] at ht
    subst ht
    exact ⟨[6, 3], by decide, rfl⟩

end StreamMill.Sql
