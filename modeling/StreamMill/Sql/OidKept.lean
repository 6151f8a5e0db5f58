import StreamMill.Sql.OidRewrite

/-!
# StreamMill.Sql.OidKept

When `rewriteUpdate` keeps what an update does. `Exp.Known` says which expressions have the same
value after `replaceOID`, in the scope of the sub-query, as before it in that of the update
(`replaceOID_known`). `kept_iff_noOid` is about the updates that are not joined with a sub-query.
-/

namespace StreamMill.Sql

section

variable (venv : VEnv) (table tab : Symbol) (fields : List Field) (jtlList : List Qun)

/-- A variable of the update that is replaced, for the column `sym` of the table. -/
inductive OwnVar : Var → Symbol → Prop
  | simple {sym : Symbol} (henv : venv sym = none)
      (hcol : (searchRecordField fields sym).isSome) : OwnVar (.simple sym) sym
  | field {sym : Symbol} (htable : table = tab)
      (hcol : (searchRecordField fields sym).isSome) : OwnVar (.field table sym) sym

def Foreign : Var → Prop
  | .simple sym => venv sym ≠ none ∨ searchRecordField fields sym = none
  | .field t _ => t ≠ tab
  | _ => True

/-- What a variable stands for that is no column of a FROM item. -/
def outerName (quns : List Qun) (v : Var) : Option (Option Name) :=
  match transVar (fromEnv venv quns) quns v with
  | .ok x => if x.outqun = none then some x.name else none
  | .error _ => some none

def OuterVar (v : Var) : Prop :=
  Foreign venv tab fields v ∧
    ∃ name, outerName venv [.name table table] v = some name ∧ outerName venv jtlList v = some name

def KnownVar (v : Var) : Prop :=
  (∃ sym, OwnVar venv table tab fields v sym) ∨ OuterVar venv table tab fields jtlList v

end

mutual

def Exp.Known (K : Var → Prop) : Exp → Prop
  | .var v => K v
  | .ref r => K r.first
  | .call _ args _ => KnownAll K args
  | .unary _ left => left.Known K
  | .op _ left right => left.Known K ∧ right.Known K
  | .nil => True
  | .int _ => True
  | .real _ => True
  | .string _ => True
  | .timestamp _ _ => True
  | .assign _ _ => False
  | .sqlopr _ => False
  | .select _ _ _ => False
  | .other => False

def KnownAll (K : Var → Prop) : List Exp → Prop
  | [] => True
  | e :: es => e.Known K ∧ KnownAll K es

end

mutual

/-- All variables that `replaceOID` gets to are among these. -/
def Exp.Untouched (K : Var → Prop) : Exp → Prop
  | .var v => K v
  | .ref r => K r.first
  | .call _ args _ => UntouchedAll K args
  | .unary _ left => left.Untouched K
  | .op _ left right => left.Untouched K ∧ right.Untouched K
  | .nil => True
  | .int _ => True
  | .real _ => True
  | .string _ => True
  | .timestamp _ _ => True
  | .sqlopr (.mk kind updates hxpList _ prdList) =>
    (if kind = .update then UntouchedAll K updates else UntouchedItems K hxpList) ∧
      UntouchedAll K prdList
  | .assign _ _ => False
  | .select _ _ _ => False
  | .other => False

def UntouchedAll (K : Var → Prop) : List Exp → Prop
  | [] => True
  | e :: es => e.Untouched K ∧ UntouchedAll K es

def UntouchedItems (K : Var → Prop) : List SelectItem → Prop
  | [] => True
  | .simple e _ :: items => e.Untouched K ∧ UntouchedItems K items
  | .star _ :: _ => False
  | .complex _ _ :: _ => False

end

def KnownPrd (K F : Var → Prop) : Exp → Prop
  | .op _ left (.sqlopr s) => left.Known K ∧ Exp.Untouched F (.sqlopr s)
  | .op _ (.sqlopr s) right => right.Known K ∧ Exp.Untouched F (.sqlopr s)
  | e => e.Known K

section

variable {V : Type} {W : World V} {venv : VEnv} {table tab : Symbol} {x : VarEntry}
variable {fields : List Field} {jtlList : List Qun} {pointer : Var} {v : Var} {sym : Symbol}

theorem replaceVar_own (hty : x.ty = some fields) (h : OwnVar venv table tab fields v sym) :
    replaceVar venv tab x pointer v = .ok (some (.var pointer sym)) := by
  cases h with
  | simple henv hcol =>
    obtain ⟨idx, hidx⟩ := Option.isSome_iff_exists.mp hcol
    simp [replaceVar, henv, hty, hidx]
  | field htable hcol => simp [replaceVar, htable]

theorem replaceVar_foreign (hty : x.ty = some fields) (h : Foreign venv tab fields v) :
    replaceVar venv tab x pointer v = .ok none := by
  cases v with
  | simple sym =>
    rw [replaceVar]
    split
    · rfl
    · next henv =>
      have hcol : searchRecordField fields sym = none := h.resolve_left (not_not.mpr henv)
      simp [hty, hcol]
  | field t sym => simp [replaceVar, if_neg (show t ≠ tab from h)]
  | ref r => rfl
  | subscript => rfl

theorem replaceRef_foreign (hty : x.ty = some fields) (r : Ref)
    (h : Foreign venv tab fields r.first) : replaceRef venv tab x pointer r = .ok r := by
  match r with
  | .var v col =>
    rw [replaceRef, replaceVar_foreign hty (show Foreign venv tab fields v from h)]
    rfl
  | .ref r col =>
    rw [replaceRef, replaceRef_foreign hty r h]
    rfl

mutual

theorem replaceOID_untouched (hty : x.ty = some fields) :
    ∀ e, Exp.Untouched (Foreign venv tab fields) e → replaceOID venv tab x pointer e = .ok e
  | .var v, h => by
    have hv : Foreign venv tab fields v := h
    simp only [replaceOID, replaceVar_foreign hty hv, ok_bind]
  | .ref r, h => by
    have hr : Foreign venv tab fields r.first := h
    simp only [replaceOID, replaceRef_foreign hty r hr, ok_bind]
  | .call func args member, h => by
    rw [Exp.Untouched] at h
    simp only [replaceOID, replaceAll_untouched hty args h, ok_bind]
  | .unary oper left, h => by
    rw [Exp.Untouched] at h
    simp only [replaceOID, replaceOID_untouched hty left h, ok_bind]
  | .op oper left right, h => by
    rw [Exp.Untouched] at h
    simp only [replaceOID, replaceOID_untouched hty left h.1, replaceOID_untouched hty right h.2,
      ok_bind]
  | .nil, _ => rfl
  | .int _, _ => rfl
  | .real _, _ => rfl
  | .string _, _ => rfl
  | .timestamp _ _, _ => rfl
  | .sqlopr (.mk kind updates hxpList jtlList prdList), h => by
    rw [Exp.Untouched] at h
    by_cases hkind : kind = .update
    · rw [if_pos hkind] at h
      simp only [replaceOID, if_pos hkind, replaceAll_untouched hty updates h.1,
        replaceAll_untouched hty prdList h.2, ok_bind]
    · rw [if_neg hkind] at h
      simp only [replaceOID, if_neg hkind, replaceItems_untouched hty hxpList h.1,
        replaceAll_untouched hty prdList h.2, ok_bind]
  | .assign _ _, h => by simp [Exp.Untouched] at h
  | .select _ _ _, h => by simp [Exp.Untouched] at h
  | .other, h => by simp [Exp.Untouched] at h

theorem replaceAll_untouched (hty : x.ty = some fields) :
    ∀ es, UntouchedAll (Foreign venv tab fields) es → replaceAll venv tab x pointer es = .ok es
  | [], _ => rfl
  | e :: es, h => by
    rw [UntouchedAll] at h
    simp only [replaceAll, replaceOID_untouched hty e h.1, replaceAll_untouched hty es h.2, ok_bind]

theorem replaceItems_untouched (hty : x.ty = some fields) :
    ∀ items, UntouchedItems (Foreign venv tab fields) items →
      replaceItems venv tab x pointer items = .ok items
  | [], _ => rfl
  | .simple e aliasName :: items, h => by
    rw [UntouchedItems] at h
    simp only [replaceItems, replaceOID_untouched hty e h.1, replaceItems_untouched hty items h.2,
      ok_bind]
  | .star _ :: _, h => by simp [UntouchedItems] at h
  | .complex _ _ :: _, h => by simp [UntouchedItems] at h

end

/-- The variables of the update have the same values in another scope, where `pointer` leads to the
tuple. -/
structure SameScope (W : World V) (venv : VEnv) (table tab : Symbol) (fields : List Field)
    (jtlList : List Qun) (pointer : Var) (scope scope' : Var → Option V) : Prop where
  own : ∀ v sym, OwnVar venv table tab fields v sym →
    (scope' pointer).bind (W.deref · sym) = scope v
  outer : ∀ v, OuterVar venv table tab fields jtlList v → scope' v = scope v

variable (W pointer)

theorem replaceRef_known (hty : x.ty = some fields) (r : Ref)
    (h : KnownVar venv table tab fields jtlList r.first) :
    ∃ r', replaceRef venv tab x pointer r = .ok r' ∧ ∀ scope scope' : Var → Option V,
      SameScope W venv table tab fields jtlList pointer scope scope' →
        refValue W scope' r' = refValue W scope r := by
  match r with
  | .var v col =>
    obtain ⟨sym, hown⟩ | houter := show KnownVar venv table tab fields jtlList v from h
    · refine ⟨.ref (.var pointer sym) col, ?_, fun scope scope' hsame => ?_⟩
      · rw [replaceRef, replaceVar_own hty hown]
        rfl
      · rw [refValue, refValue, refValue, hsame.own v sym hown]
    · refine ⟨.var v col, ?_, fun scope scope' hsame => ?_⟩
      · rw [replaceRef, replaceVar_foreign hty houter.1]
        rfl
      · rw [refValue, refValue, hsame.outer v houter]
  | .ref r col =>
    obtain ⟨r', hr, hvalue⟩ := replaceRef_known hty r h
    refine ⟨.ref r' col, ?_, fun scope scope' hsame => ?_⟩
    · rw [replaceRef, hr]
      rfl
    · rw [refValue, refValue, hvalue scope scope' hsame]

mutual

theorem replaceOID_known (hty : x.ty = some fields) : ∀ e : Exp,
    e.Known (KnownVar venv table tab fields jtlList) →
      ∃ e', replaceOID venv tab x pointer e = .ok e' ∧ (∀ s, e' ≠ .sqlopr s) ∧ NotQuery e' ∧
        ∀ scope scope' : Var → Option V,
          SameScope W venv table tab fields jtlList pointer scope scope' →
            eval W scope' e' = eval W scope e
  | .var v, h => by
    obtain ⟨sym, hown⟩ | houter := show KnownVar venv table tab fields jtlList v from h
    · refine ⟨.ref (.var pointer sym), ?_, nofun, trivial, fun scope scope' hsame => ?_⟩
      · simp only [replaceOID, replaceVar_own hty hown, ok_bind]
      · rw [eval, eval, refValue, hsame.own v sym hown]
    · refine ⟨.var v, ?_, nofun, trivial, fun scope scope' hsame => ?_⟩
      · simp only [replaceOID, replaceVar_foreign hty houter.1, ok_bind]
      · rw [eval, eval, hsame.outer v houter]
  | .ref r, h => by
    have hr : KnownVar venv table tab fields jtlList r.first := h
    obtain ⟨r', hr, hvalue⟩ := replaceRef_known W pointer hty r hr
    refine ⟨.ref r', ?_, nofun, trivial, fun scope scope' hsame => ?_⟩
    · simp only [replaceOID, hr, ok_bind]
    · rw [eval, eval, hvalue scope scope' hsame]
  | .call func args member, h => by
    rw [Exp.Known] at h
    obtain ⟨args', hargs, hvalue⟩ := replaceAll_known hty args h
    refine ⟨.call func args' member, ?_, nofun, trivial, fun scope scope' hsame => ?_⟩
    · simp only [replaceOID, hargs, ok_bind]
    · rw [eval, eval, hvalue scope scope' hsame]
  | .unary oper left, h => by
    rw [Exp.Known] at h
    obtain ⟨left', hleft, -, -, hvalue⟩ := replaceOID_known hty left h
    refine ⟨.unary oper left', ?_, nofun, trivial, fun scope scope' hsame => ?_⟩
    · simp only [replaceOID, hleft, ok_bind]
    · rw [eval, eval, hvalue scope scope' hsame]
  | .op oper left right, h => by
    rw [Exp.Known] at h
    obtain ⟨left', hleft, hlq, -, hlvalue⟩ := replaceOID_known hty left h.1
    obtain ⟨right', hright, hrq, -, hrvalue⟩ := replaceOID_known hty right h.2
    refine ⟨.op oper left' right', ?_, nofun, ⟨hlq, hrq⟩, fun scope scope' hsame => ?_⟩
    · simp only [replaceOID, hleft, hright, ok_bind]
    · rw [eval, eval, hlvalue scope scope' hsame, hrvalue scope scope' hsame]
  | .nil, _ => ⟨.nil, rfl, nofun, trivial, fun _ _ _ => by rw [eval, eval]⟩
  | .int n, _ => ⟨.int n, rfl, nofun, trivial, fun _ _ _ => by rw [eval, eval]⟩
  | .real text, _ => ⟨.real text, rfl, nofun, trivial, fun _ _ _ => by rw [eval, eval]⟩
  | .string s, _ => ⟨.string s, rfl, nofun, trivial, fun _ _ _ => by rw [eval, eval]⟩
  | .timestamp sec usec, _ =>
    ⟨.timestamp sec usec, rfl, nofun, trivial, fun _ _ _ => by rw [eval, eval]⟩
  | .assign _ _, h => by simp [Exp.Known] at h
  | .sqlopr _, h => by simp [Exp.Known] at h
  | .select _ _ _, h => by simp [Exp.Known] at h
  | .other, h => by simp [Exp.Known] at h

theorem replaceAll_known (hty : x.ty = some fields) : ∀ es : List Exp,
    KnownAll (KnownVar venv table tab fields jtlList) es →
      ∃ es', replaceAll venv tab x pointer es = .ok es' ∧
        ∀ scope scope' : Var → Option V,
          SameScope W venv table tab fields jtlList pointer scope scope' →
            evalAll W scope' es' = evalAll W scope es
  | [], _ => ⟨[], rfl, fun _ _ _ => by rw [evalAll, evalAll]⟩
  | e :: es, h => by
    rw [KnownAll] at h
    obtain ⟨e', he, -, -, hvalue⟩ := replaceOID_known hty e h.1
    obtain ⟨es', hes, hvalues⟩ := replaceAll_known hty es h.2
    refine ⟨e' :: es', ?_, fun scope scope' hsame => ?_⟩
    · simp only [replaceAll, he, hes, ok_bind]
    · rw [evalAll, evalAll, hvalue scope scope' hsame, hvalues scope scope' hsame]

end

theorem notQuery_of_known {K : Var → Prop} {e : Exp} (h : e.Known K) : NotQuery e := by
  cases e with
  | op oper left right =>
    refine ⟨fun s hs => ?_, fun s hs => ?_⟩
    · rw [hs] at h
      exact h.1
    · rw [hs] at h
      exact h.2
  | _ => trivial

theorem replacePrd_known (hty : x.ty = some fields) {p : Exp}
    (h : KnownPrd (KnownVar venv table tab fields jtlList) (Foreign venv tab fields) p) :
    ∃ p', replaceOID venv tab x pointer p = .ok p' ∧ ∀ quns t quns' t',
      SameScope W venv table tab fields jtlList pointer (column W venv quns t)
          (column W venv quns' t') →
        sat W venv quns' t' p' = sat W venv quns t p := by
  unfold KnownPrd at h
  split at h
  · next oper left s =>
    obtain ⟨left', hleft, -, -, hvalue⟩ := replaceOID_known W pointer hty left h.1
    refine ⟨.op oper left' (.sqlopr s), ?_, fun quns t quns' t' hsame => ?_⟩
    · simp [replaceOID, hleft, replaceOID_untouched hty (.sqlopr s) h.2, ok_bind]
    · cases s
      rw [sat, sat, hvalue _ _ hsame]
  · next oper s right hright =>
    obtain ⟨right', hright', hrq, -, hvalue⟩ := replaceOID_known W pointer hty right h.1
    refine ⟨.op oper (.sqlopr s) right', ?_, fun quns t quns' t' hsame => ?_⟩
    · simp [replaceOID, hright', replaceOID_untouched hty (.sqlopr s) h.2, ok_bind]
    · cases s
      rw [sat, sat, hvalue _ _ hsame]
      · exact fun _ _ _ _ _ => hright _
      · exact fun _ _ _ _ _ => hrq _
  · obtain ⟨p', hp, -, hq, hvalue⟩ := replaceOID_known W pointer hty p h
    refine ⟨p', hp, fun quns t quns' t' hsame => ?_⟩
    rw [sat_of_notQuery hq, sat_of_notQuery (notQuery_of_known h), hvalue _ _ hsame]

theorem replacePrds_known (hty : x.ty = some fields) {prds : List Exp}
    (h : ∀ p ∈ prds,
      KnownPrd (KnownVar venv table tab fields jtlList) (Foreign venv tab fields) p) :
    ∃ prds', replaceAll venv tab x pointer prds = .ok prds' ∧ ∀ quns t quns' t',
      SameScope W venv table tab fields jtlList pointer (column W venv quns t)
          (column W venv quns' t') →
        satAll W venv quns' t' prds' = satAll W venv quns t prds := by
  induction prds with
  | nil => exact ⟨[], rfl, fun _ _ _ _ _ => by rw [satAll, satAll]⟩
  | cons p prds ih =>
    obtain ⟨p', hp, hsat⟩ := replacePrd_known W pointer hty (h p (List.mem_cons_self ..))
    obtain ⟨prds', hprds, hsats⟩ := ih fun e he => h e (List.mem_cons_of_mem _ he)
    refine ⟨p' :: prds', ?_, fun quns t quns' t' hsame => ?_⟩
    · simp [replaceAll, hp, hprds, ok_bind]
    · rw [satAll, satAll, hsat _ _ _ _ hsame, hsats _ _ _ _ hsame]

def KnownUpdate (venv : VEnv) (table tab : Symbol) (fields : List Field) (jtlList : List Qun) :
    Exp → Prop
  | .assign (.simple col) e => OwnVar venv table tab fields (.simple col) col ∧
      e.Known (KnownVar venv table tab fields jtlList)
  | _ => False

theorem replaceUpdates_known (hty : x.ty = some fields) {updates : List Exp}
    (h : ∀ e ∈ updates, KnownUpdate venv table tab fields jtlList e) :
    ∃ updates', replaceAll venv tab x pointer updates = .ok updates' ∧
      ∀ scope scope' : Var → Option V,
        SameScope W venv table tab fields jtlList pointer scope scope' →
          (updates'.map fun e => SelectItem.simple e none).map (assignedItem W scope') =
            updates.map (assigned W scope (scope' pointer)) := by
  induction updates with
  | nil => exact ⟨[], rfl, fun _ _ _ => rfl⟩
  | cons e updates ih =>
    obtain ⟨updates', hupdates, hrest⟩ := ih fun e he => h e (List.mem_cons_of_mem _ he)
    have he := h e (List.mem_cons_self ..)
    unfold KnownUpdate at he
    split at he
    · next col e =>
      obtain ⟨e', he', -, -, hvalue⟩ := replaceOID_known W pointer hty e he.2
      refine ⟨.assign (.ref (.var pointer col)) e' :: updates', ?_, fun scope scope' hsame => ?_⟩
      · simp [replaceAll, replaceOID, replaceVar_own hty he.1, he', hupdates, ok_bind]
      · simp [List.map_cons, hrest scope scope' hsame, assignedItem, assigned,
          hvalue scope scope' hsame]
    · exact he.elim

end

/-- The tuples of a table in memory: each has its own OID, which leads to its columns. A comparison
of OIDs with a sub-query asks whether the OID is among its values. -/
structure World.Stored {V : Type} (W : World V) (q : Qun) (fields : List Field) : Prop where
  nodup : ((W.tuples q).map (W.oid q)).Nodup
  oid : ∀ r ∈ W.tuples q, ∀ idx, searchRecordField fields "oid" = some idx →
    r[idx]? = some (W.oid q r)
  deref : ∀ r ∈ W.tuples q, ∀ sym idx, searchRecordField fields sym = some idx →
    W.deref (W.oid q r) sym = r[idx]?
  compare : ∀ oper x values, oper = .eq ∨ oper = .in →
    (W.compare oper x values = true ↔ x ∈ values)

section

variable {V : Type} {W : World V} {venv : VEnv} {table tab : Symbol} {x : VarEntry}
variable {fields : List Field} {jtlList : List Qun} {pointer : Var} {v : Var} {sym : Symbol}
variable {r : List V}

theorem column_outer {quns : List Qun} {t : List (List V)} {name : Option Name}
    (h : outerName venv quns v = some name) : column W venv quns t v = name.map W.outer := by
  cases hres : transVar (fromEnv venv quns) quns v with
  | ok res =>
    simp only [outerName, hres] at h
    split at h
    · next hout =>
      cases h
      simp [column, hres, hout]
    · cases h
  | error err =>
    simp only [outerName, hres] at h
    cases h
    simp [column, hres, Option.map_none]

theorem fromEnv_updated (hx : updatedTable venv table = some (tab, x)) :
    fromEnv venv [.name table table] =
      Function.update venv table (some (.var { x with sname := some table })) := by
  have hentry : tableEntry venv table = some (.var x) := by
    unfold updatedTable at hx
    unfold tableEntry
    split at hx
    · next y hy =>
      cases hx
      rw [hy]
    · next target hy =>
      split at hx
      · next y htarget =>
        cases hx
        rw [hy]
        exact htarget
      · cases hx
    · cases hx
  simp [fromEnv, List.foldl_cons, List.foldl_nil, enterQun, qunEntry, hentry, Option.elim_some,
    Qun.aliasName]

theorem updated_ne_none (hx : updatedTable venv table = some (tab, x)) : venv table ≠ none := by
  intro hnone
  rw [updatedTable, hnone] at hx
  cases hx

theorem column_eq {res : VarResult}
    (hres : transVar (fromEnv venv [.name table table]) [.name table table] v = .ok res)
    (hout : res.outqun = some 0) :
    column W venv [.name table table] [r] v = r[res.fieldidx]? := by
  simp [column, hres, hout, Option.bind_some]

theorem OwnVar.column_eq (h : OwnVar venv table tab fields v sym)
    (hx : updatedTable venv table = some (tab, x)) (hty : x.ty = some fields) {idx : Nat}
    (hidx : searchRecordField fields sym = some idx) :
    column W venv [.name table table] [r] v = r[idx]? := by
  cases h with
  | simple henv hcol =>
    have hne : sym ≠ table := fun heq => updated_ne_none hx (heq ▸ henv)
    have hres : transVar (fromEnv venv [.name table table]) [.name table table] (.simple sym) =
        .ok { outqun := some 0, fieldidx := idx, name := some (.column 0 idx) } := by
      rw [fromEnv_updated hx, transVar, Function.update_of_ne hne, henv]
      simp [transColumn, findColumn, Qun.aliasName, Function.update_self, Option.bind_some,
        Entry.record, hty, hidx]
    exact StreamMill.Sql.column_eq hres rfl
  | field htable hcol =>
    have hres : transVar (fromEnv venv [.name table table]) [.name table table]
        (.field table sym) =
        .ok { outqun := some 0, fieldidx := idx, name := some (.column 0 idx) } := by
      rw [fromEnv_updated hx, transVar]
      simp [transField, hty, hidx, Qun.aliasName, List.findIdx?_cons, decide_true]
    exact StreamMill.Sql.column_eq hres rfl

/-- In a tuple of the sub-query with the OID of `r`, the variables have the values of `r`. -/
theorem sameScope (hx : updatedTable venv table = some (tab, x)) (hty : x.ty = some fields)
    (hW : W.Stored (.name table table) fields) (hr : r ∈ W.tuples (.name table table))
    {t : List (List V)}
    (ht : column W venv jtlList t pointer = some (W.oid (.name table table) r)) :
    SameScope W venv table tab fields jtlList pointer (column W venv [.name table table] [r])
      (column W venv jtlList t) where
  own v sym hown := by
    have hcol : (searchRecordField fields sym).isSome := by cases hown <;> assumption
    obtain ⟨idx, hidx⟩ := Option.isSome_iff_exists.mp hcol
    rw [ht, Option.bind_some, hW.deref r hr sym idx hidx, hown.column_eq hx hty hidx]
  outer v houter := by
    obtain ⟨-, name, hown, hsub⟩ := houter
    rw [column_outer hsub, column_outer hown]

end

section

variable (compile : Exp → Option Err) (table : Symbol)

def independent (prd : Exp) : Option Exp :=
  match oidExp table prd with
  | none => none
  | some .nil => none
  | some e => if compile e = none then some e else none

/-- The OID is compared with nothing but `NULL`. -/
def NoOid (prds : List Exp) : Prop := ∀ p ∈ prds, ∀ e, oidExp table p = some e → e = .nil

def oidOf (prds : List Exp) : Option Exp :=
  (prds.findSome? (independent compile table)).or (prds.getLast?.bind (oidExp table))

variable {compile table} {prd e : Exp} {front rest prds : List Exp} {rc : Option Err}
variable {last : Option Exp}

theorem oidExp_of_independent (he : independent compile table prd = some e) :
    oidExp table prd = some e ∧ e ≠ .nil ∧ compile e = none := by
  unfold independent at he
  split at he
  · cases he
  · cases he
  · next e' hne he' =>
    by_cases hcompile : compile e' = none
    · rw [if_pos hcompile] at he
      obtain rfl := Option.some.inj he
      exact ⟨he', hne, hcompile⟩
    · rw [if_neg hcompile] at he
      cases he

/-- A predicate without an independent expression stays, and the loop goes on. -/
theorem findOID_next (hind : independent compile table prd = none) : ∃ rc',
    (rc' = none ↔ rc = none ∧ ∀ e, oidExp table prd = some e → e = .nil) ∧
    findOID compile table rc last (prd :: prds) =
      { findOID compile table rc' (oidExp table prd) prds with
        prdList := prd :: (findOID compile table rc' (oidExp table prd) prds).prdList } := by
  unfold independent at hind
  rw [findOID]
  split at hind
  · next hnone => exact ⟨rc, by simp [hnone], by rw [hnone]⟩
  · next hnil => exact ⟨rc, by simp [hnil], by rw [hnil]⟩
  · next e hne he =>
    split at hind
    · cases hind
    · next hcompile =>
      obtain ⟨err, herr⟩ := Option.ne_none_iff_exists'.mp hcompile
      have hne' : ¬∀ e', oidExp table prd = some e' → e' = .nil := fun h => hne (h e he)
      refine ⟨some err, by simp [hne'], ?_⟩
      simp [he, herr]

theorem findOID_taken (hfront : ∀ p ∈ front, independent compile table p = none)
    (he : independent compile table prd = some e) :
    findOID compile table rc last (front ++ prd :: rest) =
      { rc := none, oidExp := some e, removed := true, prdList := front ++ rest } := by
  induction front generalizing rc last with
  | nil =>
    obtain ⟨hprd, hne, hcompile⟩ := oidExp_of_independent he
    rw [List.nil_append, findOID, hprd]
    split
    · next h => cases h
    · next h => exact absurd (Option.some.inj h) hne
    · next e' _ h =>
      cases h
      rw [hcompile, List.nil_append]
  | cons p front ih =>
    rw [List.forall_mem_cons] at hfront
    obtain ⟨rc', -, hnext⟩ := findOID_next hfront.1
    rw [List.cons_append, hnext, ih hfront.2, List.cons_append]

theorem findOID_left (hprds : ∀ p ∈ prds, independent compile table p = none) : ∃ rc',
    (rc' = none ↔ rc = none ∧ NoOid table prds) ∧ findOID compile table rc last prds =
      { rc := rc', oidExp := prds.getLast?.elim last (oidExp table), removed := false
        prdList := prds } := by
  induction prds generalizing rc last with
  | nil => exact ⟨rc, (and_iff_left nofun).symm, rfl⟩
  | cons prd prds ih =>
    rw [List.forall_mem_cons] at hprds
    obtain ⟨rc₁, hrc₁, hnext⟩ := findOID_next hprds.1
    obtain ⟨rc₂, hrc₂, hrest⟩ := ih hprds.2
    refine ⟨rc₂, ?_, ?_⟩
    · rw [hrc₂, hrc₁, NoOid, NoOid, List.forall_mem_cons, and_assoc]
    · rw [hnext, hrest]
      cases prds with
      | nil => rfl
      | cons p prds =>
        rw [List.getLast?_cons_cons, List.getLast?_cons, Option.elim_some, Option.elim_some]

theorem findOID_whole (hprds : ∀ p ∈ prds, independent compile table p = none) : ∃ rc',
    (rc' = none ↔ NoOid table prds) ∧ findOID compile table none none prds =
      { rc := rc', oidExp := prds.getLast?.bind (oidExp table), removed := false
        prdList := prds } := by
  obtain ⟨rc', hrc, hfound⟩ := findOID_left hprds
  exact ⟨rc', hrc.trans (and_iff_right rfl), hfound.trans (by cases prds.getLast? <;> rfl)⟩

end

def Declared (venv : VEnv) (a : SqlOpr) : Prop := ∀ table aliasName quns,
  a.jtlList = .name table aliasName :: quns → a.prdList ≠ [] → updatedTable venv table ≠ none

def Kept {V : Type} (W : World V) (venv : VEnv) (compile : Exp → Option Err) (a : SqlOpr) : Prop :=
  Declared venv a → ∃ a', rewriteUpdate venv compile a = .ok a' ∧
    (effect W venv a').Perm (effect W venv a) ∧ (a'.kind = .update → a' = a)

def Skipped (venv : VEnv) (a : SqlOpr) : Prop := a.prdList = [] ∨
  ∀ table aliasName quns, a.jtlList = .name table aliasName :: quns →
    ∀ tab x, updatedTable venv table = some (tab, x) → x.scope ≠ .memory

def Exp.OneVar (e : Exp) : Prop := ∃ kind updates v aliasName jtlList prdList,
  e = .sqlopr (.mk kind updates [.simple (.var v) aliasName] jtlList prdList)

section

variable {V : Type} {W : World V} {venv : VEnv} {compile : Exp → Option Err} {a : SqlOpr}
variable {table tab aliasName : Symbol} {x : VarEntry} {kind : OprKind} {updates prds : List Exp}
variable {hxpList : List SelectItem} {quns jtlList : List Qun} {found : Found}

theorem rewriteUpdate_skipped (hskip : Skipped venv a) (hdecl : Declared venv a) :
    rewriteUpdate venv compile a = .ok a := by
  unfold rewriteUpdate
  split
  · next kind updates hxpList table aliasName quns prd prds =>
    split
    · next hx => exact absurd hx (hdecl table aliasName quns rfl nofun)
    · next tab x hx =>
      have hscope : x.scope ≠ .memory :=
        (hskip.resolve_left nofun) table aliasName quns rfl tab x hx
      rw [if_pos hscope]
  · rfl

theorem rewriteUpdate_memory (hprds : prds ≠ []) (hx : updatedTable venv table = some (tab, x))
    (hscope : x.scope = .memory) :
    rewriteUpdate venv compile (.mk kind updates hxpList (.name table aliasName :: quns) prds) =
      rewriteFound venv tab x kind updates hxpList (.name table aliasName :: quns)
        (findOID compile table none none prds) := by
  cases prds with
  | nil => exact absurd rfl hprds
  | cons prd prds => simp [rewriteUpdate, hx, hscope, ne_eq]

theorem rewriteFound_dropped (hquery : ∀ e, found.oidExp = some e → ¬e.OneVar)
    (h : rewriteFound venv tab x kind updates hxpList jtlList found = .ok a) :
    found.rc = none ∧ found.oidExp ≠ some .nil ∧
      a = .mk kind updates hxpList jtlList found.prdList := by
  have hstatement (h : found.statement kind updates hxpList jtlList = .ok a) :
      found.rc = none ∧ a = .mk kind updates hxpList jtlList found.prdList := by
    unfold Found.statement at h
    split at h
    · cases h
    · next hrc =>
      cases h
      exact ⟨hrc, rfl⟩
  have hall (hne : found.oidExp ≠ some .nil)
      (h : found.statement kind updates hxpList jtlList = .ok a) :
      found.rc = none ∧ found.oidExp ≠ some .nil ∧
        a = .mk kind updates hxpList jtlList found.prdList :=
    ⟨(hstatement h).1, hne, (hstatement h).2⟩
  unfold rewriteFound at h
  split at h
  case h_2 heq =>
    split at h
    · exact hall (by simp [heq]) h
    · exact absurd ⟨_, _, _, _, _, _, rfl⟩ (hquery _ heq)
    · exact hall (by simp [heq]) h
    · cases h
  case h_10 => cases h
  all_goals
    next heq => exact hall (by simp [heq]) h

theorem declared_of_updated (hx : updatedTable venv table = some (tab, x)) :
    Declared venv (.mk kind updates hxpList (.name table aliasName :: quns) prds) := by
  intro t al qs hq _
  cases hq
  rw [hx]
  exact Option.some_ne_none _

theorem independent_of_noOid (h : NoOid table prds) :
    ∀ p ∈ prds, independent compile table p = none := by
  intro p hp
  unfold independent
  split
  · rfl
  · rfl
  · next e hne he => exact absurd (h p hp e he) hne

theorem kept_iff_noOid (hprds : prds ≠ []) (hx : updatedTable venv table = some (tab, x))
    (hscope : x.scope = .memory) (hquery : ∀ e, oidOf compile table prds = some e → ¬e.OneVar) :
    Kept W venv compile (.mk .update updates hxpList (.name table aliasName :: quns) prds) ↔
      NoOid table prds ∧ prds.getLast?.bind (oidExp table) = none := by
  constructor
  · intro h
    obtain ⟨a', hok, -, hsame⟩ := h (declared_of_updated hx)
    rw [rewriteUpdate_memory hprds hx hscope] at hok
    cases hfind : prds.findSome? (independent compile table) with
    | none =>
      obtain ⟨rc, hrc, hfound⟩ := findOID_whole (List.findSome?_eq_none_iff.mp hfind)
      rw [hfound] at hok
      obtain ⟨hrc', hnil, -⟩ := rewriteFound_dropped (fun e' he' => hquery e' (by
        rwa [oidOf, hfind])) hok
      have hno := hrc.mp hrc'
      refine ⟨hno, ?_⟩
      cases hlast : prds.getLast? with
      | none => rfl
      | some p =>
        rw [hlast] at hnil
        rw [Option.bind_some]
        cases he : oidExp table p with
        | none => rfl
        | some e => exact absurd (hno p (List.mem_of_getLast? hlast) e he ▸ he) hnil
    | some e =>
      obtain ⟨front, prd, rest, rfl, he, hfront⟩ := List.findSome?_eq_some_iff.mp hfind
      rw [findOID_taken hfront he] at hok
      obtain ⟨-, -, rfl⟩ := rewriteFound_dropped (fun e' he' => hquery e' (by
        cases he'
        rw [oidOf, hfind, Option.some_or])) hok
      have hlen := congrArg (fun a => a.prdList.length) (hsame rfl)
      simp [SqlOpr.prdList] at hlen
  · rintro ⟨hno, hlast⟩ -
    obtain ⟨rc, hrc, hfound⟩ := findOID_whole (independent_of_noOid hno)
    refine ⟨_, ?_, List.Perm.refl _, fun _ => rfl⟩
    rw [rewriteUpdate_memory hprds hx hscope, hfound, hlast, hrc.mpr hno]
    rfl

end

end StreamMill.Sql
