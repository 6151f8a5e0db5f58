import StreamMill.Absyn.Syntax

/-!
# StreamMill.Absyn.Copy

Copying of syntax trees (`copyExp`, `copyAList`, `copyDec` and `copyQun` in `absyn.cc`). The label
of a structure of the copy is `none` when it is a new one; nothing else occurs, so a copy shares
nothing with the original. A result is `none` where the code ends the program, follows a null
pointer or returns an uninitialised one.

`copyExp_iff`: an expression is copied to an equal one exactly if it is `Copyable`.
-/

namespace StreamMill.Absyn

open Sql (Symbol Oper Var Ref OprKind TabIndex TabScope)

variable {A : Type}

def refOfRef (ref : Ref) (col : Symbol) : Ref :=
  if col = oid then ref
  else if refCol ref = oid then
    match ref with
    | .var v _ => .var v col
    | .ref r _ => .ref r col
  else .ref ref col

def copyRef : Ref → Ref
  | .var var col => .var var col
  | .ref ref col => refOfRef ref col

theorem copyRef_built {r : Ref} (h : BuiltRef r) : copyRef r = r := by
  cases r with
  | var var col => rfl
  | ref ref col =>
    show refOfRef ref col = .ref ref col
    simp [refOfRef, h.1, h.2.1]

/-- `A_RefExp` of the copy, whose column is not `OID`. -/
def copyExpRef (r : ExpRef) : ExpRef where
  ref := copyRef r.ref
  built := by
    rw [copyRef_built r.built]
    exact r.built
  col := by
    rw [copyRef_built r.built]
    exact r.col

def copyVar : Var → Var
  | .simple sym => .simple sym
  | .ref ref => .ref ref
  | .field var sym => .field var sym
  | .subscript => .subscript

def copyRange (r : Range) : Range := ⟨r.size, r.type⟩

def copySlide (s : Slide) : Slide := ⟨s.size, s.type⟩

/-- What `A_TabVarDec` makes of its `scope`, which may be a pointer: scope, source and OID flag. -/
def tabVarScope (scope : Int) : Option (TabScope × Option Symbol × Bool) :=
  if scope = 0 then some (.tabLocal, none, false)
  else if scope = 1 then some (.memory, none, false)
  else if scope = 2 then some (.memory, none, true)
  else none

/-- `tabscope_t` as an integer. -/
def scopeInt : TabScope → Int
  | .tabLocal => 0
  | .tabGlobal => 1
  | .memory => 2
  | .window => 3
  | .expired => 4

/-- `copyTypeDec`: not implemented, the program exits. -/
def copyTypeDec : Option (Dec (Option A)) := none

mutual

def copyExp : Exp A → Option (Exp (Option A))
  | .null => some .null
  | .refExp _ ref => some (.refExp none (copyExpRef ref))
  | .varExp _ var => some (.varExp none (copyVar var))
  | .nilExp _ => some (.nilExp none)
  | .intExp _ intt => some (.intExp none intt)
  | .realExp _ realt => some (.realExp none realt)
  | .stringExp _ string => some (.stringExp none string)
  | .timestampExp _ sec usec => some (.timestampExp none sec usec)
  | .callExp _ func args member _ win init => do
    let args ← copyAList args
    let win ← copyWin win
    return .callExp none func args member false win init
  | .opExp _ oper left right => do
    let left ← copyExp left
    let right ← copyExp right
    return .opExp none oper left right
  | .seqExp _ seq => do
    let seq ← copyAList seq
    return .seqExp none seq
  | .assignExp _ var exp => do
    let exp ← copyExp exp
    return .assignExp none (copyVar var) exp
  | .letExp _ decs body => do
    let decs ← copyAList decs
    let body ← copyExp body
    return .letExp none decs body
  | .selectExp _ distinct hxpList joinTableList wrPrdList groupByList orderByList hvPrdList => do
    let hxpList ← copyAList hxpList
    let joinTableList ← copyAList joinTableList
    let groupByList ← copyAList groupByList
    let orderByList ← copyAList orderByList
    let wrPrdList ← copyAList wrPrdList
    let hvPrdList ← copyAList hvPrdList
    return .selectExp none distinct hxpList joinTableList wrPrdList groupByList orderByList hvPrdList
  | .sqloprExp _ kind distinct hxpList jtlList prdList => do
    let jtlList ← copyAList jtlList
    let hxpList ← copyAList hxpList
    let prdList ← copyAList prdList
    return .sqloprExp none kind distinct hxpList jtlList prdList
  -- no case of `copyExp`
  | .runtaskExp _ _ _ _ _ _ => some .null
  | .createviewExp _ _ _ _ => some .null
  | .createstreamExp _ _ _ _ => some .null

def copyWin : Win A → Option (Win (Option A))
  | .null => some .null
  | .mk _ partitionList orderByList range slide => do
    let partitionList ← copyAList partitionList
    let orderByList ← copyAList orderByList
    return .mk none partitionList orderByList (copyRange range) (copySlide slide)

def copyAList : AList A → Option (AList (Option A))
  | .null => some .null
  | .mk _ elements => do
    let elements ← copyElems elements
    return .mk none elements

def copyElems : Elems A → Option (Elems (Option A))
  | .nil => some .nil
  | .cons e es => do
    let e ← copyElem e
    let es ← copyElems es
    return .cons e es

def copyElem : Elem A → Option (Elem (Option A))
  | .exp exp => do
    match ← copyExp exp with
    | .null => none
    | exp => return .exp exp
  | .dec dec => do
    let dec ← copyDec dec
    return .dec dec
  | .simpleItem _ exp aliasName => do
    let exp ← copyExp exp
    return .simpleItem none exp aliasName
  | .starItem _ table => some (.starItem none table)
  | .complexItem _ exp aliaslist => do
    let exp ← copyExp exp
    let aliaslist ← copyAList aliaslist
    return .complexItem none exp aliaslist
  | .nameQun _ name aliasName dynamic _ => some (.nameQun none name aliasName dynamic none)
  | .functionQun _ name args aliasName => do
    let args ← copyAList args
    return .functionQun none name args aliasName
  | .windowQun _ name range respectTo aliasName =>
    some (.windowQun none name (range.map copyRange) respectTo aliasName)
  | .queryQun _ aliasName query => do
    let query ← copyExp query
    return .queryQun none aliasName query
  -- `copyAList` does not know the type of the list, and exits
  | .orderItem _ _ _ _ => none
  | .symbol sym => some (.symbol sym)
  | .field _ name typ size => some (.field none name typ size)
  | .list l => do
    match ← copyAList l with
    | .null => none
    | l => return .list l

def copyDec : Dec A → Option (Dec (Option A))
  | .null => none
  | .varDec _ name typ init => do
    let init ← copyExp init
    return .varDec none name typ init
  -- the declarations are read from the fields of an aggregate
  | .functionDec _ _ _ _ _ _ => none
  | .aggregateDec _ name params result decs init iterate expire terminate window => do
    let params ← copyAList params
    let result ← copyTy result
    let decs ← copyAList decs
    let init ← copyExp init
    let iterate ← copyExp iterate
    let expire ← copyExp expire
    let terminate ← copyExp terminate
    let window ← copyDec window
    return .aggregateDec none name params result decs init iterate expire terminate window
  | .externDec _ name params result externlib size _ => do
    let params ← copyAList params
    let result ← copyTy result
    return .externDec none name params result externlib size name
  -- `copyTabVarDec`, and on into the next case
  | .tabVarDec _ name ty index scope _ _ _ init => do
    let ty ← copyTy ty
    let index ← copyAIndex index
    let init ← copyExp init
    let (scope, source, oidEnabled) ← tabVarScope (scopeInt scope)
    let _n := Dec.tabVarDec none name ty index scope source oidEnabled false init
    copyTypeDec
  -- the result is not initialised
  | .modelTypeDec _ _ => none
  | .dynamicVarDec _ _ _ => none
  | .streamVarDec _ _ _ => none
  | .typeDec _ => copyTypeDec

def copyTy : Ty A → Option (Ty (Option A))
  | .null => none
  | .nameTy _ name => some (.nameTy none name)
  | .recordTy _ _ => none   -- not implemented, the program exits
  | .arrayTy _ array => some (.arrayTy none array)

def copyAIndex : Index A → Option (Index (Option A))
  | .null => some .null
  | .mk _ kind keydecs func len => do
    let keydecs ← copyAList keydecs
    return .mk none kind keydecs func len

end

def Exp.fresh (e : Exp A) : Exp (Option A) := e.change (fun _ => none) id id

/-- The copy has the structure of the original, and all of it is new. -/
structure IsCopy (e : Exp A) (copy : Exp (Option A)) : Prop where
  equal : copy.change (fun _ => ()) id id = e.change (fun _ => ()) id id
  fresh : copy.change (fun _ => (none : Option A)) id id = copy

mutual

/-- What `copyExp` copies as it is. -/
def Exp.Copyable : Exp A → Prop
  | .null => True
  | .refExp _ _ => True
  | .varExp _ _ => True
  | .nilExp _ => True
  | .intExp _ _ => True
  | .realExp _ _ => True
  | .stringExp _ _ => True
  | .timestampExp _ _ _ => True
  | .callExp _ _ args _ shared win _ => args.Copyable ∧ win.Copyable ∧ shared = false
  | .opExp _ _ left right => left.Copyable ∧ right.Copyable
  | .seqExp _ seq => seq.Copyable
  | .assignExp _ _ exp => exp.Copyable
  | .letExp _ decs body => decs.Copyable ∧ body.Copyable
  | .selectExp _ _ hxp jtl wr gb ob hv => hxp.Copyable ∧ jtl.Copyable ∧ gb.Copyable ∧
    ob.Copyable ∧ wr.Copyable ∧ hv.Copyable
  | .sqloprExp _ _ _ hxp jtl prd => jtl.Copyable ∧ hxp.Copyable ∧ prd.Copyable
  | .runtaskExp _ _ _ _ _ _ => False
  | .createviewExp _ _ _ _ => False
  | .createstreamExp _ _ _ _ => False

def Win.Copyable : Win A → Prop
  | .null => True
  | .mk _ partition order _ _ => partition.Copyable ∧ order.Copyable

def AList.Copyable : AList A → Prop
  | .null => True
  | .mk _ elements => elements.Copyable

def Elems.Copyable : Elems A → Prop
  | .nil => True
  | .cons e es => e.Copyable ∧ es.Copyable

def Elem.Copyable : Elem A → Prop
  | .exp exp => exp ≠ .null ∧ exp.Copyable
  | .dec dec => dec.Copyable
  | .simpleItem _ exp _ => exp.Copyable
  | .starItem _ _ => True
  | .complexItem _ exp aliaslist => exp.Copyable ∧ aliaslist.Copyable
  | .nameQun _ _ _ _ rawname => rawname = none
  | .functionQun _ _ args _ => args.Copyable
  | .windowQun _ _ _ _ _ => True
  | .queryQun _ _ query => query.Copyable
  | .orderItem _ _ _ _ => False
  | .symbol _ => True
  | .field _ _ _ _ => True
  | .list l => l ≠ .null ∧ l.Copyable

def Dec.Copyable : Dec A → Prop
  | .varDec _ _ _ init => init.Copyable
  | .aggregateDec _ _ params result decs init iterate expire terminate window =>
    params.Copyable ∧ result.Copyable ∧ decs.Copyable ∧ init.Copyable ∧ iterate.Copyable ∧
      expire.Copyable ∧ terminate.Copyable ∧ window.Copyable
  | .externDec _ name params result _ _ actual =>
    params.Copyable ∧ result.Copyable ∧ name = actual
  | .null => False
  | .functionDec _ _ _ _ _ _ => False
  | .tabVarDec _ _ _ _ _ _ _ _ _ => False
  | .modelTypeDec _ _ => False
  | .dynamicVarDec _ _ _ => False
  | .streamVarDec _ _ _ => False
  | .typeDec _ => False

def Ty.Copyable : Ty A → Prop
  | .null => False
  | .nameTy _ _ => True
  | .recordTy _ _ => False
  | .arrayTy _ _ => True

end

theorem copyExpRef_eq (r : ExpRef) : copyExpRef r = r := by
  obtain ⟨ref, built, col⟩ := r
  simp [copyExpRef, copyRef_built built]

theorem copyVar_eq (v : Var) : copyVar v = v := by
  cases v <;> rfl

theorem map_copyRange (r : Option Range) : r.map copyRange = r := by
  cases r <;> rfl

theorem fresh_eq_null {e : Exp A} : e.fresh = .null ↔ e = .null := by
  cases e <;> simp [Exp.fresh, Exp.change]

theorem change_eq_null {l : AList A} :
    l.change (fun _ => (none : Option A)) id id = .null ↔ l = .null := by
  cases l <;> simp [AList.change]

theorem copyElem_exp (e : Exp A) : copyElem (.exp e) = some (.exp e.fresh) ↔
    e ≠ .null ∧ copyExp e = some e.fresh := by
  rw [ne_eq, ← fresh_eq_null]
  generalize e.fresh = e'
  unfold copyElem
  cases copyExp e with
  | none => simp
  | some p =>
    cases p with
    | null => simp [eq_comm]
    | _ =>
      simp only [Option.bind_eq_bind, Option.bind_some, Option.pure_def, Option.some.injEq,
        Elem.exp.injEq]
      constructor
      · rintro rfl
        exact ⟨nofun, rfl⟩
      · exact And.right

theorem copyElem_list (l : AList A) :
    copyElem (.list l) = some (.list (l.change (fun _ => none) id id)) ↔
      l ≠ .null ∧ copyAList l = some (l.change (fun _ => none) id id) := by
  rw [ne_eq, ← change_eq_null]
  generalize l.change (fun _ => none) id id = l'
  unfold copyElem
  cases copyAList l with
  | none => simp
  | some p =>
    cases p with
    | null => simp [eq_comm]
    | mk a elements =>
      simp only [Option.bind_eq_bind, Option.bind_some, Option.pure_def, Option.some.injEq,
        Elem.list.injEq]
      constructor
      · rintro rfl
        exact ⟨nofun, rfl⟩
      · exact And.right

mutual

theorem copyExp_iff : ∀ e : Exp A,
    copyExp e = some (e.change (fun _ => none) id id) ↔ e.Copyable
  | .null => by simp [copyExp, Exp.change, Exp.Copyable]
  | .refExp a ref => by simp [copyExp, Exp.change, Exp.Copyable, copyExpRef_eq]
  | .varExp a var => by simp [copyExp, Exp.change, Exp.Copyable, copyVar_eq]
  | .nilExp a => by simp [copyExp, Exp.change, Exp.Copyable]
  | .intExp a intt => by simp [copyExp, Exp.change, Exp.Copyable]
  | .realExp a realt => by simp [copyExp, Exp.change, Exp.Copyable]
  | .stringExp a string => by simp [copyExp, Exp.change, Exp.Copyable]
  | .timestampExp a sec usec => by simp [copyExp, Exp.change, Exp.Copyable]
  | .callExp a func args member shared win init => by
    have hargs := copyAList_iff args
    have hwin := copyWin_iff win
    simp [copyExp, Exp.change, Exp.Copyable, Option.bind_eq_some_iff, ← hargs, ← hwin]
  | .opExp a oper left right => by
    have hleft := copyExp_iff left
    have hright := copyExp_iff right
    simp [copyExp, Exp.change, Exp.Copyable, Option.bind_eq_some_iff, ← hleft, ← hright]
  | .seqExp a seq => by
    have hseq := copyAList_iff seq
    simp [copyExp, Exp.change, Exp.Copyable, Option.bind_eq_some_iff, ← hseq]
  | .assignExp a var exp => by
    have hexp := copyExp_iff exp
    simp [copyExp, Exp.change, Exp.Copyable, Option.bind_eq_some_iff, copyVar_eq, ← hexp]
  | .letExp a decs body => by
    have hdecs := copyAList_iff decs
    have hbody := copyExp_iff body
    simp [copyExp, Exp.change, Exp.Copyable, Option.bind_eq_some_iff, ← hdecs, ← hbody]
  | .selectExp a distinct hxp jtl wr gb ob hv => by
    have hhxp := copyAList_iff hxp
    have hjtl := copyAList_iff jtl
    have hwr := copyAList_iff wr
    have hgb := copyAList_iff gb
    have hob := copyAList_iff ob
    have hhv := copyAList_iff hv
    simp [copyExp, Exp.change, Exp.Copyable, Option.bind_eq_some_iff, ← hhxp, ← hjtl, ← hwr, ← hgb,
      ← hob, ← hhv]
  | .sqloprExp a kind distinct hxp jtl prd => by
    have hhxp := copyAList_iff hxp
    have hjtl := copyAList_iff jtl
    have hprd := copyAList_iff prd
    simp [copyExp, Exp.change, Exp.Copyable, Option.bind_eq_some_iff, ← hhxp, ← hjtl, ← hprd]
  | .runtaskExp _ _ _ _ _ _ => by simp [copyExp, Exp.change, Exp.Copyable]
  | .createviewExp _ _ _ _ => by simp [copyExp, Exp.change, Exp.Copyable]
  | .createstreamExp _ _ _ _ => by simp [copyExp, Exp.change, Exp.Copyable]

theorem copyWin_iff : ∀ w : Win A,
    copyWin w = some (w.change (fun _ => none) id id) ↔ w.Copyable
  | .null => by simp [copyWin, Win.change, Win.Copyable]
  | .mk a partition order range slide => by
    have hpartition := copyAList_iff partition
    have horder := copyAList_iff order
    simp [copyWin, Win.change, Win.Copyable, Option.bind_eq_some_iff, copyRange, copySlide,
      ← hpartition, ← horder]

theorem copyAList_iff : ∀ l : AList A,
    copyAList l = some (l.change (fun _ => none) id id) ↔ l.Copyable
  | .null => by simp [copyAList, AList.change, AList.Copyable]
  | .mk a elements => by
    have helements := copyElems_iff elements
    simp [copyAList, AList.change, AList.Copyable, Option.bind_eq_some_iff, ← helements]

theorem copyElems_iff : ∀ es : Elems A,
    copyElems es = some (es.change (fun _ => none) id id) ↔ es.Copyable
  | .nil => by simp [copyElems, Elems.change, Elems.Copyable]
  | .cons e es => by
    have he := copyElem_iff e
    have hes := copyElems_iff es
    simp [copyElems, Elems.change, Elems.Copyable, Option.bind_eq_some_iff, ← he, ← hes]

theorem copyElem_iff : ∀ e : Elem A,
    copyElem e = some (e.change (fun _ => none) id id) ↔ e.Copyable
  | .exp exp => by
    rw [Elem.change, Elem.Copyable, ← copyExp_iff exp]
    exact copyElem_exp exp
  | .dec dec => by
    have hdec := copyDec_iff dec
    simp [copyElem, Elem.change, Elem.Copyable, Option.bind_eq_some_iff, ← hdec]
  | .simpleItem a exp aliasName => by
    have hexp := copyExp_iff exp
    simp [copyElem, Elem.change, Elem.Copyable, Option.bind_eq_some_iff, ← hexp]
  | .starItem a table => by simp [copyElem, Elem.change, Elem.Copyable]
  | .complexItem a exp aliaslist => by
    have hexp := copyExp_iff exp
    have haliaslist := copyAList_iff aliaslist
    simp [copyElem, Elem.change, Elem.Copyable, Option.bind_eq_some_iff, ← hexp, ← haliaslist]
  | .nameQun a name aliasName dynamic rawname => by
    simp [copyElem, Elem.change, Elem.Copyable, eq_comm]
  | .functionQun a name args aliasName => by
    have hargs := copyAList_iff args
    simp [copyElem, Elem.change, Elem.Copyable, Option.bind_eq_some_iff, ← hargs]
  | .windowQun a name range respectTo aliasName => by
    simp [copyElem, Elem.change, Elem.Copyable, map_copyRange]
  | .queryQun a aliasName query => by
    have hquery := copyExp_iff query
    simp [copyElem, Elem.change, Elem.Copyable, Option.bind_eq_some_iff, ← hquery]
  | .orderItem a pos exp dir => by simp [copyElem, Elem.change, Elem.Copyable]
  | .symbol sym => by simp [copyElem, Elem.change, Elem.Copyable]
  | .field a name typ size => by simp [copyElem, Elem.change, Elem.Copyable]
  | .list l => by
    rw [Elem.change, Elem.Copyable, ← copyAList_iff l]
    exact copyElem_list l

theorem copyDec_iff : ∀ d : Dec A,
    copyDec d = some (d.change (fun _ => none) id id) ↔ d.Copyable
  | .null => by simp [copyDec, Dec.Copyable]
  | .varDec a name typ init => by
    have hinit := copyExp_iff init
    simp [copyDec, Dec.change, Dec.Copyable, Option.bind_eq_some_iff, ← hinit]
  | .functionDec _ _ _ _ _ _ => by simp [copyDec, Dec.Copyable]
  | .aggregateDec a name params result decs init iterate expire terminate window => by
    have hparams := copyAList_iff params
    have hresult := copyTy_iff result
    have hdecs := copyAList_iff decs
    have hinit := copyExp_iff init
    have hiterate := copyExp_iff iterate
    have hexpire := copyExp_iff expire
    have hterminate := copyExp_iff terminate
    have hwindow := copyDec_iff window
    simp [copyDec, Dec.change, Dec.Copyable, Option.bind_eq_some_iff, ← hparams, ← hresult, ← hdecs,
      ← hinit, ← hiterate, ← hexpire, ← hterminate, ← hwindow]
  | .externDec a name params result externlib size actual => by
    have hparams := copyAList_iff params
    have hresult := copyTy_iff result
    simp [copyDec, Dec.change, Dec.Copyable, Option.bind_eq_some_iff, ← hparams, ← hresult]
  | .tabVarDec _ _ _ _ _ _ _ _ _ => by simp [copyDec, Dec.Copyable, copyTypeDec]
  | .modelTypeDec _ _ => by simp [copyDec, Dec.Copyable]
  | .dynamicVarDec _ _ _ => by simp [copyDec, Dec.Copyable]
  | .streamVarDec _ _ _ => by simp [copyDec, Dec.Copyable]
  | .typeDec _ => by simp [copyDec, Dec.Copyable, copyTypeDec]

theorem copyTy_iff : ∀ t : Ty A,
    copyTy t = some (t.change (fun _ => none) id id) ↔ t.Copyable
  | .null => by simp [copyTy, Ty.Copyable]
  | .nameTy _ _ => by simp [copyTy, Ty.change, Ty.Copyable]
  | .recordTy _ _ => by simp [copyTy, Ty.Copyable]
  | .arrayTy _ _ => by simp [copyTy, Ty.change, Ty.Copyable]

end

theorem isCopy_iff {e : Exp A} {c : Exp (Option A)} : IsCopy e c ↔ c = e.fresh := by
  constructor
  · rintro ⟨hequal, hfresh⟩
    have h := congrArg (Exp.change (fun _ => (none : Option A)) id id) hequal
    rw [Exp.change_change, Exp.change_change] at h
    exact hfresh.symm.trans h
  · rintro rfl
    refine ⟨?_, ?_⟩
    · exact Exp.change_change _ _ _ _ _ _ e
    · exact Exp.change_change _ _ _ _ _ _ e

/-- `copyExp` ends and returns a copy of exactly the copyable expressions. -/
theorem copyExp_faithful_iff (e : Exp A) :
    (∃ c, copyExp e = some c ∧ IsCopy e c) ↔ e.Copyable := by
  rw [← copyExp_iff e]
  constructor
  · rintro ⟨c, hc, hcopy⟩
    rw [hc, isCopy_iff.mp hcopy]
    rfl
  · intro h
    exact ⟨e.fresh, h, isCopy_iff.mpr rfl⟩

/-- `SELECT a FROM t ORDER BY a` -/
def orderedQuery : Exp Unit :=
  .selectExp () false
    (.mk () (.cons (.simpleItem () (.varExp () (.simple "a")) none) .nil))
    (.mk () (.cons (.nameQun () "t" "t" false none) .nil))
    .null .null (.mk () (.cons (.orderItem () 1 (.varExp () (.simple "a")) 0) .nil)) .null

def tableBlock : Exp Unit :=
  .letExp () (.mk () (.cons (.dec (.tabVarDec () "t"
    (.recordTy () (.mk () (.cons (.field () "a" "int" 0) .nil))) .null .memory none false false
    .null)) .nil)) (.nilExp ())

/-- The program exits on both. -/
theorem copyExp_exits : (¬ ∃ c, copyExp orderedQuery = some c ∧ IsCopy orderedQuery c) ∧
    ¬ ∃ c, copyExp tableBlock = some c ∧ IsCopy tableBlock c := by
  constructor
  · rintro ⟨c, hc, -⟩
    cases hc
  · rintro ⟨c, hc, -⟩
    cases hc

end StreamMill.Absyn
