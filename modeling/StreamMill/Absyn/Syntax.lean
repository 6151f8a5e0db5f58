import StreamMill.Sql.Syntax
import Mathlib.Logic.Function.Basic

/-!
# StreamMill.Absyn.Syntax

The syntax trees that the parser builds (`absyn.h`), with what `equalExp` and `copyExp` read of
them. Every structure that the parser allocates carries a label: its address where pointers are
compared, and whether it is a new one in the result of a copy. Variables and references have none.
Parent pointers are left out, and the positions but for those of ORDER BY items.

`Exp.change` replaces the labels, the members of calls and the positions.
-/

namespace StreamMill.Absyn

open Sql (Symbol Oper Var Ref OprKind TabIndex TabScope)

def oid : Symbol := "oid"

def refCol : Ref → Symbol
  | .var _ col => col
  | .ref _ col => col

/-- What `A_Ref` builds: `OID` is not selected from a reference, and nothing from an `OID`. -/
def BuiltRef : Ref → Prop
  | .var _ _ => True
  | .ref ref col => col ≠ oid ∧ refCol ref ≠ oid ∧ BuiltRef ref

/-- The reference of an expression: `var->OID` is just `var`. -/
structure ExpRef where
  ref : Ref
  built : BuiltRef ref
  col : refCol ref ≠ oid

inductive RangeTy
  | time | count
  deriving DecidableEq

structure Range where
  size : Int
  type : RangeTy
  deriving DecidableEq

inductive SlideTy
  | time | count | heartbeatTime
  deriving DecidableEq

structure Slide where
  size : Int
  type : SlideTy
  deriving DecidableEq

mutual

/-- `A_exp_`, and the null pointer. -/
inductive Exp (A : Type)
  | null
  | refExp (a : A) (ref : ExpRef)
  | varExp (a : A) (var : Var)
  | nilExp (a : A)
  | intExp (a : A) (intt : Int)
  | realExp (a : A) (realt : BitVec 64)
  | stringExp (a : A) (string : String)
  | timestampExp (a : A) (sec usec : Int)
  | callExp (a : A) (func : Symbol) (args : AList A) (member : Option Symbol) (shared : Bool)
    (win : Win A) (init : Option String)
  | opExp (a : A) (oper : Oper) (left right : Exp A)
  | seqExp (a : A) (seq : AList A)
  | assignExp (a : A) (var : Var) (exp : Exp A)
  | letExp (a : A) (decs : AList A) (body : Exp A)
  | selectExp (a : A) (distinct : Bool) (hxpList joinTableList wrPrdList groupByList orderByList
    hvPrdList : AList A)
  | sqloprExp (a : A) (kind : OprKind) (distinct : Bool) (hxpList jtlList prdList : AList A)
  | runtaskExp (a : A) (modelName task source : Option Symbol) (win : Win A) (params : AList A)
  | createviewExp (a : A) (name : Symbol) (query : Exp A) (keydecs : AList A)
  | createstreamExp (a : A) (name : Symbol) (query : Exp A) (timekey : Option Symbol)

inductive Win (A : Type)
  | null
  | mk (a : A) (partitionList orderByList : AList A) (range : Range) (slide : Slide)

inductive AList (A : Type)
  | null
  | mk (a : A) (elements : Elems A)

inductive Elems (A : Type)
  | nil
  | cons (e : Elem A) (es : Elems A)

/-- An element of a list, of one of the types of `adl_t`. -/
inductive Elem (A : Type)
  | exp (exp : Exp A)
  | dec (dec : Dec A)
  | simpleItem (a : A) (exp : Exp A) (aliasName : Option Symbol)
  | starItem (a : A) (table : Option Symbol)
  | complexItem (a : A) (exp : Exp A) (aliaslist : AList A)
  | nameQun (a : A) (name aliasName : Symbol) (dynamic : Bool) (rawname : Option Symbol)
  | functionQun (a : A) (name : Symbol) (args : AList A) (aliasName : Symbol)
  | windowQun (a : A) (name : Symbol) (range : Option Range) (respectTo : Option Symbol)
    (aliasName : Symbol)
  | queryQun (a : A) (aliasName : Symbol) (query : Exp A)
  | orderItem (a : A) (pos : Nat) (exp : Exp A) (dir : Nat)
  | symbol (sym : Symbol)
  | field (a : A) (name typ : Symbol) (size : Int)
  | list (l : AList A)

/-- `A_dec_`, and the null pointer. -/
inductive Dec (A : Type)
  | null
  | varDec (a : A) (name typ : Symbol) (init : Exp A)
  | functionDec (a : A) (name : Symbol) (params : AList A) (result : Ty A) (decs : AList A)
    (body : Exp A)
  | aggregateDec (a : A) (name : Symbol) (params : AList A) (result : Ty A) (decs : AList A)
    (init iterate expire terminate : Exp A) (window : Dec A)
  | externDec (a : A) (name : Symbol) (params : AList A) (result : Ty A) (externlib : Symbol)
    (size : Int) (actual : Symbol)
  | tabVarDec (a : A) (name : Symbol) (ty : Ty A) (index : Index A) (scope : TabScope)
    (source : Option Symbol) (oidEnabled isView : Bool) (init : Exp A)
  | modelTypeDec (a : A) (name : Symbol)
  | dynamicVarDec (a : A) (name table : Symbol)
  | streamVarDec (a : A) (name : Symbol) (ty : Ty A)
  | typeDec (a : A)

/-- `A_ty_`, and the null pointer. -/
inductive Ty (A : Type)
  | null
  | nameTy (a : A) (name : Symbol)
  | recordTy (a : A) (record : AList A)
  | arrayTy (a : A) (array : Symbol)

/-- `A_index_`, and the null pointer. -/
inductive Index (A : Type)
  | null
  | mk (a : A) (kind : TabIndex) (keydecs : AList A) (func : Option Symbol) (len : Int)

end

variable {A B : Type}

section Change

variable (f : A → B) (mem : Option Symbol → Option Symbol) (pos : Nat → Nat)

mutual

def Exp.change : Exp A → Exp B
  | .null => .null
  | .refExp a ref => .refExp (f a) ref
  | .varExp a var => .varExp (f a) var
  | .nilExp a => .nilExp (f a)
  | .intExp a intt => .intExp (f a) intt
  | .realExp a realt => .realExp (f a) realt
  | .stringExp a string => .stringExp (f a) string
  | .timestampExp a sec usec => .timestampExp (f a) sec usec
  | .callExp a func args member shared win init =>
    .callExp (f a) func args.change (mem member) shared win.change init
  | .opExp a oper left right => .opExp (f a) oper left.change right.change
  | .seqExp a seq => .seqExp (f a) seq.change
  | .assignExp a var exp => .assignExp (f a) var exp.change
  | .letExp a decs body => .letExp (f a) decs.change body.change
  | .selectExp a distinct hxp jtl wr gb ob hv =>
    .selectExp (f a) distinct hxp.change jtl.change wr.change gb.change ob.change hv.change
  | .sqloprExp a kind distinct hxp jtl prd =>
    .sqloprExp (f a) kind distinct hxp.change jtl.change prd.change
  | .runtaskExp a modelName task source win params =>
    .runtaskExp (f a) modelName task source win.change params.change
  | .createviewExp a name query keydecs =>
    .createviewExp (f a) name query.change keydecs.change
  | .createstreamExp a name query timekey => .createstreamExp (f a) name query.change timekey

def Win.change : Win A → Win B
  | .null => .null
  | .mk a partition order range slide => .mk (f a) partition.change order.change range slide

def AList.change : AList A → AList B
  | .null => .null
  | .mk a elements => .mk (f a) elements.change

def Elems.change : Elems A → Elems B
  | .nil => .nil
  | .cons e es => .cons e.change es.change

def Elem.change : Elem A → Elem B
  | .exp exp => .exp exp.change
  | .dec dec => .dec dec.change
  | .simpleItem a exp aliasName => .simpleItem (f a) exp.change aliasName
  | .starItem a table => .starItem (f a) table
  | .complexItem a exp aliaslist => .complexItem (f a) exp.change aliaslist.change
  | .nameQun a name aliasName dynamic rawname => .nameQun (f a) name aliasName dynamic rawname
  | .functionQun a name args aliasName => .functionQun (f a) name args.change aliasName
  | .windowQun a name range respectTo aliasName =>
    .windowQun (f a) name range respectTo aliasName
  | .queryQun a aliasName query => .queryQun (f a) aliasName query.change
  | .orderItem a p exp dir => .orderItem (f a) (pos p) exp.change dir
  | .symbol sym => .symbol sym
  | .field a name typ size => .field (f a) name typ size
  | .list l => .list l.change

def Dec.change : Dec A → Dec B
  | .null => .null
  | .varDec a name typ init => .varDec (f a) name typ init.change
  | .functionDec a name params result decs body =>
    .functionDec (f a) name params.change result.change decs.change body.change
  | .aggregateDec a name params result decs init iterate expire terminate window =>
    .aggregateDec (f a) name params.change result.change decs.change init.change iterate.change
      expire.change terminate.change window.change
  | .externDec a name params result externlib size actual =>
    .externDec (f a) name params.change result.change externlib size actual
  | .tabVarDec a name ty index scope source oidEnabled isView init =>
    .tabVarDec (f a) name ty.change index.change scope source oidEnabled isView init.change
  | .modelTypeDec a name => .modelTypeDec (f a) name
  | .dynamicVarDec a name table => .dynamicVarDec (f a) name table
  | .streamVarDec a name ty => .streamVarDec (f a) name ty.change
  | .typeDec a => .typeDec (f a)

def Ty.change : Ty A → Ty B
  | .null => .null
  | .nameTy a name => .nameTy (f a) name
  | .recordTy a record => .recordTy (f a) record.change
  | .arrayTy a array => .arrayTy (f a) array

def Index.change : Index A → Index B
  | .null => .null
  | .mk a kind keydecs func len => .mk (f a) kind keydecs.change func len

end

end Change

section Compose

variable {C : Type} (f : A → B) (g : B → C) (mem mem' : Option Symbol → Option Symbol)
  (pos pos' : Nat → Nat)

mutual

theorem Exp.change_change : ∀ x : Exp A, (x.change f mem pos).change g mem' pos' =
    x.change (g ∘ f) (mem' ∘ mem) (pos' ∘ pos)
  | .null => rfl
  | .refExp _ _ => rfl
  | .varExp _ _ => rfl
  | .nilExp _ => rfl
  | .intExp _ _ => rfl
  | .realExp _ _ => rfl
  | .stringExp _ _ => rfl
  | .timestampExp _ _ _ => rfl
  | .callExp _ _ args _ _ win _ => by
    simp [Exp.change, AList.change_change args, Win.change_change win]
  | .opExp _ _ left right => by
    simp [Exp.change, Exp.change_change left, Exp.change_change right]
  | .seqExp _ seq => by
    simp [Exp.change, AList.change_change seq]
  | .assignExp _ _ exp => by
    simp [Exp.change, Exp.change_change exp]
  | .letExp _ decs body => by
    simp [Exp.change, AList.change_change decs, Exp.change_change body]
  | .selectExp _ _ hxp jtl wr gb ob hv => by
    simp [Exp.change, AList.change_change hxp, AList.change_change jtl, AList.change_change wr,
      AList.change_change gb, AList.change_change ob, AList.change_change hv]
  | .sqloprExp _ _ _ hxp jtl prd => by
    simp [Exp.change, AList.change_change hxp, AList.change_change jtl, AList.change_change prd]
  | .runtaskExp _ _ _ _ win params => by
    simp [Exp.change, Win.change_change win, AList.change_change params]
  | .createviewExp _ _ query keydecs => by
    simp [Exp.change, Exp.change_change query, AList.change_change keydecs]
  | .createstreamExp _ _ query _ => by
    simp [Exp.change, Exp.change_change query]

theorem Win.change_change : ∀ x : Win A, (x.change f mem pos).change g mem' pos' =
    x.change (g ∘ f) (mem' ∘ mem) (pos' ∘ pos)
  | .null => rfl
  | .mk _ partition order _ _ => by
    simp [Win.change, AList.change_change partition, AList.change_change order]

theorem AList.change_change : ∀ x : AList A, (x.change f mem pos).change g mem' pos' =
    x.change (g ∘ f) (mem' ∘ mem) (pos' ∘ pos)
  | .null => rfl
  | .mk _ elements => by
    simp [AList.change, Elems.change_change elements]

theorem Elems.change_change : ∀ x : Elems A, (x.change f mem pos).change g mem' pos' =
    x.change (g ∘ f) (mem' ∘ mem) (pos' ∘ pos)
  | .nil => rfl
  | .cons e es => by
    simp only [Elems.change, Elem.change_change e, Elems.change_change es]

theorem Elem.change_change : ∀ x : Elem A, (x.change f mem pos).change g mem' pos' =
    x.change (g ∘ f) (mem' ∘ mem) (pos' ∘ pos)
  | .exp exp => by
    simp only [Elem.change, Exp.change_change exp]
  | .dec dec => by
    simp only [Elem.change, Dec.change_change dec]
  | .simpleItem _ exp _ => by
    simp [Elem.change, Exp.change_change exp]
  | .starItem _ _ => rfl
  | .complexItem _ exp aliaslist => by
    simp [Elem.change, Exp.change_change exp, AList.change_change aliaslist]
  | .nameQun _ _ _ _ _ => rfl
  | .functionQun _ _ args _ => by
    simp [Elem.change, AList.change_change args]
  | .windowQun _ _ _ _ _ => rfl
  | .queryQun _ _ query => by
    simp [Elem.change, Exp.change_change query]
  | .orderItem _ _ exp _ => by
    simp [Elem.change, Exp.change_change exp]
  | .symbol _ => rfl
  | .field _ _ _ _ => rfl
  | .list l => by
    simp only [Elem.change, AList.change_change l]

theorem Dec.change_change : ∀ x : Dec A, (x.change f mem pos).change g mem' pos' =
    x.change (g ∘ f) (mem' ∘ mem) (pos' ∘ pos)
  | .null => rfl
  | .varDec _ _ _ init => by
    simp [Dec.change, Exp.change_change init]
  | .functionDec _ _ params result decs body => by
    simp [Dec.change, AList.change_change params, Ty.change_change result,
      AList.change_change decs, Exp.change_change body]
  | .aggregateDec _ _ params result decs init iterate expire terminate window => by
    simp [Dec.change, AList.change_change params, Ty.change_change result,
      AList.change_change decs, Exp.change_change init, Exp.change_change iterate,
      Exp.change_change expire, Exp.change_change terminate, Dec.change_change window]
  | .externDec _ _ params result _ _ _ => by
    simp [Dec.change, AList.change_change params, Ty.change_change result]
  | .tabVarDec _ _ ty index _ _ _ _ init => by
    simp [Dec.change, Ty.change_change ty, Index.change_change index, Exp.change_change init]
  | .modelTypeDec _ _ => rfl
  | .dynamicVarDec _ _ _ => rfl
  | .streamVarDec _ _ ty => by
    simp [Dec.change, Ty.change_change ty]
  | .typeDec _ => rfl

theorem Ty.change_change : ∀ x : Ty A, (x.change f mem pos).change g mem' pos' =
    x.change (g ∘ f) (mem' ∘ mem) (pos' ∘ pos)
  | .null => rfl
  | .nameTy _ _ => rfl
  | .recordTy _ record => by
    simp [Ty.change, AList.change_change record]
  | .arrayTy _ _ => rfl

theorem Index.change_change : ∀ x : Index A, (x.change f mem pos).change g mem' pos' =
    x.change (g ∘ f) (mem' ∘ mem) (pos' ∘ pos)
  | .null => rfl
  | .mk _ _ keydecs _ _ => by
    simp [Index.change, AList.change_change keydecs]

end

end Compose

end StreamMill.Absyn
