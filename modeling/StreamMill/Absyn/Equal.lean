import StreamMill.Absyn.Syntax
import Mathlib.Tactic.Tauto

/-!
# StreamMill.Absyn.Equal

Equality of expressions (`equalExp` in `absyn.cc`) and the rewriter's use of it,
`appendExp2HxpList` (`sql_rewrite.cc`). The label of a structure is its address. A result is `none`
where the code follows a pointer that is none: the items of an ORDER BY list are compared as
expressions, their position as the kind and their direction as the contents, on a machine of 32
bits. `equalExp_sound` and `Atomic.faithful` say what is identified rightly.
-/

namespace StreamMill.Absyn

open Sql (Symbol Oper Var Ref OprKind TabIndex TabScope)

def Exp.addr {A : Type} : Exp A → Option A
  | .null => none
  | .refExp a _ | .varExp a _ | .nilExp a | .intExp a _ | .realExp a _ | .stringExp a _
  | .timestampExp a _ _ | .callExp a _ _ _ _ _ _ | .opExp a _ _ _ | .seqExp a _
  | .assignExp a _ _ | .letExp a _ _ | .selectExp a _ _ _ _ _ _ _ | .sqloprExp a _ _ _ _ _
  | .runtaskExp a _ _ _ _ _ | .createviewExp a _ _ _ | .createstreamExp a _ _ _ => some a

def Win.addr {A : Type} : Win A → Option A
  | .null => none
  | .mk a _ _ _ _ => some a

def Elems.length {A : Type} : Elems A → Nat
  | .nil => 0
  | .cons _ es => es.length + 1

def AList.length {A : Type} : AList A → Nat
  | .null => 0
  | .mk _ elements => elements.length

def equalVar (var1 var2 : Var) : Bool :=
  match var1, var2 with
  | .simple s1, .simple s2 => s1 = s2
  | .field v1 s1, .field v2 s2 => v1 = v2 && s1 = s2
  | _, _ => false

def equalRef (ref1 ref2 : Ref) : Bool :=
  match ref1, ref2 with
  | .ref r1 c1, .ref r2 c2 => c1 = c2 && equalRef r1 r2
  | .var v1 c1, .var v2 c2 => c1 = c2 && equalVar v1 v2
  | _, _ => false

/-- `equalExp` of two ORDER BY items at different addresses: a position counts as a kind. -/
def equalItem (pos1 dir1 pos2 dir2 : Nat) : Option Bool :=
  if pos1 ≠ pos2 then some false
  else
    match pos1 with
    | 9 => none   -- `A_varExp`: the direction is no pointer
    | 10 => none
    | 11 => some true   -- `A_nilExp`
    | 12 => some (dir1 = dir2)   -- `A_intExp`
    | 14 => none
    | 15 => none
    | 16 => if dir1 ≠ dir2 then some false else none   -- `A_callExp`: reads behind the item
    | 17 => if dir1 ≠ dir2 then some false else none
    | _ => some false

mutual

def equalExp (exp1 exp2 : Exp Nat) : Option Bool :=
  if exp1.addr = exp2.addr then some true
  else
    match exp1, exp2 with
    | .refExp _ ref1, .refExp _ ref2 => some (equalRef ref1.ref ref2.ref)
    | .varExp _ var1, .varExp _ var2 => some (equalVar var1 var2)
    | .nilExp _, .nilExp _ => some true
    | .intExp _ i1, .intExp _ i2 => some (i1 = i2)
    | .stringExp _ s1, .stringExp _ s2 => some (s1 = s2)
    | .timestampExp _ s1 u1, .timestampExp _ s2 u2 => some (s1 = s2 && u1 = u2)
    | .callExp _ func1 args1 _ _ win1 _, .callExp _ func2 args2 _ _ win2 _ =>
      if func1 ≠ func2 then some false
      else do
        if !(← equalList args1 args2) then return false
        equalWin win1 win2
    | .opExp _ oper1 left1 _, .opExp _ oper2 left2 _ =>
      if oper1 ≠ oper2 then some false
      else do
        if !(← equalExp left1 left2) then return false
        equalExp left1 left2
    | _, _ => some false
termination_by structural exp1

def equalList (list1 list2 : AList Nat) : Option Bool :=
  if list1.length = 0 ∧ list2.length = 0 then some true
  else if list1.length ≠ list2.length then some false
  else
    match list1, list2 with
    | .mk _ elements1, .mk _ elements2 => equalElems elements1 elements2
    | _, _ => some false
termination_by structural list1

def equalElems (es1 es2 : Elems Nat) : Option Bool :=
  match es1, es2 with
  | .cons e1 es1, .cons e2 es2 => do
    if !(← equalElem e1 e2) then return false
    equalElems es1 es2
  | _, _ => some true
termination_by structural es1

def equalElem (e1 e2 : Elem Nat) : Option Bool :=
  match e1, e2 with
  | .exp exp1, .exp exp2 => equalExp exp1 exp2
  | .orderItem a1 pos1 _ dir1, .orderItem a2 pos2 _ dir2 =>
    if a1 = a2 then some true else equalItem pos1 dir1 pos2 dir2
  | _, _ => none
termination_by structural e1

def equalWin (win1 win2 : Win Nat) : Option Bool :=
  if win1.addr = win2.addr then some true
  else
    match win1, win2 with
    | .mk _ partition1 order1 range1 slide1, .mk _ partition2 order2 range2 slide2 => do
      if !(← equalList order1 order2) then return false
      if !(← equalList partition1 partition2) then return false
      return range1 = range2 && slide1 = slide2
    | _, _ => some true
termination_by structural win1

end

def otherMember : Exp Nat → Exp Nat → Bool
  | .callExp _ _ _ member1 _ _ _, .callExp _ _ _ member2 _ _ _ => member1 ≠ member2
  | _, _ => false

def Exp.share : Exp Nat → Exp Nat
  | .callExp a func args member _ win init => .callExp a func args member true win init
  | e => e

/-- The loop over the head expressions: the index it ends at, and the expression. -/
def findExp : List (Exp Nat) → Nat → Exp Nat → Option (Nat × Exp Nat)
  | [], i, expr => some (i, expr)
  | si :: hxpList, i, expr => do
    if ← equalExp expr si then
      if otherMember expr si then findExp hxpList (i + 1) expr.share
      else return (i, expr)
    else findExp hxpList (i + 1) expr

/-- The index of the head expression for `expr`, and the list of them. -/
def appendExp2HxpList (hxpList : List (Exp Nat)) (expr : Exp Nat) :
    Option (Nat × List (Exp Nat)) := do
  let (i, expr) ← findExp hxpList 0 expr
  if i ≥ hxpList.length then return (i, hxpList ++ [expr])
  return (i, hxpList)

/-- What is left of an expression without addresses, positions and the members of calls. -/
def Exp.shape (e : Exp Nat) : Exp Unit := e.change (fun _ => ()) (fun _ => none) (fun _ => 0)

def Same (e e' : Exp Nat) : Prop := e.shape = e'.shape

/-- What an address that the code compares belongs to. -/
inductive Cell
  | exp (e : Exp Nat)
  | win (w : Win Nat)
  | item (e : Elem Nat)

def Cell.addr : Cell → Nat
  | .exp e => e.addr.getD 0
  | .win w => w.addr.getD 0
  | .item (.orderItem a _ _ _) => a
  | .item _ => 0

mutual

def Exp.cells : Exp Nat → List Cell
  | .null => []
  | e@(.callExp _ _ args _ _ win _) => .exp e :: (args.cells ++ win.cells)
  | e@(.opExp _ _ left right) => .exp e :: (left.cells ++ right.cells)
  | e@(.seqExp _ seq) => .exp e :: seq.cells
  | e@(.assignExp _ _ exp) => .exp e :: exp.cells
  | e@(.letExp _ decs body) => .exp e :: (decs.cells ++ body.cells)
  | e@(.selectExp _ _ hxp jtl wr gb ob hv) =>
    .exp e :: (hxp.cells ++ jtl.cells ++ wr.cells ++ gb.cells ++ ob.cells ++ hv.cells)
  | e@(.sqloprExp _ _ _ hxp jtl prd) => .exp e :: (hxp.cells ++ jtl.cells ++ prd.cells)
  | e@(.runtaskExp _ _ _ _ win params) => .exp e :: (win.cells ++ params.cells)
  | e@(.createviewExp _ _ query keydecs) => .exp e :: (query.cells ++ keydecs.cells)
  | e@(.createstreamExp _ _ query _) => .exp e :: query.cells
  | e => [.exp e]

def Win.cells : Win Nat → List Cell
  | .null => []
  | w@(.mk _ partition order _ _) => .win w :: (partition.cells ++ order.cells)

def AList.cells : AList Nat → List Cell
  | .null => []
  | .mk _ elements => elements.cells

def Elems.cells : Elems Nat → List Cell
  | .nil => []
  | .cons e es => e.cells ++ es.cells

def Elem.cells : Elem Nat → List Cell
  | .exp exp => exp.cells
  | .dec dec => dec.cells
  | .simpleItem _ exp _ => exp.cells
  | .complexItem _ exp aliaslist => exp.cells ++ aliaslist.cells
  | .functionQun _ _ args _ => args.cells
  | .queryQun _ _ query => query.cells
  | e@(.orderItem _ _ exp _) => .item e :: exp.cells
  | .list l => l.cells
  | _ => []

def Dec.cells : Dec Nat → List Cell
  | .varDec _ _ _ init => init.cells
  | .functionDec _ _ params _ decs body => params.cells ++ decs.cells ++ body.cells
  | .aggregateDec _ _ params _ decs init iterate expire terminate window =>
    params.cells ++ decs.cells ++ init.cells ++ iterate.cells ++ expire.cells ++
      terminate.cells ++ window.cells
  | .externDec _ _ params _ _ _ _ => params.cells
  | .tabVarDec _ _ _ _ _ _ _ _ init => init.cells
  | _ => []

end

/-- No two different cells have one address. -/
def Consistent (ns : List Cell) : Prop := ∀ n ∈ ns, ∀ n' ∈ ns, n.addr = n'.addr → n = n'

/-- `equalExp` identifies the expression with those that are structurally equal, and no others. -/
def Faithful (e : Exp Nat) : Prop := ∀ e', Consistent (e.cells ++ e'.cells) →
  (equalExp e e' = some true ↔ Same e e') ∧ (equalExp e' e = some true ↔ Same e' e)

/-- The head expression that the rewriter uses for the expression is structurally equal to it. -/
def SharesRight (e : Exp Nat) : Prop := ∀ hxpList i hxpList',
  Consistent (e.cells ++ hxpList.flatMap Exp.cells) →
    appendExp2HxpList hxpList e = some (i, hxpList') → ∃ x, hxpList'[i]? = some x ∧ Same e x

def PlainVar : Var → Prop
  | .simple _ => True
  | .field _ _ => True
  | .ref _ => False
  | .subscript => False

def PlainRef : Ref → Prop
  | .var v _ => PlainVar v
  | .ref r _ => PlainRef r

/-- A constant other than a real, a plain variable, or a reference of one. -/
def Atomic : Exp Nat → Prop
  | .null => True
  | .refExp _ ref => PlainRef ref.ref
  | .varExp _ var => PlainVar var
  | .nilExp _ => True
  | .intExp _ _ => True
  | .stringExp _ _ => True
  | .timestampExp _ _ _ => True
  | _ => False

def Compound : Exp Nat → Prop
  | .callExp _ _ _ _ _ _ _ => True
  | .opExp _ _ _ _ => True
  | _ => False

def Elems.IsExps : Elems Nat → Prop
  | .nil => True
  | .cons (.exp _) es => es.IsExps
  | .cons _ _ => False

def TypedArgs : Exp Nat → Prop
  | .callExp _ _ (.mk _ elements) _ _ _ _ => elements.IsExps
  | _ => True

theorem equalExp_of_addr {e e' : Exp Nat} (h : e.addr = e'.addr) : equalExp e e' = some true := by
  unfold equalExp
  rw [if_pos h]

theorem equalExp_refl (e : Exp Nat) : equalExp e e = some true := equalExp_of_addr rfl

theorem equalElems_refl : ∀ es : Elems Nat, es.IsExps → equalElems es es = some true
  | .nil, _ => rfl
  | .cons (.exp e) es, h => by
    unfold equalElems
    rw [show equalElem (.exp e) (.exp e) = some true from equalExp_refl e]
    exact equalElems_refl es h

theorem equalList_refl (l : AList Nat) (h : ∀ a elements, l = .mk a elements → elements.IsExps) :
    equalList l l = some true := by
  unfold equalList
  by_cases hz : l.length = 0
  · rw [if_pos ⟨hz, hz⟩]
  · rw [if_neg (fun hc => hz hc.1), if_neg (fun hc => hc rfl)]
    cases l with
    | null => exact absurd rfl hz
    | mk a elements => exact equalElems_refl elements (h a elements rfl)

theorem cell_mem {e : Exp Nat} (h : e ≠ .null) : Cell.exp e ∈ e.cells := by
  cases e <;> first | exact absurd rfl h | simp [Exp.cells]

theorem addr_eq_none {e : Exp Nat} : e.addr = none ↔ e = .null := by
  cases e <;> simp [Exp.addr]

theorem Consistent.exp_eq {ns : List Cell} (h : Consistent ns) {e e' : Exp Nat}
    (he : e ≠ .null → Cell.exp e ∈ ns) (he' : e' ≠ .null → Cell.exp e' ∈ ns)
    (haddr : e.addr = e'.addr) : e = e' := by
  by_cases hn : e = .null
  · subst hn
    exact (addr_eq_none.mp haddr.symm).symm
  · have hn' : e' ≠ .null := by
      rintro rfl
      exact hn (addr_eq_none.mp haddr)
    have hcell := h _ (he hn) _ (he' hn') (by simp [Cell.addr, haddr])
    exact Cell.exp.inj hcell

theorem Consistent.subset {ns ms : List Cell} (h : Consistent ns) (hsub : ∀ n ∈ ms, n ∈ ns) :
    Consistent ms :=
  fun n hn n' hn' => h n (hsub n hn) n' (hsub n' hn')

theorem Consistent.cons {ns : List Cell} (h : Consistent ns) {m : Cell}
    (hm : ∀ n ∈ ns, n.addr < m.addr) : Consistent (m :: ns) := by
  intro n hn n' hn' haddr
  rcases List.mem_cons.mp hn with hm' | hn
  · rcases List.mem_cons.mp hn' with hm'' | hn'
    · rw [hm', hm'']
    · have := hm n' hn'
      rw [← hm'] at this
      omega
  · rcases List.mem_cons.mp hn' with hm'' | hn'
    · have := hm n hn
      rw [← hm''] at this
      omega
    · exact h n hn n' hn' haddr

theorem exists_fresh (ns : List Cell) : ∃ q, ∀ n ∈ ns, n.addr < q := by
  induction ns with
  | nil => exact ⟨0, nofun⟩
  | cons n ns ih =>
    obtain ⟨q, hq⟩ := ih
    refine ⟨q + n.addr + 1, ?_⟩
    intro m hm
    rcases List.mem_cons.mp hm with rfl | hm
    · omega
    · have := hq m hm
      omega

theorem equalVar_sound {v v' : Var} (h : equalVar v v' = true) : v = v' := by
  unfold equalVar at h
  split at h
  · simpa using h
  · simpa using h
  · cases h

theorem equalVar_refl {v : Var} (h : PlainVar v) : equalVar v v = true := by
  cases v with
  | simple s => simp [equalVar]
  | field v s => simp [equalVar]
  | ref r => exact h.elim
  | subscript => exact h.elim

theorem equalVar_self {v : Var} (h : equalVar v v = true) : PlainVar v := by
  cases v with
  | simple s => trivial
  | field v s => trivial
  | ref r => cases h
  | subscript => cases h

theorem equalRef_sound : ∀ r r' : Ref, equalRef r r' = true → r = r'
  | .ref r c, .ref r' c', h => by
    simp only [equalRef, Bool.and_eq_true, decide_eq_true_eq] at h
    rw [h.1, equalRef_sound r r' h.2]
  | .var v c, .var v' c', h => by
    simp only [equalRef, Bool.and_eq_true, decide_eq_true_eq] at h
    rw [h.1, equalVar_sound h.2]
  | .ref _ _, .var _ _, h => by cases h
  | .var _ _, .ref _ _, h => by cases h

theorem equalRef_self_iff : ∀ r : Ref, equalRef r r = true ↔ PlainRef r
  | .ref r c => by
    simp only [equalRef, decide_true, Bool.true_and]
    exact equalRef_self_iff r
  | .var v c => by
    simp only [equalRef, decide_true, Bool.true_and]
    exact ⟨equalVar_self, equalVar_refl⟩

section Decisions

variable {e e' : Exp Nat}

theorem equalVar_comm (v v' : Var) : equalVar v v' = equalVar v' v := by
  rw [Bool.eq_iff_iff]
  constructor
  · intro h
    obtain rfl := equalVar_sound h
    exact h
  · intro h
    obtain rfl := equalVar_sound h
    exact h

theorem equalRef_comm (r r' : Ref) : equalRef r r' = equalRef r' r := by
  rw [Bool.eq_iff_iff]
  constructor
  · intro h
    obtain rfl := equalRef_sound r r' h
    exact h
  · intro h
    obtain rfl := equalRef_sound r' r h
    exact h

theorem equalExp_comm (h : ¬ Compound e) : equalExp e e' = equalExp e' e := by
  by_cases haddr : e.addr = e'.addr
  · rw [equalExp_of_addr haddr, equalExp_of_addr haddr.symm]
  · unfold equalExp
    rw [if_neg haddr, if_neg (Ne.symm haddr)]
    cases e with
    | callExp | opExp => exact absurd trivial h
    | varExp a v => cases e' <;> simp [equalVar_comm]
    | refExp a r => cases e' <;> simp [equalRef_comm]
    | intExp a i => cases e' <;> simp [eq_comm]
    | stringExp a s => cases e' <;> simp [eq_comm]
    | timestampExp a s u => cases e' <;> simp [eq_comm]
    | _ => cases e' <;> rfl

theorem equalExp_sound (h : ¬ Compound e) (hc : Consistent (e.cells ++ e'.cells))
    (heq : equalExp e e' = some true) : Same e e' := by
  by_cases haddr : e.addr = e'.addr
  · have hee : e = e' := hc.exp_eq (fun hn => List.mem_append_left _ (cell_mem hn))
      (fun hn => List.mem_append_right _ (cell_mem hn)) haddr
    rw [Same, hee]
  · unfold equalExp at heq
    rw [if_neg haddr] at heq
    unfold Same Exp.shape
    cases e with
    | callExp | opExp => exact absurd trivial h
    | varExp a v =>
      cases e' with
      | varExp b w => rw [Exp.change, Exp.change, equalVar_sound (Option.some.inj heq)]
      | _ => cases heq
    | refExp a r =>
      cases e' with
      | refExp b s =>
        have hrs := equalRef_sound _ _ (Option.some.inj heq)
        obtain ⟨r, hr, hrcol⟩ := r
        obtain ⟨s, hs, hscol⟩ := s
        obtain rfl : r = s := hrs
        rfl
      | _ => cases heq
    | nilExp a =>
      cases e' with
      | nilExp b => rfl
      | _ => cases heq
    | intExp a i =>
      cases e' with
      | intExp b j => rw [Exp.change, Exp.change, of_decide_eq_true (Option.some.inj heq)]
      | _ => cases heq
    | stringExp a s =>
      cases e' with
      | stringExp b t => rw [Exp.change, Exp.change, of_decide_eq_true (Option.some.inj heq)]
      | _ => cases heq
    | timestampExp a s u =>
      cases e' with
      | timestampExp b t v =>
        have hb := Option.some.inj heq
        rw [Bool.and_eq_true, decide_eq_true_eq, decide_eq_true_eq] at hb
        rw [Exp.change, Exp.change, hb.1, hb.2]
      | _ => cases heq
    | _ => cases e' <;> cases heq

theorem equalExp_complete (h : Atomic e) (hs : Same e e') : equalExp e e' = some true := by
  by_cases haddr : e.addr = e'.addr
  · exact equalExp_of_addr haddr
  · unfold equalExp
    rw [if_neg haddr]
    unfold Same Exp.shape at hs
    cases e with
    | null =>
      cases e' with
      | null => exact absurd rfl haddr
      | _ => simp [Exp.change] at hs
    | varExp a v =>
      cases e' with
      | varExp b w =>
        simp only [Exp.change, Exp.varExp.injEq, true_and] at hs
        subst hs
        exact congrArg some (equalVar_refl h)
      | _ => simp [Exp.change] at hs
    | refExp a r =>
      cases e' with
      | refExp b s =>
        simp only [Exp.change, Exp.refExp.injEq, true_and] at hs
        subst hs
        exact congrArg some ((equalRef_self_iff _).mpr h)
      | _ => simp [Exp.change] at hs
    | nilExp a =>
      cases e' with
      | nilExp b => rfl
      | _ => simp [Exp.change] at hs
    | intExp a i =>
      cases e' with
      | intExp b j => simpa [Exp.change] using hs
      | _ => simp [Exp.change] at hs
    | stringExp a s =>
      cases e' with
      | stringExp b t => simpa [Exp.change] using hs
      | _ => simp [Exp.change] at hs
    | timestampExp a s u =>
      cases e' with
      | timestampExp b t v => simpa [Exp.change] using hs
      | _ => simp [Exp.change] at hs
    | _ => exact h.elim

theorem Atomic.not_compound (h : Atomic e) : ¬ Compound e := by
  cases e with
  | callExp | opExp => exact h.elim
  | _ => exact id

theorem Atomic.faithful (h : Atomic e) : Faithful e := by
  intro e' hc
  have hiff : equalExp e e' = some true ↔ Same e e' :=
    ⟨equalExp_sound h.not_compound hc, equalExp_complete h⟩
  refine ⟨hiff, ?_⟩
  rw [← equalExp_comm h.not_compound, hiff]
  exact eq_comm

end Decisions

end StreamMill.Absyn
