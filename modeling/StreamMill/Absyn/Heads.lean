import StreamMill.Absyn.Equal

/-!
# StreamMill.Absyn.Heads

Where `equalExp` goes wrong. An operator is taken for another one with the same left operand, a
call for the same call with a window or without one; a real is not found equal to its copy.
`Exp.move` and `Exp.blur` build the other expression.

`equalExp_faithful_iff`: an expression is told from the others and found equal to its copies
exactly if it is an atom; a head expression of another value is used for it exactly if it is an
operator or a call.
-/

namespace StreamMill.Absyn

open Sql (Symbol Oper Var Ref OprKind TabIndex TabScope)

section Partners

def Exp.move (q : Nat) : Exp Nat → Exp Nat
  | .null => .null
  | .refExp _ ref => .refExp q ref
  | .varExp _ var => .varExp q var
  | .nilExp _ => .nilExp q
  | .intExp _ i => .intExp q i
  | .realExp _ r => .realExp q r
  | .stringExp _ s => .stringExp q s
  | .timestampExp _ sec usec => .timestampExp q sec usec
  | .callExp _ func args member shared win init => .callExp q func args member shared win init
  | .opExp _ oper left right => .opExp q oper left right
  | .seqExp _ seq => .seqExp q seq
  | .assignExp _ var exp => .assignExp q var exp
  | .letExp _ decs body => .letExp q decs body
  | .selectExp _ distinct hxp jtl wr gb ob hv => .selectExp q distinct hxp jtl wr gb ob hv
  | .sqloprExp _ kind distinct hxp jtl prd => .sqloprExp q kind distinct hxp jtl prd
  | .runtaskExp _ modelName task source win params =>
    .runtaskExp q modelName task source win params
  | .createviewExp _ name query keydecs => .createviewExp q name query keydecs
  | .createstreamExp _ name query timekey => .createstreamExp q name query timekey

variable {e : Exp Nat}

theorem move_same (q : Nat) (e : Exp Nat) : Same e (e.move q) := by
  cases e <;> rfl

theorem move_cells (q : Nat) (e : Exp Nat) :
    ∀ n ∈ (e.move q).cells, n = .exp (e.move q) ∨ n ∈ e.cells := by
  intro n hn
  cases e <;> simp only [Exp.move, Exp.cells, List.mem_cons, List.not_mem_nil, or_false] at hn ⊢ <;>
    tauto

theorem move_addr {q : Nat} (hn : e ≠ .null) : (e.move q).addr = some q := by
  cases e <;> first | exact absurd rfl hn | rfl

theorem equalExp_move {q : Nat} (ha : ¬ Atomic e) (hcomp : ¬ Compound e) (hq : e.addr ≠ some q) :
    equalExp e (e.move q) ≠ some true := by
  have hn : e ≠ .null := by
    rintro rfl
    exact ha trivial
  unfold equalExp
  rw [if_neg (by rw [move_addr hn]; exact hq)]
  cases e with
  | callExp | opExp => exact absurd trivial hcomp
  | varExp a v => exact fun h => ha (equalVar_self (Option.some.inj h))
  | refExp a r => exact fun h => ha ((equalRef_self_iff _).mp (Option.some.inj h))
  | null | nilExp | intExp | stringExp | timestampExp => exact absurd trivial ha
  | _ =>
    intro h
    cases h

def otherThan (q : Nat) : Exp Nat → Exp Nat
  | .nilExp _ => .intExp q 0
  | _ => .nilExp q

theorem otherThan_not_same (q : Nat) (e : Exp Nat) : ¬ Same e (otherThan q e) := by
  unfold Same Exp.shape
  cases e <;> simp [otherThan, Exp.change]

theorem otherThan_cells (q : Nat) (e : Exp Nat) :
    (otherThan q e).cells = [.exp (otherThan q e)] ∧ (otherThan q e).addr = some q := by
  cases e <;> exact ⟨rfl, rfl⟩

def Win.toggle (q : Nat) : Win Nat → Win Nat
  | .null => .mk q .null .null ⟨1, .count⟩ ⟨1, .count⟩
  | .mk _ _ _ _ _ => .null

theorem equalWin_toggle (q : Nat) (w : Win Nat) : equalWin w (w.toggle q) = some true := by
  cases w <;> rfl

/-- An expression that differs where `equalExp` does not look: in the right operand, or in that it
has a window. -/
def Exp.blur (q : Nat) : Exp Nat → Exp Nat
  | .callExp _ func args member shared win init =>
    .callExp q func args member shared (win.toggle (q + 1)) init
  | .opExp _ oper left right => .opExp q oper left (otherThan (q + 1) right)
  | e => e

theorem blur_not_same {q : Nat} (h : Compound e) : ¬ Same e (e.blur q) := by
  unfold Same Exp.shape
  cases e with
  | callExp a func args member shared win init =>
    cases win <;> simp [Exp.blur, Win.toggle, Exp.change, Win.change]
  | opExp a oper left right =>
    intro hs
    simp only [Exp.blur, Exp.change, Exp.opExp.injEq, true_and] at hs
    exact otherThan_not_same (q + 1) right hs
  | _ => exact h.elim

theorem equalExp_blur {q : Nat} (h : Compound e) (hargs : TypedArgs e) (hq : e.addr ≠ some q) :
    equalExp e (e.blur q) = some true := by
  unfold equalExp
  cases e with
  | callExp a func args member shared win init =>
    have hl : equalList args args = some true := by
      apply equalList_refl
      rintro b elements rfl
      exact hargs
    rw [if_neg (show (Exp.callExp a func args member shared win init).addr ≠
      (Exp.blur q (.callExp a func args member shared win init)).addr from hq)]
    simp only [Exp.blur, ne_eq, not_true_eq_false, if_false, hl]
    exact equalWin_toggle (q + 1) win
  | opExp a oper left right =>
    rw [if_neg (show (Exp.opExp a oper left right).addr ≠
      (Exp.blur q (.opExp a oper left right)).addr from hq)]
    simp only [Exp.blur, ne_eq, not_true_eq_false, if_false, equalExp_refl]
    rfl
  | _ => exact h.elim

theorem blur_cells (q : Nat) (h : Compound e) : ∃ c d, c.addr = q ∧ d.addr = q + 1 ∧
    ∀ n ∈ (e.blur q).cells, n ∈ d :: c :: e.cells := by
  cases e with
  | callExp a func args member shared win init =>
    refine ⟨.exp (.callExp q func args member shared (win.toggle (q + 1)) init),
      .win (.mk (q + 1) .null .null ⟨1, .count⟩ ⟨1, .count⟩), rfl, rfl, ?_⟩
    intro n hn
    cases win <;>
      simp only [Exp.blur, Win.toggle, Exp.cells, Win.cells, AList.cells, List.mem_cons,
        List.mem_append, List.not_mem_nil, or_false, List.append_nil] at hn ⊢ <;>
      tauto
  | opExp a oper left right =>
    refine ⟨.exp (.opExp q oper left (otherThan (q + 1) right)),
      .exp (otherThan (q + 1) right), rfl, ?_, ?_⟩
    · simp [Cell.addr, (otherThan_cells (q + 1) right).2]
    · intro n hn
      simp only [Exp.blur, Exp.cells, (otherThan_cells (q + 1) right).1, List.mem_cons,
        List.mem_append, List.not_mem_nil, or_false] at hn ⊢
      tauto
  | _ => exact h.elim

theorem blur_consistent {q : Nat} (h : Compound e) (hc : Consistent e.cells)
    (hq : ∀ n ∈ e.cells, n.addr < q) : Consistent (e.cells ++ (e.blur q).cells) := by
  obtain ⟨c, d, hcaddr, hdaddr, hsub⟩ := blur_cells q h
  have hone : Consistent (c :: e.cells) := by
    apply hc.cons
    rw [hcaddr]
    exact hq
  have htwo : Consistent (d :: c :: e.cells) := by
    apply hone.cons
    intro n hn
    rcases List.mem_cons.mp hn with rfl | hn
    · omega
    · have := hq n hn
      omega
  apply htwo.subset
  intro n hn
  rcases List.mem_append.mp hn with hn | hn
  · exact List.mem_cons_of_mem _ (List.mem_cons_of_mem _ hn)
  · exact hsub n hn

theorem move_consistent {q : Nat} (hn : e ≠ .null) (hc : Consistent e.cells)
    (hq : ∀ n ∈ e.cells, n.addr < q) : Consistent (e.cells ++ (e.move q).cells) := by
  have hone : Consistent (.exp (e.move q) :: e.cells) := by
    apply hc.cons
    show ∀ n ∈ e.cells, n.addr < (e.move q).addr.getD 0
    rw [move_addr hn]
    exact hq
  apply hone.subset
  intro n hmem
  rcases List.mem_append.mp hmem with hmem | hmem
  · exact List.mem_cons_of_mem _ hmem
  · rcases move_cells q e n hmem with rfl | hmem
    · exact List.mem_cons_self
    · exact List.mem_cons_of_mem _ hmem

theorem addr_ne_fresh {q : Nat} (hq : ∀ n ∈ e.cells, n.addr < q) : e.addr ≠ some q := by
  intro h
  have hn : e ≠ .null := by
    rintro rfl
    cases h
  have := hq _ (cell_mem hn)
  rw [Cell.addr, h] at this
  exact Nat.lt_irrefl q this

end Partners

section Heads

variable {e : Exp Nat}

theorem findExp_spec (h : ¬ Compound e) {hxpList : List (Exp Nat)} {i j : Nat} {e' : Exp Nat}
    (hf : findExp hxpList i e = some (j, e')) : e' = e ∧ (j = i + hxpList.length ∨
      ∃ k x, j = i + k ∧ hxpList[k]? = some x ∧ equalExp e x = some true) := by
  induction hxpList generalizing i with
  | nil =>
    obtain ⟨rfl, rfl⟩ := Prod.mk.inj (Option.some.inj hf)
    exact ⟨rfl, Or.inl rfl⟩
  | cons si hxpList ih =>
    unfold findExp at hf
    cases heq : equalExp e si with
    | none =>
      rw [heq] at hf
      cases hf
    | some b =>
      rw [heq] at hf
      have hrest : findExp hxpList (i + 1) e = some (j, e') → e' = e ∧
          (j = i + (si :: hxpList).length ∨
            ∃ k x, j = i + k ∧ (si :: hxpList)[k]? = some x ∧ equalExp e x = some true) := by
        intro hj
        obtain ⟨he', hend | ⟨k, x, hk, hx, hex⟩⟩ := ih hj
        · exact ⟨he', Or.inl (by rw [List.length_cons]; omega)⟩
        · exact ⟨he', Or.inr ⟨k + 1, x, by omega, hx, hex⟩⟩
      cases b with
      | false => exact hrest hf
      | true =>
        have hmem : otherMember e si = false := by
          cases e with
          | callExp => exact absurd trivial h
          | _ => rfl
        simp only [Option.bind_eq_bind, Option.bind_some, if_true, hmem, Bool.false_eq_true,
          if_false] at hf
        obtain ⟨rfl, rfl⟩ := Prod.mk.inj (Option.some.inj hf)
        exact ⟨rfl, Or.inr ⟨0, si, rfl, rfl, heq⟩⟩

theorem sharesRight_of (h : ¬ Compound e) : SharesRight e := by
  intro hxpList i hxpList' hc happ
  unfold appendExp2HxpList at happ
  cases hf : findExp hxpList 0 e with
  | none =>
    rw [hf] at happ
    cases happ
  | some r =>
    obtain ⟨j, e'⟩ := r
    rw [hf] at happ
    obtain ⟨rfl, hj⟩ := findExp_spec h hf
    simp only [Option.bind_eq_bind, Option.bind_some, Nat.zero_add] at happ hj
    rcases hj with rfl | ⟨k, x, hjk, hx, hex⟩
    · rw [if_pos (Nat.le_refl _)] at happ
      obtain ⟨rfl, rfl⟩ := Prod.mk.inj (Option.some.inj happ)
      exact ⟨e', by simp, rfl⟩
    · have hk : k < hxpList.length := by
        rw [List.getElem?_eq_some_iff] at hx
        exact hx.1
      rw [← hjk] at hx hk
      rw [if_neg (by omega)] at happ
      obtain ⟨rfl, rfl⟩ := Prod.mk.inj (Option.some.inj happ)
      refine ⟨x, hx, equalExp_sound h (hc.subset ?_) hex⟩
      intro n hn
      rcases List.mem_append.mp hn with hn | hn
      · exact List.mem_append_left _ hn
      · exact List.mem_append_right _
          (List.mem_flatMap.mpr ⟨x, List.mem_of_getElem? hx, hn⟩)

theorem not_sharesRight (h : Compound e) (hargs : TypedArgs e) (hc : Consistent e.cells) :
    ¬ SharesRight e := by
  intro hs
  obtain ⟨q, hq⟩ := exists_fresh e.cells
  have heq := equalExp_blur h hargs (addr_ne_fresh hq)
  have hmem : otherMember e (e.blur q) = false := by
    cases e <;> simp [Exp.blur, otherMember]
  have happ : appendExp2HxpList [e.blur q] e = some (0, [e.blur q]) := by
    have hf : findExp [e.blur q] 0 e = some (0, e) := by
      unfold findExp
      rw [heq, hmem]
      rfl
    unfold appendExp2HxpList
    rw [hf]
    rfl
  obtain ⟨x, hx, hsame⟩ := hs [e.blur q] 0 [e.blur q]
    (by simpa using blur_consistent h hc hq) happ
  obtain rfl : e.blur q = x := Option.some.inj hx
  exact blur_not_same h hsame

end Heads

/-- An expression is identified with exactly the equal ones if and only if it is an atom; the
rewriter uses another column for it in some list exactly if it is an operator or a call. -/
theorem equalExp_faithful_iff (e : Exp Nat) (hc : Consistent e.cells) (hargs : TypedArgs e) :
    (Faithful e ↔ Atomic e) ∧ (SharesRight e ↔ ¬ Compound e) := by
  refine ⟨⟨?_, Atomic.faithful⟩, ⟨?_, sharesRight_of⟩⟩
  · intro h
    by_contra ha
    obtain ⟨q, hq⟩ := exists_fresh e.cells
    by_cases hcomp : Compound e
    · have heq := equalExp_blur hcomp hargs (addr_ne_fresh hq)
      exact blur_not_same hcomp ((h _ (blur_consistent hcomp hc hq)).1.mp heq)
    · have hn : e ≠ .null := by
        rintro rfl
        exact ha trivial
      exact equalExp_move ha hcomp (addr_ne_fresh hq)
        ((h _ (move_consistent hn hc hq)).1.mpr (move_same q e))
  · intro h hcomp
    exact not_sharesRight hcomp hargs hc h

/-- `a + b` -/
def sumOf (p : Nat) (b : Symbol) : Exp Nat :=
  .opExp p .plus (.varExp 1 (.simple "a")) (.varExp (p + 1) (.simple b))

theorem sumOf_cells (p : Nat) (b : Symbol) : (sumOf p b).cells =
    [.exp (sumOf p b), .exp (.varExp 1 (.simple "a")), .exp (.varExp (p + 1) (.simple b))] := rfl

theorem sumOf_consistent : Consistent (sumOf 2 "b").cells := by
  rw [sumOf_cells]
  intro n hn n' hn' h
  simp only [List.mem_cons, List.not_mem_nil, or_false] at hn hn'
  rcases hn with rfl | rfl | rfl <;> rcases hn' with rfl | rfl | rfl <;>
    first | rfl | (exfalso; revert h; decide)

theorem equalExp_faithful_sum :
    (Faithful (sumOf 2 "b") ↔ Atomic (sumOf 2 "b")) ∧
      (SharesRight (sumOf 2 "b") ↔ ¬ Compound (sumOf 2 "b")) :=
  equalExp_faithful_iff (sumOf 2 "b") sumOf_consistent trivial

/-- `a + c` is taken for `a + b`. -/
theorem equalExp_misses_operand :
    ¬ ∀ e : Exp Nat, Consistent e.cells → TypedArgs e → Faithful e ∧ SharesRight e := by
  intro h
  have hb := (h (sumOf 2 "b") sumOf_consistent trivial).1
  have hc : Consistent ((sumOf 2 "b").cells ++ (sumOf 4 "c").cells) := by
    rw [sumOf_cells, sumOf_cells]
    intro n hn n' hn' h
    simp only [List.cons_append, List.nil_append, List.mem_cons, List.not_mem_nil, or_false]
      at hn hn'
    rcases hn with rfl | rfl | rfl | rfl | rfl | rfl <;>
      rcases hn' with rfl | rfl | rfl | rfl | rfl | rfl <;>
      first | rfl | (exfalso; revert h; decide)
  have hsame := (hb (sumOf 4 "c") hc).1.mp (by decide +kernel)
  simp [Same, Exp.shape, sumOf, Exp.change] at hsame

end StreamMill.Absyn
