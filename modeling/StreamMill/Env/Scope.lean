import StreamMill.Env.Table
import StreamMill.Lib.Scopes
import Mathlib.Tactic.Common

/-!
# StreamMill.Env.Scope

The scopes of `symbol.cc`: a scope begins with an entry for the mark, and its end takes entries off
up to that one. `rows` are the entries of an environment with scopes; every operation of the source
is that of the environment (`run_eq`), and what is visible after a run can be read off the run alone
(`openBindings`).
-/

namespace StreamMill.Env

open Lib (Scopes)

abbrev Mark := { mark : Ptr // mark ≠ 0 }

abbrev SSymbol (mark : Mark) := { sym : Ptr // sym ≠ 0 ∧ sym ≠ mark }

variable {mark : Mark}

def maxStrLen : Nat := 40960

def sEmpty : TabTable := tabEmpty

def sEnter (t : TabTable) (sym : SSymbol mark) (value : Ptr) : Except Fault TabTable :=
  tabEnter t sym value

def sLook (t : TabTable) (sym : SSymbol mark) : Except Fault Ptr := tabLook t sym

def sBeginScope (mark : Mark) (t : TabTable) : Except Fault TabTable := tabEnter t mark 0

def sEndScope (mark : Mark) (t : TabTable) : Except Fault TabTable :=
  match _h : tabPop t with
  | .error e => .error e
  | .ok ((s, _), t') => if s ≠ mark then sEndScope mark t' else .ok t'
termination_by (t.size, 0)
decreasing_by exact Prod.Lex.left _ _ (tabPop_size _h)

def sDump (t : TabTable) : Except Fault (List (Ptr × Ptr) × TabTable) := tabDump t

/-- The first loop of `S_swapScope`: the innermost scope goes into the buffer, the end of which is
the head of the list. -/
def saveScope (mark : Mark) (t : TabTable) (buf : List (Ptr × Ptr)) :
    Except Fault (List (Ptr × Ptr) × TabTable) :=
  match _h : tabPop t with
  | .error e => .error e
  | .ok (e, t') =>
    if maxStrLen < 2 * (buf.length + 1) then .error .overflow
    else if e.1 ≠ mark then saveScope mark t' (e :: buf)
    else .ok (e :: buf, t')
termination_by (t.size, 0)
decreasing_by exact Prod.Lex.left _ _ (tabPop_size _h)

def sSwapScope (mark : Mark) (t : TabTable) : Except Fault TabTable :=
  match saveScope mark t [] with
  | .error e => .error e
  | .ok (buf, t) =>
    match sEndScope mark t with
    | .error e => .error e
    | .ok t => buf.foldlM (fun t e => tabEnter t e.1 e.2) t

section Loops

variable {es : List (Ptr × Ptr)} {value : Ptr}

def symRows (scope : List (SSymbol mark × Ptr)) : List (Ptr × Ptr) :=
  scope.map (Prod.map Subtype.val id)

theorem sEndScope_eq (t : TabTable) : sEndScope mark t =
    match tabPop t with
    | .error e => .error e
    | .ok ((s, _), t') => if s ≠ mark then sEndScope mark t' else .ok t' := by
  rw [sEndScope]
  split <;> next h => rw [h]

theorem sEndScope_tableOf (scope : List (SSymbol mark × Ptr)) :
    sEndScope mark (tableOf (symRows scope ++ (mark.val, value) :: es)) = .ok (tableOf es) := by
  induction scope with
  | nil =>
    rw [sEndScope_eq, symRows, List.map_nil, List.nil_append, tabPop_tableOf mark.2]
    simp
  | cons e scope ih =>
    obtain ⟨sym, v⟩ := e
    rw [sEndScope_eq, symRows, List.map_cons, List.cons_append, Prod.map, tabPop_tableOf sym.2.1]
    dsimp only
    rw [if_pos sym.2.2]
    exact ih

theorem saveScope_eq (t : TabTable) (buf : List (Ptr × Ptr)) : saveScope mark t buf =
    match tabPop t with
    | .error e => .error e
    | .ok (e, t') =>
      if maxStrLen < 2 * (buf.length + 1) then .error .overflow
      else if e.1 ≠ mark then saveScope mark t' (e :: buf)
      else .ok (e :: buf, t') := by
  rw [saveScope]
  split <;> next h => rw [h]

theorem saveScope_tableOf (scope : List (SSymbol mark × Ptr)) (buf : List (Ptr × Ptr)) :
    saveScope mark (tableOf (symRows scope ++ (mark.val, value) :: es)) buf =
      if maxStrLen < 2 * (buf.length + scope.length + 1) then .error .overflow
      else .ok ((mark.val, value) :: (symRows scope).reverse ++ buf, tableOf es) := by
  induction scope generalizing buf with
  | nil =>
    rw [saveScope_eq, symRows, List.map_nil, List.nil_append, tabPop_tableOf mark.2]
    simp
  | cons e scope ih =>
    obtain ⟨sym, v⟩ := e
    rw [saveScope_eq, symRows, List.map_cons, List.cons_append, Prod.map, tabPop_tableOf sym.2.1]
    dsimp only
    have hlen : ((sym.val, id v) :: buf).length + scope.length + 1 =
        buf.length + ((sym, v) :: scope).length + 1 := by
      simp only [List.length_cons]
      omega
    by_cases hfull : maxStrLen < 2 * (buf.length + 1)
    · rw [if_pos hfull, if_pos (by omega)]
    · rw [if_neg hfull, if_pos sym.2.2]
      refine (ih _).trans ?_
      rw [hlen]
      simp [symRows]

theorem enterAll_tableOf {buf : List (Ptr × Ptr)} (hbuf : ∀ e ∈ buf, e.1 ≠ 0) :
    buf.foldlM (fun t e => tabEnter t e.1 e.2) (tableOf es) =
      .ok (tableOf (buf.reverse ++ es)) := by
  induction buf generalizing es with
  | nil => rfl
  | cons e buf ih =>
    rw [List.foldlM_cons, tabEnter_tableOf (hbuf _ List.mem_cons_self)]
    refine (ih fun e he => hbuf e (List.mem_cons_of_mem _ he)).trans ?_
    rw [List.reverse_cons, List.append_assoc]
    rfl

end Loops

section Rows

/-- The entries of an environment: a mark stands where a scope began. -/
def rows (s : Scopes (SSymbol mark) Ptr) : List (Ptr × Ptr) :=
  symRows s.inner ++ s.outer.flatMap fun scope => (mark.val, 0) :: symRows scope

def table (s : Scopes (SSymbol mark) Ptr) : TabTable := tableOf (rows s)

variable {s : Scopes (SSymbol mark) Ptr} {sym : SSymbol mark} {value : Ptr}

theorem rows_cons (inner scope : List (SSymbol mark × Ptr))
    (outer : List (List (SSymbol mark × Ptr))) :
    rows ⟨inner, scope :: outer⟩ = symRows inner ++ (mark.val, 0) :: rows ⟨scope, outer⟩ := rfl

theorem sEmpty_eq (mark : Mark) : sEmpty = table (.empty : Scopes (SSymbol mark) Ptr) := tabEmpty_eq

theorem sEnter_table : sEnter (table s) sym value = .ok (table (s.enter sym value)) :=
  tabEnter_tableOf sym.2.1

theorem sBeginScope_table : sBeginScope mark (table s) = .ok (table s.beginScope) :=
  tabEnter_tableOf mark.2

theorem sEndScope_table {s' : Scopes (SSymbol mark) Ptr} (h : s.endScope = some s') :
    sEndScope mark (table s) = .ok (table s') := by
  obtain ⟨inner, _ | ⟨c, cs⟩⟩ := s
  · cases h
  · obtain rfl := Option.some.inj h
    exact sEndScope_tableOf inner

theorem sDump_table : sDump (table s) = .ok (rows s, table s) := tabDump_tableOf

theorem lookup_symRows (scope : List (SSymbol mark × Ptr)) (es : List (Ptr × Ptr)) :
    (symRows scope ++ es).lookup sym.val = (scope.lookup sym).or (es.lookup sym.val) := by
  induction scope with
  | nil => rfl
  | cons e scope ih =>
    obtain ⟨k, v⟩ := e
    rw [symRows, List.map_cons, List.cons_append, Prod.map, List.lookup_cons, List.lookup_cons]
    by_cases hk : sym = k
    · subst hk
      simp
    · have hne : (sym.val == k.val) = false := by
        rw [beq_eq_false_iff_ne]
        exact fun he => hk (Subtype.ext he)
      rw [hne, beq_eq_false_iff_ne.mpr hk]
      exact ih

theorem lookup_rows : (rows s).lookup sym.val = s.look sym := by
  obtain ⟨inner, outer⟩ := s
  rw [rows, lookup_symRows, Scopes.look, Scopes.bindings, List.lookup_append]
  congr 1
  induction outer with
  | nil => rfl
  | cons scope outer ih =>
    have hne : (sym.val == mark.val) = false := beq_eq_false_iff_ne.mpr sym.2.2
    rw [List.flatMap_cons, List.cons_append, List.lookup_cons, hne]
    refine (lookup_symRows scope _).trans ?_
    rw [List.flatten_cons, List.lookup_append]
    exact congrArg _ ih

theorem sLook_table : sLook (table s) sym = .ok ((s.look sym).getD 0) := by
  rw [sLook, table, tabLook_tableOf sym.2.1, lookup_rows]

end Rows

section Run

inductive Op (mark : Mark)
  | beginScope
  | enter (sym : SSymbol mark) (value : Ptr)
  | endScope
  | dump

def step (t : TabTable) : Op mark → Except Fault TabTable
  | .beginScope => sBeginScope mark t
  | .enter sym value => sEnter t sym value
  | .endScope => sEndScope mark t
  | .dump => (sDump t).map Prod.snd

def run (t : TabTable) (ops : List (Op mark)) : Except Fault TabTable := ops.foldlM step t

/-- How many scopes are open after the operations; `none` if one ends that has not begun. -/
def depth : Nat → List (Op mark) → Option Nat
  | d, [] => some d
  | d, .beginScope :: ops => depth (d + 1) ops
  | 0, .endScope :: _ => none
  | d + 1, .endScope :: ops => depth d ops
  | d, .enter _ _ :: ops => depth d ops
  | d, .dump :: ops => depth d ops

def Nested (ops : List (Op mark)) : Prop := (depth 0 ops).isSome

def Balanced (ops : List (Op mark)) : Prop := depth 0 ops = some 0

/-- The bindings made in a scope that is still open, from the last operation back: what lies between
the end of a scope and its beginning is skipped. -/
def openBack : Nat → List (Op mark) → List (SSymbol mark × Ptr)
  | _, [] => []
  | n, .endScope :: ops => openBack (n + 1) ops
  | 0, .beginScope :: ops => openBack 0 ops
  | n + 1, .beginScope :: ops => openBack n ops
  | 0, .enter sym value :: ops => (sym, value) :: openBack 0 ops
  | n + 1, .enter _ _ :: ops => openBack (n + 1) ops
  | n, .dump :: ops => openBack n ops

def openBindings (ops : List (Op mark)) : List (SSymbol mark × Ptr) := openBack 0 ops.reverse

def scopesStep (s : Scopes (SSymbol mark) Ptr) : Op mark → Option (Scopes (SSymbol mark) Ptr)
  | .beginScope => some s.beginScope
  | .enter sym value => some (s.enter sym value)
  | .endScope => s.endScope
  | .dump => some s

variable {s s' : Scopes (SSymbol mark) Ptr} {ops : List (Op mark)} {op : Op mark}

theorem step_table (h : scopesStep s op = some s') : step (table s) op = .ok (table s') := by
  cases op with
  | beginScope =>
    obtain rfl := Option.some.inj h
    exact sBeginScope_table
  | enter sym value =>
    obtain rfl := Option.some.inj h
    exact sEnter_table
  | endScope => exact sEndScope_table h
  | dump =>
    obtain rfl := Option.some.inj h
    rw [step, sDump_table]
    rfl

theorem run_table (h : ops.foldlM scopesStep s = some s') :
    run (table s) ops = .ok (table s') := by
  induction ops generalizing s with
  | nil =>
    obtain rfl := Option.some.inj h
    rfl
  | cons op ops ih =>
    obtain ⟨s₁, hs₁, h⟩ := Option.bind_eq_some_iff.mp h
    rw [run, List.foldlM_cons, step_table hs₁]
    exact ih h

theorem scopes_run (inner : List (SSymbol mark × Ptr)) (opened : List (List (SSymbol mark × Ptr)))
    {d : Nat} (h : depth opened.length ops = some d) :
    ∃ inner' opened', opened'.length = d ∧ ∀ base,
      ops.foldlM scopesStep ⟨inner, opened ++ base⟩ = some ⟨inner', opened' ++ base⟩ := by
  induction ops generalizing inner opened with
  | nil => exact ⟨inner, opened, Option.some.inj h, fun _ => rfl⟩
  | cons op ops ih =>
    cases op with
    | beginScope => exact ih [] (inner :: opened) h
    | enter sym value => exact ih ((sym, value) :: inner) opened h
    | dump => exact ih inner opened h
    | endScope =>
      cases opened with
      | nil => cases h
      | cons c cs => exact ih c cs h

theorem outside_step (h : scopesStep s op = some s') (n : Nat) (back : List (Op mark))
    (hback : ∀ n, s.outside n = openBack n back) : s'.outside n = openBack n (op :: back) := by
  cases op with
  | beginScope =>
    obtain rfl := Option.some.inj h
    cases n with
    | zero => exact hback 0
    | succ n => exact hback n
  | enter sym value =>
    obtain rfl := Option.some.inj h
    cases n with
    | zero =>
      rw [openBack, ← hback 0]
      rfl
    | succ n => exact hback (n + 1)
  | endScope =>
    rw [Scopes.outside_endScope h, hback, openBack]
  | dump =>
    obtain rfl := Option.some.inj h
    exact (hback n).trans (by rw [openBack])

theorem outside_run (h : ops.foldlM scopesStep .empty = some s) (n : Nat) :
    s.outside n = openBack n ops.reverse := by
  induction ops using List.reverseRecOn generalizing s n with
  | nil =>
    obtain rfl := Option.some.inj h
    cases n <;> simp [Scopes.outside, Scopes.empty, openBack]
  | append_singleton ops op ih =>
    rw [List.foldlM_append] at h
    obtain ⟨s₁, hs₁, h⟩ := Option.bind_eq_some_iff.mp h
    obtain ⟨s₂, hs₂, h⟩ := Option.bind_eq_some_iff.mp h
    obtain rfl := Option.some.inj h
    rw [List.reverse_append]
    exact outside_step hs₂ n _ (ih hs₁)

/-- A run of nested operations ends, the latest binding of an open scope is found, and where the
last operation ends a scope, the table is the one before that scope began. -/
theorem nested_run (ops : List (Op mark)) (hops : Nested ops) :
    ∃ t, run sEmpty ops = .ok t ∧
      (∀ sym, sLook t sym = .ok (((openBindings ops).lookup sym).getD 0)) ∧
      (∃ shown, sDump t = .ok (shown, t)) ∧
      ∀ pre body, ops = pre ++ .beginScope :: body ++ [.endScope] → Balanced body →
        run sEmpty pre = .ok t := by
  obtain ⟨d, hd⟩ := Option.isSome_iff_exists.mp hops
  obtain ⟨inner, opened, -, hs⟩ := scopes_run [] [] hd
  replace hs := hs []
  rw [sEmpty_eq mark]
  refine ⟨_, run_table hs, fun sym => ?_, ⟨_, sDump_table⟩, ?_⟩
  · rw [sLook_table, Scopes.look, ← Scopes.outside_zero, outside_run hs, openBindings]
  · rintro pre body rfl hbody
    rw [List.append_assoc, List.foldlM_append] at hs
    obtain ⟨s, hpre, hs⟩ := Option.bind_eq_some_iff.mp hs
    refine (run_table hpre).trans ?_
    obtain ⟨inner', opened', hnil, hrun⟩ := scopes_run [] [] hbody
    replace hrun := hrun (s.inner :: s.outer)
    rw [List.length_eq_zero_iff.mp hnil] at hrun
    rw [List.cons_append, List.foldlM_cons] at hs
    obtain ⟨s₁, hbegin, hs⟩ := Option.bind_eq_some_iff.mp hs
    obtain rfl := Option.some.inj hbegin
    rw [List.foldlM_append] at hs
    obtain ⟨s₂, hs₂, hs⟩ := Option.bind_eq_some_iff.mp hs
    obtain rfl := Option.some.inj (hrun.symm.trans hs₂)
    rw [← Option.some.inj hs]

/-- Two symbols of one bucket, and a binding in a scope that hides one outside. -/
theorem nested_run_hidden :
    ∃ (a b : SSymbol ⟨1, by decide⟩) (t : TabTable), tabIndex a = tabIndex b ∧
      run sEmpty [.enter a 4, .beginScope, .enter b 5, .enter a 6, .endScope] = .ok t ∧
      run sEmpty [Op.enter a 4] = .ok t ∧ sLook t a = .ok 4 := by
  obtain ⟨t, hrun, hlook, -, hend⟩ := @nested_run ⟨1, by decide⟩
    [.enter ⟨2, by decide⟩ 4, .beginScope, .enter ⟨129, by decide⟩ 5, .enter ⟨2, by decide⟩ 6,
      .endScope] rfl
  refine ⟨_, _, t, by decide, hrun, hend _ [_, _] rfl rfl, ?_⟩
  rw [hlook]
  rfl

end Run

end StreamMill.Env
