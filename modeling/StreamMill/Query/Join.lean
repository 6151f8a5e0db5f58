import StreamMill.Lib.Routine
import Mathlib.Logic.Function.Basic
import Mathlib.Algebra.Order.Ring.Int
import Mathlib.Tactic.Ring

/-!
# StreamMill.Query.Join

The nested-loop join that `transSelOpr` generates for two or more FROM items: a `while` loop
around a `switch` on `index`, and a `goto next` for each predicate that fails. `Pending` says which
combinations are still to come; the loop keeps them, a call takes the first one that meets the
predicates (`getTuple_pending`), and `join_calls` is about any number of calls.
-/

namespace StreamMill.Query

open Lib

inductive Rc
  | ok
  | notFound
  deriving DecidableEq

section Automaton

variable {σ : Type}

/-- `while (index>=0 && index<n) { switch (index) ... }`, with the value of `rc` after it. -/
def whileIndex (quns : List (σ → Rc × σ)) : Nat → Rc → Int → σ → Option (Rc × Int × σ)
  | 0, _, _, _ => none
  | fuel + 1, rc, index, env =>
    if h : 0 ≤ index ∧ index < quns.length then
      match quns.get ⟨index.toNat, by omega⟩ env with
      | (.ok, env) => whileIndex quns fuel .ok (index + 1) env
      | (.notFound, env) => whileIndex quns fuel .notFound (index - 1) env
    else some (rc, index, env)

structure Sel (σ : Type) where
  index : Int
  env : σ

/-- From the label `next`: the loop, the correction of `index`, and the predicates. -/
def selNext (quns : List (σ → Rc × σ)) (prds : List (σ → Bool)) :
    Nat → Sel σ → Option (Rc × Sel σ)
  | 0, _ => none
  | fuel + 1, s =>
    match whileIndex quns (fuel + 1) .ok s.index s.env with
    | none => none
    | some (.notFound, index, env) => some (.notFound, ⟨index + 1, env⟩)
    | some (.ok, index, env) =>
      if prds.all fun prd => prd env then some (.ok, ⟨index - 1, env⟩)
      else selNext quns prds fuel ⟨index - 1, env⟩

/-- The predicates that do not depend on the FROM items come first. -/
def selOpr (precomputed : List Bool) (quns : List (σ → Rc × σ)) (prds : List (σ → Bool))
    (fuel : Nat) (s : Sel σ) : Option (Rc × Sel σ) :=
  if precomputed.all id then selNext quns prds fuel s else some (.notFound, s)

end Automaton

section BaseQun

variable {α : Type}

structure Env (α : Type) where
  firstEntry : Nat → Bool
  cursor : Nat → Nat
  tuple : Nat → α

/-- The tuples that the items before item `i` stand on. -/
def Env.before (env : Env α) (i : Nat) : List α := (List.range i).map env.tuple

/-- Item `i` yields `tuples`, which may depend on the items before it. On the first entry the cursor
is set on the first of them, later on the next one. -/
def transBaseQun (tuples : List α → List α) (i : Nat) (env : Env α) : Rc × Env α :=
  let pos := if env.firstEntry i then 0 else env.cursor i + 1
  match (tuples (env.before i))[pos]? with
  | some t =>
    (.ok, { firstEntry := Function.update env.firstEntry i false
            cursor := Function.update env.cursor i pos
            tuple := Function.update env.tuple i t })
  | none => (.notFound, { env with firstEntry := Function.update env.firstEntry i true })

/-- The cursors and the tuple variables are not initialised. -/
def selInit (cursor : Nat → Nat) (tuple : Nat → α) : Sel (Env α) :=
  ⟨0, ⟨fun _ => true, cursor, tuple⟩⟩

/-- The routines of the `switch`. -/
def baseQuns (from_ : List (List α → List α)) : List (Env α → Rc × Env α) :=
  from_.mapIdx fun i tuples => transBaseQun tuples i

def predicates (n : Nat) (prds : List (List α → Bool)) : List (Env α → Bool) :=
  prds.map fun prd env => prd (env.before n)

/-- A call of the generated code: the current tuples, or `none` for `DB_NOTFOUND`. -/
def getTuple (from_ : List (List α → List α)) (precomputed : List Bool)
    (prds : List (List α → Bool)) (fuel : Nat) (s : Sel (Env α)) :
    Option (Option (List α) × Sel (Env α)) :=
  (selOpr precomputed (baseQuns from_) (predicates from_.length prds) fuel s).map fun r =>
    (match r.1 with
      | .ok => some (r.2.env.before from_.length)
      | .notFound => none, r.2)

end BaseQun

/-- The combinations in lexicographic order, with `pre` chosen for the items before. -/
def combinations {α : Type} : List (List α → List α) → List α → List (List α)
  | [], pre => [pre]
  | tuples :: quns, pre => (tuples pre).flatMap fun t => combinations quns (pre ++ [t])

section Pending

variable {α : Type} (from_ : List (List α → List α))

/-- The tuples that item `i` has still to yield. -/
def rest (env : Env α) (i : Nat) : List α :=
  (from_.getD i (fun _ => []) (env.before i)).drop
    (if env.firstEntry i then 0 else env.cursor i + 1)

/-- The combinations still to come from the items below `i`. -/
def pending (env : Env α) : Nat → List (List α)
  | 0 => []
  | i + 1 =>
    ((rest from_ env i).flatMap fun t => combinations (from_.drop (i + 1)) (env.before i ++ [t])) ++
      pending env i

/-- The number of cursor calls that list the combinations of `from_`. -/
def work : List (List α → List α) → List α → Nat
  | [], _ => 0
  | tuples :: quns, pre => 1 + ((tuples pre).map fun t => 1 + work quns (pre ++ [t])).sum

def pendingWork (env : Env α) : Nat → Nat
  | 0 => 0
  | i + 1 =>
    1 + ((rest from_ env i).map fun t => 1 + work (from_.drop (i + 1)) (env.before i ++ [t])).sum +
      pendingWork env i

variable {from_} {env env' : Env α} {i : Nat}

theorem pending_succ (env : Env α) (i : Nat) :
    pending from_ env (i + 1) =
      ((rest from_ env i).flatMap fun t =>
        combinations (from_.drop (i + 1)) (env.before i ++ [t])) ++ pending from_ env i := rfl

theorem pendingWork_succ (env : Env α) (i : Nat) :
    pendingWork from_ env (i + 1) =
      1 + ((rest from_ env i).map fun t =>
        1 + work (from_.drop (i + 1)) (env.before i ++ [t])).sum + pendingWork from_ env i := rfl

def AgreeBelow (i : Nat) (env env' : Env α) : Prop :=
  ∀ j < i, env'.firstEntry j = env.firstEntry j ∧ env'.cursor j = env.cursor j ∧
    env'.tuple j = env.tuple j

theorem AgreeBelow.before_eq (h : AgreeBelow i env env') : env'.before i = env.before i := by
  refine List.map_congr_left fun j hj => ?_
  exact (h j (List.mem_range.mp hj)).2.2

theorem AgreeBelow.of_succ (h : AgreeBelow (i + 1) env env') : AgreeBelow i env env' :=
  fun j hj => h j (by omega)

theorem AgreeBelow.rest_eq (h : AgreeBelow (i + 1) env env') :
    rest from_ env' i = rest from_ env i := by
  obtain ⟨hf, hc, -⟩ := h i (by omega)
  unfold rest
  rw [h.of_succ.before_eq, hf, hc]

theorem AgreeBelow.pending_eq (h : AgreeBelow i env env') :
    pending from_ env' i = pending from_ env i := by
  induction i with
  | zero => rfl
  | succ i ih =>
    rw [pending_succ, pending_succ, h.rest_eq, h.of_succ.before_eq, ih h.of_succ]

theorem AgreeBelow.pendingWork_eq (h : AgreeBelow i env env') :
    pendingWork from_ env' i = pendingWork from_ env i := by
  induction i with
  | zero => rfl
  | succ i ih =>
    rw [pendingWork_succ, pendingWork_succ, h.rest_eq, h.of_succ.before_eq, ih h.of_succ]

theorem before_succ (env : Env α) (i : Nat) : env.before (i + 1) = env.before i ++ [env.tuple i] := by
  simp [Env.before, List.range_succ]

theorem rest_eq (env : Env α) (hi : i < from_.length) :
    rest from_ env i = (from_.get ⟨i, hi⟩ (env.before i)).drop
      (if env.firstEntry i then 0 else env.cursor i + 1) := by
  have hget : from_.getD i (fun _ => []) = from_.get ⟨i, hi⟩ := by simp [hi]
  unfold rest
  rw [hget]

/-- What a call of item `i` does, while every item above it is rearmed. -/
theorem transBaseQun_cases (hi : i < from_.length) (habove : ∀ j, i < j → env.firstEntry j = true) :
    (∃ t ts env', rest from_ env i = t :: ts ∧
      transBaseQun (from_.get ⟨i, hi⟩) i env = (.ok, env') ∧ AgreeBelow i env env' ∧
      env'.tuple i = t ∧ rest from_ env' i = ts ∧ ∀ j, i < j → env'.firstEntry j = true) ∨
    ∃ env', rest from_ env i = [] ∧
      transBaseQun (from_.get ⟨i, hi⟩) i env = (.notFound, env') ∧ AgreeBelow i env env' ∧
      ∀ j, i ≤ j → env'.firstEntry j = true := by
  have hrest := rest_eq env hi
  unfold transBaseQun
  dsimp only
  generalize hpos : (if env.firstEntry i = true then 0 else env.cursor i + 1) = pos at hrest ⊢
  cases hp : (from_.get ⟨i, hi⟩ (env.before i))[pos]? with
  | none =>
    refine Or.inr ⟨_, ?_, rfl, ?_, ?_⟩
    · rw [hrest]
      exact List.drop_eq_nil_of_le (List.getElem?_eq_none_iff.mp hp)
    · intro j hj
      exact ⟨Function.update_of_ne (Nat.ne_of_lt hj) _ _, rfl, rfl⟩
    · intro j hj
      show Function.update env.firstEntry i true j = true
      rcases Nat.eq_or_lt_of_le hj with rfl | hj
      · exact Function.update_self _ _ _
      · rw [Function.update_of_ne (Nat.ne_of_gt hj)]
        exact habove j hj
  | some t =>
    obtain ⟨hlt, hget⟩ := List.getElem?_eq_some_iff.mp hp
    have hagree : AgreeBelow i env
        { firstEntry := Function.update env.firstEntry i false
          cursor := Function.update env.cursor i pos
          tuple := Function.update env.tuple i t } := by
      intro j hj
      have hne : j ≠ i := Nat.ne_of_lt hj
      exact ⟨Function.update_of_ne hne _ _, Function.update_of_ne hne _ _,
        Function.update_of_ne hne _ _⟩
    refine Or.inl ⟨t, (from_.get ⟨i, hi⟩ (env.before i)).drop (pos + 1), _, ?_, rfl, hagree,
      Function.update_self _ _ _, ?_, ?_⟩
    · rw [hrest, List.drop_eq_getElem_cons hlt, hget]
    · rw [rest_eq _ hi, hagree.before_eq]
      simp
    · intro j hj
      show Function.update env.firstEntry i false j = true
      rw [Function.update_of_ne (Nat.ne_of_gt hj)]
      exact habove j hj

theorem pending_entering (hi : i < from_.length) (hf : env.firstEntry i = true) :
    pending from_ env (i + 1) =
      combinations (from_.drop i) (env.before i) ++ pending from_ env i := by
  have hrest := rest_eq env hi
  rw [hf] at hrest
  rw [pending_succ, hrest, List.drop_eq_getElem_cons hi]
  rfl

theorem pendingWork_entering (hi : i < from_.length) (hf : env.firstEntry i = true) :
    pendingWork from_ env (i + 1) =
      work (from_.drop i) (env.before i) + pendingWork from_ env i := by
  have hrest := rest_eq env hi
  rw [hf] at hrest
  rw [pendingWork_succ, hrest, List.drop_eq_getElem_cons hi]
  rfl

theorem pending_ok {t : α} {ts : List α} (hrest : rest from_ env i = t :: ts)
    (hagree : AgreeBelow i env env') (ht : env'.tuple i = t) (hrest' : rest from_ env' i = ts) :
    pending from_ env (i + 1) =
      combinations (from_.drop (i + 1)) (env'.before (i + 1)) ++ pending from_ env' (i + 1) := by
  rw [pending_succ, pending_succ, hrest, hrest', before_succ, ht, hagree.before_eq, hagree.pending_eq,
    List.flatMap_cons, List.append_assoc]

theorem pendingWork_ok {t : α} {ts : List α} (hrest : rest from_ env i = t :: ts)
    (hagree : AgreeBelow i env env') (ht : env'.tuple i = t) (hrest' : rest from_ env' i = ts) :
    pendingWork from_ env (i + 1) =
      1 + work (from_.drop (i + 1)) (env'.before (i + 1)) + pendingWork from_ env' (i + 1) := by
  rw [pendingWork_succ, pendingWork_succ, hrest, hrest', before_succ, ht, hagree.before_eq,
    hagree.pendingWork_eq, List.map_cons, List.sum_cons]
  omega

theorem combinations_drop_length (pre : List α) :
    combinations (from_.drop from_.length) pre = [pre] := by
  rw [List.drop_length]
  rfl

/-- What the `while` loop does from item `i`, while every item above it is rearmed: it leaves on
the first combination still to come, or below item `0` when there is none. -/
theorem whileIndex_spec (fuel : Nat) {i : Nat} {env : Env α} (rc : Rc) (hi : i < from_.length)
    (habove : ∀ j, i < j → env.firstEntry j = true) (hfuel : pendingWork from_ env (i + 1) < fuel) :
    (∃ env', whileIndex (baseQuns from_) fuel rc i env = some (Rc.notFound, -1, env') ∧
      pending from_ env (i + 1) = [] ∧ ∀ j, env'.firstEntry j = true) ∨
    ∃ env', whileIndex (baseQuns from_) fuel rc i env = some (Rc.ok, (from_.length : Int), env') ∧
      pending from_ env (i + 1) = env'.before from_.length :: pending from_ env' from_.length ∧
      pendingWork from_ env' from_.length < pendingWork from_ env (i + 1) ∧
      ∀ j, from_.length ≤ j → env'.firstEntry j = true := by
  induction fuel generalizing i env rc with
  | zero => omega
  | succ fuel ih =>
    have hbound : 0 ≤ (i : Int) ∧ (i : Int) < (baseQuns from_).length := by
      simp only [baseQuns, List.length_mapIdx]
      omega
    have hget : (baseQuns from_).get ⟨(i : Int).toNat, by omega⟩ =
        transBaseQun (from_.get ⟨i, hi⟩) i := by
      simp [baseQuns]
    have hok : ∀ env', transBaseQun (from_.get ⟨i, hi⟩) i env = (Rc.ok, env') →
        whileIndex (baseQuns from_) (fuel + 1) rc i env =
          whileIndex (baseQuns from_) fuel Rc.ok (i + 1) env' := by
      intro env' hcall
      rw [whileIndex, dif_pos hbound, hget, hcall]
    have hnotFound : ∀ env', transBaseQun (from_.get ⟨i, hi⟩) i env = (Rc.notFound, env') →
        whileIndex (baseQuns from_) (fuel + 1) rc i env =
          whileIndex (baseQuns from_) fuel Rc.notFound (i - 1) env' := by
      intro env' hcall
      rw [whileIndex, dif_pos hbound, hget, hcall]
    rcases transBaseQun_cases hi habove with
      ⟨t, ts, env₁, hrest, hcall, hagree, ht, hrest', habove'⟩ | ⟨env₁, hrest, hcall, hagree, habove'⟩
    · have hpend := pending_ok hrest hagree ht hrest'
      have hwork := pendingWork_ok hrest hagree ht hrest'
      rw [hok env₁ hcall]
      rcases Nat.lt_or_ge (i + 1) from_.length with hlt | hge
      · -- the next item is entered
        have hflag : env₁.firstEntry (i + 1) = true := habove' _ (Nat.lt_succ_self i)
        rw [← pending_entering hlt hflag] at hpend
        have hwork' := pendingWork_entering hlt hflag
        have hfuel' : pendingWork from_ env₁ (i + 1 + 1) < fuel := by omega
        rcases ih Rc.ok hlt (fun j hj => habove' j (by omega)) hfuel' with
          ⟨env', hrun, hnil, hflags⟩ | ⟨env', hrun, hcons, hless, hflags⟩
        · exact Or.inl ⟨env', hrun, hpend.trans hnil, hflags⟩
        · exact Or.inr ⟨env', hrun, hpend.trans hcons, by omega, hflags⟩
      · -- the last item has a tuple
        have heq : i + 1 = from_.length := by omega
        have hend : ((i : Int) + 1) = from_.length := by omega
        have hlast : combinations (from_.drop (i + 1)) (env₁.before (i + 1)) =
            [env₁.before from_.length] := by
          rw [heq, combinations_drop_length]
        rw [hlast] at hpend
        refine Or.inr ⟨env₁, ?_, ?_, ?_, fun j hj => habove' j (by omega)⟩
        cases fuel with
        | zero => omega
        | succ fuel =>
          rw [hend, whileIndex]
          simp [baseQuns]
        · rw [hpend, heq]
          rfl
        · have hlen : pendingWork from_ env₁ from_.length = pendingWork from_ env₁ (i + 1) := by
            rw [heq]
          omega
    · rw [hnotFound env₁ hcall]
      have hpend : pending from_ env (i + 1) = pending from_ env₁ i := by
        rw [pending_succ, hrest, hagree.pending_eq]
        rfl
      have hwork : pendingWork from_ env (i + 1) = 1 + pendingWork from_ env₁ i := by
        rw [pendingWork_succ, hrest, hagree.pendingWork_eq]
        rfl
      cases i with
      | zero =>
        refine Or.inl ⟨env₁, ?_, hpend, fun j => habove' j (Nat.zero_le j)⟩
        cases fuel with
        | zero => omega
        | succ fuel =>
          rw [whileIndex, dif_neg]
          · rfl
          · omega
      | succ i =>
        have hcast : ((i + 1 : Nat) : Int) - 1 = i := by omega
        rw [hcast]
        rcases ih Rc.notFound (by omega : i < from_.length) (fun j hj => habove' j (by omega))
            (by omega) with ⟨env', hrun, hnil, hflags⟩ | ⟨env', hrun, hcons, hless, hflags⟩
        · exact Or.inl ⟨env', hrun, hpend.trans hnil, hflags⟩
        · exact Or.inr ⟨env', hrun, hpend.trans hcons, by omega, hflags⟩

/-- The automaton stands where it can be called, with the combinations `todo` still to come and
no more cursor calls than `bound`. -/
structure Ready (from_ : List (List α → List α)) (bound : Nat) (todo : List (List α))
    (s : Sel (Env α)) : Prop where
  index : 0 ≤ s.index
  index_lt : s.index < from_.length
  above : ∀ j, s.index.toNat < j → s.env.firstEntry j = true
  pending_eq : pending from_ s.env (s.index.toNat + 1) = todo
  work_le : pendingWork from_ s.env (s.index.toNat + 1) ≤ bound

variable {bound : Nat} {todo : List (List α)} {s : Sel (Env α)}

theorem Ready.loop (h : Ready from_ bound todo s) {fuel : Nat} (hfuel : bound < fuel) :
    (∃ env', whileIndex (baseQuns from_) fuel .ok s.index s.env = some (Rc.notFound, -1, env') ∧
      todo = [] ∧ ∀ j, env'.firstEntry j = true) ∨
    ∃ env' todo', whileIndex (baseQuns from_) fuel .ok s.index s.env =
        some (Rc.ok, (from_.length : Int), env') ∧
      todo = env'.before from_.length :: todo' ∧
      ∃ bound' < bound, Ready from_ bound' todo' ⟨from_.length - 1, env'⟩ := by
  obtain ⟨index, env⟩ := s
  obtain ⟨h0, hlt, habove, hpend, hwork⟩ := h
  obtain ⟨i, rfl⟩ := Int.eq_ofNat_of_zero_le h0
  dsimp only [Int.toNat_natCast] at habove hpend hwork hlt
  rcases whileIndex_spec fuel Rc.ok (by omega : i < from_.length) habove (by omega) with
    ⟨env', hrun, hnil, hflags⟩ | ⟨env', hrun, hcons, hless, hflags⟩
  · exact Or.inl ⟨env', hrun, hpend.symm.trans hnil, hflags⟩
  · have hlast : ((from_.length : Int) - 1).toNat + 1 = from_.length := by omega
    refine Or.inr ⟨env', _, hrun, hpend.symm.trans hcons,
      pendingWork from_ env' from_.length, by omega, ?_⟩
    exact
      { index := by dsimp only; omega
        index_lt := by dsimp only; omega
        above := fun j hj => hflags j (by dsimp only at hj; omega)
        pending_eq := by rw [hlast]
        work_le := by rw [hlast] }

theorem Ready.weaken {bound' : Nat} (h : Ready from_ bound todo s) (hle : bound ≤ bound') :
    Ready from_ bound' todo s :=
  { h with work_le := Nat.le_trans h.work_le hle }

theorem ready_init (hne : from_ ≠ []) {env : Env α} (hflags : ∀ j, env.firstEntry j = true) :
    Ready from_ (work from_ []) (combinations from_ []) ⟨0, env⟩ := by
  have hpos : 0 < from_.length := List.length_pos_iff.mpr hne
  have hpend := pending_entering hpos (hflags 0)
  have hwork := pendingWork_entering hpos (hflags 0)
  refine ⟨Int.le_refl 0, by simpa using hpos, fun j _ => hflags j, ?_, ?_⟩
  · rw [show (0 : Int).toNat + 1 = 0 + 1 from rfl, hpend]
    exact List.append_nil _
  · rw [show (0 : Int).toNat + 1 = 0 + 1 from rfl, hwork]
    exact Nat.le_refl _

end Pending

section Calls

variable {α : Type} {from_ : List (List α → List α)} {prds : List (List α → Bool)}
  {bound : Nat} {todo : List (List α)} {s : Sel (Env α)}

def meets (prds : List (List α → Bool)) (c : List α) : Bool := prds.all fun prd => prd c

theorem predicates_all (n : Nat) (env : Env α) :
    ((predicates n prds).all fun prd => prd env) = meets prds (env.before n) := by
  simp [predicates, meets, List.all_map, Function.comp_def]

theorem selNext_ready (h : Ready from_ bound todo s) {fuel : Nat} (hfuel : bound < fuel) :
    (todo.filter (meets prds) = [] ∧
      ∃ env, selNext (baseQuns from_) (predicates from_.length prds) fuel s =
        some (.notFound, ⟨0, env⟩) ∧ ∀ j, env.firstEntry j = true) ∨
    ∃ s' todo', selNext (baseQuns from_) (predicates from_.length prds) fuel s = some (.ok, s') ∧
      todo.filter (meets prds) =
        s'.env.before from_.length :: todo'.filter (meets prds) ∧
      Ready from_ bound todo' s' := by
  induction fuel generalizing bound todo s with
  | zero => omega
  | succ fuel ih =>
    rcases h.loop hfuel with ⟨env', hrun, hnil, hflags⟩ | ⟨env', todo', hrun, hcons, b, hb, hready⟩
    · subst hnil
      refine Or.inl ⟨rfl, env', ?_, hflags⟩
      rw [selNext, hrun]
      rfl
    · subst hcons
      by_cases hp : meets prds (env'.before from_.length) = true
      · refine Or.inr ⟨_, todo', ?_, ?_, hready.weaken (Nat.le_of_lt hb)⟩
        · rw [selNext, hrun]
          dsimp only
          rw [predicates_all, if_pos hp]
        · exact List.filter_cons_of_pos hp
      · have hnext : selNext (baseQuns from_) (predicates from_.length prds) (fuel + 1) s =
            selNext (baseQuns from_) (predicates from_.length prds) fuel
              ⟨from_.length - 1, env'⟩ := by
          rw [selNext, hrun]
          dsimp only
          rw [predicates_all, if_neg hp]
        rw [hnext, List.filter_cons_of_neg hp]
        rcases ih hready (by omega) with hend | ⟨s', todo'', hrun', hfilter, hready'⟩
        · exact Or.inl hend
        · exact Or.inr ⟨s', todo'', hrun', hfilter, hready'.weaken (Nat.le_of_lt hb)⟩

def rows (from_ : List (List α → List α)) (precomputed : List Bool) (prds : List (List α → Bool)) :
    List (List α) :=
  if precomputed.all id then (combinations from_ []).filter (meets prds) else []

/-- What `getTuple` keeps: with the precomputed predicates false nothing is still to come. -/
def Left (from_ : List (List α → List α)) (precomputed : List Bool) (prds : List (List α → Bool))
    (left : List (List α)) (s : Sel (Env α)) : Prop :=
  if precomputed.all id then
    ∃ todo, Ready from_ (work from_ []) todo s ∧ todo.filter (meets prds) = left
  else left = []

theorem left_init (hne : from_ ≠ []) (precomputed : List Bool) {env : Env α}
    (hflags : ∀ j, env.firstEntry j = true) :
    Left from_ precomputed prds (rows from_ precomputed prds) ⟨0, env⟩ := by
  unfold Left rows
  split
  · exact ⟨_, ready_init hne hflags, rfl⟩
  · rfl

theorem getTuple_nil (hne : from_ ≠ []) {precomputed : List Bool}
    (h : Left from_ precomputed prds [] s) {fuel : Nat} (hfuel : work from_ [] < fuel) :
    ∃ s', getTuple from_ precomputed prds fuel s = some (none, s') ∧
      Left from_ precomputed prds (rows from_ precomputed prds) s' := by
  by_cases hpre : precomputed.all id = true
  · unfold Left at h
    rw [if_pos hpre] at h
    obtain ⟨todo, hready, hfilter⟩ := h
    rcases selNext_ready hready hfuel with ⟨-, env, hrun, hflags⟩ | ⟨s', todo', -, hcons, -⟩
    · refine ⟨⟨0, env⟩, ?_, left_init hne precomputed hflags⟩
      rw [getTuple, selOpr, if_pos hpre, hrun]
      rfl
    · rw [hfilter] at hcons
      cases hcons
  · refine ⟨s, ?_, ?_⟩
    · rw [getTuple, selOpr, if_neg hpre]
      rfl
    · unfold Left rows
      rw [if_neg hpre, if_neg hpre]

theorem getTuple_cons {precomputed : List Bool} {c : List α} {left : List (List α)}
    (h : Left from_ precomputed prds (c :: left) s) {fuel : Nat} (hfuel : work from_ [] < fuel) :
    ∃ s', getTuple from_ precomputed prds fuel s = some (some c, s') ∧
      Left from_ precomputed prds left s' := by
  by_cases hpre : precomputed.all id = true
  · unfold Left at h
    rw [if_pos hpre] at h
    obtain ⟨todo, hready, hfilter⟩ := h
    rcases selNext_ready hready hfuel with ⟨hnil, -⟩ | ⟨s', todo', hrun, hcons, hready'⟩
    · rw [hfilter] at hnil
      cases hnil
    · rw [hfilter] at hcons
      obtain ⟨rfl, hleft⟩ := List.cons.inj hcons
      refine ⟨s', ?_, ?_⟩
      · rw [getTuple, selOpr, if_pos hpre, hrun]
        rfl
      · unfold Left
        rw [if_pos hpre]
        exact ⟨todo', hready', hleft.symm⟩
  · unfold Left at h
    rw [if_neg hpre] at h
    cases h

end Calls

end StreamMill.Query
