import StreamMill.Query.SubQuery
import StreamMill.Lib.Bisim

/-!
# StreamMill.Query.Reset

What the reset of a sub-query leaves out. A node has variables that its next call reads and others
that it does not: `Rel` says that two states agree on the first kind, `Fresh` that they stand as
they do initially, and `Clean` that those stand so which the reset does not set. From a clean state
the reset leads to what a first evaluation starts from (`reset_tuples`).
-/

namespace StreamMill.Query

open Lib

variable {α β : Type}

structure Resettable (c : Compiled α β) where
  Rel : c.State → c.State → Prop
  Fresh : c.State → Prop
  Clean : c.State → Prop
  get_rel : ∀ fuel scope s s', Rel s s' →
    Same (fun _ => Rel) (c.get fuel scope s) (c.get fuel scope s')
  init_rel : ∀ s s', Rel s s' → Rel (c.init s) (c.init s')
  rearm_rel : ∀ s s', Rel s s' → Rel (c.rearm s) (c.rearm s')
  fresh_rel : ∀ s s', Fresh s → Fresh s' → Rel s s'
  initial_fresh : ∀ s, c.Initial s → Fresh s
  clean_init : ∀ s, Clean s → Fresh (c.init s)

theorem Resettable.init_initial {c : Compiled α β} (r : Resettable c) {s s₀ : c.State}
    (h : r.Clean s) (h₀ : c.Initial s₀) : r.Rel (c.init s) s₀ :=
  r.fresh_rel _ _ (r.clean_init s h) (r.initial_fresh s₀ h₀)

def ScanSt.Rel (s s' : ScanSt) : Prop :=
  s.firstEntry = s'.firstEntry ∧ (s.firstEntry = false → s.cursor = s'.cursor)

theorem ScanSt.Rel.pos {s s' : ScanSt} (h : s.Rel s') :
    (if s.firstEntry then 0 else s.cursor + 1) = if s'.firstEntry then 0 else s'.cursor + 1 := by
  obtain ⟨hf, hc⟩ := h
  rw [← hf]
  cases hs : s.firstEntry with
  | true => rfl
  | false => simp [hc hs]

theorem ScanSt.Rel.of_first {s s' : ScanSt} (h : s.firstEntry = true) (h' : s'.firstEntry = true) :
    s.Rel s' :=
  ⟨h.trans h'.symm, fun hf => absurd (hf.symm.trans h) Bool.false_ne_true⟩

/-- The reset sets `first_entry`, the only variable that counts then. -/
def nameReset (tuples : List α → List α) : Resettable (nameQun tuples) where
  Rel := ScanSt.Rel
  Fresh := fun s => s.firstEntry = true
  Clean := fun _ => True
  get_rel := by
    intro fuel scope s s' h
    unfold nameQun
    simp only
    rw [h.pos]
    cases (tuples scope)[if s'.firstEntry then 0 else s'.cursor + 1]? with
    | none => exact Same.ret _ (ScanSt.Rel.of_first rfl rfl)
    | some t => exact Same.ret _ ⟨rfl, fun _ => rfl⟩
  init_rel := fun _ _ _ => ScanSt.Rel.of_first rfl rfl
  rearm_rel := fun _ _ _ => ScanSt.Rel.of_first rfl rfl
  fresh_rel := fun _ _ => ScanSt.Rel.of_first
  initial_fresh := fun _ h => h
  clean_init := fun _ _ => rfl

def FunctionSt.Rel (s s' : FunctionSt α) : Prop :=
  s.firstEntry = s'.firstEntry ∧ (s.firstEntry = false → s.cursor = s'.cursor ∧ s.ret = s'.ret)

theorem FunctionSt.Rel.of_first {s s' : FunctionSt α} (h : s.firstEntry = true)
    (h' : s'.firstEntry = true) : s.Rel s' :=
  ⟨h.trans h'.symm, fun hf => absurd (hf.symm.trans h) Bool.false_ne_true⟩

/-- `transInitQun` emits nothing for a table function. -/
def functionReset (udf : List α → List α) : Resettable (functionQun udf) where
  Rel := FunctionSt.Rel
  Fresh := fun s => s.firstEntry = true
  Clean := fun s => s.firstEntry = true
  get_rel := by
    intro fuel scope s s' ⟨hf, hc⟩
    have hpos : (if s.firstEntry then 0 else s.cursor + 1) =
        if s'.firstEntry then 0 else s'.cursor + 1 := by
      rw [← hf]
      cases hs : s.firstEntry with
      | true => rfl
      | false => simp [(hc hs).1]
    have hret : (if s.firstEntry then udf scope else s.ret) =
        if s'.firstEntry then udf scope else s'.ret := by
      rw [← hf]
      cases hs : s.firstEntry with
      | true => rfl
      | false => simp [(hc hs).2]
    unfold functionQun
    simp only
    rw [hpos, hret]
    cases (if s'.firstEntry then udf scope else s'.ret)[if s'.firstEntry then 0
      else s'.cursor + 1]? with
    | none => exact Same.ret _ (FunctionSt.Rel.of_first rfl rfl)
    | some t => exact Same.ret _ ⟨rfl, fun _ => ⟨rfl, rfl⟩⟩
  init_rel := fun _ _ h => h
  rearm_rel := fun _ _ _ => FunctionSt.Rel.of_first rfl rfl
  fresh_rel := fun _ _ => FunctionSt.Rel.of_first
  initial_fresh := fun _ h => h
  clean_init := fun _ h => h

section SelNode

variable {n m : Nat} {quns : Fin n → Compiled α (Option α)} {prds : Fin m → Compiled α Bool}
  (rq : ∀ i, Resettable (quns i)) (rp : ∀ j, Resettable (prds j))

/-- `index` and the tuples before it count with two or more FROM items only; `first_entry` counts
without FROM items, and in a scalar sub-query. -/
structure SelSt.Rel (entry : Prop) (s s' : SelSt quns prds) : Prop where
  firstEntry : entry ∨ n = 0 → s.firstEntry = s'.firstEntry
  index : 2 ≤ n → s.index = s'.index
  tuple : 2 ≤ n → ∀ i : Nat, (i : Int) < s.index → s.tuple i = s'.tuple i
  qunSt : ∀ i, (rq i).Rel (s.qunSt i) (s'.qunSt i)
  prdSt : ∀ j, (rp j).Rel (s.prdSt j) (s'.prdSt j)

structure SelSt.Fresh (entry : Prop) (s : SelSt quns prds) : Prop where
  firstEntry : entry ∨ n = 0 → s.firstEntry = true
  index : 2 ≤ n → s.index = 0
  qunSt : ∀ i, (rq i).Fresh (s.qunSt i)
  prdSt : ∀ j, (rp j).Fresh (s.prdSt j)

/-- The reset goes down to the nodes below and leaves `index` as it stands. -/
structure SelSt.Clean (entry : Prop) (s : SelSt quns prds) : Prop where
  firstEntry : entry ∨ n = 0 → s.firstEntry = true
  index : 2 ≤ n → s.index = 0
  qunSt : ∀ i, (rq i).Clean (s.qunSt i)
  prdSt : ∀ j, (rp j).Clean (s.prdSt j)

variable {rq rp} {entry : Prop} {s s' : SelSt quns prds}

theorem SelSt.Fresh.rel (h : s.Fresh rq rp entry) (h' : s'.Fresh rq rp entry) :
    s.Rel rq rp entry s' where
  firstEntry hn := (h.firstEntry hn).trans (h'.firstEntry hn).symm
  index hn := (h.index hn).trans (h'.index hn).symm
  tuple hn i hi := by
    rw [h.index hn] at hi
    omega
  qunSt i := (rq i).fresh_rel _ _ (h.qunSt i) (h'.qunSt i)
  prdSt j := (rp j).fresh_rel _ _ (h.prdSt j) (h'.prdSt j)

theorem SelSt.Initial.fresh (h : s.Initial) : s.Fresh rq rp entry where
  firstEntry _ := h.1
  index _ := h.2.1
  qunSt i := (rq i).initial_fresh _ (h.2.2.1 i)
  prdSt j := (rp j).initial_fresh _ (h.2.2.2 j)

theorem SelSt.Clean.init (h : s.Clean rq rp entry) : s.init.Fresh rq rp entry where
  firstEntry := h.firstEntry
  index := h.index
  qunSt i := (rq i).clean_init _ (h.qunSt i)
  prdSt j := (rp j).clean_init _ (h.prdSt j)

theorem SelSt.Rel.init (h : s.Rel rq rp entry s') : s.init.Rel rq rp entry s'.init where
  firstEntry := h.firstEntry
  index := h.index
  tuple := h.tuple
  qunSt i := (rq i).init_rel _ _ (h.qunSt i)
  prdSt j := (rp j).init_rel _ _ (h.prdSt j)

theorem SelSt.Rel.rearmFirst (h : s.Rel rq rp entry s') :
    s.rearmFirst.Rel rq rp entry s'.rearmFirst where
  firstEntry := h.firstEntry
  index := h.index
  tuple := h.tuple
  qunSt i := by
    unfold SelSt.rearmFirst
    simp only
    split
    · exact (rq i).rearm_rel _ _ (h.qunSt i)
    · exact h.qunSt i
  prdSt := h.prdSt

theorem before_eq {i : Nat} (h : ∀ j, j < i → s.tuple j = s'.tuple j) :
    s.before i = s'.before i :=
  List.map_congr_left fun j hj => h j (List.mem_range.mp hj)

/-- The states after a call of item `i`: item `i`'s tuple is the same as well if there is one. -/
structure AfterCall (rq : ∀ i, Resettable (quns i)) (rp : ∀ j, Resettable (prds j)) (entry : Prop)
    (i : Nat) (rc : Rc) (s s' : SelSt quns prds) : Prop where
  firstEntry : entry ∨ n = 0 → s.firstEntry = s'.firstEntry
  index : 2 ≤ n → s.index = i ∧ s'.index = i
  before : ∀ j, j < i → s.tuple j = s'.tuple j
  tuple : rc = .ok → s.tuple i = s'.tuple i
  qunSt : ∀ i, (rq i).Rel (s.qunSt i) (s'.qunSt i)
  prdSt : ∀ j, (rp j).Rel (s.prdSt j) (s'.prdSt j)

theorem update_rel {n : Nat} {c : Fin n → Compiled α β} {r : ∀ i, Resettable (c i)}
    {q q' : ∀ i, (c i).State} (h : ∀ i, (r i).Rel (q i) (q' i)) {i : Fin n} {p p' : (c i).State}
    (hp : (r i).Rel p p') :
    ∀ k, (r k).Rel (Function.update q i p k) (Function.update q' i p' k) := by
  intro k
  rcases eq_or_ne k i with rfl | hk
  · simpa using hp
  · simpa [Function.update_of_ne hk] using h k

theorem callQun_rel (fuel : Nat) (scope : List α) (i : Fin n) (h : s.Rel rq rp entry s')
    (hi : 2 ≤ n → s.index = i.val) (hb : ∀ j, j < i.val → s.tuple j = s'.tuple j) :
    Same (AfterCall rq rp entry i) (callQun fuel scope i s) (callQun fuel scope i s') := by
  unfold callQun
  rw [before_eq hb]
  refine ((rq i).get_rel fuel _ _ _ (h.qunSt i)).bind fun t q q' hq => ?_
  have hqun := update_rel h.qunSt hq
  have hidx := fun hn => And.intro (hi hn) ((h.index hn).symm.trans (hi hn))
  cases t with
  | none => exact Same.ret _ ⟨h.firstEntry, hidx, hb, nofun, hqun, h.prdSt⟩
  | some t =>
    refine Same.ret _ ⟨h.firstEntry, hidx, fun j hj => ?_, fun _ => ?_, hqun, h.prdSt⟩
    · simpa [Function.update_of_ne (Nat.ne_of_lt hj)] using hb j hj
    · simp

theorem AfterCall.step {i : Nat} {rc : Rc} (h : AfterCall rq rp entry i rc s s') (hn : 2 ≤ n) :
    SelSt.Rel rq rp entry
      { s with index := if rc = .ok then s.index + 1 else s.index - 1 }
      { s' with index := if rc = .ok then s'.index + 1 else s'.index - 1 } where
  firstEntry := h.firstEntry
  index _ := by rw [(h.index hn).1, (h.index hn).2]
  tuple _ j hj := by
    simp only [(h.index hn).1] at hj
    cases rc with
    | ok =>
      rcases Nat.lt_or_ge j i with hlt | hge
      · exact h.before j hlt
      · have hij : j = i := by
          omega
        exact hij ▸ h.tuple rfl
    | notFound =>
      rw [if_neg (by simp)] at hj
      exact h.before j (by omega)
  qunSt := h.qunSt
  prdSt := h.prdSt

/-- Where the loop stands with this `rc`: what it goes on with, and how it ends. -/
def AtIndex (n : Nat) (index : Int) : Rc → Prop
  | .ok => 0 ≤ index
  | .notFound => -1 ≤ index ∧ index < n

theorem whileQuns_rel (fuel : Nat) (scope : List α) (hn : 2 ≤ n) (k : Nat) (rc : Rc)
    (h : s.Rel rq rp entry s') (hrc : AtIndex n s.index rc) :
    Same (fun rc t t' => t.Rel rq rp entry t' ∧ (rc = .ok → (n : Int) ≤ t.index) ∧
        (rc = .notFound → t.index = -1))
      (whileQuns fuel scope k rc s) (whileQuns fuel scope k rc s') := by
  induction k generalizing rc s s' with
  | zero => exact Same.stuck
  | succ k ih =>
    have hidx := h.index hn
    unfold whileQuns
    by_cases hb : 0 ≤ s.index ∧ s.index < n
    · have hb' : 0 ≤ s'.index ∧ s'.index < n := hidx ▸ hb
      rw [dif_pos hb, dif_pos hb']
      have hi : (⟨s'.index.toNat, by omega⟩ : Fin n) = ⟨s.index.toNat, by omega⟩ := by
        simp [hidx]
      rw [hi]
      have hcall := callQun_rel fuel scope ⟨s.index.toNat, by omega⟩ h
        (fun _ => (Int.toNat_of_nonneg hb.1).symm)
        fun j hj => h.tuple hn j (by simp only at hj; omega)
      refine hcall.bind fun rc t t' ht => ih rc (ht.step hn) ?_
      have hti := (ht.index hn).1
      cases rc with
      | ok =>
        show (0 : Int) ≤ t.index + 1
        omega
      | notFound =>
        show -1 ≤ t.index - 1 ∧ t.index - 1 < n
        omega
    · have hb' : ¬ (0 ≤ s'.index ∧ s'.index < n) := hidx ▸ hb
      rw [dif_neg hb, dif_neg hb']
      refine Same.ret rc ⟨h, fun hok => ?_, fun hnf => ?_⟩
      · subst hok
        have : 0 ≤ s.index := hrc
        omega
      · subst hnf
        have : -1 ≤ s.index ∧ s.index < n := hrc
        omega

def SelSt.Between (rq : ∀ i, Resettable (quns i)) (rp : ∀ j, Resettable (prds j)) (entry : Prop)
    (s s' : SelSt quns prds) : Prop :=
  s.Rel rq rp entry s' ∧ (2 ≤ n → 0 ≤ s.index)

/-- The states on a row: all tuples are the same. -/
def OnRow (rq : ∀ i, Resettable (quns i)) (rp : ∀ j, Resettable (prds j)) (entry : Prop)
    (s s' : SelSt quns prds) : Prop :=
  s.Between rq rp entry s' ∧ s.before n = s'.before n

theorem SelSt.Rel.setEntry (h : s.Rel rq rp entry s') (e : Bool) :
    SelSt.Rel rq rp entry { s with firstEntry := e } { s' with firstEntry := e } where
  firstEntry _ := rfl
  index := h.index
  tuple := h.tuple
  qunSt := h.qunSt
  prdSt := h.prdSt

theorem fetch_empty (hn : n = 0) (scalar : Bool) (fuel : Nat) (scope : List α)
    (h : s.Between rq rp entry s') :
    Same (fun rc t t' => t.Between rq rp entry t' ∧ (rc = .ok → t.before n = t'.before n))
      (fetch scalar fuel scope s) (fetch scalar fuel scope s') := by
  unfold fetch
  rw [if_pos hn, if_pos hn, h.1.firstEntry (.inr hn)]
  refine Same.ret _ ⟨⟨h.1.setEntry _, h.2⟩, fun _ => before_eq fun j hj => ?_⟩
  omega

theorem fetch_single (hn : n = 1) {scalar : Bool} (hscalar : scalar = true → entry) (fuel : Nat)
    (scope : List α) (h : s.Between rq rp entry s') :
    Same (fun rc t t' => t.Between rq rp entry t' ∧ (rc = .ok → t.before n = t'.before n))
      (fetch scalar fuel scope s) (fetch scalar fuel scope s') := by
  unfold fetch
  rw [if_neg (by omega), if_neg (by omega), dif_pos hn, dif_pos hn]
  refine (callQun_rel fuel scope ⟨0, by omega⟩ h.1 (by omega) nofun).bind fun rc t t' ht => ?_
  have hrel : t.Rel rq rp entry t' :=
    ⟨ht.firstEntry, fun hn' => by omega, fun hn' => by omega, ht.qunSt, ht.prdSt⟩
  have hrow : rc = .ok → t.before n = t'.before n := fun hrc => before_eq fun j hj => by
    have hj0 : j = 0 := by omega
    exact hj0 ▸ ht.tuple hrc
  cases scalar with
  | false => exact Same.ret rc ⟨⟨hrel, fun hn' => by omega⟩, hrow⟩
  | true => exact Same.ret rc ⟨⟨hrel.setEntry _, fun hn' => by omega⟩, hrow⟩

theorem fetch_join (hn : 2 ≤ n) {scalar : Bool} (hscalar : scalar = true → entry) (fuel : Nat)
    (scope : List α) (h : s.Between rq rp entry s') :
    Same (fun rc t t' => t.Between rq rp entry t' ∧ (rc = .ok → t.before n = t'.before n))
      (fetch scalar fuel scope s) (fetch scalar fuel scope s') := by
  unfold fetch
  rw [if_neg (by omega), if_neg (by omega), dif_neg (by omega), dif_neg (by omega)]
  refine (whileQuns_rel fuel scope hn fuel .ok h.1 (h.2 hn)).bind fun rc t t' ht => ?_
  obtain ⟨hrel, hok, hnf⟩ := ht
  have hidx := hrel.index hn
  have hrow : rc = .ok → t.before n = t'.before n := fun hrc => before_eq fun j hj =>
    hrel.tuple hn j (by have := hok hrc; omega)
  have hback : SelSt.Between rq rp entry
      { t with index := if rc = .ok then t.index - 1 else t.index + 1 }
      { t' with index := if rc = .ok then t'.index - 1 else t'.index + 1 } := by
    refine ⟨⟨hrel.firstEntry, fun _ => by rw [hidx], fun _ j hj => ?_, hrel.qunSt, hrel.prdSt⟩,
      fun _ => ?_⟩
    · simp only at hj
      cases rc with
      | ok =>
        rw [if_pos rfl] at hj
        exact hrel.tuple hn j (by omega)
      | notFound =>
        rw [hnf rfl] at hj
        omega
    · show 0 ≤ if rc = .ok then t.index - 1 else t.index + 1
      cases rc with
      | ok =>
        have := hok rfl
        omega
      | notFound =>
        rw [if_neg (by simp), hnf rfl]
        omega
  cases scalar with
  | false => exact Same.ret rc ⟨hback, hrow⟩
  | true =>
    have hentry := hrel.firstEntry (.inl (hscalar rfl))
    simp only [Bool.true_and, hentry]
    split
    · exact Same.stuck
    · exact Same.ret rc ⟨⟨hback.1.setEntry _, hback.2⟩, hrow⟩

theorem fetch_rel {scalar : Bool} (hscalar : scalar = true → entry) (fuel : Nat) (scope : List α)
    (h : s.Between rq rp entry s') :
    Same (fun rc t t' => t.Between rq rp entry t' ∧ (rc = .ok → t.before n = t'.before n))
      (fetch scalar fuel scope s) (fetch scalar fuel scope s') := by
  obtain hn | hn | hn : n = 0 ∨ n = 1 ∨ 2 ≤ n := by omega
  · exact fetch_empty hn scalar fuel scope h
  · exact fetch_single hn hscalar fuel scope h
  · exact fetch_join hn hscalar fuel scope h

theorem evalPrds_rel (fuel : Nat) (scope : List α) (js : List (Fin m))
    (h : OnRow rq rp entry s s') :
    Same (fun _ => OnRow rq rp entry) (evalPrds fuel scope js s) (evalPrds fuel scope js s') := by
  induction js generalizing s s' with
  | nil => exact Same.ret true h
  | cons j js ih =>
    unfold evalPrds
    rw [h.2]
    refine ((rp j).get_rel fuel _ _ _ (h.1.1.prdSt j)).bind fun holds p p' hp => ?_
    have hrow : OnRow rq rp entry { s with prdSt := Function.update s.prdSt j p }
        { s' with prdSt := Function.update s'.prdSt j p' } :=
      ⟨⟨⟨h.1.1.firstEntry, h.1.1.index, h.1.1.tuple, h.1.1.qunSt, update_rel h.1.1.prdSt hp⟩,
        h.1.2⟩, h.2⟩
    cases holds with
    | true => exact ih hrow
    | false => exact Same.ret false hrow

theorem nextRow_rel {scalar : Bool} (hscalar : scalar = true → entry) (head : List α → α)
    (fuel : Nat) (scope : List α) (k : Nat) (h : s.Between rq rp entry s') :
    Same (fun _ => SelSt.Between rq rp entry) (nextRow scalar head fuel scope k s)
      (nextRow scalar head fuel scope k s') := by
  induction k generalizing s s' with
  | zero => exact Same.stuck
  | succ k ih =>
    refine (fetch_rel hscalar fuel scope h).bind fun rc t t' ht => ?_
    cases rc with
    | notFound => exact Same.ret none ht.1
    | ok =>
      have hprds := evalPrds_rel fuel scope (List.finRange m) ⟨ht.1, ht.2 rfl⟩
      refine hprds.bind fun holds u u' hu => ?_
      cases holds with
      | true =>
        simp only [if_true]
        rw [hu.2]
        exact Same.ret _ hu.1
      | false => exact ih hu.1

theorem SelSt.Between.init (h : s.Between rq rp entry s') : s.init.Between rq rp entry s'.init :=
  ⟨h.1.init, h.2⟩

theorem SelSt.Between.rearmFirst (h : s.Between rq rp entry s') :
    s.rearmFirst.Between rq rp entry s'.rearmFirst :=
  ⟨h.1.rearmFirst, h.2⟩

theorem SelSt.Fresh.between (h : s.Fresh rq rp entry) (h' : s'.Fresh rq rp entry) :
    s.Between rq rp entry s' :=
  ⟨h.rel h', fun hn => Int.le_of_eq (h.index hn).symm⟩

variable (rq rp)

def selReset (prep : List α → Bool) (head : List α → α) : Resettable (selQuery quns prds prep head)
    where
  Rel := SelSt.Between rq rp False
  Fresh := SelSt.Fresh rq rp False
  Clean := SelSt.Clean rq rp False
  get_rel := by
    intro fuel scope s s' h
    show Same _ (if prep scope then _ else _) (if prep scope then _ else _)
    cases prep scope with
    | true => exact nextRow_rel nofun head fuel scope fuel h
    | false => exact Same.ret none h
  init_rel := fun _ _ h => h.init
  rearm_rel := fun _ _ h => h
  fresh_rel := fun _ _ => SelSt.Fresh.between
  initial_fresh := fun _ => SelSt.Initial.fresh
  clean_init := fun _ => SelSt.Clean.init

/-- An expression has `first_entry` set before its sub-query is reset. -/
def selExpReset (oper : Oper) (prep : List α → Bool) (head : List α → α) :
    Resettable (selExp quns prds oper prep head) where
  Rel := SelSt.Between rq rp True
  Fresh := SelSt.Fresh rq rp True
  Clean := fun s => SelSt.Clean rq rp True { s with firstEntry := true }
  get_rel := by
    intro fuel scope s s' h
    show Same _ (if prep scope then _ else _) (if prep scope then _ else _)
    cases prep scope with
    | false => exact Same.ret none h
    | true =>
      cases oper with
      | «exists» =>
        refine (nextRow_rel nofun head fuel scope fuel h).bind fun row t t' ht => ?_
        cases row with
        | none => exact Same.ret _ ht.rearmFirst
        | some _ => exact Same.ret _ ht.rearmFirst.init
      | notExists =>
        refine (nextRow_rel nofun head fuel scope fuel h).bind fun row t t' ht => ?_
        exact Same.ret _ ht.rearmFirst
      | scalar =>
        have hnext : ∀ t t' : SelSt quns prds, t.Between rq rp True t' →
            Same (fun _ => SelSt.Between rq rp True) (nextRow true head fuel scope fuel t)
              (nextRow true head fuel scope fuel t') :=
          fun _ _ => nextRow_rel (fun _ => trivial) head fuel scope fuel
        refine (hnext s s' h).bind fun row t t' ht => ?_
        cases row with
        | none => exact Same.stuck
        | some value =>
          refine (hnext t t' ht).bind fun row u u' hu => ?_
          cases row with
          | none => exact Same.ret _ hu
          | some _ => exact Same.stuck
  init_rel := fun _ _ h => ⟨h.1.init.setEntry true, h.2⟩
  rearm_rel := fun _ _ h => h
  fresh_rel := fun _ _ => SelSt.Fresh.between
  initial_fresh := fun _ => SelSt.Initial.fresh
  clean_init := fun _ => SelSt.Clean.init

end SelNode

section Exp

variable {k : Nat} {subs : Fin k → Compiled α (Option (Embed α))} (rs : ∀ i, Resettable (subs i))

theorem evalSubs_rel (fuel : Nat) (scope : List α) (is : List (Fin k))
    (vals : Fin k → Option (Embed α)) {s s' : ∀ i, (subs i).State}
    (h : ∀ i, (rs i).Rel (s i) (s' i)) :
    Same (fun _ t t' => ∀ i, (rs i).Rel (t i) (t' i)) (evalSubs subs fuel scope is vals s)
      (evalSubs subs fuel scope is vals s') := by
  induction is generalizing vals s s' with
  | nil => exact Same.ret vals h
  | cons i is ih =>
    refine ((rs i).get_rel fuel scope _ _ (h i)).bind fun val q q' hq => ?_
    exact ih _ (update_rel h hq)

def testReset (test : List α → (Fin k → Option (Embed α)) → Bool) : Resettable (testExp subs test)
    where
  Rel := fun s s' => ∀ i, (rs i).Rel (s i) (s' i)
  Fresh := fun s => ∀ i, (rs i).Fresh (s i)
  Clean := fun s => ∀ i, (rs i).Clean (s i)
  get_rel := fun fuel scope _ _ h =>
    (evalSubs_rel rs fuel scope (List.finRange k) _ h).bind fun _ _ _ ht => Same.ret _ ht
  init_rel := fun _ _ h i => (rs i).init_rel _ _ (h i)
  rearm_rel := fun _ _ h => h
  fresh_rel := fun _ _ h h' i => (rs i).fresh_rel _ _ (h i) (h' i)
  initial_fresh := fun _ h i => (rs i).initial_fresh _ (h i)
  clean_init := fun _ h i => (rs i).clean_init _ (h i)

end Exp

section Union

variable {n : Nat} {quns : Fin n → Compiled α (Option α)} (rq : ∀ i, Resettable (quns i))

/-- In the loop `first_entry` does not count. -/
structure UnionSt.Inside (s s' : UnionSt quns) : Prop where
  index : s.index = s'.index
  qunSt : ∀ i, (rq i).Rel (s.qunSt i) (s'.qunSt i)

def UnionSt.Rel (s s' : UnionSt quns) : Prop := UnionSt.Inside rq s.enter s'.enter

theorem unionLoop_rel (fuel : Nat) (scope : List α) (k : Nat) {s s' : UnionSt quns}
    (h : s.Inside rq s') :
    Same (fun _ => UnionSt.Rel rq) (unionLoop fuel scope k s) (unionLoop fuel scope k s') := by
  induction k generalizing s s' with
  | zero => exact Same.stuck
  | succ k ih =>
    obtain ⟨first, index, qunSt⟩ := s
    obtain ⟨first', index', qunSt'⟩ := s'
    obtain ⟨hindex, hqun⟩ := h
    subst hindex
    unfold unionLoop
    by_cases hi : index < n
    · rw [dif_pos hi, dif_pos hi]
      refine ((rq ⟨index, hi⟩).get_rel fuel scope _ _ (hqun _)).bind fun t q q' hq => ?_
      cases t with
      | none => exact ih ⟨rfl, update_rel hqun hq⟩
      | some t => exact Same.ret _ ⟨rfl, update_rel hqun hq⟩
    · rw [dif_neg hi, dif_neg hi]
      exact Same.ret none ⟨rfl, hqun⟩

/-- The reset of a UNION goes down, and leaves `index` and `first_entry`. -/
def unionReset : Resettable (unionQuery quns) where
  Rel := UnionSt.Rel rq
  Fresh := fun s => s.enter.index = 0 ∧ ∀ i, (rq i).Fresh (s.qunSt i)
  Clean := fun s => s.enter.index = 0 ∧ ∀ i, (rq i).Clean (s.qunSt i)
  get_rel := fun fuel scope _ _ h => unionLoop_rel rq fuel scope (n + 1) h
  init_rel := fun _ _ h => ⟨h.index, fun i => (rq i).init_rel _ _ (h.qunSt i)⟩
  rearm_rel := fun _ _ h => h
  fresh_rel := fun _ _ h h' =>
    ⟨h.1.trans h'.1.symm, fun i => (rq i).fresh_rel _ _ (h.2 i) (h'.2 i)⟩
  initial_fresh := fun _ h => ⟨if_pos h.1, fun i => (rq i).initial_fresh _ (h.2.2 i)⟩
  clean_init := fun _ h => ⟨h.1, fun i => (rq i).clean_init _ (h.2 i)⟩

end Union

section Buffer

variable {π : Type} {qun : Compiled α (Option α)} (rq : Resettable qun)

theorem drain_rel (fuel : Nat) (scope : List α) (k : Nat) {q q' : qun.State} (h : rq.Rel q q') :
    Same (fun _ => rq.Rel) (drain fuel scope k q) (drain fuel scope k q') := by
  induction k generalizing q q' with
  | zero => exact Same.stuck
  | succ k ih =>
    refine (rq.get_rel fuel scope _ _ h).bind fun t r r' hr => ?_
    cases t with
    | none => exact Same.ret [] hr
    | some t => exact (ih hr).bind fun ts u u' hu => Same.ret (t :: ts) hu

variable (fill : π → List α → Option (List α × π))

structure BufferSt.Rel (s s' : BufferSt qun π) : Prop where
  reading : s.reading = s'.reading
  rows : s.reading = false → s.rows = s'.rows
  ptr : fill s.ptr = fill s'.ptr
  qunSt : rq.Rel s.qunSt s'.qunSt

structure BufferSt.Fresh (ptr : π) (s : BufferSt qun π) : Prop where
  reading : s.reading = true
  ptr : fill s.ptr = fill ptr
  qunSt : rq.Fresh s.qunSt

variable {rq fill} {s s' : BufferSt qun π}

theorem BufferSt.Fresh.rel {ptr : π} (h : s.Fresh rq fill ptr) (h' : s'.Fresh rq fill ptr) :
    s.Rel rq fill s' where
  reading := h.reading.trans h'.reading.symm
  rows hr := absurd (hr.symm.trans h.reading) Bool.false_ne_true
  ptr := h.ptr.trans h'.ptr.symm
  qunSt := rq.fresh_rel _ _ h.qunSt h'.qunSt

theorem fillBuffer_rel (fuel : Nat) (scope : List α) (h : s.Rel rq fill s') :
    Same (fun _ t t' => t.Rel rq fill t' ∧ t.rows = t'.rows) (fillBuffer fill fuel scope s)
      (fillBuffer fill fuel scope s') := by
  unfold fillBuffer
  rw [← h.reading]
  cases hr : s.reading with
  | false => exact Same.ret () ⟨h, h.rows hr⟩
  | true =>
    refine (drain_rel rq fuel scope fuel h.qunSt).bind fun ts q q' hq => ?_
    simp only [h.ptr]
    cases fill s'.ptr ts with
    | none => exact Same.stuck
    | some r => exact Same.ret () ⟨⟨rfl, fun _ => rfl, rfl, hq⟩, rfl⟩

theorem takeRow_rel (once : Bool) (h : s.Rel rq fill s') (hrows : s.rows = s'.rows) :
    (takeRow once s).1 = (takeRow once s').1 ∧
      BufferSt.Rel rq fill (takeRow once s).2 (takeRow once s').2 := by
  unfold takeRow
  rw [← hrows]
  cases s.rows with
  | nil => exact ⟨rfl, rfl, nofun, h.ptr, h.qunSt⟩
  | cons row rows =>
    cases once with
    | true => exact ⟨rfl, rfl, nofun, h.ptr, h.qunSt⟩
    | false => exact ⟨rfl, h.reading, fun _ => rfl, h.ptr, h.qunSt⟩

variable (rq)

/-- `transInitSqlQuery` does nothing for these nodes, and does not go below them. -/
def bufferReset (ptr : π) (fill : π → List α → Option (List α × π)) (once : Bool) :
    Resettable (bufferQuery qun ptr fill once) where
  Rel := BufferSt.Rel rq fill
  Fresh := BufferSt.Fresh rq fill ptr
  Clean := BufferSt.Fresh rq fill ptr
  get_rel := by
    intro fuel scope s s' h
    exact (fillBuffer_rel fuel scope h).map fun _ _ _ ht => takeRow_rel once ht.1 ht.2
  init_rel := fun _ _ h => h
  rearm_rel := fun _ _ h => h
  fresh_rel := fun _ _ => BufferSt.Fresh.rel
  initial_fresh := fun _ h => ⟨h.1, congrArg fill h.2.1, rq.initial_fresh _ h.2.2⟩
  clean_init := fun _ h => h

end Buffer

mutual

def SelOpr.queryReset : (a : SelOpr α) → Resettable a.query
  | .mk prep _ quns _ prds head =>
    selReset (fun i => (quns i).reset) (fun j => (prds j).reset) prep head

def SelOpr.expReset (oper : Oper) : (a : SelOpr α) → Resettable (a.exp oper)
  | .mk prep _ quns _ prds head =>
    selExpReset (fun i => (quns i).reset) (fun j => (prds j).reset) oper prep head

def Qun.reset : (q : Qun α) → Resettable q.compile
  | .name tuples => nameReset tuples
  | .function udf => functionReset udf
  | .sel a => a.queryReset
  | .union _ quns => unionReset fun i => (quns i).reset
  | .order sort qun => bufferReset qun.reset () (fun _ ts => some (sort ts, ())) false
  | .gb existsFlag groups qun => bufferReset qun.reset StatusPtr.null groups existsFlag

def Exp.reset : (e : Exp α) → Resettable e.compile
  | .mk _ oper subs test => testReset (fun i => (subs i).expReset (oper i)) test

end

def Oper.isScalar : Oper → Bool
  | .scalar => true
  | _ => false

def SelOpr.next (fuel : Nat) (scope : List α) :
    (a : SelOpr α) → (oper : Oper) → (a.exp oper).State → Option (Option α × (a.exp oper).State)
  | .mk prep _ _ _ _ head, oper, s =>
    if prep scope then nextRow oper.isScalar head fuel scope fuel s else some (none, s)

/-- The rows of the sub-query, as `n` calls in a row return them. -/
def SelOpr.rows (a : SelOpr α) (oper : Oper) (fuel : Nat) (scope : List α) (n : Nat)
    (s : (a.exp oper).State) : Option (List (Option α)) :=
  (calls (a.next fuel scope oper) n s).map Prod.fst

def Qun.rows (q : Qun α) (fuel : Nat) (scope : List α) (n : Nat) (s : q.compile.State) :
    Option (List (Option α)) :=
  (calls (q.compile.get fuel scope) n s).map Prod.fst

theorem SelOpr.next_rel (fuel : Nat) (scope : List α) (a : SelOpr α) (oper : Oper)
    {s s' : (a.exp oper).State} (h : (a.expReset oper).Rel s s') :
    Same (fun _ => (a.expReset oper).Rel) (a.next fuel scope oper s)
      (a.next fuel scope oper s') := by
  cases a with
  | mk prep _ quns _ prds head =>
    show Same _ (if prep scope then _ else _) (if prep scope then _ else _)
    cases prep scope with
    | true => exact nextRow_rel (fun _ => trivial) head fuel scope fuel h
    | false => exact Same.ret none h

theorem SelOpr.rows_init (a : SelOpr α) (oper : Oper) {s s₀ : (a.exp oper).State}
    (hs : (a.expReset oper).Clean s) (h₀ : (a.exp oper).Initial s₀) (fuel : Nat)
    (scope : List α) (n : Nat) :
    a.rows oper fuel scope n ((a.exp oper).init s) = a.rows oper fuel scope n s₀ :=
  (Same.calls (fun _ _ => a.next_rel fuel scope oper) n
    ((a.expReset oper).init_initial hs h₀)).results

theorem Qun.rows_init (q : Qun α) {s s₀ : q.compile.State} (hs : q.reset.Clean s)
    (h₀ : q.compile.Initial s₀) (fuel : Nat) (scope : List α) (n : Nat) :
    q.rows fuel scope n (q.compile.init s) = q.rows fuel scope n s₀ :=
  (Same.calls (q.reset.get_rel fuel scope) n (q.reset.init_initial hs h₀)).results

def plainSel {n : Nat} (tables : Fin n → List Nat) : SelOpr Nat :=
  .mk (fun _ => true) n (fun i => .name fun _ => tables i) 0 Fin.elim0 List.sum

def plainState {n : Nat} (tables : Fin n → List Nat) (index : Int) (tuple : Nat)
    (qunSt : Fin n → ScanSt) : ((plainSel tables).exp .exists).State :=
  (⟨true, index, fun _ => tuple, qunSt, fun j => j.elim0⟩ :
    SelSt (fun i => (Qun.name fun _ => tables i).compile) fun j => (Fin.elim0 j : Exp Nat).compile)

end StreamMill.Query
