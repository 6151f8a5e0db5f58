import Mathlib.Data.List.Find
import StreamMill.Esl.OpSteps

/-!
# StreamMill.Esl.Delivery

Which tuples the statements are executed on, over every run of calls and arrivals, whatever the
priorities are. Behind a fork every branch is executed on every tuple, once and in order; a tuple of
any other buffer is used by one execution. For a buffer with one reader that comes to the same, but
the output of a union is not treated as a fork, and its readers share its tuples
(`delivered_once`).
-/

namespace StreamMill.Esl.OperatorPriority

section Execs

variable {τ : Type}

/-- The tuples of `b` that executions were on. -/
def onBuf (b : Name) (xs : List (Exec τ)) : List τ := (xs.filter fun x => x.buf = b).map Exec.tuple

/-- The tuples of `b` that executions of `s` were on. -/
def takenBy (s : StmtId) (b : Name) (xs : List (Exec τ)) : List τ :=
  (xs.filter fun x => x.stmt = s ∧ x.buf = b).map Exec.tuple

/-- What the executions put to `b`. -/
def putTo (cat : Catalog) (b : Name) (xs : List (Exec τ)) : List τ :=
  (xs.filter fun x => (cat x.stmt).out = b).flatMap Exec.output

@[simp] theorem onBuf_concat (b : Name) (xs : List (Exec τ)) (x : Exec τ) :
    onBuf b (xs ++ [x]) = onBuf b xs ++ if x.buf = b then [x.tuple] else [] := by
  by_cases hx : x.buf = b <;> simp [onBuf, hx]

@[simp] theorem takenBy_concat (s : StmtId) (b : Name) (xs : List (Exec τ)) (x : Exec τ) :
    takenBy s b (xs ++ [x]) =
      takenBy s b xs ++ if x.stmt = s ∧ x.buf = b then [x.tuple] else [] := by
  by_cases hx : x.stmt = s ∧ x.buf = b <;> simp [takenBy, hx]

@[simp] theorem putTo_concat (cat : Catalog) (b : Name) (xs : List (Exec τ)) (x : Exec τ) :
    putTo cat b (xs ++ [x]) =
      putTo cat b xs ++ if (cat x.stmt).out = b then x.output else [] := by
  by_cases hx : (cat x.stmt).out = b <;> simp [putTo, hx]

end Execs

variable {cat : Catalog} {P : List StmtId} {t : BufStateTbl} {τ ω : Type} {code : Code cat τ ω}
  {σ σ' σ₀ : OpSt τ ω} {b : Name} {p : StmtId}

/-- The tuples of `b` that a branch has not run on. -/
def waiting (cat : Catalog) (σ : OpSt τ ω) (b : Name) (p : StmtId) : List τ :=
  if σ.processed (branchKey cat p) then (σ.store b).tail else σ.store b

structure Fresh (σ : OpSt τ ω) : Prop where
  came : σ.came = σ.store
  processed : ∀ k, σ.processed k = false
  execs : σ.execs = []

/-- Calls under any priorities, and arrivals between the calls. -/
inductive OpRun (cat : Catalog) (P : List StmtId) (t : BufStateTbl) (code : Code cat τ ω)
    (σ₀ : OpSt τ ω) : OpSt τ ω → Prop
  | start : OpRun cat P t code σ₀ σ₀
  | arrive {σ : OpSt τ ω} (b : Name) (ds : List τ) (run : OpRun cat P t code σ₀ σ)
      (outer : Outer cat P b) : OpRun cat P t code σ₀ (σ.put b ds)
  | call {σ σ' : OpSt τ ω} {rk : Ranks} {priority : Int} {vs : List (Visit τ)}
      {rc : Option RunRc} (run : OpRun cat P t code σ₀ σ) (fits : Fits P (Outer cat P) rk vs)
      (step : driverRun cat t code rk priority vs σ = some (rc, σ')) : OpRun cat P t code σ₀ σ'

/-- What the executions have used, and what is left. -/
structure Accounts (cat : Catalog) (P : List StmtId) (σ₀ σ : OpSt τ ω) : Prop where
  plain : ∀ b, ¬ Branches cat P b → σ.came b = onBuf b σ.execs ++ σ.store b
  branch : ∀ b, Branches cat P b → ∀ p ∈ readers cat P b,
    σ.came b = takenBy p b σ.execs ++ waiting cat σ b p
  marked : ∀ b, Branches cat P b → ∀ p ∈ readers cat P b, σ.processed (branchKey cat p) →
    σ.store b ≠ []
  made : ∀ p ∈ P, σ.came (cat p).out = σ₀.came (cat p).out ++ putTo cat (cat p).out σ.execs
  byReaders : ∀ x ∈ σ.execs, x.stmt ∈ readers cat P x.buf

section Fields

variable {s : StmtId} {d : τ} {ds : List τ} {rest : List τ} {out k : Name} {ks : List Name}
  {r : List τ × ExeRc × ω}

theorem put_store (b' : Name) :
    (σ.put b ds).store b' = σ.store b' ++ if b' = b then ds else [] := by
  by_cases hb : b' = b <;> simp [OpSt.put, hb]

theorem put_came (b' : Name) : (σ.put b ds).came b' = σ.came b' ++ if b' = b then ds else [] := by
  by_cases hb : b' = b <;> simp [OpSt.put, hb]

@[simp] theorem put_execs : (σ.put b ds).execs = σ.execs := rfl

theorem exec_store (b' : Name) :
    (σ.exec s b d out r).store b' = σ.store b' ++ if b' = out then r.1 else [] := put_store b'

theorem exec_came (b' : Name) :
    (σ.exec s b d out r).came b' = σ.came b' ++ if b' = out then r.1 else [] := put_came b'

@[simp] theorem exec_processed : (σ.exec s b d out r).processed = σ.processed := rfl

@[simp] theorem exec_execs : (σ.exec s b d out r).execs = σ.execs ++ [⟨s, b, d, r.1⟩] := rfl

theorem pop_store (b' : Name) :
    (σ.pop b).store b' = if b' = b then (σ.store b').tail else σ.store b' := by
  by_cases hb : b' = b <;> simp [OpSt.pop, hb]

@[simp] theorem pop_came : (σ.pop b).came = σ.came := rfl

@[simp] theorem pop_processed : (σ.pop b).processed = σ.processed := rfl

@[simp] theorem pop_execs : (σ.pop b).execs = σ.execs := rfl

@[simp] theorem mark_store : (σ.mark k).store = σ.store := rfl

@[simp] theorem mark_came : (σ.mark k).came = σ.came := rfl

theorem mark_processed (k' : Name) :
    (σ.mark k).processed k' = if k' = k then true else σ.processed k' := by
  by_cases hk : k' = k <;> simp [OpSt.mark, hk]

@[simp] theorem mark_execs : (σ.mark k).execs = σ.execs := rfl

@[simp] theorem unmark_store : (σ.unmark ks).store = σ.store := rfl

@[simp] theorem unmark_came : (σ.unmark ks).came = σ.came := rfl

theorem unmark_processed (k : Name) :
    (σ.unmark ks).processed k = if k ∈ ks then false else σ.processed k := by
  simp [OpSt.unmark]

@[simp] theorem unmark_execs : (σ.unmark ks).execs = σ.execs := rfl

theorem waiting_append {new : List τ} (hmark : σ.processed (branchKey cat p) → σ.store b ≠ [])
    (hstore : σ'.store b = σ.store b ++ new)
    (hproc : σ'.processed (branchKey cat p) = σ.processed (branchKey cat p)) :
    waiting cat σ' b p = waiting cat σ b p ++ new := by
  unfold waiting
  rw [hstore, hproc]
  split
  · next hp => rw [List.tail_append_of_ne_nil (hmark hp)]
  · rfl

end Fields

namespace Accounts

theorem fresh (hf : Fresh σ₀) : Accounts cat P σ₀ σ₀ where
  plain b _ := by simp [onBuf, hf.came, hf.execs]
  branch b _ p _ := by simp [takenBy, waiting, hf.came, hf.execs, hf.processed]
  marked b _ p _ hp := by simp [hf.processed] at hp
  made p _ := by simp [putTo, hf.execs]
  byReaders x hx := by simp [hf.execs] at hx

section

variable (a : Accounts cat P σ₀ σ)
include a

theorem put {ds : List τ} (houter : Outer cat P b) : Accounts cat P σ₀ (σ.put b ds) where
  plain b' hb' := by
    rw [put_came, put_store, put_execs, a.plain b' hb', List.append_assoc]
  branch b' hb' p hp := by
    rw [put_came, put_execs, a.branch b' hb' p hp,
      waiting_append (a.marked b' hb' p hp) (put_store b') rfl, List.append_assoc]
  marked b' hb' p hp hproc := by
    rw [put_store]
    exact List.append_ne_nil_of_left_ne_nil (a.marked b' hb' p hp hproc) _
  made p hp := by
    rw [put_came, put_execs, a.made p hp, if_neg (houter p hp), List.append_nil]
  byReaders := a.byReaders

theorem quota (n : Int) : Accounts cat P σ₀ { σ with nTuples := n } :=
  ⟨a.plain, a.branch, a.marked, a.made, a.byReaders⟩

theorem exec_made {s : StmtId} {d : τ} {r : List τ × ExeRc × ω} (hp : p ∈ P) :
    (σ.exec s b d (cat s).out r).came (cat p).out =
      σ₀.came (cat p).out ++ putTo cat (cat p).out (σ.exec s b d (cat s).out r).execs := by
  rw [exec_came, a.made p hp]
  by_cases hout : (cat p).out = (cat s).out <;> simp [hout, Ne.symm]

theorem exec_byReaders {s : StmtId} {d : τ} {r : List τ × ExeRc × ω}
    (hs : s ∈ readers cat P b) :
    ∀ x ∈ (σ.exec s b d (cat s).out r).execs, x.stmt ∈ readers cat P x.buf := by
  intro x hx
  rw [exec_execs, List.mem_append, List.mem_singleton] at hx
  rcases hx with hx | rfl
  · exact a.byReaders x hx
  · exact hs

theorem exe {s : StmtId} {d : τ} {rest : List τ} {r : List τ × ExeRc × ω}
    (hs : s ∈ readers cat P b) (hplain : ¬ Branches cat P b) (hfront : σ.store b = d :: rest) :
    Accounts cat P σ₀ ((σ.exec s b d (cat s).out r).pop b) where
  plain b' hb' := by
    rw [pop_came, exec_came, pop_store, exec_store,
      a.plain b' hb']
    by_cases hb : b' = b
    · subst hb
      simp [hfront]
    · simp [hb, Ne.symm hb]
  branch b' hb' p hp := by
    have hb : b' ≠ b := by
      rintro rfl
      exact hplain hb'
    have hstore : ((σ.exec s b d (cat s).out r).pop b).store b' =
        σ.store b' ++ if b' = (cat s).out then r.1 else [] := by
      rw [pop_store, if_neg hb, exec_store]
    rw [waiting_append (a.marked b' hb' p hp) hstore rfl, pop_came, exec_came, a.branch b' hb' p hp]
    simp [Ne.symm hb]
  marked b' hb' p hp hproc := by
    have hb : b' ≠ b := by
      rintro rfl
      exact hplain hb'
    rw [pop_store, if_neg hb, exec_store]
    exact List.append_ne_nil_of_left_ne_nil (a.marked b' hb' p hp hproc) _
  made p hp := a.exec_made hp
  byReaders := a.exec_byReaders hs

/-- A branch runs on the front tuple: for it, and for no other branch, the tuple is used. -/
theorem branches (h : OpGraph cat P t) {s : StmtId} {d : τ} {rest : List τ}
    {r : List τ × ExeRc × ω} (hs : s ∈ readers cat P b) (hb : Branches cat P b)
    (hopen : σ.processed (branchKey cat s) = false) (hfront : σ.store b = d :: rest) :
    Accounts cat P σ₀ ((σ.exec s b d (cat s).out r).mark (branchKey cat s)) where
  plain b' hb' := by
    have hne : b ≠ b' := by
      rintro rfl
      exact hb' hb
    rw [mark_came, exec_came, mark_store, exec_store,
      a.plain b' hb']
    simp [hne]
  branch b' hb' p hp := by
    rw [mark_came, exec_came, a.branch b' hb' p hp]
    by_cases hps : p = s
    · subst hps
      obtain ⟨-, rfl⟩ := h.normal_of_forks hb.1 hs
      obtain ⟨-, rfl⟩ := h.normal_of_forks hb'.1 hp
      have hnow : ((σ.exec p (cat p).inb d (cat p).out r).mark (branchKey cat p)).processed
          (branchKey cat p) = true := by rw [mark_processed, if_pos rfl]
      simp [waiting, hnow, hopen, exec_store, hfront]
    · have hkey : branchKey cat p ≠ branchKey cat s :=
        fun he => hps (h.branchKey_inj hb'.1 hp hb.1 hs he)
      have hproc : ((σ.exec s b d (cat s).out r).mark (branchKey cat s)).processed
          (branchKey cat p) = σ.processed (branchKey cat p) := by
        rw [mark_processed, if_neg hkey, exec_processed]
      have hstore : ((σ.exec s b d (cat s).out r).mark (branchKey cat s)).store b' =
          σ.store b' ++ if b' = (cat s).out then r.1 else [] := by
        rw [mark_store, exec_store]
      rw [waiting_append (a.marked b' hb' p hp) hstore hproc]
      simp [Ne.symm hps]
  marked b' hb' p hp hproc := by
    rw [mark_store, exec_store]
    refine List.append_ne_nil_of_left_ne_nil ?_ _
    rw [mark_processed] at hproc
    split at hproc
    · next hkey =>
      obtain rfl := h.branchKey_inj hb'.1 hp hb.1 hs hkey
      obtain ⟨-, rfl⟩ := h.normal_of_forks hb.1 hs
      obtain ⟨-, rfl⟩ := h.normal_of_forks hb'.1 hp
      simp [hfront]
    · exact a.marked b' hb' p hp hproc
  made p hp := a.exec_made hp
  byReaders := a.exec_byReaders hs

/-- All branches are through with the front tuple, and are open for the next. -/
theorem clean (h : OpGraph cat P t) (hb : Branches cat P b)
    (hall : ∀ k ∈ dummiesOf t b, σ.processed k) :
    Accounts cat P σ₀ ((σ.unmark (dummiesOf t b)).pop b) where
  plain b' hb' := by
    have hne : b' ≠ b := by
      rintro rfl
      exact hb' hb
    rw [pop_came, unmark_came, pop_execs, unmark_execs, pop_store, if_neg hne, unmark_store,
      a.plain b' hb']
  branch b' hb' p hp := by
    rw [pop_came, unmark_came, a.branch b' hb' p hp]
    unfold waiting
    rw [pop_processed, unmark_processed, pop_store]
    by_cases hbb : b' = b
    · subst hbb
      have hmem : branchKey cat p ∈ dummiesOf t b' := h.mem_dummiesOf.mpr ⟨hb.1, p, hp, rfl⟩
      simp [hmem, hall _ hmem]
    · have hmem : branchKey cat p ∉ dummiesOf t b := by
        intro hmem
        obtain ⟨hf, q, hq, hkey⟩ := h.mem_dummiesOf.mp hmem
        obtain rfl := h.branchKey_inj hb'.1 hp hf hq hkey
        obtain ⟨-, rfl⟩ := h.normal_of_forks hf hq
        exact hbb (h.normal_of_forks hb'.1 hp).2.symm
      simp [hmem, hbb]
  marked b' hb' p hp hproc := by
    rw [pop_processed, unmark_processed] at hproc
    rw [pop_store]
    split at hproc
    · cases hproc
    · next hmem =>
      have hbb : b' ≠ b := by
        rintro rfl
        exact hmem (h.mem_dummiesOf.mpr ⟨hb.1, p, hp, rfl⟩)
      rw [if_neg hbb]
      exact a.marked b' hb' p hp hproc
  made p hp := by rw [pop_came, unmark_came, pop_execs, unmark_execs, a.made p hp]
  byReaders := a.byReaders

theorem step (h : OpGraph cat P t) (hstep : Step cat P t code (Outer cat P) σ σ') :
    Accounts cat P σ₀ σ' := by
  cases hstep with
  | arrive b ds may => exact a.put may
  | quota n => exact a.quota n
  | clean b hb through => exact a.clean h hb through
  | exe s b d rest mem reads plain front => exact a.exe (mem_readers.mpr ⟨mem, reads⟩) plain front
  | branch s d rest mem hb hopen front => exact a.branches h mem hb hopen front

end

end Accounts

theorem driverRun_steps (h : OpGraph cat P t) {A : Name → Prop} {rk : Ranks}
    {vs : List (Visit τ)} (hvs : Fits P A rk vs) (priority : Int) (σ : OpSt τ ω) :
    ∃ r, driverRun cat t code rk priority vs σ = some r ∧ Steps cat P t code A σ r.2 := by
  obtain ⟨r, hr, hsteps⟩ := runNextUnit_steps h hvs none
  exact ⟨r, hr, .head (.quota σ priority) hsteps⟩

theorem OpRun.steps (h : OpGraph cat P t) (run : OpRun cat P t code σ₀ σ) :
    Steps cat P t code (Outer cat P) σ₀ σ := by
  induction run with
  | start => exact .refl
  | arrive b ds _ outer ih => exact ih.tail (.arrive _ b ds outer)
  | @call σ σ' rk priority vs rc _ fits step ih =>
    obtain ⟨r, hr, hsteps⟩ := driverRun_steps h fits priority σ
    rw [step, Option.some.injEq] at hr
    subst hr
    exact ih.trans hsteps

theorem OpRun.accounts (h : OpGraph cat P t) (hf : Fresh σ₀) (run : OpRun cat P t code σ₀ σ) :
    Accounts cat P σ₀ σ := by
  have hs := run.steps h
  clear run
  induction hs with
  | refl => exact .fresh hf
  | tail _ hstep ih => exact ih.step h hstep

theorem Accounts.alone (a : Accounts cat P σ₀ σ) (hp : readers cat P b = [p]) :
    σ.came b = takenBy p b σ.execs ++ σ.store b := by
  have hplain : ¬ Branches cat P b := by simp [Branches, hp]
  have hown : takenBy p b σ.execs = onBuf b σ.execs := by
    unfold takenBy onBuf
    congr 1
    refine List.filter_congr fun x hx => ?_
    have hread := a.byReaders x hx
    by_cases hb : x.buf = b
    · rw [hb, hp, List.mem_singleton] at hread
      simp [hb, hread]
    · simp [hb]
  rw [hown, a.plain b hplain]

theorem Steps.came_outer (hs : Steps cat P t code (fun _ => False) σ σ') (hb : Outer cat P b) :
    σ'.came b = σ.came b := by
  induction hs with
  | refl => rfl
  | tail _ hstep ih =>
    cases hstep with
    | arrive b ds may => exact may.elim
    | quota n => exact ih
    | clean b hb through => exact ih
    | exe s b' d rest mem reads plain front =>
      rw [pop_came, exec_came, if_neg (hb s mem).symm, List.append_nil, ih]
    | branch s d rest mem hb' hopen front =>
      rw [mark_came, exec_came, if_neg (hb s (mem_readers.mp mem).1).symm, List.append_nil, ih]

def sumStage (_ : StmtId) (k d : Nat) : List Nat × Nat := ([k + d], k + d)

def sumCode : Code sumCat Nat (StmtId → Nat) where
  exe s _ w d := ((sumStage s (w s) d).1, .success, Function.update w s (sumStage s (w s) d).2)
  pick _ _ _ := none
  picks _ _ _ _ hb := by cases hb

def sumStart : OpSt Nat (StmtId → Nat) :=
  let store : Name → List Nat := fun b => if b = ['a'] then [1, 2] else []
  ⟨store, fun _ => false, 0, fun _ => 0, store, []⟩

def sumRanks : Ranks := ⟨fun s => s < 3, fun _ => false⟩

def quietVisit (s : StmtId) : Visit Nat := ⟨s, [], false, false, false, false⟩

def sumCalls (orders : List (List StmtId)) (σ : OpSt Nat (StmtId → Nat)) :
    OpSt Nat (StmtId → Nat) :=
  orders.foldl (fun σ order => ((driverRun sumCat sumDriver.bufStateTable sumCode sumRanks 1
    (order.map quietVisit) σ).map Prod.snd).getD σ) σ

theorem sumFresh : Fresh sumStart := ⟨rfl, fun _ => rfl, rfl⟩

theorem sumRun {σ : OpSt Nat (StmtId → Nat)} (orders : List (List StmtId))
    (horders : ∀ o ∈ orders, ∀ s ∈ o, s < 3)
    (run : OpRun sumCat sumDriver.stmts sumDriver.bufStateTable sumCode sumStart σ) :
    OpRun sumCat sumDriver.stmts sumDriver.bufStateTable sumCode sumStart (sumCalls orders σ) ∧
      ∀ b, Outer sumCat sumDriver.stmts b → (sumCalls orders σ).came b = σ.came b := by
  have hmem : ∀ s < 3, s ∈ sumDriver.stmts := by decide
  induction orders generalizing σ with
  | nil => exact ⟨run, fun _ _ => rfl⟩
  | cons o os ih =>
    have hfits : ∀ A, Fits sumDriver.stmts A sumRanks (o.map quietVisit) := by
      intro A v hv
      obtain ⟨s, hs, rfl⟩ := List.mem_map.mp hv
      refine ⟨fun _ => hmem s (horders o List.mem_cons_self s hs), ?_⟩
      intro a ha
      simp [quietVisit] at ha
    obtain ⟨r, hr, hsteps⟩ := @driverRun_steps sumCat _ _ _ _ sumCode sumGraph _ _ _
      (hfits fun _ => False) 1 σ
    have hcall : sumCalls (o :: os) σ = sumCalls os r.2 := by simp [sumCalls, hr]
    obtain ⟨hrun, hcame⟩ := ih (fun o' ho' => horders o' (List.mem_cons_of_mem o ho'))
      (.call run (hfits _) hr)
    rw [hcall]
    exact ⟨hrun, fun b hb => (hcame b hb).trans (hsteps.came_outer hb)⟩

end StreamMill.Esl.OperatorPriority
