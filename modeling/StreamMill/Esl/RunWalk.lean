import StreamMill.Esl.RunGraph

/-!
# StreamMill.Esl.RunWalk

The walk of `runState` between two forks. A walk that starts at a source, or at the output of a
branch of a fork, stays below it (`Frame`): at the output of a branch it turns round at the dummy,
which is processed (`Guard`). A call or a loop returns when it has one result from some fuel on
(`Settles`).
-/

namespace StreamMill.Esl

open Lib

variable {τ ω : Type}

/-- What lies above `f` is left alone, and no tokens are added. -/
structure Frame (cat : Catalog) (P : List StmtId) (level : Name → Nat) (f : Name)
    (σ σ' : RunSt τ ω) : Prop where
  store : ∀ b, ¬ Below cat P f b → σ'.store b = σ.store b
  processed : ∀ q ∈ P, InFork cat P q → ¬ Below cat P f (cat q).inb →
    σ'.processed (dummyKey cat q) = σ.processed (dummyKey cat q)
  potential : potential cat P level σ' = potential cat P level σ ∨
    Lighter (potential cat P level σ') (potential cat P level σ)

/-- The statement in the entry of `f`, whose quota the calls from `f` use up. -/
def SourceStmt (t : BufStateTbl) (f : Name) (s : StmtId) : Prop :=
  ∃ e, t.lookup f = some e ∧ e.statement = some s

/-- `m` tuples are popped from the source `f`, within what `nTuples` and `quota_left` of the
statement `s` allow. -/
structure Draws (f : Name) (s : StmtId) (m : Nat) (σ σ' : RunSt τ ω) : Prop where
  le : m ≤ (σ.store f).length
  store : σ'.store f = (σ.store f).drop m
  nTuples : σ'.nTuples = σ.nTuples - m
  quotaLeft : σ'.quotaLeft = Function.update σ.quotaLeft s (σ.quotaLeft s - m)
  leTuples : (m : Int) ≤ max σ.nTuples 0
  leQuota : (m : Int) ≤ max (σ.quotaLeft s) 0 + 1

/-- What a call may do that walks below `f`. -/
structure After (cat : Catalog) (P : List StmtId) (t : BufStateTbl) (level : Name → Nat) (f : Name)
    (σ σ' : RunSt τ ω) : Prop extends Frame cat P level f σ σ' where
  inner : ¬ IsSource cat P f → σ'.nTuples = σ.nTuples ∧ σ'.quotaLeft = σ.quotaLeft
  drawn : IsSource cat P f → ∀ s, SourceStmt t f s → ∃ m, Draws f s m σ σ'

structure Move (cat : Catalog) (P : List StmtId) (level : Name → Nat) (f : Name)
    (σ σ' : RunSt τ ω) : Prop extends Frame cat P level f σ σ' where
  nTuples : σ'.nTuples = σ.nTuples
  quotaLeft : σ'.quotaLeft = σ.quotaLeft
  source : IsSource cat P f → σ'.store f = σ.store f

/-- A step that draws the front tuple of the source `f`. -/
structure Drawn (cat : Catalog) (P : List StmtId) (t : BufStateTbl) (level : Name → Nat) (f : Name)
    (s : StmtId) (σ σ' : RunSt τ ω) : Prop extends Frame cat P level f σ σ' where
  source : IsSource cat P f
  stmt : SourceStmt t f s
  pos : 0 < σ.nTuples
  nonempty : σ.store f ≠ []
  tail : σ'.store f = (σ.store f).tail
  nTuples : σ'.nTuples = σ.nTuples - 1
  quotaLeft : σ'.quotaLeft = Function.update σ.quotaLeft s (σ.quotaLeft s - 1)

/-- The walk turns round at `f`: it is a source, or the dummy before it is processed. -/
def Guard (cat : Catalog) (P : List StmtId) (f : Name) (σ : RunSt τ ω) : Prop :=
  IsSource cat P f ∨
    ∃ p ∈ P, (cat p).out = f ∧ InFork cat P p ∧ σ.processed (dummyKey cat p) = true

/-- From `f` to `k` there is no fork. -/
inductive Trunk (cat : Catalog) (P : List StmtId) (f : Name) : Name → Prop
  | here : Trunk cat P f f
  | next {b : Name} {c : StmtId} (htrunk : Trunk cat P f b) (hread : readers cat P b = [c]) :
      Trunk cat P f (cat c).out

section Steps

variable {cat : Catalog} {P : List StmtId} {t : BufStateTbl} {level : Name → Nat} {f : Name}
  {s : StmtId} {σ σ₁ σ' : RunSt τ ω}

theorem Frame.trans (h : Frame cat P level f σ σ₁) (h' : Frame cat P level f σ₁ σ') :
    Frame cat P level f σ σ' := by
  refine ⟨fun b hb => (h'.store b hb).trans (h.store b hb), fun q hq hf hb =>
    (h'.processed q hq hf hb).trans (h.processed q hq hf hb), ?_⟩
  rcases h.potential with heq | hlt
  · rw [← heq]
    exact h'.potential
  · rcases h'.potential with heq' | hlt'
    · rw [heq']
      exact .inr hlt
    · exact .inr (hlt'.trans hlt)

theorem Frame.draw (h : Frame cat P level f σ σ') (s : StmtId) :
    Frame cat P level f σ (σ'.draw s) := ⟨h.store, h.processed, h.potential⟩

theorem Guard.frame (hl : Levels cat P level) (h : Guard cat P f σ)
    (hfr : Frame cat P level f σ σ') : Guard cat P f σ' := by
  rcases h with hs | ⟨p, hp, rfl, hf, hproc⟩
  · exact .inl hs
  · exact .inr ⟨p, hp, rfl, hf, (hfr.processed p hp hf (not_below_inb hl hp)).trans hproc⟩

theorem Move.same (hstore : σ'.store = σ.store) (hproc : σ'.processed = σ.processed)
    (hn : σ'.nTuples = σ.nTuples) (hq : σ'.quotaLeft = σ.quotaLeft) :
    Move cat P level f σ σ' :=
  ⟨⟨fun _ _ => by rw [hstore], fun _ _ _ _ => by rw [hproc], .inl (potential_congr hstore hproc)⟩,
    hn, hq, fun _ => by rw [hstore]⟩

theorem Move.after (h : Move cat P level f σ σ') : After cat P t level f σ σ' := by
  refine ⟨h.toFrame, fun _ => ⟨h.nTuples, h.quotaLeft⟩, fun hs s _ => ⟨0, ?_⟩⟩
  exact
    { le := Nat.zero_le _
      store := h.source hs
      nTuples := by rw [h.nTuples]; simp
      quotaLeft := by rw [h.quotaLeft]; simp
      leTuples := by omega
      leQuota := by omega }

theorem After.of_move (h : Move cat P level f σ σ₁) (h' : After cat P t level f σ₁ σ') :
    After cat P t level f σ σ' := by
  refine ⟨h.toFrame.trans h'.toFrame, fun hs => ?_, fun hs s hst => ?_⟩
  · obtain ⟨hn, hq⟩ := h'.inner hs
    exact ⟨hn.trans h.nTuples, hq.trans h.quotaLeft⟩
  · obtain ⟨m, hm⟩ := h'.drawn hs s hst
    obtain ⟨hle, hstore, hn, hq, hmn, hmq⟩ := hm
    rw [h.source hs] at hle hstore
    rw [h.nTuples] at hn hmn
    rw [h.quotaLeft] at hq hmq
    exact ⟨m, hle, hstore, hn, hq, hmn, hmq⟩

theorem SourceStmt.unique {s s' : StmtId} (h : SourceStmt t f s) (h' : SourceStmt t f s') :
    s = s' := by
  obtain ⟨e, he, hs⟩ := h
  obtain ⟨e', he', hs'⟩ := h'
  rw [he, Option.some.injEq] at he'
  rw [he', hs', Option.some.injEq] at hs
  exact hs.symm

theorem Drawn.after (h : Drawn cat P t level f s σ σ') : After cat P t level f σ σ' := by
  refine ⟨h.toFrame, absurd h.source, fun _ s' hst => ⟨1, ?_⟩⟩
  obtain rfl := h.stmt.unique hst
  have hpos := h.pos
  exact
    { le := List.length_pos_iff.mpr h.nonempty
      store := by rw [h.tail, List.drop_one]
      nTuples := h.nTuples
      quotaLeft := h.quotaLeft
      leTuples := by omega
      leQuota := by omega }

/-- After a tuple is drawn, the walk goes on only while the quota is not used up. -/
theorem After.of_drawn (h : Drawn cat P t level f s σ σ₁) (hq₁ : 0 ≤ σ₁.quotaLeft s)
    (h' : After cat P t level f σ₁ σ') : After cat P t level f σ σ' := by
  refine ⟨h.toFrame.trans h'.toFrame, absurd h.source, fun hs s' hst => ?_⟩
  obtain rfl := h.stmt.unique hst
  obtain ⟨m, hm⟩ := h'.drawn hs s hst
  obtain ⟨hle, hstore, hn, hq, hmn, hmq⟩ := hm
  have hpos := h.pos
  have hlen := List.length_pos_iff.mpr h.nonempty
  rw [h.tail, List.length_tail] at hle
  rw [h.tail, List.drop_tail] at hstore
  rw [h.nTuples] at hn hmn
  rw [h.quotaLeft, Function.update_self] at hq hmq hq₁
  rw [Function.update_idem] at hq
  refine ⟨m + 1, by omega, hstore, by omega, ?_, by omega,
    by omega⟩
  rw [hq]
  congr 1
  omega

end Steps

section Settles

variable (cat : Catalog) (P : List StmtId) (t : BufStateTbl) (level : Name → Nat)

/-- From some fuel on, for the calls and for the loops, there is one result. -/
def Settles (f : Name) (σ : RunSt τ ω) (g : Nat → Nat → RunEnd τ ω) : Prop :=
  ∃ rc σ', (∃ F, ∀ n ≥ F, ∀ m ≥ F, g n m = some (rc, σ')) ∧ After cat P t level f σ σ'

/-- The call for the entry of `k` returns, from a walk below `f`. -/
def Returns (exe : Exe τ ω) (f k : Name) (σ : RunSt τ ω) : Prop :=
  Settles cat P t level f σ fun n _ => runState cat t exe n k σ

def Lower (exe : Exe τ ω) (M : Multiset Nat) : Prop :=
  ∀ σ, Lighter (potential cat P level σ) M → ∀ f k, Guard cat P f σ → Trunk cat P f k →
    readers cat P k ≠ [] → Returns cat P t level exe f k σ

end Settles

section Walk

variable {cat : Catalog} {P : List StmtId} {t : BufStateTbl} {level : Name → Nat} {exe : Exe τ ω}
  {f : Name} {σ σ₁ : RunSt τ ω} {g g' : Nat → Nat → RunEnd τ ω}

theorem settles_move (rc : RunRc) (h : Move cat P level f σ σ₁) :
    Settles cat P t level f σ fun _ _ => some (rc, σ₁) :=
  ⟨rc, σ₁, ⟨0, fun _ _ _ _ => rfl⟩, h.after⟩

theorem settles_drawn {s : StmtId} (rc : RunRc) (h : Drawn cat P t level f s σ σ₁) :
    Settles cat P t level f σ fun _ _ => some (rc, σ₁) :=
  ⟨rc, σ₁, ⟨0, fun _ _ _ _ => rfl⟩, h.after⟩

theorem Settles.of_move (h : Move cat P level f σ σ₁) (hg : Settles cat P t level f σ₁ g) :
    Settles cat P t level f σ g := by
  obtain ⟨rc, σ', hF, hafter⟩ := hg
  exact ⟨rc, σ', hF, hafter.of_move h⟩

theorem Settles.of_drawn {s : StmtId} (h : Drawn cat P t level f s σ σ₁)
    (hq : 0 ≤ σ₁.quotaLeft s) (hg : Settles cat P t level f σ₁ g) :
    Settles cat P t level f σ g := by
  obtain ⟨rc, σ', hF, hafter⟩ := hg
  exact ⟨rc, σ', hF, hafter.of_drawn h hq⟩

theorem Settles.congr (hg : Settles cat P t level f σ g) (h : ∀ n m, g' n m = g n m) :
    Settles cat P t level f σ g' := by
  obtain ⟨rc, σ', ⟨F, hF⟩, hafter⟩ := hg
  exact ⟨rc, σ', ⟨F, fun n hn m hm => (h n m).trans (hF n hn m hm)⟩, hafter⟩

theorem Settles.orSuccess (hg : Settles cat P t level f σ g) :
    Settles cat P t level f σ fun n m => orSuccess (g n m) := by
  obtain ⟨rc, σ', ⟨F, hF⟩, hafter⟩ := hg
  refine ⟨if rc = .failure then rc else .success, σ', ⟨F, fun n hn m hm => ?_⟩, hafter⟩
  simp only [hF n hn m hm, Esl.orSuccess, Option.map_some]
  by_cases hrc : rc = .failure
  · rw [if_pos hrc, if_pos hrc]
  · rw [if_neg hrc, if_neg hrc]

theorem from_succ {r : RunEnd τ ω} {run : Nat → RunEnd τ ω} {F : Nat}
    (h : ∀ n ≥ F, run (n + 1) = r) : ∃ F, ∀ n ≥ F, run n = r := by
  refine ⟨F + 1, fun n hn => ?_⟩
  obtain ⟨n, rfl⟩ : ∃ i, n = i + 1 := ⟨n - 1, by omega⟩
  exact h n (by omega)

/-- A call takes one of the fuel for the calls in it, and what is left for its loop. -/
theorem Settles.call (hg : Settles cat P t level f σ g) (h : ∀ n m, g' (n + 1) m = g n n) :
    Settles cat P t level f σ g' := by
  obtain ⟨rc, σ', ⟨F, hF⟩, hafter⟩ := hg
  refine ⟨rc, σ', ⟨F + 1, fun n hn m _ => ?_⟩, hafter⟩
  obtain ⟨n, rfl⟩ : ∃ i, n = i + 1 := ⟨n - 1, by omega⟩
  exact (h n m).trans (hF n (by omega) n (by omega))

theorem Settles.pass (hg : Settles cat P t level f σ g) (F₀ : Nat)
    (h : ∀ n ≥ F₀, ∀ m, g' n (m + 1) = g n m) : Settles cat P t level f σ g' := by
  obtain ⟨rc, σ', ⟨F, hF⟩, hafter⟩ := hg
  refine ⟨rc, σ', ⟨max F₀ (F + 1), fun n hn m hm => ?_⟩, hafter⟩
  obtain ⟨m, rfl⟩ : ∃ i, m = i + 1 := ⟨m - 1, by omega⟩
  exact (h n (by omega) m).trans (hF n (by omega) m (by omega))

theorem Lower.mono {M M' : Multiset Nat} (h : Lower cat P t level exe M)
    (hle : M' = M ∨ Lighter M' M) : Lower cat P t level exe M' := by
  intro σ hσ
  rcases hle with rfl | hlt
  · exact h σ hσ
  · exact h σ (hσ.trans hlt)

theorem Trunk.isBelow (h : NormalGraph cat P t) {k : Name} (ht : Trunk cat P f k) :
    Below cat P f k := by
  induction ht with
  | here => exact .refl
  | next _ hread ih =>
    obtain ⟨hc, rfl⟩ := h.reads_alone hread
    exact ih.tail ⟨_, hc, rfl, rfl⟩

theorem orSuccess_ne_noInput {r : RunEnd τ ω} {σ : RunSt τ ω} :
    orSuccess r ≠ some (.noInput, σ) := by
  rintro hr
  obtain ⟨q, -, hq⟩ := Option.map_eq_some_iff.mp hr
  by_cases hfail : q.1 = .failure
  · rw [if_pos hfail] at hq
    rw [hq] at hfail
    cases hfail
  · rw [if_neg hfail] at hq
    cases hq

/-- The count of calls is not part of what the walk depends on. -/
def RunSt.called (σ : RunSt τ ω) : RunSt τ ω := { σ with recursionCount := σ.recursionCount + 1 }

theorem called_move (f : Name) (σ : RunSt τ ω) : Move cat P level f σ σ.called :=
  .same rfl rfl rfl rfl

theorem runState_inner {k : Name} {e : BufferEntry} (hk : t.lookup k = some e)
    (hty : ¬ (e.bType = .source ∨ e.bType = .sourceFork)) (n : Nat) (σ : RunSt τ ω) :
    runState cat t exe (n + 1) k σ = runAction cat t exe (runState cat t exe n) n k e σ.called := by
  simp [runState, hk, if_neg hty, RunSt.called]

theorem runState_source (exe : Exe τ ω) {k : Name} {e : BufferEntry} {s : StmtId}
    (hk : t.lookup k = some e) (hty : e.bType = .source ∨ e.bType = .sourceFork)
    (hs : e.statement = some s) (hb : e.buf = some k) (σ : RunSt τ ω) :
    (∃ rc σ', Move cat P level f σ σ' ∧ ∀ n, runState cat t exe (n + 1) k σ = some (rc, σ')) ∨
      σ.store k ≠ [] ∧ 0 < σ.nTuples ∧ (e.bType = .source → 0 < σ.quotaLeft s) ∧
        ∀ n, runState cat t exe (n + 1) k σ =
          runAction cat t exe (runState cat t exe n) n k e σ.called := by
  by_cases hrec : 10 < σ.called.recursionCount
  · refine .inl ⟨.success, { σ.called with recursionCount := 0 }, .same rfl rfl rfl rfl,
      fun n => ?_⟩
    simp only [RunSt.called] at hrec
    simp only [runState, hk, if_pos hty, if_pos hrec, RunSt.called]
  have hstep : ∀ n, runState cat t exe (n + 1) k σ =
      if σ.called.store k = [] then some (.noInput, σ.called)
      else if σ.called.quotaLeft s ≤ 0 ∧ e.bType = .source then some (.success, σ.called)
      else if σ.called.nTuples ≤ 0 then some (.success, σ.called)
      else runAction cat t exe (runState cat t exe n) n k e σ.called := by
    intro n
    simp only [RunSt.called] at hrec
    simp only [runState, hk, if_pos hty, if_neg hrec, hs, hb]
    rfl
  by_cases hne : σ.called.store k = []
  · exact .inl ⟨.noInput, _, called_move f σ, fun n => by rw [hstep, if_pos hne]⟩
  by_cases hq : σ.called.quotaLeft s ≤ 0 ∧ e.bType = .source
  · exact .inl ⟨.success, _, called_move f σ, fun n => by rw [hstep, if_neg hne, if_pos hq]⟩
  by_cases hn : σ.called.nTuples ≤ 0
  · exact .inl ⟨.success, _, called_move f σ, fun n => by
      rw [hstep, if_neg hne, if_neg hq, if_pos hn]⟩
  · refine .inr ⟨hne, not_le.mp hn, fun hsrc => ?_, fun n => by
      rw [hstep, if_neg hne, if_neg hq, if_neg hn]⟩
    exact not_le.mp fun hle => hq ⟨hle, hsrc⟩

theorem exeStmt_some (exe : Exe τ ω) {c : StmtId} (hne : σ.store (cat c).inb ≠ []) :
    ∃ rc ds w, exeStmt cat exe c σ = (some rc, { σ.put (cat c).out ds with world := w }) := by
  obtain ⟨d, ds, hd⟩ := List.exists_cons_of_ne_nil hne
  by_cases hv : (cat c).valid
  · refine ⟨(exe c σ.world d).2.1, (exe c σ.world d).1, (exe c σ.world d).2.2, ?_⟩
    simp [exeStmt, if_pos hv, hd]
  · refine ⟨.failure, [], σ.world, ?_⟩
    rw [exeStmt, if_neg hv, RunSt.put, List.append_nil, Function.update_eq_self]

end Walk

section Exec

variable {cat : Catalog} {P : List StmtId} {t : BufStateTbl} {level : Name → Nat} {f : Name}

/-- The state when `c` has taken a tuple from its input and put `ds` to its output. -/
def RunSt.passed (cat : Catalog) (σ : RunSt τ ω) (c : StmtId) (ds : List τ) (w : ω) : RunSt τ ω :=
  RunSt.pop { σ.put (cat c).out ds with world := w } (cat c).inb

variable {σ : RunSt τ ω} {c : StmtId} {ds : List τ} {w : ω}

theorem passed_store : (σ.passed cat c ds w).store =
    let store' := Function.update σ.store (cat c).out (σ.store (cat c).out ++ ds)
    Function.update store' (cat c).inb (store' (cat c).inb).tail := rfl

theorem passed_inb (hne : (cat c).out ≠ (cat c).inb) :
    (σ.passed cat c ds w).store (cat c).inb = (σ.store (cat c).inb).tail := by
  rw [passed_store, Function.update_self, Function.update_of_ne hne.symm]

theorem passed_other {b : Name} (hi : b ≠ (cat c).inb) (ho : b ≠ (cat c).out) :
    (σ.passed cat c ds w).store b = σ.store b := by
  rw [passed_store, Function.update_of_ne hi, Function.update_of_ne ho]

theorem tail_length_lt {l : List τ} (h : l ≠ []) : l.tail.length < l.length := by
  have hpos := List.length_pos_iff.mpr h
  rw [List.length_tail]
  omega

theorem passed_lighter (hl : Levels cat P level) (hc : c ∈ P)
    (hne : σ.store (cat c).inb ≠ []) :
    Lighter (potential cat P level (σ.passed cat c ds w)) (potential cat P level σ) := by
  refine potential_exe hl hc ?_ (fun b hi ho => passed_other hi ho) fun _ _ _ => rfl
  rw [passed_inb (hl.out_ne_inb hc)]
  exact tail_length_lt hne

theorem passed_frame (hl : Levels cat P level) (hc : c ∈ P) (hb : Below cat P f (cat c).inb)
    (hne : σ.store (cat c).inb ≠ []) : Frame cat P level f σ (σ.passed cat c ds w) := by
  refine ⟨fun b hnb => passed_other ?_ ?_, fun _ _ _ _ => rfl, .inr (passed_lighter hl hc hne)⟩
  · rintro rfl
    exact hnb hb
  · rintro rfl
    exact hnb (hb.trans (Below.out hc))

end Exec

section OneReader

open NormalGraph

variable {cat : Catalog} {P : List StmtId} {t : BufStateTbl} {level : Name → Nat} {exe : Exe τ ω}
  {M : Multiset Nat} {f k : Name} {c : StmtId} {e : BufferEntry} {σ : RunSt τ ω}

theorem back_here (h : NormalGraph cat P t) (hg : Guard cat P f σ) (hs : ¬ IsSource cat P f)
    (he : t.lookup f = some e) :
    Settles cat P t level f σ fun n _ => runBack (runState cat t exe n) e σ := by
  obtain ⟨p, hp, rfl, hf, hproc⟩ := hg.resolve_left hs
  have hback := h.back hp he
  rw [if_pos hf] at hback
  refine Settles.call (settles_move .success (called_move _ σ)) fun n _ => ?_
  rw [runBack, hback]
  dsimp only
  rw [runState_inner (h.dummy hp hf) (by simp [dummyEntry])]
  simp [runAction, dummyEntry, h.normal p hp, runJump, RunSt.called, hproc]

theorem back_next (h : NormalGraph cat P t) {b : Name} (hread : readers cat P b = [c])
    (he : t.lookup (cat c).out = some e) (hret : Returns cat P t level exe f b σ) :
    Settles cat P t level f σ fun n _ => runBack (runState cat t exe n) e σ := by
  obtain ⟨hc, rfl⟩ := h.reads_alone hread
  have hback := h.back hc he
  rw [if_neg (by rw [InFork, hread]; simp)] at hback
  exact hret.congr fun n _ => by simp [runBack, hback]

theorem back_lower (h : NormalGraph cat P t) (hlow : Lower cat P t level exe M)
    (hlt : Lighter (potential cat P level σ) M) (hg : Guard cat P f σ) (ht : Trunk cat P f k)
    (hs : ¬ IsSource cat P k) (he : t.lookup k = some e) :
    Settles cat P t level f σ fun n _ => runBack (runState cat t exe n) e σ := by
  cases ht with
  | here => exact back_here h hg hs he
  | next ht' hread => exact back_next h hread he (hlow σ hlt f _ hg ht' (by simp [hread]))

theorem again_settles (hlow : Lower cat P t level exe M)
    (hlt : Lighter (potential cat P level σ) M) (hg : Guard cat P f σ) (ht : Trunk cat P f k)
    (hread : readers cat P k = [c]) (he : OneReader cat P t k c e) :
    Settles cat P t level f σ fun n _ => runAgain (runState cat t exe n) e σ :=
  (hlow σ hlt f k hg ht (by simp [hread])).orSuccess.congr fun n _ => by
    simp [runAgain, he.inplace]

section

variable (h : NormalGraph cat P t) (hlow : Lower cat P t level exe M)
  (hlt : Lighter (potential cat P level σ) M) (hg : Guard cat P f σ) (ht : Trunk cat P f k)
  (hread : readers cat P k = [c]) (he : OneReader cat P t k c e)
include h hlow hlt hg ht hread he

theorem next_settles :
    Settles cat P t level f σ fun n _ =>
      runNext t (runState cat t exe n) e (runAgain (runState cat t exe n) e) σ := by
  obtain ⟨hc, -⟩ := h.reads_alone hread
  obtain ⟨ty, hty, hsink⟩ := h.tyAt_out hc
  by_cases hnil : readers cat P (cat c).out = []
  · refine (again_settles hlow hlt hg ht hread he).congr fun n _ => ?_
    simp [runNext, he.forward, hty, if_pos (hsink.mpr hnil)]
  · refine (hlow σ hlt f _ hg (.next ht hread) hnil).orSuccess.congr fun n _ => ?_
    simp [runNext, he.forward, hty, if_neg (mt hsink.mp hnil)]

theorem on_settles (rc : ExeRc) :
    Settles cat P t level f σ fun n _ => runOn t (runState cat t exe n) e rc σ := by
  cases rc with
  | success => exact next_settles h hlow hlt hg ht hread he
  | noOutput => exact again_settles hlow hlt hg ht hread he
  | failure => exact settles_move .failure (.same rfl rfl rfl rfl)

end

theorem cjump_settles (h : NormalGraph cat P t) (hl : Levels cat P level)
    (hlow : Lower cat P t level exe M) (hpot : potential cat P level σ = M) (hg : Guard cat P f σ)
    (ht : Trunk cat P f k) (hread : readers cat P k = [c]) (he : OneReader cat P t k c e)
    (hback : ¬ IsSource cat P k →
      Settles cat P t level f σ fun n _ => runBack (runState cat t exe n) e σ)
    (hsrc : IsSource cat P k → σ.store k ≠ [] ∧ 0 < σ.nTuples) :
    Settles cat P t level f σ fun n _ => runCjump cat t exe (runState cat t exe n) e c k σ := by
  obtain ⟨hc, rfl⟩ := h.reads_alone hread
  by_cases hne : σ.store (cat c).inb = []
  · have hs : ¬ IsSource cat P (cat c).inb := fun hs => (hsrc hs).1 hne
    exact (hback hs).congr fun n _ => by
      rw [runCjump, if_pos (.inl (he.normal hs)), if_pos hne]
  obtain ⟨rc, ds, w, hexe⟩ := exeStmt_some exe hne
  have hfr : Frame cat P level f σ (σ.passed cat c ds w) := passed_frame hl hc (ht.isBelow h) hne
  have hlt : Lighter (potential cat P level (σ.passed cat c ds w)) M :=
    hpot ▸ passed_lighter hl hc hne
  by_cases hs : IsSource cat P (cat c).inb
  · obtain rfl := (ht.isBelow h).source hs
    let σ₂ := (σ.passed cat c ds w).draw c
    have hdrawn : Drawn cat P t level (cat c).inb c σ σ₂ :=
      { toFrame := hfr.draw c
        source := hs
        stmt := ⟨e, he.lookup, he.statement⟩
        pos := (hsrc hs).2
        nonempty := hne
        tail := passed_inb (hl.out_ne_inb hc)
        nTuples := rfl
        quotaLeft := rfl }
    have hrun : ∀ n, runCjump cat t exe (runState cat t exe n) e c (cat c).inb σ =
        if σ₂.quotaLeft c < 0 ∨ σ₂.nTuples < 0 then some (.success, σ₂)
        else runOn t (runState cat t exe n) e rc σ₂ := by
      intro n
      simp only [runCjump, he.source hs, hexe, if_neg hne, or_true, if_true, true_and]
      rfl
    by_cases hstop : σ₂.quotaLeft c < 0 ∨ σ₂.nTuples < 0
    · exact (settles_drawn .success hdrawn).congr fun n _ => by rw [hrun, if_pos hstop]
    · have hon := on_settles (σ := σ₂) h hlow hlt (hg.frame hl hdrawn.toFrame) .here hread he rc
      refine (hon.of_drawn hdrawn ?_).congr fun n _ => by rw [hrun, if_neg hstop]
      exact not_lt.mp fun hq => hstop (.inl hq)
  · have hmove : Move cat P level f σ (σ.passed cat c ds w) := by
      refine ⟨hfr, rfl, rfl, fun hfs => passed_other ?_ ?_⟩
      · rintro rfl
        exact hs hfs
      · exact fun heq => hfs ⟨c, hc, heq.symm⟩
    have hon := on_settles h hlow hlt (hg.frame hl hfr) ht hread he rc
    refine (hon.of_move hmove).congr fun n _ => ?_
    simp only [runCjump, he.normal hs, hexe, if_neg hne, true_or, if_true]
    rfl

end OneReader

end StreamMill.Esl
