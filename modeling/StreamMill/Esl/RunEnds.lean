import Mathlib.Data.List.TakeWhile
import StreamMill.Esl.RunWalk

/-!
# StreamMill.Esl.RunEnds

Every call of `runState` from a source state returns, and how many tuples it pops there: by
induction on the tokens, with the branches of a fork run one after the other until the tuple is
popped.
-/

namespace StreamMill.Esl

open Lib

variable {τ ω : Type}

section Branch

variable {cat : Catalog} {P : List StmtId} {t : BufStateTbl} {level : Name → Nat} {exe : Exe τ ω}
  {M : Multiset Nat} {f : Name} {p : StmtId} {σ σ₁ σ' : RunSt τ ω}

/-- The branch of `p` has run on the front tuple of its fork. -/
structure Branched (cat : Catalog) (P : List StmtId) (level : Name → Nat) (p : StmtId)
    (σ σ' : RunSt τ ω) : Prop where
  store : ∀ b, ¬ Below cat P (cat p).out b → σ'.store b = σ.store b
  processed : ∀ q ∈ P, q ≠ p → InFork cat P q → ¬ Below cat P (cat p).out (cat q).inb →
    σ'.processed (dummyKey cat q) = σ.processed (dummyKey cat q)
  done : σ'.processed (dummyKey cat p) = true
  nTuples : σ'.nTuples = σ.nTuples
  quotaLeft : σ'.quotaLeft = σ.quotaLeft
  lighter : Lighter (potential cat P level σ') (potential cat P level σ)

theorem marked_branched (h : NormalGraph cat P t) (hl : Levels cat P level) (hp : p ∈ P)
    (hf : InFork cat P p) (hopen : σ.processed (dummyKey cat p) = false) (ds : List τ) (w : ω) :
    Branched cat P level p σ
      (RunSt.mark { σ.called.put (cat p).out ds with world := w } (dummyKey cat p)) := by
  have hstore : ∀ b, b ≠ (cat p).out →
      Function.update σ.store (cat p).out (σ.store (cat p).out ++ ds) b = σ.store b :=
    fun b hb => Function.update_of_ne hb _ _
  have hproc : ∀ q ∈ P, q ≠ p → InFork cat P q →
      Function.update σ.processed (dummyKey cat p) true (dummyKey cat q) =
        σ.processed (dummyKey cat q) :=
    fun q hq hne hfq => Function.update_of_ne (fun heq => hne (h.dummyKey_inj hq hp hfq hf heq)) _ _
  have hdone : Function.update σ.processed (dummyKey cat p) true (dummyKey cat p) = true :=
    Function.update_self _ _ _
  refine ⟨fun b hb => hstore b ?_, fun q hq hne hfq _ => hproc q hq hne hfq, hdone, rfl, rfl,
    potential_branch hl hp hf hopen hdone hstore hproc⟩
  rintro rfl
  exact hb .refl

theorem Branched.after (hl : Levels cat P level) (hp : p ∈ P) (hf : InFork cat P p)
    (h : Branched cat P level p σ σ₁) (h' : After cat P t level (cat p).out σ₁ σ') :
    Branched cat P level p σ σ' := by
  obtain ⟨hn, hq⟩ := h'.inner fun hs => hs ⟨p, hp, rfl⟩
  refine ⟨fun b hb => (h'.store b hb).trans (h.store b hb), fun q hqP hne hfq hb =>
    (h'.processed q hqP hfq hb).trans (h.processed q hqP hne hfq hb),
    (h'.processed p hp hf (not_below_inb hl hp)).trans h.done, hn.trans h.nTuples,
    hq.trans h.quotaLeft, ?_⟩
  rcases h'.potential with heq | hlt
  · rw [heq]
    exact h.lighter
  · exact hlt.trans h.lighter

theorem Branched.move (hp : p ∈ P) (hb : Below cat P f (cat p).inb)
    (h : Branched cat P level p σ σ') : Move cat P level f σ σ' := by
  have hout : Below cat P f (cat p).out := hb.trans (Below.out hp)
  refine ⟨⟨fun b hnb => h.store b fun hb' => hnb (hout.trans hb'), fun q hq hfq hnb => ?_,
    .inr h.lighter⟩, h.nTuples, h.quotaLeft, fun hs => h.store f fun hb' => ?_⟩
  · refine h.processed q hq ?_ hfq fun hb' => hnb (hout.trans hb')
    rintro rfl
    exact hnb hb
  · have heq := hb'.source hs
    exact hs ⟨p, hp, heq.symm⟩

theorem jump_returns (h : NormalGraph cat P t) (hl : Levels cat P level)
    (hlow : Lower cat P t level exe M) (hle : potential cat P level σ = M) (hp : p ∈ P)
    (hf : InFork cat P p) (hopen : σ.processed (dummyKey cat p) = false)
    (hne : σ.store (cat p).inb ≠ []) :
    ∃ rc σ', (∃ F, ∀ n ≥ F, runState cat t exe n (dummyKey cat p) σ = some (rc, σ')) ∧
      rc ≠ .noInput ∧ Branched cat P level p σ σ' := by
  obtain ⟨rc, ds, w, hexe⟩ := exeStmt_some (σ := σ.called) exe hne
  let σ₂ := RunSt.mark { σ.called.put (cat p).out ds with world := w } (dummyKey cat p)
  have hmark : Branched cat P level p σ σ₂ := marked_branched h hl hp hf hopen ds w
  let e := dummyEntry (some p) (cat p).inb (cat p).out
  have hcall : ∀ n, runState cat t exe (n + 1) (dummyKey cat p) σ =
      runJump cat t exe (runState cat t exe n) e p (dummyKey cat p) σ.called := by
    intro n
    rw [runState_inner (h.dummy hp hf) (by simp [dummyEntry])]
    simp [runAction, dummyEntry, if_pos (h.normal p hp), e]
  have hstays : σ.called.processed (dummyKey cat p) = false := hopen
  cases rc with
  | failure =>
    refine ⟨.failure, σ₂, from_succ (F := 0) fun n _ => ?_, by simp, hmark⟩
    rw [hcall]
    simp [runJump, hexe, hstays, e, dummyEntry, σ₂]
  | noOutput =>
    refine ⟨.success, σ₂, from_succ (F := 0) fun n _ => ?_, by simp, hmark⟩
    rw [hcall]
    simp [runJump, hexe, hstays, e, dummyEntry, σ₂]
  | success =>
    obtain ⟨ty, hty, hsink⟩ := h.tyAt_out hp
    have hnext : ∀ n, runState cat t exe (n + 1) (dummyKey cat p) σ =
        if ty = .sink ∨ ty = .mergeSink then some (.success, σ₂)
        else orSuccess (runState cat t exe n (cat p).out σ₂) := by
      intro n
      rw [hcall]
      simp only [runJump, hexe, hstays, e, dummyEntry, if_true, Bool.false_eq_true, if_false,
        runNext, hty]
      rfl
    by_cases hnil : readers cat P (cat p).out = []
    · refine ⟨.success, σ₂, from_succ (F := 0) fun n _ => ?_, by simp, hmark⟩
      rw [hnext, if_pos (hsink.mpr hnil)]
    · have hguard : Guard cat P (cat p).out σ₂ := .inr ⟨p, hp, rfl, hf, hmark.done⟩
      obtain ⟨rc, σ', ⟨F, hF⟩, hafter⟩ :=
        (hlow σ₂ (hle ▸ hmark.lighter) (cat p).out (cat p).out hguard .here hnil).orSuccess
      refine ⟨rc, σ', from_succ (F := F) fun n hn => ?_, ?_, hmark.after hl hp hf hafter⟩
      · rw [hnext, if_neg (mt hsink.mp hnil)]
        exact hF n hn F (le_refl F)
      · rintro rfl
        exact orSuccess_ne_noInput (hF F (le_refl F) F (le_refl F))

end Branch

section Fork

open NormalGraph

variable {cat : Catalog} {P : List StmtId} {t : BufStateTbl} {level : Name → Nat} {exe : Exe τ ω}
  {M : Multiset Nat} {f b : Name} {e : BufferEntry} {σ : RunSt τ ω}

/-- The state when the dummies of `b` are open again and the front tuple is popped. -/
def RunSt.reopened (t : BufStateTbl) (σ : RunSt τ ω) (b : Name) : RunSt τ ω :=
  (σ.unmark (dummiesOf t b)).pop b

theorem reopened_processed (h : NormalGraph cat P t) {q : StmtId} (hq : q ∈ P)
    (hb : (cat q).inb ≠ b) (hf : InFork cat P q) :
    (σ.reopened t b).processed (dummyKey cat q) = σ.processed (dummyKey cat q) := by
  refine if_neg fun hmem => ?_
  obtain ⟨p, hp, hfp, heq⟩ := h.mem_dummiesOf.mp (List.contains_iff_mem.mp hmem)
  obtain ⟨hpP, hpb⟩ := h.mem_reads.mp hp
  exact hb (h.dummyKey_inj hq hpP hf hfp heq ▸ hpb)

theorem reopened_store :
    (σ.reopened t b).store = Function.update σ.store b (σ.store b).tail := rfl

theorem reopened_other {b' : Name} (hb : b' ≠ b) : (σ.reopened t b).store b' = σ.store b' := by
  rw [reopened_store, Function.update_of_ne hb]

theorem reopened_self : (σ.reopened t b).store b = (σ.store b).tail := by
  rw [reopened_store, Function.update_self]

theorem reopened_lighter (h : NormalGraph cat P t) (hr : readers cat P b ≠ [])
    (hne : σ.store b ≠ []) :
    Lighter (potential cat P level (σ.reopened t b)) (potential cat P level σ) := by
  obtain ⟨c, hc⟩ := List.exists_mem_of_ne_nil _ hr
  obtain ⟨hcP, rfl⟩ := h.mem_reads.mp hc
  refine potential_reopen hcP ?_ (fun b' hb' => reopened_other hb')
    fun q hq hb' hf => reopened_processed h hq hb' hf
  rw [reopened_self]
  exact tail_length_lt hne

theorem reopened_frame (h : NormalGraph cat P t) (hr : readers cat P b ≠ [])
    (hb : Below cat P f b) (hne : σ.store b ≠ []) :
    Frame cat P level f σ (σ.reopened t b) := by
  refine ⟨fun b' hnb => reopened_other ?_, fun q hq hf hnb => reopened_processed h hq ?_ hf,
    .inr (reopened_lighter h hr hne)⟩
  · rintro rfl
    exact hnb hb
  · rintro rfl
    exact hnb hb

theorem done_settles (h : NormalGraph cat P t) (hl : Levels cat P level)
    (hlow : Lower cat P t level exe M)
    (hle : potential cat P level σ = M ∨ Lighter (potential cat P level σ) M)
    (hg : Guard cat P f σ) (ht : Trunk cat P f b) (he : ManyReaders cat P t b e)
    (hr : readers cat P b ≠ []) (hne : σ.store b ≠ []) (hpos : IsSource cat P b → 0 < σ.nTuples)
    (again : Nat → Nat → RunSt τ ω → RunEnd τ ω)
    (hagain : ∀ σ₂, Lighter (potential cat P level σ₂) M → Guard cat P f σ₂ → σ₂.store b ≠ [] →
      Settles cat P t level f σ₂ fun n m => again n m σ₂) :
    Settles cat P t level f σ fun n m =>
      forkDone (runState cat t exe n) e e.statement b (again n m) (σ.unmark (dummiesOf t b)) := by
  have hfr : Frame cat P level f σ (σ.reopened t b) := reopened_frame h hr (ht.isBelow h) hne
  have hlight : Lighter (potential cat P level (σ.reopened t b)) (potential cat P level σ) :=
    reopened_lighter h hr hne
  have hlt : Lighter (potential cat P level (σ.reopened t b)) M := by
    rcases hle with rfl | hlt
    · exact hlight
    · exact hlight.trans hlt
  by_cases hs : IsSource cat P b
  · obtain rfl := (ht.isBelow h).source hs
    obtain ⟨hty, s, hst⟩ := he.source hs
    let σ₂ := (σ.reopened t b).draw s
    have hdrawn : Drawn cat P t level b s σ σ₂ :=
      { toFrame := hfr.draw s
        source := hs
        stmt := ⟨e, he.lookup, hst⟩
        pos := hpos hs
        nonempty := hne
        tail := reopened_self
        nTuples := rfl
        quotaLeft := rfl }
    have hrun : ∀ n m, forkDone (runState cat t exe n) e e.statement b (again n m)
        (σ.unmark (dummiesOf t b)) =
        if σ₂.quotaLeft s < 0 ∨ σ₂.nTuples < 0 ∨ σ₂.store b = [] then some (.success, σ₂)
        else again n m σ₂ := by
      intro n m
      simp only [forkDone, hty, hst, if_true]
      rfl
    by_cases hstop : σ₂.quotaLeft s < 0 ∨ σ₂.nTuples < 0 ∨ σ₂.store b = []
    · exact (settles_drawn .success hdrawn).congr fun n m => by rw [hrun, if_pos hstop]
    · have hgo := hagain σ₂ hlt (hg.frame hl hdrawn.toFrame) fun hnil => hstop (.inr (.inr hnil))
      refine (hgo.of_drawn hdrawn ?_).congr fun n m => by rw [hrun, if_neg hstop]
      exact not_lt.mp fun hq => hstop (.inl hq)
  · have hmove : Move cat P level f σ (σ.reopened t b) := by
      refine ⟨hfr, rfl, rfl, fun hfs => reopened_other ?_⟩
      rintro rfl
      exact hs hfs
    have hrun : ∀ n m, forkDone (runState cat t exe n) e e.statement b (again n m)
        (σ.unmark (dummiesOf t b)) =
        if (σ.reopened t b).store b = [] then runBack (runState cat t exe n) e (σ.reopened t b)
        else again n m (σ.reopened t b) := by
      intro n m
      simp only [forkDone, he.normal hs]
      rfl
    have hguard := hg.frame hl hfr
    by_cases hnil : (σ.reopened t b).store b = []
    · refine ((back_lower h hlow hlt hguard ht hs he.lookup).of_move hmove).congr fun n m => ?_
      rw [hrun, if_pos hnil]
    · refine ((hagain _ hlt hguard hnil).of_move hmove).congr fun n m => ?_
      rw [hrun, if_neg hnil]

theorem forkPass_nil {run : Name → RunSt τ ω → RunEnd τ ω} {s : Option StmtId} {ks : List Name}
    {loop : List Name → Int → RunSt τ ω → RunEnd τ ω} (hall : ∀ k ∈ ks, σ.processed k = true) :
    forkPass run e s b ks loop [] 0 σ =
      forkDone run e s b (loop ks ks.length) (σ.unmark ks) := by
  have hdrop : ks.dropWhile σ.processed = [] := List.dropWhile_eq_nil_iff.mpr hall
  simp [forkPass, hdrop]

theorem forkPass_cons {run : Name → RunSt τ ω → RunEnd τ ω} {s : Option StmtId} {ks : List Name}
    {loop : List Name → Int → RunSt τ ω → RunEnd τ ω} {k : Name} {rest : List Name} {n : Int} :
    forkPass run e s b ks loop (k :: rest) n σ = loop (k :: rest) n σ := by
  simp [forkPass]

/-- In the loop of the fork `b`, with `rest` the dummies to come in the pass. -/
structure Passing (t : BufStateTbl) (b : Name) (rest : List Name) (σ : RunSt τ ω) : Prop where
  nonempty : σ.store b ≠ []
  subset : ∀ k ∈ rest, k ∈ dummiesOf t b
  done : ∀ k ∈ dummiesOf t b, k ∉ rest → σ.processed k = true

/-- The loop returns that has the tokens `M` and `rest` to come. -/
def LoopSettles (cat : Catalog) (P : List StmtId) (t : BufStateTbl) (level : Name → Nat)
    (exe : Exe τ ω) (f b : Name) (e : BufferEntry) (M : Multiset Nat) (rest : List Name) : Prop :=
  ∀ σ, potential cat P level σ = M → Guard cat P f σ → Passing t b rest σ → rest ≠ [] →
    Settles cat P t level f σ fun n m =>
      forkLoop (runState cat t exe n) e e.statement b (dummiesOf t b) m rest rest.length σ

section

variable (h : NormalGraph cat P t) (hl : Levels cat P level) (hlow : Lower cat P t level exe M)
  (ht : Trunk cat P f b) (he : ManyReaders cat P t b e) (hr : 2 ≤ (readers cat P b).length)
  (hout : ∀ M', Lighter M' M → ∀ rest, LoopSettles cat P t level exe f b e M' rest)
include h hl hlow ht he hr hout

theorem pass_settles {ks : List Name} (hin : LoopSettles cat P t level exe f b e M ks)
    (hle : potential cat P level σ = M ∨ Lighter (potential cat P level σ) M) (hg : Guard cat P f σ)
    (hpass : Passing t b ks σ) (hpos : IsSource cat P b → 0 < σ.nTuples) :
    Settles cat P t level f σ fun n m =>
      forkPass (runState cat t exe n) e e.statement b (dummiesOf t b)
        (forkLoop (runState cat t exe n) e e.statement b (dummiesOf t b) m) ks ks.length σ := by
  cases ks with
  | nil =>
    have hne : readers cat P b ≠ [] := by
      intro hnil
      simp [hnil] at hr
    have hall : dummiesOf t b ≠ [] := by
      intro hnil
      have hlen := h.dummiesOf_length hr
      rw [hnil, List.length_nil] at hlen
      omega
    have hdone := done_settles h hl hlow hle hg ht he hne hpass.nonempty hpos
      (fun n m => forkLoop (runState cat t exe n) e e.statement b (dummiesOf t b) m
        (dummiesOf t b) (dummiesOf t b).length)
      fun σ₂ hlt hg₂ hne₂ => hout _ hlt _ σ₂ rfl hg₂
        ⟨hne₂, fun _ hk => hk, fun k hk hnk => absurd hk hnk⟩ hall
    exact hdone.congr fun n m => forkPass_nil fun k hk => hpass.done k hk List.not_mem_nil
  | cons k ks =>
    have hloop : Settles cat P t level f σ fun n m =>
        forkLoop (runState cat t exe n) e e.statement b (dummiesOf t b) m (k :: ks)
          (k :: ks).length σ := by
      rcases hle with heq | hlt
      · exact hin σ heq hg hpass (List.cons_ne_nil k ks)
      · exact hout _ hlt _ σ rfl hg hpass (List.cons_ne_nil k ks)
    exact hloop.congr fun n m => forkPass_cons

theorem loop_step (k : Name) {ks : List Name} (hin : LoopSettles cat P t level exe f b e M ks) :
    LoopSettles cat P t level exe f b e M (k :: ks) := by
  intro σ hpot hg hpass _
  have hlen : ((k :: ks).length : Int) - 1 = ks.length := by
    rw [List.length_cons]
    omega
  by_cases hstop : e.bType = .sourceFork ∧ σ.nTuples ≤ 0
  · refine Settles.pass (settles_move .success (.same rfl rfl rfl rfl)) 0 fun n _ m => ?_
    rw [forkLoop, if_pos hstop]
  have hpos : IsSource cat P b → 0 < σ.nTuples :=
    fun hs => not_le.mp fun hn => hstop ⟨(he.source hs).1, hn⟩
  by_cases hk : σ.processed k = true
  · have hpass' : Passing t b ks σ := by
      refine ⟨hpass.nonempty, fun k' hk' => hpass.subset k' (List.mem_cons_of_mem k hk'),
        fun k' hk' hnot => ?_⟩
      by_cases heq : k' = k
      · rw [heq]
        exact hk
      · exact hpass.done k' hk' (List.not_mem_cons_of_ne_of_not_mem heq hnot)
    have hend := pass_settles h hl hlow ht he hr hout hin (.inl hpot) hg hpass' hpos
    refine hend.pass 0 fun n _ m => ?_
    simp [forkLoop, if_neg hstop, if_pos hk]
  · obtain ⟨p, hp, hf, rfl⟩ := h.mem_dummiesOf.mp (hpass.subset k List.mem_cons_self)
    obtain ⟨hpP, rfl⟩ := h.mem_reads.mp hp
    obtain ⟨rc, σ₁, ⟨F, hF⟩, hrc, hbr⟩ := jump_returns h hl hlow hpot hpP hf
      (Bool.eq_false_iff.mpr hk) hpass.nonempty
    have hmove : Move cat P level f σ σ₁ := hbr.move hpP (ht.isBelow h)
    by_cases hfail : rc = .failure
    · refine Settles.pass (settles_move .failure hmove) F fun n hn m => ?_
      subst hfail
      simp [forkLoop, if_neg hstop, if_neg hk, hF n hn, hrc, and_false]
    · have hpass' : Passing t (cat p).inb ks σ₁ := by
        refine ⟨?_, fun k' hk' => hpass.subset k' (List.mem_cons_of_mem _ hk'),
          fun k' hk' hnot => ?_⟩
        · rw [hbr.store _ (not_below_inb hl hpP)]
          exact hpass.nonempty
        · obtain ⟨q, hq, hfq, rfl⟩ := h.mem_dummiesOf.mp hk'
          obtain ⟨hqP, hqb⟩ := h.mem_reads.mp hq
          by_cases heq : q = p
          · rw [heq]
            exact hbr.done
          · have hne : dummyKey cat q ≠ dummyKey cat p :=
              fun he => heq (h.dummyKey_inj hqP hpP hfq hf he)
            have hnb : ¬ Below cat P (cat p).out (cat q).inb := hqb ▸ not_below_inb hl hpP
            rw [hbr.processed q hqP heq hfq hnb]
            exact hpass.done _ hk' (List.not_mem_cons_of_ne_of_not_mem hne hnot)
      have hend := pass_settles h hl hlow ht he hr hout hin (.inr (hpot ▸ hbr.lighter))
        (hg.frame hl hmove.toFrame) hpass' fun hs => hbr.nTuples ▸ hpos hs
      refine (hend.of_move hmove).pass F fun n hn m => ?_
      simp [forkLoop, if_neg hstop, if_neg hk, hF n hn, hrc, and_false, if_neg hfail,
        if_pos hbr.done]

end

theorem loop_settles (h : NormalGraph cat P t) (hl : Levels cat P level) (ht : Trunk cat P f b)
    (he : ManyReaders cat P t b e) (hr : 2 ≤ (readers cat P b).length) (M : Multiset Nat) :
    Lower cat P t level exe M → ∀ rest, LoopSettles cat P t level exe f b e M rest := by
  induction M using lighter_wellFounded.induction with
  | _ M ih =>
    intro hlow rest
    induction rest with
    | nil => exact fun _ _ _ _ hnil => absurd rfl hnil
    | cons k ks ih' =>
      exact loop_step h hl hlow ht he hr (fun M' hlt => ih M' hlt (hlow.mono (.inr hlt))) k ih'

end Fork

section Calls

open NormalGraph

variable {cat : Catalog} {P : List StmtId} {t : BufStateTbl} {level : Name → Nat} {exe : Exe τ ω}
  {M : Multiset Nat} {f k : Name} {σ : RunSt τ ω}

section

variable (h : NormalGraph cat P t) (hl : Levels cat P level) (hlow : Lower cat P t level exe M)
  (hpot : potential cat P level σ = M) (hg : Guard cat P f σ) (ht : Trunk cat P f k)
include h hl hlow hpot hg ht

theorem single_returns {c : StmtId} (hread : readers cat P k = [c])
    (hback : ¬ IsSource cat P k → ∀ e, t.lookup k = some e →
      Settles cat P t level f σ.called fun n _ => runBack (runState cat t exe n) e σ.called) :
    Returns cat P t level exe f k σ := by
  obtain ⟨hc, -⟩ := h.reads_alone hread
  obtain ⟨e, he⟩ := h.single hread
  have hact : ∀ n, runAction cat t exe (runState cat t exe n) n k e σ.called =
      runCjump cat t exe (runState cat t exe n) e c k σ.called := by
    simp [runAction, he.action, he.statement, he.buf, if_pos (h.normal c hc)]
  have hcjump : (IsSource cat P k → σ.called.store k ≠ [] ∧ 0 < σ.called.nTuples) →
      Settles cat P t level f σ fun n _ =>
        runAction cat t exe (runState cat t exe n) n k e σ.called := by
    intro hsrc
    have hend := cjump_settles (σ := σ.called) h hl hlow hpot
      (hg.frame hl (called_move f σ).toFrame) ht hread he (fun hs => hback hs e he.lookup) hsrc
    exact (hend.of_move (called_move f σ)).congr fun n _ => hact n
  by_cases hs : IsSource cat P k
  · rcases runState_source exe he.lookup (.inl (he.source hs)) he.statement
      he.buf σ with ⟨rc, σ', hmove, hrun⟩ | ⟨hne, hn, -, hrun⟩
    · exact Settles.call (settles_move rc hmove) fun n _ => hrun n
    · exact Settles.call (hcjump fun _ => ⟨hne, hn⟩) fun n _ => hrun n
  · refine Settles.call (hcjump fun hs' => absurd hs' hs) fun n _ => ?_
    exact runState_inner he.lookup (by rw [he.normal hs]; simp) n σ

theorem forked_returns (hr : 2 ≤ (readers cat P k).length)
    (hback : ¬ IsSource cat P k → ∀ e, t.lookup k = some e →
      Settles cat P t level f σ.called fun n _ => runBack (runState cat t exe n) e σ.called) :
    Returns cat P t level exe f k σ := by
  obtain ⟨e, he⟩ := h.forked hr
  have hlen : (dummiesOf t k).length = (readers cat P k).length := h.dummiesOf_length hr
  have hact : ∀ n, runAction cat t exe (runState cat t exe n) n k e σ.called =
      runCfork t (runState cat t exe n) e k n σ.called := by
    simp [runAction, he.action, he.buf]
  have hty : e.bType = .fork ∨ e.bType = .sourceFork := by
    by_cases hs : IsSource cat P k
    · exact .inr (he.source hs).1
    · exact .inl (he.normal hs)
  have hcfork : (IsSource cat P k → σ.called.store k ≠ []) →
      Settles cat P t level f σ fun n m =>
        runCfork t (runState cat t exe n) e k m σ.called := by
    intro hsrc
    by_cases hne : σ.called.store k = []
    · have hend := (hback (fun hs => hsrc hs hne) e he.lookup).of_move (called_move f σ)
      exact hend.congr fun n _ => by rw [runCfork, if_pos hty, if_pos hne]
    · have hall : dummiesOf t k ≠ [] := by
        intro hnil
        rw [hnil, List.length_nil] at hlen
        omega
      have hend := loop_settles h hl ht he hr M hlow (dummiesOf t k) σ.called hpot
        (hg.frame hl (called_move f σ).toFrame)
        ⟨hne, fun _ hk => hk, fun k' hk hnk => absurd hk hnk⟩ hall
      refine (hend.of_move (called_move f σ)).congr fun n m => ?_
      rw [runCfork, if_pos hty, if_neg hne, if_pos (by rw [he.forward, hlen])]
  by_cases hs : IsSource cat P k
  · obtain ⟨htyS, s, hst⟩ := he.source hs
    rcases runState_source exe he.lookup (.inr htyS) hst he.buf σ with
      ⟨rc, σ', hmove, hrun⟩ | ⟨hne, -, -, hrun⟩
    · exact Settles.call (settles_move rc hmove) fun n _ => hrun n
    · exact Settles.call (hcfork fun _ => hne) fun n _ => by rw [hrun, hact]
  · refine Settles.call (hcfork fun hs' => absurd hs' hs) fun n _ => ?_
    rw [runState_inner he.lookup (by rw [he.normal hs]; simp), hact]

theorem node_returns (hr : readers cat P k ≠ [])
    (hback : ¬ IsSource cat P k → ∀ e, t.lookup k = some e →
      Settles cat P t level f σ.called fun n _ => runBack (runState cat t exe n) e σ.called) :
    Returns cat P t level exe f k σ := by
  by_cases hone : (readers cat P k).length = 1
  · obtain ⟨c, hread⟩ := List.length_eq_one_iff.mp hone
    exact single_returns h hl hlow hpot hg ht hread hback
  · have hpos := List.length_pos_iff.mpr hr
    exact forked_returns h hl hlow hpot hg ht (by omega) hback

end

theorem returns (exe : Exe τ ω) (h : NormalGraph cat P t) (hl : Levels cat P level)
    (M : Multiset Nat) :
    ∀ f k, Trunk cat P f k → ∀ σ, potential cat P level σ = M → Guard cat P f σ →
      readers cat P k ≠ [] → Returns cat P t level exe f k σ := by
  induction M using lighter_wellFounded.induction with
  | _ M ih =>
    have hlow : Lower cat P t level exe M :=
      fun σ hlt f k hg ht hr => ih _ hlt f k ht σ rfl hg hr
    intro f k ht
    induction ht with
    | here =>
      intro σ hpot hg hr
      have hg' : Guard cat P f σ.called := hg.frame hl (called_move f σ).toFrame
      exact node_returns h hl hlow hpot hg .here hr fun hs e he => back_here h hg' hs he
    | next ht hread ih' =>
      intro σ hpot hg hr
      have hg' : Guard cat P f σ.called := hg.frame hl (called_move f σ).toFrame
      exact node_returns h hl hlow hpot hg (.next ht hread) hr fun _ e he =>
        back_next h hread he (ih' σ.called hpot hg' (by simp [hread]))

end Calls

section Sources

variable {cat : Catalog} {P : List StmtId} {t : BufStateTbl}

theorem NormalGraph.source_state (h : NormalGraph cat P t) {S : Name} {e : BufferEntry}
    (he : t.lookup S = some e) (hty : e.bType = .source ∨ e.bType = .sourceFork) :
    IsSource cat P S ∧ readers cat P S ≠ [] ∧ ∃ s, e.statement = some s := by
  have hbuf : IsBuf cat P S := by
    rcases h.table.only S e he with ⟨-, hb⟩ | ⟨hdummy, -⟩
    · exact hb
    · rw [hdummy] at hty
      simp at hty
  obtain ⟨e', he', hentry⟩ := h.table.buffers S hbuf
  obtain rfl := Option.some.inj (he.symm.trans he')
  have hs : IsSource cat P S := hentry.source.mp hty
  have hr : readers cat P S ≠ [] := by
    refine fun hnil => ?_
    have hsink := hentry.sink.mpr hnil
    unfold BufferTy.isSink at hsink
    rcases hty with hty | hty <;> rw [hty] at hsink <;> simp at hsink
  refine ⟨hs, hr, ?_⟩
  by_cases hone : (readers cat P S).length = 1
  · obtain ⟨c, hread⟩ := List.length_eq_one_iff.mp hone
    exact ⟨c, (hentry.forward c hread).1⟩
  · have hpos := List.length_pos_iff.mpr hr
    obtain ⟨e', he⟩ := h.forked (show 2 ≤ (readers cat P S).length by omega)
    obtain rfl := Option.some.inj (he'.symm.trans he.lookup)
    exact (he.source hs).2

/-- In a graph of normal statements without cycles a call from a source state returns. It pops
tuples from this source only, at most `nTuples` and one more than `quota_left`. -/
theorem runState_returns (h : NormalGraph cat P t) (exe : Exe τ ω) {S : Name} {e : BufferEntry}
    (he : t.lookup S = some e) (hty : e.bType = .source ∨ e.bType = .sourceFork)
    (σ : RunSt τ ω) :
    ∃ s, e.statement = some s ∧ ∃ rc σ' m,
      (∃ F, ∀ n ≥ F, runState cat t exe n S σ = some (rc, σ')) ∧ Draws S s m σ σ' ∧
        ∀ b, IsSource cat P b → b ≠ S → σ'.store b = σ.store b := by
  obtain ⟨hs, hr, s, hst⟩ := h.source_state he hty
  obtain ⟨level, hl⟩ := h.levels
  obtain ⟨rc, σ', ⟨F, hF⟩, hafter⟩ :=
    returns exe h hl (potential cat P level σ) S S .here σ rfl (.inl hs) hr
  obtain ⟨m, hm⟩ := hafter.drawn hs s ⟨e, he, hst⟩
  refine ⟨s, hst, rc, σ', m, ⟨F, fun n hn => hF n hn F (le_refl F)⟩, hm, fun b hb hne => ?_⟩
  exact hafter.store b fun hbelow => hne (hbelow.source hb)

def pairCat : Catalog := fun s =>
  { name := if s = 0 then ['p'] else ['q'], type := .normal, valid := true, inb := ['x']
    out := if s = 0 then ['y'] else ['z'], unionBufs := [], windowBufs := [], subStmts := [] }

def pairDriver : Driver := added pairCat 1 (added pairCat 0 Driver.new)

theorem pairDriver_graph : NormalGraph pairCat [0, 1] pairDriver.bufStateTable := by
  have h₁ : GraphRun pairCat (MayAdd pairCat) (MayDrop pairCat) (added pairCat 0 Driver.new) :=
    .add .new ⟨by decide, ⟨by decide, by decide, by decide, by decide⟩, by decide⟩ rfl
  have h₂ : GraphRun pairCat (MayAdd pairCat) (MayDrop pairCat) pairDriver :=
    .add (s := 1) h₁ ⟨by decide, ⟨by decide, by decide, by decide, by decide⟩, by decide⟩ rfl
  have hlevels : Levels pairCat pairDriver.stmts fun b => if b = ['x'] then 1 else 0 := by
    unfold Levels
    decide
  exact h₂.normalGraph (by decide) hlevels.acyclic

/-- Two tuples in `x`, with this `quota_left`; every execution hands its tuple on. -/
def pairSt (quota : Int) : RunSt Nat Unit :=
  { store := fun b => if b = ['x'] then [7, 8] else [], processed := fun _ => false
    quotaLeft := fun _ => quota, nTuples := 5, recursionCount := 0, world := () }

def handOn : Exe Nat Unit := fun _ w d => ([d], .success, w)

/-- With quota for both, both tuples are popped. -/
theorem runState_returns_pair :
    ∃ rc σ' m, (∃ F, ∀ n ≥ F, runState pairCat pairDriver.bufStateTable handOn n ['x'] (pairSt 3) =
      some (rc, σ')) ∧ Draws ['x'] 0 m (pairSt 3) σ' := by
  have he : pairDriver.bufStateTable.lookup ['x'] = some (sourceEntry 0 ['x'] ['y']).toFork := rfl
  obtain ⟨s, hst, rc, σ', m, hF, hdraws, -⟩ :=
    runState_returns pairDriver_graph handOn he (.inr rfl) (pairSt 3)
  obtain rfl : 0 = s := Option.some.inj hst
  exact ⟨rc, σ', m, hF, hdraws⟩

/-- The quota of a fork is looked at after a tuple is popped: one is popped where none is left. -/
theorem runState_overdraws :
    NormalGraph pairCat [0, 1] pairDriver.bufStateTable ∧
      ∃ σ', runState pairCat pairDriver.bufStateTable handOn 9 ['x'] (pairSt (-1)) =
        some (.success, σ') ∧
        ¬ ((((pairSt (-1)).store ['x']).length : Int) - (σ'.store ['x']).length ≤
          min ((pairSt (-1)).quotaLeft 0) (pairSt (-1)).nTuples + 1) :=
  ⟨pairDriver_graph, _, rfl, by decide⟩

end Sources

end StreamMill.Esl
