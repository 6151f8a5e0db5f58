import StreamMill.Lib.Dataflow
import StreamMill.Esl.Delivery

/-!
# StreamMill.Esl.Histories

The graphs of normal statements as dataflow networks. If what a statement puts out depends on a part
of the world that is its own, what comes to a buffer in the end does not depend on the priorities,
on the time at which tuples come in, or on when the statistics end a call; and what has come before
the end is a beginning of that (`schedule_independent`).
-/

namespace StreamMill.Esl.OperatorPriority

open Lib

variable {cat : Catalog} {P : List StmtId} {t : BufStateTbl} {b : Name} {p : StmtId}
  {τ ω κ : Type} {code : Code cat τ ω} {σ σ' σ₀ : OpSt τ ω}

def AtRest (cat : Catalog) (P : List StmtId) (σ : OpSt τ ω) : Prop :=
  ∀ p ∈ P, σ.store (cat p).inb = []

/-- Every statement has a part of the world that no other statement changes, and what it puts out
depends on that part and the tuple. -/
structure OwnParts (code : Code cat τ ω) (part : ω → StmtId → κ)
    (f : StmtId → κ → τ → List τ × κ) : Prop where
  output : ∀ s b w d, (code.exe s b w d).1 = (f s (part w s) d).1
  own : ∀ s b w d, part (code.exe s b w d).2.2 s = (f s (part w s) d).2
  others : ∀ s b w d q, q ≠ s → part (code.exe s b w d).2.2 q = part w q

variable {part : ω → StmtId → κ} {f : StmtId → κ → τ → List τ × κ}

/-- What a statement has put out, and its part of the world, after the tuples it was executed on. -/
structure Follows (cat : Catalog) (P : List StmtId) (part : ω → StmtId → κ)
    (f : StmtId → κ → τ → List τ × κ) (σ₀ σ : OpSt τ ω) : Prop where
  now : ∀ p ∈ P, part σ.world p = after (f p) (part σ₀.world p) (takenBy p (cat p).inb σ.execs)
  output : ∀ p ∈ P, putTo cat (cat p).out σ.execs =
    transduce (f p) (part σ₀.world p) (takenBy p (cat p).inb σ.execs)

namespace Follows

theorem fresh (hf : Fresh σ₀) : Follows cat P part f σ₀ σ₀ where
  now p _ := by simp [takenBy, after, hf.execs]
  output p _ := by simp [takenBy, putTo, transduce, hf.execs]

theorem exec (h : OpGraph cat P t) (hown : OwnParts code part f) (w : Follows cat P part f σ₀ σ)
    {s : StmtId} {d : τ} (hs : s ∈ P) {σ' : OpSt τ ω}
    (hworld : σ'.world = (code.exe s (cat s).inb σ.world d).2.2)
    (hexecs : σ'.execs =
      σ.execs ++ [⟨s, (cat s).inb, d, (code.exe s (cat s).inb σ.world d).1⟩]) :
    Follows cat P part f σ₀ σ' where
  now p hp := by
    rw [hworld, hexecs]
    by_cases hps : p = s
    · subst hps
      simp [hown.own, w.now p hp]
    · simp [hown.others _ _ _ _ _ hps, w.now p hp, Ne.symm hps]
  output p hp := by
    rw [hexecs]
    by_cases hps : p = s
    · subst hps
      simp [hown.output, w.output p hp, w.now p hp]
    · have hout : (cat s).out ≠ (cat p).out := fun he => hps (h.outInj s hs p hp he).symm
      simp [hout, w.output p hp, Ne.symm hps]

theorem step (h : OpGraph cat P t) (hnormal : ∀ p ∈ P, (cat p).type = .normal)
    (hown : OwnParts code part f) (w : Follows cat P part f σ₀ σ) {A : Name → Prop}
    (hstep : Step cat P t code A σ σ') : Follows cat P part f σ₀ σ' := by
  cases hstep with
  | arrive b ds may => exact ⟨w.now, w.output⟩
  | quota n => exact ⟨w.now, w.output⟩
  | clean b hb through => exact ⟨w.now, w.output⟩
  | exe s b d rest mem reads plain front =>
    rw [inputs_normal (hnormal s mem), List.mem_singleton] at reads
    subst reads
    exact w.exec h hown mem rfl rfl
  | branch s d rest mem hb hopen front => exact w.exec h hown (mem_readers.mp mem).1 rfl rfl

end Follows

theorem OpRun.follows (h : OpGraph cat P t) (hnormal : ∀ p ∈ P, (cat p).type = .normal)
    (hown : OwnParts code part f) (hf : Fresh σ₀) (run : OpRun cat P t code σ₀ σ) :
    Follows cat P part f σ₀ σ := by
  have hs := run.steps h
  clear run
  induction hs with
  | refl => exact .fresh hf
  | tail _ hstep ih => exact ih.step h hnormal hown hstep

/-- The network of the statements. What was in a buffer at the start stays in front. -/
def network (cat : Catalog) (P : List StmtId) (part : ω → StmtId → κ)
    (f : StmtId → κ → τ → List τ × κ) (σ₀ : OpSt τ ω) : Network StmtId Name τ where
  stages := P
  reads p := [(cat p).inb]
  fills p := (cat p).out
  make p h := σ₀.came (cat p).out ++ transduce (f p) (part σ₀.world p) (h (cat p).inb)
  grows p h h' hle := by
    rw [List.prefix_append_right_inj]
    exact transduce_prefix _ _ (hle _ (List.mem_singleton_self _))

theorem network_acyclic (hnormal : ∀ p ∈ P, (cat p).type = .normal)
    (hac : Acyclic (Fills cat P)) : Acyclic (network cat P part f σ₀).From := by
  intro c hc
  refine hac c (Relation.transGen_swap.mp (Relation.TransGen.mono ?_ _ _ hc))
  rintro x a ⟨p, hp, rfl, ha⟩
  exact ⟨p, hp, by rwa [inputs_normal (hnormal p hp)], rfl⟩

theorem reads_cases (hnormal : ∀ p ∈ P, (cat p).type = .normal) (hp : p ∈ P) :
    Branches cat P (cat p).inb ∨ readers cat P (cat p).inb = [p] := by
  have hmem : p ∈ readers cat P (cat p).inb :=
    mem_readers.mpr ⟨hp, by rw [inputs_normal (hnormal p hp)]; exact List.mem_singleton_self _⟩
  by_cases htwo : 2 ≤ (readers cat P (cat p).inb).length
  · exact .inl ⟨htwo, fun ⟨q, hq, _, hty⟩ => hty (hnormal q hq)⟩
  · obtain ⟨c, hc⟩ : ∃ c, readers cat P (cat p).inb = [c] := by
      refine List.length_eq_one_iff.mp ?_
      have hpos := List.length_pos_of_mem hmem
      omega
    rw [hc, List.mem_singleton] at hmem
    exact .inr (hmem ▸ hc)

theorem Accounts.taken (a : Accounts cat P σ₀ σ) (hnormal : ∀ p ∈ P, (cat p).type = .normal)
    (hp : p ∈ P) :
    ∃ rest, σ.came (cat p).inb = takenBy p (cat p).inb σ.execs ++ rest ∧
      (σ.store (cat p).inb = [] → rest = []) := by
  rcases reads_cases hnormal hp with hb | hone
  · have hmem : p ∈ readers cat P (cat p).inb :=
      mem_readers.mpr ⟨hp, by rw [inputs_normal (hnormal p hp)]; exact List.mem_singleton_self _⟩
    refine ⟨waiting cat σ (cat p).inb p, a.branch _ hb p hmem, fun hnil => ?_⟩
    simp [waiting, hnil]
  · exact ⟨σ.store (cat p).inb, a.alone hone, id⟩

/-- A state of a run is a sound history, and one at rest is settled. -/
theorem sound_run (h : OpGraph cat P t) (hnormal : ∀ p ∈ P, (cat p).type = .normal)
    (hown : OwnParts code part f) (hf : Fresh σ₀) (run : OpRun cat P t code σ₀ σ) :
    (network cat P part f σ₀).Sound σ.came σ.came ∧
      (AtRest cat P σ → (network cat P part f σ₀).Settled σ.came σ.came) := by
  have a := run.accounts h hf
  have w := run.follows h hnormal hown hf
  have hmade : ∀ p ∈ P, σ.came (cat p).out = σ₀.came (cat p).out ++
      transduce (f p) (part σ₀.world p) (takenBy p (cat p).inb σ.execs) := by
    intro p hp
    rw [a.made p hp, w.output p hp]
  refine ⟨⟨fun p hp => ?_, fun c _ => List.prefix_refl _⟩,
    fun hrest => ⟨fun p hp => ?_, fun c _ => rfl⟩⟩
  · obtain ⟨rest, hcame, -⟩ := a.taken hnormal hp
    show σ.came (cat p).out <+: σ₀.came (cat p).out ++ transduce _ _ (σ.came (cat p).inb)
    rw [hmade p hp, List.prefix_append_right_inj, hcame]
    exact transduce_prefix _ _ (List.prefix_append _ _)
  · obtain ⟨rest, hcame, hnil⟩ := a.taken hnormal hp
    show σ.came (cat p).out = σ₀.came (cat p).out ++ transduce _ _ (σ.came (cat p).inb)
    rw [hmade p hp, hcame, hnil (hrest p hp), List.append_nil]

/-- Two runs from one state: as long as no more has come to the outer buffers than in the other, the
same holds of every buffer, once the other run is at rest; and if both are at rest and were fed the
same, the same tuples have come to each buffer, and each statement was executed on the same
tuples. -/
theorem schedule_independent (h : OpGraph cat P t) (hnormal : ∀ p ∈ P, (cat p).type = .normal)
    (hac : Acyclic (Fills cat P)) (hown : OwnParts code part f) (hf : Fresh σ₀)
    (run : OpRun cat P t code σ₀ σ) (run' : OpRun cat P t code σ₀ σ')
    (hrest : AtRest cat P σ') :
    ((∀ b, Outer cat P b → σ.came b <+: σ'.came b) → ∀ b, σ.came b <+: σ'.came b) ∧
      (AtRest cat P σ → (∀ b, Outer cat P b → σ.came b = σ'.came b) →
        (∀ b, σ.came b = σ'.came b) ∧
        ∀ p ∈ P, takenBy p (cat p).inb σ.execs = takenBy p (cat p).inb σ'.execs) := by
  obtain ⟨hsound, hsettled⟩ := sound_run h hnormal hown hf run
  obtain ⟨-, hsettled'⟩ := sound_run h hnormal hown hf run'
  have hnac : Acyclic (network cat P part f σ₀).From := network_acyclic hnormal hac
  refine ⟨fun hfed => Network.sound_prefix hnac hsound (hsettled' hrest) hfed,
    fun hown' hfed => ?_⟩
  have hcame := Network.settled_unique hnac (hsettled hown') (hsettled' hrest) hfed
  refine ⟨hcame, fun p hp => ?_⟩
  obtain ⟨rest, htaken, hnil⟩ := (run.accounts h hf).taken hnormal hp
  obtain ⟨rest', htaken', hnil'⟩ := (run'.accounts h hf).taken hnormal hp
  rw [hnil (hown' p hp), List.append_nil] at htaken
  rw [hnil' (hrest p hp), List.append_nil] at htaken'
  rw [← htaken, ← htaken', hcame]

theorem schedule_independent_sum :
    let σ := sumCalls [[0, 1, 2], [0, 2, 1], [1]] sumStart
    let σ' := sumCalls [[2, 0], [0, 1], [1, 2], [2, 1], [1]] sumStart
    (∀ b, σ.came b = σ'.came b) ∧ σ.came ['v'] = [1, 4] := by
  intro σ σ'
  have hown : OwnParts sumCode id sumStage := by
    refine ⟨fun s b w d => rfl, fun s b w d => ?_, fun s b w d q hq => ?_⟩
    · simp [sumCode]
    · simp [sumCode, hq]
  have hnormal : ∀ p ∈ sumDriver.stmts, (sumCat p).type = .normal := by decide
  obtain ⟨run, hcame⟩ := sumRun [[0, 1, 2], [0, 2, 1], [1]] (by decide) .start
  obtain ⟨run', hcame'⟩ := sumRun [[2, 0], [0, 1], [1, 2], [2, 1], [1]] (by decide) .start
  have hind := schedule_independent sumGraph hnormal sumGraph_acyclic hown sumFresh run run'
    (by unfold AtRest; decide)
  exact ⟨(hind.2 (by unfold AtRest; decide) fun b hb => (hcame b hb).trans (hcame' b hb).symm).1,
    by decide⟩

end StreamMill.Esl.OperatorPriority
