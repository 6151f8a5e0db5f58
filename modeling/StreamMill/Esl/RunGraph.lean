import Mathlib.Logic.Relation
import StreamMill.Lib.Tokens
import StreamMill.Esl.RunState

/-!
# StreamMill.Esl.RunGraph

The query graphs that `runState` walks on. A graph of normal statements without cycles is a tree
below each source: every buffer has one producer, and the `back` of its entry leads there
(`NormalGraph`). The drivers that additions and drops lead to have such tables
(`GraphRun.normalGraph`). Every execution makes the tuples and the open branches lighter
(`potential`).
-/

namespace StreamMill.Esl

open Lib

def Feeds (cat : Catalog) (P : List StmtId) (a b : Name) : Prop :=
  ∃ p ∈ P, (cat p).inb = a ∧ (cat p).out = b

/-- The table of the normal statements `P`, whose buffers form no cycle. -/
structure NormalGraph (cat : Catalog) (P : List StmtId) (t : BufStateTbl) : Prop where
  table : TableOf cat P t
  nodup : P.Nodup
  normal : ∀ p ∈ P, (cat p).type = .normal
  outInj : ∀ p ∈ P, ∀ q ∈ P, (cat p).out = (cat q).out → p = q
  buf : ∀ b e, IsBuf cat P b → t.lookup b = some e → e.buf = some b
  inplace : ∀ b e, t.lookup b = some e → readers cat P b ≠ [] → e.inplace = some b
  forkStmt : ∀ b e, t.lookup b = some e → e.bType = .sourceFork → ∃ s, e.statement = some s
  acyclic : ∀ b, ¬ Relation.TransGen (Feeds cat P) b b

def IsSource (cat : Catalog) (P : List StmtId) (b : Name) : Prop := ¬ ∃ p ∈ P, (cat p).out = b

/-- Several statements read the input of `p`, so that it has a dummy there. -/
def InFork (cat : Catalog) (P : List StmtId) (p : StmtId) : Prop :=
  2 ≤ (readers cat P (cat p).inb).length

instance (cat : Catalog) (P : List StmtId) (p : StmtId) : Decidable (InFork cat P p) :=
  inferInstanceAs (Decidable (_ ≤ _))

def dummyKey (cat : Catalog) (p : StmtId) : Name := (cat p).inb ++ (cat p).out

variable {cat : Catalog} {P : List StmtId} {t : BufStateTbl}

namespace NormalGraph

variable {b : Name} {p : StmtId}

section

variable (h : NormalGraph cat P t)
include h

theorem mem_reads :
    p ∈ readers cat P b ↔ p ∈ P ∧ (cat p).inb = b := by
  rw [mem_readers]
  refine and_congr_right fun hp => ?_
  rw [inputs_normal (h.normal p hp), List.mem_singleton, eq_comm]

theorem reads_self (hp : p ∈ P) :
    p ∈ readers cat P (cat p).inb := h.mem_reads.mpr ⟨hp, rfl⟩

theorem reads_alone {c : StmtId} (hread : readers cat P b = [c]) :
    c ∈ P ∧ (cat c).inb = b :=
  h.mem_reads.mp (hread ▸ List.mem_singleton_self c)

theorem isBuf_inb (hp : p ∈ P) :
    IsBuf cat P (cat p).inb :=
  .input hp (by rw [inputs_normal (h.normal p hp)]; exact List.mem_singleton_self _)

theorem isBuf_read (hr : readers cat P b ≠ []) :
    IsBuf cat P b := by
  obtain ⟨p, hp⟩ := List.exists_mem_of_ne_nil _ hr
  obtain ⟨hpP, rfl⟩ := h.mem_reads.mp hp
  exact h.isBuf_inb hpP

theorem not_merge {e : BufferEntry} (he : EntryOf cat P b e) :
    ¬ e.bType.isMerge := by
  rw [he.merge]
  rintro ⟨p, hp, -, hty⟩
  exact hty (h.normal p hp)

end

structure OneReader (cat : Catalog) (P : List StmtId) (t : BufStateTbl) (b : Name) (c : StmtId)
    (e : BufferEntry) : Prop where
  lookup : t.lookup b = some e
  statement : e.statement = some c
  buf : e.buf = some b
  inplace : e.inplace = some b
  forward : e.forward = .forwardBuf (some (cat c).out)
  action : e.action = .cjump
  source : IsSource cat P b → e.bType = .source
  normal : ¬ IsSource cat P b → e.bType = .normal

theorem single (h : NormalGraph cat P t) {b : Name} {c : StmtId} (hc : readers cat P b = [c]) :
    ∃ e, OneReader cat P t b c e := by
  have hne : readers cat P b ≠ [] := by simp [hc]
  have hb := h.isBuf_read hne
  obtain ⟨e, hlook, he⟩ := h.table.buffers b hb
  obtain ⟨hstmt, hfw⟩ := he.forward c hc
  have hsink : ¬ e.bType.isSink := by rwa [he.sink]
  have hfork : ¬ e.bType.isFork := by rw [he.fork, hc]; simp
  have hmerge := h.not_merge he
  have hty : e.bType = .source ∨ e.bType = .normal := by
    have hbuf := he.buffer
    generalize e.bType = ty at hsink hfork hmerge hbuf ⊢
    cases ty <;> simp_all [BufferTy.isSink, BufferTy.isFork, BufferTy.isMerge]
  have hsrc : IsSource cat P b → e.bType = .source := by
    intro hs
    rcases hty with hty | hty
    · exact hty
    · have := he.source.mpr hs
      simp [BufferTy.isSource, hty] at this
  have hnorm : ¬ IsSource cat P b → e.bType = .normal := by
    intro hs
    rcases hty with hty | hty
    · exact absurd (he.source.mp (.inl hty)) hs
    · exact hty
  refine ⟨e, hlook, hstmt, h.buf b e hb hlook, h.inplace b e hlook hne, hfw, ?_, hsrc, hnorm⟩
  rw [he.action]
  rcases hty with hty | hty <;> rw [hty] <;> rfl

structure ManyReaders (cat : Catalog) (P : List StmtId) (t : BufStateTbl) (b : Name)
    (e : BufferEntry) : Prop where
  lookup : t.lookup b = some e
  buf : e.buf = some b
  forward : e.forward = .forkCount (readers cat P b).length
  action : e.action = .cfork
  source : IsSource cat P b → e.bType = .sourceFork ∧ ∃ s, e.statement = some s
  normal : ¬ IsSource cat P b → e.bType = .fork

section

variable (h : NormalGraph cat P t)
include h

theorem forked (hf : 2 ≤ (readers cat P b).length) :
    ∃ e, ManyReaders cat P t b e := by
  have hne : readers cat P b ≠ [] := by
    intro hnil
    simp [hnil] at hf
  have hb := h.isBuf_read hne
  obtain ⟨e, hlook, he⟩ := h.table.buffers b hb
  have hfork := he.fork.mpr hf
  have hmerge := h.not_merge he
  have hty : e.bType = .sourceFork ∨ e.bType = .fork := by
    generalize e.bType = ty at hfork hmerge ⊢
    cases ty <;> simp_all [BufferTy.isFork, BufferTy.isMerge]
  refine ⟨e, hlook, h.buf b e hb hlook, he.forkCount hf, ?_, fun hs => ?_, fun hs => ?_⟩
  · rw [he.action]
    rcases hty with hty | hty <;> rw [hty] <;> rfl
  · have hsf : e.bType = .sourceFork := by
      rcases hty with hty | hty
      · exact hty
      · have := he.source.mpr hs
        simp [BufferTy.isSource, hty] at this
    exact ⟨hsf, h.forkStmt b e hlook hsf⟩
  · rcases hty with hty | hty
    · exact absurd (he.source.mp (.inr hty)) hs
    · exact hty

theorem tyAt_out {c : StmtId} (hc : c ∈ P) :
    ∃ ty, tyAt t (cat c).out = some ty ∧
      (ty = .sink ∨ ty = .mergeSink ↔ readers cat P (cat c).out = []) := by
  obtain ⟨e, hlook, he⟩ := h.table.buffers _ (.out hc)
  exact ⟨e.bType, by simp [tyAt, hlook], he.sink⟩

theorem back {e : BufferEntry} (hp : p ∈ P) (he : t.lookup (cat p).out = some e) :
    e.back = .backBuf (some (if InFork cat P p then dummyKey cat p else (cat p).inb)) := by
  obtain ⟨e', he', hentry⟩ := h.table.buffers _ (.out hp)
  obtain rfl := Option.some.inj (he.symm.trans he')
  rw [hentry.back p hp rfl, backTo, if_pos (h.normal p hp)]
  by_cases hf : InFork cat P p
  · rw [if_pos hf, if_pos (show 2 ≤ (readers cat P (cat p).inb).length from hf), dummyKey]
  · rw [if_neg hf, if_neg (show ¬ 2 ≤ (readers cat P (cat p).inb).length from hf)]

theorem dummy (hp : p ∈ P) (hf : InFork cat P p) :
    t.lookup (dummyKey cat p) = some (dummyEntry (some p) (cat p).inb (cat p).out) :=
  h.table.dummies _ hf p (h.reads_self hp)

theorem dummyKey_inj {q : StmtId} (hp : p ∈ P) (hq : q ∈ P) (hfp : InFork cat P p)
    (hfq : InFork cat P q) (he : dummyKey cat p = dummyKey cat q) :
    p = q := by
  have hlook := h.dummy hp hfp
  rw [he, h.dummy hq hfq, Option.some.injEq] at hlook
  have hstmt := congrArg BufferEntry.statement hlook
  exact (Option.some.inj hstmt).symm

theorem mem_dummiesOf {k : Name} :
    k ∈ dummiesOf t b ↔ ∃ p ∈ readers cat P b, InFork cat P p ∧ k = dummyKey cat p := by
  rw [dummiesOf, List.mem_filter]
  constructor
  · rintro ⟨-, hk⟩
    cases hlook : t.lookup k with
    | none => simp [hlook] at hk
    | some e =>
      obtain ⟨hty, hin⟩ : e.bType = .forkDummy ∧ e.inplace = some b := by simpa [hlook] using hk
      rcases h.table.only k e hlook with ⟨hne, -⟩ | ⟨-, b', hf, c, hc, rfl⟩
      · exact absurd hty hne
      · obtain ⟨hcP, rfl⟩ := h.mem_reads.mp hc
        have hd := h.dummy hcP hf
        rw [dummyKey, hlook, Option.some.injEq] at hd
        obtain rfl : (cat c).inb = b := by simpa [hd, dummyEntry] using hin
        exact ⟨c, hc, hf, rfl⟩
  · rintro ⟨p, hp, hf, rfl⟩
    obtain ⟨hpP, rfl⟩ := h.mem_reads.mp hp
    have hd := h.dummy hpP hf
    refine ⟨AList.lookup_isSome.mp (by rw [hd]; rfl), ?_⟩
    simp [hd, dummyEntry]

end

theorem dummiesOf_nodup (b : Name) : (dummiesOf t b).Nodup := t.keys_nodup.filter _

theorem dummiesOf_length (h : NormalGraph cat P t) (hf : 2 ≤ (readers cat P b).length) :
    (dummiesOf t b).length = (readers cat P b).length := by
  have hfork : ∀ p ∈ readers cat P b, InFork cat P p := by
    intro p hp
    rw [InFork, (h.mem_reads.mp hp).2]
    exact hf
  have hinj : ((readers cat P b).map (dummyKey cat)).Nodup := by
    refine List.Nodup.map_on (fun p hp q hq he => ?_) (h.nodup.filter _)
    exact h.dummyKey_inj (h.mem_reads.mp hp).1 (h.mem_reads.mp hq).1 (hfork p hp) (hfork q hq) he
  have hperm : (dummiesOf t b).Perm ((readers cat P b).map (dummyKey cat)) := by
    refine (List.perm_ext_iff_of_nodup (dummiesOf_nodup b) hinj).mpr fun k => ?_
    rw [h.mem_dummiesOf, List.mem_map]
    constructor
    · rintro ⟨p, hp, -, rfl⟩
      exact ⟨p, hp, rfl⟩
    · rintro ⟨p, hp, rfl⟩
      exact ⟨p, hp, hfork p hp, rfl⟩
  rw [hperm.length_eq, List.length_map]

end NormalGraph

section Runs

variable {G : Graph} {s : StmtId} {d : Driver}

def Filled (G : Graph) : Prop := ∀ b, G.Forks b → G.first b ≠ none

theorem Filled.empty : Filled Graph.empty := by
  intro b hf
  simp [Graph.Forks, Graph.empty] at hf

theorem Filled.read (h : Filled G) (b : Name) : Filled (G.read cat s b) := by
  intro b' hf
  by_cases hone : ∃ c, G.cons b = [c]
  · obtain ⟨c, hc⟩ := hone
    rw [read_first_second hc]
    by_cases hb : b' = b
    · rw [hb, Function.update_self]
      exact Option.some_ne_none c
    · rw [Graph.Forks, read_cons_ne hb] at hf
      rw [Function.update_of_ne hb]
      exact h b' hf
  · rw [read_first fun c hc => hone ⟨c, hc⟩]
    refine h b' ?_
    by_cases hb : b' = b
    · subst hb
      rw [Graph.Forks, read_cons_self, List.length_append, List.length_singleton] at hf
      have hne : (G.cons b').length ≠ 1 := fun hlen => hone (List.length_eq_one_iff.mp hlen)
      unfold Graph.Forks
      omega
    · rwa [Graph.Forks, read_cons_ne hb] at hf

theorem Filled.add (h : Filled G) (bs : List Name) : Filled (G.add cat s bs) := by
  have hall : Filled (G.readAll cat s bs) := by
    induction bs generalizing G with
    | nil => exact h
    | cons b bs ih => exact ih (h.read b)
  exact hall

theorem Filled.drop (h : Filled G) {bs : List Name} (hbs : bs.Nodup) :
    Filled (G.drop cat s bs) := by
  intro b hf
  have hf' : 2 ≤ ((G.unreadAll cat s bs).cons b).length := hf
  have hfirst : (G.drop cat s bs).first b = G.first b := by
    show (G.unreadAll cat s bs).first b = G.first b
    rw [unreadAll_first]
  rw [hfirst]
  refine h b ?_
  rw [unreadAll_cons hbs] at hf'
  unfold Graph.Forks
  have hle := List.length_erase_le (a := s) (l := G.cons b)
  split at hf' <;> omega

theorem GraphRun.filled (h : GraphRun cat (MayAdd cat) (MayDrop cat) d) :
    ∃ G, Reached cat d G ∧ Filled G :=
  h.reached_with .empty (fun _ _ bs _ hfill => hfill.add bs) fun _ _ _ hbs hfill => hfill.drop hbs

theorem GraphRun.normalGraph (run : GraphRun cat (MayAdd cat) (MayDrop cat) d)
    (hnormal : ∀ p ∈ d.stmts, (cat p).type = .normal)
    (hacyclic : ∀ b, ¬ Relation.TransGen (Feeds cat d.stmts) b b) :
    NormalGraph cat d.stmts d.bufStateTable := by
  obtain ⟨G, h, hfill⟩ := run.filled
  have hentry : ∀ b, IsBuf cat d.stmts b → d.bufStateTable.lookup b = some (G.entry cat b) :=
    fun b hb => h.canon.buffers b ((known_iff h.whole b).mpr hb)
  refine
    { table := tableOf h.canon h.whole h.names.outInj
      nodup := h.whole.nodup
      normal := hnormal
      outInj := h.names.outInj
      buf := fun b e hb he => ?_
      inplace := fun b e he hr => ?_
      forkStmt := fun b e he hty => ?_
      acyclic := hacyclic }
  · rw [hentry b hb, Option.some.injEq] at he
    rw [← he]
    rfl
  · obtain ⟨p, hp⟩ := List.exists_mem_of_ne_nil _ hr
    obtain ⟨hpP, hin⟩ := mem_readers.mp hp
    rw [hentry b (.input hpP hin), Option.some.injEq] at he
    rw [← h.whole.cons] at hr
    obtain ⟨c, cs, hc⟩ := List.exists_cons_of_ne_nil hr
    rw [← he, Graph.entry, hc]
    rfl
  · have htable := tableOf h.canon h.whole h.names.outInj
    rcases htable.only b e he with ⟨-, hb⟩ | ⟨hdummy, -⟩
    · rw [hentry b hb, Option.some.injEq] at he
      have hforks : G.Forks b := by
        rw [Graph.Forks, h.whole.cons]
        refine (entryOf h.whole ((known_iff h.whole b).mpr hb)).fork.mp ?_
        rw [he]
        exact .inr (.inl hty)
      obtain ⟨c₁, c₂, cs, hc⟩ := forks_cases hforks
      obtain ⟨s, hs⟩ := Option.ne_none_iff_exists'.mp (hfill b hforks)
      refine ⟨s, ?_⟩
      rw [← he, Graph.entry, hc]
      exact hs
    · rw [hty] at hdummy
      cases hdummy

end Runs

/-- `b` is `f`, or is filled from it over some statements. -/
def Below (cat : Catalog) (P : List StmtId) (f b : Name) : Prop :=
  Relation.ReflTransGen (Feeds cat P) f b

def Levels (cat : Catalog) (P : List StmtId) (level : Name → Nat) : Prop :=
  ∀ p ∈ P, level (cat p).out < level (cat p).inb

variable {level : Name → Nat} {p : StmtId}

theorem Levels.out_ne_inb (hl : Levels cat P level) (hp : p ∈ P) :
    (cat p).out ≠ (cat p).inb := fun heq =>
  absurd (hl p hp) (heq ▸ lt_irrefl _)

/-- Without cycles there are levels: the number of outputs below a buffer. -/
theorem NormalGraph.levels (h : NormalGraph cat P t) : ∃ level, Levels cat P level := by
  classical
  let below : Name → Finset Name := fun b =>
    ((P.map fun p => (cat p).out).toFinset).filter (Relation.TransGen (Feeds cat P) b)
  refine ⟨fun b => (below b).card, fun p hp => Finset.card_lt_card ?_⟩
  have hfeed : Feeds cat P (cat p).inb (cat p).out := ⟨p, hp, rfl, rfl⟩
  refine Finset.ssubset_iff_of_subset (fun o ho => ?_) |>.mpr ⟨(cat p).out, ?_, ?_⟩
  · obtain ⟨hmem, hpath⟩ := Finset.mem_filter.mp ho
    exact Finset.mem_filter.mpr ⟨hmem, .head hfeed hpath⟩
  · refine Finset.mem_filter.mpr ⟨?_, .single hfeed⟩
    exact List.mem_toFinset.mpr (List.mem_map_of_mem hp)
  · exact fun ho => h.acyclic _ (Finset.mem_filter.mp ho).2

theorem Levels.acyclic (hl : Levels cat P level) (b : Name) :
    ¬ Relation.TransGen (Feeds cat P) b b := by
  have hless : ∀ o, Relation.TransGen (Feeds cat P) b o → level o < level b := by
    intro o hpath
    induction hpath with
    | single hfeed =>
      obtain ⟨p, hp, rfl, rfl⟩ := hfeed
      exact hl p hp
    | tail _ hfeed ih =>
      obtain ⟨p, hp, rfl, rfl⟩ := hfeed
      exact (hl p hp).trans ih
  exact fun hcycle => lt_irrefl _ (hless b hcycle)

theorem Below.out (hp : p ∈ P) : Below cat P (cat p).inb (cat p).out :=
  .single ⟨p, hp, rfl, rfl⟩

theorem Below.level_le (hl : Levels cat P level) {f b : Name} (h : Below cat P f b) :
    level b ≤ level f := by
  induction h with
  | refl => exact le_refl _
  | tail _ hfeed ih =>
    obtain ⟨p, hp, rfl, rfl⟩ := hfeed
    exact (hl p hp).le.trans ih

theorem Below.source {f b : Name} (h : Below cat P f b) (hs : IsSource cat P b) : b = f := by
  rcases Relation.ReflTransGen.cases_tail h with heq | ⟨_, -, p, hp, -, ho⟩
  · exact heq
  · exact absurd ⟨p, hp, ho⟩ hs

theorem not_below_inb (hl : Levels cat P level) (hp : p ∈ P) :
    ¬ Below cat P (cat p).out (cat p).inb := fun h =>
  absurd (h.level_le hl) (Nat.not_le.mpr (hl p hp))

section Potential

variable {τ ω : Type}

def places (cat : Catalog) (P : List StmtId) : Finset (Name ⊕ StmtId) :=
  (P.flatMap fun p => [.inl (cat p).inb, .inl (cat p).out, .inr p]).toFinset

/-- A branch lies between the buffer that it reads and the buffers below. -/
def weight (cat : Catalog) (level : Name → Nat) : Name ⊕ StmtId → Nat
  | .inl b => 2 * level b + 1
  | .inr p => 2 * level (cat p).inb

def load (cat : Catalog) (P : List StmtId) (σ : RunSt τ ω) : Name ⊕ StmtId → Nat
  | .inl b => (σ.store b).length
  | .inr p => if InFork cat P p ∧ σ.processed (dummyKey cat p) = false then 1 else 0

def potential (cat : Catalog) (P : List StmtId) (level : Name → Nat) (σ : RunSt τ ω) :
    Multiset Nat :=
  tokens (places cat P) (weight cat level) (load cat P σ)

theorem mem_places {i : Name ⊕ StmtId} :
    i ∈ places cat P ↔ ∃ p ∈ P, i = .inl (cat p).inb ∨ i = .inl (cat p).out ∨ i = .inr p := by
  simp [places, List.mem_toFinset, List.mem_flatMap, List.mem_cons, List.not_mem_nil, or_false]

variable {p c : StmtId} {σ σ' : RunSt τ ω}

theorem branch_mem_places : .inr p ∈ places cat P ↔ p ∈ P := by
  rw [mem_places]
  constructor
  · rintro ⟨q, hq, h | h | h⟩
    · cases h
    · cases h
    · cases h
      exact hq
  · exact fun hp => ⟨p, hp, .inr (.inr rfl)⟩

theorem inb_mem_places (hp : p ∈ P) : .inl (cat p).inb ∈ places cat P :=
  mem_places.mpr ⟨p, hp, .inl rfl⟩

theorem load_branch
    (h : InFork cat P p → σ'.processed (dummyKey cat p) = σ.processed (dummyKey cat p)) :
    load cat P σ' (.inr p) = load cat P σ (.inr p) := by
  by_cases hf : InFork cat P p
  · simp [load, h hf]
  · simp [load, if_neg (fun hand : InFork cat P p ∧ _ => hf hand.1)]

variable {level : Name → Nat}

theorem potential_exe (hl : Levels cat P level) (hc : c ∈ P)
    (hin : (σ'.store (cat c).inb).length < (σ.store (cat c).inb).length)
    (hstore : ∀ b, b ≠ (cat c).inb → b ≠ (cat c).out → σ'.store b = σ.store b)
    (hproc : ∀ q ∈ P, InFork cat P q →
      σ'.processed (dummyKey cat q) = σ.processed (dummyKey cat q)) :
    Lighter (potential cat P level σ') (potential cat P level σ) := by
  refine tokens_lt (inb_mem_places hc) hin fun i hi hmore => ?_
  have hlt := hl c hc
  cases i with
  | inr q => exact absurd (load_branch (hproc q (branch_mem_places.mp hi))) (Nat.ne_of_gt hmore)
  | inl b =>
    by_cases hb : b = (cat c).inb
    · subst hb
      exact absurd hmore (Nat.not_lt.mpr hin.le)
    · by_cases ho : b = (cat c).out
      · subst ho
        simp only [weight]
        omega
      · simp only [load, hstore b hb ho] at hmore
        exact absurd hmore (lt_irrefl _)

theorem potential_branch (hl : Levels cat P level) (hc : c ∈ P) (hf : InFork cat P c)
    (hopen : σ.processed (dummyKey cat c) = false) (hdone : σ'.processed (dummyKey cat c) = true)
    (hstore : ∀ b, b ≠ (cat c).out → σ'.store b = σ.store b)
    (hproc : ∀ q ∈ P, q ≠ c → InFork cat P q →
      σ'.processed (dummyKey cat q) = σ.processed (dummyKey cat q)) :
    Lighter (potential cat P level σ') (potential cat P level σ) := by
  have hless : load cat P σ' (.inr c) < load cat P σ (.inr c) := by
    simp [load, hf, hopen, hdone]
  refine tokens_lt (branch_mem_places.mpr hc) hless fun i hi hmore => ?_
  have hlt := hl c hc
  cases i with
  | inr q =>
    by_cases hq : q = c
    · subst hq
      simp [load, hf, hopen, hdone] at hmore
    · exact absurd (load_branch (hproc q (branch_mem_places.mp hi) hq)) (Nat.ne_of_gt hmore)
  | inl b =>
    by_cases ho : b = (cat c).out
    · subst ho
      simp only [weight]
      omega
    · simp only [load, hstore b ho] at hmore
      exact absurd hmore (lt_irrefl _)

theorem potential_reopen (hc : c ∈ P)
    (hin : (σ'.store (cat c).inb).length < (σ.store (cat c).inb).length)
    (hstore : ∀ b, b ≠ (cat c).inb → σ'.store b = σ.store b)
    (hproc : ∀ q ∈ P, (cat q).inb ≠ (cat c).inb → InFork cat P q →
      σ'.processed (dummyKey cat q) = σ.processed (dummyKey cat q)) :
    Lighter (potential cat P level σ') (potential cat P level σ) := by
  refine tokens_lt (inb_mem_places hc) hin fun i hi hmore => ?_
  cases i with
  | inr q =>
    by_cases hq : (cat q).inb = (cat c).inb
    · simp only [weight, hq]
      omega
    · exact absurd (load_branch (hproc q (branch_mem_places.mp hi) hq)) (Nat.ne_of_gt hmore)
  | inl b =>
    by_cases hb : b = (cat c).inb
    · subst hb
      exact absurd hmore (Nat.not_lt.mpr hin.le)
    · simp only [load, hstore b hb] at hmore
      exact absurd hmore (lt_irrefl _)

theorem potential_congr (hstore : σ'.store = σ.store) (hproc : σ'.processed = σ.processed) :
    potential cat P level σ' = potential cat P level σ := by
  refine tokens_congr fun i _ => ?_
  cases i <;> simp only [load, hstore, hproc]

end Potential

end StreamMill.Esl
