import Mathlib.Data.List.Induction
import Mathlib.Tactic.NormNum
import StreamMill.Esl.OcsCalls
import StreamMill.Esl.OcsQuotas

/-!
# StreamMill.Esl.QuotaShares

The quotas that `OCSProfile::update` gives to the statements that read a source. No priority is
greater than the total, so a share is one of a round; it is rounded up, and nothing is left of it
only where the priority is zero.

`quotas_right_iff`: when every quota is at least `MIN_QUOTA` and no greater priority in a group has
a smaller quota.
-/

namespace StreamMill.Esl

variable {cat : Catalog} {stats : StmtStats} {mode : QuotaMode} {t : BufStateTbl} {n : Nat}
  {s x : StmtId} {st st' : OcsState}

section Rankings

variable {a a' : Ranking} {ss : List StmtId} {es : List StmtEntry}

theorem count_ocs (se : StmtEntry) : (a.count st se).ocs = st := by
  rw [Ranking.count]
  split <;> rfl

theorem rankEntries_cons (hok : rankEntries cat stats mode t n (s :: ss) a = some (es, a')) :
    ∃ st es', updatePriority cat stats mode t n s a.ocs = some st ∧
      rankEntries cat stats mode t n ss (a.count st (.of s (st.entry cat s))) = some (es', a') ∧
      es = .of s (st.entry cat s) :: es' := by
  rw [rankEntries] at hok
  split at hok
  · cases hok
  · next st hst =>
    obtain ⟨⟨es', b⟩, hrest, heq⟩ := Option.map_eq_some_iff.mp hok
    obtain ⟨rfl, rfl⟩ := Prod.mk.inj heq
    exact ⟨st, es', hst, hrest, rfl⟩

theorem rankEntries_preserves {I : OcsState → Prop} (hI : Preserved cat stats mode I)
    (hok : rankEntries cat stats mode t n ss a = some (es, a')) (ha : I a.ocs) : I a'.ocs := by
  induction ss generalizing a es with
  | nil =>
    rw [rankEntries, Option.some.injEq, Prod.mk.injEq] at hok
    rw [← hok.2]
    exact ha
  | cons s ss ih =>
    obtain ⟨st, es', hst, hrest, -⟩ := rankEntries_cons hok
    refine ih hrest ?_
    rw [count_ocs]
    exact updatePriority_preserves hI hst ha

theorem rankEntries_settled {P : List StmtId} (hstats : StatsOf cat P stats)
    (hnames : ∀ p ∈ P, ∀ q ∈ P, (cat p).name = (cat q).name → p = q) (hss : ∀ s ∈ ss, s ∈ P)
    (hlisted : ∀ s ∈ P, ∃ e, a.ocs.ocsInfo.lookup (cat s).name = some e)
    (hok : rankEntries cat stats mode t n ss a = some (es, a')) (se : StmtEntry) (hse : se ∈ es) :
    se.pStmt ∈ ss ∧ ∃ e, Settled cat stats se.pStmt e a'.ocs ∧ se = .of se.pStmt e := by
  induction ss generalizing a es with
  | nil =>
    rw [rankEntries, Option.some.injEq, Prod.mk.injEq] at hok
    rw [← hok.1] at hse
    cases hse
  | cons s ss ih =>
    obtain ⟨st, es', hst, hrest, rfl⟩ := rankEntries_cons hok
    have hsP := hss s List.mem_cons_self
    have hlisted' : ∀ x ∈ P, ∃ e, st.ocsInfo.lookup (cat x).name = some e := fun x hx =>
      updatePriority_preserves (listed_preserved (cat x).name) hst (hlisted x hx)
    rcases List.mem_cons.mp hse with rfl | hse
    · obtain ⟨e, he⟩ := hlisted' s hsP
      have hset : Settled cat stats s e st := by
        refine ⟨?_, he⟩
        by_cases hk : HasStat cat stats s
        · exact .inl (updatePriority_ranks hst hk)
        · exact .inr hk
      refine ⟨List.mem_cons_self, e,
        rankEntries_preserves (settled_preserved hstats hnames hsP e) hrest ?_, ?_⟩
      · rw [count_ocs]
        exact hset
      · rw [OcsState.entry, he]
        rfl
    · obtain ⟨hmem, hres⟩ := ih (fun x hx => hss x (List.mem_cons_of_mem _ hx))
        (by rw [count_ocs]; exact hlisted') hrest hse
      exact ⟨List.mem_cons_of_mem _ hmem, hres⟩

def Ranking.Bounded (a : Ranking) : Prop := 0 ≤ a.maxPriority ∧ a.maxPriority ≤ a.totalSrcPriority

theorem count_bounded (ha : a.Bounded) {se : StmtEntry} (hp : 0 ≤ se.priority) :
    (a.count st se).Bounded := by
  obtain ⟨hmax, hle⟩ := ha
  rw [Ranking.count]
  split
  · split
    · exact ⟨hp, le_add_of_nonneg_left (hmax.trans hle)⟩
    · exact ⟨hmax, hle.trans (le_add_of_nonneg_right hp)⟩
  · exact ⟨hmax, hle⟩

theorem rankEntries_bounded
    (hstats : ∀ s m, knownStat cat stats s = some m → m.Of fun a => 0 ≤ a)
    (hok : rankEntries cat stats mode t n ss a = some (es, a')) (hof : a.ocs.Of fun a => 0 ≤ a)
    (ha : a.Bounded) : a'.Bounded := by
  induction ss generalizing a es with
  | nil =>
    rw [rankEntries, Option.some.injEq, Prod.mk.injEq] at hok
    rw [← hok.2]
    exact ha
  | cons s ss ih =>
    obtain ⟨st, es', hst, hrest, -⟩ := rankEntries_cons hok
    have hof' := updatePriority_preserves (of_preserved Magnitude.nonneg hstats) hst hof
    refine ih hrest (by rw [count_ocs]; exact hof') (count_bounded ha ?_)
    exact (entry_of Magnitude.nonneg hof' s).priority

theorem rankEntries_append {ss' : List StmtId} {b : Ranking}
    {es' : List StmtEntry} (hok : rankEntries cat stats mode t n ss a = some (es, b))
    (hok' : rankEntries cat stats mode t n ss' b = some (es', a')) :
    rankEntries cat stats mode t n (ss ++ ss') a = some (es ++ es', a') := by
  induction ss generalizing a es with
  | nil =>
    obtain ⟨rfl, rfl⟩ := hok
    exact hok'
  | cons s ss ih =>
    obtain ⟨st, es₁, hst, hrest, rfl⟩ := rankEntries_cons hok
    rw [List.cons_append, rankEntries, hst]
    dsimp only
    rw [ih hrest]
    rfl

theorem rankGroups_flat {gs : List WeightGroup} {gs' : List OcsGroup}
    (hok : rankGroups cat stats mode t n gs a = some (gs', a')) :
    rankEntries cat stats mode t n (entriesOf gs) a =
      some (gs'.flatMap OcsGroup.vSEntries, a') := by
  induction gs generalizing a gs' with
  | nil =>
    obtain ⟨rfl, rfl⟩ := hok
    rfl
  | cons g gs ih =>
    rw [rankGroups] at hok
    split at hok
    · cases hok
    · next es b hes =>
      obtain ⟨⟨gs₁, c⟩, hrest, heq⟩ := Option.map_eq_some_iff.mp hok
      obtain ⟨rfl, rfl⟩ := Prod.mk.inj heq
      exact rankEntries_append hes (ih hrest)

end Rankings

theorem reset_lookup (st : OcsState) {stmts : List StmtId} (hs : s ∈ stmts) :
    (st.reset cat stmts).ocsInfo.lookup (cat s).name =
      some (.new ⟨WeightProfile.DEFAULT_VALUE, false⟩) := by
  rw [OcsState.reset]
  induction stmts using List.reverseRecOn with
  | nil => cases hs
  | append_singleton stmts x ih =>
    rw [List.foldl_append, List.foldl_cons, List.foldl_nil]
    by_cases hx : (cat s).name = (cat x).name
    · rw [hx, AList.lookup_insert]
    · rw [AList.lookup_insert_ne hx]
      rcases List.mem_append.mp hs with hs | hs
      · exact ih hs
      · exact absurd (by rw [List.mem_singleton.mp hs]) hx

theorem reset_of {K : ℚ → Prop} (hK : Magnitude K) (st : OcsState) (stmts : List StmtId) :
    (st.reset cat stmts).Of K := by
  rw [OcsState.reset]
  induction stmts using List.reverseRecOn with
  | nil =>
    intro b e he
    cases he
  | append_singleton stmts x ih =>
    rw [List.foldl_append]
    exact of_insert ih ⟨hK.default, hK.default, hK.default⟩ _

theorem quotas_reset (q : Quotas) {stmts : List StmtId} (hs : s ∈ stmts) :
    (q.reset stmts s).quota = WeightOnlyProfile.DEFAULT_QUOTA := by
  rw [Quotas.reset]
  induction stmts using List.reverseRecOn with
  | nil => cases hs
  | append_singleton stmts x ih =>
    rw [List.foldl_append, List.foldl_cons, List.foldl_nil, Quotas.set]
    by_cases hx : s = x
    · rw [hx, Function.update_self]
    · rw [Function.update_of_ne hx]
      rcases List.mem_append.mp hs with hs | hs
      · exact ih hs
      · exact absurd (List.mem_singleton.mp hs) hx

theorem quotas_set {f : StmtEntry → Int} {es : List StmtEntry}
    (hsame : ∀ e ∈ es, ∀ e' ∈ es, e.pStmt = e'.pStmt → f e = f e') (q : Quotas) {se : StmtEntry}
    (hse : se ∈ es) : (es.foldl (fun q se => q.set se.pStmt (f se)) q se.pStmt).quota = f se := by
  induction es using List.reverseRecOn with
  | nil => cases hse
  | append_singleton es x ih =>
    rw [List.foldl_append, List.foldl_cons, List.foldl_nil, Quotas.set]
    by_cases hx : se.pStmt = x.pStmt
    · rw [hx, Function.update_self]
      exact hsame x (by simp) se hse hx.symm
    · rw [Function.update_of_ne hx]
      rcases List.mem_append.mp hse with hse | hse
      · exact ih (fun e he e' he' => hsame e (List.mem_append_left _ he) e'
          (List.mem_append_left _ he')) hse
      · exact absurd (by rw [List.mem_singleton.mp hse]) hx

section Sources

variable {P : List StmtId} {G : Graph} {a a' : Walk} {ss : List StmtId} {w w' : Marking}
  {wp wp' : WeightProfile}

/-- The groups have statements of `P`, and their entries are counted. -/
def Walk.Counts (P : List StmtId) (a : Walk) : Prop :=
  a.totalSourceStmt = (entriesOf a.vSGroups).length ∧ ∀ s ∈ entriesOf a.vSGroups, s ∈ P

theorem Walk.Counts.put (h : a.Counts P) (hs : s ∈ P) (w : Marking) : (a.put s w).Counts P := by
  have hperm := insertStmt_perm s (w s).weight a.vSGroups
  refine ⟨?_, fun x hx => ?_⟩
  · show a.totalSourceStmt + 1 = (entriesOf (insertStmt s (w s).weight a.vSGroups)).length
    rw [h.1, hperm.length_eq, List.length_cons]
  · rcases List.mem_cons.mp (hperm.mem_iff.mp hx) with rfl | hx
    · exact hs
    · exact h.2 x hx

theorem groupStmts_counts (hok : groupStmts cat t n ss a = some a') (hss : ∀ s ∈ ss, s ∈ P)
    (h : a.Counts P) : a'.Counts P := by
  induction ss generalizing a with
  | nil =>
    rw [groupStmts, Option.some.injEq] at hok
    rw [← hok]
    exact h
  | cons s ss ih =>
    have hrest : ∀ x ∈ ss, x ∈ P := fun x hx => hss x (List.mem_cons_of_mem _ hx)
    rw [groupStmts] at hok
    split at hok
    · exact ih hok hrest h
    · split at hok
      · cases hok
      · exact ih hok hrest (h.put (hss s List.mem_cons_self) _)

theorem visits_counts (ht : Tabled cat P t G) {es : List (Sigma fun _ : Name => BufferEntry)}
    (hes : ∀ e ∈ es, e ∈ t.entries) (hok : visits cat t n es a = some a') (h : a.Counts P) :
    a'.Counts P := by
  induction es generalizing a with
  | nil =>
    rw [visits, Option.some.injEq] at hok
    rw [← hok]
    exact h
  | cons e es ih =>
    rw [visits] at hok
    split at hok
    · cases hok
    · next b hb =>
      obtain ⟨ss, hss, hperm, -⟩ := ht.sourceStmts (hes _ List.mem_cons_self)
      rw [visit, hss] at hb
      refine ih (fun e' he' => hes e' (List.mem_cons_of_mem _ he')) hok
        (groupStmts_counts hb (fun s hs => ?_) h)
      have hcons := (mem_sourceReaders.mp (hperm.mem_iff.mp hs)).2
      rw [ht.members.cons] at hcons
      exact (mem_readers.mp hcons).1

theorem update_counts (ht : Tabled cat P t G) (hok : wp.update cat t n w = some (wp', w')) :
    wp'.totalSourceStmt = (entriesOf wp'.vSGroups).length ∧
      ∀ s ∈ entriesOf wp'.vSGroups, s ∈ P := by
  rw [WeightProfile.update] at hok
  split at hok
  · cases hok
  · next a ha =>
    rw [Option.some.injEq, Prod.mk.injEq] at hok
    rw [← hok.1]
    exact visits_counts ht (fun _ he => he) ha ⟨rfl, fun s hs => by cases hs⟩

end Sources

section Right

variable {d : Driver} {G : Graph} {p p₁ : OcsProfile} {w w' : Marking} {q : Quotas}

theorem prioritize_ranks (hok : p.prioritize cat stats d n w = some (p₁, w')) :
    p₁.roundTotal = p.roundTotal ∧
      p.weights.update cat d.bufStateTable n w = some (p₁.weights, w') ∧
      rankEntries cat stats p.mode d.bufStateTable n (entriesOf p₁.weights.vSGroups)
          ⟨0, 0, 0, p.ocs.reset cat d.stmts⟩ =
        some (p₁.vSGroups.flatMap OcsGroup.vSEntries,
          ⟨p₁.maxPriority, p₁.totalSrcOriPriority, p₁.totalSrcPriority, p₁.ocs⟩) := by
  rw [OcsProfile.prioritize] at hok
  split at hok
  · cases hok
  · next wp w₁ hw =>
    obtain ⟨⟨gs, a⟩, hr, heq⟩ := Option.map_eq_some_iff.mp hok
    obtain ⟨rfl, rfl⟩ := Prod.mk.inj heq
    exact ⟨rfl, hw, rankGroups_flat hr⟩

inductive OcsRun (cat : Catalog) : OcsProfile → Prop
  | new (mode : QuotaMode) (st : OcsState) : OcsRun cat (.new mode (-1) st)
  | update {p p' : OcsProfile} {stats : StmtStats} {d : Driver} {G : Graph} {n : Nat}
      {w w' : Marking} {q q' : Quotas} (run : OcsRun cat p)
      (tabled : Tabled cat d.stmts d.bufStateTable G)
      (step : p.update cat stats d n w q = some (p', w', q')) : OcsRun cat p'
  | ranks {p : OcsProfile} (st : OcsState) (run : OcsRun cat p) : OcsRun cat { p with ocs := st }

theorem round_pos (h : Tabled cat d.stmts d.bufStateTable G)
    (hok : p.prioritize cat stats d n w = some (p₁, w'))
    (hround : p.roundTotal = -1 ∨ 0 < p.roundTotal) (hmax : p₁.maxPriority ≠ 0) :
    0 < p₁.round := by
  obtain ⟨hsame, hup, hrank⟩ := prioritize_ranks hok
  rw [OcsProfile.round, hsame]
  rcases hround with hr | hr
  · rw [if_pos hr, (update_counts h hup).1]
    have hne : entriesOf p₁.weights.vSGroups ≠ [] := by
      intro hnil
      rw [hnil, rankEntries, Option.some.injEq, Prod.mk.injEq] at hrank
      exact hmax (congrArg Ranking.maxPriority hrank.2).symm
    have hlen : 0 < ((entriesOf p₁.weights.vSGroups).length : Int) := by
      exact_mod_cast List.length_pos_of_ne_nil hne
    exact mul_pos (by decide) hlen
  · rw [if_neg (by omega)]
    exact hr

theorem OcsRun.round (run : OcsRun cat p) : p.roundTotal = -1 ∨ 0 < p.roundTotal := by
  induction run with
  | new mode st => exact .inl rfl
  | @update p p' stats d G n w w' q q' run h step ih =>
    obtain ⟨⟨p₁, w₁⟩, hok, heq⟩ := Option.map_eq_some_iff.mp step
    rw [← (Prod.mk.inj heq).1, OcsProfile.updateQuotas]
    by_cases hmax : p₁.maxPriority = 0
    · rw [if_pos hmax, (prioritize_ranks hok).1]
      exact ih
    · rw [if_neg hmax]
      exact .inr (round_pos h hok ih hmax)
  | ranks st run ih => exact ih

/-- Every entry of every group has at least the least quota, and in a group no greater priority has
a smaller quota. -/
structure QuotasRight (r : OcsProfile × Quotas) : Prop where
  least : ∀ g ∈ r.1.vSGroups, ∀ e ∈ g.vSEntries,
    0 < WeightOnlyProfile.MIN_QUOTA ∧ WeightOnlyProfile.MIN_QUOTA ≤ (r.2 e.pStmt).quota
  ordered : ∀ g ∈ r.1.vSGroups, ∀ e ∈ g.vSEntries, ∀ e' ∈ g.vSEntries, e'.priority < e.priority →
    (r.2 e'.pStmt).quota ≤ (r.2 e.pStmt).quota

/-- Every ranked entry has a positive priority, and a group with an entry without a rank has no
share that is too large. -/
structure SharesRight (p : OcsProfile) : Prop where
  pos : ∀ g ∈ p.vSGroups, ∀ e ∈ g.vSEntries, p.ocs.Ranked e.pStmt → 0 < e.priority
  mixed : ∀ g ∈ p.vSGroups, ∀ u ∈ g.vSEntries, ∀ r ∈ g.vSEntries, ¬ p.ocs.Ranked u.pStmt →
    p.ocs.Ranked r.pStmt →
      (r.priority < WeightProfile.DEFAULT_VALUE →
        r.priority * p.round ≤ 100 * p.totalSrcPriority) ∧
      (WeightProfile.DEFAULT_VALUE < r.priority →
        99 * p.totalSrcPriority < r.priority * p.round)

theorem mem_updateGroup {g : OcsGroup} {e : StmtEntry} :
    e ∈ (p.updateGroup cat g).vSEntries ↔
      ∃ e₀ ∈ g.vSEntries, e = { e₀ with expectedQMax := p.expectedQMaxOf cat e₀ } := by
  rw [OcsProfile.updateGroup, List.mem_mergeSort, List.mem_map]
  exact exists_congr fun e₀ => and_congr_right fun _ => eq_comm

theorem quotasRight_iff {q' : Quotas}
    (hq : ∀ g ∈ p.vSGroups, ∀ e ∈ g.vSEntries, (q' e.pStmt).quota = p.quotaOf e) :
    QuotasRight ({ p with roundTotal := p.round, vSGroups := p.vSGroups.map (p.updateGroup cat) },
        q') ↔
      (∀ g ∈ p.vSGroups, ∀ e ∈ g.vSEntries, WeightOnlyProfile.MIN_QUOTA ≤ p.quotaOf e) ∧
        ∀ g ∈ p.vSGroups, ∀ e ∈ g.vSEntries, ∀ e' ∈ g.vSEntries, e'.priority < e.priority →
          p.quotaOf e' ≤ p.quotaOf e := by
  have hin : ∀ g ∈ p.vSGroups, ∀ e ∈ g.vSEntries,
      p.updateGroup cat g ∈ p.vSGroups.map (p.updateGroup cat) ∧
        { e with expectedQMax := p.expectedQMaxOf cat e } ∈ (p.updateGroup cat g).vSEntries :=
    fun g hg e he => ⟨List.mem_map_of_mem hg, mem_updateGroup.mpr ⟨e, he, rfl⟩⟩
  constructor
  · rintro ⟨hleast, hordered⟩
    refine ⟨fun g hg e he => ?_, fun g hg e he e' he' hlt => ?_⟩
    · have h := (hleast _ (hin g hg e he).1 _ (hin g hg e he).2).2
      rwa [hq g hg e he] at h
    · have h := hordered _ (hin g hg e he).1 _ (hin g hg e he).2 _ (hin g hg e' he').2 hlt
      rwa [hq g hg e he, hq g hg e' he'] at h
  · rintro ⟨hleast, hordered⟩
    refine ⟨fun g' hg' x hx => ?_, fun g' hg' x hx y hy hlt => ?_⟩
    · obtain ⟨g, hg, rfl⟩ := List.mem_map.mp hg'
      obtain ⟨e, he, rfl⟩ := mem_updateGroup.mp hx
      rw [hq g hg e he]
      exact ⟨by decide, hleast g hg e he⟩
    · obtain ⟨g, hg, rfl⟩ := List.mem_map.mp hg'
      obtain ⟨e, he, rfl⟩ := mem_updateGroup.mp hx
      obtain ⟨e', he', rfl⟩ := mem_updateGroup.mp hy
      rw [hq g hg e he, hq g hg e' he']
      exact hordered g hg e he e' he' hlt

section Shares

variable (hT : 0 < p.totalSrcPriority) (hR : 0 < p.round)

include hT hR

theorem share_pos_iff (v : ℚ) : 0 < p.share v ↔ 0 < v := by
  have hround : (0 : ℚ) < p.round := by exact_mod_cast hR
  rw [OcsProfile.share, div_pos_iff_of_pos_right hT, mul_pos_iff_of_pos_right hround]

theorem share_mono {v v' : ℚ} (h : v ≤ v') : p.share v ≤ p.share v' := by
  have hround : (0 : ℚ) ≤ p.round := by exact_mod_cast hR.le
  exact div_le_div_of_nonneg_right (mul_le_mul_of_nonneg_right h hround) hT.le

theorem quotaOf_least (e : StmtEntry) : WeightOnlyProfile.MIN_QUOTA ≤ p.quotaOf e ↔
    (p.ocs.Ranked e.pStmt → 0 < e.priority) := by
  rw [OcsProfile.quotaOf]
  split
  · next hr =>
    rw [forall_prop_of_true hr, ← share_pos_iff hT hR, ← Int.ceil_pos]
    simp only [WeightOnlyProfile.MIN_QUOTA]
    omega
  · next hr =>
    exact ⟨fun _ hyes => absurd hyes hr, fun _ => by decide⟩

theorem quotaOf_ordered (e e' : StmtEntry) :
    (e'.priority < e.priority → p.quotaOf e' ≤ p.quotaOf e) ↔ (e'.priority < e.priority →
      (¬ p.ocs.Ranked e.pStmt → p.ocs.Ranked e'.pStmt →
        e'.priority * p.round ≤ 100 * p.totalSrcPriority) ∧
      (¬ p.ocs.Ranked e'.pStmt → p.ocs.Ranked e.pStmt →
        99 * p.totalSrcPriority < e.priority * p.round)) := by
  refine imp_congr_right fun hlt => ?_
  rw [OcsProfile.quotaOf, OcsProfile.quotaOf]
  simp only [WeightGroupSchedule.AVG_PER_JOB_ROUND, WeightOnlyProfile.MIN_QUOTA]
  by_cases hr : p.ocs.Ranked e.pStmt
  · by_cases hr' : p.ocs.Ranked e'.pStmt
    · have hle := Int.ceil_le_ceil (share_mono hT hR hlt.le)
      simp only [hr, hr', if_true, not_true_eq_false, false_implies, and_self, iff_true]
      omega
    · have hceil : (500 : Int) ≤ ⌈p.share e.priority⌉ * 5 ↔ 99 < ⌈p.share e.priority⌉ := by omega
      have hdiv : 99 < p.share e.priority ↔ 99 * p.totalSrcPriority < e.priority * p.round := by
        rw [OcsProfile.share, lt_div_iff₀ hT]
      simp only [hr, hr', if_true, if_false, not_true_eq_false, not_false_eq_true, false_implies,
        true_implies, true_and]
      rw [hceil, Int.lt_ceil, ← hdiv]
      norm_num
  · by_cases hr' : p.ocs.Ranked e'.pStmt
    · have hceil : ⌈p.share e'.priority⌉ * 5 ≤ (500 : Int) ↔ ⌈p.share e'.priority⌉ ≤ 100 := by omega
      have hdiv : p.share e'.priority ≤ 100 ↔
          e'.priority * p.round ≤ 100 * p.totalSrcPriority := by
        rw [OcsProfile.share, div_le_iff₀ hT]
      simp only [hr, hr', if_true, if_false, not_true_eq_false, not_false_eq_true, false_implies,
        true_implies, and_true]
      rw [hceil, Int.ceil_le, ← hdiv]
      norm_num
    · simp [hr, hr']

theorem sharesRight_iff (hdef : ∀ g ∈ p.vSGroups, ∀ e ∈ g.vSEntries, ¬ p.ocs.Ranked e.pStmt →
    e.priority = WeightProfile.DEFAULT_VALUE) :
    ((∀ g ∈ p.vSGroups, ∀ e ∈ g.vSEntries, WeightOnlyProfile.MIN_QUOTA ≤ p.quotaOf e) ∧
      ∀ g ∈ p.vSGroups, ∀ e ∈ g.vSEntries, ∀ e' ∈ g.vSEntries, e'.priority < e.priority →
        p.quotaOf e' ≤ p.quotaOf e) ↔ SharesRight p := by
  simp only [quotaOf_least hT hR, quotaOf_ordered hT hR]
  constructor
  · rintro ⟨hpos, hord⟩
    refine ⟨hpos, fun g hg u hu r hr hnu hyr => ⟨fun hlt => ?_, fun hlt => ?_⟩⟩
    · exact (hord g hg u hu r hr (by rwa [hdef g hg u hu hnu])).1 hnu hyr
    · exact (hord g hg r hr u hu (by rwa [hdef g hg u hu hnu])).2 hnu hyr
  · intro h
    refine ⟨h.pos, fun g hg e he e' he' hlt => ⟨fun hn hy => ?_, fun hn hy => ?_⟩⟩
    · exact (h.mixed g hg e he e' he' hn hy).1 (by rwa [← hdef g hg e he hn])
    · exact (h.mixed g hg e' he' e he hn hy).2 (by rwa [← hdef g hg e' he' hn])

end Shares

theorem knownStat_nonneg (hcost : ∀ b m, stats b = some m → 0 < m.totalPTime) (s : StmtId)
    (m : StmtStat) (hm : knownStat cat stats s = some m) : m.Of fun a => 0 ≤ a := by
  obtain ⟨hs, henough⟩ := Option.filter_eq_some_iff.mp hm
  rw [StmtStat.Of]
  split
  · exact ⟨by positivity, by positivity, (hcost _ _ hs).le⟩
  · next hin =>
    obtain ⟨hsel, hrate⟩ := (of_decide_eq_true henough).resolve_left hin
    exact ⟨hsel.le, hrate.le⟩

theorem knownStat_pos (hcost : ∀ b m, stats b = some m → 0 < m.totalPTime)
    (hout : ∀ b m, stats b = some m → 0 < m.totalOutput) (s : StmtId)
    (m : StmtStat) (hm : knownStat cat stats s = some m) : m.Of fun a => 0 < a := by
  obtain ⟨hs, henough⟩ := Option.filter_eq_some_iff.mp hm
  rw [StmtStat.Of]
  split
  · next hin =>
    have hpos : 0 < m.totalInput := Nat.lt_of_lt_of_le (by decide) hin
    exact ⟨by exact_mod_cast hpos, by exact_mod_cast hout _ _ hs, hcost _ _ hs⟩
  · next hin => exact (of_decide_eq_true henough).resolve_left hin

/-- The quotas are right exactly if there is no priority at all, or the shares are; and where every
selectivity is positive, every entry has at least the least quota. -/
theorem quotas_right_iff (run : OcsRun cat p) (h : Tabled cat d.stmts d.bufStateTable G)
    (hnames : ∀ x ∈ d.stmts, ∀ y ∈ d.stmts, (cat x).name = (cat y).name → x = y)
    (hstats : StatsOf cat d.stmts stats) (hcost : ∀ b m, stats b = some m → 0 < m.totalPTime)
    (hok : p.prioritize cat stats d n w = some (p₁, w')) :
    (QuotasRight (p₁.updateQuotas cat (q.reset d.stmts)) ↔
      p₁.maxPriority = 0 ∨ SharesRight p₁) ∧
    ((∀ b m, stats b = some m → 0 < m.totalOutput) →
      ∀ g ∈ p₁.vSGroups, ∀ e ∈ g.vSEntries, WeightOnlyProfile.MIN_QUOTA ≤
        ((p₁.updateQuotas cat (q.reset d.stmts)).2 e.pStmt).quota) := by
  obtain ⟨-, hup, hrank⟩ := prioritize_ranks hok
  obtain ⟨-, hP⟩ := update_counts h hup
  have hsettled := rankEntries_settled hstats hnames hP
    (fun s hs => ⟨_, reset_lookup p.ocs hs⟩) hrank
  have hflat : ∀ g ∈ p₁.vSGroups, ∀ e ∈ g.vSEntries, e ∈ p₁.vSGroups.flatMap OcsGroup.vSEntries :=
    fun g hg e he => List.mem_flatMap.mpr ⟨g, hg, he⟩
  have hsame : ∀ e ∈ p₁.vSGroups.flatMap OcsGroup.vSEntries,
      ∀ e' ∈ p₁.vSGroups.flatMap OcsGroup.vSEntries, e.pStmt = e'.pStmt → e = e' := by
    intro e he e' he' heq
    obtain ⟨-, o, ho, hof⟩ := hsettled e he
    obtain ⟨-, o', ho', hof'⟩ := hsettled e' he'
    have heq' := ho'.2
    rw [← heq, ho.2, Option.some.injEq] at heq'
    rw [hof, hof', heq, heq']
  by_cases hmax : p₁.maxPriority = 0
  · have hdefault : ∀ g ∈ p₁.vSGroups, ∀ e ∈ g.vSEntries,
        ((q.reset d.stmts) e.pStmt).quota = WeightOnlyProfile.DEFAULT_QUOTA := fun g hg e he =>
      quotas_reset q (hP _ (hsettled e (hflat g hg e he)).1)
    rw [OcsProfile.updateQuotas, if_pos hmax]
    refine ⟨⟨fun _ => .inl hmax, fun _ => ⟨fun g hg e he => ?_, fun g hg e he e' he' _ => ?_⟩⟩,
      fun _ g hg e he => ?_⟩
    · rw [hdefault g hg e he]
      decide
    · rw [hdefault g hg e he, hdefault g hg e' he']
    · rw [hdefault g hg e he]
      decide
  · have hnonneg : ∀ s m, knownStat cat stats s = some m → m.Of fun a => 0 ≤ a :=
      knownStat_nonneg hcost
    obtain ⟨h0, hle⟩ : Ranking.Bounded ⟨p₁.maxPriority, p₁.totalSrcOriPriority,
        p₁.totalSrcPriority, p₁.ocs⟩ :=
      rankEntries_bounded hnonneg hrank (reset_of .nonneg _ _) ⟨le_refl 0, le_refl 0⟩
    have hT : 0 < p₁.totalSrcPriority := (lt_of_le_of_ne h0 (Ne.symm hmax)).trans_le hle
    have hR := round_pos h hok run.round hmax
    have hquota : ∀ g ∈ p₁.vSGroups, ∀ e ∈ g.vSEntries,
        ((p₁.updateQuotas cat (q.reset d.stmts)).2 e.pStmt).quota = p₁.quotaOf e := by
      intro g hg e he
      rw [OcsProfile.updateQuotas, if_neg hmax]
      exact quotas_set (fun e he e' he' heq => by rw [hsame e he e' he' heq]) _ (hflat g hg e he)
    -- without statistics an entry stays as it has been reset
    have hdef : ∀ g ∈ p₁.vSGroups, ∀ e ∈ g.vSEntries, ¬ p₁.ocs.Ranked e.pStmt →
        e.priority = WeightProfile.DEFAULT_VALUE := by
      intro g hg e he hno
      obtain ⟨hmem, o, ho, hof⟩ := hsettled e (hflat g hg e he)
      have hstay := rankEntries_preserves (settled_preserved hstats hnames (hP _ hmem) _) hrank
        ⟨.inr (ho.1.resolve_left hno), reset_lookup p.ocs (hP _ hmem)⟩
      have hnew := hstay.2
      rw [ho.2, Option.some.injEq] at hnew
      rw [hof, hnew]
      rfl
    refine ⟨?_, fun hout g hg e he => ?_⟩
    · rw [or_iff_right hmax, ← sharesRight_iff hT hR hdef, ← quotasRight_iff hquota,
        OcsProfile.updateQuotas, if_neg hmax]
    · rw [hquota g hg e he, quotaOf_least hT hR]
      obtain ⟨-, o, ho, hof⟩ := hsettled e (hflat g hg e he)
      have hall := rankEntries_preserves (of_preserved Magnitude.pos (knownStat_pos hcost hout))
        hrank (reset_of .pos _ _)
      intro _
      rw [hof]
      exact (hall _ _ ho.2).priority

end Right

def shareCat : Catalog
  | 0 => ⟨['s'], .normal, true, ['a'], ['b'], [], [], []⟩
  | 1 => ⟨['t'], .normal, true, ['a'], ['c'], [], [], []⟩
  | _ => ⟨['n'], .normal, false, ['d'], ['e'], [], [], []⟩

def shareDriver : Driver := added shareCat 1 (added shareCat 0 Driver.new)

def shareMarks : Marking := fun _ => ⟨5, false, false, true⟩

/-- The second statement has given `out` tuples for 1000. -/
def shareStats (out : Nat) : StmtStats := fun b =>
  if b = ['s'] then some ⟨1000, 500, 4, 1 / 2, 250⟩
  else if b = ['t'] then some ⟨1000, out, 4, 0, 250⟩
  else none

def shareProfile : OcsProfile := .new .quotaTimeMode (-1) unranked

def shareRanked (out : Nat) : Option (OcsProfile × Marking) :=
  shareProfile.prioritize shareCat (shareStats out) shareDriver 3 shareMarks

theorem shareDriver_tabled :
    ∃ G, Tabled shareCat shareDriver.stmts shareDriver.bufStateTable G := by
  have h₁ : GraphRun shareCat (MayAdd shareCat) (MayDrop shareCat) (added shareCat 0 Driver.new) :=
    .add (s := 0) .new ⟨by decide, ⟨by decide, by decide, by decide, by decide⟩, by decide⟩ rfl
  have h₂ : GraphRun shareCat (MayAdd shareCat) (MayDrop shareCat) shareDriver :=
    .add (s := 1) h₁ ⟨by decide, ⟨by decide, by decide, by decide, by decide⟩, by decide⟩ rfl
  obtain ⟨G, hr⟩ := h₂.reached
  exact ⟨G, hr.canon, hr.whole.members, hr.names⟩

theorem shareStats_of (out : Nat) : StatsOf shareCat shareDriver.stmts (shareStats out) := by
  rintro (_ | _ | s) hs
  · decide
  · decide
  · exact absurd rfl hs

theorem shareStats_cost (out : Nat) (b : Name) (m : StmtStat) (hm : shareStats out b = some m) :
    0 < m.totalPTime ∧ 0 ≤ m.lastKnownSelectivity ∧ 0 < m.lastKnownProcessRate := by
  rw [shareStats] at hm
  split at hm
  · rw [← Option.some.inj hm]
    norm_num
  · split at hm
    · rw [← Option.some.inj hm]
      norm_num
    · cases hm

theorem quotas_right_two : ∃ p₁ w', shareRanked 500 = some (p₁, w') ∧
    QuotasRight (p₁.updateQuotas shareCat (Quotas.reset shareDriver.stmts fun _ => ⟨0, 0, 0⟩)) := by
  obtain ⟨G, h⟩ := shareDriver_tabled
  obtain ⟨⟨p₁, w'⟩, hok⟩ := Option.isSome_iff_exists.mp
    (show (shareRanked 500).isSome = true by decide +kernel)
  refine ⟨p₁, w', hok, ((quotas_right_iff (.new _ _) h (by decide) (shareStats_of 500)
    (fun b m hm => (shareStats_cost 500 b m hm).1) hok).1).mpr (.inr ?_)⟩
  have hall : (shareRanked 500).map (fun r => r.1.vSGroups.all fun g => g.vSEntries.all fun e =>
      decide (r.1.ocs.Ranked e.pStmt ∧ 0 < e.priority)) = some true := by
    decide +kernel
  rw [hok, Option.map_some, Option.some.injEq] at hall
  have hranked : ∀ g ∈ p₁.vSGroups, ∀ e ∈ g.vSEntries, p₁.ocs.Ranked e.pStmt ∧ 0 < e.priority :=
    fun g hg e he => of_decide_eq_true (List.all_eq_true.mp (List.all_eq_true.mp hall g hg) e he)
  exact ⟨fun g hg e he _ => (hranked g hg e he).2,
    fun g hg u hu r hr hno => absurd (hranked g hg u hu).1 hno⟩

/-- Without outputs, the second statement has no priority and no quota. -/
theorem quotas_zero :
    ¬ ∀ (cat : Catalog) (stats : StmtStats) (d : Driver) (G : Graph) (p p₁ : OcsProfile)
      (w w' : Marking) (n : Nat) (q : Quotas), OcsRun cat p →
      Tabled cat d.stmts d.bufStateTable G →
      (∀ x ∈ d.stmts, ∀ y ∈ d.stmts, (cat x).name = (cat y).name → x = y) →
      StatsOf cat d.stmts stats →
      (∀ b m, stats b = some m →
        0 < m.totalPTime ∧ 0 ≤ m.lastKnownSelectivity ∧ 0 < m.lastKnownProcessRate) →
      p.prioritize cat stats d n w = some (p₁, w') →
      QuotasRight (p₁.updateQuotas cat (q.reset d.stmts)) := by
  intro hall
  obtain ⟨G, h⟩ := shareDriver_tabled
  obtain ⟨⟨p₁, w'⟩, hok⟩ := Option.isSome_iff_exists.mp
    (show (shareRanked 0).isSome = true by decide +kernel)
  have hright := hall shareCat (shareStats 0) shareDriver G shareProfile p₁ shareMarks w' 3
    (fun _ => ⟨0, 0, 0⟩) (.new _ _) h (by decide) (shareStats_of 0) (shareStats_cost 0) hok
  have hfacts : (shareRanked 0).map (fun r => decide (r.1.maxPriority ≠ 0) &&
      (r.1.vSGroups.any fun g => g.vSEntries.any fun e => decide (e.pStmt = 1)) &&
      decide (((r.1.updateQuotas shareCat (Quotas.reset shareDriver.stmts
        fun _ => ⟨0, 0, 0⟩)).2 1).quota = 0)) = some true := by
    decide +kernel
  rw [hok, Option.map_some, Option.some.injEq, Bool.and_eq_true, Bool.and_eq_true] at hfacts
  obtain ⟨⟨hmax, hmem⟩, hzero⟩ := hfacts
  obtain ⟨g, hg, hge⟩ := List.any_eq_true.mp hmem
  obtain ⟨e, he, hes⟩ := List.any_eq_true.mp hge
  have hleast := hright.least
  rw [OcsProfile.updateQuotas, if_neg (of_decide_eq_true hmax)] at hleast hzero
  have hfive := (hleast _ (List.mem_map_of_mem hg) _ (mem_updateGroup.mpr ⟨e, he, rfl⟩)).2
  dsimp only at hfive
  rw [of_decide_eq_true hes, of_decide_eq_true hzero] at hfive
  exact absurd hfive (by decide)

end StreamMill.Esl
