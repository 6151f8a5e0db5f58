import StreamMill.Esl.OcsProfile
import StreamMill.Esl.WeightRun

/-!
# StreamMill.Esl.PathPriority

What `update_priority` makes of a graph without cycles. A call goes down the path the table leads to
until it meets a sink or a statement without statistics, and ranks what it has come through on the
way back. It can do so only if nothing on the path has a rank before, and a fork is passed only
where its first branch has no statistics.

`path_right_iff`: the calls that come in such an order, and the graphs for which every order is one.
-/

namespace StreamMill.Esl

variable {cat : Catalog} {P : List StmtId} {G : Graph} {t : BufStateTbl} {s x y z : StmtId}
  {stats : StmtStats} {mode : QuotaMode} {st st' : OcsState} {n : Nat}

def HasStat (cat : Catalog) (stats : StmtStats) (s : StmtId) : Prop :=
  knownStat cat stats s ≠ none

/-- The statement downstream that the table leads to first. -/
def asked (cat : Catalog) (t : BufStateTbl) (s : StmtId) : Option StmtId :=
  match t.lookup (cat s).out with
  | none => none
  | some e =>
    if e.bType = .fork ∨ e.bType = .sourceFork then
      (forkDummies t (cat s).out).head?.bind BufferEntry.statement
    else e.statement

/-- The output of a normal statement with several readers. -/
def Forked (cat : Catalog) (G : Graph) (s : StmtId) : Prop :=
  (cat s).type = .normal ∧ G.Forks (cat s).out

/-- The statement that stays in the entry of a fork reads it, as long as it is in the graph. -/
def FirstReads (P : List StmtId) (G : Graph) : Prop :=
  ∀ b c, G.first b = some c → c ∈ P → c ∈ G.cons b

def StatsOf (cat : Catalog) (P : List StmtId) (stats : StmtStats) : Prop :=
  ∀ s, HasStat cat stats s → s ∈ P

section

variable (h : Tabled cat P t G)
include h

theorem forkDummies_statements (b : Name) :
    (forkDummies t b).map BufferEntry.statement = (dummyStmts b t.entries).map some := by
  have hst := h.stands
  rw [forkDummies, dummyStmts]
  revert hst
  generalize t.entries = es
  intro hst
  induction es with
  | nil => rfl
  | cons e es ih =>
    have hrest : Stands es := fun e' he' => hst e' (List.mem_cons_of_mem _ he')
    rw [List.map_cons, List.filter_cons, List.filterMap_cons]
    by_cases hty : e.2.bType = .forkDummy ∧ e.2.inplace = some b
    · obtain ⟨c, hc⟩ := Option.ne_none_iff_exists'.mp (hst e List.mem_cons_self hty.1)
      rw [if_pos (decide_eq_true hty), if_pos hty, hc, List.map_cons, List.map_cons, ih hrest, hc]
    · rw [if_neg (by simpa using hty), if_neg hty]
      exact ih hrest

theorem Tabled.lookup_out (hs : s ∈ P) :
    t.lookup (cat s).out = some (G.entry cat (cat s).out) := by
  have hp : G.prod (cat s).out = some s := (h.members.prod _ s).2 ⟨hs, rfl⟩
  exact h.canon.buffers _ (.inl (by simp [hp]))

theorem Tabled.entry_sink (hs : s ∈ P) :
    ((G.entry cat (cat s).out).bType = .sink ∨ (G.entry cat (cat s).out).bType = .mergeSink) ↔
      G.cons (cat s).out = [] := by
  have hp : G.prod (cat s).out = some s := (h.members.prod _ s).2 ⟨hs, rfl⟩
  rw [entry_bType, hp]
  rcases G.cons (cat s).out with _ | ⟨c, _ | ⟨c', cs⟩⟩ <;>
    by_cases hty : (cat s).type = .normal <;> simp [bufferTyOf, hty]

theorem Tabled.entry_forked (hs : s ∈ P) :
    ((G.entry cat (cat s).out).bType = .fork ∨ (G.entry cat (cat s).out).bType = .sourceFork) ↔
      Forked cat G s := by
  have hp : G.prod (cat s).out = some s := (h.members.prod _ s).2 ⟨hs, rfl⟩
  rw [entry_bType, hp, Forked, Graph.Forks]
  rcases G.cons (cat s).out with _ | ⟨c, _ | ⟨c', cs⟩⟩ <;>
    by_cases hty : (cat s).type = .normal <;> simp [bufferTyOf, hty]

theorem Tabled.forked (hs : s ∈ P) (hf : Forked cat G s) :
    (G.entry cat (cat s).out).forward = .forkCount (forkDummies t (cat s).out).length ∧
      ∃ e rest y, forkDummies t (cat s).out = e :: rest ∧ e.statement = some y ∧
        asked cat t s = some y ∧ y ∈ G.cons (cat s).out := by
  have hperm := h.dummyStmts_perm hf.2
  have hmap := forkDummies_statements h (cat s).out
  have hlen : (forkDummies t (cat s).out).length = (G.cons (cat s).out).length := by
    have := congrArg List.length hmap
    rw [List.length_map, List.length_map] at this
    rw [this, hperm.length_eq]
  refine ⟨?_, ?_⟩
  · rw [hlen, Graph.entry]
    obtain ⟨c₁, c₂, r, hr⟩ := forks_cases hf.2
    rw [hr]
    rfl
  · cases hd : forkDummies t (cat s).out with
    | nil =>
      have htwo : 2 ≤ (G.cons (cat s).out).length := hf.2
      rw [← hlen, hd] at htwo
      exact absurd htwo (by decide)
    | cons e rest =>
      rw [hd, List.map_cons] at hmap
      cases hds : dummyStmts (cat s).out t.entries with
      | nil => rw [hds] at hmap; cases hmap
      | cons y ys =>
        rw [hds, List.map_cons, List.cons.injEq] at hmap
        refine ⟨e, rest, y, rfl, hmap.1, ?_, hperm.mem_iff.mp (by rw [hds]; simp)⟩
        rw [asked, h.lookup_out hs]
        dsimp only
        rw [if_pos ((h.entry_forked hs).mpr hf), hd]
        exact hmap.1

theorem Tabled.asked_unforked (hs : s ∈ P) (hf : ¬ Forked cat G s) :
    asked cat t s = (G.entry cat (cat s).out).statement := by
  rw [asked, h.lookup_out hs]
  dsimp only
  rw [if_neg fun hty => hf ((h.entry_forked hs).mp hty)]

theorem Tabled.asked_reads (hfirst : FirstReads P G) (hs : s ∈ P) (hy : y ∈ P)
    (ha : asked cat t s = some y) : ReadBy cat G s y := by
  by_cases hf : Forked cat G s
  · obtain ⟨-, -, -, y', -, -, ha', hr⟩ := h.forked hs hf
    rw [ha, Option.some.injEq] at ha'
    rwa [ha']
  · rw [h.asked_unforked hs hf, Graph.entry] at ha
    rw [ReadBy]
    rcases hc : G.cons (cat s).out with _ | ⟨c, _ | ⟨c', cs⟩⟩
    · rw [hc] at ha
      cases ha
    · rw [hc] at ha
      obtain rfl : c = y := Option.some.inj ha
      exact List.mem_cons_self
    · rw [hc] at ha
      rw [← hc]
      exact hfirst _ _ ha hy

theorem Tabled.asked_sink (hs : s ∈ P) (hc : G.cons (cat s).out = []) :
    asked cat t s = none := by
  have hf : ¬ Forked cat G s := fun hf => by
    have htwo : 2 ≤ (G.cons (cat s).out).length := hf.2
    rw [hc] at htwo
    exact absurd htwo (by decide)
  rw [h.asked_unforked hs hf, Graph.entry, hc]
  rfl

end

/-- A call for `x` goes on to `y`. -/
def Leads (cat : Catalog) (stats : StmtStats) (t : BufStateTbl) (x y : StmtId) : Prop :=
  HasStat cat stats x ∧ asked cat t x = some y

/-- `y` is `x` or on the way from `x` that the calls go. -/
def OnPath (cat : Catalog) (stats : StmtStats) (t : BufStateTbl) : StmtId → StmtId → Prop :=
  Relation.ReflTransGen (Leads cat stats t)

/-- A call goes through the statement: it has no rank, and where it goes on, the table leads to a
statement, and from a fork to one without statistics. -/
def Open (cat : Catalog) (stats : StmtStats) (t : BufStateTbl) (G : Graph) (st : OcsState)
    (x : StmtId) : Prop :=
  ¬ st.Ranked x ∧ (HasStat cat stats x → G.cons (cat x).out ≠ [] →
    ∃ y, asked cat t x = some y ∧ (Forked cat G x → ¬ HasStat cat stats y))

theorem onPath_reads (h : Tabled cat P t G) (hfirst : FirstReads P G) (hstats : StatsOf cat P stats)
    (hxy : OnPath cat stats t x y) (hy : y ∈ P) : Relation.ReflTransGen (ReadBy cat G) x y := by
  induction hxy using Relation.ReflTransGen.head_induction_on with
  | refl => exact .refl
  | @head x z hxz hzy ih =>
    have hz : z ∈ P := by
      rcases Relation.ReflTransGen.cases_head hzy with rfl | ⟨_, hz, -⟩
      · exact hy
      · exact hstats z hz.1
    exact .head (h.asked_reads hfirst (hstats x hxz.1) hz hxz.2) ih

theorem not_onPath (h : Tabled cat P t G) (hfirst : FirstReads P G) (hstats : StatsOf cat P stats)
    (hac : Lib.Acyclic (ReadBy cat G)) (hxy : Leads cat stats t x y) :
    ¬ OnPath cat stats t y x := by
  intro hyx
  have hx := hstats x hxy.1
  have hy : y ∈ P := by
    rcases Relation.ReflTransGen.cases_head hyx with rfl | ⟨_, hy, -⟩
    · exact hx
    · exact hstats y hy.1
  exact hac x (.head' (h.asked_reads hfirst hx hy hxy.2) (onPath_reads h hfirst hstats hyx hx))

theorem downstream_some (h : Tabled cat P t G) (hs : s ∈ P)
    {run : StmtId → OcsState → Option OcsState} {r : Option OCSEntry} :
    downstream cat t run (cat s).out (G.entry cat (cat s).out) st = some (r, st') ↔
      ∃ y, asked cat t s = some y ∧ ¬ st.Ranked y ∧ run y st = some st' ∧
        ((¬ st'.Ranked y ∧ r = none) ∨
          (st'.Ranked y ∧ ¬ Forked cat G s ∧ r = some (st'.entry cat y))) := by
  rw [downstream]
  by_cases hf : Forked cat G s
  · obtain ⟨hcount, e, rest, y, hd, hy, ha, -⟩ := h.forked hs hf
    rw [if_pos ((h.entry_forked hs).mpr hf), if_pos hcount, hd, forkBranch, hy, ha]
    dsimp only
    by_cases hr : st.Ranked y
    · simp [hr]
    · rw [if_neg hr]
      cases hrun : run y st with
      | none => simp [hrun]
      | some st₁ =>
        by_cases hr₁ : st₁.Ranked y
        · simp only [hr₁, if_true, hr, hrun, hf, not_true_eq_false, false_and, and_false, or_false,
            Option.some.injEq, exists_eq_left', not_false_eq_true, true_and, reduceCtorEq,
            false_iff, not_and]
          rintro rfl hno
          exact absurd hr₁ hno
        · simp only [hr₁, if_false, hr, hrun, hf, not_true_eq_false, false_and, and_false, or_false,
            Option.some.injEq, exists_eq_left', not_false_eq_true, true_and, Prod.mk.injEq]
          constructor
          · rintro ⟨rfl, rfl⟩
            exact ⟨rfl, hr₁, rfl⟩
          · rintro ⟨rfl, -, rfl⟩
            exact ⟨rfl, rfl⟩
  · rw [if_neg fun hty => hf ((h.entry_forked hs).mp hty), h.asked_unforked hs hf]
    cases hy : (G.entry cat (cat s).out).statement with
    | none => simp
    | some y =>
      dsimp only
      rw [onlyBranch]
      by_cases hr : st.Ranked y
      · simp [hr]
      · rw [if_neg hr]
        cases hrun : run y st with
        | none => simp [hrun]
        | some st₁ =>
          simp only [hr, hrun, hf, Option.some.injEq, exists_eq_left', not_false_eq_true, true_and]
          by_cases hr₁ : st₁.Ranked y
          · rw [if_pos hr₁, Option.some.injEq, Prod.mk.injEq]
            constructor
            · rintro ⟨rfl, rfl⟩
              exact ⟨rfl, .inr ⟨hr₁, rfl⟩⟩
            · rintro ⟨rfl, ⟨hno, -⟩ | ⟨-, rfl⟩⟩
              · exact absurd hr₁ hno
              · exact ⟨rfl, rfl⟩
          · rw [if_neg hr₁, Option.some.injEq, Prod.mk.injEq]
            constructor
            · rintro ⟨rfl, rfl⟩
              exact ⟨rfl, .inl ⟨hr₁, rfl⟩⟩
            · rintro ⟨rfl, ⟨-, rfl⟩ | ⟨hyes, -⟩⟩
              · exact ⟨rfl, rfl⟩
              · exact absurd hyes hr₁

@[simp]
theorem ensure_rank (cat : Catalog) (st : OcsState) (s : StmtId) :
    (st.ensure cat s).rank = st.rank := by
  rw [OcsState.ensure]
  split <;> rfl

theorem ensure_ranked : (st.ensure cat s).Ranked x ↔ st.Ranked x := by
  rw [OcsState.Ranked, ensure_rank, OcsState.Ranked]

theorem ensure_lookup {b : Name} {e : OCSEntry} (h : st.ocsInfo.lookup b = some e) :
    (st.ensure cat s).ocsInfo.lookup b = some e := by
  rw [OcsState.ensure]
  split
  · exact h
  · next hno =>
    have hb : b ≠ (cat s).name := by
      rintro rfl
      rw [h] at hno
      exact hno rfl
    rw [AList.lookup_insert_ne hb]
    exact h

theorem setPath_ranked {p : OcsPath} :
    (st.setPath cat mode s p).Ranked x ↔ st.Ranked x ∨ x = s := by
  rw [OcsState.Ranked, OcsState.setPath]
  by_cases hx : x = s
  · subst hx
    simp
  · simp [OcsState.Ranked, hx]

/-- What the entry of a ranked statement with the statistics `m` says. -/
structure Done (cat : Catalog) (stats : StmtStats) (mode : QuotaMode) (t : BufStateTbl) (G : Graph)
    (st : OcsState) (x : StmtId) (m : StmtStat) (e : OCSEntry) : Prop where
  found : st.ocsInfo.lookup (cat x).name = some e
  adjusted : e.priority = mode.adjust e.path
  rank : (st.rank x).priority = e.priority
  sink : G.cons (cat x).out = [] → e.path = m.sinkPath
  leads : G.cons (cat x).out ≠ [] → ∃ y, asked cat t x = some y ∧
    ((¬ HasStat cat stats y ∧ e.path = .default) ∨
      (HasStat cat stats y ∧ ¬ Forked cat G x ∧ st.Ranked y ∧
        ∃ e', st.ocsInfo.lookup (cat y).name = some e' ∧ e.path = m.path e'))

/-- All ranked statements have been given their paths. -/
def Sound (cat : Catalog) (P : List StmtId) (stats : StmtStats) (mode : QuotaMode) (t : BufStateTbl)
    (G : Graph) (st : OcsState) : Prop :=
  ∀ x ∈ P, st.Ranked x → ∃ m e, knownStat cat stats x = some m ∧ Done cat stats mode t G st x m e

theorem Sound.ensure (hsound : Sound cat P stats mode t G st) (s : StmtId) :
    Sound cat P stats mode t G (st.ensure cat s) := by
  intro x hx hr
  obtain ⟨m, e, hm, hd⟩ := hsound x hx (ensure_ranked.mp hr)
  refine ⟨m, e, hm, ensure_lookup hd.found, hd.adjusted, ?_, hd.sink, fun hc => ?_⟩
  · rw [ensure_rank]
    exact hd.rank
  · obtain ⟨y, ha, hno | ⟨hy, hf, hry, e', he', hp⟩⟩ := hd.leads hc
    · exact ⟨y, ha, .inl hno⟩
    · exact ⟨y, ha, .inr ⟨hy, hf, ensure_ranked.mpr hry, e', ensure_lookup he', hp⟩⟩

theorem Sound.setPath (hsound : Sound cat P stats mode t G st) (hstats : StatsOf cat P stats)
    (hnames : ∀ p ∈ P, ∀ q ∈ P, (cat p).name = (cat q).name → p = q) (hs : s ∈ P)
    (hno : ¬ st.Ranked s) {m : StmtStat} (hm : knownStat cat stats s = some m) {p : OcsPath}
    (hsink : G.cons (cat s).out = [] → p = m.sinkPath)
    (hleads : G.cons (cat s).out ≠ [] → ∃ y, asked cat t s = some y ∧
      ((¬ HasStat cat stats y ∧ p = .default) ∨
        (HasStat cat stats y ∧ ¬ Forked cat G s ∧ st.Ranked y ∧
          ∃ e', st.ocsInfo.lookup (cat y).name = some e' ∧ p = m.path e'))) :
    Sound cat P stats mode t G (st.setPath cat mode s p) := by
  have hkeep : ∀ y ∈ P, st.Ranked y → ∀ e', st.ocsInfo.lookup (cat y).name = some e' →
      (st.setPath cat mode s p).ocsInfo.lookup (cat y).name = some e' := by
    intro y hy hr e' he'
    have hne : (cat y).name ≠ (cat s).name := by
      intro heq
      rw [hnames y hy s hs heq] at hr
      exact hno hr
    rw [OcsState.setPath, AList.lookup_insert_ne hne]
    exact he'
  intro x hx hr
  by_cases hxs : x = s
  · subst hxs
    refine ⟨m, (st.entry cat x).setPath mode p, hm, ?_, rfl, ?_, hsink, fun hc => ?_⟩
    · rw [OcsState.setPath, AList.lookup_insert]
    · rw [OcsState.setPath]
      dsimp only
      rw [Function.update_self]
      rfl
    · obtain ⟨y, ha, hnone | ⟨hy, hf, hry, e', he', hp⟩⟩ := hleads hc
      · exact ⟨y, ha, .inl hnone⟩
      · exact ⟨y, ha, .inr ⟨hy, hf, setPath_ranked.mpr (.inl hry), e',
          hkeep y (hstats y hy) hry e' he', hp⟩⟩
  · have hrx := (setPath_ranked.mp hr).resolve_right hxs
    obtain ⟨m', e, hm', hd⟩ := hsound x hx hrx
    refine ⟨m', e, hm', hkeep x hx hrx e hd.found, hd.adjusted, ?_, hd.sink, fun hc => ?_⟩
    · rw [OcsState.setPath]
      dsimp only
      rw [Function.update_of_ne hxs]
      exact hd.rank
    · obtain ⟨y, ha, hnone | ⟨hy, hf, hry, e', he', hp⟩⟩ := hd.leads hc
      · exact ⟨y, ha, .inl hnone⟩
      · exact ⟨y, ha, .inr ⟨hy, hf, setPath_ranked.mpr (.inl hry), e',
          hkeep y (hstats y hy) hry e' he', hp⟩⟩

theorem updatePriority_idle (h : ¬ HasStat cat stats s ∨ st.Ranked s) :
    updatePriority cat stats mode t (n + 1) s st = some (st.ensure cat s) := by
  rw [updatePriority]
  split
  · rfl
  · next hno =>
    have hnone : knownStat cat stats s = none := by
      rcases h with h | h
      · exact not_ne_iff.mp h
      · exact absurd (ensure_ranked.mpr h) hno
    rw [hnone]

theorem updatePriority_works (h : Tabled cat P t G) (hs : s ∈ P) {m : StmtStat}
    (hm : knownStat cat stats s = some m) (hr : ¬ st.Ranked s) :
    updatePriority cat stats mode t (n + 1) s st =
      if G.cons (cat s).out = [] then some ((st.ensure cat s).setPath cat mode s m.sinkPath)
      else
        (downstream cat t (updatePriority cat stats mode t n) (cat s).out
          (G.entry cat (cat s).out) (st.ensure cat s)).map (setFound cat mode s m) := by
  rw [updatePriority]
  rw [if_neg fun hyes => hr (ensure_ranked.mp hyes), hm]
  rw [h.lookup_out hs]
  dsimp only
  by_cases hc : G.cons (cat s).out = []
  · rw [if_pos ((h.entry_sink hs).mpr hc), if_pos hc]
  · rw [if_neg fun hty => hc ((h.entry_sink hs).mp hty), if_neg hc]

/-- What a call for `s` does that ends. -/
structure Called (cat : Catalog) (P : List StmtId) (stats : StmtStats) (mode : QuotaMode)
    (t : BufStateTbl) (G : Graph) (s : StmtId) (st st' : OcsState) : Prop where
  ranked : ∀ x, st'.Ranked x ↔ st.Ranked x ∨ (HasStat cat stats x ∧ OnPath cat stats t s x)
  sound : Sound cat P stats mode t G st → Sound cat P stats mode t G st'

theorem onPath_of_idle (hno : ¬ HasStat cat stats s) (hx : OnPath cat stats t s x) : x = s := by
  rcases Relation.ReflTransGen.cases_head hx with rfl | ⟨y, hstep, -⟩
  · rfl
  · exact absurd hstep.1 hno

theorem onPath_head (ha : asked cat t s = some y) (hx : OnPath cat stats t s x) :
    x = s ∨ (HasStat cat stats s ∧ OnPath cat stats t y x) := by
  rcases Relation.ReflTransGen.cases_head hx with rfl | ⟨z, ⟨hs, hz⟩, hzx⟩
  · exact .inl rfl
  · rw [ha, Option.some.injEq] at hz
    subst hz
    exact .inr ⟨hs, hzx⟩

theorem open_congr (h : ∀ x, st.Ranked x ↔ st'.Ranked x) (z : StmtId) :
    Open cat stats t G st z ↔ Open cat stats t G st' z := by
  rw [Open, h, Open]

/-- A call for `s` ends exactly if its path is open, and it does what it should. -/
structure Calls (cat : Catalog) (P : List StmtId) (stats : StmtStats) (mode : QuotaMode)
    (t : BufStateTbl) (G : Graph) (n : Nat) (s : StmtId) (st : OcsState) : Prop where
  ends : (∃ st', updatePriority cat stats mode t n s st = some st') ↔
    ∀ z, OnPath cat stats t s z → Open cat stats t G st z
  called : ∀ st', updatePriority cat stats mode t n s st = some st' →
    Called cat P stats mode t G s st st'

section Downstream

variable (h : Tabled cat P t G) (hfirst : FirstReads P G) (hstats : StatsOf cat P stats)
  (hac : Lib.Acyclic (ReadBy cat G)) (hs : s ∈ P) (hk : HasStat cat stats s) (hr : ¬ st.Ranked s)
  (hcall : ∀ y, asked cat t s = some y → HasStat cat stats y → ¬ st.Ranked y →
    Calls cat P stats mode t G (n + 1) y st)

include h hs hk hr hcall

/-- The statement downstream is found exactly if the path is open. -/
theorem downstream_ends (hc : G.cons (cat s).out ≠ []) :
    (∃ r st', downstream cat t (updatePriority cat stats mode t (n + 1)) (cat s).out
        (G.entry cat (cat s).out) st = some (r, st')) ↔
      ∀ z, OnPath cat stats t s z → Open cat stats t G st z := by
  constructor
  · rintro ⟨r, st', hok⟩ z hz
    obtain ⟨y, ha, hry, hrun, hres⟩ := (downstream_some h hs).mp hok
    have hfork : Forked cat G s → ¬ HasStat cat stats y := by
      intro hf hky
      have hyes : st'.Ranked y :=
        (((hcall y ha hky hry).called st' hrun).ranked y).mpr (.inr ⟨hky, .refl⟩)
      rcases hres with ⟨hno, -⟩ | ⟨-, hnf, -⟩
      · exact hno hyes
      · exact hnf hf
    rcases onPath_head ha hz with rfl | ⟨-, hyz⟩
    · exact ⟨hr, fun _ _ => ⟨y, ha, hfork⟩⟩
    · by_cases hky : HasStat cat stats y
      · exact (hcall y ha hky hry).ends.mp ⟨st', hrun⟩ z hyz
      · rw [onPath_of_idle hky hyz]
        exact ⟨hry, fun hyes => absurd hyes hky⟩
  · intro hopen
    obtain ⟨-, hgo⟩ := hopen s .refl
    obtain ⟨y, ha, hfork⟩ := hgo hk hc
    have hsy : Leads cat stats t s y := ⟨hk, ha⟩
    have hry := (hopen y (.single hsy)).1
    by_cases hky : HasStat cat stats y
    · obtain ⟨st', hrun⟩ := (hcall y ha hky hry).ends.mpr fun z hz => hopen z (.head hsy hz)
      have hyes : st'.Ranked y :=
        (((hcall y ha hky hry).called st' hrun).ranked y).mpr (.inr ⟨hky, .refl⟩)
      exact ⟨_, _, (downstream_some h hs).mpr
        ⟨y, ha, hry, hrun, .inr ⟨hyes, fun hf => hfork hf hky, rfl⟩⟩⟩
    · exact ⟨_, _, (downstream_some h hs).mpr ⟨y, ha, hry, updatePriority_idle (.inl hky),
        .inl ⟨fun hyes => hry (ensure_ranked.mp hyes), rfl⟩⟩⟩

include hfirst hstats hac

/-- Once it is found, it has been ranked with all that lies behind it, and `s` has not. -/
theorem downstream_found {r : Option OCSEntry}
    (hok : downstream cat t (updatePriority cat stats mode t (n + 1)) (cat s).out
      (G.entry cat (cat s).out) st = some (r, st')) :
    ∃ y, asked cat t s = some y ∧
      (Sound cat P stats mode t G st → Sound cat P stats mode t G st') ∧ ¬ st'.Ranked s ∧
      (∀ x, st'.Ranked x ↔ st.Ranked x ∨ (HasStat cat stats x ∧ OnPath cat stats t y x)) ∧
      ((¬ HasStat cat stats y ∧ r = none) ∨
        (HasStat cat stats y ∧ ¬ Forked cat G s ∧ st'.Ranked y ∧
          r = some (st'.entry cat y))) := by
  obtain ⟨y, ha, hry, hrun, hres⟩ := (downstream_some h hs).mp hok
  have hsy : Leads cat stats t s y := ⟨hk, ha⟩
  have hback := not_onPath h hfirst hstats hac hsy
  refine ⟨y, ha, ?_⟩
  by_cases hky : HasStat cat stats y
  · have hcl := (hcall y ha hky hry).called st' hrun
    have hyes : st'.Ranked y := (hcl.ranked y).mpr (.inr ⟨hky, .refl⟩)
    refine ⟨hcl.sound, fun hrs => ?_, hcl.ranked, .inr ?_⟩
    · rcases (hcl.ranked s).mp hrs with hrs | ⟨-, hys⟩
      · exact hr hrs
      · exact hback hys
    · rcases hres with ⟨hno, -⟩ | ⟨-, hnf, hres⟩
      · exact absurd hyes hno
      · exact ⟨hky, hnf, hyes, hres⟩
  · rw [updatePriority_idle (.inl hky), Option.some.injEq] at hrun
    subst hrun
    refine ⟨fun hsound => hsound.ensure y, fun hrs => hr (ensure_ranked.mp hrs), fun x => ?_,
      .inl ⟨hky, ?_⟩⟩
    · rw [ensure_ranked]
      refine ⟨.inl, fun hx => hx.resolve_right ?_⟩
      rintro ⟨hkx, hyx⟩
      rw [onPath_of_idle hky hyx] at hkx
      exact hky hkx
    · rcases hres with ⟨-, hres⟩ | ⟨hyes, -⟩
      · exact hres
      · exact absurd (ensure_ranked.mp hyes) hry

end Downstream

theorem calls_sink (h : Tabled cat P t G) (hstats : StatsOf cat P stats)
    (hnames : ∀ p ∈ P, ∀ q ∈ P, (cat p).name = (cat q).name → p = q) (hs : s ∈ P)
    (hk : HasStat cat stats s) (hr : ¬ st.Ranked s) (hc : G.cons (cat s).out = []) :
    Calls cat P stats mode t G (n + 1) s st := by
  obtain ⟨m, hm⟩ := Option.ne_none_iff_exists'.mp hk
  have hwork : updatePriority cat stats mode t (n + 1) s st = _ := updatePriority_works h hs hm hr
  have hstay : ∀ z, OnPath cat stats t s z → z = s := by
    intro z hz
    rcases Relation.ReflTransGen.cases_head hz with rfl | ⟨y, ⟨-, hy⟩, -⟩
    · rfl
    · rw [h.asked_sink hs hc] at hy
      cases hy
  rw [if_pos hc] at hwork
  refine ⟨⟨fun _ z hz => ?_, fun _ => ⟨_, hwork⟩⟩, fun st' hst' => ?_⟩
  · rw [hstay z hz]
    exact ⟨hr, fun _ hne => absurd hc hne⟩
  · rw [hwork, Option.some.injEq] at hst'
    subst hst'
    refine ⟨fun x => ?_, fun hsound => ?_⟩
    · rw [setPath_ranked, ensure_ranked]
      constructor
      · rintro (hx | rfl)
        · exact .inl hx
        · exact .inr ⟨hk, .refl⟩
      · rintro (hx | ⟨-, hx⟩)
        · exact .inl hx
        · exact .inr (hstay x hx)
    · exact (hsound.ensure s).setPath hstats hnames hs (fun hyes => hr (ensure_ranked.mp hyes))
        hm (fun _ => rfl) (absurd hc)

theorem calls_read (h : Tabled cat P t G) (hfirst : FirstReads P G) (hstats : StatsOf cat P stats)
    (hnames : ∀ p ∈ P, ∀ q ∈ P, (cat p).name = (cat q).name → p = q)
    (hac : Lib.Acyclic (ReadBy cat G)) (hs : s ∈ P) (hk : HasStat cat stats s)
    (hr : ¬ st.Ranked s) (hc : G.cons (cat s).out ≠ [])
    (hcall : ∀ st, ∀ y, asked cat t s = some y → HasStat cat stats y → ¬ st.Ranked y →
      Calls cat P stats mode t G (n + 1) y st) :
    Calls cat P stats mode t G (n + 2) s st := by
  obtain ⟨m, hm⟩ := Option.ne_none_iff_exists'.mp hk
  have hwork : updatePriority cat stats mode t (n + 2) s st = _ := updatePriority_works h hs hm hr
  have hre : ¬ (st.ensure cat s).Ranked s := fun hyes => hr (ensure_ranked.mp hyes)
  rw [if_neg hc] at hwork
  refine ⟨?_, fun st' hst' => ?_⟩
  · have hcongr : (∀ z, OnPath cat stats t s z → Open cat stats t G st z) ↔
        ∀ z, OnPath cat stats t s z → Open cat stats t G (st.ensure cat s) z :=
      forall_congr' fun z => imp_congr_right fun _ => open_congr (fun x => ensure_ranked.symm) z
    rw [hcongr, ← downstream_ends h hs hk hre (hcall _) hc, hwork]
    constructor
    · rintro ⟨st', hst'⟩
      obtain ⟨⟨r, st₁⟩, hd, -⟩ := Option.map_eq_some_iff.mp hst'
      exact ⟨r, st₁, hd⟩
    · rintro ⟨r, st₁, hd⟩
      exact ⟨_, by rw [hd, Option.map_some]⟩
  · rw [hwork] at hst'
    obtain ⟨⟨r, st₁⟩, hd, hset⟩ := Option.map_eq_some_iff.mp hst'
    obtain ⟨y, ha, hsound₁, hrs, hranked, hres⟩ :=
      downstream_found h hfirst hstats hac hs hk hre (hcall _) hd
    have hpath : ∀ x, OnPath cat stats t s x ↔ x = s ∨ OnPath cat stats t y x := by
      intro x
      constructor
      · intro hx
        exact (onPath_head ha hx).imp_right And.right
      · rintro (rfl | hx)
        · exact .refl
        · exact .head ⟨hk, ha⟩ hx
    have hfinal : ∀ p, (st₁.setPath cat mode s p) = st' → (∀ x, st'.Ranked x ↔ st.Ranked x ∨
        (HasStat cat stats x ∧ OnPath cat stats t s x)) := by
      rintro p rfl x
      rw [setPath_ranked, hranked, ensure_ranked, hpath]
      constructor
      · rintro ((hx | ⟨hkx, hx⟩) | rfl)
        · exact .inl hx
        · exact .inr ⟨hkx, .inr hx⟩
        · exact .inr ⟨hk, .inl rfl⟩
      · rintro (hx | ⟨hkx, rfl | hx⟩)
        · exact .inl (.inl hx)
        · exact .inr rfl
        · exact .inl (.inr ⟨hkx, hx⟩)
    rcases hres with ⟨hky, rfl⟩ | ⟨hky, hf, hry, rfl⟩
    · refine ⟨hfinal _ hset, fun hsound => ?_⟩
      rw [← hset]
      exact (hsound₁ (hsound.ensure s)).setPath hstats hnames hs hrs hm
        (fun hnil => absurd hnil hc) fun _ => ⟨y, ha, .inl ⟨hky, rfl⟩⟩
    · refine ⟨hfinal _ hset, fun hsound => ?_⟩
      have hs₁ := hsound₁ (hsound.ensure s)
      obtain ⟨m', e', -, hd'⟩ := hs₁ y (hstats y hky) hry
      have he : st₁.entry cat y = e' := by
        rw [OcsState.entry, hd'.found]
        rfl
      rw [← hset, he]
      exact hs₁.setPath hstats hnames hs hrs hm (fun hnil => absurd hnil hc)
        fun _ => ⟨y, ha, .inr ⟨hky, hf, hry, e', hd'.found, rfl⟩⟩

variable (mode) in
/-- By induction on the fuel: what the table leads to is less deep. -/
theorem updatePriority_spec (h : Tabled cat P t G) (hfirst : FirstReads P G)
    (hstats : StatsOf cat P stats) (hnames : ∀ p ∈ P, ∀ q ∈ P, (cat p).name = (cat q).name → p = q)
    (hac : Lib.Acyclic (ReadBy cat G)) (hk : HasStat cat stats s) (hr : ¬ st.Ranked s)
    (hn : Lib.depth (ReadBy cat G) P s < n) :
    Calls cat P stats mode t G n s st := by
  induction n generalizing s st with
  | zero => exact absurd hn (Nat.not_lt_zero _)
  | succ n ih =>
    have hs := hstats s hk
    by_cases hc : G.cons (cat s).out = []
    · exact calls_sink h hstats hnames hs hk hr hc
    · have hdown : ∀ y ∈ P, ReadBy cat G s y → Lib.depth (ReadBy cat G) P y < n := fun y hy hsy =>
        (Lib.depth_lt hac hy hsy).trans_le (Nat.le_of_lt_succ hn)
      obtain ⟨y, hy⟩ := List.exists_mem_of_ne_nil _ hc
      have hyP : y ∈ P := by
        rw [h.members.cons] at hy
        exact (mem_readers.mp hy).1
      obtain ⟨k, rfl⟩ := Nat.exists_eq_succ_of_ne_zero
        (Nat.ne_of_gt (Nat.lt_of_le_of_lt (Nat.zero_le _) (hdown y hyP hy)))
      exact calls_read h hfirst hstats hnames hac hs hk hr hc fun st y ha hky hry =>
        ih hky hry (hdown y (hstats y hky) (h.asked_reads hfirst hs (hstats y hky) ha))

/-- A call for `p` ranks `z`. -/
def Ranks (cat : Catalog) (stats : StmtStats) (t : BufStateTbl) (p z : StmtId) : Prop :=
  HasStat cat stats p ∧ HasStat cat stats z ∧ OnPath cat stats t p z

/-- One of the calls for the statements `pre` has ranked the statement, or nothing on its path has a
rank and the call goes through. -/
def Comes (cat : Catalog) (stats : StmtStats) (t : BufStateTbl) (G : Graph) (st : OcsState)
    (pre : List StmtId) (s : StmtId) : Prop :=
  HasStat cat stats s → (∃ p ∈ pre, Ranks cat stats t p s) ∨
    ∀ z, OnPath cat stats t s z → Open cat stats t G st z ∧ ∀ p ∈ pre, ¬ Ranks cat stats t p z

def CallOrder (cat : Catalog) (stats : StmtStats) (t : BufStateTbl) (G : Graph) (st : OcsState) :
    List StmtId → List StmtId → Prop
  | _, [] => True
  | pre, s :: ss => Comes cat stats t G st pre s ∧ CallOrder cat stats t G st (pre ++ [s]) ss

/-- What calls for the statements `pre` leave. -/
structure CalledAll (cat : Catalog) (P : List StmtId) (stats : StmtStats) (mode : QuotaMode)
    (t : BufStateTbl) (G : Graph) (st : OcsState) (pre : List StmtId) (st' : OcsState) : Prop where
  ranked : ∀ x, st'.Ranked x ↔ st.Ranked x ∨ ∃ p ∈ pre, Ranks cat stats t p x
  sound : Sound cat P stats mode t G st'

theorem CalledAll.nil (hst : ∀ x ∈ P, ¬ st.Ranked x) : CalledAll cat P stats mode t G st [] st where
  ranked x := by simp
  sound x hx hr := absurd hr (hst x hx)

section CalledAll

variable {st₀ : OcsState} {pre : List StmtId}

theorem CalledAll.ranks (hcalled : CalledAll cat P stats mode t G st₀ pre st)
    (hstats : StatsOf cat P stats) (hst : ∀ x ∈ P, ¬ st₀.Ranked x) (hk : HasStat cat stats s)
    (hr : st.Ranked s) : ∃ p ∈ pre, Ranks cat stats t p s :=
  ((hcalled.ranked s).mp hr).resolve_left (hst s (hstats s hk))

theorem CalledAll.idle (hcalled : CalledAll cat P stats mode t G st₀ pre st)
    (hran : HasStat cat stats s → ∃ p ∈ pre, Ranks cat stats t p s) :
    CalledAll cat P stats mode t G st₀ (pre ++ [s]) (st.ensure cat s) := by
  refine ⟨fun x => ?_, hcalled.sound.ensure s⟩
  rw [ensure_ranked, hcalled.ranked]
  constructor
  · rintro (hx | ⟨p, hp, hx⟩)
    · exact .inl hx
    · exact .inr ⟨p, List.mem_append_left _ hp, hx⟩
  · rintro (hx | ⟨p, hp, hx⟩)
    · exact .inl hx
    · rcases List.mem_append.mp hp with hp | hp
      · exact .inr ⟨p, hp, hx⟩
      · -- what `s` would rank has been ranked with it
        rw [List.mem_singleton.mp hp] at hx
        obtain ⟨q, hq, hqs⟩ := hran hx.1
        exact .inr ⟨q, hq, hqs.1, hx.2.1, hqs.2.2.trans hx.2.2⟩

theorem CalledAll.call (hcalled : CalledAll cat P stats mode t G st₀ pre st)
    (hk : HasStat cat stats s) (hcl : Called cat P stats mode t G s st st') :
    CalledAll cat P stats mode t G st₀ (pre ++ [s]) st' := by
  refine ⟨fun x => ?_, hcl.sound hcalled.sound⟩
  rw [hcl.ranked, hcalled.ranked]
  constructor
  · rintro ((hx | ⟨p, hp, hx⟩) | hx)
    · exact .inl hx
    · exact .inr ⟨p, List.mem_append_left _ hp, hx⟩
    · exact .inr ⟨s, List.mem_append_right _ (List.mem_singleton.mpr rfl), hk, hx⟩
  · rintro (hx | ⟨p, hp, hx⟩)
    · exact .inl (.inl hx)
    · rcases List.mem_append.mp hp with hp | hp
      · exact .inl (.inr ⟨p, hp, hx⟩)
      · rw [List.mem_singleton.mp hp] at hx
        exact .inr hx.2

theorem CalledAll.comes_iff (hcalled : CalledAll cat P stats mode t G st₀ pre st)
    (hk : HasStat cat stats s) (hr : ¬ st.Ranked s) : Comes cat stats t G st₀ pre s ↔
      ∀ z, OnPath cat stats t s z → Open cat stats t G st z := by
  have hleft : ¬ ∃ p ∈ pre, Ranks cat stats t p s := fun hp =>
    hr ((hcalled.ranked s).mpr (.inr hp))
  rw [Comes, forall_prop_of_true hk, or_iff_right hleft]
  refine forall_congr' fun z => imp_congr_right fun _ => ?_
  rw [Open, Open, hcalled.ranked]
  constructor
  · rintro ⟨⟨hno, hgo⟩, hpre⟩
    refine ⟨?_, hgo⟩
    rintro (hz | ⟨p, hp, hz⟩)
    · exact hno hz
    · exact hpre p hp hz
  · rintro ⟨hno, hgo⟩
    exact ⟨⟨fun hz => hno (.inl hz), hgo⟩, fun p hp hz => hno (.inr ⟨p, hp, hz⟩)⟩

variable (mode) in
theorem updatePriorities_spec (h : Tabled cat P t G) (hfirst : FirstReads P G)
    (hstats : StatsOf cat P stats)
    (hnames : ∀ p ∈ P, ∀ q ∈ P, (cat p).name = (cat q).name → p = q)
    (hac : Lib.Acyclic (ReadBy cat G)) (hst : ∀ x ∈ P, ¬ st₀.Ranked x) (hn : P.length < n)
    (hcalled : CalledAll cat P stats mode t G st₀ pre st) (ss : List StmtId) :
    ((∃ st', updatePriorities cat stats mode t n ss st = some st') ↔
      CallOrder cat stats t G st₀ pre ss) ∧
    ∀ st', updatePriorities cat stats mode t n ss st = some st' →
      CalledAll cat P stats mode t G st₀ (pre ++ ss) st' := by
  induction ss generalizing pre st with
  | nil =>
    refine ⟨⟨fun _ => trivial, fun _ => ⟨st, rfl⟩⟩, fun st' hst' => ?_⟩
    rw [List.append_nil, ← Option.some.inj hst']
    exact hcalled
  | cons s ss ih =>
    rw [updatePriorities, CallOrder, show pre ++ s :: ss = (pre ++ [s]) ++ ss by simp]
    by_cases hidle : ¬ HasStat cat stats s ∨ st.Ranked s
    · obtain ⟨n, rfl⟩ := Nat.exists_eq_succ_of_ne_zero (Nat.ne_of_gt (Nat.lt_of_le_of_lt
        (Nat.zero_le _) hn))
      have hran : HasStat cat stats s → ∃ p ∈ pre, Ranks cat stats t p s := fun hk =>
        hcalled.ranks hstats hst hk (hidle.resolve_left (not_not.mpr hk))
      obtain ⟨hiff, hspec⟩ := ih (hcalled.idle hran)
      rw [updatePriority_idle hidle]
      dsimp only
      rw [hiff]
      exact ⟨⟨fun hin => ⟨fun hk => .inl (hran hk), hin⟩, And.right⟩, hspec⟩
    · obtain ⟨hk, hr⟩ : HasStat cat stats s ∧ ¬ st.Ranked s := by
        rw [not_or, not_not] at hidle
        exact hidle
      have hcalls := updatePriority_spec mode h hfirst hstats hnames hac hk hr
        (Nat.lt_of_le_of_lt Lib.depth_le hn)
      rw [hcalled.comes_iff hk hr, ← hcalls.ends]
      cases hcall : updatePriority cat stats mode t n s st with
      | none => exact ⟨by simp, fun st' hst' => by cases hst'⟩
      | some st₁ =>
        dsimp only
        obtain ⟨hiff, hspec⟩ := ih (hcalled.call hk (hcalls.called st₁ hcall))
        rw [hiff]
        exact ⟨⟨fun hin => ⟨⟨st₁, rfl⟩, hin⟩, And.right⟩, hspec⟩

end CalledAll

section Right

variable {ss : List StmtId}

/-- The entry of `x` says what the recurrence over the readers gives a statement with the statistics
`m`. -/
structure Follows (cat : Catalog) (stats : StmtStats) (mode : QuotaMode) (G : Graph) (st : OcsState)
    (x : StmtId) (m : StmtStat) (e : OCSEntry) : Prop where
  found : st.ocsInfo.lookup (cat x).name = some e
  adjusted : e.priority = mode.adjust e.path
  rank : (st.rank x).priority = e.priority
  sink : G.cons (cat x).out = [] → e.path = m.sinkPath
  unknown : (∃ y ∈ G.cons (cat x).out, ¬ HasStat cat stats y) → e.path = .default
  chained : G.cons (cat x).out ≠ [] → (∀ y ∈ G.cons (cat x).out, HasStat cat stats y) →
    ∃ y ∈ G.cons (cat x).out, (∃ e', st.ocsInfo.lookup (cat y).name = some e' ∧
        e.path = m.path e') ∧
      ∀ z ∈ G.cons (cat x).out, st.Ranked z ∧ (st.rank z).priority ≤ (st.rank y).priority

/-- The calls for the statements `ss` use no undefined entry, and every statement with statistics
that is called or ranked on the way has the path of the recurrence. -/
def PathsRight (cat : Catalog) (P : List StmtId) (stats : StmtStats) (mode : QuotaMode)
    (t : BufStateTbl) (G : Graph) (n : Nat) (ss : List StmtId) (st : OcsState) : Prop :=
  ∃ st', updatePriorities cat stats mode t n ss st = some st' ∧
    (∀ s ∈ ss, HasStat cat stats s → st'.Ranked s) ∧
    ∀ x ∈ P, st'.Ranked x → ∃ m e, knownStat cat stats x = some m ∧
      Follows cat stats mode G st' x m e

/-- The table leads every statement with statistics and readers to a statement without any, and
one of the readers has none. -/
def NeverChained (cat : Catalog) (P : List StmtId) (stats : StmtStats) (t : BufStateTbl) (G : Graph)
    (st : OcsState) : Prop :=
  ∀ x ∈ P, HasStat cat stats x → G.cons (cat x).out ≠ [] →
    (∃ y, asked cat t x = some y ∧ ¬ HasStat cat stats y ∧ ¬ st.Ranked y) ∧
      ∃ z ∈ G.cons (cat x).out, ¬ HasStat cat stats z

theorem Tabled.asked_reader (h : Tabled cat P t G) (hs : s ∈ P)
    (hplain : (cat s).type ≠ .normal → ¬ G.Forks (cat s).out) (hc : G.cons (cat s).out ≠ []) :
    ∃ y ∈ G.cons (cat s).out, asked cat t s = some y ∧
      (¬ Forked cat G s → G.cons (cat s).out = [y]) := by
  by_cases hf : Forked cat G s
  · obtain ⟨-, -, -, y, -, -, ha, hy⟩ := h.forked hs hf
    exact ⟨y, hy, ha, absurd hf⟩
  · rw [h.asked_unforked hs hf, Graph.entry]
    rcases hcs : G.cons (cat s).out with _ | ⟨c, _ | ⟨c', cs⟩⟩
    · exact absurd hcs hc
    · exact ⟨c, List.mem_cons_self, rfl, fun _ => rfl⟩
    · have htwo : G.Forks (cat s).out := by simp [Graph.Forks, hcs]
      exact absurd htwo (hplain fun hty => hf ⟨hty, htwo⟩)

theorem Done.follows (h : Tabled cat P t G) (hx : x ∈ P)
    (hplain : (cat x).type ≠ .normal → ¬ G.Forks (cat x).out) {m : StmtStat} {e : OCSEntry}
    (hd : Done cat stats mode t G st x m e) : Follows cat stats mode G st x m e := by
  refine ⟨hd.found, hd.adjusted, hd.rank, hd.sink, ?_, ?_⟩
  · rintro ⟨z, hz, hkz⟩
    have hc := List.ne_nil_of_mem hz
    obtain ⟨y, hy, ha, hone⟩ := h.asked_reader hx hplain hc
    obtain ⟨y', ha', ⟨-, hdef⟩ | ⟨hky, hf, -⟩⟩ := hd.leads hc
    · exact hdef
    · rw [ha, Option.some.injEq] at ha'
      rw [hone hf, List.mem_singleton] at hz
      rw [hz, ha'] at hkz
      exact absurd hky hkz
  · intro hc hall
    obtain ⟨y, hy, ha, hone⟩ := h.asked_reader hx hplain hc
    obtain ⟨y', ha', ⟨hno, -⟩ | ⟨-, hf, hr, hchain⟩⟩ := hd.leads hc
    · rw [ha, Option.some.injEq] at ha'
      rw [← ha'] at hno
      exact absurd (hall y hy) hno
    · rw [ha, Option.some.injEq] at ha'
      subst ha'
      refine ⟨y, hy, hchain, fun z hz => ?_⟩
      rw [hone hf, List.mem_singleton] at hz
      rw [hz]
      exact ⟨hr, le_refl _⟩

theorem CalledAll.called {st₀ : OcsState} (hcalled : CalledAll cat P stats mode t G st₀ ss st)
    (hs : s ∈ ss) (hk : HasStat cat stats s) : st.Ranked s :=
  (hcalled.ranked s).mpr (.inr ⟨s, hs, hk, hk, .refl⟩)

/-- Where some order leaves all paths right with `x` called alone and behind what it is led to, that
has no statistics, and neither has one of the readers. -/
theorem never_of_right (h : Tabled cat P t G) (hfirst : FirstReads P G)
    (hac : Lib.Acyclic (ReadBy cat G)) (hstats : StatsOf cat P stats)
    (hst : ∀ x ∈ P, ¬ st.Ranked x)
    (hrun : ∀ ss, ((∃ st', updatePriorities cat stats mode t n ss st = some st') ↔
      CallOrder cat stats t G st [] ss) ∧
      ∀ st', updatePriorities cat stats mode t n ss st = some st' →
        CalledAll cat P stats mode t G st ([] ++ ss) st')
    (hright : ∀ ss, PathsRight cat P stats mode t G n ss st) : NeverChained cat P stats t G st := by
  intro x hx hk hc
  obtain ⟨st', hok, hcalled, hfollows⟩ := hright [x]
  have hopen : ∀ z, OnPath cat stats t x z → Open cat stats t G st z := by
    rcases ((hrun [x]).1.mp ⟨st', hok⟩).1 hk with ⟨p, hp, -⟩ | hopen
    · cases hp
    · exact fun z hz => (hopen z hz).1
  obtain ⟨y, ha, -⟩ := (hopen x .refl).2 hk hc
  have hxy : Leads cat stats t x y := ⟨hk, ha⟩
  have hky : ¬ HasStat cat stats y := by
    -- after a call for `y`, one for `x` finds it ranked
    intro hky
    obtain ⟨st₂, hok₂, -⟩ := hright [y, x]
    rcases ((hrun [y, x]).1.mp ⟨st₂, hok₂⟩).2.1 hk with ⟨p, hp, -, -, hpx⟩ | hopen₂
    · rw [List.nil_append, List.mem_singleton] at hp
      rw [hp] at hpx
      exact not_onPath h hfirst hstats hac hxy hpx
    · exact (hopen₂ y (.single hxy)).2 y (by simp) ⟨hky, hky, .refl⟩
  refine ⟨⟨y, ha, hky, (hopen y (.single hxy)).1⟩, ?_⟩
  by_contra hno
  have hall : ∀ z ∈ G.cons (cat x).out, HasStat cat stats z := fun z hz =>
    by_contra fun hkz => hno ⟨z, hz, hkz⟩
  obtain ⟨m, e, -, hf⟩ := hfollows x hx (hcalled x (by simp) hk)
  obtain ⟨z, hz, -, hmax⟩ := hf.chained hc hall
  have hzP := hstats z (hall z hz)
  rcases (((hrun [x]).2 st' hok).ranked z).mp (hmax z hz).1 with hr | ⟨p, hp, -, -, hxz⟩
  · exact hst z hzP hr
  · rw [List.nil_append, List.mem_singleton] at hp
    subst hp
    rcases onPath_head ha hxz with rfl | ⟨-, hyz⟩
    · exact hac z (.single hz)
    · rw [onPath_of_idle hky hyz] at hz
      exact hky (hall y hz)

section

variable (hnever : NeverChained cat P stats t G st) (h : Tabled cat P t G)
  (hstats : StatsOf cat P stats)
include hnever h hstats

theorem NeverChained.onPath (hk : HasStat cat stats x) {z : StmtId} (hz : OnPath cat stats t x z) :
    z = x ∨ (asked cat t x = some z ∧ ¬ HasStat cat stats z ∧ ¬ st.Ranked z) := by
  rcases Relation.ReflTransGen.cases_head hz with rfl | ⟨y, ⟨-, hy⟩, hyz⟩
  · exact .inl rfl
  · have hc : G.cons (cat x).out ≠ [] := by
      intro hnil
      rw [h.asked_sink (hstats x hk) hnil] at hy
      cases hy
    obtain ⟨⟨y', hy', hky, hry⟩, -⟩ := hnever x (hstats x hk) hk hc
    rw [hy, Option.some.injEq] at hy'
    subst hy'
    rw [onPath_of_idle hky hyz]
    exact .inr ⟨hy, hky, hry⟩

theorem NeverChained.callOrder (hst : ∀ x ∈ P, ¬ st.Ranked x) (pre : List StmtId) :
    CallOrder cat stats t G st pre ss := by
  induction ss generalizing pre with
  | nil => trivial
  | cons s ss ih =>
    refine ⟨fun hk => ?_, ih _⟩
    by_cases hp : ∃ p ∈ pre, Ranks cat stats t p s
    · exact .inl hp
    · refine .inr fun z hz => ?_
      rcases hnever.onPath h hstats hk hz with rfl | ⟨-, hkz, hrz⟩
      · refine ⟨⟨hst z (hstats z hk), fun _ hc => ?_⟩, fun p hp' hz' => hp ⟨p, hp', hz'⟩⟩
        obtain ⟨⟨y, ha, hky, -⟩, -⟩ := hnever z (hstats z hk) hk hc
        exact ⟨y, ha, fun _ => hky⟩
      · exact ⟨⟨hrz, fun hyes => absurd hyes hkz⟩, fun p _ hz' => hkz hz'.2.1⟩

end

theorem NeverChained.follows {st' : OcsState} (hnever : NeverChained cat P stats t G st)
    (hx : x ∈ P) {m : StmtStat} {e : OCSEntry} (hm : knownStat cat stats x = some m)
    (hd : Done cat stats mode t G st' x m e) : Follows cat stats mode G st' x m e := by
  have hk : HasStat cat stats x := by
    rw [HasStat, hm]
    exact Option.some_ne_none m
  refine ⟨hd.found, hd.adjusted, hd.rank, hd.sink, ?_, fun hc hall => ?_⟩
  · rintro ⟨z, hz, -⟩
    have hc := List.ne_nil_of_mem hz
    obtain ⟨⟨y, ha, hky, -⟩, -⟩ := hnever x hx hk hc
    obtain ⟨y', ha', ⟨-, hdef⟩ | ⟨hky', -⟩⟩ := hd.leads hc
    · exact hdef
    · rw [ha, Option.some.injEq] at ha'
      rw [← ha'] at hky'
      exact absurd hky' hky
  · obtain ⟨-, z, hz, hkz⟩ := hnever x hx hk hc
    exact absurd (hall z hz) hkz

/-- No call uses an undefined entry exactly if the calls come in order; where no union or join is
read twice, all paths are then right; and they are right for every order exactly if no path
continues another one. -/
theorem path_right_iff (h : Tabled cat P t G) (hfirst : FirstReads P G)
    (hnames : ∀ p ∈ P, ∀ q ∈ P, (cat p).name = (cat q).name → p = q)
    (hac : Lib.Acyclic (ReadBy cat G)) (hstats : StatsOf cat P stats)
    (hst : ∀ x ∈ P, ¬ st.Ranked x) (hn : P.length < n) :
    (∀ ss, (∃ st', updatePriorities cat stats mode t n ss st = some st') ↔
      CallOrder cat stats t G st [] ss) ∧
    ((∀ x ∈ P, (cat x).type ≠ .normal → ¬ G.Forks (cat x).out) →
      ∀ ss, PathsRight cat P stats mode t G n ss st ↔ CallOrder cat stats t G st [] ss) ∧
    ((∀ ss, PathsRight cat P stats mode t G n ss st) ↔ NeverChained cat P stats t G st) := by
  have hrun (ss : List StmtId) := updatePriorities_spec mode h hfirst hstats hnames hac hst hn
    (.nil hst) ss
  refine ⟨fun ss => (hrun ss).1, fun hplain ss => ?_,
    fun hright => never_of_right h hfirst hac hstats hst hrun hright, fun hnever ss => ?_⟩
  · constructor
    · rintro ⟨st', hok, -⟩
      exact (hrun ss).1.mp ⟨st', hok⟩
    · intro hin
      obtain ⟨st', hok⟩ := (hrun ss).1.mpr hin
      have hcalled := (hrun ss).2 st' hok
      refine ⟨st', hok, fun s hs hk => hcalled.called hs hk, fun x hx hr => ?_⟩
      obtain ⟨m, e, hm, hd⟩ := hcalled.sound x hx hr
      exact ⟨m, e, hm, hd.follows h hx (hplain x hx)⟩
  · obtain ⟨st', hok⟩ := (hrun ss).1.mpr (hnever.callOrder h hstats hst [])
    have hcalled := (hrun ss).2 st' hok
    refine ⟨st', hok, fun s hs hk => hcalled.called hs hk, fun x hx hr => ?_⟩
    obtain ⟨m, e, hm, hd⟩ := hcalled.sound x hx hr
    exact ⟨m, e, hm, hnever.follows hx hm hd⟩

end Right

section Reachable

variable {d : Driver}

structure Firsts (cat : Catalog) (G : Graph) : Prop where
  cons : ∀ b, ∀ c ∈ G.cons b, b ∈ (cat c).inputs
  first : ∀ b c, G.first b = some c → b ∈ (cat c).inputs

theorem Firsts.read (hf : Firsts cat G) {b : Name} (hb : b ∈ (cat s).inputs) :
    Firsts cat (G.read cat s b) where
  cons b' c hc := by
    by_cases e : b' = b
    · rw [e, read_cons_self, List.mem_append, List.mem_singleton] at hc
      rw [e]
      rcases hc with hc | rfl
      · exact hf.cons b c hc
      · exact hb
    · rw [read_cons_ne e] at hc
      exact hf.cons b' c hc
  first b' c hc := by
    by_cases hone : ∃ c', G.cons b = [c']
    · obtain ⟨c', hc'⟩ := hone
      rw [read_first_second hc'] at hc
      by_cases e : b' = b
      · rw [e, Function.update_self, Option.some.injEq] at hc
        rw [e, ← hc]
        exact hf.cons b c' (by simp [hc'])
      · rw [Function.update_of_ne e] at hc
        exact hf.first b' c hc
    · rw [read_first fun c' hc' => hone ⟨c', hc'⟩] at hc
      exact hf.first b' c hc

theorem Firsts.add (hf : Firsts cat G) {bs : List Name} (hbs : ∀ b ∈ bs, b ∈ (cat s).inputs) :
    Firsts cat (G.add cat s bs) := by
  have hall : Firsts cat (G.readAll cat s bs) := by
    induction bs generalizing G with
    | nil => exact hf
    | cons b bs ih =>
      exact ih (hf.read (hbs b List.mem_cons_self)) fun b' hb' =>
        hbs b' (List.mem_cons_of_mem _ hb')
  exact ⟨hall.cons, hall.first⟩

theorem Firsts.drop (hf : Firsts cat G) {bs : List Name} (hbs : bs.Nodup) :
    Firsts cat (G.drop cat s bs) where
  cons b c hc := by
    have hc' : c ∈ (G.unreadAll cat s bs).cons b := hc
    rw [unreadAll_cons hbs] at hc'
    split at hc'
    · exact hf.cons b c (List.mem_of_mem_erase hc')
    · exact hf.cons b c hc'
  first b c hc := by
    have hc' : (G.unreadAll cat s bs).first b = some c := hc
    rw [unreadAll_first] at hc'
    exact hf.first b c hc'

theorem GraphRun.firstReads (run : GraphRun cat (MayAdd cat) (MayDrop cat) d) :
    ∃ G, Reached cat d G ∧ FirstReads d.stmts G := by
  have hempty : Firsts cat Graph.empty := ⟨by simp [Graph.empty], by simp [Graph.empty]⟩
  obtain ⟨G, hG, hf⟩ := run.reached_with hempty
    (fun _ _ _ hperm hf => hf.add fun _ hb => hperm.mem_iff.mp hb) fun _ _ _ hbs hf => hf.drop hbs
  refine ⟨G, hG, fun b c hc hP => ?_⟩
  rw [hG.whole.cons, mem_readers]
  exact ⟨hP, hf.first b c hc⟩

end Reachable

/-- Statement 1 reads what statement 0 of `weightCat` produces. -/
def chainDriver : Driver := added weightCat 1 (added weightCat 0 Driver.new)

def chainStats : StmtStats := fun b => if b = ['u'] then none else some ⟨1000, 500, 4, 1 / 2, 250⟩

def unranked : OcsState := ⟨∅, fun _ => ⟨0, false⟩⟩

theorem unranked_none (x : StmtId) : ¬ unranked.Ranked x := Bool.false_ne_true

theorem chainDriver_tabled : ∃ G, Tabled weightCat [0, 1] chainDriver.bufStateTable G ∧
    FirstReads [0, 1] G := by
  have h₁ : GraphRun weightCat (MayAdd weightCat) (MayDrop weightCat)
      (added weightCat 0 Driver.new) :=
    .add (s := 0) .new ⟨by decide, ⟨by decide, by decide, by decide, by decide⟩, by decide⟩ rfl
  have h₂ : GraphRun weightCat (MayAdd weightCat) (MayDrop weightCat) chainDriver :=
    .add (s := 1) h₁ ⟨by decide, ⟨by decide, by decide, by decide, by decide⟩, by decide⟩ rfl
  obtain ⟨G, hr, hk⟩ := h₂.firstReads
  exact ⟨G, ⟨hr.canon, hr.whole.members, hr.names⟩, hk⟩

theorem chain_acyclic (h : Tabled weightCat [0, 1] t G) : Lib.Acyclic (ReadBy weightCat G) := by
  refine .of_level (fun x => if x = 0 then 1 else 0) fun x y hxy => ?_
  rw [ReadBy, h.members.cons, mem_readers] at hxy
  obtain ⟨hy, hin⟩ := hxy
  rcases x with _ | _ | n
  · rcases weightCat_reads hin with ⟨-, hb⟩ | ⟨hy, -⟩
    · exact absurd hb (by decide)
    · simp [hy]
  · rcases weightCat_reads hin with ⟨-, hb⟩ | ⟨-, hb⟩ <;> exact absurd hb (by decide)
  · rcases weightCat_reads hin with ⟨-, hb⟩ | ⟨-, hb⟩ <;> simp [weightCat] at hb

theorem chainStats_of : StatsOf weightCat [0, 1] chainStats := by
  rintro (_ | _ | n) hs
  · simp
  · simp
  · exact absurd rfl hs

theorem path_right_chain : ∃ G, Tabled weightCat [0, 1] chainDriver.bufStateTable G ∧
    PathsRight weightCat [0, 1] chainStats .quotaTimeMode chainDriver.bufStateTable G 3 [0, 1]
      unranked := by
  obtain ⟨G, h, hfirst⟩ := chainDriver_tabled
  have hcons : ∀ b, G.cons b = readers weightCat [0, 1] b := h.members.cons
  have ha₀ : asked weightCat chainDriver.bufStateTable 0 = some 1 := by decide
  have ha₁ : asked weightCat chainDriver.bufStateTable 1 = none := by decide
  have hone : ∀ z, OnPath weightCat chainStats chainDriver.bufStateTable 1 z → z = 1 := by
    intro z hz
    rcases Relation.ReflTransGen.cases_head hz with rfl | ⟨y, ⟨-, hy⟩, -⟩
    · rfl
    · rw [ha₁] at hy
      cases hy
  have hk : ∀ s : StmtId, s = 0 ∨ s = 1 → HasStat weightCat chainStats s := by
    rintro s (rfl | rfl) <;> exact Option.isSome_iff_ne_none.mp (by decide +kernel)
  refine ⟨G, h, ((path_right_iff (n := 3) h hfirst (by decide) (chain_acyclic h) chainStats_of
    (fun x _ => unranked_none x) (by decide)).2.1 ?_ [0, 1]).mpr ?_⟩
  · simp only [hcons, Graph.Forks]
    decide
  · refine ⟨fun _ => .inr fun z hz => ⟨⟨unranked_none z, fun _ hc => ?_⟩,
      fun p hp => absurd hp List.not_mem_nil⟩, fun _ => .inl ⟨0, by simp, hk 0 (.inl rfl),
        hk 1 (.inr rfl), .single ⟨hk 0 (.inl rfl), ha₀⟩⟩, trivial⟩
    rcases onPath_head ha₀ hz with rfl | ⟨-, hz⟩
    · refine ⟨1, ha₀, fun hf => absurd hf.2 ?_⟩
      simp only [hcons, Graph.Forks]
      decide
    · rw [hone z hz, hcons] at hc
      exact absurd (by decide) hc

/-- Statement 1 is ranked before statement 0 asks for it. -/
theorem path_undefined :
    ¬ ∀ (cat : Catalog) (P : List StmtId) (t : BufStateTbl) (G : Graph) (stats : StmtStats)
      (mode : QuotaMode) (st : OcsState) (n : Nat), Tabled cat P t G → FirstReads P G →
      (∀ p ∈ P, ∀ q ∈ P, (cat p).name = (cat q).name → p = q) → Lib.Acyclic (ReadBy cat G) →
      StatsOf cat P stats →
      (∀ b m, stats b = some m → 0 < m.totalInput ∧ 0 < m.totalOutput ∧ 0 < m.totalPTime ∧
        0 < m.lastKnownSelectivity ∧ 0 < m.lastKnownProcessRate) →
      (∀ x ∈ P, ¬ st.Ranked x) → P.length < n →
      ∀ ss, (∀ s ∈ ss, s ∈ P) → PathsRight cat P stats mode t G n ss st := by
  intro hall
  obtain ⟨G, h, hfirst⟩ := chainDriver_tabled
  have hpos : ∀ b m, chainStats b = some m → 0 < m.totalInput ∧ 0 < m.totalOutput ∧
      0 < m.totalPTime ∧ 0 < m.lastKnownSelectivity ∧ 0 < m.lastKnownProcessRate := by
    intro b m hm
    rw [chainStats] at hm
    split at hm
    · cases hm
    · rw [← Option.some.inj hm]
      norm_num
  obtain ⟨st', hok, -⟩ := hall weightCat [0, 1] _ G chainStats .quotaTimeMode unranked 3 h hfirst
    (by decide) (chain_acyclic h) chainStats_of hpos (fun x _ => unranked_none x)
    (by decide) [1, 0] (by decide)
  have hnone : (updatePriorities weightCat chainStats .quotaTimeMode chainDriver.bufStateTable 3
      [1, 0] unranked).isNone = true := by
    decide +kernel
  rw [hok] at hnone
  cases hnone

end StreamMill.Esl
