import StreamMill.Query.GroupPasses

/-!
# StreamMill.Query.GroupEval

Evaluations of the GROUP BY operator one after the other. An evaluation over a nonempty input is right
if strings that are equal have equal bytes (`groups_perm_iff`); one over an empty input, with counts
and sums only, is right without a GROUP BY list as long as the status pointer was never set
(`evaluates_zeros`, `gbCall_freed`). `groupBy_right_iff` puts them together.
-/

namespace StreamMill.Query

open Lib
open ImDb (Byte)

section Evaluation

variable {T V : Type} [LinearOrder V] [AddMonoidWithOne V] {gbs : List (GbExp T)}
  {aggrs : List (AggrExp T V)} {s s' : Gb T V}

variable (gbs aggrs) in
theorem AtStart.reading (h : AtStart s) (ts : List T) :
    Reading gbs aggrs s.gbstatus [] ts { s with input := ts } where
  input_eq := rfl
  index := h.index
  terminating := h.terminating
  firstEntry := h.firstEntry
  cursor := h.cursor
  gbstatus := fun _ => rfl
  table := by
    show TableHolds gbs aggrs [] s.table
    rw [h.table]
    exact tableHolds_nil

theorem Reading.body_end {ptr : StatusPtr} {done : List T} (h : Reading gbs aggrs ptr done [] s) :
    gbBody gbs aggrs s =
      .ok (stepIndex (terminate gbs aggrs { s with rc := .notFound, terminating := true })) := by
  have hsource : getSource gbs aggrs s = { s with rc := .notFound, terminating := true } := by
    unfold getSource
    rw [h.input_eq]
  rw [gbBody_zero h.index, case0_reading h.terminating hsource, if_pos rfl]

variable {ts : List T} {i : Nat} {rows : List (Row V)}

theorem evaluates_nonempty (hne : aggrs ≠ []) (h : AtStart s) (hts : ts ≠ []) :
    ∃ base s', TableHolds gbs aggrs ts base ∧
      Evaluates gbs aggrs { s with input := ts }
        (base.map fun g => (decode gbs g.key, statusOf gbs aggrs ts g.key)) s' ∧
      AtStart s' ∧ s'.gbstatus = .freed := by
  obtain ⟨s₁, hpass, h₁, -⟩ := (h.reading gbs aggrs ts).run hne
  have hbase : s₁.table ≠ [] := by
    intro hnil
    obtain ⟨t, rest, rfl⟩ := List.exists_cons_of_ne_nil hts
    have hmem := (h₁.table.mem_iff (gbkey gbs t)).mpr (by simp)
    rw [hnil] at hmem
    exact List.not_mem_nil hmem
  have hseeking : Seeking s₁.table 0 { s₁ with rc := .notFound, terminating := true } :=
    { terminating := rfl
      firstEntry := by
        rw [h₁.firstEntry]
        simpa using hts
      index := h₁.index
      cursor := by
        rw [h₁.cursor]
        rfl
      table := rfl }
  obtain ⟨s', heval, hstart, hptr⟩ := evaluates_groups hne h₁.table hbase s₁.table.length
    (Nat.zero_add _).symm ⟨s₁, hpass, h₁.index, h₁.body_end⟩ hseeking
  exact ⟨s₁.table, s', h₁.table, heval, hstart, hptr⟩

omit [LinearOrder V] [AddMonoidWithOne V] in
theorem terminate_empty (hif : (countOnly aggrs && s.firstEntry) = false) (htable : s.table = []) :
    terminate gbs aggrs s = { s with rc := .notFound, cursor := none } := by
  unfold terminate nextGroup
  rw [hif, htable]
  rfl

theorem gbCall_empty {s₁ : Gb T V} (hs : Seeks gbs aggrs s s₁) (hindex : s₁.index = 0)
    (hif : (countOnly aggrs && s₁.firstEntry) = false) (htable : s₁.table = []) :
    ∃ s', Returns (fun fuel => gbCall gbs aggrs fuel s) (.ok (none, s')) ∧ AtStart s' ∧
      s'.gbstatus = s₁.gbstatus := by
  obtain ⟨s', hret, hstart, hptr⟩ := gbCall_stops hs hindex (terminate_empty hif htable)
  refine ⟨s', hret, hstart, hptr.trans ?_⟩
  rw [htable]
  rfl

theorem evaluates_empty (h : AtStart s) (hc : countOnly aggrs = false) :
    ∃ s', Evaluates gbs aggrs { s with input := [] } [] s' ∧ AtStart s' ∧
      s'.gbstatus = s.gbstatus := by
  have hreading := h.reading gbs aggrs []
  have hseeks : Seeks gbs aggrs { s with input := [] }
      { s with input := [], rc := .notFound, terminating := true } :=
    ⟨_, .refl, hreading.index, hreading.body_end⟩
  obtain ⟨s', hcall, hstart, hptr⟩ := gbCall_empty hseeks h.index (by rw [hc]; rfl) h.table
  exact ⟨s', .notFound hcall, hstart, hptr⟩

/-- The state on the way up and down without a status. -/
structure NoStatus (i : Int) (s : Gb T V) : Prop where
  index : s.index = i
  terminating : s.terminating = true
  gbstatus : s.gbstatus = .null
  table : s.table = []

omit [LinearOrder V] in
theorem getBuiltInFinalResult_null (hc : countOnly aggrs = true) (hterm : s.terminating = true)
    (hptr : s.gbstatus = .null) :
    getBuiltInFinalResult aggrs i s =
      if s.firstEntry then .ok { s with rc := .ok, rowAggr := Function.update s.rowAggr i 0 }
      else .ok { s with rc := .notFound } := by
  have hif : (countOnly aggrs && decide (s.gbstatus = .null)) = true := by simp [hc, hptr]
  unfold getBuiltInFinalResult
  rw [if_pos hterm, if_pos hif]

theorem NoStatus.climb (h : NoStatus (i + 1) s) (hc : countOnly aggrs = true)
    (hlt : i < aggrs.length) (hf : s.firstEntry = true) :
    ∃ s', Passes (gbCond aggrs) (gbBody gbs aggrs) s s' ∧ NoStatus ((i + 1 : Nat) + 1) s' ∧
      s'.rc = .ok ∧ s'.rowKey = s.rowKey ∧ s'.rowAggr = Function.update s.rowAggr i 0 ∧
      s'.firstEntry = decide (i + 1 ≠ aggrs.length) := by
  have hcase : caseAggr aggrs i s = .ok
      { s with rc := .ok, rowAggr := Function.update s.rowAggr i 0,
               firstEntry := decide (i + 1 ≠ aggrs.length) } := by
    unfold caseAggr
    rw [getBuiltInFinalResult_null hc h.terminating h.gbstatus, if_pos hf]
    show Except.ok _ = Except.ok _
    by_cases hlast : i + 1 = aggrs.length
    · rw [if_pos hlast, decide_eq_false (by simpa using hlast)]
    · rw [if_neg hlast, decide_eq_true hlast, ← hf]
  refine ⟨_, Passes.single (gbCond_of h.index hlt) (gbBody_succ h.index hcase), ?_, rfl,
    rfl, rfl, rfl⟩
  refine ⟨?_, h.terminating, h.gbstatus, h.table⟩
  rw [h.index]
  rfl

theorem NoStatus.descend (h : NoStatus (i + 1) s) (hc : countOnly aggrs = true)
    (hlt : i < aggrs.length) (hf : s.firstEntry = false) :
    ∃ s', Passes (gbCond aggrs) (gbBody gbs aggrs) s s' ∧ NoStatus i s' ∧
      s'.firstEntry = false := by
  have hcase : caseAggr aggrs i s = .ok { s with rc := .notFound, firstEntry := false } := by
    unfold caseAggr
    rw [getBuiltInFinalResult_null hc h.terminating h.gbstatus, if_neg (by simp [hf])]
    show Except.ok _ = Except.ok _
    rw [← hf, ite_self]
  refine ⟨_, Passes.single (gbCond_of h.index hlt) (gbBody_succ h.index hcase), ?_, rfl⟩
  refine ⟨?_, h.terminating, h.gbstatus, h.table⟩
  show s.index - 1 = _
  rw [h.index]
  omega

variable (gbs) in
theorem NoStatus.climbs (h : NoStatus 1 s) (hc : countOnly aggrs = true)
    (hf : s.firstEntry = true) (m : Nat) (hm : m ≤ aggrs.length) :
    ∃ s', Passes (gbCond aggrs) (gbBody gbs aggrs) s s' ∧ NoStatus (m + 1) s' ∧
      (0 < m → s'.rc = .ok) ∧ s'.rowKey = s.rowKey ∧ (∀ j < m, s'.rowAggr j = 0) ∧
      s'.firstEntry = decide (m = 0 ∨ m ≠ aggrs.length) := by
  induction m with
  | zero =>
    exact ⟨s, .refl, h, fun h0 => absurd h0 (Nat.lt_irrefl 0), rfl,
      fun j hj => absurd hj (Nat.not_lt_zero j), by simpa using hf⟩
  | succ m ih =>
    obtain ⟨s₁, hpass, h₁, -, hkey, hrow, hf₁⟩ := ih (Nat.le_of_succ_le hm)
    have hfirst : s₁.firstEntry = true := by
      rw [hf₁]
      exact decide_eq_true (by omega)
    obtain ⟨s', hpass', h', hrc, hkey', hrow', hf'⟩ := h₁.climb hc hm hfirst
    refine ⟨s', hpass.trans hpass', h', fun _ => hrc, hkey'.trans hkey, ?_, ?_⟩
    · intro j hj
      rw [hrow']
      by_cases hjm : j = m
      · rw [hjm, Function.update_self]
      · rw [Function.update_of_ne hjm]
        exact hrow j (by omega)
    · rw [hf', decide_eq_decide]
      omega

variable (gbs) in
theorem NoStatus.descends {m : Nat} (h : NoStatus m s) (hc : countOnly aggrs = true)
    (hm : m ≤ aggrs.length) (hf : s.firstEntry = false) :
    ∃ s', Passes (gbCond aggrs) (gbBody gbs aggrs) s s' ∧ NoStatus 0 s' ∧
      s'.firstEntry = false := by
  induction m generalizing s with
  | zero => exact ⟨s, .refl, h, hf⟩
  | succ m ih =>
    obtain ⟨s₁, hpass, h₁, hf₁⟩ := h.descend hc hm hf
    obtain ⟨s', hpass', h', hf'⟩ := ih h₁ (Nat.le_of_succ_le hm) hf₁
    exact ⟨s', hpass.trans hpass', h', hf'⟩

variable (gbs) in
theorem AtStart.pass_zeros (h : AtStart s) (hc : countOnly aggrs = true) :
    Passes (gbCond aggrs) (gbBody gbs aggrs) { s with input := [] }
      { s with input := [], rc := .ok, terminating := true, index := 1 } := by
  refine Passes.single (gbCond_of (i := 0) h.index (Nat.zero_le _)) ?_
  have hif : (countOnly aggrs && s.firstEntry) = true := by rw [hc, h.firstEntry]; rfl
  rw [(h.reading gbs aggrs []).body_end]
  unfold terminate
  rw [if_pos hif]
  show Except.ok { s with input := [], rc := .ok, terminating := true, index := s.index + 1 } = _
  rw [h.index]
  rfl

theorem evaluates_zeros (hne : aggrs ≠ []) (h : AtStart s) (hc : countOnly aggrs = true)
    (hptr : s.gbstatus = .null) :
    ∃ s', Evaluates gbs aggrs { s with input := [] } [(s.rowKey, aggrs.map fun _ => 0)] s' ∧
      AtStart s' ∧ s'.gbstatus = .null := by
  have hpos : 0 < aggrs.length := List.length_pos_iff.mpr hne
  have hfirst := h.pass_zeros gbs hc
  have hno : NoStatus 1
      ({ s with input := [], rc := .ok, terminating := true, index := 1 } : Gb T V) :=
    ⟨rfl, rfl, hptr, h.table⟩
  obtain ⟨s₁, hpass, h₁, hrc, hkey, hrow, hf⟩ :=
    hno.climbs gbs hc h.firstEntry aggrs.length (Nat.le_refl _)
  have hstop : gbCond aggrs s₁ = false := by
    unfold gbCond
    rw [h₁.index]
    simp
  have hzeros : (s₁.rowKey, (List.range aggrs.length).map s₁.rowAggr) =
      (s.rowKey, aggrs.map fun _ => 0) := by
    refine Prod.ext hkey (List.ext_getElem (by simp) ?_)
    intro j hj _
    rw [List.getElem_map, List.getElem_map, List.getElem_range]
    exact hrow j (by simpa using hj)
  have hcall := gbCall_ends (hfirst.trans hpass) hstop
  rw [gbReturn_ok (hrc hpos), hzeros] at hcall
  have hf' : s₁.firstEntry = false := by
    rw [hf]
    exact decide_eq_false (by omega)
  have hback : NoStatus aggrs.length { s₁ with index := s₁.index - 1 } := by
    refine ⟨?_, h₁.terminating, h₁.gbstatus, h₁.table⟩
    show s₁.index - 1 = _
    rw [h₁.index]
    omega
  obtain ⟨s₂, hpass₂, h₂, hf₂⟩ := hback.descends gbs hc (Nat.le_refl _) hf'
  have hseeks : Seeks gbs aggrs { s₁ with index := s₁.index - 1 } s₂ := by
    refine ⟨s₂, hpass₂, h₂.index, ?_⟩
    rw [gbBody_zero h₂.index, case0_terminating h₂.terminating]
  obtain ⟨s', hcall', hstart, hptr'⟩ :=
    gbCall_empty hseeks h₂.index (by rw [hf₂, Bool.and_false]) h₂.table
  refine ⟨s', ?_, hstart, hptr'.trans h₂.gbstatus⟩
  exact .row hcall (.notFound hcall')

/-- The status pointer left by an earlier evaluation is followed. -/
theorem gbCall_freed (hne : aggrs ≠ []) (h : AtStart s) (hc : countOnly aggrs = true)
    (hptr : s.gbstatus = .freed) :
    Returns (fun fuel => gbCall gbs aggrs fuel { s with input := [] })
      (.error .useAfterFree) := by
  have hpos : 0 < aggrs.length := List.length_pos_iff.mpr hne
  have hfirst := h.pass_zeros gbs hc
  refine gbCall_fails hfirst (gbCond_of rfl hpos) ?_
  have hresult : getBuiltInFinalResult aggrs 0
      { s with input := [], rc := .ok, terminating := true, index := 1 } =
      .error .useAfterFree := by
    unfold getBuiltInFinalResult
    rw [if_pos rfl, if_neg (by simp [hptr])]
    rw [hptr]
  show ((caseAggr aggrs 0 _) >>= fun s => pure (stepIndex s)) = _
  unfold caseAggr
  rw [hresult]
  rfl

theorem Evaluates.unique {rows' : List (Row V)} {s₁ s₂ : Gb T V} (h : Evaluates gbs aggrs s rows s₁)
    (h' : Evaluates gbs aggrs s rows' s₂) :
    rows = rows' ∧ s₁ = s₂ := by
  induction h generalizing rows' with
  | notFound hcall =>
    cases h' with
    | notFound hcall' =>
      cases hcall.unique hcall'
      exact ⟨rfl, rfl⟩
    | row hcall' _ => cases hcall.unique hcall'
  | row hcall _ ih =>
    cases h' with
    | notFound hcall' => cases hcall.unique hcall'
    | row hcall' heval' =>
      cases hcall.unique hcall'
      obtain ⟨rfl, rfl⟩ := ih heval'
      exact ⟨rfl, rfl⟩

theorem Evaluates.no_fault {e : GbFault} (h : Evaluates gbs aggrs s rows s')
    (hf : Returns (fun fuel => gbCall gbs aggrs fuel s) (.error e)) : False := by
  cases h with
  | notFound hcall => cases hcall.unique hf
  | row hcall _ => cases hcall.unique hf

variable (gbs) in
def SameBytes (ts : List T) : Prop :=
  ∀ t ∈ ts, ∀ t' ∈ ts, gbValues gbs t = gbValues gbs t' → gbkey gbs t = gbkey gbs t'

variable (gbs) in
def keyValues (key : List Byte) : List (List Byte) :=
  List.zipWith (fun gb bs => gb.ty.value bs) gbs (decode gbs key)

theorem keyValues_gbkey (t : T) : keyValues gbs (gbkey gbs t) = gbValues gbs t := by
  unfold keyValues gbValues
  rw [decode_gbkey, List.zipWith_map_right, List.zipWith_self]

theorem TableHolds.exists_tuple {base : List (Group V)} (h : TableHolds gbs aggrs ts base)
    {g : Group V} (hg : g ∈ base) :
    ∃ t ∈ ts, gbkey gbs t = g.key :=
  List.mem_map.mp ((h.mem_iff g.key).mp (List.mem_map_of_mem hg))

theorem SameBytes.filter_eq (h : SameBytes gbs ts) {t : T} (ht : t ∈ ts) :
    (ts.filter fun t' => gbkey gbs t' = gbkey gbs t) =
      ts.filter fun t' => gbValues gbs t' = gbValues gbs t := by
  refine List.filter_congr fun t' ht' => ?_
  rw [decide_eq_decide]
  constructor
  · intro heq
    rw [← keyValues_gbkey, heq, keyValues_gbkey]
  · exact h t' ht' t ht

theorem groups_perm_iff {base : List (Group V)} (htable : TableHolds gbs aggrs ts base)
    (hts : ts ≠ [] ∨ countOnly aggrs = false) :
    ((base.map fun g => (decode gbs g.key, statusOf gbs aggrs ts g.key)).map (rowValue gbs)).Perm
      (groupRows gbs aggrs ts) ↔ SameBytes gbs ts := by
  have hspecial : (ts.isEmpty && gbs.isEmpty && countOnly aggrs) = false := by
    rcases hts with hts | hc
    · simp [hts]
    · simp [hc]
  have hrows : (base.map fun g => (decode gbs g.key, statusOf gbs aggrs ts g.key)).map
      (rowValue gbs) = base.map fun g => (keyValues gbs g.key, statusOf gbs aggrs ts g.key) := by
    rw [List.map_map]
    rfl
  unfold groupRows
  rw [hspecial, if_neg (by simp), hrows]
  constructor
  · intro hperm t ht t' ht' hval
    have hnodup : (base.map fun g => keyValues gbs g.key).Nodup := by
      have hfst := hperm.map Prod.fst
      have hid : Prod.fst ∘ valueRow gbs aggrs ts = id := rfl
      rw [List.map_map, List.map_map, hid, List.map_id] at hfst
      exact hfst.nodup_iff.mpr (List.nodup_dedup _)
    obtain ⟨g, hg, hkey⟩ := List.mem_map.mp ((htable.mem_iff _).mpr (List.mem_map_of_mem ht))
    obtain ⟨g', hg', hkey'⟩ := List.mem_map.mp ((htable.mem_iff _).mpr (List.mem_map_of_mem ht'))
    have heq : keyValues gbs g.key = keyValues gbs g'.key := by
      rw [hkey, hkey', keyValues_gbkey, keyValues_gbkey, hval]
    have hgg : g = g' := List.inj_on_of_nodup_map hnodup hg hg' heq
    rw [← hkey, ← hkey', hgg]
  · intro hsame
    have hstatus : ∀ g ∈ base, (keyValues gbs g.key, statusOf gbs aggrs ts g.key) =
        valueRow gbs aggrs ts (keyValues gbs g.key) := by
      intro g hg
      obtain ⟨t, ht, hkey⟩ := htable.exists_tuple hg
      have hne : (ts.filter fun t' => gbkey gbs t' = gbkey gbs t) ≠ [] :=
        List.ne_nil_of_mem (List.mem_filter.mpr ⟨ht, by simp⟩)
      unfold statusOf valueRow
      rw [← hkey, keyValues_gbkey, ← hsame.filter_eq ht]
      congr 1
      exact List.map_congr_left fun aggr _ => aggr.accum_eq hne
    have hmap : (base.map fun g => (keyValues gbs g.key, statusOf gbs aggrs ts g.key)) =
        (base.map fun g => keyValues gbs g.key).map (valueRow gbs aggrs ts) := by
      rw [List.map_map]
      exact List.map_congr_left hstatus
    rw [hmap]
    refine List.Perm.map _ ?_
    rw [List.perm_ext_iff_of_nodup _ (List.nodup_dedup _)]
    · intro v
      rw [List.mem_dedup, List.mem_map, List.mem_map]
      constructor
      · rintro ⟨g, hg, rfl⟩
        obtain ⟨t, ht, hkey⟩ := htable.exists_tuple hg
        exact ⟨t, ht, by rw [← hkey, keyValues_gbkey]⟩
      · rintro ⟨t, ht, rfl⟩
        obtain ⟨g, hg, hkey⟩ := List.mem_map.mp ((htable.mem_iff _).mpr (List.mem_map_of_mem ht))
        exact ⟨g, hg, by rw [hkey, keyValues_gbkey]⟩
    · refine List.Nodup.map_on ?_ (List.Nodup.of_map _ htable.nodup)
      intro g hg g' hg' heq
      obtain ⟨t, ht, hkey⟩ := htable.exists_tuple hg
      obtain ⟨t', ht', hkey'⟩ := htable.exists_tuple hg'
      rw [← hkey, ← hkey', keyValues_gbkey, keyValues_gbkey] at heq
      have hkeys := hsame t ht t' ht' heq
      rw [hkey, hkey'] at hkeys
      exact List.inj_on_of_nodup_map htable.nodup hg hg' hkeys

def EvaluationGood (gbs : List (GbExp T)) (aggrs : List (AggrExp T V)) (ptr : StatusPtr)
    (ts : List T) : Prop :=
  SameBytes gbs ts ∧ (countOnly aggrs = true → ts = [] → gbs = [] ∧ ptr = .null)

def ptrAfter (ptr : StatusPtr) (ts : List T) : StatusPtr := if ts.isEmpty then ptr else .freed

theorem evaluatesRight_iff (heval : Evaluates gbs aggrs { s with input := ts } rows s')
    (hstart : AtStart s') (inputs : List (List T)) :
    EvaluatesRight gbs aggrs s (ts :: inputs) ↔
      (rows.map (rowValue gbs)).Perm (groupRows gbs aggrs ts) ∧
        EvaluatesRight gbs aggrs s' inputs := by
  constructor
  · rintro ⟨rows', s'', heval', hperm, -, hrest⟩
    obtain ⟨rfl, rfl⟩ := heval.unique heval'
    exact ⟨hperm, hrest⟩
  · rintro ⟨hperm, hrest⟩
    exact ⟨rows, s', heval, hperm, hstart, hrest⟩

theorem zeros_perm_iff (hc : countOnly aggrs = true) (rowKey : List (List Byte)) :
    ([(rowKey, aggrs.map fun _ => 0)].map (rowValue gbs)).Perm (groupRows gbs aggrs []) ↔
      gbs = [] := by
  unfold groupRows
  rw [hc]
  cases gbs with
  | nil => simp [rowValue]
  | cons gb gbs => simp

theorem evaluatesRight_cons (hne : aggrs ≠ []) (h : AtStart s)
    (hptr : s.gbstatus = .null ∨ s.gbstatus = .freed) (ts : List T) (inputs : List (List T)) :
    ∃ s', AtStart s' ∧ s'.gbstatus = ptrAfter s.gbstatus ts ∧
      (EvaluatesRight gbs aggrs s (ts :: inputs) ↔
        EvaluationGood gbs aggrs s.gbstatus ts ∧ EvaluatesRight gbs aggrs s' inputs) := by
  by_cases hts : ts = []
  · subst hts
    have hsame : SameBytes gbs ([] : List T) := fun t ht => absurd ht List.not_mem_nil
    cases hc : countOnly aggrs with
    | false =>
      obtain ⟨s', heval, hstart, hptr'⟩ := evaluates_empty h hc
      refine ⟨s', hstart, hptr', ?_⟩
      rw [evaluatesRight_iff heval hstart]
      have hperm := groups_perm_iff (tableHolds_nil : TableHolds gbs aggrs [] []) (Or.inr hc)
      refine and_congr_left fun _ => hperm.trans ⟨fun hsame => ⟨hsame, ?_⟩, And.left⟩
      intro htrue
      rw [hc] at htrue
      cases htrue
    | true =>
      rcases hptr with hptr | hptr
      · obtain ⟨s', heval, hstart, hptr'⟩ := evaluates_zeros hne h hc hptr
        refine ⟨s', hstart, hptr'.trans hptr.symm, ?_⟩
        rw [evaluatesRight_iff heval hstart, zeros_perm_iff hc]
        refine and_congr_left fun _ => ⟨fun hgbs => ⟨hsame, fun _ _ => ⟨hgbs, hptr⟩⟩, ?_⟩
        exact fun hgood => (hgood.2 hc rfl).1
      · refine ⟨s, h, rfl, ⟨?_, ?_⟩⟩
        · rintro ⟨rows, s', heval, -⟩
          exact (heval.no_fault (gbCall_freed hne h hc hptr)).elim
        · rintro ⟨hgood, -⟩
          have hnull := (hgood.2 hc rfl).2
          rw [hptr] at hnull
          cases hnull
  · obtain ⟨base, s', htable, heval, hstart, hptr'⟩ := evaluates_nonempty hne h hts
    refine ⟨s', hstart, ?_, ?_⟩
    · unfold ptrAfter
      rw [hptr', if_neg (by simpa using hts)]
    · rw [evaluatesRight_iff heval hstart, groups_perm_iff htable (Or.inl hts)]
      refine and_congr_left fun _ => ⟨fun hsame => ⟨hsame, fun _ hnil => absurd hnil hts⟩, And.left⟩

theorem evaluatesRight_freed (hne : aggrs ≠ []) (h : AtStart s) (hptr : s.gbstatus = .freed)
    (inputs : List (List T)) :
    EvaluatesRight gbs aggrs s inputs ↔
      (∀ ts ∈ inputs, SameBytes gbs ts) ∧ (countOnly aggrs = true → [] ∉ inputs) := by
  induction inputs generalizing s with
  | nil => exact ⟨fun _ => ⟨by simp, by simp⟩, fun _ => trivial⟩
  | cons ts inputs ih =>
    obtain ⟨s', hstart, hptr', hiff⟩ := evaluatesRight_cons hne h (Or.inr hptr) ts inputs
    have hfreed : s'.gbstatus = .freed := by
      rw [hptr', hptr]
      unfold ptrAfter
      split <;> rfl
    rw [hiff, ih hstart hfreed, hptr]
    constructor
    · rintro ⟨⟨hsame, hgood⟩, hall, hempty⟩
      refine ⟨List.forall_mem_cons.mpr ⟨hsame, hall⟩, fun hc hmem => ?_⟩
      rcases List.mem_cons.mp hmem with hnil | hmem
      · cases (hgood hc hnil.symm).2
      · exact hempty hc hmem
    · rintro ⟨hall, hempty⟩
      obtain ⟨hsame, hall⟩ := List.forall_mem_cons.mp hall
      refine ⟨⟨hsame, fun hc hnil => ?_⟩, hall, fun hc hmem => ?_⟩
      · exact absurd (hnil ▸ List.mem_cons_self) (hempty hc)
      · exact hempty hc (List.mem_cons_of_mem _ hmem)

theorem evaluatesRight_null (hne : aggrs ≠ []) (h : AtStart s) (hptr : s.gbstatus = .null)
    (inputs : List (List T)) :
    EvaluatesRight gbs aggrs s inputs ↔
      (∀ ts ∈ inputs, SameBytes gbs ts) ∧
        (countOnly aggrs = true →
          [] ∉ if gbs.isEmpty then inputs.dropWhile List.isEmpty else inputs) := by
  induction inputs generalizing s with
  | nil => exact ⟨fun _ => ⟨by simp, by simp⟩, fun _ => trivial⟩
  | cons ts inputs ih =>
    obtain ⟨s', hstart, hptr', hiff⟩ := evaluatesRight_cons hne h (Or.inl hptr) ts inputs
    rw [hiff, hptr]
    cases ts with
    | nil =>
      have hnull : s'.gbstatus = .null := hptr'.trans hptr
      rw [ih hstart hnull]
      constructor
      · rintro ⟨⟨hsame, hgood⟩, hall, hempty⟩
        refine ⟨List.forall_mem_cons.mpr ⟨hsame, hall⟩, fun hc => ?_⟩
        obtain ⟨rfl, -⟩ := hgood hc rfl
        exact hempty hc
      · rintro ⟨hall, hempty⟩
        obtain ⟨hsame, hall⟩ := List.forall_mem_cons.mp hall
        cases gbs with
        | nil => exact ⟨⟨hsame, fun _ _ => ⟨rfl, rfl⟩⟩, hall, hempty⟩
        | cons gb gbs =>
          refine ⟨⟨hsame, fun hc => ?_⟩, hall, fun hc => ?_⟩
          · exact absurd List.mem_cons_self (hempty hc)
          · exact absurd List.mem_cons_self (hempty hc)
    | cons t ts =>
      rw [evaluatesRight_freed hne hstart hptr' inputs]
      rw [List.forall_mem_cons]
      constructor
      · rintro ⟨⟨hsame, -⟩, hall, hempty⟩
        exact ⟨⟨hsame, hall⟩, fun hc => by simpa using hempty hc⟩
      · rintro ⟨⟨hsame, hall⟩, hempty⟩
        refine ⟨⟨hsame, fun _ hnil => absurd hnil (List.cons_ne_nil _ _)⟩, hall, fun hc => ?_⟩
        simpa using hempty hc

end Evaluation

end StreamMill.Query
