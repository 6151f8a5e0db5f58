import StreamMill.Query.GroupBy

/-!
# StreamMill.Query.GroupPasses

What the passes of the GROUP BY automaton do. Reading the source fills the group table
(`Reading.run`); `AtGroup.climbs` goes up over the aggregates of a group and `AtGroup.descends` back
down, so that the calls return the groups one by one (`evaluates_groups`).
-/

namespace StreamMill.Query

open Lib
open ImDb (Byte)

section Passes

variable {T V : Type} [LinearOrder V] [AddMonoidWithOne V] {gbs : List (GbExp T)}
  {aggrs : List (AggrExp T V)} {s s' : Gb T V}

theorem case0_terminating (h : s.terminating = true) :
    case0 gbs aggrs s = terminate gbs aggrs s := by
  have hif : (if s.terminating = true then s else getSource gbs aggrs s) = s := if_pos h
  unfold case0
  rw [hif, if_pos h]

theorem case0_reading (h : s.terminating = false) (hs : getSource gbs aggrs s = s') :
    case0 gbs aggrs s = if s'.terminating then terminate gbs aggrs s' else s' := by
  have hif : (if s.terminating = true then s else getSource gbs aggrs s) = s' := by
    rw [if_neg (by simp [h]), hs]
  unfold case0
  rw [hif]

theorem gbBody_zero (h : s.index = 0) :
    gbBody gbs aggrs s = .ok (stepIndex (case0 gbs aggrs s)) := by
  unfold gbBody
  rw [h]
  rfl

variable {i k : Nat} {base : List (Group V)} {g : Group V} {ts : List T} {s₁ : Gb T V}

theorem gbBody_succ (h : s.index = i + 1) (hb : caseAggr aggrs i s = .ok s') :
    gbBody gbs aggrs s = .ok (stepIndex s') := by
  have hi : s.index.toNat = i + 1 := by omega
  unfold gbBody
  rw [hi]
  show (caseAggr aggrs i s >>= fun s => pure (stepIndex s)) = _
  rw [hb]
  rfl

omit [LinearOrder V] [AddMonoidWithOne V] in
theorem gbCond_of (h : s.index = i) (hi : i ≤ aggrs.length) : gbCond aggrs s = true := by
  unfold gbCond
  rw [h]
  exact decide_eq_true (by omega)

/-- Reading the source: `done` is in the table, `input` is still to come, and the status pointer was
`ptr` when the evaluation began. -/
structure Reading (gbs : List (GbExp T)) (aggrs : List (AggrExp T V)) (ptr : StatusPtr)
    (done input : List T) (s : Gb T V) : Prop where
  input_eq : s.input = input
  index : s.index = 0
  terminating : s.terminating = false
  firstEntry : s.firstEntry = done.isEmpty
  cursor : s.cursor = none
  gbstatus : done = [] → s.gbstatus = ptr
  table : TableHolds gbs aggrs done s.table

theorem Reading.step {ptr : StatusPtr} {done input : List T} {t : T} (hne : aggrs ≠ [])
    (h : Reading gbs aggrs ptr done (t :: input) s) :
    ∃ s', Passes (gbCond aggrs) (gbBody gbs aggrs) s s' ∧
      Reading gbs aggrs ptr (done ++ [t]) input s' ∧ s'.rowKey = s.rowKey := by
  obtain ⟨table, k, htable, hput⟩ := putTuple_holds
    (s := { s with input := input, firstEntry := false }) h.table t
  have hlen : 1 ≤ aggrs.length := List.length_pos_iff.mpr hne
  have hcase : case0 gbs aggrs s =
      { s with input, firstEntry := false, rc := .ok, gbstatus := .group k, table } := by
    refine (case0_reading h.terminating ?_).trans (if_neg ?_)
    · unfold getSource
      rw [h.input_eq]
      exact hput
    · simp [h.terminating]
  have hpass : Passes (gbCond aggrs) (gbBody gbs aggrs) s
      { s with input, firstEntry := false, rc := .ok, gbstatus := .group k, table, index := 1 } := by
    refine Passes.single (gbCond_of h.index (Nat.zero_le _)) ?_
    rw [gbBody_zero h.index, hcase]
    rw [h.index]
    rfl
  have hback : caseAggr aggrs 0
      { s with input, firstEntry := false, rc := .ok, gbstatus := .group k, table, index := 1 } =
      .ok { s with input, firstEntry := false, rc := .notFound, gbstatus := .group k, table,
                   index := 1 } := by
    have hnot : getBuiltInFinalResult aggrs 0
        { s with input, firstEntry := false, rc := .ok, gbstatus := .group k, table, index := 1 } =
        .ok { s with input, firstEntry := false, rc := .notFound, gbstatus := .group k, table,
                     index := 1 } := if_neg (by simp [h.terminating])
    unfold caseAggr
    rw [hnot]
    show Except.ok _ = Except.ok _
    rw [ite_self]
  refine ⟨{ s with input, firstEntry := false, rc := .notFound, gbstatus := .group k, table,
                   index := 0 }, hpass.trans (Passes.single (gbCond_of rfl hlen) ?_), ?_, rfl⟩
  · rw [gbBody_succ rfl hback]
    rfl
  · exact
      { input_eq := rfl
        index := rfl
        terminating := h.terminating
        firstEntry := by cases done <;> rfl
        cursor := h.cursor
        gbstatus := fun hnil => absurd hnil (by simp)
        table := htable }

theorem Reading.run {ptr : StatusPtr} {done input : List T} (hne : aggrs ≠ [])
    (h : Reading gbs aggrs ptr done input s) :
    ∃ s', Passes (gbCond aggrs) (gbBody gbs aggrs) s s' ∧
      Reading gbs aggrs ptr (done ++ input) [] s' ∧ s'.rowKey = s.rowKey := by
  induction input generalizing done s with
  | nil => exact ⟨s, .refl, by simpa using h, rfl⟩
  | cons t input ih =>
    obtain ⟨s₁, hpass, h₁, hkey⟩ := h.step hne
    obtain ⟨s', hpass', h', hkey'⟩ := ih h₁
    exact ⟨s', hpass.trans hpass', by simpa using h', hkey'.trans hkey⟩

/-- The `k`-th group with the flags of its first `i` aggregates down. -/
def flagged (base : List (Group V)) (k i : Nat) : List (Group V) :=
  base.modify k fun g =>
    { g with slots := g.slots.mapIdx fun j slot => ⟨slot.value, decide (i ≤ j)⟩ }

omit [LinearOrder V] [AddMonoidWithOne V] in
theorem flagged_slot {j : Nat} (hg : base[k]? = some g) :
    ((flagged base k i)[k]?.bind fun g => g.slots[j]?) =
      g.slots[j]?.map fun slot => ⟨slot.value, decide (i ≤ j)⟩ := by
  simp [flagged, hg]

omit [LinearOrder V] [AddMonoidWithOne V] in
theorem flagged_set {m n : Nat} {slot : Slot V} (hg : base[k]? = some g)
    (hslot : g.slots[i]? = some slot) (hother : ∀ j, j ≠ i → decide (m ≤ j) = decide (n ≤ j)) :
    ((flagged base k m).modify k fun g =>
      { g with slots := g.slots.set i ⟨slot.value, decide (n ≤ i)⟩ }) = flagged base k n := by
  have hslots : (g.slots.mapIdx fun j slot => (⟨slot.value, decide (m ≤ j)⟩ : Slot V)).set i
      ⟨slot.value, decide (n ≤ i)⟩ =
      g.slots.mapIdx fun j slot => ⟨slot.value, decide (n ≤ j)⟩ := by
    apply List.ext_getElem?
    intro j
    rw [List.getElem?_set, List.getElem?_mapIdx, List.getElem?_mapIdx, List.length_mapIdx]
    by_cases hj : i = j
    · subst hj
      obtain ⟨hlt, -⟩ := List.getElem?_eq_some_iff.mp hslot
      rw [if_pos rfl, if_pos hlt, hslot]
      rfl
    · rw [if_neg hj, hother j (Ne.symm hj)]
  unfold flagged
  rw [List.modify_modify_eq]
  apply List.ext_getElem?
  intro x
  rw [List.getElem?_modify, List.getElem?_modify]
  by_cases hx : k = x
  · subst hx
    rw [hg]
    show some (if k = k then _ else g) = some (if k = k then _ else g)
    rw [if_pos rfl, if_pos rfl]
    show some (Group.mk g.key _) = some (Group.mk g.key _)
    rw [hslots]
  · simp only [if_neg hx]

/-- Going over the aggregates of the `k`-th group. -/
structure AtGroup (base : List (Group V)) (k i : Nat) (s : Gb T V) : Prop where
  terminating : s.terminating = true
  firstEntry : s.firstEntry = false
  cursor : s.cursor = some k
  gbstatus : s.gbstatus = .group k
  table : s.table = flagged base k i

omit [LinearOrder V] in
theorem getBuiltInFinalResult_group {slot : Slot V} (hterm : s.terminating = true)
    (hptr : s.gbstatus = .group k) (hslot : (s.table[k]?.bind fun g => g.slots[i]?) = some slot) :
    getBuiltInFinalResult aggrs i s =
      if slot.firstEntry then
        .ok { s with rc := .ok, rowAggr := Function.update s.rowAggr i slot.value,
                     table := s.table.modify k fun g =>
                       { g with slots := g.slots.set i ⟨slot.value, !slot.firstEntry⟩ } }
      else
        .ok { s with rc := .notFound,
                     table := s.table.modify k fun g =>
                       { g with slots := g.slots.set i ⟨slot.value, !slot.firstEntry⟩ } } := by
  have hif : (countOnly aggrs && decide (s.gbstatus = .null)) = false := by simp [hptr]
  unfold getBuiltInFinalResult
  rw [if_pos hterm, hif, hptr]
  dsimp only
  rw [hslot]
  rfl

/-- The status of group `key` after the tuples `ts`. -/
def statusOf (gbs : List (GbExp T)) (aggrs : List (AggrExp T V)) (ts : List T) (key : List Byte) :
    List V :=
  aggrs.map fun aggr => aggr.accum (ts.filter fun t => gbkey gbs t = key)

theorem TableHolds.slot (h : TableHolds gbs aggrs ts base) (hg : g ∈ base) {v : V}
    (hv : (statusOf gbs aggrs ts g.key)[i]? = some v) :
    g.slots[i]? = some ⟨v, true⟩ := by
  rw [h.slots g hg]
  unfold statusOf at hv
  rw [List.getElem?_map] at hv ⊢
  obtain ⟨aggr, haggr, rfl⟩ := Option.map_eq_some_iff.mp hv
  rw [haggr]
  rfl

theorem AtGroup.climb {v : V} (h : AtGroup base k i s) (htable : TableHolds gbs aggrs ts base)
    (hg : base[k]? = some g) (hv : (statusOf gbs aggrs ts g.key)[i]? = some v)
    (hi : s.index = i + 1) :
    ∃ s', Passes (gbCond aggrs) (gbBody gbs aggrs) s s' ∧ AtGroup base k (i + 1) s' ∧
      s'.index = ((i + 1 : Nat) : Int) + 1 ∧ s'.rowKey = s.rowKey ∧
      s'.rowAggr = Function.update s.rowAggr i v ∧ s'.rc = .ok := by
  have hlt : i < aggrs.length := by
    have := (List.getElem?_eq_some_iff.mp hv).1
    simpa [statusOf] using this
  have hslot := htable.slot (List.mem_of_getElem? hg) hv
  have hflag : (s.table[k]?.bind fun g => g.slots[i]?) = some ⟨v, true⟩ := by
    rw [h.table, flagged_slot hg, hslot]
    simp
  have hset := flagged_set (m := i) (n := i + 1) hg hslot fun j hj => by
    rw [decide_eq_decide]
    omega
  have hresult : getBuiltInFinalResult aggrs i s = .ok
      { s with rc := .ok, rowAggr := Function.update s.rowAggr i v,
               table := flagged base k (i + 1) } := by
    rw [getBuiltInFinalResult_group h.terminating h.gbstatus hflag, ← hset, h.table]
    simp
  have hcase : caseAggr aggrs i s = .ok
      { s with rc := .ok, rowAggr := Function.update s.rowAggr i v,
               table := flagged base k (i + 1) } := by
    unfold caseAggr
    rw [hresult]
    show Except.ok _ = Except.ok _
    split
    · rw [← h.firstEntry]
    · rfl
  refine ⟨_, Passes.single (gbCond_of hi hlt) (gbBody_succ hi hcase), ?_, ?_, rfl, rfl,
    rfl⟩
  · exact ⟨h.terminating, h.firstEntry, h.cursor, h.gbstatus, rfl⟩
  · rw [hi]
    rfl

theorem AtGroup.descend (h : AtGroup base k (i + 1) s) (htable : TableHolds gbs aggrs ts base)
    (hg : base[k]? = some g) (hlt : i < aggrs.length) (hi : s.index = i + 1) :
    ∃ s', Passes (gbCond aggrs) (gbBody gbs aggrs) s s' ∧ AtGroup base k i s' ∧
      s'.index = i ∧ s'.rowKey = s.rowKey := by
  obtain ⟨v, hv⟩ : ∃ v, (statusOf gbs aggrs ts g.key)[i]? = some v := by
    refine ⟨_, List.getElem?_eq_getElem ?_⟩
    simpa [statusOf] using hlt
  have hslot := htable.slot (List.mem_of_getElem? hg) hv
  have hflag : (s.table[k]?.bind fun g => g.slots[i]?) = some ⟨v, false⟩ := by
    rw [h.table, flagged_slot hg, hslot]
    simp
  have hset := flagged_set (m := i + 1) (n := i) hg hslot fun j hj => by
    rw [decide_eq_decide]
    omega
  have hresult : getBuiltInFinalResult aggrs i s = .ok
      { s with rc := .notFound, table := flagged base k i } := by
    rw [getBuiltInFinalResult_group h.terminating h.gbstatus hflag, ← hset,
      h.table]
    simp
  have hcase : caseAggr aggrs i s = .ok { s with rc := .notFound, table := flagged base k i } := by
    unfold caseAggr
    rw [hresult]
    show Except.ok _ = Except.ok _
    split
    · rw [← h.firstEntry]
    · rfl
  refine ⟨_, Passes.single (gbCond_of hi hlt) (gbBody_succ hi hcase), ?_, ?_, rfl⟩
  · exact ⟨h.terminating, h.firstEntry, h.cursor, h.gbstatus, rfl⟩
  · show s.index - 1 = _
    omega

theorem AtGroup.climbs (h : AtGroup base k 0 s) (htable : TableHolds gbs aggrs ts base)
    (hg : base[k]? = some g) (hi : s.index = 1) (m : Nat) (hm : m ≤ aggrs.length) :
    ∃ s', Passes (gbCond aggrs) (gbBody gbs aggrs) s s' ∧ AtGroup base k m s' ∧
      s'.index = m + 1 ∧ s'.rowKey = s.rowKey ∧
      (∀ j < m, (statusOf gbs aggrs ts g.key)[j]? = some (s'.rowAggr j)) ∧
      (0 < m → s'.rc = .ok) := by
  induction m with
  | zero =>
    exact ⟨s, .refl, h, hi, rfl, fun j hj => absurd hj (Nat.not_lt_zero j), fun h0 =>
      absurd h0 (Nat.lt_irrefl 0)⟩
  | succ m ih =>
    obtain ⟨s₁, hpass, h₁, hi₁, hkey, hrow, -⟩ := ih (Nat.le_of_succ_le hm)
    obtain ⟨v, hv⟩ : ∃ v, (statusOf gbs aggrs ts g.key)[m]? = some v :=
      ⟨_, List.getElem?_eq_getElem (by simpa [statusOf] using Nat.lt_of_succ_le hm)⟩
    obtain ⟨s', hpass', h', hi', hkey', hrow', hrc⟩ := h₁.climb htable hg hv hi₁
    refine ⟨s', hpass.trans hpass', h', hi', hkey'.trans hkey, ?_, fun _ => hrc⟩
    intro j hj
    rw [hrow']
    by_cases hjm : j = m
    · subst hjm
      rw [Function.update_self]
      exact hv
    · rw [Function.update_of_ne hjm]
      exact hrow j (by omega)

theorem AtGroup.descends {m : Nat} (h : AtGroup base k m s) (htable : TableHolds gbs aggrs ts base)
    (hg : base[k]? = some g) (hm : m ≤ aggrs.length) (hi : s.index = m) :
    ∃ s', Passes (gbCond aggrs) (gbBody gbs aggrs) s s' ∧ AtGroup base k 0 s' ∧
      s'.index = 0 := by
  induction m generalizing s with
  | zero => exact ⟨s, .refl, h, hi⟩
  | succ m ih =>
    obtain ⟨s₁, hpass, h₁, hi₁, -⟩ := h.descend htable hg hm hi
    obtain ⟨s', hpass', h', hi'⟩ := ih h₁ (Nat.le_of_succ_le hm) hi₁
    exact ⟨s', hpass.trans hpass', h', hi'⟩

theorem TableHolds.flagged_zero (h : TableHolds gbs aggrs ts base) (k : Nat) :
    flagged base k 0 = base := by
  apply List.ext_getElem?
  intro m
  unfold flagged
  rw [List.getElem?_modify]
  cases hg : base[m]? with
  | none => rfl
  | some g =>
    show some (if k = m then _ else g) = some g
    split
    · congr 2
      rw [h.slots g (List.mem_of_getElem? hg)]
      apply List.ext_getElem?
      intro j
      rw [List.getElem?_mapIdx, List.getElem?_map, Option.map_map]
      congr 1
    · rfl

omit [LinearOrder V] [AddMonoidWithOne V] in
theorem gbReturn_ok (h : s.rc = .ok) :
    gbReturn aggrs s =
      (some (s.rowKey, (List.range aggrs.length).map s.rowAggr),
        { s with index := s.index - 1 }) := by
  unfold gbReturn
  rw [h]

theorem gbCall_ends {s₂ : Gb T V} (h : Passes (gbCond aggrs) (gbBody gbs aggrs) s s₂)
    (hc : gbCond aggrs s₂ = false) :
    Returns (fun fuel => gbCall gbs aggrs fuel s) (.ok (gbReturn aggrs s₂)) := by
  obtain ⟨enough, hloop⟩ := h.ends hc
  refine ⟨enough, fun fuel hfuel => ?_⟩
  exact congrArg (Option.map fun r => r.map (gbReturn aggrs)) (hloop fuel hfuel)

theorem gbCall_fails {s₂ : Gb T V} {e : GbFault}
    (h : Passes (gbCond aggrs) (gbBody gbs aggrs) s s₂) (hc : gbCond aggrs s₂ = true)
    (hb : gbBody gbs aggrs s₂ = .error e) :
    Returns (fun fuel => gbCall gbs aggrs fuel s) (.error e) := by
  obtain ⟨enough, hloop⟩ := h.fails hc hb
  refine ⟨enough, fun fuel hfuel => ?_⟩
  exact congrArg (Option.map fun r => r.map (gbReturn aggrs)) (hloop fuel hfuel)

variable (gbs aggrs) in
/-- The call that starts in `s` comes to look for a group, and then stands in `s'`. -/
def Seeks (s s' : Gb T V) : Prop :=
  ∃ s₀, Passes (gbCond aggrs) (gbBody gbs aggrs) s s₀ ∧ s₀.index = 0 ∧
    gbBody gbs aggrs s₀ = .ok (stepIndex (terminate gbs aggrs s'))

/-- About to look for the `k`-th group. -/
structure Seeking (base : List (Group V)) (k : Nat) (s : Gb T V) : Prop where
  terminating : s.terminating = true
  firstEntry : s.firstEntry = false
  index : s.index = 0
  cursor : nextPos s.cursor = k
  table : s.table = base

omit [LinearOrder V] [AddMonoidWithOne V] in
theorem Seeking.terminate_eq (h : Seeking base k s) :
    terminate gbs aggrs s = match base[k]? with
      | some g => { s with
          rc := .ok, cursor := some k, gbstatus := .group k, rowKey := decode gbs g.key }
      | none => { s with rc := .notFound, cursor := none } := by
  have hif : (countOnly aggrs && s.firstEntry) = false := by rw [h.firstEntry, Bool.and_false]
  unfold terminate nextGroup
  rw [hif, h.cursor, h.table]
  rfl

theorem Seeking.nextGroup_some (h : Seeking base k s) (htable : TableHolds gbs aggrs ts base)
    (hg : base[k]? = some g) :
    AtGroup base k 0 (stepIndex (terminate gbs aggrs s)) ∧
      (stepIndex (terminate gbs aggrs s)).index = 1 ∧
      (stepIndex (terminate gbs aggrs s)).rowKey = decode gbs g.key := by
  have hnext : terminate gbs aggrs s = { s with
      rc := .ok, cursor := some k, gbstatus := .group k, rowKey := decode gbs g.key } := by
    rw [h.terminate_eq, hg]
  rw [hnext]
  refine ⟨⟨h.terminating, h.firstEntry, rfl, rfl, ?_⟩, ?_, rfl⟩
  · show s.table = _
    rw [h.table, htable.flagged_zero]
  · rw [h.index]
    rfl

theorem gbCall_row (hne : aggrs ≠ []) (hs : Seeks gbs aggrs s s₁) (h : Seeking base k s₁)
    (htable : TableHolds gbs aggrs ts base) (hg : base[k]? = some g) :
    ∃ s', Returns (fun fuel => gbCall gbs aggrs fuel s)
        (.ok (some (decode gbs g.key, statusOf gbs aggrs ts g.key), s')) ∧
      AtGroup base k aggrs.length s' ∧ s'.index = aggrs.length := by
  obtain ⟨s₀, hpass, hi₀, hbody⟩ := hs
  obtain ⟨hat, hi, hkey⟩ := h.nextGroup_some htable hg
  have hpos : 0 < aggrs.length := List.length_pos_iff.mpr hne
  obtain ⟨s₂, hpass₂, hat₂, hi₂, hkey₂, hrow, hrc⟩ :=
    hat.climbs htable hg hi aggrs.length (Nat.le_refl _)
  have hall : Passes (gbCond aggrs) (gbBody gbs aggrs) s s₂ :=
    hpass.trans (.pass (gbCond_of hi₀ (Nat.zero_le _)) hbody hpass₂)
  have hstop : gbCond aggrs s₂ = false := by
    unfold gbCond
    rw [hi₂]
    simp
  have hstatus : (List.range aggrs.length).map s₂.rowAggr = statusOf gbs aggrs ts g.key := by
    apply List.ext_getElem?
    intro j
    rw [List.getElem?_map]
    by_cases hj : j < aggrs.length
    · rw [List.getElem?_range hj, hrow j hj]
      rfl
    · rw [List.getElem?_eq_none (by simpa using hj), List.getElem?_eq_none]
      · rfl
      · simpa [statusOf] using hj
  refine ⟨{ s₂ with index := s₂.index - 1 }, ?_, ?_, ?_⟩
  · have hreturn := gbCall_ends hall hstop
    have hrowEq : (s₂.rowKey, (List.range aggrs.length).map s₂.rowAggr) =
        (decode gbs g.key, statusOf gbs aggrs ts g.key) := by
      rw [hstatus, hkey₂, hkey]
    rw [gbReturn_ok (hrc hpos), hrowEq] at hreturn
    exact hreturn
  · exact ⟨hat₂.terminating, hat₂.firstEntry, hat₂.cursor, hat₂.gbstatus, hat₂.table⟩
  · show s₂.index - 1 = _
    omega

omit [LinearOrder V] [AddMonoidWithOne V] in
theorem cleanUp_atStart (s : Gb T V) : AtStart (cleanUp s) := ⟨rfl, rfl, rfl, rfl, rfl⟩

theorem gbCall_stops (hs : Seeks gbs aggrs s s₁) (hindex : s₁.index = 0)
    (hnext : terminate gbs aggrs s₁ = { s₁ with rc := .notFound, cursor := none }) :
    ∃ s', Returns (fun fuel => gbCall gbs aggrs fuel s) (.ok (none, s')) ∧ AtStart s' ∧
      s'.gbstatus = if nextPos none < s₁.table.length then .freed else s₁.gbstatus := by
  obtain ⟨s₀, hpass, hi₀, hbody⟩ := hs
  rw [hnext] at hbody
  have hall := hpass.trans (Passes.single (gbCond_of hi₀ (Nat.zero_le _)) hbody)
  have hstop : gbCond aggrs (stepIndex { s₁ with rc := .notFound, cursor := none }) = false := by
    rw [hindex]
    rfl
  exact ⟨_, gbCall_ends hall hstop, cleanUp_atStart _, rfl⟩

theorem gbCall_notFound (hs : Seeks gbs aggrs s s₁) (h : Seeking base k s₁) (hk : base.length ≤ k)
    (hne : base ≠ []) :
    ∃ s', Returns (fun fuel => gbCall gbs aggrs fuel s) (.ok (none, s')) ∧ AtStart s' ∧
      s'.gbstatus = .freed := by
  obtain ⟨s', hret, hstart, hptr⟩ := gbCall_stops hs h.index
    (by rw [h.terminate_eq, List.getElem?_eq_none hk])
  refine ⟨s', hret, hstart, hptr.trans ?_⟩
  rw [h.table]
  exact if_pos (List.length_pos_iff.mpr hne)

theorem evaluates_groups (hne : aggrs ≠ []) (htable : TableHolds gbs aggrs ts base)
    (hbase : base ≠ []) (m : Nat) (hm : base.length = k + m) (hs : Seeks gbs aggrs s s₁)
    (h : Seeking base k s₁) :
    ∃ s', Evaluates gbs aggrs s
        ((base.drop k).map fun g => (decode gbs g.key, statusOf gbs aggrs ts g.key)) s' ∧
      AtStart s' ∧ s'.gbstatus = .freed := by
  induction m generalizing k s s₁ with
  | zero =>
    obtain ⟨s', hcall, hstart, hptr⟩ := gbCall_notFound hs h (by omega) hbase
    rw [List.drop_eq_nil_of_le (by omega)]
    exact ⟨s', .notFound hcall, hstart, hptr⟩
  | succ m ih =>
    have hk : k < base.length := by omega
    have hg : base[k]? = some base[k] := List.getElem?_eq_getElem hk
    obtain ⟨s₂, hcall, hat, hi⟩ := gbCall_row hne hs h htable hg
    obtain ⟨s₃, hpass, hat₃, hi₃⟩ := hat.descends htable hg (Nat.le_refl _) hi
    have hseeks : Seeks gbs aggrs s₂ s₃ := by
      refine ⟨s₃, hpass, hi₃, ?_⟩
      rw [gbBody_zero hi₃, case0_terminating hat₃.terminating]
    have hseeking : Seeking base (k + 1) s₃ :=
      { terminating := hat₃.terminating
        firstEntry := hat₃.firstEntry
        index := hi₃
        cursor := by rw [hat₃.cursor]; rfl
        table := by rw [hat₃.table, htable.flagged_zero] }
    obtain ⟨s', heval, hstart, hptr⟩ := ih (by omega) hseeks hseeking
    refine ⟨s', ?_, hstart, hptr⟩
    rw [List.drop_eq_getElem_cons hk]
    exact .row hcall heval

end Passes

end StreamMill.Query
