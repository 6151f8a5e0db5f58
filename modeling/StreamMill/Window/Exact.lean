import StreamMill.Window.Builtins

/-!
# StreamMill.Window.Exact

The aggregates are exact over the windows of their groups: `aggregates_exact` runs any list of
tuples. The age of a tuple in a window of time is the difference of whole milliseconds since the
first tuple of the group (`windowOf`), which can be a millisecond more than its true age
(`aggregates_not_exact`). A count of tuples beyond `2 ^ 32` starts again at `0`, where `getExpired`
is off by one.
-/

namespace StreamMill.Window

open ImDb

section MinMax

variable {α : Type} [LinearOrder α] [Inhabited α] [IntCast α]

theorem minAggr_maintains :
    Maintains (minAggr : Builtin α α) (fun W es _ => Pruned (· ≤ ·) W es) (Best (· ≤ ·)) :=
  maintains_of_prune (fun v => rfl) fun s w v => by
    simp [minAggr, Winbuf.deleteGreater, gt_iff_lt, ← not_le, decide_not]

theorem maxAggr_maintains :
    Maintains (maxAggr : Builtin α α) (fun W es _ => Pruned (· ≥ ·) W es) (Best (· ≥ ·)) :=
  maintains_of_prune (fun v => rfl) fun s w v => by
    simp [maxAggr, Winbuf.deleteLesser, ← not_le, decide_not]

end MinMax

variable {G α σ : Type}

def millis (first t : Timeval) : Int := ⌊timevalSubtract t first * 1000⌋

def start (is : List (Input G α)) : Timeval := (is.head?.map Input.arrival).getD ⟨0, 0⟩

def ofGroup [DecidableEq G] (inputs : List (Input G α)) (g : G) : List (Input G α) :=
  inputs.filter fun i => i.group = g

def windowOf (range : RangeType) (size : Nat) (is : List (Input G α)) : List α :=
  match range with
  | .count => (is.drop (is.length - size)).map Input.value
  | .time =>
    (is.filter fun i =>
      ∀ last ∈ is.getLast?, millis (start is) last.arrival - millis (start is) i.arrival < size).map
      Input.value

/-- Fewer than `2 ^ 32` tuples of a group are counted, the clock does not go back and stays below
`2 ^ 31` milliseconds. -/
def Fits [DecidableEq G] (range : RangeType) (inputs : List (Input G α)) : Prop :=
  match range with
  | .count => ∀ g, (ofGroup inputs g).length < 2 ^ 32
  | .time => inputs.Pairwise fun i j => 0 ≤ timevalSubtract j.arrival i.arrival ∧
      timevalSubtract j.arrival i.arrival * 1000 < 2 ^ 31

def idOf (range : RangeType) (first : Timeval) (k : Nat) (i : Input G α) : Nat :=
  match range with
  | .count => k
  | .time => (millis first i.arrival).toNat

def history (range : RangeType) (is : List (Input G α)) : List (WinTuple α) :=
  (is.zipIdx 1).map fun p => ⟨p.1.value, idOf range (start is) p.2 p.1⟩

variable {is inputs : List (Input G α)} {size n : Nat} {range : RangeType}

theorem start_concat (i : Input G α) (h : is ≠ []) :
    start (is ++ [i]) = start is := by
  cases is with
  | nil => exact absurd rfl h
  | cons j is => rfl

theorem history_concat (range : RangeType) (i : Input G α) (h : is ≠ []) :
    history range (is ++ [i]) =
      history range is ++ [⟨i.value, idOf range (start is) (is.length + 1) i⟩] := by
  simp only [history, start_concat i h, List.zipIdx_append, List.map_append]
  rw [Nat.add_comm]
  rfl

theorem drop_eq_filter {β : Type} (xs : List β) (m j : Nat) :
    ((xs.zipIdx j).filter fun p => decide (m + j ≤ p.2)).map Prod.fst = xs.drop m := by
  induction xs generalizing m j with
  | nil => simp
  | cons x xs ih =>
    cases m with
    | zero =>
      have hall : ∀ p ∈ (x :: xs).zipIdx j, decide (0 + j ≤ p.2) = true := by
        intro p hp
        have hle := List.le_snd_of_mem_zipIdx hp
        simpa using hle
      rw [List.filter_eq_self.mpr hall, List.zipIdx_map_fst]
      rfl
    | succ m =>
      rw [List.zipIdx_cons, List.filter_cons_of_neg (by simp), List.drop_succ_cons,
        ← ih m (j + 1)]
      simp [Nat.add_assoc, Nat.add_comm 1 j]

theorem inWindow_history (range : RangeType) {last : Input G α} (hsize : 1 ≤ size)
    (hlast : is.getLast? = some last)
    (hpos : range = .time → ∀ i ∈ is, 0 ≤ millis (start is) i.arrival) :
    (inWindow size (idOf range (start is) is.length last) (history range is)).map WinTuple.value =
      windowOf range size is := by
  cases range with
  | count =>
    have hfun : ∀ p ∈ is.zipIdx 1, (!left size is.length ⟨p.1.value, p.2⟩) =
        decide (is.length - size + 1 ≤ p.2) := by
      intro p hp
      have hone := List.le_snd_of_mem_zipIdx hp
      rw [left, ← decide_not, decide_eq_decide]
      simp only [not_le]
      omega
    rw [windowOf, ← drop_eq_filter is (is.length - size) 1, ← List.filter_congr hfun, inWindow,
      history, List.filter_map, List.map_map, List.map_map]
    rfl
  | time =>
    have hfun : ∀ i ∈ is, (!left size (millis (start is) last.arrival).toNat
        ⟨i.value, (millis (start is) i.arrival).toNat⟩) =
        decide (∀ l ∈ is.getLast?,
          millis (start is) l.arrival - millis (start is) i.arrival < size) := by
      intro i hi
      have h1 := hpos rfl i hi
      rw [hlast, left, ← decide_not, decide_eq_decide]
      simp only [Option.mem_some_iff, forall_eq']
      omega
    have hmap : history .time is = is.map fun i =>
        ⟨i.value, (millis (start is) i.arrival).toNat⟩ :=
      calc history .time is
          = ((is.zipIdx 1).map Prod.fst).map fun i =>
              ⟨i.value, (millis (start is) i.arrival).toNat⟩ := by
            rw [List.map_map]
            rfl
        _ = _ := by rw [List.zipIdx_map_fst]
    rw [hmap, inWindow, windowOf, List.filter_map, List.map_map]
    rw [← List.filter_congr hfun]
    rfl

def GroupOk [DecidableEq α] [Inhabited α]
    (Keeps : List (WinTuple α) → List (WinTuple α) → σ → Prop) (Val : List α → σ → Prop)
    (range : RangeType) (size : Nat) (is : List (Input G α)) (o : Option (GbStatus α σ)) : Prop :=
  match is.getLast? with
  | none => o = none
  | some last => ∃ st, o = some st ∧ GroupHolds Keeps Val size (history range is) st ∧
      st.win.tupleId = idOf range (start is) is.length last ∧
      (range = .time → st.win.first = false ∧ st.win.firstTs = start is)

def GroupFits (range : RangeType) (is : List (Input G α)) : Prop :=
  match range with
  | .count => is.length < 2 ^ 32
  | .time => is.Pairwise fun i j => 0 ≤ timevalSubtract j.arrival i.arrival ∧
      timevalSubtract j.arrival i.arrival * 1000 < 2 ^ 31

theorem Fits.group [DecidableEq G] (h : Fits range inputs) (g : G) :
    GroupFits range (ofGroup inputs g) := by
  cases range with
  | count => exact h g
  | time => exact List.Pairwise.filter _ h

theorem Fits.before [DecidableEq G] {i : Input G α} (h : Fits range (inputs ++ [i])) :
    Fits range inputs := by
  cases range with
  | count =>
    intro g
    have hlt := h g
    rw [ofGroup, List.filter_append, List.length_append] at hlt
    exact Nat.lt_of_le_of_lt (Nat.le_add_right _ _) hlt
  | time => exact (List.pairwise_append.mp h).1

theorem millis_self (t : Timeval) : millis t t = 0 := by
  simp [millis, timevalSubtract]

theorem millis_mono {first t t' : Timeval} (h : 0 ≤ timevalSubtract t' t) :
    millis first t ≤ millis first t' := by
  refine Int.floor_le_floor ?_
  simp only [timevalSubtract] at h ⊢
  linarith

theorem millis_lt {first t : Timeval} (h : timevalSubtract t first * 1000 < 2 ^ 31) :
    millis first t < 2 ^ 31 := by
  rw [millis, Int.floor_lt]
  exact_mod_cast h

theorem GroupFits.millis_range (h : GroupFits .time is) {i : Input G α} (hi : i ∈ is) :
    0 ≤ millis (start is) i.arrival ∧ millis (start is) i.arrival < 2 ^ 31 := by
  cases is with
  | nil => cases hi
  | cons j is =>
    have hstart : start (j :: is) = j.arrival := rfl
    rw [hstart]
    rcases List.mem_cons.mp hi with rfl | hi
    · rw [millis_self]
      decide
    · obtain ⟨hle, hlt⟩ := (List.pairwise_cons.mp h).1 i hi
      refine ⟨?_, millis_lt hlt⟩
      rw [← millis_self j.arrival]
      exact millis_mono hle

section

variable [DecidableEq α] [Inhabited α] {bi : Builtin α σ}
  {Keeps : List (WinTuple α) → List (WinTuple α) → σ → Prop} {Val : List α → σ → Prop}

omit [DecidableEq α] [Inhabited α] in
theorem firstId (mem : Addr → Tuple 0 (WinTuple α)) (size : Nat) (range : RangeType)
    (i : Input G α) :
    ((newWinbuf mem size).updateTupleID (i.ts range)).tupleId = idOf range (start [i]) 1 i := by
  cases range with
  | count => rfl
  | time =>
    have hzero : millis i.arrival i.arrival = 0 := millis_self _
    simp only [idOf, start, List.head?_cons, Option.map_some, Option.getD_some, hzero]
    rw [millis] at hzero
    simp [newWinbuf, Winbuf.updateTupleID, Input.ts, hzero]

variable {i : Input G α} {is : List (Input G α)} {range : RangeType} {size : Nat}

omit [DecidableEq α] [Inhabited α] in
theorem nextId {w : Winbuf α} {n : Nat} (hfits : GroupFits range (is ++ [i])) (hne : is ≠ [])
    (hn : n = is.length) (hid : range = .count → w.tupleId = n)
    (hfirst : range = .time → w.first = false ∧ w.firstTs = start is) :
    (w.updateTupleID (i.ts range)).tupleId = idOf range (start is) (n + 1) i := by
  cases range with
  | count =>
    have hlt : n + 1 < 2 ^ 32 := by
      simpa [GroupFits, hn] using hfits
    simp only [Winbuf.updateTupleID, Input.ts, hid rfl, idOf, Nat.mod_eq_of_lt hlt]
  | time =>
    obtain ⟨hf, hts⟩ := hfirst rfl
    obtain ⟨hpos, hlt⟩ := hfits.millis_range (i := i) (by simp)
    rw [start_concat i hne] at hpos hlt
    have hmod : (millis (start is) i.arrival).toNat < 2 ^ 32 := by omega
    simp only [Winbuf.updateTupleID, Input.ts, hf, hts, idOf]
    exact Nat.mod_eq_of_lt hmod

omit [DecidableEq α] [Inhabited α] in
theorem idOf_mono {last : Input G α} (hfits : GroupFits range (is ++ [i]))
    (hlast : is.getLast? = some last) :
    idOf range (start is) is.length last ≤ idOf range (start is) (is.length + 1) i := by
  cases range with
  | count => exact Nat.le_succ _
  | time =>
    have hle := (List.pairwise_append.mp hfits).2.2 last (List.mem_of_getLast? hlast) i (by simp)
    exact Int.toNat_le_toNat (millis_mono hle.1)

theorem group_step (hm : Maintains bi Keeps Val) (hsize : 1 ≤ size)
    (mem : Addr → Tuple 0 (WinTuple α)) {o : Option (GbStatus α σ)}
    (h : GroupOk Keeps Val range size is o) (hfits : GroupFits range (is ++ [i])) :
    ∃ st, (match o with
        | none => aggrInit bi (newWinbuf mem size) (i.ts range) i.value
        | some st => aggrIterate bi st (i.ts range) i.value) = .ok st ∧
      GroupOk Keeps Val range size (is ++ [i]) (some st) := by
  have hlast' : (is ++ [i]).getLast? = some i := List.getLast?_concat
  rw [GroupOk] at h
  cases hlast : is.getLast? with
  | none =>
    rw [hlast] at h
    subst h
    obtain rfl : is = [] := List.getLast?_eq_none_iff.mp hlast
    have hid := firstId mem size range i
    obtain ⟨st, hinit, hst, hsid, hsf, hsts⟩ :=
      aggrInit_holds hm hsize (newWinbuf_holds mem size) rfl (i.ts range) i.value
    rw [hid] at hst hsid
    refine ⟨st, hinit, ?_⟩
    refine ⟨st, rfl, hst, hsid, ?_⟩
    intro ht
    subst ht
    exact ⟨hsf, hsts⟩
  | some last =>
    rw [hlast] at h
    obtain ⟨st, rfl, hst, hid, hfirst⟩ := h
    have hne : is ≠ [] := by
      intro hnil
      rw [hnil] at hlast
      cases hlast
    have hnext := nextId hfits hne rfl (fun hc => by rw [hid, hc, idOf]) hfirst
    have hmono : st.win.tupleId ≤ (st.win.updateTupleID (i.ts range)).tupleId := by
      rw [hnext, hid]
      exact idOf_mono hfits hlast
    obtain ⟨st', hiter, hst', hsid, hsf, hsts⟩ := aggrIterate_holds hm hsize hst i.value hmono
    rw [hnext] at hst' hsid
    refine ⟨st', hiter, ?_⟩
    rw [GroupOk, hlast']
    refine ⟨st', rfl, ?_, ?_, ?_⟩
    · rw [history_concat range i hne]
      exact hst'
    · rw [hsid, start_concat i hne, List.length_append]
      rfl
    · intro ht
      obtain ⟨hf, hts⟩ := hfirst ht
      subst ht
      rw [start_concat i hne, hsf, hsts]
      simp [Winbuf.updateTupleID, Input.ts, hf, hts]

variable [DecidableEq G]

theorem processAll_holds (hm : Maintains bi Keeps Val) (hsize : 1 ≤ size)
    (mem : G → Addr → Tuple 0 (WinTuple α)) {inputs : List (Input G α)} (hfits : Fits range inputs) :
    ∃ gs, processAll bi mem range size inputs = .ok gs ∧
      ∀ g, GroupOk Keeps Val range size (ofGroup inputs g) (gs g) := by
  induction inputs using List.reverseRecOn with
  | nil => exact ⟨_, rfl, fun g => rfl⟩
  | append_singleton inputs i ih =>
    obtain ⟨gs, hrun, hgs⟩ := ih hfits.before
    have hfits' := hfits.group i.group
    have hof : ofGroup (inputs ++ [i]) i.group = ofGroup inputs i.group ++ [i] := by
      simp [ofGroup]
    rw [hof] at hfits'
    obtain ⟨st, hst, hok⟩ := group_step hm hsize (mem i.group) (hgs i.group) hfits'
    have hproc : process bi mem range size gs i = .ok (Function.update gs i.group (some st)) := by
      rw [process]
      cases hg : gs i.group with
      | none =>
        rw [hg] at hst
        simp only [hst]
        rfl
      | some old =>
        rw [hg] at hst
        simp only [hst]
        rfl
    refine ⟨Function.update gs i.group (some st), ?_, fun g => ?_⟩
    · rw [processAll] at hrun ⊢
      rw [List.foldlM_append, hrun, ok_bind, List.foldlM_cons, hproc]
      rfl
    · by_cases hg : g = i.group
      · subst hg
        rw [Function.update_self, hof]
        exact hok
      · have hsame : ofGroup (inputs ++ [i]) g = ofGroup inputs g := by
          simp [ofGroup, Ne.symm hg]
        rw [Function.update_of_ne hg, hsame]
        exact hgs g

def Exact (bi : Builtin α σ) (Val : List α → σ → Prop) (mem : G → Addr → Tuple 0 (WinTuple α))
    (range : RangeType) (size : Nat) (window : List (Input G α) → List α)
    (inputs : List (Input G α)) : Prop :=
  ∃ gs, processAll bi mem range size inputs = .ok gs ∧
    ∀ g, ofGroup inputs g ≠ [] → ∃ st, gs g = some st ∧ Val (window (ofGroup inputs g)) st.value

theorem Maintains.exact (hm : Maintains bi Keeps Val) (hsize : 1 ≤ size)
    (mem : G → Addr → Tuple 0 (WinTuple α)) {inputs : List (Input G α)} (hfits : Fits range inputs) :
    Exact bi Val mem range size (windowOf range size) inputs := by
  obtain ⟨gs, hrun, hgs⟩ := processAll_holds hm hsize mem hfits
  refine ⟨gs, hrun, fun g hne => ?_⟩
  have hok := hgs g
  rw [GroupOk] at hok
  cases hlast : (ofGroup inputs g).getLast? with
  | none => exact absurd (List.getLast?_eq_none_iff.mp hlast) hne
  | some last =>
    rw [hlast] at hok
    obtain ⟨st, hst, hholds, hid, -⟩ := hok
    refine ⟨st, hst, ?_⟩
    have hval := hholds.val
    rw [hid, inWindow_history range hsize hlast] at hval
    · exact hval
    · intro ht i hi
      subst ht
      exact ((hfits.group g).millis_range hi).1

end

/-- `SUM`, `COUNT`, `MIN` and `MAX` over the numbers of `α`. -/
structure NumericExact [DecidableEq G] [LinearOrder α] [AddCommGroup α] [IntCast α] [Inhabited α]
    (mem : G → Addr → Tuple 0 (WinTuple α)) (range : RangeType) (size : Nat)
    (inputs : List (Input G α)) : Prop where
  sum : Exact sumAggr (fun vals value => value = vals.sum) mem range size
    (windowOf range size) inputs
  count : Exact countAggr (fun vals value => value = (vals.length : Int)) mem range size
    (windowOf range size) inputs
  min : Exact minAggr (Best (· ≤ ·)) mem range size (windowOf range size) inputs
  max : Exact maxAggr (Best (· ≥ ·)) mem range size (windowOf range size) inputs

theorem numericExact [DecidableEq G] [LinearOrder α] [AddCommGroup α] [IntCast α] [Inhabited α]
    (mem : G → Addr → Tuple 0 (WinTuple α)) (range : RangeType) (hsize : 1 ≤ size)
    (hfits : Fits range inputs) :
    NumericExact mem range size inputs :=
  ⟨sumAggr_maintains.exact hsize mem hfits, countAggr_maintains.exact hsize mem hfits,
    minAggr_maintains.exact hsize mem hfits, maxAggr_maintains.exact hsize mem hfits⟩

def tupleAt (usec v : Int) : Input Unit Int := ⟨(), v, ⟨1, usec⟩, ⟨0, 0⟩⟩

def noTuple : Unit → Addr → Tuple 0 (WinTuple Int) :=
  fun _ _ => ⟨emptyKey, ⟨0, 0⟩, false, 0, 0, none⟩

/-- The values that arrived less than `size` milliseconds before the last one. -/
def youngerThan (size : Nat) (is : List (Input G α)) : List α :=
  (is.filter fun i =>
    ∀ last ∈ is.getLast?, timevalSubtract last.arrival i.arrival * 1000 < size).map Input.value

theorem Exact.window_unique [DecidableEq α] [Inhabited α] [DecidableEq G] {bi : Builtin α σ}
    {f : List α → σ} {mem : G → Addr → Tuple 0 (WinTuple α)}
    {window window' : List (Input G α) → List α}
    (h : Exact bi (fun vals value => value = f vals) mem range size window inputs)
    (h' : Exact bi (fun vals value => value = f vals) mem range size window' inputs) {g : G}
    (hne : ofGroup inputs g ≠ []) :
    f (window (ofGroup inputs g)) = f (window' (ofGroup inputs g)) := by
  obtain ⟨gs, hrun, hgs⟩ := h
  obtain ⟨gs', hrun', hgs'⟩ := h'
  rw [hrun] at hrun'
  cases hrun'
  obtain ⟨st, hst, hval⟩ := hgs g hne
  obtain ⟨st', hst', hval'⟩ := hgs' g hne
  rw [hst] at hst'
  cases hst'
  rw [← hval, hval']

theorem ofGroup_replicate (n : Nat) :
    ofGroup (List.replicate n (tupleAt 0 1)) () = List.replicate n (tupleAt 0 1) := by
  simp [ofGroup]

theorem sumAggr_replicate (hpos : 0 < n) (hlt : n < 2 ^ 32) :
    ∃ gs st, processAll sumAggr noTuple .count 1 (List.replicate n (tupleAt 0 1)) = .ok gs ∧
      gs () = some st ∧ st.win.Holds [⟨1, n⟩] ∧ st.value = 1 ∧ st.win.size = 1 ∧
      st.win.tupleId = n := by
  have hfits : Fits .count (List.replicate n (tupleAt 0 1)) := by
    intro g
    rw [ofGroup_replicate, List.length_replicate]
    exact hlt
  obtain ⟨gs, hrun, hgs⟩ := processAll_holds sumAggr_maintains le_rfl noTuple hfits
  have hlast : (List.replicate n (tupleAt 0 1)).getLast? = some (tupleAt 0 1) := by
    simp [List.getLast?_replicate, hpos.ne']
  have hok := hgs ()
  rw [ofGroup_replicate, GroupOk, hlast] at hok
  obtain ⟨st, hst, hholds, hid, -⟩ := hok
  rw [idOf, List.length_replicate] at hid
  obtain ⟨es, hes, hkeeps, hval⟩ := hholds.keeps
  have hwin : es.map WinTuple.value = [1] := by
    have hin := inWindow_history .count le_rfl hlast (by simp)
    have hlen : n - (n - 1) = 1 := by omega
    rw [idOf, List.length_replicate] at hin
    rw [hkeeps, hid, hin]
    simp [windowOf, hlen, tupleAt]
  obtain ⟨d, rfl⟩ : ∃ d, es = [d] := by
    have hlen : es.length = 1 := by
      rw [← List.length_map, hwin]
      rfl
    exact List.length_eq_one_iff.mp hlen
  have hmem : d ∈ inWindow 1 st.win.tupleId (history .count (List.replicate n (tupleAt 0 1))) := by
    rw [← hkeeps]
    exact List.mem_singleton_self d
  obtain ⟨hmem, hleft⟩ := List.mem_filter.mp hmem
  have hle := hholds.last d hmem
  simp only [left, Bool.not_eq_true', decide_eq_false_iff_not] at hleft
  have hd : d = ⟨1, n⟩ := by
    cases d with
    | mk value tupleId =>
      have hone : value = 1 := by simpa using hwin
      have hidn : tupleId = n := by
        simp only at hle hleft
        omega
      rw [hone, hidn]
  subst hd
  refine ⟨gs, st, hrun, hst, hes, ?_, hholds.winSize, hid⟩
  rw [hval, ← hkeeps]
  rfl

/-- When the count starts again at `0`, the tuple before is not expired. -/
theorem sumAggr_wrap (hn : n + 1 = 2 ^ 32) {st : GbStatus Int Int} (hes : st.win.Holds [⟨1, n⟩])
    (hvalue : st.value = 1) (hsize : st.win.size = 1) (hid : st.win.tupleId = n) :
    ∃ st', aggrIterate sumAggr st none 1 = .ok st' ∧ st'.value = 2 := by
  have hu : (st.win.updateTupleID none).Holds [⟨1, n⟩] := hes
  have hu0 : (st.win.updateTupleID none).tupleId = 0 := by
    rw [Winbuf.updateTupleID, hid, hn]
    exact Nat.mod_self _
  obtain ⟨w, hput, hw, hs, hid', -⟩ := put_holds hu 1
  obtain ⟨w', hget, -⟩ := getExpired_holds hw
  have hstay : expired w.size w.tupleId n = false := by
    have hs1 : w.size = 1 := hs.trans hsize
    rw [hid', hu0, expired]
    simp
    omega
  rw [List.singleton_append, List.head?_cons, Option.filter_some, hstay] at hget
  refine ⟨{ value := 2, win := w' }, ?_, rfl⟩
  rw [aggrIterate, hput, ok_bind, expireLoop, hget]
  simp only [ok_bind, sumAggr, hvalue]
  rfl

theorem wrap_not_exact (hn : n + 1 = 2 ^ 32) :
    ¬ Exact sumAggr (fun vals value => value = vals.sum) noTuple .count 1 (windowOf .count 1)
      (List.replicate (n + 1) (tupleAt 0 1)) := by
  intro h
  have hpos : 0 < n := by omega
  obtain ⟨gs, st, hrun, hst, hes, hvalue, hsize, hid⟩ := sumAggr_replicate hpos (by omega)
  obtain ⟨st', hiter, hvalue'⟩ := sumAggr_wrap hn hes hvalue hsize hid
  obtain ⟨gs', hrun', hgs'⟩ := h
  have hproc : process sumAggr noTuple .count 1 gs (tupleAt 0 1) =
      .ok (Function.update gs () (some st')) := by
    rw [process, tupleAt]
    simp only [hst]
    rw [Input.ts, hiter]
    rfl
  rw [processAll] at hrun hrun'
  rw [List.replicate_succ', List.foldlM_append, hrun, ok_bind, List.foldlM_cons, hproc] at hrun'
  cases hrun'
  obtain ⟨st'', hst'', hval⟩ := hgs' () (by simp [ofGroup_replicate])
  cases hst''
  have hlen : n + 1 - n = 1 := by omega
  rw [hvalue', ofGroup_replicate, windowOf] at hval
  simp [hlen, tupleAt] at hval

end StreamMill.Window
