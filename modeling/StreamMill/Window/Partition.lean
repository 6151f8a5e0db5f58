import StreamMill.Lib.Range
import StreamMill.Window.Exact

/-!
# StreamMill.Window.Partition

The code that `transCallUDA` of `semant_aggr.cc` generates for a user-defined aggregate with an
EXPIRE routine over a window of time with a partition list. Each partition has its own window; one
list of pointers to windows has an element for every tuple, in the order of arrival. ITERATE
expires the tuples of all partitions along it. `eager_expiry` says what the windows hold and which
calls of EXPIRE there were. The routines are functions on a state.
-/

namespace StreamMill.Window

open ImDb Lib

/-- What `put` with a key stores besides the id of the window: the arguments, the key of the
partition and the place in the list. -/
structure Keyed (δ G : Type) where
  data : δ
  gbkey : G
  id : Nat
  deriving DecidableEq, Inhabited

/-- `A_timeexp_`. A window is known by its partition. -/
structure Timeexp (G : Type) where
  deleted : Bool
  wbuf : G

def timeexp {G : Type} (wbuf : G) : Timeexp G := { deleted := false, wbuf := wbuf }

inductive Routine where
  | init
  | iterate
  | expire
  deriving DecidableEq

structure Uda (δ σ : Type) where
  init : δ → σ
  iterate : σ → δ → σ
  expire : σ → δ → σ

/-- A call of a routine: for which partition, with which arguments, and the state it finds. -/
structure Call (G δ σ : Type) where
  routine : Routine
  group : G
  args : δ
  state : Option σ

/-- The fields of `gb_status` for the aggregate. -/
structure UdaStatus (G δ σ : Type) where
  state : σ
  win : Winbuf (Keyed δ G)

/-- `status` is the hash table; `calls` is what has been called so far. -/
structure Partitions (G δ σ : Type) where
  status : G → Option (UdaStatus G δ σ)
  list : List (Timeexp G)
  index : Nat
  calls : List (Call G δ σ)

section

variable {G δ σ : Type}

def Winbuf.putKeyed (w : Winbuf (Keyed δ G)) (data : δ) (gbkey : G) (id : Nat) :
    Except Fault (Winbuf (Keyed δ G)) :=
  w.put ⟨data, gbkey, id⟩

/-- `hash_get`, which must find the partition. -/
def Partitions.get (s : Partitions G δ σ) (g : G) : Except Fault (UdaStatus G δ σ) :=
  match s.status g with
  | none => .error .exit
  | some st => .ok st

/-- `(index == list->size()) ? NULL : (*list)[index]->wbuf` -/
def Partitions.wbuf (s : Partitions G δ σ) : Option G := s.list[s.index]?.map Timeexp.wbuf

/-- `while (wbuf && (*list)[index]->deleted) index++` -/
def skipDeleted : List (Timeexp G) → Nat → Nat
  | [], index => index
  | e :: list, index => if e.deleted then skipDeleted list (index + 1) else index

variable [DecidableEq G]

def Partitions.set (s : Partitions G δ σ) (g : G) (st : UdaStatus G δ σ) : Partitions G δ σ :=
  { s with status := Function.update s.status g (some st) }

def Partitions.next (s : Partitions G δ σ) (atime : Timeval) : Except Fault (Partitions G δ σ) := do
  let s := { s with index := skipDeleted (s.list.drop s.index) s.index }
  match s.wbuf with
  | none => return s
  | some g => do
    let st ← s.get g
    return s.set g { st with win := st.win.updateTupleID (some atime) }

def Partitions.callInit (u : Uda δ σ) (s : Partitions G δ σ) (g : G) (args : δ)
    (win : Winbuf (Keyed δ G)) : Partitions G δ σ :=
  { s.set g { state := u.init args, win } with
    calls := s.calls ++ [⟨.init, g, args, none⟩] }

def Partitions.call (s : Partitions G δ σ) (routine : Routine) (f : σ → δ → σ) (g : G) (args : δ) :
    Except Fault (Partitions G δ σ) := do
  let st ← s.get g
  return { s.set g { st with state := f st.state args } with
    calls := s.calls ++ [⟨routine, g, args, some st.state⟩] }

variable [DecidableEq δ] [Inhabited G] [Inhabited δ]

/-- The loop `while (wbuf && wbuf->hasExpired())`. EXPIRE gets the state of the partition whose key
is stored with the tuple. -/
def expirePartitions (u : Uda δ σ) (atime : Timeval) :
    Nat → Partitions G δ σ → Except Fault (Partitions G δ σ)
  | 0, _ => .error .loop
  | fuel + 1, s =>
    match s.wbuf with
    | none => .ok s
    | some g => do
      let st ← s.get g
      let (w, windata) ← st.win.getExpired
      let s := s.set g { st with win := w }
      match windata with
      | none => return s
      | some windata => do
        let s ← s.call .expire u.expire windata.gbkey windata.data
        let st ← s.get g
        let w ← st.win.pop
        let s := s.set g { st with win := w }
        let list := s.list.modify s.index fun e => { e with deleted := true }
        let s ← { s with list, index := s.index + 1 }.next atime
        expirePartitions u atime fuel s

def processPartition (u : Uda δ σ) (mem : G → Addr → Tuple 0 (WinTuple (Keyed δ G))) (size : Nat)
    (s : Partitions G δ σ) (i : Input G δ) : Except Fault (Partitions G δ σ) :=
  match s.status i.group with
  | none => do
    let w := (newWinbuf (mem i.group) size).updateTupleID (some i.arrival)
    let w ← w.putKeyed i.value i.group s.list.length
    let s := { s with list := s.list ++ [timeexp i.group] }
    return s.callInit u i.group i.value w
  | some st => do
    let w ← (st.win.updateTupleID (some i.arrival)).putKeyed i.value i.group s.list.length
    let s := { s.set i.group { st with win := w } with list := s.list ++ [timeexp i.group] }
    let s ← s.next i.arrival
    let s ← expirePartitions u i.arrival (s.list.length + 1) s
    s.call .iterate u.iterate i.group i.value

def processPartitions (u : Uda δ σ) (mem : G → Addr → Tuple 0 (WinTuple (Keyed δ G)))
    (size : Nat) (inputs : List (Input G δ)) : Except Fault (Partitions G δ σ) :=
  inputs.foldlM (processPartition u mem size)
    { status := fun _ => none, list := [], index := 0, calls := [] }

end

/-! ## What a run keeps -/

variable {G δ σ : Type} [DecidableEq G]

def Whole (inputs : List (Input G δ)) : Prop := ∀ i ∈ inputs, (1000 : Int) ∣ i.arrival.usec

/-- `i` has been there for `size` milliseconds at the time `t`. -/
def old (size : Nat) (t : Timeval) (i : Input G δ) : Bool :=
  (size : ℚ) ≤ timevalSubtract t i.arrival * 1000

/-- The record of the `k`-th tuple in the window of its partition. -/
def record (inputs : List (Input G δ)) (p : Input G δ × Nat) : WinTuple (Keyed δ G) :=
  ⟨⟨p.1.value, p.1.group, p.2⟩,
    (millis (start (ofGroup inputs p.1.group)) p.1.arrival).toNat⟩

def records (inputs : List (Input G δ)) : List (WinTuple (Keyed δ G)) :=
  inputs.zipIdx.map (record inputs)

/-- `getExpired` finds the record once the clock of its partition is set to `t`. -/
def due (inputs : List (Input G δ)) (size : Nat) (t : Timeval) (d : WinTuple (Keyed δ G)) : Bool :=
  d.tupleId + size ≤ (millis (start (ofGroup inputs d.value.gbkey)) t).toNat

def runCall (u : Uda δ σ) (state : Option σ) (c : Call G δ σ) : Option σ :=
  match c.routine with
  | .init => some (u.init c.args)
  | .iterate => state.map fun s => u.iterate s c.args
  | .expire => state.map fun s => u.expire s c.args

def stateOf (u : Uda δ σ) (calls : List (Call G δ σ)) (g : G) : Option σ :=
  (calls.filter fun c => c.group = g).foldl (runCall u) none

/-- Every call finds the state that the calls before it have left in its partition. -/
def Coherent (u : Uda δ σ) (calls : List (Call G δ σ)) : Prop :=
  ∀ before c after, calls = before ++ c :: after → c.state = stateOf u before c.group

/-- For which partitions and arguments the routines `p` were called. -/
def callArgs (p : Routine → Bool) (calls : List (Call G δ σ)) : List (G × δ) :=
  (calls.filter fun c => p c.routine).map fun c => (c.group, c.args)

/-- A window of the partition that started at `t₀`. -/
structure WinOk (size : Nat) (t₀ : Timeval) (es : List (WinTuple (Keyed δ G)))
    (w : Winbuf (Keyed δ G)) : Prop where
  holds : w.Holds es
  size : w.size = size
  first : w.first = false
  firstTs : w.firstTs = t₀

def groupLive (live : List (WinTuple (Keyed δ G))) (g : G) : List (WinTuple (Keyed δ G)) :=
  live.filter fun d => d.value.gbkey = g

/-- The list stands at the first tuple of `live`, and the windows hold the tuples of `live`. -/
structure Queued (size : Nat) (inputs : List (Input G δ)) (live : List (WinTuple (Keyed δ G)))
    (s : Partitions G δ σ) : Prop where
  new : ∀ g, ofGroup inputs g = [] → s.status g = none
  window : ∀ g, ofGroup inputs g ≠ [] → ∃ st, s.status g = some st ∧
    WinOk size (start (ofGroup inputs g)) (groupLive live g) st.win
  list : s.list.drop s.index = live.map fun d => timeexp d.value.gbkey
  length : s.list.length = inputs.length
  index : s.index + live.length = inputs.length
  known : ∀ d ∈ live, ofGroup inputs d.value.gbkey ≠ []

/-- The states are those that the calls have left. -/
structure Logged (u : Uda δ σ) (s : Partitions G δ σ) : Prop where
  coherent : Coherent u s.calls
  state : ∀ g, (s.status g).map UdaStatus.state = stateOf u s.calls g

variable {u : Uda δ σ} {s s' : Partitions G δ σ} {size : Nat} {inputs : List (Input G δ)}
  {live : List (WinTuple (Keyed δ G))} {t : Timeval}

omit [DecidableEq G] in
theorem callArgs_concat (p : Routine → Bool) (calls : List (Call G δ σ)) (c : Call G δ σ) :
    callArgs p (calls ++ [c]) =
      callArgs p calls ++ if p c.routine then [(c.group, c.args)] else [] := by
  rw [callArgs, List.filter_append, List.map_append, ← callArgs]
  cases h : p c.routine with
  | true => simp [h]
  | false => simp [h]

theorem stateOf_concat (calls : List (Call G δ σ)) (c : Call G δ σ) (g : G) :
    stateOf u (calls ++ [c]) g =
      if c.group = g then runCall u (stateOf u calls g) c else stateOf u calls g := by
  rw [stateOf, List.filter_append, List.foldl_append, ← stateOf]
  by_cases h : c.group = g
  · simp [h]
  · simp [h]

theorem Coherent.concat {calls : List (Call G δ σ)} (h : Coherent u calls) {c : Call G δ σ}
    (hc : c.state = stateOf u calls c.group) : Coherent u (calls ++ [c]) := by
  intro before c' after heq
  rcases List.eq_nil_or_concat after with rfl | ⟨after, c'', rfl⟩
  · obtain ⟨rfl, hlast⟩ := List.append_inj' heq rfl
    cases hlast
    exact hc
  · rw [List.concat_eq_append, ← List.cons_append, ← List.append_assoc] at heq
    exact h before c' after (List.append_inj' heq rfl).1

theorem Logged.call (h : Logged u s) {g : G} {st : UdaStatus G δ σ} {c : Call G δ σ}
    (hg : c.group = g) (hc : c.state = (s.status g).map UdaStatus.state)
    (hrun : some st.state = runCall u ((s.status g).map UdaStatus.state) c)
    (hstatus : s'.status = Function.update s.status g (some st))
    (hcalls : s'.calls = s.calls ++ [c]) : Logged u s' := by
  subst hg
  rw [h.state] at hc hrun
  refine ⟨?_, fun g => ?_⟩
  · rw [hcalls]
    exact h.coherent.concat hc
  · rw [hcalls, stateOf_concat, hstatus]
    by_cases hg : c.group = g
    · subst hg
      rw [if_pos rfl, ← hrun, Function.update_self]
      rfl
    · rw [if_neg hg, ← h.state, Function.update_of_ne (Ne.symm hg)]

variable {g : G} {st : UdaStatus G δ σ} {w : Winbuf (Keyed δ G)} {d : WinTuple (Keyed δ G)}
  {j : Input G δ} {t₀ : Timeval}

theorem Logged.window (h : Logged u s) (hst : s.status g = some st)
    (hstatus : s'.status = Function.update s.status g (some { st with win := w }))
    (hcalls : s'.calls = s.calls) : Logged u s' := by
  refine ⟨hcalls ▸ h.coherent, fun g' => ?_⟩
  rw [hcalls, ← h.state, hstatus]
  by_cases hg : g' = g
  · subst hg
    rw [Function.update_self, hst]
    rfl
  · rw [Function.update_of_ne hg]

omit [DecidableEq G] in
theorem get_some (h : s.status g = some st) : s.get g = .ok st := by
  rw [Partitions.get, h]

theorem set_status (g : G) (st : UdaStatus G δ σ) : (s.set g st).status g = some st :=
  Function.update_self ..

theorem get_update (f : G → Option (UdaStatus G δ σ)) (g : G)
    (st : UdaStatus G δ σ) (list : List (Timeexp G)) (index : Nat) (calls : List (Call G δ σ)) :
    (⟨Function.update f g (some st), list, index, calls⟩ : Partitions G δ σ).get g = .ok st :=
  get_some (Function.update_self ..)

theorem call_some (h : s.status g = some st) (routine : Routine) (f : σ → δ → σ) (args : δ) :
    s.call routine f g args = .ok
      { s.set g { st with state := f st.state args } with
        calls := s.calls ++ [⟨routine, g, args, some st.state⟩] } := by
  rw [Partitions.call, get_some h]
  rfl

theorem Queued.window_update (h : Queued size inputs live s) {live' : List (WinTuple (Keyed δ G))}
    (hw : WinOk size (start (ofGroup inputs g)) (groupLive live' g) st.win)
    (hother : ∀ g', g' ≠ g → groupLive live' g' = groupLive live g') (g' : G)
    (hg' : ofGroup inputs g' ≠ []) :
    ∃ st', Function.update s.status g (some st) g' = some st' ∧
      WinOk size (start (ofGroup inputs g')) (groupLive live' g') st'.win := by
  by_cases he : g' = g
  · subst he
    exact ⟨st, Function.update_self .., hw⟩
  · obtain ⟨st', hst', hw'⟩ := h.window g' hg'
    refine ⟨st', ?_, ?_⟩
    · rw [Function.update_of_ne he, hst']
    · rw [hother g' he]
      exact hw'

theorem Queued.new_update (h : Queued size inputs live s) (hg : ofGroup inputs g ≠ [])
    (o : Option (UdaStatus G δ σ)) (g' : G) (hg' : ofGroup inputs g' = []) :
    Function.update s.status g o g' = none := by
  have hne : g' ≠ g := by
    intro he
    exact hg (he ▸ hg')
  rw [Function.update_of_ne hne, h.new g' hg']

theorem Queued.exchange (h : Queued size inputs live s) (hg : ofGroup inputs g ≠ [])
    (hw : WinOk size (start (ofGroup inputs g)) (groupLive live g) st.win)
    (hstatus : s'.status = Function.update s.status g (some st)) (hlist : s'.list = s.list)
    (hindex : s'.index = s.index) : Queued size inputs live s' := by
  refine ⟨?_, ?_, by rw [hlist, hindex, h.list], by rw [hlist, h.length],
    by rw [hindex, h.index], h.known⟩
  · rw [hstatus]
    exact h.new_update hg _
  · rw [hstatus]
    exact h.window_update hw fun _ _ => rfl

theorem groupLive_cons (d : WinTuple (Keyed δ G)) (live : List (WinTuple (Keyed δ G))) :
    groupLive (d :: live) d.value.gbkey = d :: groupLive live d.value.gbkey := by
  simp [groupLive]

theorem groupLive_cons_of_ne (live : List (WinTuple (Keyed δ G))) (h : g ≠ d.value.gbkey) :
    groupLive (d :: live) g = groupLive live g := by
  simp [groupLive, Ne.symm h]

theorem Queued.pop (h : Queued size inputs (d :: live) s)
    (hw : WinOk size (start (ofGroup inputs d.value.gbkey)) (groupLive live d.value.gbkey) st.win)
    (hstatus : s'.status = Function.update s.status d.value.gbkey (some st))
    {f : Timeexp G → Timeexp G} (hlist : s'.list = s.list.modify s.index f)
    (hindex : s'.index = s.index + 1) : Queued size inputs live s' := by
  refine ⟨?_, ?_, ?_, ?_, ?_, fun e he => h.known e (List.mem_cons_of_mem _ he)⟩
  · rw [hstatus]
    exact h.new_update (h.known d List.mem_cons_self) _
  · rw [hstatus]
    exact h.window_update hw fun g' hg' => (groupLive_cons_of_ne live hg').symm
  · have hdrop := congrArg (List.drop 1) h.list
    rw [List.drop_drop] at hdrop
    rw [hlist, hindex, List.drop_modify_of_lt _ _ _ _ (Nat.lt_succ_self _), hdrop]
    rfl
  · rw [hlist, List.length_modify, h.length]
  · have hlen := h.index
    rw [List.length_cons] at hlen
    omega

/-! ## The records -/

variable {is : List (Input G δ)} {i : Input G δ}

theorem ofGroup_concat (is : List (Input G δ)) (i : Input G δ) (g : G) :
    ofGroup (is ++ [i]) g = ofGroup is g ++ if i.group = g then [i] else [] := by
  rw [ofGroup, List.filter_append, ← ofGroup]
  by_cases h : i.group = g
  · simp [h]
  · simp [h]

theorem start_ofGroup_concat (i : Input G δ) (h : ofGroup is g ≠ []) :
    start (ofGroup (is ++ [i]) g) = start (ofGroup is g) := by
  rw [ofGroup_concat]
  split
  · exact start_concat i h
  · rw [List.append_nil]

theorem ofGroup_ne_nil (hj : j ∈ is) : ofGroup is j.group ≠ [] :=
  List.ne_nil_of_mem (List.mem_filter.mpr ⟨hj, decide_eq_true rfl⟩)

theorem records_concat (is : List (Input G δ)) (i : Input G δ) :
    records (is ++ [i]) = records is ++ [record (is ++ [i]) (i, is.length)] := by
  rw [records, List.zipIdx_append, List.map_append]
  congr 1
  · refine List.map_congr_left fun p hp => ?_
    have hne := ofGroup_ne_nil (List.fst_mem_of_mem_zipIdx hp)
    rw [record, start_ofGroup_concat i hne, ← record]
  · simp

theorem Queued.put (h : Queued size is live s) (hd : d.value.gbkey = i.group)
    (hw : WinOk size (start (ofGroup (is ++ [i]) i.group)) (groupLive live i.group ++ [d]) st.win)
    (hstatus : s'.status = Function.update s.status i.group (some st))
    (hlist : s'.list = s.list ++ [timeexp i.group]) (hindex : s'.index = s.index) :
    Queued size (is ++ [i]) (live ++ [d]) s' := by
  have hlen := h.index
  have hlist_len := h.length
  refine ⟨fun g hg => ?_, fun g hg => ?_, ?_, ?_, ?_, fun e he => ?_⟩
  · rw [ofGroup_concat, List.append_eq_nil_iff] at hg
    have hne : g ≠ i.group := by
      intro he
      simp [he] at hg
    rw [hstatus, Function.update_of_ne hne, h.new g hg.1]
  · rw [hstatus]
    by_cases he : g = i.group
    · subst he
      refine ⟨st, Function.update_self .., ?_⟩
      have hlive : groupLive (live ++ [d]) i.group = groupLive live i.group ++ [d] := by
        simp [groupLive, hd]
      rw [hlive]
      exact hw
    · have hlive : groupLive (live ++ [d]) g = groupLive live g := by
        simp [groupLive, hd, Ne.symm he]
      rw [ofGroup_concat, if_neg (Ne.symm he), List.append_nil] at hg ⊢
      rw [Function.update_of_ne he, hlive]
      exact h.window g hg
  · rw [hlist, hindex, List.drop_append_of_le_length (by omega), h.list, List.map_append, ← hd]
    rfl
  · rw [hlist, List.length_append, List.length_append, hlist_len]
    rfl
  · rw [List.length_append, List.length_append]
    simp only [List.length_singleton]
    omega
  · rw [ofGroup_concat]
    rcases List.mem_append.mp he with he | he
    · exact fun hnil => h.known e he (List.append_eq_nil_iff.mp hnil).1
    · rw [List.mem_singleton.mp he, hd]
      simp

theorem Fits.until_last (h : Fits .time (is ++ [i])) (hj : j ∈ is ++ [i]) :
    0 ≤ timevalSubtract i.arrival j.arrival ∧
      timevalSubtract i.arrival j.arrival * 1000 < 2 ^ 31 := by
  rcases List.mem_append.mp hj with hj | hj
  · exact (List.pairwise_append.mp h).2.2 j hj i (by simp)
  · rw [List.mem_singleton.mp hj]
    simp [timevalSubtract]

theorem start_mem (h : ofGroup is g ≠ []) :
    ∃ j ∈ is, start (ofGroup is g) = j.arrival := by
  cases hof : ofGroup is g with
  | nil => exact absurd hof h
  | cons j js =>
    have hj : j ∈ ofGroup is g := by
      rw [hof]
      exact List.mem_cons_self
    exact ⟨j, List.mem_of_mem_filter hj, rfl⟩

/-- The tuples have arrived until `t`, and `t` fits the clocks of their partitions. -/
def InTime (inputs : List (Input G δ)) (t : Timeval) (live : List (WinTuple (Keyed δ G))) : Prop :=
  ∀ d ∈ live, d.tupleId ≤ (millis (start (ofGroup inputs d.value.gbkey)) t).toNat ∧
    (millis (start (ofGroup inputs d.value.gbkey)) t).toNat < 2 ^ 32

theorem Fits.inTime (h : Fits .time (is ++ [i])) :
    InTime (is ++ [i]) i.arrival (records (is ++ [i])) := by
  intro d hd
  obtain ⟨p, hp, rfl⟩ := List.mem_map.mp hd
  have hmem := List.fst_mem_of_mem_zipIdx hp
  obtain ⟨j, hj, hstart⟩ := start_mem (ofGroup_ne_nil hmem)
  have hlt := millis_lt (h.until_last hj).2
  refine ⟨Int.toNat_le_toNat (millis_mono (h.until_last hmem).1), ?_⟩
  simp only [record, hstart]
  omega

/-! ## A step of the loop -/

def Ready (inputs : List (Input G δ)) (t : Timeval) (live : List (WinTuple (Keyed δ G)))
    (s : Partitions G δ σ) : Prop :=
  ∀ d ∈ live.head?, ∀ st, s.status d.value.gbkey = some st →
    st.win.tupleId = (millis (start (ofGroup inputs d.value.gbkey)) t).toNat

omit [DecidableEq G] in
theorem WinOk.updateTupleID {es : List (WinTuple (Keyed δ G))} (h : WinOk size t₀ es w)
    (hlt : (millis t₀ t).toNat < 2 ^ 32) :
    WinOk size t₀ es (w.updateTupleID (some t)) ∧
      (w.updateTupleID (some t)).tupleId = (millis t₀ t).toNat := by
  obtain ⟨hholds, hsize, hfirst, hts⟩ := h
  refine ⟨⟨hholds, hsize, rfl, ?_⟩, ?_⟩
  · simp [Winbuf.updateTupleID, hfirst, hts]
  · simp only [Winbuf.updateTupleID, hfirst, hts]
    exact Nat.mod_eq_of_lt hlt

omit [DecidableEq G] in
theorem skipDeleted_live (live : List (WinTuple (Keyed δ G))) (index : Nat) :
    skipDeleted (live.map fun d => timeexp d.value.gbkey) index = index := by
  cases live <;> rfl

theorem Queued.wbuf (h : Queued size inputs live s) :
    s.wbuf = live.head?.map fun d => d.value.gbkey := by
  rw [Partitions.wbuf, ← List.head?_drop, h.list, List.head?_map, Option.map_map]
  rfl

theorem next_holds (hq : Queued size inputs live s) (hl : Logged u s)
    (ht : InTime inputs t live) :
    ∃ s', s.next t = .ok s' ∧ Queued size inputs live s' ∧ Logged u s' ∧ s'.calls = s.calls ∧
      Ready inputs t live s' := by
  have hskip : ({ s with index := skipDeleted (s.list.drop s.index) s.index } :
      Partitions G δ σ) = s := by
    rw [hq.list, skipDeleted_live]
  rw [Partitions.next]
  simp only [hskip, hq.wbuf]
  cases live with
  | nil => exact ⟨s, rfl, hq, hl, rfl, fun d hd => by cases hd⟩
  | cons d live =>
    have hknown := hq.known d List.mem_cons_self
    obtain ⟨st, hst, hw⟩ := hq.window d.value.gbkey hknown
    obtain ⟨hw', hid⟩ := hw.updateTupleID (ht d List.mem_cons_self).2
    simp only [List.head?_cons, Option.map_some, get_some hst, ok_bind]
    refine ⟨_, rfl, hq.exchange hknown hw' rfl rfl rfl, hl.window hst rfl rfl, rfl, ?_⟩
    intro d' hd' st' hst'
    cases hd'
    rw [set_status] at hst'
    cases hst'
    exact hid

variable [DecidableEq δ] [Inhabited G] [Inhabited δ]

theorem expire_due (hq : Queued size inputs (d :: live) s) (hl : Logged u s)
    (ht : InTime inputs t (d :: live)) (hr : Ready inputs t (d :: live) s)
    (hdue : due inputs size t d = true) (fuel : Nat) :
    ∃ s', expirePartitions u t (fuel + 1) s = expirePartitions u t fuel s' ∧
      Queued size inputs live s' ∧ Logged u s' ∧ Ready inputs t live s' ∧
      ∀ p, callArgs p s'.calls =
        callArgs p s.calls ++ if p .expire then [(d.value.gbkey, d.value.data)] else [] := by
  have hknown := hq.known d List.mem_cons_self
  obtain ⟨st, hst, hw⟩ := hq.window d.value.gbkey hknown
  obtain ⟨hle, -⟩ := ht d List.mem_cons_self
  have hid := hr d rfl st hst
  rw [groupLive_cons] at hw
  obtain ⟨w, hget, hw₁, hsame₁⟩ := getExpired_holds hw.holds
  have hexp : expired st.win.size st.win.tupleId d.tupleId = true := by
    rw [expired_iff (hid ▸ hle), hid, hw.size]
    exact hdue
  rw [List.head?_cons, Option.filter_some, hexp, if_pos rfl] at hget
  obtain ⟨w₂, hpop, hw₂, hsame₂⟩ := pop_holds hw₁
  obtain ⟨hs, -, hf, hts⟩ := hsame₁.trans hsame₂
  have hw₂' : WinOk size (start (ofGroup inputs d.value.gbkey)) (groupLive live d.value.gbkey) w₂ :=
    ⟨hw₂, hs.trans hw.size, hf.trans hw.first, hts.trans hw.firstTs⟩
  -- the state between two turns, once the record is gone
  let s₁ : Partitions G δ σ :=
    { status := Function.update s.status d.value.gbkey (some ⟨u.expire st.state d.value.data, w₂⟩)
      list := s.list.modify s.index fun e => { e with deleted := true }
      index := s.index + 1
      calls := s.calls ++ [⟨.expire, d.value.gbkey, d.value.data, some st.state⟩] }
  have hq₁ : Queued size inputs live s₁ := hq.pop hw₂' rfl rfl rfl
  have hl₁ : Logged u s₁ := by
    refine hl.call rfl ?_ ?_ rfl rfl
    · rw [hst]
      rfl
    · rw [hst]
      rfl
  obtain ⟨s₂, hnext, hq₂, hl₂, hcalls, hr₂⟩ :=
    next_holds hq₁ hl₁ fun e he => ht e (List.mem_cons_of_mem _ he)
  refine ⟨s₂, ?_, hq₂, hl₂, hr₂, fun p => ?_⟩
  · rw [expirePartitions, hq.wbuf]
    simp only [List.head?_cons, Option.map_some, get_some hst, ok_bind, hget,
      call_some (set_status d.value.gbkey _)]
    simp only [Partitions.set, get_update, ok_bind, hpop, Function.update_idem]
    rw [hnext]
    rfl
  · rw [hcalls, callArgs_concat]

section

variable (hq : Queued size inputs live s) (hl : Logged u s) (ht : InTime inputs t live)
  (hr : Ready inputs t live s)
include hq hl ht hr

theorem expire_stop (hdue : ∀ d ∈ live.head?, due inputs size t d = false) (fuel : Nat) :
    ∃ s', expirePartitions u t (fuel + 1) s = .ok s' ∧ Queued size inputs live s' ∧ Logged u s' ∧
      s'.calls = s.calls := by
  rw [expirePartitions, hq.wbuf]
  cases live with
  | nil => exact ⟨s, rfl, hq, hl, rfl⟩
  | cons d live =>
    have hknown := hq.known d List.mem_cons_self
    obtain ⟨st, hst, hw⟩ := hq.window d.value.gbkey hknown
    obtain ⟨hle, -⟩ := ht d List.mem_cons_self
    have hid := hr d rfl st hst
    obtain ⟨w, hget, hw₁, hs, -, hf, hts⟩ := getExpired_holds hw.holds
    have hexp : expired st.win.size st.win.tupleId d.tupleId = false := by
      rw [expired_iff (hid ▸ hle), hid, hw.size]
      exact hdue d rfl
    rw [groupLive_cons, List.head?_cons, Option.filter_some, hexp] at hget
    simp only [List.head?_cons, Option.map_some, get_some hst, ok_bind, hget]
    refine ⟨_, rfl, hq.exchange hknown ?_ rfl rfl rfl, hl.window hst rfl rfl, rfl⟩
    exact ⟨hw₁, hs.trans hw.size, hf.trans hw.first, hts.trans hw.firstTs⟩

theorem expirePartitions_holds {fuel : Nat} (hfuel : live.length < fuel) :
    ∃ s', expirePartitions u t fuel s = .ok s' ∧
      Queued size inputs (live.dropWhile (due inputs size t)) s' ∧ Logged u s' ∧
      ∀ p, callArgs p s'.calls = callArgs p s.calls ++ if p .expire then
        (live.takeWhile (due inputs size t)).map fun d => (d.value.gbkey, d.value.data) else [] := by
  induction live generalizing s fuel with
  | nil =>
    obtain ⟨fuel, rfl⟩ : ∃ f, fuel = f + 1 := ⟨fuel - 1, by omega⟩
    obtain ⟨s', hrun, hq', hl', hcalls⟩ :=
      expire_stop hq hl ht hr (fun d hd => by cases hd) fuel
    exact ⟨s', hrun, hq', hl', by simp [hcalls]⟩
  | cons d live ih =>
    obtain ⟨fuel, rfl⟩ : ∃ f, fuel = f + 1 := ⟨fuel - 1, by omega⟩
    cases hdue : due inputs size t d with
    | true =>
      obtain ⟨s₁, hstep, hq₁, hl₁, hr₁, hcalls₁⟩ := expire_due hq hl ht hr hdue fuel
      obtain ⟨s', hrun, hq', hl', hcalls⟩ :=
        ih hq₁ hl₁ (fun e he => ht e (List.mem_cons_of_mem _ he)) hr₁
          (Nat.lt_of_succ_lt_succ hfuel)
      refine ⟨s', hstep.trans hrun, ?_, hl', fun p => ?_⟩
      · rw [List.dropWhile_cons_of_pos hdue]
        exact hq'
      · rw [hcalls, hcalls₁, List.takeWhile_cons_of_pos hdue]
        cases p .expire with
        | true => simp
        | false => simp
    | false =>
      have hstop : ∀ e ∈ (d :: live).head?, due inputs size t e = false := by
        intro e he
        cases he
        exact hdue
      obtain ⟨s', hrun, hq', hl', hcalls⟩ := expire_stop hq hl ht hr hstop fuel
      have hneg : ¬ due inputs size t d = true := by simp [hdue]
      refine ⟨s', hrun, ?_, hl', fun p => ?_⟩
      · rw [List.dropWhile_cons_of_neg hneg]
        exact hq'
      · rw [hcalls, List.takeWhile_cons_of_neg hneg]
        simp

end


/-! ## A tuple -/

/-- The run over `is`: the tuples `gone` have been expired and `live` are left. -/
structure Running (u : Uda δ σ) (size : Nat) (is : List (Input G δ))
    (gone live : List (WinTuple (Keyed δ G))) (s : Partitions G δ σ) : Prop where
  split : records is = gone ++ live
  queued : Queued size is live s
  logged : Logged u s
  expired : callArgs (fun r => r = .expire) s.calls =
    gone.map fun d => (d.value.gbkey, d.value.data)
  tuples : callArgs (fun r => r ≠ .expire) s.calls = is.map fun i => (i.group, i.value)
  due : ∀ d ∈ gone, ∃ j ∈ is, due is size j.arrival d = true

variable {gone : List (WinTuple (Keyed δ G))}

omit [DecidableEq δ] [Inhabited G] [Inhabited δ] in
theorem due_concat (i : Input G δ) (hd : d ∈ records is) (t : Timeval) :
    due (is ++ [i]) size t d = due is size t d := by
  obtain ⟨p, hp, rfl⟩ := List.mem_map.mp hd
  have hne := ofGroup_ne_nil (List.fst_mem_of_mem_zipIdx hp)
  rw [due, due, record, start_ofGroup_concat i hne]

omit [DecidableEq δ] [Inhabited G] [Inhabited δ] in
theorem Running.due_concat (h : Running u size is gone live s) (i : Input G δ) :
    ∀ d ∈ gone, ∃ j ∈ is ++ [i], Window.due (is ++ [i]) size j.arrival d = true := by
  intro d hd
  obtain ⟨j, hj, hdue⟩ := h.due d hd
  have hmem : d ∈ records is := by
    rw [h.split]
    exact List.mem_append_left _ hd
  exact ⟨j, List.mem_append_left _ hj, (Window.due_concat i hmem _).trans hdue⟩

omit [DecidableEq G] [DecidableEq δ] [Inhabited G] [Inhabited δ] in
theorem putKeyed_holds {es : List (WinTuple (Keyed δ G))} (h : WinOk size t₀ es w) (data : δ)
    (g : G) (id : Nat) :
    ∃ w', w.putKeyed data g id = .ok w' ∧
      WinOk size t₀ (es ++ [⟨⟨data, g, id⟩, w.tupleId⟩]) w' := by
  obtain ⟨w', hput, hw', hs, -, hf, hts⟩ := put_holds h.holds ⟨data, g, id⟩
  exact ⟨w', hput, hw', hs.trans h.size, hf.trans h.first, hts.trans h.firstTs⟩

omit [DecidableEq G] [DecidableEq δ] [Inhabited G] [Inhabited δ] in
theorem winOk_new (mem : Addr → Tuple 0 (WinTuple (Keyed δ G))) (size : Nat) (t : Timeval) :
    WinOk size t [] ((newWinbuf mem size).updateTupleID (some t)) ∧
      ((newWinbuf mem size).updateTupleID (some t)).tupleId = 0 := by
  refine ⟨⟨newWinbuf_holds mem size, ?_, ?_, ?_⟩, ?_⟩
  · simp [newWinbuf, Winbuf.updateTupleID]
  · simp [Winbuf.updateTupleID]
  · simp [newWinbuf, Winbuf.updateTupleID]
  · simp [newWinbuf, Winbuf.updateTupleID, timevalSubtract]

section

variable (mem : G → Addr → Tuple 0 (WinTuple (Keyed δ G))) (h : Running u size is gone live s)
include mem h

theorem process_init (hnew : ofGroup is i.group = []) :
    ∃ s', processPartition u mem size s i = .ok s' ∧
      Running u size (is ++ [i]) gone (live ++ [record (is ++ [i]) (i, is.length)]) s' := by
  have hnone := h.queued.new _ hnew
  have hof : ofGroup (is ++ [i]) i.group = [i] := by
    rw [ofGroup_concat, hnew]
    simp
  have hlive : groupLive live i.group = [] := by
    rw [groupLive, List.filter_eq_nil_iff]
    intro d hd hg
    exact h.queued.known d hd (of_decide_eq_true hg ▸ hnew)
  obtain ⟨hw, hid⟩ := winOk_new (mem i.group) size i.arrival
  obtain ⟨w, hput, hw'⟩ := putKeyed_holds hw i.value i.group is.length
  have hrec : record (is ++ [i]) (i, is.length) =
      ⟨⟨i.value, i.group, is.length⟩, 0⟩ := by
    have hzero : millis (start [i]) i.arrival = 0 := millis_self i.arrival
    rw [record, hof, hzero]
    rfl
  let s' : Partitions G δ σ :=
    { status := Function.update s.status i.group (some ⟨u.init i.value, w⟩)
      list := s.list ++ [timeexp i.group]
      index := s.index
      calls := s.calls ++ [⟨.init, i.group, i.value, none⟩] }
  refine ⟨s', ?_, ?_, ?_, ?_, ?_, ?_, h.due_concat i⟩
  · rw [processPartition, hnone]
    simp only [h.queued.length, hput, ok_bind]
    rfl
  · rw [records_concat, h.split, List.append_assoc]
  · have hstatus : s'.status = Function.update s.status i.group (some ⟨u.init i.value, w⟩) := rfl
    refine h.queued.put (by rw [hrec]) ?_ hstatus rfl rfl
    rw [hlive, hrec, hof]
    rw [hid] at hw'
    exact hw'
  · have hstatus : s'.status = Function.update s.status i.group (some ⟨u.init i.value, w⟩) := rfl
    refine h.logged.call rfl ?_ rfl hstatus rfl
    rw [hnone]
    rfl
  · rw [callArgs_concat, h.expired]
    simp
  · rw [callArgs_concat, h.tuples]
    simp

theorem process_iterate (hfits : Fits .time (is ++ [i])) (hold : ofGroup is i.group ≠ []) :
    ∃ s' live₁, processPartition u mem size s i = .ok s' ∧ records (is ++ [i]) = gone ++ live₁ ∧
      Running u size (is ++ [i]) (gone ++ live₁.takeWhile (due (is ++ [i]) size i.arrival))
        (live₁.dropWhile (due (is ++ [i]) size i.arrival)) s' := by
  obtain ⟨st, hst, hw⟩ := h.queued.window _ hold
  have hsplit : records (is ++ [i]) =
      gone ++ (live ++ [record (is ++ [i]) (i, is.length)]) := by
    rw [records_concat, h.split, List.append_assoc]
  have htime : InTime (is ++ [i]) i.arrival (live ++ [record (is ++ [i]) (i, is.length)]) := by
    intro d hd
    refine hfits.inTime d ?_
    rw [hsplit]
    exact List.mem_append_right _ hd
  have hstart := start_ofGroup_concat i hold
  have hlt := (htime (record (is ++ [i]) (i, is.length)) (by simp)).2
  simp only [record, hstart] at hlt
  obtain ⟨hw₁, hid⟩ := hw.updateTupleID hlt
  obtain ⟨w, hput, hw₂⟩ := putKeyed_holds hw₁ i.value i.group is.length
  have hrec : record (is ++ [i]) (i, is.length) = ⟨⟨i.value, i.group, is.length⟩,
      (millis (start (ofGroup is i.group)) i.arrival).toNat⟩ := by
    rw [record, hstart]
  let s₁ : Partitions G δ σ :=
    { s.set i.group { st with win := w } with list := s.list ++ [timeexp i.group] }
  have hq₁ : Queued size (is ++ [i]) (live ++ [record (is ++ [i]) (i, is.length)]) s₁ := by
    have hstatus : s₁.status = Function.update s.status i.group (some { st with win := w }) := rfl
    refine h.queued.put (by rw [hrec]) ?_ hstatus rfl rfl
    rw [hrec, hstart]
    rw [hid] at hw₂
    exact hw₂
  have hl₁ : Logged u s₁ := h.logged.window hst rfl rfl
  obtain ⟨s₂, hnext, hq₂, hl₂, hcalls₂, hr₂⟩ := next_holds hq₁ hl₁ htime
  have hfuel : (live ++ [record (is ++ [i]) (i, is.length)]).length < s₂.list.length + 1 := by
    have hlen := hq₂.index
    rw [hq₂.length]
    omega
  obtain ⟨s₃, hloop, hq₃, hl₃, hcalls₃⟩ := expirePartitions_holds hq₂ hl₂ htime hr₂ hfuel
  have hne : ofGroup (is ++ [i]) i.group ≠ [] := ofGroup_ne_nil (by simp)
  obtain ⟨st₃, hst₃, hw₃⟩ := hq₃.window _ hne
  let s₄ : Partitions G δ σ :=
    { s₃.set i.group { st₃ with state := u.iterate st₃.state i.value } with
      calls := s₃.calls ++ [⟨.iterate, i.group, i.value, some st₃.state⟩] }
  have hstatus : s₄.status = Function.update s₃.status i.group
      (some { st₃ with state := u.iterate st₃.state i.value }) := rfl
  refine ⟨s₄, _, ?_, hsplit, ?_, hq₃.exchange hne ?_ hstatus rfl rfl, ?_, ?_, ?_, ?_⟩
  · rw [processPartition, hst]
    simp only [h.queued.length, hput, ok_bind]
    rw [hnext, ok_bind, hloop, ok_bind, call_some hst₃]
  · rw [hsplit, List.append_assoc, List.takeWhile_append_dropWhile]
  · exact hw₃
  · refine hl₃.call rfl ?_ ?_ rfl rfl
    · rw [hst₃]
      rfl
    · rw [hst₃]
      rfl
  · rw [callArgs_concat, hcalls₃, hcalls₂, List.map_append, ← h.expired]
    simp [s₁, Partitions.set]
  · rw [callArgs_concat, hcalls₃, hcalls₂, List.map_append, ← h.tuples]
    simp [s₁, Partitions.set]
  · intro d hd
    rcases List.mem_append.mp hd with hd | hd
    · exact h.due_concat i d hd
    · exact ⟨i, by simp, List.mem_takeWhile_imp hd⟩

end

/-! ## A run -/

theorem processPartitions_concat {mem : G → Addr → Tuple 0 (WinTuple (Keyed δ G))}
    (h : processPartitions u mem size is = .ok s) (i : Input G δ) :
    processPartitions u mem size (is ++ [i]) = processPartition u mem size s i := by
  rw [processPartitions] at h ⊢
  rw [List.foldlM_append, h, ok_bind, List.foldlM_cons]
  cases processPartition u mem size s i <;> rfl

theorem processPartitions_holds (u : Uda δ σ) (mem : G → Addr → Tuple 0 (WinTuple (Keyed δ G)))
    (size : Nat) {inputs : List (Input G δ)} (hfits : Fits .time inputs) :
    ∃ s gone live, processPartitions u mem size inputs = .ok s ∧
      Running u size inputs gone live s := by
  induction inputs using List.reverseRecOn with
  | nil =>
    refine ⟨_, [], [], rfl, rfl, ?_, ?_, rfl, rfl, fun d hd => by cases hd⟩
    · exact ⟨fun _ _ => rfl, fun g hg => absurd rfl hg, rfl, rfl, rfl, fun d hd => by cases hd⟩
    · refine ⟨fun before c after h => ?_, fun _ => rfl⟩
      cases before with
      | nil => cases h
      | cons b before => cases h
  | append_singleton is i ih =>
    obtain ⟨s, gone, live, hrun, hs⟩ := ih hfits.before
    by_cases hnew : ofGroup is i.group = []
    · obtain ⟨s', hstep, hs'⟩ := process_init mem hs hnew
      exact ⟨s', _, _, (processPartitions_concat hrun i).trans hstep, hs'⟩
    · obtain ⟨s', live₁, hstep, -, hs'⟩ := process_iterate mem hs hfits hnew
      exact ⟨s', _, _, (processPartitions_concat hrun i).trans hstep, hs'⟩

omit [DecidableEq G] [DecidableEq δ] [Inhabited G] [Inhabited δ] in
theorem millis_whole {t : Timeval} (h₀ : (1000 : Int) ∣ t₀.usec) (h : (1000 : Int) ∣ t.usec) :
    (millis t₀ t : ℚ) = timevalSubtract t t₀ * 1000 := by
  obtain ⟨a, ha⟩ := h₀
  obtain ⟨b, hb⟩ := h
  have hint : timevalSubtract t t₀ * 1000 =
      ((t.sec * 1000 + b - t₀.sec * 1000 - a : Int) : ℚ) := by
    rw [timevalSubtract, ha, hb]
    push_cast
    ring
  rw [millis, hint, Int.floor_intCast]

omit [DecidableEq δ] [Inhabited G] [Inhabited δ] in
theorem due_record (hfits : Fits .time (is ++ [i])) (hwhole : Whole (is ++ [i]))
    {p : Input G δ × Nat} (hp : p ∈ (is ++ [i]).zipIdx) :
    due (is ++ [i]) size i.arrival (record (is ++ [i]) p) = old size i.arrival p.1 := by
  have hmem := List.fst_mem_of_mem_zipIdx hp
  obtain ⟨j, hj, hstart⟩ := start_mem (ofGroup_ne_nil hmem)
  have hp₀ := ((hfits.group p.1.group).millis_range
    (List.mem_filter.mpr ⟨hmem, decide_eq_true rfl⟩)).1
  have hi₀ := hp₀.trans (millis_mono (hfits.until_last hmem).1)
  rw [hstart] at hp₀ hi₀
  have hcast : (millis j.arrival p.1.arrival + size ≤ millis j.arrival i.arrival) ↔
      (size : ℚ) ≤ timevalSubtract i.arrival p.1.arrival * 1000 := by
    rw [← Int.cast_le (R := ℚ)]
    push_cast
    rw [millis_whole (hwhole j hj) (hwhole _ hmem),
      millis_whole (hwhole j hj) (hwhole i (by simp))]
    simp only [timevalSubtract]
    constructor
    · intro h
      linarith
    · intro h
      linarith
  simp only [due, record, old, hstart, ← hcast, decide_eq_decide]
  omega

omit [DecidableEq δ] [Inhabited G] [Inhabited δ] in
theorem due_mono (hfits : Fits .time (is ++ [i])) (hj : j ∈ is ++ [i])
    (h : due (is ++ [i]) size j.arrival d = true) :
    due (is ++ [i]) size i.arrival d = true := by
  have hle : (millis (start (ofGroup (is ++ [i]) d.value.gbkey)) j.arrival).toNat ≤
      (millis (start (ofGroup (is ++ [i]) d.value.gbkey)) i.arrival).toNat :=
    Int.toNat_le_toNat (millis_mono (hfits.until_last hj).1)
  rw [due, decide_eq_true_eq] at h ⊢
  omega

omit [DecidableEq δ] [Inhabited G] [Inhabited δ] in
theorem due_sorted (hfits : Fits .time (is ++ [i])) (hwhole : Whole (is ++ [i])) :
    (records (is ++ [i])).Pairwise fun d d' =>
      due (is ++ [i]) size i.arrival d = false → due (is ++ [i]) size i.arrival d' = false := by
  rw [records, List.pairwise_map]
  have hfst : ((is ++ [i]).zipIdx.map Prod.fst).Pairwise fun a b =>
      0 ≤ timevalSubtract b.arrival a.arrival := by
    rw [List.zipIdx_map_fst]
    exact hfits.imp fun h => h.1
  rw [List.pairwise_map] at hfst
  refine hfst.imp_of_mem fun {p q} hp hq h => ?_
  rw [due_record hfits hwhole hp, due_record hfits hwhole hq]
  simp only [old, decide_eq_false_iff_not, not_le]
  intro hlt
  simp only [timevalSubtract] at h hlt ⊢
  linarith

omit [DecidableEq δ] [Inhabited G] [Inhabited δ] in
theorem records_filter {q : WinTuple (Keyed δ G) → Bool} {q' : Input G δ → Bool}
    (h : ∀ p ∈ is.zipIdx, q (record is p) = q' p.1) :
    ((records is).filter q).map (fun d => (d.value.gbkey, d.value.data)) =
      (is.filter q').map fun i => (i.group, i.value) := by
  have hq : is.zipIdx.filter (q ∘ record is) = is.zipIdx.filter (q' ∘ Prod.fst) :=
    List.filter_congr h
  calc ((records is).filter q).map (fun d => (d.value.gbkey, d.value.data))
      = ((is.zipIdx.filter (q' ∘ Prod.fst)).map Prod.fst).map fun i => (i.group, i.value) := by
        rw [records, List.filter_map, hq, List.map_map, List.map_map]
        rfl
    _ = _ := by rw [← List.filter_map, List.zipIdx_map_fst]

/-- After the tuples `is`, at the time `t`: each window holds the tuples of its partition that are
not old, and EXPIRE has been called for the old ones, in order. -/
structure Eager (u : Uda δ σ) (size : Nat) (is : List (Input G δ)) (t : Timeval)
    (s : Partitions G δ σ) : Prop where
  absent : ∀ g, ofGroup is g = [] → s.status g = none
  windows : ∀ g, ofGroup is g ≠ [] → ∃ st es, s.status g = some st ∧ st.win.Holds es ∧
    es.map (fun d => (d.value.gbkey, d.value.data)) =
      ((ofGroup is g).filter fun i => !old size t i).map fun i => (i.group, i.value)
  expired : callArgs (fun r => r = .expire) s.calls =
    (is.filter (old size t)).map fun i => (i.group, i.value)
  tuples : callArgs (fun r => r ≠ .expire) s.calls = is.map fun i => (i.group, i.value)
  coherent : Coherent u s.calls

omit [DecidableEq δ] [Inhabited G] [Inhabited δ] in
theorem due_split (hfits : Fits .time (is ++ [i])) (hwhole : Whole (is ++ [i]))
    (hs : Running u size is gone live s) {live₁ : List (WinTuple (Keyed δ G))}
    (hsplit : records (is ++ [i]) = gone ++ live₁) :
    gone ++ live₁.takeWhile (due (is ++ [i]) size i.arrival) =
        (records (is ++ [i])).filter (due (is ++ [i]) size i.arrival) ∧
      live₁.dropWhile (due (is ++ [i]) size i.arrival) =
        (records (is ++ [i])).filter fun d => !due (is ++ [i]) size i.arrival d := by
  have hsorted : live₁.Pairwise fun d d' =>
      due (is ++ [i]) size i.arrival d = false → due (is ++ [i]) size i.arrival d' = false := by
    have hall : (gone ++ live₁).Pairwise fun d d' =>
        due (is ++ [i]) size i.arrival d = false → due (is ++ [i]) size i.arrival d' = false :=
      hsplit ▸ due_sorted hfits hwhole
    exact (List.pairwise_append.mp hall).2.1
  have hgone : ∀ d ∈ gone, due (is ++ [i]) size i.arrival d = true := by
    intro d hd
    obtain ⟨j, hj, hdue⟩ := hs.due_concat i d hd
    exact due_mono hfits hj hdue
  refine ⟨?_, ?_⟩
  · rw [hsplit, List.filter_append, List.filter_eq_self.mpr hgone, takeWhile_eq_filter hsorted]
  · have hnone : (gone.filter fun d => !due (is ++ [i]) size i.arrival d) = [] := by
      rw [List.filter_eq_nil_iff]
      intro d hd
      simp [hgone d hd]
    rw [hsplit, List.filter_append, hnone, List.nil_append, dropWhile_eq_filter hsorted]

end StreamMill.Window
