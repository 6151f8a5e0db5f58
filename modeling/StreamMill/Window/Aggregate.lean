import StreamMill.Window.Winbuf
import Mathlib.Algebra.BigOperators.Group.List.Basic

/-!
# StreamMill.Window.Aggregate

The code that `transCallBuiltInAggr` of `semant_aggr.cc` generates for a built-in aggregate over a
window, as it runs: INIT for the first tuple of a group and ITERATE for the others. When results
are put out (`slide_out`) is left out.
-/

namespace StreamMill.Window

open ImDb

/-- What differs between the built-in aggregates: the code for the first tuple, for an expired
tuple and for a new one. -/
structure Builtin (α σ : Type) where
  init : α → σ
  expire : σ → α → σ
  iterate : σ → Winbuf α → α → Except Fault (σ × Winbuf α)

/-- The fields `_baggr_i_value` and `i_win` of a group. -/
structure GbStatus (α σ : Type) where
  value : σ
  win : Winbuf α

def dbNotfound : Int := -30990

section

variable {α σ : Type}

def sumAggr [Add α] [Sub α] : Builtin α α where
  init := fun v => v
  expire := fun value x => value - x
  iterate := fun value w v => .ok (value + v, w)

def countAggr : Builtin α Int where
  init := fun _ => 1
  expire := fun value _ => value - 1
  iterate := fun value w _ => .ok (value + 1, w)

@[ext] structure Var where
  value : ℚ
  sum : ℚ
  cnt : Int
  avg : ℚ

def varAggr : Builtin ℚ Var where
  init := fun v => { value := 0, sum := v, cnt := 1, avg := v }
  expire := fun s x =>
    if s.cnt > 1 then
      { value := s.value - (x - s.avg) ^ 2 * s.cnt / (s.cnt - 1)
        sum := s.sum - x
        cnt := s.cnt - 1
        avg := (s.sum - x) / ((s.cnt - 1 : Int) : ℚ) }
    else { value := 0, sum := 0, cnt := 0, avg := 0 }
  iterate := fun s w v =>
    .ok ({ value := s.value + (v - s.avg) ^ 2 * s.cnt / (s.cnt + 1)
           sum := s.sum + v
           cnt := s.cnt + 1
           avg := (s.sum + v) / ((s.cnt + 1 : Int) : ℚ) }, w)

section

variable [DecidableEq α] [Inhabited α] [IntCast α] [LT α] [DecidableLT α]

def Winbuf.headValue (w : Winbuf α) : Except Fault (α × Winbuf α) := do
  let (w, head) ← w.getHead
  return (head.getD (dbNotfound : α), w)

def minAggr : Builtin α α where
  init := fun v => v
  expire := fun value _ => value
  iterate := fun _ w v => do
    let w ← w.deleteGreater v
    w.headValue

def maxAggr : Builtin α α where
  init := fun v => v
  expire := fun value _ => value
  iterate := fun _ w v => do
    let w ← w.deleteLesser v
    w.headValue

end

/-- `AGGR_INIT`, into a new window. -/
def aggrInit (bi : Builtin α σ) (w : Winbuf α) (ts : Option Timeval) (v : α) :
    Except Fault (GbStatus α σ) := do
  let w ← (w.updateTupleID ts).put v
  return { value := bi.init v, win := w }

variable [DecidableEq α] [Inhabited α]

/-- The loop `while (hasExpired())`. Its test is `getExpired`, which its body calls again to the
same effect. -/
def expireLoop (bi : Builtin α σ) : Nat → GbStatus α σ → Except Fault (GbStatus α σ)
  | 0, _ => .error .loop
  | fuel + 1, st => do
    let (w, x) ← st.win.getExpired
    match x with
    | none => return { st with win := w }
    | some x => do
      let w ← w.pop
      expireLoop bi fuel { value := bi.expire st.value x, win := w }

def aggrIterate (bi : Builtin α σ) (st : GbStatus α σ) (ts : Option Timeval) (v : α) :
    Except Fault (GbStatus α σ) := do
  let w ← (st.win.updateTupleID ts).put v
  let st ← expireLoop bi (w.b.fuel + 1) { st with win := w }
  let (value, win) ← bi.iterate st.value st.win v
  return { value, win }

inductive RangeType where
  | count
  | time

/-- A tuple of the stream: its group, the argument of the aggregate, its time stamp and what
`gettimeofday` returns. -/
structure Input (G α : Type) where
  group : G
  value : α
  atime : Timeval
  now : Timeval

variable {G : Type}

def Input.arrival (i : Input G α) : Timeval := Window.arrival i.atime i.now

/-- The argument of `updateTupleID`. -/
def Input.ts (i : Input G α) : RangeType → Option Timeval
  | .count => none
  | .time => some i.arrival

def process [DecidableEq G] (bi : Builtin α σ) (mem : G → Addr → Tuple 0 (WinTuple α))
    (range : RangeType) (size : Nat) (gs : G → Option (GbStatus α σ)) (i : Input G α) :
    Except Fault (G → Option (GbStatus α σ)) := do
  let st ← match gs i.group with
    | none => aggrInit bi (newWinbuf (mem i.group) size) (i.ts range) i.value
    | some st => aggrIterate bi st (i.ts range) i.value
  return Function.update gs i.group (some st)

def processAll [DecidableEq G] (bi : Builtin α σ) (mem : G → Addr → Tuple 0 (WinTuple α))
    (range : RangeType) (size : Nat) (inputs : List (Input G α)) :
    Except Fault (G → Option (GbStatus α σ)) :=
  inputs.foldlM (process bi mem range size) fun _ => none

end

variable {α σ : Type} {bi : Builtin α σ} {w : Winbuf α}

/-- The tuple has left a window of the size when the id is `now`. -/
def left (size now : Nat) (d : WinTuple α) : Bool := d.tupleId + size ≤ now

/-- What an aggregate has to do with its part of the code. `Keeps W es s` relates the tuples of
the window, those in the buffer and the state; `Val` is the result for the values of the window. -/
structure Maintains [DecidableEq α] [Inhabited α] (bi : Builtin α σ)
    (Keeps : List (WinTuple α) → List (WinTuple α) → σ → Prop) (Val : List α → σ → Prop) :
    Prop where
  sub : ∀ W es s, Keeps W es s → es ⊆ W
  init : ∀ d, Keeps [d] [d] (bi.init d.value) ∧ Val [d.value] (bi.init d.value)
  expire : ∀ W es s size now, W.Pairwise (fun d d' => d.tupleId ≤ d'.tupleId) → Keeps W es s →
    Keeps (W.filter fun d => !left size now d) (es.dropWhile (left size now))
      (((es.takeWhile (left size now)).map WinTuple.value).foldl bi.expire s)
  iterate : ∀ W es s d w, (∀ x ∈ W, x.tupleId ≤ d.tupleId) → Keeps W es s →
    Winbuf.Holds w (es ++ [d]) →
    ∃ s' w' es', bi.iterate s w d.value = .ok (s', w') ∧ w'.Holds es' ∧ SameIds w w' ∧
      Keeps (W ++ [d]) es' s' ∧ Val ((W ++ [d]).map WinTuple.value) s'

theorem expired_iff {size id t : Nat} (h : t ≤ id) : expired size id t = decide (t + size ≤ id) := by
  rw [expired]
  have hlt : ¬ id < t := by omega
  split
  · next hs =>
    have hno : ¬ t + size ≤ id := by omega
    simp [hlt, hno]
  · next hs =>
    simp only [hlt, decide_false, Bool.or_false, decide_eq_decide]
    omega

theorem dropWhile_concat {β : Type} {p : β → Bool} {xs : List β} {x : β} (h : p x = false) :
    (xs ++ [x]).dropWhile p = xs.dropWhile p ++ [x] := by
  induction xs with
  | nil => simp [h]
  | cons y xs ih =>
    cases hy : p y with
    | true => simp [hy, ih]
    | false => simp [hy]

theorem takeWhile_concat {β : Type} {p : β → Bool} {xs : List β} {x : β} (h : p x = false) :
    (xs ++ [x]).takeWhile p = xs.takeWhile p := by
  induction xs with
  | nil => simp [h]
  | cons y xs ih =>
    cases hy : p y with
    | true => simp [hy, ih]
    | false => simp [hy]

variable [DecidableEq α] [Inhabited α]

theorem expireLoop_holds (bi : Builtin α σ) {es : List (WinTuple α)} (st : GbStatus α σ) {fuel : Nat}
    (h : st.win.Holds es) (hids : ∀ d ∈ es, d.tupleId ≤ st.win.tupleId)
    (hfuel : es.length < fuel) :
    ∃ w', expireLoop bi fuel st = .ok
        { value := ((es.takeWhile (left st.win.size st.win.tupleId)).map WinTuple.value).foldl
            bi.expire st.value, win := w' } ∧
      w'.Holds (es.dropWhile (left st.win.size st.win.tupleId)) ∧ SameIds st.win w' := by
  induction es generalizing st fuel with
  | nil =>
    obtain ⟨fuel, rfl⟩ : ∃ f, fuel = f + 1 := ⟨fuel - 1, by omega⟩
    obtain ⟨w', hget, hw', hsame⟩ := getExpired_holds h
    refine ⟨w', ?_, hw', hsame⟩
    rw [expireLoop, hget]
    rfl
  | cons d es ih =>
    obtain ⟨fuel, rfl⟩ : ∃ f, fuel = f + 1 := ⟨fuel - 1, by omega⟩
    obtain ⟨w₁, hget, hw₁, hsame₁⟩ := getExpired_holds h
    have hexp : expired st.win.size st.win.tupleId d.tupleId =
        left st.win.size st.win.tupleId d := expired_iff (hids d List.mem_cons_self)
    rw [List.head?_cons, Option.filter_some, hexp] at hget
    cases hl : left st.win.size st.win.tupleId d with
    | true =>
      obtain ⟨w₂, hpop, hw₂, hsame₂⟩ := pop_holds hw₁
      have hsame := hsame₁.trans hsame₂
      obtain ⟨w', hrun, hw', hsame'⟩ := ih { value := bi.expire st.value d.value, win := w₂ }
        hw₂ (fun x hx => by rw [hsame.2.1]; exact hids x (List.mem_cons_of_mem _ hx))
        (Nat.lt_of_succ_lt_succ hfuel)
      rw [hsame.1, hsame.2.1] at hrun hw'
      refine ⟨w', ?_, ?_, hsame.trans hsame'⟩
      · rw [expireLoop, hget, hl]
        simp only [if_true, Option.map_some, hpop, ok_bind]
        rw [hrun, List.takeWhile_cons_of_pos hl]
        rfl
      · rw [List.dropWhile_cons_of_pos hl]
        exact hw'
    | false =>
      refine ⟨w₁, ?_, ?_, hsame₁⟩
      · rw [expireLoop, hget, hl, List.takeWhile_cons_of_neg (by simp [hl])]
        rfl
      · rw [List.dropWhile_cons_of_neg (by simp [hl])]
        exact hw₁

/-- The tuples of a window of the size when the id is `now`. -/
def inWindow (size now : Nat) (hist : List (WinTuple α)) : List (WinTuple α) :=
  hist.filter fun d => !left size now d

variable {Keeps : List (WinTuple α) → List (WinTuple α) → σ → Prop} {Val : List α → σ → Prop}

/-- The state of a group after the tuples `hist`. -/
structure GroupHolds (Keeps : List (WinTuple α) → List (WinTuple α) → σ → Prop)
    (Val : List α → σ → Prop) (size : Nat) (hist : List (WinTuple α)) (st : GbStatus α σ) :
    Prop where
  sorted : hist.Pairwise fun d d' => d.tupleId ≤ d'.tupleId
  last : ∀ d ∈ hist, d.tupleId ≤ st.win.tupleId
  winSize : st.win.size = size
  keeps : ∃ es, st.win.Holds es ∧ Keeps (inWindow size st.win.tupleId hist) es st.value
  val : Val ((inWindow size st.win.tupleId hist).map WinTuple.value) st.value

theorem aggrInit_holds (hm : Maintains bi Keeps Val) {size : Nat} (hsize : 1 ≤ size)
    {w : Winbuf α} (hw : w.Holds []) (hws : w.size = size) (ts : Option Timeval) (v : α) :
    ∃ st, aggrInit bi w ts v = .ok st ∧
      GroupHolds Keeps Val size [⟨v, (w.updateTupleID ts).tupleId⟩] st ∧
      st.win.tupleId = (w.updateTupleID ts).tupleId ∧
      st.win.first = (w.updateTupleID ts).first ∧
      st.win.firstTs = (w.updateTupleID ts).firstTs := by
  have hu : (w.updateTupleID ts).Holds [] ∧ (w.updateTupleID ts).size = size := by
    cases ts with
    | none => exact ⟨hw, hws⟩
    | some ts => exact ⟨hw, hws⟩
  obtain ⟨w', hput, hw', hs, hid, hf, hfts⟩ := put_holds hu.1 v
  have hin : inWindow size w'.tupleId [⟨v, (w.updateTupleID ts).tupleId⟩] =
      [⟨v, (w.updateTupleID ts).tupleId⟩] := by
    have hleft : left size w'.tupleId ⟨v, (w.updateTupleID ts).tupleId⟩ = false := by
      simp [left]
      omega
    simp [inWindow, hleft]
  obtain ⟨hkeeps, hval⟩ := hm.init ⟨v, (w.updateTupleID ts).tupleId⟩
  refine ⟨{ value := bi.init v, win := w' }, ?_, ⟨List.pairwise_singleton _ _, ?_, hs.trans hu.2,
    ⟨_, hw', ?_⟩, ?_⟩, hid, hf, hfts⟩
  · rw [aggrInit, hput]
    rfl
  · intro d hd
    rw [List.mem_singleton.mp hd, hid]
  · rw [hin]
    exact hkeeps
  · rw [hin]
    exact hval

omit [DecidableEq α] [Inhabited α] in
theorem inWindow_concat {size now : Nat} (hist : List (WinTuple α)) {d : WinTuple α}
    (hsize : 1 ≤ size) (hnow : now ≤ d.tupleId) :
    inWindow size d.tupleId (hist ++ [d]) =
      ((inWindow size now hist).filter fun d' => !left size d.tupleId d') ++ [d] := by
  have hd : left size d.tupleId d = false := by
    simp [left]
    omega
  rw [inWindow, inWindow, List.filter_append, List.filter_filter]
  congr 1
  · refine List.filter_congr fun d' _ => ?_
    simp only [left]
    by_cases h : d'.tupleId + size ≤ d.tupleId
    · simp [h]
    · have h' : ¬ d'.tupleId + size ≤ now := by omega
      simp [h, h']
  · simp [hd]

theorem aggrIterate_holds (hm : Maintains bi Keeps Val) {size : Nat} (hsize : 1 ≤ size)
    {hist : List (WinTuple α)} {st : GbStatus α σ} (h : GroupHolds Keeps Val size hist st)
    {ts : Option Timeval} (v : α)
    (hid : st.win.tupleId ≤ (st.win.updateTupleID ts).tupleId) :
    ∃ st', aggrIterate bi st ts v = .ok st' ∧
      GroupHolds Keeps Val size (hist ++ [⟨v, (st.win.updateTupleID ts).tupleId⟩]) st' ∧
      st'.win.tupleId = (st.win.updateTupleID ts).tupleId ∧
      st'.win.first = (st.win.updateTupleID ts).first ∧
      st'.win.firstTs = (st.win.updateTupleID ts).firstTs := by
  obtain ⟨es, hes, hkeeps⟩ := h.keeps
  have hu : (st.win.updateTupleID ts).Holds es ∧ (st.win.updateTupleID ts).size = size := by
    cases ts with
    | none => exact ⟨hes, h.winSize⟩
    | some ts => exact ⟨hes, h.winSize⟩
  generalize hnew : (st.win.updateTupleID ts).tupleId = now at hid ⊢
  obtain ⟨w₁, hput, hw₁, hs₁, hid₁, hf₁, hfts₁⟩ := put_holds hu.1 v
  rw [hnew] at hw₁ hid₁
  have hsub := hm.sub _ _ _ hkeeps
  have hold : ∀ d ∈ inWindow size st.win.tupleId hist, d.tupleId ≤ now :=
    fun d hd => (h.last d (List.mem_of_mem_filter hd)).trans hid
  have hids : ∀ d ∈ es ++ [(⟨v, now⟩ : WinTuple α)], d.tupleId ≤ w₁.tupleId := by
    intro d hd
    rw [hid₁]
    rcases List.mem_append.mp hd with hd | hd
    · exact hold d (hsub hd)
    · rw [List.mem_singleton.mp hd]
  have hsize₁ : w₁.size = size := hs₁.trans hu.2
  have hlen : (es ++ [(⟨v, now⟩ : WinTuple α)]).length < w₁.b.fuel + 1 := by
    obtain ⟨l, hl, hle⟩ := hw₁
    rw [← hle, List.length_map]
    have := hl.rel.length_le
    rw [slots, List.length_map] at this
    omega
  obtain ⟨w₂, hloop, hw₂, hsame₂⟩ := expireLoop_holds bi { value := st.value, win := w₁ }
    hw₁ hids hlen
  have hd : left size now (⟨v, now⟩ : WinTuple α) = false := by
    simp [left]
    omega
  simp only [hsize₁, hid₁] at hloop hw₂
  rw [dropWhile_concat hd] at hw₂
  rw [takeWhile_concat hd] at hloop
  have hW := h.sorted.filter fun d => !left size st.win.tupleId d
  have hexp := hm.expire _ es st.value size now hW hkeeps
  have hbefore : ∀ x ∈ (inWindow size st.win.tupleId hist).filter fun d => !left size now d,
      x.tupleId ≤ now := fun x hx => hold x (List.mem_of_mem_filter hx)
  obtain ⟨s', w', es', hiter, hw', hsame', hkeeps', hval'⟩ :=
    hm.iterate _ _ _ ⟨v, now⟩ w₂ hbefore hexp hw₂
  have hsame := hsame₂.trans hsame'
  have hid' : w'.tupleId = now := hsame.2.1.trans hid₁
  have hwin := inWindow_concat hist (d := ⟨v, now⟩) hsize hid
  refine ⟨{ value := s', win := w' }, ?_, ⟨?_, ?_, hsame.1.trans hsize₁, ⟨es', hw', ?_⟩, ?_⟩, hid',
    hsame.2.2.1.trans hf₁, hsame.2.2.2.trans hfts₁⟩
  · rw [aggrIterate, hput, ok_bind, hloop, ok_bind]
    simp only [hiter]
    rfl
  · rw [List.pairwise_append]
    refine ⟨h.sorted, List.pairwise_singleton _ _, fun d hd d' hd' => ?_⟩
    rw [List.mem_singleton.mp hd']
    exact (h.last d hd).trans hid
  · intro d hd
    rw [hid']
    rcases List.mem_append.mp hd with hd | hd
    · exact (h.last d hd).trans hid
    · rw [List.mem_singleton.mp hd]
  · rw [hid', hwin]
    exact hkeeps'
  · rw [hid', hwin]
    exact hval'

end StreamMill.Window
