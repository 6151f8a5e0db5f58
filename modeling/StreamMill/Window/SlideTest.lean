import Mathlib.Algebra.Order.Ring.Nat
import Mathlib.Data.List.Basic
import Mathlib.Order.Basic
import Mathlib.Tactic.Ring

/-!
# StreamMill.Window.SlideTest

The slide test of a windowed aggregate: the code that `transCallBuiltInAggr` and `transCallUDA`
emit for every tuple of a group, which sets `slide_out` and keeps in `last_out` the end of the
last slide. A tuple's id is its number, or the milliseconds since the first tuple of the group. The
sum of `last_out` and the slide is a fault when it does not fit an `int`.

`slide_right_iff`: when the test is right, for both kinds of window.
-/

namespace StreamMill.Window
namespace SlideTest

/-- `getTupleID()` and `last_out` -/
structure Status where
  tupleId : Nat
  lastOut : Int
  deriving DecidableEq

inductive Fault
  /-- A sum that does not fit an `int`. -/
  | overflow
  /-- A loop that does not end. -/
  | loop
  deriving DecidableEq

inductive RangeKind
  | count
  | time
  deriving DecidableEq

inductive AggrPath
  | builtin
  | uda
  deriving DecidableEq

def asInt (id : Nat) : Int := if id < 2 ^ 31 then id else id - 2 ^ 32

/-- The `int` in an unsigned comparison. -/
def asUnsigned (z : Int) : Nat := (z % 2 ^ 32).toNat

def addInt (z : Int) (slide : Nat) : Except Fault Int :=
  if z + slide < 2 ^ 31 then .ok (z + slide) else .error .overflow

/-- `while (last_out < getTupleID() - slide && getTupleID() > 0)` -/
def catchUp (slide id : Nat) : Nat → Int → Except Fault Int
  | 0, _ => .error .loop
  | fuel + 1, lastOut =>
    if asUnsigned lastOut < asUnsigned ((id : Int) - slide) ∧ 0 < id then
      if slide = 1 then catchUp slide id fuel (asInt id)
      else do
        let lastOut ← addInt lastOut slide
        catchUp slide id fuel lastOut
    else .ok lastOut

def due (slide : Nat) (st : Status) : Except Fault Bool :=
  if slide ≤ 1 then .ok true
  else if st.tupleId = 0 ∧ st.lastOut ≠ 0 then .ok true
  else do
    let next ← addInt st.lastOut slide
    return decide (next ≤ asInt st.tupleId)

/-- The test: `slide_out` and the new `last_out`. -/
def slideTest (slide : Nat) (st : Status) : Except Fault (Bool × Status) := do
  if ← due slide st then
    let lastOut ← addInt st.lastOut slide
    let lastOut ← catchUp slide st.tupleId (st.tupleId + 1) lastOut
    return (true, { st with lastOut := lastOut })
  else return (false, st)

def newStatus : Status := ⟨0, 0⟩

/-- `updateTupleID`, for a tuple that arrives `ms` after the first of its group. -/
def updateTupleID (range : RangeKind) (ms : Nat) (st : Status) : Status :=
  match range with
  | .count => { st with tupleId := (st.tupleId + 1) % 2 ^ 32 }
  | .time => { st with tupleId := ms }

def iterate (range : RangeKind) (slide : Nat) (st : Status) (ms : Nat) :
    Except Fault (Bool × Status) :=
  slideTest slide (updateTupleID range ms st)

/-- The first tuple of a group. For a built-in aggregate `slide_out` is set before it is counted. -/
def init (path : AggrPath) (range : RangeKind) (slide ms : Nat) : Except Fault (Bool × Status) :=
  match path with
  | .builtin => do
    let out ← due slide newStatus
    return (out, updateTupleID range ms newStatus)
  | .uda => iterate range slide newStatus ms

/-- `slide_out` at tuples that arrive one after the other. -/
def iterateAll (range : RangeKind) (slide : Nat) : Status → List Nat → Except Fault (List Bool)
  | _, [] => .ok []
  | st, ms :: arrivals => do
    let (out, st) ← iterate range slide st ms
    let outs ← iterateAll range slide st arrivals
    return out :: outs

def slideOuts (path : AggrPath) (range : RangeKind) (slide : Nat) :
    List Nat → Except Fault (List Bool)
  | [] => .ok []
  | ms :: arrivals => do
    let (out, st) ← init path range slide ms
    let outs ← iterateAll range slide st arrivals
    return out :: outs

/-- Output at the tuples with the numbers `slide`, `2 * slide` and so on, from tuple `n + 1` on. -/
def multiplesFrom (slide : Nat) : Nat → List Nat → List Bool
  | _, [] => []
  | n, _ :: arrivals => decide (slide ∣ n + 1) :: multiplesFrom slide (n + 1) arrivals

/-- Output at the first tuple of each period but the first, after the tuples `hist`. -/
def firstsFrom (slide : Nat) : List Nat → List Nat → List Bool
  | _, [] => []
  | hist, ms :: arrivals =>
    decide (1 ≤ ms / slide ∧ ∀ ms' ∈ hist, ms' / slide ≠ ms / slide) ::
      firstsFrom slide (hist ++ [ms]) arrivals

structure Times where
  arrivals : List Nat
  start : arrivals.head? = some 0
  sorted : arrivals.Pairwise (· ≤ ·)
  small : ∀ ms ∈ arrivals, ms < 2 ^ 31

/-- After the first tuple of period `k` the code has `last_out` at the end of the period before:
the tuple arrives when the period begins, and no tuple has moved `last_out` there before. -/
def Late (slide : Nat) (arrivals : List Nat) : Nat → Prop
  | 0 => False
  | k + 1 => (k + 1) * slide ∈ arrivals ∧
    ((∀ ms ∈ arrivals, ms / slide ≠ k) ∨ Late slide arrivals k)

/-- A second tuple in period `k` is seen as one. -/
def Settled (slide : Nat) (arrivals : List Nat) (k : Nat) : Prop :=
  ¬ Late slide arrivals k ∧ (k + 1) * slide < 2 ^ 31

section Step

@[simp] theorem ok_bind {α β : Type} (a : α) (f : α → Except Fault β) :
    (Except.ok a >>= f) = f a := rfl

@[simp] theorem error_bind {α β : Type} (e : Fault) (f : α → Except Fault β) :
    ((Except.error e : Except Fault α) >>= f) = .error e := rfl

variable {s : Nat} (hs : 2 ≤ s)
include hs

theorem behind_iff (m id : Nat) : m * s < id - s ∧ 0 < id ↔ m < (id - 1) / s := by
  have hdiv : m + 1 ≤ (id - 1) / s ↔ (m + 1) * s ≤ id - 1 :=
    Nat.le_div_iff_mul_le (by omega)
  rw [Nat.lt_iff_add_one_le (m := m), hdiv, Nat.add_mul]
  omega

/-- The loop moves `last_out` to the last multiple before the id, if it is not there. -/
theorem catchUp_eq {id : Nat} (hid : id < 2 ^ 31) (hsid : s ≤ id) {m fuel : Nat}
    (hm : m * s ≤ id) (hfuel : (id - 1) / s - m < fuel) :
    catchUp s id fuel (m * s : Nat) = .ok ((max m ((id - 1) / s) * s : Nat) : Int) := by
  induction fuel generalizing m with
  | zero => omega
  | succ fuel ih =>
    have hcond : asUnsigned ((m * s : Nat) : Int) < asUnsigned ((id : Int) - s) ∧ 0 < id ↔
        m < (id - 1) / s := by
      rw [← behind_iff hs]
      unfold asUnsigned
      omega
    rw [catchUp]
    by_cases hlt : m < (id - 1) / s
    · have hnext : (m + 1) * s ≤ id - 1 := (Nat.le_div_iff_mul_le (by omega)).mp hlt
      have hsum : ((m * s : Nat) : Int) + s = ((m + 1) * s : Nat) := by
        rw [Nat.add_mul]
        omega
      rw [if_pos (hcond.mpr hlt), if_neg (by omega), addInt, hsum, if_pos (by omega), ok_bind,
        ih (by omega) (by omega), max_eq_right (by omega), max_eq_right (by omega)]
    · rw [if_neg (fun h => hlt (hcond.mp h)), max_eq_left (by omega)]

/-- How many slides `last_out` is at after a tuple. -/
def advance (s n id : Nat) : Nat := if (n + 1) * s ≤ id then max (n + 1) ((id - 1) / s) else n

omit hs in
theorem advance_le {n id : Nat} (hn : n * s ≤ id) : advance s n id * s ≤ id := by
  unfold advance
  split
  · rcases max_choice (n + 1) ((id - 1) / s) with h | h
    · rw [h]
      assumption
    · rw [h]
      exact (Nat.div_mul_le_self _ _).trans (Nat.sub_le _ _)
  · exact hn

omit hs in
theorem addInt_eq (n : Nat) : addInt ((n * s : Nat) : Int) s =
    if (n + 1) * s < 2 ^ 31 then .ok (((n + 1) * s : Nat) : Int) else .error .overflow := by
  have hsum : ((n * s : Nat) : Int) + s = ((n + 1) * s : Nat) := by
    rw [Nat.add_mul, Nat.one_mul]
    omega
  rw [addInt, hsum]
  by_cases hfit : (n + 1) * s < 2 ^ 31
  · rw [if_pos hfit, if_pos (by omega)]
  · rw [if_neg hfit, if_neg (by omega)]

theorem due_eq {id n : Nat} (hid : id < 2 ^ 31) (hn : n * s ≤ id) :
    due s ⟨id, (n * s : Nat)⟩ =
      if (n + 1) * s < 2 ^ 31 then .ok (decide ((n + 1) * s ≤ id)) else .error .overflow := by
  have hzero : ¬ (id = 0 ∧ ((n * s : Nat) : Int) ≠ 0) := by omega
  have hout : (((n + 1) * s : Nat) : Int) ≤ asInt id ↔ (n + 1) * s ≤ id := by
    rw [asInt]
    omega
  rw [due, if_neg (by omega), if_neg hzero, addInt_eq]
  by_cases hfit : (n + 1) * s < 2 ^ 31
  · rw [if_pos hfit, if_pos hfit, ok_bind, decide_eq_decide.mpr hout]
    rfl
  · rw [if_neg hfit, if_neg hfit, error_bind]

theorem slideTest_eq {id n : Nat} (hid : id < 2 ^ 31) (hn : n * s ≤ id) :
    slideTest s ⟨id, (n * s : Nat)⟩ =
      if (n + 1) * s < 2 ^ 31 then
        .ok (decide ((n + 1) * s ≤ id), ⟨id, (advance s n id * s : Nat)⟩)
      else .error .overflow := by
  rw [slideTest, due_eq hs hid hn, addInt_eq]
  by_cases hfit : (n + 1) * s < 2 ^ 31
  · rw [if_pos hfit, if_pos hfit, if_pos hfit, ok_bind, ok_bind, advance]
    by_cases hout : (n + 1) * s ≤ id
    · have hsid : s ≤ id := (Nat.le_mul_of_pos_left s (Nat.succ_pos n)).trans hout
      have hfuel : (id - 1) / s - (n + 1) < id + 1 := by
        have := Nat.div_le_self (id - 1) s
        omega
      rw [if_pos hout, decide_eq_true hout, catchUp_eq hs hid hsid hout hfuel]
      rfl
    · rw [if_neg hout, decide_eq_false hout]
      rfl
  · rw [if_neg hfit, error_bind, if_neg hfit]

theorem slideTest_first (hint : s < 2 ^ 31) {id : Nat} (hid : id < s) :
    slideTest s ⟨id, 0⟩ = .ok (false, ⟨id, 0⟩) := by
  have h : slideTest s ⟨id, (0 * s : Nat)⟩ = _ := slideTest_eq hs (hid.trans hint) (by omega)
  rw [if_pos (by omega), advance, if_neg (by omega), decide_eq_false (by omega), Nat.zero_mul] at h
  exact h

theorem init_eq (hint : s < 2 ^ 31) (path : AggrPath) {range : RangeKind} {ms : Nat}
    (hms : range = .time → ms = 0) :
    init path range s ms = .ok (false, updateTupleID range ms newStatus) := by
  have hid : updateTupleID range ms newStatus =
      ⟨(updateTupleID range ms newStatus).tupleId, 0⟩ := by
    cases range <;> rfl
  have hlt : (updateTupleID range ms newStatus).tupleId < s := by
    cases range with
    | count => exact hs
    | time =>
      rw [hms rfl]
      exact Nat.lt_of_lt_of_le Nat.zero_lt_two hs
  cases path with
  | uda =>
    rw [init, iterate, hid]
    exact slideTest_first hs hint hlt
  | builtin =>
    have hdue : due s ⟨0, (0 * s : Nat)⟩ = _ := due_eq hs (by omega) (by omega)
    rw [if_pos (by omega), decide_eq_false (by omega), Nat.zero_mul] at hdue
    rw [init, show newStatus = ⟨0, ((0 : Nat) : Int)⟩ from rfl, hdue]
    rfl

theorem slideOuts_eq (hint : s < 2 ^ 31) (path : AggrPath) {range : RangeKind}
    {arrivals : List Nat} (hms : range = .time → ∀ ms ∈ arrivals.head?, ms = 0) :
    slideOuts path range s arrivals = iterateAll range s newStatus arrivals := by
  cases arrivals with
  | nil => rfl
  | cons ms arrivals =>
    have hfirst : range = .time → ms = 0 := fun h => hms h ms rfl
    rw [slideOuts, iterateAll, init_eq hs hint path hfirst]
    rw [← init_eq hs hint .uda hfirst, init]

end Step

section Count

variable {s : Nat}

/-- The multiples of the slide that fit an `int`. -/
def slides (s : Nat) : Nat := (2 ^ 31 - 1) / s

theorem slides_mul_lt (s : Nat) : slides s * s < 2 ^ 31 := by
  have := Nat.div_mul_le_self (2 ^ 31 - 1) s
  unfold slides
  omega

theorem next_fits_iff (hpos : 0 < s) (n : Nat) : (n / s + 1) * s < 2 ^ 31 ↔ n < slides s * s := by
  rw [← Nat.div_lt_iff_lt_mul hpos, slides, Nat.lt_iff_add_one_le (m := n / s),
    Nat.le_div_iff_mul_le hpos]
  omega

theorem updateTupleID_count {n : Nat} (hn : n < 2 ^ 31) (ms : Nat) (lastOut : Int) :
    updateTupleID .count ms ⟨n, lastOut⟩ = ⟨n + 1, lastOut⟩ := by
  have hmod : (n + 1) % 2 ^ 32 = n + 1 := Nat.mod_eq_of_lt (by omega)
  rw [updateTupleID, hmod]

theorem iterate_count (hs : 2 ≤ s) {n : Nat} (hn : n < slides s * s) (ms : Nat) :
    iterate .count s ⟨n, (n / s * s : Nat)⟩ ms =
      .ok (decide (s ∣ n + 1), ⟨n + 1, ((n + 1) / s * s : Nat)⟩) := by
  have hpos : 0 < s := by omega
  have hmax := slides_mul_lt s
  have hle : n / s * s ≤ n := Nat.div_mul_le_self n s
  have hout : (n / s + 1) * s ≤ n + 1 ↔ s ∣ n + 1 := by
    rw [← Nat.le_div_iff_mul_le hpos, Nat.succ_div]
    split <;> simp_all
  have hnext : advance s (n / s) (n + 1) = (n + 1) / s := by
    rw [advance, Nat.add_sub_cancel, Nat.succ_div]
    by_cases hdvd : s ∣ n + 1
    · rw [if_pos (hout.mpr hdvd), if_pos hdvd, max_eq_left (Nat.le_succ _)]
    · rw [if_neg (fun h => hdvd (hout.mp h)), if_neg hdvd, Nat.add_zero]
  have hid : n + 1 < 2 ^ 31 := by omega
  rw [iterate, updateTupleID_count (by omega), slideTest_eq hs hid (by omega),
    if_pos ((next_fits_iff hpos n).mpr hn), decide_eq_decide.mpr hout, hnext]

theorem iterate_count_last (hs : 2 ≤ s) (ms : Nat) :
    iterate .count s ⟨slides s * s, (slides s * s / s * s : Nat)⟩ ms = .error .overflow := by
  have hpos : 0 < s := by omega
  have hfit : ¬ (slides s * s / s + 1) * s < 2 ^ 31 := by
    rw [next_fits_iff hpos]
    exact Nat.lt_irrefl _
  rw [iterate, updateTupleID_count (slides_mul_lt s), slideTest, due, if_neg (by omega),
    if_neg (by simp), addInt_eq, if_neg hfit, error_bind, error_bind]

theorem iterateAll_count (hs : 2 ≤ s) (arrivals : List Nat) {n : Nat} (hn : n ≤ slides s * s) :
    iterateAll .count s ⟨n, (n / s * s : Nat)⟩ arrivals =
      if n + arrivals.length ≤ slides s * s then .ok (multiplesFrom s n arrivals)
      else .error .overflow := by
  induction arrivals generalizing n with
  | nil =>
    rw [if_pos (by simpa using hn)]
    rfl
  | cons ms arrivals ih =>
    rw [iterateAll, List.length_cons]
    rcases Nat.lt_or_eq_of_le hn with hlt | rfl
    · rw [iterate_count hs hlt, ok_bind]
      dsimp only
      rw [ih hlt, show n + 1 + arrivals.length = n + (arrivals.length + 1) by omega]
      by_cases hlen : n + (arrivals.length + 1) ≤ slides s * s
      · rw [if_pos hlen, if_pos hlen]
        rfl
      · rw [if_neg hlen, if_neg hlen, error_bind]
    · rw [iterate_count_last hs, error_bind, if_neg (by omega)]

end Count

section Time

variable {s : Nat}

theorem twice_iff_chain (P : Nat → Prop) {l : List Nat} (hl : l.Pairwise (· ≤ ·)) :
    (∀ k, 2 ≤ l.countP (fun ms => decide (ms / s = k)) → P k) ↔
      l.IsChain fun a b => a / s = b / s → P (a / s) := by
  induction l with
  | nil => simp
  | cons a l ih =>
    obtain ⟨ha, hl⟩ := List.pairwise_cons.mp hl
    cases l with
    | nil =>
      refine iff_of_true ?_ (List.IsChain.singleton a)
      intro k hk
      have := List.countP_le_length (p := fun ms => decide (ms / s = k)) (l := [a])
      simp only [List.length_singleton] at this
      omega
    | cons b l =>
      rw [List.isChain_cons_cons, ← ih hl]
      have hmore : ∀ k, (b :: l).countP (fun ms => decide (ms / s = k)) ≤
          (a :: b :: l).countP (fun ms => decide (ms / s = k)) := fun _ =>
        (List.sublist_cons_self a (b :: l)).countP_le
      constructor
      · intro h
        refine ⟨fun hab => h _ ?_, fun k hk => h k (hk.trans (hmore k))⟩
        rw [List.countP_cons_of_pos (by simp), List.countP_cons_of_pos (by simp [hab])]
        omega
      · rintro ⟨hab, hrest⟩ k hk
        by_cases hak : a / s = k
        · rw [List.countP_cons_of_pos (by simp [hak])] at hk
          obtain ⟨c, hc, hck⟩ : ∃ c ∈ b :: l, decide (c / s = k) = true :=
            List.countP_pos_iff.mp (by omega)
          have hck : c / s = k := of_decide_eq_true hck
          have hbc : b ≤ c := by
            rcases List.mem_cons.mp hc with rfl | hc
            · exact Nat.le_refl _
            · exact (List.pairwise_cons.mp hl).1 c hc
          have hab' : a / s = b / s := by
            apply Nat.le_antisymm (Nat.div_le_div_right (ha b List.mem_cons_self))
            rw [hak, ← hck]
            exact Nat.div_le_div_right hbc
          rw [← hak]
          exact hab hab'
        · rw [List.countP_cons_of_neg (by simp [hak])] at hk
          exact hrest k hk

variable {arrivals front rest : List Nat} {prev ms n : Nat}

/-- The first tuple of a period is late if it arrives when the period begins, and none of the last
period has moved `last_out` there. -/
theorem late_iff (hpos : 0 < s) (hsorted : (front ++ prev :: ms :: rest).Pairwise (· ≤ ·))
    (hperiod : prev / s < ms / s) :
    Late s (front ++ prev :: ms :: rest) (ms / s) ↔
      ms = ms / s * s ∧ (prev / s + 1 ≠ ms / s ∨ Late s (front ++ prev :: ms :: rest) (prev / s)) := by
  have hbefore : ∀ x ∈ front, x ≤ prev := fun x hx =>
    (List.pairwise_append.mp hsorted).2.2 x hx prev List.mem_cons_self
  have hafter : ∀ x ∈ ms :: rest, ms ≤ x := by
    intro x hx
    rcases List.mem_cons.mp hx with rfl | hx
    · exact Nat.le_refl _
    · have hms := List.Pairwise.of_cons (List.pairwise_append.mp hsorted).2.1
      exact (List.pairwise_cons.mp hms).1 x hx
  have hside : ∀ x ∈ front ++ prev :: ms :: rest, x / s ≤ prev / s ∨ ms ≤ x := by
    intro x hx
    rcases List.mem_append.mp hx with hx | hx
    · exact Or.inl (Nat.div_le_div_right (hbefore x hx))
    · rcases List.mem_cons.mp hx with rfl | hx
      · exact Or.inl (Nat.le_refl _)
      · exact Or.inr (hafter x hx)
  obtain ⟨k, hk⟩ : ∃ k, ms / s = k + 1 :=
    Nat.exists_eq_succ_of_ne_zero (Nat.ne_of_gt (Nat.zero_lt_of_lt hperiod))
  have hmem : (k + 1) * s ∈ front ++ prev :: ms :: rest ↔ ms = (k + 1) * s := by
    constructor
    · intro h
      rcases hside _ h with hle | hle
      · rw [Nat.mul_div_cancel _ hpos] at hle
        omega
      · apply Nat.le_antisymm hle
        rw [← hk]
        exact Nat.div_mul_le_self ms s
    · intro h
      rw [← h]
      simp
  have hempty : (∀ x ∈ front ++ prev :: ms :: rest, x / s ≠ k) ↔ prev / s ≠ k := by
    constructor
    · intro h
      exact h prev (by simp)
    · intro h x hx hxk
      rcases hside x hx with hle | hle
      · omega
      · have := Nat.div_le_div_right (c := s) hle
        omega
  rw [hk, Late, hmem, hempty]
  by_cases hpk : prev / s = k
  · simp [hpk]
  · simp [hpk]

/-- Where `last_out` is after a tuple: at its period, or one slide behind. -/
def AtPeriod (s : Nat) (arrivals : List Nat) (prev n : Nat) : Prop :=
  (Late s arrivals (prev / s) → n + 1 = prev / s) ∧ (¬ Late s arrivals (prev / s) → n = prev / s)

theorem AtPeriod.le (h : AtPeriod s arrivals prev n) : n ≤ prev / s := by
  by_cases hlate : Late s arrivals (prev / s)
  · have := h.1 hlate
    omega
  · exact Nat.le_of_eq (h.2 hlate)

theorem AtPeriod.mul_le (h : AtPeriod s arrivals prev n) : n * s ≤ prev :=
  (Nat.mul_le_mul_right s h.le).trans (Nat.div_mul_le_self prev s)

theorem AtPeriod.next (hpos : 0 < s) (hsorted : (front ++ prev :: ms :: rest).Pairwise (· ≤ ·))
    (hperiod : prev / s < ms / s) (h : AtPeriod s (front ++ prev :: ms :: rest) prev n) :
    (n + 1) * s ≤ ms ∧ AtPeriod s (front ++ prev :: ms :: rest) ms (advance s n ms) := by
  have hle := h.le
  have hms : ms / s * s ≤ ms := Nat.div_mul_le_self ms s
  have hout : (n + 1) * s ≤ ms := (Nat.mul_le_mul_right s (by omega)).trans hms
  refine ⟨hout, ?_⟩
  unfold AtPeriod advance
  rw [late_iff hpos hsorted hperiod, if_pos hout]
  by_cases hexact : ms = ms / s * s
  · have hpred : (ms - 1) / s = ms / s - 1 := by
      obtain ⟨k, hk⟩ : ∃ k, ms / s = k + 1 :=
        Nat.exists_eq_succ_of_ne_zero (Nat.ne_of_gt (Nat.zero_lt_of_lt hperiod))
      have hsum : (k + 1) * s = k * s + s := by rw [Nat.add_mul, Nat.one_mul]
      rw [hk] at hexact ⊢
      rw [Nat.add_sub_cancel]
      exact Nat.div_eq_of_lt_le (by omega) (by omega)
    constructor
    · rintro ⟨-, hgap | hlate⟩
      · omega
      · have := h.1 hlate
        omega
    · intro hnot
      have := h.2 fun hlate => hnot ⟨hexact, Or.inr hlate⟩
      omega
  · have hpred : (ms - 1) / s = ms / s := by
      apply Nat.div_eq_of_lt_le
      · omega
      · have := Nat.lt_div_mul_add (a := ms) hpos
        rw [Nat.add_mul]
        omega
    constructor
    · rintro ⟨h, -⟩
      exact absurd h hexact
    · omega

theorem slideTest_same (hs : 2 ≤ s) (hint : s < 2 ^ 31) (hle : prev ≤ ms) (hsmall : ms < 2 ^ 31)
    (hperiod : prev / s = ms / s) (h : AtPeriod s arrivals prev n) :
    (slideTest s ⟨ms, (n * s : Nat)⟩ = .ok (false, ⟨ms, (n * s : Nat)⟩) ∧
        (1 ≤ prev / s → Settled s arrivals (prev / s))) ∨
      ((∀ st, slideTest s ⟨ms, (n * s : Nat)⟩ ≠ .ok (false, st)) ∧
        ¬ (1 ≤ prev / s → Settled s arrivals (prev / s))) := by
  have hpos : 0 < s := by omega
  have hlt : ms < (prev / s + 1) * s := by
    rw [hperiod, ← Nat.div_lt_iff_lt_mul hpos]
    exact Nat.lt_succ_self _
  have hms : prev / s * s ≤ ms := (Nat.div_mul_le_self prev s).trans hle
  rw [slideTest_eq hs hsmall (h.mul_le.trans hle), advance]
  by_cases hlate : Late s arrivals (prev / s)
  · -- `last_out` is a slide behind: a second output
    have hnext := h.1 hlate
    right
    rw [hnext, if_pos (by omega), decide_eq_true hms]
    refine ⟨by simp, fun hsettled => ?_⟩
    exact (hsettled (by omega)).1 hlate
  · have hn := h.2 hlate
    rw [hn]
    by_cases hfit : (prev / s + 1) * s < 2 ^ 31
    · left
      rw [if_pos hfit, if_neg (by omega), decide_eq_false (by omega)]
      exact ⟨rfl, fun _ => ⟨hlate, hfit⟩⟩
    · right
      rw [if_neg hfit]
      refine ⟨by simp, fun hsettled => ?_⟩
      have hone : 1 ≤ prev / s := by
        by_contra hzero
        have hprev : prev / s = 0 := by omega
        rw [hprev] at hfit hlt
        omega
      exact hfit (hsettled hone).2

theorem firstsFrom_same (hperiod : prev / s = ms / s) :
    firstsFrom s (front ++ [prev]) (ms :: rest) =
      false :: firstsFrom s (front ++ [prev] ++ [ms]) rest := by
  rw [firstsFrom, decide_eq_false]
  rintro ⟨-, h⟩
  exact h prev (by simp) hperiod

theorem firstsFrom_next (hsorted : ∀ x ∈ front, x ≤ prev) (hperiod : prev / s < ms / s) :
    firstsFrom s (front ++ [prev]) (ms :: rest) =
      true :: firstsFrom s (front ++ [prev] ++ [ms]) rest := by
  rw [firstsFrom, decide_eq_true]
  refine ⟨Nat.zero_lt_of_lt hperiod, fun x hx => ?_⟩
  have hle : x / s ≤ prev / s := by
    apply Nat.div_le_div_right
    rcases List.mem_append.mp hx with hx | hx
    · exact hsorted x hx
    · exact Nat.le_of_eq (List.mem_singleton.mp hx)
  omega

theorem iterateAll_time_iff (hs : 2 ≤ s) (hint : s < 2 ^ 31)
    (hsorted : (front ++ prev :: rest).Pairwise (· ≤ ·)) (hsmall : ∀ ms ∈ rest, ms < 2 ^ 31)
    (h : AtPeriod s (front ++ prev :: rest) prev n) :
    iterateAll .time s ⟨prev, (n * s : Nat)⟩ rest = .ok (firstsFrom s (front ++ [prev]) rest) ↔
      (prev :: rest).IsChain fun a b =>
        a / s = b / s → 1 ≤ a / s → Settled s (front ++ prev :: rest) (a / s) := by
  induction rest generalizing front prev n with
  | nil => exact iff_of_true rfl (List.IsChain.singleton prev)
  | cons ms rest ih =>
    have hsmall' := fun x hx => hsmall x (List.mem_cons_of_mem ms hx)
    have hlist : front ++ prev :: ms :: rest = (front ++ [prev]) ++ ms :: rest := by simp
    have hle : prev ≤ ms :=
      (List.pairwise_cons.mp (List.pairwise_append.mp hsorted).2.1).1 ms List.mem_cons_self
    have hfront : ∀ x ∈ front, x ≤ prev := fun x hx =>
      (List.pairwise_append.mp hsorted).2.2 x hx prev List.mem_cons_self
    rw [iterateAll, iterate, updateTupleID, List.isChain_cons_cons]
    rcases Nat.lt_or_eq_of_le (Nat.div_le_div_right hle) with hperiod | hperiod
    · obtain ⟨hout, hat⟩ := h.next (by omega) hsorted hperiod
      have hfit : (n + 1) * s < 2 ^ 31 := hout.trans_lt (hsmall ms List.mem_cons_self)
      rw [slideTest_eq hs (hsmall ms List.mem_cons_self) (h.mul_le.trans hle), if_pos hfit,
        decide_eq_true hout, ok_bind, firstsFrom_next hfront hperiod]
      dsimp only
      rw [hlist] at hsorted hat ⊢
      rw [← ih hsorted hsmall' hat, and_iff_right fun hab => absurd hab (Nat.ne_of_lt hperiod)]
      cases iterateAll .time s ⟨ms, (advance s n ms * s : Nat)⟩ rest with
      | ok outs =>
        simp [pure, Except.pure]
      | error e => simp
    · rw [firstsFrom_same hperiod]
      rcases slideTest_same hs hint hle (hsmall ms List.mem_cons_self) hperiod h with
        ⟨htest, hsettled⟩ | ⟨htest, hnot⟩
      · have hat : AtPeriod s (front ++ prev :: ms :: rest) ms n := by
          unfold AtPeriod
          rw [← hperiod]
          exact h
        rw [htest, ok_bind, and_iff_right fun _ => hsettled]
        dsimp only
        rw [hlist] at hsorted hat ⊢
        rw [← ih hsorted hsmall' hat]
        cases iterateAll .time s ⟨ms, (n * s : Nat)⟩ rest with
        | ok outs =>
          simp [pure, Except.pure]
        | error e => simp
      · refine iff_of_false ?_ fun hchain => hnot (hchain.1 hperiod)
        intro hrun
        cases htest' : slideTest s ⟨ms, (n * s : Nat)⟩ with
        | error e =>
          rw [htest'] at hrun
          cases hrun
        | ok out =>
          obtain ⟨out, st⟩ := out
          rw [htest', ok_bind] at hrun
          cases out with
          | false => exact htest st htest'
          | true =>
            dsimp only at hrun
            cases hrest : iterateAll .time s st rest with
            | error e =>
              rw [hrest] at hrun
              cases hrun
            | ok outs =>
              rw [hrest] at hrun
              cases hrun

theorem iterateAll_time_ends (hs : 2 ≤ s) (hn : n * s ≤ prev)
    (hsorted : (prev :: rest).Pairwise (· ≤ ·)) (hsmall : ∀ ms ∈ rest, ms < 2 ^ 31) :
    iterateAll .time s ⟨prev, (n * s : Nat)⟩ rest ≠ .error .loop := by
  induction rest generalizing prev n with
  | nil =>
    intro h
    cases h
  | cons ms rest ih =>
    obtain ⟨hprev, hrest⟩ := List.pairwise_cons.mp hsorted
    have hid : n * s ≤ ms := hn.trans (hprev ms List.mem_cons_self)
    rw [iterateAll, iterate, updateTupleID,
      slideTest_eq hs (hsmall ms List.mem_cons_self) hid]
    by_cases hfit : (n + 1) * s < 2 ^ 31
    · rw [if_pos hfit, ok_bind]
      have hends := ih (advance_le hid) hrest fun x hx => hsmall x (List.mem_cons_of_mem _ hx)
      dsimp only
      cases hrun : iterateAll .time s ⟨ms, (advance s n ms * s : Nat)⟩ rest with
      | ok outs =>
        intro h
        cases h
      | error e =>
        rw [hrun] at hends
        exact hends
    · rw [if_neg hfit]
      intro h
      cases h

end Time

/-- In a count window `slide_out` is right for exactly the runs up to the last multiple of the slide
that fits an `int`; in a time window for exactly those where a period with a second tuple is settled
when it comes. No run stays in the loop. -/
theorem slide_right_iff (path : AggrPath) (s : Nat) (hs : 2 ≤ s) (hint : s < 2 ^ 31) :
    (∀ arrivals, (slideOuts path .count s arrivals = .ok (multiplesFrom s 0 arrivals) ↔
        arrivals.length ≤ slides s * s) ∧
      slideOuts path .count s arrivals ≠ .error .loop) ∧
    ∀ t : Times, (slideOuts path .time s t.arrivals = .ok (firstsFrom s [] t.arrivals) ↔
        ∀ k, 1 ≤ k → 2 ≤ t.arrivals.countP (fun ms => decide (ms / s = k)) →
          Settled s t.arrivals k) ∧
      slideOuts path .time s t.arrivals ≠ .error .loop := by
  constructor
  · intro arrivals
    have hrun := iterateAll_count hs arrivals (Nat.zero_le _)
    rw [Nat.zero_div, Nat.zero_mul, Nat.zero_add] at hrun
    have hout : slideOuts path .count s arrivals = iterateAll .count s ⟨0, (0 : Nat)⟩ arrivals :=
      slideOuts_eq hs hint path (by simp)
    rw [hout, hrun]
    by_cases hlen : arrivals.length ≤ slides s * s
    · simp [hlen]
    · simp [hlen]
  · rintro ⟨arrivals, hstart, hsorted, hsmall⟩
    obtain ⟨rest, rfl⟩ : ∃ rest, arrivals = 0 :: rest := by
      cases arrivals with
      | nil => cases hstart
      | cons ms rest => exact ⟨rest, by rw [Option.some.inj hstart]⟩
    have hfirst : iterateAll .time s newStatus (0 :: rest) =
        (iterateAll .time s ⟨0, (0 * s : Nat)⟩ rest >>= fun outs => .ok (false :: outs)) := by
      rw [iterateAll, ← init, init_eq hs hint .uda fun _ => rfl, Nat.zero_mul]
      rfl
    have hspec : firstsFrom s [] (0 :: rest) = false :: firstsFrom s [0] rest := by
      rw [firstsFrom, decide_eq_false (by simp)]
      rfl
    have hat : AtPeriod s ([] ++ 0 :: rest) 0 0 := by
      unfold AtPeriod
      rw [Nat.zero_div]
      exact ⟨fun h => h.elim, fun _ => rfl⟩
    have hrest : ∀ ms ∈ rest, ms < 2 ^ 31 := fun ms hms => hsmall ms (List.mem_cons_of_mem _ hms)
    have hchain := iterateAll_time_iff hs hint hsorted hrest hat
    have hends := iterateAll_time_ends hs (Nat.le_of_eq (Nat.zero_mul s)) hsorted hrest
    have htwice := twice_iff_chain (s := s)
      (fun k => 1 ≤ k → Settled s (0 :: rest) k) hsorted
    rw [slideOuts_eq hs hint path (by simp), hfirst, hspec]
    constructor
    · rw [show (∀ k, 1 ≤ k → 2 ≤ (0 :: rest).countP (fun ms => decide (ms / s = k)) →
          Settled s (0 :: rest) k) ↔ _ from ⟨fun h k h2 h1 => h k h1 h2,
          fun h k h1 h2 => h k h2 h1⟩, htwice]
      rw [List.nil_append, List.nil_append] at hchain
      rw [← hchain]
      cases iterateAll .time s ⟨0, (0 * s : Nat)⟩ rest with
      | ok outs => simp
      | error e => simp
    · cases hrun : iterateAll .time s ⟨0, (0 * s : Nat)⟩ rest with
      | ok outs => simp
      | error e =>
        rw [hrun] at hends
        rw [error_bind]
        exact hends

/-- A slide of 2 seconds. -/
theorem slide_right_two :
    (∀ arrivals, (slideOuts .uda .count 2000 arrivals = .ok (multiplesFrom 2000 0 arrivals) ↔
        arrivals.length ≤ slides 2000 * 2000) ∧
      slideOuts .uda .count 2000 arrivals ≠ .error .loop) ∧
    ∀ t : Times, (slideOuts .uda .time 2000 t.arrivals = .ok (firstsFrom 2000 [] t.arrivals) ↔
        ∀ k, 1 ≤ k → 2 ≤ t.arrivals.countP (fun ms => decide (ms / 2000 = k)) →
          Settled 2000 t.arrivals k) ∧
      slideOuts .uda .time 2000 t.arrivals ≠ .error .loop :=
  slide_right_iff .uda 2000 (by decide) (by decide)

def gapTimes : Times where
  arrivals := [0, 4000, 4500]
  start := rfl
  sorted := by decide
  small := by decide

/-- Both have output. -/
theorem gapTimes_twice :
    ¬ ∀ (path : AggrPath) (s : Nat), 2 ≤ s → s < 2 ^ 31 → ∀ t : Times,
      slideOuts path .time s t.arrivals = .ok (firstsFrom s [] t.arrivals) := by
  intro h
  have htwice := h .uda 2000 (by decide) (by decide) gapTimes
  revert htwice
  decide +kernel

end SlideTest
end StreamMill.Window
