import Mathlib.Data.Int.Basic
import Mathlib.Data.List.Basic
import Mathlib.Data.Nat.Basic
import Mathlib.Logic.Function.Basic
import Mathlib.Algebra.Order.Ring.Nat
import Mathlib.Tactic.Ring

/-!
# StreamMill.Window.BaseAggr

The fast path of `transCallUDA` for a count window whose slide is at least as long as the window:
instead of expiring tuples it skips the first `slide - size` tuples of each slide and calls the
base aggregate on the others. The state of an aggregate is the list of the tuples that have
reached it since it was allocated. `rightFrom_iff` says when every tuple is treated as its number
in its group asks for.
-/

namespace StreamMill.Window

/-- A call of the base aggregate: its state is the tuples it has got so far. -/
inductive BaseCall (T : Type)
  | init (t : T)
  | iterate (state : List T) (t : T)
  | terminate (state : List T)
  deriving DecidableEq

structure BaseStatus (T : Type) where
  tupleId : Nat
  lastOut : Int
  iterate : Bool
  init : Bool
  state : List T

inductive BaseFault
  /-- `last_out + slide` does not fit an `int`. -/
  | overflow
  deriving DecidableEq

section Code

variable {G T : Type} [DecidableEq G]

def newBaseStatus : BaseStatus T where
  tupleId := 0
  lastOut := 0
  iterate := false
  init := true
  state := []

abbrev Calls (T : Type) := List (BaseCall T) × Bool

/-- The branches of the generated code for one tuple: the calls and `slide_out`, the status after
them, and whether the group table is deleted on the way. -/
def baseBranch (size slide : Nat) (st : BaseStatus T) (t : T) :
    Calls T × BaseStatus T × Bool :=
  if (st.tupleId : Int) ≤ st.lastOut + slide - size then
    (([], false), { st with init := true }, false)
  else if (st.tupleId : Int) ≥ st.lastOut + slide ∧ !st.init then
    (([.iterate st.state t, .terminate (st.state ++ [t])], true),
      { st with lastOut := st.lastOut + slide, iterate := false, init := true,
                state := st.state ++ [t] }, false)
  else if (st.tupleId : Int) ≥ st.lastOut + slide - size ∧ !st.iterate ∧ st.init then
    (([.init t], false), { st with iterate := true, init := false, state := [t] }, true)
  else if (st.tupleId : Int) ≥ st.lastOut + slide - size ∧ st.iterate then
    (([.iterate st.state t], false), { st with state := st.state ++ [t] }, false)
  else (([], true), st, false)

/-- A tuple of group `g`. `hashgb_delete` drops the entries of all groups, and then the group puts
its own again. -/
def baseStep (size slide : Nat) (table : G → Option (BaseStatus T)) (g : G) (t : T) :
    Except BaseFault (Calls T × (G → Option (BaseStatus T))) :=
  let st := (table g).getD newBaseStatus
  let st := { st with tupleId := (st.tupleId + 1) % 2 ^ 32 }
  if st.lastOut + (slide : Int) < 2 ^ 31 then
    let (calls, st, deleted) := baseBranch size slide st t
    let table := if deleted then fun _ => none else table
    .ok (calls, Function.update table g (some st))
  else .error .overflow

end Code

section Spec

variable {G T : Type} [DecidableEq G]

/-- What the tuple `t` asks for after the tuples `hist` of its group. -/
def windowCalls (size slide : Nat) (hist : List T) (t : T) : Calls T :=
  let r := hist.length % slide
  if r < slide - size then ([], false)
  else
    let win := hist.drop (hist.length - (r - (slide - size)))
    ((if r = slide - size then [.init t] else [.iterate win t]) ++
      if r + 1 = slide then [.terminate (win ++ [t])] else [], r + 1 = slide)

/-- Every tuple is treated as its group asks for. -/
def RightFrom (size slide : Nat) :
    (G → Option (BaseStatus T)) → (G → List T) → List (G × T) → Prop
  | _, _, [] => True
  | table, hist, (g, t) :: input =>
    ∃ table', baseStep size slide table g t = .ok (windowCalls size slide (hist g) t, table') ∧
      RightFrom size slide table' (Function.update hist g (hist g ++ [t])) input

inductive Phase
  | skip
  | start
  | middle
  | last
  deriving DecidableEq

def phase (size slide n : Nat) : Phase :=
  if n % slide < slide - size then .skip
  else if n % slide = slide - size then .start
  else if n % slide + 1 < slide then .middle
  else .last

/-- The tuple after `n` others of its group, `m` of them since another group has last started a
window, is in one phase by both numbers, and the end of its slide fits an `int`. -/
def Undisturbed (size slide n m : Nat) : Prop :=
  phase size slide n = phase size slide m ∧ m / slide * slide + slide < 2 ^ 31 ∧
    (size = 1 → n + 1 < slide)

/-- The numbers of tuples so far, counted in all and counted since another group has last started a
window. -/
structure Counts (G : Type) where
  total : G → Nat
  since : G → Nat

def Counts.next (size slide : Nat) (c : Counts G) (g : G) : Counts G where
  total := Function.update c.total g (c.total g + 1)
  since := Function.update
    (if phase size slide (c.total g) = .start then fun _ => 0 else c.since) g (c.since g + 1)

def AllUndisturbed (size slide : Nat) : Counts G → List G → Prop
  | _, [] => True
  | c, g :: gs => Undisturbed size slide (c.total g) (c.since g) ∧
    AllUndisturbed size slide (c.next size slide g) gs

end Spec

section Invariant

variable {G T : Type} [DecidableEq G] {size slide : Nat}

theorem succ_inside {m : Nat} (hpos : 0 < slide) (h : m % slide + 1 < slide) :
    (m + 1) / slide = m / slide ∧ (m + 1) % slide = m % slide + 1 := by
  rw [Nat.div_mod_unique hpos]
  have := Nat.div_add_mod m slide
  omega

theorem succ_wrap {m : Nat} (hpos : 0 < slide) (h : m % slide + 1 = slide) :
    (m + 1) / slide = m / slide + 1 ∧ (m + 1) % slide = 0 := by
  rw [Nat.div_mod_unique hpos]
  have := Nat.div_add_mod m slide
  rw [Nat.mul_add]
  omega

/-- The status of a group after `m` tuples, and the tuples that the current window has. -/
structure Matches (size slide : Nat) (st : BaseStatus T) (m : Nat) (hist : List T) : Prop where
  tupleId : st.tupleId = m
  lastOut : st.lastOut = ((m / slide * slide : Nat) : Int)
  iterate : st.iterate = decide (slide - size < m % slide)
  init : st.init = !st.iterate
  state : slide - size < m % slide →
    st.state = hist.drop (hist.length - (m % slide - (slide - size)))

theorem matches_new (hist : List T) : Matches size slide newBaseStatus 0 hist where
  tupleId := rfl
  lastOut := by simp [newBaseStatus]
  iterate := by simp [newBaseStatus]
  init := rfl
  state := fun h => by simp at h

def phaseCalls (state : List T) (t : T) : Phase → Calls T
  | .skip => ([], false)
  | .start => ([.init t], false)
  | .middle => ([.iterate state t], false)
  | .last => ([.iterate state t, .terminate (state ++ [t])], true)

def phaseNext (slide : Nat) (st : BaseStatus T) (t : T) : Phase → BaseStatus T
  | .skip => { st with tupleId := st.tupleId + 1, init := true }
  | .start =>
    { st with tupleId := st.tupleId + 1, iterate := true, init := false, state := [t] }
  | .middle => { st with tupleId := st.tupleId + 1, state := st.state ++ [t] }
  | .last =>
    { st with tupleId := st.tupleId + 1, lastOut := st.lastOut + slide, iterate := false,
              init := true, state := st.state ++ [t] }

theorem phase_cases (hw : 1 ≤ size) (hs : size ≤ slide) (m : Nat) :
    (phase size slide m = .skip ∧ m % slide < slide - size) ∨
    (phase size slide m = .start ∧ m % slide = slide - size) ∨
    (phase size slide m = .middle ∧ slide - size < m % slide ∧ m % slide + 1 < slide) ∨
    (phase size slide m = .last ∧ slide - size < m % slide ∧ m % slide + 1 = slide) := by
  have hlt := Nat.mod_lt m (by omega : slide > 0)
  unfold phase
  split
  · exact Or.inl ⟨rfl, by assumption⟩
  · split
    · exact Or.inr (Or.inl ⟨rfl, by assumption⟩)
    · split
      · exact Or.inr (Or.inr (Or.inl ⟨rfl, by omega, by assumption⟩))
      · exact Or.inr (Or.inr (Or.inr ⟨rfl, by omega, by omega⟩))

theorem baseBranch_eq (hw : 1 ≤ size) (hs : size ≤ slide) {st : BaseStatus T} {m : Nat}
    {hist : List T} (h : Matches size slide st m hist) (t : T) :
    baseBranch size slide { st with tupleId := st.tupleId + 1 } t =
      (phaseCalls st.state t (phase size slide m), phaseNext slide st t (phase size slide m),
        decide (phase size slide m = .start)) := by
  have hdiv : m / slide * slide + m % slide = m := by
    rw [Nat.mul_comm]
    exact Nat.div_add_mod m slide
  have hid : (((st.tupleId + 1 : Nat)) : Int) = st.lastOut + (m % slide : Nat) + 1 := by
    rw [h.tupleId, h.lastOut]
    exact_mod_cast (by omega : m + 1 = m / slide * slide + m % slide + 1)
  have hiter := h.iterate
  have hinit := h.init
  unfold baseBranch
  dsimp only
  rcases phase_cases hw hs m with ⟨hp, hr⟩ | ⟨hp, hr⟩ | ⟨hp, hr, hr'⟩ | ⟨hp, hr, hr'⟩
  · rw [hp, if_pos (by omega)]
    rfl
  · have hnot : st.iterate = false := by rw [hiter]; exact decide_eq_false (by omega)
    have hin : st.init = true := by rw [hinit, hnot]; rfl
    rw [hp, if_neg (by omega), if_neg (by simp [hin]), if_pos ⟨by omega, by simp [hnot], hin⟩]
    rfl
  · have hyes : st.iterate = true := by rw [hiter]; exact decide_eq_true hr
    rw [hp, if_neg (by omega), if_neg (by omega), if_neg (by simp [hyes]), if_pos ⟨by omega, hyes⟩]
    rfl
  · have hyes : st.iterate = true := by rw [hiter]; exact decide_eq_true hr
    have hin : st.init = false := by rw [hinit, hyes]; rfl
    rw [hp, if_neg (by omega), if_pos ⟨by omega, by simp [hin]⟩]
    rfl

theorem phaseCalls_inj {state state' : List T} {t : T} {p p' : Phase}
    (h : phaseCalls state t p = phaseCalls state' t p') : p = p' := by
  cases p <;> cases p' <;> first | rfl | simp [phaseCalls] at h

theorem windowCalls_eq (hw : 1 ≤ size) (hs : size ≤ slide) (hist : List T) (t : T)
    (hone : size = 1 → phase size slide hist.length ≠ .start) :
    windowCalls size slide hist t =
      phaseCalls (hist.drop (hist.length - (hist.length % slide - (slide - size)))) t
        (phase size slide hist.length) := by
  unfold windowCalls
  dsimp only
  rcases phase_cases hw hs hist.length with ⟨hp, hr⟩ | ⟨hp, hr⟩ | ⟨hp, hr, hr'⟩ | ⟨hp, hr, hr'⟩
  · rw [hp, if_pos hr]
    rfl
  · have hne : size ≠ 1 := fun h1 => hone h1 hp
    have hend : ¬ (hist.length % slide + 1 = slide) := by omega
    rw [hp, if_neg (by omega), if_pos hr, if_neg hend, decide_eq_false hend]
    rfl
  · have hend : ¬ (hist.length % slide + 1 = slide) := by omega
    rw [hp, if_neg (by omega), if_neg (by omega), if_neg hend, decide_eq_false hend]
    rfl
  · rw [hp, if_neg (by omega), if_neg (by omega), if_pos hr', decide_eq_true hr']
    rfl

variable {st : BaseStatus T} {m : Nat} {hist : List T}

theorem Matches.next (hw : 1 ≤ size) (hs : size ≤ slide) (h : Matches size slide st m hist)
    (hsync : slide - size < m % slide → m % slide ≤ hist.length) (t : T)
    (hone : size = 1 → phase size slide m ≠ .start) :
    Matches size slide (phaseNext slide st t (phase size slide m)) (m + 1) (hist ++ [t]) := by
  have hpos : 0 < slide := by omega
  rcases phase_cases hw hs m with ⟨hp, hr⟩ | ⟨hp, hr⟩ | ⟨hp, hr, hr'⟩ | ⟨hp, hr, hr'⟩
  · obtain ⟨hdiv, hmod⟩ := succ_inside hpos (by omega : m % slide + 1 < slide)
    have hiter : st.iterate = false := by rw [h.iterate]; exact decide_eq_false (by omega)
    rw [hp]
    exact
      { tupleId := congrArg (· + 1) h.tupleId
        lastOut := by rw [hdiv]; exact h.lastOut
        iterate := by exact hiter.trans (decide_eq_false (by omega)).symm
        init := by show true = !st.iterate; rw [hiter]; rfl
        state := fun hgt => by omega }
  · have hne : size ≠ 1 := fun h1 => hone h1 hp
    obtain ⟨hdiv, hmod⟩ := succ_inside hpos (by omega : m % slide + 1 < slide)
    rw [hp]
    exact
      { tupleId := congrArg (· + 1) h.tupleId
        lastOut := by rw [hdiv]; exact h.lastOut
        iterate := by exact (decide_eq_true (by omega)).symm
        init := rfl
        state := fun _ => by
          have hlen : (hist ++ [t]).length - ((m + 1) % slide - (slide - size)) = hist.length := by
            rw [List.length_append, List.length_singleton]
            omega
          rw [hlen, List.drop_left]
          rfl }
  · obtain ⟨hdiv, hmod⟩ := succ_inside hpos hr'
    have hiter : st.iterate = true := by rw [h.iterate]; exact decide_eq_true hr
    rw [hp]
    exact
      { tupleId := congrArg (· + 1) h.tupleId
        lastOut := by rw [hdiv]; exact h.lastOut
        iterate := by exact hiter.trans (decide_eq_true (by omega)).symm
        init := h.init
        state := fun _ => by
          have hlen : (hist ++ [t]).length - ((m + 1) % slide - (slide - size)) =
              hist.length - (m % slide - (slide - size)) := by
            rw [List.length_append, List.length_singleton]
            omega
          rw [hlen, List.drop_append_of_le_length (Nat.sub_le _ _), ← h.state hr]
          rfl }
  · obtain ⟨hdiv, hmod⟩ := succ_wrap hpos hr'
    rw [hp]
    exact
      { tupleId := congrArg (· + 1) h.tupleId
        lastOut := by
          show st.lastOut + (slide : Int) = _
          rw [hdiv, h.lastOut, Nat.add_mul, Nat.one_mul, Nat.cast_add]
        iterate := by exact (decide_eq_false (by omega)).symm
        init := rfl
        state := fun hgt => by omega }

end Invariant

section Run

variable {G T : Type} [DecidableEq G] {size slide : Nat}

/-- The table after the tuples counted by `c`, with the histories `hist`. -/
structure BaseInv (size slide : Nat) (table : G → Option (BaseStatus T)) (hist : G → List T)
    (c : Counts G) : Prop where
  total : ∀ g, c.total g = (hist g).length
  status : ∀ g, Matches size slide ((table g).getD newBaseStatus) (c.since g) (hist g)
  synced : ∀ g, slide - size < c.since g % slide → c.total g % slide = c.since g % slide
  one : size = 1 → ∀ g, c.since g = c.total g ∧ c.total g < slide

variable {table : G → Option (BaseStatus T)} {hist : G → List T} {c : Counts G}

theorem baseStep_eq (hw : 1 ≤ size) (hs : size ≤ slide) {g : G} {m : Nat} {hist : List T}
    (h : Matches size slide ((table g).getD newBaseStatus) m hist) (t : T) :
    baseStep size slide table g t =
      if m / slide * slide + slide < 2 ^ 31 then
        .ok (phaseCalls ((table g).getD newBaseStatus).state t (phase size slide m),
          Function.update (if phase size slide m = .start then fun _ => none else table) g
            (some (phaseNext slide ((table g).getD newBaseStatus) t (phase size slide m))))
      else .error .overflow := by
  have hlast := h.lastOut
  have hfits : ((table g).getD newBaseStatus).lastOut + (slide : Int) < 2 ^ 31 ↔
      m / slide * slide + slide < 2 ^ 31 := by
    rw [hlast]
    exact_mod_cast Iff.rfl
  unfold baseStep
  by_cases hlt : m / slide * slide + slide < 2 ^ 31
  · have hmod : (((table g).getD newBaseStatus).tupleId + 1) % 2 ^ 32 =
        ((table g).getD newBaseStatus).tupleId + 1 := by
      have hdiv : m / slide * slide + m % slide = m := by
        rw [Nat.mul_comm]
        exact Nat.div_add_mod m slide
      have hr := Nat.mod_lt m (by omega : slide > 0)
      rw [h.tupleId]
      exact Nat.mod_eq_of_lt (by omega)
    rw [if_pos (hfits.mpr hlt), if_pos hlt, hmod, baseBranch_eq hw hs h]
    simp [decide_eq_true_eq]
  · rw [if_neg (fun hc => hlt (hfits.mp hc)), if_neg hlt]

theorem phase_ne_start {n : Nat} (h1 : size = 1) (hn : n + 1 < slide) :
    phase size slide n ≠ .start := by
  have hmod : n % slide = n := Nat.mod_eq_of_lt (by omega)
  intro hp
  unfold phase at hp
  rw [if_pos (by omega)] at hp
  cases hp

theorem phaseCalls_congr {state state' : List T} {t : T} {p : Phase}
    (h : p = .middle ∨ p = .last → state = state') :
    phaseCalls state t p = phaseCalls state' t p := by
  cases p with
  | skip => rfl
  | start => rfl
  | middle => rw [h (Or.inl rfl)]
  | last => rw [h (Or.inr rfl)]

section

variable (hw : 1 ≤ size) (hs : size ≤ slide)
include hw hs

theorem started_of_phase {m : Nat} (h : phase size slide m = .middle ∨ phase size slide m = .last) :
    slide - size < m % slide := by
  rcases phase_cases hw hs m with ⟨hp, hr⟩ | ⟨hp, hr⟩ | ⟨hp, hr, -⟩ | ⟨hp, hr, -⟩
  · rw [hp] at h
    rcases h with h | h <;> cases h
  · rw [hp] at h
    rcases h with h | h <;> cases h
  · exact hr
  · exact hr

theorem baseStep_right_iff (h : BaseInv size slide table hist c) (g : G) (t : T) :
    (∃ table', baseStep size slide table g t = .ok (windowCalls size slide (hist g) t, table')) ↔
      Undisturbed size slide (c.total g) (c.since g) := by
  rw [baseStep_eq hw hs (h.status g)]
  by_cases hlt : c.since g / slide * slide + slide < 2 ^ 31
  · have htotal := h.total g
    rw [if_pos hlt]
    constructor
    · rintro ⟨table', hrun⟩
      have hcalls := (Prod.mk.inj (Except.ok.inj hrun)).1
      have hone : size = 1 → c.total g + 1 < slide := by
        intro h1
        obtain ⟨hsince, hless⟩ := h.one h1 g
        by_contra hge
        have hmod : c.total g % slide = c.total g := Nat.mod_eq_of_lt hless
        have hp : phase size slide (c.since g) = .start := by
          unfold phase
          rw [hsince, if_neg (by omega), if_pos (by omega)]
        have hout : (windowCalls size slide (hist g) t).2 = true := by
          unfold windowCalls
          rw [← htotal, if_neg (by omega)]
          exact decide_eq_true (by omega)
        rw [hp] at hcalls
        rw [← hcalls] at hout
        cases hout
      have hphase := windowCalls_eq hw hs (hist g) t
        fun h1 => by rw [← htotal]; exact phase_ne_start h1 (hone h1)
      rw [hphase] at hcalls
      rw [htotal]
      exact ⟨(phaseCalls_inj hcalls).symm, hlt, by rw [← htotal]; exact hone⟩
    · rintro ⟨hphase, -, hone⟩
      have hcalls : phaseCalls ((table g).getD newBaseStatus).state t
          (phase size slide (c.since g)) = windowCalls size slide (hist g) t := by
        have hwin := windowCalls_eq hw hs (hist g) t
          fun h1 => by rw [← htotal]; exact phase_ne_start h1 (hone h1)
        rw [hwin, ← htotal, hphase]
        apply phaseCalls_congr
        intro hp
        have hr := started_of_phase hw hs hp
        rw [(h.status g).state hr, ← h.synced g hr, htotal]
      rw [hcalls]
      exact ⟨_, rfl⟩
  · rw [if_neg hlt]
    constructor
    · rintro ⟨table', hfault⟩
      cases hfault
    · rintro ⟨-, hfits, -⟩
      exact absurd hfits hlt

theorem synced_next {n m : Nat} (hphase : phase size slide n = phase size slide m)
    (h : slide - size < m % slide → n % slide = m % slide) (hr : slide - size < (m + 1) % slide) :
    (n + 1) % slide = (m + 1) % slide := by
  have hpos : 0 < slide := by omega
  have hmod : n % slide = m % slide := by
    rcases phase_cases hw hs m with ⟨hp, hm⟩ | ⟨hp, hm⟩ | ⟨hp, hm, -⟩ | ⟨hp, hm, -⟩
    · have hnext := (succ_inside hpos (by omega : m % slide + 1 < slide)).2
      omega
    · rw [hp] at hphase
      rcases phase_cases hw hs n with ⟨hq, hn⟩ | ⟨hq, hn⟩ | ⟨hq, hn, -⟩ | ⟨hq, hn, -⟩
      · rw [hq] at hphase
        cases hphase
      · rw [hn, hm]
      · rw [hq] at hphase
        cases hphase
      · rw [hq] at hphase
        cases hphase
    · exact h hm
    · exact h hm
  rw [Nat.add_mod n, Nat.add_mod m, hmod]

theorem BaseInv.next (h : BaseInv size slide table hist c) {g : G}
    (hu : Undisturbed size slide (c.total g) (c.since g)) (t : T) :
    BaseInv size slide
      (Function.update (if phase size slide (c.since g) = .start then fun _ => none else table) g
        (some (phaseNext slide ((table g).getD newBaseStatus) t (phase size slide (c.since g)))))
      (Function.update hist g (hist g ++ [t])) (c.next size slide g) := by
  obtain ⟨hphase, hfits, hone⟩ := hu
  have htotal := h.total g
  constructor
  · intro g'
    by_cases hg : g' = g
    · subst hg
      simp [Counts.next, htotal]
    · simp [Counts.next, Function.update_of_ne hg, h.total g']
  · intro g'
    by_cases hg : g' = g
    · subst hg
      simp only [Counts.next, Function.update_self, Option.getD_some]
      refine (h.status g').next hw hs ?_ t ?_
      · intro hr
        rw [← htotal, ← h.synced g' hr]
        exact Nat.mod_le _ _
      · intro h1
        rw [← hphase]
        exact phase_ne_start h1 (hone h1)
    · simp only [Counts.next, Function.update_of_ne hg, hphase]
      split
      · exact matches_new _
      · exact h.status g'
  · intro g'
    by_cases hg : g' = g
    · subst hg
      simp only [Counts.next, Function.update_self]
      exact synced_next hw hs hphase (h.synced g')
    · simp only [Counts.next, Function.update_of_ne hg]
      split
      · intro hr
        simp at hr
      · exact h.synced g'
  · intro h1 g'
    have hne : phase size slide (c.total g) ≠ .start := phase_ne_start h1 (hone h1)
    by_cases hg : g' = g
    · subst hg
      simp only [Counts.next, Function.update_self, (h.one h1 g').1]
      exact ⟨trivial, hone h1⟩
    · simp only [Counts.next, Function.update_of_ne hg, if_neg hne]
      exact h.one h1 g'

theorem rightFrom_of (h : BaseInv size slide table hist c) (input : List (G × T)) :
    RightFrom size slide table hist input ↔
      AllUndisturbed size slide c (input.map Prod.fst) := by
  induction input generalizing table hist c with
  | nil => exact Iff.rfl
  | cons x input ih =>
    obtain ⟨g, t⟩ := x
    have hstep := baseStep_right_iff hw hs h g t
    constructor
    · rintro ⟨table', hrun, hrest⟩
      have hu := hstep.mp ⟨table', hrun⟩
      refine ⟨hu, ?_⟩
      rw [baseStep_eq hw hs (h.status g), if_pos hu.2.1] at hrun
      obtain rfl := (Prod.mk.inj (Except.ok.inj hrun)).2
      exact (ih (h.next hw hs hu t)).mp hrest
    · rintro ⟨hu, hrest⟩
      obtain ⟨table', hrun⟩ := hstep.mpr hu
      refine ⟨table', hrun, ?_⟩
      rw [baseStep_eq hw hs (h.status g), if_pos hu.2.1] at hrun
      obtain rfl := (Prod.mk.inj (Except.ok.inj hrun)).2
      exact (ih (h.next hw hs hu t)).mpr hrest

end

omit [DecidableEq G] in
theorem baseInv_new (hs : 1 ≤ slide) : BaseInv (T := T) size slide (fun _ => none) (fun _ => [])
    (⟨fun _ => 0, fun _ => 0⟩ : Counts G) where
  total := fun _ => rfl
  status := fun _ => matches_new _
  synced := fun _ h => by simp at h
  one := fun _ _ => ⟨rfl, hs⟩

/-- For every window and slide, and every sequence of tuples of any groups: each is treated as its
number in its group asks for exactly if all are undisturbed. -/
theorem rightFrom_iff (hw : 1 ≤ size) (hs : size ≤ slide) (input : List (G × T)) :
    RightFrom size slide (fun _ => none) (fun _ => []) input ↔
      AllUndisturbed size slide ⟨fun _ => 0, fun _ => 0⟩ (input.map Prod.fst) := by
  rw [rightFrom_of hw hs (baseInv_new (by omega))]

/-- One group and a window of two tuples that slides by three. -/
theorem rightFrom_oneGroup :
    RightFrom 2 3 (fun _ => none) (fun _ => [])
      [((), 'a'), ((), 'b'), ((), 'c'), ((), 'd'), ((), 'e'), ((), 'f')] := by
  refine (rightFrom_iff (by omega) (by omega) _).mpr ?_
  simp [AllUndisturbed, Undisturbed, Counts.next, phase]

end Run

/-- A second group inside the window of the first: the first loses its place. -/
theorem twoGroups_not_right :
    ¬ RightFrom 2 2 (fun _ => none) (fun _ => [])
      [(false, 'a'), (true, 'b'), (false, 'c'), (false, 'd')] := by
  intro h
  rw [rightFrom_of (by omega) (by omega) (baseInv_new (by omega))] at h
  simp [AllUndisturbed, Undisturbed, Counts.next, phase] at h

end StreamMill.Window
