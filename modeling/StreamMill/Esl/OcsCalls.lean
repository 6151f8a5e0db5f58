import Mathlib.Tactic.Positivity
import StreamMill.Esl.PathPriority

/-!
# StreamMill.Esl.OcsCalls

What a call of `update_priority` that ends preserves, on any table: it changes the entries only by
making one that is missing, and by giving a path to a statement that has statistics and no rank.
A settled entry stays, and the numbers of the paths are positive, or not negative, where the
statistics are.
-/

namespace StreamMill.Esl

variable {cat : Catalog} {stats : StmtStats} {mode : QuotaMode} {t : BufStateTbl} {n : Nat}
  {s x : StmtId} {st st' : OcsState}

/-- The paths that a call can set, from the entries there are. -/
def Offered (cat : Catalog) (st : OcsState) (m : StmtStat) (p : OcsPath) : Prop :=
  p = .default ∨ p = m.sinkPath ∨ ∃ y, p = m.path (st.entry cat y)

structure Preserved (cat : Catalog) (stats : StmtStats) (mode : QuotaMode) (I : OcsState → Prop) :
    Prop where
  ensure : ∀ st s, I st → I (st.ensure cat s)
  setPath : ∀ st st' s m p, I st → ¬ st.Ranked s → knownStat cat stats s = some m → I st' →
    Offered cat st' m p → I (st'.setPath cat mode s p)

theorem downstream_from {run : StmtId → OcsState → Option OcsState} {b : Name} {e : BufferEntry}
    {r : Option OCSEntry} (h : downstream cat t run b e st = some (r, st')) :
    (st' = st ∨ ∃ y, run y st = some st') ∧ (r = none ∨ ∃ y, r = some (st'.entry cat y)) := by
  rw [downstream] at h
  split at h
  · split at h
    · cases hd : forkDummies t b with
      | nil =>
        rw [hd, forkBranch, Option.some.injEq, Prod.mk.injEq] at h
        exact ⟨.inl h.2.symm, .inl h.1.symm⟩
      | cons e es =>
        rw [hd, forkBranch] at h
        split at h
        · cases h
        · next y hy =>
          split at h
          · cases h
          · next st₁ hst₁ =>
            split at h
            · cases h
            · obtain ⟨rfl, rfl⟩ := h
              refine ⟨?_, .inl rfl⟩
              split at hst₁
              · exact .inl (Option.some.inj hst₁).symm
              · exact .inr ⟨y, hst₁⟩
    · rw [Option.some.injEq, Prod.mk.injEq] at h
      exact ⟨.inl h.2.symm, .inl h.1.symm⟩
  · split at h
    · cases h
    · next y hy =>
      rw [onlyBranch] at h
      split at h
      · cases h
      · split at h
        · cases h
        · next st₁ hst₁ =>
          split at h
          · obtain ⟨rfl, rfl⟩ := h
            exact ⟨.inr ⟨y, hst₁⟩, .inr ⟨y, rfl⟩⟩
          · obtain ⟨rfl, rfl⟩ := h
            exact ⟨.inr ⟨y, hst₁⟩, .inl rfl⟩

/-- The rule for a property of the entries and ranks over a call. -/
theorem updatePriority_preserves {I : OcsState → Prop} (hI : Preserved cat stats mode I)
    (hok : updatePriority cat stats mode t n s st = some st') (hst : I st) : I st' := by
  induction n generalizing s st st' with
  | zero => cases hok
  | succ n ih =>
    have hens := hI.ensure st s hst
    rw [updatePriority] at hok
    split at hok
    · rw [← Option.some.inj hok]
      exact hens
    · next hr =>
      split at hok
      · rw [← Option.some.inj hok]
        exact hens
      · next m hm =>
        split at hok
        · rw [← Option.some.inj hok]
          exact hI.setPath _ _ s m _ hens hr hm hens (.inl rfl)
        · split at hok
          · rw [← Option.some.inj hok]
            exact hI.setPath _ _ s m _ hens hr hm hens (.inr (.inl rfl))
          · obtain ⟨⟨r, st₁⟩, hd, hset⟩ := Option.map_eq_some_iff.mp hok
            obtain ⟨hrun, hr'⟩ := downstream_from hd
            have h₁ : I st₁ := by
              rcases hrun with rfl | ⟨y, hy⟩
              · exact hens
              · exact ih hy hens
            rw [← hset]
            rcases hr' with rfl | ⟨y, rfl⟩
            · exact hI.setPath _ _ s m _ hens hr hm h₁ (.inl rfl)
            · exact hI.setPath _ _ s m _ hens hr hm h₁ (.inr (.inr ⟨y, rfl⟩))

theorem updatePriority_ranks (hok : updatePriority cat stats mode t n s st = some st')
    (hk : HasStat cat stats s) : st'.Ranked s := by
  cases n with
  | zero => cases hok
  | succ n =>
    have hset : ∀ st₁ p, OcsState.Ranked (OcsState.setPath cat mode st₁ s p) s :=
      fun st₁ p => setPath_ranked.mpr (.inr rfl)
    rw [updatePriority] at hok
    split at hok
    · next hr =>
      rw [← Option.some.inj hok]
      exact hr
    · split at hok
      · next hm => exact absurd hm hk
      · next m hm =>
        split at hok
        · rw [← Option.some.inj hok]
          exact hset _ _
        · split at hok
          · rw [← Option.some.inj hok]
            exact hset _ _
          · obtain ⟨⟨r, st₁⟩, -, hfound⟩ := Option.map_eq_some_iff.mp hok
            rw [← hfound]
            cases r <;> exact hset _ _

/-- The statement has its rank, or never gets one, and this is its entry. -/
def Settled (cat : Catalog) (stats : StmtStats) (x : StmtId) (e : OCSEntry) (st : OcsState) :
    Prop :=
  (st.Ranked x ∨ ¬ HasStat cat stats x) ∧ st.ocsInfo.lookup (cat x).name = some e

theorem settled_preserved {P : List StmtId} (hstats : StatsOf cat P stats)
    (hnames : ∀ p ∈ P, ∀ q ∈ P, (cat p).name = (cat q).name → p = q) (hx : x ∈ P) (e : OCSEntry) :
    Preserved cat stats mode (Settled cat stats x e) where
  ensure st s h := ⟨h.1.imp_left ensure_ranked.mpr, ensure_lookup h.2⟩
  setPath st st' s m p h hr hm h' _ := by
    have hk : HasStat cat stats s := by
      rw [HasStat, hm]
      exact Option.some_ne_none m
    have hne : (cat x).name ≠ (cat s).name := by
      intro heq
      obtain rfl := hnames x hx s (hstats s hk) heq
      exact h.1.elim hr fun hno => hno hk
    refine ⟨h'.1.imp_left fun hx => setPath_ranked.mpr (.inl hx), ?_⟩
    rw [OcsState.setPath, AList.lookup_insert_ne hne]
    exact h'.2

theorem listed_preserved (b : Name) :
    Preserved cat stats mode fun st => ∃ e, st.ocsInfo.lookup b = some e where
  ensure st s h := h.imp fun _ he => ensure_lookup he
  setPath st st' s m p _ _ _ h _ := by
    by_cases hb : b = (cat s).name
    · rw [hb]
      exact ⟨_, AList.lookup_insert _⟩
    · obtain ⟨e, he⟩ := h
      refine ⟨e, ?_⟩
      rw [OcsState.setPath, AList.lookup_insert_ne hb]
      exact he

section Magnitudes

/-- A kind of numbers that the paths of such numbers belong to. -/
structure Magnitude (K : ℚ → Prop) : Prop where
  one : K 1
  default : K WeightProfile.DEFAULT_VALUE
  add : ∀ a b, K a → K b → K (a + b)
  mul : ∀ a b, K a → K b → K (a * b)
  div : ∀ a b, K a → K b → K (a / b)

theorem Magnitude.nonneg : Magnitude fun a => 0 ≤ a where
  one := zero_le_one
  default := by norm_num [WeightProfile.DEFAULT_VALUE]
  add _ _ := add_nonneg
  mul _ _ := mul_nonneg
  div _ _ := div_nonneg

theorem Magnitude.pos : Magnitude fun a => 0 < a where
  one := zero_lt_one
  default := by norm_num [WeightProfile.DEFAULT_VALUE]
  add _ _ := add_pos
  mul _ _ := mul_pos
  div _ _ := div_pos

def StmtStat.Of (K : ℚ → Prop) (m : StmtStat) : Prop :=
  if NUM_INPUT_BEFORE_SET_STAT ≤ m.totalInput then
    K m.totalInput ∧ K m.totalOutput ∧ K m.totalPTime
  else K m.lastKnownSelectivity ∧ K m.lastKnownProcessRate

structure OcsPath.Of (K : ℚ → Prop) (p : OcsPath) : Prop where
  pathCapacity : K p.pathCapacity
  pathSelectivity : K p.pathSelectivity
  priority : K p.priority

structure OCSEntry.Of (K : ℚ → Prop) (e : OCSEntry) : Prop where
  pathCapacity : K e.pathCapacity
  pathSelectivity : K e.pathSelectivity
  priority : K e.priority

def OcsState.Of (K : ℚ → Prop) (st : OcsState) : Prop :=
  ∀ b e, st.ocsInfo.lookup b = some e → e.Of K

variable {K : ℚ → Prop} {m : StmtStat}

theorem sinkPath_of (hK : Magnitude K) (hm : m.Of K) : m.sinkPath.Of K := by
  rw [StmtStat.Of] at hm
  rw [StmtStat.sinkPath]
  split at hm
  · next hin =>
    obtain ⟨hi, ho, ht⟩ := hm
    have hcap := hK.div _ _ hK.one (hK.div _ _ ht hi)
    have hsel := hK.div _ _ ho hi
    rw [if_pos hin]
    exact ⟨hcap, hsel, hK.mul _ _ hcap hsel⟩
  · next hin =>
    obtain ⟨hs, hr⟩ := hm
    rw [if_neg hin]
    exact ⟨hr, hs, hK.mul _ _ hr hs⟩

theorem path_of (hK : Magnitude K) (hm : m.Of K) {e : OCSEntry} (he : e.Of K) :
    (m.path e).Of K := by
  have hop : K m.opCapacity ∧ K m.opSelectivity := by
    rw [StmtStat.Of] at hm
    rw [StmtStat.opCapacity, StmtStat.opSelectivity]
    split at hm
    · next hin =>
      rw [if_pos hin, if_pos hin]
      exact ⟨hK.div _ _ hm.1 hm.2.2, hK.div _ _ hm.2.1 hm.1⟩
    · next hin =>
      rw [if_neg hin, if_neg hin]
      exact hm.symm
  have hsel := hK.mul _ _ hop.2 he.pathSelectivity
  have hcap := hK.div _ _ (hK.div _ _ hK.one hop.2) (hK.add _ _
    (hK.div _ _ hK.one (hK.mul _ _ hop.1 hop.2)) (hK.div _ _ hK.one he.pathCapacity))
  exact ⟨hcap, hsel, hK.mul _ _ hcap hsel⟩

theorem entry_of (hK : Magnitude K) (h : st.Of K) (s : StmtId) : (st.entry cat s).Of K := by
  rw [OcsState.entry]
  cases hl : st.ocsInfo.lookup (cat s).name with
  | some e => exact h _ _ hl
  | none => exact ⟨hK.default, hK.default, hK.default⟩

theorem of_insert (h : st.Of K) {b : Name} {e : OCSEntry} (he : e.Of K) (r : StmtId → Rank) :
    OcsState.Of K ⟨st.ocsInfo.insert b e, r⟩ := by
  intro b' e' hl
  by_cases hb : b' = b
  · subst hb
    rw [AList.lookup_insert, Option.some.injEq] at hl
    rw [← hl]
    exact he
  · rw [AList.lookup_insert_ne hb] at hl
    exact h b' e' hl

theorem of_preserved (hK : Magnitude K)
    (hstats : ∀ s m, knownStat cat stats s = some m → m.Of K) :
    Preserved cat stats mode (OcsState.Of K) where
  ensure st s h := by
    rw [OcsState.ensure]
    split
    · exact h
    · exact of_insert h (entry_of hK h s) _
  setPath st st' s m p _ _ hm h hp := by
    have hpath : p.Of K := by
      rcases hp with rfl | rfl | ⟨y, rfl⟩
      · exact ⟨hK.default, hK.default, hK.default⟩
      · exact sinkPath_of hK (hstats s m hm)
      · exact path_of hK (hstats s m hm) (entry_of hK h y)
    refine of_insert h ⟨hpath.pathCapacity, hpath.pathSelectivity, ?_⟩ _
    cases mode
    · exact hK.mul _ _ hpath.priority hpath.pathCapacity
    · exact hpath.priority

end Magnitudes

end StreamMill.Esl
