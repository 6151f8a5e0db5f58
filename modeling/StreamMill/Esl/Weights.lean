import Mathlib.Order.Bounds.Basic
import Mathlib.Order.MinMax
import StreamMill.Esl.WeightProfile

/-!
# StreamMill.Esl.Weights

The weights that `calc_weight` sets, on the table of a graph without cycles. A calculation asks the
statements downstream until it meets one that the user has weighed, and gives the greatest weight
there is among these, and `WEIGHT_MIN` behind a fork; the flags only spare it what is known
already (`calcWeight_spec`).
-/

namespace StreamMill.Esl

variable {cat : Catalog} {P : List StmtId} {G : Graph} {t : BufStateTbl} {s x y : StmtId} {b : Name}

/-- The table of the graph of the statements `P`. -/
structure Tabled (cat : Catalog) (P : List StmtId) (t : BufStateTbl) (G : Graph) : Prop where
  canon : Canon cat t G
  members : Members cat P G
  names : Names cat P

/-- The statements that the dummies of `b` stand for, in the order of the table. -/
def dummyStmts (b : Name) (es : List (Sigma fun _ : Name => BufferEntry)) : List StmtId :=
  es.filterMap fun e =>
    if e.2.bType = .forkDummy ∧ e.2.inplace = some b then e.2.statement else none

def Stands (es : List (Sigma fun _ : Name => BufferEntry)) : Prop :=
  ∀ e ∈ es, e.2.bType = .forkDummy → e.2.statement ≠ none

theorem Tabled.entry (h : Tabled cat P t G) {e : Sigma fun _ : Name => BufferEntry}
    (he : e ∈ t.entries) :
    (G.Known e.1 ∧ e.2 = G.entry cat e.1) ∨
      (¬ G.Known e.1 ∧ ∃ b, G.Forks b ∧ ∃ c ∈ G.cons b, e.1 = b ++ (cat c).out ∧
        e.2 = dummyEntry (some c) b (cat c).out) := by
  obtain ⟨k, e⟩ := e
  have hk : t.lookup k = some e := AList.mem_lookup_iff.mpr he
  by_cases hkn : G.Known k
  · refine .inl ⟨hkn, ?_⟩
    rw [h.canon.buffers k hkn, Option.some.injEq] at hk
    exact hk.symm
  · rcases h.canon.only k e hk with hkn' | ⟨b, hf, c, hc, hkey⟩
    · exact absurd hkn' hkn
    · refine .inr ⟨hkn, b, hf, c, hc, hkey, ?_⟩
      rw [hkey, h.canon.dummies b hf c hc, Option.some.injEq] at hk
      exact hk.symm

theorem Tabled.stands (h : Tabled cat P t G) : Stands t.entries := by
  intro e he hty
  rcases h.entry he with ⟨-, heq⟩ | ⟨-, b, -, c, -, -, heq⟩
  · rw [heq] at hty
    exact absurd hty (bufferTyOf_ne_dummy _ _)
  · rw [heq]
    exact Option.some_ne_none c

theorem Tabled.mem_dummyStmts (h : Tabled cat P t G) :
    s ∈ dummyStmts b t.entries ↔ G.Forks b ∧ s ∈ G.cons b := by
  rw [dummyStmts, List.mem_filterMap]
  constructor
  · rintro ⟨e, he, hs⟩
    split at hs
    · next hty =>
      rcases h.entry he with ⟨-, heq⟩ | ⟨-, b', hf, c, hc, -, heq⟩
      · rw [heq] at hty
        exact absurd hty.1 (bufferTyOf_ne_dummy _ _)
      · rw [heq] at hs hty
        obtain rfl : c = s := Option.some.inj hs
        obtain rfl : b' = b := Option.some.inj hty.2
        exact ⟨hf, hc⟩
    · cases hs
  · rintro ⟨hf, hs⟩
    refine ⟨⟨b ++ (cat s).out, dummyEntry (some s) b (cat s).out⟩, ?_, by simp [dummyEntry]⟩
    exact AList.mem_lookup_iff.mp (h.canon.dummies b hf s hs)

theorem Tabled.dummyStmts_nodup (h : Tabled cat P t G) : (dummyStmts b t.entries).Nodup := by
  rw [dummyStmts, List.Nodup, List.pairwise_filterMap]
  refine (List.nodupKeys_iff_pairwise.mp t.nodupKeys).imp_of_mem fun {e e'} he he' hne => ?_
  intro c hc c' hc' heq
  subst heq
  refine hne ?_
  split at hc
  · next hty =>
    split at hc'
    · next hty' =>
      rcases h.entry he with ⟨-, hv⟩ | ⟨-, b₁, -, c₁, -, hk, hv⟩
      · rw [hv] at hty
        exact absurd hty.1 (bufferTyOf_ne_dummy _ _)
      · rcases h.entry he' with ⟨-, hv'⟩ | ⟨-, b₂, -, c₂, -, hk', hv'⟩
        · rw [hv'] at hty'
          exact absurd hty'.1 (bufferTyOf_ne_dummy _ _)
        · rw [hv] at hc hty
          rw [hv'] at hc' hty'
          rw [hk, hk', Option.some.inj hc, Option.some.inj hc', Option.some.inj hty.2,
            Option.some.inj hty'.2]
    · cases hc'
  · cases hc

theorem Tabled.dummyStmts_perm (h : Tabled cat P t G) (hf : G.Forks b) :
    (dummyStmts b t.entries).Perm (G.cons b) := by
  have hnd : (G.cons b).Nodup := by
    rw [h.members.cons]
    exact h.members.nodup.filter _
  refine (List.perm_ext_iff_of_nodup h.dummyStmts_nodup hnd).mpr fun c => ?_
  rw [h.mem_dummyStmts]
  exact ⟨And.right, fun hc => ⟨hf, hc⟩⟩

theorem forkStmts_eq {es : List (Sigma fun _ : Name => BufferEntry)} (h : Stands es) :
    forkStmts (some b) es = some (dummyStmts b es) := by
  induction es with
  | nil => rfl
  | cons e es ih =>
    obtain ⟨k, e⟩ := e
    have hrest := ih fun e' he' => h e' (List.mem_cons_of_mem _ he')
    rw [forkStmts, dummyStmts, List.filterMap_cons]
    by_cases hty : e.bType = .forkDummy ∧ e.inplace = some b
    · obtain ⟨c, hc⟩ := Option.ne_none_iff_exists'.mp (h ⟨k, e⟩ List.mem_cons_self hty.1)
      rw [if_pos hty, if_pos hty]
      rw [hc]
      rw [hrest]
      rfl
    · rw [if_neg hty, if_neg hty, hrest]
      rfl

/-- The statements that read `b`, if nothing produces it. -/
def sourceReaders (G : Graph) (b : Name) : List StmtId :=
  if G.prod b = none then G.cons b else []

theorem mem_sourceReaders : s ∈ sourceReaders G b ↔ G.prod b = none ∧ s ∈ G.cons b := by
  rw [sourceReaders]
  split
  · next hp => exact ⟨fun hs => ⟨hp, hs⟩, And.right⟩
  · next hp => exact ⟨fun hs => absurd hs List.not_mem_nil, fun hs => absurd hs.1 hp⟩

theorem Tabled.sourceStmts (h : Tabled cat P t G) {e : Sigma fun _ : Name => BufferEntry}
    (he : e ∈ t.entries) :
    ∃ ss, sourceStmts t e.2 = some ss ∧ ss.Perm (sourceReaders G e.1) ∧
      (G.Forks e.1 → G.prod e.1 = none → ss = dummyStmts e.1 t.entries) := by
  rcases h.entry he with ⟨hkn, heq⟩ | ⟨hkn, b, -, c, -, -, heq⟩
  · rw [heq, Esl.sourceStmts, entry_bType, sourceReaders]
    cases hp : G.prod e.1 with
    | some p =>
      refine ⟨[], ?_, by simp, fun _ h => by cases h⟩
      have hne : ∀ cs : List StmtId, bufferTyOf cat (some p) cs ≠ .source ∧
          bufferTyOf cat (some p) cs ≠ .sourceFork := by
        intro cs
        rcases cs with _ | ⟨_, _ | ⟨_, _⟩⟩ <;>
          by_cases hty : (cat p).type = .normal <;> simp [bufferTyOf, hty]
      have := hne (G.cons e.1)
      split
      · next hty => exact absurd hty this.1
      · next hty => exact absurd hty this.2
      · rfl
    | none =>
      rcases hc : G.cons e.1 with _ | ⟨c, _ | ⟨c', cs⟩⟩
      · exact absurd hc (hkn.resolve_left (by simp [hp]))
      · refine ⟨[c], ?_, .refl _, fun hf => by simp [Graph.Forks, hc] at hf⟩
        simp [bufferTyOf, Graph.entry, render, hc, statementOf]
      · have hf : G.Forks e.1 := by simp [Graph.Forks, hc]
        refine ⟨dummyStmts e.1 t.entries, ?_, ?_, fun _ _ => rfl⟩
        · rw [bufferTyOf]
          rw [show (G.entry cat e.1).buf = some e.1 from rfl, forkStmts_eq h.stands]
        · rw [← hc]
          exact h.dummyStmts_perm hf
  · refine ⟨[], ?_, ?_, fun hf hp => ?_⟩
    · rw [heq]
      rfl
    · have hnil : G.cons e.1 = [] := by
        by_contra hne
        exact hkn (.inr hne)
      rw [sourceReaders, hnil]
      simp
    · refine absurd (.inr fun hnil => ?_) hkn
      rw [Graph.Forks, hnil] at hf
      exact absurd hf (by decide)

section Calc

variable {mon : StmtId → Bool} {u : StmtId → Int} {w w' : Marking} {n : Nat}

/-- The weight of `x` is calculated from that of `y`. -/
def Asks (cat : Catalog) (G : Graph) (mon : StmtId → Bool) (x y : StmtId) : Prop :=
  mon x = false ∧ y ∈ G.cons (cat x).out

/-- What there is to choose from for the weight of `s`. -/
def Offers (cat : Catalog) (G : Graph) (mon : StmtId → Bool) (u : StmtId → Int) (s : StmtId) :
    Set Int :=
  {v | (∃ k, Relation.ReflTransGen (Asks cat G mon) s k ∧ mon k = true ∧ v = u k) ∨
    (v = WeightProfile.WEIGHT_MIN ∧
      ∃ x, Relation.ReflTransGen (Asks cat G mon) s x ∧ mon x = false ∧ G.Forks (cat x).out)}

theorem mem_offers_of_mon (hs : mon s = true) (v : Int) :
    v ∈ Offers cat G mon u s ↔ v = u s := by
  have hstay : ∀ x, Relation.ReflTransGen (Asks cat G mon) s x → x = s := by
    intro x hx
    rcases Relation.ReflTransGen.cases_head hx with rfl | ⟨y, ⟨hno, -⟩, -⟩
    · rfl
    · rw [hs] at hno
      cases hno
  constructor
  · rintro (⟨k, hk, -, rfl⟩ | ⟨-, x, hx, hno, -⟩)
    · rw [hstay k hk]
    · rw [hstay x hx, hs] at hno
      cases hno
  · rintro rfl
    exact .inl ⟨s, .refl, hs, rfl⟩

theorem mem_offers (hs : mon s = false) (v : Int) :
    v ∈ Offers cat G mon u s ↔ (v = WeightProfile.WEIGHT_MIN ∧ G.Forks (cat s).out) ∨
      ∃ y ∈ G.cons (cat s).out, v ∈ Offers cat G mon u y := by
  constructor
  · rintro (⟨k, hk, hmon, rfl⟩ | ⟨rfl, x, hx, hmon, hf⟩)
    · rcases Relation.ReflTransGen.cases_head hk with rfl | ⟨y, ⟨-, hy⟩, hk⟩
      · rw [hs] at hmon
        cases hmon
      · exact .inr ⟨y, hy, .inl ⟨k, hk, hmon, rfl⟩⟩
    · rcases Relation.ReflTransGen.cases_head hx with rfl | ⟨y, ⟨-, hy⟩, hx⟩
      · exact .inl ⟨rfl, hf⟩
      · exact .inr ⟨y, hy, .inr ⟨rfl, x, hx, hmon, hf⟩⟩
  · rintro (⟨rfl, hf⟩ | ⟨y, hy, ⟨k, hk, hmon, rfl⟩ | ⟨rfl, x, hx, hmon, hf⟩⟩)
    · exact .inr ⟨rfl, s, .refl, hs, hf⟩
    · exact .inl ⟨k, .head ⟨hs, hy⟩ hk, hmon, rfl⟩
    · exact .inr ⟨rfl, x, .head ⟨hs, hy⟩ hx, hmon, hf⟩

structure Weighed (cat : Catalog) (P : List StmtId) (G : Graph) (mon : StmtId → Bool)
    (u : StmtId → Int) (w : Marking) : Prop where
  stat : ∀ x, (w x).monitorSinkStat = mon x
  user : ∀ x, mon x = true → (w x).weight = u x
  right : ∀ x ∈ P, (w x).weightSet = true → IsGreatest (Offers cat G mon u x) (w x).weight

/-- Where a weight is set, so are those it came from. -/
def Closed (cat : Catalog) (G : Graph) (mon : StmtId → Bool) (w : Marking) : Prop :=
  ∀ x y, (w x).weightSet = true → Asks cat G mon x y → (w y).weightSet = true

/-- What calculations do that start at the statements of `S`. -/
structure Calculated (cat : Catalog) (P : List StmtId) (G : Graph) (mon : StmtId → Bool)
    (u : StmtId → Int) (S : List StmtId) (w w' : Marking) : Prop where
  weighed : Weighed cat P G mon u w'
  set : ∀ s ∈ S, (w' s).weightSet = true
  keeps : ∀ x, (w x).weightSet = true → (w' x).weightSet = true
  only : ∀ x, (w' x).weightSet = true → (w x).weightSet = true ∨
    ∃ s ∈ S, Relation.ReflTransGen (Asks cat G mon) s x
  closed : Closed cat G mon w → Closed cat G mon w'

theorem Calculated.nil (hw : Weighed cat P G mon u w) : Calculated cat P G mon u [] w w where
  weighed := hw
  set _ hs := absurd hs List.not_mem_nil
  keeps _ h := h
  only _ h := .inl h
  closed h := h

theorem Calculated.trans {S S' : List StmtId} {w'' : Marking}
    (h : Calculated cat P G mon u S w w') (h' : Calculated cat P G mon u S' w' w'') :
    Calculated cat P G mon u (S ++ S') w w'' where
  weighed := h'.weighed
  set s hs := by
    rcases List.mem_append.mp hs with hs | hs
    · exact h'.keeps s (h.set s hs)
    · exact h'.set s hs
  keeps x hx := h'.keeps x (h.keeps x hx)
  only x hx := by
    rcases h'.only x hx with hx | ⟨s, hs, hsx⟩
    · rcases h.only x hx with hx | ⟨s, hs, hsx⟩
      · exact .inl hx
      · exact .inr ⟨s, List.mem_append_left _ hs, hsx⟩
    · exact .inr ⟨s, List.mem_append_right _ hs, hsx⟩
  closed hc := h'.closed (h.closed hc)

/-- A statement gets its weight once everything it asks is weighed. -/
theorem Calculated.setWeight {S : List StmtId} (h : Calculated cat P G mon u S w w')
    (hs : mon s = false) (hS : ∀ y, y ∈ G.cons (cat s).out ↔ y ∈ S) {v : Int}
    (hv : IsGreatest (Offers cat G mon u s) v) :
    Calculated cat P G mon u [s] w (w'.setWeight s v) where
  weighed := by
    refine ⟨fun x => ?_, fun x hx => ?_, fun x hx hset => ?_⟩
    · rw [← h.weighed.stat x, Marking.setWeight]
      by_cases hxs : x = s
      · rw [hxs, Function.update_self]
      · rw [Function.update_of_ne hxs]
    · have hxs : x ≠ s := by
        rintro rfl
        rw [hs] at hx
        cases hx
      rw [Marking.setWeight, Function.update_of_ne hxs]
      exact h.weighed.user x hx
    · by_cases hxs : x = s
      · subst hxs
        rw [Marking.setWeight, Function.update_self]
        exact hv
      · rw [Marking.setWeight, Function.update_of_ne hxs] at hset ⊢
        exact h.weighed.right x hx hset
  set x hx := by
    rw [List.mem_singleton.mp hx, Marking.setWeight, Function.update_self]
  keeps x hx := by
    by_cases hxs : x = s
    · rw [hxs, Marking.setWeight, Function.update_self]
    · rw [Marking.setWeight, Function.update_of_ne hxs]
      exact h.keeps x hx
  only x hx := by
    by_cases hxs : x = s
    · exact .inr ⟨s, List.mem_singleton.mpr rfl, hxs ▸ .refl⟩
    · rw [Marking.setWeight, Function.update_of_ne hxs] at hx
      rcases h.only x hx with hx | ⟨y, hy, hyx⟩
      · exact .inl hx
      · exact .inr ⟨s, List.mem_singleton.mpr rfl, .head ⟨hs, (hS y).mpr hy⟩ hyx⟩
  closed hc := by
    intro x y hx hxy
    have hy : (w' y).weightSet = true := by
      by_cases hxs : x = s
      · subst hxs
        exact h.set y ((hS y).mp hxy.2)
      · rw [Marking.setWeight, Function.update_of_ne hxs] at hx
        exact h.closed hc x y hx hxy
    by_cases hys : y = s
    · rw [hys, Marking.setWeight, Function.update_self]
    · rw [Marking.setWeight, Function.update_of_ne hys]
      exact hy

theorem Calculated.setFlag (hw : Weighed cat P G mon u w) (hs : mon s = true) :
    Calculated cat P G mon u [s] w (w.setFlag s) where
  weighed := by
    have hsame : ∀ x, ((w.setFlag s) x).weight = (w x).weight := by
      intro x
      by_cases hxs : x = s
      · rw [hxs, Marking.setFlag, Function.update_self]
      · rw [Marking.setFlag, Function.update_of_ne hxs]
    refine ⟨fun x => ?_, fun x hx => ?_, fun x hx hset => ?_⟩
    · rw [← hw.stat x]
      by_cases hxs : x = s
      · rw [hxs, Marking.setFlag, Function.update_self]
      · rw [Marking.setFlag, Function.update_of_ne hxs]
    · rw [hsame]
      exact hw.user x hx
    · rw [hsame]
      by_cases hxs : x = s
      · subst hxs
        rw [hw.user x hs]
        refine ⟨(mem_offers_of_mon hs _).mpr rfl, fun v hv => ?_⟩
        exact ((mem_offers_of_mon hs v).mp hv).le
      · rw [Marking.setFlag, Function.update_of_ne hxs] at hset
        exact hw.right x hx hset
  set x hx := by
    rw [List.mem_singleton.mp hx, Marking.setFlag, Function.update_self]
  keeps x hx := by
    by_cases hxs : x = s
    · rw [hxs, Marking.setFlag, Function.update_self]
    · rw [Marking.setFlag, Function.update_of_ne hxs]
      exact hx
  only x hx := by
    by_cases hxs : x = s
    · exact .inr ⟨s, List.mem_singleton.mpr rfl, hxs ▸ .refl⟩
    · rw [Marking.setFlag, Function.update_of_ne hxs] at hx
      exact .inl hx
  closed hc := by
    intro x y hx hxy
    have hxs : x ≠ s := by
      rintro rfl
      have hno := hxy.1
      rw [hs] at hno
      cases hno
    rw [Marking.setFlag, Function.update_of_ne hxs] at hx
    have hy := hc x y hx hxy
    by_cases hys : y = s
    · rw [hys, Marking.setFlag, Function.update_self]
    · rw [Marking.setFlag, Function.update_of_ne hys]
      exact hy

/-- The statement is weighed, or a calculation makes it so. -/
def Calculates (cat : Catalog) (P : List StmtId) (G : Graph) (mon : StmtId → Bool)
    (u : StmtId → Int) (run : StmtId → Marking → Option Marking) (s : StmtId) : Prop :=
  ∀ w, Weighed cat P G mon u w → ∃ w', run s w = some w' ∧ Calculated cat P G mon u [s] w w'

variable {run : StmtId → Marking → Option Marking}

theorem weigh_calculates (hrun : Calculates cat P G mon u run s) :
    Calculates cat P G mon u (weigh run) s := by
  intro w hw
  rw [weigh]
  split
  · next hset =>
    refine ⟨w, rfl, hw, fun x hx => ?_, fun _ h => h, fun _ h => .inl h, fun h => h⟩
    rw [List.mem_singleton.mp hx]
    exact hset
  · exact hrun w hw

theorem forkWeight_spec {es : List (Sigma fun _ : Name => BufferEntry)} (hst : Stands es)
    (hrun : ∀ c ∈ dummyStmts b es, c ∈ P ∧ Calculates cat P G mon u run c)
    (hw : Weighed cat P G mon u w) (m : Int) :
    ∃ v w', forkWeight run b es m w = some (v, w') ∧
      Calculated cat P G mon u (dummyStmts b es) w w' ∧ m ≤ v ∧
      (∀ c ∈ dummyStmts b es, ∀ a ∈ Offers cat G mon u c, a ≤ v) ∧
      (v = m ∨ ∃ c ∈ dummyStmts b es, v ∈ Offers cat G mon u c) := by
  induction es generalizing w m with
  | nil =>
    refine ⟨m, w, rfl, .nil hw, le_refl m, fun c hc => ?_, .inl rfl⟩
    exact absurd hc List.not_mem_nil
  | cons e es ih =>
    obtain ⟨k, e⟩ := e
    have hrest : Stands es := fun e' he' => hst e' (List.mem_cons_of_mem _ he')
    rw [forkWeight]
    by_cases hty : e.bType = .forkDummy ∧ e.inplace = some b
    · obtain ⟨c, hc⟩ := Option.ne_none_iff_exists'.mp (hst ⟨k, e⟩ List.mem_cons_self hty.1)
      have hcons : dummyStmts b (⟨k, e⟩ :: es) = c :: dummyStmts b es := by
        rw [dummyStmts, List.filterMap_cons, if_pos hty]
        rw [hc]
        rfl
      rw [hcons] at hrun ⊢
      obtain ⟨hcP, hcalc⟩ := hrun c List.mem_cons_self
      obtain ⟨w₁, hw₁, hcal₁⟩ := weigh_calculates hcalc w hw
      obtain ⟨v, w₂, hfork, hcal₂, hle, hall, hex⟩ :=
        ih hrest (fun d hd => hrun d (List.mem_cons_of_mem _ hd)) hcal₁.weighed
          (max m (w₁ c).weight)
      have hgreat := hcal₁.weighed.right c hcP (hcal₁.set c (List.mem_singleton.mpr rfl))
      rw [if_pos hty, hc]
      dsimp only
      rw [hw₁]
      refine ⟨v, w₂, hfork, hcal₁.trans hcal₂, (le_max_left _ _).trans hle, ?_, ?_⟩
      · intro d hd a ha
        rcases List.mem_cons.mp hd with rfl | hd
        · exact (hgreat.2 ha).trans ((le_max_right _ _).trans hle)
        · exact hall d hd a ha
      · rcases hex with heq | ⟨d, hd, hv⟩
        · rcases max_choice m (w₁ c).weight with hm | hm
          · exact .inl (heq.trans hm)
          · refine .inr ⟨c, List.mem_cons_self, ?_⟩
            rw [heq, hm]
            exact hgreat.1
        · exact .inr ⟨d, List.mem_cons_of_mem _ hd, hv⟩
    · have hcons : dummyStmts b (⟨k, e⟩ :: es) = dummyStmts b es := by
        rw [dummyStmts, List.filterMap_cons, if_neg hty]
        rfl
      rw [if_neg hty]
      rw [hcons] at hrun ⊢
      exact ih hrest hrun hw m

def SinksWeighed (cat : Catalog) (P : List StmtId) (G : Graph) (mon : StmtId → Bool) : Prop :=
  ∀ x ∈ P, G.cons (cat x).out = [] → mon x = true

theorem Tabled.asks_mem (h : Tabled cat P t G) (hxy : Asks cat G mon x y) : y ∈ P := by
  have hy := hxy.2
  rw [h.members.cons] at hy
  exact (mem_readers.mp hy).1

/-- A calculation ends and gives the greatest of what is offered. -/
theorem calcWeight_spec (h : Tabled cat P t G) (hsinks : SinksWeighed cat P G mon)
    (hac : Lib.Acyclic (Asks cat G mon)) (hs : s ∈ P)
    (hn : Lib.depth (Asks cat G mon) P s < n) :
    Calculates cat P G mon u (calcWeight cat t n) s := by
  induction n generalizing s with
  | zero => exact absurd hn (Nat.not_lt_zero _)
  | succ n ih =>
    intro w hw
    rw [calcWeight]
    cases hmon : mon s with
    | true =>
      rw [if_pos (by rw [hw.stat, hmon])]
      exact ⟨_, rfl, .setFlag hw hmon⟩
    | false =>
      have hbelow : ∀ y ∈ G.cons (cat s).out,
          y ∈ P ∧ Calculates cat P G mon u (calcWeight cat t n) y := by
        intro y hy
        have hasks : Asks cat G mon s y := ⟨hmon, hy⟩
        have hyP := h.asks_mem hasks
        exact ⟨hyP, ih hyP ((Lib.depth_lt hac hyP hasks).trans_le (Nat.le_of_lt_succ hn))⟩
      have hp : G.prod (cat s).out = some s := (h.members.prod _ s).2 ⟨hs, rfl⟩
      have hkn : G.Known (cat s).out := .inl (by simp [hp])
      rw [if_neg (by simp [hw.stat, hmon]), h.canon.buffers _ hkn]
      dsimp only
      match hc : G.cons (cat s).out with
      | [] =>
        rw [hsinks s hs hc] at hmon
        cases hmon
      | [y] =>
        have hty : ¬ ((G.entry cat (cat s).out).bType = .fork ∨
            (G.entry cat (cat s).out).bType = .mergeFork) := by
          rw [entry_bType, hp, hc]
          by_cases hn : (cat s).type = .normal <;> simp [bufferTyOf, hn]
        have hy : y ∈ G.cons (cat s).out := by simp [hc]
        obtain ⟨hyP, hcalc⟩ := hbelow y hy
        obtain ⟨w₁, hw₁, hcal⟩ := weigh_calculates hcalc w hw
        have hst : (G.entry cat (cat s).out).statement = some y := by
          rw [Graph.entry, hc]
          rfl
        rw [if_neg hty, hst]
        dsimp only
        rw [hw₁]
        refine ⟨_, rfl, hcal.setWeight hmon (fun z => by rw [hc]) ?_⟩
        have hgreat := hcal.weighed.right y hyP (hcal.set y (List.mem_singleton.mpr rfl))
        have hsame : ∀ v, v ∈ Offers cat G mon u s ↔ v ∈ Offers cat G mon u y := by
          intro v
          rw [mem_offers hmon]
          simp [Graph.Forks, hc]
        exact ⟨(hsame _).mpr hgreat.1, fun v hv => hgreat.2 ((hsame v).mp hv)⟩
      | y :: y' :: ys =>
        have hf : G.Forks (cat s).out := by simp [Graph.Forks, hc]
        have hty : (G.entry cat (cat s).out).bType = .fork ∨
            (G.entry cat (cat s).out).bType = .mergeFork := by
          rw [entry_bType, hp, hc]
          by_cases hn : (cat s).type = .normal <;> simp [bufferTyOf, hn]
        have hmem : ∀ z, z ∈ G.cons (cat s).out ↔ z ∈ dummyStmts (cat s).out t.entries := by
          intro z
          rw [h.mem_dummyStmts]
          exact ⟨fun hz => ⟨hf, hz⟩, And.right⟩
        obtain ⟨v, w₁, hfork, hcal, hle, hall, hex⟩ := forkWeight_spec h.stands
          (fun c hcd => hbelow c ((hmem c).mpr hcd)) hw WeightProfile.WEIGHT_MIN
        rw [if_pos hty, hfork]
        refine ⟨_, rfl, hcal.setWeight hmon hmem ?_⟩
        constructor
        · rw [mem_offers hmon]
          rcases hex with rfl | ⟨c, hcd, hv⟩
          · exact .inl ⟨rfl, hf⟩
          · exact .inr ⟨c, (hmem c).mpr hcd, hv⟩
        · intro a ha
          rcases (mem_offers hmon a).mp ha with ⟨rfl, -⟩ | ⟨c, hcd, ha⟩
          · exact hle
          · exact hall c ((hmem c).mp hcd) a ha

end Calc

end StreamMill.Esl
