import Mathlib.Data.List.TakeWhile
import StreamMill.Esl.Weights

/-!
# StreamMill.Esl.WeightRun

What `WeightProfile::update` leaves: the groups, the weights of the statements that read a source,
and the flags. The walk over the table clears the flags of the readers of a source when it comes to
that source, so the order of the table counts.

`weights_right_iff`: all source statements have the greatest weight of the sinks below them and are
in one group once exactly if these are the weights they are offered, no statement reads two sources
and no reader of a source comes after another reader of it.
-/

namespace StreamMill.Esl

variable {cat : Catalog} {P : List StmtId} {G : Graph} {t : BufStateTbl} {s x y : StmtId} {b : Name}

def Decreasing (gs : List WeightGroup) : Prop := gs.Pairwise fun g g' => g'.weight < g.weight

def entriesOf (gs : List WeightGroup) : List StmtId := gs.flatMap WeightGroup.vSEntries

theorem insertStmt_perm (s : StmtId) (v : Int) (gs : List WeightGroup) :
    (entriesOf (insertStmt s v gs)).Perm (s :: entriesOf gs) := by
  have hsplit := List.takeWhile_append_dropWhile (p := fun g : WeightGroup => v < g.weight)
    (l := gs)
  rw [insertStmt, entriesOf, entriesOf]
  conv => rhs; rw [← hsplit]
  cases gs.dropWhile fun g => v < g.weight with
  | nil =>
    rw [List.flatMap_append, List.append_nil]
    exact List.perm_append_singleton s _
  | cons g post =>
    dsimp only
    split
    · rw [List.flatMap_append, List.flatMap_append, List.flatMap_cons, WeightGroup.addStmt, List.append_assoc]
      exact (List.Perm.append_left _ List.perm_middle).trans List.perm_middle
    · rw [List.flatMap_append, List.flatMap_append]
      exact List.perm_middle

theorem insertStmt_decreasing {gs : List WeightGroup} (h : Decreasing gs) (s : StmtId) (v : Int) :
    Decreasing (insertStmt s v gs) := by
  have hsplit := List.takeWhile_append_dropWhile (p := fun g : WeightGroup => v < g.weight)
    (l := gs)
  have hpre : ∀ g ∈ gs.takeWhile fun g => v < g.weight, v < g.weight := by
    intro g hg
    have hlt := List.mem_takeWhile_imp hg
    simpa using hlt
  have hhead : ∀ g post, (gs.dropWhile fun g => v < g.weight) = g :: post → ¬ v < g.weight := by
    intro g post hdrop
    have hne : (gs.dropWhile fun g => v < g.weight) ≠ [] := by simp [hdrop]
    have hno := List.head_dropWhile_not (fun g : WeightGroup => decide (v < g.weight)) hne
    simpa [hdrop] using hno
  rw [Decreasing, ← hsplit, List.pairwise_append] at h
  obtain ⟨hp, hq, hpq⟩ := h
  rw [insertStmt, Decreasing]
  cases hdrop : gs.dropWhile fun g => v < g.weight with
  | nil =>
    rw [List.pairwise_append]
    refine ⟨hp, List.pairwise_singleton _ _, fun g hg g' hg' => ?_⟩
    rw [List.mem_singleton.mp hg']
    exact hpre g hg
  | cons g post =>
    rw [hdrop, List.pairwise_cons] at hq
    rw [hdrop] at hpq
    dsimp only
    split
    · next hgv =>
      rw [List.pairwise_append, List.pairwise_cons]
      refine ⟨hp, ⟨hq.1, hq.2⟩, fun a ha c hc => ?_⟩
      rcases List.mem_cons.mp hc with rfl | hc
      · exact hpq a ha g List.mem_cons_self
      · exact hpq a ha c (List.mem_cons_of_mem _ hc)
    · next hgv =>
      have hless : g.weight < v := by
        have := hhead g post hdrop
        omega
      rw [List.pairwise_append, List.pairwise_cons]
      refine ⟨hp, ⟨fun c hc => ?_, List.pairwise_cons.mpr hq⟩, fun a ha c hc => ?_⟩
      · rcases List.mem_cons.mp hc with rfl | hc
        · exact hless
        · exact (hq.1 c hc).trans hless
      · rcases List.mem_cons.mp hc with rfl | hc
        · exact hpre a ha
        · exact hpq a ha c hc

section Visits

variable {mon : StmtId → Bool} {u : StmtId → Int} {w w' : Marking} {n : Nat} {a a' : Walk}
  {ss : List StmtId}

/-- Of the statements `ss`, those in `put` have come to a group. -/
structure Grouped (cat : Catalog) (P : List StmtId) (G : Graph) (mon : StmtId → Bool)
    (u : StmtId → Int) (ss put : List StmtId) (a a' : Walk) : Prop where
  calculated : Calculated cat P G mon u ss a.marks a'.marks
  decreasing : Decreasing a.vSGroups → Decreasing a'.vSGroups
  entries : (entriesOf a'.vSGroups).Perm (put ++ entriesOf a.vSGroups)
  sub : put.Sublist ss
  unset : ∀ s ∈ put, (a.marks s).weightSet = false
  head : ∀ s rest, ss = s :: rest → (a.marks s).weightSet = false → s ∈ put
  all : (∀ s ∈ ss, (a.marks s).weightSet = false) →
    ss.Pairwise (fun x y => ¬ Relation.ReflTransGen (Asks cat G mon) x y) → put = ss
  skip : ∀ x rest, ss = x :: rest → (a.marks x).weightSet = false → Closed cat G mon a.marks →
    ∀ y, y ≠ x → Relation.ReflTransGen (Asks cat G mon) x y → y ∉ put

theorem Closed.below (h : Closed cat G mon w) (hx : (w x).weightSet = true)
    (hxy : Relation.ReflTransGen (Asks cat G mon) x y) : (w y).weightSet = true := by
  induction hxy with
  | refl => exact hx
  | tail _ hstep ih => exact h _ _ ih hstep

theorem groupStmts_spec (hcalc : ∀ s ∈ ss, Calculates cat P G mon u (calcWeight cat t n) s)
    (hw : Weighed cat P G mon u a.marks) :
    ∃ a' put, groupStmts cat t n ss a = some a' ∧ Grouped cat P G mon u ss put a a' := by
  induction ss generalizing a with
  | nil =>
    refine ⟨a, [], rfl, .nil hw, fun h => h, .refl _, .refl _, fun s hs => ?_, fun s rest h => ?_,
      fun _ _ => rfl, fun x rest h => ?_⟩
    · exact absurd hs List.not_mem_nil
    · cases h
    · cases h
  | cons s ss ih =>
    have hrest : ∀ c ∈ ss, Calculates cat P G mon u (calcWeight cat t n) c :=
      fun c hc => hcalc c (List.mem_cons_of_mem _ hc)
    rw [groupStmts]
    split
    · next hset =>
      obtain ⟨a', put, hok, hg⟩ := ih hrest hw
      have hthis : Calculated cat P G mon u [s] a.marks a.marks := by
        refine ⟨hw, fun x hx => ?_, fun _ h => h, fun _ h => .inl h, fun h => h⟩
        rw [List.mem_singleton.mp hx]
        exact hset
      refine ⟨a', put, hok, hthis.trans hg.calculated, hg.decreasing, hg.entries, hg.sub.cons s,
        hg.unset, fun c rest hc hno => ?_, fun hall _ => ?_, fun c rest hc hno => ?_⟩
      · obtain ⟨rfl, -⟩ := List.cons.inj hc
        rw [hset] at hno
        cases hno
      · have hno := hall s List.mem_cons_self
        rw [hset] at hno
        cases hno
      · obtain ⟨rfl, -⟩ := List.cons.inj hc
        rw [hset] at hno
        cases hno
    · next hset =>
      obtain ⟨w₁, hw₁, hcal⟩ := hcalc s List.mem_cons_self a.marks hw
      obtain ⟨a', put, hok, hg⟩ := ih (a := a.put s w₁) hrest hcal.weighed
      have hunset : ∀ c ∈ put, (w₁ c).weightSet = false := hg.unset
      refine ⟨a', s :: put, ?_, hcal.trans hg.calculated,
        fun h => hg.decreasing (insertStmt_decreasing h s _), ?_, hg.sub.cons_cons s,
        fun c hc => ?_, fun c rest hc _ => ?_, fun hall hpw => ?_,
        fun x rest hx _ hcl y hne hxy => ?_⟩
      · rw [hw₁]
        exact hok
      · refine hg.entries.trans ?_
        exact (List.Perm.append_left put (insertStmt_perm s _ _)).trans List.perm_middle
      · rcases List.mem_cons.mp hc with rfl | hc
        · simpa using hset
        · by_contra hno
          have hkept := hcal.keeps c (by simpa using hno)
          rw [hunset c hc] at hkept
          cases hkept
      · rw [(List.cons.inj hc).1]
        exact List.mem_cons_self
      · rw [List.pairwise_cons] at hpw
        rw [hg.all (fun c hc => ?_) hpw.2]
        change (w₁ c).weightSet = false
        by_contra hno
        rcases hcal.only c (by simpa using hno) with hbefore | ⟨z, hz, hzc⟩
        · rw [hall c (List.mem_cons_of_mem _ hc)] at hbefore
          cases hbefore
        · rw [List.mem_singleton.mp hz] at hzc
          exact hpw.1 c hc hzc
      · obtain ⟨rfl, -⟩ := List.cons.inj hx
        intro hy
        rcases List.mem_cons.mp hy with rfl | hy
        · exact hne rfl
        · have hset' := (hcal.closed hcl).below (hcal.set s (List.mem_singleton.mpr rfl)) hxy
          rw [hunset y hy] at hset'
          cases hset'

theorem clearWeight_ne (h : x ≠ s) : (w.clearWeight s) x = w x := Function.update_of_ne h _ _

theorem clearWeight_fields (w : Marking) (s x : StmtId) :
    ((w.clearWeight s) x).weight = (w x).weight ∧
      ((w.clearWeight s) x).monitorSinkStat = (w x).monitorSinkStat ∧
      (((w.clearWeight s) x).weightSet = true ↔ (w x).weightSet = true ∧ x ≠ s) := by
  by_cases hx : x = s
  · subst hx
    rw [Marking.clearWeight]
    simp
  · rw [clearWeight_ne hx]
    simp [hx]

theorem clearWeights_fields (ss : List StmtId) (w : Marking) (x : StmtId) :
    ((ss.foldl Marking.clearWeight w) x).weight = (w x).weight ∧
      ((ss.foldl Marking.clearWeight w) x).monitorSinkStat = (w x).monitorSinkStat ∧
      (((ss.foldl Marking.clearWeight w) x).weightSet = true ↔
        (w x).weightSet = true ∧ x ∉ ss) := by
  induction ss generalizing w with
  | nil => simp
  | cons s ss ih =>
    obtain ⟨h1, h2, h3⟩ := ih (w.clearWeight s)
    obtain ⟨k1, k2, k3⟩ := clearWeight_fields w s x
    rw [List.foldl_cons, h1, h2, h3, k1, k2, k3, List.mem_cons, not_or, and_assoc]
    exact ⟨rfl, rfl, Iff.rfl⟩

theorem Weighed.cleared (h : Weighed cat P G mon u w) (ss : List StmtId) :
    Weighed cat P G mon u (ss.foldl Marking.clearWeight w) where
  stat x := by rw [(clearWeights_fields ss w x).2.1, h.stat]
  user x hx := by rw [(clearWeights_fields ss w x).1, h.user x hx]
  right x hx hset := by
    rw [(clearWeights_fields ss w x).1]
    exact h.right x hx ((clearWeights_fields ss w x).2.2.mp hset).1

/-- The walk over the entries `es`, in which the statements `put` have come to a group. -/
structure Visited (cat : Catalog) (P : List StmtId) (G : Graph) (mon : StmtId → Bool)
    (u : StmtId → Int) (t : BufStateTbl) (es : List (Sigma fun _ : Name => BufferEntry))
    (put : List StmtId) (a a' : Walk) : Prop where
  weighed : Weighed cat P G mon u a'.marks
  set : ∀ e ∈ es, ∀ s ∈ sourceReaders G e.1, (a'.marks s).weightSet = true
  keeps : ∀ x, (a.marks x).weightSet = true → (a'.marks x).weightSet = true
  only : ∀ x, (a'.marks x).weightSet = true → (a.marks x).weightSet = true ∨
    ∃ e ∈ es, ∃ s ∈ sourceReaders G e.1, Relation.ReflTransGen (Asks cat G mon) s x
  decreasing : Decreasing a.vSGroups → Decreasing a'.vSGroups
  entries : (entriesOf a'.vSGroups).Perm (put ++ entriesOf a.vSGroups)
  bound : ∀ s, put.count s ≤ (es.flatMap fun e => sourceReaders G e.1).count s
  heads : ∀ s, (es.filter fun e => (sourceStmts t e.2).bind List.head? = some s).length ≤
    put.count s
  all : (∀ e ∈ es, (sourceReaders G e.1).Pairwise
      fun x y => ¬ Relation.ReflTransGen (Asks cat G mon) x y ∧
        ¬ Relation.ReflTransGen (Asks cat G mon) y x) →
    put.Perm (es.flatMap fun e => sourceReaders G e.1)

section

variable (h : Tabled cat P t G) (hcalc : ∀ s ∈ P, Calculates cat P G mon u (calcWeight cat t n) s)
include h hcalc

theorem visit_spec {e : Sigma fun _ : Name => BufferEntry} (he : e ∈ t.entries)
    (hw : Weighed cat P G mon u a.marks) :
    ∃ ss a' put, sourceStmts t e.2 = some ss ∧ ss.Perm (sourceReaders G e.1) ∧
      visit cat t n e.2 a = some a' ∧
      Grouped cat P G mon u ss put { a with marks := ss.foldl Marking.clearWeight a.marks } a' := by
  obtain ⟨ss, hss, hperm, -⟩ := h.sourceStmts he
  have hP : ∀ s ∈ ss, s ∈ P := by
    intro s hs
    have hs' := (mem_sourceReaders.mp (hperm.mem_iff.mp hs)).2
    rw [h.members.cons] at hs'
    exact (mem_readers.mp hs').1
  obtain ⟨a', put, hok, hg⟩ := groupStmts_spec (a := { a with
    marks := ss.foldl Marking.clearWeight a.marks }) (fun s hs => hcalc s (hP s hs)) (hw.cleared ss)
  refine ⟨ss, a', put, hss, hperm, ?_, hg⟩
  rw [visit, hss]
  exact hok

theorem visits_spec {es : List (Sigma fun _ : Name => BufferEntry)} (hes : ∀ e ∈ es, e ∈ t.entries)
    (hw : Weighed cat P G mon u a.marks) :
    ∃ a' put, visits cat t n es a = some a' ∧ Visited cat P G mon u t es put a a' := by
  induction es generalizing a with
  | nil =>
    refine ⟨a, [], rfl, hw, fun e he => ?_, fun _ h => h, fun _ h => .inl h, fun h => h, .refl _,
      fun s => by simp, fun s => by simp, fun _ => .refl _⟩
    exact absurd he List.not_mem_nil
  | cons e es ih =>
    obtain ⟨ss, a₁, put₁, hss, hperm, hvisit, hg⟩ :=
      visit_spec h hcalc (hes e List.mem_cons_self) hw
    obtain ⟨a', put, hok, hv⟩ :=
      ih (fun e he => hes e (List.mem_cons_of_mem _ he)) hg.calculated.weighed
    have hset₁ : ∀ s ∈ ss, (a₁.marks s).weightSet = true := hg.calculated.set
    have hcleared := fun x => (clearWeights_fields ss a.marks x).2.2
    refine ⟨a', put₁ ++ put, ?_, hv.weighed, fun e' he' s hs => ?_, fun x hx => hv.keeps x ?_,
      fun x hx => ?_, fun hd => hv.decreasing (hg.decreasing hd), ?_, fun s => ?_, fun s => ?_,
      fun hall => ?_⟩
    · rw [visits, hvisit]
      exact hok
    · rcases List.mem_cons.mp he' with rfl | he'
      · exact hv.keeps s (hset₁ s (hperm.mem_iff.mpr hs))
      · exact hv.set e' he' s hs
    · by_cases hxs : x ∈ ss
      · exact hset₁ x hxs
      · exact hg.calculated.keeps x ((hcleared x).mpr ⟨hx, hxs⟩)
    · rcases hv.only x hx with hx | ⟨e', he', s, hs, hsx⟩
      · rcases hg.calculated.only x hx with hx | ⟨s, hs, hsx⟩
        · exact .inl ((hcleared x).mp hx).1
        · exact .inr ⟨e, List.mem_cons_self, s, hperm.mem_iff.mp hs, hsx⟩
      · exact .inr ⟨e', List.mem_cons_of_mem _ he', s, hs, hsx⟩
    · rw [List.append_assoc]
      refine hv.entries.trans ?_
      refine (List.Perm.append_left put hg.entries).trans ?_
      rw [← List.append_assoc, ← List.append_assoc]
      exact List.Perm.append_right _ List.perm_append_comm
    · rw [List.flatMap_cons, List.count_append, List.count_append]
      have h1 := hg.sub.count_le s
      rw [hperm.count_eq] at h1
      exact Nat.add_le_add h1 (hv.bound s)
    · rw [List.count_append]
      have hrest := hv.heads s
      by_cases hhead : (sourceStmts t e.2).bind List.head? = some s
      · rw [List.filter_cons_of_pos (by simpa using hhead), List.length_cons]
        rw [hss] at hhead
        obtain ⟨rest, hrest'⟩ := List.head?_eq_some_iff.mp hhead
        have hmem : s ∈ put₁ := by
          refine hg.head s rest hrest' ?_
          by_contra hno
          have hin := ((hcleared s).mp (by simpa using hno)).2
          rw [hrest'] at hin
          exact hin List.mem_cons_self
        have hpos := List.count_pos_iff.mpr hmem
        omega
      · rw [List.filter_cons_of_neg (by simpa using hhead)]
        omega
    · have hunset : ∀ s ∈ ss, ((ss.foldl Marking.clearWeight a.marks) s).weightSet = false := by
        intro s hs
        by_contra hno
        exact ((hcleared s).mp (by simpa using hno)).2 hs
      have hsym : ss.Pairwise fun x y => ¬ Relation.ReflTransGen (Asks cat G mon) x y ∧
          ¬ Relation.ReflTransGen (Asks cat G mon) y x := by
        refine hperm.symm.pairwise (hall e List.mem_cons_self) fun {x y} hxy => ⟨hxy.2, hxy.1⟩
      rw [hg.all hunset (hsym.imp And.left)]
      exact hperm.append (hv.all fun e' he' => hall e' (List.mem_cons_of_mem _ he'))

end

end Visits

section Flags

variable {w w' : Marking} {n : Nat} {a a' : Walk}

def Reader (G : Graph) (s : StmtId) : Prop := ∃ b, s ∈ G.cons b

def Sets (R : StmtId → Prop) (w w' : Marking) : Prop :=
  ∀ x, (w' x).weightSet = true → (w x).weightSet = true ∨ R x

variable {R : StmtId → Prop}

theorem Sets.refl (w : Marking) : Sets R w w := fun _ hx => .inl hx

theorem Sets.trans {w'' : Marking} (h : Sets R w w') (h' : Sets R w' w'') :
    Sets R w w'' := by
  intro x hx
  rcases h' x hx with hx | hx
  · exact h x hx
  · exact .inr hx

theorem Sets.setWeight (h : Sets R w w') (hs : R s) (v : Int) :
    Sets R w (w'.setWeight s v) := by
  intro x hx
  by_cases hxs : x = s
  · exact .inr (hxs ▸ hs)
  · rw [Marking.setWeight, Function.update_of_ne hxs] at hx
    exact h x hx

theorem weigh_sets {run : StmtId → Marking → Option Marking}
    (hrun : ∀ w w', run s w = some w' → Sets R w w') (hok : weigh run s w = some w') :
    Sets R w w' := by
  rw [weigh] at hok
  split at hok
  · rw [← Option.some.inj hok]
    exact .refl w
  · exact hrun w w' hok

theorem forkWeight_sets {run : StmtId → Marking → Option Marking}
    {es : List (Sigma fun _ : Name => BufferEntry)}
    (hrun : ∀ c ∈ dummyStmts b es, ∀ w w', run c w = some w' → Sets R w w') {m v : Int}
    (hok : forkWeight run b es m w = some (v, w')) : Sets R w w' := by
  induction es generalizing w m with
  | nil =>
    rw [← (Prod.mk.inj (Option.some.inj hok)).2]
    exact .refl w
  | cons e es ih =>
    rw [forkWeight] at hok
    rw [dummyStmts, List.filterMap_cons] at hrun
    split at hok
    · next hty =>
      rw [if_pos hty] at hrun
      split at hok
      · cases hok
      · next c hc =>
        rw [hc] at hrun
        split at hok
        · cases hok
        · next w₁ hw₁ =>
          have hfirst := weigh_sets (hrun c List.mem_cons_self) hw₁
          exact hfirst.trans (ih (fun d hd => hrun d (List.mem_cons_of_mem _ hd)) hok)
    · next hty =>
      rw [if_neg hty] at hrun
      exact ih hrun hok

theorem calcWeight_sets (h : Tabled cat P t G) (hs : s ∈ P) (hr : Reader G s)
    (hok : calcWeight cat t n s w = some w') : Sets (Reader G) w w' := by
  induction n generalizing s w w' with
  | zero => cases hok
  | succ n ih =>
    have hbelow : ∀ y ∈ G.cons (cat s).out, ∀ w w', calcWeight cat t n y w = some w' →
        Sets (Reader G) w w' := by
      intro y hy w w' hok
      have hyP := hy
      rw [h.members.cons] at hyP
      exact ih (mem_readers.mp hyP).1 ⟨_, hy⟩ hok
    have hp : G.prod (cat s).out = some s := (h.members.prod _ s).2 ⟨hs, rfl⟩
    have hkn : G.Known (cat s).out := .inl (by simp [hp])
    rw [calcWeight] at hok
    split at hok
    · rw [← Option.some.inj hok]
      intro x hx
      by_cases hxs : x = s
      · exact .inr (hxs ▸ hr)
      · rw [Marking.setFlag, Function.update_of_ne hxs] at hx
        exact .inl hx
    · rw [h.canon.buffers _ hkn] at hok
      dsimp only at hok
      split at hok
      · next hty =>
        split at hok
        · cases hok
        · next v w₁ hfork =>
          rw [← Option.some.inj hok]
          refine (forkWeight_sets (fun c hc => ?_) hfork).setWeight hr v
          exact hbelow c (h.mem_dummyStmts.mp hc).2
      · next hty =>
        split at hok
        · cases hok
        · next y hy =>
          split at hok
          · cases hok
          · next w₁ hw₁ =>
            rw [← Option.some.inj hok]
            refine (weigh_sets (hbelow y ?_) hw₁).setWeight hr _
            rw [Graph.entry, render] at hy hty
            rcases hc : G.cons (cat s).out with _ | ⟨c, _ | ⟨c', cs⟩⟩
            · rw [hc] at hy
              cases hy
            · rw [hc] at hy
              rw [← Option.some.inj hy]
              exact List.mem_cons_self
            · rw [hp, hc] at hty
              refine absurd ?_ hty
              by_cases hn : (cat s).type = .normal <;> simp [bufferTyOf, hn]

theorem groupStmts_sets (h : Tabled cat P t G) {ss : List StmtId}
    (hss : ∀ s ∈ ss, s ∈ P ∧ Reader G s) (hok : groupStmts cat t n ss a = some a') :
    Sets (Reader G) a.marks a'.marks := by
  induction ss generalizing a with
  | nil =>
    rw [← Option.some.inj hok]
    exact .refl _
  | cons s ss ih =>
    have hrest : ∀ c ∈ ss, c ∈ P ∧ Reader G c := fun c hc => hss c (List.mem_cons_of_mem _ hc)
    rw [groupStmts] at hok
    split at hok
    · exact ih hrest hok
    · split at hok
      · cases hok
      · next w₁ hw₁ =>
        obtain ⟨hs, hr⟩ := hss s List.mem_cons_self
        exact (calcWeight_sets h hs hr hw₁).trans (ih hrest hok)

theorem visits_sets (h : Tabled cat P t G) {es : List (Sigma fun _ : Name => BufferEntry)}
    (hes : ∀ e ∈ es, e ∈ t.entries) (hok : visits cat t n es a = some a') :
    Sets (Reader G) a.marks a'.marks := by
  induction es generalizing a with
  | nil =>
    rw [← Option.some.inj hok]
    exact .refl _
  | cons e es ih =>
    obtain ⟨ss, hss, hperm, -⟩ := h.sourceStmts (hes e List.mem_cons_self)
    obtain ⟨k, e⟩ := e
    rw [visits, visit, hss] at hok
    split at hok
    · cases hok
    · next a₁ ha₁ =>
      have hmem : ∀ s ∈ ss, s ∈ P ∧ Reader G s := by
        intro s hs
        have hs' := (mem_sourceReaders.mp (hperm.mem_iff.mp hs)).2
        refine ⟨?_, k, hs'⟩
        rw [h.members.cons] at hs'
        exact (mem_readers.mp hs').1
      have hcleared : Sets (Reader G) a.marks (ss.foldl Marking.clearWeight a.marks) :=
        fun x hx => .inl ((clearWeights_fields ss a.marks x).2.2.mp hx).1
      refine (hcleared.trans (groupStmts_sets h hmem ha₁)).trans ?_
      exact ih (fun e he => hes e (List.mem_cons_of_mem _ he)) hok

/-- The statement of an entry whose flags the next `update` clears. -/
def Clears (g : BufStateTbl) (s : StmtId) : Prop :=
  ∃ e ∈ g.entries, e.2.bType ≠ .sink ∧ e.2.bType ≠ .mergeSink ∧ e.2.statement = some s

theorem Tabled.clears (h : Tabled cat P t G) (hr : Reader G s) : Clears t s := by
  obtain ⟨b, hs⟩ := hr
  have hkn : G.Known b := by
    refine .inr fun hnil => ?_
    rw [hnil] at hs
    cases hs
  match hc : G.cons b with
  | [] =>
    rw [hc] at hs
    cases hs
  | [c] =>
    rw [hc, List.mem_singleton] at hs
    subst hs
    refine ⟨⟨b, G.entry cat b⟩, AList.mem_lookup_iff.mp (h.canon.buffers b hkn), ?_⟩
    rw [Graph.entry, render, hc]
    cases hp : G.prod b with
    | none => simp [bufferTyOf, statementOf]
    | some p => by_cases hn : (cat p).type = .normal <;> simp [bufferTyOf, statementOf, hn]
  | c :: c' :: cs =>
    have hf : G.Forks b := by simp [Graph.Forks, hc]
    exact ⟨⟨b ++ (cat s).out, dummyEntry (some s) b (cat s).out⟩,
      AList.mem_lookup_iff.mp (h.canon.dummies b hf s hs), by simp [dummyEntry]⟩

theorem clearEntries_fields (es : List (Sigma fun _ : Name => BufferEntry)) (w : Marking)
    (x : StmtId) :
    ((es.foldl (fun w e => clearEntry w e.2) w) x).weight = (w x).weight ∧
      ((es.foldl (fun w e => clearEntry w e.2) w) x).monitorSinkStat = (w x).monitorSinkStat ∧
      (((es.foldl (fun w e => clearEntry w e.2) w) x).weightSet = true →
        (w x).weightSet = true ∧
          ∀ e ∈ es, e.2.bType ≠ .sink → e.2.bType ≠ .mergeSink → e.2.statement ≠ some x) := by
  induction es generalizing w with
  | nil => simp
  | cons e es ih =>
    obtain ⟨h1, h2, h3⟩ := ih (clearEntry w e.2)
    have hone : ((clearEntry w e.2) x).weight = (w x).weight ∧
        ((clearEntry w e.2) x).monitorSinkStat = (w x).monitorSinkStat ∧
        (((clearEntry w e.2) x).weightSet = true → (w x).weightSet = true ∧
          (e.2.bType ≠ .sink → e.2.bType ≠ .mergeSink → e.2.statement ≠ some x)) := by
      rw [clearEntry]
      split
      · next hty =>
        cases hst : e.2.statement with
        | none => simp
        | some s =>
          dsimp only
          by_cases hxs : x = s
          · subst hxs
            rw [Marking.clear]
            simp
          · rw [Marking.clear, Function.update_of_ne hxs]
            refine ⟨rfl, rfl, fun hx => ⟨hx, fun _ _ he => hxs (Option.some.inj he).symm⟩⟩
      · next hty =>
        exact ⟨rfl, rfl, fun hx => ⟨hx, fun h h' => absurd ⟨h, h'⟩ hty⟩⟩
    obtain ⟨k1, k2, k3⟩ := hone
    rw [List.foldl_cons, h1, h2, k1, k2]
    refine ⟨rfl, rfl, fun hx => ?_⟩
    obtain ⟨hx, hes⟩ := h3 hx
    obtain ⟨hx, he⟩ := k3 hx
    refine ⟨hx, fun e' he' => ?_⟩
    rcases List.mem_cons.mp he' with rfl | he'
    · exact he
    · exact hes e' he'

/-- A profile and the statements, from the first `update` on. A statement that is dropped loses its
flag. -/
inductive ProfileRun (cat : Catalog) : WeightProfile → Marking → Prop
  | new {w : Marking} (unset : ∀ s, (w s).weightSet = false) : ProfileRun cat .new w
  | mark {p : WeightProfile} {w w' : Marking} (run : ProfileRun cat p w)
      (only : ∀ s, (w' s).weightSet = true → (w s).weightSet = true) : ProfileRun cat p w'
  | update {p p' : WeightProfile} {w w' : Marking} {P : List StmtId} {t : BufStateTbl} {G : Graph}
      {n : Nat} (run : ProfileRun cat p w) (h : Tabled cat P t G)
      (step : p.update cat t n w = some (p', w')) : ProfileRun cat p' w'

theorem ProfileRun.clears {p : WeightProfile} (run : ProfileRun cat p w) :
    ∀ s, (w s).weightSet = true → Clears p.queryGraph s := by
  induction run with
  | new unset =>
    intro s hs
    rw [unset s] at hs
    cases hs
  | mark run only ih => exact fun s hs => ih s (only s hs)
  | @update p p' w w' P t G n run h step ih =>
    intro s hs
    rw [WeightProfile.update] at step
    split at step
    · cases step
    · next a ha =>
      obtain ⟨rfl, rfl⟩ := Prod.mk.inj (Option.some.inj step)
      rcases visits_sets h (fun e he => he) ha s hs with hs | hr
      · obtain ⟨hset, hno⟩ := (clearEntries_fields p.queryGraph.entries w s).2.2 hs
        obtain ⟨e, he, h1, h2, h3⟩ := ih s hset
        exact absurd h3 (hno e he h1 h2)
      · exact h.clears hr

theorem ProfileRun.unset {p : WeightProfile} (run : ProfileRun cat p w) (s : StmtId) :
    ((clearGraph p.queryGraph w) s).weightSet = false := by
  by_contra hno
  obtain ⟨hset, hclear⟩ := (clearEntries_fields p.queryGraph.entries w s).2.2
    (Bool.eq_true_of_not_eq_false hno)
  obtain ⟨e, he, h1, h2, h3⟩ := run.clears s hset
  exact hclear e he h1 h2 h3

end Flags

section Orders

variable {t' : BufStateTbl}

theorem Tabled.perm (h : Tabled cat P t G) (hp : t'.entries.Perm t.entries) :
    Tabled cat P t' G where
  canon := by
    have hlook : ∀ k, t'.lookup k = t.lookup k := fun k => AList.perm_lookup hp
    refine ⟨fun b hb => ?_, fun b hf c hc => ?_, fun k e hk => ?_⟩
    · rw [hlook]
      exact h.canon.buffers b hb
    · rw [hlook]
      exact h.canon.dummies b hf c hc
    · rw [hlook] at hk
      exact h.canon.only k e hk
  members := h.members
  names := h.names

def front (q : (Sigma fun _ : Name => BufferEntry) → Bool) (t : BufStateTbl) : BufStateTbl :=
  ⟨t.entries.filter q ++ t.entries.filter fun e => !q e,
    (List.perm_nodupKeys (List.filter_append_perm q t.entries)).mpr t.nodupKeys⟩

theorem front_perm (q : (Sigma fun _ : Name => BufferEntry) → Bool) (t : BufStateTbl) :
    (front q t).entries.Perm t.entries := List.filter_append_perm q t.entries

theorem dummyStmts_append (b : Name) (es es' : List (Sigma fun _ : Name => BufferEntry)) :
    dummyStmts b (es ++ es') = dummyStmts b es ++ dummyStmts b es' := List.filterMap_append

theorem dummyStmts_front (h : Tabled cat P t G) (hf : G.Forks b) (hs : s ∈ G.cons b) :
    (dummyStmts b (front (fun e => e.2.statement = some s) t).entries).head? = some s := by
  have hall : ∀ c ∈ dummyStmts b (t.entries.filter fun e => e.2.statement = some s), c = s := by
    intro c hc
    rw [dummyStmts, List.mem_filterMap] at hc
    obtain ⟨e, he, hc⟩ := hc
    have hst := of_decide_eq_true (List.mem_filter.mp he).2
    split at hc
    · exact (Option.some.inj (hst.symm.trans hc)).symm
    · cases hc
  have hmem : s ∈ dummyStmts b (t.entries.filter fun e => e.2.statement = some s) := by
    rw [dummyStmts, List.mem_filterMap]
    refine ⟨⟨b ++ (cat s).out, dummyEntry (some s) b (cat s).out⟩, ?_, by simp [dummyEntry]⟩
    rw [List.mem_filter]
    exact ⟨AList.mem_lookup_iff.mp (h.canon.dummies b hf s hs), by simp [dummyEntry]⟩
  rw [front]
  rw [dummyStmts_append]
  obtain ⟨c, cs, hcs⟩ := List.exists_cons_of_ne_nil (List.ne_nil_of_mem hmem)
  rw [hcs] at hall ⊢
  rw [List.cons_append, List.head?_cons, hall c List.mem_cons_self]

theorem sourceStmts_head (h : Tabled cat P t G) (hp : G.prod b = none) (hs : s ∈ G.cons b)
    (hhead : G.Forks b → (dummyStmts b t.entries).head? = some s) :
    (⟨b, G.entry cat b⟩ : Sigma fun _ : Name => BufferEntry) ∈ t.entries ∧
      (sourceStmts t (G.entry cat b)).bind List.head? = some s := by
  have hkn : G.Known b := .inr (List.ne_nil_of_mem hs)
  have he := AList.mem_lookup_iff.mp (h.canon.buffers b hkn)
  obtain ⟨ss, hss, hperm, hfork⟩ := h.sourceStmts he
  refine ⟨he, ?_⟩
  rw [hss]
  by_cases hf : G.Forks b
  · rw [hfork hf hp]
    exact hhead hf
  · rw [sourceReaders, if_pos hp] at hperm
    rcases hc : G.cons b with _ | ⟨c, _ | ⟨c', cs⟩⟩
    · rw [hc] at hs
      cases hs
    · rw [hc] at hs hperm
      rw [List.perm_singleton.mp hperm, List.mem_singleton.mp hs]
      rfl
    · exact absurd (by simp [Graph.Forks, hc]) hf

end Orders

section Right

variable {p p' : WeightProfile} {w w' : Marking} {n : Nat}

def ReadBy (cat : Catalog) (G : Graph) (x y : StmtId) : Prop := y ∈ G.cons (cat x).out

/-- The statement reads a buffer that nothing produces. -/
def ReadsSource (G : Graph) (s : StmtId) : Prop := ∃ b, G.prod b = none ∧ s ∈ G.cons b

def SinkWeights (cat : Catalog) (G : Graph) (u : StmtId → Int) (s : StmtId) : Set Int :=
  {v | ∃ k, Relation.ReflTransGen (ReadBy cat G) s k ∧ G.cons (cat k).out = [] ∧ v = u k}

/-- What `update` is for, with the weights `u` of the user. -/
structure WeighsRight (cat : Catalog) (G : Graph) (u : StmtId → Int) (p : WeightProfile)
    (w : Marking) : Prop where
  weights : ∀ s, ReadsSource G s → IsGreatest (SinkWeights cat G u s) (w s).weight
  decreasing : Decreasing p.vSGroups
  once : ∀ s, ReadsSource G s → (entriesOf p.vSGroups).count s = 1

/-- For every source statement, the greatest weight that it comes to is the greatest weight of a
sink. -/
def OffersSinks (cat : Catalog) (G : Graph) (mon : StmtId → Bool) (u : StmtId → Int) : Prop :=
  ∀ s, ReadsSource G s →
    ∃ v, IsGreatest (Offers cat G mon u s) v ∧ IsGreatest (SinkWeights cat G u s) v

def OneSource (G : Graph) : Prop :=
  ∀ b b' s, G.prod b = none → G.prod b' = none → s ∈ G.cons b → s ∈ G.cons b' → b = b'

/-- No reader of a source comes after another one. -/
def ReadersApart (cat : Catalog) (G : Graph) (mon : StmtId → Bool) : Prop :=
  ∀ b, G.prod b = none → ∀ x ∈ G.cons b, ∀ y ∈ G.cons b, x ≠ y →
    ¬ Relation.ReflTransGen (Asks cat G mon) x y

theorem update_visits (run : ProfileRun cat p w) (h : Tabled cat P t G)
    (hac : Lib.Acyclic (ReadBy cat G))
    (hsinks : SinksWeighed cat P G fun x => (w x).monitorSinkStat) (hn : P.length < n) :
    (∀ s ∈ P, Calculates cat P G (fun x => (w x).monitorSinkStat) (fun x => (w x).weight)
        (calcWeight cat t n) s) ∧
      Weighed cat P G (fun x => (w x).monitorSinkStat) (fun x => (w x).weight)
        (clearGraph p.queryGraph w) := by
  have hasks : Lib.Acyclic (Asks cat G fun x => (w x).monitorSinkStat) :=
    hac.mono fun x y hxy => hxy.2
  refine ⟨fun s hs => ?_, fun x => ?_, fun x _ => ?_, fun x _ hset => ?_⟩
  · exact calcWeight_spec h hsinks hasks hs (Lib.depth_le.trans_lt hn)
  · exact (clearEntries_fields p.queryGraph.entries w x).2.1
  · exact (clearEntries_fields p.queryGraph.entries w x).1
  · rw [run.unset x] at hset
    cases hset

theorem cons_nodup (h : Tabled cat P t G) (b : Name) : (G.cons b).Nodup := by
  rw [h.members.cons]
  exact h.members.nodup.filter _

theorem sourceReaders_nodup (h : Tabled cat P t G) (b : Name) : (sourceReaders G b).Nodup := by
  rw [sourceReaders]
  split
  · exact cons_nodup h b
  · exact List.nodup_nil

theorem met_once (h : Tabled cat P t G) (hone : OneSource G) (hs : ReadsSource G s) :
    (t.entries.flatMap fun e => sourceReaders G e.1).count s = 1 := by
  obtain ⟨b, hp, hsb⟩ := hs
  have hkn : G.Known b := .inr (List.ne_nil_of_mem hsb)
  have hnd : (t.entries.flatMap fun e => sourceReaders G e.1).Nodup := by
    rw [List.nodup_flatMap]
    refine ⟨fun e _ => sourceReaders_nodup h e.1, ?_⟩
    refine (List.nodupKeys_iff_pairwise.mp t.nodupKeys).imp fun {e e'} hne => ?_
    intro c hc hc'
    obtain ⟨hp₁, hc₁⟩ := mem_sourceReaders.mp hc
    obtain ⟨hp₂, hc₂⟩ := mem_sourceReaders.mp hc'
    exact hne (hone _ _ c hp₁ hp₂ hc₁ hc₂)
  refine List.count_eq_one_of_mem hnd (List.mem_flatMap.mpr ?_)
  exact ⟨⟨b, G.entry cat b⟩, AList.mem_lookup_iff.mp (h.canon.buffers b hkn),
    mem_sourceReaders.mpr ⟨hp, hsb⟩⟩

/-- The walk leaves the readers of a source with the greatest weight they are offered. -/
theorem Visited.greatest {mon : StmtId → Bool} {u : StmtId → Int} {put : List StmtId} {a a' : Walk}
    (hv : Visited cat P G mon u t t.entries put a a') (h : Tabled cat P t G)
    (hs : ReadsSource G s) : IsGreatest (Offers cat G mon u s) (a'.marks s).weight := by
  obtain ⟨b, hp, hsb⟩ := hs
  have hkn : G.Known b := .inr (List.ne_nil_of_mem hsb)
  have hset := hv.set ⟨b, G.entry cat b⟩ (AList.mem_lookup_iff.mp (h.canon.buffers b hkn)) s
    (mem_sourceReaders.mpr ⟨hp, hsb⟩)
  rw [h.members.cons] at hsb
  exact hv.weighed.right s (mem_readers.mp hsb).1 hset

section

variable (run : ProfileRun cat p w) (h : Tabled cat P t G) (hac : Lib.Acyclic (ReadBy cat G))
  (hsinks : SinksWeighed cat P G fun x => (w x).monitorSinkStat) (hn : P.length < n)
include run h hac hsinks hn

theorem update_weighsRight
    (hoffers : OffersSinks cat G (fun x => (w x).monitorSinkStat) fun x => (w x).weight)
    (hone : OneSource G) (hapart : ReadersApart cat G fun x => (w x).monitorSinkStat) :
    ∃ p' w', p.update cat t n w = some (p', w') ∧
      WeighsRight cat G (fun x => (w x).weight) p' w' := by
  obtain ⟨hcalc, hw⟩ := update_visits run h hac hsinks hn
  obtain ⟨a, put, hok, hv⟩ := visits_spec (a := ⟨[], 0, clearGraph p.queryGraph w⟩) h hcalc
    (fun e he => he) hw
  refine ⟨⟨t, a.vSGroups, a.totalSourceStmt⟩, a.marks, ?_, fun s hs => ?_,
    hv.decreasing List.Pairwise.nil, fun s hs => ?_⟩
  · rw [WeightProfile.update, hok]
  · obtain ⟨v, hv₁, hv₂⟩ := hoffers s hs
    rw [(hv.greatest h hs).unique hv₁]
    exact hv₂
  · have hall : put.Perm (t.entries.flatMap fun e => sourceReaders G e.1) := by
      refine hv.all fun e he => ?_
      refine List.Nodup.pairwise_of_forall_ne (sourceReaders_nodup h e.1) fun x hx y hy hne => ?_
      obtain ⟨hp, hx⟩ := mem_sourceReaders.mp hx
      obtain ⟨-, hy⟩ := mem_sourceReaders.mp hy
      exact ⟨hapart e.1 hp x hx y hy hne, hapart e.1 hp y hy x hx hne.symm⟩
    have hent : (entriesOf a.vSGroups).Perm put := by
      refine hv.entries.trans ?_
      rw [entriesOf, List.flatMap_nil, List.append_nil]
    rw [(hent.trans hall).count_eq, met_once h hone hs]

/-- A statement that reads two sources comes to the groups twice if it is met first. -/
theorem oneSource_of_right
    (hright : ∀ t', t'.entries.Perm t.entries → ∃ p' w', p.update cat t' n w = some (p', w') ∧
      WeighsRight cat G (fun x => (w x).weight) p' w') : OneSource G := by
  intro b b' s hp hp' hs hs'
  by_contra hne
  have hperm := front_perm (fun e => e.2.statement = some s) t
  have ht := h.perm hperm
  obtain ⟨hcalc, hw⟩ := update_visits run ht hac hsinks hn
  obtain ⟨a, put, hok, hv⟩ := visits_spec (a := ⟨[], 0, clearGraph p.queryGraph w⟩) ht hcalc
    (fun e he => he) hw
  obtain ⟨he, hhead⟩ := sourceStmts_head ht hp hs fun hf => dummyStmts_front h hf hs
  obtain ⟨he', hhead'⟩ := sourceStmts_head ht hp' hs' fun hf => dummyStmts_front h hf hs'
  have htwo : 2 ≤ put.count s := by
    refine le_trans ?_ (hv.heads s)
    have hsub : ([⟨b, G.entry cat b⟩, ⟨b', G.entry cat b'⟩] :
        List (Sigma fun _ : Name => BufferEntry)).Subperm
          ((front (fun e => e.2.statement = some s) t).entries.filter fun e =>
            (sourceStmts (front (fun e => e.2.statement = some s) t) e.2).bind List.head? =
              some s) := by
      refine List.subperm_of_subset ?_ fun e hmem => ?_
      · rw [List.nodup_cons, List.mem_singleton]
        exact ⟨fun heq => hne (congrArg Sigma.fst heq), List.nodup_singleton _⟩
      · rw [List.mem_filter]
        rcases List.mem_cons.mp hmem with rfl | hmem
        · exact ⟨he, by simpa using hhead⟩
        · rw [List.mem_singleton.mp hmem]
          exact ⟨he', by simpa using hhead'⟩
    exact hsub.length_le
  obtain ⟨p', w', hupdate, hr⟩ := hright _ hperm
  rw [WeightProfile.update, hok] at hupdate
  obtain ⟨rfl, rfl⟩ := Prod.mk.inj (Option.some.inj hupdate)
  have hcount := hr.once s ⟨b, hp, hs⟩
  rw [hv.entries.count_eq, List.count_append] at hcount
  omega

end

theorem filter_key (t : BufStateTbl) {e : BufferEntry} (he : t.lookup b = some e) :
    (t.entries.filter fun e' => e'.1 = b) = [⟨b, e⟩] := by
  have hnd := t.nodupKeys.nodup.filter fun e' : (Sigma fun _ : Name => BufferEntry) => e'.1 = b
  refine List.perm_singleton.mp ((List.perm_ext_iff_of_nodup hnd (List.nodup_singleton _)).mpr ?_)
  rintro ⟨k, e'⟩
  rw [List.mem_filter, List.mem_singleton]
  constructor
  · rintro ⟨hmem, hk⟩
    obtain rfl : k = b := of_decide_eq_true hk
    have he' := AList.mem_lookup_iff.mpr hmem
    rw [he] at he'
    rw [Option.some.inj he']
  · intro heq
    rw [heq]
    exact ⟨AList.mem_lookup_iff.mp he, by simp⟩

theorem dummyStmts_front_key (h : Tabled cat P t G) (hkn : G.Known b) :
    dummyStmts b (front (fun e => e.1 = b) t).entries = dummyStmts b t.entries := by
  have hno : ∀ e ∈ t.entries, e.1 = b → e.2.bType ≠ .forkDummy := by
    intro e he hb
    rcases h.entry he with ⟨-, heq⟩ | ⟨hunk, -⟩
    · rw [heq]
      exact bufferTyOf_ne_dummy _ _
    · rw [hb] at hunk
      exact absurd hkn hunk
  have hfirst : dummyStmts b (t.entries.filter fun e => e.1 = b) = [] := by
    rw [dummyStmts, List.filterMap_eq_nil_iff]
    intro e he
    obtain ⟨he, hb⟩ := List.mem_filter.mp he
    rw [if_neg fun hty => hno e he (of_decide_eq_true hb) hty.1]
  have hrest : dummyStmts b (t.entries.filter fun e => !decide (e.1 = b)) =
      dummyStmts b t.entries := by
    rw [dummyStmts, List.filterMap_filter]
    refine List.filterMap_congr fun e he => ?_
    by_cases hb : e.1 = b
    · rw [if_neg (by simpa using hb), if_neg fun hty => hno e he hb hty.1]
    · rw [if_pos (by simpa using hb)]
  rw [front]
  rw [dummyStmts_append, hfirst, hrest]
  rfl

section

variable (run : ProfileRun cat p w) (h : Tabled cat P t G) (hac : Lib.Acyclic (ReadBy cat G))
  (hsinks : SinksWeighed cat P G fun x => (w x).monitorSinkStat) (hn : P.length < n)
include run h hac hsinks hn

theorem readersApart_of_right (hone : OneSource G)
    (hright : ∀ t', t'.entries.Perm t.entries → ∃ p' w', p.update cat t' n w = some (p', w') ∧
      WeighsRight cat G (fun x => (w x).weight) p' w') :
    ReadersApart cat G fun x => (w x).monitorSinkStat := by
  intro b hp x hx y hy hne hxy
  have hkn : G.Known b := .inr (List.ne_nil_of_mem hx)
  have hf : G.Forks b := by
    match hc : G.cons b with
    | [] =>
      rw [hc] at hx
      cases hx
    | [c] =>
      rw [hc, List.mem_singleton] at hx hy
      exact absurd (hx.trans hy.symm) hne
    | c :: c' :: cs => simp [Graph.Forks, hc]
  have hperm₁ := front_perm (fun e => e.2.statement = some x) t
  have hperm₂ := front_perm (fun e => e.1 = b) (front (fun e => e.2.statement = some x) t)
  have ht₁ := h.perm hperm₁
  have ht := h.perm (hperm₂.trans hperm₁)
  have hlook := ht₁.canon.buffers b hkn
  -- `b` is visited first, and `x` is the first of its readers
  have hentries := filter_key _ hlook
  have hhead : (dummyStmts b (front (fun e => e.1 = b)
      (front (fun e => e.2.statement = some x) t)).entries).head? = some x := by
    rw [dummyStmts_front_key ht₁ hkn]
    exact dummyStmts_front h hf hx
  obtain ⟨hcalc, hw⟩ := update_visits run ht hac hsinks hn
  have he : (⟨b, G.entry cat b⟩ : Sigma fun _ : Name => BufferEntry) ∈
      (front (fun e => e.1 = b) (front (fun e => e.2.statement = some x) t)).entries :=
    AList.mem_lookup_iff.mp (ht.canon.buffers b hkn)
  obtain ⟨ss, a₁, put₁, hss, hpermss, hvisit, hg⟩ :=
    visit_spec (a := ⟨[], 0, clearGraph p.queryGraph w⟩) ht hcalc he hw
  obtain ⟨ss', hss', -, hfork⟩ := ht.sourceStmts he
  obtain rfl : ss = ss' := Option.some.inj (hss.symm.trans hss')
  rw [← hfork hf hp] at hhead
  obtain ⟨rest, hrest⟩ := List.head?_eq_some_iff.mp hhead
  have hunset : ∀ z, ((ss.foldl Marking.clearWeight (clearGraph p.queryGraph w)) z).weightSet =
      false := by
    intro z
    by_contra hno
    have hset := ((clearWeights_fields ss (clearGraph p.queryGraph w) z).2.2.mp
      (Bool.eq_true_of_not_eq_false hno)).1
    rw [run.unset z] at hset
    cases hset
  have hskip : y ∉ put₁ := by
    refine hg.skip x rest hrest (hunset x) (fun z z' hz _ => ?_) y hne.symm hxy
    rw [hunset z] at hz
    cases hz
  have hlater : ∀ e ∈ (front (fun e => e.2.statement = some x) t).entries.filter
      fun e => !decide (e.1 = b),
      e ∈ (front (fun e => e.1 = b) (front (fun e => e.2.statement = some x) t)).entries :=
    fun e he => List.mem_append_right _ he
  obtain ⟨a, put, hok, hv⟩ := visits_spec ht hcalc hlater hg.calculated.weighed
  have hzero : put.count y = 0 := by
    refine Nat.le_zero.mp ((hv.bound y).trans (Nat.le_zero.mpr (List.count_eq_zero.mpr ?_)))
    intro hmem
    obtain ⟨e, he, hye⟩ := List.mem_flatMap.mp hmem
    obtain ⟨hp', hy'⟩ := mem_sourceReaders.mp hye
    have hkey := (List.mem_filter.mp he).2
    rw [hone e.1 b y hp' hp hy' hy] at hkey
    simp at hkey
  have hvisits : visits cat (front (fun e => e.1 = b) (front (fun e => e.2.statement = some x) t)) n
      (front (fun e => e.1 = b) (front (fun e => e.2.statement = some x) t)).entries
        ⟨[], 0, clearGraph p.queryGraph w⟩ = some a := by
    have hsplit : (front (fun e => e.1 = b) (front (fun e => e.2.statement = some x) t)).entries =
        ⟨b, G.entry cat b⟩ :: (front (fun e => e.2.statement = some x) t).entries.filter
          fun e => !decide (e.1 = b) := by
      rw [front]
      dsimp only
      rw [hentries]
      rfl
    rw [hsplit, visits, hvisit]
    exact hok
  obtain ⟨p', w', hupdate, hr⟩ := hright _ (hperm₂.trans hperm₁)
  rw [WeightProfile.update, hvisits] at hupdate
  obtain ⟨rfl, rfl⟩ := Prod.mk.inj (Option.some.inj hupdate)
  have hcount := hr.once y ⟨b, hp, hy⟩
  rw [hv.entries.count_eq, List.count_append, hzero, hg.entries.count_eq,
    List.count_append, List.count_eq_zero.mpr hskip] at hcount
  simp [entriesOf] at hcount

theorem offersSinks_of_right (hupdate : ∃ p' w', p.update cat t n w = some (p', w') ∧
      WeighsRight cat G (fun x => (w x).weight) p' w') :
    OffersSinks cat G (fun x => (w x).monitorSinkStat) fun x => (w x).weight := by
  intro s hs
  obtain ⟨hcalc, hw⟩ := update_visits run h hac hsinks hn
  obtain ⟨a, put, hok, hv⟩ := visits_spec (a := ⟨[], 0, clearGraph p.queryGraph w⟩) h hcalc
    (fun e he => he) hw
  obtain ⟨p', w', hupdate, hr⟩ := hupdate
  rw [WeightProfile.update, hok] at hupdate
  obtain ⟨rfl, rfl⟩ := Prod.mk.inj (Option.some.inj hupdate)
  refine ⟨_, ?_, hr.weights s hs⟩
  exact hv.greatest h hs

theorem offersSinks_of_exact
    (hexact : ∀ x ∈ P, (w x).monitorSinkStat = true → G.cons (cat x).out = [])
    (hmin : ∀ x ∈ P, G.cons (cat x).out = [] → WeightProfile.WEIGHT_MIN ≤ (w x).weight) :
    OffersSinks cat G (fun x => (w x).monitorSinkStat) fun x => (w x).weight := by
  rintro s ⟨b, -, hsb⟩
  have hcons : ∀ b, ∀ x ∈ G.cons b, x ∈ P := by
    intro b x hx
    rw [h.members.cons] at hx
    exact (mem_readers.mp hx).1
  have hsP := hcons b s hsb
  obtain ⟨hcalc, hw⟩ := update_visits run h hac hsinks hn
  obtain ⟨w₁, -, hcal⟩ := hcalc s hsP _ hw
  have hgreat := hcal.weighed.right s hsP (hcal.set s (List.mem_singleton.mpr rfl))
  have hmem : ∀ k, Relation.ReflTransGen (ReadBy cat G) s k → k ∈ P := by
    intro k hk
    induction hk with
    | refl => exact hsP
    | tail _ hstep _ => exact hcons _ _ hstep
  have hasks : ∀ k, Relation.ReflTransGen (ReadBy cat G) s k →
      Relation.ReflTransGen (Asks cat G fun x => (w x).monitorSinkStat) s k := by
    intro k hk
    induction hk with
    | refl => exact .refl
    | @tail x y hx hstep ih =>
      refine ih.tail ⟨?_, hstep⟩
      by_contra hno
      have hnil := hexact x (hmem x hx) (Bool.eq_true_of_not_eq_false hno)
      rw [ReadBy, hnil] at hstep
      cases hstep
  have hbound : ∀ v ∈ SinkWeights cat G (fun x => (w x).weight) s, v ≤ (w₁ s).weight := by
    rintro v ⟨k, hk, hlast, rfl⟩
    exact hgreat.2 (.inl ⟨k, hasks k hk, hsinks k (hmem k hk) hlast, rfl⟩)
  refine ⟨_, hgreat, ?_, hbound⟩
  rcases hgreat.1 with ⟨k, hk, hmon, hv⟩ | ⟨hv, -⟩
  · have hreach := Relation.ReflTransGen.mono (fun x y hxy => hxy.2) s k hk
    exact ⟨k, hreach, hexact k (hmem k hreach) hmon, hv⟩
  · obtain ⟨k, hk, hlast⟩ := hac.exists_last (fun x y hxy => hcons _ y hxy) s
    have hnil : G.cons (cat k).out = [] := List.eq_nil_iff_forall_not_mem.mpr hlast
    refine ⟨k, hk, hnil, le_antisymm ?_ (hbound _ ⟨k, hk, hnil, rfl⟩)⟩
    rw [hv]
    exact hmin k (hmem k hk) hnil

end

/-- `update` gives the sources of a graph without cycles the greatest weight of their sinks and puts
each into one group once, exactly if nothing else is offered to them, no statement reads two sources
and no reader of a source comes after another one. -/
theorem weights_right_iff (run : ProfileRun cat p w) (h : Tabled cat P t G)
    (hac : Lib.Acyclic (ReadBy cat G))
    (hsinks : SinksWeighed cat P G fun x => (w x).monitorSinkStat) (hn : P.length < n) :
    ((∀ t', t'.entries.Perm t.entries → ∃ p' w', p.update cat t' n w = some (p', w') ∧
        WeighsRight cat G (fun x => (w x).weight) p' w') ↔
      OffersSinks cat G (fun x => (w x).monitorSinkStat) (fun x => (w x).weight) ∧ OneSource G ∧
        ReadersApart cat G fun x => (w x).monitorSinkStat) ∧
    ((∀ x ∈ P, (w x).monitorSinkStat = true → G.cons (cat x).out = []) →
      (∀ x ∈ P, G.cons (cat x).out = [] → WeightProfile.WEIGHT_MIN ≤ (w x).weight) →
      ((∀ t', t'.entries.Perm t.entries → ∃ p' w', p.update cat t' n w = some (p', w') ∧
          WeighsRight cat G (fun x => (w x).weight) p' w') ↔
        OneSource G ∧ ReadersApart cat G fun x => (w x).monitorSinkStat)) := by
  have hiff : (∀ t', t'.entries.Perm t.entries → ∃ p' w', p.update cat t' n w = some (p', w') ∧
      WeighsRight cat G (fun x => (w x).weight) p' w') ↔
      OffersSinks cat G (fun x => (w x).monitorSinkStat) (fun x => (w x).weight) ∧ OneSource G ∧
        ReadersApart cat G fun x => (w x).monitorSinkStat := by
    constructor
    · intro hright
      have hone := oneSource_of_right run h hac hsinks hn hright
      exact ⟨offersSinks_of_right run h hac hsinks hn (hright t (.refl _)), hone,
        readersApart_of_right run h hac hsinks hn hone hright⟩
    · rintro ⟨hoffers, hone, hapart⟩ t' hperm
      exact update_weighsRight run (h.perm hperm) hac hsinks hn hoffers hone hapart
  refine ⟨hiff, fun hexact hmin => ?_⟩
  rw [hiff]
  exact ⟨And.right, fun hc => ⟨offersSinks_of_exact run h hac hsinks hn hexact hmin, hc⟩⟩

end Right

/-- Statement 0 selects from `a` into `b`, and the other two read `b`. -/
def weightCat : Catalog
  | 0 => ⟨['s'], .normal, true, ['a'], ['b'], [], [], []⟩
  | 1 => ⟨['t'], .normal, true, ['b'], ['c'], [], [], []⟩
  | _ => ⟨['u'], .normal, true, ['b'], ['d'], [], [], []⟩

def weightDriver : Driver := added weightCat 2 (added weightCat 1 (added weightCat 0 Driver.new))

def weightMarks : Marking
  | 0 => ⟨1, false, false, false⟩
  | 1 => ⟨3, false, false, true⟩
  | _ => ⟨7, false, false, true⟩

theorem weightMarks_unset (s : StmtId) : (weightMarks s).weightSet = false := by
  match s with
  | 0 | 1 | n + 2 => rfl

theorem weightDriver_tabled : ∃ G, Tabled weightCat [0, 1, 2] weightDriver.bufStateTable G := by
  have h₁ : GraphRun weightCat (MayAdd weightCat) (MayDrop weightCat)
      (added weightCat 0 Driver.new) :=
    .add (s := 0) .new ⟨by decide, ⟨by decide, by decide, by decide, by decide⟩, by decide⟩ rfl
  have h₂ : GraphRun weightCat (MayAdd weightCat) (MayDrop weightCat)
      (added weightCat 1 (added weightCat 0 Driver.new)) :=
    .add (s := 1) h₁ ⟨by decide, ⟨by decide, by decide, by decide, by decide⟩, by decide⟩ rfl
  have h₃ : GraphRun weightCat (MayAdd weightCat) (MayDrop weightCat) weightDriver :=
    .add (s := 2) h₂ ⟨by decide, ⟨by decide, by decide, by decide, by decide⟩, by decide⟩ rfl
  obtain ⟨G, hr⟩ := h₃.reached
  exact ⟨G, hr.canon, hr.whole.members, hr.names⟩

theorem weightCat_reads {x : StmtId} {b : Name} (hx : b ∈ (weightCat x).inputs) :
    (x = 0 ∧ b = ['a']) ∨ (x ≠ 0 ∧ b = ['b']) := by
  match x with
  | 0 => exact .inl ⟨rfl, by simpa [weightCat, Stmt.inputs, Stmt.inBufs] using hx⟩
  | 1 => exact .inr ⟨by decide, by simpa [weightCat, Stmt.inputs, Stmt.inBufs] using hx⟩
  | n + 2 => exact .inr ⟨by simp, by simpa [weightCat, Stmt.inputs, Stmt.inBufs] using hx⟩

theorem weights_right_fork :
    ∃ G p' w', Tabled weightCat [0, 1, 2] weightDriver.bufStateTable G ∧
      WeightProfile.new.update weightCat weightDriver.bufStateTable 4 weightMarks = some (p', w') ∧
      WeighsRight weightCat G (fun k => (weightMarks k).weight) p' w' := by
  obtain ⟨G, h⟩ := weightDriver_tabled
  have hcons : ∀ b, G.cons b = readers weightCat [0, 1, 2] b := h.members.cons
  have hac : Lib.Acyclic (ReadBy weightCat G) := by
    refine .of_level (fun x => if x = 0 then 1 else 0) fun x y hxy => ?_
    rw [ReadBy, hcons, mem_readers] at hxy
    match x with
    | 0 =>
      rcases weightCat_reads hxy.2 with ⟨-, hb⟩ | ⟨hy, -⟩
      · exact absurd hb (by decide)
      · simp [hy]
    | 1 => rcases weightCat_reads hxy.2 with ⟨-, hb⟩ | ⟨-, hb⟩ <;> exact absurd hb (by decide)
    | n + 2 =>
      rcases weightCat_reads hxy.2 with ⟨-, hb⟩ | ⟨-, hb⟩ <;> simp [weightCat] at hb
  have hsinks : SinksWeighed weightCat [0, 1, 2] G fun x => (weightMarks x).monitorSinkStat := by
    intro x hx hnil
    rw [hcons] at hnil
    revert x
    decide
  have hexact : ∀ x ∈ [0, 1, 2], (weightMarks x).monitorSinkStat = true →
      G.cons (weightCat x).out = [] := by
    simp only [hcons]
    decide
  have hmin : ∀ x ∈ [0, 1, 2], G.cons (weightCat x).out = [] →
      WeightProfile.WEIGHT_MIN ≤ (weightMarks x).weight := by
    simp only [hcons]
    decide
  have hone : OneSource G := by
    intro b b' s _ _ hs hs'
    rw [hcons, mem_readers] at hs hs'
    rcases weightCat_reads hs.2 with ⟨h0, rfl⟩ | ⟨h0, rfl⟩
    · rcases weightCat_reads hs'.2 with ⟨-, rfl⟩ | ⟨h0', -⟩
      · rfl
      · exact absurd h0 h0'
    · rcases weightCat_reads hs'.2 with ⟨h0', -⟩ | ⟨-, rfl⟩
      · exact absurd h0' h0
      · rfl
  have hapart : ReadersApart weightCat G fun x => (weightMarks x).monitorSinkStat := by
    intro b hp x hx y hy hne
    rw [hcons, mem_readers] at hx hy
    rcases weightCat_reads hx.2 with ⟨hx0, rfl⟩ | ⟨hx0, rfl⟩
    · rcases weightCat_reads hy.2 with ⟨hy0, -⟩ | ⟨-, hb⟩
      · exact absurd (hx0.trans hy0.symm) hne
      · exact absurd hb (by decide)
    · have hmade : G.prod ['b'] = some 0 := (h.members.prod _ 0).2 ⟨by decide, rfl⟩
      rw [hp] at hmade
      cases hmade
  have hr := (weights_right_iff (n := 4) (.new weightMarks_unset) h hac hsinks (by decide)).2
    hexact hmin
  obtain ⟨p', w', hup, hright⟩ := hr.mpr ⟨hone, hapart⟩ _ (.refl _)
  exact ⟨G, p', w', h, hup, hright⟩

def twoCat : Catalog := fun _ => ⟨['u'], .tUnion, true, [], ['c'], [['a'], ['b']], [], []⟩

/-- The union is monitored, and comes to its group twice. -/
theorem weights_twice :
    ¬ ∀ (cat : Catalog) (P : List StmtId) (t : BufStateTbl) (G : Graph) (p : WeightProfile)
      (w : Marking) (n : Nat), ProfileRun cat p w → Tabled cat P t G →
      Lib.Acyclic (ReadBy cat G) → SinksWeighed cat P G (fun x => (w x).monitorSinkStat) →
      P.length < n → ∃ p' w', p.update cat t n w = some (p', w') ∧
        WeighsRight cat G (fun k => (w k).weight) p' w' := by
  intro hall
  have h₁ : GraphRun twoCat (MayAdd twoCat) (MayDrop twoCat) (added twoCat 0 Driver.new) :=
    .add (s := 0) .new ⟨by decide, ⟨by decide, by decide, by decide, by decide⟩, by decide⟩ rfl
  obtain ⟨G, hr⟩ := h₁.reached
  have hcons : ∀ b, G.cons b = readers twoCat [0] b := hr.whole.cons
  have hac : Lib.Acyclic (ReadBy twoCat G) := by
    refine .of_level (fun _ => 0) fun x y hxy => ?_
    rw [ReadBy, hcons, mem_readers] at hxy
    exact absurd (show ['c'] ∈ [['a'], ['b']] from hxy.2) (by decide)
  obtain ⟨p', w', hup, hright⟩ := hall twoCat [0] _ G WeightProfile.new
    (fun _ => ⟨5, false, false, true⟩) 2 (.new fun _ => rfl)
    ⟨hr.canon, hr.whole.members, hr.names⟩ hac (fun _ _ _ => rfl) (by decide)
  have htwice : (WeightProfile.new.update twoCat (added twoCat 0 Driver.new).bufStateTable 2
      fun _ => ⟨5, false, false, true⟩).map (fun r => entriesOf r.1.vSGroups) = some [0, 0] := by
    decide
  have hmade : G.prod ['a'] = none := by
    rw [Option.eq_none_iff_forall_ne_some]
    intro q hq
    have hout := ((hr.whole.prod _ q).mp hq).2
    exact absurd (show ['c'] = ['a'] from hout) (by decide)
  have hcount := hright.once 0 ⟨['a'], hmade, by rw [hcons]; decide⟩
  rw [hup, Option.map_some] at htwice
  rw [Option.some.inj htwice] at hcount
  exact absurd hcount (by decide)

end StreamMill.Esl
