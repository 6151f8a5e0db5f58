import StreamMill.Esl.Bookkeeping

/-!
# StreamMill.Esl.StmtPlace

Where the statements are. The driver manager finds a statement by its name, and a driver keeps the
list of its statements. Additions and drops that fail leave the lists as they are, whatever they
have done to the table before.

`Placed` is the invariant of every run, also of one in which calls fail: a statement that is in a
driver is in that driver only, and the manager knows it.
-/

namespace StreamMill.Esl

variable {cat : Catalog} {s : StmtId}

def DrvMgr.Where (m : DrvMgr) (s : StmtId) (i : DrvId) : Prop :=
  ∃ d, m.driver i = some d ∧ s ∈ d.stmts

/-- Drivers have numbers of their own and statements with names of their own, and the manager knows
the driver of each. -/
structure Placed (cat : Catalog) (m : DrvMgr) : Prop where
  ids : (m.drivers.map Prod.fst).Nodup
  fresh : ∀ p ∈ m.drivers, p.1 ≤ m.idCount
  names : ∀ i d, m.driver i = some d → (d.stmts.map fun s => (cat s).name).Nodup
  place : ∀ n i, m.stmtToDrvMap.lookup n = some i ↔ ∃ s, m.Where s i ∧ (cat s).name = n
  busy : ∀ i d, m.driver i = some d → d.stmts ≠ []

section Lists

variable (cat s)

def Leaves {σ α : Type} (left : σ → Driver) (get : α → Driver) (P : List StmtId) :
    Except (Stop σ) α → Prop
  | .ok a => (get a).stmts = P
  | .error (.failure d) => (left d).stmts = P
  | .error .crash => True

theorem addInput_leaves (a : AddLoop) (b : Name) :
    Leaves id AddLoop.drv a.drv.stmts (addInput cat s a b) := by
  unfold addInput
  dsimp only
  repeat' split
  all_goals first | rfl | exact trivial

theorem addInputs_leaves (bs : List Name) (a : AddLoop) :
    Leaves id AddLoop.drv a.drv.stmts (addInputs cat s bs a) := by
  induction bs generalizing a with
  | nil => rfl
  | cons b bs ih =>
    have hstep := addInput_leaves cat s a b
    rw [addInputs]
    cases h : addInput cat s a b with
    | error x =>
      rw [h] at hstep
      exact hstep
    | ok a' =>
      rw [h] at hstep
      have hrest := ih a'
      rw [show a'.drv.stmts = a.drv.stmts from hstep] at hrest
      exact hrest

theorem addOut_leaves (a : AddLoop) : Leaves id id a.drv.stmts (addOut cat s a) := by
  unfold addOut
  dsimp only
  repeat' split
  all_goals rfl

theorem addFirst_leaves (d : Driver) :
    (∀ d', addFirst cat s d = .ok d' → d'.stmts = d.stmts ++ [s]) ∧
      ∀ d', addFirst cat s d = .error (.failure d') → d'.stmts = d.stmts := by
  unfold addFirst
  dsimp only
  cases (cat s).type with
  | coll => simp [eq_comm]
  | normal | tUnion | tlUnion | join =>
    refine ⟨fun d' h => ?_, fun d' h => by cases h⟩
    rw [← Except.ok.inj h]
    simp [Driver.pushStmt, Driver.pushBuf, Driver.set, addSources_eq]

theorem addStmt_leaves (d : Driver) :
    (∀ d', addStmt cat s d = .ok d' → d'.stmts = d.stmts ++ [s]) ∧
      ∀ d', addStmt cat s d = .error (.failure d') → d'.stmts = d.stmts := by
  unfold addStmt
  split
  · split
    · exact addFirst_leaves cat s d
    · cases hbs : (cat s).inBufs with
      | none => simp [eq_comm]
      | some bs =>
        dsimp only
        have hins := addInputs_leaves cat s bs ⟨d, .none, none⟩
        cases hadd : addInputs cat s bs ⟨d, .none, none⟩ with
        | error x =>
          rw [hadd] at hins
          refine ⟨by simp, fun d' h => ?_⟩
          rw [Except.error.inj h] at hins
          exact hins
        | ok a =>
          dsimp only
          rw [hadd] at hins
          have hout := addOut_leaves cat s a
          rw [show a.drv.stmts = d.stmts from hins] at hout
          cases hput : addOut cat s a with
          | error x =>
            rw [hput] at hout
            refine ⟨by simp, fun d' h => ?_⟩
            rw [Except.error.inj h] at hout
            exact hout
          | ok d₁ =>
            rw [hput] at hout
            refine ⟨fun d' h => ?_, by simp⟩
            rw [← Except.ok.inj h, Driver.pushStmt, show d₁.stmts = d.stmts from hout]
  · simp [eq_comm]

theorem dropInput_leaves (me : DrvId) (st : DropState) (b : Name) :
    Leaves DropState.drv DropState.drv st.drv.stmts (dropInput cat me s st b) := by
  unfold dropInput
  repeat' split
  all_goals first | rfl | exact trivial

theorem dropInputs_leaves (me : DrvId) (bs : List Name) (st : DropState) :
    Leaves DropState.drv DropState.drv st.drv.stmts (dropInputs cat me s bs st) := by
  induction bs generalizing st with
  | nil => rfl
  | cons b bs ih =>
    have hstep := dropInput_leaves cat s me st b
    rw [dropInputs]
    cases h : dropInput cat me s st b with
    | error x =>
      rw [h] at hstep
      exact hstep
    | ok st' =>
      rw [h] at hstep
      have hrest := ih st'
      rw [show st'.drv.stmts = st.drv.stmts from hstep] at hrest
      exact hrest

theorem dropOut_leaves (me : DrvId) (st : DropState) :
    Leaves DropState.drv DropState.drv st.drv.stmts (dropOut cat me s st) := by
  unfold dropOut
  dsimp only
  repeat' split
  all_goals first | rfl | exact trivial

theorem dropStmt_leaves (me : DrvId) (st : DropState) :
    (∀ st', dropStmt cat me s st = .ok st' →
        st'.drv.stmts = st.drv.stmts.eraseP fun x => (cat x).name = (cat s).name) ∧
      ∀ st', dropStmt cat me s st = .error (.failure st') → st'.drv.stmts = st.drv.stmts := by
  unfold dropStmt
  split
  · cases hbs : (cat s).inBufs with
    | none => simp [eq_comm]
    | some bs =>
      dsimp only
      have hins := dropInputs_leaves cat s me bs st
      cases hadd : dropInputs cat me s bs st with
      | error x =>
        rw [hadd] at hins
        refine ⟨by simp, fun d' h => ?_⟩
        rw [Except.error.inj h] at hins
        exact hins
      | ok st₁ =>
        dsimp only
        rw [hadd] at hins
        have hout := dropOut_leaves cat s me st₁
        rw [show st₁.drv.stmts = st.drv.stmts from hins] at hout
        cases hput : dropOut cat me s st₁ with
        | error x =>
          rw [hput] at hout
          refine ⟨by simp, fun d' h => ?_⟩
          rw [Except.error.inj h] at hout
          exact hout
        | ok st₂ =>
          rw [hput] at hout
          refine ⟨fun d' h => ?_, by simp⟩
          rw [← Except.ok.inj h, ← show st₂.drv.stmts = st.drv.stmts from hout]
  · simp [eq_comm]

end Lists

section Places

variable {m m' : DrvMgr} {i j : DrvId} {d d' : Driver}

theorem lookup_cons_ite (p : DrvId × Driver) (l : List (DrvId × Driver)) (k : DrvId) :
    (p :: l).lookup k = if k = p.1 then some p.2 else l.lookup k := by
  rw [List.lookup_cons]
  by_cases hk : k = p.1
  · rw [if_pos hk, show (k == p.1) = true by simpa using hk]
  · rw [if_neg hk, show (k == p.1) = false by simpa using hk]

theorem lookup_set (l : List (DrvId × Driver)) (k : DrvId) :
    (l.map fun p => if p.1 = i then (i, d') else p).lookup k =
      if k = i then (l.lookup k).map fun _ => d' else l.lookup k := by
  induction l with
  | nil => simp
  | cons p l ih =>
    rw [List.map_cons, lookup_cons_ite, lookup_cons_ite, ih]
    by_cases hp : p.1 = i
    · rw [← hp]
      by_cases hk : k = p.1
      · simp [hk]
      · simp [hk]
    · rw [if_neg hp]
      by_cases hk : k = p.1
      · simp [hk, hp]
      · simp [hk]

theorem driver_set (h : m.driver i = some d) (k : DrvId) :
    (m.setDriver i d').driver k = if k = i then some d' else m.driver k := by
  rw [DrvMgr.driver, DrvMgr.setDriver, lookup_set]
  by_cases hk : k = i
  · subst hk
    rw [if_pos rfl, if_pos rfl, show m.drivers.lookup k = some d from h, Option.map_some]
  · rw [if_neg hk, if_neg hk, DrvMgr.driver]

theorem lookup_filter (l : List (DrvId × Driver)) (k : DrvId) :
    (l.filter fun p => p.1 ≠ i).lookup k = if k = i then none else l.lookup k := by
  induction l with
  | nil => simp
  | cons p l ih =>
    by_cases hp : p.1 = i
    · rw [List.filter_cons_of_neg (by simpa using hp), ih, lookup_cons_ite]
      by_cases hk : k = i
      · rw [if_pos hk, if_pos hk]
      · rw [if_neg hk, if_neg hk, if_neg fun h => hk (h.trans hp)]
    · rw [List.filter_cons_of_pos (by simpa using hp), lookup_cons_ite, ih, lookup_cons_ite]
      by_cases hk : k = p.1
      · rw [if_pos hk, if_pos hk, if_neg fun h => hp (hk.symm.trans h)]
      · rw [if_neg hk, if_neg hk]

theorem set_ids (m : DrvMgr) (i : DrvId) (d : Driver) :
    (m.setDriver i d).drivers.map Prod.fst = m.drivers.map Prod.fst := by
  rw [DrvMgr.setDriver, List.map_map]
  apply List.map_congr_left
  intro p _
  by_cases hp : p.1 = i
  · simp [hp]
  · simp [hp]

theorem set_fresh (h : ∀ p ∈ m.drivers, p.1 ≤ m.idCount) :
    ∀ p ∈ (m.setDriver i d).drivers, p.1 ≤ m.idCount := by
  intro p hp
  have hid : p.1 ∈ m.drivers.map Prod.fst := by
    rw [← set_ids m i d]
    exact List.mem_map_of_mem hp
  obtain ⟨q, hq, hqp⟩ := List.mem_map.mp hid
  rw [← hqp]
  exact h q hq

theorem useBufs_keeps (bs : List Name) (m : DrvMgr) :
    (bs.foldl (DrvMgr.useBuf i) m).drivers = m.drivers ∧
      (bs.foldl (DrvMgr.useBuf i) m).stmtToDrvMap = m.stmtToDrvMap ∧
      (bs.foldl (DrvMgr.useBuf i) m).idCount = m.idCount := by
  induction bs generalizing m with
  | nil => exact ⟨rfl, rfl, rfl⟩
  | cons b bs ih =>
    rw [List.foldl_cons]
    obtain ⟨h1, h2, h3⟩ := ih (m.useBuf i b)
    rw [h1, h2, h3]
    unfold DrvMgr.useBuf
    split
    · exact ⟨rfl, rfl, rfl⟩
    · exact ⟨rfl, rfl, rfl⟩

theorem record_keeps (m : DrvMgr) (c : Stmt) (i : DrvId) :
    (m.record c i).drivers = m.drivers ∧
      (m.record c i).stmtToDrvMap = m.stmtToDrvMap.insert c.name i ∧
      (m.record c i).idCount = m.idCount := by
  obtain ⟨h1, h2, h3⟩ := useBufs_keeps (c.lookedUp ++ [c.out]) m
  refine ⟨h1, ?_, h3⟩
  rw [DrvMgr.record]
  rw [h2]

theorem Placed.inUse_iff (h : Placed cat m) (n : Name) :
    m.stmtInUse n = true ↔ ∃ s i, m.Where s i ∧ (cat s).name = n := by
  rw [DrvMgr.stmtInUse, Option.isSome_iff_exists]
  constructor
  · rintro ⟨i, hi⟩
    obtain ⟨s, hs, hn⟩ := (h.place n i).mp hi
    exact ⟨s, i, hs, hn⟩
  · rintro ⟨s, i, hs, hn⟩
    exact ⟨i, (h.place n i).mpr ⟨s, hs, hn⟩⟩

theorem Placed.unique (h : Placed cat m) {s t : StmtId} (hs : m.Where s i) (ht : m.Where t j)
    (hn : (cat s).name = (cat t).name) : s = t ∧ i = j := by
  have hi := (h.place _ i).mpr ⟨s, hs, hn⟩
  have hj := (h.place _ j).mpr ⟨t, ht, rfl⟩
  obtain rfl : i = j := Option.some.inj (hi.symm.trans hj)
  obtain ⟨d, hd, hmem⟩ := hs
  obtain ⟨e, he, hmem'⟩ := ht
  obtain rfl : d = e := Option.some.inj (hd.symm.trans he)
  exact ⟨List.inj_on_of_nodup_map (h.names i d hd) hmem hmem' hn, rfl⟩

theorem where_set (h : m.driver i = some d) (hst : d'.stmts = d.stmts) (t : StmtId) (k : DrvId) :
    (m.setDriver i d').Where t k ↔ m.Where t k := by
  rw [DrvMgr.Where, driver_set h]
  by_cases hk : k = i
  · subst hk
    simp [DrvMgr.Where, h, hst]
  · rw [if_neg hk, DrvMgr.Where]

theorem Placed.set (h : Placed cat m) (hd : m.driver i = some d) (hst : d'.stmts = d.stmts) :
    Placed cat (m.setDriver i d') where
  ids := by
    rw [set_ids]
    exact h.ids
  fresh := set_fresh h.fresh
  names k e he := by
    rw [driver_set hd] at he
    by_cases hk : k = i
    · rw [if_pos hk] at he
      rw [← Option.some.inj he, hst]
      exact h.names i d hd
    · rw [if_neg hk] at he
      exact h.names k e he
  place n k := by
    simp only [where_set hd hst]
    exact h.place n k
  busy k e he := by
    rw [driver_set hd] at he
    by_cases hk : k = i
    · rw [if_pos hk] at he
      rw [← Option.some.inj he, hst]
      exact h.busy i d hd
    · rw [if_neg hk] at he
      exact h.busy k e he

theorem mem_eraseName {l : List StmtId} (hnd : (l.map fun x => (cat x).name).Nodup) (n : Name)
    (t : StmtId) :
    t ∈ l.eraseP (fun x => (cat x).name = n) ↔ t ∈ l ∧ (cat t).name ≠ n := by
  induction l with
  | nil => simp
  | cons x l ih =>
    rw [List.map_cons, List.nodup_cons] at hnd
    by_cases hx : (cat x).name = n
    · rw [List.eraseP_cons_of_pos (by simpa using hx), List.mem_cons]
      constructor
      · intro ht
        refine ⟨.inr ht, fun hn => hnd.1 ?_⟩
        rw [hx, ← hn]
        exact List.mem_map_of_mem ht
      · rintro ⟨rfl | ht, hn⟩
        · exact absurd hx hn
        · exact ht
    · rw [List.eraseP_cons_of_neg (by simpa using hx), List.mem_cons, ih hnd.2, List.mem_cons]
      constructor
      · rintro (rfl | ⟨ht, hn⟩)
        · exact ⟨.inl rfl, hx⟩
        · exact ⟨.inr ht, hn⟩
      · rintro ⟨rfl | ht, hn⟩
        · exact .inl rfl
        · exact .inr ⟨ht, hn⟩

theorem Placed.change {o : Option Driver} (h : Placed cat m)
    (hids : (m'.drivers.map Prod.fst).Nodup) (hfresh : ∀ p ∈ m'.drivers, p.1 ≤ m'.idCount)
    (hdrv : ∀ k, m'.driver k = if k = i then o else m.driver k)
    (hnew : ∀ d, o = some d → (d.stmts.map fun s => (cat s).name).Nodup ∧ d.stmts ≠ [])
    (hplace : ∀ n k, m'.stmtToDrvMap.lookup n = some k ↔ ∃ s, m'.Where s k ∧ (cat s).name = n) :
    Placed cat m' where
  ids := hids
  fresh := hfresh
  names k d hd := by
    rw [hdrv] at hd
    by_cases hk : k = i
    · rw [if_pos hk] at hd
      exact (hnew d hd).1
    · rw [if_neg hk] at hd
      exact h.names k d hd
  place := hplace
  busy k d hd := by
    rw [hdrv] at hd
    by_cases hk : k = i
    · rw [if_pos hk] at hd
      exact (hnew d hd).2
    · rw [if_neg hk] at hd
      exact h.busy k d hd

theorem place_erase (h : Placed cat m) {n₀ : Name}
    (hmap : m'.stmtToDrvMap = m.stmtToDrvMap.erase n₀)
    (hw : ∀ t k, m'.Where t k ↔ m.Where t k ∧ (cat t).name ≠ n₀) (n : Name) (k : DrvId) :
    m'.stmtToDrvMap.lookup n = some k ↔ ∃ t, m'.Where t k ∧ (cat t).name = n := by
  rw [hmap]
  by_cases hn : n = n₀
  · subst hn
    rw [AList.lookup_erase]
    constructor
    · intro hno
      cases hno
    · rintro ⟨t, ht, hn⟩
      exact absurd hn ((hw t k).mp ht).2
  · rw [AList.lookup_erase_ne hn, h.place]
    constructor
    · rintro ⟨t, ht, rfl⟩
      exact ⟨t, (hw t k).mpr ⟨ht, hn⟩, rfl⟩
    · rintro ⟨t, ht, rfl⟩
      exact ⟨t, ((hw t k).mp ht).1, rfl⟩

theorem place_insert (h : Placed cat m) (hnew : ¬ m.stmtInUse (cat s).name = true)
    (hmap : m'.stmtToDrvMap = m.stmtToDrvMap.insert (cat s).name i)
    (hw : ∀ t k, m'.Where t k ↔ m.Where t k ∨ (t = s ∧ k = i)) (n : Name) (k : DrvId) :
    m'.stmtToDrvMap.lookup n = some k ↔ ∃ t, m'.Where t k ∧ (cat t).name = n := by
  rw [hmap]
  by_cases hn : n = (cat s).name
  · subst hn
    rw [AList.lookup_insert]
    constructor
    · intro hk
      obtain rfl : i = k := Option.some.inj hk
      exact ⟨s, (hw s i).mpr (.inr ⟨rfl, rfl⟩), rfl⟩
    · rintro ⟨t, ht, hn⟩
      rcases (hw t k).mp ht with ht | ⟨rfl, rfl⟩
      · exact absurd ((h.inUse_iff _).mpr ⟨t, k, ht, hn⟩) hnew
      · rfl
  · rw [AList.lookup_insert_ne hn, h.place]
    constructor
    · rintro ⟨t, ht, rfl⟩
      exact ⟨t, (hw t k).mpr (.inl ht), rfl⟩
    · rintro ⟨t, ht, rfl⟩
      rcases (hw t k).mp ht with ht | ⟨rfl, rfl⟩
      · exact ⟨t, ht, rfl⟩
      · exact absurd rfl hn

end Places

section Steps

variable {m m' : DrvMgr} {i j : DrvId} {d d' : Driver}

theorem where_left {o : Option Driver} {n₀ : Name} (hd : m.driver i = some d)
    (hdrv : ∀ k, m'.driver k = if k = i then o else m.driver k)
    (hothers : ∀ t k, k ≠ i → m.Where t k → (cat t).name ≠ n₀)
    (hleft : ∀ t, (∃ e, o = some e ∧ t ∈ e.stmts) ↔ t ∈ d.stmts ∧ (cat t).name ≠ n₀)
    (t : StmtId) (k : DrvId) : m'.Where t k ↔ m.Where t k ∧ (cat t).name ≠ n₀ := by
  rw [DrvMgr.Where, hdrv, DrvMgr.Where]
  by_cases hk : k = i
  · subst hk
    rw [if_pos rfl, hleft, hd]
    simp
  · rw [if_neg hk]
    exact ⟨fun ht => ⟨ht, hothers t k hk ht⟩, And.left⟩

theorem Placed.dropped (h : Placed cat m) (hdrop : m.dropStmt cat s = .ok m') :
    Placed cat m' ∧ ∀ t k, m'.Where t k ↔ m.Where t k ∧ (cat t).name ≠ (cat s).name := by
  rw [DrvMgr.dropStmt] at hdrop
  cases hl : m.stmtToDrvMap.lookup (cat s).name with
  | none =>
    rw [hl] at hdrop
    obtain rfl : m = m' := Except.ok.inj hdrop
    refine ⟨h, fun t k => ⟨fun ht => ⟨ht, fun hn => ?_⟩, And.left⟩⟩
    rw [(h.place _ k).mpr ⟨t, ht, hn⟩] at hl
    cases hl
  | some i =>
    obtain ⟨s', ⟨d, hd, hs'⟩, hname⟩ := (h.place _ i).mp hl
    simp only [hl, hd] at hdrop
    cases hcall : Esl.dropStmt cat i s ⟨d, m.bufToDrvMap⟩ with
    | error x => cases x <;> simp [hcall] at hdrop
    | ok st =>
      have hst := (dropStmt_leaves cat s i ⟨d, m.bufToDrvMap⟩).1 st hcall
      rw [hcall] at hdrop
      dsimp only at hdrop
      have hmem : ∀ t, t ∈ st.drv.stmts ↔ t ∈ d.stmts ∧ (cat t).name ≠ (cat s).name := by
        intro t
        rw [hst]
        exact mem_eraseName (h.names i d hd) _ t
      -- the one name that goes has been at this driver only
      have hothers : ∀ t k, k ≠ i → m.Where t k → (cat t).name ≠ (cat s).name := by
        intro t k hk ht hn
        exact hk (h.unique ht ⟨d, hd, hs'⟩ (hn.trans hname.symm)).2
      split at hdrop
      · next hnil =>
        have hdrv : ∀ k, m'.driver k = if k = i then none else m.driver k := by
          intro k
          rw [← Except.ok.inj hdrop]
          have hk := lookup_filter (i := i) (m.setDriver i st.drv).drivers k
          have hset : (m.setDriver i st.drv).driver k = if k = i then some st.drv else m.driver k :=
            driver_set hd k
          rw [DrvMgr.driver] at hset
          rw [hset] at hk
          refine hk.trans ?_
          by_cases hki : k = i
          · rw [if_pos hki, if_pos hki]
          · rw [if_neg hki, if_neg hki, if_neg hki]
        have hw := where_left hd hdrv hothers fun t => by
          rw [← hmem t, hnil]
          simp
        refine ⟨h.change ?_ ?_ hdrv (fun _ ho => by cases ho) (place_erase h ?_ hw), hw⟩
        · rw [← Except.ok.inj hdrop]
          have hids := h.ids
          rw [← set_ids m i st.drv] at hids
          exact hids.sublist (List.filter_sublist.map Prod.fst)
        · rw [← Except.ok.inj hdrop]
          intro p hp
          exact set_fresh h.fresh p (List.mem_filter.mp hp).1
        · rw [← Except.ok.inj hdrop]
      · next hbusy =>
        have hdrv : ∀ k, m'.driver k = if k = i then some st.drv else m.driver k := by
          intro k
          rw [← Except.ok.inj hdrop]
          exact driver_set hd k
        have hw := where_left hd hdrv hothers fun t => by
          rw [← hmem t]
          simp
        refine ⟨h.change ?_ ?_ hdrv ?_ (place_erase h ?_ hw), hw⟩
        · rw [← Except.ok.inj hdrop]
          have hids := h.ids
          rw [← set_ids m i st.drv] at hids
          exact hids
        · rw [← Except.ok.inj hdrop]
          exact set_fresh h.fresh
        · intro e he
          rw [← Option.some.inj he]
          refine ⟨?_, hbusy⟩
          rw [hst]
          exact (h.names i d hd).sublist (List.eraseP_sublist.map _)
        · rw [← Except.ok.inj hdrop]

theorem Placed.dropRefused (h : Placed cat m) (hdrop : m.dropStmt cat s = .error (.failure m')) :
    Placed cat m' ∧ ∀ t k, m'.Where t k ↔ m.Where t k := by
  rw [DrvMgr.dropStmt] at hdrop
  cases hl : m.stmtToDrvMap.lookup (cat s).name with
  | none =>
    rw [hl] at hdrop
    cases hdrop
  | some i =>
    obtain ⟨s', ⟨d, hd, hs'⟩, hname⟩ := (h.place _ i).mp hl
    simp only [hl, hd] at hdrop
    cases hcall : Esl.dropStmt cat i s ⟨d, m.bufToDrvMap⟩ with
    | ok st =>
      rw [hcall] at hdrop
      dsimp only at hdrop
      split at hdrop <;> cases hdrop
    | error x =>
      cases x with
      | crash => simp [hcall] at hdrop
      | failure st =>
        have hst := (dropStmt_leaves cat s i ⟨d, m.bufToDrvMap⟩).2 st hcall
        rw [hcall] at hdrop
        obtain rfl : m.after i st = m' := by
          injection Except.error.inj hdrop
        have hp := h.set hd hst
        exact ⟨⟨hp.ids, hp.fresh, hp.names, hp.place, hp.busy⟩, where_set hd hst⟩

theorem where_more {e : Driver}
    (hdrv : ∀ k, m'.driver k = if k = i then some e else m.driver k)
    (hmore : ∀ t, t ∈ e.stmts ↔ m.Where t i ∨ t = s) (t : StmtId) (k : DrvId) :
    m'.Where t k ↔ m.Where t k ∨ (t = s ∧ k = i) := by
  rw [DrvMgr.Where, hdrv, DrvMgr.Where]
  by_cases hk : k = i
  · subst hk
    simp [hmore, DrvMgr.Where]
  · simp [hk]

theorem Placed.next_free (h : Placed cat m) : m.driver (m.idCount + 1) = none := by
  rw [DrvMgr.driver, List.lookup_eq_none_iff]
  intro p hp
  have hle := h.fresh p hp
  rw [bne_iff_ne]
  intro he
  rw [← he] at hle
  exact Nat.not_succ_le_self _ hle

section

variable (h : Placed cat m) (hnew : ¬ m.stmtInUse (cat s).name = true)
include h hnew

theorem Placed.names_added (hd : m.driver i = some d) :
    ((d.stmts ++ [s]).map fun t => (cat t).name).Nodup := by
  rw [List.map_append, List.nodup_append]
  refine ⟨h.names i d hd, List.nodup_singleton _, ?_⟩
  intro a ha b hb hab
  obtain ⟨t, ht, rfl⟩ := List.mem_map.mp ha
  have hn : (cat t).name = (cat s).name := hab.trans (by simpa using hb)
  exact hnew ((h.inUse_iff _).mpr ⟨t, i, ⟨d, hd, ht⟩, hn⟩)

theorem Placed.addedNew {d' : Driver} (hst : d'.stmts = [s]) (hm : DrvMgr.record
      { m with drivers := m.drivers ++ [(m.idCount + 1, d')], idCount := m.idCount + 1 } (cat s)
      (m.idCount + 1) = m') :
    Placed cat m' ∧ ∀ t k, m'.Where t k ↔ m.Where t k ∨ (t = s ∧ k = m.idCount + 1) := by
  have hdrv : ∀ k, m'.driver k = if k = m.idCount + 1 then some d' else m.driver k := by
    intro k
    rw [← hm, DrvMgr.driver, (record_keeps _ _ _).1]
    rw [List.lookup_append, lookup_cons_ite]
    by_cases hk : k = m.idCount + 1
    · subst hk
      rw [if_pos rfl, if_pos rfl, show m.drivers.lookup _ = none from h.next_free]
      rfl
    · rw [if_neg hk, if_neg hk, List.lookup_nil, Option.or_none]
      rfl
  have hw := where_more (s := s) hdrv fun t => by
    simp [DrvMgr.Where, h.next_free, hst]
  refine ⟨h.change ?_ ?_ hdrv ?_ (place_insert h hnew ?_ hw), hw⟩
  · rw [← hm, (record_keeps _ _ _).1, List.map_append, List.nodup_append]
    refine ⟨h.ids, List.nodup_singleton _, ?_⟩
    intro a ha b hb hab
    obtain ⟨p, hp, rfl⟩ := List.mem_map.mp ha
    have hle := h.fresh p hp
    have hbid : b = m.idCount + 1 := by simpa using hb
    rw [hab.trans hbid] at hle
    exact Nat.not_succ_le_self _ hle
  · rw [← hm, (record_keeps _ _ _).1, (record_keeps _ _ _).2.2]
    intro p hp
    rcases List.mem_append.mp hp with hp | hp
    · exact Nat.le_succ_of_le (h.fresh p hp)
    · rw [List.mem_singleton.mp hp]
  · intro e he
    rw [← Option.some.inj he, hst]
    simp
  · rw [← hm, (record_keeps _ _ _).2.1]

theorem Placed.addedTo (hd : m.driver i = some d) {d' : Driver} (hst : d'.stmts = d.stmts ++ [s])
    (hm : DrvMgr.record (m.setDriver i d') (cat s) i = m') :
    Placed cat m' ∧ ∀ t k, m'.Where t k ↔ m.Where t k ∨ (t = s ∧ k = i) := by
  have hdrv : ∀ k, m'.driver k = if k = i then some d' else m.driver k := by
    intro k
    rw [← hm, DrvMgr.driver, (record_keeps _ _ _).1]
    exact driver_set hd k
  have hw := where_more (s := s) hdrv fun t => by
    simp [DrvMgr.Where, hd, hst]
  refine ⟨h.change ?_ ?_ hdrv ?_ (place_insert h hnew ?_ hw), hw⟩
  · rw [← hm, (record_keeps _ _ _).1, set_ids]
    exact h.ids
  · rw [← hm, (record_keeps _ _ _).1, (record_keeps _ _ _).2.2]
    exact set_fresh h.fresh
  · intro e he
    rw [← Option.some.inj he, hst]
    exact ⟨h.names_added hnew hd, by simp⟩
  · rw [← hm, (record_keeps _ _ _).2.1]
    rfl

theorem Placed.added {drv r : Option DrvId} (hadd : m.addStmt cat s drv = .ok (m', r)) :
    ∃ j, r = some j ∧ Placed cat m' ∧ ∀ t k, m'.Where t k ↔ m.Where t k ∨ (t = s ∧ k = j) := by
  rw [DrvMgr.addStmt, if_neg hnew] at hadd
  cases hc : m.choose (cat s) drv with
  | none => simp [hc] at hadd
  | some q =>
    cases q with
    | none =>
      rw [hc] at hadd
      cases hcall : Esl.addStmt cat s Driver.new with
      | error x => cases x <;> simp [hcall] at hadd
      | ok d' =>
        rw [hcall] at hadd
        obtain ⟨hm, hr⟩ := Prod.mk.inj (Except.ok.inj hadd)
        exact ⟨_, hr.symm, h.addedNew hnew ((addStmt_leaves cat s Driver.new).1 d' hcall) hm⟩
    | some j =>
      rw [hc] at hadd
      dsimp only at hadd
      cases hd : m.driver j with
      | none => simp [hd] at hadd
      | some d =>
        rw [hd] at hadd
        dsimp only at hadd
        cases hcall : Esl.addStmt cat s d with
        | error x => cases x <;> simp [hcall] at hadd
        | ok d' =>
          rw [hcall] at hadd
          obtain ⟨hm, hr⟩ := Prod.mk.inj (Except.ok.inj hadd)
          exact ⟨_, hr.symm, h.addedTo hnew hd ((addStmt_leaves cat s d).1 d' hcall) hm⟩

end

theorem Placed.addRefused (h : Placed cat m) {drv : Option DrvId}
    (hadd : m.addStmt cat s drv = .error (.failure m')) :
    Placed cat m' ∧ ∀ t k, m'.Where t k ↔ m.Where t k := by
  rw [DrvMgr.addStmt] at hadd
  split at hadd
  · cases hadd
  · cases hc : m.choose (cat s) drv with
    | none =>
      rw [hc] at hadd
      obtain rfl : m = m' := by injection Except.error.inj hadd
      exact ⟨h, fun _ _ => Iff.rfl⟩
    | some q =>
      cases q with
      | none =>
        rw [hc] at hadd
        cases hcall : Esl.addStmt cat s Driver.new with
        | ok d' => simp [hcall] at hadd
        | error x =>
          cases x with
          | crash => simp [hcall] at hadd
          | failure d' =>
            rw [hcall] at hadd
            obtain rfl : { m with idCount := m.idCount + 1 } = m' := by
              injection Except.error.inj hadd
            exact ⟨⟨h.ids, fun p hp => Nat.le_succ_of_le (h.fresh p hp), h.names, h.place, h.busy⟩,
              fun _ _ => Iff.rfl⟩
      | some j =>
        rw [hc] at hadd
        dsimp only at hadd
        cases hd : m.driver j with
        | none => simp [hd] at hadd
        | some d =>
          rw [hd] at hadd
          dsimp only at hadd
          cases hcall : Esl.addStmt cat s d with
          | ok d' => simp [hcall] at hadd
          | error x =>
            cases x with
            | crash => simp [hcall] at hadd
            | failure d' =>
              rw [hcall] at hadd
              have hst := (addStmt_leaves cat s d).2 d' hcall
              obtain rfl : m.setDriver j d' = m' := by injection Except.error.inj hadd
              exact ⟨h.set hd hst, where_set hd hst⟩

end Steps

section Runs

variable {m m' : DrvMgr}

inductive SchedRun (cat : Catalog) : DrvMgr → Prop
  | new : SchedRun cat DrvMgr.new
  | add {m m' : DrvMgr} (s : StmtId) (drv : Option DrvId) {r : Option DrvId} (run : SchedRun cat m)
      (step : m.addStmt cat s drv = .ok (m', r)) : SchedRun cat m'
  | addRefused {m m' : DrvMgr} {s : StmtId} {drv : Option DrvId} (run : SchedRun cat m)
      (step : m.addStmt cat s drv = .error (.failure m')) : SchedRun cat m'
  | drop {m m' : DrvMgr} {s : StmtId} (run : SchedRun cat m)
      (step : m.dropStmt cat s = .ok m') : SchedRun cat m'
  | dropRefused {m m' : DrvMgr} {s : StmtId} (run : SchedRun cat m)
      (step : m.dropStmt cat s = .error (.failure m')) : SchedRun cat m'

theorem Placed.new : Placed cat DrvMgr.new where
  ids := List.nodup_nil
  fresh p hp := by cases hp
  names i d hd := by cases hd
  place n i := by simp [DrvMgr.new, DrvMgr.Where, DrvMgr.driver]
  busy i d hd := by cases hd

theorem SchedRun.placed (run : SchedRun cat m) : Placed cat m := by
  induction run with
  | new => exact .new
  | @add m m' s drv r run step ih =>
    by_cases hnew : m.stmtInUse (cat s).name = true
    · rw [DrvMgr.addStmt, if_pos hnew] at step
      rw [← (Prod.mk.inj (Except.ok.inj step)).1]
      exact ih
    · obtain ⟨j, -, hp, -⟩ := ih.added hnew step
      exact hp
  | addRefused run step ih => exact (ih.addRefused step).1
  | drop run step ih => exact (ih.dropped step).1
  | dropRefused run step ih => exact (ih.dropRefused step).1

theorem addStmt_calls (hnew : ¬ m.stmtInUse (cat s).name = true) {drv r : Option DrvId}
    (hadd : m.addStmt cat s drv = .ok (m', r)) : ∃ d d', Esl.addStmt cat s d = .ok d' := by
  rw [DrvMgr.addStmt, if_neg hnew] at hadd
  split at hadd
  · cases hadd
  · split at hadd
    · next hcall => exact ⟨_, _, hcall⟩
    · cases hadd
    · cases hadd
  · split at hadd
    · cases hadd
    · split at hadd
      · next hcall => exact ⟨_, _, hcall⟩
      · cases hadd
      · cases hadd

theorem SchedRun.ready (run : SchedRun cat m) (t : StmtId) (k : DrvId) (ht : m.Where t k) :
    (cat t).valid = true ∧ ∃ bs, (cat t).inBufs = some bs := by
  induction run with
  | new =>
    obtain ⟨d, hd, -⟩ := ht
    cases hd
  | @add m m' s drv r run step ih =>
    by_cases hnew : m.stmtInUse (cat s).name = true
    · rw [DrvMgr.addStmt, if_pos hnew] at step
      rw [← (Prod.mk.inj (Except.ok.inj step)).1] at ht
      exact ih ht
    · obtain ⟨j, -, -, hw⟩ := run.placed.added hnew step
      rcases (hw t k).mp ht with ht | ⟨rfl, -⟩
      · exact ih ht
      · obtain ⟨d, d', hcall⟩ := addStmt_calls hnew step
        exact ⟨addStmt_valid hcall, addStmt_inBufs hcall⟩
  | addRefused run step ih => exact ih (((run.placed.addRefused step).2 t k).mp ht)
  | drop run step ih => exact ih (((run.placed.dropped step).2 t k).mp ht).1
  | dropRefused run step ih => exact ih (((run.placed.dropRefused step).2 t k).mp ht)

theorem MgrRun.sched {mayAdd mayDrop : List StmtId → StmtId → Prop}
    (run : MgrRun cat mayAdd mayDrop m) : SchedRun cat m := by
  induction run with
  | new => exact .new
  | add s drv run may step ih => exact ih.add s drv step
  | drop run may step ih => exact ih.drop step

end Runs

end StreamMill.Esl
