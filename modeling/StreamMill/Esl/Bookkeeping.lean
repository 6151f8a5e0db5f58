import StreamMill.Esl.DrvMgr
import StreamMill.Esl.GraphRun

/-!
# StreamMill.Esl.Bookkeeping

The containers of the driver manager and of its driver say the same (`Kept`): a buffer is in the
manager's map, in the driver's table and once in the driver's list, or in none of them, and the
manager knows the names of the driver's statements. `Single.add` and `Single.drop` are the steps;
there is never more than one driver. A join breaks it (`joinWindow_notInUse`).
-/

namespace StreamMill.Esl

variable {cat : Catalog} {m m' : DrvMgr} {G : Graph} {d : Driver} {i : DrvId} {s : StmtId}

/-- The buffer is a key of a driver's table, and no dummy. -/
def DrvMgr.TableHas (m : DrvMgr) (b : Name) : Prop :=
  ∃ p ∈ m.drivers, ∃ e, p.2.bufStateTable.lookup b = some e ∧ e.bType ≠ .forkDummy

def DrvMgr.bufs (m : DrvMgr) : List Name := m.drivers.flatMap fun p => p.2.bufs

def DrvMgr.stmts (m : DrvMgr) : List StmtId := m.drivers.flatMap fun p => p.2.stmts

structure Booked (cat : Catalog) (m : DrvMgr) : Prop where
  single : m.drivers.length ≤ 1
  inUse : ∀ b, m.bufferInUse b = true ↔ m.TableHas b
  once : ∀ b, m.TableHas b ↔ m.bufs.count b = 1
  stmts : ∀ n, m.stmtInUse n = true ↔ ∃ s ∈ m.stmts, (cat s).name = n

/-- A manager with one driver, whose table is that of the graph. -/
structure Single (cat : Catalog) (m : DrvMgr) (i : DrvId) (d : Driver) (G : Graph) : Prop where
  drivers : m.drivers = [(i, d)]
  busy : d.stmts ≠ []
  canon : Canon cat d.bufStateTable G
  members : Members cat d.stmts G
  names : Names cat d.stmts
  nameInj : ∀ p ∈ d.stmts, ∀ q ∈ d.stmts, (cat p).name = (cat q).name → p = q
  bufsNodup : d.bufs.Nodup
  bufs : ∀ b, b ∈ d.bufs ↔ G.Known b
  mapNodup : m.bufToDrvMap.Nodup
  mapMine : ∀ e ∈ m.bufToDrvMap, e.2 = i
  map : ∀ b, (b, i) ∈ m.bufToDrvMap ↔ G.Known b
  stmtMine : ∀ n j, m.stmtToDrvMap.lookup n = some j → j = i
  stmtMap : ∀ n, m.stmtInUse n = true ↔ ∃ s ∈ d.stmts, (cat s).name = n

structure Idle (m : DrvMgr) : Prop where
  drivers : m.drivers = []
  map : m.bufToDrvMap = []
  stmtMap : ∀ n, m.stmtToDrvMap.lookup n = none

def Kept (cat : Catalog) (m : DrvMgr) : Prop := Idle m ∨ ∃ i d G, Single cat m i d G

theorem bufferInUse_iff {b : Name} :
    m.bufferInUse b = true ↔ ∃ j, (b, j) ∈ m.bufToDrvMap := by
  rw [DrvMgr.bufferInUse, List.any_eq_true]
  constructor
  · rintro ⟨⟨c, j⟩, hmem, hc⟩
    obtain rfl : c = b := by simpa using hc
    exact ⟨j, hmem⟩
  · rintro ⟨j, hmem⟩
    exact ⟨(b, j), hmem, by simp⟩

theorem Canon.table_iff (h : Canon cat d.bufStateTable G) (b : Name) :
    (∃ e, d.bufStateTable.lookup b = some e ∧ e.bType ≠ .forkDummy) ↔ G.Known b := by
  constructor
  · rintro ⟨e, he, hty⟩
    rcases h.only b e he with hk | ⟨b', hf, c, hc, rfl⟩
    · exact hk
    · rw [h.dummies b' hf c hc, Option.some.injEq] at he
      subst he
      exact absurd rfl hty
  · intro hk
    exact ⟨_, h.buffers b hk, bufferTyOf_ne_dummy _ _⟩

theorem Single.tableHas_iff (h : Single cat m i d G) (b : Name) : m.TableHas b ↔ G.Known b := by
  rw [← h.canon.table_iff, DrvMgr.TableHas, h.drivers]
  simp

theorem Single.inUse_iff (h : Single cat m i d G) (b : Name) :
    m.bufferInUse b = true ↔ G.Known b := by
  rw [bufferInUse_iff, ← h.map]
  constructor
  · rintro ⟨j, hj⟩
    obtain rfl : j = i := h.mapMine _ hj
    exact hj
  · exact fun hb => ⟨i, hb⟩

theorem Kept.booked (h : Kept cat m) : Booked cat m := by
  rcases h with h | ⟨i, d, G, h⟩
  · constructor
    · simp [h.drivers]
    · simp [DrvMgr.bufferInUse, DrvMgr.TableHas, h.map, h.drivers]
    · simp [DrvMgr.TableHas, DrvMgr.bufs, h.drivers]
    · simp [DrvMgr.stmtInUse, DrvMgr.stmts, h.stmtMap, h.drivers]
  · have hbufs : m.bufs = d.bufs := by simp [DrvMgr.bufs, h.drivers]
    constructor
    · simp [h.drivers]
    · intro b
      rw [h.inUse_iff, h.tableHas_iff]
    · intro b
      rw [h.tableHas_iff, ← h.bufs, hbufs]
      constructor
      · exact List.count_eq_one_of_mem h.bufsNodup
      · intro hc
        exact List.count_pos_iff.mp (by omega)
    · intro n
      rw [h.stmtMap]
      simp [DrvMgr.stmts, h.drivers]

theorem useBufs (bs : List Name) (hmine : ∀ e ∈ m.bufToDrvMap, e.2 = i)
    (hnd : m.bufToDrvMap.Nodup) :
    (∀ e ∈ (bs.foldl (DrvMgr.useBuf i) m).bufToDrvMap, e.2 = i) ∧
      (bs.foldl (DrvMgr.useBuf i) m).bufToDrvMap.Nodup ∧
      (∀ b, (b, i) ∈ (bs.foldl (DrvMgr.useBuf i) m).bufToDrvMap ↔
        (b, i) ∈ m.bufToDrvMap ∨ b ∈ bs) ∧
      (bs.foldl (DrvMgr.useBuf i) m).drivers = m.drivers ∧
      (bs.foldl (DrvMgr.useBuf i) m).stmtToDrvMap = m.stmtToDrvMap := by
  induction bs generalizing m with
  | nil => exact ⟨hmine, hnd, fun b => by simp, rfl, rfl⟩
  | cons c bs ih =>
    rw [List.foldl_cons]
    by_cases hc : m.bufferInUse c = true
    · have hmem : (c, i) ∈ m.bufToDrvMap := by
        obtain ⟨j, hj⟩ := bufferInUse_iff.mp hc
        obtain rfl : j = i := hmine _ hj
        exact hj
      obtain ⟨h1, h2, h3, h4, h5⟩ := ih hmine hnd
      rw [DrvMgr.useBuf, if_pos hc]
      refine ⟨h1, h2, fun b => ?_, h4, h5⟩
      rw [h3, List.mem_cons]
      constructor
      · rintro (hb | hb)
        · exact .inl hb
        · exact .inr (.inr hb)
      · rintro (hb | rfl | hb)
        · exact .inl hb
        · exact .inl hmem
        · exact .inr hb
    · rw [DrvMgr.useBuf, if_neg hc]
      have hnot : (c, i) ∉ m.bufToDrvMap := fun hmem => hc (bufferInUse_iff.mpr ⟨i, hmem⟩)
      obtain ⟨h1, h2, h3, h4, h5⟩ := ih
        (m := { m with bufToDrvMap := m.bufToDrvMap ++ [(c, i)] })
        (fun e he => by
          rcases List.mem_append.mp he with he | he
          · exact hmine e he
          · rw [List.mem_singleton.mp he])
        (hnd.append (List.nodup_singleton _) (by simpa using hnot))
      refine ⟨h1, h2, fun b => ?_, h4, h5⟩
      rw [h3]
      simp [or_assoc]

theorem record_spec {c : Stmt} (hmine : ∀ e ∈ m.bufToDrvMap, e.2 = i)
    (hnd : m.bufToDrvMap.Nodup) :
    (∀ e ∈ (m.record c i).bufToDrvMap, e.2 = i) ∧ (m.record c i).bufToDrvMap.Nodup ∧
      (∀ b, (b, i) ∈ (m.record c i).bufToDrvMap ↔
        (b, i) ∈ m.bufToDrvMap ∨ b ∈ c.lookedUp ∨ b = c.out) ∧
      (m.record c i).drivers = m.drivers ∧
      (m.record c i).stmtToDrvMap = m.stmtToDrvMap.insert c.name i := by
  obtain ⟨h1, h2, h3, h4, h5⟩ := useBufs (c.lookedUp ++ [c.out]) hmine hnd
  refine ⟨h1, h2, fun b => ?_, h4, ?_⟩
  · rw [DrvMgr.record]
    rw [h3]
    simp
  · rw [DrvMgr.record]
    rw [h5]

theorem chooseInput_some {b : Name} {drv r : Option DrvId} (h : m.chooseInput b drv = some r) :
    r ≠ none := by
  have hin : ∀ j, (if m.inDrv drv b = true then drv else some j) ≠ none := by
    cases drv with
    | none => simp [DrvMgr.inDrv]
    | some k => split <;> simp
  rw [DrvMgr.chooseInput] at h
  split at h
  · split at h
    · split at h
      · cases h
      · cases h
        exact hin _
    · split at h
      · split at h
        · cases h
        · cases h
          exact hin _
      · cases h
  · cases drv with
    | none =>
      cases h
      simp
    | some k =>
      simp only at h
      split at h
      · split at h
        · cases h
          simp
        · split at h
          · cases h
            simp
          · split at h
            · cases h
              simp
            · cases h
      · cases h
        simp
  · cases h

theorem chooseInputs_some {out b : Name} {bs : List Name} {drv r : Option DrvId}
    (h : m.chooseInputs out (b :: bs) drv = some r) : r ≠ none := by
  induction bs generalizing b drv with
  | nil =>
    rw [DrvMgr.chooseInputs] at h
    cases hc : m.chooseInput b drv with
    | none => simp [hc] at h
    | some q =>
      simp only [hc, DrvMgr.chooseInputs] at h
      split at h
      · cases h
        exact chooseInput_some hc
      · cases h
  | cons c bs ih =>
    rw [DrvMgr.chooseInputs] at h
    cases hc : m.chooseInput b drv with
    | none => simp [hc] at h
    | some q =>
      simp only [hc] at h
      split at h
      · exact ih h
      · cases h

theorem choose_none {c : Stmt} {drv : Option DrvId} (h : m.choose c drv = some none) :
    drv = none ∧ m.drivers = [] := by
  rw [DrvMgr.choose] at h
  split at h
  · rw [DrvMgr.chooseOut] at h
    split at h
    · rw [Option.some.injEq, Option.or_eq_none_iff, Option.map_eq_none_iff,
        List.getLast?_eq_none_iff] at h
      exact h
    · split at h
      · cases h
      · split at h
        · cases h
        · cases drv <;> cases h
    · cases h
  · exact absurd rfl (chooseInputs_some h)

/-- The buffers are not mistaken for others or for dummies, a first statement does not read its own
output and is no join, and the windows of a join are buffers of the statements present. -/
structure FitsAdd (cat : Catalog) (P : List StmtId) (s : StmtId) : Prop where
  names : Names cat (P ++ [s])
  first : P = [] → (cat s).out ∉ (cat s).inputs
  join : (cat s).type = .join → P ≠ [] ∧ ∀ w ∈ (cat s).windowBufs, IsBuf cat P w

theorem addFirst_bufs {d' : Driver} {bs : List Name} (hbs : (cat s).inBufs = some bs)
    (hty : (cat s).type ≠ .join) (h : addFirst cat s d = .ok d') :
    d'.bufs = d.bufs ++ bs ++ [(cat s).out] := by
  rw [addFirst] at h
  cases hc : (cat s).type with
  | normal =>
    simp only [hc, Except.ok.injEq] at h
    rw [inBufs_normal hc hbs, ← h]
    simp [Driver.pushStmt, Driver.pushBuf, Driver.set]
  | join => exact absurd hc hty
  | tUnion =>
    simp only [hc, Except.ok.injEq, addSources_eq] at h
    have hb : bs = (cat s).unionBufs := by
      rw [Stmt.inBufs, hc] at hbs
      exact (Option.some.inj hbs).symm
    rw [← h, hb]
    rfl
  | tlUnion =>
    simp only [hc, Except.ok.injEq, addSources_eq] at h
    have hb : bs = (cat s).unionBufs := by
      rw [Stmt.inBufs, hc] at hbs
      exact (Option.some.inj hbs).symm
    rw [← h, hb]
    rfl
  | coll => simp [Stmt.inBufs, hc] at hbs

theorem known_add {bs : List Name} (b : Name) :
    (G.add cat s bs).Known b ↔ G.Known b ∨ b ∈ bs ∨ b = (cat s).out := by
  rw [Graph.add, known_produce, known_readAll, or_assoc]

theorem mem_inputs_iff (hty : ∃ bs, (cat s).inBufs = some bs) (b : Name) :
    b ∈ (cat s).inputs ↔
      b ∈ (cat s).lookedUp ∨ ((cat s).type = .join ∧ b ∈ (cat s).windowBufs) := by
  obtain ⟨bs, hbs⟩ := hty
  rw [Stmt.inputs, Stmt.lookedUp, Stmt.inBufs]
  cases hc : (cat s).type with
  | normal => simp
  | join => simp [or_comm]
  | tUnion => simp
  | tlUnion => simp
  | coll => simp [Stmt.inBufs, hc] at hbs

theorem Single.ofAdd {m₀ : DrvMgr} {P : List StmtId} {d' : Driver} {bs : List Name}
    (hdrv : m₀.drivers = [(i, d')]) (hmine : ∀ e ∈ m₀.bufToDrvMap, e.2 = i)
    (hnd : m₀.bufToDrvMap.Nodup) (hmap : ∀ b, (b, i) ∈ m₀.bufToDrvMap ↔ G.Known b)
    (hstmts : ∀ n j, m₀.stmtToDrvMap.lookup n = some j → j = i)
    (hstmtMap : ∀ n, m₀.stmtInUse n = true ↔ ∃ p ∈ P, (cat p).name = n)
    (hinj : ∀ p ∈ P, ∀ q ∈ P, (cat p).name = (cat q).name → p = q)
    (hfresh : ¬ m₀.stmtInUse (cat s).name = true) (hm : Members cat P G)
    (hf : FitsAdd cat P s) (hbs : ∃ bs, (cat s).inBufs = some bs)
    (hperm : bs.Perm (cat s).inputs) (hst : d'.stmts = P ++ [s])
    (hcan : Canon cat d'.bufStateTable (G.add cat s bs)) (hbn : d'.bufs.Nodup)
    (hbufs : ∀ b, b ∈ d'.bufs ↔ (G.add cat s bs).Known b) :
    Single cat (m₀.record (cat s) i) i d' (G.add cat s bs) := by
  obtain ⟨h1, h2, h3, h4, h5⟩ := record_spec hmine hnd
  have hnew : ∀ p ∈ P, (cat p).name ≠ (cat s).name :=
    fun p hp he => hfresh ((hstmtMap _).mpr ⟨p, hp, he⟩)
  have hs : s ∉ P := fun hs => hnew s hs rfl
  constructor
  · rw [h4, hdrv]
  · rw [hst]
    simp
  · exact hcan
  · rw [hst]
    exact hm.add hf.names hs hperm
  · rw [hst]
    exact hf.names
  · rw [hst]
    intro p hp q hq he
    rcases List.mem_append.mp hp with hp | hp <;> rcases List.mem_append.mp hq with hq | hq
    · exact hinj p hp q hq he
    · rw [List.mem_singleton.mp hq] at he
      exact absurd he (hnew p hp)
    · rw [List.mem_singleton.mp hp] at he
      exact absurd he.symm (hnew q hq)
    · rw [List.mem_singleton.mp hp, List.mem_singleton.mp hq]
  · exact hbn
  · exact hbufs
  · exact h2
  · exact h1
  · intro b
    rw [h3, hmap, known_add, hperm.mem_iff, mem_inputs_iff hbs]
    constructor
    · rintro (hk | hl | ho)
      · exact .inl hk
      · exact .inr (.inl (.inl hl))
      · exact .inr (.inr ho)
    · rintro (hk | (hl | ⟨hty, hw⟩) | ho)
      · exact .inl hk
      · exact .inr (.inl hl)
      · exact .inl ((hm.known_iff b).mpr ((hf.join hty).2 b hw))
      · exact .inr (.inr ho)
  · intro n j hj
    rw [h5] at hj
    by_cases hn : n = (cat s).name
    · subst hn
      rw [AList.lookup_insert] at hj
      exact (Option.some.inj hj).symm
    · rw [AList.lookup_insert_ne hn] at hj
      exact hstmts n j hj
  · intro n
    rw [DrvMgr.stmtInUse, h5, hst]
    by_cases hn : n = (cat s).name
    · subst hn
      simp
    · rw [AList.lookup_insert_ne hn]
      have hold := hstmtMap n
      rw [DrvMgr.stmtInUse] at hold
      rw [hold]
      constructor
      · rintro ⟨p, hp, he⟩
        exact ⟨p, List.mem_append_left _ hp, he⟩
      · rintro ⟨p, hp, he⟩
        rcases List.mem_append.mp hp with hp | hp
        · exact ⟨p, hp, he⟩
        · rw [List.mem_singleton.mp hp] at he
          exact absurd he.symm hn

theorem Idle.add (h : Idle m) {drv r : Option DrvId} (hf : FitsAdd cat m.stmts s)
    (hadd : m.addStmt cat s drv = .ok (m', r)) : Kept cat m' := by
  have hP : m.stmts = [] := by simp [DrvMgr.stmts, h.drivers]
  rw [hP] at hf
  have hfresh : ¬ m.stmtInUse (cat s).name = true := by simp [DrvMgr.stmtInUse, h.stmtMap]
  have hchoose : m.choose (cat s) drv = some drv := by
    have hnone : (cat s).lookedUp.filter m.bufferInUse = [] := by
      simp [DrvMgr.bufferInUse, h.map]
    rw [DrvMgr.choose, hnone]
    simp [DrvMgr.chooseOut, DrvMgr.driversOf, h.map, h.drivers]
  rw [DrvMgr.addStmt, if_neg hfresh, hchoose] at hadd
  cases drv with
  | some j => simp [DrvMgr.driver, h.drivers] at hadd
  | none =>
    cases hd : Esl.addStmt cat s Driver.new with
    | error x =>
      cases x <;> simp [hd] at hadd
    | ok d' =>
      simp only [hd, Except.ok.injEq, Prod.mk.injEq] at hadd
      obtain ⟨rfl, -⟩ := hadd
      obtain ⟨bs, hbs⟩ := addStmt_inBufs hd
      have hin := Stmt.inputs_of hbs
      have hsW : s ∈ [] ++ [s] := by simp
      have hnj : (cat s).type ≠ .join := fun hty => (hf.join hty).1 rfl
      have hcall : addFirst cat s Driver.new = .ok d' := by
        have hv := addStmt_valid hd
        simpa [Esl.addStmt, hv, Driver.new] using hd
      have hout : (cat s).out ∉ bs := by
        rw [← hin]
        exact hf.first rfl
      obtain ⟨d₁, hok, hst, hcan⟩ := addFirst_spec (d := Driver.new) .empty hf.names hsW hbs hout
      rw [hcall, Except.ok.injEq] at hok
      subst hok
      have hbufs := addFirst_bufs hbs hnj hcall
      have hperm : (cat s).firstBufs.Perm (cat s).inputs := firstBufs_perm
      have hmem : ∀ b, b ∈ d'.bufs ↔ b ∈ bs ∨ b = (cat s).out := by
        rw [hbufs]
        simp [Driver.new]
      refine .inr ⟨_, d', _, Single.ofAdd ?_ ?_ ?_ ?_ ?_ ?_ ?_ hfresh
        .empty hf ⟨bs, hbs⟩ hperm hst hcan ?_ ?_⟩
      · simp [h.drivers]
      · simp [h.map]
      · simp [h.map]
      · simp [h.map, Graph.Known, Graph.empty]
      · simp [h.stmtMap]
      · simp [DrvMgr.stmtInUse, h.stmtMap]
      · simp
      · rw [hbufs]
        have hnd : bs.Nodup := hin ▸ hf.names.inputsNodup s hsW
        simpa [Driver.new, List.nodup_append] using ⟨hnd, fun b hb he => hout (he ▸ hb)⟩
      · intro b
        rw [hmem, known_add, hperm.mem_iff, hin]
        simp [Graph.Known, Graph.empty]

theorem Single.added (h : Single cat m i d G) {d' : Driver} (hf : FitsAdd cat d.stmts s)
    (hfresh : ¬ m.stmtInUse (cat s).name = true) (hcall : Esl.addStmt cat s d = .ok d') :
    ∃ bs, Single cat ((m.setDriver i d').record (cat s) i) i d' (G.add cat s bs) := by
  obtain ⟨bs, hbs⟩ := addStmt_inBufs hcall
  have hin := Stmt.inputs_of hbs
  have hperm : bs.Perm (cat s).inputs := by rw [hin]
  have hsW : s ∈ d.stmts ++ [s] := by simp
  have hs : s ∉ d.stmts := fun hs => hfresh ((h.stmtMap _).mpr ⟨s, hs, rfl⟩)
  have hw : Within cat (d.stmts ++ [s]) G := h.members.within fun p hp => by simp [hp]
  rcases addStmt_spec h.canon hf.names hw hsW hbs (addStmt_valid hcall) h.busy
    (h.members.unread hs) h.members.made with
    ⟨_, _, d₁, hok, hadded⟩ | ⟨_, _, _, _, _, _, herr⟩
  swap
  · rw [herr] at hcall
    cases hcall
  rw [hok, Except.ok.injEq] at hcall
  subst hcall
  have hmem : ∀ b, b ∈ d₁.bufs ↔ (G.add cat s bs).Known b := by
    intro b
    rw [hadded.bufs, known_add]
    simp only [List.mem_append, List.mem_filter, decide_eq_true_eq, known_readAll,
      List.mem_singleton, h.bufs]
    by_cases hk : G.Known b
    · simp [hk]
    · by_cases hb : b ∈ bs
      · simp [hk, hb]
      · simp [hk, hb]
  refine ⟨bs, Single.ofAdd ?_ h.mapMine h.mapNodup h.map h.stmtMine h.stmtMap
    h.nameInj hfresh h.members hf ⟨bs, hbs⟩ hperm hadded.stmts hadded.canon ?_ hmem⟩
  · simp [DrvMgr.setDriver, h.drivers]
  · have hnd : bs.Nodup := hin ▸ hf.names.inputsNodup s hsW
    rw [hadded.bufs, List.append_assoc, List.nodup_append]
    refine ⟨h.bufsNodup, ?_, ?_⟩
    · refine (hnd.filter _).append ((List.nodup_singleton _).filter _) ?_
      intro b hb hb'
      rw [List.mem_filter] at hb hb'
      have hk : ¬ (G.readAll cat s bs).Known b := by simpa using hb'.2
      exact hk (known_readAll.mpr (.inr hb.1))
    · rintro b hb c hc rfl
      have hk := (h.bufs b).mp hb
      rcases List.mem_append.mp hc with hc | hc
      · exact (by simpa using (List.mem_filter.mp hc).2 : ¬ G.Known b) hk
      · have hnk : ¬ (G.readAll cat s bs).Known b := by simpa using (List.mem_filter.mp hc).2
        exact hnk (known_readAll.mpr (.inl hk))

theorem Single.add (h : Single cat m i d G) {drv r : Option DrvId} (hf : FitsAdd cat m.stmts s)
    (hadd : m.addStmt cat s drv = .ok (m', r)) : Kept cat m' := by
  have hP : m.stmts = d.stmts := by simp [DrvMgr.stmts, h.drivers]
  rw [hP] at hf
  rw [DrvMgr.addStmt] at hadd
  split at hadd
  · obtain ⟨rfl, -⟩ := hadd
    exact .inr ⟨i, d, G, h⟩
  · next hfresh =>
    cases hc : m.choose (cat s) drv with
    | none => simp [hc] at hadd
    | some q =>
      cases q with
      | none =>
        have hnil := (choose_none hc).2
        rw [h.drivers] at hnil
        cases hnil
      | some j =>
        simp only [hc] at hadd
        cases hd : m.driver j with
        | none => simp [hd] at hadd
        | some d₀ =>
          obtain ⟨rfl, rfl⟩ : j = i ∧ d₀ = d := by
            rw [DrvMgr.driver, h.drivers, List.lookup_cons] at hd
            cases hji : j == i with
            | false =>
              rw [hji] at hd
              cases hd
            | true =>
              rw [hji] at hd
              exact ⟨by simpa using hji, (Option.some.inj hd).symm⟩
          simp only [hd] at hadd
          cases hcall : Esl.addStmt cat s d₀ with
          | error x => cases x <;> simp [hcall] at hadd
          | ok d' =>
            simp only [hcall, Except.ok.injEq, Prod.mk.injEq] at hadd
            obtain ⟨rfl, -⟩ := hadd
            obtain ⟨bs, hs⟩ := h.added hf hfresh hcall
            exact .inr ⟨_, _, _, hs⟩

/-- The statement is the one that is present under its name. -/
def FitsDrop (cat : Catalog) (P : List StmtId) (s : StmtId) : Prop :=
  ∀ p ∈ P, (cat p).name = (cat s).name → p = s

theorem known_drop {bs : List Name} {b : Name} (h : (G.drop cat s bs).Known b) : G.Known b :=
  known_of_unreadAll (known_of_unproduce h)

theorem erase_names {P : List StmtId} {t : AList fun _ : Name => DrvId} (hnd : P.Nodup)
    (hf : FitsDrop cat P s)
    (hold : ∀ n, (t.lookup n).isSome = true ↔ ∃ p ∈ P, (cat p).name = n) (n : Name) :
    ((t.erase (cat s).name).lookup n).isSome = true ↔ ∃ p ∈ P.erase s, (cat p).name = n := by
  by_cases hn : n = (cat s).name
  · subst hn
    rw [AList.lookup_erase]
    constructor
    · intro hno
      cases hno
    · rintro ⟨p, hp, he⟩
      obtain rfl : p = s := hf p (List.mem_of_mem_erase hp) he
      exact absurd hp hnd.not_mem_erase
  · rw [AList.lookup_erase_ne hn, hold]
    constructor
    · rintro ⟨p, hp, he⟩
      refine ⟨p, (List.mem_erase_of_ne ?_).mpr hp, he⟩
      rintro rfl
      exact hn he.symm
    · rintro ⟨p, hp, he⟩
      exact ⟨p, List.mem_of_mem_erase hp, he⟩

theorem Single.drop (h : Single cat m i d G) (hf : FitsDrop cat m.stmts s)
    (hdrop : m.dropStmt cat s = .ok m') : Kept cat m' := by
  have hP : m.stmts = d.stmts := by simp [DrvMgr.stmts, h.drivers]
  rw [hP] at hf
  rw [DrvMgr.dropStmt] at hdrop
  cases hl : m.stmtToDrvMap.lookup (cat s).name with
  | none =>
    simp only [hl, Except.ok.injEq] at hdrop
    subst hdrop
    exact .inr ⟨i, d, G, h⟩
  | some j =>
    obtain rfl : j = i := h.stmtMine _ _ hl
    have hin : m.stmtInUse (cat s).name = true := by simp [DrvMgr.stmtInUse, hl]
    obtain ⟨p, hp, hname⟩ := (h.stmtMap _).mp hin
    obtain rfl : p = s := hf p hp hname
    have hd : m.driver j = some d := by simp [DrvMgr.driver, h.drivers]
    simp only [hl, hd] at hdrop
    cases hcall : Esl.dropStmt cat j p ⟨d, m.bufToDrvMap⟩ with
    | error x => cases x <;> simp [hcall] at hdrop
    | ok st =>
      obtain ⟨bs, hbs⟩ := dropStmt_inBufs hcall
      have hins := Stmt.inputs_of hbs
      have hw : Within cat d.stmts G := h.members.within fun _ => id
      have hc : Canon cat (DropState.mk d m.bufToDrvMap).drv.bufStateTable G := h.canon
      obtain ⟨st', hok, hdropped⟩ := dropStmt_spec j hc h.names hw hp hbs hp
        (fun b hb => by
          rw [h.members.cons, mem_readers, hins]
          exact ⟨hp, hb⟩)
        (fun b c hcb _ => h.members.made b c hcb) ((h.members.prod _ p).2 ⟨hp, rfl⟩)
      have hlists : Lists j G ⟨d, m.bufToDrvMap⟩ := by
        refine ⟨fun b hb => (h.bufs b).mp hb, fun e he => ?_, h.mapNodup⟩
        obtain rfl : e.2 = j := h.mapMine e he
        exact ⟨rfl, (h.map e.1).mp he⟩
      obtain ⟨hbufs, hmap⟩ := hdropped.lists hlists
      have hst : st'.drv.stmts = d.stmts.erase p := hdropped.stmts.trans (eraseP_name hp h.nameInj)
      have hmem := h.members.drop (hins ▸ h.names.inputsNodup p hp) (fun b => by rw [hins])
        fun q hq ho => h.names.outInj q hq p hp ho
      have hsub : ∀ q ∈ st'.drv.stmts, q ∈ d.stmts := fun q hq => List.mem_of_mem_erase (hst ▸ hq)
      simp only [hok] at hdrop
      have hset : (m.setDriver j st'.drv).drivers = [(j, st'.drv)] := by
        simp [DrvMgr.setDriver, h.drivers]
      have hmap' : ∀ b, (b, j) ∈ st'.bufToDrvMap ↔ (G.drop cat p bs).Known b := by
        intro b
        rw [hmap, List.mem_filter, decide_eq_true_eq]
        exact ⟨And.right, fun hk => ⟨(h.map b).mpr (known_drop hk), hk⟩⟩
      have hnames : ∀ n, ((m.stmtToDrvMap.erase (cat p).name).lookup n).isSome = true ↔
          ∃ q ∈ st'.drv.stmts, (cat q).name = n := by
        rw [hst]
        exact erase_names h.members.nodup hf h.stmtMap
      split at hdrop
      · next hnil =>
        rw [Except.ok.injEq] at hdrop
        subst hdrop
        have hnone : ∀ b, ¬ (G.drop cat p bs).Known b := by
          intro b hk
          rw [← hst, hnil] at hmem
          obtain ⟨q, hq, -⟩ := (hmem.known_iff b).mp hk
          cases hq
        refine .inl ⟨?_, ?_, fun n => ?_⟩
        · simp [DrvMgr.after, hset]
        · change st'.bufToDrvMap = []
          rw [hmap, List.filter_eq_nil_iff]
          intro e _
          simpa using hnone e.1
        · have hn := hnames n
          rw [hnil] at hn
          simpa using hn
      · next hbusy =>
        rw [Except.ok.injEq] at hdrop
        subst hdrop
        refine .inr ⟨j, st'.drv, G.drop cat p bs, ?_⟩
        constructor
        · exact hset
        · exact hbusy
        · exact hdropped.canon
        · exact hst ▸ hmem
        · exact h.names.mono hsub
        · exact fun q hq q' hq' => h.nameInj q (hsub q hq) q' (hsub q' hq')
        · rw [hbufs]
          exact h.bufsNodup.filter _
        · intro b
          rw [hbufs, List.mem_filter, decide_eq_true_eq]
          exact ⟨And.right, fun hk => ⟨(h.bufs b).mpr (known_drop hk), hk⟩⟩
        · change st'.bufToDrvMap.Nodup
          rw [hmap]
          exact h.mapNodup.filter _
        · intro e he
          change e ∈ st'.bufToDrvMap at he
          rw [hmap] at he
          exact h.mapMine e (List.mem_of_mem_filter he)
        · exact hmap'
        · intro n k hk
          by_cases hn : n = (cat p).name
          · rw [hn, AList.lookup_erase] at hk
            cases hk
          · rw [AList.lookup_erase_ne hn] at hk
            exact h.stmtMine n k hk
        · exact hnames

/-- A manager reached by additions and drops that succeed and meet the conditions, which are on
the statements present and on the statement that comes or goes. -/
inductive MgrRun (cat : Catalog) (mayAdd mayDrop : List StmtId → StmtId → Prop) : DrvMgr → Prop
  | new : MgrRun cat mayAdd mayDrop DrvMgr.new
  | add {m m' : DrvMgr} (s : StmtId) (drv : Option DrvId) {r : Option DrvId}
      (run : MgrRun cat mayAdd mayDrop m) (may : mayAdd m.stmts s)
      (step : m.addStmt cat s drv = .ok (m', r)) :
      MgrRun cat mayAdd mayDrop m'
  | drop {m m' : DrvMgr} {s : StmtId} (run : MgrRun cat mayAdd mayDrop m)
      (may : mayDrop m.stmts s) (step : m.dropStmt cat s = .ok m') : MgrRun cat mayAdd mayDrop m'

theorem Idle.drop (h : Idle m) (hdrop : m.dropStmt cat s = .ok m') : Idle m' := by
  rw [DrvMgr.dropStmt, h.stmtMap] at hdrop
  cases hdrop
  exact h

theorem MgrRun.kept (run : MgrRun cat (FitsAdd cat) (FitsDrop cat) m) : Kept cat m := by
  induction run with
  | new => exact .inl ⟨rfl, rfl, fun _ => rfl⟩
  | add s drv run may step ih =>
    rcases ih with h | ⟨i, d, G, h⟩
    · exact h.add may step
    · exact h.add may step
  | drop run may step ih =>
    rcases ih with h | ⟨i, d, G, h⟩
    · exact .inl (h.drop step)
    · exact h.drop may step

/-- The containers agree in every manager reached by statements whose windows are known. -/
theorem containers_agree (run : MgrRun cat (FitsAdd cat) (FitsDrop cat) m) : Booked cat m :=
  run.kept.booked

/-- Statement 0 selects from `a` into `b`. Statements 1 and 2 join `c`, with the window `b` and
with the window `w`. -/
def joinCat : Catalog
  | 0 => ⟨['s'], .normal, true, ['a'], ['b'], [], [], []⟩
  | 1 => ⟨['j'], .join, true, ['c'], ['d'], [], [['b']], []⟩
  | _ => ⟨['k'], .join, true, ['c'], ['e'], [], [['w']], []⟩

theorem joinCat_names :
    Names joinCat [0] ∧ Names joinCat [0, 1] ∧ Names joinCat [0, 2] :=
  ⟨⟨by decide, by decide, by decide, by decide⟩, ⟨by decide, by decide, by decide, by decide⟩,
    ⟨by decide, by decide, by decide, by decide⟩⟩

theorem containers_agree_join :
    ∃ m : DrvMgr, m.stmts = [1] ∧ m.bufferInUse ['b'] = true ∧ Booked joinCat m := by
  obtain ⟨h0, h1, -⟩ := joinCat_names
  have r₁ : MgrRun joinCat (FitsAdd joinCat) (FitsDrop joinCat) _ :=
    .add 0 none .new ⟨h0, fun _ => by decide, by decide⟩ rfl
  have r₂ : MgrRun joinCat (FitsAdd joinCat) (FitsDrop joinCat) _ :=
    .add 1 none r₁
      ⟨h1, by decide, by decide⟩ rfl
  have r₃ : MgrRun joinCat (FitsAdd joinCat) (FitsDrop joinCat) _ :=
    .drop (s := 0) r₂ (by unfold FitsDrop; decide) rfl
  exact ⟨_, rfl, rfl, containers_agree r₃⟩

/-- The driver reads the window `w`, which the manager does not know to be in use. -/
theorem joinWindow_notInUse :
    ¬ ∀ m, MgrRun joinCat (fun P s => Names joinCat (P ++ [s])) (FitsDrop joinCat) m →
      Booked joinCat m := by
  intro h
  obtain ⟨h0, -, h2⟩ := joinCat_names
  have r₁ : MgrRun joinCat (fun P s => Names joinCat (P ++ [s])) (FitsDrop joinCat) _ :=
    .add 0 none .new h0 rfl
  have r₂ : MgrRun joinCat (fun P s => Names joinCat (P ++ [s])) (FitsDrop joinCat) _ :=
    .add 2 none r₁ h2 rfl
  have hw := (h _ r₂).inUse ['w']
  have hno := hw.mpr ⟨_, List.mem_singleton.mpr rfl, _, rfl, by decide⟩
  exact absurd hno (by decide)

end StreamMill.Esl
