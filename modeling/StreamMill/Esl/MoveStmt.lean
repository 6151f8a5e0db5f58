import StreamMill.Esl.StmtPlace

/-!
# StreamMill.Esl.MoveStmt

Moving a statement to another driver, and joining two drivers (`MOVE_STMT_TO_COMPONENT_hndl`,
`JOIN_COMPONENTS_hndl` in `querySchdl.cc`). Both commands drop before they add, and what was
dropped stays out when an addition fails. A driver that has lost its last statement is deleted,
also when the command still has its pointer.

`move_atomic_iff`: the commands are atomic exactly if nothing fails after the first drop.
-/

namespace StreamMill.Esl

variable {cat : Catalog} {s : StmtId}

inductive Outcome
  | crash
  | failed (m : DrvMgr)
  | successful (m : DrvMgr)

def DrvMgr.getStmtByName (cat : Catalog) (m : DrvMgr) (name : Name) : Option StmtId :=
  ((m.stmtToDrvMap.lookup name).bind m.driver).bind fun d =>
    d.stmts.find? fun x => (cat x).name = name

/-- `dm->addStmt(s, drv2)` with a pointer to driver `i`, which may be deleted already. -/
def addStmtTo (cat : Catalog) (s : StmtId) (i : DrvId) (m : DrvMgr) :
    Except (Stop DrvMgr) (DrvMgr × DrvId) :=
  match m.driver i with
  | none => .error .crash
  | some _ =>
    match m.addStmt cat s (some i) with
    | .error x => .error x
    | .ok (_, none) => .error .crash
    | .ok (m, some j) => .ok (m, j)

def moveStmt (cat : Catalog) (id : Name) (idFrom idTo : DrvId) (m : DrvMgr) : Outcome :=
  match m.getStmtByName cat id, m.driver idFrom, m.driver idTo with
  | some s, some _, some _ =>
    match m.dropStmt cat s with
    | .error .crash => .crash
    | .error (.failure m) => .failed m
    | .ok m =>
      match addStmtTo cat s idTo m with
      | .error .crash => .crash
      | .error (.failure m) => .failed m
      | .ok (m, _) => .successful m
  | _, _, _ => .failed m

def dropAll (cat : Catalog) : List StmtId → DrvMgr → Except (Stop DrvMgr) DrvMgr
  | [], m => .ok m
  | s :: remove, m =>
    match m.dropStmt cat s with
    | .error x => .error x
    | .ok m => dropAll cat remove m

def addAll (cat : Catalog) : List StmtId → DrvId → DrvMgr → Except (Stop DrvMgr) DrvMgr
  | [], _, m => .ok m
  | s :: remove, i, m =>
    match addStmtTo cat s i m with
    | .error x => .error x
    | .ok (m, j) => addAll cat remove j m

def joinComponents (cat : Catalog) (idFrom idTo : DrvId) (m : DrvMgr) : Outcome :=
  match m.driver idFrom, m.driver idTo with
  | some drv1, some _ =>
    match dropAll cat drv1.stmts m with
    | .error .crash => .crash
    | .error (.failure m) => .failed m
    | .ok m =>
      match addAll cat drv1.stmts idTo m with
      | .error .crash => .crash
      | .error (.failure m) => .failed m
      | .ok m => .successful m
  | _, _ => .failed m

/-- A command that fails leaves every statement where it was; one that succeeds has brought the
moved ones to the target and left the others. -/
def Atomic (m : DrvMgr) (moved : List StmtId) (target : DrvId) : Outcome → Prop
  | .crash => False
  | .failed m' => ∀ s i, m'.Where s i ↔ m.Where s i
  | .successful m' => (∀ s ∈ moved, ∀ i, m'.Where s i ↔ i = target) ∧
      ∀ s, s ∉ moved → ∀ i, m'.Where s i ↔ m.Where s i

/-- The manager chooses the driver for the statement, and the driver takes it. -/
def Takes (cat : Catalog) (m : DrvMgr) (s : StmtId) (i : DrvId) : Prop :=
  ∃ d d', m.driver i = some d ∧ m.choose (cat s) (some i) = some (some i) ∧
    addStmt cat s d = .ok d'

/-- The driver takes the statements, one after the other. -/
def TakesAll (cat : Catalog) : List StmtId → DrvId → DrvMgr → Prop
  | [], _, _ => True
  | s :: remove, i, m => Takes cat m s i ∧
      ∀ m', m.addStmt cat s (some i) = .ok (m', some i) → TakesAll cat remove i m'

section Commands

variable {m m' : DrvMgr} {i j : DrvId} {l : List StmtId}

theorem takes_iff (hnew : ¬ m.stmtInUse (cat s).name = true) :
    Takes cat m s i ↔ ∃ m', m.addStmt cat s (some i) = .ok (m', some i) := by
  rw [DrvMgr.addStmt, if_neg hnew]
  constructor
  · rintro ⟨d, d', hd, hc, hcall⟩
    exact ⟨(m.setDriver i d').record (cat s) i, by simp [hc, hd, hcall]⟩
  · rintro ⟨m', hadd⟩
    cases hc : m.choose (cat s) (some i) with
    | none => simp [hc] at hadd
    | some q =>
      cases q with
      | none =>
        have hno := (choose_none hc).1
        cases hno
      | some j =>
        rw [hc] at hadd
        dsimp only at hadd
        cases hd : m.driver j with
        | none => simp [hd] at hadd
        | some d =>
          rw [hd] at hadd
          dsimp only at hadd
          cases hcall : Esl.addStmt cat s d with
          | error x => cases x <;> simp [hcall] at hadd
          | ok d' =>
            rw [hcall] at hadd
            obtain rfl : j = i := Option.some.inj (Prod.mk.inj (Except.ok.inj hadd)).2
            exact ⟨d, d', hd, hc, hcall⟩

theorem addStmtTo_ok (h : Placed cat m) (hnew : ¬ m.stmtInUse (cat s).name = true)
    (hadd : addStmtTo cat s i m = .ok (m', j)) :
    m.addStmt cat s (some i) = .ok (m', some j) ∧ Placed cat m' ∧
      (∀ t k, m'.Where t k ↔ m.Where t k ∨ (t = s ∧ k = j)) ∧ (Takes cat m s i ↔ j = i) := by
  have hcall : m.addStmt cat s (some i) = .ok (m', some j) := by
    rw [addStmtTo] at hadd
    split at hadd
    · cases hadd
    · split at hadd
      · cases hadd
      · cases hadd
      · next heq =>
        obtain ⟨rfl, rfl⟩ := Prod.mk.inj (Except.ok.inj hadd)
        exact heq
  obtain ⟨k, hk, hp, hw⟩ := h.added hnew hcall
  obtain rfl : j = k := Option.some.inj hk
  refine ⟨hcall, hp, hw, ?_⟩
  rw [takes_iff hnew, hcall]
  constructor
  · rintro ⟨m₁, h₁⟩
    exact Option.some.inj (Prod.mk.inj (Except.ok.inj h₁)).2
  · rintro rfl
    exact ⟨m', rfl⟩

theorem addStmtTo_error (h : Placed cat m) (hnew : ¬ m.stmtInUse (cat s).name = true)
    {x : Stop DrvMgr} (hadd : addStmtTo cat s i m = .error x) :
    ¬ Takes cat m s i ∧ ∀ m', x = .failure m' → ∀ t k, m'.Where t k ↔ m.Where t k := by
  rw [addStmtTo] at hadd
  split at hadd
  · next hd =>
    obtain rfl : Stop.crash = x := Except.error.inj hadd
    refine ⟨?_, fun m' hx => by cases hx⟩
    rintro ⟨d, d', hd', -⟩
    rw [hd] at hd'
    cases hd'
  · next d₀ hd₀ =>
    split at hadd
    · next heq =>
      obtain rfl := Except.error.inj hadd
      rw [takes_iff hnew, heq]
      refine ⟨by simp, ?_⟩
      rintro m' rfl
      exact (h.addRefused heq).2
    · next heq =>
      obtain ⟨k, hk, -⟩ := h.added hnew heq
      cases hk
    · cases hadd

theorem getStmtByName_where {name : Name} (hs : m.getStmtByName cat name = some s) :
    (cat s).name = name ∧ ∃ i, m.Where s i := by
  rw [DrvMgr.getStmtByName, Option.bind_eq_some_iff] at hs
  obtain ⟨d, hd, hfind⟩ := hs
  obtain ⟨i, -, hi⟩ := Option.bind_eq_some_iff.mp hd
  exact ⟨by simpa using List.find?_some hfind, i, d, hi, List.mem_of_find?_eq_some hfind⟩

def Moves (cat : Catalog) (m : DrvMgr) (s : StmtId) (i : DrvId) : Prop :=
  (∃ m', m.dropStmt cat s = .error (.failure m')) ∨
    ∃ m', m.dropStmt cat s = .ok m' ∧ Takes cat m' s i

def Joins (cat : Catalog) (m : DrvMgr) (l : List StmtId) (i : DrvId) : Prop :=
  (∃ s rest m', l = s :: rest ∧ m.dropStmt cat s = .error (.failure m')) ∨
    ∃ m', dropAll cat l m = .ok m' ∧ TakesAll cat l i m'

theorem not_inUse_dropped (hp : Placed cat m')
    (hw : ∀ t k, m'.Where t k ↔ m.Where t k ∧ (cat t).name ≠ (cat s).name) :
    ¬ m'.stmtInUse (cat s).name = true := by
  rw [hp.inUse_iff]
  rintro ⟨t, k, ht, hn⟩
  exact ((hw t k).mp ht).2 hn

theorem moveStmt_atomic (h : Placed cat m) (id : Name) (idFrom idTo : DrvId) :
    Atomic m (m.getStmtByName cat id).toList idTo (moveStmt cat id idFrom idTo m) ↔
      ∀ s d₁ d₂, m.getStmtByName cat id = some s → m.driver idFrom = some d₁ →
        m.driver idTo = some d₂ → Moves cat m s idTo := by
  by_cases hfound : ∃ s d₁ d₂, m.getStmtByName cat id = some s ∧ m.driver idFrom = some d₁ ∧
      m.driver idTo = some d₂
  · obtain ⟨s, d₁, d₂, hs, hd₁, hd₂⟩ := hfound
    obtain ⟨-, i₀, hi₀⟩ := getStmtByName_where hs
    have hcond : (∀ s d₁ d₂, m.getStmtByName cat id = some s → m.driver idFrom = some d₁ →
        m.driver idTo = some d₂ → Moves cat m s idTo) ↔ Moves cat m s idTo := by
      constructor
      · exact fun hall => hall s d₁ d₂ hs hd₁ hd₂
      · intro hmv t _ _ ht _ _
        obtain rfl : s = t := Option.some.inj (hs.symm.trans ht)
        exact hmv
    rw [hcond, moveStmt, hs, hd₁, hd₂, Option.toList_some, Moves]
    dsimp only
    cases hdrop : m.dropStmt cat s with
    | error x =>
      cases x with
      | crash => simp [Atomic]
      | failure m₁ => simpa [Atomic] using (h.dropRefused hdrop).2
    | ok m₁ =>
      obtain ⟨hp₁, hw₁⟩ := h.dropped hdrop
      have hnew := not_inUse_dropped hp₁ hw₁
      have hgone : ∀ k, ¬ m₁.Where s k := fun k hk => ((hw₁ s k).mp hk).2 rfl
      dsimp only
      cases hadd : addStmtTo cat s idTo m₁ with
      | error x =>
        obtain ⟨hno, hsame⟩ := addStmtTo_error hp₁ hnew hadd
        cases x with
        | crash => simpa [Atomic] using hno
        | failure m₂ =>
          simp only [Atomic, reduceCtorEq, exists_false, Except.ok.injEq, exists_eq_left', hno,
            or_false, iff_false]
          intro hall
          exact hgone i₀ ((hsame m₂ rfl s i₀).mp ((hall s i₀).mpr hi₀))
      | ok r =>
        obtain ⟨m₂, j⟩ := r
        obtain ⟨-, -, hw₂, htakes⟩ := addStmtTo_ok hp₁ hnew hadd
        simp only [Atomic, reduceCtorEq, exists_false, Except.ok.injEq, exists_eq_left', htakes,
          false_or, List.mem_singleton, forall_eq]
        constructor
        · rintro ⟨hin, -⟩
          exact (hin j).mp ((hw₂ s j).mpr (.inr ⟨rfl, rfl⟩))
        · rintro rfl
          refine ⟨fun k => ?_, fun t ht k => ?_⟩
          · rw [hw₂]
            simp [hgone]
          · rw [hw₂, hw₁]
            constructor
            · rintro (ht' | ⟨rfl, -⟩)
              · exact ht'.1
              · exact absurd rfl ht
            · intro ht'
              exact .inl ⟨ht', fun hn => ht (h.unique ht' hi₀ hn).1⟩
  · have hout : moveStmt cat id idFrom idTo m = .failed m := by
      rw [moveStmt]
      split
      · next hs hd₁ hd₂ => exact absurd ⟨_, _, _, hs, hd₁, hd₂⟩ hfound
      · rfl
    rw [hout]
    constructor
    · intro _ s d₁ d₂ hs hd₁ hd₂
      exact absurd ⟨s, d₁, d₂, hs, hd₁, hd₂⟩ hfound
    · intro _ t k
      exact Iff.rfl

theorem dropAll_places (h : Placed cat m) (hin : ∀ s ∈ l, m.Where s i)
    (hnd : (l.map fun s => (cat s).name).Nodup) :
    (∀ m', dropAll cat l m = .ok m' →
      Placed cat m' ∧ ∀ t k, m'.Where t k ↔ m.Where t k ∧ t ∉ l) ∧
    ∀ m', dropAll cat l m = .error (.failure m') →
      ((∃ s rest, l = s :: rest ∧ m.dropStmt cat s = .error (.failure m')) ∨
        ((∃ s rest m₁, l = s :: rest ∧ m.dropStmt cat s = .ok m₁) ∧
          ∃ s ∈ l, ∀ k, ¬ m'.Where s k)) ∧ ∀ t k, m'.Where t k → m.Where t k := by
  induction l generalizing m with
  | nil =>
    refine ⟨fun m' hok => ?_, fun m' herr => by cases herr⟩
    obtain rfl : m = m' := Except.ok.inj hok
    exact ⟨h, fun t k => by simp⟩
  | cons s l ih =>
    rw [dropAll]
    cases hdrop : m.dropStmt cat s with
    | error x =>
      refine ⟨fun _ hok => (by cases hok), fun m' herr => ?_⟩
      obtain rfl := Except.error.inj herr
      exact ⟨.inl ⟨s, l, rfl, hdrop⟩, fun t k ht => ((h.dropRefused hdrop).2 t k).mp ht⟩
    | ok m₁ =>
      obtain ⟨hp₁, hw₁⟩ := h.dropped hdrop
      rw [List.map_cons, List.nodup_cons] at hnd
      have hs := hin s List.mem_cons_self
      have hsame : ∀ t k, m₁.Where t k ↔ m.Where t k ∧ t ≠ s := by
        intro t k
        rw [hw₁]
        refine and_congr_right fun ht => ⟨fun hn he => hn (by rw [he]), fun he hn => he ?_⟩
        exact (h.unique ht hs hn).1
      have hin₁ : ∀ t ∈ l, m₁.Where t i := by
        intro t ht
        refine (hw₁ t i).mpr ⟨hin t (List.mem_cons_of_mem _ ht), fun hn => hnd.1 ?_⟩
        rw [← hn]
        exact List.mem_map_of_mem ht
      obtain ⟨hok, herr⟩ := ih hp₁ hin₁ hnd.2
      refine ⟨fun m' hm' => ?_, fun m' hm' => ?_⟩
      · obtain ⟨hp', hw'⟩ := hok m' hm'
        refine ⟨hp', fun t k => ?_⟩
        rw [hw', hsame, List.mem_cons, not_or, and_assoc]
      · have hback := (herr m' hm').2
        refine ⟨.inr ⟨⟨s, l, m₁, rfl, hdrop⟩, s, List.mem_cons_self, fun k hk => ?_⟩,
          fun t k ht => ((hsame t k).mp (hback t k ht)).1⟩
        exact ((hsame s k).mp (hback s k hk)).2 rfl

theorem addAll_places (h : Placed cat m) (hnew : ∀ s ∈ l, ¬ m.stmtInUse (cat s).name = true)
    (hnd : (l.map fun s => (cat s).name).Nodup) :
    (∀ m', addAll cat l i m = .ok m' →
      (∀ t, t ∉ l → ∀ k, m'.Where t k ↔ m.Where t k) ∧
        ((∀ t ∈ l, ∀ k, m'.Where t k ↔ k = i) ↔ TakesAll cat l i m)) ∧
    (∀ m', addAll cat l i m = .error (.failure m') →
      ¬ TakesAll cat l i m ∧ (∀ t, t ∉ l → ∀ k, m'.Where t k ↔ m.Where t k) ∧
        ∃ s ∈ l, ∀ k, ¬ m'.Where s k) ∧
    (addAll cat l i m = .error .crash → ¬ TakesAll cat l i m) := by
  induction l generalizing m i with
  | nil =>
    refine ⟨fun m' hok => ?_, fun _ herr => (by cases herr),
      fun hc => (by cases hc)⟩
    obtain rfl : m = m' := Except.ok.inj hok
    exact ⟨fun _ _ _ => Iff.rfl, fun _ => trivial, fun _ t ht => by cases ht⟩
  | cons s l ih =>
    have hsnew := hnew s List.mem_cons_self
    rw [List.map_cons, List.nodup_cons] at hnd
    have hsl : s ∉ l := fun hs => hnd.1 (List.mem_map_of_mem hs)
    rw [addAll]
    cases hadd : addStmtTo cat s i m with
    | error x =>
      obtain ⟨hno, hsame⟩ := addStmtTo_error h hsnew hadd
      have hall : ¬ TakesAll cat (s :: l) i m := fun ht => hno ht.1
      refine ⟨fun _ hok => (by cases hok), fun m' herr => ?_, fun _ => hall⟩
      have hw := hsame m' (Except.error.inj herr)
      refine ⟨hall, fun t _ k => hw t k, s, List.mem_cons_self, fun k hk => ?_⟩
      exact hsnew ((h.inUse_iff _).mpr ⟨s, k, (hw s k).mp hk, rfl⟩)
    | ok r =>
      obtain ⟨m₁, j⟩ := r
      obtain ⟨hcall, hp₁, hw₁, htakes⟩ := addStmtTo_ok h hsnew hadd
      have hs₁ : ∀ k, m₁.Where s k ↔ k = j := by
        intro k
        rw [hw₁]
        constructor
        · rintro (hk | ⟨-, hk⟩)
          · exact absurd ((h.inUse_iff _).mpr ⟨s, k, hk, rfl⟩) hsnew
          · exact hk
        · exact fun hk => .inr ⟨rfl, hk⟩
      have hnew₁ : ∀ t ∈ l, ¬ m₁.stmtInUse (cat t).name = true := by
        intro t ht hin
        obtain ⟨t', k, ht', hn⟩ := (hp₁.inUse_iff _).mp hin
        rcases (hw₁ t' k).mp ht' with ht' | ⟨rfl, -⟩
        · exact hnew t (List.mem_cons_of_mem _ ht) ((h.inUse_iff _).mpr ⟨t', k, ht', hn⟩)
        · refine hnd.1 ?_
          rw [hn]
          exact List.mem_map_of_mem ht
      obtain ⟨hok, herr, hcrash⟩ := ih hp₁ hnew₁ hnd.2
      have hrest : ∀ t, t ∉ s :: l → ∀ k, m₁.Where t k ↔ m.Where t k := by
        intro t ht k
        rw [hw₁]
        refine ⟨fun h => h.resolve_right fun h => ht ?_, .inl⟩
        rw [h.1]
        exact List.mem_cons_self
      -- the statements after `s` are asked for in the driver that took `s`
      have htail : TakesAll cat (s :: l) i m ↔ j = i ∧ TakesAll cat l j m₁ := by
        rw [TakesAll, htakes]
        constructor
        · rintro ⟨rfl, hall⟩
          exact ⟨rfl, hall m₁ hcall⟩
        · rintro ⟨rfl, hall⟩
          refine ⟨rfl, fun m' hm' => ?_⟩
          rw [hcall] at hm'
          obtain rfl : m₁ = m' := (Prod.mk.inj (Except.ok.inj hm')).1
          exact hall
      have hout : ∀ t, t ∉ s :: l → t ∉ l := fun t ht h => ht (List.mem_cons_of_mem _ h)
      refine ⟨fun m' hm' => ?_, fun m' hm' => ?_, fun hc => ?_⟩
      · obtain ⟨hothers, hiff⟩ := hok m' hm'
        refine ⟨fun t ht k => (hothers t (hout t ht) k).trans (hrest t ht k), ?_⟩
        rw [htail, ← hiff]
        constructor
        · intro hall
          have hj : j = i :=
            (hall s List.mem_cons_self j).mp ((hothers s hsl j).mpr ((hs₁ j).mpr rfl))
          subst hj
          exact ⟨rfl, fun t ht => hall t (List.mem_cons_of_mem _ ht)⟩
        · rintro ⟨rfl, hall⟩ t ht k
          rcases List.mem_cons.mp ht with rfl | ht
          · exact (hothers t hsl k).trans (hs₁ k)
          · exact hall t ht k
      · obtain ⟨hno, hothers, t, ht, hgone⟩ := herr m' hm'
        rw [htail]
        exact ⟨fun hall => hno hall.2,
          fun t ht k => (hothers t (hout t ht) k).trans (hrest t ht k),
          t, List.mem_cons_of_mem _ ht, hgone⟩
      · rw [htail]
        exact fun hall => hcrash hc hall.2

def DrvMgr.stmtsOf (m : DrvMgr) (i : DrvId) : List StmtId :=
  match m.driver i with
  | some d => d.stmts
  | none => []

theorem joinComponents_atomic (h : Placed cat m) (idFrom idTo : DrvId) :
    Atomic m (m.stmtsOf idFrom) idTo (joinComponents cat idFrom idTo m) ↔
      ∀ d₁ d₂, m.driver idFrom = some d₁ → m.driver idTo = some d₂ →
        Joins cat m d₁.stmts idTo := by
  by_cases hfound : ∃ d₁ d₂, m.driver idFrom = some d₁ ∧ m.driver idTo = some d₂
  · obtain ⟨d₁, d₂, hd₁, hd₂⟩ := hfound
    have hcond : (∀ d₁ d₂, m.driver idFrom = some d₁ → m.driver idTo = some d₂ →
        Joins cat m d₁.stmts idTo) ↔ Joins cat m d₁.stmts idTo := by
      constructor
      · exact fun hall => hall d₁ d₂ hd₁ hd₂
      · intro hj e _ he _
        obtain rfl : d₁ = e := Option.some.inj (hd₁.symm.trans he)
        exact hj
    have hin : ∀ s ∈ d₁.stmts, m.Where s idFrom := fun s hs => ⟨d₁, hd₁, hs⟩
    have hnd := h.names idFrom d₁ hd₁
    obtain ⟨hdok, hderr⟩ := dropAll_places h hin hnd
    rw [hcond, joinComponents, DrvMgr.stmtsOf, hd₁, hd₂, Joins]
    dsimp only
    cases hdrop : dropAll cat d₁.stmts m with
    | error x =>
      cases x with
      | crash =>
        simp only [Atomic, reduceCtorEq, false_and, exists_false, or_false, false_iff]
        rintro ⟨s, rest, m', hl, hs⟩
        rw [hl, dropAll, hs] at hdrop
        cases hdrop
      | failure m₁ =>
        simp only [Atomic, reduceCtorEq, false_and, exists_false, or_false]
        obtain ⟨hcases, -⟩ := hderr m₁ hdrop
        rcases hcases with ⟨s, rest, hl, hs⟩ | ⟨⟨s, rest, m₂, hl, hs⟩, t, ht, hgone⟩
        · exact ⟨fun _ => ⟨s, rest, m₁, hl, hs⟩, fun _ => (h.dropRefused hs).2⟩
        · constructor
          · intro hall
            exact absurd ((hall t idFrom).mpr (hin t ht)) (hgone idFrom)
          · rintro ⟨s', rest', m', hl', hs'⟩
            obtain ⟨rfl, -⟩ := List.cons.inj (hl.symm.trans hl')
            rw [hs] at hs'
            cases hs'
    | ok m₁ =>
      obtain ⟨hp₁, hw₁⟩ := hdok m₁ hdrop
      have hfirst : ¬ ∃ s rest m', d₁.stmts = s :: rest ∧
          m.dropStmt cat s = .error (.failure m') := by
        rintro ⟨s, rest, m', hl, hs⟩
        rw [hl, dropAll, hs] at hdrop
        cases hdrop
      have hnew : ∀ s ∈ d₁.stmts, ¬ m₁.stmtInUse (cat s).name = true := by
        intro s hs hin'
        obtain ⟨t, k, ht, hn⟩ := (hp₁.inUse_iff _).mp hin'
        obtain ⟨ht, hout⟩ := (hw₁ t k).mp ht
        obtain rfl := (h.unique ht (hin s hs) hn).1
        exact hout hs
      obtain ⟨haok, haerr, hacrash⟩ := addAll_places hp₁ hnew hnd
      simp only [hfirst, false_or, Except.ok.injEq, exists_eq_left']
      cases hadd : addAll cat d₁.stmts idTo m₁ with
      | error x =>
        cases x with
        | crash => simpa [Atomic] using hacrash hadd
        | failure m₂ =>
          obtain ⟨hno, -, t, ht, hgone⟩ := haerr m₂ hadd
          simp only [Atomic, hno, iff_false]
          intro hall
          exact hgone idFrom ((hall t idFrom).mpr (hin t ht))
      | ok m₂ =>
        obtain ⟨hothers, hiff⟩ := haok m₂ hadd
        rw [← hiff]
        refine ⟨And.left, fun hall => ⟨hall, fun t ht k => (hothers t ht k).trans ?_⟩⟩
        rw [hw₁]
        exact ⟨And.left, fun hk => ⟨hk, ht⟩⟩
  · have hout : joinComponents cat idFrom idTo m = .failed m := by
      rw [joinComponents]
      split
      · next hd₁ hd₂ => exact absurd ⟨_, _, hd₁, hd₂⟩ hfound
      · rfl
    rw [hout]
    constructor
    · intro _ d₁ d₂ hd₁ hd₂
      exact absurd ⟨d₁, d₂, hd₁, hd₂⟩ hfound
    · intro _ t k
      exact Iff.rfl

end Commands

section OneDriver

variable {m m' : DrvMgr} {G : Graph} {i : DrvId} {d : Driver}

section

variable (h : Single cat m i d G)
include h

theorem Single.driver : m.driver i = some d := by
  simp [DrvMgr.driver, h.drivers]

theorem Single.where_iff (t : StmtId) (k : DrvId) :
    m.Where t k ↔ k = i ∧ t ∈ d.stmts := by
  rw [DrvMgr.Where, DrvMgr.driver, h.drivers, lookup_cons_ite]
  by_cases hk : k = i
  · simp [hk]
  · simp [hk]

theorem Single.driversOf {b : Name} (hb : G.Known b) :
    m.driversOf b = [i] := by
  have hone : m.bufToDrvMap.filter (fun e => e.1 = b) = [(b, i)] := by
    have hnd := h.mapNodup.filter fun e => decide (e.1 = b)
    refine List.perm_singleton.mp ((List.perm_ext_iff_of_nodup hnd (List.nodup_singleton _)).mpr ?_)
    rintro ⟨x, j⟩
    rw [List.mem_filter, List.mem_singleton]
    constructor
    · rintro ⟨hx, hxb⟩
      rw [← h.mapMine _ hx, ← of_decide_eq_true hxb]
    · intro hx
      rw [hx]
      exact ⟨(h.map b).mpr hb, by simp⟩
  rw [DrvMgr.driversOf, hone]
  rfl

theorem Single.driversOf_unknown {b : Name} (hb : ¬ G.Known b) :
    m.driversOf b = [] := by
  have hnone : m.bufToDrvMap.filter (fun e => e.1 = b) = [] := by
    rw [List.filter_eq_nil_iff]
    rintro ⟨x, j⟩ hx hxb
    obtain rfl : j = i := h.mapMine _ hx
    obtain rfl : x = b := of_decide_eq_true hxb
    exact hb ((h.map x).mp hx)
  rw [DrvMgr.driversOf, hnone]
  rfl

theorem Single.chooseInputs (out : Name) {bs : List Name} (hbs : ∀ b ∈ bs, G.Known b) :
    m.chooseInputs out bs (some i) = some (some i) := by
  induction bs with
  | nil => rfl
  | cons b bs ih =>
    have hin : m.chooseInput b (some i) = some (some i) := by
      rw [DrvMgr.chooseInput, h.driversOf (hbs b List.mem_cons_self)]
      simp
    have hout : m.outOk out (some i) = true := by
      rw [DrvMgr.outOk]
      by_cases hk : G.Known out
      · rw [h.driversOf hk]
        simp
      · rw [h.driversOf_unknown hk]
    rw [DrvMgr.chooseInputs, hin]
    dsimp only
    rw [if_pos hout]
    exact ih fun c hc => hbs c (List.mem_cons_of_mem _ hc)

theorem Single.choose (hout : G.prod (cat s).out = none) :
    m.choose (cat s) (some i) = some (some i) := by
  have hmem : ∀ b ∈ (cat s).lookedUp.filter m.bufferInUse, G.Known b :=
    fun b hb => (h.inUse_iff b).mp (List.mem_filter.mp hb).2
  rw [DrvMgr.choose]
  split
  · rw [DrvMgr.chooseOut]
    by_cases hk : G.Known (cat s).out
    · have hty : isSourceTy (m.getBufType i (cat s).out) = true := by
        rw [DrvMgr.getBufType, h.driver]
        dsimp only
        rw [Driver.getBufType, h.canon.buffers _ hk]
        rw [Graph.entry, hout]
        cases hc : G.cons (cat s).out with
        | nil => exact absurd hc (hk.resolve_left (by simp [hout]))
        | cons c cs => cases cs <;> rfl
      rw [h.driversOf hk]
      simp [hty]
    · rw [h.driversOf_unknown hk]
      rfl
  · next b bs heq =>
    rw [heq] at hmem
    exact h.chooseInputs _ hmem

theorem Single.drops {bs : List Name} (hbs : (cat s).inBufs = some bs) (hs : s ∈ d.stmts) :
    ∃ m', m.dropStmt cat s = .ok m' := by
  have hw : Within cat d.stmts G := h.members.within fun _ => id
  have hc : Canon cat (DropState.mk d m.bufToDrvMap).drv.bufStateTable G := h.canon
  obtain ⟨st, hok, -⟩ := dropStmt_spec i hc h.names hw hs hbs hs
    (fun b hb => by
      rw [h.members.cons, mem_readers, Stmt.inputs_of hbs]
      exact ⟨hs, hb⟩)
    (fun b c hcb _ => h.members.made b c hcb) ((h.members.prod _ s).2 ⟨hs, rfl⟩)
  obtain ⟨j, hj⟩ := Option.isSome_iff_exists.mp ((h.stmtMap _).mpr ⟨s, hs, rfl⟩)
  obtain rfl : j = i := h.stmtMine _ _ hj
  rw [DrvMgr.dropStmt, hj]
  dsimp only
  rw [h.driver]
  dsimp only
  rw [hok]
  dsimp only
  split
  · exact ⟨_, rfl⟩
  · exact ⟨_, rfl⟩

end

/-- The window of a join that one other statement reads. -/
def Blocks (cat : Catalog) (P : List StmtId) (s : StmtId) (w : Name) : Prop :=
  (cat s).type = .join ∧ w ∈ (cat s).inputs ∧ w ≠ (cat s).inb ∧
    (readers cat (P.erase s) w).length = 1

theorem Single.takes_iff (h : Single cat m' i d G) {W : List StmtId} {bs : List Name}
    (hbs : (cat s).inBufs = some bs) (hv : (cat s).valid = true) (hn : Names cat W) (hs : s ∈ W)
    (hP : d.stmts.Perm (W.erase s)) (hnd : W.Nodup) :
    Takes cat m' s i ↔ ∀ w, ¬ Blocks cat W s w := by
  have hin := Stmt.inputs_of hbs
  have hmem : ∀ t, t ∈ d.stmts ↔ t ≠ s ∧ t ∈ W := fun t => by rw [hP.mem_iff, hnd.mem_erase_iff]
  have hsP : s ∉ d.stmts := fun hc => ((hmem s).mp hc).1 rfl
  have hout : G.prod (cat s).out = none := by
    rw [Option.eq_none_iff_forall_ne_some]
    intro p hp
    obtain ⟨hpd, ho⟩ := (h.members.prod _ p).mp hp
    exact ((hmem p).mp hpd).1 (hn.outInj p ((hmem p).mp hpd).2 s hs ho)
  have hrefuses : ∀ b ∈ bs, (Refuses cat G s b ↔ Blocks cat W s b) := by
    intro b hb
    have hlen : (readers cat (W.erase s) b).length = (G.cons b).length := by
      rw [h.members.cons]
      exact (hP.filter _).length_eq.symm
    rw [Blocks, hlen, hin]
    constructor
    · rintro ⟨-, hp | ⟨hty, hne, hc⟩⟩
      · exact absurd hout hp
      · exact ⟨hty, hb, hne, hc⟩
    · rintro ⟨hty, -, hne, hc⟩
      refine ⟨.inr fun h0 => ?_, .inr ⟨hty, hne, hc⟩⟩
      rw [h0] at hc
      cases hc
  have hcall : Takes cat m' s i ↔ ∃ d', Esl.addStmt cat s d = .ok d' := by
    constructor
    · rintro ⟨e, d', he, -, hok⟩
      obtain rfl : d = e := Option.some.inj (h.driver.symm.trans he)
      exact ⟨d', hok⟩
    · rintro ⟨d', hok⟩
      exact ⟨d, d', h.driver, h.choose hout, hok⟩
  have hw : Within cat W G := h.members.within fun t ht => ((hmem t).mp ht).2
  rw [hcall]
  rcases addStmt_spec h.canon hn hw hs hbs hv h.busy (h.members.unread hsP) h.members.made with
    ⟨-, hall, d', hok, -⟩ | ⟨pre, post, rfl, hstuck, _, _, herr⟩
  · refine ⟨fun _ w hb => ?_, fun _ => ⟨d', hok⟩⟩
    have hwb : w ∈ bs := hin ▸ hb.2.1
    exact hall w hwb ((hrefuses w hwb).mpr hb)
  · constructor
    · rintro ⟨d', hok⟩
      rw [herr] at hok
      cases hok
    · intro hall
      cases post with
      | nil => exact absurd hout hstuck
      | cons b post =>
        have hb : b ∈ pre ++ b :: post := by simp
        exact absurd ((hrefuses b hb).mp hstuck) (hall b)

theorem not_takes (hp : Placed cat m') (hempty : ∀ t, ¬ m'.Where t i) : ¬ Takes cat m' s i := by
  rintro ⟨d', -, hd', -⟩
  obtain ⟨t, ht⟩ := List.exists_mem_of_ne_nil _ (hp.busy i d' hd')
  exact hempty t ⟨d', hd', ht⟩

theorem Single.moves_iff (h : Single cat m i d G) (hp : Placed cat m) {bs : List Name}
    (hbs : (cat s).inBufs = some bs) (hv : (cat s).valid = true) (hs : s ∈ d.stmts) :
    Moves cat m s i ↔ d.stmts ≠ [s] ∧ ∀ w, ¬ Blocks cat d.stmts s w := by
  obtain ⟨m', hdrop⟩ := h.drops hbs hs
  obtain ⟨hp', hw'⟩ := hp.dropped hdrop
  have hmoves : Moves cat m s i ↔ Takes cat m' s i := by
    rw [Moves, hdrop]
    simp
  have hmem : ∀ t k, m'.Where t k ↔ k = i ∧ t ≠ s ∧ t ∈ d.stmts := by
    intro t k
    rw [hw', h.where_iff]
    constructor
    · rintro ⟨⟨hk, ht⟩, hn⟩
      exact ⟨hk, fun he => hn (by rw [he]), ht⟩
    · rintro ⟨hk, hne, ht⟩
      exact ⟨⟨hk, ht⟩, fun hn => hne (h.nameInj t ht s hs hn)⟩
  rw [hmoves]
  by_cases hone : d.stmts = [s]
  · refine ⟨fun ht => absurd ht (not_takes hp' fun t ht => ?_), fun hc => absurd hone hc.1⟩
    obtain ⟨-, hne, ht⟩ := (hmem t i).mp ht
    rw [hone] at ht
    exact hne (List.mem_singleton.mp ht)
  · have hfits : FitsDrop cat m.stmts s := by
      intro p hpm hn
      have hst : m.stmts = d.stmts := by simp [DrvMgr.stmts, h.drivers]
      rw [hst] at hpm
      exact h.nameInj p hpm s hs hn
    obtain ⟨t, ht, hts⟩ : ∃ t ∈ d.stmts, t ≠ s := by
      by_contra hno
      refine hone (List.perm_singleton.mp ?_)
      refine (List.perm_ext_iff_of_nodup h.members.nodup (List.nodup_singleton _)).mpr fun t => ?_
      rw [List.mem_singleton]
      exact ⟨fun ht => by_contra fun hne => hno ⟨t, ht, hne⟩, fun he => he ▸ hs⟩
    obtain ⟨e, he, -⟩ := (hmem t i).mpr ⟨rfl, hts, ht⟩
    rcases h.drop hfits hdrop with hidle | ⟨j, d', G', h'⟩
    · rw [DrvMgr.driver, hidle.drivers] at he
      cases he
    · obtain rfl : i = j := by
        obtain ⟨x, hx⟩ := List.exists_mem_of_ne_nil _ h'.busy
        exact ((hmem x j).mp ((h'.where_iff x j).mpr ⟨rfl, hx⟩)).1.symm
      have hperm : d'.stmts.Perm (d.stmts.erase s) := by
        refine (List.perm_ext_iff_of_nodup h'.members.nodup (h.members.nodup.erase s)).mpr ?_
        intro x
        rw [h.members.nodup.mem_erase_iff]
        have hx := h'.where_iff x i
        rw [hmem] at hx
        simpa using hx.symm
      rw [h'.takes_iff hbs hv h.names hs hperm h.members.nodup]
      simp [hone]

theorem Single.not_joins (h : Single cat m i d G) (hp : Placed cat m)
    (hready : ∀ s ∈ d.stmts, ∃ bs, (cat s).inBufs = some bs) : ¬ Joins cat m d.stmts i := by
  rintro (⟨s, rest, m', hl, hdrop⟩ | ⟨m', hdrop, htakes⟩)
  · have hs : s ∈ d.stmts := by simp [hl]
    obtain ⟨bs, hbs⟩ := hready s hs
    obtain ⟨m₁, hok⟩ := h.drops hbs hs
    rw [hok] at hdrop
    cases hdrop
  · have hin : ∀ s ∈ d.stmts, m.Where s i := fun s hs => (h.where_iff s i).mpr ⟨rfl, hs⟩
    obtain ⟨hp', hw'⟩ := (dropAll_places hp hin (hp.names i d h.driver)).1 m' hdrop
    cases hl : d.stmts with
    | nil => exact h.busy hl
    | cons s rest =>
      rw [hl] at htakes
      refine not_takes hp' (fun t ht => ?_) htakes.1
      obtain ⟨ht, hout⟩ := (hw' t i).mp ht
      exact hout ((h.where_iff t i).mp ht).2

end OneDriver

section Runs

variable {m m' : DrvMgr} {G : Graph} {i : DrvId} {d : Driver}

theorem addStmtTo_run {x : Except (Stop DrvMgr) (DrvMgr × DrvId)} (run : SchedRun cat m)
    (hadd : addStmtTo cat s i m = x) :
    (∀ m' j, x = .ok (m', j) → SchedRun cat m') ∧
      ∀ m', x = .error (.failure m') → SchedRun cat m' := by
  subst hadd
  rw [addStmtTo]
  split
  · simp
  · split
    · next heq =>
      refine ⟨by simp, fun m' hm' => ?_⟩
      rw [Except.error.inj hm'] at heq
      exact run.addRefused heq
    · simp
    · next heq =>
      refine ⟨fun m' j hm' => ?_, by simp⟩
      rw [(Prod.mk.inj (Except.ok.inj hm')).1] at heq
      exact run.add _ _ heq

theorem dropAll_run (run : SchedRun cat m) (l : List StmtId) :
    (∀ m', dropAll cat l m = .ok m' → SchedRun cat m') ∧
      ∀ m', dropAll cat l m = .error (.failure m') → SchedRun cat m' := by
  induction l generalizing m with
  | nil => simpa [dropAll] using run
  | cons s l ih =>
    rw [dropAll]
    cases hdrop : m.dropStmt cat s with
    | error x =>
      refine ⟨by simp, fun m' hm' => ?_⟩
      rw [Except.error.inj hm'] at hdrop
      exact run.dropRefused hdrop
    | ok m₁ => exact ih (run.drop hdrop)

theorem addAll_run (run : SchedRun cat m) (l : List StmtId) (i : DrvId) :
    (∀ m', addAll cat l i m = .ok m' → SchedRun cat m') ∧
      ∀ m', addAll cat l i m = .error (.failure m') → SchedRun cat m' := by
  induction l generalizing m i with
  | nil => simpa [addAll] using run
  | cons s l ih =>
    rw [addAll]
    cases hadd : addStmtTo cat s i m with
    | error x =>
      refine ⟨by simp, fun m' hm' => ?_⟩
      rw [Except.error.inj hm'] at hadd
      exact (addStmtTo_run run hadd).2 m' rfl
    | ok r => exact ih ((addStmtTo_run run hadd).1 r.1 r.2 rfl) r.2

/-- The manager that a command leaves, if the program still runs. -/
def Outcome.left : Outcome → Option DrvMgr
  | .crash => none
  | .failed m => some m
  | .successful m => some m

theorem moveStmt_run (run : SchedRun cat m) (id : Name) (idFrom idTo : DrvId)
    (hleft : (moveStmt cat id idFrom idTo m).left = some m') : SchedRun cat m' := by
  rw [moveStmt] at hleft
  split at hleft
  · split at hleft
    · cases hleft
    · next hdrop =>
      rw [Option.some.inj hleft] at hdrop
      exact run.dropRefused hdrop
    · next hdrop =>
      have run₁ := run.drop hdrop
      split at hleft
      · cases hleft
      · next hadd =>
        rw [← Option.some.inj hleft]
        exact (addStmtTo_run run₁ hadd).2 _ rfl
      · next hadd =>
        rw [← Option.some.inj hleft]
        exact (addStmtTo_run run₁ hadd).1 _ _ rfl
  · rw [← Option.some.inj hleft]
    exact run

theorem joinComponents_run (run : SchedRun cat m) (idFrom idTo : DrvId)
    (hleft : (joinComponents cat idFrom idTo m).left = some m') : SchedRun cat m' := by
  rw [joinComponents] at hleft
  split at hleft
  · split at hleft
    · cases hleft
    · next hdrop =>
      rw [← Option.some.inj hleft]
      exact (dropAll_run run _).2 _ hdrop
    · next hdrop =>
      have run₁ := (dropAll_run run _).1 _ hdrop
      split at hleft
      · cases hleft
      · next hadd =>
        rw [← Option.some.inj hleft]
        exact (addAll_run run₁ _ _).2 _ hadd
      · next hadd =>
        rw [← Option.some.inj hleft]
        exact (addAll_run run₁ _ _).1 _ hadd
  · rw [← Option.some.inj hleft]
    exact run

/-- Statement 0 selects from `a` into `b`, 1 joins `c` with the window `b`, 2 selects from `b`. -/
def moveCat : Catalog
  | 0 => ⟨['s'], .normal, true, ['a'], ['b'], [], [], []⟩
  | 1 => ⟨['j'], .join, true, ['c'], ['d'], [], [['b']], []⟩
  | _ => ⟨['t'], .normal, true, ['b'], ['e'], [], [], []⟩

end Runs

end StreamMill.Esl
