import Mathlib.Logic.Relation
import StreamMill.Lib.Depth
import StreamMill.Esl.GraphRun
import StreamMill.Esl.OperatorPriority

/-!
# StreamMill.Esl.OpSteps

What a call of `runNextUnit` can do, whatever the priorities, the statistics and the tuples that
come in meanwhile: it is a sequence of steps, each one an arrival, an execution, or a fork that pops
its tuple (`Step`). On the query graphs that additions and drops lead to, a call never follows a
null pointer (`runNextUnit_steps`).
-/

namespace StreamMill.Esl.OperatorPriority

/-- The query graphs of normal statements and unions. No union reads a buffer that others read. -/
structure OpGraph (cat : Catalog) (P : List StmtId) (t : BufStateTbl) : Prop where
  table : TableOf cat P t
  nodup : P.Nodup
  types : ∀ p ∈ P, (cat p).type = .normal ∨ (cat p).type = .tUnion ∨ (cat p).type = .tlUnion
  nameInj : ∀ p ∈ P, ∀ q ∈ P, (cat p).name = (cat q).name → p = q
  outInj : ∀ p ∈ P, ∀ q ∈ P, (cat p).out = (cat q).out → p = q
  apart : ∀ p ∈ P, (cat p).type ≠ .normal → ∀ b ∈ (cat p).inputs, readers cat P b = [p]

/-- No statement fills the buffer. -/
def Outer (cat : Catalog) (P : List StmtId) (b : Name) : Prop := ∀ p ∈ P, (cat p).out ≠ b

def Merged (cat : Catalog) (P : List StmtId) (b : Name) : Prop :=
  ∃ p ∈ P, (cat p).out = b ∧ (cat p).type ≠ .normal

/-- A buffer that the scheduler treats as a fork. It does not look for forks behind a union. -/
def Branches (cat : Catalog) (P : List StmtId) (b : Name) : Prop :=
  2 ≤ (readers cat P b).length ∧ ¬ Merged cat P b

instance (cat : Catalog) (P : List StmtId) (b : Name) : Decidable (Outer cat P b) :=
  inferInstanceAs (Decidable (∀ p ∈ P, _))

instance (cat : Catalog) (P : List StmtId) (b : Name) : Decidable (Merged cat P b) :=
  inferInstanceAs (Decidable (∃ p ∈ P, _))

instance (cat : Catalog) (P : List StmtId) (b : Name) : Decidable (Branches cat P b) :=
  inferInstanceAs (Decidable (_ ∧ _))

/-- The dummy of a normal statement. -/
def branchKey (cat : Catalog) (p : StmtId) : Name := (cat p).inb ++ (cat p).out

variable {cat : Catalog} {P : List StmtId} {t : BufStateTbl} {b : Name} {p q : StmtId}

theorem mem_inputs_union (hp : (cat p).type = .tUnion ∨ (cat p).type = .tlUnion) :
    b ∈ (cat p).inputs ↔ b ∈ (cat p).unionBufs := by
  rcases hp with hp | hp <;> simp [Stmt.inputs, Stmt.inBufs, hp]

theorem bType_branches {e : BufferEntry} (he : EntryOf cat P b e) :
    (e.bType = .fork ∨ e.bType = .sourceFork) ↔ Branches cat P b := by
  have hfork := he.fork
  have hmerge : e.bType.isMerge ↔ Merged cat P b := he.merge
  rw [Branches, ← hfork, ← hmerge]
  generalize e.bType = ty
  cases ty <;> simp [BufferTy.isFork, BufferTy.isMerge]

namespace OpGraph

variable (h : OpGraph cat P t)
include h

theorem union_of_ne (hp : p ∈ P) (hty : (cat p).type ≠ .normal) :
    (cat p).type = .tUnion ∨ (cat p).type = .tlUnion :=
  (h.types p hp).resolve_left hty

theorem entry (hp : p ∈ P) (hb : b ∈ (cat p).inputs) :
    ∃ e, t.lookup b = some e ∧ EntryOf cat P b e :=
  h.table.buffers b ⟨p, hp, .inr hb⟩

theorem normal_of_forks (hf : 2 ≤ (readers cat P b).length) (hp : p ∈ readers cat P b) :
    (cat p).type = .normal ∧ (cat p).inb = b := by
  obtain ⟨hpP, hin⟩ := mem_readers.mp hp
  have hty : (cat p).type = .normal := by
    by_contra hty
    rw [h.apart p hpP hty b hin] at hf
    simp at hf
  rw [inputs_normal hty, List.mem_singleton] at hin
  exact ⟨hty, hin.symm⟩

theorem mem_dummiesOf {k : Name} :
    k ∈ dummiesOf t b ↔
      2 ≤ (readers cat P b).length ∧ ∃ p ∈ readers cat P b, k = branchKey cat p := by
  rw [dummiesOf, List.mem_filter]
  constructor
  · rintro ⟨-, hk⟩
    cases hlook : t.lookup k with
    | none => simp [hlook] at hk
    | some e =>
      obtain ⟨hty, hin⟩ : e.bType = .forkDummy ∧ e.inplace = some b := by simpa [hlook] using hk
      rcases h.table.only k e hlook with ⟨hne, -⟩ | ⟨-, b', hf, c, hc, rfl⟩
      · exact absurd hty hne
      · have hd := h.table.dummies b' hf c hc
        rw [hlook, Option.some.injEq] at hd
        obtain rfl : b' = b := by simpa [hd, dummyEntry] using hin
        obtain ⟨-, rfl⟩ := h.normal_of_forks hf hc
        exact ⟨hf, c, hc, rfl⟩
  · rintro ⟨hf, p, hp, rfl⟩
    obtain ⟨-, rfl⟩ := h.normal_of_forks hf hp
    have hd := h.table.dummies _ hf p hp
    refine ⟨AList.lookup_isSome.mp (by rw [branchKey, hd]; rfl), ?_⟩
    simp [branchKey, hd, dummyEntry]

theorem dummy_statement (hf : 2 ≤ (readers cat P b).length) (hp : p ∈ readers cat P b) :
    (t.lookup (branchKey cat p)).bind BufferEntry.statement = some p := by
  obtain ⟨-, rfl⟩ := h.normal_of_forks hf hp
  rw [branchKey, h.table.dummies _ hf p hp]
  rfl

theorem branchKey_inj {b' : Name} (hf : 2 ≤ (readers cat P b).length) (hp : p ∈ readers cat P b)
    (hf' : 2 ≤ (readers cat P b').length) (hq : q ∈ readers cat P b')
    (he : branchKey cat p = branchKey cat q) :
    p = q := by
  have hd := h.dummy_statement hf hp
  rw [he, h.dummy_statement hf' hq, Option.some.injEq] at hd
  exact hd.symm

theorem ownDummy_eq (hf : 2 ≤ (readers cat P b).length) (hp : p ∈ readers cat P b) :
    ownDummy cat t p b = some (branchKey cat p) := by
  have hnamed : ∀ k ∈ dummiesOf t b, ∃ c ∈ readers cat P b, k = branchKey cat c ∧
      (((t.lookup k).bind BufferEntry.statement).map fun c => (cat c).name) = some (cat c).name := by
    intro k hk
    obtain ⟨-, c, hc, rfl⟩ := h.mem_dummiesOf.mp hk
    exact ⟨c, hc, rfl, by rw [h.dummy_statement hf hc]; rfl⟩
  have hall : ((dummiesOf t b).all fun k =>
      (((t.lookup k).bind BufferEntry.statement).map fun c => (cat c).name).isSome) = true := by
    rw [List.all_eq_true]
    intro k hk
    obtain ⟨c, -, -, hname⟩ := hnamed k hk
    rw [hname]
    rfl
  rw [ownDummy, if_pos hall]
  have hmem : branchKey cat p ∈ (dummiesOf t b).reverse :=
    List.mem_reverse.mpr (h.mem_dummiesOf.mpr ⟨hf, p, hp, rfl⟩)
  have hpname : (((t.lookup (branchKey cat p)).bind BufferEntry.statement).map
      fun c => (cat c).name) = some (cat p).name := by
    rw [h.dummy_statement hf hp]
    rfl
  cases hfind : (dummiesOf t b).reverse.find? fun k =>
      (((t.lookup k).bind BufferEntry.statement).map fun c => (cat c).name)
        = some (cat p).name with
  | none => exact absurd hpname (by simpa using List.find?_eq_none.mp hfind _ hmem)
  | some k =>
    obtain ⟨c, hc, rfl, hname⟩ := hnamed k (List.mem_reverse.mp (List.mem_of_find?_eq_some hfind))
    have hcp : (cat c).name = (cat p).name := by
      have := List.find?_some hfind
      rw [hname] at this
      simpa using this
    rw [h.nameInj c (mem_readers.mp hc).1 p (mem_readers.mp hp).1 hcp]

end OpGraph

theorem opGraph_of_run {d : Driver} (run : GraphRun cat (MayAdd cat) (MayDrop cat) d)
    (htypes : ∀ p ∈ d.stmts,
      (cat p).type = .normal ∨ (cat p).type = .tUnion ∨ (cat p).type = .tlUnion)
    (hapart : ∀ p ∈ d.stmts, (cat p).type ≠ .normal → ∀ b ∈ (cat p).inputs,
      readers cat d.stmts b = [p]) :
    OpGraph cat d.stmts d.bufStateTable := by
  obtain ⟨G, h⟩ := run.reached
  exact
    { table := tableOf h.canon h.whole h.names.outInj
      nodup := h.whole.nodup
      types := htypes
      nameInj := h.nameInj
      outInj := h.names.outInj
      apart := hapart }

def Fills (cat : Catalog) (P : List StmtId) (a b : Name) : Prop :=
  ∃ p ∈ P, a ∈ (cat p).inputs ∧ (cat p).out = b

def sumCat : Catalog
  | 0 => ⟨['s'], .normal, true, ['a'], ['x'], [], [], []⟩
  | 1 => ⟨['p'], .normal, true, ['x'], ['v'], [], [], []⟩
  | _ => ⟨['q'], .normal, true, ['x'], ['w'], [], [], []⟩

def sumDriver : Driver := [0, 1, 2].foldl (fun d s => added sumCat s d) Driver.new

theorem sumGraph : OpGraph sumCat sumDriver.stmts sumDriver.bufStateTable := by
  have hmay : ∀ s ∈ [0, 1, 2], MayAdd sumCat (List.range s) s := by
    intro s hs
    simp only [List.mem_cons, List.not_mem_nil, or_false] at hs
    rcases hs with rfl | rfl | rfl <;>
      exact ⟨by decide, ⟨by decide, by decide, by decide, by decide⟩, by decide⟩
  have run : GraphRun sumCat (MayAdd sumCat) (MayDrop sumCat) sumDriver :=
    .add (.add (.add .new
      (hmay 0 (by decide)) rfl) (hmay 1 (by decide)) rfl) (hmay 2 (by decide)) rfl
  exact opGraph_of_run run (by decide) (by decide)

theorem sumGraph_acyclic : Lib.Acyclic (Fills sumCat sumDriver.stmts) := by
  let lev : Name → Nat := fun b => if b = ['a'] then 2 else if b = ['x'] then 1 else 0
  refine .of_level lev ?_
  rintro a b ⟨p, hp, hin, rfl⟩
  have hall : ∀ p ∈ sumDriver.stmts, ∀ a ∈ (sumCat p).inputs, lev (sumCat p).out < lev a := by
    decide
  exact hall p hp a hin

section Steps

variable {τ ω : Type} (code : Code cat τ ω)

/-- What happens to the buffers, one thing at a time; tuples may come in to the buffers `A`. -/
inductive Step (cat : Catalog) (P : List StmtId) (t : BufStateTbl) (code : Code cat τ ω)
    (A : Name → Prop) : OpSt τ ω → OpSt τ ω → Prop
  | arrive (σ : OpSt τ ω) (b : Name) (ds : List τ) (may : A b) :
      Step cat P t code A σ (σ.put b ds)
  | quota (σ : OpSt τ ω) (n : Int) : Step cat P t code A σ { σ with nTuples := n }
  | clean (σ : OpSt τ ω) (b : Name) (branches : Branches cat P b)
      (through : ∀ k ∈ dummiesOf t b, σ.processed k) :
      Step cat P t code A σ ((σ.unmark (dummiesOf t b)).pop b)
  | exe (σ : OpSt τ ω) (s : StmtId) (b : Name) (d : τ) (rest : List τ) (mem : s ∈ P)
      (reads : b ∈ (cat s).inputs) (plain : ¬ Branches cat P b) (front : σ.store b = d :: rest) :
      Step cat P t code A σ
        ((σ.exec s b d (cat s).out (code.exe s b σ.world d)).pop b)
  | branch (σ : OpSt τ ω) (s : StmtId) (d : τ) (rest : List τ) (mem : s ∈ readers cat P (cat s).inb)
      (branches : Branches cat P (cat s).inb) (open' : σ.processed (branchKey cat s) = false)
      (front : σ.store (cat s).inb = d :: rest) :
      Step cat P t code A σ
        ((σ.exec s (cat s).inb d (cat s).out (code.exe s (cat s).inb σ.world d)).mark
          (branchKey cat s))

abbrev Steps (cat : Catalog) (P : List StmtId) (t : BufStateTbl) (code : Code cat τ ω)
    (A : Name → Prop) : OpSt τ ω → OpSt τ ω → Prop := Relation.ReflTransGen (Step cat P t code A)

def VisitEnd.state : VisitEnd τ ω → OpSt τ ω
  | .next _ _ σ => σ
  | .leave _ σ => σ
  | .return σ => σ

variable {code} {A : Name → Prop} {rk : Ranks} {v : Visit τ} {first : Bool} {σ σ' : OpSt τ ω}

@[simp] theorem idle_state : (idle v first σ).state = σ := by
  unfold idle
  split <;> rfl

@[simp] theorem afterExe_state (s : StmtId) (rc : ExeRc) : (afterExe rk s rc σ).state = σ := by
  unfold afterExe
  split <;> rfl

theorem spend_steps (σ : OpSt τ ω) : Steps cat P t code A σ σ.spend :=
  .single (.quota σ (σ.nTuples - 1))

theorem arrive_steps {as : List (Name × List τ)} (hmay : ∀ a ∈ as, A a.1) :
    Steps cat P t code A σ (σ.arrive as) := by
  induction as generalizing σ with
  | nil => exact .refl
  | cons a as ih =>
    refine .head (.arrive σ a.1 a.2 (hmay a List.mem_cons_self)) ?_
    exact ih fun a' ha' => hmay a' (List.mem_cons_of_mem a ha')

theorem exeAt_cons {s : StmtId} {d : τ} {rest : List τ} (hfront : σ.store b = d :: rest) :
    exeAt cat code s b σ =
      (some (code.exe s b σ.world d).2.1, σ.exec s b d (cat s).out (code.exe s b σ.world d)) := by
  simp [exeAt, hfront]

theorem cleanFork_steps {e : BufferEntry} (hb : Branches cat P b) :
    Steps cat P t code A σ (cleanFork t e b σ) := by
  unfold cleanFork
  by_cases hall : (dummiesOf t b).all σ.processed
  · simp only [if_pos hall]
    have hclean : Steps cat P t code A σ ((σ.unmark (dummiesOf t b)).pop b) :=
      .single (.clean σ b hb (List.all_eq_true.mp hall))
    split
    · exact hclean.trans (spend_steps _)
    · exact hclean
  · simp only [if_neg hall]
    exact .refl

theorem visitFork_steps (hp : p ∈ readers cat P (cat p).inb) (hb : Branches cat P (cat p).inb)
    (e : BufferEntry) :
    Steps cat P t code A σ (visitFork cat t code rk v first e p (branchKey cat p) σ).state := by
  refine (cleanFork_steps (e := e) hb).trans ?_
  unfold visitFork
  generalize cleanFork t e (cat p).inb σ = σ₁
  dsimp only
  split
  · rw [idle_state]
  · next hopen =>
    rw [not_or, Bool.not_eq_true] at hopen
    obtain ⟨d, rest, hfront⟩ := List.exists_cons_of_ne_nil hopen.2
    rw [exeAt_cons hfront, afterExe_state]
    exact .single (.branch σ₁ p d rest hp hb hopen.1 hfront)

theorem visitPlain_steps (hp : p ∈ P) (hb : (cat p).inb ∈ (cat p).inputs)
    (hplain : ¬ Branches cat P (cat p).inb) (e : BufferEntry) :
    Steps cat P t code A σ (visitPlain cat code rk v first e p σ).state := by
  unfold visitPlain
  split
  · rw [idle_state]
  · next hne =>
    obtain ⟨d, rest, hfront⟩ := List.exists_cons_of_ne_nil hne
    rw [exeAt_cons hfront]
    rw [afterExe_state]
    have hexe : Steps cat P t code A σ _ :=
      .single (.exe σ p (cat p).inb d rest hp hb hplain hfront)
    split
    · exact hexe.trans (spend_steps _)
    · exact hexe

theorem visitUnion_steps (h : OpGraph cat P t) (hp : p ∈ P)
    (hty : (cat p).type = .tUnion ∨ (cat p).type = .tlUnion) :
    ∃ r, visitUnion cat t code rk first p σ = some r ∧ Steps cat P t code A σ r.state := by
  unfold visitUnion
  cases hpick : code.pick p σ.world σ.store with
  | none => exact ⟨_, rfl, .refl⟩
  | some b =>
    obtain ⟨hmem, hne⟩ := code.picks p σ.world σ.store b hpick
    obtain ⟨d, rest, hfront⟩ := List.exists_cons_of_ne_nil hne
    have hin := (mem_inputs_union hty).mpr hmem
    have hplain : ¬ Branches cat P b := by
      have hnormal : (cat p).type ≠ .normal := by rcases hty with hty | hty <;> rw [hty] <;> decide
      rw [Branches, h.apart p hp hnormal b hin]
      simp
    obtain ⟨e, he, -⟩ := h.entry hp hin
    dsimp only
    rw [exeAt_cons hfront]
    have hexe : Steps cat P t code A σ _ := .single (.exe σ p b d rest hp hin hplain hfront)
    refine ⟨_, by rw [tyAt, he]; rfl, ?_⟩
    rw [afterExe_state]
    split
    · exact hexe.trans (spend_steps _)
    · exact hexe

theorem visit_steps (h : OpGraph cat P t) (hp : v.stmt ∈ P) :
    ∃ r, visit cat t code rk v first σ = some r ∧ Steps cat P t code A σ r.state := by
  unfold visit
  by_cases hty : (cat v.stmt).type = .normal
  · have hin : (cat v.stmt).inb ∈ (cat v.stmt).inputs := by rw [inputs_normal hty]; simp
    obtain ⟨e, he, hentry⟩ := h.entry hp hin
    rw [hty, he]
    dsimp only
    split
    · exact ⟨_, rfl, .refl⟩
    · by_cases hb : e.bType = .fork ∨ e.bType = .sourceFork
      · have hbr := (bType_branches hentry).mp hb
        have hread := mem_readers.mpr ⟨hp, hin⟩
        rw [if_pos hb, h.ownDummy_eq hbr.1 hread]
        exact ⟨_, rfl, visitFork_steps hread hbr e⟩
      · rw [if_neg hb]
        exact ⟨_, rfl, visitPlain_steps hp hin (mt (bType_branches hentry).mpr hb) e⟩
  · rcases h.union_of_ne hp hty with hty | hty
    · rw [hty]
      exact visitUnion_steps h hp (.inl hty)
    · rw [hty]
      exact visitUnion_steps h hp (.inr hty)

/-- The visits are to statements of the graph, and tuples come in to the buffers `A` only. -/
def Fits (P : List StmtId) (A : Name → Prop) (rk : Ranks) (vs : List (Visit τ)) : Prop :=
  ∀ v ∈ vs, (rk.inUse v.stmt → v.stmt ∈ P) ∧ ∀ a ∈ v.arrivals, A a.1

theorem runNextUnit_steps (h : OpGraph cat P t) {vs : List (Visit τ)} (hvs : Fits P A rk vs)
    (rc : Option SRc) :
    ∃ r, runNextUnit cat t code rk vs first rc σ = some r ∧ Steps cat P t code A σ r.2 := by
  induction vs generalizing first rc σ with
  | nil => exact ⟨_, rfl, .refl⟩
  | cons v vs ih =>
    obtain ⟨huse, hmay⟩ := hvs v List.mem_cons_self
    have hrest := fun first rc σ => @ih first σ (fun v' hv' => hvs v' (List.mem_cons_of_mem v hv')) rc
    have harrive : Steps cat P t code A σ (σ.arrive v.arrivals) := arrive_steps hmay
    have hgo : ∀ {first rc} {σ₁ : OpSt τ ω}, Steps cat P t code A (σ.arrive v.arrivals) σ₁ →
        ∃ r, runNextUnit cat t code rk vs first rc σ₁ = some r ∧ Steps cat P t code A σ r.2 := by
      intro first rc σ₁ hs
      obtain ⟨r, hr, hsteps⟩ := hrest first rc σ₁
      exact ⟨r, hr, (harrive.trans hs).trans hsteps⟩
    rw [runNextUnit]
    split
    · exact ⟨_, rfl, harrive⟩
    split
    · exact ⟨_, rfl, harrive⟩
    next hin =>
    rw [not_not] at hin
    split
    · exact hgo .refl
    split
    · exact ⟨_, rfl, harrive⟩
    split
    · exact hgo .refl
    obtain ⟨r, hr, hsteps⟩ := visit_steps
      h (huse hin)
    rw [hr]
    cases r with
    | next first rc σ₁ => exact hgo hsteps
    | leave rc σ₁ => exact ⟨_, rfl, harrive.trans hsteps⟩
    | «return» σ₁ => exact ⟨_, rfl, harrive.trans hsteps⟩

end Steps

end StreamMill.Esl.OperatorPriority
