import Mathlib.Data.Nat.WithBot
import StreamMill.Esl.Driver

/-!
# StreamMill.Esl.AddAtomic

A call of `addStmt` that returns `FAILURE`. The inputs are handled one by one. An input that is in
the table is taken only if the output may be used ("before make any modifications here", says the
source); a new one becomes a source before anything is checked, and a window of a join may be
refused after other inputs were taken. The call changes nothing exactly if no input is taken before
a refusal (`addStmt_atomic_iff`).
-/

namespace StreamMill.Esl

/-- What `addStmt` asks of the entries: their types, and what comes after them. -/
abbrev View := Name → Option (BufferTy × Fw)

def viewOf (t : BufStateTbl) : View := fun b => (t.lookup b).map fun e => (e.bType, e.forward)

def BufferTy.isSingle (ty : BufferTy) : Prop := ty = .source ∨ ty = .normal ∨ ty = .merge

def BufferTy.toFork : BufferTy → BufferTy
  | .source => .sourceFork
  | .normal => .fork
  | .merge => .mergeFork
  | ty => ty

def dummyView (out : Name) : BufferTy × Fw := (.forkDummy, .forwardBuf (some out))

namespace View

/-- The output is not in the table, or nothing produces it yet. -/
def Usable (v : View) (out : Name) : Prop :=
  ∀ ty fw, v out = some (ty, fw) → ty = .source ∨ ty = .sourceFork

/-- The input `b` is in the table and cannot be taken. -/
def Refused (v : View) (c : Stmt) (b : Name) : Prop :=
  ∃ ty fw, v b = some (ty, fw) ∧
    (¬ v.Usable c.out ∨ ty = .forkDummy ∨ ty = .none ∨
      ty.isSingle ∧ c.type = .join ∧ b ≠ c.inb)

/-- `b` becomes a fork, and what came after it comes after a dummy. -/
def fork (out b f : Name) (ty : BufferTy) (v : View) : Option View :=
  let v := Function.update (Function.update v b (some (ty.toFork, .forkCount 2))) (b ++ f)
    (some (dummyView f))
  if (v f).isSome then some (Function.update v (b ++ out) (some (dummyView out))) else none

/-- A statement with the output `out` takes the input `b`; `none` if a null pointer is followed,
and for what is no entry of a buffer. -/
def take (out b : Name) (v : View) : Option View :=
  match v b with
  | none => some (Function.update v b (some (.source, .forwardBuf (some out))))
  | some (ty, fw) =>
    match ty with
    | .source | .normal | .merge =>
      match fw with
      | .forwardBuf (some f) => v.fork out b f ty
      | _ => none
    | .fork | .sourceFork | .mergeFork =>
      match fw with
      | .forkCount n =>
        some (Function.update (Function.update v b (some (ty, .forkCount (n + 1)))) (b ++ out)
          (some (dummyView out)))
      | .forwardBuf _ => none
    | .sink => some (Function.update v b (some (.normal, .forwardBuf (some out))))
    | .mergeSink => some (Function.update v b (some (.merge, .forwardBuf (some out))))
    | _ => none

/-- One of these inputs is refused once those before it are taken, or the output is, once all
are. -/
def RefusedIn (c : Stmt) : List Name → View → Prop
  | [], v => ¬ v.Usable c.out
  | b :: bs, v => v.Refused c b ∨ ∃ v', v.take c.out b = some v' ∧ RefusedIn c bs v'

end View

/-- The first input is taken, and a later one or the output is refused. -/
def LateRefusal (cat : Catalog) (s : StmtId) (d : Driver) : Prop :=
  (cat s).valid = true ∧ d.stmts ≠ [] ∧ ∃ b bs v', (cat s).inBufs = some (b :: bs) ∧
    ¬ (viewOf d.bufStateTable).Refused (cat s) b ∧
    (viewOf d.bufStateTable).take (cat s).out b = some v' ∧ v'.RefusedIn (cat s) bs

/-- The same table, whatever its order, and the same lists. -/
structure Unchanged (d d' : Driver) : Prop where
  table : ∀ b, d'.bufStateTable.lookup b = d.bufStateTable.lookup b
  bufs : d'.bufs = d.bufs
  stmts : d'.stmts = d.stmts

section Steps

variable {t : BufStateTbl}

theorem viewOf_insert (t : BufStateTbl) (b : Name) (e : BufferEntry) :
    viewOf (t.insert b e) = Function.update (viewOf t) b (some (e.bType, e.forward)) := by
  funext b'
  by_cases h : b' = b
  · subst h
    rw [Function.update_self, viewOf, AList.lookup_insert]
    rfl
  · rw [Function.update_of_ne h, viewOf, AList.lookup_insert_ne h]
    rfl

variable {e : BufferEntry}

theorem viewOf_lookup {b : Name} (h : t.lookup b = some e) :
    viewOf t b = some (e.bType, e.forward) := by simp [viewOf, h]

theorem outUsable_view (t : BufStateTbl) (out : Name) :
    outUsable t out = true ↔ (viewOf t).Usable out := by
  unfold outUsable View.Usable viewOf
  cases t.lookup out with
  | none => simp
  | some e => simp

theorem toFork_bType (e : BufferEntry) : e.toFork.bType = e.bType.toFork := by
  unfold BufferEntry.toFork BufferTy.toFork
  split <;> simp [*]

theorem toFork_forward (e : BufferEntry) : e.toFork.forward = .forkCount 2 := by
  unfold BufferEntry.toFork
  split <;> rfl

theorem viewOf_back {f : Name} {g : BufferEntry} (h : t.lookup f = some g) (bk : Bk) :
    viewOf (if isMergeTy g.bType then t else t.insert f { g with back := bk }) = viewOf t := by
  split
  · rfl
  · rw [viewOf_insert]
    exact Function.update_eq_self_iff.mpr (viewOf_lookup h).symm

theorem makeFork_view (s : StmtId) (out b f : Name) (hf : e.forward = .forwardBuf (some f)) :
    (makeFork s out t b e).map viewOf = (viewOf t).fork out b f e.bType := by
  have hview : viewOf ((t.insert b e.toFork).insert (b ++ f) (dummyEntry e.statement b f)) =
      Function.update (Function.update (viewOf t) b (some (e.bType.toFork, .forkCount 2))) (b ++ f)
        (some (dummyView f)) := by
    rw [viewOf_insert, viewOf_insert, toFork_bType, toFork_forward]
    rfl
  simp only [makeFork, hf, View.fork, ← hview]
  cases hg : ((t.insert b e.toFork).insert (b ++ f) (dummyEntry e.statement b f)).lookup f with
  | none => simp [viewOf, hg]
  | some g =>
    rw [if_pos (by simp [viewOf, hg])]
    simp only [Option.map_some, viewOf_insert _ (b ++ out), viewOf_back hg]
    rfl

variable {cat : Catalog} {s : StmtId} {a : AddLoop} {b : Name}

theorem refused_iff {v : View} {c : Stmt} {ty : BufferTy} {fw : Fw} (h : v b = some (ty, fw)) :
    v.Refused c b ↔ ¬ v.Usable c.out ∨ ty = .forkDummy ∨ ty = .none ∨
      ty.isSingle ∧ c.type = .join ∧ b ≠ c.inb := by
  constructor
  · rintro ⟨ty', fw', h', hr⟩
    obtain ⟨rfl, rfl⟩ : ty = ty' ∧ fw = fw' := by simpa using h.symm.trans h'
    exact hr
  · exact fun hr => ⟨ty, fw, h, hr⟩

structure InputStep (cat : Catalog) (s : StmtId) (a : AddLoop) (b : Name) : Prop where
  refused : (viewOf a.drv.bufStateTable).Refused (cat s) b →
    addInput cat s a b = .error (.failure a.drv)
  taken : ¬ (viewOf a.drv.bufStateTable).Refused (cat s) b →
    (viewOf a.drv.bufStateTable).take (cat s).out b = none ∧ addInput cat s a b = .error .crash ∨
      ∃ a', addInput cat s a b = .ok a' ∧ (viewOf a.drv.bufStateTable).take (cat s).out b =
        some (viewOf a'.drv.bufStateTable)

theorem addInput_absent (h : a.drv.bufStateTable.lookup b = none) : InputStep cat s a b := by
  have hv : viewOf a.drv.bufStateTable b = none := by simp [viewOf, h]
  refine ⟨?_, fun _ => .inr ⟨_, by rw [addInput, h], ?_⟩⟩
  · rintro ⟨ty, fw, h', -⟩
    rw [hv] at h'
    cases h'
  · simp only [View.take, hv, Driver.pushBuf, Driver.set, viewOf_insert]
    rfl

section

variable (h : a.drv.bufStateTable.lookup b = some e)
  (hu : outUsable a.drv.bufStateTable (cat s).out = true)
include h hu

theorem addInput_single (hty : e.bType.isSingle) :
    InputStep cat s a b := by
  have hv := viewOf_lookup h
  have htake : (viewOf a.drv.bufStateTable).take (cat s).out b =
      (makeFork s (cat s).out a.drv.bufStateTable b e).map viewOf := by
    match hf : e.forward with
    | .forwardBuf (some f) =>
      rw [makeFork_view s _ _ f hf]
      rcases hty with hty | hty | hty <;> simp [View.take, hv, hf, hty]
    | .forwardBuf none | .forkCount n =>
      rcases hty with hty | hty | hty <;> simp [View.take, hv, hf, hty, makeFork]
  have hiff : (viewOf a.drv.bufStateTable).Refused (cat s) b ↔
      (cat s).type = .join ∧ b ≠ (cat s).inb := by
    have hd : e.bType ≠ .forkDummy ∧ e.bType ≠ .none := by
      rcases hty with hty | hty | hty <;> simp [hty]
    simp [refused_iff hv, (outUsable_view _ _).mp hu, hd, hty]
  refine ⟨fun hr => ?_, fun hr => ?_⟩
  · rcases hty with hty | hty | hty <;> simp [addInput, h, hu, hty, hiff.mp hr]
  · rw [hiff] at hr
    rw [htake]
    cases hm : makeFork s (cat s).out a.drv.bufStateTable b e with
    | none =>
      rcases hty with hty | hty | hty <;> simp [addInput, h, hu, hty, hr, hm]
    | some t =>
      rcases hty with hty | hty | hty <;> simp [addInput, h, hu, hty, hr, hm]

theorem addInput_forked (hty : e.bType = .fork ∨ e.bType = .sourceFork ∨ e.bType = .mergeFork) :
    InputStep cat s a b := by
  have hv := viewOf_lookup h
  have hnot : ¬ (viewOf a.drv.bufStateTable).Refused (cat s) b := by
    rw [refused_iff hv]
    rcases hty with hty | hty | hty <;>
      simp [(outUsable_view _ _).mp hu, hty, BufferTy.isSingle]
  refine ⟨fun hr => absurd hr hnot, fun _ => ?_⟩
  match hf : e.forward with
  | .forkCount n =>
    obtain ⟨t, ht, hview⟩ : ∃ t, growFork s (cat s).out a.drv.bufStateTable b e = some t ∧
        (viewOf a.drv.bufStateTable).take (cat s).out b = some (viewOf t) := by
      refine ⟨_, by rw [growFork, hf], ?_⟩
      rw [viewOf_insert, viewOf_insert]
      rcases hty with hty | hty | hty <;> simp [View.take, hv, hf, hty, dummyView, dummyEntry]
    refine .inr ⟨⟨{ a.drv with bufStateTable := t }, e.bType, some (b ++ (cat s).out)⟩, ?_, hview⟩
    rcases hty with hty | hty | hty <;> simp [addInput, h, hu, hty, ht]
  | .forwardBuf f =>
    refine .inl ⟨?_, ?_⟩
    · rcases hty with hty | hty | hty <;> simp [View.take, hv, hf, hty]
    · rcases hty with hty | hty | hty <;> simp [addInput, h, hu, hty, growFork, hf]

theorem addInput_unread (hty : e.bType = .sink ∨ e.bType = .mergeSink) : InputStep cat s a b := by
  have hv := viewOf_lookup h
  have hnot : ¬ (viewOf a.drv.bufStateTable).Refused (cat s) b := by
    rw [refused_iff hv]
    rcases hty with hty | hty <;> simp [(outUsable_view _ _).mp hu, hty, BufferTy.isSingle]
  refine ⟨fun hr => absurd hr hnot, fun _ => .inr ⟨⟨a.drv.set b (e.toRead s (cat s).out b),
    (e.toRead s (cat s).out b).bType, a.dummyName⟩, ?_, ?_⟩⟩
  · rcases hty with hty | hty <;> simp [addInput, h, hu, hty]
  · simp only [Driver.set, viewOf_insert]
    rcases hty with hty | hty <;> simp [View.take, hv, hty, BufferEntry.toRead]

end

/-- One round of the loop: the input is refused and nothing changes, or it is taken. -/
theorem addInput_view (cat : Catalog) (s : StmtId) (a : AddLoop) (b : Name) :
    InputStep cat s a b := by
  cases h : a.drv.bufStateTable.lookup b with
  | none => exact addInput_absent h
  | some e =>
    have hv := viewOf_lookup h
    by_cases hu : outUsable a.drv.bufStateTable (cat s).out = true
    · cases hty : e.bType with
      | source => exact addInput_single h hu (.inl hty)
      | normal => exact addInput_single h hu (.inr (.inl hty))
      | merge => exact addInput_single h hu (.inr (.inr hty))
      | fork => exact addInput_forked h hu (.inl hty)
      | sourceFork => exact addInput_forked h hu (.inr (.inl hty))
      | mergeFork => exact addInput_forked h hu (.inr (.inr hty))
      | sink => exact addInput_unread h hu (.inl hty)
      | mergeSink => exact addInput_unread h hu (.inr hty)
      | forkDummy | none =>
        refine ⟨fun _ => by simp [addInput, h, hu, hty], absurd ?_⟩
        rw [refused_iff hv]
        simp [hty]
    · refine ⟨fun _ => by simp [addInput, h, hu], absurd ?_⟩
      rw [refused_iff hv]
      exact .inl (mt (outUsable_view _ _).mpr hu)

theorem addOut_view (cat : Catalog) (s : StmtId) (a : AddLoop) :
    (¬ (viewOf a.drv.bufStateTable).Usable (cat s).out →
        addOut cat s a = .error (.failure a.drv)) ∧
      ((viewOf a.drv.bufStateTable).Usable (cat s).out → ∃ d, addOut cat s a = .ok d) := by
  rw [← outUsable_view]
  cases hl : a.drv.bufStateTable.lookup (cat s).out with
  | none => cases hty : (cat s).type <;> simp [outUsable, addOut, hl, hty]
  | some e =>
    cases hty : (cat s).type <;> cases he : e.bType <;> simp [outUsable, addOut, hl, hty, he]

end Steps

inductive Taken (out b : Name) (v : View) : View → Prop
  | absent : v b = none →
      Taken out b v (Function.update v b (some (.source, .forwardBuf (some out))))
  | single {ty : BufferTy} {f : Name} : ty.isSingle → v b = some (ty, .forwardBuf (some f)) →
      Taken out b v (Function.update (Function.update (Function.update v b
        (some (ty.toFork, .forkCount 2))) (b ++ f) (some (dummyView f))) (b ++ out)
          (some (dummyView out)))
  | fork {ty : BufferTy} {n : Nat} : isForkTy ty = true → v b = some (ty, .forkCount n) →
      Taken out b v (Function.update (Function.update v b (some (ty, .forkCount (n + 1))))
        (b ++ out) (some (dummyView out)))
  | unread {ty ty' : BufferTy} {fw : Fw} :
      ty = .sink ∧ ty' = .normal ∨ ty = .mergeSink ∧ ty' = .merge → v b = some (ty, fw) →
      Taken out b v (Function.update v b (some (ty', .forwardBuf (some out))))

variable {b out : Name} {v : View}

theorem take_taken {v' : View} (h : v.take out b = some v') :
    Taken out b v v' := by
  cases hv : v b with
  | none =>
    simp only [View.take, hv, Option.some.injEq] at h
    exact h ▸ .absent hv
  | some x =>
    obtain ⟨ty, fw⟩ := x
    have hsingle : ∀ f, ty.isSingle → fw = .forwardBuf (some f) → v.fork out b f ty = some v' →
        Taken out b v v' := by
      rintro f hty rfl hfork
      simp only [View.fork] at hfork
      split at hfork
      · exact Option.some.inj hfork ▸ .single hty hv
      · cases hfork
    cases ty with
    | source | normal | merge =>
      match fw with
      | .forwardBuf (some f) =>
        exact hsingle f (by simp [BufferTy.isSingle]) rfl (by simpa [View.take, hv] using h)
      | .forwardBuf none | .forkCount n => simp [View.take, hv] at h
    | fork | sourceFork | mergeFork =>
      match fw with
      | .forkCount n =>
        simp only [View.take, hv, Option.some.injEq] at h
        exact h ▸ .fork (by simp [isForkTy]) hv
      | .forwardBuf f => simp [View.take, hv] at h
    | sink | mergeSink =>
      simp only [View.take, hv, Option.some.injEq] at h
      exact h ▸ .unread (by simp) hv
    | forkDummy | none => simp [View.take, hv] at h

/-- The place of an entry in the order of what `addStmt` makes of it: a buffer is new, unread,
read once, or a fork with a number of readers; a dummy stays one. -/
def rankOf : Option (BufferTy × Fw) → WithTop Nat
  | none => 0
  | some (.sink, _) | some (.mergeSink, _) => 1
  | some (.source, _) | some (.normal, _) | some (.merge, _) => 2
  | some (.fork, fw) | some (.sourceFork, fw) | some (.mergeFork, fw) =>
    match fw with
    | .forkCount n => ((n + 3 : Nat) : WithTop Nat)
    | .forwardBuf _ => 3
  | some (.forkDummy, _) | some (.none, _) => ⊤

theorem rank_update {x : Option (BufferTy × Fw)} (h : rankOf (v b) ≤ rankOf x) (b' : Name) :
    rankOf (v b') ≤ rankOf (Function.update v b x b') := by
  by_cases hb : b' = b
  · subst hb
    rwa [Function.update_self]
  · rw [Function.update_of_ne hb]

theorem rank_dummy (b' : Name) :
    rankOf (v b') ≤ rankOf (Function.update v b (some (dummyView out)) b') :=
  rank_update le_top b'

theorem Taken.rank {v' : View} (h : Taken out b v v') :
    (∀ b', rankOf (v b') ≤ rankOf (v' b')) ∧ rankOf (v b) < rankOf (v' b) := by
  have hset : ∀ x, rankOf (v b) < rankOf x →
      (∀ b', rankOf (v b') ≤ rankOf (Function.update v b x b')) ∧
        rankOf (v b) < rankOf (Function.update v b x b) :=
    fun x hx => ⟨rank_update hx.le, by rwa [Function.update_self]⟩
  cases h with
  | absent hv =>
    refine hset _ ?_
    rw [hv]
    exact (by decide : (0 : WithTop Nat) < 2)
  | @single ty f hty hv =>
    obtain ⟨hle, hlt⟩ := hset (some (ty.toFork, .forkCount 2)) (by
      rw [hv]
      have : (2 : WithTop Nat) < ((2 + 3 : Nat) : WithTop Nat) := by decide
      rcases hty with rfl | rfl | rfl <;> exact this)
    exact ⟨fun b' => ((hle b').trans (rank_dummy b')).trans (rank_dummy b'),
      (hlt.trans_le (rank_dummy b)).trans_le (rank_dummy b)⟩
  | @fork ty n hty hv =>
    obtain ⟨hle, hlt⟩ := hset (some (ty, .forkCount (n + 1))) (by
      rw [hv]
      have : ((n + 3 : Nat) : WithTop Nat) < ((n + 1 + 3 : Nat) : WithTop Nat) :=
        WithTop.coe_lt_coe.mpr (show n + 3 < n + 1 + 3 by omega)
      have hfork : ty = .fork ∨ ty = .sourceFork ∨ ty = .mergeFork := by
        simpa [isForkTy] using hty
      rcases hfork with rfl | rfl | rfl <;> exact this)
    exact ⟨fun b' => (hle b').trans (rank_dummy b'), hlt.trans_le (rank_dummy b)⟩
  | unread hty hv =>
    refine hset _ ?_
    rw [hv]
    have : (1 : WithTop Nat) < 2 := by decide
    rcases hty with ⟨rfl, rfl⟩ | ⟨rfl, rfl⟩ <;> exact this

section Call

variable {cat : Catalog} {s : StmtId} {a : AddLoop}

/-- `addStmt` from one of the inputs on. -/
def addRest (cat : Catalog) (s : StmtId) (bs : List Name) (a : AddLoop) :
    Except (Stop Driver) Driver :=
  match addInputs cat s bs a with
  | .error x => .error x
  | .ok a' =>
    match addOut cat s a' with
    | .error x => .error x
    | .ok d => .ok (d.pushStmt s)

theorem addRest_cons {b : Name} (bs : List Name) {a' : AddLoop}
    (h : addInput cat s a b = .ok a') : addRest cat s (b :: bs) a = addRest cat s bs a' := by
  simp [addRest, addInputs, h]

theorem addRest_error {b : Name} (bs : List Name) {x : Stop Driver}
    (h : addInput cat s a b = .error x) : addRest cat s (b :: bs) a = .error x := by
  simp [addRest, addInputs, h]

variable {bs : List Name} {d : Driver}

/-- A refusal ends the call with `FAILURE`, and no entry has gone back. -/
theorem addRest_refused (h : (viewOf a.drv.bufStateTable).RefusedIn (cat s) bs) :
    ∃ d, addRest cat s bs a = .error (.failure d) ∧
      ∀ b, rankOf (viewOf a.drv.bufStateTable b) ≤ rankOf (viewOf d.bufStateTable b) := by
  induction bs generalizing a with
  | nil => exact ⟨a.drv, by simp [addRest, addInputs, (addOut_view cat s a).1 h], fun _ => le_rfl⟩
  | cons b bs ih =>
    have hstep := addInput_view cat s a b
    by_cases hr : (viewOf a.drv.bufStateTable).Refused (cat s) b
    · exact ⟨a.drv, addRest_error bs (hstep.refused hr), fun _ => le_rfl⟩
    · obtain ⟨v', htake, hrest⟩ := h.resolve_left hr
      rcases hstep.taken hr with ⟨hnone, -⟩ | ⟨a', hok, hview⟩
      · rw [hnone] at htake
        cases htake
      · obtain rfl := Option.some.inj (htake.symm.trans hview)
        obtain ⟨d, hd, hle⟩ := ih hrest
        refine ⟨d, by rw [addRest_cons bs hok, hd], fun b' => ?_⟩
        exact ((take_taken htake).rank.1 b').trans (hle b')

theorem addRest_taken (h : ¬ (viewOf a.drv.bufStateTable).RefusedIn (cat s) bs) (d : Driver) :
    addRest cat s bs a ≠ .error (.failure d) := by
  induction bs generalizing a with
  | nil =>
    obtain ⟨d', hd'⟩ := (addOut_view cat s a).2 (not_not.mp h)
    simp [addRest, addInputs, hd']
  | cons b bs ih =>
    rw [View.RefusedIn, not_or] at h
    obtain ⟨hr, hrest⟩ := h
    rcases (addInput_view cat s a b).taken hr with ⟨-, hcrash⟩ | ⟨a', hok, hview⟩
    · rw [addRest_error bs hcrash]
      simp
    · rw [addRest_cons bs hok]
      exact ih fun h => hrest ⟨_, hview, h⟩

theorem addStmt_rest (hv : (cat s).valid = true) (hne : d.stmts ≠ [])
    (hbs : (cat s).inBufs = some bs) :
    addStmt cat s d = addRest cat s bs ⟨d, .none, none⟩ := by
  simp only [addStmt, if_pos hv, if_neg hne, hbs]
  rfl

theorem addFirst_failure {d' : Driver} (h : addFirst cat s d = .error (.failure d')) :
    d' = d := by
  simp only [addFirst] at h
  cases hty : (cat s).type <;> simp_all

theorem late_changes (h : LateRefusal cat s d) :
    ∃ d', addStmt cat s d = .error (.failure d') ∧ ¬ Unchanged d d' := by
  obtain ⟨hv, hne, b, bs, v', hbs, hr, htake, hrest⟩ := h
  rcases (addInput_view cat s ⟨d, .none, none⟩ b).taken hr with ⟨hnone, -⟩ | ⟨a', hok, hview⟩
  · rw [hnone] at htake
    cases htake
  · obtain rfl := Option.some.inj (htake.symm.trans hview)
    obtain ⟨d', hd', hle⟩ := addRest_refused hrest
    refine ⟨d', by rw [addStmt_rest hv hne hbs, addRest_cons bs hok, hd'], fun hsame => ?_⟩
    have hlt := ((take_taken htake).rank.2).trans_le (hle b)
    rw [viewOf, viewOf, hsame.table b] at hlt
    exact lt_irrefl _ hlt

theorem failure_unchanged {d' : Driver} (h : ¬ LateRefusal cat s d)
    (hadd : addStmt cat s d = .error (.failure d')) : Unchanged d d' := by
  suffices d' = d by
    subst this
    exact ⟨fun _ => rfl, rfl, rfl⟩
  by_cases hv : (cat s).valid = true
  · by_cases hne : d.stmts = []
    · rw [addStmt, if_pos hv, if_pos hne] at hadd
      exact addFirst_failure hadd
    · cases hbs : (cat s).inBufs with
      | none => simpa [addStmt, hv, hne, hbs, eq_comm] using hadd
      | some bs =>
        rw [addStmt_rest hv hne hbs] at hadd
        cases bs with
        | nil =>
          by_cases hu : (viewOf d.bufStateTable).Usable (cat s).out
          · have hnot : ¬ (viewOf d.bufStateTable).RefusedIn (cat s) [] := not_not.mpr hu
            exact absurd hadd (addRest_taken hnot d')
          · have hout := (addOut_view cat s ⟨d, .none, none⟩).1 hu
            simpa [addRest, addInputs, hout, eq_comm] using hadd
        | cons b bs =>
          have hstep := addInput_view cat s ⟨d, .none, none⟩ b
          by_cases hr : (viewOf d.bufStateTable).Refused (cat s) b
          · rw [addRest_error bs (hstep.refused hr)] at hadd
            simpa [eq_comm] using hadd
          · rcases hstep.taken hr with ⟨-, hcrash⟩ | ⟨a', hok, hview⟩
            · rw [addRest_error bs hcrash] at hadd
              cases hadd
            · rw [addRest_cons bs hok] at hadd
              exact absurd hadd (addRest_taken (fun hrest =>
                h ⟨hv, hne, b, bs, _, hbs, hr, hview, hrest⟩) d')
  · rw [addStmt, if_neg hv] at hadd
    simpa [eq_comm] using hadd

end Call

section Apart

/-- The names are apart: no input stands twice, no dummy has the name of an input or of the output;
and the entries of the inputs are whole. -/
structure Apart (c : Stmt) (v : View) (bs : List Name) : Prop where
  nodup : bs.Nodup
  dummies : ∀ b ∈ bs, b ++ c.out ∉ bs ∧ b ++ c.out ≠ c.out
  forwards : ∀ b ∈ bs, ∀ ty fw, v b = some (ty, fw) → ty.isSingle →
    ∃ f, fw = .forwardBuf (some f) ∧ (v f).isSome ∧ b ++ f ∉ bs ∧ b ++ f ≠ c.out
  counts : ∀ b ∈ bs, ∀ ty fw, v b = some (ty, fw) → isForkTy ty = true → ∃ n, fw = .forkCount n

/-- The first input is not refused as the table is, but a later one or the output is. -/
def RefusedAfterFirst (cat : Catalog) (s : StmtId) (d : Driver) : Prop :=
  (cat s).valid = true ∧ d.stmts ≠ [] ∧ ∃ b bs, (cat s).inBufs = some (b :: bs) ∧
    ¬ (viewOf d.bufStateTable).Refused (cat s) b ∧
    ((∃ b' ∈ bs, (viewOf d.bufStateTable).Refused (cat s) b') ∨
      ¬ (viewOf d.bufStateTable).Usable (cat s).out)

variable {c : Stmt} {v v' : View} {b : Name} {bs : List Name}

theorem update_isSome {f : Name} (h : (v f).isSome) (b : Name) (x : BufferTy × Fw) :
    (Function.update v b (some x) f).isSome := by
  by_cases hf : f = b
  · subst hf
    rw [Function.update_self]
    rfl
  · rwa [Function.update_of_ne hf]

theorem Apart.take_isSome (h : Apart c v (b :: bs)) (hr : ¬ v.Refused c b) :
    (v.take c.out b).isSome := by
  cases hv : v b with
  | none => simp [View.take, hv]
  | some x =>
    obtain ⟨ty, fw⟩ := x
    rw [refused_iff hv] at hr
    have hb : b ∈ b :: bs := List.mem_cons_self
    have hsingle : ty.isSingle → ∃ f, fw = .forwardBuf (some f) ∧
        (v.fork c.out b f ty).isSome := by
      intro hty
      obtain ⟨f, hf, hsome, -⟩ := h.forwards b hb ty fw hv hty
      refine ⟨f, hf, ?_⟩
      simp only [View.fork]
      rw [if_pos (update_isSome (update_isSome hsome _ _) _ _)]
      rfl
    cases ty with
    | source | normal | merge =>
      obtain ⟨f, rfl, hfork⟩ := hsingle (by simp [BufferTy.isSingle])
      simpa [View.take, hv] using hfork
    | fork | sourceFork | mergeFork =>
      obtain ⟨n, rfl⟩ := h.counts b hb _ fw hv (by simp [isForkTy])
      simp [View.take, hv]
    | sink | mergeSink => simp [View.take, hv]
    | forkDummy | none => simp at hr

structure Spared (c : Stmt) (bs : List Name) (v v' : View) : Prop where
  others : ∀ b' ∈ bs, v' b' = v b'
  present : ∀ b', (v b').isSome → (v' b').isSome
  usable : v'.Usable c.out ↔ v.Usable c.out

theorem Spared.trans {v'' : View} (h : Spared c bs v v') (h' : Spared c bs v' v'') :
    Spared c bs v v'' where
  others b' hb' := (h'.others b' hb').trans (h.others b' hb')
  present b' hb' := h'.present b' (h.present b' hb')
  usable := h'.usable.trans h.usable

theorem spared_dummy {k out : Name} (hk : k ∉ bs) (hout : k ≠ c.out) :
    Spared c bs v (Function.update v k (some (dummyView out))) where
  others b' hb' := Function.update_of_ne (show b' ≠ k by rintro rfl; exact hk hb') _ _
  present b' hb' := update_isSome hb' _ _
  usable := by
    unfold View.Usable
    rw [Function.update_of_ne hout.symm]

theorem spared_self {ty : BufferTy} {fw : Fw} (hb : b ∉ bs)
    (hout : b = c.out → (ty = .source ∨ ty = .sourceFork ↔ v.Usable c.out)) :
    Spared c bs v (Function.update v b (some (ty, fw))) where
  others b' hb' := Function.update_of_ne (show b' ≠ b by rintro rfl; exact hb hb') _ _
  present b' hb' := update_isSome hb' _ _
  usable := by
    by_cases h : b = c.out
    · rw [← hout h]
      simp [View.Usable, h]
    · unfold View.Usable
      rw [Function.update_of_ne (Ne.symm h)]

theorem Apart.spared (h : Apart c v (b :: bs)) (hr : ¬ v.Refused c b)
    (ht : Taken c.out b v v') : Spared c bs v v' := by
  obtain ⟨hb, -⟩ := List.nodup_cons.mp h.nodup
  obtain ⟨hdum, hdout⟩ := h.dummies b List.mem_cons_self
  have hdum' : b ++ c.out ∉ bs := fun hm => hdum (List.mem_cons_of_mem _ hm)
  have husable : ∀ ty fw, v b = some (ty, fw) → v.Usable c.out := by
    intro ty fw hv
    rw [refused_iff hv] at hr
    exact not_not.mp fun hu => hr (.inl hu)
  cases ht with
  | absent hv =>
    refine spared_self hb fun e => ?_
    simp [View.Usable, ← e, hv]
  | @single ty f hty hv =>
    obtain ⟨f', hf', -, hdf, hdfo⟩ := h.forwards b List.mem_cons_self ty _ hv hty
    obtain rfl : f = f' := by simpa using hf'
    refine ((spared_self hb fun e => ?_).trans
      (spared_dummy (fun hm => hdf (List.mem_cons_of_mem _ hm)) hdfo)).trans (spared_dummy hdum' hdout)
    have hu := husable ty _ hv
    refine ⟨fun _ => hu, fun _ => ?_⟩
    rcases hu ty _ (e ▸ hv) with rfl | rfl
    · exact .inr rfl
    · exact .inr rfl
  | @fork ty n hty hv =>
    refine (spared_self hb fun e => ?_).trans (spared_dummy hdum' hdout)
    have hu := husable ty _ hv
    exact ⟨fun _ => hu, fun _ => hu ty _ (e ▸ hv)⟩
  | @unread ty ty' fw hty hv =>
    refine spared_self hb fun e => ?_
    have hu := husable ty _ hv ty fw (e ▸ hv)
    rcases hty with ⟨rfl, -⟩ | ⟨rfl, -⟩ <;> simp at hu

theorem Apart.step (h : Apart c v (b :: bs)) (hk : Spared c bs v v') : Apart c v' bs where
  nodup := (List.nodup_cons.mp h.nodup).2
  dummies b' hb' := by
    obtain ⟨hd, ho⟩ := h.dummies b' (List.mem_cons_of_mem _ hb')
    exact ⟨fun hm => hd (List.mem_cons_of_mem _ hm), ho⟩
  forwards b' hb' ty fw hv hty := by
    rw [hk.others b' hb'] at hv
    obtain ⟨f, hf, hsome, hd, ho⟩ := h.forwards b' (List.mem_cons_of_mem _ hb') ty fw hv hty
    exact ⟨f, hf, hk.present f hsome, fun hm => hd (List.mem_cons_of_mem _ hm), ho⟩
  counts b' hb' ty fw hv hty := by
    rw [hk.others b' hb'] at hv
    exact h.counts b' (List.mem_cons_of_mem _ hb') ty fw hv hty

theorem Spared.refused (h : Spared c bs v v') {b' : Name} (hb' : b' ∈ bs) :
    v'.Refused c b' ↔ v.Refused c b' := by
  simp [View.Refused, h.others b' hb', h.usable]

theorem Apart.refusedIn_iff (h : Apart c v bs) :
    v.RefusedIn c bs ↔ (∃ b ∈ bs, v.Refused c b) ∨ ¬ v.Usable c.out := by
  induction bs generalizing v with
  | nil => simp [View.RefusedIn]
  | cons b bs ih =>
    rw [View.RefusedIn]
    by_cases hr : v.Refused c b
    · exact iff_of_true (.inl hr) (.inl ⟨b, List.mem_cons_self, hr⟩)
    · obtain ⟨v', hv'⟩ := Option.isSome_iff_exists.mp (h.take_isSome hr)
      have hk := h.spared hr (take_taken hv')
      have hrest : (∃ b' ∈ bs, v'.Refused c b') ↔ ∃ b' ∈ bs, v.Refused c b' :=
        exists_congr fun b' => and_congr_right hk.refused
      simp [hr, hv', ih (h.step hk), hrest, hk.usable]

theorem lateRefusal_iff {cat : Catalog} {s : StmtId} {d : Driver}
    (h : ∀ bs, (cat s).inBufs = some bs → Apart (cat s) (viewOf d.bufStateTable) bs) :
    LateRefusal cat s d ↔ RefusedAfterFirst cat s d := by
  refine and_congr_right fun _ => and_congr_right fun _ => exists_congr fun b =>
    exists_congr fun bs => ⟨?_, ?_⟩
  · rintro ⟨v', hbs, hr, htake, hrest⟩
    have hk := (h _ hbs).spared hr (take_taken htake)
    rw [((h _ hbs).step hk).refusedIn_iff, hk.usable] at hrest
    refine ⟨hbs, hr, hrest.imp_left ?_⟩
    rintro ⟨b', hb', hr'⟩
    exact ⟨b', hb', (hk.refused hb').mp hr'⟩
  · rintro ⟨hbs, hr, hrest⟩
    obtain ⟨v', hv'⟩ := Option.isSome_iff_exists.mp ((h _ hbs).take_isSome hr)
    have hk := (h _ hbs).spared hr (take_taken hv')
    refine ⟨v', hbs, hr, hv', ?_⟩
    rw [((h _ hbs).step hk).refusedIn_iff, hk.usable]
    refine hrest.imp_left ?_
    rintro ⟨b', hb', hr'⟩
    exact ⟨b', hb', (hk.refused hb').mpr hr'⟩

end Apart

/-- A call of `addStmt` that returns `FAILURE` leaves the driver as it was exactly if no input was
taken before the refusal. -/
theorem addStmt_atomic_iff (cat : Catalog) (s : StmtId) (d : Driver) :
    ((∀ d', addStmt cat s d = .error (.failure d') → Unchanged d d') ↔ ¬ LateRefusal cat s d) ∧
      ((∀ bs, (cat s).inBufs = some bs → Apart (cat s) (viewOf d.bufStateTable) bs) →
        (LateRefusal cat s d ↔ RefusedAfterFirst cat s d)) := by
  refine ⟨⟨fun h hlate => ?_, fun h d' => failure_unchanged h⟩, lateRefusal_iff⟩
  obtain ⟨d', hd', hchanged⟩ := late_changes hlate
  exact hchanged (h d' hd')

/-- Two statements that produce `b`: one reads `a`, the other one the new buffer `x`. -/
def sharedOut : Catalog := fun s =>
  { name := if s = 0 then ['p'] else ['q'], type := .normal, valid := true
    inb := if s = 0 then ['a'] else ['x'], out := ['b'], unionBufs := [], windowBufs := []
    subStmts := [] }

def firstAdded : Driver :=
  { bufStateTable := (AList.insert ['b'] (sinkEntry ['b'] ['a'])
      (AList.insert ['a'] (sourceEntry 0 ['a'] ['b']) ∅))
    stmts := [0], bufs := [['a'], ['b']] }

theorem firstAdded_x : viewOf firstAdded.bufStateTable ['x'] = none := rfl

theorem firstAdded_b :
    viewOf firstAdded.bufStateTable ['b'] = some (.sink, .forwardBuf none) := rfl

/-- The second statement is refused late: its names are apart, its input is new and its output a
sink. -/
theorem addStmt_atomic_iff_sharedOut : LateRefusal sharedOut 1 firstAdded := by
  refine ((addStmt_atomic_iff sharedOut 1 firstAdded).2 ?_).mpr
    ⟨rfl, by decide, ['x'], [], rfl, ?_, .inr fun h => ?_⟩
  · rintro bs ⟨⟩
    refine ⟨by decide, by decide, ?_, ?_⟩
    · intro b hb ty fw hv
      obtain rfl := List.mem_singleton.mp hb
      cases firstAdded_x.symm.trans hv
    · intro b hb ty fw hv
      obtain rfl := List.mem_singleton.mp hb
      cases firstAdded_x.symm.trans hv
  · rintro ⟨ty, fw, hv, -⟩
    cases firstAdded_x.symm.trans hv
  · have := h _ _ firstAdded_b
    simp at this

/-- The new input is in the driver after the call has failed for its output. -/
theorem addStmt_notAtomic :
    addStmt sharedOut 0 Driver.new = .ok firstAdded ∧
      ¬ ∀ d', addStmt sharedOut 1 firstAdded = .error (.failure d') → Unchanged firstAdded d' := by
  refine ⟨by rfl, fun h => ?_⟩
  have hsame := h ((firstAdded.set ['x'] (sourceEntry 1 ['x'] ['b'])).pushBuf ['x']) rfl
  exact absurd hsame.bufs (by decide)

end StreamMill.Esl
