import StreamMill.Esl.QueryGraph

/-!
# StreamMill.Esl.GraphRun

A driver over any sequence of successful additions and drops: its table is the one of the
statements that are in it, as long as no drop leaves a fork to a union or a join.
-/

namespace StreamMill.Esl

section Runs

variable (cat : Catalog)

/-- The drivers that additions and drops lead to, under a condition on the statements present
and the statement that comes or goes. -/
inductive GraphRun (mayAdd mayDrop : List StmtId → StmtId → Prop) : Driver → Prop
  | new : GraphRun mayAdd mayDrop Driver.new
  | add {d d' : Driver} {s : StmtId} (run : GraphRun mayAdd mayDrop d)
      (may : mayAdd d.stmts s) (step : addStmt cat s d = .ok d') : GraphRun mayAdd mayDrop d'
  | drop {d : Driver} {s : StmtId} {me : DrvId} {m : BufMap} {st : DropState}
      (run : GraphRun mayAdd mayDrop d) (may : mayDrop d.stmts s)
      (step : dropStmt cat me s ⟨d, m⟩ = .ok st) : GraphRun mayAdd mayDrop st.drv

def ProducedOnce (P : List StmtId) (s : StmtId) : Prop := ∀ p ∈ P, (cat p).out ≠ (cat s).out

structure MayAdd (P : List StmtId) (s : StmtId) : Prop where
  fresh : ∀ p ∈ P, (cat p).name ≠ (cat s).name
  names : Names cat (P ++ [s])
  first : P = [] → (cat s).out ∉ (cat s).inputs

structure MayDrop (P : List StmtId) (s : StmtId) : Prop where
  present : s ∈ P
  pair : ∀ b ∈ (cat s).inputs, ∀ c, (readers cat P b).erase s = [c] → (cat c).type = .normal

def BufferTy.isSource (ty : BufferTy) : Prop := ty = .source ∨ ty = .sourceFork

def BufferTy.isSink (ty : BufferTy) : Prop := ty = .sink ∨ ty = .mergeSink

def BufferTy.isFork (ty : BufferTy) : Prop := ty = .fork ∨ ty = .sourceFork ∨ ty = .mergeFork

def BufferTy.isMerge (ty : BufferTy) : Prop := ty = .merge ∨ ty = .mergeSink ∨ ty = .mergeFork

/-- Where the output of `p` comes from: the union or join itself, the input of a normal
statement, or its dummy there. -/
def backTo (P : List StmtId) (p : StmtId) : Bk :=
  if (cat p).type = .normal then
    if 2 ≤ (readers cat P (cat p).inb).length then .backBuf (some ((cat p).inb ++ (cat p).out))
    else .backBuf (some (cat p).inb)
  else .unionStmt p

/-- The entry of a buffer, when `P` are the statements present. -/
structure EntryOf (P : List StmtId) (b : Name) (e : BufferEntry) : Prop where
  source : e.bType.isSource ↔ ¬ ∃ p ∈ P, (cat p).out = b
  sink : e.bType.isSink ↔ readers cat P b = []
  fork : e.bType.isFork ↔ 2 ≤ (readers cat P b).length
  merge : e.bType.isMerge ↔ ∃ p ∈ P, (cat p).out = b ∧ (cat p).type ≠ .normal
  buffer : e.bType ≠ .forkDummy ∧ e.bType ≠ .none
  action : e.action = actionOf e.bType
  forkCount : 2 ≤ (readers cat P b).length →
    e.forward = .forkCount (readers cat P b).length
  forward : ∀ c, readers cat P b = [c] →
    e.statement = some c ∧ e.forward = .forwardBuf (some (cat c).out)
  back : ∀ p ∈ P, (cat p).out = b → e.back = backTo cat P p
  backNone : (¬ ∃ p ∈ P, (cat p).out = b) → e.back = .backBuf none

/-- The table that the statements present determine. -/
structure TableOf (P : List StmtId) (t : BufStateTbl) : Prop where
  buffers : ∀ b, IsBuf cat P b → ∃ e, t.lookup b = some e ∧ EntryOf cat P b e
  dummies : ∀ b, 2 ≤ (readers cat P b).length → ∀ c ∈ readers cat P b,
    t.lookup (b ++ (cat c).out) = some (dummyEntry (some c) b (cat c).out)
  once : ∀ b, ∀ c ∈ readers cat P b, ∀ c' ∈ readers cat P b,
    b ++ (cat c).out = b ++ (cat c').out → c = c'
  only : ∀ k e, t.lookup k = some e → e.bType ≠ .forkDummy ∧ IsBuf cat P k ∨
    e.bType = .forkDummy ∧ ∃ b, 2 ≤ (readers cat P b).length ∧
      ∃ c ∈ readers cat P b, k = b ++ (cat c).out

end Runs

variable {cat : Catalog} {P : List StmtId} {G : Graph} {t : BufStateTbl}

theorem known_iff (h : Whole cat P G) (b : Name) : G.Known b ↔ IsBuf cat P b :=
  h.members.known_iff b

theorem made_iff (h : Whole cat P G) (b : Name) :
    (∃ p ∈ P, (cat p).out = b) ↔ G.prod b ≠ none := by
  constructor
  · rintro ⟨p, hp, ho⟩
    simp [(h.prod b p).2 ⟨hp, ho⟩]
  · intro hne
    obtain ⟨p, hp⟩ := Option.ne_none_iff_exists'.1 hne
    exact ⟨p, (h.prod b p).1 hp⟩

theorem backFor_eq (h : Whole cat P G) (p : StmtId) : G.backFor cat p = backTo cat P p := by
  rw [Graph.backFor, backTo, h.cons]

variable (cat) in
theorem bufferTyOf_says (p : Option StmtId) (cs : List StmtId) (hk : p ≠ none ∨ cs ≠ []) :
    ((bufferTyOf cat p cs).isSource ↔ p = none) ∧ ((bufferTyOf cat p cs).isSink ↔ cs = []) ∧
    ((bufferTyOf cat p cs).isFork ↔ 2 ≤ cs.length) ∧
    ((bufferTyOf cat p cs).isMerge ↔ ∃ q, p = some q ∧ (cat q).type ≠ .normal) ∧
    (bufferTyOf cat p cs ≠ .forkDummy ∧ bufferTyOf cat p cs ≠ .none) := by
  unfold BufferTy.isSource BufferTy.isSink BufferTy.isFork BufferTy.isMerge
  match p, cs with
  | none, [] => simp at hk
  | none, [_] => simp [bufferTyOf]
  | none, _ :: _ :: _ => simp [bufferTyOf]
  | some q, [] => by_cases hty : (cat q).type = .normal <;> simp [bufferTyOf, hty]
  | some q, [_] => by_cases hty : (cat q).type = .normal <;> simp [bufferTyOf, hty]
  | some q, _ :: _ :: _ => by_cases hty : (cat q).type = .normal <;> simp [bufferTyOf, hty]

theorem entryOf (h : Whole cat P G) {b : Name} (hk : G.Known b) :
    EntryOf cat P b (G.entry cat b) := by
  obtain ⟨hsrc, hsink, hfork, hmerge, hbuf⟩ := bufferTyOf_says cat _ _ hk
  rw [← entry_bType] at hsrc hsink hfork hmerge hbuf
  have hmade := made_iff h b
  constructor
  · rw [hsrc, hmade, not_not]
  · rw [hsink, h.cons]
  · rw [hfork, h.cons]
  · rw [hmerge]
    constructor
    · rintro ⟨q, hq, hty⟩
      exact ⟨q, ((h.prod b q).1 hq).1, ((h.prod b q).1 hq).2, hty⟩
    · rintro ⟨q, hq, ho, hty⟩
      exact ⟨q, (h.prod b q).2 ⟨hq, ho⟩, hty⟩
  · exact hbuf
  · rfl
  · intro hlen
    rw [← h.cons] at hlen ⊢
    obtain ⟨c₁, c₂, r, hr⟩ := forks_cases hlen
    simp [Graph.entry, render, forwardOf, hr]
  · intro c hc
    rw [← h.cons] at hc
    simp [Graph.entry, render, statementOf, forwardOf, hc]
  · intro p hp ho
    have hpb := (h.prod b p).2 ⟨hp, ho⟩
    rw [← backFor_eq h]
    refine h.backs.made b p hpb fun hty => ?_
    rw [h.cons, mem_readers, inputs_normal hty]
    exact ⟨hp, List.mem_singleton.2 rfl⟩
  · intro hnone
    have hp : G.prod b = none := by
      by_contra hne
      exact hnone (hmade.2 hne)
    exact h.backs.unmade b hp (hk.resolve_left (by simp [hp]))

theorem tableOf (hc : Canon cat t G) (h : Whole cat P G)
    (hinj : ∀ p ∈ P, ∀ q ∈ P, (cat p).out = (cat q).out → p = q) : TableOf cat P t where
  buffers b hb := ⟨_, hc.buffers b ((known_iff h b).2 hb), entryOf h ((known_iff h b).2 hb)⟩
  dummies b hf c hcr := by
    rw [← h.cons] at hf hcr
    exact hc.dummies b hf c hcr
  once b c hcr c' hcr' e :=
    hinj c (mem_readers.1 hcr).1 c' (mem_readers.1 hcr').1 (List.append_cancel_left e)
  only k e hk := by
    rcases hc.only k e hk with hkn | ⟨b, hf, c, hcr, rfl⟩
    · have he := hc.buffers k hkn
      rw [hk, Option.some.injEq] at he
      exact .inl ⟨he ▸ (entryOf h hkn).buffer.1, (known_iff h k).1 hkn⟩
    · have he := hc.dummies b hf c hcr
      rw [hk, Option.some.injEq] at he
      unfold Graph.Forks at hf
      rw [h.cons] at hf hcr
      exact .inr ⟨by rw [he]; rfl, b, hf, c, hcr, rfl⟩

section Steps

variable {s : StmtId} {d : Driver}

/-- What holds of a driver that additions and drops lead to. -/
structure Reached (cat : Catalog) (d : Driver) (G : Graph) : Prop where
  canon : Canon cat d.bufStateTable G
  whole : Whole cat d.stmts G
  names : Names cat d.stmts
  nameInj : ∀ p ∈ d.stmts, ∀ q ∈ d.stmts, (cat p).name = (cat q).name → p = q

theorem Names.mono {W W' : List StmtId} (h : Names cat W) (hsub : ∀ s ∈ W', s ∈ W) :
    Names cat W' where
  inputsNodup s hs := h.inputsNodup s (hsub s hs)
  outInj s hs s' hs' := h.outInj s (hsub s hs) s' (hsub s' hs')
  dummyApart s hs b hb := by
    rintro ⟨x, hx, hb'⟩
    exact h.dummyApart s (hsub s hs) b hb ⟨x, hsub x hx, hb'⟩
  dummyInj s hs s' hs' := h.dummyInj s (hsub s hs) s' (hsub s' hs')

theorem Reached.new : Reached cat Driver.new Graph.empty where
  canon := .empty
  whole := .empty
  names := ⟨by simp [Driver.new], by simp [Driver.new], by simp [Driver.new],
    by simp [Driver.new]⟩
  nameInj := by simp [Driver.new]

theorem Reached.canonEmpty (h : Reached cat d G) (he : d.stmts = []) :
    Canon cat d.bufStateTable Graph.empty := by
  have hw := h.whole
  rw [he] at hw
  have hu : ∀ b, ¬ G.Known b := by
    intro b hk
    obtain ⟨s, hs, _⟩ := (known_iff hw b).1 hk
    cases hs
  refine ⟨fun b hk => by simp [Graph.Known, Graph.empty] at hk,
    fun b hf => by simp [Graph.Forks, Graph.empty] at hf, fun k e hk => ?_⟩
  rcases h.canon.only k e hk with hkn | ⟨b, _, c, hc, _⟩
  · exact absurd hkn (hu k)
  · exact absurd (.inr (List.ne_nil_of_mem hc)) (hu b)

theorem MayAdd.notMem (h : MayAdd cat P s) : s ∉ P := fun hs => h.fresh s hs rfl

theorem addStmt_valid {d' : Driver} (h : addStmt cat s d = .ok d') : (cat s).valid = true := by
  rw [addStmt] at h
  split at h
  · assumption
  · cases h

theorem addStmt_inBufs {d' : Driver} (h : addStmt cat s d = .ok d') :
    ∃ bs, (cat s).inBufs = some bs := by
  have hv := addStmt_valid h
  cases hbs : (cat s).inBufs with
  | some bs => exact ⟨bs, rfl⟩
  | none =>
    have hty : (cat s).type = .coll := by
      unfold Stmt.inBufs at hbs
      cases hty : (cat s).type <;> rw [hty] at hbs <;> simp at hbs
    by_cases he : d.stmts = []
    · simp [addStmt, hv, he, addFirst, hty] at h
    · simp [addStmt, hv, he, hbs] at h

theorem Reached.empty (h : Reached cat d G) (he : d.stmts = []) : Reached cat d Graph.empty where
  canon := h.canonEmpty he
  whole := by rw [he]; exact .empty
  names := h.names
  nameInj := h.nameInj

theorem Reached.ofAdd {d' : Driver} {bs : List Name} (h : Reached cat d G)
    (may : MayAdd cat d.stmts s) (hperm : bs.Perm (cat s).inputs) (hst : d'.stmts = d.stmts ++ [s])
    (hcan : Canon cat d'.bufStateTable (G.add cat s bs)) : Reached cat d' (G.add cat s bs) where
  canon := hcan
  whole := by
    rw [hst]
    exact h.whole.add may.names may.notMem hperm
  names := by
    rw [hst]
    exact may.names
  nameInj := by
    rw [hst]
    intro p hp q hq e
    rw [List.mem_append, List.mem_singleton] at hp hq
    rcases hp with hp | rfl <;> rcases hq with hq | rfl
    · exact h.nameInj p hp q hq e
    · exact absurd e (may.fresh p hp)
    · exact absurd e.symm (may.fresh q hq)
    · rfl

theorem Reached.add {d' : Driver} (h : Reached cat d G) (may : MayAdd cat d.stmts s)
    (step : addStmt cat s d = .ok d') :
    ∃ G₀ bs, Reached cat d G₀ ∧ bs.Perm (cat s).inputs ∧ d'.stmts = d.stmts ++ [s] ∧
      Reached cat d' (G₀.add cat s bs) ∧ (G₀ = G ∨ G₀ = Graph.empty) := by
  have hsW : s ∈ d.stmts ++ [s] := by simp
  have hw : Within cat (d.stmts ++ [s]) G := h.whole.within fun p hp => by simp [hp]
  obtain ⟨bs, hbs⟩ := addStmt_inBufs step
  have hin := Stmt.inputs_of hbs
  have hv := addStmt_valid step
  by_cases he : d.stmts = []
  · obtain ⟨d₁, hok, hst, hcan⟩ := addFirst_spec (h.canonEmpty he) may.names hsW hbs
      (by rw [← hin]; exact may.first he)
    have hcall : addStmt cat s d = addFirst cat s d := by simp [addStmt, hv, he]
    rw [hcall, hok, Except.ok.injEq] at step
    subst step
    exact ⟨_, _, h.empty he, firstBufs_perm, hst,
      (h.empty he).ofAdd may firstBufs_perm hst hcan, .inr rfl⟩
  · have hsc : ∀ b, s ∉ G.cons b := by
      intro b hc
      rw [h.whole.cons, mem_readers] at hc
      exact may.notMem hc.1
    rcases addStmt_spec h.canon may.names hw hsW hbs hv he hsc h.whole.made with
      ⟨_, _, d₁, hok, hadd⟩ | ⟨_, _, _, _, _, _, herr⟩
    · rw [hok, Except.ok.injEq] at step
      subst step
      have hperm : bs.Perm (cat s).inputs := by rw [hin]
      exact ⟨_, bs, h, hperm, hadd.stmts, h.ofAdd may hperm hadd.stmts hadd.canon, .inl rfl⟩
    · rw [herr] at step
      cases step

theorem dropStmt_inBufs {me : DrvId} {st st' : DropState} (h : dropStmt cat me s st = .ok st') :
    ∃ bs, (cat s).inBufs = some bs := by
  rw [dropStmt] at h
  split at h
  · cases hbs : (cat s).inBufs with
    | some bs => exact ⟨bs, rfl⟩
    | none => simp [hbs] at h
  · cases h

theorem eraseP_name {P : List StmtId} (hs : s ∈ P)
    (hinj : ∀ p ∈ P, ∀ q ∈ P, (cat p).name = (cat q).name → p = q) :
    (P.eraseP fun x => (cat x).name = (cat s).name) = P.erase s := by
  induction P with
  | nil => rfl
  | cons x P ih =>
    by_cases e : x = s
    · subst e
      simp
    · have hne : (cat x).name ≠ (cat s).name := fun h => e (hinj x (by simp) s hs h)
      have hsP : s ∈ P := (List.mem_cons.1 hs).resolve_left fun h => e h.symm
      rw [List.eraseP_cons_of_neg (by simpa using hne), List.erase_cons_tail (by simpa using e),
        ih hsP fun p hp q hq => hinj p (by simp [hp]) q (by simp [hq])]

theorem Reached.drop (h : Reached cat d G) (may : MayDrop cat d.stmts s) {bs : List Name}
    (hbs : (cat s).inBufs = some bs) (me : DrvId) (m : BufMap) :
    ∃ st, dropStmt cat me s ⟨d, m⟩ = .ok st ∧ Dropped cat me s bs G ⟨d, m⟩ st ∧
      st.drv.stmts = d.stmts.erase s ∧ Reached cat st.drv (G.drop cat s bs) := by
  have hw : Within cat d.stmts G := h.whole.within fun _ => id
  have hin := Stmt.inputs_of hbs
  have hs : ∀ b ∈ bs, s ∈ G.cons b := by
    intro b hb
    rw [h.whole.cons, mem_readers, hin]
    exact ⟨may.present, hb⟩
  have hc : Canon cat (DropState.mk d m).drv.bufStateTable G := h.canon
  obtain ⟨st, hok, hd⟩ := dropStmt_spec me hc h.names hw may.present hbs may.present hs
    (fun b c hc _ => h.whole.made b c hc) ((h.whole.prod _ s).2 ⟨may.present, rfl⟩)
  have hst : st.drv.stmts = d.stmts.erase s :=
    hd.stmts.trans (eraseP_name may.present h.nameInj)
  have hsub : ∀ p ∈ st.drv.stmts, p ∈ d.stmts := fun p hp => List.mem_of_mem_erase (hst ▸ hp)
  refine ⟨st, hok, hd, hst, hd.canon, ?_, h.names.mono hsub,
    fun p hp q hq => h.nameInj p (hsub p hp) q (hsub q hq)⟩
  rw [hst]
  refine h.whole.drop (hin ▸ h.names.inputsNodup s may.present) (fun b => by rw [hin])
    (fun p hp ho => h.names.outInj p hp s may.present ho) fun b hb => may.pair b (hin ▸ hb)

theorem GraphRun.reached_with {I : Graph → Prop} (hempty : I Graph.empty)
    (hadd : ∀ G s bs, bs.Perm (cat s).inputs → I G → I (G.add cat s bs))
    (hdrop : ∀ G s bs, bs.Nodup → I G → I (G.drop cat s bs))
    (h : GraphRun cat (MayAdd cat) (MayDrop cat) d) : ∃ G, Reached cat d G ∧ I G := by
  induction h with
  | new => exact ⟨_, .new, hempty⟩
  | add run may step ih =>
    obtain ⟨G, hG, hI⟩ := ih
    obtain ⟨G₀, bs, _, hperm, _, hG', hstart⟩ := hG.add may step
    have hI₀ : I G₀ := by
      rcases hstart with rfl | rfl
      · exact hI
      · exact hempty
    exact ⟨_, hG', hadd G₀ _ bs hperm hI₀⟩
  | @drop d s me m st run may step ih =>
    obtain ⟨G, hG, hI⟩ := ih
    obtain ⟨bs, hbs⟩ := dropStmt_inBufs step
    obtain ⟨st', hok, _, _, hG'⟩ := hG.drop may hbs me m
    rw [hok, Except.ok.injEq] at step
    subst step
    have hnodup : bs.Nodup := by
      have hin := hG.names.inputsNodup s may.present
      rwa [Stmt.inputs_of hbs] at hin
    exact ⟨_, hG', hdrop G s bs hnodup hI⟩

theorem GraphRun.reached (h : GraphRun cat (MayAdd cat) (MayDrop cat) d) :
    ∃ G, Reached cat d G := by
  obtain ⟨G, hG, -⟩ := h.reached_with (I := fun _ => True) trivial (fun _ _ _ _ _ => trivial)
    fun _ _ _ _ _ => trivial
  exact ⟨G, hG⟩

end Steps

section Restore

variable {s : StmtId} {d : Driver} {bs : List Name}

theorem read_first_forks {b b' : Name} (hf : G.Forks b) :
    (G.read cat s b').first b = G.first b := by
  match hc : G.cons b' with
  | [] => rw [read_first (by simp [hc])]
  | [c] =>
    have hne : b ≠ b' := by rintro rfl; exact hf.ne_single c hc
    rw [read_first_second hc, Function.update_of_ne hne]
  | _ :: _ :: _ => rw [read_first (by simp [hc])]

theorem readAll_first_forks {b : Name} (hf : G.Forks b) :
    (G.readAll cat s bs).first b = G.first b := by
  induction bs generalizing G with
  | nil => rfl
  | cons b' bs ih =>
    have hf' : (G.read cat s b').Forks b := by
      by_cases e : b = b'
      · subst e
        unfold Graph.Forks at hf ⊢
        rw [read_cons_self, List.length_append]
        omega
      · rwa [Graph.Forks, read_cons_ne e]
    rw [readAll_cons_list, ih hf', read_first_forks hf]

theorem unreadAll_first : (G.unreadAll cat s bs).first = G.first := by
  induction bs generalizing G with
  | nil => rfl
  | cons b bs ih => rw [unreadAll_cons_list, ih]; rfl

variable {G' : Graph} {t' : BufStateTbl}

theorem whole_entry_eq (h : Whole cat P G) (h' : Whole cat P G')
    (hfirst : ∀ b, G.Forks b → G'.first b = G.first b) {b : Name} (hk : G.Known b) :
    G'.entry cat b = G.entry cat b := by
  have hcons : G'.cons b = G.cons b := by rw [h.cons, h'.cons]
  have hprod : G'.prod b = G.prod b := by
    refine Option.ext fun p => ?_
    rw [h.prod, h'.prod]
  have hback : G'.back b = G.back b := by
    have he := entryOf h hk
    have he' := entryOf h' (((known_iff h' b).trans (known_iff h b).symm).2 hk)
    by_cases hm : ∃ p ∈ P, (cat p).out = b
    · obtain ⟨p, hp, ho⟩ := hm
      exact (he'.back p hp ho).trans (he.back p hp ho).symm
    · exact (he'.backNone hm).trans (he.backNone hm).symm
  rw [Graph.entry, Graph.entry, hcons, hprod, hback]
  rcases hc : G.cons b with _ | ⟨c, _ | ⟨c', cs⟩⟩
  · rfl
  · rfl
  · rw [hfirst b (by simp [Graph.Forks, hc])]

section

variable (hc : Canon cat t G) (hc' : Canon cat t' G') (h : Whole cat P G) (h' : Whole cat P G')
  (hfirst : ∀ b, G.Forks b → G'.first b = G.first b)
include hc hc' h h' hfirst

theorem lookup_of_whole {k : Name} {e : BufferEntry} (hk : t.lookup k = some e) :
    t'.lookup k = some e := by
  rcases hc.only k e hk with hkn | ⟨b, hf, c, hcr, rfl⟩
  · have hkn' : G'.Known k := ((known_iff h' k).trans (known_iff h k).symm).2 hkn
    rw [hc'.buffers k hkn', whole_entry_eq h h' hfirst hkn, ← hc.buffers k hkn, hk]
  · have hcons : G'.cons b = G.cons b := by rw [h.cons, h'.cons]
    rw [hc'.dummies b (by rwa [Graph.Forks, hcons]) c (by rwa [hcons]), ← hc.dummies b hf c hcr, hk]

theorem lookup_eq_of_whole (k : Name) :
    t'.lookup k = t.lookup k := by
  have hback : ∀ b, G'.Forks b → G.first b = G'.first b := by
    intro b hf
    have hcons : G'.cons b = G.cons b := by rw [h.cons, h'.cons]
    exact (hfirst b (by rwa [Graph.Forks, ← hcons])).symm
  refine Option.ext fun e => ?_
  exact ⟨lookup_of_whole hc' hc h' h hback, lookup_of_whole hc hc' h h' hfirst⟩

end

theorem Reached.dropAdd {d' : Driver} {me : DrvId} {m : BufMap} {st : DropState}
    (h : Reached cat d G) (may : MayAdd cat d.stmts s) (step : addStmt cat s d = .ok d')
    (may' : MayDrop cat d'.stmts s) (step' : dropStmt cat me s ⟨d', m⟩ = .ok st) :
    st.drv.stmts = d.stmts ∧
      ∀ k, st.drv.bufStateTable.lookup k = d.bufStateTable.lookup k := by
  obtain ⟨G₀, bs₀, h₀, _, hst, h₁, _⟩ := h.add may step
  obtain ⟨bs, hbs⟩ := dropStmt_inBufs step'
  obtain ⟨st', hok, _, hst', h₂⟩ := h₁.drop may' hbs me m
  rw [hok, Except.ok.injEq] at step'
  subst step'
  have hstmts : st'.drv.stmts = d.stmts := by
    rw [hst', hst, List.erase_append_right _ may.notMem]
    simp
  have hw₂ := h₂.whole
  rw [hstmts] at hw₂
  refine ⟨hstmts, lookup_eq_of_whole h₀.canon h₂.canon h₀.whole hw₂ fun b hf => ?_⟩
  show (Graph.unreadAll cat s bs (G₀.add cat s bs₀)).first b = _
  rw [unreadAll_first]
  exact readAll_first_forks hf

/-- A union of `a` and `b`, a statement that reads one of its inputs, and two that read its
output. -/
def unionCat : Catalog
  | 0 => ⟨['u'], .tUnion, true, [], ['o'], [['a'], ['b']], [], []⟩
  | 1 => ⟨['n'], .normal, true, ['a'], ['x'], [], [], []⟩
  | 2 => ⟨['p'], .normal, true, ['o'], ['y'], [], [], []⟩
  | _ => ⟨['q'], .normal, true, ['o'], ['z'], [], [], []⟩

def added (cat : Catalog) (s : StmtId) (d : Driver) : Driver :=
  match addStmt cat s d with
  | .ok d' => d'
  | .error _ => d

def dropped (cat : Catalog) (s : StmtId) (d : Driver) : DropState :=
  match dropStmt cat 1 s ⟨d, []⟩ with
  | .ok st => st
  | .error _ => ⟨d, []⟩

instance (cat : Catalog) (W : List StmtId) (b : Name) : Decidable (IsBuf cat W b) :=
  inferInstanceAs (Decidable (∃ s ∈ W, _))

def forkedUnion : Driver := added unionCat 3 (added unionCat 2 (added unionCat 0 Driver.new))

end Restore

end StreamMill.Esl
