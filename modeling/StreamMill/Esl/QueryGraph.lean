import StreamMill.Esl.GraphDrop

/-!
# StreamMill.Esl.QueryGraph

The graph of a set of statements: a buffer's readers are the statements that have it as an
input, its producer is the one whose output it is, and `back` leads to the producer's input.
`addStmt` and `dropStmt` go from the graph of one set to the graph of the other.
-/

namespace StreamMill.Esl

variable {cat : Catalog} {W P : List StmtId} {G : Graph} {t : BufStateTbl}

section Backs

variable {s : StmtId} {b : Name} {bs : List Name}

/-- `back` is right for every producer that still reads its input. -/
structure Backs (cat : Catalog) (G : Graph) : Prop where
  made : ∀ b p, G.prod b = some p → ((cat p).type = .normal → p ∈ G.cons (cat p).inb) →
    G.back b = G.backFor cat p
  unmade : ∀ b, G.prod b = none → G.cons b ≠ [] → G.back b = .backBuf none

theorem inputs_normal (h : (cat s).type = .normal) : (cat s).inputs = [(cat s).inb] := by
  simp [Stmt.inputs, Stmt.inBufs, h]

theorem backFor_congr {G' : Graph} {p : StmtId}
    (h : (cat p).type = .normal →
      (2 ≤ (G'.cons (cat p).inb).length ↔ 2 ≤ (G.cons (cat p).inb).length)) :
    G'.backFor cat p = G.backFor cat p := by
  by_cases hty : (cat p).type = .normal
  · simp [Graph.backFor, hty, h hty]
  · rw [backFor_merge hty, backFor_merge hty]

section

variable (hb : Backs cat G)
include hb

theorem Backs.readNil (hs : ∀ b', G.prod b' ≠ some s) (hc : G.cons b = []) :
    Backs cat (G.read cat s b) where
  made b' p hp hin := by
    rw [Graph.read_prod] at hp
    have hps : p ≠ s := by rintro rfl; exact hs b' hp
    have hne : (cat p).type = .normal → (cat p).inb ≠ b := by
      rintro hty e
      have := hin hty
      rw [e, read_cons_self, hc, List.nil_append, List.mem_singleton] at this
      exact hps this
    have hback : (G.read cat s b).back b' = G.back b' := by
      by_cases e : b' = b
      · have hpb : G.prod b ≠ none := by rw [← e, hp]; simp
        simp [Graph.read, hc, hpb]
      · exact read_back_ne (by simp [hc]) e
    rw [hback, backFor_congr (G := G) fun hty => by rw [read_cons_ne (hne hty)]]
    exact hb.made b' p hp fun hty => by rw [← read_cons_ne (hne hty)]; exact hin hty
  unmade b' hp hcb := by
    rw [Graph.read_prod] at hp
    by_cases e : b' = b
    · subst e
      simp [Graph.read, hc, hp]
    · rw [read_cons_ne e] at hcb
      rw [read_back_ne (by simp [hc]) e]
      exact hb.unmade b' hp hcb

theorem Backs.readOne (hw : Within cat W G) (hs : ∀ b', G.prod b' ≠ some s) {c : StmtId}
    (hc : G.cons b = [c]) (hmade : G.prod (cat c).out = some c) :
    Backs cat (G.read cat s b) where
  made b' p hp hin := by
    rw [Graph.read_prod] at hp
    have hps : p ≠ s := by rintro rfl; exact hs b' hp
    have hback := read_back_second cat s hc
    by_cases hty : (cat p).type = .normal
    swap
    · rw [backFor_merge hty, hback]
      have hold := hb.made b' p hp fun h => absurd h hty
      rw [backFor_merge hty] at hold
      split
      · rename_i hcn
        rw [Function.update_of_ne]
        · exact hold
        · rintro rfl
          rw [hmade, Option.some.injEq] at hp
          exact hty (hp ▸ hcn)
      · exact hold
    by_cases e : (cat p).inb = b
    · have hpc : p = c := by
        have := hin hty
        rw [e, read_cons_self, hc] at this
        simpa [hps] using this
      subst hpc
      obtain ⟨_, hout⟩ := hw.prod b' p hp
      rw [hback, if_pos hty, ← hout, Function.update_self, Graph.backFor, if_pos hty, e,
        read_cons_self, hc]
      rfl
    · have hne : b' ≠ (cat c).out := by
        rintro rfl
        rw [hmade, Option.some.injEq] at hp
        subst hp
        have hci := (hw.cons b c (by simp [hc])).2
        rw [inputs_normal hty, List.mem_singleton] at hci
        exact e hci.symm
      have hsame : (G.read cat s b).back b' = G.back b' := by
        rw [hback]
        split
        · exact Function.update_of_ne hne _ _
        · rfl
      rw [hsame, backFor_congr (G := G) fun _ => by rw [read_cons_ne e]]
      exact hb.made b' p hp fun hty => by rw [← read_cons_ne e]; exact hin hty
  unmade b' hp hcb := by
    rw [Graph.read_prod] at hp
    have hne : b' ≠ (cat c).out := by rintro rfl; rw [hmade] at hp; cases hp
    have hold : G.back b' = .backBuf none := by
      by_cases e : b' = b
      · exact hb.unmade b' hp (by rw [e, hc]; simp)
      · exact hb.unmade b' hp (by rwa [read_cons_ne e] at hcb)
    rw [read_back_second _ _ hc]
    split
    · rw [Function.update_of_ne hne, hold]
    · exact hold

theorem Backs.readFork (hs : ∀ b', G.prod b' ≠ some s) (hf : G.Forks b) :
    Backs cat (G.read cat s b) where
  made b' p hp hin := by
    have hps : p ≠ s := by rintro rfl; exact hs b' hp
    rw [read_back_forks hf, backFor_congr]
    · refine hb.made b' p hp fun hty => ?_
      have := hin hty
      by_cases e : (cat p).inb = b
      · rw [e, read_cons_self] at this
        rw [e]
        simpa [hps] using this
      · rwa [read_cons_ne e] at this
    · intro hty
      by_cases e : (cat p).inb = b
      · unfold Graph.Forks at hf
        rw [e, read_cons_self, List.length_append]
        omega
      · rw [read_cons_ne e]
  unmade b' hp hcb := by
    rw [read_back_forks hf]
    refine hb.unmade b' hp ?_
    by_cases e : b' = b
    · obtain ⟨c₁, c₂, r, hr⟩ := forks_cases hf
      rw [e, hr]
      simp
    · rwa [read_cons_ne e] at hcb

theorem Backs.read (hw : Within cat W G) (hs : ∀ b', G.prod b' ≠ some s)
    (hmade : ∀ c ∈ G.cons b, G.prod (cat c).out = some c) : Backs cat (G.read cat s b) := by
  match hc : G.cons b with
  | [] => exact hb.readNil hs hc
  | [c] => exact hb.readOne hw hs hc (hmade c (by simp [hc]))
  | _ :: _ :: _ => exact hb.readFork hs (by simp [Graph.Forks, hc])

theorem Backs.readAll (hw : Within cat W G) (hsW : s ∈ W) (hbs : bs.Nodup)
    (hin : ∀ b ∈ bs, b ∈ (cat s).inputs) (hsc : ∀ b ∈ bs, s ∉ G.cons b)
    (hs : ∀ b', G.prod b' ≠ some s)
    (hmade : ∀ b, ∀ c ∈ G.cons b, c ≠ s → G.prod (cat c).out = some c) :
    Backs cat (G.readAll cat s bs) := by
  induction bs generalizing G with
  | nil => exact hb
  | cons b bs ih =>
    obtain ⟨hbn, hbs⟩ := List.nodup_cons.1 hbs
    have hbc := hsc b (by simp)
    have hread := hb.read hw hs fun c hc => hmade b c hc (by rintro rfl; exact hbc hc)
    refine ih hread (hw.read hsW (hin b (by simp)) hbc) hbs (fun x hx => hin x (by simp [hx]))
      (fun x hx => ?_) hs (made_read hmade)
    rw [read_cons_ne (by rintro rfl; exact hbn hx)]
    exact hsc x (by simp [hx])

theorem Backs.produce :
    Backs cat (G.produce s (cat s).out (G.backFor cat s)) where
  made b p hp hin := by
    by_cases e : b = (cat s).out
    · subst e
      rw [produce_prod_self, Option.some.injEq] at hp
      subst hp
      exact Function.update_self ..
    · rw [produce_prod_ne e] at hp
      rw [Graph.produce]
      simp only [Function.update_of_ne e]
      exact hb.made b p hp hin
  unmade b hp hcb := by
    have e : b ≠ (cat s).out := by rintro rfl; rw [produce_prod_self] at hp; cases hp
    rw [produce_prod_ne e] at hp
    rw [Graph.produce]
    simp only [Function.update_of_ne e]
    exact hb.unmade b hp hcb

end

theorem Backs.unread (hb : Backs cat G) (hw : Within cat W G)
    (hmade : ∀ c ∈ G.cons b, c ≠ s → G.prod (cat c).out = some c)
    (hnormal : ∀ c, (G.cons b).erase s = [c] → (cat c).type = .normal) :
    Backs cat (G.unread cat s b) where
  made b' p hp hin := by
    rw [unread_prod] at hp
    have hin' : (cat p).type = .normal → p ∈ G.cons (cat p).inb := by
      intro hty
      have := hin hty
      by_cases e : (cat p).inb = b
      · rw [e, unread_cons_self] at this
        rw [e]
        exact List.mem_of_mem_erase this
      · rwa [unread_cons_ne e] at this
    have hold := hb.made b' p hp hin'
    match he : (G.cons b).erase s with
    | [c] =>
      have hc : c ∈ G.cons b := List.mem_of_mem_erase (by rw [he]; simp)
      have hcs : c ≠ s := by
        rintro rfl
        exact (List.Nodup.not_mem_erase (hw.nodup b)) (by rw [he]; simp)
      have hcn := hnormal c he
      have hcb : (cat c).inb = b := by
        have := (hw.cons b c hc).2
        rw [inputs_normal hcn, List.mem_singleton] at this
        exact this.symm
      by_cases e : b' = (cat c).out
      · have hpc : p = c := by
          have := hmade c hc hcs
          rw [← e, hp, Option.some.injEq] at this
          exact this
        subst hpc
        rw [unread_back_collapse he, e, Function.update_self, Graph.backFor, if_pos hcn, hcb,
          unread_cons_self, he]
        rfl
      · rw [unread_back_collapse he, Function.update_of_ne e, hold]
        refine (backFor_congr fun hty => ?_).symm
        have hne : (cat p).inb ≠ b := by
          intro e'
          have := hin hty
          rw [e', unread_cons_self, he, List.mem_singleton] at this
          subst this
          exact e (hw.prod b' p hp).2.symm
        rw [unread_cons_ne hne]
    | [] =>
      rw [unread_back (by simp [he]), hold]
      refine (backFor_congr fun hty => ?_).symm
      have hne : (cat p).inb ≠ b := by
        intro e'
        have := hin hty
        rw [e', unread_cons_self, he] at this
        cases this
      rw [unread_cons_ne hne]
    | c₁ :: c₂ :: r =>
      rw [unread_back (by simp [he]), hold]
      refine (backFor_congr fun hty => ?_).symm
      by_cases e : (cat p).inb = b
      · have := List.length_erase_le (a := s) (l := G.cons b)
        rw [e, unread_cons_self, he] at *
        simp only [List.length_cons] at *
        omega
      · rw [unread_cons_ne e]
  unmade b' hp hcb := by
    rw [unread_prod] at hp
    have hold : G.back b' = .backBuf none := by
      refine hb.unmade b' hp fun hc => hcb ?_
      by_cases e : b' = b
      · subst e
        rw [unread_cons_self, hc]
        rfl
      · rwa [unread_cons_ne e]
    match he : (G.cons b).erase s with
    | [c] =>
      have hc : c ∈ G.cons b := List.mem_of_mem_erase (by rw [he]; simp)
      have hcs : c ≠ s := by
        rintro rfl
        exact (List.Nodup.not_mem_erase (hw.nodup b)) (by rw [he]; simp)
      have hne : b' ≠ (cat c).out := by
        rintro rfl
        rw [hmade c hc hcs] at hp
        cases hp
      rw [unread_back_collapse he, Function.update_of_ne hne, hold]
    | [] => rw [unread_back (by simp [he]), hold]
    | _ :: _ :: _ => rw [unread_back (by simp [he]), hold]

theorem Backs.unproduce (hb : Backs cat G) (out : Name) : Backs cat (G.unproduce out) where
  made b p hp hin := by
    have e : b ≠ out := by rintro rfl; rw [unproduce_prod_self] at hp; cases hp
    rw [unproduce_prod_ne e] at hp
    rw [Graph.unproduce]
    simp only [Function.update_of_ne e]
    exact hb.made b p hp hin
  unmade b hp hcb := by
    by_cases e : b = out
    · subst e
      exact Function.update_self ..
    · rw [unproduce_prod_ne e] at hp
      rw [Graph.unproduce]
      simp only [Function.update_of_ne e]
      exact hb.unmade b hp hcb

end Backs

section Whole

variable (cat)

def readers (P : List StmtId) (b : Name) : List StmtId :=
  P.filter fun c => b ∈ (cat c).inputs

/-- The graph has the statements `P` as readers and producers, whatever its `back`. -/
structure Members (P : List StmtId) (G : Graph) : Prop where
  nodup : P.Nodup
  cons : ∀ b, G.cons b = readers cat P b
  prod : ∀ b p, G.prod b = some p ↔ p ∈ P ∧ (cat p).out = b

structure Whole (P : List StmtId) (G : Graph) : Prop where
  nodup : P.Nodup
  cons : ∀ b, G.cons b = readers cat P b
  prod : ∀ b p, G.prod b = some p ↔ p ∈ P ∧ (cat p).out = b
  backs : Backs cat G

variable {cat} {s : StmtId} {bs : List Name}

theorem mem_readers {b : Name} {c : StmtId} :
    c ∈ readers cat P b ↔ c ∈ P ∧ b ∈ (cat c).inputs := by
  simp [readers]

theorem Members.within (h : Members cat P G) (hPW : ∀ s ∈ P, s ∈ W) : Within cat W G where
  cons b c hc := by
    rw [h.cons, mem_readers] at hc
    exact ⟨hPW c hc.1, hc.2⟩
  prod b p hp := ⟨hPW p ((h.prod b p).1 hp).1, ((h.prod b p).1 hp).2⟩
  nodup b := by
    rw [h.cons]
    exact h.nodup.filter _

theorem Members.made (h : Members cat P G) (b : Name) :
    ∀ c ∈ G.cons b, G.prod (cat c).out = some c := by
  intro c hc
  rw [h.cons, mem_readers] at hc
  exact (h.prod _ c).2 ⟨hc.1, rfl⟩

theorem Members.unread (h : Members cat P G) (hs : s ∉ P) (b : Name) : s ∉ G.cons b := by
  intro hc
  rw [h.cons, mem_readers] at hc
  exact hs hc.1

theorem Members.empty : Members cat [] Graph.empty where
  nodup := List.nodup_nil
  cons _ := rfl
  prod b p := by simp [Graph.empty]

theorem Members.known_iff (h : Members cat P G) (b : Name) : G.Known b ↔ IsBuf cat P b := by
  constructor
  · exact (h.within fun _ => id).isBuf
  · rintro ⟨s, hs, rfl | hb⟩
    · have := (h.prod (cat s).out s).2 ⟨hs, rfl⟩
      exact .inl (by simp [this])
    · refine .inr ?_
      have hm : s ∈ G.cons b := by
        rw [h.cons, mem_readers]
        exact ⟨hs, hb⟩
      exact List.ne_nil_of_mem hm

theorem Whole.members (h : Whole cat P G) : Members cat P G := ⟨h.nodup, h.cons, h.prod⟩

theorem Whole.within (h : Whole cat P G) (hPW : ∀ s ∈ P, s ∈ W) : Within cat W G :=
  h.members.within hPW

theorem Whole.made (h : Whole cat P G) (b : Name) :
    ∀ c ∈ G.cons b, G.prod (cat c).out = some c := h.members.made b

theorem Whole.empty : Whole cat [] Graph.empty where
  nodup := List.nodup_nil
  cons _ := rfl
  prod b p := by simp [Graph.empty]
  backs := ⟨fun b p hp => by simp [Graph.empty] at hp, fun b _ hc => by simp [Graph.empty] at hc⟩

theorem Members.add (h : Members cat P G) (hn : Names cat (P ++ [s])) (hs : s ∉ P)
    (hbs : bs.Perm (cat s).inputs) : Members cat (P ++ [s]) (G.add cat s bs) := by
  have hsW : s ∈ P ++ [s] := by simp
  have hnd : bs.Nodup := hbs.nodup_iff.2 (hn.inputsNodup s hsW)
  have hin : ∀ b ∈ bs, b ∈ (cat s).inputs := fun b hb => hbs.mem_iff.1 hb
  have hout : ∀ p ∈ P, (cat p).out ≠ (cat s).out := by
    intro p hp e
    exact hs (hn.outInj p (by simp [hp]) s hsW e ▸ hp)
  constructor
  · exact h.nodup.append (List.nodup_singleton s) (by simpa using hs)
  · intro b
    show (G.readAll cat s bs).cons b = _
    rw [readAll_cons hnd, h.cons, readers, readers]
    by_cases hb : b ∈ bs
    · simp [hb, hin b hb]
    · have hb' : b ∉ (cat s).inputs := fun h' => hb (hbs.mem_iff.2 h')
      simp [hb, hb']
  · intro b p
    rw [Graph.add]
    by_cases e : b = (cat s).out
    · subst e
      rw [produce_prod_self, Option.some.injEq, List.mem_append, List.mem_singleton]
      constructor
      · rintro rfl
        exact ⟨.inr rfl, rfl⟩
      · rintro ⟨hp | rfl, ho⟩
        · exact absurd ho (hout p hp)
        · rfl
    · rw [produce_prod_ne e, readAll_prod, h.prod, List.mem_append, List.mem_singleton]
      constructor
      · rintro ⟨hp, ho⟩
        exact ⟨.inl hp, ho⟩
      · rintro ⟨hp | rfl, ho⟩
        · exact ⟨hp, ho⟩
        · exact absurd ho.symm e

theorem Whole.add (h : Whole cat P G) (hn : Names cat (P ++ [s])) (hs : s ∉ P)
    (hbs : bs.Perm (cat s).inputs) : Whole cat (P ++ [s]) (G.add cat s bs) := by
  have hsW : s ∈ P ++ [s] := by simp
  have hw : Within cat (P ++ [s]) G := h.within fun p hp => by simp [hp]
  have hnd : bs.Nodup := hbs.nodup_iff.2 (hn.inputsNodup s hsW)
  have hin : ∀ b ∈ bs, b ∈ (cat s).inputs := fun b hb => hbs.mem_iff.1 hb
  have hsp : ∀ b, G.prod b ≠ some s := fun b hp => hs ((h.prod b s).1 hp).1
  have hm := h.members.add hn hs hbs
  exact ⟨hm.nodup, hm.cons, hm.prod, (h.backs.readAll hw hsW hnd hin
    (fun b _ => h.members.unread hs b) hsp fun b c hc _ => h.made b c hc).produce⟩

theorem unreadAll_backs (h : Backs cat G) (hw : Within cat W G) (hbs : bs.Nodup)
    (hmade : ∀ b, ∀ c ∈ G.cons b, c ≠ s → G.prod (cat c).out = some c)
    (hpair : ∀ b ∈ bs, ∀ c, (G.cons b).erase s = [c] → (cat c).type = .normal) :
    Backs cat (G.unreadAll cat s bs) := by
  induction bs generalizing G with
  | nil => exact h
  | cons b bs ih =>
    obtain ⟨hb, hbs⟩ := List.nodup_cons.1 hbs
    refine ih (h.unread hw (hmade b) (hpair b (by simp))) hw.unread hbs (fun b' c hc hcs => ?_)
      fun b' hb' c hc => ?_
    · by_cases e : b' = b
      · subst e
        rw [unread_cons_self] at hc
        exact hmade b' c (List.mem_of_mem_erase hc) hcs
      · rw [unread_cons_ne e] at hc
        exact hmade b' c hc hcs
    · rw [unread_cons_ne (by rintro rfl; exact hb hb')] at hc
      exact hpair b' (by simp [hb']) c hc

theorem erase_readers (hnd : P.Nodup) (b : Name) :
    (readers cat P b).erase s = readers cat (P.erase s) b := by
  rw [readers, readers, hnd.erase_eq_filter, (hnd.filter _).erase_eq_filter, List.filter_filter,
    List.filter_filter]
  exact List.filter_congr fun x _ => Bool.and_comm _ _

theorem Members.drop (h : Members cat P G) (hbs : bs.Nodup)
    (hin : ∀ b, b ∈ bs ↔ b ∈ (cat s).inputs)
    (hinj : ∀ p ∈ P, (cat p).out = (cat s).out → p = s) :
    Members cat (P.erase s) (G.drop cat s bs) := by
  constructor
  · exact h.nodup.erase s
  · intro b
    show (G.unreadAll cat s bs).cons b = _
    rw [unreadAll_cons hbs, h.cons, erase_readers h.nodup]
    by_cases hb : b ∈ bs
    · rw [if_pos hb]
    · rw [if_neg hb, ← erase_readers h.nodup, List.erase_of_not_mem]
      rw [mem_readers, ← hin]
      exact fun h' => hb h'.2
  · intro b p
    rw [Graph.drop, h.nodup.mem_erase_iff]
    by_cases e : b = (cat s).out
    · subst e
      rw [unproduce_prod_self]
      constructor
      · intro hp
        cases hp
      · rintro ⟨⟨hne, hp⟩, ho⟩
        exact absurd (hinj p hp ho) hne
    · rw [unproduce_prod_ne e, unreadAll_prod, h.prod]
      constructor
      · rintro ⟨hp, rfl⟩
        exact ⟨⟨by rintro rfl; exact e rfl, hp⟩, rfl⟩
      · rintro ⟨⟨_, hp⟩, ho⟩
        exact ⟨hp, ho⟩

theorem Whole.drop (h : Whole cat P G) (hbs : bs.Nodup) (hin : ∀ b, b ∈ bs ↔ b ∈ (cat s).inputs)
    (hinj : ∀ p ∈ P, (cat p).out = (cat s).out → p = s)
    (hpair : ∀ b ∈ bs, ∀ c, (readers cat P b).erase s = [c] → (cat c).type = .normal) :
    Whole cat (P.erase s) (G.drop cat s bs) := by
  have hw : Within cat P G := h.within fun _ => id
  have hm := h.members.drop hbs hin hinj
  refine ⟨hm.nodup, hm.cons, hm.prod, (unreadAll_backs h.backs hw hbs
    (fun b c hc _ => h.made b c hc) ?_).unproduce _⟩
  intro b hb c hc
  rw [h.cons] at hc
  exact hpair b hb c hc

end Whole

end StreamMill.Esl
