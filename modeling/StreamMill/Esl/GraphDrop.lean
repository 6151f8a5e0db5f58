import StreamMill.Esl.GraphAdd

/-!
# StreamMill.Esl.GraphDrop

`dropStmt` on a canonical table: every input buffer is an `unread` of the graph and the output
an `unproduce`. A fork that is left with one reader is found by a walk over the whole table.
-/

namespace StreamMill.Esl

variable {cat : Catalog} {W : List StmtId} {G : Graph} {t : BufStateTbl}

section Unread

variable {s : StmtId} {b : Name}
variable {b' : Name}

theorem unread_cons_ne (e : b' ≠ b) : (G.unread cat s b).cons b' = G.cons b' :=
  Function.update_of_ne e _ _

theorem unread_cons_self : (G.unread cat s b).cons b = (G.cons b).erase s :=
  Function.update_self ..

theorem unread_prod : (G.unread cat s b).prod = G.prod := rfl

theorem known_unread_ne (e : b' ≠ b) : (G.unread cat s b).Known b' ↔ G.Known b' := by
  rw [Graph.Known, Graph.Known, unread_prod, unread_cons_ne e]

theorem known_of_unread (h : (G.unread cat s b).Known b') : G.Known b' := by
  by_cases e : b' = b
  · subst e
    rw [Graph.Known, unread_cons_self] at h
    exact h.imp id fun h' e' => h' (by simp [e'])
  · exact (known_unread_ne e).1 h

theorem Within.unread (hw : Within cat W G) : Within cat W (G.unread cat s b) where
  cons b' c hc := by
    by_cases e : b' = b
    · subst e
      rw [unread_cons_self] at hc
      exact hw.cons b' c (List.mem_of_mem_erase hc)
    · rw [unread_cons_ne e] at hc
      exact hw.cons b' c hc
  prod := hw.prod
  nodup b' := by
    by_cases e : b' = b
    · subst e
      rw [unread_cons_self]
      exact (hw.nodup b').erase s
    · rw [unread_cons_ne e]
      exact hw.nodup b'

theorem unread_back (h : ∀ c, (G.cons b).erase s ≠ [c]) : (G.unread cat s b).back = G.back := by
  match hc : (G.cons b).erase s with
  | [] => simp [Graph.unread, hc]
  | [c] => exact absurd hc (h c)
  | _ :: _ :: _ => simp [Graph.unread, hc]

theorem unread_entry_ne (h : ∀ c, (G.cons b).erase s ≠ [c]) (e : b' ≠ b) :
    (G.unread cat s b).entry cat b' = G.entry cat b' := by
  rw [Graph.entry, unread_cons_ne e, unread_back h]
  rfl

theorem Canon.unreadSource (h : Canon cat t G) (hn : Names cat W) (hw : Within cat W G)
    (hp : G.prod b = none) (hc : G.cons b = [s]) :
    Canon cat (t.erase b) (G.unread cat s b) := by
  have he : (G.cons b).erase s = [] := by simp [hc]
  have hu : ¬ (G.unread cat s b).Known b := by
    simp [Graph.Known, unread_prod, unread_cons_self, hp, he]
  have hb : IsBuf cat W b := hw.isBuf (.inr (by simp [hc]))
  refine h.of_step b (fun b' e => unread_cons_ne e) ?_ ?_ ?_ ?_
  · intro b' hk
    have e : b' ≠ b := by rintro rfl; exact hu hk
    rw [AList.lookup_erase_ne e, unread_entry_ne (by simp [he]) e]
    exact h.buffers b' (known_of_unread hk)
  · intro hf
    simp [Graph.Forks, unread_cons_self, he] at hf
  · intro b' e c hc'
    obtain ⟨hcW, hci⟩ := hw.cons b' c hc'
    rw [AList.lookup_erase_ne (hn.ne_dummy hcW hci hb).symm]
  · intro k e hk
    have e' : k ≠ b := by rintro rfl; simp at hk
    rw [AList.lookup_erase_ne e'] at hk
    rcases h.only k e hk with hk | ⟨b', hf, c, hc', rfl⟩
    · exact .inl ((known_unread_ne e').2 hk)
    · have hne : b' ≠ b := by rintro rfl; simp [Graph.Forks, hc] at hf
      exact .inr (.inr ⟨b', hne, hf, c, hc', rfl⟩)

theorem Canon.unreadLast (h : Canon cat t G) (hn : Names cat W) (hw : Within cat W G)
    (hp : G.prod b ≠ none) (hc : G.cons b = [s]) :
    Canon cat (t.insert b ((G.unread cat s b).entry cat b)) (G.unread cat s b) := by
  have he : (G.cons b).erase s = [] := by simp [hc]
  have hb : IsBuf cat W b := hw.isBuf (.inl hp)
  refine h.of_step b (fun b' e => unread_cons_ne e) ?_ ?_ ?_ ?_
  · intro b' hk
    by_cases e : b' = b
    · subst e
      rw [AList.lookup_insert]
    · rw [AList.lookup_insert_ne e, unread_entry_ne (by simp [he]) e]
      exact h.buffers b' (known_of_unread hk)
  · intro hf
    simp [Graph.Forks, unread_cons_self, he] at hf
  · intro b' e c hc'
    obtain ⟨hcW, hci⟩ := hw.cons b' c hc'
    rw [AList.lookup_insert_ne (hn.ne_dummy hcW hci hb).symm]
  · intro k e hk
    by_cases e' : k = b
    · exact .inl (.inl (by rw [e']; exact hp))
    · rw [AList.lookup_insert_ne e'] at hk
      rcases h.only k e hk with hk | ⟨b', hf, c, hc', rfl⟩
      · exact .inl ((known_unread_ne e').2 hk)
      · have hne : b' ≠ b := by rintro rfl; simp [Graph.Forks, hc] at hf
        exact .inr (.inr ⟨b', hne, hf, c, hc', rfl⟩)

theorem render_shrink {p : Option StmtId} {cs cs' : List StmtId} {first : Option StmtId}
    {back : Bk} (h : 2 ≤ cs.length) (h' : 2 ≤ cs'.length) :
    { render cat b p cs first back with forward := .forkCount cs'.length }
      = render cat b p cs' first back := by
  match cs, cs', h, h' with
  | _ :: _ :: _, _ :: _ :: _, _, _ =>
    cases p <;> simp [render, bufferTyOf, statementOf, inplaceOf, forwardOf]

theorem Canon.only_unread (h : Canon cat t G) {t' : BufStateTbl} (hk : G.Forks b)
    (hne : (G.cons b).erase s ≠ []) (hfork : ∀ c ∈ (G.cons b).erase s,
      (t'.lookup (b ++ (cat c).out)).isSome → (G.unread cat s b).Forks b)
    (hgone : t'.lookup (b ++ (cat s).out) = none)
    (ht : ∀ k e, t'.lookup k = some e → ∃ e', t.lookup k = some e') :
    ∀ k e, t'.lookup k = some e → (G.unread cat s b).Known k ∨
      ((G.unread cat s b).Forks b ∧ ∃ c ∈ (G.unread cat s b).cons b, k = b ++ (cat c).out) ∨
      ∃ b', b' ≠ b ∧ G.Forks b' ∧ ∃ c ∈ G.cons b', k = b' ++ (cat c).out := by
  intro k e hlook
  obtain ⟨e', hlook'⟩ := ht k e hlook
  rcases h.only k e' hlook' with hkn | ⟨b', hf', c, hc, rfl⟩
  · by_cases e₁ : k = b
    · subst e₁
      exact .inl (.inr (by rwa [unread_cons_self]))
    · exact .inl ((known_unread_ne e₁).2 hkn)
  · by_cases e₁ : b' = b
    · subst e₁
      have hcs : c ≠ s := by rintro rfl; rw [hgone] at hlook; cases hlook
      have hc' : c ∈ (G.cons b').erase s := (List.mem_erase_of_ne hcs).2 hc
      exact .inr (.inl ⟨hfork c hc' (by rw [hlook]; rfl), c, by rwa [unread_cons_self], rfl⟩)
    · exact .inr (.inr ⟨b', e₁, hf', c, hc, rfl⟩)

theorem Canon.unreadFork (h : Canon cat t G) (hn : Names cat W) (hw : Within cat W G)
    (hs : s ∈ G.cons b) (hf : 3 ≤ (G.cons b).length) :
    ∃ t', leaveFork b (cat s).out t (G.entry cat b) = some t' ∧
      Canon cat t' (G.unread cat s b) := by
  have hlen : ((G.cons b).erase s).length = (G.cons b).length - 1 :=
    List.length_erase_of_mem hs
  have hfG : G.Forks b := by unfold Graph.Forks; omega
  have hf' : 2 ≤ ((G.cons b).erase s).length := by omega
  have hFork : (G.unread cat s b).Forks b := by rwa [Graph.Forks, unread_cons_self]
  have hone : ∀ c, (G.cons b).erase s ≠ [c] := by
    intro c hc
    rw [hc] at hf'
    simp at hf'
  have hne : (G.cons b).erase s ≠ [] := by
    intro hc
    rw [hc] at hf'
    simp at hf'
  obtain ⟨hsW, hsi⟩ := hw.cons b s hs
  obtain ⟨c₁, c₂, r, hr⟩ := forks_cases hfG
  have hkb : G.Known b := .inr (by simp [hr])
  have hfw : (G.entry cat b).forward = .forkCount (G.cons b).length := by
    simp [Graph.entry, render, forwardOf, hr]
  have hentry : { G.entry cat b with forward := .forkCount ((G.cons b).length - 1) }
      = (G.unread cat s b).entry cat b := by
    rw [← hlen, Graph.entry, render_shrink hfG hf', Graph.entry, unread_cons_self,
      unread_back hone]
    rfl
  refine ⟨(t.insert b ((G.unread cat s b).entry cat b)).erase (b ++ (cat s).out), ?_, ?_⟩
  · rw [leaveFork, hfw]
    simp only [hentry]
    rw [if_neg (by omega)]
  refine h.of_step b (fun b' e => unread_cons_ne e) ?_ ?_ ?_
    (h.only_unread hfG hne (fun _ _ _ => hFork) (AList.lookup_erase _ _) ?_)
  · intro b' hk
    have hk' := known_of_unread hk
    rw [AList.lookup_erase_ne (hn.ne_dummy hsW hsi (hw.isBuf hk'))]
    by_cases e : b' = b
    · subst e
      rw [AList.lookup_insert]
    · rw [AList.lookup_insert_ne e, unread_entry_ne hone e]
      exact h.buffers b' hk'
  · intro _ c hc
    rw [unread_cons_self] at hc
    have hcs : c ≠ s := fun e => (List.Nodup.not_mem_erase (hw.nodup b)) (e ▸ hc)
    have hc' := List.mem_of_mem_erase hc
    obtain ⟨hcW, hci⟩ := hw.cons b c hc'
    rw [AList.lookup_erase_ne (hn.dummy_ne hsW hsi hcW hci (.inr hcs.symm)),
      AList.lookup_insert_ne (hn.ne_dummy hcW hci (.input hsW hsi)).symm]
    exact h.dummies b hfG c hc'
  · intro b' e c hc
    obtain ⟨hcW, hci⟩ := hw.cons b' c hc
    rw [AList.lookup_erase_ne (hn.dummy_ne hsW hsi hcW hci (.inl e.symm)),
      AList.lookup_insert_ne (hn.ne_dummy hcW hci (.input hsW hsi)).symm]
  · intro k e hk
    have e₁ : k ≠ b ++ (cat s).out := by rintro rfl; simp at hk
    rw [AList.lookup_erase_ne e₁] at hk
    by_cases e₂ : k = b
    · exact ⟨_, e₂ ▸ h.buffers b hkb⟩
    · rw [AList.lookup_insert_ne e₂] at hk
      exact ⟨e, hk⟩

end Unread

section Collapse

variable {s c : StmtId} {b : Name}

theorem collapseLoop_misses {ks : List Name}
    (h : ∀ k ∈ ks, ∀ l, collapseStep b t l k = some (t, l)) (l : Option Name) :
    collapseLoop b ks t l = some (t, l) := by
  induction ks generalizing l with
  | nil => rfl
  | cons k ks ih =>
    rw [collapseLoop, h k (by simp)]
    exact ih (fun k' hk' => h k' (by simp [hk'])) l

theorem collapseLoop_one {t₁ t₂ : BufStateTbl} {ks : List Name} {k₀ : Name} (hk : k₀ ∈ ks)
    (hnd : ks.Nodup)
    (hmiss₁ : ∀ k ∈ ks, k ≠ k₀ → ∀ l, collapseStep b t₁ l k = some (t₁, l))
    (hhit : ∀ l, collapseStep b t₁ l k₀ = some (t₂, some k₀))
    (hmiss₂ : ∀ k ∈ ks, k ≠ k₀ → ∀ l, collapseStep b t₂ l k = some (t₂, l)) (l : Option Name) :
    collapseLoop b ks t₁ l = some (t₂, some k₀) := by
  induction ks generalizing l with
  | nil => cases hk
  | cons k ks ih =>
    obtain ⟨hkn, hnd⟩ := List.nodup_cons.1 hnd
    by_cases e : k = k₀
    · subst e
      rw [collapseLoop, hhit]
      refine collapseLoop_misses (fun k' hk' => hmiss₂ k' (by simp [hk']) ?_) _
      rintro rfl
      exact hkn hk'
    · rw [collapseLoop, hmiss₁ k (by simp) e]
      exact ih (by simpa [Ne.symm e] using hk) hnd
        (fun k' hk' => hmiss₁ k' (by simp [hk'])) (fun k' hk' => hmiss₂ k' (by simp [hk'])) l

theorem collapseStep_miss {e entry : BufferEntry} {k : Name} (hk : t.lookup k = some e)
    (hb : t.lookup b = some entry) (h : e.bType = .forkDummy → e.inplace ≠ entry.buf)
    (l : Option Name) : collapseStep b t l k = some (t, l) := by
  rw [collapseStep, hk, hb]
  by_cases hd : e.bType = .forkDummy
  · simp [hd, h hd]
  · simp [hd]

theorem bufferTyOf_ne_dummy (p : Option StmtId) (cs : List StmtId) :
    bufferTyOf cat p cs ≠ .forkDummy := by
  match p, cs with
  | none, [] => simp [bufferTyOf]
  | none, [_] => simp [bufferTyOf]
  | none, _ :: _ :: _ => simp [bufferTyOf]
  | some p, [] => by_cases hty : (cat p).type = .normal <;> simp [bufferTyOf, hty]
  | some p, [_] => by_cases hty : (cat p).type = .normal <;> simp [bufferTyOf, hty]
  | some p, _ :: _ :: _ => by_cases hty : (cat p).type = .normal <;> simp [bufferTyOf, hty]

theorem Canon.dummy_inv (h : Canon cat t G) {k : Name} {e : BufferEntry}
    (hk : t.lookup k = some e) (hd : e.bType = .forkDummy) :
    ∃ b', G.Forks b' ∧ ∃ c ∈ G.cons b', k = b' ++ (cat c).out ∧
      e = dummyEntry (some c) b' (cat c).out := by
  rcases h.only k e hk with hkn | ⟨b', hf, c, hc, rfl⟩
  · rw [h.buffers k hkn, Option.some.injEq] at hk
    rw [← hk] at hd
    exact absurd hd (bufferTyOf_ne_dummy _ _)
  · rw [h.dummies b' hf c hc, Option.some.injEq] at hk
    exact ⟨b', hf, c, hc, rfl, hk.symm⟩

theorem render_ofFork {p : Option StmtId} {cs : List StmtId} {first : Option StmtId} {back : Bk}
    (first' : Option StmtId) (h : 2 ≤ cs.length) (n : Nat) :
    ({ render cat b p cs first back with forward := .forkCount n }).ofFork
        (dummyEntry (some c) b (cat c).out)
      = render cat b p [c] first' back := by
  match cs, h with
  | _ :: _ :: _, _ =>
    cases p with
    | none => rfl
    | some p =>
      by_cases hty : (cat p).type = .normal <;>
        simp [BufferEntry.ofFork, render, bufferTyOf, statementOf, inplaceOf, forwardOf, actionOf,
          dummyEntry, hty]

theorem unread_back_collapse (he : (G.cons b).erase s = [c]) :
    (G.unread cat s b).back = Function.update G.back (cat c).out (.backBuf (some b)) := by
  simp [Graph.unread, he]

/-- A fork of two loses one: the walk finds the dummy of the other. -/
theorem Canon.unreadPair (h : Canon cat t G) (hn : Names cat W) (hw : Within cat W G)
    (hs : s ∈ G.cons b) (he : (G.cons b).erase s = [c]) (hf : G.Forks b)
    (hprod : G.prod (cat c).out = some c) :
    ∃ t', leaveFork b (cat s).out t (G.entry cat b) = some t' ∧
      Canon cat t' (G.unread cat s b) := by
  have hlen : (G.cons b).length = 2 := by
    have := List.length_erase_of_mem hs
    rw [he, List.length_singleton] at *
    omega
  obtain ⟨hsW, hsi⟩ := hw.cons b s hs
  have hc : c ∈ G.cons b := List.mem_of_mem_erase (by rw [he]; simp)
  have hcs : c ≠ s := by
    rintro rfl
    exact (List.Nodup.not_mem_erase (hw.nodup b)) (by rw [he]; simp)
  obtain ⟨hcW, hci⟩ := hw.cons b c hc
  obtain ⟨c₁, c₂, r, hr⟩ := forks_cases hf
  have hkb : G.Known b := .inr (by simp [hr])
  have hkf : G.Known (cat c).out := .inl (by simp [hprod])
  have hfw : (G.entry cat b).forward = .forkCount 2 := by
    rw [← hlen]
    simp [Graph.entry, render, forwardOf, hr]
  set ent := { G.entry cat b with forward := Fw.forkCount 1 } with hent
  set t₁ := (t.insert b ent).erase (b ++ (cat s).out) with ht₁
  have hb₁ : b ≠ b ++ (cat s).out := hn.ne_dummy hsW hsi (.input hsW hsi)
  have hlook₁ : t₁.lookup b = some ent := by
    rw [AList.lookup_erase_ne hb₁, AList.lookup_insert]
  have hother₁ : ∀ k, k ≠ b → k ≠ b ++ (cat s).out → t₁.lookup k = t.lookup k := by
    intro k h₁ h₂
    rw [AList.lookup_erase_ne h₂, AList.lookup_insert_ne h₁]
  have hgone₁ : t₁.lookup (b ++ (cat s).out) = none := AList.lookup_erase _ _
  set k₀ := b ++ (cat c).out with hk₀
  have hk₀b : b ≠ k₀ := hn.ne_dummy hcW hci (.input hsW hsi)
  have hk₀s : k₀ ≠ b ++ (cat s).out := hn.dummy_ne hsW hsi hcW hci (.inr hcs.symm)
  have hdum₁ : t₁.lookup k₀ = some (dummyEntry (some c) b (cat c).out) := by
    rw [hother₁ k₀ hk₀b.symm hk₀s]
    exact h.dummies b hf c hc
  -- the entries after the dummy is found, but for the `back` of the reader's output
  set ent₂ := ent.ofFork (dummyEntry (some c) b (cat c).out) with hent₂
  have hrend : ent₂ = { (G.unread cat s b).entry cat b with back := G.back b } := by
    rw [hent₂, hent, Graph.entry, render_ofFork (G.first b) hf 1, Graph.entry,
      unread_cons_self, he]
    rfl
  have hmid : ∀ b', G.Known b' → (t₁.insert b ent₂).lookup b'
      = some { (G.unread cat s b).entry cat b' with back := G.back b' } := by
    intro b' hk
    by_cases e : b' = b
    · rw [e, AList.lookup_insert, hrend]
    · rw [AList.lookup_insert_ne e, hother₁ b' e (hn.ne_dummy hsW hsi (hw.isBuf hk)),
        h.buffers b' hk, Graph.entry, Graph.entry, unread_cons_ne e]
      rfl
  set g := { (G.unread cat s b).entry cat (cat c).out with back := G.back (cat c).out } with hg
  set t₂ := (t₁.insert b ent₂).insert (cat c).out { g with back := .backBuf (some b) } with ht₂
  have hbuf₂ : ∀ b', G.Known b' → t₂.lookup b' = some ((G.unread cat s b).entry cat b') := by
    intro b' hk
    by_cases e : b' = (cat c).out
    · rw [e, AList.lookup_insert, Graph.entry, unread_back_collapse he,
        Function.update_self]
      rfl
    · rw [AList.lookup_insert_ne e, hmid b' hk, Graph.entry, unread_back_collapse he,
        Function.update_of_ne e]
      rfl
  have hoff₂ : ∀ k, k ≠ b → k ≠ (cat c).out → t₂.lookup k = t₁.lookup k := by
    intro k h₁ h₂
    rw [AList.lookup_insert_ne h₂, AList.lookup_insert_ne h₁]
  -- no other entry is a dummy of `b`
  have hmiss₁ : ∀ k e, t₁.lookup k = some e → k ≠ k₀ → e.bType = .forkDummy →
      e.inplace ≠ some b := by
    intro k e hk hne hd hin
    by_cases e₁ : k = b
    · rw [e₁, hlook₁, Option.some.injEq] at hk
      rw [← hk] at hd
      exact bufferTyOf_ne_dummy _ _ hd
    · have e₂ : k ≠ b ++ (cat s).out := by rintro rfl; rw [hgone₁] at hk; cases hk
      rw [hother₁ k e₁ e₂] at hk
      obtain ⟨b', _, c', hc', rfl, rfl⟩ := h.dummy_inv hk hd
      obtain rfl : b' = b := by simpa [dummyEntry] using hin
      by_cases e₃ : c' = s
      · exact e₂ (by rw [e₃])
      · have : c' ∈ (G.cons b').erase s := (List.mem_erase_of_ne e₃).2 hc'
        rw [he, List.mem_singleton] at this
        exact hne (by rw [this])
  have hmiss₂ : ∀ k e, t₁.lookup k = some e → k ≠ k₀ → ∃ e', t₂.lookup k = some e' ∧
      (e'.bType = .forkDummy → e'.inplace ≠ some b) := by
    intro k e hk hne
    by_cases hkn : G.Known k
    · exact ⟨_, hbuf₂ k hkn, fun hd => absurd hd (bufferTyOf_ne_dummy _ _)⟩
    · have e₁ : k ≠ b := by rintro rfl; exact hkn hkb
      have e₂ : k ≠ (cat c).out := by rintro rfl; exact hkn hkf
      exact ⟨e, by rw [hoff₂ k e₁ e₂]; exact hk, hmiss₁ k e hk hne⟩
  have hlookup : ∀ k ∈ t₁.keys, ∃ e, t₁.lookup k = some e := by
    intro k hk
    exact Option.isSome_iff_exists.1 (AList.lookup_isSome.2 (AList.mem_keys.2 hk))
  have hhit : ∀ l, collapseStep b t₁ l k₀ = some (t₂, some k₀) := by
    intro l
    have hlf := hmid _ hkf
    simp only [collapseStep, hdum₁, hlook₁]
    rw [if_pos ⟨rfl, rfl⟩]
    simp only [dummyEntry]
    rw [← dummyEntry, hlf]
    rfl
  have hloop : collapseLoop b t₁.keys t₁ none = some (t₂, some k₀) := by
    refine collapseLoop_one ?_ t₁.keys_nodup ?_ hhit ?_ none
    · exact AList.mem_keys.1 (AList.lookup_isSome.1 (by rw [hdum₁]; rfl))
    · intro k hk hne l
      obtain ⟨e, hke⟩ := hlookup k hk
      exact collapseStep_miss hke hlook₁ (hmiss₁ k e hke hne) l
    · intro k hk hne l
      obtain ⟨e, hke⟩ := hlookup k hk
      obtain ⟨e', hke', hd⟩ := hmiss₂ k e hke hne
      exact collapseStep_miss hke' (hbuf₂ b hkb) hd l
  refine ⟨t₂.erase k₀, ?_, ?_⟩
  · rw [leaveFork, hfw]
    simp only [Nat.add_one_sub_one, if_true]
    rw [collapse, hloop]
  have hone : ∀ k, k ≠ k₀ → k ≠ b → k ≠ (cat c).out → k ≠ b ++ (cat s).out →
      (t₂.erase k₀).lookup k = t.lookup k := by
    intro k h₁ h₂ h₃ h₄
    rw [AList.lookup_erase_ne h₁, hoff₂ k h₂ h₃, hother₁ k h₂ h₄]
  refine h.of_step b (fun b' e => unread_cons_ne e) ?_ ?_ ?_
    (h.only_unread hf (by simp [he]) ?_ ?_ ?_)
  · intro b' hk
    have hk' := known_of_unread hk
    rw [AList.lookup_erase_ne (hn.ne_dummy hcW hci (hw.isBuf hk'))]
    exact hbuf₂ b' hk'
  · intro hf'
    simp [Graph.Forks, unread_cons_self, he] at hf'
  · intro b' e c' hc'
    obtain ⟨hcW', hci'⟩ := hw.cons b' c' hc'
    exact hone _ (hn.dummy_ne hcW hci hcW' hci' (.inl e.symm))
      (hn.ne_dummy hcW' hci' (.input hsW hsi)).symm (hn.ne_dummy hcW' hci' (.out hcW)).symm
      (hn.dummy_ne hsW hsi hcW' hci' (.inl e.symm))
  · intro c' hc' hsome
    rw [he, List.mem_singleton] at hc'
    rw [hc', AList.lookup_erase] at hsome
    cases hsome
  · rw [AList.lookup_erase_ne hk₀s.symm, hoff₂ _ hb₁.symm (hn.ne_dummy hsW hsi (.out hcW)).symm]
    exact hgone₁
  · intro k e hk
    by_cases hkn : G.Known k
    · exact ⟨_, h.buffers k hkn⟩
    · have e₁ : k ≠ k₀ := by rintro rfl; simp at hk
      have e₂ : k ≠ b := by rintro rfl; exact hkn hkb
      have e₃ : k ≠ (cat c).out := by rintro rfl; exact hkn hkf
      rw [AList.lookup_erase_ne e₁, hoff₂ k e₂ e₃] at hk
      have e₄ : k ≠ b ++ (cat s).out := by rintro rfl; rw [hgone₁] at hk; cases hk
      exact ⟨e, by rwa [hother₁ k e₂ e₄] at hk⟩

end Collapse

section Input

variable {s : StmtId} {b : Name} {me : DrvId} {st st' : DropState}

/-- What a driver lists, and what the manager's map has for it, are buffers of its graph. -/
structure Lists (me : DrvId) (G : Graph) (st : DropState) : Prop where
  bufs : ∀ x ∈ st.drv.bufs, G.Known x
  map : ∀ e ∈ st.bufToDrvMap, e.2 = me ∧ G.Known e.1
  nodup : st.bufToDrvMap.Nodup

/-- A step of `dropStmt`: the table is the one of `G'`, and the buffers that are not in `G'`
are taken off the lists. -/
structure Drops (cat : Catalog) (me : DrvId) (G G' : Graph) (st st' : DropState) : Prop where
  canon : Canon cat st'.drv.bufStateTable G'
  stmts : st'.drv.stmts = st.drv.stmts
  lists : Lists me G st → st'.drv.bufs = st.drv.bufs.filter (fun x => G'.Known x) ∧
    st'.bufToDrvMap = st.bufToDrvMap.filter fun e => G'.Known e.1

variable {G' : Graph}

theorem Drops.listed (h : Drops cat me G G' st st') (hl : Lists me G st) :
    Lists me G' st' := by
  obtain ⟨hb, hm⟩ := h.lists hl
  constructor
  · intro x hx
    rw [hb, List.mem_filter] at hx
    simpa using hx.2
  · intro e he
    rw [hm, List.mem_filter] at he
    exact ⟨(hl.map e he.1).1, by simpa using he.2⟩
  · rw [hm]
    exact hl.nodup.filter _

theorem Drops.trans {G₁ G₂ : Graph} {st₁ st₂ : DropState} (h₁ : Drops cat me G G₁ st st₁)
    (h₂ : Drops cat me G₁ G₂ st₁ st₂) (hmono : ∀ x, G₂.Known x → G₁.Known x) :
    Drops cat me G G₂ st st₂ where
  canon := h₂.canon
  stmts := h₂.stmts.trans h₁.stmts
  lists hl := by
    obtain ⟨hb₁, hm₁⟩ := h₁.lists hl
    obtain ⟨hb₂, hm₂⟩ := h₂.lists (h₁.listed hl)
    rw [hb₂, hb₁, hm₂, hm₁, List.filter_filter, List.filter_filter]
    constructor
    · refine List.filter_congr fun x _ => ?_
      by_cases hk : G₂.Known x
      · simp [hk, hmono x hk]
      · simp [hk]
    · refine List.filter_congr fun e _ => ?_
      by_cases hk : G₂.Known e.1
      · simp [hk, hmono e.1 hk]
      · simp [hk]

theorem lists_same (hl : Lists me G st) (hk : ∀ x, G.Known x → G'.Known x) :
    st.drv.bufs = st.drv.bufs.filter (fun x => G'.Known x) ∧
      st.bufToDrvMap = st.bufToDrvMap.filter fun e => G'.Known e.1 := by
  constructor
  · refine (List.filter_eq_self.2 fun x hx => ?_).symm
    simpa using hk x (hl.bufs x hx)
  · refine (List.filter_eq_self.2 fun e he => ?_).symm
    simpa using hk e.1 (hl.map e he).2

theorem lists_remove (hl : Lists me G st) (hk : ∀ x, x ≠ b → (G'.Known x ↔ G.Known x))
    (hu : ¬ G'.Known b) {e : BufferEntry} (he : e.buf = some b) :
    (st.removeBuf me b e).drv.bufs = st.drv.bufs.filter (fun x => G'.Known x) ∧
      (st.removeBuf me b e).bufToDrvMap = st.bufToDrvMap.filter fun e => G'.Known e.1 := by
  constructor
  · refine List.filter_congr fun x hx => ?_
    by_cases e₁ : x = b
    · simp [e₁, he, hu]
    · simpa [e₁, he] using (hk x e₁).2 (hl.bufs x hx)
  · show st.bufToDrvMap.erase (b, me) = _
    rw [hl.nodup.erase_eq_filter]
    refine List.filter_congr fun x hx => ?_
    obtain ⟨hme, hkn⟩ := hl.map x hx
    by_cases e₁ : x.1 = b
    · have : x = (b, me) := Prod.ext e₁ hme
      simp [this, hu]
    · have hne : (x != (b, me)) = true := by
        rw [bne_iff_ne]
        rintro rfl
        exact e₁ rfl
      rw [hne]
      simpa using (hk x.1 e₁).2 hkn

theorem known_unread_of_prod {b : Name} (hp : G.prod b ≠ none) (x : Name) (hx : G.Known x) :
    (G.unread cat s b).Known x := by
  by_cases e : x = b
  · exact .inl (by rw [e]; exact hp)
  · exact (known_unread_ne e).2 hx

theorem known_unread_of_cons {b : Name} (hc : (G.cons b).erase s ≠ []) (x : Name)
    (hx : G.Known x) : (G.unread cat s b).Known x := by
  by_cases e : x = b
  · subst e
    exact .inr (by rwa [unread_cons_self])
  · exact (known_unread_ne e).2 hx

variable (me) in
theorem dropInput_single (h : Canon cat st.drv.bufStateTable G) (hn : Names cat W)
    (hw : Within cat W G) (hc : G.cons b = [s]) :
    ∃ st', dropInput cat me s st b = .ok st' ∧ Drops cat me G (G.unread cat s b) st st' := by
  have hlook := h.buffers b (.inr (by simp [hc]))
  have he : (G.cons b).erase s = [] := by simp [hc]
  cases hp : G.prod b with
  | none =>
    have hu : ¬ (G.unread cat s b).Known b := by
      simp [Graph.Known, unread_prod, unread_cons_self, hp, he]
    refine ⟨st.removeBuf me b (G.entry cat b), ?_, h.unreadSource hn hw hp hc, rfl, fun hl => ?_⟩
    · rw [dropInput, hlook]
      simp [entry_bType, hp, hc, bufferTyOf]
    · exact lists_remove hl (fun x hx => known_unread_ne hx) hu rfl
  | some p =>
    have hp' : G.prod b ≠ none := by simp [hp]
    have hcan := h.unreadLast hn hw hp' hc
    have hback : (G.unread cat s b).back b = G.back b := by rw [unread_back (by simp [he])]
    refine ⟨st.set b ((G.unread cat s b).entry cat b), ?_, hcan, rfl, fun hl => ?_⟩
    swap
    · have hkk : ∀ x, G.Known x → (G.unread cat s b).Known x := known_unread_of_prod hp'
      have hsame := lists_same hl hkk
      exact hsame
    rw [dropInput, hlook]
    have hent : (G.unread cat s b).entry cat b
        = render cat b (some p) [] (G.first b) (G.back b) := by
      rw [Graph.entry, unread_cons_self, he, unread_prod, hp, hback]
      rfl
    rw [hent]
    by_cases hty : (cat p).type = .normal <;>
      simp [Graph.entry, render, hp, hc, bufferTyOf, hty, statementOf, inplaceOf, forwardOf, actionOf]

variable (me) in
theorem dropInput_forks (h : Canon cat st.drv.bufStateTable G) (hn : Names cat W)
    (hw : Within cat W G) (hs : s ∈ G.cons b) (hf : G.Forks b)
    (hmade : ∀ c ∈ G.cons b, c ≠ s → G.prod (cat c).out = some c) :
    ∃ st', dropInput cat me s st b = .ok st' ∧ Drops cat me G (G.unread cat s b) st st' := by
  obtain ⟨c₁, c₂, r, hr⟩ := forks_cases hf
  have hlook := h.buffers b (.inr (by simp [hr]))
  have hlen : ((G.cons b).erase s).length = (G.cons b).length - 1 :=
    List.length_erase_of_mem hs
  have hne : (G.cons b).erase s ≠ [] := by
    intro hc
    rw [hc, hr] at hlen
    simp at hlen
  have hleave : ∃ t', leaveFork b (cat s).out st.drv.bufStateTable (G.entry cat b) = some t' ∧
      Canon cat t' (G.unread cat s b) := by
    by_cases h3 : 3 ≤ (G.cons b).length
    · exact h.unreadFork hn hw hs h3
    · match he : (G.cons b).erase s, hlen with
      | [], _ => exact absurd he hne
      | [c], _ =>
        have hcs : c ≠ s := by
          rintro rfl
          exact (List.Nodup.not_mem_erase (hw.nodup b)) (by rw [he]; simp)
        have hc : c ∈ G.cons b := List.mem_of_mem_erase (by rw [he]; simp)
        exact h.unreadPair hn hw hs he hf (hmade c hc hcs)
      | _ :: _ :: _, hlen =>
        simp only [List.length_cons] at hlen
        omega
  obtain ⟨t', hok, hcan⟩ := hleave
  refine ⟨{ st with drv := { st.drv with bufStateTable := t' } }, ?_, hcan, rfl, fun hl => ?_⟩
  swap
  · have hkk : ∀ x, G.Known x → (G.unread cat s b).Known x := known_unread_of_cons hne
    have hsame := lists_same hl hkk
    exact hsame
  rw [dropInput, hlook]
  rcases bufferTyOf_fork cat (G.prod b) c₁ c₂ r with hty | hty | hty <;>
    simp [entry_bType, hr, hty, hok]

variable (me) in
theorem dropInput_spec (h : Canon cat st.drv.bufStateTable G) (hn : Names cat W)
    (hw : Within cat W G) (hs : s ∈ G.cons b)
    (hmade : ∀ c ∈ G.cons b, c ≠ s → G.prod (cat c).out = some c) :
    ∃ st', dropInput cat me s st b = .ok st' ∧ Drops cat me G (G.unread cat s b) st st' := by
  match hc : G.cons b with
  | [] => simp [hc] at hs
  | [c] =>
    obtain rfl : s = c := by simpa [hc] using hs
    exact dropInput_single me h hn hw hc
  | _ :: _ :: _ => exact dropInput_forks me h hn hw hs (by simp [Graph.Forks, hc]) hmade

end Input

section Output

variable {s : StmtId} {out : Name} {me : DrvId} {st : DropState}
variable {b : Name}

theorem unproduce_prod_ne (e : b ≠ out) : (G.unproduce out).prod b = G.prod b :=
  Function.update_of_ne e _ _

theorem unproduce_prod_self : (G.unproduce out).prod out = none := Function.update_self ..

theorem unproduce_entry_ne (e : b ≠ out) :
    (G.unproduce out).entry cat b = G.entry cat b := by
  rw [Graph.entry, Graph.entry, unproduce_prod_ne e]
  simp only [Graph.unproduce]
  rw [Function.update_of_ne e]

theorem unproduce_entry_self : (G.unproduce out).entry cat out =
    { G.entry cat out with
      bType := bufferTyOf cat none (G.cons out)
      action := actionOf (bufferTyOf cat none (G.cons out))
      back := .backBuf none } := by
  rw [Graph.entry]
  simp only [Graph.unproduce, Function.update_self]
  rfl

theorem known_unproduce_ne (e : b ≠ out) :
    (G.unproduce out).Known b ↔ G.Known b := by
  rw [Graph.Known, unproduce_prod_ne e]
  rfl

theorem known_of_unproduce (h : (G.unproduce out).Known b) : G.Known b := by
  by_cases e : b = out
  · subst e
    rw [Graph.Known, unproduce_prod_self] at h
    exact .inr (h.resolve_left (by simp))
  · exact (known_unproduce_ne e).1 h

theorem Canon.unproduceUnread (h : Canon cat t G) (hn : Names cat W) (hw : Within cat W G)
    (hb : IsBuf cat W out) (hc : G.cons out = []) :
    Canon cat (t.erase out) (G.unproduce out) where
  buffers b hk := by
    have e : b ≠ out := by
      rintro rfl
      rw [Graph.Known, unproduce_prod_self] at hk
      exact (hk.resolve_left (by simp)) hc
    rw [AList.lookup_erase_ne e, unproduce_entry_ne e]
    exact h.buffers b (known_of_unproduce hk)
  dummies b hf c hc' := by
    obtain ⟨hcW, hci⟩ := hw.cons b c hc'
    rw [AList.lookup_erase_ne (hn.ne_dummy hcW hci hb).symm]
    exact h.dummies b hf c hc'
  only k e hk := by
    have e' : k ≠ out := by rintro rfl; simp at hk
    rw [AList.lookup_erase_ne e'] at hk
    rcases h.only k e hk with hk | ⟨b, hf, c, hc, rfl⟩
    · exact .inl ((known_unproduce_ne e').2 hk)
    · exact .inr ⟨b, hf, c, hc, rfl⟩

theorem Canon.unproduceRead (h : Canon cat t G) (hn : Names cat W) (hw : Within cat W G)
    (hb : IsBuf cat W out) (hc : G.cons out ≠ []) :
    Canon cat (t.insert out ((G.unproduce out).entry cat out)) (G.unproduce out) where
  buffers b hk := by
    by_cases e : b = out
    · rw [e, AList.lookup_insert]
    · rw [AList.lookup_insert_ne e, unproduce_entry_ne e]
      exact h.buffers b (known_of_unproduce hk)
  dummies b hf c hc' := by
    obtain ⟨hcW, hci⟩ := hw.cons b c hc'
    rw [AList.lookup_insert_ne (hn.ne_dummy hcW hci hb).symm]
    exact h.dummies b hf c hc'
  only k e hk := by
    by_cases e' : k = out
    · exact .inl (.inr (by rw [e']; exact hc))
    · rw [AList.lookup_insert_ne e'] at hk
      rcases h.only k e hk with hk | ⟨b, hf, c, hc, rfl⟩
      · exact .inl ((known_unproduce_ne e').2 hk)
      · exact .inr ⟨b, hf, c, hc, rfl⟩

variable (me) in
theorem dropOut_spec (h : Canon cat st.drv.bufStateTable G) (hn : Names cat W)
    (hw : Within cat W G) {p : StmtId} (hp : G.prod (cat s).out = some p) :
    ∃ st', dropOut cat me s st = .ok st' ∧
      Drops cat me G (G.unproduce (cat s).out) st st' := by
  have hk : G.Known (cat s).out := .inl (by simp [hp])
  have hlook := h.buffers _ hk
  have hb : IsBuf cat W (cat s).out := hw.isBuf hk
  match hc : G.cons (cat s).out with
  | [] =>
    have hu : ¬ (G.unproduce (cat s).out).Known (cat s).out := by
      rw [Graph.Known, unproduce_prod_self]
      simp [Graph.unproduce, hc]
    refine ⟨st.removeBuf me (cat s).out (G.entry cat (cat s).out), ?_,
      h.unproduceUnread hn hw hb hc, rfl, fun hl => ?_⟩
    · simp only [dropOut, hlook]
      rcases bufferTyOf_unread cat p with hty | hty <;> simp [entry_bType, hp, hc, hty]
    · exact lists_remove hl (fun x hx => known_unproduce_ne hx) hu rfl
  | c :: r =>
    have hcne : G.cons (cat s).out ≠ [] := by simp [hc]
    have hkk : ∀ x, G.Known x → (G.unproduce (cat s).out).Known x := by
      intro x hx
      by_cases e : x = (cat s).out
      · exact .inr (by rw [e]; exact hcne)
      · exact (known_unproduce_ne e).2 hx
    refine ⟨st.set (cat s).out ((G.unproduce (cat s).out).entry cat (cat s).out), ?_,
      h.unproduceRead hn hw hb hcne, rfl, fun hl => ?_⟩
    swap
    · have hsame := lists_same hl hkk
      exact hsame
    simp only [dropOut, hlook]
    rw [unproduce_entry_self]
    cases r with
    | nil =>
      by_cases hty : (cat p).type = .normal <;>
        simp [Graph.entry, render, hp, hc, bufferTyOf, hty, actionOf]
    | cons c₂ r =>
      by_cases hty : (cat p).type = .normal <;>
        simp [Graph.entry, render, hp, hc, bufferTyOf, hty, actionOf]

end Output

section Statement

variable {s : StmtId} {bs : List Name} {me : DrvId} {st : DropState}

/-- `s` stops reading these buffers one after the other. -/
def Graph.unreadAll (cat : Catalog) (s : StmtId) (bs : List Name) (G : Graph) : Graph :=
  bs.foldl (fun G b => G.unread cat s b) G

theorem unreadAll_cons_list (b : Name) :
    G.unreadAll cat s (b :: bs) = (G.unread cat s b).unreadAll cat s bs := rfl

@[simp]
theorem unreadAll_prod : (G.unreadAll cat s bs).prod = G.prod := by
  induction bs generalizing G with
  | nil => rfl
  | cons b bs ih => rw [unreadAll_cons_list, ih, unread_prod]

theorem unreadAll_cons (hbs : bs.Nodup) (b : Name) :
    (G.unreadAll cat s bs).cons b = if b ∈ bs then (G.cons b).erase s else G.cons b := by
  induction bs generalizing G with
  | nil => simp [Graph.unreadAll]
  | cons b₀ bs ih =>
    obtain ⟨hb₀, hbs⟩ := List.nodup_cons.1 hbs
    rw [unreadAll_cons_list, ih hbs]
    by_cases e : b = b₀
    · subst e
      rw [if_neg hb₀, unread_cons_self, if_pos List.mem_cons_self]
    · simp [unread_cons_ne e, e]

theorem known_of_unreadAll {x : Name} (h : (G.unreadAll cat s bs).Known x) : G.Known x := by
  induction bs generalizing G with
  | nil => exact h
  | cons b bs ih => exact known_of_unread (ih h)

theorem Within.unreadAll (hw : Within cat W G) : Within cat W (G.unreadAll cat s bs) := by
  induction bs generalizing G with
  | nil => exact hw
  | cons b bs ih => exact ih hw.unread

theorem Drops.refl (h : Canon cat st.drv.bufStateTable G) : Drops cat me G G st st :=
  ⟨h, rfl, fun hl => lists_same hl fun _ => id⟩

variable (me) in
theorem dropInputs_spec (h : Canon cat st.drv.bufStateTable G) (hn : Names cat W)
    (hw : Within cat W G) (hbs : bs.Nodup) (hs : ∀ b ∈ bs, s ∈ G.cons b)
    (hmade : ∀ b, ∀ c ∈ G.cons b, c ≠ s → G.prod (cat c).out = some c) :
    ∃ st', dropInputs cat me s bs st = .ok st' ∧
      Drops cat me G (G.unreadAll cat s bs) st st' := by
  induction bs generalizing G st with
  | nil => exact ⟨st, rfl, .refl h⟩
  | cons b bs ih =>
    obtain ⟨hb, hbs⟩ := List.nodup_cons.1 hbs
    obtain ⟨st₁, hok, hd⟩ := dropInput_spec me h hn hw (hs b (by simp)) (hmade b)
    have hs' : ∀ b' ∈ bs, s ∈ (G.unread cat s b).cons b' := by
      intro b' hb'
      rw [unread_cons_ne (by rintro rfl; exact hb hb')]
      exact hs b' (by simp [hb'])
    have hmade' : ∀ b', ∀ c ∈ (G.unread cat s b).cons b', c ≠ s →
        (G.unread cat s b).prod (cat c).out = some c := by
      intro b' c hc hcs
      rw [unread_prod]
      by_cases e : b' = b
      · subst e
        rw [unread_cons_self] at hc
        exact hmade b' c (List.mem_of_mem_erase hc) hcs
      · rw [unread_cons_ne e] at hc
        exact hmade b' c hc hcs
    obtain ⟨st', hok', hd'⟩ := ih hd.canon hw.unread hbs hs' hmade'
    refine ⟨st', by rw [dropInputs, hok]; exact hok', hd.trans hd' fun x hx => known_of_unreadAll hx⟩

def Graph.drop (cat : Catalog) (G : Graph) (s : StmtId) (bs : List Name) : Graph :=
  (G.unreadAll cat s bs).unproduce (cat s).out

/-- What `dropStmt` does to a statement that is in the graph. -/
structure Dropped (cat : Catalog) (me : DrvId) (s : StmtId) (bs : List Name) (G : Graph)
    (st st' : DropState) : Prop where
  canon : Canon cat st'.drv.bufStateTable (G.drop cat s bs)
  stmts : st'.drv.stmts = st.drv.stmts.eraseP fun x => (cat x).name = (cat s).name
  lists : Lists me G st → st'.drv.bufs = st.drv.bufs.filter (fun x => (G.drop cat s bs).Known x) ∧
    st'.bufToDrvMap = st.bufToDrvMap.filter fun e => (G.drop cat s bs).Known e.1

variable (me) in
theorem dropStmt_spec (h : Canon cat st.drv.bufStateTable G) (hn : Names cat W)
    (hw : Within cat W G) (hsW : s ∈ W) (hbs : (cat s).inBufs = some bs) (hin : s ∈ st.drv.stmts)
    (hs : ∀ b ∈ bs, s ∈ G.cons b)
    (hmade : ∀ b, ∀ c ∈ G.cons b, c ≠ s → G.prod (cat c).out = some c)
    (hp : G.prod (cat s).out = some s) :
    ∃ st', dropStmt cat me s st = .ok st' ∧ Dropped cat me s bs G st st' := by
  have hnd : bs.Nodup := Stmt.inputs_of hbs ▸ hn.inputsNodup s hsW
  obtain ⟨st₁, hok₁, hd₁⟩ := dropInputs_spec me h hn hw hnd hs hmade
  have hp' : (G.unreadAll cat s bs).prod (cat s).out = some s := by rw [unreadAll_prod, hp]
  obtain ⟨st₂, hok₂, hd₂⟩ := dropOut_spec me hd₁.canon hn hw.unreadAll hp'
  have hd := hd₁.trans hd₂ fun x => known_of_unproduce
  have hany : (st.drv.stmts.any fun x => (cat x).name = (cat s).name) = true :=
    List.any_eq_true.2 ⟨s, hin, by simp⟩
  refine ⟨{ st₂ with drv := { st₂.drv with
    stmts := st₂.drv.stmts.eraseP fun x => (cat x).name = (cat s).name } }, ?_, ?_⟩
  · simp only [dropStmt, hany, if_true, hbs, hok₁, hok₂]
  · exact ⟨hd.canon, by rw [← hd.stmts], hd.lists⟩

end Statement

end StreamMill.Esl
