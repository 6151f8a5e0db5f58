import StreamMill.Esl.BufGraph

/-!
# StreamMill.Esl.GraphAdd

`addStmt` on a canonical table: every input buffer is a `read` of the graph and the output a
`produce`.
-/

namespace StreamMill.Esl

variable {cat : Catalog} {W : List StmtId} {G : Graph} {t : BufStateTbl}

section Apart

variable {b : Name} {s : StmtId}

theorem Within.isBuf (hw : Within cat W G) (h : G.Known b) : IsBuf cat W b := by
  rcases h with h | h
  · obtain ⟨p, hp⟩ := Option.ne_none_iff_exists'.1 h
    exact ⟨p, (hw.prod b p hp).1, .inl (hw.prod b p hp).2.symm⟩
  · obtain ⟨c, hc⟩ := List.exists_mem_of_ne_nil _ h
    exact ⟨c, (hw.cons b c hc).1, .inr (hw.cons b c hc).2⟩

theorem IsBuf.out (h : s ∈ W) : IsBuf cat W (cat s).out := ⟨s, h, .inl rfl⟩

theorem IsBuf.input (h : s ∈ W) (hb : b ∈ (cat s).inputs) :
    IsBuf cat W b := ⟨s, h, .inr hb⟩

theorem Names.ne_dummy (hn : Names cat W) {b' : Name} (hs : s ∈ W) (hb : b ∈ (cat s).inputs)
    (h : IsBuf cat W b') : b' ≠ b ++ (cat s).out :=
  fun e => hn.dummyApart s hs b hb (e ▸ h)

theorem Names.dummy_ne (hn : Names cat W) {c : StmtId} {b' : Name} (hs : s ∈ W)
    (hb : b ∈ (cat s).inputs) (hc : c ∈ W) (hb' : b' ∈ (cat c).inputs) (h : b ≠ b' ∨ s ≠ c) :
    b' ++ (cat c).out ≠ b ++ (cat s).out := by
  intro e
  obtain ⟨rfl, ho⟩ := hn.dummyInj c hc s hs b' hb' b hb e
  have := hn.outInj c hc s hs ho
  grind

end Apart

namespace Graph

variable {s : StmtId} {b b' : Name}

theorem read_cons : (G.read cat s b).cons = Function.update G.cons b (G.cons b ++ [s]) := rfl

theorem read_prod : (G.read cat s b).prod = G.prod := rfl

theorem known_read : (G.read cat s b).Known b' ↔ G.Known b' ∨ b' = b := by
  unfold Known
  rw [read_cons, read_prod]
  by_cases h : b' = b
  · subst h; simp
  · simp [h]

end Graph

theorem Within.read (hw : Within cat W G) {s : StmtId} {b : Name} (hs : s ∈ W)
    (hb : b ∈ (cat s).inputs) (h : s ∉ G.cons b) : Within cat W (G.read cat s b) where
  cons b' c hc := by
    rw [Graph.read_cons] at hc
    by_cases e : b' = b
    · subst e
      rw [Function.update_self, List.mem_append, List.mem_singleton] at hc
      rcases hc with hc | rfl
      · exact hw.cons b' c hc
      · exact ⟨hs, hb⟩
    · rw [Function.update_of_ne e] at hc
      exact hw.cons b' c hc
  prod := hw.prod
  nodup b' := by
    rw [Graph.read_cons]
    by_cases e : b' = b
    · subst e
      rw [Function.update_self]
      exact (hw.nodup b').append (List.nodup_singleton s) (by simpa using h)
    · rw [Function.update_of_ne e]
      exact hw.nodup b'

section Read

variable {s : StmtId} {b : Name}

theorem Canon.unknown (h : Canon cat t G) (hn : Names cat W) (hw : Within cat W G)
    (hb : IsBuf cat W b) (hu : ¬ G.Known b) : t.lookup b = none := by
  by_contra hne
  obtain ⟨e, he⟩ := Option.ne_none_iff_exists'.1 hne
  rcases h.only b e he with hk | ⟨b', _, c, hc, rfl⟩
  · exact hu hk
  · obtain ⟨hcW, hci⟩ := hw.cons b' c hc
    exact hn.dummyApart c hcW b' hci hb

/-- A step that changes the readers of `b` only: the buffers and the dummies of `b` are
shown to be right, every other dummy is kept. -/
theorem Canon.of_step {G' : Graph} {t' : BufStateTbl} (h : Canon cat t G) (b : Name)
    (hcons : ∀ b', b' ≠ b → G'.cons b' = G.cons b')
    (hbuf : ∀ b', G'.Known b' → t'.lookup b' = some (G'.entry cat b'))
    (hdum : G'.Forks b → ∀ c ∈ G'.cons b,
      t'.lookup (b ++ (cat c).out) = some (dummyEntry (some c) b (cat c).out))
    (hkeep : ∀ b', b' ≠ b → ∀ c ∈ G.cons b',
      t'.lookup (b' ++ (cat c).out) = t.lookup (b' ++ (cat c).out))
    (honly : ∀ k e, t'.lookup k = some e → G'.Known k ∨
      (G'.Forks b ∧ ∃ c ∈ G'.cons b, k = b ++ (cat c).out) ∨
      ∃ b', b' ≠ b ∧ G.Forks b' ∧ ∃ c ∈ G.cons b', k = b' ++ (cat c).out) :
    Canon cat t' G' where
  buffers := hbuf
  dummies b' hf c hc := by
    by_cases e : b' = b
    · subst e
      exact hdum hf c hc
    · rw [Graph.Forks, hcons b' e] at hf
      rw [hcons b' e] at hc
      rw [hkeep b' e c hc]
      exact h.dummies b' hf c hc
  only k e hk := by
    rcases honly k e hk with hk | ⟨hf, c, hc, rfl⟩ | ⟨b', e', hf, c, hc, rfl⟩
    · exact .inl hk
    · exact .inr ⟨b, hf, c, hc, rfl⟩
    · exact .inr ⟨b', by rwa [Graph.Forks, hcons b' e'], c, by rwa [hcons b' e'], rfl⟩

variable {b' : Name}

theorem read_cons_ne (e : b' ≠ b) : (G.read cat s b).cons b' = G.cons b' := by
  rw [Graph.read_cons, Function.update_of_ne e]

theorem read_cons_self : (G.read cat s b).cons b = G.cons b ++ [s] := by
  rw [Graph.read_cons, Function.update_self]

theorem forks_cases (h : G.Forks b) : ∃ c₁ c₂ r, G.cons b = c₁ :: c₂ :: r := by
  unfold Graph.Forks at h
  match hc : G.cons b, h with
  | c₁ :: c₂ :: r, _ => exact ⟨c₁, c₂, r, rfl⟩

theorem read_first (hc : ∀ c, G.cons b ≠ [c]) : (G.read cat s b).first = G.first := by
  match h : G.cons b with
  | [] => simp [Graph.read, h]
  | [c] => exact absurd h (hc c)
  | _ :: _ :: _ => simp [Graph.read, h]

theorem read_back_ne (hc : ∀ c, G.cons b ≠ [c]) (e : b' ≠ b) :
    (G.read cat s b).back b' = G.back b' := by
  match h : G.cons b with
  | [] =>
    by_cases hp : G.prod b = none
    · simp [Graph.read, h, hp, Function.update_of_ne e]
    · simp [Graph.read, h, hp]
  | [c] => exact absurd h (hc c)
  | _ :: _ :: _ => simp [Graph.read, h]

theorem read_back_forks (hf : G.Forks b) : (G.read cat s b).back = G.back := by
  obtain ⟨c₁, c₂, r, hr⟩ := forks_cases hf
  simp [Graph.read, hr]

theorem Graph.Forks.ne_single (hf : G.Forks b) (c : StmtId) : G.cons b ≠ [c] := by
  intro hc
  simp [Graph.Forks, hc] at hf

theorem read_entry_ne (hc : ∀ c, G.cons b ≠ [c]) (e : b' ≠ b) :
    (G.read cat s b).entry cat b' = G.entry cat b' := by
  rw [Graph.entry, Graph.entry, read_cons_ne e, read_back_ne hc e, read_first hc,
    Graph.read_prod]

theorem read_entry_new (hu : ¬ G.Known b) :
    (G.read cat s b).entry cat b = sourceEntry s b (cat s).out := by
  have hp : G.prod b = none := by by_contra hp; exact hu (.inl hp)
  have hc : G.cons b = [] := by by_contra hc; exact hu (.inr hc)
  rw [Graph.entry]
  simp [Graph.read, hc, hp, sourceEntry, render, bufferTyOf, statementOf, inplaceOf,
    forwardOf, actionOf]

theorem read_entry_first {p : StmtId} (hp : G.prod b = some p) (hc : G.cons b = []) :
    (G.read cat s b).entry cat b = (G.entry cat b).toRead s (cat s).out b := by
  rw [Graph.entry, Graph.entry, hp, hc, render_toRead]
  simp [Graph.read, hc, hp]

theorem Canon.readFirst (h : Canon cat t G) (hn : Names cat W) (hw : Within cat W G)
    (hs : s ∈ W) (hb : b ∈ (cat s).inputs) (hc : G.cons b = []) :
    Canon cat (t.insert b ((G.read cat s b).entry cat b)) (G.read cat s b) := by
  refine h.of_step b (fun b' e => read_cons_ne e) ?_ ?_ ?_ ?_
  · intro b' hk
    by_cases e : b' = b
    · subst e
      rw [AList.lookup_insert]
    · rw [AList.lookup_insert_ne e, h.buffers b' ((Graph.known_read.1 hk).resolve_right e),
        read_entry_ne (by simp [hc]) e]
  · intro hf
    simp [Graph.Forks, read_cons_self, hc] at hf
  · intro b' e c hc'
    obtain ⟨hcW, hci⟩ := hw.cons b' c hc'
    rw [AList.lookup_insert_ne (hn.ne_dummy hcW hci (.input hs hb)).symm]
  · intro k e hk
    by_cases e' : k = b
    · exact .inl (Graph.known_read.2 (.inr e'))
    · rw [AList.lookup_insert_ne e'] at hk
      rcases h.only k e hk with hk | ⟨b', hf, c, hc', rfl⟩
      · exact .inl (Graph.known_read.2 (.inl hk))
      · have hne : b' ≠ b := by rintro rfl; simp [hc] at hc'
        exact .inr (.inr ⟨b', hne, hf, c, hc', rfl⟩)

theorem Canon.only_read (h : Canon cat t G) {t' : BufStateTbl}
    (ht : ∀ k e, t'.lookup k = some e → (∃ e', t.lookup k = some e') ∨
      ∃ c ∈ G.cons b ++ [s], k = b ++ (cat c).out) (hne : G.cons b ≠ []) :
    ∀ k e, t'.lookup k = some e → (G.read cat s b).Known k ∨
      ((G.read cat s b).Forks b ∧ ∃ c ∈ (G.read cat s b).cons b, k = b ++ (cat c).out) ∨
      ∃ b', b' ≠ b ∧ G.Forks b' ∧ ∃ c ∈ G.cons b', k = b' ++ (cat c).out := by
  have hf : (G.read cat s b).Forks b := by
    have := List.length_pos_iff.2 hne
    rw [Graph.Forks, read_cons_self, List.length_append, List.length_singleton]
    omega
  intro k e hk
  rcases ht k e hk with ⟨e', hk⟩ | ⟨c, hc, rfl⟩
  · rcases h.only k e' hk with hk | ⟨b', hf', c, hc, rfl⟩
    · exact .inl (Graph.known_read.2 (.inl hk))
    · by_cases e : b' = b
      · subst e
        exact .inr (.inl ⟨hf, c, by rw [read_cons_self]; simp [hc], rfl⟩)
      · exact .inr (.inr ⟨b', e, hf', c, hc, rfl⟩)
  · exact .inr (.inl ⟨hf, c, by rwa [read_cons_self], rfl⟩)

theorem Canon.readFork (h : Canon cat t G) (hn : Names cat W) (hw : Within cat W G)
    (hs : s ∈ W) (hb : b ∈ (cat s).inputs) (hsc : s ∉ G.cons b) (hf : G.Forks b) :
    ∃ t', growFork s (cat s).out t b (G.entry cat b) = some t' ∧
      Canon cat t' (G.read cat s b) := by
  obtain ⟨c₁, c₂, r, hr⟩ := forks_cases hf
  have hcons : G.cons b ≠ [] := by simp [hr]
  have hfw : (G.entry cat b).forward = .forkCount (G.cons b).length := by
    simp [Graph.entry, render, forwardOf, hr]
  have hentry : { G.entry cat b with forward := .forkCount ((G.cons b).length + 1) }
      = (G.read cat s b).entry cat b := by
    rw [Graph.entry, render_grow hf s, Graph.entry, read_cons_self, Graph.read_prod,
      read_first hf.ne_single, read_back_forks hf]
  refine ⟨(t.insert b ((G.read cat s b).entry cat b)).insert (b ++ (cat s).out)
    (dummyEntry (some s) b (cat s).out), by rw [growFork, hfw, ← hentry], ?_⟩
  refine h.of_step b (fun b' e => read_cons_ne e) ?_ ?_ ?_ (h.only_read ?_ hcons)
  · intro b' hk
    have hb' : b' ≠ b ++ (cat s).out := hn.ne_dummy hs hb ((hw.read hs hb hsc).isBuf hk)
    rw [AList.lookup_insert_ne hb']
    by_cases e : b' = b
    · subst e
      rw [AList.lookup_insert]
    · rw [AList.lookup_insert_ne e, h.buffers b' ((Graph.known_read.1 hk).resolve_right e),
        read_entry_ne hf.ne_single e]
  · intro _ c hc
    rw [read_cons_self, List.mem_append, List.mem_singleton] at hc
    rcases hc with hc | rfl
    · obtain ⟨hcW, hci⟩ := hw.cons b c hc
      have hcs : s ≠ c := by rintro rfl; exact hsc hc
      rw [AList.lookup_insert_ne (hn.dummy_ne hs hb hcW hci (.inr hcs)),
        AList.lookup_insert_ne (hn.ne_dummy hcW hci (.input hs hb)).symm]
      exact h.dummies b hf c hc
    · rw [AList.lookup_insert]
  · intro b' e c hc'
    obtain ⟨hcW, hci⟩ := hw.cons b' c hc'
    rw [AList.lookup_insert_ne (hn.dummy_ne hs hb hcW hci (.inl (Ne.symm e))),
      AList.lookup_insert_ne (hn.ne_dummy hcW hci (.input hs hb)).symm]
  · intro k e hk
    by_cases e₁ : k = b ++ (cat s).out
    · exact .inr ⟨s, by simp, e₁⟩
    · rw [AList.lookup_insert_ne e₁] at hk
      by_cases e₂ : k = b
      · exact .inl ⟨_, e₂ ▸ h.buffers b (.inr hcons)⟩
      · rw [AList.lookup_insert_ne e₂] at hk
        exact .inl ⟨e, hk⟩

variable (cat) in
theorem bufferTyOf_unread (p : StmtId) :
    bufferTyOf cat (some p) [] = .sink ∨ bufferTyOf cat (some p) [] = .mergeSink := by
  by_cases h : (cat p).type = .normal <;> simp [bufferTyOf, h]

variable (cat) in
theorem bufferTyOf_single (p : Option StmtId) (c : StmtId) :
    bufferTyOf cat p [c] = .source ∨ bufferTyOf cat p [c] = .normal ∨
      bufferTyOf cat p [c] = .merge := by
  cases p with
  | none => exact .inl rfl
  | some p => by_cases h : (cat p).type = .normal <;> simp [bufferTyOf, h]

variable (cat) in
theorem bufferTyOf_fork (p : Option StmtId) (c₁ c₂ : StmtId) (r : List StmtId) :
    bufferTyOf cat p (c₁ :: c₂ :: r) = .sourceFork ∨ bufferTyOf cat p (c₁ :: c₂ :: r) = .fork ∨
      bufferTyOf cat p (c₁ :: c₂ :: r) = .mergeFork := by
  cases p with
  | none => exact .inl rfl
  | some p => by_cases h : (cat p).type = .normal <;> simp [bufferTyOf, h]

theorem isMergeTy_bufferTyOf (p : StmtId) (cs : List StmtId) :
    isMergeTy (bufferTyOf cat (some p) cs) = true ↔ (cat p).type ≠ .normal := by
  match cs with
  | [] => by_cases h : (cat p).type = .normal <;> simp [bufferTyOf, isMergeTy, h]
  | [_] => by_cases h : (cat p).type = .normal <;> simp [bufferTyOf, isMergeTy, h]
  | _ :: _ :: _ => by_cases h : (cat p).type = .normal <;> simp [bufferTyOf, isMergeTy, h]

section Second

variable {c : StmtId}

theorem read_first_second (hc : G.cons b = [c]) :
    (G.read cat s b).first = Function.update G.first b (some c) := by simp [Graph.read, hc]

variable (cat s) in
theorem read_back_second (hc : G.cons b = [c]) :
    (G.read cat s b).back = if (cat c).type = .normal then
      Function.update G.back (cat c).out (.backBuf (some (b ++ (cat c).out))) else G.back := by
  simp [Graph.read, hc]

theorem toFork_entry (hc : G.cons b = [c]) (b' : Name) :
    (if b' = b then (G.entry cat b).toFork else G.entry cat b')
      = { (G.read cat s b).entry cat b' with back := G.back b' } := by
  by_cases e : b' = b
  · subst e
    rw [if_pos rfl, Graph.entry, hc, render_toFork c s, Graph.entry, read_cons_self, hc,
      read_first_second hc, Function.update_self]
    rfl
  · rw [if_neg e, Graph.entry, Graph.entry, read_cons_ne e, read_first_second hc,
      Function.update_of_ne e]
    rfl

theorem Canon.readSecond (h : Canon cat t G) (hn : Names cat W) (hw : Within cat W G)
    (hs : s ∈ W) (hb : b ∈ (cat s).inputs) (hc : G.cons b = [c]) (hcs : s ≠ c)
    (hprod : G.prod (cat c).out = some c) :
    ∃ t', makeFork s (cat s).out t b (G.entry cat b) = some t' ∧
      Canon cat t' (G.read cat s b) := by
  have hcons : G.cons b ≠ [] := by simp [hc]
  obtain ⟨hcW, hci⟩ := hw.cons b c (by simp [hc])
  have hkf : G.Known (cat c).out := .inl (by simp [hprod])
  have hkb : G.Known b := .inr hcons
  have hknown : ∀ b', (G.read cat s b).Known b' → G.Known b' := by
    intro b' hk
    exact (Graph.known_read.1 hk).elim id fun e => e ▸ hkb
  have hfw : (G.entry cat b).forward = .forwardBuf (some (cat c).out) := by
    simp [Graph.entry, render, forwardOf, hc]
  have hst : (G.entry cat b).statement = some c := by
    simp [Graph.entry, render, statementOf, hc]
  -- the table with the two old entries rewritten but for `back`
  set t₂ := (t.insert b (G.entry cat b).toFork).insert (b ++ (cat c).out)
    (dummyEntry (some c) b (cat c).out) with ht₂
  have h₂ : ∀ b', G.Known b' →
      t₂.lookup b' = some { (G.read cat s b).entry cat b' with back := G.back b' } := by
    intro b' hk
    rw [AList.lookup_insert_ne (hn.ne_dummy hcW hci (hw.isBuf hk)), ← toFork_entry hc]
    by_cases e : b' = b
    · rw [if_pos e, e, AList.lookup_insert]
    · rw [if_neg e, AList.lookup_insert_ne e, h.buffers b' hk]
  set g := { (G.read cat s b).entry cat (cat c).out with back := G.back (cat c).out } with hg
  have hgm : isMergeTy g.bType = true ↔ (cat c).type ≠ .normal := by
    have : g.bType = bufferTyOf cat (some c) ((G.read cat s b).cons (cat c).out) := by
      rw [← hprod]; rfl
    rw [this]
    exact isMergeTy_bufferTyOf c _
  set t₃ := if isMergeTy g.bType then t₂
    else t₂.insert (cat c).out { g with back := .backBuf (some (b ++ (cat c).out)) } with ht₃
  have h₃ : ∀ b', G.Known b' → t₃.lookup b' = some ((G.read cat s b).entry cat b') := by
    intro b' hk
    by_cases hty : (cat c).type = .normal
    · rw [ht₃, if_neg (by rw [hgm]; simpa using hty)]
      by_cases e : b' = (cat c).out
      · subst e
        rw [AList.lookup_insert, Graph.entry, read_back_second _ _ hc, if_pos hty,
          Function.update_self]
        rfl
      · rw [AList.lookup_insert_ne e, h₂ b' hk, Graph.entry, read_back_second _ _ hc, if_pos hty,
          Function.update_of_ne e]
        rfl
    · rw [ht₃, if_pos (hgm.2 hty), h₂ b' hk, Graph.entry, read_back_second _ _ hc, if_neg hty]
      rfl
  have hmake : makeFork s (cat s).out t b (G.entry cat b)
      = some (t₃.insert (b ++ (cat s).out) (dummyEntry (some s) b (cat s).out)) := by
    rw [makeFork, hfw]
    simp only [hst]
    rw [h₂ _ hkf]
  -- what the table says elsewhere
  have hrest : ∀ k, k ≠ b → k ≠ b ++ (cat c).out → k ≠ (cat c).out →
      t₃.lookup k = t.lookup k := by
    intro k h₁ h₂ h₃
    have : t₂.lookup k = t.lookup k := by
      rw [AList.lookup_insert_ne h₂, AList.lookup_insert_ne h₁]
    rw [ht₃]
    split
    · exact this
    · rw [AList.lookup_insert_ne h₃, this]
  have hdum : t₃.lookup (b ++ (cat c).out) = some (dummyEntry (some c) b (cat c).out) := by
    have hne := (hn.ne_dummy hcW hci (.out hcW)).symm
    rw [ht₃]
    split
    · rw [AList.lookup_insert]
    · rw [AList.lookup_insert_ne hne, AList.lookup_insert]
  refine ⟨_, hmake, ?_⟩
  refine h.of_step b (fun b' e => read_cons_ne e) ?_ ?_ ?_ (h.only_read ?_ hcons)
  · intro b' hk
    rw [AList.lookup_insert_ne (hn.ne_dummy hs hb (hw.isBuf (hknown b' hk)))]
    exact h₃ b' (hknown b' hk)
  · intro _ c' hc'
    rw [read_cons_self, hc, List.mem_append, List.mem_singleton, List.mem_singleton] at hc'
    rcases hc' with rfl | rfl
    · rw [AList.lookup_insert_ne (hn.dummy_ne hs hb hcW hci (.inr hcs))]
      exact hdum
    · rw [AList.lookup_insert]
  · intro b' e c' hc'
    obtain ⟨hcW', hci'⟩ := hw.cons b' c' hc'
    rw [AList.lookup_insert_ne (hn.dummy_ne hs hb hcW' hci' (.inl (Ne.symm e)))]
    exact hrest _ (hn.ne_dummy hcW' hci' (.input hs hb)).symm
      (hn.dummy_ne hcW hci hcW' hci' (.inl (Ne.symm e)))
      (hn.ne_dummy hcW' hci' (.out hcW)).symm
  · intro k e hk
    by_cases e₁ : k = b ++ (cat s).out
    · exact .inr ⟨s, by simp, e₁⟩
    by_cases e₂ : k = b ++ (cat c).out
    · exact .inr ⟨c, by simp [hc], e₂⟩
    by_cases e₃ : k = b
    · exact .inl ⟨_, e₃ ▸ h.buffers b hkb⟩
    by_cases e₄ : k = (cat c).out
    · exact .inl ⟨_, e₄ ▸ h.buffers _ hkf⟩
    rw [AList.lookup_insert_ne e₁, hrest k e₃ e₂ e₄] at hk
    exact .inl ⟨e, hk⟩

end Second

end Read

section Input

variable {s : StmtId} {b : Name}

theorem entry_bType (b : Name) : (G.entry cat b).bType = bufferTyOf cat (G.prod b) (G.cons b) :=
  rfl

theorem Canon.outUsable_iff (h : Canon cat t G) (hn : Names cat W) (hw : Within cat W G)
    (hb : IsBuf cat W b) : outUsable t b = true ↔ G.prod b = none := by
  by_cases hk : G.Known b
  · rw [outUsable, h.buffers b hk]
    cases hp : G.prod b with
    | none =>
      have hc : G.cons b ≠ [] := hk.resolve_left (by simp [hp])
      rcases hc' : G.cons b with _ | ⟨c, _ | ⟨c', cs⟩⟩
      · exact absurd hc' hc
      · simp [entry_bType, bufferTyOf, hp, hc']
      · simp [entry_bType, bufferTyOf, hp, hc']
    | some p =>
      rcases hc' : G.cons b with _ | ⟨c, _ | ⟨c', cs⟩⟩ <;>
        by_cases hty : (cat p).type = .normal <;> simp [entry_bType, bufferTyOf, hp, hc', hty]
  · rw [outUsable, h.unknown hn hw hb hk]
    simpa using fun hp => hk (.inl hp)

/-- What refuses an input: it is known, and the output is produced already or the input is a
window that another statement reads. -/
def Refuses (cat : Catalog) (G : Graph) (s : StmtId) (b : Name) : Prop :=
  G.Known b ∧ (G.prod (cat s).out ≠ none ∨
    (cat s).type = .join ∧ b ≠ (cat s).inb ∧ (G.cons b).length = 1)

structure TookInput (cat : Catalog) (s : StmtId) (b : Name) (G : Graph) (a a' : AddLoop) :
    Prop where
  canon : Canon cat a'.drv.bufStateTable (G.read cat s b)
  stmts : a'.drv.stmts = a.drv.stmts
  known : G.Known b → a'.drv.bufs = a.drv.bufs
  unknown : ¬ G.Known b → a'.drv.bufs = a.drv.bufs ++ [b]
  inType : isForkTy a'.inType = true ↔ (G.read cat s b).Forks b
  dummyName : (G.read cat s b).Forks b → a'.dummyName = some (b ++ (cat s).out)

variable {a : AddLoop}

section

variable (h : Canon cat a.drv.bufStateTable G) (hn : Names cat W) (hw : Within cat W G) (hs : s ∈ W)
include h hn hw hs

theorem addInput_unknown (hb : b ∈ (cat s).inputs) (hk : ¬ G.Known b) :
    ∃ a', addInput cat s a b = .ok a' ∧ TookInput cat s b G a a' := by
  have hc : G.cons b = [] := by by_contra hc; exact hk (.inr hc)
  have hf : ¬ (G.read cat s b).Forks b := by simp [Graph.Forks, read_cons_self, hc]
  have hcan := h.readFirst hn hw hs hb hc
  rw [read_entry_new hk] at hcan
  refine ⟨⟨(a.drv.set b (sourceEntry s b (cat s).out)).pushBuf b, .source, a.dummyName⟩, ?_, ?_⟩
  · rw [addInput, h.unknown hn hw (.input hs hb) hk]
  · exact ⟨hcan, rfl, fun hk' => absurd hk' hk, fun _ => rfl, by simp [isForkTy, hf],
      fun hf' => absurd hf' hf⟩

theorem addInput_used (hk : G.Known b) (hp : G.prod (cat s).out ≠ none) :
    addInput cat s a b = .error (.failure a.drv) := by
  rw [addInput, h.buffers b hk]
  simp [h.outUsable_iff hn hw (.out hs), hp]

section

variable (hb : b ∈ (cat s).inputs)
include hb

theorem addInput_first (hk : G.Known b) (hp : G.prod (cat s).out = none) (hc : G.cons b = []) :
    ∃ a', addInput cat s a b = .ok a' ∧ TookInput cat s b G a a' := by
  obtain ⟨p, hpb⟩ := Option.ne_none_iff_exists'.1 (hk.resolve_right (by simp [hc]))
  have husable := (h.outUsable_iff hn hw (.out hs)).2 hp
  have hf : ¬ (G.read cat s b).Forks b := by simp [Graph.Forks, read_cons_self, hc]
  have hcan := h.readFirst hn hw hs hb hc
  rw [read_entry_first hpb hc] at hcan
  have hty : bufferTyOf cat (some p) [] = .sink ∨ bufferTyOf cat (some p) [] = .mergeSink :=
    bufferTyOf_unread cat p
  refine ⟨⟨a.drv.set b ((G.entry cat b).toRead s (cat s).out b),
    ((G.entry cat b).toRead s (cat s).out b).bType, a.dummyName⟩, ?_, ?_⟩
  · rw [addInput, h.buffers b hk]
    rcases hty with hty | hty <;> simp [husable, entry_bType, hpb, hc, hty]
  · refine ⟨hcan, rfl, fun _ => rfl, absurd hk, ?_, fun hf' => absurd hf' hf⟩
    rcases hty with hty | hty <;>
      simp [isForkTy, hf, BufferEntry.toRead, entry_bType, hpb, hc, hty]

theorem addInput_second {c : StmtId} (hp : G.prod (cat s).out = none) (hc : G.cons b = [c])
    (hcs : s ≠ c) (hmade : G.prod (cat c).out = some c) :
    if (cat s).type = .join ∧ b ≠ (cat s).inb then addInput cat s a b = .error (.failure a.drv)
    else ∃ a', addInput cat s a b = .ok a' ∧ TookInput cat s b G a a' := by
  have hk : G.Known b := .inr (by simp [hc])
  have husable := (h.outUsable_iff hn hw (.out hs)).2 hp
  obtain ⟨t', hmk, hcan⟩ := h.readSecond hn hw hs hb hc hcs hmade
  have hf : (G.read cat s b).Forks b := by simp [Graph.Forks, read_cons_self, hc]
  split
  · rename_i hj
    rw [addInput, h.buffers b hk]
    rcases bufferTyOf_single cat (G.prod b) c with hty | hty | hty <;>
      simp [husable, entry_bType, hc, hty, hj]
  · rename_i hj
    refine ⟨⟨{ a.drv with bufStateTable := t' }, (G.entry cat b).toFork.bType,
      some (b ++ (cat s).out)⟩, ?_, ?_⟩
    · rw [addInput, h.buffers b hk]
      rcases bufferTyOf_single cat (G.prod b) c with hty | hty | hty <;>
        simp [husable, entry_bType, hc, hty, hj, hmk]
    · refine ⟨hcan, rfl, fun _ => rfl, absurd hk, ?_, fun _ => rfl⟩
      rw [Graph.entry, hc, render_toFork c s, render]
      rcases bufferTyOf_fork cat (G.prod b) c s [] with hty | hty | hty <;> simp [isForkTy, hty, hf]

theorem addInput_fork (hp : G.prod (cat s).out = none) (hsc : s ∉ G.cons b) (hf : G.Forks b) :
    ∃ a', addInput cat s a b = .ok a' ∧ TookInput cat s b G a a' := by
  have husable := (h.outUsable_iff hn hw (.out hs)).2 hp
  obtain ⟨t', hmk, hcan⟩ := h.readFork hn hw hs hb hsc hf
  have hf' : (G.read cat s b).Forks b := by
    unfold Graph.Forks at hf ⊢
    rw [read_cons_self, List.length_append]
    omega
  obtain ⟨c₁, c₂, r, hr⟩ := forks_cases hf
  have hk : G.Known b := .inr (by simp [hr])
  refine ⟨⟨{ a.drv with bufStateTable := t' }, (G.entry cat b).bType, some (b ++ (cat s).out)⟩,
    ?_, ?_⟩
  · rw [addInput, h.buffers b hk]
    rcases bufferTyOf_fork cat (G.prod b) c₁ c₂ r with hty | hty | hty <;>
      simp [husable, entry_bType, hr, hty, hmk]
  · refine ⟨hcan, rfl, fun _ => rfl, absurd hk, ?_, fun _ => rfl⟩
    rw [entry_bType, hr]
    rcases bufferTyOf_fork cat (G.prod b) c₁ c₂ r with hty | hty | hty <;> simp [isForkTy, hty, hf']

theorem addInput_spec (hsc : s ∉ G.cons b) (hmade : ∀ c ∈ G.cons b, G.prod (cat c).out = some c) :
    (Refuses cat G s b ∧ addInput cat s a b = .error (.failure a.drv)) ∨
    (¬ Refuses cat G s b ∧ ∃ a', addInput cat s a b = .ok a' ∧ TookInput cat s b G a a') := by
  by_cases hk : G.Known b
  swap
  · exact .inr ⟨fun hr => hk hr.1, addInput_unknown h hn hw hs hb hk⟩
  by_cases hp : G.prod (cat s).out = none
  swap
  · exact .inl ⟨⟨hk, .inl hp⟩, addInput_used h hn hw hs hk hp⟩
  have hiff : Refuses cat G s b ↔
      ((cat s).type = .join ∧ b ≠ (cat s).inb) ∧ (G.cons b).length = 1 := by
    simp [Refuses, hk, hp, and_assoc]
  rw [hiff]
  match hc : G.cons b with
  | [] => exact .inr ⟨by simp, addInput_first h hn hw hs hb hk hp hc⟩
  | [c] =>
    have hcs : s ≠ c := by rintro rfl; simp [hc] at hsc
    have := addInput_second h hn hw hs hb hp hc hcs (hmade c (by simp [hc]))
    by_cases hj : (cat s).type = .join ∧ b ≠ (cat s).inb
    · rw [if_pos hj] at this
      exact .inl ⟨⟨hj, rfl⟩, this⟩
    · rw [if_neg hj] at this
      exact .inr ⟨fun h' => hj h'.1, this⟩
  | c₁ :: c₂ :: r =>
    exact .inr ⟨by simp, addInput_fork h hn hw hs hb hp hsc (by simp [Graph.Forks, hc])⟩

end

end

end Input

section Output

variable {s : StmtId} {out : Name} {bk : Bk}
variable {b : Name}

theorem produce_prod_ne (e : b ≠ out) :
    (G.produce s out bk).prod b = G.prod b := Function.update_of_ne e _ _

theorem produce_prod_self : (G.produce s out bk).prod out = some s := Function.update_self ..

theorem produce_entry_ne (e : b ≠ out) :
    (G.produce s out bk).entry cat b = G.entry cat b := by
  rw [Graph.entry, Graph.entry, produce_prod_ne e]
  simp only [Graph.produce]
  rw [Function.update_of_ne e]

theorem known_produce :
    (G.produce s out bk).Known b ↔ G.Known b ∨ b = out := by
  by_cases e : b = out
  · subst e
    simp [Graph.Known, produce_prod_self]
  · simp only [Graph.Known, produce_prod_ne e, e, or_false]
    rfl

variable (s bk) in
theorem Canon.produce (h : Canon cat t G) (hn : Names cat W) (hw : Within cat W G)
    (hb : IsBuf cat W out) :
    Canon cat (t.insert out ((G.produce s out bk).entry cat out)) (G.produce s out bk) where
  buffers b hk := by
    by_cases e : b = out
    · subst e
      rw [AList.lookup_insert]
    · rw [AList.lookup_insert_ne e, produce_entry_ne e]
      exact h.buffers b ((known_produce.1 hk).resolve_right e)
  dummies b hf c hc := by
    obtain ⟨hcW, hci⟩ := hw.cons b c hc
    rw [AList.lookup_insert_ne (hn.ne_dummy hcW hci hb).symm]
    exact h.dummies b hf c hc
  only k e hk := by
    by_cases e' : k = out
    · exact .inl (known_produce.2 (.inr e'))
    · rw [AList.lookup_insert_ne e'] at hk
      rcases h.only k e hk with hk | ⟨b, hf, c, hc, rfl⟩
      · exact .inl (known_produce.2 (.inl hk))
      · exact .inr ⟨b, hf, c, hc, rfl⟩

/-- The `back` of a buffer that `s` produces. -/
def Graph.backFor (cat : Catalog) (G : Graph) (s : StmtId) : Bk :=
  if (cat s).type = .normal then
    if 2 ≤ (G.cons (cat s).inb).length then .backBuf (some ((cat s).inb ++ (cat s).out))
    else .backBuf (some (cat s).inb)
  else .unionStmt s

structure MadeOut (cat : Catalog) (s : StmtId) (G : Graph) (d d' : Driver) : Prop where
  canon : Canon cat d'.bufStateTable (G.produce s (cat s).out (G.backFor cat s))
  stmts : d'.stmts = d.stmts
  known : G.Known (cat s).out → d'.bufs = d.bufs
  unknown : ¬ G.Known (cat s).out → d'.bufs = d.bufs ++ [(cat s).out]

variable {a : AddLoop}

theorem backOf_eq (hty : (cat s).type = .normal)
    (hin : isForkTy a.inType = true ↔ G.Forks (cat s).inb)
    (hdum : G.Forks (cat s).inb → a.dummyName = some ((cat s).inb ++ (cat s).out)) :
    backOf a (cat s).inb = G.backFor cat s := by
  rw [backOf, Graph.backFor, if_pos hty]
  by_cases hf : G.Forks (cat s).inb
  · rw [if_pos (hin.2 hf), hdum hf]
    exact (if_pos hf).symm
  · rw [if_neg (mt hin.1 hf)]
    exact (if_neg hf).symm

theorem produce_entry_self : (G.produce s out bk).entry cat out =
    { G.entry cat out with
      bType := bufferTyOf cat (some s) (G.cons out)
      action := actionOf (bufferTyOf cat (some s) (G.cons out))
      back := bk } := by
  rw [Graph.entry]
  simp only [Graph.produce, Function.update_self]
  rfl

theorem addOut_used (h : Canon cat a.drv.bufStateTable G) (hp : G.prod (cat s).out ≠ none) :
    addOut cat s a = .error (.failure a.drv) := by
  obtain ⟨p, hp⟩ := Option.ne_none_iff_exists'.1 hp
  have hlook := h.buffers (cat s).out (.inl (by simp [hp]))
  have hty : ((G.entry cat (cat s).out).bType ≠ .source) ∧
      (G.entry cat (cat s).out).bType ≠ .sourceFork := by
    rw [entry_bType, hp]
    match G.cons (cat s).out with
    | [] => by_cases h : (cat p).type = .normal <;> simp [bufferTyOf, h]
    | [_] => by_cases h : (cat p).type = .normal <;> simp [bufferTyOf, h]
    | _ :: _ :: _ => by_cases h : (cat p).type = .normal <;> simp [bufferTyOf, h]
  simp only [addOut, hlook]
  generalize hty' : (G.entry cat (cat s).out).bType = ty at hty ⊢
  cases hs : (cat s).type <;> cases ty <;> simp_all

theorem sink_entry (hty : (cat s).type = .normal) (hc : G.cons out = []) (b : Name) :
    (G.produce s out bk).entry cat out = { sinkEntry out b with back := bk } := by
  rw [produce_entry_self]
  simp [sinkEntry, Graph.entry, render, bufferTyOf, hc, statementOf, inplaceOf, forwardOf,
    actionOf, hty]

theorem mergeSink_entry (hty : (cat s).type ≠ .normal) (hc : G.cons out = []) :
    (G.produce s out (.unionStmt s)).entry cat out = mergeSinkEntry s out := by
  rw [produce_entry_self]
  simp [mergeSinkEntry, Graph.entry, render, bufferTyOf, hc, statementOf, inplaceOf, forwardOf,
    actionOf, hty]

theorem backFor_merge (hty : (cat s).type ≠ .normal) : G.backFor cat s = .unionStmt s :=
  if_neg hty

theorem addOut_unknown (h : Canon cat a.drv.bufStateTable G) (hn : Names cat W)
    (hw : Within cat W G) (hs : s ∈ W) (hk : ¬ G.Known (cat s).out)
    (hback : (cat s).type = .normal → backOf a (cat s).inb = G.backFor cat s) :
    addOut cat s a = .ok ((a.drv.set (cat s).out
      ((G.produce s (cat s).out (G.backFor cat s)).entry cat (cat s).out)).pushBuf (cat s).out) := by
  have hlook := h.unknown hn hw (.out hs) hk
  have hc : G.cons (cat s).out = [] := by by_contra hc; exact hk (.inr hc)
  simp only [addOut, hlook]
  by_cases hty : (cat s).type = .normal
  · rw [hback hty, sink_entry hty hc (cat s).inb, hty]
  · rw [backFor_merge hty, mergeSink_entry hty hc]
    cases hty' : (cat s).type <;> simp_all

theorem addOut_known (h : Canon cat a.drv.bufStateTable G) (hk : G.Known (cat s).out)
    (hp : G.prod (cat s).out = none)
    (hback : (cat s).type = .normal → backOf a (cat s).inb = G.backFor cat s) :
    addOut cat s a = .ok (a.drv.set (cat s).out
      ((G.produce s (cat s).out (G.backFor cat s)).entry cat (cat s).out)) := by
  have hlook := h.buffers _ hk
  have hmerge : (cat s).type ≠ .normal → G.backFor cat s = .unionStmt s := backFor_merge
  rw [produce_entry_self]
  match hc : G.cons (cat s).out, hk.resolve_left (by simp [hp]) with
  | [c], _ =>
    have hty : (G.entry cat (cat s).out).bType = .source := by rw [entry_bType, hp, hc]; rfl
    have hact : (G.entry cat (cat s).out).action = .cjump := by
      simp [Graph.entry, render, hp, hc, bufferTyOf, actionOf]
    cases hs : (cat s).type <;> simp_all [addOut, bufferTyOf, actionOf]
  | c₁ :: c₂ :: r, _ =>
    have hty : (G.entry cat (cat s).out).bType = .sourceFork := by rw [entry_bType, hp, hc]; rfl
    have hact : (G.entry cat (cat s).out).action = .cfork := by
      simp [Graph.entry, render, hp, hc, bufferTyOf, actionOf]
    cases hs : (cat s).type <;> simp_all [addOut, bufferTyOf, actionOf]

theorem addOut_spec (h : Canon cat a.drv.bufStateTable G) (hn : Names cat W)
    (hw : Within cat W G) (hs : s ∈ W)
    (hback : (cat s).type = .normal → backOf a (cat s).inb = G.backFor cat s) :
    (G.prod (cat s).out ≠ none ∧ addOut cat s a = .error (.failure a.drv)) ∨
    (G.prod (cat s).out = none ∧ ∃ d', addOut cat s a = .ok d' ∧ MadeOut cat s G a.drv d') := by
  have hcan := h.produce s (G.backFor cat s) hn hw (.out hs)
  by_cases hp : G.prod (cat s).out = none
  · refine .inr ⟨hp, ?_⟩
    by_cases hk : G.Known (cat s).out
    · exact ⟨_, addOut_known h hk hp hback, hcan, rfl, fun _ => rfl, absurd hk⟩
    · exact ⟨_, addOut_unknown h hn hw hs hk hback, hcan, rfl, fun hk' => absurd hk' hk,
        fun _ => rfl⟩
  · exact .inl ⟨hp, addOut_used h hp⟩

end Output

section Inputs

instance (G : Graph) : DecidablePred G.Known := fun _ => inferInstanceAs (Decidable (_ ∨ _))

def Graph.readAll (cat : Catalog) (s : StmtId) (bs : List Name) (G : Graph) : Graph :=
  bs.foldl (fun G b => G.read cat s b) G

variable {s : StmtId} {bs : List Name}

@[simp]
theorem readAll_nil : G.readAll cat s [] = G := rfl

theorem readAll_cons_list (b : Name) :
    G.readAll cat s (b :: bs) = (G.read cat s b).readAll cat s bs := rfl

@[simp]
theorem readAll_prod : (G.readAll cat s bs).prod = G.prod := by
  induction bs generalizing G with
  | nil => rfl
  | cons b bs ih => rw [readAll_cons_list, ih, Graph.read_prod]

theorem readAll_cons (hbs : bs.Nodup) (b : Name) :
    (G.readAll cat s bs).cons b = if b ∈ bs then G.cons b ++ [s] else G.cons b := by
  induction bs generalizing G with
  | nil => simp
  | cons b₀ bs ih =>
    obtain ⟨hb₀, hbs⟩ := List.nodup_cons.1 hbs
    rw [readAll_cons_list, ih hbs]
    by_cases e : b = b₀
    · subst e
      rw [if_neg hb₀, read_cons_self, if_pos List.mem_cons_self]
    · simp [read_cons_ne e, e]

variable {b : Name}

theorem known_readAll : (G.readAll cat s bs).Known b ↔ G.Known b ∨ b ∈ bs := by
  induction bs generalizing G with
  | nil => simp
  | cons b₀ bs ih =>
    rw [readAll_cons_list, ih, Graph.known_read, List.mem_cons, or_assoc]

theorem refuses_read {b₀ : Name} (hne : b ≠ b₀) :
    Refuses cat (G.read cat s b₀) s b ↔ Refuses cat G s b := by
  rw [Refuses, Refuses, Graph.known_read, Graph.read_prod, read_cons_ne hne]
  simp [hne]

theorem Within.readAll (hw : Within cat W G) (hs : s ∈ W) (hbs : bs.Nodup)
    (hin : ∀ b ∈ bs, b ∈ (cat s).inputs) (hsc : ∀ b ∈ bs, s ∉ G.cons b) :
    Within cat W (G.readAll cat s bs) := by
  induction bs generalizing G with
  | nil => exact hw
  | cons b bs ih =>
    obtain ⟨hb, hbs⟩ := List.nodup_cons.1 hbs
    refine ih (hw.read hs (hin b (by simp)) (hsc b (by simp))) hbs
      (fun b' hb' => hin b' (by simp [hb'])) fun b' hb' => ?_
    have hne : b' ≠ b := by rintro rfl; exact hb hb'
    rw [read_cons_ne hne]
    exact hsc b' (by simp [hb'])

structure TookInputs (cat : Catalog) (s : StmtId) (bs : List Name) (G : Graph)
    (a a' : AddLoop) : Prop where
  canon : Canon cat a'.drv.bufStateTable (G.readAll cat s bs)
  stmts : a'.drv.stmts = a.drv.stmts
  bufs : a'.drv.bufs = a.drv.bufs ++ bs.filter fun b => ¬ G.Known b
  same : bs = [] → a' = a
  one : ∀ b, bs = [b] → TookInput cat s b G a a'

theorem TookInputs.cons {b : Name} {a a₁ a' : AddLoop} (h₁ : TookInput cat s b G a a₁)
    (hb : b ∉ bs) (h : TookInputs cat s bs (G.read cat s b) a₁ a') :
    TookInputs cat s (b :: bs) G a a' where
  canon := h.canon
  stmts := h.stmts.trans h₁.stmts
  bufs := by
    have hf : (bs.filter fun x => ¬ (G.read cat s b).Known x)
        = bs.filter fun x => ¬ G.Known x := by
      refine List.filter_congr fun x hx => ?_
      have hne : x ≠ b := by rintro rfl; exact hb hx
      simp [Graph.known_read, hne]
    rw [h.bufs, hf]
    by_cases hk : G.Known b
    · rw [h₁.known hk]
      simp [hk]
    · rw [h₁.unknown hk]
      simp [hk]
  same e := absurd e (by simp)
  one b' e := by
    obtain ⟨rfl, rfl⟩ := List.cons_eq_cons.1 e
    rwa [h.same rfl]

theorem addInputs_ok {a a₁ : AddLoop} (h : addInput cat s a b = .ok a₁) :
    addInputs cat s (b :: bs) a = addInputs cat s bs a₁ := by simp [addInputs, h]

theorem made_read (hmade : ∀ b', ∀ c ∈ G.cons b', c ≠ s → G.prod (cat c).out = some c) :
    ∀ b', ∀ c ∈ (G.read cat s b).cons b', c ≠ s →
      (G.read cat s b).prod (cat c).out = some c := by
  intro b' c hc hcs
  by_cases e : b' = b
  · subst e
    rw [read_cons_self, List.mem_append, List.mem_singleton] at hc
    exact hmade b' c (hc.resolve_right hcs) hcs
  · rw [read_cons_ne e] at hc
    exact hmade b' c hc hcs

theorem addInputs_spec {a : AddLoop} (h : Canon cat a.drv.bufStateTable G) (hn : Names cat W)
    (hw : Within cat W G) (hs : s ∈ W) (hbs : bs.Nodup) (hin : ∀ b ∈ bs, b ∈ (cat s).inputs)
    (hsc : ∀ b ∈ bs, s ∉ G.cons b)
    (hmade : ∀ b, ∀ c ∈ G.cons b, c ≠ s → G.prod (cat c).out = some c) :
    ((∀ b ∈ bs, ¬ Refuses cat G s b) ∧
      ∃ a', addInputs cat s bs a = .ok a' ∧ TookInputs cat s bs G a a') ∨
    ∃ pre b post, bs = pre ++ b :: post ∧ Refuses cat G s b ∧
      ∃ a₁, addInputs cat s pre a = .ok a₁ ∧ TookInputs cat s pre G a a₁ ∧
        addInputs cat s bs a = .error (.failure a₁.drv) := by
  induction bs generalizing G a with
  | nil =>
    exact .inl ⟨by simp, a, rfl, h, rfl, by simp, fun _ => rfl, fun b e => absurd e (by simp)⟩
  | cons b bs ih =>
    obtain ⟨hb, hbs⟩ := List.nodup_cons.1 hbs
    have hbi := hin b (by simp)
    have hbc := hsc b (by simp)
    rcases addInput_spec h hn hw hs hbi hbc fun c hc =>
      hmade b c hc (by rintro rfl; exact hbc hc) with ⟨hr, herr⟩ | ⟨hr, a₁, hok, htook⟩
    · refine .inr ⟨[], b, bs, rfl, hr, a, rfl, ⟨h, rfl, by simp, fun _ => rfl, ?_⟩, ?_⟩
      · intro b e
        cases e
      · rw [addInputs, herr]
    · have hne : ∀ b' ∈ bs, b' ≠ b := by rintro b' hb' rfl; exact hb hb'
      have hsc' : ∀ b' ∈ bs, s ∉ (G.read cat s b).cons b' := by
        intro b' hb'
        rw [read_cons_ne (hne b' hb')]
        exact hsc b' (by simp [hb'])
      rcases ih htook.canon (hw.read hs hbi hbc) hbs (fun b' hb' => hin b' (by simp [hb'])) hsc'
        (made_read hmade) with
        ⟨hall, a', hok', htook'⟩ | ⟨pre, x, post, rfl, hr', a₂, hok', htook', herr⟩
      · refine .inl ⟨?_, a', (addInputs_ok hok).trans hok', htook'.cons htook hb⟩
        intro b' hb'
        rcases List.mem_cons.1 hb' with rfl | hb'
        · exact hr
        · rw [← refuses_read (hne b' hb')]
          exact hall b' hb'
      · refine .inr ⟨b :: pre, x, post, rfl, (refuses_read (hne x (by simp))).1 hr', a₂, ?_, ?_, ?_⟩
        · exact (addInputs_ok hok).trans hok'
        · exact htook'.cons htook fun hb' => hb (by simp [hb'])
        · exact (addInputs_ok hok).trans herr

end Inputs

section Statement

variable {s : StmtId}
variable {bs : List Name}

theorem Stmt.inputs_of {c : Stmt} (h : c.inBufs = some bs) : c.inputs = bs := by
  rw [Stmt.inputs, h]; rfl

def Graph.add (cat : Catalog) (G : Graph) (s : StmtId) (bs : List Name) : Graph :=
  let G' := G.readAll cat s bs
  G'.produce s (cat s).out (G'.backFor cat s)

/-- What `addStmt` does when it succeeds on a driver with statements. -/
structure Added (cat : Catalog) (s : StmtId) (bs : List Name) (G : Graph) (d d' : Driver) :
    Prop where
  canon : Canon cat d'.bufStateTable (G.add cat s bs)
  stmts : d'.stmts = d.stmts ++ [s]
  bufs : d'.bufs = d.bufs ++ (bs.filter fun b => ¬ G.Known b) ++
    [(cat s).out].filter fun b => ¬ (G.readAll cat s bs).Known b

/-- The ways a statement is refused once the inputs `pre` are taken. -/
def Stuck (cat : Catalog) (G : Graph) (s : StmtId) (post : List Name) : Prop :=
  match post with
  | [] => G.prod (cat s).out ≠ none
  | b :: _ => Refuses cat G s b

theorem inBufs_normal {c : Stmt} (hty : c.type = .normal) (h : c.inBufs = some bs) :
    bs = [c.inb] := by
  rw [Stmt.inBufs, hty] at h
  exact (Option.some.inj h).symm

theorem addStmt_spec {d : Driver} (h : Canon cat d.bufStateTable G) (hn : Names cat W)
    (hw : Within cat W G) (hs : s ∈ W) (hbs : (cat s).inBufs = some bs) (hv : (cat s).valid = true)
    (hne : d.stmts ≠ []) (hsc : ∀ b, s ∉ G.cons b)
    (hmade : ∀ b, ∀ c ∈ G.cons b, G.prod (cat c).out = some c) :
    (G.prod (cat s).out = none ∧ (∀ b ∈ bs, ¬ Refuses cat G s b) ∧
      ∃ d', addStmt cat s d = .ok d' ∧ Added cat s bs G d d') ∨
    ∃ pre post, bs = pre ++ post ∧ Stuck cat G s post ∧
      ∃ a₁, TookInputs cat s pre G ⟨d, .none, none⟩ a₁ ∧
        addStmt cat s d = .error (.failure a₁.drv) := by
  have hin := Stmt.inputs_of hbs
  have hnd : bs.Nodup := hin ▸ hn.inputsNodup s hs
  have hmem : ∀ b ∈ bs, b ∈ (cat s).inputs := fun b hb => by rwa [hin]
  have hcall : addStmt cat s d = (addInputs cat s bs ⟨d, .none, none⟩).bind fun a =>
      (addOut cat s a).bind fun d' => .ok (d'.pushStmt s) := by
    rw [addStmt, if_pos hv, if_neg hne, hbs]
    cases hin : addInputs cat s bs ⟨d, .none, none⟩ with
    | error x => simp [hin, Except.bind]
    | ok a => cases hout : addOut cat s a <;> simp [hin, hout, Except.bind]
  have h₀ : Canon cat (AddLoop.mk d .none none).drv.bufStateTable G := h
  rcases addInputs_spec h₀ hn hw hs hnd hmem (fun b _ => hsc b)
    (fun b c hc _ => hmade b c hc) with
    ⟨hall, a, hok, htook⟩ | ⟨pre, b, post, rfl, hr, a₁, _, htook, herr⟩
  · have hw' := hw.readAll hs hnd hmem fun b _ => hsc b
    have hback : (cat s).type = .normal →
        backOf a (cat s).inb = (G.readAll cat s bs).backFor cat s := by
      intro hty
      obtain rfl := inBufs_normal hty hbs
      have hone := htook.one _ rfl
      exact backOf_eq hty hone.inType hone.dummyName
    rcases addOut_spec htook.canon hn hw' hs hback with ⟨hp, herr⟩ | ⟨hp, d', hok', hout⟩
    · rw [readAll_prod] at hp
      refine .inr ⟨bs, [], by simp, hp, a, htook, ?_⟩
      rw [hcall, hok]
      simp [Except.bind, herr]
    · rw [readAll_prod] at hp
      refine .inl ⟨hp, hall, d'.pushStmt s, ?_, hout.canon, ?_, ?_⟩
      · rw [hcall, hok]
        simp [Except.bind, hok']
      · rw [Driver.pushStmt, hout.stmts, htook.stmts]
      · show d'.bufs = _
        by_cases hk : (G.readAll cat s bs).Known (cat s).out
        · rw [hout.known hk, htook.bufs]
          simp [hk]
        · rw [hout.unknown hk, htook.bufs]
          simp [hk]
  · refine .inr ⟨pre, b :: post, rfl, hr, a₁, htook, ?_⟩
    rw [hcall, herr]
    rfl

end Statement

section First

variable {s : StmtId} {bs : List Name}

def Stmt.firstBufs (c : Stmt) : List Name :=
  match c.type with
  | .join => c.inb :: c.windowBufs
  | _ => c.inputs

theorem firstBufs_perm {c : Stmt} : c.firstBufs.Perm c.inputs := by
  cases h : c.type with
  | join =>
    simp only [Stmt.firstBufs, h, Stmt.inputs, Stmt.inBufs, Option.getD_some]
    exact (List.perm_append_singleton c.inb c.windowBufs).symm
  | _ => simp only [Stmt.firstBufs, h]; exact List.Perm.refl _

theorem addSources_eq (d : Driver) (out : Name) :
    addSources s out d bs =
      { bufStateTable := bs.foldl (fun t b => t.insert b (sourceEntry s b out)) d.bufStateTable
        stmts := d.stmts, bufs := d.bufs ++ bs } := by
  induction bs generalizing d with
  | nil => simp [addSources]
  | cons b bs ih =>
    rw [show addSources s out d (b :: bs)
      = addSources s out ((d.set b (sourceEntry s b out)).pushBuf b) bs from rfl, ih]
    simp [Driver.set, Driver.pushBuf]

theorem Canon.sources (h : Canon cat t G) (hn : Names cat W) (hw : Within cat W G) (hs : s ∈ W)
    (hbs : bs.Nodup) (hin : ∀ b ∈ bs, b ∈ (cat s).inputs) (hu : ∀ b ∈ bs, ¬ G.Known b) :
    Canon cat (bs.foldl (fun t b => t.insert b (sourceEntry s b (cat s).out)) t)
      (G.readAll cat s bs) := by
  induction bs generalizing G t with
  | nil => exact h
  | cons b bs ih =>
    obtain ⟨hb, hbs⟩ := List.nodup_cons.1 hbs
    have hub := hu b (by simp)
    have hc : G.cons b = [] := by by_contra hc; exact hub (.inr hc)
    have hcan := h.readFirst hn hw hs (hin b (by simp)) hc
    rw [read_entry_new hub] at hcan
    refine ih hcan (hw.read hs (hin b (by simp)) (by simp [hc])) hbs
      (fun b' hb' => hin b' (by simp [hb'])) fun b' hb' hk => ?_
    have hne : b' ≠ b := by rintro rfl; exact hb hb'
    exact hu b' (by simp [hb']) ((Graph.known_read.1 hk).resolve_right hne)

theorem Canon.empty : Canon cat ∅ Graph.empty where
  buffers b hk := by simp [Graph.Known, Graph.empty] at hk
  dummies b hf := by simp [Graph.Forks, Graph.empty] at hf
  only k e hk := by simp at hk

theorem Within.empty : Within cat W Graph.empty where
  cons b c hc := by simp [Graph.empty] at hc
  prod b p hp := by simp [Graph.empty] at hp
  nodup b := List.nodup_nil

theorem addFirst_spec {d : Driver} (h : Canon cat d.bufStateTable Graph.empty)
    (hn : Names cat W) (hs : s ∈ W) (hbs : (cat s).inBufs = some bs) (hout : (cat s).out ∉ bs) :
    ∃ d', addFirst cat s d = .ok d' ∧ d'.stmts = d.stmts ++ [s] ∧
      Canon cat d'.bufStateTable (Graph.empty.add cat s (cat s).firstBufs) := by
  have hin := Stmt.inputs_of hbs
  have hperm := firstBufs_perm (c := cat s)
  have hnd : (cat s).firstBufs.Nodup := hperm.nodup_iff.2 (hn.inputsNodup s hs)
  have hmem : ∀ b ∈ (cat s).firstBufs, b ∈ (cat s).inputs := fun b hb => hperm.mem_iff.1 hb
  have hun : ∀ b ∈ (cat s).firstBufs, ¬ Graph.empty.Known b := by simp [Graph.Known, Graph.empty]
  have hcan := h.sources hn .empty hs hnd hmem hun
  set G' := Graph.empty.readAll cat s (cat s).firstBufs with hG'
  have hw' : Within cat W G' := Within.empty.readAll hs hnd hmem (by simp [Graph.empty])
  have hcan' := hcan.produce s (G'.backFor cat s) hn hw' (.out hs)
  have hc : G'.cons (cat s).out = [] := by
    have : (cat s).out ∉ (cat s).firstBufs := by rwa [hperm.mem_iff, hin]
    rw [readAll_cons hnd, if_neg this]
    rfl
  cases hty : (cat s).type with
  | normal =>
    have hfb : (cat s).firstBufs = [(cat s).inb] := by
      simp [Stmt.firstBufs, hty, Stmt.inputs, Stmt.inBufs]
    have hback : G'.backFor cat s = .backBuf (some (cat s).inb) := by
      rw [Graph.backFor, if_pos hty, readAll_cons hnd, hfb]
      simp [Graph.empty]
    rw [sink_entry hty hc (cat s).inb, hback, hfb] at hcan'
    simp only [addFirst, hty, Except.ok.injEq]
    refine ⟨_, rfl, rfl, ?_⟩
    rw [Graph.add, hback]
    exact hcan'
  | join =>
    have hne : (cat s).type ≠ .normal := by simp [hty]
    have hfb : (cat s).firstBufs = (cat s).inb :: (cat s).windowBufs := by
      simp [Stmt.firstBufs, hty]
    rw [backFor_merge hne, mergeSink_entry hne hc, hfb] at hcan'
    simp only [addFirst, hty, Except.ok.injEq]
    refine ⟨_, rfl, ?_, ?_⟩
    · rw [addSources_eq]; rfl
    · rw [Graph.add, backFor_merge hne, addSources_eq]
      exact hcan'
  | tUnion | tlUnion =>
    have hne : (cat s).type ≠ .normal := by simp [hty]
    have hfb : (cat s).firstBufs = (cat s).unionBufs := by
      simp [Stmt.firstBufs, hty, Stmt.inputs, Stmt.inBufs]
    rw [backFor_merge hne, mergeSink_entry hne hc, hfb] at hcan'
    simp only [addFirst, hty, Except.ok.injEq]
    refine ⟨_, rfl, ?_, ?_⟩
    · rw [addSources_eq]; rfl
    · rw [Graph.add, backFor_merge hne, addSources_eq]
      exact hcan'
  | coll => simp [Stmt.inBufs, hty] at hbs

end First

end StreamMill.Esl
