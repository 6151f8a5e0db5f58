import StreamMill.ImDb.ScanDel

/-!
# StreamMill.ImDb.SetDup

`DB_SET`, then `DB_NEXT_DUP` until `DB_NOTFOUND`. Through an index the scan follows the chain of the
key. Without one it compares the key of `NULL` when the list ends, so it returns only on an empty
relation (`setsRight_iff`).
-/

namespace StreamMill.ImDb

open Lib

variable {n : Nat} {δ : Type} {s s' u : Rel n δ} {l l' es : List (Entry n δ)} {e : Entry n δ}
  {c : Cursor} {head : Addr} {ht : HashControl (KeyPtr n) Addr} {key : Key n}

section

variable [DecidableEq δ]

def setDups : Nat → GetFlags → Rel n δ → Cursor → Key n → δ →
    Except Fault (List (Key n × δ × Addr))
  | 0, _, _, _, _, _ => .error .loop
  | fuel + 1, flags, s, c, key, data => do
    let (s, c, found) ← imRelCursorGet s c key data flags
    match found with
    | none => return []
    | some t =>
      let ts ← setDups fuel .nextDup s c t.1 t.2.1
      return t :: ts

def withKey (l : List (Entry n δ)) (key : Key n) : List (Entry n δ) :=
  (liveEntries l).filter fun e => e.key = key

def SetsRight (s : Rel n δ) (l : List (Entry n δ)) (key : Key n) : Prop :=
  ∀ c data, ∃ fuel ts, setDups fuel .set s c key data = .ok ts ∧
    ts.Perm ((withKey l key).map Entry.found)

def SetsAlike (s u : Rel n δ) (key : Key n) : Prop :=
  ∀ c data, ∃ fuel ts us, setDups fuel .set s c key data = .ok ts ∧
    setDups fuel .set u c key data = .ok us ∧
    (ts.map fun t => (t.1, t.2.1)).Perm (us.map fun t => (t.1, t.2.1))

theorem setDups_unindexed (hidx : s.hidx = none) (hhead : s.head ≠ none) {flags : GetFlags}
    (hflags : flags = .set ∨ flags = .nextDup) (fuel : Nat) (c : Cursor) (key : Key n) (data : δ)
    (ts : List (Key n × δ × Addr)) : setDups fuel flags s c key data ≠ .ok ts := by
  induction fuel generalizing flags c key data ts with
  | zero => exact fun h => by cases h
  | succ fuel ih =>
    intro h
    obtain ⟨⟨s₁, c₁, found⟩, hget, h⟩ := bind_eq_ok h
    obtain ⟨rfl, hfound⟩ := dup_unindexed hidx hhead hflags hget
    cases found with
    | none => exact hfound rfl
    | some t =>
      obtain ⟨us, hus, -⟩ := bind_eq_ok h
      exact ih (.inr rfl) c₁ t.1 t.2.1 us hus

theorem setDups_empty (hhead : s.head = none) (flags : GetFlags) (fuel : Nat) (c : Cursor)
    (key : Key n) (data : δ) : setDups (fuel + 1) flags s c key data = .ok [] := by
  rw [setDups]
  simp only [imRelCursorGet, hhead, ok_bind]
  rfl

omit [DecidableEq δ] in
theorem found_eq (h : s.Holds l) (hes : es ⊆ l) :
    ((liveEntries es).head?.map Entry.slot).map (fun a => ((s.mem a).key, (s.mem a).data, a)) =
      (liveEntries es).head?.map Entry.found := by
  cases hlive : (liveEntries es).head? with
  | none => rfl
  | some e =>
    have he : e ∈ es := List.mem_of_mem_filter (List.mem_of_head? hlive : e ∈ liveEntries es)
    have hs := h.stored e (hes he)
    simp only [Option.map_some, Entry.found, ← hs.1, ← hs.2.1]

theorem setDups_chain (h : s.Holds l) (hht : s.hidx = some ht) (hhead : s.head = some head)
    (hes : es ⊆ l) (hpath : Path s.hchain c.nextaccess (slots es)) (hlen : es.length ≤ s.fuel)
    (key : Key n) (data : δ) {fuel : Nat} (hfuel : es.length < fuel) :
    setDups fuel .nextDup s c key data = .ok ((liveEntries es).map Entry.found) := by
  induction fuel generalizing c es key data with
  | zero => cases hfuel
  | succ fuel ih =>
    have hskip := skipDeleted_chain h hes hpath hlen
    have hfound := found_eq h hes
    rw [setDups]
    simp only [imRelCursorGet, hhead, Rel.cursorMove, hht, hskip, ok_bind]
    cases hlive : liveEntries es with
    | nil => rfl
    | cons e ds =>
      obtain ⟨pre, post, rfl, -, -, rfl⟩ := liveEntries_eq_cons.mp hlive
      have hsub : post ⊆ l := fun e' he' => hes (by simp [he'])
      rw [List.length_append, List.length_cons] at hlen hfuel
      rw [slots_middle] at hpath
      rw [hlive] at hfound
      have hfound : ((s.mem e.slot).key, (s.mem e.slot).data, e.slot) = e.found :=
        Option.some.inj hfound
      have hrest := ih (c := ⟨some e.slot, s.hchain e.slot⟩) hsub hpath.suffix (by omega)
        (s.mem e.slot).key (s.mem e.slot).data (by omega)
      change setDups fuel .nextDup s ⟨some e.slot, s.hchain e.slot⟩ (s.mem e.slot).key
        (s.mem e.slot).data >>= _ = _
      rw [hrest]
      exact congrArg (fun t => Except.ok (t :: (liveEntries post).map Entry.found)) hfound

theorem setDups_indexed (h : s.Holds l) (hidx : s.hidx ≠ none) (hhead : s.head = some head)
    (c : Cursor) (key : Key n) (data : δ) {fuel : Nat} (hfuel : l.length < fuel) :
    setDups fuel .set s c key data =
      .ok ((liveEntries (chainEntries l key)).map Entry.found) := by
  obtain ⟨ht, hht⟩ := Option.ne_none_iff_exists'.mp hidx
  obtain ⟨fuel, rfl⟩ : ∃ f, fuel = f + 1 := ⟨fuel - 1, by omega⟩
  obtain ⟨s', o, hfind, h', hidx', hhead', hfuel', hchain⟩ := hashFind_chain h hht key
  obtain ⟨ht', hht'⟩ := Option.ne_none_iff_exists'.mp hidx'
  have hsub := chainEntries_sub l key
  obtain ⟨hle, hlen⟩ := chainEntries_length_le h.toListed key
  generalize chainEntries l key = es at *
  have hskip := skipDeleted_chain h' hsub hchain (by omega)
  have hfound := found_eq h' hsub
  rw [setDups]
  simp only [imRelCursorGet, hhead, Rel.cursorMove, hht, hfind, hskip, ok_bind]
  cases hlive : liveEntries es with
  | nil => rfl
  | cons e ds =>
    obtain ⟨pre, post, rfl, -, -, rfl⟩ := liveEntries_eq_cons.mp hlive
    rw [List.length_append, List.length_cons] at hle
    rw [hlive] at hfound
    rw [slots_middle] at hchain
    have hfound : ((s'.mem e.slot).key, (s'.mem e.slot).data, e.slot) = e.found :=
      Option.some.inj hfound
    have hrest := setDups_chain h' hht' (hhead'.trans hhead) (c := ⟨some e.slot, s'.hchain e.slot⟩)
      (fun e' he' => hsub (by simp [he'])) hchain.suffix (by omega)
      (s'.mem e.slot).key (s'.mem e.slot).data (by omega : post.length < fuel)
    change setDups fuel .nextDup s' ⟨some e.slot, s'.hchain e.slot⟩ (s'.mem e.slot).key
      (s'.mem e.slot).data >>= _ = _
    rw [hrest]
    exact congrArg (fun t => Except.ok (t :: (liveEntries post).map Entry.found)) hfound

omit [DecidableEq δ] in
theorem chainEntries_perm (l : List (Entry n δ)) (key : Key n) :
    (liveEntries (chainEntries l key)).Perm (withKey l key) := by
  rw [liveEntries, chainEntries, List.filter_reverse, withKey, liveEntries, List.filter_filter,
    List.filter_filter]
  refine (List.reverse_perm _).trans (List.Perm.of_eq (List.filter_congr fun e _ => ?_))
  exact Bool.and_comm _ _

omit [DecidableEq δ] in
theorem head_eq_none (h : s.Listed l) : s.head = none ↔ l = [] := by
  rw [h.head, List.head?_eq_none_iff, slots, List.map_eq_nil_iff]

theorem setsRight_iff (h : s.Holds l) (key : Key n) :
    SetsRight s l key ↔ s.hidx ≠ none ∨ l = [] := by
  constructor
  · intro hright
    by_contra hno
    obtain ⟨hidx, hl⟩ := not_or.mp hno
    obtain ⟨e, es, rfl⟩ := List.exists_cons_of_ne_nil hl
    obtain ⟨fuel, ts, hrun, -⟩ := hright imRelCursor e.data
    exact setDups_unindexed (not_not.mp hidx) (fun hh => hl ((head_eq_none h.toListed).mp hh))
      (.inl rfl) fuel _ key _ ts hrun
  · intro hok c data
    by_cases hl : l = []
    · subst hl
      exact ⟨1, [], setDups_empty h.head .set 0 c key data, .nil⟩
    · obtain ⟨head, hhead⟩ := Option.ne_none_iff_exists'.mp
        fun hh => hl ((head_eq_none h.toListed).mp hh)
      exact ⟨l.length + 1, _, setDups_indexed h (hok.resolve_right hl) hhead c key data
        (Nat.lt_succ_self _), (chainEntries_perm l key).map _⟩

def SameTuples (l l' : List (Entry n δ)) : Prop :=
  (l.map fun e => (e.key, e.data)).Perm (l'.map fun e => (e.key, e.data))

theorem setsAlike_iff (h : s.Holds l) (hu : u.Holds l') (hs : s.hidx ≠ none) (hidx : u.hidx = none)
    (hsame : SameTuples (liveEntries l) (liveEntries l')) (key : Key n) :
    SetsAlike s u key ↔ l' = [] := by
  constructor
  · intro halike
    by_contra hl
    obtain ⟨e, es, rfl⟩ := List.exists_cons_of_ne_nil hl
    obtain ⟨fuel, ts, us, -, hrun, -⟩ := halike imRelCursor e.data
    exact setDups_unindexed hidx (fun hh => hl ((head_eq_none hu.toListed).mp hh)) (.inl rfl) fuel
      _ key _ us hrun
  · intro hl c data
    subst hl
    have hnone : liveEntries l = [] := List.map_eq_nil_iff.mp (List.perm_nil.mp hsame)
    refine ⟨l.length + 1, [], [], ?_, setDups_empty hu.head .set _ c key data, .nil⟩
    by_cases hl : l = []
    · subst hl
      exact setDups_empty h.head .set _ c key data
    · obtain ⟨head, hhead⟩ := Option.ne_none_iff_exists'.mp
        fun hh => hl ((head_eq_none h.toListed).mp hh)
      have hperm := chainEntries_perm l key
      rw [withKey, hnone] at hperm
      rw [setDups_indexed h hs hhead c key data (Nat.lt_succ_self _), List.perm_nil.mp hperm]
      rfl

/-- For every relation and every key the scan returns the live tuples with the key exactly when
there is an index or no tuple; and it returns the same with an index and without exactly when the
relation without is empty. -/
theorem setDups_iff (h : s.Holds l) (key : Key n) :
    (SetsRight s l key ↔ s.hidx ≠ none ∨ l = []) ∧
      ∀ u l', u.Holds l' → s.hidx ≠ none → u.hidx = none →
        SameTuples (liveEntries l) (liveEntries l') → (SetsAlike s u key ↔ l' = []) :=
  ⟨setsRight_iff h key, fun _ _ hu hs hidx hsame => setsAlike_iff h hu hs hidx hsame key⟩

/-- An indexed relation of one tuple. -/
theorem setDups_iff_oneTuple : ∃ s, Run blankTuples true true s [⟨0, keySeven, 5, false⟩] ∧
    SetsRight s.rel [⟨0, keySeven, 5, false⟩] keySeven := by
  have run : Run blankTuples true true _ _ := .put keySeven 5 .append .create rfl
  obtain ⟨h, -, hi⟩ := run_kept run
  exact ⟨_, run, (setDups_iff h keySeven).1.mpr (.inl (Option.isSome_iff_ne_none.mp hi))⟩

/-- Without an index the scan of a relation of one tuple runs off the end of the list. -/
theorem unindexed_not_setsRight : ∃ s, Run blankTuples true false s [⟨0, keySeven, 5, false⟩] ∧
    ¬ SetsRight s.rel [⟨0, keySeven, 5, false⟩] keySeven := by
  have run : Run blankTuples true false _ _ := .put keySeven 5 .append .create rfl
  obtain ⟨h, -, hi⟩ := run_kept run
  refine ⟨_, run, fun hright => ?_⟩
  rcases (setsRight_iff h keySeven).mp hright with hidx | hl
  · exact hidx (Option.isSome_eq_false_iff.mp hi |> Option.isNone_iff_eq_none.mp)
  · cases hl

end

end StreamMill.ImDb
