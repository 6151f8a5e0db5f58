import StreamMill.ImDb.Delete

/-!
# StreamMill.ImDb.ScanDel

A scan that deletes: `DB_FIRST`, then `DB_NEXT` until `DB_NOTFOUND`, with `c_del` on the tuples that
satisfy a predicate. A value relation is scanned as meant (`scanDel_value`). In an OID relation
`c_del` moves the cursor on, and the next `DB_NEXT` passes over the tuple it was moved to;
`scansRight_iff` says when that does no harm.
-/

namespace StreamMill.ImDb

open Lib

variable {n : Nat} {δ : Type} {s s' : Rel n δ} {l ks rest es : List (Entry n δ)} {e : Entry n δ}
  {c c' : Cursor} {head : Addr} {p : Key n → δ → Bool}

def Entry.Sat (p : Key n → δ → Bool) (e : Entry n δ) : Bool := p e.key e.data

def Rel.delIf (s : Rel n δ) (b : Bool) (c : Cursor) : Except Fault (Rel n δ × Cursor) :=
  if b then (imRelCursorDel s c).map fun r => (r.1, r.2.1) else .ok (s, c)

def scanDel [DecidableEq δ] (p : Key n → δ → Bool) (key : Key n) (data : δ) :
    Nat → GetFlags → Rel n δ → Cursor → Except Fault (List (Key n × δ × Addr) × Rel n δ)
  | 0, _, _, _ => .error .loop
  | fuel + 1, flags, s, c => do
    let (s, c, found) ← imRelCursorGet s c key data flags
    match found with
    | none => return ([], s)
    | some t =>
      let (s, c) ← s.delIf (p t.1 t.2.1) c
      let (ts, s) ← scanDel p key data fuel .next s c
      return (t :: ts, s)

/-- The scan visits every live tuple once, in the order of the list, and leaves those that do not
satisfy `p`. -/
def ScansRight [DecidableEq δ] (s : Rel n δ) (l : List (Entry n δ)) (p : Key n → δ → Bool) : Prop :=
  ∀ key data c, ∃ fuel s' l', scanDel p key data fuel .first s c =
      .ok ((liveEntries l).map Entry.found, s') ∧
    s'.Holds l' ∧ liveEntries l' = (liveEntries l).filter fun e => !e.Sat p

theorem liveEntries_append (l l' : List (Entry n δ)) :
    liveEntries (l ++ l') = liveEntries l ++ liveEntries l' := List.filter_append ..

theorem liveEntries_value (h : s.Listed l) (ho : s.oid = false) : liveEntries l = l :=
  List.filter_eq_self.mpr fun e he => by rw [h.value ho e he]; rfl

theorem exists_head (h : s.Listed l) (he : e ∈ l) : ∃ head, s.head = some head := by
  refine Option.ne_none_iff_exists'.mp fun hnone => ?_
  rw [h.head, List.head?_eq_none_iff] at hnone
  exact absurd (slot_mem he) (by simp [hnone])

theorem Rel.Listed.start (h : s.Listed l) : s.Listed ([] ++ l) := h

theorem Rel.Holds.start (h : s.Holds l) : s.Holds ([] ++ l) := h

/-- `DB_NEXT` goes on with the first tuple of `rest`. -/
def Rel.At (s : Rel n δ) (c : Cursor) (rest : List (Entry n δ)) : Prop :=
  ∀ head, s.head = some head → s.nextFrom head c.cur = (slots rest).head?

theorem Rel.Listed.at_head (h : s.Listed l) (hc : c.cur = none) : s.At c l := by
  intro head hhead
  rw [hc, ← h.head, hhead]
  rfl

theorem Rel.Listed.at_after (h : s.Listed (ks ++ e :: rest)) (hc : c.cur = some e.slot) :
    s.At c rest := by
  intro head hhead
  have hpath := h.path (slots_middle ks rest e) hhead
  rw [hc]
  exact hpath.2.head

theorem Rel.At.path (hat : s.At c rest) (h : s.Listed (ks ++ rest)) (hhead : s.head = some head) :
    Path (s.listNext head) (s.nextFrom head c.cur) (slots rest) := by
  rw [hat head hhead]
  cases rest with
  | nil => rfl
  | cons e rest => exact h.path (slots_middle ks rest e) hhead

theorem unlink_at (h : s.Listed (ks ++ e :: rest)) (h' : s'.Listed (ks ++ rest))
    (hre : Reindexed (s.unlink c e.slot).1 s') (hc : c.cur = some e.slot) :
    s'.At (s.unlink c e.slot).2 rest := by
  obtain ⟨head, hhead⟩ := exists_head h (e := e) (by simp)
  have hafter := h.at_after hc head hhead
  have hstay (hne : head ≠ e.slot) (hs : s.unlink c e.slot =
      ({ s.bypass e.slot with buffer := freeBuffer s.buffer e.slot }, c)) :
      s'.At (s.unlink c e.slot).2 rest := by
    intro head' hhead'
    have hhead'' : s'.head = s.head := by
      rw [hre.head, hs]
      rfl
    have hnext : s'.next e.slot = s.next e.slot := by
      rw [hre.next, hs]
      exact bypass_next_self s e.slot
    rw [hhead'', hhead] at hhead'
    cases hhead'
    rw [hs, ← hafter, hc]
    simp [Rel.nextFrom, Rel.listNext, stepBefore, hnext]
  cases ks with
  | nil =>
    have heq : head = e.slot := by
      rw [h.head] at hhead
      exact (Option.some.inj hhead).symm
    rw [Rel.unlink, if_pos (heq ▸ hhead)]
    by_cases hone : s.next e.slot = e.slot
    · intro head' hhead'
      rw [hre.head, Rel.unlink, if_pos (heq ▸ hhead), if_pos hone] at hhead'
      cases hhead'
    · rw [if_neg hone]
      exact h'.at_head rfl
  | cons k ks =>
    have hne : head ≠ e.slot := by
      have hnd := h.nodup
      rw [h.head] at hhead
      rw [← Option.some.inj hhead]
      rw [List.cons_append, slots_cons, List.nodup_cons] at hnd
      exact fun heq => hnd.1 (by simp [heq])
    refine hstay hne ?_
    rw [Rel.unlink, if_neg]
    rw [hhead]
    exact fun heq => hne (Option.some.inj heq)

section

variable [DecidableEq δ]

theorem next_eq (h : s.Listed (ks ++ rest)) (hat : s.At c rest) (hhead : s.head = some head)
    (key : Key n) (data : δ) :
    imRelCursorGet s c key data .next =
      .ok (s, { cur := (liveEntries rest).head?.map Entry.slot,
                nextaccess := ((liveEntries rest).head?.map Entry.slot).bind (s.listNext head) },
        (liveEntries rest).head?.map Entry.found) := by
  have hlen := h.length_le
  rw [slots_append, List.length_append] at hlen
  have hwalk := walk_path Fault.loop (fun a => !s.live a) (n := s.fuel) (hat.path h hhead) (by omega)
  have hskip : ∀ e ∈ rest, (!s.live e.slot) = !(!e.deleted) := fun e he => by
    rw [h.live_iff (List.mem_append_right _ he)]
  rw [dropWhile_slots rest hskip, head?_slots, head?_dropWhile_deleted] at hwalk
  simp only [imRelCursorGet, hhead, Rel.cursorMove, Rel.skipDeleted, hwalk, ok_bind]
  cases hlive : (liveEntries rest).head? with
  | none => rfl
  | some e =>
    have he : e ∈ rest := List.mem_of_mem_filter (List.mem_of_head? hlive : e ∈ liveEntries rest)
    have hs := h.stored e (List.mem_append_right _ he)
    simp only [Option.map_some, Entry.found, ← hs.1, ← hs.2.1]
    rfl

theorem scanDel_first (p : Key n → δ → Bool) (key : Key n) (data : δ) (fuel : Nat) (s : Rel n δ)
    (c : Cursor) :
    scanDel p key data fuel .first s c = scanDel p key data fuel .next s { c with cur := none } := by
  cases fuel with
  | zero => rfl
  | succ fuel =>
    rw [scanDel, scanDel]
    cases hhead : s.head with
    | none => simp [imRelCursorGet, hhead, ok_bind]
    | some head => simp [imRelCursorGet, hhead, Rel.cursorMove, Rel.nextFrom]

section

variable (h : s.Listed (ks ++ rest)) (hat : s.At c rest)
include h hat

theorem scanDel_end (hrest : liveEntries rest = []) (p : Key n → δ → Bool) (key : Key n) (data : δ)
    (fuel : Nat) :
    scanDel p key data (fuel + 1) .next s c = .ok ([], s) := by
  rw [scanDel]
  cases hhead : s.head with
  | none =>
    simp only [imRelCursorGet, hhead, ok_bind]
    rfl
  | some head =>
    rw [next_eq h hat hhead key data, hrest]
    rfl

theorem scanDel_visit (hrest : liveEntries rest = e :: es) (p : Key n → δ → Bool) (key : Key n)
    (data : δ) (fuel : Nat) :
    ∃ a, scanDel p key data (fuel + 1) .next s c =
      (s.delIf (e.Sat p) ⟨some e.slot, a⟩).bind fun r =>
        (scanDel p key data fuel .next r.1 r.2).map fun r => (e.found :: r.1, r.2) := by
  have he : e ∈ rest := List.mem_of_mem_filter (hrest ▸ List.mem_cons_self : e ∈ liveEntries rest)
  obtain ⟨head, hhead⟩ := exists_head h (List.mem_append_right ks he)
  refine ⟨s.listNext head e.slot, ?_⟩
  rw [scanDel, next_eq h hat hhead key data, hrest]
  rfl

theorem scanDel_keep (hrest : liveEntries rest = e :: es) (hp : e.Sat p = false) (key : Key n)
    (data : δ) (fuel : Nat) :
    ∃ ks' rest' c', ks ++ rest = ks' ++ rest' ∧ liveEntries rest' = es ∧ s.At c' rest' ∧
      scanDel p key data (fuel + 1) .next s c =
        (scanDel p key data fuel .next s c').map fun r => (e.found :: r.1, r.2) := by
  obtain ⟨a, hrun⟩ := scanDel_visit h hat hrest p key data fuel
  obtain ⟨pre, post, rfl, -, -, hpost⟩ := liveEntries_eq_cons.mp hrest
  have hsplit : ks ++ (pre ++ e :: post) = (ks ++ pre) ++ e :: post := by simp
  rw [hsplit] at h
  rw [hp] at hrun
  exact ⟨ks ++ (pre ++ [e]), post, ⟨some e.slot, a⟩, by simp, hpost, h.at_after rfl, hrun⟩

theorem scanDel_del (hrest : liveEntries rest = e :: es) (hp : e.Sat p = true) (key : Key n)
    (data : δ) (fuel : Nat) :
    ∃ a, ∀ s₁ c₁ found, imRelCursorDel s ⟨some e.slot, a⟩ = .ok (s₁, c₁, found) →
      scanDel p key data (fuel + 1) .next s c =
        (scanDel p key data fuel .next s₁ c₁).map fun r => (e.found :: r.1, r.2) := by
  obtain ⟨a, hrun⟩ := scanDel_visit h hat hrest p key data fuel
  refine ⟨a, fun s₁ c₁ found hdel => ?_⟩
  rw [hrun, Rel.delIf, if_pos hp, hdel]
  rfl

theorem scanDel_none (hno : ∀ e ∈ liveEntries rest, e.Sat p = false) (key : Key n) (data : δ)
    {fuel : Nat} (hfuel : (liveEntries rest).length < fuel) :
    scanDel p key data fuel .next s c = .ok ((liveEntries rest).map Entry.found, s) := by
  induction fuel generalizing ks rest c with
  | zero => cases hfuel
  | succ fuel ih =>
    cases hrest : liveEntries rest with
    | nil => exact scanDel_end h hat hrest p key data fuel
    | cons e es =>
      rw [hrest] at hno hfuel
      obtain ⟨ks', rest', c', hsplit, hes, hat', hrun⟩ :=
        scanDel_keep h hat hrest (hno e List.mem_cons_self) key data fuel
      subst hes
      rw [hrun, ih (hsplit ▸ h) hat' (fun e' he' => hno e' (List.mem_cons_of_mem _ he'))
        (Nat.lt_of_succ_lt_succ hfuel)]
      rfl

end

theorem scanDel_value (h : s.Holds (ks ++ rest)) (ho : s.oid = false) (hat : s.At c rest)
    (p : Key n → δ → Bool) (key : Key n) (data : δ) {fuel : Nat} (hfuel : rest.length < fuel) :
    ∃ s', scanDel p key data fuel .next s c = .ok (rest.map Entry.found, s') ∧
      s'.Holds (ks ++ rest.filter fun e => !e.Sat p) ∧ s'.oid = false := by
  induction fuel generalizing ks rest s c with
  | zero => cases hfuel
  | succ fuel ih =>
    have hlive : liveEntries rest = rest := List.filter_eq_self.mpr fun e he => by
      rw [h.value ho e (List.mem_append_right _ he)]
      rfl
    cases hrest : rest with
    | nil =>
      subst hrest
      exact ⟨s, scanDel_end h.toListed hat hlive p key data fuel, h, ho⟩
    | cons e es =>
      subst hrest
      have hfuel' : es.length < fuel := Nat.lt_of_succ_lt_succ hfuel
      obtain ⟨a, hrun⟩ := scanDel_visit h.toListed hat hlive p key data fuel
      cases hp : e.Sat p with
      | false =>
        have hsplit : ks ++ e :: es = (ks ++ [e]) ++ es := by simp
        rw [hsplit] at h
        have hat' : s.At ⟨some e.slot, a⟩ es := (hsplit ▸ h.toListed : s.Listed _).at_after rfl
        obtain ⟨s', hs', hholds, ho'⟩ := ih h ho hat' hfuel'
        refine ⟨s', ?_, ?_, ho'⟩
        · rw [hrun, hp]
          simp [Rel.delIf, Except.bind, hs', Except.map]
        · rw [List.filter_cons_of_pos (by simp [hp])]
          simpa using hholds
      | true =>
        obtain ⟨s₁, hdel, hs₁, hre, -⟩ :=
          imRelCursorDel_value h ho (c := ⟨some e.slot, a⟩) rfl
        have ho₁ : s₁.oid = false :=
          hre.oid.trans ((unlink_relinked s ⟨some e.slot, a⟩ e.slot).oid.trans ho)
        have hat' := unlink_at h.toListed hs₁.toListed hre rfl
        obtain ⟨s', hs', hholds, ho'⟩ := ih hs₁ ho₁ hat' hfuel'
        refine ⟨s', ?_, ?_, ho'⟩
        · rw [hrun, hp]
          simp [Rel.delIf, Except.bind, hdel, hs', Except.map]
        · rw [List.filter_cons_of_neg (by simp [hp])]
          exact hholds

omit [DecidableEq δ] in
theorem afterDel_middle (hnd : (slots (ks ++ e :: rest)).Nodup) :
    afterDel true (ks ++ e :: rest) e.slot = ks ++ { e with deleted := true } :: rest := by
  rw [slots_middle, List.nodup_middle, List.nodup_cons, ← slots_append] at hnd
  have hne : ∀ e' ∈ ks ++ rest, e'.slot ≠ e.slot := fun e' he' heq => hnd.1 (heq ▸ slot_mem he')
  have hsame (xs : List (Entry n δ)) (hxs : ∀ e' ∈ xs, e'.slot ≠ e.slot) :
      xs.map (fun e' => if e'.slot = e.slot then { e' with deleted := true } else e') = xs :=
    (List.map_congr_left fun e' he' => if_neg (hxs e' he')).trans (List.map_id xs)
  rw [afterDel, if_pos rfl, List.map_append, List.map_cons, if_pos rfl,
    hsame ks fun e' he' => hne e' (List.mem_append_left _ he'),
    hsame rest fun e' he' => hne e' (List.mem_append_right _ he')]

omit [DecidableEq δ] in
theorem mark_holds (h : s.Holds (ks ++ e :: rest)) (ho : s.oid = true) :
    (s.mark e.slot).Holds (ks ++ { e with deleted := true } :: rest) := by
  have hm := (mark_marked s e.slot).holds h ho
  have hl : markEntries (fun b => b = e.slot) (ks ++ e :: rest) =
      afterDel true (ks ++ e :: rest) e.slot := by
    simp [afterDel, markEntries]
  rwa [hl, afterDel_middle h.nodup] at hm

omit [DecidableEq δ] in
theorem imRelCursorDel_oid (h : s.Holds (ks ++ e :: rest)) (ho : s.oid = true)
    (a : Option Addr) :
    imRelCursorDel s ⟨some e.slot, a⟩ =
      .ok (s.mark e.slot, ⟨(liveEntries rest).head?.map Entry.slot, a⟩, true) := by
  have hcur : rest.dropWhile (·.deleted) = rest.dropWhile fun e => !(!e.deleted) := by simp
  simp only [imRelCursorDel, ho, if_true, tombstone_eq h.toListed, ok_bind]
  rw [hcur, head?_slots, head?_dropWhile_deleted]
  rfl

theorem scanDel_one (h : s.Holds l) (ho : s.oid = true) (hlive : liveEntries l = [e])
    (hp : e.Sat p = true) (hc : c.cur = none) (key : Key n) (data : δ) :
    ∃ s' l', scanDel p key data 2 .next s c = .ok ([e.found], s') ∧ s'.Holds l' ∧
      liveEntries l' = [] := by
  obtain ⟨a, hrun⟩ := scanDel_del h.toListed.start (h.at_head hc) hlive hp key data 1
  obtain ⟨pre, post, rfl, hpre, -, hpost⟩ := liveEntries_eq_cons.mp hlive
  have hs' := mark_holds h ho
  have hnone : liveEntries (pre ++ { e with deleted := true } :: post) = [] := by
    rw [liveEntries_append, hpre]
    exact hpost
  refine ⟨_, _, ?_, hs', hnone⟩
  have hdel := imRelCursorDel_oid h ho a
  rw [hpost] at hdel
  rw [hrun _ _ _ hdel, scanDel_end hs'.toListed.start (hs'.at_head rfl) hnone]
  rfl

theorem scanDel_head (h : s.Listed (ks ++ rest)) (hat : s.At c rest) {key : Key n} {data : δ}
    {fuel : Nat} {ts : List (Key n × δ × Addr)}
    (hrun : scanDel p key data fuel .next s c = .ok (ts, s')) :
    ts.head? = (liveEntries rest).head?.map Entry.found := by
  cases fuel with
  | zero => cases hrun
  | succ fuel =>
    cases hrest : liveEntries rest with
    | nil =>
      rw [scanDel_end h hat hrest] at hrun
      cases hrun
      rfl
    | cons e es =>
      obtain ⟨a, hvisit⟩ := scanDel_visit h hat hrest p key data fuel
      rw [hvisit] at hrun
      obtain ⟨r, -, hrun⟩ := bind_eq_ok hrun
      cases hnext : scanDel p key data fuel .next r.1 r.2 with
      | error x =>
        rw [hnext] at hrun
        cases hrun
      | ok q =>
        rw [hnext] at hrun
        cases hrun
        rfl

theorem scanDel_until (h : s.Holds (ks ++ rest)) (ho : s.oid = true) (hat : s.At c rest)
    {as bs : List (Entry n δ)} (hrest : liveEntries rest = as ++ e :: bs)
    (hno : ∀ e' ∈ as, e'.Sat p = false) (hp : e.Sat p = true) {key : Key n} {data : δ}
    {fuel : Nat} {ts : List (Key n × δ × Addr)}
    (hrun : scanDel p key data fuel .next s c = .ok (ts, s')) :
    ∃ fuel' a ts' xs ys, ks ++ rest = xs ++ e :: ys ∧ liveEntries ys = bs ∧
      ts = as.map Entry.found ++ e.found :: ts' ∧
      scanDel p key data fuel' .next (s.mark e.slot) ⟨bs.head?.map Entry.slot, a⟩ =
        .ok (ts', s') := by
  induction as generalizing fuel ks rest c ts with
  | nil =>
    cases fuel with
    | zero => cases hrun
    | succ fuel =>
      obtain ⟨a, hdel⟩ := scanDel_del h.toListed hat hrest hp key data fuel
      obtain ⟨pre, post, rfl, -, -, rfl⟩ := liveEntries_eq_cons.mp hrest
      have hsplit : ks ++ (pre ++ e :: post) = (ks ++ pre) ++ e :: post := by simp
      rw [hsplit] at h
      rw [hdel _ _ _ (imRelCursorDel_oid h ho a)] at hrun
      obtain ⟨⟨ts', _⟩, hrest', heq⟩ := map_eq_ok hrun
      cases heq
      exact ⟨fuel, a, ts', ks ++ pre, post, hsplit, rfl, rfl, hrest'⟩
  | cons x as ih =>
    cases fuel with
    | zero => cases hrun
    | succ fuel =>
      obtain ⟨ks', rest', c', hsplit, hes, hat', hkeep⟩ :=
        scanDel_keep h.toListed hat hrest (hno x List.mem_cons_self) key data fuel
      rw [hkeep] at hrun
      obtain ⟨⟨ts', _⟩, hrest', heq⟩ := map_eq_ok hrun
      cases heq
      obtain ⟨fuel', a, us, xs, ys, h₁, h₂, rfl, h₄⟩ :=
        ih (hsplit ▸ h) hat' hes (fun e' he' => hno e' (List.mem_cons_of_mem _ he')) hrest'
      exact ⟨fuel', a, us, xs, ys, hsplit.trans h₁, h₂, rfl, h₄⟩

/-- After the first deletion the scan goes wrong, unless no live tuple is left. -/
theorem not_scansRight (h : s.Holds l) (ho : s.oid = true) (hex : ∃ e ∈ liveEntries l, e.Sat p = true)
    (htwo : 2 ≤ (liveEntries l).length) : ¬ ScansRight s l p := by
  intro hright
  obtain ⟨e₀, he₀, hp₀⟩ := hex
  obtain ⟨fuel, s', -, hrun, -⟩ := hright e₀.key e₀.data imRelCursor
  rw [scanDel_first] at hrun
  obtain ⟨e, es, hes⟩ := List.exists_cons_of_ne_nil
    (List.ne_nil_of_mem (List.mem_filter.mpr ⟨he₀, hp₀⟩))
  obtain ⟨as, bs, hlive, hno, hp, -⟩ := List.filter_eq_cons_iff.mp hes
  have hno' : ∀ e' ∈ as, e'.Sat p = false := fun e' he' => by simpa using hno e' he'
  obtain ⟨fuel', a, ts, xs, ys, hl, hys, hts, hrest⟩ :=
    scanDel_until h.start ho (h.at_head rfl) hlive hno' hp hrun
  rw [hlive, List.map_append, List.append_cancel_left_eq] at hts
  obtain rfl : bs.map Entry.found = ts := (List.cons.inj hts).2
  subst hl
  have hs' := mark_holds h ho
  cases bs with
  | nil =>
    -- the scan starts again
    have hxs : liveEntries xs = as := by
      have hed : e.deleted = false := by
        have he : e ∈ liveEntries (xs ++ e :: ys) := by simp [hlive]
        simpa using (List.mem_filter.mp he).2
      rw [liveEntries_append, liveEntries, liveEntries, List.filter_cons_of_pos (by simp [hed])]
        at hlive
      have hys' : ys.filter (fun e => !e.deleted) = [] := hys
      rw [hys'] at hlive
      exact List.append_inj_left' hlive rfl
    have hhead := scanDel_head hs'.toListed.start (hs'.at_head rfl) hrest
    have hnone : liveEntries (xs ++ { e with deleted := true } :: ys) = as := by
      rw [liveEntries_append, hxs]
      exact (congrArg (as ++ ·) hys).trans (List.append_nil as)
    rw [hnone] at hhead
    rw [hlive] at htwo
    cases as with
    | nil => simp at htwo
    | cons x as => simp at hhead
  | cons b bs =>
    -- the scan passes `b`
    obtain ⟨pre, post, rfl, -, -, hpost⟩ := liveEntries_eq_cons.mp hys
    have hsplit : xs ++ { e with deleted := true } :: (pre ++ b :: post) =
        (xs ++ { e with deleted := true } :: pre) ++ b :: post := by simp
    have hl' := hs'.toListed
    rw [hsplit] at hl'
    have hafter := hl'.at_after (c := ⟨some b.slot, a⟩) rfl
    rw [List.append_cons] at hl'
    have hhead := scanDel_head hl' hafter hrest
    rw [hpost] at hhead
    obtain ⟨x, hx, hxb⟩ := Option.map_eq_some_iff.mp hhead.symm
    have hxlive : x ∈ liveEntries post := hpost ▸ List.mem_of_head? hx
    have hxpost : x ∈ post := List.mem_of_mem_filter hxlive
    have hnd := hl'.nodup
    rw [← List.append_cons, slots_middle, List.nodup_middle, List.nodup_cons] at hnd
    have hslot : x.slot = b.slot := congrArg (fun t => t.2.2) hxb
    exact hnd.1 (List.mem_append_right _ (hslot ▸ slot_mem hxpost))

/-- The scan with deletion does what it is for exactly on a value relation, and on an OID relation
when it has nothing to delete or at most one tuple to visit. -/
theorem scansRight_iff (h : s.Holds l) (p : Key n → δ → Bool) :
    ScansRight s l p ↔ s.oid = false ∨ (∀ e ∈ liveEntries l, e.Sat p = false) ∨
      (liveEntries l).length ≤ 1 := by
  constructor
  · intro hright
    by_contra hno
    simp only [not_or, not_le, Bool.not_eq_false] at hno
    obtain ⟨ho, hex, htwo⟩ := hno
    refine not_scansRight h ho ?_ htwo hright
    by_contra hall
    exact hex fun e he => by
      by_contra hp
      exact hall ⟨e, he, by simpa using hp⟩
  · intro hok key data c
    have hat : s.At { c with cur := none } l := h.at_head rfl
    by_cases hno : ∀ e ∈ liveEntries l, e.Sat p = false
    · refine ⟨(liveEntries l).length + 1, s, l, ?_, h, ?_⟩
      · rw [scanDel_first]
        exact scanDel_none h.toListed.start hat hno key data (Nat.lt_succ_self _)
      · exact (List.filter_eq_self.mpr fun e he => by simp [hno e he]).symm
    cases ho : s.oid with
    | false =>
      obtain ⟨s', hrun, hs', ho'⟩ :=
        scanDel_value h.start ho hat p key data (Nat.lt_succ_self l.length)
      refine ⟨l.length + 1, s', l.filter fun e => !e.Sat p, ?_, hs', ?_⟩
      · rw [scanDel_first, hrun, liveEntries_value h.toListed ho]
      · rw [liveEntries_value h.toListed ho]
        exact liveEntries_value hs'.toListed ho'
    | true =>
      have hone := hok.resolve_left (by simp [ho]) |>.resolve_left hno
      simp only [not_forall, Bool.not_eq_false] at hno
      obtain ⟨e, he, hp⟩ := hno
      have hlive : liveEntries l = [e] := by
        obtain ⟨x, hx⟩ := List.length_eq_one_iff.mp
          (Nat.le_antisymm hone (List.length_pos_of_mem he))
        rw [hx] at he
        rw [hx, List.mem_singleton.mp he]
      obtain ⟨s', l', hrun, hs', hl'⟩ := 
        scanDel_one h ho hlive hp (rfl : ({ c with cur := none } : Cursor).cur = none) key data
      refine ⟨2, s', l', ?_, hs', ?_⟩
      · rw [scanDel_first, hrun, hlive]
        rfl
      · rw [hl', hlive, List.filter_cons_of_neg (by simp [hp])]
        rfl

/-- A value relation of one tuple, which is deleted. -/
theorem scansRight_iff_value : ∃ s, Run blankTuples false true s [⟨0, keySeven, 5, false⟩] ∧
    ScansRight s.rel [⟨0, keySeven, 5, false⟩] fun _ _ => true := by
  have run : Run blankTuples false true _ _ := .put keySeven 5 .append .create rfl
  obtain ⟨h, ho, -⟩ := run_kept run
  exact ⟨_, run, (scansRight_iff h _).mpr (.inl ho)⟩

/-- Two tuples of an OID relation, both to be deleted: the second one is never visited. -/
theorem skippedTuple_not_scansRight : ∃ s,
    Run blankTuples true false s [⟨0, keySeven, 1, false⟩, ⟨1, keySeven, 2, false⟩] ∧
    ¬ ScansRight s.rel [⟨0, keySeven, 1, false⟩, ⟨1, keySeven, 2, false⟩] fun _ _ => true := by
  have run : Run blankTuples true false _ _ :=
    .put keySeven 2 .append (.put keySeven 1 .append .create rfl) rfl
  obtain ⟨h, ho, -⟩ := run_kept run
  exact ⟨_, run, not_scansRight h ho ⟨⟨0, keySeven, 1, false⟩, List.mem_cons_self, rfl⟩ le_rfl⟩

end

end StreamMill.ImDb
