import StreamMill.ImDb.Runs

/-!
# StreamMill.ImDb.Delete

`im_rel_del`. `Deletes s l key` is what it is for: afterwards the gets find every other live tuple
and none with the key. `deletes_iff` says when this is so.
-/

namespace StreamMill.ImDb

open Lib

variable {n : Nat} {δ : Type} {s s' : Rel n δ} {l rest es : List (Entry n δ)} {e : Entry n δ}
  {c : Cursor} {head : Addr} {ht : HashControl (KeyPtr n) Addr}

def liveEntries (l : List (Entry n δ)) : List (Entry n δ) := l.filter fun e => !e.deleted

def Entry.found (e : Entry n δ) : Key n × δ × Addr := (e.key, e.data, e.slot)

theorem liveEntries_eq_cons :
    liveEntries rest = e :: es ↔ ∃ pre post, rest = pre ++ e :: post ∧ liveEntries pre = [] ∧
      e.deleted = false ∧ liveEntries post = es := by
  rw [liveEntries, List.filter_eq_cons_iff]
  simp [liveEntries, List.filter_eq_nil_iff]

theorem head?_dropWhile_deleted (l : List (Entry n δ)) :
    (l.dropWhile fun e => !(!e.deleted)).head? = (liveEntries l).head? := by
  rw [liveEntries, List.head?_filter, List.find?_eq_head?_dropWhile_not]

theorem head?_slots (l : List (Entry n δ)) : (slots l).head? = l.head?.map Entry.slot := by
  cases l <;> rfl

section Lookup

variable [DecidableEq δ]

/-- What `DB_NEXT_DUP` finds, again and again until `DB_NOTFOUND`. -/
def nextDups (key : Key n) (d : δ) : Nat → Rel n δ → Cursor → Except Fault (List δ)
  | 0, _, _ => .error .loop
  | fuel + 1, s, c => do
    let (s, c, found) ← imRelCursorGet s c key d .nextDup
    match found with
    | none => return []
    | some (_, x, _) => return x :: (← nextDups key d fuel s c)

/-- The data of all tuples with a key: `DB_SET`, then `DB_NEXT_DUP`. -/
def lookup (s : Rel n δ) (key : Key n) (d : δ) : Except Fault (List δ) := do
  let (s, c, found) ← imRelCursorGet s imRelCursor key d .set
  match found with
  | none => return []
  | some (_, x, _) => return x :: (← nextDups key d s.fuel s c)

/-- The gets find exactly the data `xs` under the key. -/
structure Finds (s : Rel n δ) (key : Key n) (xs : List δ) : Prop where
  get : ∃ s' r, imRelGet s key = .ok (s', r) ∧ (r = none ↔ xs = []) ∧ ∀ x, r = some x → x ∈ xs
  getBoth : ∀ d, ∃ s', imRelGetBoth s key d = .ok (s', decide (d ∈ xs))
  dups : ∀ d, ∃ ys, lookup s key d = .ok ys ∧ ys.Perm xs

def liveData (l : List (Entry n δ)) (key : Key n) : List δ :=
  (l.filter fun e => !e.deleted && e.key = key).map Entry.data

/-- `im_rel_del` finds out whether a live tuple has the key, and leaves those that have not,
whatever the memory that it frees holds then. -/
def Deletes (s : Rel n δ) (l : List (Entry n δ)) (key : Key n) : Prop :=
  ∀ junk, ∃ s' found, imRelDel s junk key = .ok (s', found) ∧
    (found = false ↔ ∀ e ∈ l, e.deleted = false → e.key ≠ key) ∧
    ∀ k, Finds s' k (if k = key then [] else liveData l k)

theorem finds_empty (hhead : s.head = none) (key : Key n) : Finds s key [] := by
  refine ⟨⟨s, none, ?_, by simp, fun x hx => by cases hx⟩, fun d => ⟨s, ?_⟩, fun d => ⟨[], ?_, .nil⟩⟩
  · rw [imRelGet, hhead]
  · rw [imRelGetBoth, hhead]
    rfl
  · rw [lookup, imRelCursorGet, hhead]
    rfl

section

variable (hidx : s.hidx = none) (hhead : s.head ≠ none)
include hidx hhead

theorem dup_unindexed {c c' : Cursor} {key : Key n} {d : δ} {flags : GetFlags}
    (hflags : flags = .set ∨ flags = .nextDup) {found : Option (Key n × δ × Addr)}
    (hrun : imRelCursorGet s c key d flags = .ok (s', c', found)) :
    s' = s ∧ found ≠ none := by
  obtain ⟨head, hhead⟩ := Option.ne_none_iff_exists'.mp hhead
  simp only [imRelCursorGet, hhead] at hrun
  obtain ⟨⟨s₁, c₁⟩, hmove, hout⟩ := bind_eq_ok hrun
  cases hout
  have hseek : s₁ = s ∧ ∃ cur a, s.seekKey head key cur = .ok a ∧ c₁.cur = a := by
    rcases hflags with rfl | rfl
    · simp only [Rel.cursorMove, hidx] at hmove
      obtain ⟨cur, hs, hmove⟩ := bind_eq_ok hmove
      cases hmove
      exact ⟨rfl, _, _, hs, rfl⟩
    · simp only [Rel.cursorMove, hidx] at hmove
      obtain ⟨cur, hs, hmove⟩ := bind_eq_ok hmove
      cases hmove
      exact ⟨rfl, _, _, hs, rfl⟩
  obtain ⟨rfl, cur, a, hs, hcur⟩ := hseek
  obtain ⟨r, -, hs⟩ := bind_eq_ok hs
  cases r with
  | none => cases hs
  | some b =>
    cases hs
    rw [hcur]
    exact ⟨rfl, by simp⟩

theorem nextDups_unindexed (key : Key n) (d : δ) (fuel : Nat) (c : Cursor) (ys : List δ) :
    nextDups key d fuel s c ≠ .ok ys := by
  induction fuel generalizing c ys with
  | zero => exact fun h => by cases h
  | succ fuel ih =>
    intro h
    obtain ⟨⟨s₁, c₁, found⟩, hget, h⟩ := bind_eq_ok h
    obtain ⟨rfl, hfound⟩ := dup_unindexed hidx hhead (.inr rfl) hget
    cases found with
    | none => exact hfound rfl
    | some e =>
      obtain ⟨zs, hzs, -⟩ := bind_eq_ok h
      exact ih c₁ zs hzs

theorem lookup_unindexed (key : Key n) (d : δ) (ys : List δ) : lookup s key d ≠ .ok ys := by
  intro h
  obtain ⟨⟨s₁, c₁, found⟩, hget, h⟩ := bind_eq_ok h
  obtain ⟨rfl, hfound⟩ := dup_unindexed hidx hhead (.inl rfl) hget
  cases found with
  | none => exact hfound rfl
  | some e =>
    obtain ⟨zs, hzs, -⟩ := bind_eq_ok h
    exact nextDups_unindexed hidx hhead key d _ c₁ zs hzs

end

/-! ## The gets through an index -/

def chainEntries (l : List (Entry n δ)) (key : Key n) : List (Entry n δ) :=
  (l.filter fun e => e.key = key).reverse

omit [DecidableEq δ] in
theorem slots_chainEntries (l : List (Entry n δ)) (key : Key n) :
    slots (chainEntries l key) = chainOf l key.val := by
  rw [chainEntries, slots, List.map_reverse, chainOf]
  congr 3
  funext e
  exact decide_eq_decide.mpr Subtype.ext_iff

omit [DecidableEq δ] in
theorem liveData_perm (l : List (Entry n δ)) (key : Key n) :
    (((chainEntries l key).filter fun e => !e.deleted).map Entry.data).Perm (liveData l key) := by
  rw [chainEntries, List.filter_reverse, List.filter_filter, List.map_reverse]
  exact List.reverse_perm _

omit [DecidableEq δ] in
theorem skipDeleted_chain (h : s.Holds l) (hes : es ⊆ l) {o : Option Addr}
    (hpath : Path s.hchain o (slots es)) (hlen : es.length ≤ s.fuel) :
    s.skipDeleted s.hchain o = .ok ((liveEntries es).head?.map Entry.slot) := by
  have hskip : ∀ e ∈ es, (!s.live e.slot) = !(!e.deleted) :=
    fun e he => by rw [h.live_iff (hes he)]
  have hwalk := walk_path Fault.loop (fun a => !s.live a) (n := s.fuel) hpath
    (by rw [slots, List.length_map]; exact hlen)
  rwa [dropWhile_slots es hskip, head?_slots, head?_dropWhile_deleted] at hwalk

omit [DecidableEq δ] in
theorem hashFind_chain (h : s.Holds l) (hht : s.hidx = some ht) (key : Key n) :
    ∃ s' o, s.hashFind ht key = .ok (s', o) ∧ s'.Holds l ∧ s'.hidx ≠ none ∧ s'.head = s.head ∧
      s'.fuel = s.fuel ∧ Path s'.hchain o (slots (chainEntries l key)) := by
  obtain ⟨ht', hfind, h'⟩ := h.hashFind hht key
  have hchain := (h.index ht hht).chains key.val
  rw [← slots_chainEntries] at hfind hchain
  exact ⟨_, _, hfind, h', by simp, rfl, rfl, hchain⟩

omit [DecidableEq δ] in
theorem chainEntries_sub (l : List (Entry n δ)) (key : Key n) : chainEntries l key ⊆ l := by
  intro e he
  rw [chainEntries, List.mem_reverse] at he
  exact List.mem_of_mem_filter he

omit [DecidableEq δ] in
theorem chainEntries_length_le (h : s.Listed l) (key : Key n) :
    (chainEntries l key).length ≤ l.length ∧ l.length ≤ s.fuel := by
  refine ⟨?_, by simpa [slots] using h.length_le⟩
  rw [chainEntries, List.length_reverse]
  exact List.length_filter_le _ _

theorem nextDups_indexed (h : s.Holds l) (hht : s.hidx = some ht) (hhead : s.head = some head)
    (key : Key n) (d : δ) (hes : es ⊆ l) (hpath : Path s.hchain c.nextaccess (slots es))
    (hlen : es.length ≤ s.fuel) {fuel : Nat} (hfuel : es.length < fuel) :
    nextDups key d fuel s c = .ok ((liveEntries es).map Entry.data) := by
  induction fuel generalizing c es with
  | zero => cases hfuel
  | succ fuel ih =>
    have hskip := skipDeleted_chain h hes hpath hlen
    rw [nextDups]
    simp only [imRelCursorGet, hhead, Rel.cursorMove, hht, hskip, ok_bind]
    cases hlive : liveEntries es with
    | nil => rfl
    | cons e ds =>
      obtain ⟨pre, post, rfl, -, -, rfl⟩ := liveEntries_eq_cons.mp hlive
      have hdata := (h.stored e (hes (by simp))).2.1
      rw [List.length_append, List.length_cons] at hlen hfuel
      rw [slots_middle] at hpath
      have hrest := ih (c := ⟨some e.slot, s.hchain e.slot⟩) (fun e' he' => hes (by simp [he']))
        hpath.suffix (by omega) (by omega)
      change nextDups key d fuel s ⟨some e.slot, s.hchain e.slot⟩ >>= _ = _
      rw [hrest]
      exact congrArg (fun x => Except.ok (x :: (liveEntries post).map Entry.data)) hdata

theorem finds_indexed (h : s.Holds l) (hidx : s.hidx ≠ none) (key : Key n) :
    Finds s key (liveData l key) := by
  by_cases hhead : s.head = none
  · have hl : l = [] := by
      have hh := h.head
      rw [hhead] at hh
      exact List.map_eq_nil_iff.mp (List.head?_eq_none_iff.mp hh.symm)
    subst hl
    exact finds_empty hhead key
  obtain ⟨head, hhead⟩ := Option.ne_none_iff_exists'.mp hhead
  obtain ⟨ht, hht⟩ := Option.ne_none_iff_exists'.mp hidx
  obtain ⟨s', o, hfind, h', hidx', hhead', hfuel, hpath⟩ := hashFind_chain h hht key
  obtain ⟨ht', hht'⟩ := Option.ne_none_iff_exists'.mp hidx'
  rw [hhead] at hhead'
  have hes := chainEntries_sub l key
  have hlen : (chainEntries l key).length ≤ s'.fuel :=
    hfuel ▸ (chainEntries_length_le h.toListed key).1.trans (chainEntries_length_le h.toListed key).2
  have hperm := liveData_perm l key
  change ((liveEntries (chainEntries l key)).map Entry.data).Perm _ at hperm
  have hdata : ∀ e ∈ chainEntries l key, (s'.mem e.slot).data = e.data :=
    fun e he => (h'.stored e (hes he)).2.1
  have hskip := skipDeleted_chain h' hes hpath hlen
  generalize chainEntries l key = es at *
  refine ⟨⟨s', ((liveEntries es).map Entry.data).head?, ?_, ?_, ?_⟩, fun d => ⟨s', ?_⟩,
    fun d => ⟨_, ?_, hperm⟩⟩
  · simp only [imRelGet, hhead, hht, hfind, ok_bind, hskip]
    refine congrArg (fun r => Except.ok (s', r)) ?_
    cases hlive : liveEntries es with
    | nil => rfl
    | cons e ds =>
      have he : e ∈ liveEntries es := by rw [hlive]; exact List.mem_cons_self
      exact congrArg some (hdata e (List.mem_of_mem_filter he))
  · rw [List.head?_eq_none_iff]
    exact ⟨fun hn => List.nil_perm.mp (hn ▸ hperm), fun hn => List.perm_nil.mp (hn ▸ hperm)⟩
  · exact fun x hx => hperm.subset (List.mem_of_head? hx)
  · have hq : ∀ e ∈ es, (!(s'.live e.slot && (s'.mem e.slot).data = d)) =
        !(!e.deleted && e.data = d) :=
      fun e he => by rw [h'.live_iff (hes he), hdata e he]
    have hwalk := walk_path Fault.loop (fun a => !(s'.live a && (s'.mem a).data = d))
      (n := s'.fuel) hpath (by rwa [slots, List.length_map])
    rw [dropWhile_slots es hq, head?_slots] at hwalk
    simp only [imRelGetBoth, hhead, hht, hfind, ok_bind, hwalk]
    refine congrArg (fun b => Except.ok (s', b)) ?_
    rw [Bool.eq_iff_iff, decide_eq_true_eq,
      ← hperm.mem_iff]
    simp [liveEntries, and_assoc]
  · rw [lookup]
    simp only [imRelCursorGet, hhead, Rel.cursorMove, hht, hfind, hskip, ok_bind]
    cases hlive : liveEntries es with
    | nil => rfl
    | cons e ds =>
      obtain ⟨pre, post, rfl, -, -, rfl⟩ := liveEntries_eq_cons.mp hlive
      rw [List.length_append, List.length_cons] at hlen
      rw [slots_middle] at hpath
      have hrest := nextDups_indexed h' hht' hhead' key d (c := ⟨some e.slot, s'.hchain e.slot⟩)
        (fun e' he' => hes (by simp [he'])) hpath.suffix (by omega)
        (by omega : post.length < s'.fuel)
      change nextDups key d s'.fuel s' ⟨some e.slot, s'.hchain e.slot⟩ >>= _ = _
      rw [hrest]
      exact congrArg (fun x => Except.ok (x :: (liveEntries post).map Entry.data))
        (hdata e (by simp))

end Lookup

/-! ## The loop of `im_rel_del` -/

variable {p : Addr → Bool} {cur head : Addr} {ys : List Addr} {e : Entry n δ} {key : Key n}

theorem Marked.trans {s'' : Rel n δ} {q : Addr → Bool} (h : Marked s s' p) (h' : Marked s' s'' q) :
    Marked s s'' fun a => p a || q a where
  deleted := fun a => by rw [h'.deleted, h.deleted, ← Bool.or_assoc, Bool.or_comm (q a)]
  key := fun a => (h'.key a).trans (h.key a)
  data := fun a => (h'.data a).trans (h.data a)
  hchain := h'.hchain.trans h.hchain
  next := h'.next.trans h.next
  prev := h'.prev.trans h.prev
  head := h'.head.trans h.head
  hidx := h'.hidx.trans h.hidx
  oid := h'.oid.trans h.oid
  buffer := h'.buffer.trans h.buffer

theorem Marked.congr {q : Addr → Bool} (h : Marked s s' p) (hpq : ∀ a, p a = q a) :
    Marked s s' q := (funext hpq : p = q) ▸ h

theorem marked_refl : Marked s s fun _ => false :=
  ⟨fun _ => rfl, fun _ => rfl, fun _ => rfl, rfl, rfl, rfl, rfl, rfl, rfl, rfl⟩

theorem delCount (p : Addr → Bool) (cur : Addr) (ys : List Addr) (ret : Nat) :
    (if p cur then ret + 1 else ret) + (ys.filter p).length =
      ret + ((cur :: ys).filter p).length := by
  cases hp : p cur with
  | true =>
    rw [List.filter_cons_of_pos hp, List.length_cons, if_pos rfl]
    omega
  | false => rw [List.filter_cons_of_neg (by simp [hp]), if_neg (by simp)]

theorem delStep_marked (ho : s.oid = true) (key : Key n) (cur : Addr) :
    Marked s (s.delStep key cur) fun a => decide (a = cur) && s.keyIs key a := by
  rw [Rel.delStep, Rel.delTuple, if_pos ho]
  cases hk : s.keyIs key cur with
  | true =>
    refine (mark_marked s cur).congr fun a => ?_
    by_cases ha : a = cur
    · simp [ha, hk]
    · simp [ha]
  | false =>
    refine marked_refl.congr fun a => ?_
    by_cases ha : a = cur
    · simp [ha, hk]
    · simp [ha]

theorem delLoop_oid (key : Key n) {m r : Nat} (ho : s.oid = true)
    (hpath : Path (s.listNext head) (some cur) (cur :: ys)) (hfuel : ys.length < m) :
    ∃ s', delLoop key head m cur s r =
        .ok (s', r + ((cur :: ys).filter (s.keyIs key)).length) ∧
      Marked s s' fun a => decide (a ∈ cur :: ys) && s.keyIs key a := by
  induction ys generalizing cur s m r with
  | nil =>
    obtain ⟨m, rfl⟩ : ∃ f, m = f + 1 := ⟨m - 1, by omega⟩
    have hm := delStep_marked ho key cur
    have hstep : s.listNext head cur = none := hpath.2
    have hend : s.next cur = head := by
      by_contra hne
      rw [Rel.listNext, stepBefore, if_neg hne] at hstep
      cases hstep
    refine ⟨s.delStep key cur, ?_, hm.congr fun a => by simp⟩
    rw [delLoop, if_pos (by rw [hm.next]; exact hend), ← delCount]
    rfl
  | cons b t ih =>
    obtain ⟨m, rfl⟩ : ∃ f, m = f + 1 := ⟨m - 1, by omega⟩
    have hm := delStep_marked ho key cur
    obtain ⟨hstep, hrest⟩ := hpath.2
    have hnext : s.next cur ≠ head ∧ s.next cur = b := by
      rw [Rel.listNext, stepBefore] at hstep
      split at hstep
      · cases hstep
      · next hne => exact ⟨hne, Option.some.inj hstep⟩
    have hkey : (s.delStep key cur).keyIs key = s.keyIs key := by
      funext a
      rw [Rel.keyIs, Rel.keyIs, hm.key]
    have hlist : (s.delStep key cur).listNext head = s.listNext head := by
      funext a
      rw [Rel.listNext, Rel.listNext, hm.next]
    obtain ⟨s', hrun, hm'⟩ := ih
      (hm.oid.trans ho)
      (by rw [hlist, ← hstep]; exact ⟨hstep, hrest⟩) (by simpa using hfuel)
    refine ⟨s', ?_, (hm.trans hm').congr fun a => ?_⟩
    · rw [delLoop, hm.next, if_neg hnext.1, hnext.2, hrun, hkey, delCount]
    · rw [hkey, ← Bool.and_or_distrib_right]
      simp

theorem delStep_value (key : Key n) {ks : List Addr} (ho : s.oid = false)
    (hhead : s.head = some head) (hring : Ring s.next s.prev (head :: ks ++ cur :: ys))
    (hnd : (head :: ks ++ cur :: ys).Nodup) :
    (s.delStep key cur).next cur = s.next cur ∧
      Ring (s.delStep key cur).next (s.delStep key cur).prev
        (head :: (ks ++ if s.keyIs key cur then [] else [cur]) ++ ys) ∧
      Relinked s (s.delStep key cur) ∧ (s.delStep key cur).head = s.head ∧
      (s.delStep key cur).buffer = s.buffer := by
  have hne : ¬ s.head = some cur := by
    rw [hhead]
    intro he
    have he : head = cur := Option.some.inj he
    exact (List.nodup_cons.mp hnd).1 (by simp [he])
  have hdel : s.delTuple cur = s.bypass cur := by
    rw [Rel.delTuple, ho]
    simp [hne]
  rw [Rel.delStep, hdel]
  cases hk : s.keyIs key cur with
  | true =>
    have hring' := bypass_ring hring hnd (by simp)
    rw [if_pos rfl, if_pos rfl, List.append_nil]
    exact ⟨bypass_next_self s cur, hring', bypass_relinked s cur, rfl, rfl⟩
  | false =>
    rw [if_neg (by simp), if_neg (by simp)]
    refine ⟨rfl, ?_, Relinked.refl, rfl, rfl⟩
    have hl : head :: (ks ++ [cur]) ++ ys = head :: ks ++ cur :: ys := by simp
    rw [hl]
    exact hring

theorem ring_next_middle {nx pv : Addr → Addr} {ks : List Addr}
    (hring : Ring nx pv (head :: ks ++ cur :: ys)) : nx cur = first id ys head := by
  have hr : Ring nx pv (cur :: (ys ++ head :: ks)) := hring.rotate
  rw [hr.ends.2]
  cases ys <;> rfl

theorem delLoop_value (key : Key n) (ks : List Addr) {m r : Nat} (ho : s.oid = false)
    (hhead : s.head = some head) (hring : Ring s.next s.prev (head :: ks ++ cur :: ys))
    (hnd : (head :: ks ++ cur :: ys).Nodup) (hfuel : ys.length < m) :
    ∃ s', delLoop key head m cur s r =
        .ok (s', r + ((cur :: ys).filter (s.keyIs key)).length) ∧
      Ring s'.next s'.prev (head :: ks ++ (cur :: ys).filter fun a => !s.keyIs key a) ∧
      Relinked s s' ∧ s'.head = s.head ∧ s'.buffer = s.buffer := by
  induction ys generalizing cur s ks m r with
  | nil =>
    obtain ⟨m, rfl⟩ : ∃ f, m = f + 1 := ⟨m - 1, by omega⟩
    obtain ⟨hnext, hring', hrel, hh, hb⟩ := delStep_value key ho hhead hring hnd
    have hend : s.next cur = head := ring_next_middle hring
    refine ⟨s.delStep key cur, ?_, ?_, hrel, hh, hb⟩
    · rw [delLoop, if_pos (by rw [hnext]; exact hend), ← delCount]
      rfl
    · cases hk : s.keyIs key cur with
      | true => simpa [hk] using hring'
      | false => simpa [hk] using hring'
  | cons b t ih =>
    obtain ⟨m, rfl⟩ : ∃ f, m = f + 1 := ⟨m - 1, by omega⟩
    obtain ⟨hnext, hring', hrel, hh, hb⟩ := delStep_value key ho hhead hring hnd
    have hmid : s.next cur = b := ring_next_middle hring
    have hne : b ≠ head := by
      rintro rfl
      exact (List.nodup_cons.mp hnd).1 (by simp)
    have hkey : (s.delStep key cur).keyIs key = s.keyIs key := by
      funext a
      rw [Rel.keyIs, Rel.keyIs, hrel.key]
    have hnd' : (head :: (ks ++ if s.keyIs key cur then [] else [cur]) ++ b :: t).Nodup := by
      refine hnd.sublist ?_
      cases s.keyIs key cur with
      | true => simp
      | false => simp
    obtain ⟨s', hrun, hr', hrel', hh', hb'⟩ := ih
     
      (ks ++ if s.keyIs key cur then [] else [cur])
      (hrel.oid.trans ho) (hh.trans hhead) hring' hnd'
      (by simpa using hfuel)
    refine ⟨s', ?_, ?_, hrel.trans hrel', hh'.trans hh, hb'.trans hb⟩
    · rw [delLoop, hnext, hmid, if_neg hne, hrun, hkey, delCount]
    · rw [hkey] at hr'
      cases hk : s.keyIs key cur with
      | true => simpa [hk] using hr'
      | false => simpa [hk] using hr'

theorem delLoop_head (key : Key n) (h : s.Listed (e :: l)) (ho : s.oid = false) :
    ∃ s', delLoop key e.slot s.fuel e.slot s 0 =
        .ok (s', ((slots (e :: l)).filter (s.keyIs key)).length) ∧
      Ring s'.next s'.prev (e.slot :: (slots l).filter fun a => !s.keyIs key a) ∧
      Relinked s s' ∧ s'.head = s.head ∧ s'.buffer = s.buffer := by
  have hhead : s.head = some e.slot := h.head
  have hring := h.ring
  have hnd := h.nodup
  have hlen := h.length_le
  rw [slots_cons] at hring hnd hlen
  obtain ⟨fuel, hfuel⟩ : ∃ f, s.fuel = f + 1 := ⟨s.fuel - 1, by simp at hlen; omega⟩
  rw [hfuel] at hlen ⊢
  have hstep : s.delStep key e.slot = s := by
    rw [Rel.delStep, Rel.delTuple, ho]
    simp [hhead]
  cases hl : slots l with
  | nil =>
    rw [hl] at hring
    refine ⟨s, ?_, hring, Relinked.refl, rfl, rfl⟩
    have hend : s.next e.slot = e.slot := hring.ends.2
    have hcount := delCount (s.keyIs key) e.slot [] 0
    rw [Nat.zero_add (List.length _)] at hcount
    rw [delLoop, hstep, if_pos hend, slots_cons, hl, ← hcount]
    rfl
  | cons b t =>
    rw [hl] at hring hnd hlen
    have hnext : s.next e.slot = b := hring.ends.2
    have hne : b ≠ e.slot := by
      intro he
      exact (List.nodup_cons.mp hnd).1 (by simp [he])
    obtain ⟨s', hrun, hr', hrel', hh', hb'⟩ := delLoop_value key [] (m := fuel)
      ho hhead hring hnd (by simp at hlen; omega)
    have hcount := delCount (s.keyIs key) e.slot (b :: t) 0
    rw [Nat.zero_add (List.length _)] at hcount
    refine ⟨s', ?_, hr', hrel', hh', hb'⟩
    rw [delLoop, hstep, hnext, if_neg hne, hrun, slots_cons, hl, ← hcount]

/-! ## `im_rel_del` -/

theorem count_pos_iff (h : s.Listed l) (key : Key n) :
    0 < ((slots l).filter (s.keyIs key)).length ↔ ∃ e ∈ l, e.key = key := by
  rw [List.length_pos_iff_exists_mem]
  constructor
  · intro hm
    obtain ⟨a, ha⟩ := hm
    obtain ⟨ha, hk⟩ := List.mem_filter.mp ha
    obtain ⟨e, he, rfl⟩ := mem_slots.mp ha
    rw [h.keyIs_iff he] at hk
    exact ⟨e, he, of_decide_eq_true hk⟩
  · intro hm
    obtain ⟨e, he, hk⟩ := hm
    refine ⟨e.slot, List.mem_filter.mpr ⟨slot_mem he, ?_⟩⟩
    rw [h.keyIs_iff he]
    exact decide_eq_true hk

theorem liveData_mark (hp : ∀ e ∈ l, p e.slot = decide (e.key = key)) (k : Key n) :
    liveData (markEntries p l) k = if k = key then [] else liveData l k := by
  induction l with
  | nil => simp [liveData, markEntries]
  | cons e l ih =>
    have ih := ih fun e' he' => hp e' (List.mem_cons_of_mem _ he')
    have he := hp e List.mem_cons_self
    simp only [liveData, markEntries, List.map_cons] at ih ⊢
    by_cases hk : e.key = key
    · rw [he, decide_eq_true hk, List.filter_cons_of_neg (by simp), ih]
      by_cases hkk : k = key
      · rw [if_pos hkk, if_pos hkk]
      · have hne : ¬ e.key = k := fun h => hkk (h.symm.trans hk)
        rw [if_neg hkk, if_neg hkk, List.filter_cons_of_neg (by simp [hne])]
    · rw [he, decide_eq_false hk, if_neg (by simp)]
      by_cases hkk : k = key
      · subst hkk
        rw [List.filter_cons_of_neg (by simp [hk]), ih, if_pos rfl, if_pos rfl]
      · rw [if_neg hkk] at ih ⊢
        rw [List.filter_cons, List.filter_cons]
        split
        · rw [List.map_cons, List.map_cons, ih]
        · exact ih

theorem imRelDel_oid (h : s.Holds l) (ho : s.oid = true) (junk : Addr → Tuple n δ) (key : Key n) :
    ∃ s' found p, imRelDel s junk key = .ok (s', found) ∧
      (found = true ↔ ∃ e ∈ l, e.key = key) ∧ s'.Holds (markEntries p l) ∧
      (∀ e ∈ l, p e.slot = decide (e.key = key)) ∧ s'.hidx = s.hidx ∧ s'.head = s.head ∧
      s'.oid = s.oid := by
  cases l with
  | nil =>
    refine ⟨s, false, fun _ => false, ?_, by simp, h, fun e he => (by cases he), rfl, rfl, rfl⟩
    have hh : s.head = none := h.head
    rw [imRelDel, hh]
  | cons e l =>
    have hh : s.head = some e.slot := h.head
    have hpath := h.path (show slots (e :: l) = [] ++ e.slot :: slots l from rfl) hh
    have hlen := h.length_le
    obtain ⟨s', hrun, hm⟩ := delLoop_oid key (m := s.fuel) (r := 0) ho hpath
      (by simp only [slots, List.map_cons, List.length_cons] at hlen ⊢; omega)
    refine ⟨s', decide (0 < 0 + ((slots (e :: l)).filter (s.keyIs key)).length), _, ?_, ?_,
      hm.holds h ho, fun e' he' => ?_, hm.hidx, hm.head, hm.oid⟩
    · simp only [imRelDel, hh, hrun, ok_bind, ho, Bool.not_true, Bool.false_and, Bool.false_eq_true,
        if_false]
      rfl
    · rw [decide_eq_true_iff, Nat.zero_add]
      exact count_pos_iff h.toListed key
    · have hmem : e'.slot ∈ e.slot :: slots l := slot_mem he'
      rw [decide_eq_true hmem, Bool.true_and, h.keyIs_iff he']

theorem imRelDel_value (h : s.Holds (e :: l)) (ho : s.oid = false) (junk : Addr → Tuple n δ)
    (hk : e.key ≠ key) :
    ∃ s' found, imRelDel s junk key = .ok (s', found) ∧
      (found = true ↔ ∃ e' ∈ e :: l, e'.key = key) ∧ Relinked s s' ∧ s'.head = s.head ∧
      s'.buffer = s.buffer ∧
      Ring s'.next s'.prev (e.slot :: (slots l).filter fun a => !s.keyIs key a) := by
  have hh : s.head = some e.slot := h.head
  obtain ⟨s', hrun, hring, hrel, hhead, hbuf⟩ := delLoop_head key h.toListed ho
  refine ⟨s', decide (0 < ((slots (e :: l)).filter (s.keyIs key)).length), ?_, ?_, hrel, hhead,
    hbuf, hring⟩
  · have hkey : s.keyIs key e.slot = false := by
      rw [h.keyIs_iff List.mem_cons_self]
      exact decide_eq_false hk
    simp only [imRelDel, hh, hrun, ok_bind, hkey, Bool.and_false, Bool.false_eq_true, if_false]
    rfl
  · rw [decide_eq_true_iff]
    exact count_pos_iff h.toListed key

theorem imRelDel_head (h : s.Holds (e :: l)) (ho : s.oid = false) (hk : e.key = key) :
    ∃ s₁, Relinked s s₁ ∧ s₁.buffer = s.buffer ∧
      (s₁.head = none ↔ ∀ e' ∈ e :: l, e'.key = key) ∧
      ∀ junk, imRelDel s junk key = (s₁.free junk e.slot).map fun s' => (s', true) := by
  have hh : s.head = some e.slot := h.head
  obtain ⟨s', hrun, hring, hrel, hhead, hbuf⟩ := delLoop_head key h.toListed ho
  have hkey : s.keyIs key e.slot = true := by
    rw [h.keyIs_iff List.mem_cons_self]
    exact decide_eq_true hk
  have hcount := (count_pos_iff h.toListed key).mpr ⟨e, List.mem_cons_self, hk⟩
  have hbrel := bypass_relinked s' e.slot
  have hdrel : Relinked s' (s'.delHead e.slot) := by
    rw [Rel.delHead]
    split
    · exact ⟨fun _ => rfl, fun _ => rfl, fun _ => rfl, fun _ => rfl, rfl, rfl⟩
    · exact ⟨hbrel.key, hbrel.data, hbrel.deleted, hbrel.hchain, hbrel.hidx, hbrel.oid⟩
  refine ⟨s'.delHead e.slot, hrel.trans hdrel, ?_, ?_, fun junk => ?_⟩
  · rw [Rel.delHead]
    split <;> exact hbuf
  · have hnd : (e.slot :: (slots l).filter fun a => !s.keyIs key a).Nodup := by
      have hnd := h.nodup
      exact hnd.sublist (List.filter_sublist.cons_cons _)
    have hone := ring_next_eq_self hring hnd
    have hall : ((slots l).filter fun a => !s.keyIs key a) = [] ↔
        ∀ e' ∈ e :: l, e'.key = key := by
      rw [List.filter_eq_nil_iff]
      constructor
      · intro hf e' he'
        rcases List.mem_cons.mp he' with rfl | he''
        · exact hk
        · have hf' := hf e'.slot (slot_mem he'')
          rw [h.keyIs_iff he'] at hf'
          simpa using hf'
      · intro hf a ha
        obtain ⟨e', he', rfl⟩ := mem_slots.mp ha
        rw [h.keyIs_iff (List.mem_cons_of_mem _ he')]
        simp [hf e' (List.mem_cons_of_mem _ he')]
    rw [← hall, ← hone, Rel.delHead]
    split
    · next hnext => exact ⟨fun _ => hnext, fun _ => rfl⟩
    · next hnext => exact ⟨fun hf => (by cases hf), fun hf => absurd hf hnext⟩
  · simp only [imRelDel, hh, hrun, ok_bind, ho, hkey, Bool.not_false, Bool.and_true, if_true]
    rw [decide_eq_true hcount]
    cases (s'.delHead e.slot).free junk e.slot <;> rfl

theorem filter_keyIs_self (h : s.Listed l) (hno : ∀ e ∈ l, e.key ≠ key) :
    ((slots l).filter fun a => !s.keyIs key a) = slots l := by
  rw [List.filter_eq_self]
  intro a ha
  obtain ⟨e, he, rfl⟩ := mem_slots.mp ha
  rw [h.keyIs_iff he, decide_eq_false (hno e he)]
  rfl

/-! ## When the deletion does what it is for -/

variable [DecidableEq δ]

theorem stale_get {ht : HashControl (KeyPtr n) Addr} (h : Indexed s ht l) (hht : s.hidx = some ht)
    (hhead : s.head ≠ none) (ho : s.oid = false) (hfuel : 0 < s.fuel) (hk : ∃ e ∈ l, e.key = key) :
    ¬ Finds s key [] := by
  intro hf
  obtain ⟨head, hhead⟩ := Option.ne_none_iff_exists'.mp hhead
  obtain ⟨e, he, rfl⟩ := hk
  obtain ⟨ht', hfind, -⟩ := hashFind_ok h.table (.caller e.key)
  rw [bytes_caller] at hfind
  obtain ⟨a, t, hchain⟩ := List.exists_cons_of_ne_nil
    (List.ne_nil_of_mem (mem_chainOf.mpr ⟨e, he, rfl, rfl⟩ : e.slot ∈ chainOf l e.key.val))
  rw [indexOf_eq_some.mpr ⟨rfl, t, hchain⟩] at hfind
  obtain ⟨s', r, hget, hnone, -⟩ := hf.get
  obtain ⟨s₁, hs₁⟩ : ∃ s₁ : Rel n δ, s₁ = { s with hidx := some ht' } := ⟨_, rfl⟩
  obtain ⟨f, hfuel⟩ : ∃ f, s₁.fuel = f + 1 := ⟨s.fuel - 1, by rw [hs₁]; change s.fuel = _; omega⟩
  have hlive : s₁.live a = true := by
    rw [hs₁, ho]
    rfl
  have hwalk : s₁.skipDeleted s₁.hchain (some a) = .ok (some a) := by
    rw [Rel.skipDeleted, hfuel, walk, hlive]
    rfl
  have hfind' : s.hashFind ht e.key = .ok (s₁, some a) := by
    rw [Rel.hashFind, hfind, hs₁]
    rfl
  have hrun : imRelGet s e.key = .ok (s₁, some (s₁.mem a).data) := by
    simp only [imRelGet, hhead, hht, hfind', ok_bind, hwalk]
    rfl
  rw [hrun] at hget
  cases hget
  exact absurd (hnone.mpr rfl) (by simp)

/-- Empty, or indexed and without the key, or an indexed OID relation with a live tuple of the key,
or a value relation of tuples of the key only, the first of which is the first one of a page. -/
def DeletesWell (s : Rel n δ) (l : List (Entry n δ)) (key : Key n) : Prop :=
  l = [] ∨
  (s.hidx ≠ none ∧ ∀ e ∈ l, e.key ≠ key) ∨
  (s.hidx ≠ none ∧ s.oid = true ∧ ∃ e ∈ l, e.deleted = false ∧ e.key = key) ∨
  (s.oid = false ∧ (∀ e ∈ l, e.key = key) ∧ ∀ e, l.head? = some e → e.slot % 256 = 0)

theorem deletes_of_indexed_oid (h : s.Holds l) (hidx : s.hidx ≠ none) (ho : s.oid = true)
    (hlive : (∃ e ∈ l, e.key = key) → ∃ e ∈ l, e.deleted = false ∧ e.key = key) :
    Deletes s l key := by
  intro junk
  obtain ⟨s', found, p, hrun, hfound, hs', hp, hidx', -⟩ := imRelDel_oid h ho junk key
  refine ⟨s', found, hrun, ?_, fun k => ?_⟩
  · rw [← Bool.not_eq_true, hfound]
    constructor
    · exact fun hno e he _ hk => hno ⟨e, he, hk⟩
    · intro hno hex
      obtain ⟨e, he, hd, hk⟩ := hlive hex
      exact hno e he hd hk
  · rw [← liveData_mark hp k]
    exact finds_indexed hs' (by rw [hidx']; exact hidx) k

theorem deletes_nil (h : s.Holds []) (key : Key n) : Deletes s [] key := by
  intro junk
  have hh : s.head = none := h.head
  refine ⟨s, false, by rw [imRelDel, hh], by simp, fun k => ?_⟩
  have hnil : (if k = key then [] else liveData ([] : List (Entry n δ)) k) = [] := by
    split <;> rfl
  rw [hnil]
  exact finds_empty hh k

theorem deletes_of_absent (h : s.Holds (e :: l)) (hidx : s.hidx ≠ none) (ho : s.oid = false)
    (hno : ∀ e' ∈ e :: l, e'.key ≠ key) :
    Deletes s (e :: l) key := by
  intro junk
  obtain ⟨s', found, hrun, hfound, hrel, hhead, hbuf, hring⟩ :=
    imRelDel_value h ho junk (hno e List.mem_cons_self)
  have hs' : s'.Holds (e :: l) := by
    have hfilter := filter_keyIs_self h.toListed hno
    have hself : s.keyIs key e.slot = false := by
      rw [h.keyIs_iff List.mem_cons_self]
      exact decide_eq_false (hno e List.mem_cons_self)
    rw [slots_cons, List.filter_cons_of_pos (by simp [hself])] at hfilter
    rw [hfilter] at hring
    refine ⟨⟨h.nodup, hhead.trans h.head, hring, fun e' he' => hrel.stored (h.stored e' he'),
      by rw [hbuf]; exact h.alloc, by rw [hrel.oid]; exact h.value⟩, fun ht hht => ?_⟩
    rw [hrel.hidx] at hht
    exact (h.index ht hht).congr (fun a _ => hrel.key a) fun a _ => hrel.hchain a
  refine ⟨s', found, hrun, ?_, fun k => ?_⟩
  · rw [← Bool.not_eq_true, hfound]
    exact ⟨fun _ e' he' _ => hno e' he', fun _ hex => by
      obtain ⟨e', he', hk⟩ := hex
      exact hno e' he' hk⟩
  · have hlive : (if k = key then [] else liveData (e :: l) k) = liveData (e :: l) k := by
      split
      · next hk =>
        subst hk
        rw [liveData, List.filter_eq_nil_iff.mpr fun e' he' => by simp [hno e' he'], List.map_nil]
      · rfl
    rw [hlive]
    exact finds_indexed hs' (by rw [hrel.hidx]; exact hidx) k

theorem deletes_of_all (h : s.Holds (e :: l)) (ho : s.oid = false)
    (hall : ∀ e' ∈ e :: l, e'.key = key) (hpage : e.slot % 256 = 0) :
    Deletes s (e :: l) key := by
  intro junk
  obtain ⟨s₁, -, -, hnone, hrun⟩ := imRelDel_head h ho (hall e List.mem_cons_self)
  have hhead := hnone.mpr hall
  have hfree := hrun junk
  rw [Rel.free, if_pos hpage] at hfree
  refine ⟨_, true, hfree, ?_, fun k => ?_⟩
  · have hlive := h.value ho e List.mem_cons_self
    constructor
    · intro hf
      cases hf
    · intro hno
      exact absurd (hall e List.mem_cons_self) (hno e List.mem_cons_self hlive)
  · have hempty : (if k = key then [] else liveData (e :: l) k) = [] := by
      split
      · rfl
      · next hk =>
        rw [liveData, List.filter_eq_nil_iff.mpr, List.map_nil]
        intro e' he' hd
        simp only [Bool.and_eq_true, decide_eq_true_eq] at hd
        exact hk (hd.2.symm.trans (hall e' he'))
    rw [hempty]
    refine finds_empty ?_ k
    exact hhead

theorem deletes_of_well (h : s.Holds l) (hwell : DeletesWell s l key) :
    Deletes s l key := by
  cases l with
  | nil => exact deletes_nil h key
  | cons e l =>
    rcases hwell with hnil | ⟨hidx, hno⟩ | ⟨hidx, ho, hlive⟩ | ⟨ho, hall, hpage⟩
    · cases hnil
    · cases ho : s.oid with
      | true =>
        refine deletes_of_indexed_oid h hidx ho fun hex => ?_
        obtain ⟨e', he', hk⟩ := hex
        exact absurd hk (hno e' he')
      | false => exact deletes_of_absent h hidx ho hno
    · exact deletes_of_indexed_oid h hidx ho fun _ => hlive
    · exact deletes_of_all h ho hall (hpage e rfl)

theorem not_finds_unindexed (hidx : s.hidx = none) (hhead : s.head ≠ none) (key : Key n) (d : δ)
    (xs : List δ) : ¬ Finds s key xs := by
  intro hf
  obtain ⟨ys, hys, -⟩ := hf.dups d
  exact lookup_unindexed hidx hhead key d ys hys

theorem all_of_deletes (h : s.Holds (e :: l)) (ho : s.oid = false) (hk : e.key = key)
    (hdel : Deletes s (e :: l) key) :
    (∀ e' ∈ e :: l, e'.key = key) ∧ e.slot % 256 = 0 := by
  obtain ⟨s₁, hrel, hbuf, hnone, hrun⟩ := imRelDel_head h ho hk
  have hfree : ∀ junk, ∃ s', s₁.free junk e.slot = .ok s' ∧
      ∀ k, Finds s' k (if k = key then [] else liveData (e :: l) k) := by
    intro junk
    obtain ⟨s', found, hdel, -, hf⟩ := hdel junk
    rw [hrun] at hdel
    cases hfr : s₁.free junk e.slot with
    | error err =>
      rw [hfr] at hdel
      cases hdel
    | ok s'' =>
      rw [hfr] at hdel
      cases hdel
      exact ⟨s', rfl, hf⟩
  have hpage : e.slot % 256 = 0 := by
    by_contra hne
    obtain ⟨s', hs', -⟩ := hfree s.mem
    rw [Rel.free, if_neg hne] at hs'
    cases hs'
  refine ⟨?_, hpage⟩
  by_contra hall
  have hhead : s₁.head ≠ none := fun hh => hall (hnone.mp hh)
  -- the memory freed still holds what it held
  obtain ⟨s', hs', hf⟩ := hfree s₁.mem
  have heq : s' = s₁ := by
    rw [Rel.free, if_pos hpage] at hs'
    cases hs'
    simp [ite_self]
  subst heq
  have hfk := hf key
  rw [if_pos rfl] at hfk
  by_cases hidx : s.hidx = none
  · exact not_finds_unindexed (hrel.hidx.trans hidx) hhead key e.data [] hfk
  · obtain ⟨ht, hht⟩ := Option.ne_none_iff_exists'.mp hidx
    have hindexed : Indexed s' ht (e :: l) :=
      (h.index ht hht).congr (fun a _ => hrel.key a) fun a _ => hrel.hchain a
    refine stale_get hindexed (hrel.hidx.trans hht) hhead (hrel.oid.trans ho) ?_
      ⟨e, List.mem_cons_self, hk⟩ hfk
    rw [Rel.fuel, hbuf]
    exact Nat.lt_of_le_of_lt (Nat.zero_le _) (h.alloc.used e.slot (slot_mem List.mem_cons_self))

theorem well_of_deletes (h : s.Holds l) (hdel : Deletes s l key) :
    DeletesWell s l key := by
  cases l with
  | nil => exact .inl rfl
  | cons e l =>
    have hhead : s.head ≠ none := by
      rw [h.head]
      exact fun hn => by cases hn
    cases ho : s.oid with
    | true =>
      obtain ⟨s', found, p, hrun, hfound, -, -, hidx', hhead', -⟩ := imRelDel_oid h ho s.mem key
      obtain ⟨s'', found', hrun', hnone, hf⟩ := hdel s.mem
      rw [hrun] at hrun'
      cases hrun'
      by_cases hidx : s.hidx = none
      · exact absurd (hf key) (not_finds_unindexed (hidx'.trans hidx) (hhead' ▸ hhead) key e.data _)
      by_cases hex : ∃ e' ∈ e :: l, e'.key = key
      · refine .inr (.inr (.inl ⟨hidx, ho, ?_⟩))
        by_contra hno
        have hall : ∀ e' ∈ e :: l, e'.deleted = false → e'.key ≠ key :=
          fun e' he' hd hk => hno ⟨e', he', hd, hk⟩
        rw [hnone.mpr hall] at hfound
        exact absurd (hfound.mpr hex) (by simp)
      · exact .inr (.inl ⟨hidx, fun e' he' hk => hex ⟨e', he', hk⟩⟩)
    | false =>
      by_cases hk : e.key = key
      · obtain ⟨hall, hpage⟩ := all_of_deletes h ho hk hdel
        refine .inr (.inr (.inr ⟨ho, hall, fun e' he' => ?_⟩))
        cases he'
        exact hpage
      obtain ⟨s', found, hrun, hfound, hrel, hhead', hbuf, -⟩ := imRelDel_value h ho s.mem hk
      obtain ⟨s'', found', hrun', hnone, hf⟩ := hdel s.mem
      rw [hrun] at hrun'
      cases hrun'
      by_cases hidx : s.hidx = none
      · exact absurd (hf key)
          (not_finds_unindexed (hrel.hidx.trans hidx) (hhead' ▸ hhead) key e.data _)
      obtain ⟨ht, hht⟩ := Option.ne_none_iff_exists'.mp hidx
      refine .inr (.inl ⟨hidx, fun e' he' hk' => ?_⟩)
      have hfk := hf key
      rw [if_pos rfl] at hfk
      have hindexed : Indexed s' ht (e :: l) :=
        (h.index ht hht).congr (fun a _ => hrel.key a) fun a _ => hrel.hchain a
      refine stale_get hindexed (hrel.hidx.trans hht) (hhead' ▸ hhead) (hrel.oid.trans ho) ?_
        ⟨e', he', hk'⟩ hfk
      rw [Rel.fuel, hbuf]
      exact Nat.lt_of_le_of_lt (Nat.zero_le _) (h.alloc.used e.slot (slot_mem List.mem_cons_self))

/-- `im_rel_del` does what it is for exactly in the cases of `DeletesWell`. -/
theorem deletes_iff (h : s.Holds l) (key : Key n) : Deletes s l key ↔ DeletesWell s l key :=
  ⟨well_of_deletes h, deletes_of_well h⟩

/-- An indexed OID relation of one live tuple. -/
theorem deletes_iff_oneTuple : ∃ s, Run blankTuples true true s [⟨0, keySeven, 5, false⟩] ∧
    Deletes s.rel [⟨0, keySeven, 5, false⟩] keySeven := by
  have run : Run blankTuples true true _ _ := .put keySeven 5 .append .create rfl
  obtain ⟨h, ho, hi⟩ := run_kept run
  refine ⟨_, run, (deletes_iff h keySeven).mpr (.inr (.inr (.inl ⟨?_, ho, ?_⟩)))⟩
  · exact Option.isSome_iff_ne_none.mp hi
  · exact ⟨_, List.mem_cons_self, rfl, rfl⟩

def keyEight : Key 1 := ⟨[8], rfl⟩

/-- An indexed value relation with a tuple of another key in front: the index still finds the key
after the deletion. -/
theorem staleIndex_not_deletes : ∃ s,
    Run blankTuples false true s [⟨0, keyEight, 1, false⟩, ⟨1, keySeven, 2, false⟩] ∧
    ¬ Deletes s.rel [⟨0, keyEight, 1, false⟩, ⟨1, keySeven, 2, false⟩] keySeven := by
  have run : Run blankTuples false true _ _ :=
    .put keySeven 2 .append (.put keyEight 1 .append .create rfl) rfl
  obtain ⟨h, ho, hi⟩ := run_kept run
  refine ⟨_, run, fun hdel => ?_⟩
  rcases well_of_deletes h hdel with hnil | ⟨-, hno⟩ | ⟨-, ho', -⟩ | ⟨-, hall, -⟩
  · cases hnil
  · exact hno ⟨1, keySeven, 2, false⟩ (by decide) rfl
  · rw [ho] at ho'
    cases ho'
  · exact absurd (hall ⟨0, keyEight, 1, false⟩ (by decide)) (by decide)

end StreamMill.ImDb
