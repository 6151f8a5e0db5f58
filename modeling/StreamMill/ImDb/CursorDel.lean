import StreamMill.ImDb.Contents

/-!
# StreamMill.ImDb.CursorDel

`im_rel_cursor_del` on a tuple of the list: `imRelCursorDel_holds` is its step lemma. A value
relation loses the tuple, from the list (`unlink_listed`) and from the index (`unindex_ok`); an
OID relation keeps it with a tombstone (`tombstone_holds`).
-/

namespace StreamMill.ImDb

open Lib

variable {n : Nat} {δ : Type} {s s' : Rel n δ} {l xs ys : List (Entry n δ)} {e : Entry n δ}

theorem bypass_relinked (s : Rel n δ) (a : Addr) : Relinked s (s.bypass a) :=
  (setNext_relinked s _ _).trans (setPrev_relinked _ _ _)

theorem bypass_next_self (s : Rel n δ) (a : Addr) : (s.bypass a).next a = s.next a := by
  have hnx : (s.bypass a).next = Function.update s.next (s.prev a) (s.next a) := by
    simp [Rel.bypass]
  rw [hnx]
  by_cases hp : a = s.prev a
  · rw [← hp, Function.update_self]
  · rw [Function.update_of_ne hp]

theorem bypass_ring {a : Addr} {xs ys : List Addr} (hr : Ring s.next s.prev (xs ++ a :: ys))
    (hnd : (xs ++ a :: ys).Nodup) (hne : xs ++ ys ≠ []) :
    Ring (s.bypass a).next (s.bypass a).prev (xs ++ ys) := by
  have hnx : (s.bypass a).next = Function.update s.next (s.prev a) (s.next a) := by
    simp [Rel.bypass]
  have hpv : (s.bypass a).prev = Function.update s.prev (s.next a) (s.prev a) := by
    simp [Rel.bypass]
  refine hr.remove hnd hne (fun c _ hc => ?_) ?_ (fun c _ hc => ?_) ?_
  · rw [hnx, Function.update_of_ne hc]
  · rw [hnx, Function.update_self]
  · rw [hpv, Function.update_of_ne hc]
  · rw [hpv, Function.update_self]

theorem ring_next_eq_self {a : Addr} {ys : List Addr} (hr : Ring s.next s.prev (a :: ys))
    (hnd : (a :: ys).Nodup) : s.next a = a ↔ ys = [] := by
  rw [hr.ends.2]
  cases ys with
  | nil => simp
  | cons b ys =>
    have hne : b ≠ a := fun he => (List.nodup_cons.mp hnd).1 (by simp [he])
    simpa using hne

theorem freeBuffer_holds {p : Buffer} {a : Addr} {xs ys : List Addr}
    (h : p.Holds (xs ++ a :: ys)) (hnd : (xs ++ a :: ys).Nodup) :
    (freeBuffer p a).Holds (xs ++ ys) := by
  have hsub : ∀ b ∈ xs ++ ys, b ∈ xs ++ a :: ys := by
    intro b hb
    rcases List.mem_append.mp hb with hb | hb
    · exact List.mem_append_left _ hb
    · exact List.mem_append_right _ (List.mem_cons_of_mem _ hb)
  have ha : a ∉ xs ++ ys := (List.nodup_middle.mp hnd |> List.nodup_cons.mp).1
  refine ⟨List.nodup_cons.mpr ⟨fun hm => (h.free a hm).2 (by simp), h.nodup⟩, ?_, ?_⟩
  · intro b hb
    rcases List.mem_cons.mp hb with rfl | hb
    · exact ⟨h.used b (by simp), ha⟩
    · exact ⟨(h.free b hb).1, fun hm => (h.free b hb).2 (hsub b hm)⟩
  · exact fun b hb => h.used b (hsub b hb)

theorem slots_middle (xs ys : List (Entry n δ)) (e : Entry n δ) :
    slots (xs ++ e :: ys) = slots xs ++ e.slot :: slots ys := slots_append _ _

theorem unlink_relinked (s : Rel n δ) (c : Cursor) (a : Addr) : Relinked s (s.unlink c a).1 := by
  have h := bypass_relinked s a
  rw [Rel.unlink]
  split
  · split
    · exact ⟨fun _ => rfl, fun _ => rfl, fun _ => rfl, fun _ => rfl, rfl, rfl⟩
    · exact ⟨h.key, h.data, h.deleted, h.hchain, h.hidx, h.oid⟩
  · exact ⟨h.key, h.data, h.deleted, h.hchain, h.hidx, h.oid⟩

theorem unlink_fuel (s : Rel n δ) (c : Cursor) (a : Addr) : (s.unlink c a).1.fuel = s.fuel := by
  rw [Rel.unlink]
  split
  · split <;> rfl
  · rfl

theorem unlink_listed (h : s.Listed (xs ++ e :: ys)) (c : Cursor) :
    (s.unlink c e.slot).1.Listed (xs ++ ys) := by
  obtain ⟨hnd, hhead, hring, hstored, halloc, hvalue⟩ := h
  rw [slots_middle] at hnd hhead hring halloc
  have hmem : ∀ e' ∈ xs ++ ys, e' ∈ xs ++ e :: ys := by
    intro e' he
    rcases List.mem_append.mp he with he | he
    · exact List.mem_append_left _ he
    · exact List.mem_append_right _ (List.mem_cons_of_mem _ he)
  have hrel := unlink_relinked s c e.slot
  have hstored' : ∀ e' ∈ xs ++ ys, e'.Stored ((s.unlink c e.slot).1.mem e'.slot) :=
    fun e' he => hrel.stored (hstored e' (hmem e' he))
  have hvalue' : (s.unlink c e.slot).1.oid = false → ∀ e' ∈ xs ++ ys, e'.deleted = false := by
    rw [hrel.oid]
    exact fun ho e' he => hvalue ho e' (hmem e' he)
  have hnd' : (slots (xs ++ ys)).Nodup := by
    rw [slots_append]
    exact (List.nodup_middle.mp hnd).of_cons
  have hbuf := freeBuffer_holds halloc hnd
  rw [← slots_append] at hbuf
  rw [Rel.unlink] at hstored' hvalue' ⊢
  cases xs with
  | nil =>
    have hh : s.head = some e.slot := hhead
    rw [if_pos hh] at hstored' hvalue' ⊢
    by_cases hone : s.next e.slot = e.slot
    · rw [if_pos hone] at hstored' hvalue' ⊢
      have hys : ys = [] := List.map_eq_nil_iff.mp ((ring_next_eq_self hring hnd).mp hone)
      subst hys
      refine ⟨hnd', rfl, fun _ => trivial, hstored', ?_, hvalue'⟩
      exact ⟨halloc.nodup, fun a ha => ⟨(halloc.free a ha).1, List.not_mem_nil⟩,
        fun a ha => by cases ha⟩
    · rw [if_neg hone] at hstored' hvalue' ⊢
      have hys : slots ys ≠ [] := fun hys => hone ((ring_next_eq_self hring hnd).mpr hys)
      refine ⟨hnd', ?_, ?_, hstored', hbuf, hvalue'⟩
      · rw [List.nil_append]
        have hnext := hring.ends.2
        cases hl : slots ys with
        | nil => exact absurd hl hys
        | cons b t =>
          rw [hl] at hnext
          exact congrArg some hnext
      · have hby := @bypass_ring _ _ s e.slot [] (slots ys)
        exact hby hring hnd hys
  | cons x xs =>
    have hh : s.head ≠ some e.slot := by
      rw [hhead]
      intro he
      have he : x.slot = e.slot := Option.some.inj he
      rw [slots_cons, List.cons_append, List.nodup_cons] at hnd
      exact hnd.1 (by simp [he])
    rw [if_neg hh] at hstored' hvalue' ⊢
    refine ⟨hnd', ?_, ?_, hstored', hbuf, hvalue'⟩
    · exact hhead
    · rw [slots_append]
      exact bypass_ring hring hnd (by simp)

theorem chainOf_append (l l' : List (Entry n δ)) (k : List Byte) :
    chainOf (l ++ l') k = chainOf l' k ++ chainOf l k := by
  simp [chainOf, slots]

theorem chainOf_cons (e : Entry n δ) (l : List (Entry n δ)) (k : List Byte) :
    chainOf (e :: l) k =
      if e.key.val = k then chainOf l k ++ [e.slot] else chainOf l k := by
  by_cases h : e.key.val = k
  · simp [chainOf, slots, h]
  · simp [chainOf, h]

theorem unindex_ok {ht : HashControl (KeyPtr n) Addr} (h : Indexed s ht (xs ++ e :: ys))
    (hnd : (slots (xs ++ e :: ys)).Nodup)
    (hkey : ∀ e' ∈ xs ++ e :: ys, (s.mem e'.slot).key = e'.key)
    (hlen : (slots (xs ++ e :: ys)).length ≤ s.fuel) :
    ∃ s' ht', s.unindex ht e.slot = .ok s' ∧ s'.hidx = some ht' ∧ Indexed s' ht' (xs ++ ys) ∧
      Reindexed s s' ∧ ∀ a, a ∉ slots (xs ++ ys) → s'.mem a = s.mem a := by
  obtain ⟨ht₁, hfind, hr₁⟩ := hashFind_ok h.table (.tuple e.slot)
  have hke : (s.mem e.slot).key.val = e.key.val := by rw [hkey e (by simp)]
  rw [bytes_tuple, hke] at hfind
  have hother : ∀ k, e.key.val ≠ k → chainOf (xs ++ e :: ys) k = chainOf (xs ++ ys) k := by
    intro k hk
    rw [chainOf_append, chainOf_cons, if_neg hk, chainOf_append]
  have hthis : chainOf (xs ++ e :: ys) e.key.val =
      chainOf ys e.key.val ++ e.slot :: chainOf xs e.key.val := by
    rw [chainOf_append, chainOf_cons, if_pos rfl, List.append_assoc]
    rfl
  have hnew : chainOf (xs ++ ys) e.key.val = chainOf ys e.key.val ++ chainOf xs e.key.val :=
    chainOf_append xs ys _
  have hmap : ∀ v, indexOf (xs ++ ys) e.key.val = v →
      Function.update (indexOf (xs ++ e :: ys)) e.key.val v = indexOf (xs ++ ys) := by
    intro v hv
    funext k
    by_cases hk : k = e.key.val
    · subst hk
      rw [Function.update_self, hv]
    · rw [Function.update_of_ne hk, indexOf, indexOf, hother k (Ne.symm hk)]
  have hpath := h.chains e.key.val
  have hcnd := chainOf_nodup hnd e.key.val
  rw [hthis] at hpath hcnd
  rw [Rel.unindex, hfind, ok_bind]
  cases hA : chainOf ys e.key.val with
  | nil =>
    rw [hA, List.nil_append] at hthis hpath hnew
    have hm : indexOf (xs ++ e :: ys) e.key.val = some (.tuple e.slot, e.slot) :=
      indexOf_eq_some.mpr ⟨rfl, _, hthis⟩
    have hchains : ∀ k, Path s.hchain (chainOf (xs ++ ys) k).head? (chainOf (xs ++ ys) k) := by
      intro k
      by_cases hk : e.key.val = k
      · subst hk
        rw [hnew, ← hpath.2.head]
        exact hpath.2
      · rw [← hother k hk]
        exact h.chains k
    rw [hm]
    simp only [Option.map_some, if_true]
    cases hB : chainOf xs e.key.val with
    | nil =>
      have hstep : s.hchain e.slot = none := by
        rw [hpath.2.head, hB]
        rfl
      obtain ⟨ht₂, hdel, hr₂⟩ := hashDelete_ok hr₁ (.tuple e.slot)
        (by rw [bytes_tuple, hke]; exact hm)
      rw [bytes_tuple, hke, hmap none (by rw [indexOf, hnew, hB]; rfl)] at hr₂
      refine ⟨{ s with hidx := some ht₂ }, ht₂, ?_, rfl, ⟨hr₂, hchains⟩,
        ⟨fun _ => rfl, fun _ => rfl, fun _ => rfl, rfl, rfl, rfl, rfl, rfl⟩, fun _ _ => rfl⟩
      rw [hstep]
      simp only [hdel, ok_bind]
      rfl
    | cons b t =>
      have hstep : s.hchain e.slot = some b := by
        rw [hpath.2.head, hB]
        rfl
      have hb : (s.mem b).key.val = e.key.val := by
        obtain ⟨e', he', hk', rfl⟩ := mem_chainOf.mp (show b ∈ chainOf xs e.key.val by simp [hB])
        rw [hkey e' (List.mem_append_left _ he'), hk']
      obtain ⟨ht₂, hrep, hr₂⟩ := hashReplace_ok hr₁ (.tuple b) b
        (by rw [bytes_tuple, hb]; exact hm)
      rw [bytes_tuple, hb, hmap _ (by rw [indexOf, hnew, hB]; rfl)] at hr₂
      refine ⟨{ s with hidx := some ht₂ }, ht₂, ?_, rfl, ⟨hr₂, hchains⟩,
        ⟨fun _ => rfl, fun _ => rfl, fun _ => rfl, rfl, rfl, rfl, rfl, rfl⟩, fun _ _ => rfl⟩
      rw [hstep]
      simp only [hrep, ok_bind]
      rfl
  | cons old t =>
    have hm : indexOf (xs ++ e :: ys) e.key.val = some (.tuple old, old) :=
      indexOf_eq_some.mpr ⟨rfl, _, by rw [hthis, hA]; rfl⟩
    have hne : old ≠ e.slot := by
      rintro rfl
      rw [hA] at hcnd
      exact (List.nodup_cons.mp hcnd).1 (by simp)
    -- the tuple before `e` in the chain
    obtain ⟨zs, b, hzs⟩ := List.eq_nil_or_concat (old :: t) |>.resolve_left (by simp)
    rw [List.concat_eq_append] at hzs
    rw [hA, hzs, List.append_assoc, List.singleton_append] at hpath hcnd
    have hbefore := hpath.before hcnd
    have hhead : (zs ++ b :: e.slot :: chainOf xs e.key.val).head? = some old := by
      rw [← List.singleton_append, ← List.append_assoc, ← hzs]
      rfl
    have hwalk := walk_path Fault.loop
      (fun a => (s.hchain a).isSome && s.hchain a ≠ some e.slot) (n := s.fuel) hpath
      (by
        have hle : (chainOf (xs ++ e :: ys) e.key.val).length ≤
            (slots (xs ++ e :: ys)).length := by
          rw [chainOf, List.length_reverse]
          exact (List.filter_sublist.map Entry.slot).length_le
        rw [hthis, hA, hzs, List.append_assoc] at hle
        exact hle.trans hlen)
    have hbmem : b ∈ chainOf ys e.key.val := by simp [hA, hzs]
    have hindex : indexOf (xs ++ e :: ys) = indexOf (xs ++ ys) := by
      funext k
      by_cases hk : e.key.val = k
      · subst hk
        rw [hm, indexOf, hnew, hA]
        rfl
      · rw [indexOf, indexOf, hother k hk]
    refine ⟨{ s.setChain b (s.hchain e.slot) with hidx := some ht₁ }, ht₁, ?_, rfl, ⟨?_, ?_⟩,
      setChain_reindexed s b (s.hchain e.slot) (some ht₁),
      fun a ha => setChain_mem_ne s _ fun hab => ha (hab ▸ ?_)⟩
    · rw [hhead, hbefore] at hwalk
      rw [hm]
      simp only [Option.map_some, if_neg hne]
      rw [hwalk]
      rfl
    rotate_left 2
    · rw [slots_append]
      exact List.mem_append_right _ (chainOf_sub hbmem)
    · have hr₂ : Rep (keyMem (s.setChain b (s.hchain e.slot)).mem) n ht₁ (indexOf (xs ++ ys)) := by
        rw [keyMem_setChain, ← hindex]
        exact hr₁
      exact hr₂
    · intro k
      have hstep : (s.setChain b (s.hchain e.slot)).hchain =
          Function.update s.hchain b (s.hchain e.slot) := setChain_hchain s b _
      change Path (s.setChain b (s.hchain e.slot)).hchain _ _
      rw [hstep]
      by_cases hk : e.key.val = k
      · subst hk
        have hby := hpath.bypass hcnd
        have heq : chainOf (xs ++ ys) e.key.val = zs ++ b :: chainOf xs e.key.val := by
          rw [hnew, hA, hzs, List.append_assoc]
          rfl
        rw [heq, ← hby.head]
        exact hby
      · refine Path.congr ?_ fun a ha => Function.update_of_ne ?_ _ _
        · rw [← hother k hk]
          exact h.chains k
        · -- `b` has the key of `e`
          rintro rfl
          rw [← hother k hk] at ha
          obtain ⟨e₁, he₁, hk₁, hs₁⟩ := mem_chainOf.mp ha
          obtain ⟨e₂, he₂, hk₂, hs₂⟩ := mem_chainOf.mp hbmem
          have h₁ := hkey e₁ he₁
          have h₂ := hkey e₂ (List.mem_append_right _ (List.mem_cons_of_mem _ he₂))
          rw [hs₁] at h₁
          rw [hs₂, h₁] at h₂
          exact hk (by rw [← hk₂, ← hk₁, h₂])

/-- What becomes of the entries when a cursor deletes the tuple at `a`. -/
def afterDel (oid : Bool) (l : List (Entry n δ)) (a : Addr) : List (Entry n δ) :=
  if oid then l.map fun e => if e.slot = a then { e with deleted := true } else e
  else l.filter fun e => e.slot ≠ a

theorem filter_slot_ne (hnd : (slots (xs ++ e :: ys)).Nodup) :
    (xs ++ e :: ys).filter (fun e' => e'.slot ≠ e.slot) = xs ++ ys := by
  rw [slots_middle, List.nodup_middle, List.nodup_cons, ← slots_append] at hnd
  have hne : ∀ e' ∈ xs ++ ys, e'.slot ≠ e.slot := fun e' he heq => hnd.1 (heq ▸ slot_mem he)
  rw [List.filter_append, List.filter_cons_of_neg (by simp), ← List.filter_append]
  exact List.filter_eq_self.mpr fun e' he => by simpa using hne e' he

/-- `s'` has tombstones at the slots of `p` as well. -/
structure Marked (s s' : Rel n δ) (p : Addr → Bool) : Prop where
  deleted : ∀ a, (s'.mem a).deleted = (p a || (s.mem a).deleted)
  key : ∀ a, (s'.mem a).key = (s.mem a).key
  data : ∀ a, (s'.mem a).data = (s.mem a).data
  hchain : s'.hchain = s.hchain
  next : s'.next = s.next
  prev : s'.prev = s.prev
  head : s'.head = s.head
  hidx : s'.hidx = s.hidx
  oid : s'.oid = s.oid
  buffer : s'.buffer = s.buffer

theorem mark_marked (s : Rel n δ) (a : Addr) : Marked s (s.mark a) fun b => b = a := by
  have h {β : Type} (g : Tuple n δ → β) (hg : ∀ t, g { t with deleted := true } = g t) (c : Addr) :
      g ((s.mark a).mem c) = g (s.mem c) := modify_field g hg a c
  refine ⟨fun b => ?_, h _ fun _ => rfl, h _ fun _ => rfl, funext (h Tuple.hchain fun _ => rfl),
    funext (h Tuple.next fun _ => rfl), funext (h Tuple.prev fun _ => rfl), rfl, rfl, rfl, rfl⟩
  by_cases hb : b = a
  · subst hb
    simp [Rel.mark]
  · simp [Rel.mark, modify_ne _ hb, hb]

def markEntries (p : Addr → Bool) (l : List (Entry n δ)) : List (Entry n δ) :=
  l.map fun e => if p e.slot then { e with deleted := true } else e

theorem slots_markEntries (p : Addr → Bool) (l : List (Entry n δ)) :
    slots (markEntries p l) = slots l := by
  rw [slots, markEntries, List.map_map]
  refine List.map_congr_left fun e _ => ?_
  simp only [Function.comp_apply]
  split <;> rfl

theorem chainOf_markEntries (p : Addr → Bool) (l : List (Entry n δ)) (k : List Byte) :
    chainOf (markEntries p l) k = chainOf l k := by
  induction l with
  | nil => rfl
  | cons e l ih =>
    have hcons : markEntries p (e :: l) =
        (if p e.slot then { e with deleted := true } else e) :: markEntries p l := rfl
    rw [hcons, chainOf_cons, chainOf_cons, ih]
    split <;> rfl

theorem Marked.holds {p : Addr → Bool} (hm : Marked s s' p) (h : s.Holds l)
    (ho : s.oid = true) : s'.Holds (markEntries p l) := by
  refine ⟨⟨?_, ?_, ?_, ?_, ?_, ?_⟩, ?_⟩
  · rw [slots_markEntries]
    exact h.nodup
  · rw [slots_markEntries, hm.head]
    exact h.head
  · rw [slots_markEntries, hm.next, hm.prev]
    exact h.ring
  · intro e' he'
    obtain ⟨e, he, rfl⟩ := List.mem_map.mp he'
    obtain ⟨h1, h2, h3⟩ := h.stored e he
    cases hp : p e.slot with
    | true =>
      refine ⟨(hm.key _).trans h1, (hm.data _).trans h2, ?_⟩
      simp [hm.deleted, hp]
    | false =>
      refine ⟨(hm.key _).trans h1, (hm.data _).trans h2, ?_⟩
      simp [hm.deleted, hp, h3]
  · rw [slots_markEntries, hm.buffer]
    exact h.alloc
  · intro hf
    rw [hm.oid, ho] at hf
    cases hf
  · intro ht hht
    rw [hm.hidx] at hht
    have hindexed : Indexed s' ht l :=
      (h.index ht hht).congr (fun a _ => hm.key a) fun a _ => congrFun hm.hchain a
    have hchain : chainOf (markEntries p l) = chainOf l := funext (chainOf_markEntries p l)
    refine ⟨?_, ?_⟩
    · have hidx : indexOf (markEntries p l) = indexOf l := by
        funext k
        rw [indexOf, indexOf, hchain]
      rw [hidx]
      exact hindexed.table
    · rw [hchain]
      exact hindexed.chains

theorem Rel.Listed.path (h : s.Listed l) {head a : Addr} {xs ys : List Addr}
    (hl : slots l = xs ++ a :: ys) (hh : s.head = some head) :
    Path (s.listNext head) (some a) (a :: ys) := by
  have hhead := h.head
  have hring := h.ring
  have hnd := h.nodup
  rw [hl] at hhead hring hnd
  exact hring.path hnd (hhead.symm.trans hh)

theorem tombstone_eq (h : s.Listed (xs ++ e :: ys)) (c : Cursor) :
    s.tombstone c e.slot =
      .ok (s.mark e.slot, { c with cur := (slots (ys.dropWhile (·.deleted))).head? }) := by
  have hl := slots_middle xs ys e
  obtain ⟨head, hhead⟩ : ∃ head, s.head = some head := by
    rw [h.head]
    cases xs with
    | nil => exact ⟨e.slot, rfl⟩
    | cons x xs => exact ⟨x.slot, rfl⟩
  have hpath := (h.path hl hhead).2
  have hlen := h.length_le
  have hnd := h.nodup
  rw [hl] at hlen hnd
  have hwalk := walk_path Fault.loop (fun b => ((s.mark e.slot).mem b).deleted) (n := s.fuel) hpath
    (by simp at hlen ⊢; omega)
  have hskip : ∀ e' ∈ ys, ((s.mark e.slot).mem e'.slot).deleted = !(!e'.deleted) := by
    intro e' he'
    have hne : e'.slot ≠ e.slot := fun heq =>
      (List.nodup_cons.mp (List.nodup_append.mp hnd).2.1).1 (heq ▸ slot_mem he')
    rw [(mark_marked s e.slot).deleted, (h.stored e' (by simp [he'])).2.2]
    simp [hne]
  rw [dropWhile_slots ys hskip] at hwalk
  simp only [Bool.not_not] at hwalk
  rw [Rel.tombstone, hhead]
  simp only [hwalk]
  rfl

theorem tombstone_holds (h : s.Holds l) (ho : s.oid = true) {a : Addr} (ha : a ∈ slots l)
    (c : Cursor) :
    ∃ s' c', s.tombstone c a = .ok (s', c') ∧ s'.Holds (afterDel true l a) ∧
      s'.oid = s.oid ∧ s'.hidx = s.hidx := by
  obtain ⟨e, he, rfl⟩ := mem_slots.mp ha
  have hm := mark_marked s e.slot
  have hafter : afterDel true l e.slot = markEntries (fun b => b = e.slot) l := by
    simp [afterDel, markEntries]
  have hs' := hafter ▸ hm.holds h ho
  obtain ⟨xs, ys, rfl⟩ := List.append_of_mem he
  exact ⟨_, _, tombstone_eq h.toListed c, hs', hm.oid, hm.hidx⟩

theorem imRelCursorDel_value (h : s.Holds (xs ++ e :: ys)) (ho : s.oid = false) {c : Cursor}
    (hc : c.cur = some e.slot) :
    ∃ s', imRelCursorDel s c = .ok (s', (s.unlink c e.slot).2, true) ∧ s'.Holds (xs ++ ys) ∧
      Reindexed (s.unlink c e.slot).1 s' ∧ s'.hidx.isSome = s.hidx.isSome := by
  have hlisted := unlink_listed h.toListed c
  have hrel := unlink_relinked s c e.slot
  simp only [imRelCursorDel, hc, ho, Bool.false_eq_true, if_false]
  cases hht : s.hidx with
  | none =>
    rw [hrel.hidx, hht]
    refine ⟨(s.unlink c e.slot).1, rfl, ⟨hlisted, fun ht hht' => ?_⟩, Reindexed.refl, ?_⟩
    · rw [hrel.hidx, hht] at hht'
      cases hht'
    · rw [hrel.hidx, hht]
  | some ht =>
    have hindexed : Indexed (s.unlink c e.slot).1 ht (xs ++ e :: ys) :=
      (h.index ht hht).congr (fun a _ => hrel.key a) fun a _ => hrel.hchain a
    obtain ⟨s', ht', hrun, hht', hindexed', hre, -⟩ := unindex_ok hindexed h.nodup
      (fun e' he' => (hrel.key _).trans (h.stored e' he').1)
      (by rw [unlink_fuel]; exact h.length_le)
    rw [hrel.hidx, hht]
    refine ⟨s', ?_, ⟨hlisted.reindexed hre, fun ht'' hht'' => ?_⟩, hre, by rw [hht']; rfl⟩
    · simp only [hrun]
      rfl
    · rw [hht'] at hht''
      cases hht''
      exact hindexed'

theorem imRelCursorDel_holds (h : s.Holds l) {c : Cursor} {a : Addr} (hc : c.cur = some a)
    (ha : a ∈ slots l) :
    ∃ s' c', imRelCursorDel s c = .ok (s', c', true) ∧ s'.Holds (afterDel s.oid l a) ∧
      s'.oid = s.oid ∧ s'.hidx.isSome = s.hidx.isSome := by
  cases ho : s.oid with
  | true =>
    obtain ⟨s', c', hrun, hs', ho', hidx⟩ := tombstone_holds h ho ha c
    refine ⟨s', c', ?_, hs', ho'.trans ho, by rw [hidx]⟩
    simp only [imRelCursorDel, hc, ho, if_true, hrun]
    rfl
  | false =>
    obtain ⟨e, he, rfl⟩ := mem_slots.mp ha
    obtain ⟨xs, ys, rfl⟩ := List.append_of_mem he
    obtain ⟨s', hrun, hs', hre, hidx⟩ := imRelCursorDel_value h ho hc
    have hafter : afterDel false (xs ++ e :: ys) e.slot = xs ++ ys := filter_slot_ne h.nodup
    refine ⟨s', _, hrun, hafter ▸ hs', ?_, hidx⟩
    exact hre.oid.trans ((unlink_relinked s c e.slot).oid.trans ho)

end StreamMill.ImDb
