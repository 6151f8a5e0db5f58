import StreamMill.ImDb.HashMap
import StreamMill.ImDb.Rel

/-!
# StreamMill.ImDb.Contents

What a relation holds. `Rel.Holds s l` says that the entries `l`, in this order, are the tuples on
the list of `s`, that the list is a proper circular one, and that an index maps every key to a
chain of exactly the entries with that key, the newest first, and no other key. `putLast_holds`
is the step lemma of `im_rel_put`.
-/

namespace StreamMill.ImDb

open Lib

structure Entry (n : Nat) (δ : Type) where
  slot : Addr
  key : Key n
  data : δ
  deleted : Bool
  deriving DecidableEq

variable {n : Nat} {δ : Type} {s s' : Rel n δ} {l : List (Entry n δ)}

def slots (l : List (Entry n δ)) : List Addr := l.map Entry.slot

def chainOf (l : List (Entry n δ)) (k : List Byte) : List Addr :=
  (slots (l.filter fun e => e.key.val = k)).reverse

def indexOf (l : List (Entry n δ)) (k : List Byte) : Option (KeyPtr n × Addr) :=
  (chainOf l k).head?.map fun a => (.tuple a, a)

structure Indexed (s : Rel n δ) (ht : HashControl (KeyPtr n) Addr) (l : List (Entry n δ)) :
    Prop where
  table : Rep (keyMem s.mem) n ht (indexOf l)
  chains : ∀ k, Path s.hchain (chainOf l k).head? (chainOf l k)

/-- The tuple holds what the entry says. -/
def Entry.Stored (e : Entry n δ) (t : Tuple n δ) : Prop :=
  t.key = e.key ∧ t.data = e.data ∧ t.deleted = e.deleted

/-- The buffer will not give out a slot in use. -/
structure Buffer.Holds (p : Buffer) (used : List Addr) : Prop where
  nodup : p.free.Nodup
  free : ∀ a ∈ p.free, a < p.fresh ∧ a ∉ used
  used : ∀ a ∈ used, a < p.fresh

/-- What `Holds` says of the list. -/
structure Rel.Listed (s : Rel n δ) (l : List (Entry n δ)) : Prop where
  nodup : (slots l).Nodup
  head : s.head = (slots l).head?
  ring : Ring s.next s.prev (slots l)
  stored : ∀ e ∈ l, e.Stored (s.mem e.slot)
  alloc : s.buffer.Holds (slots l)
  value : s.oid = false → ∀ e ∈ l, e.deleted = false

structure Rel.Holds (s : Rel n δ) (l : List (Entry n δ)) : Prop extends Rel.Listed s l where
  index : ∀ ht, s.hidx = some ht → Indexed s ht l

@[simp] theorem modify_self (a : Addr) (f : Tuple n δ → Tuple n δ) :
    (s.modify a f).mem a = f (s.mem a) := Function.update_self _ _ _

variable {a cur : Addr} {e : Entry n δ} {k : List Byte}

theorem modify_ne {b : Addr} (f : Tuple n δ → Tuple n δ) (h : b ≠ a) :
    (s.modify a f).mem b = s.mem b := Function.update_of_ne h _ _

theorem modify_field {β : Type} (g : Tuple n δ → β) {f : Tuple n δ → Tuple n δ}
    (hf : ∀ t, g (f t) = g t) (a b : Addr) : g ((s.modify a f).mem b) = g (s.mem b) := by
  by_cases h : b = a
  · subst h
    rw [modify_self, hf]
  · rw [modify_ne f h]

@[simp] theorem bytes_caller (mem : Addr → Tuple n δ) (k : Key n) :
    bytes (keyMem mem) (.caller k) n = k.val := by
  obtain ⟨k, rfl⟩ := k
  refine List.ext_getElem (by simp [bytes]) fun i h1 h2 => ?_
  simp [bytes, keyMem, h2]

@[simp] theorem bytes_tuple (mem : Addr → Tuple n δ) (a : Addr) :
    bytes (keyMem mem) (.tuple a) n = (mem a).key.val := bytes_caller mem (mem a).key

@[simp] theorem setNext_next (s : Rel n δ) (a b : Addr) :
    (s.setNext a b).next = Function.update s.next a b := by
  funext c
  by_cases h : c = a
  · subst h
    simp [Rel.setNext, Rel.next]
  · simp [Rel.setNext, Rel.next, modify_ne _ h, Function.update_of_ne h]

@[simp] theorem setPrev_prev (s : Rel n δ) (a b : Addr) :
    (s.setPrev a b).prev = Function.update s.prev a b := by
  funext c
  by_cases h : c = a
  · subst h
    simp [Rel.setPrev, Rel.prev]
  · simp [Rel.setPrev, Rel.prev, modify_ne _ h, Function.update_of_ne h]

@[simp] theorem setChain_hchain (s : Rel n δ) (a : Addr) (b : Option Addr) :
    (s.setChain a b).hchain = Function.update s.hchain a b := by
  funext c
  by_cases h : c = a
  · subst h
    simp [Rel.setChain, Rel.hchain]
  · simp [Rel.setChain, Rel.hchain, modify_ne _ h, Function.update_of_ne h]

@[simp] theorem setNext_prev (s : Rel n δ) (a b : Addr) : (s.setNext a b).prev = s.prev :=
  funext (modify_field Tuple.prev (f := fun t => { t with next := b }) (fun _ => rfl) a)

@[simp] theorem setPrev_next (s : Rel n δ) (a b : Addr) : (s.setPrev a b).next = s.next :=
  funext (modify_field Tuple.next (f := fun t => { t with prev := b }) (fun _ => rfl) a)

@[simp] theorem setChain_next (s : Rel n δ) (a : Addr) (b : Option Addr) :
    (s.setChain a b).next = s.next :=
  funext (modify_field Tuple.next (f := fun t => { t with hchain := b }) (fun _ => rfl) a)

@[simp] theorem setChain_prev (s : Rel n δ) (a : Addr) (b : Option Addr) :
    (s.setChain a b).prev = s.prev :=
  funext (modify_field Tuple.prev (f := fun t => { t with hchain := b }) (fun _ => rfl) a)

@[simp] theorem slots_nil : slots ([] : List (Entry n δ)) = [] := rfl

@[simp] theorem slots_cons (e : Entry n δ) : slots (e :: l) = e.slot :: slots l := rfl

@[simp] theorem slots_append (l l' : List (Entry n δ)) : slots (l ++ l') = slots l ++ slots l' :=
  List.map_append

theorem mem_slots : a ∈ slots l ↔ ∃ e ∈ l, e.slot = a := List.mem_map

theorem slot_mem (h : e ∈ l) : e.slot ∈ slots l := List.mem_map_of_mem h

theorem mem_chainOf :
    a ∈ chainOf l k ↔ ∃ e ∈ l, e.key.val = k ∧ e.slot = a := by
  simp [chainOf, slots, and_assoc]

theorem chainOf_sub (h : a ∈ chainOf l k) : a ∈ slots l := by
  obtain ⟨e, he, -, ha⟩ := mem_chainOf.mp h
  exact mem_slots.mpr ⟨e, he, ha⟩

theorem chainOf_concat (e : Entry n δ) (k : List Byte) :
    chainOf (l ++ [e]) k = if e.key.val = k then e.slot :: chainOf l k else chainOf l k := by
  by_cases h : e.key.val = k
  · simp [chainOf, slots, h]
  · simp [chainOf, h]

theorem chainOf_nodup (h : (slots l).Nodup) (k : List Byte) : (chainOf l k).Nodup := by
  rw [chainOf, List.nodup_reverse]
  exact h.sublist (List.filter_sublist.map _)

theorem indexOf_eq_none : indexOf l k = none ↔ chainOf l k = [] := by
  simp [indexOf]

theorem indexOf_eq_some {p : KeyPtr n} :
    indexOf l k = some (p, a) ↔ p = .tuple a ∧ ∃ t, chainOf l k = a :: t := by
  rw [indexOf]
  cases chainOf l k with
  | nil => simp
  | cons b t =>
    simp only [List.head?_cons, Option.map_some, Option.some.injEq, Prod.mk.injEq,
      List.cons.injEq]
    constructor
    · intro h
      obtain ⟨hp, rfl⟩ := h
      exact ⟨hp.symm, t, rfl, rfl⟩
    · intro h
      obtain ⟨hp, t', rfl, -⟩ := h
      exact ⟨hp.symm, rfl⟩

theorem dropWhile_slots {p : Addr → Bool} {q : Entry n δ → Bool} (es : List (Entry n δ))
    (h : ∀ e ∈ es, p e.slot = !q e) :
    ((slots es).dropWhile p) = slots (es.dropWhile fun e => !q e) := by
  induction es with
  | nil => rfl
  | cons e es ih =>
    have he := h e List.mem_cons_self
    have ih := ih fun e' he' => h e' (List.mem_cons_of_mem _ he')
    cases hq : q e with
    | true => simp [he, hq]
    | false => simp [he, hq, ih]

theorem Indexed.congr {ht : HashControl (KeyPtr n) Addr} (h : Indexed s ht l)
    (hkey : ∀ a ∈ slots l, (s'.mem a).key = (s.mem a).key)
    (hchain : ∀ a ∈ slots l, s'.hchain a = s.hchain a) : Indexed s' ht l := by
  refine ⟨h.table.congr_mem ?_, fun k => (h.chains k).congr ?_⟩
  · intro k p a hk
    obtain ⟨rfl, t, ht⟩ := indexOf_eq_some.mp hk
    have ha : a ∈ slots l := chainOf_sub (k := k) (by simp [ht])
    rw [bytes_tuple, bytes_tuple, hkey a ha]
  · exact fun a ha => hchain a (chainOf_sub ha)

/-- `s'` has the tuples of `s`, with other links of the list. -/
structure Relinked (s s' : Rel n δ) : Prop where
  key : ∀ a, (s'.mem a).key = (s.mem a).key
  data : ∀ a, (s'.mem a).data = (s.mem a).data
  deleted : ∀ a, (s'.mem a).deleted = (s.mem a).deleted
  hchain : ∀ a, s'.hchain a = s.hchain a
  hidx : s'.hidx = s.hidx
  oid : s'.oid = s.oid

theorem Relinked.refl : Relinked s s :=
  ⟨fun _ => rfl, fun _ => rfl, fun _ => rfl, fun _ => rfl, rfl, rfl⟩

theorem Relinked.trans {s'' : Rel n δ} (h : Relinked s s') (h' : Relinked s' s'') :
    Relinked s s'' :=
  ⟨fun a => (h'.key a).trans (h.key a), fun a => (h'.data a).trans (h.data a),
    fun a => (h'.deleted a).trans (h.deleted a), fun a => (h'.hchain a).trans (h.hchain a),
    h'.hidx.trans h.hidx, h'.oid.trans h.oid⟩

theorem setNext_relinked (s : Rel n δ) (a b : Addr) : Relinked s (s.setNext a b) := by
  have h {β : Type} (g : Tuple n δ → β) (hg : ∀ t, g { t with next := b } = g t) (c : Addr) :
      g ((s.setNext a b).mem c) = g (s.mem c) := modify_field g hg a c
  exact ⟨h _ fun _ => rfl, h _ fun _ => rfl, h _ fun _ => rfl, h Tuple.hchain fun _ => rfl,
    rfl, rfl⟩

theorem setPrev_relinked (s : Rel n δ) (a b : Addr) : Relinked s (s.setPrev a b) := by
  have h {β : Type} (g : Tuple n δ → β) (hg : ∀ t, g { t with prev := b } = g t) (c : Addr) :
      g ((s.setPrev a b).mem c) = g (s.mem c) := modify_field g hg a c
  exact ⟨h _ fun _ => rfl, h _ fun _ => rfl, h _ fun _ => rfl, h Tuple.hchain fun _ => rfl,
    rfl, rfl⟩

theorem setChain_mem_ne (s : Rel n δ) {c : Addr} (b : Option Addr) (h : c ≠ a) :
    (s.setChain a b).mem c = s.mem c := modify_ne _ h

/-- `s'` has the list of `s`, with another index and other chains. -/
structure Reindexed (s s' : Rel n δ) : Prop where
  key : ∀ a, (s'.mem a).key = (s.mem a).key
  data : ∀ a, (s'.mem a).data = (s.mem a).data
  deleted : ∀ a, (s'.mem a).deleted = (s.mem a).deleted
  next : s'.next = s.next
  prev : s'.prev = s.prev
  head : s'.head = s.head
  oid : s'.oid = s.oid
  buffer : s'.buffer = s.buffer

theorem Reindexed.refl : Reindexed s s :=
  ⟨fun _ => rfl, fun _ => rfl, fun _ => rfl, rfl, rfl, rfl, rfl, rfl⟩

theorem setChain_reindexed (s : Rel n δ) (a : Addr) (b : Option Addr)
    (hidx : Option (HashControl (KeyPtr n) Addr)) :
    Reindexed s { s.setChain a b with hidx := hidx } := by
  have h {β : Type} (g : Tuple n δ → β) (hg : ∀ t, g { t with hchain := b } = g t) (c : Addr) :
      g ((s.setChain a b).mem c) = g (s.mem c) := modify_field g hg a c
  exact ⟨h _ fun _ => rfl, h _ fun _ => rfl, h _ fun _ => rfl, setChain_next s a b,
    setChain_prev s a b, rfl, rfl, rfl⟩

theorem keyMem_setChain (s : Rel n δ) (a : Addr) (b : Option Addr) :
    keyMem (s.setChain a b).mem = keyMem s.mem := by
  funext p i
  cases p with
  | caller k => rfl
  | tuple c => rw [keyMem, keyMem, (setChain_reindexed s a b none).key c]

theorem Relinked.stored (h : Relinked s s') (he : e.Stored (s.mem e.slot)) :
    e.Stored (s'.mem e.slot) :=
  ⟨(h.key _).trans he.1, (h.data _).trans he.2.1, (h.deleted _).trans he.2.2⟩

theorem Rel.Listed.reindexed (h : s.Listed l) (hr : Reindexed s s') : s'.Listed l where
  nodup := h.nodup
  head := hr.head.trans h.head
  ring := by
    rw [hr.next, hr.prev]
    exact h.ring
  stored := fun e he =>
    ⟨(hr.key _).trans (h.stored e he).1, (hr.data _).trans (h.stored e he).2.1,
      (hr.deleted _).trans (h.stored e he).2.2⟩
  alloc := by
    rw [hr.buffer]
    exact h.alloc
  value := by
    rw [hr.oid]
    exact h.value

theorem Rel.Listed.length_le (h : s.Listed l) : (slots l).length ≤ s.fuel := by
  have hsub : slots l ⊆ List.range s.fuel := fun a ha => List.mem_range.mpr (h.alloc.used a ha)
  simpa using (List.subperm_of_subset h.nodup hsub).length_le

theorem imRelCreate_holds (mem : Addr → Tuple n δ) (oid indexed : Bool) :
    (imRelCreate mem oid indexed).Holds [] where
  nodup := List.nodup_nil
  head := rfl
  ring := fun _ => trivial
  stored := fun e he => by cases he
  alloc := ⟨List.nodup_nil, fun a ha => (by cases ha), fun a ha => (by cases ha)⟩
  value := fun _ e he => by cases he
  index := by
    intro ht hht
    cases indexed with
    | false => cases hht
    | true =>
      cases hht
      exact ⟨emptyTable_rep _ n (by decide) rfl, fun k => rfl⟩

theorem allocateBuffer_holds {p : Buffer} {used : List Addr} (h : p.Holds used) :
    (allocateBuffer p).1 ∉ used ∧
      (allocateBuffer p).2.Holds (used ++ [(allocateBuffer p).1]) := by
  obtain ⟨free, fresh⟩ := p
  obtain ⟨hnd, hfree, hused⟩ := h
  cases free with
  | nil =>
    refine ⟨fun hm => absurd (hused _ hm) (Nat.lt_irrefl _), List.nodup_nil, ?_, ?_⟩
    · intro a ha
      cases ha
    · intro a ha
      rcases List.mem_append.mp ha with ha | ha
      · exact Nat.lt_succ_of_lt (hused a ha)
      · rw [List.mem_singleton.mp ha]
        exact Nat.lt_succ_self _
  | cons b free =>
    obtain ⟨hb, hnd⟩ := List.nodup_cons.mp hnd
    refine ⟨(hfree b List.mem_cons_self).2, hnd, ?_, ?_⟩
    · intro a ha
      obtain ⟨hlt, hnu⟩ := hfree a (List.mem_cons_of_mem _ ha)
      refine ⟨hlt, fun hm => ?_⟩
      rcases List.mem_append.mp hm with hm | hm
      · exact hnu hm
      · rw [List.mem_singleton.mp hm] at ha
        exact hb ha
    · intro a ha
      rcases List.mem_append.mp ha with ha | ha
      · exact hused a ha
      · rw [List.mem_singleton.mp ha]
        exact (hfree b List.mem_cons_self).1

theorem link_relinked (s : Rel n δ) (cur : Addr) : Relinked s (s.link cur) := by
  rw [Rel.link]
  split
  · have h := (setPrev_relinked s cur cur).trans (setNext_relinked _ cur cur)
    exact ⟨h.key, h.data, h.deleted, h.hchain, h.hidx, h.oid⟩
  · rename_i head _
    exact (((setPrev_relinked s cur (s.prev head)).trans (setNext_relinked _ (s.prev head) cur)).trans
      (setNext_relinked _ cur head)).trans (setPrev_relinked _ head cur)

theorem link_ring {xs : List Addr} (hhead : s.head = xs.head?) (hr : Ring s.next s.prev xs)
    (hnd : xs.Nodup) (hcur : cur ∉ xs) :
    (s.link cur).head = (xs ++ [cur]).head? ∧
      Ring (s.link cur).next (s.link cur).prev (xs ++ [cur]) := by
  cases xs with
  | nil =>
    rw [Rel.link, hhead]
    exact ⟨rfl, ring_singleton (by simp [Rel.next, Rel.setNext]) (by
      have h : ((s.setPrev cur cur).setNext cur cur).prev cur = cur := by simp
      exact h)⟩
  | cons h xs =>
    have hnx : (s.link cur).next =
        Function.update (Function.update s.next (s.prev h) cur) cur h := by
      rw [Rel.link, hhead]
      simp
    have hpv : (s.link cur).prev =
        Function.update (Function.update s.prev cur (s.prev h)) h cur := by
      rw [Rel.link, hhead]
      simp
    rw [hnx, hpv]
    refine ⟨?_, hr.concat_update hnd hcur⟩
    rw [Rel.link, hhead]
    exact hhead

theorem fill_mem_ne (key : Key n) (data : δ) (h : a ≠ cur) :
    (s.fill cur key data).mem a = s.mem a := modify_ne _ h

theorem fill_next (s : Rel n δ) (cur : Addr) (key : Key n) (data : δ) :
    (s.fill cur key data).next = s.next :=
  funext (modify_field Tuple.next
    (f := fun t => { t with key, data, deleted := false, hchain := none }) (fun _ => rfl) cur)

theorem fill_prev (s : Rel n δ) (cur : Addr) (key : Key n) (data : δ) :
    (s.fill cur key data).prev = s.prev :=
  funext (modify_field Tuple.prev
    (f := fun t => { t with key, data, deleted := false, hchain := none }) (fun _ => rfl) cur)

theorem link_buffer (s : Rel n δ) (cur : Addr) : (s.link cur).buffer = s.buffer := by
  rw [Rel.link]
  split <;> rfl

theorem fill_self (s : Rel n δ) (cur : Addr) (key : Key n) (data : δ) :
    ((s.fill cur key data).mem cur).key = key ∧ ((s.fill cur key data).mem cur).data = data ∧
      ((s.fill cur key data).mem cur).deleted = false ∧
      (s.fill cur key data).hchain cur = none := by
  rw [Rel.hchain, Rel.fill, modify_self]
  exact ⟨rfl, rfl, rfl, rfl⟩

theorem index_ok {ht : HashControl (KeyPtr n) Addr} (h : Indexed s ht l) (he : e.slot ∉ slots l)
    (hkey : (s.mem e.slot).key = e.key) (hnone : s.hchain e.slot = none) :
    ∃ s' ht', s.index ht e.slot e.key = .ok s' ∧ s'.hidx = some ht' ∧
      Indexed s' ht' (l ++ [e]) ∧ Reindexed s s' ∧ ∀ a, a ≠ e.slot → s'.mem a = s.mem a := by
  obtain ⟨ht₁, hfind, hr₁⟩ := hashFind_ok h.table (.caller e.key)
  have hk : bytes (keyMem s.mem) (.tuple e.slot) n = e.key.val := by rw [bytes_tuple, hkey]
  have hmap : Function.update (indexOf l) e.key.val (some (.tuple e.slot, e.slot)) =
      indexOf (l ++ [e]) := by
    funext k
    by_cases hkk : k = e.key.val
    · subst hkk
      rw [Function.update_self, indexOf, chainOf_concat, if_pos rfl]
      rfl
    · rw [Function.update_of_ne hkk, indexOf, indexOf, chainOf_concat, if_neg (Ne.symm hkk)]
  rw [bytes_caller] at hfind
  cases hc : chainOf l e.key.val with
  | nil =>
    have hm : indexOf l e.key.val = none := indexOf_eq_none.mpr hc
    obtain ⟨ht₂, hins, hr₂⟩ := hashInsert_ok hr₁ (.tuple e.slot) e.slot (by rw [hk, hm])
    rw [hk, hmap] at hr₂
    refine ⟨{ s with hidx := some ht₂ }, ht₂, ?_, rfl, ⟨hr₂, fun k => ?_⟩,
      ⟨fun _ => rfl, fun _ => rfl, fun _ => rfl, rfl, rfl, rfl, rfl, rfl⟩, fun _ _ => rfl⟩
    · rw [Rel.index, hfind, ok_bind, hm]
      simp only [Option.map_none]
      rw [hins]
      rfl
    · rw [chainOf_concat]
      split
      · next hkk =>
        subst hkk
        rw [hc]
        exact ⟨rfl, hnone⟩
      · exact h.chains k
  | cons old t =>
    have hm : indexOf l e.key.val = some (.tuple old, old) :=
      indexOf_eq_some.mpr ⟨rfl, t, hc⟩
    obtain ⟨ht₂, hrep, hr₂⟩ := hashReplace_ok hr₁ (.tuple e.slot) e.slot (by rw [hk, hm])
    rw [hk, hmap] at hr₂
    have hmem := keyMem_setChain s e.slot (some old)
    refine ⟨{ s.setChain e.slot (some old) with hidx := some ht₂ }, ht₂, ?_, rfl,
      ⟨?_, fun k => ?_⟩, setChain_reindexed s e.slot (some old) (some ht₂),
      fun a ha => setChain_mem_ne s _ ha⟩
    · rw [Rel.index, hfind, ok_bind, hm]
      simp only [Option.map_some]
      rw [hrep]
      rfl
    · rw [← hmem] at hr₂
      exact hr₂
    · have hold : Path (s.setChain e.slot (some old)).hchain (chainOf l k).head?
          (chainOf l k) := by
        refine (h.chains k).congr fun a ha => ?_
        rw [setChain_hchain, Function.update_of_ne]
        exact fun hae => he (hae ▸ chainOf_sub ha)
      rw [chainOf_concat]
      split
      · next hkk =>
        subst hkk
        refine ⟨rfl, ?_⟩
        rw [hc] at hold ⊢
        have hself : (s.setChain e.slot (some old)).hchain e.slot = some old := by simp
        change Path _ ((s.setChain e.slot (some old)).hchain e.slot) _
        rw [hself]
        exact hold
      · exact hold

theorem chain_ok {key : Key n} {xs : List Addr} (hhead : s.head = (xs ++ [cur]).head?)
    (hr : Ring s.next s.prev (xs ++ [cur])) (hnd : (xs ++ [cur]).Nodup)
    (hlen : (xs ++ [cur]).length ≤ s.fuel) :
    ∃ s', s.chain cur key = .ok s' ∧ Reindexed s s' ∧ s'.hidx = s.hidx ∧
      ∀ a, a ∉ xs ++ [cur] → s'.mem a = s.mem a := by
  cases xs with
  | nil =>
    rw [Rel.chain, hhead]
    exact ⟨s, by simp, Reindexed.refl, rfl, fun _ _ => rfl⟩
  | cons h xs =>
    have hne : cur ≠ h := fun he => (List.nodup_cons.mp hnd).1 (by simp [he])
    -- backwards from the tuple before `cur` to the head
    have hback : Path (stepUntil s.prev h) (some (s.prev cur)) (xs.reverse ++ [h]) := by
      have hseg := (hr h).reverse
      simp only [List.reverse_append, List.reverse_cons, List.reverse_nil, List.nil_append,
        List.singleton_append] at hseg
      have hfirst : (xs.reverse ++ [h]).head? = some (s.prev cur) := by
        rw [hseg.2.1]
        cases xs.reverse <;> rfl
      rw [← hfirst]
      refine hseg.2.2.path_until ?_
      rw [List.mem_reverse]
      exact fun hm => (List.nodup_cons.mp hnd).1 (List.mem_append_left _ hm)
    have hwalk := walk_path Fault.loop (fun a => !s.keyIs key a) (n := s.fuel) hback
      (by simp at hlen ⊢; omega)
    rw [Rel.chain, hhead]
    simp only [List.cons_append, List.head?_cons, if_neg hne]
    rw [hwalk, ok_bind]
    split
    · exact ⟨s, rfl, Reindexed.refl, rfl, fun _ _ => rfl⟩
    · next p hp =>
      have hmem : p ∈ h :: xs ++ [cur] := by
        have hp : p ∈ xs.reverse ++ [h] :=
          (List.dropWhile_suffix _).subset (List.mem_of_head? hp)
        have hp : p ∈ h :: xs := by simpa [or_comm] using hp
        exact List.mem_append_left _ hp
      exact ⟨_, rfl, setChain_reindexed s p (some cur) s.hidx, rfl,
        fun a ha => setChain_mem_ne s _ fun hap => ha (hap ▸ hmem)⟩

theorem append_listed (h : s.Listed l) (key : Key n) (data : δ) :
    (s.append key data).Listed (l ++ [⟨newSlot s, key, data, false⟩]) := by
  obtain ⟨hcur, hbuf⟩ := allocateBuffer_holds h.alloc
  have hcur : newSlot s ∉ slots l := hcur
  rw [Rel.append]
  generalize hs₁ : ({ s with buffer := (allocateBuffer s.buffer).2 } : Rel n δ) = s₁
  have hlink := link_relinked (s₁.fill (newSlot s) key data) (newSlot s)
  have hne : ∀ e ∈ l, (s₁.fill (newSlot s) key data).mem e.slot = s.mem e.slot := by
    intro e he
    have hs : e.slot ≠ newSlot s := fun heq => hcur (heq ▸ slot_mem he)
    rw [fill_mem_ne key data hs, ← hs₁]
  have hnx : (s₁.fill (newSlot s) key data).next = s.next := by
    rw [fill_next, ← hs₁]
    rfl
  have hpv : (s₁.fill (newSlot s) key data).prev = s.prev := by
    rw [fill_prev, ← hs₁]
    rfl
  have hring := link_ring (s := s₁.fill (newSlot s) key data)
    (by rw [← h.head, ← hs₁]; rfl) (by rw [hnx, hpv]; exact h.ring) h.nodup hcur
  refine ⟨?_, ?_, ?_, ?_, ?_, ?_⟩
  · rw [slots_append, List.nodup_append]
    refine ⟨h.nodup, List.nodup_singleton _, fun a ha b hb => ?_⟩
    have hb : b = newSlot s := List.mem_singleton.mp hb
    subst hb
    exact fun hab => hcur (hab ▸ ha)
  · rw [slots_append]
    exact hring.1
  · rw [slots_append]
    exact hring.2
  · intro e he
    refine hlink.stored ?_
    rcases List.mem_append.mp he with he | he
    · rw [hne e he]
      exact h.stored e he
    · rw [List.mem_singleton.mp he]
      obtain ⟨h1, h2, h3, -⟩ := fill_self s₁ (newSlot s) key data
      exact ⟨h1, h2, h3⟩
  · have hb : ((s₁.fill (newSlot s) key data).link (newSlot s)).buffer =
        (allocateBuffer s.buffer).2 := by
      rw [link_buffer, ← hs₁]
      rfl
    rw [slots_append, hb]
    exact hbuf
  · rw [hlink.oid, ← hs₁]
    intro ho e he
    rcases List.mem_append.mp he with he | he
    · exact h.value ho e he
    · rw [List.mem_singleton.mp he]

theorem append_frame (s : Rel n δ) (key : Key n) (data : δ) :
    (∀ a, a ≠ newSlot s → ((s.append key data).mem a).key = (s.mem a).key ∧
      (s.append key data).hchain a = s.hchain a) ∧
    ((s.append key data).mem (newSlot s)).key = key ∧
    (s.append key data).hchain (newSlot s) = none ∧
    (s.append key data).oid = s.oid ∧ (s.append key data).hidx = s.hidx := by
  rw [Rel.append]
  generalize hs₁ : ({ s with buffer := (allocateBuffer s.buffer).2 } : Rel n δ) = s₁
  have hlink := link_relinked (s₁.fill (newSlot s) key data) (newSlot s)
  obtain ⟨hkey, -, -, hnone⟩ := fill_self s₁ (newSlot s) key data
  refine ⟨fun a ha => ⟨?_, ?_⟩, ?_, ?_, ?_, ?_⟩
  · rw [hlink.key, fill_mem_ne key data ha, ← hs₁]
  · rw [hlink.hchain, Rel.hchain, fill_mem_ne key data ha, ← hs₁]
    rfl
  · rw [hlink.key, hkey]
  · rw [hlink.hchain, hnone]
  · rw [hlink.oid, ← hs₁]
    rfl
  · rw [hlink.hidx, ← hs₁]
    rfl

theorem putLast_holds (h : s.Holds l) (key : Key n) (data : δ) :
    ∃ s', s.putLast key data = .ok s' ∧ (s'.Holds (l ++ [⟨newSlot s, key, data, false⟩]) ∧
      s'.oid = s.oid ∧ s'.hidx.isSome = s.hidx.isSome) ∧ Reindexed (s.append key data) s' ∧
      ∀ a, a ∉ slots l ++ [newSlot s] → s'.mem a = (s.append key data).mem a := by
  have hcur : newSlot s ∉ slots l := (allocateBuffer_holds h.alloc).1
  have hlisted := append_listed h.toListed key data
  obtain ⟨hsame, hkey, hnone, hoid, hidx⟩ := append_frame s key data
  rw [Rel.putLast]
  split
  · next ht hht =>
    have hne : ∀ a ∈ slots l, a ≠ newSlot s := fun a ha he => hcur (he ▸ ha)
    have hindexed : Indexed (s.append key data) ht l :=
      (h.index ht hht).congr (fun a ha => (hsame a (hne a ha)).1)
        fun a ha => (hsame a (hne a ha)).2
    obtain ⟨s', ht', hrun, hht', hindexed', hre, hmem⟩ :=
      index_ok hindexed (e := ⟨newSlot s, key, data, false⟩) hcur hkey hnone
    refine ⟨s', hrun, ⟨⟨hlisted.reindexed hre, ?_⟩, hre.oid.trans hoid, ?_⟩, hre,
      fun a ha => hmem a fun he => ha (by simp [show a = newSlot s from he])⟩
    · intro ht'' hht''
      rw [hht'] at hht''
      cases hht''
      exact hindexed'
    · rw [hht', hht]
      rfl
  · next hht =>
    have hl : slots (l ++ [(⟨newSlot s, key, data, false⟩ : Entry n δ)]) =
        slots l ++ [newSlot s] := slots_append _ _
    obtain ⟨s', hrun, hre, hidx', hmem⟩ := chain_ok (hl ▸ hlisted.head)
      (hl ▸ hlisted.ring) (hl ▸ hlisted.nodup) (hl ▸ hlisted.length_le)
    rw [hidx, hht] at hidx'
    refine ⟨s', hrun, ⟨⟨hlisted.reindexed hre, ?_⟩, hre.oid.trans hoid, ?_⟩, hre, hmem⟩
    · intro ht hht'
      rw [hidx'] at hht'
      cases hht'
    · rw [hidx', hht]

end StreamMill.ImDb
