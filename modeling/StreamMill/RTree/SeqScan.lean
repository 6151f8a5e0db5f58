import StreamMill.RTree.CursorDel
import StreamMill.RTree.LeafWalk

/-!
# StreamMill.RTree.SeqScan

The sequential scan (`DB_FIRST`, `DB_NEXT`). It goes through the leaves in the order of their chain
and returns every entry that is not deleted once, then `DB_NOTFOUND`. The end leaves `UINT_MAX` in
`curitem` and the last leaf in `curnode`: the next `DB_NEXT` increments it to 0 and starts over
in that leaf. `seqScan_iff`: further calls return `DB_NOTFOUND` exactly if all entries of the last
leaf are deleted.
-/

namespace StreamMill.RTree

open Lib

variable {s : State} {key : Rect} {c : Cursor} {bs : List Nat}

structure LeafOrder (s : State) (bs : List Nat) : Prop where
  empty : IsEmpty s → bs = []
  chain : ¬IsEmpty s → s.lptr = first blkPtr bs 0 ∧ LeafSeg s.index 0 bs 0 ∧ ∀ b ∈ bs, b ≠ 0

/-- The entries of the leaves `bs` that are not deleted, in order. -/
def liveEntries (s : State) (bs : List Nat) : List Entry :=
  (bs.flatMap (leafEntries s.index)).filter fun e => !e.item.del

/-- `DB_FIRST` and `n` times `DB_NEXT`. -/
def seqScan (s : State) (fuel : Nat) (key : Rect) (n : Nat) (c : Cursor) :
    Option (List (Option Place) × Cursor) := do
  let (a, c) ← getPlace s fuel key .first c
  let (as, c) ← calls (getPlace s fuel key .next) n c
  return (a :: as, c)

/-- The scan returns the leaf entries that are not deleted, each once, and then `DB_NOTFOUND` as
often as it is called. -/
structure SeqScanRight (s : State) (bs : List Nat) (c : Cursor) (key : Rect) : Prop where
  nodup : (liveEntries s bs).Nodup
  mem : ∀ e, e ∈ liveEntries s bs ↔ LeafEntry s e ∧ e.item.del = false
  gets : ∀ n, Returns
    (fun fuel => (seqScan s fuel key ((liveEntries s bs).length + n) c).map Prod.fst)
    ((liveEntries s bs).map (fun e => some e.place) ++ List.replicate (n + 1) none)

def LastDeleted (s : State) (bs : List Nat) : Prop :=
  ∀ b, bs.getLast? = some b → ∀ e ∈ leafEntries s.index b, e.item.del = true

/-- The entries from entry `i` of the copy `n` on, and those of the leaves `bs` after it. -/
def todo (index : Nat → Page) (ptr : Nat) (n : Node) (i : Nat) (bs : List Nat) : List Entry :=
  (List.range' i (n.counter - i)).map (fun j => ⟨ptr, j, n.items j⟩) ++
    bs.flatMap (leafEntries index)

/-- The cursor comes to entry `i` of its copy `n` next, and to the leaves `bs` after it. -/
structure Before (s : State) (c : Cursor) (ptr : Nat) (n : Node) (i : Nat) (bs : List Nat) :
    Prop where
  copy : c.curnode = .node n
  blk : c.curBlkPtr = ptr
  item : (c.curitem + 1) % 2 ^ 32 = i
  small : n.counter < 2 ^ 32
  next : n.nextlptr = first blkPtr bs 0
  chain : ∃ p, LeafSeg s.index p bs 0
  leaves : ∀ b ∈ bs, b ≠ 0 ∧ ∃ m, s.index b = .node m ∧ 0 < m.counter ∧ m.counter < 2 ^ 32

def lastCopy (index : Nat → Page) (n : Node) (bs : List Nat) : Node :=
  match bs.getLast? with
  | none => n
  | some b => (index b).contents zeroNode

variable {ptr i : Nat} {n : Node}
variable {b h : Nat} {index : Nat → Page} {t : Contents}

theorem leafEntries_node (hn : index b = .node n) :
    leafEntries index b = (List.range n.counter).map fun j => ⟨blkPtr b, j, n.items j⟩ := by
  rw [leafEntries, hn]

theorem todo_nil (h : n.counter ≤ i) :
    todo index ptr n i bs = bs.flatMap (leafEntries index) := by
  rw [todo, Nat.sub_eq_zero_of_le h]
  rfl

theorem todo_cons (h : i < n.counter) :
    todo index ptr n i bs = ⟨ptr, i, n.items i⟩ :: todo index ptr n (i + 1) bs := by
  obtain ⟨k, hk⟩ : ∃ k, n.counter - i = k + 1 := ⟨n.counter - i - 1, by omega⟩
  have hk' : n.counter - (i + 1) = k := by omega
  rw [todo, todo, hk, hk']
  rfl

theorem todo_leaf (hn : index b = .node n) :
    (b :: bs).flatMap (leafEntries index) = todo index (blkPtr b) n 0 bs := by
  rw [todo, List.flatMap_cons, leafEntries_node hn, List.range_eq_range', Nat.sub_zero]

theorem lastCopy_cons {m : Node} (hm : index b = .node m) :
    lastCopy index n (b :: bs) = lastCopy index m bs := by
  rw [lastCopy, lastCopy, List.getLast?_cons]
  cases bs.getLast? with
  | none =>
    show (index b).contents zeroNode = m
    rw [hm]
    rfl
  | some b' => rfl

theorem Before.next_end (h : Before s c ptr n i bs) (hnil : todo s.index ptr n i bs = []) :
    bs = [] ∧ nextItem s c = .ok (none, c.unset) := by
  have hle : n.counter ≤ i := by
    by_contra hlt
    rw [todo_cons (by omega)] at hnil
    cases hnil
  obtain rfl : bs = [] := by
    cases bs with
    | nil => rfl
    | cons b bs =>
      obtain ⟨-, m, hm, hpos, -⟩ := h.leaves b List.mem_cons_self
      rw [todo_nil hle, todo_leaf hm, todo_cons hpos] at hnil
      cases hnil
  refine ⟨rfl, ?_⟩
  have hnext : n.nextlptr = 0 := h.next
  simp only [nextItem, h.copy, h.item, Page.counter, Page.contents, if_pos hle, hnext, if_pos]
  rfl

theorem Before.next_entry {e : Entry} {es : List Entry} (h : Before s c ptr n i bs)
    (hcons : todo s.index ptr n i bs = e :: es) :
    ∃ c' n' bs', nextItem s c = .ok (some e.item.del, c') ∧
      Before s c' e.blkptr n' (e.ent + 1) bs' ∧ todo s.index e.blkptr n' (e.ent + 1) bs' = es ∧
      c'.curitem = e.ent ∧ n'.items e.ent = e.item ∧
      lastCopy s.index n' bs' = lastCopy s.index n bs := by
  have hsmall := h.small
  by_cases hlt : i < n.counter
  · rw [todo_cons hlt] at hcons
    obtain ⟨rfl, rfl⟩ := List.cons.inj hcons
    have hnle : ¬n.counter ≤ i := by omega
    have hmod : (i + 1) % 2 ^ 32 = i + 1 := Nat.mod_eq_of_lt (by omega)
    refine ⟨{ c with curitem := i }, n, bs, ?_, ⟨h.copy, h.blk, hmod, h.small, h.next, h.chain,
      h.leaves⟩, rfl, rfl, rfl, rfl⟩
    simp only [nextItem, h.copy, h.item, Page.counter, if_neg hnle]
    rfl
  · rw [todo_nil (by omega)] at hcons
    cases bs with
    | nil => cases hcons
    | cons b bs =>
      obtain ⟨hb, m, hm, hpos, hbig⟩ := h.leaves b List.mem_cons_self
      rw [todo_leaf hm, todo_cons hpos] at hcons
      obtain ⟨rfl, rfl⟩ := List.cons.inj hcons
      obtain ⟨p, -, hnext, hseg⟩ := h.chain
      have hptr : n.nextlptr = blkPtr b := h.next
      simp only [hm, Page.nextlptr] at hnext
      refine ⟨{ c with curnode := .node m, curBlkPtr := blkPtr b, curitem := 0 }, m, bs, ?_,
        ⟨rfl, rfl, ?_, hbig, hnext, ⟨_, hseg⟩,
          fun b' hb' => h.leaves b' (List.mem_cons_of_mem _ hb')⟩,
        rfl, rfl, rfl, (lastCopy_cons hm).symm⟩
      · have hle : n.counter ≤ i := by omega
        simp only [nextItem, h.copy, h.item, Page.counter, if_pos hle, Page.contents, hptr,
          if_neg (blkPtr_ne_zero hb), peekBlkByPtr_node hm, ok_bind]
        rfl
      · rfl

/-- The end of the scan: the marker in `curitem`, and the copy of the last leaf. -/
structure AtEnd (c : Cursor) (n : Node) : Prop where
  copy : c.curnode = .node n
  item : c.curitem = uintMax

theorem move_end {fuel : Nat} (h : Before s c ptr n i bs)
    (hdel : ∀ e ∈ todo s.index ptr n i bs, e.item.del = true)
    (hfuel : (todo s.index ptr n i bs).length < fuel) :
    ∃ c', moveToNextNonDel s fuel c = some (.ok (.notFound, c')) ∧
      AtEnd c' (lastCopy s.index n bs) := by
  obtain ⟨fuel, rfl⟩ : ∃ k, fuel = k + 1 := ⟨fuel - 1, by omega⟩
  generalize hes : todo s.index ptr n i bs = es at hdel hfuel
  induction es generalizing c ptr n i bs fuel with
  | nil =>
    obtain ⟨rfl, hnext⟩ := h.next_end hes
    refine ⟨c.unset, ?_, h.copy, rfl⟩
    rw [moveToNextNonDel, hnext]
  | cons e es ih =>
    obtain ⟨c₁, n₁, bs₁, hnext, h₁, hes₁, -, -, hlast⟩ := h.next_entry hes
    rw [List.length_cons] at hfuel
    obtain ⟨fuel, rfl⟩ : ∃ k, fuel = k + 1 := ⟨fuel - 1, by omega⟩
    obtain ⟨c', hmove, hend⟩ := ih h₁ fuel hes₁
      (fun e' he' => hdel e' (List.mem_cons_of_mem _ he')) (by omega)
    refine ⟨c', ?_, hlast ▸ hend⟩
    rw [moveToNextNonDel, hnext, hdel e List.mem_cons_self]
    exact hmove

theorem move_found {fuel : Nat} {skipped rest : List Entry} {e : Entry}
    (h : Before s c ptr n i bs) (hes : todo s.index ptr n i bs = skipped ++ e :: rest)
    (hskip : ∀ e ∈ skipped, e.item.del = true) (he : e.item.del = false)
    (hfuel : (todo s.index ptr n i bs).length < fuel) :
    ∃ c' n' bs', moveToNextNonDel s fuel c = some (.ok (.ok, c')) ∧
      Before s c' e.blkptr n' (e.ent + 1) bs' ∧ todo s.index e.blkptr n' (e.ent + 1) bs' = rest ∧
      c'.curitem = e.ent ∧ n'.items e.ent = e.item ∧
      lastCopy s.index n' bs' = lastCopy s.index n bs := by
  rw [hes] at hfuel
  obtain ⟨fuel, rfl⟩ : ∃ k, fuel = k + 1 := ⟨fuel - 1, by omega⟩
  induction skipped generalizing c ptr n i bs fuel with
  | nil =>
    obtain ⟨c', n', bs', hnext, hrest⟩ := h.next_entry hes
    refine ⟨c', n', bs', ?_, hrest⟩
    rw [moveToNextNonDel, hnext, he]
  | cons d skipped ih =>
    obtain ⟨c₁, n₁, bs₁, hnext, h₁, hes₁, -, -, hlast⟩ := h.next_entry hes
    rw [List.cons_append, List.length_cons] at hfuel
    obtain ⟨fuel, rfl⟩ : ∃ k, fuel = k + 1 := ⟨fuel - 1, by omega⟩
    obtain ⟨c', n', bs', hmove, hb, ht, hi, hit, hl⟩ := ih h₁ hes₁
      (fun e' he' => hskip e' (List.mem_cons_of_mem _ he')) fuel (by omega)
    refine ⟨c', n', bs', ?_, hb, ht, hi, hit, hl.trans hlast⟩
    rw [moveToNextNonDel, hnext, hskip d List.mem_cons_self]
    exact hmove

/-- Between two gets: the entries `es` are still to come, at most `k` steps are needed, and the
scan will end in the copy `m`. -/
def Coming (s : State) (k : Nat) (m : Node) (es : List Entry) (c : Cursor) : Prop :=
  ∃ ptr n i bs, Before s c ptr n i bs ∧
    ((todo s.index ptr n i bs).filter fun e => !e.item.del) = es ∧
    (todo s.index ptr n i bs).length < k ∧ lastCopy s.index n bs = m

variable {fuel k : Nat} {m : Node} {e : Entry} {es : List Entry}

theorem Before.place (key : Rect) (h : Before s c e.blkptr n (e.ent + 1) bs)
    (hi : c.curitem = e.ent) (hitem : n.items e.ent = e.item) :
    (readCuritem key (.ok, c)).2.2.place = e.place ∧
      Before s (readCuritem key (.ok, c)).2.2 e.blkptr n (e.ent + 1) bs := by
  refine ⟨?_, h.copy, h.blk, h.item, h.small, h.next, h.chain, h.leaves⟩
  simp [readCuritem, Cursor.place, Entry.place, h.blk, hi, h.copy, Page.item, Page.contents,
    hitem]

theorem Coming.get_end (key : Rect) (h : Coming s k m [] c) (hk : k ≤ fuel) :
    ∃ c', getPlace s fuel key .next c = some (none, c') ∧ AtEnd c' m := by
  obtain ⟨ptr, n, i, bs, hb, hes, hlt, rfl⟩ := h
  rw [List.filter_eq_nil_iff] at hes
  have hfuel : (todo s.index ptr n i bs).length < fuel := by omega
  obtain ⟨c', hmove, hend⟩ := move_end hb (fun e he => by simpa using hes e he) hfuel
  refine ⟨c', ?_, hend⟩
  simp [getPlace, rtreeCursorGet, hmove, Option.map_some, Except.map, readCuritem]

theorem Coming.get_entry (key : Rect) (h : Coming s k m (e :: es) c) (hk : k ≤ fuel) :
    ∃ c', getPlace s fuel key .next c = some (some e.place, c') ∧ Coming s k m es c' := by
  obtain ⟨ptr, n, i, bs, hb, hes, hlt, rfl⟩ := h
  have hfuel : (todo s.index ptr n i bs).length < fuel := by omega
  obtain ⟨skipped, rest, htodo, hskip, he, hrest⟩ := List.filter_eq_cons_iff.mp hes
  obtain ⟨c', n', bs', hmove, hb', ht, hi, hitem, hlast⟩ := move_found hb htodo
    (fun d hd => by simpa using hskip d hd) (by simpa using he) hfuel
  obtain ⟨hplace, hb''⟩ := hb'.place key hi hitem
  refine ⟨_, ?_, e.blkptr, n', e.ent + 1, bs', hb'', ?_, ?_, hlast⟩
  · simp only [getPlace, rtreeCursorGet, hmove, Option.map_some, Except.map]
    rw [← hplace]
    rfl
  · rw [ht, hrest]
  · rw [htodo, List.length_append, List.length_cons] at hlt
    rw [ht]
    omega

theorem Coming.calls (key : Rect) (h : Coming s k m es c) (hk : k ≤ fuel) :
    ∃ c', Lib.calls (getPlace s fuel key .next) (es.length + 1) c =
      some (es.map (fun e => some e.place) ++ [none], c') ∧ AtEnd c' m := by
  let I : List Place → Cursor → Prop := fun ps c =>
    ∃ es, ps = es.map Entry.place ∧ Coming s k m es c
  have hend : ∀ c, I [] c → ∃ c', getPlace s fuel key .next c = some (none, c') ∧ AtEnd c' m := by
    rintro c ⟨es, hes, h⟩
    obtain rfl := List.map_eq_nil_iff.mp hes.symm
    exact h.get_end key hk
  have hnext : ∀ p ps c, I (p :: ps) c →
      ∃ c', getPlace s fuel key .next c = some (some p, c') ∧ I ps c' := by
    rintro p ps c ⟨es, hes, h⟩
    cases es with
    | nil => cases hes
    | cons e es =>
      obtain ⟨rfl, rfl⟩ := List.cons.inj hes
      obtain ⟨c', hget, h'⟩ := h.get_entry key hk
      exact ⟨c', hget, es, rfl, h'⟩
  obtain ⟨c', hcalls, hend'⟩ := calls_pass hend hnext (es.map Entry.place) ⟨es, rfl, h⟩
  rw [List.length_map, List.map_map] at hcalls
  exact ⟨c', hcalls, hend'⟩

/-- After the end the cursor is before the first entry of its last copy again. -/
theorem AtEnd.coming (h : AtEnd c n) (hnext : n.nextlptr = 0) (hsmall : n.counter < 2 ^ 32)
    (hk : n.counter < k) :
    Coming s k n ((todo s.index c.curBlkPtr n 0 []).filter fun e => !e.item.del) c := by
  refine ⟨c.curBlkPtr, n, 0, [], ⟨h.copy, rfl, ?_, hsmall, hnext, ⟨0, trivial⟩, nofun⟩, rfl, ?_,
    rfl⟩
  · rw [h.item]
    rfl
  · simpa [todo] using hk

theorem AtEnd.calls (h : AtEnd c n) (s : State) (fuel : Nat) (key : Rect)
    (hnext : n.nextlptr = 0) (hsmall : n.counter < 2 ^ 32) (hfuel : n.counter < fuel)
    (hdel : ∀ j < n.counter, (n.items j).del = true) (j : Nat) :
    ∃ c', Lib.calls (getPlace s fuel key .next) j c = some (List.replicate j none, c') ∧
      AtEnd c' n := by
  induction j generalizing c with
  | zero => exact ⟨c, rfl, h⟩
  | succ j ih =>
    have hcoming : Coming s fuel n _ c := h.coming hnext hsmall hfuel
    have hnone : ((todo s.index c.curBlkPtr n 0 []).filter fun e => !e.item.del) = [] := by
      rw [List.filter_eq_nil_iff]
      intro e he
      obtain ⟨j, hj, rfl⟩ : ∃ j < n.counter, (⟨c.curBlkPtr, j, n.items j⟩ : Entry) = e := by
        simpa [todo] using he
      simpa using hdel j hj
    rw [hnone] at hcoming
    obtain ⟨c₁, hget, hend⟩ := hcoming.get_end key (Nat.le_refl fuel)
    obtain ⟨c', hcalls, hend'⟩ := ih hend
    exact ⟨c', calls_succ hget hcalls, hend'⟩

/-- `DB_FIRST` does what `DB_NEXT` would do from before the first entry of the first leaf. -/
theorem getPlace_first (fuel : Nat) (key : Rect) (c : Cursor) (hfb : s.fbInd ≠ 1)
    (hl : s.lptr = blkPtr b) (hn : s.index b = .node n) (hend : n.counter = 0 → n.nextlptr = 0) :
    getPlace s fuel key .first c = getPlace s (fuel + 1) key .next
      { c with curnode := .node n, curBlkPtr := blkPtr b, curitem := uintMax } := by
  have hread := peekBlkByPtr_node hn
  have hwrap : (uintMax + 1) % 2 ^ 32 = 0 := rfl
  obtain ⟨ty, counter, next, prev, items⟩ := n
  cases counter with
  | zero =>
    obtain rfl : next = 0 := hend rfl
    simp only [getPlace, rtreeCursorGet, getFirst, if_neg hfb, hl, hread]
    rfl
  | succ k =>
    have hnext : ∀ c : Cursor,
        nextItem s { c with curnode := .node ⟨ty, k + 1, next, prev, items⟩
                            curBlkPtr := blkPtr b, curitem := uintMax } =
          .ok (some (items 0).del, { c with curnode := .node ⟨ty, k + 1, next, prev, items⟩
                                            curBlkPtr := blkPtr b, curitem := 0 }) := by
      intro c
      have hlt : ¬(Page.node ⟨ty, k + 1, next, prev, items⟩).counter ≤ 0 := Nat.not_succ_le_zero k
      simp only [nextItem, hwrap, if_neg hlt]
      rfl
    have hpos : (Page.node ⟨ty, k + 1, next, prev, items⟩).counter ≠ 0 := Nat.succ_ne_zero k
    simp only [getPlace, rtreeCursorGet, getFirst, if_neg hfb, hl, hread, moveToNextNonDel, hnext,
      if_neg hpos]
    cases hd : (items 0).del with
    | true =>
      have hitem : ((Page.node ⟨ty, k + 1, next, prev, items⟩).item 0).del = true := hd
      rw [if_pos hitem]
    | false =>
      have hitem : ¬((Page.node ⟨ty, k + 1, next, prev, items⟩).item 0).del = true := by
        show ¬(items 0).del = true
        simp [hd]
      rw [if_neg hitem]
      rfl

theorem seqScan_append {a : Option Place} {as bs' : List (Option Place)} {c₁ c' : Cursor}
    {N j : Nat}
    (h : seqScan s fuel key N c = some (a :: as, c₁))
    (h' : calls (getPlace s fuel key .next) j c₁ = some (bs', c')) :
    seqScan s fuel key (N + j) c = some (a :: as ++ bs', c') := by
  unfold seqScan at h ⊢
  obtain ⟨⟨a', c₀⟩, hfirst, h⟩ := Option.bind_eq_some_iff.mp h
  obtain ⟨⟨as', c₂⟩, hcalls, h⟩ := Option.bind_eq_some_iff.mp h
  cases h
  rw [hfirst]
  show (calls (getPlace s fuel key .next) (N + j) c₀).bind _ = _
  rw [calls_append hcalls h']
  rfl

theorem seqScan_once (hfb : s.fbInd ≠ 1) (hl : s.lptr = blkPtr b) (hn : s.index b = .node n)
    (hend : n.counter = 0 → n.nextlptr = 0) (hbefore : ∀ c : Cursor, Before s
      { c with curnode := .node n, curBlkPtr := blkPtr b, curitem := uintMax } (blkPtr b) n 0 bs)
    (hk : ((b :: bs).flatMap (leafEntries s.index)).length < fuel) :
    ∃ a as c', seqScan s fuel key (liveEntries s (b :: bs)).length c = some (a :: as, c') ∧
      a :: as = (liveEntries s (b :: bs)).map (fun e => some e.place) ++ [none] ∧
      AtEnd c' (lastCopy s.index n bs) := by
  have hcoming : Coming s fuel (lastCopy s.index n bs) (liveEntries s (b :: bs))
      { c with curnode := .node n, curBlkPtr := blkPtr b, curitem := uintMax } := by
    refine ⟨_, n, 0, bs, hbefore c, ?_, ?_, rfl⟩
    · rw [liveEntries, todo_leaf hn]
    · rwa [← todo_leaf hn]
  have hfirst := getPlace_first fuel key c hfb hl hn hend
  cases hlive : liveEntries s (b :: bs) with
  | nil =>
    rw [hlive] at hcoming
    obtain ⟨c', hget, hend'⟩ := hcoming.get_end key (Nat.le_succ fuel)
    refine ⟨none, [], c', ?_, rfl, hend'⟩
    unfold seqScan
    rw [hfirst, hget]
    rfl
  | cons e es =>
    rw [hlive] at hcoming
    obtain ⟨c₁, hget, hrest⟩ := hcoming.get_entry key (Nat.le_succ fuel)
    obtain ⟨c', hcalls, hend'⟩ := hrest.calls key (Nat.le_refl fuel)
    refine ⟨some e.place, es.map (fun e => some e.place) ++ [none], c', ?_, rfl, hend'⟩
    unfold seqScan
    rw [hfirst, hget]
    show (calls (getPlace s fuel key .next) (es.length + 1) c₁).bind _ = _
    rw [hcalls]
    rfl

theorem Subtree.leafFill {items : List Item} (ht : Subtree index h b items t) :
    ∀ l ∈ t.2.1, ∃ n, index l = .node n ∧
      n.counter ≤ maxEntries ∧ (2 ≤ items.length ∨ h ≠ 0 → 0 < n.counter) := by
  induction h generalizing b items t with
  | zero =>
    obtain ⟨⟨n, hn, -, rfl⟩, hcap, rfl⟩ := ht
    intro l hl
    obtain rfl := Multiset.mem_singleton.mp hl
    rw [Node.entries_length] at hcap ⊢
    exact ⟨n, hn, hcap, fun h => by omega⟩
  | succ h ih =>
    obtain ⟨-, -, -, t', hparts, rfl⟩ := ht
    have hall : ∀ l ∈ t'.2.1, ∃ n, index l = .node n ∧ n.counter ≤ maxEntries ∧ 0 < n.counter := by
      refine hparts.sum_induct (R := fun u : Contents => ∀ l ∈ u.2.1, ∃ n, index l = .node n ∧
        n.counter ≤ maxEntries ∧ 0 < n.counter) ?_ ?_ ?_
      · intro l hl
        exact absurd hl (Multiset.notMem_zero l)
      · intro u v hu hv l hl
        exact (Multiset.mem_add.mp hl).elim (hu l) (hv l)
      · rintro e - u ⟨d, ces, -, -, hlen, -, hd⟩ l hl
        obtain ⟨n, hn, hcap, hpos⟩ := ih hd l hl
        exact ⟨n, hn, hcap, hpos (.inl hlen)⟩
    intro l hl
    obtain ⟨n, hn, hcap, hpos⟩ := hall l (by simpa using hl)
    exact ⟨n, hn, hcap, fun _ => hpos⟩

theorem Subtree.exists_leaf {items : List Item} (ht : Subtree index h b items t) :
    ∃ l, l ∈ t.2.1 := by
  induction h generalizing b items t with
  | zero =>
    obtain ⟨-, -, rfl⟩ := ht
    exact ⟨b, Multiset.mem_singleton_self b⟩
  | succ h ih =>
    obtain ⟨-, hlen, -, t', hparts, rfl⟩ := ht
    cases items with
    | nil => exact absurd hlen (by simp)
    | cons it items =>
      obtain ⟨u, v, ⟨d, ces, -, -, -, -, hd⟩, -, rfl⟩ := hparts
      obtain ⟨l, hl⟩ := ih hd
      exact ⟨l, Multiset.mem_add.mpr (.inr (Multiset.mem_add.mpr (.inl hl)))⟩

/-- The leaves of a tree in the order of their chain, as a scan needs them. -/
structure Leaves (s : State) (b : Nat) (n : Node) (bs : List Nat) : Prop where
  first : s.lptr = blkPtr b
  seg : LeafSeg s.index 0 (b :: bs) 0
  node : s.index b = .node n
  small : n.counter ≤ maxEntries
  lone : n.counter = 0 → bs = []
  rest : ∀ l ∈ bs, ∃ m, s.index l = .node m ∧ 0 < m.counter ∧ m.counter ≤ maxEntries
  ne_zero : ∀ l ∈ b :: bs, l ≠ 0
  nodup : (b :: bs).Nodup
  mem : ∀ e, e ∈ (b :: bs).flatMap (leafEntries s.index) ↔ LeafEntry s e

theorem IsTree.leafList (hs : IsTree s h t) :
    s.fbInd ≠ 1 ∧ ∃ b n bs, Leaves s b n bs := by
  obtain ⟨es, hroot⟩ := hs.tree
  have h1 := hroot.mem
  refine ⟨hs.alloc.fbInd_ne h1, ?_⟩
  obtain ⟨bs, hbs, hlptr, hseg⟩ := hs.chain
  have hmem : ∀ l, l ∈ bs ↔ l ∈ t.2.1 := fun l => by rw [← hbs, Multiset.mem_coe]
  have hfill : ∀ l ∈ bs, l ≠ 0 ∧ ∃ m, s.index l = .node m ∧ m.counter ≤ maxEntries ∧
      (h ≠ 0 → 0 < m.counter) := by
    intro l hl
    obtain ⟨m, hm, hcap, hpos⟩ := hroot.leafFill l ((hmem l).mp hl)
    have := (hs.alloc.mem (hroot.leavesIn.mem ((hmem l).mp hl))).1
    exact ⟨by omega, m, hm, hcap, fun h => hpos (.inr h)⟩
  have hlone : h = 0 → bs = [1] := by
    rintro rfl
    obtain ⟨-, -, rfl⟩ := hroot
    exact Multiset.coe_eq_singleton.mp hbs
  have hnd : bs.Nodup := by
    rw [← Multiset.coe_nodup, hbs]
    exact hs.leaves_nodup
  obtain ⟨b, bs, rfl⟩ : ∃ b bs', bs = b :: bs' := by
    obtain ⟨l, hl⟩ := hroot.exists_leaf
    exact List.exists_cons_of_ne_nil (List.ne_nil_of_mem ((hmem l).mpr hl))
  obtain ⟨-, n, hn, hcap, hpos⟩ := hfill b List.mem_cons_self
  refine ⟨b, n, bs, hlptr, hseg, hn, hcap, fun h0 => ?_, fun l hl => ?_,
    fun l hl => (hfill l hl).1, hnd, fun e => ?_⟩
  · have hh : h = 0 := by
      by_contra hh
      exact absurd (hpos hh) (by omega)
    exact (List.cons.inj (hlone hh)).2
  · obtain ⟨-, m, hm, hcap, hpos⟩ := hfill l (List.mem_cons_of_mem _ hl)
    refine ⟨m, hm, hpos fun hh => ?_, hcap⟩
    rw [(List.cons.inj (hlone hh)).2] at hl
    cases hl
  · rw [List.mem_flatMap]
    constructor
    · rintro ⟨l, hl, he⟩
      exact ⟨h, t, hs, l, (hmem l).mp hl, he⟩
    · rintro ⟨h', t', hs', l, hl, he⟩
      obtain ⟨es', hroot'⟩ := hs'.tree
      rw [← (hroot.unique hroot').2] at hl
      exact ⟨l, (hmem l).mpr hl, he⟩

theorem Leaves.before (h : Leaves s b n bs) (c : Cursor) :
    Before s { c with curnode := .node n, curBlkPtr := blkPtr b, curitem := uintMax }
      (blkPtr b) n 0 bs := by
  obtain ⟨-, hnext, hseg⟩ := h.seg
  simp only [h.node, Page.nextlptr] at hnext
  have hmax : maxEntries < 2 ^ 32 := by decide
  have hwrap : (uintMax + 1) % 2 ^ 32 = 0 := rfl
  refine ⟨rfl, rfl, hwrap, by have := h.small; omega, hnext, ⟨_, hseg⟩, fun l hl => ?_⟩
  obtain ⟨m, hm, hpos, hcap⟩ := h.rest l hl
  exact ⟨h.ne_zero l (List.mem_cons_of_mem _ hl), m, hm, hpos, by omega⟩

theorem Leaves.last {b : Nat} (h : Leaves s b n bs) :
    ∃ l m, (b :: bs).getLast? = some l ∧ s.index l = .node m ∧ lastCopy s.index n bs = m ∧
      m.nextlptr = 0 ∧ m.counter ≤ maxEntries := by
  rcases List.eq_nil_or_concat bs with rfl | ⟨ls, l, rfl⟩
  · have hnext := h.seg.2.1
    simp only [h.node, Page.nextlptr] at hnext
    exact ⟨b, n, rfl, h.node, rfl, hnext, h.small⟩
  · rw [List.concat_eq_append] at h ⊢
    obtain ⟨m, hm, -, hcap⟩ := h.rest l (by simp)
    have hseg : LeafSeg s.index 0 ((b :: ls) ++ [l]) 0 := h.seg
    have hnext := hseg.links.2
    simp only [hm, Page.nextlptr] at hnext
    have hlast : (b :: (ls ++ [l])).getLast? = some l := by
      rw [← List.cons_append, List.getLast?_concat]
    refine ⟨l, m, hlast, hm, ?_, hnext, hcap⟩
    rw [lastCopy, List.getLast?_concat]
    show (s.index l).contents zeroNode = m
    rw [hm]
    rfl

theorem Leaves.live (h : Leaves s b n bs) : (liveEntries s (b :: bs)).Nodup ∧
    ∀ e, e ∈ liveEntries s (b :: bs) ↔ LeafEntry s e ∧ e.item.del = false := by
  refine ⟨?_, fun e => ?_⟩
  · refine List.Nodup.filter _ (List.nodup_flatMap.mpr ⟨fun l _ => leafEntries_nodup s.index l, ?_⟩)
    refine h.nodup.imp fun hne e he he' => hne ?_
    exact blkPtr_inj ((leafEntries_blkptr he).symm.trans (leafEntries_blkptr he'))
  · rw [liveEntries, List.mem_filter, h.mem, Bool.not_eq_true']

theorem Leaves.scan_iff (hfb : s.fbInd ≠ 1) (h : Leaves s b n bs) (c : Cursor) (key : Rect) :
    SeqScanRight s (b :: bs) c key ↔ LastDeleted s (b :: bs) := by
  obtain ⟨l, m, hlast, hm, hcopy, hnext, hcap⟩ := h.last
  have hsmall : m.counter < 2 ^ 32 := Nat.lt_of_le_of_lt hcap (by decide)
  have hend : n.counter = 0 → n.nextlptr = 0 := by
    intro h0
    have hseg := h.seg
    rw [h.lone h0] at hseg
    have hnext := hseg.2.1
    simp only [h.node, Page.nextlptr] at hnext
    exact hnext
  have honce : ∀ fuel, ((b :: bs).flatMap (leafEntries s.index)).length + maxEntries < fuel →
      ∃ a as c', seqScan s fuel key (liveEntries s (b :: bs)).length c = some (a :: as, c') ∧
        a :: as = (liveEntries s (b :: bs)).map (fun e => some e.place) ++ [none] ∧
        AtEnd c' m := by
    intro fuel hfuel
    rw [← hcopy]
    exact seqScan_once hfb h.first h.node hend h.before (by omega)
  constructor
  · rintro ⟨-, -, hgets⟩ l' hl' e he
    rw [hlast, Option.some.injEq] at hl'
    subst hl'
    rw [leafEntries_node hm, List.mem_map] at he
    obtain ⟨j, hj, rfl⟩ := he
    by_contra hdel
    -- one more get after the end returns an entry of the last leaf
    obtain ⟨enough, hrun⟩ := hgets 1
    let fuel := enough + (((b :: bs).flatMap (leafEntries s.index)).length + maxEntries + 1)
    obtain ⟨a, as, c', hscan, has, hend'⟩ := honce fuel (by omega)
    have hcoming : Coming s fuel m _ c' := hend'.coming hnext hsmall (by omega)
    have hmem : (⟨c'.curBlkPtr, j, m.items j⟩ : Entry) ∈
        (todo s.index c'.curBlkPtr m 0 []).filter fun e => !e.item.del := by
      rw [List.mem_filter]
      refine ⟨?_, by simpa using hdel⟩
      simpa [todo] using List.mem_range.mp hj
    obtain ⟨e, es, hes⟩ := List.exists_cons_of_ne_nil (List.ne_nil_of_mem hmem)
    rw [hes] at hcoming
    obtain ⟨c₁, hget, -⟩ := hcoming.get_entry key (Nat.le_refl fuel)
    have hcalls : calls (getPlace s fuel key .next) 1 c' = some ([some e.place], c₁) :=
      calls_succ hget rfl
    have hmore := seqScan_append hscan hcalls
    have hgot := hrun fuel (Nat.le_add_right _ _)
    simp only [hmore, Option.map_some, has, Option.some.injEq, List.append_assoc,
      List.append_cancel_left_eq] at hgot
    cases hgot
  · intro hdel
    refine ⟨h.live.1, h.live.2, fun j => ⟨((b :: bs).flatMap (leafEntries s.index)).length +
      maxEntries + 1, fun fuel hfuel => ?_⟩⟩
    obtain ⟨a, as, c', hscan, has, hend'⟩ := honce fuel (by omega)
    have hall : ∀ i < m.counter, (m.items i).del = true := by
      intro i hi
      refine hdel l hlast ⟨blkPtr l, i, m.items i⟩ ?_
      rw [leafEntries_node hm, List.mem_map]
      exact ⟨i, List.mem_range.mpr hi, rfl⟩
    obtain ⟨c'', hcalls, -⟩ := hend'.calls s fuel key hnext hsmall (by omega) hall j
    simp only [seqScan_append hscan hcalls, Option.map_some, has, List.append_assoc]
    rfl

structure Unread (c : Cursor) : Prop where
  copy : c.curnode = .free 0 zeroNode
  stack : c.dfsStack = []
  blk : c.curBlkPtr = uintMax

theorem Unread.next (h : Unread c) (fuel : Nat) :
    moveToNextNonDel s (fuel + 1) c = some (.ok (.notFound, c.unset)) := by
  have hnext : nextItem s c = .ok (none, c.unset) := by
    have hcount : (Page.free 0 zeroNode).counter ≤ (c.curitem + 1) % 2 ^ 32 := Nat.zero_le _
    simp only [nextItem, h.copy, if_pos hcount]
    rfl
  rw [moveToNextNonDel, hnext]

theorem Unread.unset (h : Unread c) : Unread c.unset := ⟨h.copy, h.stack, rfl⟩

theorem Unread.calls (h : Unread c) (s : State) (key : Rect) (fuel j : Nat) :
    Lib.calls (getPlace s (fuel + 1) key .next) j c.unset =
      some (List.replicate j none, c.unset) := by
  induction j with
  | zero => rfl
  | succ j ih =>
    refine calls_succ ?_ ih
    simp only [getPlace, rtreeCursorGet, h.unset.next fuel, Option.map_some, Except.map,
      readCuritem]
    rfl

theorem Unread.scan (h : Unread c) (hs : IsEmpty s) (key : Rect) : SeqScanRight s [] c key := by
  refine ⟨.nil, fun e => ?_, fun j => ⟨1, fun fuel hfuel => ?_⟩⟩
  · constructor
    · intro he
      cases he
    · rintro ⟨⟨_, _, ht, -⟩, -⟩
      exact absurd hs ht.not_isEmpty
  · obtain ⟨fuel, rfl⟩ : ∃ k, fuel = k + 1 := ⟨fuel - 1, by omega⟩
    have hfirst : getPlace s (fuel + 1) key .first c = some (none, c.unset) := by
      simp [getPlace, rtreeCursorGet, getFirst, if_pos hs.2.1]
    have hcalls := h.calls s key fuel j
    have hscan : seqScan s (fuel + 1) key 0 c = some ([none], c.unset) := by
      unfold seqScan
      rw [hfirst]
      rfl
    have hmore := seqScan_append hscan hcalls
    simp only [liveEntries, List.flatMap_nil, List.filter_nil, List.length_nil, hmore,
      Option.map_some]
    rfl

theorem Unread.get (h : Unread c) (hs : IsEmpty s) (hroot : s.index 1 = .absent) {flag : Flag}
    {rc : Rc} {key' : Rect} {c' : Cursor}
    (hget : rtreeCursorGet s fuel c key flag = some (.ok (rc, key', c'))) : Unread c' := by
  have hread : peekBlkByPtr s blockSz = .error .readBlk := by
    have hdiv : blockSz / blockSz = 1 := rfl
    simp [peekBlkByPtr, hdiv, hroot]
  have hset : ∀ type, dfsGet s fuel (c.pushRoot type) key ≠ some (.ok (rc, key', c')) := by
    intro type hdfs
    cases fuel with
    | zero => cases hdfs
    | succ fuel => simp [dfsGet, Cursor.pushRoot, rtreeDfs, hread] at hdfs
  have hdup : dfsGet s fuel c key = some (.ok (rc, key', c')) → Unread c' := by
    intro hdfs
    cases fuel with
    | zero => cases hdfs
    | succ fuel =>
      simp only [dfsGet, h.stack, rtreeDfs] at hdfs
      cases hdfs
      exact ⟨h.copy, rfl, rfl⟩
  cases flag with
  | first =>
    simp only [rtreeCursorGet, getFirst, if_pos hs.2.1] at hget
    cases hget
    exact h.unset
  | next =>
    cases fuel with
    | zero => cases hget
    | succ fuel =>
      simp only [rtreeCursorGet, h.next fuel] at hget
      cases hget
      exact h.unset
  | set => exact absurd hget (hset .equality)
  | setRange => exact absurd hget (hset .containment)
  | nextDup => exact hdup hget
  | nextRange => exact hdup hget

/-- The cursors that are open on an empty R-tree have read no block. -/
def NoneRead (σ : Sys) : Prop :=
  IsEmpty σ.tree → σ.tree.index 1 = .absent ∧ ∀ k c, σ.cursors k = some c → Unread c

theorem NoneRead.update {σ : Sys} (h : NoneRead σ) {k : Nat} {c : Cursor}
    (hc : IsEmpty σ.tree → Unread c) :
    NoneRead { σ with cursors := Function.update σ.cursors k (some c) } := by
  intro he
  refine ⟨(h he).1, fun k' c' hk' => ?_⟩
  by_cases hkk : k' = k
  · subst hkk
    simp only [Function.update_self, Option.some.injEq] at hk'
    exact hk' ▸ hc he
  · simp only [Function.update_of_ne hkk] at hk'
    exact (h he).2 k' c' hk'

theorem NoneRead.step {σ σ' : Sys} {e : Event} (h : NoneRead σ) (hstep : Step σ e σ')
    (hdel : ∀ k c, e = .del k → σ.cursors k = some c → UpToDate σ.tree c)
    {items : Multiset Item} (hs : WellFormed σ.tree items) : NoneRead σ' := by
  cases hstep with
  | @insert mbr tplno s' hins =>
    intro he
    obtain ⟨items', hs', hkeys⟩ := step_wellFormed (Step.insert hins) hdel hs
    obtain rfl := hs'.unique (.inl ⟨he, rfl⟩)
    have hcard := congrArg Multiset.card hkeys
    simp [inserted] at hcard
  | @opens k c hopen =>
    refine h.update fun he => ?_
    have hfb : ¬σ.tree.fbInd ≠ 1 := fun hne => hne he.2.1
    rw [rtreeCursor, if_neg hfb] at hopen
    cases hopen
    exact ⟨rfl, rfl, rfl⟩
  | get hk hget => exact h.update fun he => ((h he).2 _ _ hk).get he (h he).1 hget
  | @del k c c' rc s' hk hrun =>
    intro he
    by_cases hmax : c.curBlkPtr = uintMax
    · rw [rtreeCursorDel, if_pos hmax] at hrun
      cases hrun
      exact h.update (fun he => (h he).2 _ _ hk) he
    · have he' : IsEmpty σ.tree := by
        obtain ⟨_, _, _, hrun', hmarks⟩ := (hdel k c rfl hk).delFrame
        rw [hrun] at hrun'
        cases hrun'
        obtain ⟨h1, h2, h3, h4⟩ := hmarks.super
        exact ⟨h1 ▸ he.1, h2 ▸ he.2.1, h3 ▸ he.2.2.1, h4 ▸ he.2.2.2⟩
      exact absurd ((h he').2 _ _ hk).blk hmax
  | @close k =>
    intro he
    refine ⟨(h he).1, fun k' c' hk' => ?_⟩
    by_cases hkk : k' = k
    · subst hkk
      simp only [Function.update_self] at hk'
      cases hk'
    · simp only [Function.update_of_ne hkk] at hk'
      exact (h he).2 k' c' hk'

theorem CarefulRun.noneRead {σ₀ σ : Sys} {es : List Event} {items₀ : Multiset Item}
    (hs : Stored σ₀.tree items₀) (hnone : ∀ k, σ₀.cursors k = none) (h : CarefulRun σ₀ es σ) :
    NoneRead σ := by
  suffices hboth : NoneRead σ ∧ ∃ items, WellFormed σ.tree items from hboth.1
  induction h with
  | start =>
    refine ⟨fun he => ⟨hs.2 he, fun k c hk => ?_⟩, items₀, hs.1⟩
    rw [hnone k] at hk
    cases hk
  | step _ hstep hdel ih =>
    obtain ⟨hread, items, hitems⟩ := ih
    obtain ⟨items', hitems', -⟩ := step_wellFormed hstep hdel hitems
    exact ⟨hread.step hstep hdel hitems, items', hitems'⟩

theorem LeafSeg.unique {p p' : Nat} {bs bs' : List Nat} (h : LeafSeg index p bs 0)
    (h' : LeafSeg index p' bs' 0) (hne : ∀ b ∈ bs, b ≠ 0) (hne' : ∀ b ∈ bs', b ≠ 0)
    (hfirst : first blkPtr bs 0 = first blkPtr bs' 0) : bs = bs' := by
  induction bs generalizing p p' bs' with
  | nil =>
    cases bs' with
    | nil => rfl
    | cons b' bs' => exact absurd hfirst.symm (blkPtr_ne_zero (hne' b' List.mem_cons_self))
  | cons b bs ih =>
    cases bs' with
    | nil => exact absurd hfirst (blkPtr_ne_zero (hne b List.mem_cons_self))
    | cons b' bs' =>
      obtain rfl : b = b' := blkPtr_inj hfirst
      obtain ⟨-, hnext, hseg⟩ := h
      obtain ⟨-, hnext', hseg'⟩ := h'
      rw [ih hseg hseg' (fun c hc => hne c (List.mem_cons_of_mem _ hc))
        (fun c hc => hne' c (List.mem_cons_of_mem _ hc)) (hnext.symm.trans hnext')]

theorem LeafOrder.unique {bs' : List Nat} (h : LeafOrder s bs) (h' : LeafOrder s bs') :
    bs = bs' := by
  by_cases he : IsEmpty s
  · rw [h.empty he, h'.empty he]
  · obtain ⟨hl, hseg, hne⟩ := h.chain he
    obtain ⟨hl', hseg', hne'⟩ := h'.chain he
    exact hseg.unique hseg' hne hne' (hl.symm.trans hl')

/-- A scan returns the leaf entries that are not deleted in the order of the leaf chain, and then
`DB_NOTFOUND`, exactly if all entries of the last leaf are deleted. The cursor may have been
anywhere before; on an empty R-tree it has read no block. -/
theorem seqScan_iff {items : Multiset Item} (hs : WellFormed s items)
    (hc : IsEmpty s → Unread c) (key : Rect) :
    ∃ bs, LeafOrder s bs ∧ (∀ bs', LeafOrder s bs' → bs' = bs) ∧
      (SeqScanRight s bs c key ↔ LastDeleted s bs) := by
  rcases hs with ⟨he, -⟩ | ⟨h, t, ht, -⟩
  · have horder : LeafOrder s [] := ⟨fun _ => rfl, fun hne => absurd he hne⟩
    refine ⟨[], horder, fun bs' h' => h'.unique horder, ?_⟩
    constructor
    · intro _ b hb
      cases hb
    · exact fun _ => (hc he).scan he key
  · obtain ⟨hfb, b, n, bs, hl⟩ := ht.leafList
    have horder : LeafOrder s (b :: bs) :=
      ⟨fun he => absurd he ht.not_isEmpty, fun _ => ⟨hl.first, hl.seg, hl.ne_zero⟩⟩
    exact ⟨b :: bs, horder, fun bs' h' => h'.unique horder, hl.scan_iff hfb c key⟩

theorem seqScan_iff_twoPoints :
    ∃ bs, LeafOrder (leafRoot twoPoints) bs ∧
      (∀ bs', LeafOrder (leafRoot twoPoints) bs' → bs' = bs) ∧
      (SeqScanRight (leafRoot twoPoints) bs .zero ⟨0, 0, 0, 0⟩ ↔
        LastDeleted (leafRoot twoPoints) bs) :=
  seqScan_iff twoPoints_stored.1 (fun ⟨_, _, htb, _⟩ => nomatch htb) ⟨0, 0, 0, 0⟩

/-- After `DB_NOTFOUND` the next `DB_NEXT` returns the first of two tuples again. -/
theorem seqScan_starts_over :
    ∃ (s : State) (items : Multiset Item) (bs : List Nat) (c : Cursor), WellFormed s items ∧
      LeafOrder s bs ∧ rtreeCursor s = .ok c ∧ ¬SeqScanRight s bs c ⟨0, 0, 0, 0⟩ := by
  obtain ⟨⟨he, -⟩ | ⟨h, t, ht, -⟩, -⟩ := twoPoints_stored
  · exact absurd he.2.1 (by simp [leafRoot])
  have horder : LeafOrder (leafRoot twoPoints) [1] :=
    ⟨fun he => absurd he ht.not_isEmpty, fun _ => ⟨rfl, ⟨rfl, rfl, trivial⟩, by simp⟩⟩
  refine ⟨leafRoot twoPoints, _, [1], _, twoPoints_stored.1, horder, rfl, fun hright => ?_⟩
  obtain ⟨hfb, b, n, bs, hl⟩ := ht.leafList
  have heq : b :: bs = [1] := LeafOrder.unique
    ⟨fun he => absurd he ht.not_isEmpty, fun _ => ⟨hl.first, hl.seg, hl.ne_zero⟩⟩ horder
  obtain ⟨rfl, rfl⟩ := List.cons.inj heq
  have hdel := (hl.scan_iff hfb _ _).mp hright 1 rfl
  have hnode : (leafRoot twoPoints).index 1 = .node twoPoints := rfl
  have hmem : (⟨blkPtr 1, 0, twoPoints.items 0⟩ : Entry) ∈
      leafEntries (leafRoot twoPoints).index 1 := by
    rw [leafEntries_node hnode, List.mem_map]
    exact ⟨0, List.mem_range.mpr Nat.zero_lt_two, rfl⟩
  cases hdel _ hmem

end StreamMill.RTree
