import StreamMill.ImDb.RawRel

/-!
# StreamMill.ImDb.RawLayout

Where the bytes of a relation are. `Field` is a pointer in a tuple with what lies behind it, and
`Entry.Stored` a whole tuple. `Buffer.Holds` says that the slots in use and the free ones are
distinct slots of the pages; slots are apart from each other and from the free pages
(`IsSlot.apart`, `IsSlot.apart_free`), and the slot given out is none in use.
-/

namespace StreamMill.ImDb
namespace Raw

open Lib Lib.Memory
open Table (leBytes leNat leBytes_length leNat_leBytes)

variable {m m' : Memory Byte} {P : Nat → Prop}

theorem word_setWord (m : Memory Byte) (p : Nat) {v : Nat} (hv : v < 2 ^ 32) :
    word (setWord m p v) p = v := by
  have h := load_store_same m p (leBytes 4 v)
  rw [leBytes_length] at h
  rw [word, setWord, h]
  exact leNat_leBytes hv

theorem changes_setWord (m : Memory Byte) (p : Nat) (v : Nat) :
    Changes (Within p 4) m (setWord m p v) := by
  have h := changes_store m p (leBytes 4 v)
  exact h

theorem word_changes (h : Changes P m m') {p : Nat} (hP : ∀ i, Within p 4 i → ¬P i) :
    word m' p = word m p := by
  rw [word, word, h.load hP]

theorem word_setWord_other (m : Memory Byte) {p q : Nat} (v : Nat) (h : Apart q 4 p 4) :
    word (setWord m p v) q = word m q :=
  word_changes (changes_setWord m p v) fun _ hi => h.not_within hi

/-- `field` points to `p`, where the bytes stand behind their size. -/
structure Field (m : Memory Byte) (field p : Nat) (bs : List Byte) : Prop where
  ptr : word m field = p
  size : word m p = bs.length
  bytes : load m (p + sizeofSizeT) bs.length = bs

variable {field p : Nat} {bs : List Byte}

theorem Field.changes (h : Field m field p bs) (hc : Changes P m m')
    (hptr : ∀ i, Within field 4 i → ¬P i)
    (hbytes : ∀ i, Within p (sizeofSizeT + bs.length) i → ¬P i) : Field m' field p bs where
  ptr := (word_changes hc hptr).trans h.ptr
  size := by
    rw [word_changes hc fun i hi => hbytes i (hi.sub (Nat.le_refl p) ?_)]
    · exact h.size
    · simp only [sizeofSizeT]
      omega
  bytes := by
    rw [hc.load fun i hi => hbytes i (hi.sub (Nat.le_add_right p _) ?_)]
    · exact h.bytes
    · omega

theorem setBytes_field (hp : word m field = p) (hlen : bs.length < 2 ^ 32)
    (hapart : Apart field 4 p (sizeofSizeT + bs.length)) :
    Field (setBytes m field bs) field p bs ∧
      Changes (Within p (sizeofSizeT + bs.length)) m (setBytes m field bs) := by
  have hfield : Apart field 4 p 4 :=
    hapart.sub (Nat.le_refl _) (Nat.le_refl _) (Nat.le_refl _) (by simp only [sizeofSizeT]; omega)
  have hptr : word (setWord m p bs.length) field = p := by
    rw [word_setWord_other _ _ hfield]
    exact hp
  have heq : setBytes m field bs =
      store (setWord m p bs.length) (p + sizeofSizeT) bs := by
    simp [setBytes, hp, hptr]
  have hstore := changes_store (setWord m p bs.length) (p + sizeofSizeT) bs
  rw [heq]
  refine ⟨⟨?_, ?_, load_store_same _ _ _⟩, ?_⟩
  · rw [word_changes hstore, hptr]
    intro i hi hin
    exact hapart.not_within hi (hin.sub (Nat.le_add_right p _) (by omega))
  · rw [word_changes hstore, word_setWord _ _ hlen]
    rintro i ⟨-, h2⟩ ⟨h3, -⟩
    simp only [sizeofSizeT] at h3
    omega
  · refine Changes.trans ((changes_setWord m p bs.length).mono fun i hi => ?_)
      (hstore.mono fun i hi => ?_)
    · exact hi.sub (Nat.le_refl p) (by simp only [sizeofSizeT]; omega)
    · exact hi.sub (Nat.le_add_right p _) (by omega)

structure Entry where
  slot : Nat
  key : List Byte
  data : List Byte

def Entry.size (e : Entry) : Nat := tupleSize e.key e.data

def Entry.dataPtr (e : Entry) : Nat := e.slot + sizeofTLL + e.key.length + sizeofSizeT

def slots (l : List Entry) : List Nat := l.map Entry.slot

structure Entry.Stored (e : Entry) (m : Memory Byte) : Prop where
  key : Field m (e.slot + keyAt) (e.slot + sizeofTLL) e.key
  data : Field m (e.slot + dataAt) e.dataPtr e.data

def LinkOf (a i : Nat) : Prop := Within (a + prevAt) 12 i

def ControlOf (a i : Nat) : Prop := Within (a + statusAt) 16 i

theorem LinkOf.control {a i : Nat} (h : LinkOf a i) : ControlOf a i :=
  h.sub (by simp only [statusAt, prevAt]; omega) (by simp only [statusAt, prevAt]; omega)

variable {e : Entry} {malloc : Malloc}

theorem Entry.Stored.changes (h : e.Stored m) (hc : Changes P m m')
    (hP : ∀ i, Within e.slot e.size i → ¬ControlOf e.slot i → ¬P i) : e.Stored m' := by
  have hin : ∀ a n, e.slot ≤ a → a + n ≤ e.slot + e.size →
      (a + n ≤ e.slot + 48 ∨ e.slot + 64 ≤ a) → ∀ i, Within a n i → ¬P i := by
    rintro a n h1 h2 h3 i hi
    refine hP i (hi.sub h1 h2) ?_
    rintro ⟨h4, h5⟩
    obtain ⟨h6, h7⟩ := hi
    simp only [statusAt] at h4 h5
    omega
  simp only [Entry.size, tupleSize, sizeofTLL, sizeofSizeT] at hin
  constructor
  · apply h.key.changes hc <;> apply hin <;>
      simp only [keyAt, sizeofTLL, sizeofSizeT] <;> omega
  · apply h.data.changes hc <;> apply hin <;>
      simp only [dataAt, Entry.dataPtr, sizeofTLL, sizeofSizeT] <;> omega

theorem readTuple_stored (h : e.Stored m) (hkey : e.key.length ≤ returnSize)
    (hdata : e.data.length + 4 ≤ returnSize) (out : Memory Byte) :
    readTuple m out e.slot = some (e.key, e.data) := by
  simp only [readTuple, h.key.ptr, h.key.size, h.key.bytes, h.data.ptr, h.data.size,
    h.data.bytes]
  rw [if_pos ⟨by omega, hdata⟩]
  congr 2
  · rw [load_store_other (Or.inl (by omega)), load_store_other (Or.inl (by omega))]
    exact load_store_same _ _ _
  · rw [load_store_other (Or.inl (Nat.le_refl _))]
    exact load_store_same _ _ _

theorem setPointers_spec (m : Memory Byte) (h : e.slot + e.size ≤ 2 ^ 32) :
    word (setPointers m e.slot e.key) (e.slot + keyAt) = e.slot + sizeofTLL ∧
      word (setPointers m e.slot e.key) (e.slot + dataAt) = e.dataPtr ∧
      Changes (Within e.slot 28) m (setPointers m e.slot e.key) := by
  simp only [Entry.size, tupleSize, sizeofTLL, sizeofSizeT] at h
  refine ⟨?_, ?_, ?_⟩
  · rw [setPointers, word_setWord_other _ _ (Or.inl (by simp only [keyAt, dataAt]; omega))]
    exact word_setWord _ _ (by simp only [sizeofTLL]; omega)
  · exact word_setWord _ _ (by simp only [sizeofTLL, sizeofSizeT]; omega)
  · refine Changes.trans ((changes_setWord _ _ _).mono fun i hi => ?_)
      ((changes_setWord _ _ _).mono fun i hi => ?_)
    · exact hi.sub (Nat.le_add_right _ _) (by simp only [keyAt]; omega)
    · exact hi.sub (Nat.le_add_right _ _) (by simp only [dataAt]; omega)

theorem setFields_spec (m : Memory Byte) (h : e.slot + e.size ≤ 2 ^ 32) :
    let m₁ := setBytes (setPointers m e.slot e.key) (e.slot + keyAt) e.key
    e.Stored (setBytes m₁ (e.slot + dataAt) e.data) ∧
      Changes (Within e.slot e.size) m (setBytes m₁ (e.slot + dataAt) e.data) := by
  intro m₁
  obtain ⟨hkeyPtr, hdataPtr, hset⟩ := setPointers_spec m h
  simp only [Entry.size, tupleSize, sizeofTLL, sizeofSizeT] at h
  obtain ⟨hkey, hkeyC⟩ := setBytes_field hkeyPtr (by omega : e.key.length < 2 ^ 32)
    (Or.inl (by simp only [keyAt, sizeofTLL]; omega))
  have hdataPtr₁ : word m₁ (e.slot + dataAt) = e.dataPtr := by
    rw [word_changes hkeyC, hdataPtr]
    rintro i ⟨-, h2⟩ ⟨h3, -⟩
    simp only [dataAt, sizeofTLL] at h2 h3
    omega
  obtain ⟨hdata, hdataC⟩ := setBytes_field hdataPtr₁ (by omega : e.data.length < 2 ^ 32)
    (Or.inl (by simp only [Entry.dataPtr, dataAt, sizeofTLL, sizeofSizeT]; omega))
  refine ⟨⟨hkey.changes hdataC ?_ ?_, hdata⟩, (hset.mono ?_).trans ((hkeyC.mono ?_).trans
    (hdataC.mono ?_))⟩
  · rintro i ⟨-, h2⟩ ⟨h3, -⟩
    simp only [Entry.dataPtr, keyAt, sizeofTLL, sizeofSizeT] at h2 h3
    omega
  · rintro i ⟨-, h2⟩ ⟨h3, -⟩
    simp only [Entry.dataPtr, sizeofTLL, sizeofSizeT] at h2 h3
    omega
  · intro i hi
    refine hi.sub (Nat.le_refl _) ?_
    simp only [Entry.size, tupleSize, sizeofTLL, sizeofSizeT]
    omega
  · intro i hi
    refine hi.sub (Nat.le_add_right _ _) ?_
    simp only [Entry.size, tupleSize, sizeofTLL, sizeofSizeT]
    omega
  · intro i hi
    refine hi.sub ?_ ?_ <;>
      simp only [Entry.dataPtr, Entry.size, tupleSize, sizeofTLL, sizeofSizeT] <;> omega

theorem fill_stored (s : Rel) (h : e.slot + e.size ≤ 2 ^ 32) :
    e.Stored (s.fill e.slot e.key e.data).mem ∧
      Changes (Within e.slot e.size) s.mem (s.fill e.slot e.key e.data).mem := by
  obtain ⟨hstored, hchanges⟩ := setFields_spec s.mem h
  generalize hm : setBytes (setBytes (setPointers s.mem e.slot e.key) (e.slot + keyAt) e.key)
    (e.slot + dataAt) e.data = m at hstored hchanges
  have heq : (s.fill e.slot e.key e.data).mem =
      setWord (store m (e.slot + statusAt) [0]) (e.slot + hchainAt) 0 := by
    rw [← hm]
    rfl
  have hstatus := changes_store m (e.slot + statusAt) [0]
  have hchain := changes_setWord (store m (e.slot + statusAt) [0]) (e.slot + hchainAt) 0
  have hsize : 72 ≤ e.size := by
    simp only [Entry.size, tupleSize, sizeofTLL, sizeofSizeT]
    omega
  rw [heq]
  refine ⟨(hstored.changes hstatus ?_).changes hchain ?_, hchanges.trans ((hstatus.mono ?_).trans
    (hchain.mono ?_))⟩
  · intro i _ hcontrol hin
    exact hcontrol (hin.sub (Nat.le_refl _) (by simp only [List.length_singleton]; omega))
  · intro i _ hcontrol hin
    exact hcontrol (hin.sub (by simp only [statusAt, hchainAt]; omega)
      (by simp only [statusAt, hchainAt]; omega))
  · intro i hi
    exact hi.sub (Nat.le_add_right _ _) (by simp only [statusAt, List.length_singleton]; omega)
  · intro i hi
    exact hi.sub (Nat.le_add_right _ _) (by simp only [hchainAt]; omega)

def Buffer.IsSlot (p : Buffer) (a : Nat) : Prop :=
  ∃ q ∈ p.page :: p.pages, ∃ i < pageItems, a = q + i * p.itemSize

def Buffer.Given (p : Buffer) (a : Nat) : Prop :=
  (∃ q ∈ p.pages, ∃ i < pageItems, a = q + i * p.itemSize) ∨
    ∃ i, i * p.itemSize < p.pageOffset ∧ a = p.page + i * p.itemSize

structure Buffer.Sized (p : Buffer) : Prop where
  item : sizeofTLL ≤ p.itemSize
  page : p.pageSize = pageItems * p.itemSize
  offset : ∃ k ≤ pageItems, p.pageOffset = k * p.itemSize
  blocks : Blocks (2 ^ 32) p.blocks

variable {b : Buffer} {a c q : Nat}

theorem Buffer.Sized.pos (h : b.Sized) : 0 < b.itemSize :=
  Nat.lt_of_lt_of_le (by decide) h.item

theorem Buffer.page_mem (h : q ∈ b.page :: b.pages) : (q, b.pageSize) ∈ b.blocks :=
  List.mem_append_left _ (List.mem_map_of_mem h)

theorem Buffer.freePage_mem (h : q ∈ b.freePage :: b.freePages) :
    (q, freeItems * 4) ∈ b.blocks :=
  List.mem_append_right _ (List.mem_map_of_mem h)

theorem Buffer.Sized.page_fresh (h : b.Sized) : b.page ∉ b.pages := by
  intro hmem
  have hne : b.pageSize ≠ 0 := by
    rw [h.page]
    exact Nat.mul_ne_zero (by decide) h.pos.ne'
  have hself : Block.Apart (b.page, b.pageSize) (b.page, b.pageSize) :=
    (List.pairwise_cons.mp h.blocks.apart).1 _
      (List.mem_append_left _ (List.mem_map_of_mem hmem))
  rcases hself with hself | hself <;> simp only at hself <;> omega

theorem Buffer.Given.isSlot (hs : b.Sized) (h : b.Given a) : b.IsSlot a := by
  rcases h with ⟨q, hq, i, hi, rfl⟩ | ⟨i, hi, rfl⟩
  · exact ⟨q, List.mem_cons_of_mem _ hq, i, hi, rfl⟩
  · refine ⟨b.page, List.mem_cons_self, i, ?_, rfl⟩
    obtain ⟨k, hk, hoff⟩ := hs.offset
    rw [hoff] at hi
    exact (Nat.lt_of_mul_lt_mul_right hi).trans_le hk

theorem Buffer.IsSlot.bound (hs : b.Sized) (h : b.IsSlot a) :
    0 < a ∧ a + b.itemSize ≤ 2 ^ 32 := by
  obtain ⟨q, hq, i, hi, rfl⟩ := h
  obtain ⟨hpos, hle⟩ := hs.blocks.bound _ (Buffer.page_mem hq)
  have hin := mul_add_le (n := b.itemSize) hi
  rw [← hs.page] at hin
  omega

theorem Buffer.IsSlot.apart (hs : b.Sized) (ha : b.IsSlot a) (hc : b.IsSlot c) (hne : a ≠ c) :
    Apart a b.itemSize c b.itemSize := by
  obtain ⟨q, hq, i, hi, rfl⟩ := ha
  obtain ⟨r, hr, j, hj, rfl⟩ := hc
  by_cases hqr : q = r
  · subst hqr
    exact apart_mul fun h => hne (by rw [h])
  · have hb := hs.blocks.of_mem (Buffer.page_mem hq) (Buffer.page_mem hr)
      (fun h => hqr (congrArg Prod.fst h))
    have hini := mul_add_le (n := b.itemSize) hi
    have hinj := mul_add_le (n := b.itemSize) hj
    rw [← hs.page] at hini hinj
    exact hb.sub (Nat.le_add_right _ _) (by omega) (Nat.le_add_right _ _)
      (by omega)

theorem Buffer.IsSlot.apart_free (hs : b.Sized) (ha : b.IsSlot a)
    (hq : q ∈ b.freePage :: b.freePages) : Apart a b.itemSize q (freeItems * 4) := by
  obtain ⟨r, hr, i, hi, rfl⟩ := ha
  have hin := mul_add_le (n := b.itemSize) hi
  rw [← hs.page] at hin
  have hapart : Block.Apart (r, b.pageSize) (q, freeItems * 4) :=
    (List.pairwise_append.mp hs.blocks.apart).2.2 _ (List.mem_map_of_mem hr) _
      (List.mem_map_of_mem hq)
  exact hapart.sub (Nat.le_add_right _ _) (by omega) (Nat.le_refl _) (Nat.le_refl _)

/-- The first `k` words of a free page, the last one first. -/
def pageWords (m : Memory Byte) (q k : Nat) : List Nat :=
  (List.range k).reverse.map fun i => word m (q + 4 * i)

def Buffer.freeWords (m : Memory Byte) (b : Buffer) : List Nat :=
  pageWords m b.freePage b.freePageOffset ++ b.freePages.flatMap fun q => pageWords m q freeItems

theorem pageWords_succ (m : Memory Byte) (q k : Nat) :
    pageWords m q (k + 1) = word m (q + 4 * k) :: pageWords m q k := by
  rw [pageWords, List.range_succ, List.reverse_append]
  rfl

theorem pageWords_full (m : Memory Byte) (q : Nat) : pageWords m q freeItems =
    word m (q + 4 * (freeItems - 1)) :: pageWords m q (freeItems - 1) :=
  pageWords_succ m q (freeItems - 1)

theorem pageWords_congr {k : Nat} (hk : k ≤ freeItems) (hc : Changes P m m')
    (hP : ∀ i, Within q (freeItems * 4) i → ¬P i) : pageWords m' q k = pageWords m q k := by
  apply List.map_congr_left
  intro i hi
  have hik : i < k := List.mem_range.mp (List.mem_reverse.mp hi)
  apply word_changes hc
  intro j hj
  exact hP j (hj.sub (Nat.le_add_right _ _) (by omega))

structure Buffer.Holds (m : Memory Byte) (b : Buffer) (used free : List Nat) : Prop
    extends Buffer.Sized b where
  nodup : (used ++ free).Nodup
  given : ∀ a ∈ used ++ free, b.Given a
  freeOffset : b.freePageOffset ≤ freeItems
  freeWords : b.freeWords m = free

variable {used free : List Nat}

theorem Buffer.Holds.isSlot (h : b.Holds m used free) (ha : a ∈ used) : b.IsSlot a :=
  (h.given a (List.mem_append_left _ ha)).isSlot h.toSized

theorem Buffer.Holds.changes (h : b.Holds m used free) (hc : Changes P m m')
    (hP : ∀ q ∈ b.freePage :: b.freePages, ∀ i, Within q (freeItems * 4) i → ¬P i) :
    b.Holds m' used free where
  toSized := h.toSized
  nodup := h.nodup
  given := h.given
  freeOffset := h.freeOffset
  freeWords := by
    have hrest : b.freePages.flatMap (fun q => pageWords m' q freeItems) =
        b.freePages.flatMap fun q => pageWords m q freeItems :=
      List.flatMap_congr fun q hq =>
        pageWords_congr (Nat.le_refl _) hc (hP q (List.mem_cons_of_mem _ hq))
    rw [← h.freeWords, Buffer.freeWords, Buffer.freeWords, hrest,
      pageWords_congr h.freeOffset hc (hP _ List.mem_cons_self)]

theorem checkFreeBuffer_nil (h : b.Holds m used []) : checkFreeBuffer m b = (0, b) := by
  have hw := h.freeWords
  rw [Buffer.freeWords, List.append_eq_nil_iff] at hw
  rw [checkFreeBuffer]
  cases hoff : b.freePageOffset with
  | succ k =>
    rw [hoff, pageWords_succ] at hw
    cases hw.1
  | zero =>
    cases hpages : b.freePages with
    | nil => rfl
    | cons q qs =>
      rw [hpages, List.flatMap_cons, pageWords_full] at hw
      cases hw.2

theorem checkFreeBuffer_cons (h : b.Holds m used (a :: free)) :
    ∃ b', checkFreeBuffer m b = (a, b') ∧ b'.Holds m (used ++ [a]) free ∧
      b'.itemSize = b.itemSize := by
  have hw := h.freeWords
  have hnodup : (used ++ [a] ++ free).Nodup := by
    rw [List.append_assoc]
    exact h.nodup
  have hgiven : ∀ c ∈ used ++ [a] ++ free, b.Given c := by
    rw [List.append_assoc]
    exact h.given
  rw [Buffer.freeWords] at hw
  rw [checkFreeBuffer]
  cases hoff : b.freePageOffset with
  | succ k =>
    rw [hoff, pageWords_succ, List.cons_append, List.cons.injEq] at hw
    refine ⟨{ b with freePageOffset := k }, ?_, ?_, rfl⟩
    · rw [if_pos (Nat.succ_pos k), Nat.add_sub_cancel, hw.1]
    · have hk := hoff ▸ h.freeOffset
      exact ⟨⟨h.item, h.page, h.offset, h.blocks⟩, hnodup, hgiven, (Nat.le_succ k).trans hk, hw.2⟩
  | zero =>
    rw [hoff] at hw
    cases hpages : b.freePages with
    | nil =>
      rw [hpages] at hw
      cases hw
    | cons q qs =>
      rw [hpages, List.flatMap_cons, pageWords_full] at hw
      obtain ⟨hword, hrest⟩ := List.cons.inj hw
      refine ⟨{ b with freePage := q, freePages := qs, freePageOffset := freeItems - 1 }, ?_, ?_,
        rfl⟩
      · rw [if_neg (Nat.lt_irrefl 0), ← hword]
      · have hsub : Blocks (2 ^ 32) ((b.page :: b.pages).map (fun q => (q, b.pageSize)) ++
            (q :: qs).map fun q => (q, freeItems * 4)) := by
          apply h.blocks.sublist
          rw [Buffer.blocks, hpages]
          exact List.Sublist.append_left (List.sublist_cons_self _ _) _
        exact ⟨⟨h.item, h.page, h.offset, hsub⟩, hnodup, hgiven, Nat.sub_le _ _, hrest⟩

theorem nextSlot_holds (h : b.Holds m used []) (hlt : b.pageOffset ≠ b.pageSize) :
    (nextSlot b).2.Holds m (used ++ [(nextSlot b).1]) [] ∧ (nextSlot b).1 ∉ used ∧
      (nextSlot b).2.itemSize = b.itemSize := by
  obtain ⟨k, hk, hoff⟩ := h.offset
  have hpos := h.pos
  have hk : k < pageItems := by
    rcases Nat.lt_or_eq_of_le hk with hk | hk
    · exact hk
    · exact absurd (by rw [hoff, hk, h.page]) hlt
  have hle := mul_add_le (n := b.itemSize) hk
  have hsize : b.pageSize < 2 ^ 32 := by
    obtain ⟨h1, h2⟩ := h.blocks.bound _ (Buffer.page_mem List.mem_cons_self)
    omega
  have hnext : (nextSlot b).2.pageOffset = (k + 1) * b.itemSize := by
    rw [nextSlot, hoff, Nat.succ_mul]
    exact Nat.mod_eq_of_lt (by rw [h.page] at hsize; omega)
  have hslot : (nextSlot b).1 = b.page + k * b.itemSize := by
    rw [nextSlot, hoff]
  have hnot : ¬b.Given (nextSlot b).1 := by
    rintro (⟨q, hq, i, hi, he⟩ | ⟨i, hi, he⟩)
    · have hne : (q, b.pageSize) ≠ (b.page, b.pageSize) := by
        intro heq
        obtain rfl : q = b.page := congrArg Prod.fst heq
        exact h.page_fresh hq
      have hb := h.blocks.of_mem (Buffer.page_mem (List.mem_cons_of_mem _ hq))
        (Buffer.page_mem List.mem_cons_self) hne
      have hini := mul_add_le (n := b.itemSize) hi
      rw [← h.page] at hini hle
      rcases hb with hb | hb <;> simp only at hb <;> omega
    · omega
  have hmono : ∀ c, b.Given c → (nextSlot b).2.Given c := by
    rintro c (hc | ⟨i, hi, hc⟩)
    · exact Or.inl hc
    · refine Or.inr ⟨i, ?_, hc⟩
      rw [hnext, Nat.succ_mul]
      exact Nat.lt_of_lt_of_le hi (by omega)
  have hused : (nextSlot b).1 ∉ used := fun hu => hnot (h.given _ (List.mem_append_left _ hu))
  have hnd : used.Nodup := by
    have hn := h.nodup
    rwa [List.append_nil] at hn
  refine ⟨⟨⟨h.item, h.page, ⟨k + 1, hk, hnext⟩, h.blocks⟩, ?_, ?_, h.freeOffset, h.freeWords⟩,
    hused, rfl⟩
  · rw [List.append_nil]
    exact List.nodup_append.mpr ⟨hnd, List.nodup_singleton _, fun c hc d hd he =>
      hused (List.mem_singleton.mp hd ▸ he ▸ hc)⟩
  · intro c hc
    rw [List.append_nil] at hc
    rcases List.mem_append.mp hc with hc | hc
    · exact hmono c (h.given c (List.mem_append_left _ hc))
    · rw [List.mem_singleton.mp hc, hslot]
      refine Or.inr ⟨k, ?_, rfl⟩
      rw [hnext, Nat.succ_mul]
      exact Nat.lt_add_of_pos_right hpos

theorem newPage_holds (hm : malloc.Sound (2 ^ 32)) (h : b.Holds m used [])
    (hfull : b.pageOffset = b.pageSize) {page : Nat}
    (hpage : malloc b.blocks b.pageSize = some page) :
    Buffer.Holds m { b with page, pages := b.page :: b.pages, pageOffset := 0 } used [] := by
  have hgiven : ∀ c, b.Given c →
      Buffer.Given { b with page, pages := b.page :: b.pages, pageOffset := 0 } c := by
    rintro c (⟨q, hq, hc⟩ | ⟨i, hi, hc⟩)
    · exact Or.inl ⟨q, List.mem_cons_of_mem _ hq, hc⟩
    · refine Or.inl ⟨b.page, List.mem_cons_self, i, ?_, hc⟩
      rw [hfull, h.page] at hi
      exact Nat.lt_of_mul_lt_mul_right hi
  exact ⟨⟨h.item, h.page, ⟨0, Nat.zero_le _, (Nat.zero_mul _).symm⟩, h.blocks.cons hm hpage⟩,
    h.nodup, fun c hc => hgiven c (h.given c hc), h.freeOffset, h.freeWords⟩

theorem allocateBuffer_holds (hm : malloc.Sound (2 ^ 32)) (h : b.Holds m used free) {tuple : Nat}
    {b' : Buffer} (halloc : allocateBuffer malloc m b = .ok (tuple, b')) :
    b'.Holds m (used ++ [tuple]) free.tail ∧ tuple ∉ used ∧ b'.itemSize = b.itemSize := by
  cases free with
  | cons c free =>
    have hc : 0 < c := ((h.given c (by simp)).isSlot h.toSized).bound h.toSized |>.1
    obtain ⟨b₁, hcheck, hholds, hitem⟩ := checkFreeBuffer_cons h
    rw [allocateBuffer, hcheck] at halloc
    simp only [if_pos hc.ne'] at halloc
    cases halloc
    refine ⟨hholds, ?_, hitem⟩
    intro hu
    exact (List.nodup_append.mp h.nodup).2.2 tuple hu tuple List.mem_cons_self rfl
  | nil =>
    rw [allocateBuffer, checkFreeBuffer_nil h] at halloc
    simp only [ne_eq, not_true_eq_false, if_false] at halloc
    split at halloc
    · next hfull =>
      cases hpage : malloc b.blocks b.pageSize with
      | none =>
        rw [hpage] at halloc
        cases halloc
      | some page =>
        rw [hpage] at halloc
        cases halloc
        have hnew := newPage_holds hm h hfull hpage
        refine nextSlot_holds hnew ?_
        simp only [h.page]
        exact (Nat.mul_pos (by decide) h.pos).ne
    · next hlt =>
      cases halloc
      exact nextSlot_holds h hlt

theorem newBuffer_holds (hm : malloc.Sound (2 ^ 32)) {size : Nat} (hsize : sizeofTLL ≤ size)
    (hfit : pageItems * size < 2 ^ 32) (hnew : newBuffer malloc size = .ok b) :
    b.Holds m [] [] ∧ b.itemSize = size := by
  have hpage : size * pageItems % 2 ^ 32 = pageItems * size := by
    rw [Nat.mul_comm, Nat.mod_eq_of_lt hfit]
  have hitem : size % 2 ^ 32 = size := by
    simp only [pageItems] at hfit
    omega
  rw [newBuffer] at hnew
  simp only [hpage, hitem] at hnew
  cases h₁ : malloc [] (pageItems * size) with
  | none =>
    rw [h₁] at hnew
    cases hnew
  | some page =>
    cases h₂ : malloc [(page, pageItems * size)] (freeItems * 4) with
    | none =>
      simp only [h₁, h₂] at hnew
      cases hnew
    | some freePage =>
      simp only [h₁, h₂] at hnew
      cases hnew
      have hblocks := (Blocks.nil.cons hm h₁).cons hm h₂
      refine ⟨⟨⟨hsize, rfl, ⟨0, Nat.zero_le _, (Nat.zero_mul _).symm⟩,
        hblocks.perm (List.Perm.swap _ _ _)⟩, List.nodup_nil, ?_, Nat.zero_le _, rfl⟩, rfl⟩
      intro a ha
      cases ha

end Raw
end StreamMill.ImDb
