import StreamMill.ImDb.RawRun

/-!
# StreamMill.ImDb.RawSlots

The slots of a buffer over any sequence of `allocateBuffer` and `freeBuffer` calls (`buffer.c`),
with the callers writing to the slots that they hold. The free pages are a stack (`freeBuffer_holds`
with `allocateBuffer_holds`), so that the slots in use stay apart, inside the pages, and are given
out again in the order they should be (`slots_right`). The size of a page is an `int`, which the
size of 256 slots must not exceed.
-/

namespace StreamMill.ImDb
namespace Raw

open Lib Lib.Memory

variable {malloc : Malloc} {m m' : Memory Byte} {b b' : Buffer} {used free : List Nat} {a q : Nat}

theorem pageWords_push (k : Nat) (ha : a < 2 ^ 32) :
    pageWords (setWord m (q + 4 * k) a) q (k + 1) = a :: pageWords m q k := by
  rw [pageWords_succ, word_setWord _ _ ha]
  congr 1
  apply List.map_congr_left
  intro i hi
  have hik : i < k := List.mem_range.mp (List.mem_reverse.mp hi)
  exact word_setWord_other _ _ (Or.inl (by omega))

theorem freeBuffer_holds (hm : malloc.Sound (2 ^ 32)) (h : b.Holds m used free) (ha : a ∈ used)
    (hfree : freeBuffer malloc m b a = .ok (m', b')) :
    b'.Holds m' (used.erase a) (a :: free) ∧ b'.itemSize = b.itemSize ∧
      b'.page = b.page ∧ b'.pages = b.pages := by
  have hbound := (h.isSlot ha).bound h.toSized
  have hlt : a < 2 ^ 32 := by
    have := h.pos
    omega
  have hperm : (used.erase a ++ a :: free).Perm (used ++ free) := by
    have hp := (List.perm_cons_erase ha).symm.append_right free
    exact List.perm_middle.trans hp
  have hnd : (used.erase a ++ a :: free).Nodup := hperm.nodup_iff.mpr h.nodup
  have hgiven : ∀ c ∈ used.erase a ++ a :: free, b.Given c :=
    fun c hc => h.given c (hperm.mem_iff.mp hc)
  have hoff := h.freeOffset
  rw [freeBuffer] at hfree
  split at hfree
  · next hfull =>
    cases hq : malloc b.blocks (freeItems * 4) with
    | none =>
      rw [hq] at hfree
      cases hfree
    | some q =>
      rw [hq] at hfree
      cases hfree
      obtain ⟨-, -, hapart⟩ := hm _ _ _ hq
      have hblocks : Blocks (2 ^ 32) ((b.page :: b.pages).map (fun q => (q, b.pageSize)) ++
          (q :: b.freePage :: b.freePages).map fun q => (q, freeItems * 4)) :=
        (h.blocks.cons hm hq).perm List.perm_middle.symm
      have hother : ∀ r ∈ b.freePage :: b.freePages,
          pageWords (setWord m q a) r freeItems = pageWords m r freeItems := by
        intro r hr
        refine pageWords_congr (Nat.le_refl _) (changes_setWord m q a) fun i hi hin => ?_
        have hqr : Apart q (freeItems * 4) r (freeItems * 4) :=
          hapart _ (Buffer.freePage_mem hr)
        exact hqr.not_within (hin.sub (Nat.le_refl q) (by simp only [freeItems]; omega)) hi
      have hone := pageWords_push (m := m) (q := q) 0 hlt
      rw [Nat.add_zero] at hone
      refine ⟨⟨⟨h.item, h.page, h.offset, hblocks⟩, hnd, hgiven, (by decide : 1 ≤ freeItems), ?_⟩,
        rfl, rfl, rfl⟩
      have hnil : pageWords m q 0 = [] := rfl
      rw [Buffer.freeWords]
      simp only [hone, hnil]
      rw [List.flatMap_congr hother, List.flatMap_cons, ← h.freeWords, Buffer.freeWords, hfull,
        List.cons_append, List.nil_append]
  · next hroom =>
    cases hfree
    have hk : b.freePageOffset < freeItems := Nat.lt_of_le_of_ne hoff hroom
    have hother : ∀ r ∈ b.freePages,
        pageWords (setWord m (b.freePage + 4 * b.freePageOffset) a) r freeItems =
          pageWords m r freeItems := by
      intro r hr
      refine pageWords_congr (Nat.le_refl _) (changes_setWord m _ a) fun i hi hin => ?_
      have hblocks := (List.pairwise_append.mp h.blocks.apart).2.1
      rw [List.map_cons, List.pairwise_cons] at hblocks
      have hqr : Apart b.freePage (freeItems * 4) r (freeItems * 4) :=
        hblocks.1 _ (List.mem_map_of_mem hr)
      exact hqr.not_within (hin.sub (Nat.le_add_right _ _) (by omega)) hi
    refine ⟨⟨⟨h.item, h.page, h.offset, h.blocks⟩, hnd, hgiven, hk, ?_⟩, rfl, rfl, rfl⟩
    rw [Buffer.freeWords]
    simp only [pageWords_push _ hlt]
    rw [List.flatMap_congr hother, ← h.freeWords]
    rfl

theorem allocateBuffer_last (h : b.Holds m used (a :: free)) {tuple : Nat}
    (halloc : allocateBuffer malloc m b = .ok (tuple, b')) : tuple = a := by
  have ha : 0 < a := ((h.given a (by simp)).isSlot h.toSized).bound h.toSized |>.1
  obtain ⟨b₁, hcheck, -⟩ := checkFreeBuffer_cons h
  rw [allocateBuffer, hcheck] at halloc
  simp only [if_pos ha.ne'] at halloc
  cases halloc
  rfl

inductive SlotCall where
  | allocate (tuple : Nat)
  | free (tuple : Nat)
  deriving DecidableEq

def inUse : List SlotCall → List Nat
  | [] => []
  | .allocate a :: h => inUse h ++ [a]
  | .free a :: h => (inUse h).erase a

def freed : List SlotCall → List Nat
  | [] => []
  | .allocate _ :: h => (freed h).tail
  | .free a :: h => a :: freed h

def Lifo : List SlotCall → Prop
  | [] => True
  | .allocate a :: h =>
    (∀ c ∈ (freed h).head?, a = c) ∧ (freed h = [] → .allocate a ∉ h) ∧ Lifo h
  | .free _ :: h => Lifo h

def allocations : List SlotCall → Nat
  | [] => 0
  | .allocate _ :: h => allocations h + 1
  | .free _ :: h => allocations h

def frees : List SlotCall → Nat
  | [] => 0
  | .allocate _ :: h => frees h
  | .free _ :: h => frees h + 1

/-- A buffer for slots of `size` bytes after some calls. Only slots in use are freed and written
to. -/
inductive SlotRun (malloc : Malloc) (size : Nat) : List SlotCall → Memory Byte → Buffer → Prop
  | new {m : Memory Byte} {b : Buffer} (hnew : newBuffer malloc size = .ok b) :
      SlotRun malloc size [] m b
  | allocate {h : List SlotCall} {m : Memory Byte} {b b' : Buffer} {a : Nat}
      (hrun : SlotRun malloc size h m b) (hcall : allocateBuffer malloc m b = .ok (a, b')) :
      SlotRun malloc size (.allocate a :: h) m b'
  | free {h : List SlotCall} {m m' : Memory Byte} {b b' : Buffer} {a : Nat}
      (hrun : SlotRun malloc size h m b) (ha : a ∈ inUse h)
      (hcall : freeBuffer malloc m b a = .ok (m', b')) : SlotRun malloc size (.free a :: h) m' b'
  | write {h : List SlotCall} {m m' : Memory Byte} {b : Buffer} (hrun : SlotRun malloc size h m b)
      (hstore : Changes (fun i => ∃ a ∈ inUse h, Within a size i) m m') :
      SlotRun malloc size h m' b

structure SlotsRight (size : Nat) (h : List SlotCall) (b : Buffer) : Prop where
  apart : (inUse h).Pairwise fun a c => Apart a size c size
  inside : ∀ a ∈ inUse h, ∃ q ∈ b.page :: b.pages, q ≤ a ∧ a + size ≤ q + b.pageSize
  lifo : Lifo h
  count : (inUse h).length + frees h = allocations h

variable {size : Nat} {h : List SlotCall}

theorem mem_of_allocate (h : List SlotCall) (ha : .allocate a ∈ h) (hlifo : Lifo h) :
    a ∈ inUse h ∨ a ∈ freed h := by
  induction h with
  | nil => cases ha
  | cons call h ih =>
    cases call with
    | allocate c =>
      obtain ⟨hlast, -, hlifo⟩ := hlifo
      rcases List.mem_cons.mp ha with heq | ha
      · cases heq
        exact .inl (List.mem_append_right _ (List.mem_singleton_self a))
      · rcases ih ha hlifo with hin | hin
        · exact .inl (List.mem_append_left _ hin)
        · cases hfreed : freed h with
          | nil =>
            rw [hfreed] at hin
            cases hin
          | cons d ds =>
            rw [hfreed] at hin hlast
            rw [freed, hfreed]
            rcases List.mem_cons.mp hin with rfl | hin
            · rw [hlast a rfl]
              exact .inl (List.mem_append_right _ (List.mem_singleton_self a))
            · exact .inr hin
    | free c =>
      have hne : SlotCall.allocate a ∈ h := (List.mem_cons.mp ha).resolve_left (by simp)
      by_cases hac : a = c
      · exact .inr (by rw [hac]; exact List.mem_cons_self)
      · rcases ih hne hlifo with hin | hin
        · exact .inl ((List.mem_erase_of_ne hac).mpr hin)
        · exact .inr (List.mem_cons_of_mem _ hin)

theorem slotRun_holds (hm : malloc.Sound (2 ^ 32)) (hsize : sizeofTLL ≤ size)
    (hfit : pageItems * size < 2 ^ 32) (hrun : SlotRun malloc size h m b) :
    b.Holds m (inUse h) (freed h) ∧ b.itemSize = size ∧ Lifo h ∧
      (inUse h).length + frees h = allocations h := by
  induction hrun with
  | new hnew =>
    obtain ⟨hb, hitem⟩ := newBuffer_holds hm hsize hfit hnew
    exact ⟨hb.changes Changes.refl fun _ _ _ _ => id, hitem, trivial, rfl⟩
  | @allocate h m b b' a hrun hcall ih =>
    obtain ⟨hb, hitem, hlifo, hcount⟩ := ih
    obtain ⟨hb', hfresh, hitem'⟩ := allocateBuffer_holds hm hb hcall
    refine ⟨hb', hitem'.trans hitem, ⟨?_, ?_, hlifo⟩, ?_⟩
    · intro c hc
      obtain ⟨ds, hds⟩ := List.head?_eq_some_iff.mp hc
      rw [hds] at hb
      exact allocateBuffer_last hb hcall
    · intro hnone hmem
      rcases mem_of_allocate h hmem hlifo with hin | hin
      · exact hfresh hin
      · rw [hnone] at hin
        cases hin
    · rw [inUse, List.length_append, List.length_singleton]
      simp only [frees, allocations]
      omega
  | @free h m m' b b' a hrun ha hcall ih =>
    obtain ⟨hb, hitem, hlifo, hcount⟩ := ih
    obtain ⟨hb', hitem', -⟩ := freeBuffer_holds hm hb ha hcall
    refine ⟨hb', hitem'.trans hitem, hlifo, ?_⟩
    have hpos := List.length_pos_of_mem ha
    rw [inUse, List.length_erase_of_mem ha]
    simp only [frees, allocations]
    omega
  | @write h m m' b hrun hstore ih =>
    obtain ⟨hb, hitem, hlifo, hcount⟩ := ih
    refine ⟨hb.changes hstore fun q hq i hi => ?_, hitem, hlifo, hcount⟩
    rintro ⟨a, ha, hin⟩
    rw [← hitem] at hin
    exact ((hb.isSlot ha).apart_free hb.toSized hq).not_within hin hi

/-- In every sequence of calls the slots are as they should be, when 256 of them are fewer than
2^32 bytes. -/
theorem slots_right (hm : malloc.Sound (2 ^ 32)) (hsize : sizeofTLL ≤ size)
    (hfit : pageItems * size < 2 ^ 32) (hrun : SlotRun malloc size h m b) :
    SlotsRight size h b := by
  obtain ⟨hb, rfl, hlifo, hcount⟩ := slotRun_holds hm hsize hfit hrun
  have hnd : (inUse h).Nodup := (List.nodup_append.mp hb.nodup).1
  refine ⟨hnd.imp_of_mem fun ha hc hne => ?_, fun a ha => ?_, hlifo, hcount⟩
  · exact (hb.isSlot ha).apart hb.toSized (hb.isSlot hc) hne
  · obtain ⟨q, hq, i, hi, rfl⟩ := hb.isSlot ha
    have hin := mul_add_le (n := b.itemSize) hi
    rw [← hb.page] at hin
    exact ⟨q, hq, Nat.le_add_right _ _, by omega⟩

/-- Two slots, of which the first one is freed and given out again. -/
theorem slots_right_reuse : ∃ m b, SlotRun bumpMalloc 72
    [.allocate 4096, .free 4096, .allocate 4168, .allocate 4096] m b ∧
    SlotsRight 72 [.allocate 4096, .free 4096, .allocate 4168, .allocate 4096] b := by
  have run : ∃ m b, SlotRun bumpMalloc 72
      [.allocate 4096, .free 4096, .allocate 4168, .allocate 4096] m b :=
    ⟨_, _, .allocate (.free (.allocate (.allocate (.new (m := fun _ => 0) rfl) rfl) rfl)
      (by decide) rfl) rfl⟩
  obtain ⟨m, b, run⟩ := run
  exact ⟨m, b, run, slots_right bumpMalloc_sound (by decide) (by decide) run⟩

/-- The size of a page of slots of 2^24 bytes is 0 as an `int`: the first slot lies on no page. -/
theorem bigSlot_not_slotsRight : ∃ m b, SlotRun bumpMalloc (2 ^ 24) [.allocate 8192] m b ∧
    ¬SlotsRight (2 ^ 24) [.allocate 8192] b := by
  obtain ⟨m, b, run, hpage⟩ : ∃ m b, SlotRun bumpMalloc (2 ^ 24) [.allocate 8192] m b ∧
      b.pageSize = 0 ∧ b.page :: b.pages = [8192, 4096] :=
    ⟨_, _, .allocate (.new (m := fun _ => 0) rfl) rfl, rfl, rfl⟩
  refine ⟨m, b, run, fun hright => ?_⟩
  obtain ⟨q, hq, hle, hin⟩ := hright.inside 8192 (by decide)
  rw [hpage.1] at hin
  rw [hpage.2] at hq
  simp only [List.mem_cons, List.not_mem_nil, or_false] at hq
  omega

end Raw
end StreamMill.ImDb
