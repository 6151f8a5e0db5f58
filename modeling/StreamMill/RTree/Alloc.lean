import StreamMill.RTree.Split
import Mathlib.Data.Multiset.AddSub
import Mathlib.Data.Multiset.Range
import Mathlib.Data.Multiset.UnionInter

/-!
# StreamMill.RTree.Alloc

The free block chain and the allocation of blocks. `Alloc s used` says that the blocks `1 .. tb-1`
are the blocks of `used` and those of the free chain, each once; `get_newblock` moves a block from
the chain to `used`, `free_block` moves it back, and writing a used block leaves the chain alone.
-/

namespace StreamMill.RTree

/-- The free chain from `fb` runs through `l` and ends at `tb`. -/
def FreeChain (index : Nat → Page) (fb tb : Nat) : List Nat → Prop
  | [] => fb = tb
  | b :: l => fb = b ∧ ∃ next n, index b = .free next n ∧ FreeChain index next tb l

theorem FreeChain.congr {index index' : Nat → Page} {tb : Nat} {l : List Nat} :
    ∀ {fb : Nat}, FreeChain index fb tb l → (∀ b ∈ l, index' b = index b) →
      FreeChain index' fb tb l := by
  induction l with
  | nil => intro fb h _; exact h
  | cons b l ih =>
    rintro fb ⟨hb, next, n, hn, h⟩ heq
    refine ⟨hb, next, n, ?_, ih h fun b hb => heq b (List.mem_cons_of_mem _ hb)⟩
    rw [heq b (List.mem_cons_self), hn]

def blockNumbers (tb : Nat) : Multiset Nat := (List.range' 1 (tb - 1) : List Nat)

theorem mem_blockNumbers {tb b : Nat} : b ∈ blockNumbers tb ↔ 1 ≤ b ∧ b < tb := by
  simp only [blockNumbers, Multiset.mem_coe, List.mem_range'_1]
  omega

theorem blockNumbers_nodup (tb : Nat) : (blockNumbers tb).Nodup := by
  simpa [blockNumbers] using List.nodup_range'

theorem blockNumbers_succ {tb : Nat} (h : 1 ≤ tb) :
    blockNumbers (tb + 1) = tb ::ₘ blockNumbers tb := by
  obtain ⟨k, rfl⟩ : ∃ k, tb = k + 1 := ⟨tb - 1, by omega⟩
  simp only [blockNumbers, Nat.add_sub_cancel]
  rw [List.range'_concat, one_mul, Nat.add_comm 1 k]
  exact Multiset.coe_eq_coe.mpr (List.perm_append_singleton _ _)

def Alloc (s : State) (used : Multiset Nat) : Prop :=
  1 ≤ s.tbInd ∧ ∃ l, FreeChain s.index s.fbInd s.tbInd l ∧
    used + (l : Multiset Nat) = blockNumbers s.tbInd

namespace Alloc

variable {s s' : State} {used : Multiset Nat} {b : Nat}

section

variable (h : Alloc s used)
include h

theorem nodup : used.Nodup := by
  obtain ⟨_, l, _, heq⟩ := h
  have := blockNumbers_nodup s.tbInd
  rw [← heq] at this
  exact (Multiset.nodup_add.mp this).1

theorem mem (hb : b ∈ used) : 1 ≤ b ∧ b < s.tbInd := by
  obtain ⟨_, l, _, heq⟩ := h
  rw [← mem_blockNumbers, ← heq]
  exact Multiset.mem_add.mpr (.inl hb)

theorem fbInd_ne (hb : b ∈ used) :
    s.fbInd ≠ b := by
  have hlt := (h.mem hb).2
  obtain ⟨-, l, hl, heq⟩ := h
  cases l with
  | nil =>
    have hl : s.fbInd = s.tbInd := hl
    omega
  | cons c l =>
    obtain ⟨hc, -⟩ := hl
    have hnd := blockNumbers_nodup s.tbInd
    rw [← heq, Multiset.nodup_add] at hnd
    rintro rfl
    exact Multiset.disjoint_left.mp hnd.2.2 hb (by simp [hc])

theorem card_lt : used.card < s.tbInd := by
  obtain ⟨h1, l, _, heq⟩ := h
  have := congrArg Multiset.card heq
  simp [blockNumbers] at this
  omega

theorem congr (hfb : s'.fbInd = s.fbInd) (htb : s'.tbInd = s.tbInd)
    (hidx : ∀ b, b ∉ used → s'.index b = s.index b) : Alloc s' used := by
  obtain ⟨h1, l, hl, heq⟩ := h
  refine ⟨htb ▸ h1, l, ?_, htb ▸ heq⟩
  rw [hfb, htb]
  refine hl.congr fun b hb => hidx b fun hu => ?_
  have hnd := blockNumbers_nodup s.tbInd
  rw [← heq] at hnd
  exact Multiset.disjoint_left.mp (Multiset.nodup_add.mp hnd).2.2 hu (by simpa using hb)

theorem writeBlk (hb : b ∈ used) (n : Node) : Alloc (writeBlk s b n) used := by
  refine h.congr rfl rfl fun b' hb' => ?_
  have : b' ≠ b := fun e => hb' (e ▸ hb)
  simp [RTree.writeBlk, Function.update_of_ne this]

theorem getNewblock :
    ∃ b fb tb buf, getNewblock s = .ok (b, { s with fbInd := fb, tbInd := tb, buffer := buf }) ∧
      b ∉ used ∧ Alloc { s with fbInd := fb, tbInd := tb, buffer := buf } (b ::ₘ used) := by
  obtain ⟨h1, l, hl, heq⟩ := h
  have hnd := blockNumbers_nodup s.tbInd
  rw [← heq] at hnd
  cases l with
  | nil =>
    have hfb : s.fbInd = s.tbInd := hl
    refine ⟨s.fbInd, s.fbInd + 1, s.fbInd + 1, s.buffer, ?_, ?_, ?_⟩
    · simp [RTree.getNewblock, hfb]
    · intro hmem
      have : s.fbInd ∈ blockNumbers s.tbInd := by rw [← heq]; simpa using hmem
      rw [mem_blockNumbers] at this
      omega
    · refine ⟨Nat.le_add_left 1 _, [], rfl, ?_⟩
      rw [hfb, blockNumbers_succ h1, ← heq, Multiset.cons_add]
  | cons b l =>
    obtain ⟨hb, next, n, hn, hl⟩ := hl
    have hmem : b ∈ blockNumbers s.tbInd := by rw [← heq]; simp
    have hne : s.fbInd ≠ s.tbInd := by
      rw [mem_blockNumbers] at hmem; omega
    refine ⟨b, next, s.tbInd, n, ?_, ?_, ?_⟩
    · simp only [RTree.getNewblock, if_neg hne]
      rw [hb, hn]
    · intro hu
      exact Multiset.disjoint_left.mp (Multiset.nodup_add.mp hnd).2.2 hu (by simp)
    · refine ⟨h1, l, hl, ?_⟩
      rw [← heq, ← Multiset.cons_coe, Multiset.add_cons, Multiset.cons_add]

end

theorem freeBlock (h : Alloc s (b ::ₘ used)) (hb : b ≠ 1) :
    ∃ n, freeBlock s b 0 =
        .ok { s with index := Function.update s.index b (.free s.fbInd n), fbInd := b } ∧
      Alloc { s with index := Function.update s.index b (.free s.fbInd n), fbInd := b } used := by
  refine ⟨(s.index b).contents s.buffer, ?_, ?_⟩
  · simp [RTree.freeBlock, hb]; rfl
  · obtain ⟨h1, l, hl, heq⟩ := h
    refine ⟨h1, b :: l, ⟨rfl, s.fbInd, _, Function.update_self _ _ _, ?_⟩, ?_⟩
    · refine hl.congr fun b' hb' => Function.update_of_ne ?_ _ _
      rintro rfl
      have hnd := blockNumbers_nodup s.tbInd
      rw [← heq, Multiset.cons_add, Multiset.nodup_cons] at hnd
      exact hnd.1 (Multiset.mem_add.mpr (.inr (by simpa using hb')))
    · rw [← heq, ← Multiset.cons_coe, Multiset.add_cons, Multiset.cons_add]

end Alloc

theorem Node.entries_eq_slots (n : Node) : n.entries = slots n.counter n.items := rfl

theorem split_keys (itembuf : Nat → Item) (mbr : Rect) (ptr : Nat) {nd : Node} (e0 : Nat)
    (hfull : nd.counter = maxEntries) :
    ((List.range (maxEntries + 1)).map
      (afterSplit (fillItembuf itembuf mbr ptr nd) e0)).map Item.key =
      (mbr, ptr) :: nd.entries.map Item.key := by
  rw [List.map_map, List.range_succ_eq_map, List.map_cons, List.map_map]
  rw [Node.entries_eq_slots, slots, hfull, List.map_map]
  refine congrArg₂ List.cons ((afterSplit_key ..).trans (by simp [fillItembuf, Item.key])) ?_
  apply List.map_congr_left
  intro i hi
  have hi' := List.mem_range.mp hi
  simp only [Function.comp, afterSplit_key, fillItembuf]
  rw [if_pos (Nat.succ_le_of_lt hi')]
  rfl

/-- What `split_node` leaves behind when it splits a block with contents `nd`. -/
structure SplitOf (s : State) (nd : Node) (mbr : Rect) (ptr : Nat) (ty : NodeType)
    (used : Multiset Nat) (s' : State) : Prop where
  fresh0 : s'.blkno0 ∉ used
  fresh1 : s'.blkno1 ∉ used
  ne : s'.blkno0 ≠ s'.blkno1
  alloc : Alloc s' (s'.blkno0 ::ₘ s'.blkno1 ::ₘ used)
  index : s'.index = Function.update (Function.update s.index s'.blkno0 (.node s'.split0))
    s'.blkno1 (.node s'.split1)
  type0 : s'.split0.nodetype = ty
  type1 : s'.split1.nodetype = ty
  fill0 : 2 ≤ s'.split0.counter ∧ s'.split0.counter ≤ maxEntries
  fill1 : 2 ≤ s'.split1.counter ∧ s'.split1.counter ≤ maxEntries
  cover0 : ∀ it ∈ s'.split0.entries, Covers s'.coverr0 it.rect
  cover1 : ∀ it ∈ s'.split1.entries, Covers s'.coverr1 it.rect
  items : (s'.split0.entries ++ s'.split1.entries).Perm
    ((List.range (maxEntries + 1)).map
      (afterSplit (fillItembuf s.itembuf mbr ptr nd)
        (pickSeeds (fillItembuf s.itembuf mbr ptr nd) (maxEntries + 1)).1))
  m : s'.m = s.m
  lptr : s'.lptr = s.lptr
  clears : (s'.itembuf 0).del = true → (s.itembuf 0).del = true

theorem SplitOf.keys {s s' : State} {nd : Node} {mbr : Rect} {ptr : Nat} {ty : NodeType}
    {used : Multiset Nat} (h : SplitOf s nd mbr ptr ty used s') (hfull : nd.counter = maxEntries) :
    (s'.split0.entries.map Item.key ++ s'.split1.entries.map Item.key).Perm
      ((mbr, ptr) :: nd.entries.map Item.key) := by
  rw [← List.map_append]
  exact (h.items.map Item.key).trans (.of_eq (split_keys _ _ _ _ hfull))

section

variable (old : Node) (ty : NodeType) (num : Nat) (items : Nat → Item) (next prev : Nat)
include old ty num items next prev

@[simp] theorem splitBlock_counter : (splitBlock old ty num items next prev).counter = num := by
  cases ty <;> rfl

@[simp] theorem splitBlock_nodetype : (splitBlock old ty num items next prev).nodetype = ty := by
  cases ty <;> rfl

@[simp] theorem splitBlock_items : (splitBlock old ty num items next prev).items = items := by
  cases ty <;> rfl

theorem splitBlock_entries : (splitBlock old ty num items next prev).entries = slots num items := by
  cases ty <;> rfl

end

theorem splitBlock_leaf (old : Node) (num : Nat) (items : Nat → Item) (next prev : Nat) :
    (splitBlock old .leaf num items next prev).nextlptr = next ∧
      (splitBlock old .leaf num items next prev).prevlptr = prev := ⟨rfl, rfl⟩

theorem splitNode_ok {s : State} {cur : Nat} {nd : Node} {used : Multiset Nat}
    (hread : peekBlk s cur = .ok nd) (hm : s.m = 2) (ha : Alloc s used) (mbr : Rect) (ptr : Nat)
    (ty : NodeType) (ptr0 ptr1 : Nat) :
    ∃ s', splitNode s cur mbr ptr ty ptr0 ptr1 = .ok s' ∧ SplitOf s nd mbr ptr ty used s' ∧
      (ty = .leaf → s'.split0.nextlptr = s'.blkno1 * blockSz ∧ s'.split0.prevlptr = ptr0 ∧
        s'.split1.nextlptr = ptr1 ∧ s'.split1.prevlptr = s'.blkno0 * blockSz) := by
  obtain ⟨g, hg, hG, hperm⟩ :=
    grouping_ok { s with buffer := nd } (fillItembuf s.itembuf mbr ptr nd)
  have ha1 : Alloc { s with buffer := nd, itembuf := g.itembuf, coverr0 := g.coverr0,
                            coverr1 := g.coverr1 } used := ha.congr rfl rfl fun _ _ => rfl
  obtain ⟨b0, fb, tb, buf, hb0, hfresh0, ha2⟩ := ha1.getNewblock
  obtain ⟨b1, fb', tb', buf', hb1, hfresh1, ha3⟩ := ha2.getNewblock
  have hread' : readBlk s cur = .ok { s with buffer := nd } := by
    simp only [readBlk, hread, ok_bind]; rfl
  have hne : b0 ≠ b1 := by
    rintro rfl; exact hfresh1 (Multiset.mem_cons_self _ _)
  have hfill := hG.fill rfl
  have hcount := hG.count
  let split0 := splitBlock s.split0 ty g.num0 g.items0 (b1 * blockSz) ptr0
  let split1 := splitBlock s.split1 ty g.num1 g.items1 ptr1 (b0 * blockSz)
  refine ⟨{ fbInd := fb', tbInd := tb', lptr := s.lptr, m := s.m, buffer := buf',
            index := Function.update (Function.update s.index b0 (.node split0)) b1 (.node split1),
            itembuf := g.itembuf, split0 := split0, split1 := split1, blkno0 := b0, blkno1 := b1,
            coverr0 := g.coverr0, coverr1 := g.coverr1 }, ?_, ?_, ?_⟩
  · rw [← hm] at hg
    unfold splitNode
    rw [hread', ok_bind]
    dsimp only
    rw [hg, ok_bind, hb0, ok_bind]
    rw [hb1]
    rfl
  · refine ⟨hfresh0, fun h => hfresh1 (Multiset.mem_cons_of_mem h), hne, ?_, rfl,
      splitBlock_nodetype .., splitBlock_nodetype .., ?_, ?_, ?_, ?_, ?_, rfl, rfl, ?_⟩
    · have ha4 := Multiset.cons_swap b0 b1 used ▸ ha3
      refine ha4.congr rfl rfl ?_
      · intro b hb
        simp only [Multiset.mem_cons, not_or] at hb
        show Function.update (Function.update s.index b0 _) b1 _ b = _
        rw [Function.update_of_ne hb.2.1, Function.update_of_ne hb.1]
    · rw [splitBlock_counter]; omega
    · rw [splitBlock_counter]; omega
    · rw [splitBlock_entries]; exact hG.cover0
    · rw [splitBlock_entries]; exact hG.cover1
    · rw [splitBlock_entries, splitBlock_entries]; exact hperm
    · exact hG.clears 0
  · rintro rfl
    have h0 := splitBlock_leaf s.split0 g.num0 g.items0 (b1 * blockSz) ptr0
    have h1 := splitBlock_leaf s.split1 g.num1 g.items1 ptr1 (b0 * blockSz)
    exact ⟨h0.1, h0.2, h1.1, h1.2⟩

end StreamMill.RTree
