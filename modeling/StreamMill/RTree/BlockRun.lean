import StreamMill.RTree.LeafWalk

/-!
# StreamMill.RTree.BlockRun

The life of a block: `get_newblock` takes it into use, it is read and written, `free_block` gives
it back. `BlockStep` is one such step, with the multiset of the blocks in use beside the state.

* `BlockRun.alloc`: a run of steps keeps the account of the blocks.
* `insertRtreeAux_run`: an insertion is a run of steps, and after it the blocks in use are those of
  the tree.
-/

namespace StreamMill.RTree

open Lib

variable {s : State}

abbrev Blocks := State × Multiset Nat

/-- The leaf links of block `b`, if it is a leaf, lead to blocks in use. -/
def LinksIn (s : State) (used : Multiset Nat) (b : Nat) : Prop :=
  ∀ n, peekBlk s b = .ok n → n.nodetype = .leaf →
    (n.prevlptr ≠ 0 → n.prevlptr / blockSz ∈ used) ∧
      (n.nextlptr ≠ 0 → n.nextlptr / blockSz ∈ used)

structure WritesIn (used : Multiset Nat) (s s' : State) : Prop where
  fbInd : s'.fbInd = s.fbInd
  tbInd : s'.tbInd = s.tbInd
  index : ∀ b, b ∉ used → s'.index b = s.index b

namespace WritesIn

variable {s₁ s₂ s₃ s' : State} {used : Multiset Nat} {b ptr : Nat} {n : Node}

theorem refl : WritesIn used s s := ⟨rfl, rfl, fun _ _ => rfl⟩

theorem trans (h : WritesIn used s₁ s₂) (h' : WritesIn used s₂ s₃) : WritesIn used s₁ s₃ :=
  ⟨h'.fbInd.trans h.fbInd, h'.tbInd.trans h.tbInd,
    fun b hb => (h'.index b hb).trans (h.index b hb)⟩

theorem update {page : Page} (hb : b ∈ used) (hfb : s'.fbInd = s.fbInd) (htb : s'.tbInd = s.tbInd)
    (hidx : s'.index = Function.update s.index b page) : WritesIn used s s' := by
  refine ⟨hfb, htb, fun c hc => ?_⟩
  rw [hidx, Function.update_of_ne]
  rintro rfl
  exact hc hb

theorem buffers (hfb : s'.fbInd = s.fbInd) (htb : s'.tbInd = s.tbInd)
    (hidx : s'.index = s.index) : WritesIn used s s' := ⟨hfb, htb, fun _ _ => by rw [hidx]⟩

theorem writeBlkByPtr (h : writeBlkByPtr s ptr n = .ok s') (hp : ptr / blockSz ∈ used) :
    WritesIn used s s' := by
  unfold RTree.writeBlkByPtr at h
  split at h
  · cases h
    exact update hp rfl rfl rfl
  · cases h

theorem readBlk (h : readBlk s b = .ok s') : WritesIn used s s' := by
  obtain ⟨n, -, h⟩ := bind_eq_ok h
  cases h
  exact buffers rfl rfl rfl

theorem readBlkByPtr (h : readBlkByPtr s ptr = .ok s') : WritesIn used s s' := by
  unfold RTree.readBlkByPtr at h
  split at h
  · exact readBlk h
  · cases h

theorem unlinkLeaf (hl : LinksIn s used b) (h : unlinkLeaf s b = .ok s') : WritesIn used s s' := by
  obtain ⟨n, hn, h⟩ := bind_eq_ok h
  cases hty : n.nodetype with
  | inner =>
    rw [hty] at h
    cases h
    exact .refl
  | leaf =>
    obtain ⟨hprev, hnext⟩ := hl n hn hty
    -- the second half, after the previous leaf or `lptr` has been written
    have hrest : ∀ {s₁ : State}, WritesIn used s s₁ →
        (if n.nextlptr ≠ 0 then do
          let p ← peekBlk s₁ (n.nextlptr / blockSz)
          RTree.writeBlkByPtr s₁ n.nextlptr { p with prevlptr := n.prevlptr }
        else return s₁) = .ok s' → WritesIn used s s' := by
      intro s₁ h₁ h₂
      split at h₂
      · next hq =>
        obtain ⟨p, -, h₂⟩ := bind_eq_ok h₂
        exact h₁.trans (writeBlkByPtr h₂ (hnext hq))
      · cases h₂
        exact h₁
    simp only [hty] at h
    split at h
    · next hp =>
      obtain ⟨p, -, h⟩ := bind_eq_ok h
      obtain ⟨s₁, h₁, h⟩ := bind_eq_ok h
      exact hrest (writeBlkByPtr h₁ (hprev hp)) h
    · split at h
      · have hw : WritesIn used s { s with lptr := blockSz } := buffers rfl rfl rfl
        exact hrest hw h
      · next hq =>
        have hw : WritesIn used s { s with lptr := n.nextlptr } := buffers rfl rfl rfl
        refine hrest hw ?_
        rw [if_pos hq]
        exact h

end WritesIn

inductive BlockStep : Blocks → Blocks → Prop
  | get {s s' : State} {used : Multiset Nat} {b : Nat} : getNewblock s = .ok (b, s') →
      BlockStep (s, used) (s', b ::ₘ used)
  /-- A block in use is given back; with flag 1 it is a leaf that leaves the leaf chain. -/
  | free {s s' : State} {used : Multiset Nat} {b flag : Nat} : b ≠ 1 →
      (flag = 1 → LinksIn s (b ::ₘ used) b) → freeBlock s b flag = .ok s' →
      BlockStep (s, b ::ₘ used) (s', used)
  /-- The root is given back, and with it the whole tree. -/
  | freeRoot {s s' : State} {used : Multiset Nat} {flag : Nat} : freeBlock s 1 flag = .ok s' →
      BlockStep (s, used) (s', 0)
  /-- Blocks in use are read and written. -/
  | write {s s' : State} {used : Multiset Nat} : WritesIn used s s' →
      BlockStep (s, used) (s', used)

abbrev BlockRun : Blocks → Blocks → Prop := Relation.ReflTransGen BlockStep

theorem alloc_initRtree (s : State) : Alloc (initRtree s) 0 := ⟨le_rfl, [], rfl, rfl⟩

theorem freeBlock_flag {s' : State} {b flag : Nat} (hb : b ≠ 1)
    (h : freeBlock s b flag = .ok s') :
    ∃ s₁, (s₁ = s ∨ flag = 1 ∧ unlinkLeaf s b = .ok s₁) ∧ freeBlock s₁ b 0 = .ok s' := by
  simp only [freeBlock, if_neg hb] at h ⊢
  split at h
  · next hflag =>
    obtain ⟨s₁, h₁, h⟩ := bind_eq_ok h
    exact ⟨s₁, .inr ⟨hflag, h₁⟩, h⟩
  · exact ⟨s, .inl rfl, h⟩

theorem BlockStep.alloc {c c' : Blocks} (h : BlockStep c c') (hal : Alloc c.1 c.2) :
    Alloc c'.1 c'.2 := by
  cases h with
  | get hget =>
    obtain ⟨b, fb, tb, buf, hget', -, hal'⟩ := hal.getNewblock
    rw [hget] at hget'
    cases hget'
    exact hal'
  | @free s s' used b flag hb hl hfree =>
    obtain ⟨s₁, hs₁, hfree⟩ := freeBlock_flag hb hfree
    have hal₁ : Alloc s₁ (b ::ₘ used) := by
      rcases hs₁ with rfl | ⟨hflag, hunlink⟩
      · exact hal
      · have hw := WritesIn.unlinkLeaf (hl hflag) hunlink
        exact hal.congr hw.fbInd hw.tbInd hw.index
    obtain ⟨n, hfree', hal'⟩ := hal₁.freeBlock hb
    rw [hfree] at hfree'
    cases hfree'
    exact hal'
  | @freeRoot s s' used flag hfree =>
    cases hfree
    exact alloc_initRtree s
  | write hw => exact hal.congr hw.fbInd hw.tbInd hw.index

theorem BlockRun.alloc {c c' : Blocks} (h : BlockRun c c') (hal : Alloc c.1 c.2) :
    Alloc c'.1 c'.2 := by
  induction h with
  | refl => exact hal
  | tail _ hstep ih => exact hstep.alloc ih

section Insertion

variable {s s' : State} {used : Multiset Nat} {b tplno : Nat} {mbr : Rect} {anc : List Nat}

theorem BlockRun.write (hw : WritesIn used s s') : BlockRun (s, used) (s', used) :=
  Relation.ReflTransGen.single (BlockStep.write hw)

variable {cur ptr : Nat}

variable (used) in
theorem splitNode_run {ptr0 ptr1 : Nat} {ty : NodeType}
    (h : splitNode s cur mbr ptr ty ptr0 ptr1 = .ok s') :
    ∃ b0 b1, BlockRun (s, used) (s', b1 ::ₘ b0 ::ₘ used) := by
  obtain ⟨s₁, hread, h⟩ := bind_eq_ok h
  obtain ⟨g, -, h⟩ := bind_eq_ok h
  obtain ⟨⟨b0, s₂⟩, hb0, h⟩ := bind_eq_ok h
  obtain ⟨⟨b1, s₃⟩, hb1, h⟩ := bind_eq_ok h
  cases h
  have hw : WritesIn used s { s₁ with itembuf := g.itembuf, coverr0 := g.coverr0,
                                      coverr1 := g.coverr1 } :=
    (WritesIn.readBlk hread).trans (.buffers rfl rfl rfl)
  have hrun : BlockRun (s, used) (s₃, b1 ::ₘ b0 ::ₘ used) :=
    .tail (.tail (BlockRun.write hw) (.get hb0)) (.get hb1)
  refine ⟨b0, b1, hrun.trans (BlockRun.write ?_)⟩
  have hw0 : WritesIn (b1 ::ₘ b0 ::ₘ used) s₃ (writeBlk { s₃ with blkno0 := b0, blkno1 := b1 } b0
      (splitBlock s₃.split0 ty g.num0 g.items0 (b1 * blockSz) ptr0)) :=
    .update (by simp) rfl rfl rfl
  exact hw0.trans (.update (Multiset.mem_cons_self _ _) rfl rfl rfl)

theorem chooseLeafLoop_writesIn {fuel res : Nat} {anc' : List Nat}
    (h : chooseLeafLoop mbr fuel s res anc = .ok (s', b, anc')) : WritesIn used s s' := by
  induction fuel generalizing s res anc with
  | zero => cases h
  | succ fuel ih =>
    rw [chooseLeafLoop] at h
    split at h
    · cases h
      exact .refl
    · split at h
      · cases h
      · obtain ⟨s₁, hread, h⟩ := bind_eq_ok h
        exact (WritesIn.readBlkByPtr hread).trans (ih h)

variable (used) in
theorem destLeaf_run (h : destLeaf s mbr = .ok (s', b, anc)) :
    ∃ used', BlockRun (s, used) (s', used') := by
  unfold destLeaf at h
  split at h
  · next he =>
    -- the first insertion takes block 1 as `get_newblock` would
    have hget : getNewblock s = .ok (1, { s with fbInd := 2, tbInd := 2 }) := by
      simp [getNewblock, he]
    cases h
    exact ⟨1 ::ₘ used, .head (.get hget) (BlockRun.write (.buffers rfl rfl rfl))⟩
  · obtain ⟨⟨s₂, b', anc'⟩, hchoose, h⟩ := bind_eq_ok h
    obtain ⟨s₁, hroot, hchoose⟩ := bind_eq_ok hchoose
    obtain ⟨s₃, hread, h⟩ := bind_eq_ok h
    cases h
    have hw : WritesIn used s s₂ :=
      (WritesIn.readBlkByPtr hroot).trans (chooseLeafLoop_writesIn hchoose)
    exact ⟨used, BlockRun.write (hw.trans (.readBlk hread))⟩

theorem adjustTreeWithoutSplit_writesIn (hanc : ∀ p ∈ anc, p ∈ used)
    (h : adjustTreeWithoutSplit s cur mbr anc = .ok s') : WritesIn used s s' := by
  induction anc generalizing s cur mbr with
  | nil =>
    unfold adjustTreeWithoutSplit at h
    split at h
    · cases h
      exact .refl
    · cases h
  | cons p anc ih =>
    unfold adjustTreeWithoutSplit at h
    split at h
    · cases h
      exact .refl
    · obtain ⟨s₁, hread, h⟩ := bind_eq_ok h
      have hw : WritesIn used s s₁ := .readBlk hread
      split at h
      · cases h
      · dsimp only at h
        split at h
        · cases h
          exact hw
        · have hrest := ih (fun q hq => hanc q (List.mem_cons_of_mem _ hq)) h
          refine (hw.trans ?_).trans hrest
          exact .update (hanc p List.mem_cons_self) rfl rfl rfl

theorem splitParent_run {p i : Nat} (hp : p ∈ used) (h : splitParent s p i = .ok s') :
    ∃ b0 b1, BlockRun (s, used) (s', b1 ::ₘ b0 ::ₘ used) := by
  obtain ⟨s₁, hup, h⟩ := bind_eq_ok h
  obtain ⟨n, -, hup⟩ := bind_eq_ok hup
  cases hup
  obtain ⟨b0, b1, hrun⟩ := splitNode_run used h
  refine ⟨b0, b1, (BlockRun.write ?_).trans hrun⟩
  exact .update hp rfl rfl rfl

theorem newRoot_writesIn (hroot : 1 ∈ used) : WritesIn used s (newRoot s) :=
  .update hroot rfl rfl rfl

/-- The split goes up to the root; the blocks split on the way are given back on the way down. -/
theorem adjustTreeWithSplit_run (hmem : ∀ p ∈ cur :: anc, p ∈ used) (hnd : (cur :: anc).Nodup)
    (hroot : 1 ∈ used) (h : adjustTreeWithSplit s cur anc = .ok s') :
    ∃ used', BlockRun (s, used) (s', used') ∧ ∀ c ∈ used, c ∉ cur :: anc → c ∈ used' := by
  induction anc generalizing s cur used s' with
  | nil =>
    unfold adjustTreeWithSplit at h
    split at h
    · cases h
      exact ⟨used, BlockRun.write (newRoot_writesIn hroot), fun c hc _ => hc⟩
    · cases h
  | cons p anc ih =>
    unfold adjustTreeWithSplit at h
    split at h
    · cases h
      exact ⟨used, BlockRun.write (newRoot_writesIn hroot), fun c hc _ => hc⟩
    · next hcur =>
      obtain ⟨s₁, hread, h⟩ := bind_eq_ok h
      have hw : WritesIn used s s₁ := .readBlk hread
      have hp : p ∈ used := hmem p (by simp)
      have hncur : cur ∉ p :: anc := (List.nodup_cons.mp hnd).1
      split at h
      · cases h
      · next i _ =>
        -- before `cur` is given back
        have hbefore : ∃ s₂ used₂, BlockRun (s, used) (s₂, used₂) ∧ freeBlock s₂ cur 0 = .ok s' ∧
            ∀ c ∈ used, c ∉ p :: anc → c ∈ used₂ := by
          split at h
          · obtain ⟨s₂, hsplit, h⟩ := bind_eq_ok h
            obtain ⟨s₃, hup, h⟩ := bind_eq_ok h
            obtain ⟨b0, b1, hrun⟩ := splitParent_run hp hsplit
            have hin : ∀ c ∈ used, c ∈ b1 ::ₘ b0 ::ₘ used := fun c hc => by simp [hc]
            obtain ⟨used₃, hrun', hkeep⟩ := ih
              (fun q hq => hin q (hmem q (List.mem_cons_of_mem _ hq))) (List.nodup_cons.mp hnd).2
              (hin 1 hroot) hup
            exact ⟨s₃, used₃, ((BlockRun.write hw).trans hrun).trans hrun', h,
              fun c hc => hkeep c (hin c hc)⟩
          · obtain ⟨s₂, hup, h⟩ := bind_eq_ok h
            have hrest : WritesIn used _ s₂ := adjustTreeWithoutSplit_writesIn
              (fun q hq => hmem q (by simp [hq])) hup
            refine ⟨s₂, used, BlockRun.write ((hw.trans ?_).trans hrest), h, fun c hc _ => hc⟩
            exact .update hp rfl rfl rfl
        obtain ⟨s₂, used₂, hrun, hfree, hkeep⟩ := hbefore
        have hcur₂ : cur ∈ used₂ := hkeep cur (hmem cur (by simp)) hncur
        obtain ⟨used₃, rfl⟩ := Multiset.exists_cons_of_mem hcur₂
        refine ⟨used₃, hrun.tail (.free hcur (fun hflag => by cases hflag) hfree), ?_⟩
        intro c hc hc'
        rw [List.mem_cons, not_or] at hc'
        exact (Multiset.mem_cons.mp (hkeep c hc hc'.2)).resolve_left hc'.1

section

variable (hp : ptr ≠ 0 → ptr / blockSz ∈ used)
include hp

theorem rewriteBlk_writesIn {change : State → Node → Node} (h : rewriteBlk change s ptr = .ok s') :
    WritesIn used s s' := by
  unfold rewriteBlk at h
  split at h
  · next h0 =>
    obtain ⟨s₁, hread, h⟩ := bind_eq_ok h
    have hw := WritesIn.writeBlkByPtr h (hp h0)
    exact (WritesIn.readBlkByPtr hread).trans ⟨hw.fbInd, hw.tbInd, hw.index⟩
  · cases h
    exact .refl

theorem relinkPrev_writesIn (h : relinkPrev s ptr = .ok s') :
    WritesIn used s s' := by
  rw [relinkPrev_eq] at h
  exact rewriteBlk_writesIn hp h

theorem relinkNext_writesIn (h : relinkNext s ptr = .ok s') :
    WritesIn used s s' := by
  rw [relinkNext_eq] at h
  exact rewriteBlk_writesIn hp h

end

theorem Above.anc_nodup {index : Nat → Page} {h k c : Nat} {rs : List Rect} {t : Contents}
    (ha : Above index h k c anc rs t) (hnd : t.1.Nodup) : anc.Nodup := by
  induction anc generalizing k c rs t with
  | nil => exact .nil
  | cons p anc ih =>
    obtain ⟨-, as, it, bs, t₁, t₂, -, -, -, -, -, -, habove, rfl⟩ := ha
    rw [Prod.fst_add, Multiset.nodup_add] at hnd
    refine List.nodup_cons.mpr ⟨fun hp => ?_, ih habove hnd.2.1⟩
    exact Multiset.disjoint_left.mp hnd.2.2 (by simp) (habove.anc_mem hp).1

variable {h : Nat} {t₀ : Contents} {as bs : List Nat}

theorem Dest.links_used (hd : Dest s h b anc t₀ as bs) {c : Nat} (hc : c ∈ as ++ bs)
    (hptr : ptr = blkPtr c) : ptr / blockSz ∈ b ::ₘ t₀.1 := by
  rw [hptr, blkPtr, Nat.mul_div_cancel c blockSz_pos]
  exact Multiset.mem_cons_of_mem (hd.chained_leaf hc).1

theorem Dest.insertNoSplit_run (hd : Dest s h b anc t₀ as bs)
    (hins : RTree.insertNoSplit s mbr tplno b anc = .ok s') :
    BlockRun (s, b ::ₘ t₀.1) (s', b ::ₘ t₀.1) := by
  have hrest : WritesIn (b ::ₘ t₀.1) _ s' := adjustTreeWithoutSplit_writesIn
    (fun p hp => Multiset.mem_cons_of_mem (hd.above.anc_mem hp).1) hins
  refine BlockRun.write (WritesIn.trans ?_ hrest)
  exact .update (Multiset.mem_cons_self _ _) rfl rfl rfl

theorem Dest.insertSplit_run (hd : Dest s h b anc t₀ as bs)
    (hins : RTree.insertSplit s mbr tplno b anc = .ok s') :
    ∃ used', BlockRun (s, b ::ₘ t₀.1) (s', used') := by
  obtain ⟨hnext, hprev⟩ := hd.root_links
  unfold RTree.insertSplit at hins
  simp only [hnext, hprev] at hins
  obtain ⟨s₁, hsplit, hins⟩ := bind_eq_ok hins
  obtain ⟨s₂, hrel, hins⟩ := bind_eq_ok hins
  obtain ⟨s₃, hrel', hins⟩ := bind_eq_ok hins
  obtain ⟨b0, b1, hrun⟩ := splitNode_run (b ::ₘ t₀.1) hsplit
  have hin : ∀ c ∈ b ::ₘ t₀.1, c ∈ b1 ::ₘ b0 ::ₘ b ::ₘ t₀.1 :=
    fun c hc => Multiset.mem_cons_of_mem (Multiset.mem_cons_of_mem hc)
  have hprev : last blkPtr 0 as ≠ 0 → last blkPtr 0 as / blockSz ∈ b1 ::ₘ b0 ::ₘ b ::ₘ t₀.1 := by
    intro h0
    obtain h0' | ⟨c, hc, hptr⟩ := @last_eq_or_mem _ _ blkPtr 0 as
    · exact absurd h0' h0
    · exact hin _ (hd.links_used (List.mem_append_left _ hc) hptr)
  have hnext : first blkPtr bs 0 ≠ 0 → first blkPtr bs 0 / blockSz ∈ b1 ::ₘ b0 ::ₘ b ::ₘ t₀.1 := by
    intro h0
    obtain h0' | ⟨c, hc, hptr⟩ := @first_eq_or_mem _ _ blkPtr bs 0
    · exact absurd h0' h0
    · exact hin _ (hd.links_used (List.mem_append_right _ hc) hptr)
  have hmem : ∀ p ∈ b :: anc, p ∈ b1 ::ₘ b0 ::ₘ b ::ₘ t₀.1 := by
    intro p hp
    refine hin p ?_
    rcases List.mem_cons.mp hp with rfl | hp
    · exact Multiset.mem_cons_self _ _
    · exact Multiset.mem_cons_of_mem (hd.above.anc_mem hp).1
  have hnd : (b :: anc).Nodup := List.nodup_cons.mpr
    ⟨hd.anc_ne (by simp), hd.above.anc_nodup (Multiset.nodup_cons.mp hd.alloc.nodup).2⟩
  have hw := (relinkPrev_writesIn hprev hrel).trans (relinkNext_writesIn hnext hrel')
  obtain ⟨used', hrun', -⟩ := adjustTreeWithSplit_run hmem hnd (hin 1 hd.above.root_mem) hins
  refine ⟨used', (hrun.trans (BlockRun.write (WritesIn.trans ?_ hw))).trans hrun'⟩
  split
  · exact .buffers rfl rfl rfl
  · exact .refl

end Insertion

theorem FreeChain.unique {index : Nat → Page} {fb tb : Nat} {l l' : List Nat}
    (hl : FreeChain index fb tb l) (hl' : FreeChain index fb tb l') (hne : ∀ b ∈ l, b ≠ tb)
    (hne' : ∀ b ∈ l', b ≠ tb) : l = l' := by
  induction l generalizing fb l' with
  | nil =>
    cases l' with
    | nil => rfl
    | cons b l' =>
      obtain ⟨rfl, -⟩ := hl'
      exact absurd hl (hne' fb (by simp))
  | cons b l ih =>
    obtain ⟨rfl, next, n, hn, hl⟩ := hl
    cases l' with
    | nil => exact absurd hl' (hne fb (by simp))
    | cons b' l' =>
      obtain ⟨rfl, next', n', hn', hl'⟩ := hl'
      rw [hn] at hn'
      cases hn'
      rw [ih hl hl' (fun c hc => hne c (List.mem_cons_of_mem _ hc))
        fun c hc => hne' c (List.mem_cons_of_mem _ hc)]

variable {s : State} {used : Multiset Nat} {items : Multiset Item}

theorem Alloc.unique {used' : Multiset Nat} (h : Alloc s used) (h' : Alloc s used') :
    used = used' := by
  have hlt : ∀ {u : Multiset Nat} {l : List Nat}, u + (l : Multiset Nat) = blockNumbers s.tbInd →
      ∀ b ∈ l, b ≠ s.tbInd := by
    intro u l heq b hb
    have : b ∈ blockNumbers s.tbInd := by
      rw [← heq]
      exact Multiset.mem_add.mpr (.inr hb)
    exact (mem_blockNumbers.mp this).2.ne
  obtain ⟨-, l, hl, heq⟩ := h
  obtain ⟨-, l', hl', heq'⟩ := h'
  obtain rfl := hl.unique hl' (hlt heq) (hlt heq')
  exact add_right_cancel (heq.trans heq'.symm)

theorem IsEmpty.alloc (hs : IsEmpty s) : Alloc s 0 := by
  obtain ⟨-, hfb, htb, -⟩ := hs
  refine ⟨htb.ge, [], hfb.trans htb.symm, ?_⟩
  rw [htb]
  rfl

theorem insertRtreeAux_run {s' : State} {mbr : Rect} {tplno : Nat} (hs : WellFormed s items)
    (hal : Alloc s used) (hins : insertRtreeAux s mbr tplno = .ok s') :
    ∃ used', BlockRun (s, used) (s', used') := by
  obtain ⟨⟨s₁, b, anc⟩, hdest, hins⟩ := bind_eq_ok hins
  obtain ⟨used₁, hrun⟩ := destLeaf_run used hdest
  have hd : ∃ h t₀ as bs, Dest s₁ h b anc t₀ as bs := by
    rcases hs with ⟨he, -⟩ | ⟨h, t, ht, -⟩
    · obtain ⟨s₂, hdest', hd, -⟩ := destLeaf_empty he mbr
      rw [hdest] at hdest'
      cases hdest'
      exact ⟨_, _, _, _, hd⟩
    · obtain ⟨s₂, b', anc', t₀, as, bs, hdest', hd, -⟩ := destLeaf_tree ht mbr
      rw [hdest] at hdest'
      cases hdest'
      exact ⟨_, _, _, _, hd⟩
  obtain ⟨h, t₀, as, bs, hd⟩ := hd
  obtain rfl : used₁ = b ::ₘ t₀.1 := (hrun.alloc hal).unique hd.alloc
  dsimp only at hins
  split at hins
  · obtain ⟨used', hrun'⟩ := hd.insertSplit_run hins
    exact ⟨used', hrun.trans hrun'⟩
  · exact ⟨_, hrun.trans (hd.insertNoSplit_run hins)⟩

/-- What is done with the R-tree from outside, as far as its blocks go. -/
inductive TreeOp where
  | insert (mbr : Rect) (tplno : Nat)
  /-- `free_block` of the root. -/
  | freeRoot (flag : Nat)

def TreeOp.apply (s : State) : TreeOp → Except Err State
  | .insert mbr tplno => insertRtreeAux s mbr tplno
  | .freeRoot flag => freeBlock s 1 flag

theorem TreeOp.apply_ok (hs : WellFormed s items) (hal : Alloc s used) (op : TreeOp) :
    ∃ s' items' used', op.apply s = .ok s' ∧ WellFormed s' items' ∧
      BlockRun (s, used) (s', used') := by
  cases op with
  | insert mbr tplno =>
    obtain ⟨s₁, b, anc, s', rest, -, -, -, hins, hs', -⟩ := insertRtreeAux_ok hs mbr tplno
    obtain ⟨used', hrun⟩ := insertRtreeAux_run hs hal hins
    exact ⟨s', _, used', hins, hs', hrun⟩
  | freeRoot flag =>
    have hfree : freeBlock s 1 flag = .ok (initRtree s) := by
      rfl
    exact ⟨initRtree s, 0, 0, hfree, initRtree_wellFormed s, .single (.freeRoot hfree)⟩

/-- The free chain runs through the blocks that are not in use, each once, and ends at `tb_ind`. -/
def FreeBlocks (s : State) (inUse : Nat → Prop) : Prop :=
  ∃ l, FreeChain s.index s.fbInd s.tbInd l ∧ l.Nodup ∧ (∀ b ∈ l, ¬inUse b) ∧
    ∀ b, 1 ≤ b ∧ b < s.tbInd ↔ inUse b ∨ b ∈ l

theorem Alloc.freeBlocks (h : Alloc s used) :
    FreeBlocks s (· ∈ used) := by
  obtain ⟨-, l, hl, heq⟩ := h
  have hnd := blockNumbers_nodup s.tbInd
  rw [← heq, Multiset.nodup_add] at hnd
  refine ⟨l, hl, hnd.2.1, fun b hb hu => ?_, fun b => ?_⟩
  · exact Multiset.disjoint_left.mp hnd.2.2 hu hb
  · rw [← mem_blockNumbers, ← heq, Multiset.mem_add, Multiset.mem_coe]

theorem FreeBlocks.congr {p q : Nat → Prop} (h : FreeBlocks s p) (hpq : ∀ b, p b ↔ q b) :
    FreeBlocks s q := by
  obtain rfl : p = q := funext fun b => propext (hpq b)
  exact h

theorem WellFormed.reachable (hs : WellFormed s items) (hal : Alloc s used) (b : Nat) :
    b ∈ used ↔ Reachable s b := by
  rcases hs with ⟨he, -⟩ | ⟨h, t, ht, -⟩
  · obtain rfl := hal.unique he.alloc
    simp [he.not_reachable b]
  · obtain rfl := hal.unique ht.alloc
    exact (ht.reachable b).symm

/-- The blocks of the file are accounted for: after operations on the tree, the blocks in use are
those reachable from the root; and in every run of block steps `get_newblock` returns a block that
is not in use. -/
theorem blocks_accounted (s : State) :
    (∀ ops : List TreeOp, ∃ s' used, ops.foldlM TreeOp.apply (initRtree s) = .ok s' ∧
      BlockRun (initRtree s, 0) (s', used) ∧ (∀ b, b ∈ used ↔ Reachable s' b) ∧
      FreeBlocks s' (Reachable s')) ∧
    ∀ s' used, BlockRun (initRtree s, 0) (s', used) →
      FreeBlocks s' (· ∈ used) ∧ ∀ b s'', getNewblock s' = .ok (b, s'') → b ∉ used := by
  refine ⟨fun ops => ?_, fun s' used hrun => ?_⟩
  · have hstep : ∀ (xs : List TreeOp) (op : TreeOp) (t : State),
        (∃ items used, WellFormed t items ∧ BlockRun (initRtree s, 0) (t, used)) →
        ∃ t', op.apply t = .ok t' ∧
          ∃ items used, WellFormed t' items ∧ BlockRun (initRtree s, 0) (t', used) := by
      rintro - op t ⟨items, used, ht, hrun⟩
      obtain ⟨t', items', used', happly, ht', hrun'⟩ :=
        op.apply_ok ht (hrun.alloc (alloc_initRtree s))
      exact ⟨t', happly, items', used', ht', hrun.trans hrun'⟩
    obtain ⟨s', happly, items, used, hs', hrun⟩ :=
      foldlM_inv _ (fun _ t => ∃ items used, WellFormed t items ∧ BlockRun (initRtree s, 0) (t, used))
        ⟨0, 0, initRtree_wellFormed s, .refl⟩ hstep ops
    have hal := hrun.alloc (alloc_initRtree s)
    exact ⟨s', used, happly, hrun, hs'.reachable hal, hal.freeBlocks.congr (hs'.reachable hal)⟩
  · have hal := hrun.alloc (alloc_initRtree s)
    refine ⟨hal.freeBlocks, fun b s'' hget => ?_⟩
    obtain ⟨b', fb, tb, buf, hget', hfresh, -⟩ := hal.getNewblock
    rw [hget] at hget'
    cases hget'
    exact hfresh

end StreamMill.RTree
