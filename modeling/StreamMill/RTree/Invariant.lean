import StreamMill.RTree.LeafChain

/-!
# StreamMill.RTree.Invariant

The invariant of the R-tree and its preservation by `insert_rtree_aux`. `WellFormed s items`: the
super block and the index file of `s` are an empty tree or a balanced, covering tree over `items`,
with the blocks accounted for and the leaves chained.

`insertRtreeAux_ok` says exactly what an insertion does to the stored entries: `leafAfter` replaces
the entries of the chosen leaf. `insertAll_ok` is the invariant over whole runs.
-/

namespace StreamMill.RTree

open Lib

structure IsTree (s : State) (h : Nat) (t : Contents) : Prop where
  m : s.m = 2
  tree : ∃ es, Subtree s.index h 1 es t
  alloc : Alloc s t.1
  chain : LeafChain s.index s.lptr t.2.1

def IsEmpty (s : State) : Prop := s.m = 2 ∧ s.fbInd = 1 ∧ s.tbInd = 1 ∧ s.lptr = blockSz

def WellFormed (s : State) (items : Multiset Item) : Prop :=
  (IsEmpty s ∧ items = 0) ∨ ∃ h t, IsTree s h t ∧ t.2.2 = items

theorem WellFormed.unique {s : State} {items items' : Multiset Item} (hs : WellFormed s items)
    (hs' : WellFormed s items') : items = items' := by
  have hne : ∀ {h t}, IsTree s h t → ¬IsEmpty s := by
    rintro h t ht ⟨-, -, htb, -⟩
    obtain ⟨es, hroot⟩ := ht.tree
    have := (ht.alloc.mem hroot.mem).2
    omega
  rcases hs with ⟨he, rfl⟩ | ⟨h, t, ht, rfl⟩
  · rcases hs' with ⟨-, rfl⟩ | ⟨h', t', ht', -⟩
    · rfl
    · exact absurd he (hne ht')
  · rcases hs' with ⟨he, -⟩ | ⟨h', t', ht', rfl⟩
    · exact absurd he (hne ht)
    · obtain ⟨es, hroot⟩ := ht.tree
      obtain ⟨es', hroot'⟩ := ht'.tree
      rw [(hroot.unique hroot').2]

/-- The leaf `b` in `buffer`, with the rest of the tree around it. -/
structure Dest (s : State) (h b : Nat) (anc : List Nat) (t₀ : Contents) (as bs : List Nat) :
    Prop where
  m : s.m = 2
  leaf : s.buffer.nodetype = .leaf
  page : s.buffer.counter ≠ 0 → s.index b = .node s.buffer
  cap : s.buffer.counter ≤ maxEntries
  fill : b ≠ 1 → 2 ≤ s.buffer.counter
  above : Above s.index h 0 b anc (s.buffer.entries.map Item.rect) t₀
  alloc : Alloc s (b ::ₘ t₀.1)
  leaves : ((as ++ b :: bs : List Nat) : Multiset Nat) = b ::ₘ t₀.2.1
  lptr : s.lptr = first blkPtr (as ++ b :: bs) 0
  before : LeafSeg s.index 0 as (blkPtr b)
  prev : s.buffer.prevlptr = last blkPtr 0 as
  next : s.buffer.nextlptr = first blkPtr bs 0
  after : LeafSeg s.index (blkPtr b) bs 0

theorem destLeaf_empty {s : State} (hs : IsEmpty s) (mbr : Rect) :
    ∃ s₁, destLeaf s mbr = .ok (s₁, 1, []) ∧ Dest s₁ 0 1 [] 0 [] [] ∧
      s₁.buffer.entries = [] ∧ s₁.itembuf = s.itembuf := by
  obtain ⟨hm, hfb, htb, hl⟩ := hs
  let root : Node :=
    { nodetype := .leaf, counter := 0, nextlptr := 0, prevlptr := 0,
      items := Function.update s.buffer.items 0 { s.buffer.items 0 with del := false } }
  have hrun : destLeaf s mbr = .ok ({ s with buffer := root, fbInd := 2, tbInd := 2 }, 1, []) := by
    rw [destLeaf, if_pos ⟨hfb, htb⟩]
  refine ⟨_, hrun, ⟨hm, rfl, absurd rfl, Nat.zero_le _, absurd rfl,
    ⟨rfl, rfl, rfl⟩, ⟨(by decide : 1 ≤ 2), [], rfl, rfl⟩, rfl, ?_, trivial, rfl, rfl, trivial⟩,
    rfl, rfl⟩
  simpa [blkPtr] using hl

theorem Subtree.node {index : Nat → Page} {h b : Nat} {es : List Item} {t : Contents}
    (ht : Subtree index h b es t) : ∃ n, index b = .node n ∧ n.entries = es := by
  cases h with
  | zero => obtain ⟨⟨n, hn, -, hes⟩, -⟩ := ht; exact ⟨n, hn, hes⟩
  | succ h => obtain ⟨⟨n, hn, -, hes⟩, -⟩ := ht; exact ⟨n, hn, hes⟩

theorem destLeaf_tree {s : State} {h : Nat} {t : Contents} (hs : IsTree s h t) (mbr : Rect) :
    ∃ s₁ b anc t₀ as bs, destLeaf s mbr = .ok (s₁, b, anc) ∧ Dest s₁ h b anc t₀ as bs ∧
      t.2.2 = t₀.2.2 + (s₁.buffer.entries : Multiset Item) ∧ s₁.itembuf = s.itembuf := by
  obtain ⟨es, hroot⟩ := hs.tree
  obtain ⟨n, hn, hes⟩ := hroot.node
  have htb : 1 < s.tbInd := (hs.alloc.mem hroot.mem).2
  have hread : readBlkByPtr s blockSz = .ok { s with buffer := n } := by
    rw [← readBlkByPtr_node hn, Nat.one_mul]
  obtain ⟨buf, b, anc, es', t', t₀, hrun, hb, hsub, habove, hfill, hsum⟩ :=
    chooseLeafLoop_ok (s := { s with buffer := n }) mbr hroot
      (show Above s.index h h 1 [] (es.map Item.rect) 0 from ⟨rfl, rfl, rfl⟩) hn
      (absurd rfl) (hroot.height_lt.trans hs.alloc.card_lt)
  rw [zero_add] at hsum
  subst hsum
  obtain ⟨⟨m, hm, hty, rfl⟩, hcap, rfl⟩ := hsub
  have hbm : buf = m := by
    have := hb.symm.trans hm
    cases this
    rfl
  subst hbm
  -- the place of the leaf in the chain
  obtain ⟨ls, hls, hlptr, hseg⟩ := hs.chain
  have hbl : b ∈ ls := by
    rw [← Multiset.mem_coe, hls]
    simp
  obtain ⟨as, bs, rfl⟩ := List.append_of_mem hbl
  obtain ⟨hbefore, hprev, hnext, hafter⟩ := seg_append.mp hseg
  have hchoose : chooseLeaf s mbr = .ok ({ s with buffer := buf }, b, anc) := by
    rw [chooseLeaf, hread]
    exact hrun
  have hdest : destLeaf s mbr = .ok ({ s with buffer := buf }, b, anc) := by
    rw [destLeaf, if_neg (by omega), hchoose]
    show (readBlk { s with buffer := buf } b >>= _) = _
    rw [readBlk_node (s := { s with buffer := buf }) hb]
    rfl
  have hb' : s.index b = .node buf := hb
  simp only [hb', Page.prevlptr] at hprev
  simp only [hb', Page.nextlptr] at hnext
  refine ⟨_, b, anc, t₀, as, bs, hdest, ⟨hs.m, hty, fun _ => hb, ?_, fun h => ?_, habove, ?_, ?_,
    hlptr, hbefore, hprev, hnext, hafter⟩, rfl, rfl⟩
  · rwa [Node.entries_length] at hcap
  · simpa using hfill h
  · have := hs.alloc
    rw [add_comm] at this
    exact this.congr rfl rfl fun _ _ => rfl
  · rw [hls]
    show t₀.2.1 + {b} = _
    rw [add_comm, Multiset.singleton_add]

variable {s : State} {h b : Nat} {anc as bs : List Nat} {t₀ : Contents}

section

variable (hd : Dest s h b anc t₀ as bs)
include hd

theorem Dest.nodup : (as ++ b :: bs).Nodup := by
  rw [← Multiset.coe_nodup, hd.leaves]
  exact Multiset.nodup_of_le (Multiset.cons_le_cons b hd.above.leavesIn.1) hd.alloc.nodup

theorem Dest.anc_ne {c : Nat} (hc : c ∈ as ++ b :: bs) :
    c ∉ anc := by
  intro hmem
  obtain ⟨hin, es, hes⟩ := hd.above.anc_mem hmem
  rw [← Multiset.mem_coe, hd.leaves, Multiset.mem_cons] at hc
  rcases hc with rfl | hc
  · exact (Multiset.nodup_cons.mp hd.alloc.nodup).1 hin
  · obtain ⟨es', hes'⟩ := hd.above.leavesIn.2 c hc
    exact absurd (hes.ty_eq hes') (by simp)

theorem Dest.insertNoSplit (hroom : s.buffer.counter ≠ maxEntries) (mbr : Rect) (tplno : Nat) :
    ∃ s', ∃ n' : Node, insertNoSplit s mbr tplno b anc = .ok s' ∧
      n'.entries = s.buffer.entries ++
        [{ s.buffer.items s.buffer.counter with rect := mbr, ptr := tplno }] ∧
      IsTree s' h (t₀ + ({b}, {b}, (n'.entries : Multiset Item))) ∧ s'.itembuf = s.itembuf := by
  let num := s.buffer.counter
  let item := { s.buffer.items num with rect := mbr, ptr := tplno }
  let n' : Node := { s.buffer with items := Function.update s.buffer.items num item,
                                   counter := num + 1 }
  have hent : n'.entries = s.buffer.entries ++ [item] := slots_update _ _ _
  have hnd := Multiset.nodup_cons.mp hd.alloc.nodup
  have hne : ∀ c ∈ t₀.1, c ≠ b := fun c hc e => hnd.1 (e ▸ hc)
  have hsame : SameOn s.index (Function.update s.index b (.node n')) t₀.1 :=
    .of_eq fun c hc => Function.update_of_ne (hne c hc) _ _
  have hsub : Subtree (Function.update s.index b (.node n')) 0 b n'.entries
      ({b}, {b}, (n'.entries : Multiset Item)) := by
    refine ⟨⟨n', Function.update_self _ _ _, hd.leaf, rfl⟩, ?_, rfl⟩
    rw [Node.entries_length]
    have := hd.cap
    show s.buffer.counter + 1 ≤ maxEntries
    omega
  have hcover : ∀ it ∈ n'.entries, it.rect ∈ s.buffer.entries.map Item.rect ∨
      Covers mbr it.rect := by
    intro it hit
    rw [hent] at hit
    rcases List.mem_append.mp hit with hit | hit
    · exact .inl (List.mem_map_of_mem hit)
    · rw [List.mem_singleton.mp hit]
      exact .inr (.refl _)
  have hnd' : (t₀ + ({b}, {b}, (n'.entries : Multiset Item))).1.Nodup := by
    rw [add_comm]
    exact hd.alloc.nodup
  have hfill : b ≠ 1 → 2 ≤ n'.entries.length := fun hb => by
    rw [hent, List.length_append, Node.entries_length]
    exact (hd.fill hb).trans (Nat.le_add_right _ _)
  obtain ⟨idx, buf, hrun, hframe, es', hroot⟩ := adjustTreeWithoutSplit_ok
    (s := writeBlk { s with buffer := n' } b n') (hd.above.congr hsame) hsub hnd' hfill hcover
  have hidx : ∀ c, c ∉ anc → c ≠ b → idx c = s.index c := fun c hc hcb => by
    rw [hframe c hc]
    exact Function.update_of_ne hcb _ _
  refine ⟨_, n', hrun, hent, ⟨hd.m, ⟨es', hroot⟩, ?_, ?_⟩, rfl⟩
  · rw [add_comm]
    refine hd.alloc.congr rfl rfl fun c hc => hidx c (fun hmem => hc ?_) fun e => hc (by simp [e])
    exact Multiset.mem_cons_of_mem (hd.above.anc_mem hmem).1
  · have hidxb : idx b = .node n' := by
      rw [hframe b (hd.anc_ne (by simp))]
      exact Function.update_self _ _ _
    have hkeep : ∀ c ∈ as ++ bs, idx c = s.index c := fun c hc => by
      refine hidx c (hd.anc_ne ?_) ?_
      · rcases List.mem_append.mp hc with hc | hc <;> simp [hc]
      · rintro rfl
        exact (List.nodup_middle.mp hd.nodup).notMem hc
    refine ⟨as ++ b :: bs, ?_, hd.lptr, seg_append.mpr ⟨?_, ?_, ?_, ?_⟩⟩
    · rw [hd.leaves, add_comm]
      rfl
    · exact hd.before.congr fun c hc => hkeep c (List.mem_append_left _ hc)
    · simp only [hidxb]
      exact hd.prev
    · simp only [hidxb]
      exact hd.next
    · exact hd.after.congr fun c hc => hkeep c (List.mem_append_right _ hc)

theorem Dest.root_links :
    (if b = 1 then 0 else s.buffer.nextlptr) = first blkPtr bs 0 ∧
      (if b = 1 then 0 else s.buffer.prevlptr) = last blkPtr 0 as := by
  by_cases hb : b = 1
  · have ht : t₀ = 0 := by
      have := hd.above
      cases anc with
      | nil => exact this.2.2
      | cons p anc => exact absurd hb this.1
    have hlen := congrArg Multiset.card hd.leaves
    simp only [ht, Multiset.coe_card, List.length_append, List.length_cons, Prod.snd_zero,
      Prod.fst_zero, Multiset.card_cons, Multiset.card_zero] at hlen
    obtain rfl : as = [] := List.length_eq_zero_iff.mp (by omega)
    obtain rfl : bs = [] := List.length_eq_zero_iff.mp (by omega)
    rw [if_pos hb, if_pos hb]
    exact ⟨rfl, rfl⟩
  · rw [if_neg hb, if_neg hb]
    exact ⟨hd.next, hd.prev⟩

end

def leafAfter (itembuf : Nat → Item) (n : Node) (mbr : Rect) (tplno : Nat) : List Item :=
  if n.counter = maxEntries then
    (List.range (maxEntries + 1)).map (afterSplit (fillItembuf itembuf mbr tplno n)
      (pickSeeds (fillItembuf itembuf mbr tplno n) (maxEntries + 1)).1)
  else n.entries ++ [{ n.items n.counter with rect := mbr, ptr := tplno }]

section

variable (hd : Dest s h b anc t₀ as bs)
include hd

theorem Dest.chained :
    ((as ++ bs : List Nat) : Multiset Nat) = t₀.2.1 := by
  have := hd.leaves
  rw [← Multiset.coe_eq_coe.mpr List.perm_middle.symm] at this
  exact (Multiset.cons_inj_right b).mp this

theorem Dest.chained_leaf {c : Nat} (hc : c ∈ as ++ bs) :
    c ∈ t₀.1 ∧ ∃ n, s.index c = .node n := by
  rw [← Multiset.mem_coe, hd.chained] at hc
  obtain ⟨es, n, hn, -, -⟩ := hd.above.leavesIn.2 c hc
  exact ⟨hd.above.leavesIn.mem hc, n, hn⟩

theorem Dest.relink {s₁ : State} {mbr : Rect} {tplno : Nat}
    (hsp : SplitOf s s.buffer mbr tplno .leaf (b ::ₘ t₀.1) s₁)
    (hn0 : s₁.split0.nextlptr = blkPtr s₁.blkno1) (hp0 : s₁.split0.prevlptr = last blkPtr 0 as)
    (hn1 : s₁.split1.nextlptr = first blkPtr bs 0) (hp1 : s₁.split1.prevlptr = blkPtr s₁.blkno0)
    (lptr : Nat) :
    ∃ idx buf, (relinkPrev { s₁ with lptr := lptr } (last blkPtr 0 as) >>= fun s' =>
        relinkNext s' (first blkPtr bs 0)) =
          .ok { s₁ with lptr := lptr, index := idx, buffer := buf } ∧
      LeafSeg idx 0 (as ++ s₁.blkno0 :: s₁.blkno1 :: bs) 0 ∧
      (∀ c, c ∉ as ++ bs → idx c = s₁.index c) ∧ ∀ cs, SameOn s₁.index idx cs := by
  have hnd := List.nodup_append.mp hd.nodup
  have hndb := List.nodup_cons.mp hnd.2.1
  have hdisj : ∀ c ∈ as, c ∉ bs := fun c hc hc' => hnd.2.2 c hc c (by simp [hc']) rfl
  -- the other leaves are in use, so the split did not write them
  have hkeep : ∀ c ∈ as ++ bs, s₁.index c = s.index c := fun c hc => by
    have hu : c ∈ b ::ₘ t₀.1 := Multiset.mem_cons_of_mem (hd.chained_leaf hc).1
    have hc1 : c ≠ s₁.blkno1 := fun e => hsp.fresh1 (e ▸ hu)
    have hc0 : c ≠ s₁.blkno0 := fun e => hsp.fresh0 (e ▸ hu)
    rw [hsp.index, Function.update_of_ne hc1, Function.update_of_ne hc0]
  have hnode : ∀ c ∈ as ++ bs, c ≠ 0 ∧ ∃ n, s₁.index c = .node n := fun c hc => by
    obtain ⟨hu, n, hn⟩ := hd.chained_leaf hc
    refine ⟨fun e => ?_, n, (hkeep c hc).trans hn⟩
    have := (hd.alloc.mem (Multiset.mem_cons_of_mem hu)).1
    omega
  have hfresh : s₁.blkno0 ∉ as ++ bs ∧ s₁.blkno1 ∉ as ++ bs :=
    ⟨fun hc => hsp.fresh0 (Multiset.mem_cons_of_mem (hd.chained_leaf hc).1),
      fun hc => hsp.fresh1 (Multiset.mem_cons_of_mem (hd.chained_leaf hc).1)⟩
  have hseg0 : LeafSeg s₁.index 0 as (blkPtr b) :=
    hd.before.congr fun c hc => hkeep c (List.mem_append_left _ hc)
  obtain ⟨idx₁, buf₁, hrun₁, hseg₁, hframe₁, hsame₁⟩ :=
    relinkPrev_ok (s := { s₁ with lptr := lptr }) rfl hseg0 hnd.1
      fun c hc => hnode c (List.mem_append_left _ hc)
  have hframe₁' : ∀ c ∈ bs, idx₁ c = s₁.index c := fun c hc =>
    hframe₁ c fun hc' => hdisj c hc' hc
  have hseg1 : LeafSeg idx₁ (blkPtr b) bs 0 := hd.after.congr fun c hc => by
    rw [hframe₁' c hc, hkeep c (List.mem_append_right _ hc)]
  obtain ⟨idx₂, buf₂, hrun₂, hseg₂, hframe₂, hsame₂⟩ :=
    relinkNext_ok (s := { s₁ with lptr := lptr, index := idx₁, buffer := buf₁ }) rfl hseg1 hndb.2
      fun c hc => by
        obtain ⟨h0, n, hn⟩ := hnode c (List.mem_append_right _ hc)
        exact ⟨h0, n, (hframe₁' c hc).trans hn⟩
  have hframe : ∀ c, c ∉ as ++ bs → idx₂ c = s₁.index c := fun c hc => by
    rw [List.mem_append, not_or] at hc
    exact (hframe₂ c hc.2).trans (hframe₁ c hc.1)
  have hi0 : idx₂ s₁.blkno0 = .node s₁.split0 := by
    rw [hframe _ hfresh.1, hsp.index, Function.update_of_ne hsp.ne, Function.update_self]
  have hi1 : idx₂ s₁.blkno1 = .node s₁.split1 := by
    rw [hframe _ hfresh.2, hsp.index, Function.update_self]
  refine ⟨idx₂, buf₂, ?_, seg_append.mpr ⟨?_, ?_, ?_, ?_, ?_, hseg₂⟩, hframe,
    fun cs => (hsame₁ cs).trans (hsame₂ cs)⟩
  · rw [hrun₁]
    exact hrun₂
  · exact LeafSeg.congr hseg₁ fun c hc => hframe₂ c (hdisj c hc)
  · simp only [hi0]
    exact hp0
  · simp only [hi0]
    exact hn0
  · simp only [hi1]
    exact hp1
  · simp only [hi1]
    exact hn1

theorem Dest.insertSplit (hfull : s.buffer.counter = maxEntries) (mbr : Rect) (tplno : Nat) :
    ∃ s' h' t', insertSplit s mbr tplno b anc = .ok s' ∧ IsTree s' h' t' ∧
      t'.2.2 = t₀.2.2 + (leafAfter s.itembuf s.buffer mbr tplno : Multiset Item) ∧
      ((s'.itembuf 0).del = true → (s.itembuf 0).del = true) := by
  have hb : s.index b = .node s.buffer := hd.page (by rw [hfull]; decide)
  obtain ⟨hnext, hprev⟩ := hd.root_links
  obtain ⟨s₁, hs₁, hsp, hlinks⟩ := splitNode_ok (peekBlk_node hb) hd.m hd.alloc mbr tplno .leaf
    (last blkPtr 0 as) (first blkPtr bs 0)
  obtain ⟨hn0, hp0, hn1, hp1⟩ := hlinks rfl
  let L := first blkPtr (as ++ s₁.blkno0 :: s₁.blkno1 :: bs) 0
  have hlptr : (if b * blockSz = s₁.lptr then { s₁ with lptr := s₁.blkno0 * blockSz } else s₁) =
      { s₁ with lptr := L } := by
    rw [hsp.lptr, hd.lptr]
    cases as with
    | nil => exact if_pos rfl
    | cons c as =>
      have hne : ¬b * blockSz = first blkPtr (c :: as ++ b :: bs) 0 := fun e => by
        have := blkPtr_inj e
        have hnd := hd.nodup
        rw [this] at hnd
        simp at hnd
      rw [if_neg hne]
      have : L = s₁.lptr := by rw [hsp.lptr, hd.lptr]; rfl
      rw [this]
  obtain ⟨idx, buf, hrelink, hseg, hframe, hsame⟩ := hd.relink hsp hn0 hp0 hn1 hp1 L
  let s₂ : State := { s₁ with lptr := L, index := idx, buffer := buf }
  let t₁ : Contents := ({s₁.blkno0}, {s₁.blkno0}, (s₁.split0.entries : Multiset Item))
  let t₂ : Contents := ({s₁.blkno1}, {s₁.blkno1}, (s₁.split1.entries : Multiset Item))
  have hone : ∀ c, c ∉ b ::ₘ t₀.1 → c ≠ 1 := by
    rintro c hc rfl
    exact hc hd.above.root_mem
  have h0 : Child (Subtree s₂.index 0) (s₂.coverr0, s₂.blkno0 * blockSz) t₁ := by
    refine ⟨_, s₁.split0.entries, rfl, hone _ hsp.fresh0, ?_, hsp.cover0, ?_, ?_, rfl⟩
    · rw [Node.entries_length]; exact hsp.fill0.1
    · refine hsame {s₁.blkno0} _ (Multiset.mem_singleton_self _) _ _ ⟨_, ?_, hsp.type0, rfl⟩
      rw [hsp.index, Function.update_of_ne hsp.ne, Function.update_self]
    · rw [Node.entries_length]; exact hsp.fill0.2
  have h1 : Child (Subtree s₂.index 0) (s₂.coverr1, s₂.blkno1 * blockSz) t₂ := by
    refine ⟨_, s₁.split1.entries, rfl, hone _ hsp.fresh1, ?_, hsp.cover1, ?_, ?_, rfl⟩
    · rw [Node.entries_length]; exact hsp.fill1.1
    · refine hsame {s₁.blkno1} _ (Multiset.mem_singleton_self _) _ _ ⟨_, ?_, hsp.type1, rfl⟩
      rw [hsp.index, Function.update_self]
    · rw [Node.entries_length]; exact hsp.fill1.2
  have habove : Above s₂.index h 0 b anc (s.buffer.entries.map Item.rect) t₀ := by
    refine (hd.above.congr (.of_eq fun c hc => ?_)).congr (hsame t₀.1)
    have hu : c ∈ b ::ₘ t₀.1 := Multiset.mem_cons_of_mem hc
    have hc1 : c ≠ s₁.blkno1 := fun e => hsp.fresh1 (e ▸ hu)
    have hc0 : c ≠ s₁.blkno0 := fun e => hsp.fresh0 (e ▸ hu)
    rw [hsp.index, Function.update_of_ne hc1, Function.update_of_ne hc0]
  have hal : Alloc s₂ (b ::ₘ ((t₀ + t₁ + t₂).1 + 0)) := by
    have heq : b ::ₘ ((t₀ + t₁ + t₂).1 + 0) = s₁.blkno0 ::ₘ s₁.blkno1 ::ₘ b ::ₘ t₀.1 := by
      show b ::ₘ (t₀.1 + {s₁.blkno0} + {s₁.blkno1} + 0) = _
      simp only [← Multiset.singleton_add]
      abel
    rw [heq]
    refine hsp.alloc.congr rfl rfl fun c hc => hframe c fun hmem => hc ?_
    simp [(hd.chained_leaf hmem).1]
  have hleaves : ((as ++ s₁.blkno0 :: s₁.blkno1 :: bs : List Nat) : Multiset Nat) =
      (t₀ + t₁ + t₂).2.1 := by
    show _ = t₀.2.1 + {s₁.blkno0} + {s₁.blkno1}
    have hp : ([s₁.blkno0, s₁.blkno1] ++ bs).Perm (bs ++ [s₁.blkno0, s₁.blkno1]) :=
      List.perm_append_comm
    rw [← hd.chained, ← Multiset.coe_singleton, ← Multiset.coe_singleton, Multiset.coe_add,
      Multiset.coe_add, Multiset.coe_eq_coe, List.append_assoc, List.append_assoc]
    exact hp.append_left as
  obtain ⟨s', h', t', hrun, hr⟩ :=
    adjustTreeWithSplit_ok (s := s₂) (hsp.m.trans hd.m) habove h0 h1 hal
  refine ⟨s', h', t', ?_, ⟨hr.m, hr.tree, ?_, ?_⟩, ?_, fun h => hsp.clears (hr.clears h)⟩
  · unfold RTree.insertSplit
    dsimp only
    rw [hnext, hprev, hs₁, ok_bind, hlptr, ← bind_assoc, hrelink]
    exact hrun
  · have := hr.alloc
    rwa [add_zero] at this
  · refine ⟨as ++ s₁.blkno0 :: s₁.blkno1 :: bs, ?_, hr.lptr, hseg.congr fun c hc => ?_⟩
    · rw [hr.same, hleaves]
    · exact hr.leaves c (hleaves ▸ Multiset.mem_coe.mpr hc)
  · rw [hr.same]
    show t₀.2.2 + (s₁.split0.entries : Multiset Item) + (s₁.split1.entries : Multiset Item) = _
    rw [add_assoc, Multiset.coe_add, leafAfter, if_pos hfull, Multiset.coe_eq_coe.mpr hsp.items]

end

theorem leafAfter_keys (itembuf : Nat → Item) (n : Node) (mbr : Rect) (tplno : Nat) :
    ((leafAfter itembuf n mbr tplno).map Item.key).Perm
      ((mbr, tplno) :: n.entries.map Item.key) := by
  unfold leafAfter
  split
  · next hfull => exact .of_eq (split_keys itembuf mbr tplno _ hfull)
  · rw [List.map_append]
    exact List.perm_append_singleton _ _

/-- What an insertion does: it picks a leaf and replaces its entries by `leafAfter`. -/
theorem insertRtreeAux_ok {items : Multiset Item} (hs : WellFormed s items) (mbr : Rect)
    (tplno : Nat) :
    ∃ s₁ b anc s' rest, destLeaf s mbr = .ok (s₁, b, anc) ∧
      items = rest + (s₁.buffer.entries : Multiset Item) ∧ s₁.itembuf = s.itembuf ∧
      insertRtreeAux s mbr tplno = .ok s' ∧
      WellFormed s' (rest + (leafAfter s.itembuf s₁.buffer mbr tplno : Multiset Item)) ∧
      ((s'.itembuf 0).del = true → (s.itembuf 0).del = true) := by
  have hdest : ∃ s₁ b anc h t₀ as bs, destLeaf s mbr = .ok (s₁, b, anc) ∧
      Dest s₁ h b anc t₀ as bs ∧ items = t₀.2.2 + (s₁.buffer.entries : Multiset Item) ∧
      s₁.itembuf = s.itembuf := by
    rcases hs with ⟨hs, rfl⟩ | ⟨h, t, hs, rfl⟩
    · obtain ⟨s₁, hrun, hd, hes, hbuf⟩ := destLeaf_empty hs mbr
      exact ⟨s₁, 1, [], 0, 0, [], [], hrun, hd, by rw [hes]; rfl, hbuf⟩
    · obtain ⟨s₁, b, anc, t₀, as, bs, hrun, hd, hes, hbuf⟩ := destLeaf_tree hs mbr
      exact ⟨s₁, b, anc, h, t₀, as, bs, hrun, hd, hes, hbuf⟩
  obtain ⟨s₁, b, anc, h, t₀, as, bs, hrun, hd, hitems, hbuf⟩ := hdest
  by_cases hfull : s₁.buffer.counter = maxEntries
  · obtain ⟨s', h', t', hins, hs', hitems', hclr⟩ := hd.insertSplit hfull mbr tplno
    refine ⟨s₁, b, anc, s', t₀.2.2, hrun, hitems, hbuf, ?_, .inr ⟨h', t', hs', ?_⟩, hbuf ▸ hclr⟩
    · rw [insertRtreeAux, hrun]
      simp [if_pos hfull, hins]
    · rw [hitems', hbuf]
  · obtain ⟨s', n', hins, hent, hs', hbuf'⟩ := hd.insertNoSplit hfull mbr tplno
    refine ⟨s₁, b, anc, s', t₀.2.2, hrun, hitems, hbuf, ?_, .inr ⟨h, _, hs', ?_⟩, ?_⟩
    · rw [insertRtreeAux, hrun]
      simp [if_neg hfull, hins]
    · rw [leafAfter, if_neg hfull, ← hent]
      rfl
    · rw [hbuf', hbuf]
      exact id

def insertAll (s : State) (ops : List (Rect × Nat)) : Except Err State :=
  ops.foldlM (fun s op => insertRtreeAux s op.1 op.2) s

theorem initRtree_wellFormed (s : State) : WellFormed (initRtree s) 0 :=
  .inl ⟨⟨rfl, rfl, rfl, rfl⟩, rfl⟩

/-- No insertion into an R-tree built by insertions fails; after each one it is balanced, covering
and filled, and holds exactly what was inserted. -/
theorem insertAll_wellFormed (s : State) (ops : List (Rect × Nat)) :
    ∃ s' items, insertAll (initRtree s) ops = .ok s' ∧ WellFormed s' items ∧
      items.map Item.key = (ops : Multiset (Rect × Nat)) := by
  have hstep : ∀ (xs : List (Rect × Nat)) (op : Rect × Nat) (t : State),
      (∃ items, WellFormed t items ∧ items.map Item.key = (xs : Multiset (Rect × Nat))) →
      ∃ t', insertRtreeAux t op.1 op.2 = .ok t' ∧ ∃ items, WellFormed t' items ∧
        items.map Item.key = ((xs ++ [op] : List (Rect × Nat)) : Multiset (Rect × Nat)) := by
    rintro xs ⟨mbr, tplno⟩ t ⟨items, ht, hitems⟩
    obtain ⟨s₁, b, anc, t', rest, -, rfl, -, hins, ht', -⟩ := insertRtreeAux_ok ht mbr tplno
    refine ⟨t', hins, _, ht', ?_⟩
    rw [Multiset.map_add, Multiset.map_coe,
      Multiset.coe_eq_coe.mpr (leafAfter_keys _ _ mbr tplno), ← Multiset.cons_coe,
      Multiset.add_cons, ← Multiset.map_coe, ← Multiset.map_add, hitems, Multiset.cons_coe,
      Multiset.coe_eq_coe]
    exact (List.perm_append_singleton _ _).symm
  obtain ⟨s', hrun, items, hs', hitems⟩ :=
    foldlM_inv _ _ ⟨0, initRtree_wellFormed s, rfl⟩ hstep ops
  exact ⟨s', items, hrun, hs', hitems⟩

end StreamMill.RTree
