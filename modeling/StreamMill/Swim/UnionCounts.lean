import StreamMill.Swim.Accurate
import StreamMill.Swim.Union

/-!
# StreamMill.Swim.UnionCounts

The supports after `UnionTrees`. Every node of the temporary tree is put in with the whole path to
it, and its support is added to every node of that path: a pattern gets the supports of all
temporary patterns that extend it (`Stamped.union_support`), its own among them.
-/

namespace StreamMill.Swim

open Lib
open FPTree (Trans Adr)

structure SortedTree (tree : Tree) (S : Shape) (addr : Adr → Ptr) : Prop where
  links : Linked tree S addr
  sorted : ∀ a, (S.children a).Pairwise (· < ·)
  table : ∀ b ∈ S.nodes, ∀ i ∈ b, i < S.maxItems

def Tree.supportAt (tree : Tree) (S : Shape) (addr : Adr → Ptr) (b : Adr) : Int :=
  ((tree.stamps S addr).support b).toInt

def UnionRight (main : Tree) (S : Shape) (addr : Adr → Ptr) (temp : Tree) (T : Shape)
    (taddr : Adr → Ptr) (w : BitVec 16) (maxLen : Int) : Prop :=
  ∃ tree' n S' addr', unionTrees main temp w maxLen = .ok (tree', n) ∧
    SortedTree tree' S' addr' ∧ (∀ b, b ∈ S'.nodes ↔ b ∈ S.nodes ∨ b ∈ T.nodes) ∧
    ∀ b, tree'.supportAt S' addr' b = main.supportAt S addr b + temp.supportAt T taddr b

def Tree.extra (tree : Tree) (S : Shape) (addr : Adr → Ptr) (b : Adr) : BitVec 32 :=
  ((S.extensions b).map fun a => (tree.node (addr a)).support).sum

variable {main temp tree tree' : Tree} {S S' T : Shape} {addr addr' taddr : Adr → Ptr} {b : Adr}
  {D : Stamps} {w : BitVec 16} {maxLen : Int}

theorem Linked.unique (h : Linked tree S addr) (h' : Linked tree S' addr') (hb : S.Has b) :
    S'.Has b ∧ addr' b = addr b := by
  obtain ⟨b', hb', haddr, heq⟩ := h'.at_iff.mp (h.at_iff.mpr ⟨b, hb, rfl, rfl⟩)
  obtain rfl := List.map_injective_iff.mpr Int.ofNat_injective heq
  exact ⟨hb', haddr.symm⟩

theorem Linked.stamps_unique (h : Linked tree S addr) (h' : Linked tree S' addr') :
    tree.stamps S addr = tree.stamps S' addr' := by
  have hnodes : ∀ {S₁ S₂ : Shape} {f g : Adr → Ptr}, Linked tree S₁ f → Linked tree S₂ g →
      ∀ b ∈ S₁.nodes, b ∈ S₂.nodes := fun {S₁ S₂ f g} h₁ h₂ b hb =>
    (List.mem_cons.mp (h₁.unique h₂ (S₁.has_node hb)).1).resolve_left (h₁.ok.ne_nil hb)
  funext b
  by_cases hb : b ∈ S.nodes
  · rw [tree.stamps_node addr hb, tree.stamps_node addr' (hnodes h h' b hb),
      (h.unique h' (S.has_node hb)).2]
  · rw [tree.stamps_other addr hb, tree.stamps_other addr' fun hm => hb (hnodes h' h b hm)]

theorem sum_map_split {α β : Type} [AddCommMonoid β] [DecidableEq α] {l : List α} (hnd : l.Nodup)
    {x : α} (hx : x ∈ l) (f : α → β) :
    (l.map f).sum = f x + ((l.filter fun y => y ≠ x).map f).sum := by
  have herase : l.filter (fun y => y ≠ x) = l.erase x := by
    rw [hnd.erase_eq_filter]
    exact List.filter_congr fun y _ => by by_cases hyx : y = x <;> simp [hyx]
  rw [herase, List.sum_map_erase f hx]

theorem Shape.sum_passed {β : Type} [AddCommMonoid β] (hnd : T.nodes.Nodup) (f : Adr → β)
    (b : Adr) :
    ((T.nodes.filter fun a => b <+: a).map f).sum =
      (if b ∈ T.nodes then f b else 0) + ((T.extensions b).map f).sum := by
  by_cases hb : b ∈ T.nodes
  · have hmem : b ∈ T.nodes.filter fun a => b <+: a :=
      List.mem_filter.mpr ⟨hb, decide_eq_true List.prefix_rfl⟩
    have hext : (T.nodes.filter fun a => b <+: a).filter (fun a => a ≠ b) = T.extensions b := by
      rw [List.filter_filter]
      refine List.filter_congr fun a _ => ?_
      rw [← Bool.decide_and]
      exact decide_eq_decide.mpr and_comm
    rw [if_pos hb, sum_map_split (hnd.filter _) hmem, hext]
  · have hext : T.nodes.filter (fun a => b <+: a) = T.extensions b := by
      refine List.filter_congr fun a ha => decide_eq_decide.mpr (iff_self_and.mpr fun _ => ?_)
      rintro rfl
      exact hb ha
    rw [if_neg hb, hext, zero_add]

theorem Stamps.insertAll_support (hb : b ≠ []) (ops : List (Trans × BitVec 16)) :
    (D.insertAll ops).support b =
      D.support b + ((through b ops).map fun op => BitVec.ofNat 32 op.1.support).sum := by
  rw [support, insertAll_apply D ops hb, passes_support]
  rfl

theorem Tree.support_stamps (tree : Tree) (S : Shape) (addr : Adr → Ptr) (b : Adr) :
    (tree.stamps S addr).support b = if b ∈ S.nodes then (tree.node (addr b)).support else 0 := by
  rw [Stamps.support]
  split
  · next hb =>
    rw [tree.stamps_node addr hb]
    rfl
  · next hb =>
    rw [tree.stamps_other addr hb]
    rfl

theorem Linked.union_support (ht : Linked temp T taddr)
    (hitems : ∀ b ∈ T.nodes, ∀ i ∈ b, i < T.maxItems)
    (hs : ∀ a ∈ T.nodes, 0 ≤ (temp.node (taddr a)).support.toInt) (hb : b ≠ []) :
    (D.insertAll (((temp.items.flatMap fun i => (T.header i).reverse).map
      (pathTrans temp taddr)).map fun t => (t, w))).support b =
      D.support b + ((temp.stamps T taddr).support b + temp.extra T taddr b) := by
  have hperm : (temp.items.flatMap fun i => (T.header i).reverse).Perm T.nodes :=
    (List.Perm.flatMap_left _ fun i _ => List.reverse_perm _).trans (ht.header_perm hitems)
  have hsupport : ∀ a ∈ T.nodes, BitVec.ofNat 32 (pathTrans temp taddr a).support =
      (temp.node (taddr a)).support := by
    intro a ha
    have hnat := Int.toNat_of_nonneg (hs a ha)
    rw [pathTrans, ← BitVec.ofInt_natCast, hnat, BitVec.ofInt_toInt]
  have hsum : ((Stamps.through b (((temp.items.flatMap fun i => (T.header i).reverse).map
      (pathTrans temp taddr)).map fun t => (t, w))).map fun op =>
        BitVec.ofNat 32 op.1.support).sum =
      ((T.nodes.filter fun a => b <+: a).map fun a => (temp.node (taddr a)).support).sum := by
    rw [Stamps.through, List.map_map, List.filter_map, List.map_map]
    refine ((hperm.filter _).map _).sum_eq.trans ?_
    exact congrArg List.sum (List.map_congr_left fun a ha => hsupport a (List.mem_filter.mp ha).1)
  rw [Stamps.insertAll_support hb, hsum, Shape.sum_passed ht.ok.nodup, ← Tree.support_stamps]
  rfl

theorem toInt_add_iff {x y e : BitVec 32} (hx : 0 ≤ x.toInt) (hy : 0 ≤ y.toInt) :
    (x + (y + e)).toInt = x.toInt + y.toInt ↔ e = 0 ∧ x.toInt + y.toInt < 2 ^ 31 := by
  have hsum : x.toInt + y.toInt < 2 ^ 31 → (x + y).toInt = x.toInt + y.toInt := by
    intro hlt
    rw [BitVec.toInt_add, Int.bmod_eq_of_le (by omega) (by omega)]
  constructor
  · intro h
    have hlt := BitVec.toInt_lt (x := x + (y + e))
    have hfit : x.toInt + y.toInt < 2 ^ 31 := by
      rw [← h]
      exact hlt
    rw [← hsum hfit] at h
    have heq := BitVec.eq_of_toInt_eq h
    rw [← add_assoc] at heq
    exact ⟨add_eq_left.mp heq, hfit⟩
  · rintro ⟨rfl, hlt⟩
    rw [add_zero, hsum hlt]

theorem SortedTree.stamped (h : SortedTree tree S addr) :
    Stamped tree S addr (tree.stamps S addr) := ⟨h.links, h.sorted, rfl⟩

theorem UnionRight.fits (ht : Linked temp T taddr)
    (h : UnionRight main S addr temp T taddr w maxLen) {i : Nat} (hi : i < T.maxItems) :
    pathsLen (T.header i) ≤ maxLen := by
  obtain ⟨tree', n, -, -, hrun, -⟩ := h
  obtain ⟨s₁, s₂, hstep⟩ := foldlM_ok_step hrun (temp.mem_items.mpr (ht.maxItems ▸ hi))
  obtain ⟨buf, hbuf, -⟩ := bind_eq_ok hstep
  rw [ht.partialDB_run] at hbuf
  by_contra hlong
  rw [if_pos (not_le.mp hlong)] at hbuf
  cases hbuf

theorem SortedTree.union (h : SortedTree main S addr) (ht : SortedTree temp T taddr)
    (hs : ∀ a ∈ T.nodes, 0 ≤ (temp.node (taddr a)).support.toInt)
    (hlen : ∀ i < T.maxItems, pathsLen (T.header i) ≤ maxLen) (w : BitVec 16) :
    ∃ tree' n S' addr', unionTrees main temp w maxLen = .ok (tree', n) ∧ Linked tree' S' addr' ∧
      (∀ a, (S'.children a).Pairwise (· < ·)) ∧ S'.maxItems = S.maxItems ∧
      (∀ b, b ∈ S'.nodes ↔ b ∈ S.nodes ∨ b ∈ T.nodes) ∧
      ∀ b, b ≠ [] → (tree'.stamps S' addr').support b = (main.stamps S addr).support b +
        ((temp.stamps T taddr).support b + temp.extra T taddr b) := by
  obtain ⟨tree', n, S', addr', hrun, h', hkeeps⟩ := h.stamped.union ht.links hs hlen w
  refine ⟨tree', n, S', addr', hrun, h'.links, h'.sorted, hkeeps.maxItems, fun b => ?_,
    fun b hb => ?_⟩
  · by_cases hb : b = []
    · subst hb
      simp [h'.links.ok.root, h.links.ok.root, ht.links.ok.root]
    · rw [h'.mem_iff, Stamps.insertAll_isSome hb, h.stamped.mem_iff]
      rw [← ht.links.passed_iff ht.table hb]
      simp
  · rw [← h'.stamp, ht.links.union_support ht.table hs hb]

theorem Linked.extra_eq_zero (ht : Linked temp T taddr) (hb : b ≠ []) (hno : b ∉ T.nodes) :
    temp.extra T taddr b = 0 := by
  have hnone : T.extensions b = [] := by
    refine List.filter_eq_nil_iff.mpr fun a ha => ?_
    rw [decide_eq_true_iff]
    exact fun hp => hno ((List.mem_cons.mp
      (ht.ok.has_prefix (T.has_node ha) hp.1)).resolve_left hb)
  rw [Tree.extra, hnone]
  rfl

theorem supportAt_nonneg (hs : ∀ a ∈ S.nodes, 0 ≤ (tree.node (addr a)).support.toInt) (b : Adr) :
    0 ≤ tree.supportAt S addr b := by
  rw [Tree.supportAt, Tree.support_stamps]
  split
  · next hb => exact hs b hb
  · exact le_refl _

theorem UnionRight.exact (h : SortedTree main S addr) (ht : SortedTree temp T taddr)
    (hs : ∀ a ∈ S.nodes, 0 ≤ (main.node (addr a)).support.toInt)
    (hs' : ∀ a ∈ T.nodes, 0 ≤ (temp.node (taddr a)).support.toInt)
    (hright : UnionRight main S addr temp T taddr w maxLen) (hb : b ∈ T.nodes) :
    (∀ i ∈ b, i < S.maxItems) ∧ temp.extra T taddr b = 0 ∧
      main.supportAt S addr b + temp.supportAt T taddr b < 2 ^ 31 := by
  obtain ⟨tree₁, n₁, S₁, addr₁, hrun₁, h₁, -, hmax, -, hsupport⟩ :=
    h.union ht hs' (fun i hi => hright.fits ht.links hi) w
  obtain ⟨tree', n, S', addr', hrun, h', hnodes, hboth⟩ := hright
  rw [hrun₁] at hrun
  cases hrun
  have hmax' : S'.maxItems = S.maxItems :=
    (h'.links.maxItems.symm.trans h₁.maxItems).trans hmax
  have hsum := hboth b
  rw [Tree.supportAt, h'.links.stamps_unique h₁, hsupport b (ht.links.ok.ne_nil hb)] at hsum
  exact ⟨hmax' ▸ h'.table b ((hnodes b).mpr (.inr hb)),
    (toInt_add_iff (supportAt_nonneg hs b) (supportAt_nonneg hs' b)).mp hsum⟩

/-- The supports are those of both trees exactly when the buffer has room for every chain, the
header table for every item, the extensions of every temporary pattern add nothing to it, and the
sums fit an `int`. -/
theorem unionRight_iff (h : SortedTree main S addr) (ht : SortedTree temp T taddr)
    (hs : ∀ a ∈ S.nodes, 0 ≤ (main.node (addr a)).support.toInt)
    (hs' : ∀ a ∈ T.nodes, 0 ≤ (temp.node (taddr a)).support.toInt) {room : Nat} :
    UnionRight main S addr temp T taddr w room ↔
      (∀ i < T.maxItems, pathsLen (T.header i) ≤ room) ∧
      ∀ b ∈ T.nodes, (∀ i ∈ b, i < S.maxItems) ∧ temp.extra T taddr b = 0 ∧
        main.supportAt S addr b + temp.supportAt T taddr b < 2 ^ 31 := by
  constructor
  · exact fun hright => ⟨fun i hi => Int.ofNat_le.mp (hright.fits ht.links hi), fun b hb =>
      hright.exact h ht hs hs' hb⟩
  · rintro ⟨hfits, hexact⟩
    have hlen : ∀ i < T.maxItems, (pathsLen (T.header i) : Int) ≤ room := fun i hi =>
      Int.ofNat_le.mpr (hfits i hi)
    obtain ⟨tree', n, S', addr', hrun, hlinks, hsorted, hmax, hnodes, hsupport⟩ :=
      h.union ht hs' hlen w
    refine ⟨tree', n, S', addr', hrun, ⟨hlinks, hsorted, fun b hb => ?_⟩, hnodes, fun b => ?_⟩
    · rw [hmax]
      rcases (hnodes b).mp hb with hb | hb
      · exact h.table b hb
      · exact (hexact b hb).1
    by_cases hb : b = []
    · subst hb
      simp [Tree.supportAt, Tree.support_stamps, hlinks.ok.root, h.links.ok.root, ht.links.ok.root]
    rw [Tree.supportAt, hsupport b hb]
    by_cases hm : b ∈ T.nodes
    · exact (toInt_add_iff (supportAt_nonneg hs b) (supportAt_nonneg hs' b)).mpr (hexact b hm).2
    · have hzero : temp.supportAt T taddr b = 0 := by
        rw [Tree.supportAt, Tree.support_stamps, if_neg hm]
        rfl
      rw [ht.links.extra_eq_zero hb hm, Tree.support_stamps temp, if_neg hm, hzero, add_zero,
        add_zero, add_zero]
      rfl

theorem newTree_stamped (maxItems : Nat) :
    Stamped (newTree maxItems) (shape (FPTree.newTree maxItems)) (fun _ => root) fun _ => none :=
  ⟨(Cleared.refines (.inl ⟨maxItems, rfl⟩)).links, fun _ => .nil, rfl⟩

theorem newTree_sorted (maxItems : Nat) :
    SortedTree (newTree maxItems) (shape (FPTree.newTree maxItems)) fun _ => root :=
  ⟨(newTree_stamped maxItems).links, fun _ => .nil, fun _ hb => absurd hb List.not_mem_nil⟩

theorem twoPatterns : ∃ temp n T taddr,
    insertPatternSortedly (newTree 2) ⟨1, [0, 1]⟩ 0 = .ok (temp, n) ∧ SortedTree temp T taddr ∧
      (∀ a ∈ T.nodes, (temp.node (taddr a)).support = 1) ∧ [0] ∈ T.nodes ∧
      T.extensions [0] = [[0, 1]] := by
  obtain ⟨temp, n, T, taddr, hrun, h, hkeeps, -⟩ := (newTree_stamped 2).insert
    (t := ⟨1, [0, 1]⟩) (by decide) 0
  have hstamp : ∀ b ∈ T.nodes, (b ≠ [] ∧ b <+: [0, 1]) ∧
      (temp.node (taddr b)).stamp = .made 1 0 := by
    intro b hb
    have heq := h.at_node hb
    rw [Stamps.insert_apply] at heq
    split at heq
    · next hp => exact ⟨hp, (Option.some.inj heq).symm⟩
    · cases heq
  have hnodes : ∀ b, b ≠ [] → b <+: [0, 1] → b ∈ T.nodes := by
    intro b hb hp
    rw [h.mem_iff, Stamps.insert_apply, if_pos ⟨hb, hp⟩]
    rfl
  refine ⟨temp, n, T, taddr, hrun, ⟨h.links, h.sorted, fun b hb i hi => ?_⟩, fun a ha => ?_,
    hnodes _ (by decide) (by decide), ?_⟩
  · rw [hkeeps.maxItems]
    exact (by decide : ∀ i ∈ [0, 1], i < 2) i ((hstamp b hb).1.2.subset hi)
  · exact congrArg Stamp.support (hstamp a ha).2
  · have hone : ∀ a, a ∈ T.extensions [0] ↔ a = [0, 1] := by
      intro a
      rw [Shape.extensions, List.mem_filter, decide_eq_true_iff]
      constructor
      · rintro ⟨ha, hp, hne⟩
        obtain ⟨rest, rfl⟩ := hp
        have hrest : rest <+: [1] := (List.prefix_append_right_inj [0]).mp (hstamp _ ha).1.2
        rcases List.prefix_cons_iff.mp hrest with rfl | ⟨tail, rfl, htail⟩
        · exact absurd rfl hne
        · rw [List.prefix_nil.mp htail]
          rfl
      · rintro rfl
        exact ⟨hnodes _ (by decide) (by decide), by decide, by decide⟩
    refine List.perm_singleton.mp ((List.perm_ext_iff_of_nodup (h.links.ok.nodup.filter _)
      (List.nodup_singleton _)).mpr fun a => ?_)
    rw [List.mem_singleton]
    exact hone a

/-- The support of {0, 1} comes to {0} as well. -/
theorem twoPatterns_not_unionRight : ∃ temp n T taddr,
    insertPatternSortedly (newTree 2) ⟨1, [0, 1]⟩ 0 = .ok (temp, n) ∧ SortedTree temp T taddr ∧
      (∀ a ∈ T.nodes, (temp.node (taddr a)).support = 1) ∧
      ¬ UnionRight (newTree 2) (shape (FPTree.newTree 2)) (fun _ => root) temp T taddr 0 100 := by
  obtain ⟨temp, n, T, taddr, hrun, h, hone, hmem, hext⟩ := twoPatterns
  refine ⟨temp, n, T, taddr, hrun, h, hone, fun hright => ?_⟩
  have hs : ∀ a ∈ T.nodes, 0 ≤ (temp.node (taddr a)).support.toInt := fun a ha => by
    rw [hone a ha]
    decide
  have hzero := (hright.exact (newTree_sorted 2) h (fun a ha => absurd ha List.not_mem_nil) hs
    hmem).2.1
  have hlong : [0, 1] ∈ T.extensions [0] := by
    rw [hext]
    exact List.mem_singleton_self _
  rw [Tree.extra, hext, List.map_singleton, List.sum_singleton,
    hone _ (List.mem_filter.mp hlong).1] at hzero
  exact absurd hzero (by decide)

/-- The same trees. -/
theorem unionRight_iff_twoPatterns : ∃ temp n T taddr,
    insertPatternSortedly (newTree 2) ⟨1, [0, 1]⟩ 0 = .ok (temp, n) ∧
      (UnionRight (newTree 2) (shape (FPTree.newTree 2)) (fun _ => root) temp T taddr 0 100 ↔
        (∀ i < T.maxItems, pathsLen (T.header i) ≤ 100) ∧
        ∀ b ∈ T.nodes, (∀ i ∈ b, i < 2) ∧ temp.extra T taddr b = 0 ∧
          (newTree 2).supportAt (shape (FPTree.newTree 2)) (fun _ => root) b +
            temp.supportAt T taddr b < 2 ^ 31) := by
  obtain ⟨temp, n, T, taddr, hrun, h, hone, -, -⟩ := twoPatterns
  refine ⟨temp, n, T, taddr, hrun, unionRight_iff (newTree_sorted 2) h
    (fun a ha => absurd ha List.not_mem_nil) fun a ha => ?_⟩
  rw [hone a ha]
  decide

end StreamMill.Swim
