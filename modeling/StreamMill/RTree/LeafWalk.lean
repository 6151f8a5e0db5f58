import StreamMill.RTree.Dfs
import Mathlib.Logic.Relation

/-!
# StreamMill.RTree.LeafWalk

The leaf chain seen from outside. `Reachable s b`: block `b` is reached from the root by block
pointers. `leafWalk` follows the next pointers from `lptr`, as the sequential search does; after
insertions it comes to every leaf that is reachable, once, and stops (`insertAll_leafWalk`).
-/

namespace StreamMill.RTree

open Lib

variable {s : State} {index : Nat → Page}

/-- Block `b` is an inner block with an entry for block `c`. -/
def PointsTo (index : Nat → Page) (b c : Nat) : Prop :=
  ∃ n, index b = .node n ∧ n.nodetype = .inner ∧ ∃ it ∈ n.entries, it.ptr = blkPtr c

/-- An empty tree has no root block, whatever the file holds there. -/
def Reachable (s : State) (b : Nat) : Prop :=
  s.tbInd ≠ 1 ∧ Relation.ReflTransGen (PointsTo s.index) 1 b

variable {t : Contents} {b h : Nat}

theorem Parts.block {k c : Nat} {es : List (Rect × Nat)} (h : Parts (Child (Subtree index k)) es t)
    (hc : c ∈ t.1) :
    ∃ e ∈ es, ∃ d ces u v, e.2 = blkPtr d ∧ Subtree index k d ces u ∧ c ∈ u.1 ∧ t = u + v := by
  obtain ⟨e, he, u, v, ⟨d, ces, hptr, -, -, -, hd⟩, hcu, rfl⟩ :=
    h.of_sum (R := fun t => c ∈ t.1) hc (Multiset.notMem_zero c) fun u v => Multiset.mem_add.mp
  exact ⟨e, he, d, ces, u, v, hptr, hd, hcu, rfl⟩

theorem Subtree.reach {es : List Item} (ht : Subtree index h b es t) (c : Nat) :
    Relation.ReflTransGen (PointsTo index) b c ↔ c ∈ t.1 := by
  induction h generalizing b es t with
  | zero =>
    obtain ⟨⟨n, hn, hty, -⟩, -, rfl⟩ := ht
    rw [Multiset.mem_singleton]
    constructor
    · intro hreach
      rcases hreach.cases_head with rfl | ⟨d, ⟨n', hn', hty', -⟩, -⟩
      · rfl
      · rw [hn] at hn'
        cases hn'
        rw [hty] at hty'
        cases hty'
    · rintro rfl
      exact .refl
  | succ h ih =>
    obtain ⟨⟨n, hn, hty, rfl⟩, -, -, t', hparts, rfl⟩ := ht
    rw [Prod.fst_add, Multiset.mem_add, Multiset.mem_singleton]
    constructor
    · intro hreach
      rcases hreach.cases_head with rfl | ⟨d, ⟨n', hn', -, it, hit, hptr⟩, hdc⟩
      · exact .inl rfl
      · rw [hn] at hn'
        cases hn'
        obtain ⟨u, v, ⟨d', ces, hptr', -, -, -, hd⟩, rfl⟩ :=
          hparts.of_mem (List.mem_map_of_mem hit)
        obtain rfl : d' = d := blkPtr_inj (hptr'.symm.trans hptr)
        exact .inr (Multiset.mem_add.mpr (.inl ((ih hd).mp hdc)))
    · rintro (rfl | hc)
      · exact .refl
      · obtain ⟨e, he, d, ces, u, v, hptr, hd, hcu, -⟩ := Parts.block hparts hc
        obtain ⟨it, hit, rfl⟩ := List.mem_map.mp he
        exact .head ⟨n, hn, hty, it, hit, hptr⟩ ((ih hd).mpr hcu)

theorem Subtree.leaf_iff {es : List Item} (ht : Subtree index h b es t) {c : Nat} (hc : c ∈ t.1) :
    c ∈ t.2.1 ↔ (index c).isLeaf = true := by
  constructor
  · intro hl
    obtain ⟨ces, n, hn, hty, -⟩ := ht.leavesIn.2 c hl
    simp [hn, Page.isLeaf, hty]
  · intro hleaf
    induction h generalizing b es t with
    | zero =>
      obtain ⟨-, -, rfl⟩ := ht
      exact hc
    | succ h ih =>
      obtain ⟨⟨n, hn, hty, -⟩, -, -, t', hparts, rfl⟩ := ht
      rcases Multiset.mem_add.mp hc with hc | hc
      · obtain rfl := Multiset.mem_singleton.mp hc
        simp [hn, Page.isLeaf, hty] at hleaf
      · obtain ⟨e, -, d, ces, u, v, -, hd, hcu, rfl⟩ := Parts.block hparts hc
        have hcl := ih hd hcu
        exact Multiset.mem_add.mpr (.inr (Multiset.mem_add.mpr (.inl hcl)))

/-- One pass of the sequential search: the leaf at `blkptr` is read and its next pointer taken.
`blks` are the blocks read before. -/
def leafPass (s : State) : Nat × List Nat → Except Err (Nat × List Nat)
  | (blkptr, blks) => do
    let page ← peekBlkByPtr s blkptr
    return ((page.contents zeroNode).nextlptr, blks ++ [blkptr / blockSz])

/-- The walk from `lptr`, `while (blkptr != 0)`. -/
def leafWalk (s : State) (fuel : Nat) : Option (Except Err (Nat × List Nat)) :=
  whileLoop (fun c => c.1 != 0) (leafPass s) fuel (s.lptr, [])

theorem leafPass_node {n : Node} (hn : s.index b = .node n) (blks : List Nat) :
    leafPass s (blkPtr b, blks) = .ok (n.nextlptr, blks ++ [b]) := by
  rw [leafPass, peekBlkByPtr_node hn, blkPtr, Nat.mul_div_cancel b blockSz_pos]
  rfl

theorem LeafSeg.passes {p : Nat} {bs : List Nat} (h : LeafSeg s.index p bs 0)
    (hnode : ∀ b ∈ bs, b ≠ 0 ∧ ∃ n, s.index b = .node n) (blks : List Nat) :
    Passes (fun c => c.1 != 0) (leafPass s) (first blkPtr bs 0, blks) (0, blks ++ bs) := by
  induction bs generalizing p blks with
  | nil =>
    rw [List.append_nil]
    exact .refl
  | cons b bs ih =>
    obtain ⟨-, hnext, hseg⟩ := h
    obtain ⟨hb, n, hn⟩ := hnode b List.mem_cons_self
    have hpass := ih hseg (fun c hc => hnode c (List.mem_cons_of_mem _ hc)) (blks ++ [b])
    rw [List.append_assoc, ← hnext] at hpass
    simp only [hn, Page.nextlptr] at hpass
    refine .pass ?_ (leafPass_node hn blks) hpass
    simpa using blkPtr_ne_zero hb

theorem IsTree.leafWalk (hs : IsTree s h t) :
    ∃ bs : List Nat, (bs : Multiset Nat) = t.2.1 ∧ s.lptr = first blkPtr bs 0 ∧
      LeafSeg s.index 0 bs 0 ∧ Returns (leafWalk s) (.ok (0, bs)) := by
  obtain ⟨bs, hbs, hlptr, hseg⟩ := hs.chain
  obtain ⟨es, hroot⟩ := hs.tree
  have hnode : ∀ b ∈ bs, b ≠ 0 ∧ ∃ n, s.index b = .node n := by
    intro b hb
    rw [← Multiset.mem_coe, hbs] at hb
    obtain ⟨bes, n, hn, -⟩ := hroot.leavesIn.2 b hb
    have := (hs.alloc.mem (hroot.leavesIn.mem hb)).1
    exact ⟨by omega, n, hn⟩
  have hwalk := hseg.passes hnode []
  rw [← hlptr] at hwalk
  exact ⟨bs, hbs, hlptr, hseg, hwalk.ends rfl⟩

theorem IsTree.reachable (hs : IsTree s h t) (b : Nat) :
    Reachable s b ↔ b ∈ t.1 := by
  obtain ⟨es, hroot⟩ := hs.tree
  have hne : s.tbInd ≠ 1 := by
    have := hs.alloc.mem hroot.mem
    omega
  rw [Reachable, hroot.reach]
  exact and_iff_right hne

theorem IsEmpty.not_reachable (hs : IsEmpty s) (b : Nat) : ¬Reachable s b :=
  fun h => h.1 hs.2.2.1

/-- After one or more insertions the walk from `lptr` comes to every leaf block of the tree, once,
and ends at 0; the previous pointers are inverse to the next pointers. -/
theorem insertAll_leafWalk (s : State) (op : Rect × Nat) (ops : List (Rect × Nat)) :
    ∃ s' bs, insertAll (initRtree s) (op :: ops) = .ok s' ∧
      Returns (leafWalk s') (.ok (0, bs)) ∧ bs.Nodup ∧
      (∀ b, b ∈ bs ↔ Reachable s' b ∧ (s'.index b).isLeaf = true) ∧
      (∀ b ∈ bs, ∀ c ∈ bs,
        (s'.index b).nextlptr = blkPtr c ↔ (s'.index c).prevlptr = blkPtr b) ∧
      ∀ c ∈ bs, (s'.index c).prevlptr = 0 ↔ s'.lptr = blkPtr c := by
  obtain ⟨s', items, hrun, hs', hitems⟩ := insertAll_wellFormed s (op :: ops)
  obtain ⟨-, rfl⟩ | ⟨h, t, ht, -⟩ := hs'
  · exact absurd hitems.symm (Multiset.cons_ne_zero (m := (ops : Multiset (Rect × Nat))))
  obtain ⟨bs, hbs, hlptr, hseg, hwalk⟩ := ht.leafWalk
  obtain ⟨es, hroot⟩ := ht.tree
  have hmem : ∀ b, b ∈ bs ↔ b ∈ t.2.1 := fun b => by rw [← hbs, Multiset.mem_coe]
  have hne : ∀ b ∈ bs, blkPtr b ≠ 0 := by
    intro b hb
    have := (ht.alloc.mem (hroot.leavesIn.mem ((hmem b).mp hb))).1
    exact blkPtr_ne_zero (by omega)
  refine ⟨s', bs, hrun, hwalk, ?_, fun b => ?_, fun b hb c hc => ?_, fun c hc => ?_⟩
  · rw [← Multiset.coe_nodup, hbs]
    exact ht.leaves_nodup
  · rw [hmem, ht.reachable]
    constructor
    · intro hb
      have hbt := hroot.leavesIn.mem hb
      exact ⟨hbt, (hroot.leaf_iff hbt).mp hb⟩
    · rintro ⟨hbt, hleaf⟩
      exact (hroot.leaf_iff hbt).mpr hleaf
  · exact hseg.next_iff_prev (fun _ _ => blkPtr_inj) (hne b hb) (hne c hc) hb hc
  · rw [hseg.prev_eq_iff (fun _ _ => blkPtr_inj) hne hc, hlptr]

end StreamMill.RTree
