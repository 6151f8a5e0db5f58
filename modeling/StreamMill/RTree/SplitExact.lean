import StreamMill.RTree.Deleted

/-!
# StreamMill.RTree.SplitExact

The covering rectangles that `split_node` computes step by step are the least ones (`Mbr`).
`splitNode_partitions`: the `M+1` entries come out in two blocks, each entry in one of them, each
block filled, and `coverr0` and `coverr1` are the bounding rectangles of the two.
-/

namespace StreamMill.RTree

open Lib

/-- `r` is the minimal bounding rectangle of the entries: every rectangle that covers them all
covers `r`. -/
structure Mbr (r : Rect) (its : List Item) : Prop where
  covers : ∀ it ∈ its, Covers r it.rect
  least : ∀ r', (∀ it ∈ its, Covers r' it.rect) → Covers r' r

variable {c r : Rect} {its : List Item}

theorem covers_compose {s : Rect} (hr : Covers c r) (hs : Covers c s) : Covers c (compose r s) :=
  ⟨le_min hr.1 hs.1, max_le hr.2.1 hs.2.1, max_le hr.2.2.1 hs.2.2.1, le_min hr.2.2.2 hs.2.2.2⟩

theorem Mbr.singleton (it : Item) : Mbr it.rect [it] := by
  constructor
  · intro x hx
    rw [List.mem_singleton.mp hx]
    exact Covers.refl _
  · intro r' h
    exact h it List.mem_cons_self

theorem Mbr.snoc (h : Mbr c its) (it : Item) : Mbr (compose c it.rect) (its ++ [it]) := by
  constructor
  · exact covers_snoc h.covers
  · intro r' hr'
    refine covers_compose (h.least r' fun x hx => hr' x ?_) (hr' it ?_)
    · exact List.mem_append_left _ hx
    · exact List.mem_append_right _ (List.mem_singleton_self it)

/-- The covers of the two groups are their bounding rectangles. -/
def Tight (g : Grouping) : Prop :=
  Mbr g.coverr0 (slots g.num0 g.items0) ∧ Mbr g.coverr1 (slots g.num1 g.items1)

theorem seedGroups_tight (s : State) (items : Nat → Item) : Tight (seedGroups s items) := by
  refine ⟨?_, ?_⟩
  · exact .singleton _
  · exact .singleton (items (pickSeeds items (maxEntries + 1)).2).undelete

/-- A pass puts one entry into one group and grows the cover of that group by it. -/
theorem groupNext_tight {m i : Nat} {g g' : Grouping} (hg : Tight g)
    (h : groupNext m g i = .ok g') : Tight g' := by
  obtain ⟨h0, h1⟩ := hg
  unfold groupNext at h
  split at h
  · cases h
  · next next hnext =>
    simp only at h
    split at h
    · cases h
      refine ⟨?_, h1⟩
      rw [slots_update]
      exact h0.snoc (g.itembuf next).undelete
    · cases h
      refine ⟨h0, ?_⟩
      rw [slots_update]
      exact h1.snoc (g.itembuf next).undelete

theorem getNewblock_covers {s s' : State} {b : Nat} (h : getNewblock s = .ok (b, s')) :
    s'.coverr0 = s.coverr0 ∧ s'.coverr1 = s.coverr1 := by
  unfold getNewblock at h
  split at h
  · cases h
    exact ⟨rfl, rfl⟩
  · split at h
    · cases h
      exact ⟨rfl, rfl⟩
    · cases h

theorem splitNode_tight {s s' : State} {cur ptr ptr0 ptr1 : Nat} {mbr : Rect} {ty : NodeType}
    (h : splitNode s cur mbr ptr ty ptr0 ptr1 = .ok s') :
    Mbr s'.coverr0 s'.split0.entries ∧ Mbr s'.coverr1 s'.split1.entries := by
  obtain ⟨s₁, -, h⟩ := bind_eq_ok h
  obtain ⟨g, hg, h⟩ := bind_eq_ok h
  obtain ⟨⟨b0, s₂⟩, hb0, h⟩ := bind_eq_ok h
  obtain ⟨⟨b1, s₃⟩, hb1, h⟩ := bind_eq_ok h
  cases h
  obtain ⟨h0, h1⟩ := foldlM_ok_inv (fun _ _ _ => groupNext_tight) (seedGroups_tight s₁ _) hg
  obtain ⟨hc0, hc1⟩ := getNewblock_covers hb0
  obtain ⟨hc0', hc1'⟩ := getNewblock_covers hb1
  constructor
  · show Mbr s₃.coverr0 (splitBlock _ _ _ _ _ _).entries
    rw [splitBlock_entries, hc0', hc0]
    exact h0
  · show Mbr s₃.coverr1 (splitBlock _ _ _ _ _ _).entries
    rw [splitBlock_entries, hc1', hc1]
    exact h1

/-- `split_node` puts the entries of a full block and one more into two fresh blocks, each once;
each block has from `m` to `M` of them, and the covers are the bounding rectangles. -/
theorem splitNode_partitions {s : State} {cur : Nat} {nd : Node} {used : Multiset Nat}
    (hread : peekBlk s cur = .ok nd) (hfull : nd.counter = maxEntries) (hm : s.m = 2)
    (ha : Alloc s used) (mbr : Rect) (ptr : Nat) (ty : NodeType) (ptr0 ptr1 : Nat) :
    ∃ s' n0 n1, splitNode s cur mbr ptr ty ptr0 ptr1 = .ok s' ∧
      s'.blkno0 ∉ used ∧ s'.blkno1 ∉ used ∧ s'.blkno0 ≠ s'.blkno1 ∧
      s'.index s'.blkno0 = .node n0 ∧ s'.index s'.blkno1 = .node n1 ∧
      ((n0.entries ++ n1.entries).map Item.key).Perm ((mbr, ptr) :: nd.entries.map Item.key) ∧
      (s.m ≤ n0.entries.length ∧ n0.entries.length ≤ maxEntries) ∧
      (s.m ≤ n1.entries.length ∧ n1.entries.length ≤ maxEntries) ∧
      Mbr s'.coverr0 n0.entries ∧ Mbr s'.coverr1 n1.entries := by
  obtain ⟨s', hs', hsp, -⟩ := splitNode_ok hread hm ha mbr ptr ty ptr0 ptr1
  obtain ⟨htight0, htight1⟩ := splitNode_tight hs'
  have hkeys := hsp.keys hfull
  rw [← List.map_append] at hkeys
  refine ⟨s', s'.split0, s'.split1, hs', hsp.fresh0, hsp.fresh1, hsp.ne, ?_, ?_, hkeys, ?_, ?_,
    htight0, htight1⟩
  · rw [hsp.index, Function.update_of_ne hsp.ne, Function.update_self]
  · rw [hsp.index, Function.update_self]
  · rw [hm, Node.entries_length]
    exact hsp.fill0
  · rw [hm, Node.entries_length]
    exact hsp.fill1

theorem splitNode_partitions_fullLeaf :
    ∃ s' n0 n1, splitNode (leafRoot fullLeaf) 1 ⟨1, 2, 2, 1⟩ 96 .leaf 0 0 = .ok s' ∧
      s'.blkno0 ∉ ({1} : Multiset Nat) ∧ s'.blkno1 ∉ ({1} : Multiset Nat) ∧
      s'.blkno0 ≠ s'.blkno1 ∧
      s'.index s'.blkno0 = .node n0 ∧ s'.index s'.blkno1 = .node n1 ∧
      ((n0.entries ++ n1.entries).map Item.key).Perm
        ((⟨1, 2, 2, 1⟩, 96) :: fullLeaf.entries.map Item.key) ∧
      (2 ≤ n0.entries.length ∧ n0.entries.length ≤ maxEntries) ∧
      (2 ≤ n1.entries.length ∧ n1.entries.length ≤ maxEntries) ∧
      Mbr s'.coverr0 n0.entries ∧ Mbr s'.coverr1 n1.entries := by
  have ha : Alloc (leafRoot fullLeaf) {1} := ⟨(by decide : 1 ≤ 2), [], rfl, rfl⟩
  exact splitNode_partitions rfl rfl rfl ha ⟨1, 2, 2, 1⟩ 96 .leaf 0 0

def enlargeDiff (c0 c1 r : Rect) : Int :=
  |(area (compose c0 r) - area c0) - (area (compose c1 r) - area c1)|

def PicksBest (c0 c1 : Rect) (flags : Nat → Bool) (items : Nat → Item) (n : Nat) : Prop :=
  (∃ i < n, flags i = true) → ∃ j, pickNext c0 c1 flags items n = some j ∧ j < n ∧
    flags j = true ∧ ∀ k < n, flags k = true →
      enlargeDiff c0 c1 (items k).rect ≤ enlargeDiff c0 c1 (items j).rect

theorem pickNext_last {c0 c1 : Rect} {flags : Nat → Bool} {items : Nat → Item} {n j : Nat}
    (h : pickNext c0 c1 flags items n = some j) : ∀ k < n, flags k = true → k ≤ j := by
  induction n with
  | zero => omega
  | succ n ih =>
    rw [pickNext_succ] at h
    intro k hk hflag
    split at h
    · cases h
      omega
    · next hlast =>
      have hne : k ≠ n := fun heq => hlast (heq ▸ hflag)
      exact ih h k (by omega) hflag

/-- `pick_next` picks the best entry if and only if that is the last one. -/
theorem picksBest_iff (c0 c1 : Rect) (flags : Nat → Bool) (items : Nat → Item) (n : Nat) :
    PicksBest c0 c1 flags items n ↔
      ∀ last < n, flags last = true → (∀ k < n, flags k = true → k ≤ last) →
        ∀ k < n, flags k = true →
          enlargeDiff c0 c1 (items k).rect ≤ enlargeDiff c0 c1 (items last).rect := by
  constructor
  · intro h last hlt hflag hlast
    obtain ⟨j, hpick, hj, hjflag, hbest⟩ := h ⟨last, hlt, hflag⟩
    have heq : j = last := Nat.le_antisymm (hlast j hj hjflag) (pickNext_last hpick last hlt hflag)
    exact heq ▸ hbest
  · rintro h ⟨i, hi, hflag⟩
    cases hpick : pickNext c0 c1 flags items n with
    | none =>
      rw [pickNext_eq_none.mp hpick i hi] at hflag
      cases hflag
    | some j =>
      obtain ⟨hj, hjflag⟩ := pickNext_mem hpick
      exact ⟨j, rfl, hj, hjflag, h j hj hjflag (pickNext_last hpick)⟩

/-- The first entry is in the one cover, the second as far from the one as from the other. -/
theorem second_not_best : ¬ PicksBest ⟨0, 1, 1, 0⟩ ⟨10, 1, 11, 0⟩ (fun _ => true)
    (fun i => if i = 0 then ⟨⟨0, 1, 1, 0⟩, 7, false⟩ else ⟨⟨5, 1, 6, 0⟩, 8, false⟩) 2 := by
  intro h
  obtain ⟨j, hpick, -, -, hbest⟩ := h ⟨0, by decide⟩
  have hj : j = 1 := by simpa [pickNext_succ] using hpick.symm
  have := hbest 0 (by decide) rfl
  subst hj
  revert this
  decide

end StreamMill.RTree
