import StreamMill.RTree.Invariant

/-!
# StreamMill.RTree.Deleted

What insertions do to the deletion bytes. A deleted entry stays in its leaf with its byte set, so
an insertion should add an entry that is not marked and leave every mark as it is. It does so
exactly under `MarksKept`: a leaf with room must have a cleared byte in the slot it gives out, and
a leaf that is split may have no deleted entry but the first seed, for `split_node` clears the byte
of every other entry.
-/

namespace StreamMill.RTree

def newItem (op : Rect × Nat) : Item := ⟨op.1, op.2, false⟩

/-- Every insertion of the run adds its entry unmarked and leaves the other entries, with their
marks, as they are. -/
def KeepsMarks : State → Multiset Item → List (Rect × Nat) → Prop
  | _, _, [] => True
  | s, items, op :: ops => ∃ s', insertRtreeAux s op.1 op.2 = .ok s' ∧
      WellFormed s' (newItem op ::ₘ items) ∧ KeepsMarks s' (newItem op ::ₘ items) ops

/-- The leaf that `choose_leaf` picks has room and the byte of its next slot is clear, or it is full
and no entry but the first seed is deleted. -/
def MarksKept (s : State) (op : Rect × Nat) : Prop :=
  ∃ s₁ b anc, destLeaf s op.1 = .ok (s₁, b, anc) ∧
    if s₁.buffer.counter = maxEntries then
      ∀ i < maxEntries, (s₁.buffer.items i).del = true →
        (pickSeeds (fillItembuf s.itembuf op.1 op.2 s₁.buffer) (maxEntries + 1)).1 = i + 1
    else (s₁.buffer.items s₁.buffer.counter).del = false

/-- `MarksKept` before every insertion of the run. -/
def AllMarksKept : State → List (Rect × Nat) → Prop
  | _, [] => True
  | s, op :: ops => MarksKept s op ∧
      ∀ s', insertRtreeAux s op.1 op.2 = .ok s' → AllMarksKept s' ops

theorem fillItembuf_range {itembuf : Nat → Item} (h0 : (itembuf 0).del = false) (op : Rect × Nat)
    {n : Node} (hfull : n.counter = maxEntries) :
    (List.range (maxEntries + 1)).map (fillItembuf itembuf op.1 op.2 n) =
      newItem op :: n.entries := by
  rw [List.range_succ_eq_map, List.map_cons, List.map_map, Node.entries_eq_slots, hfull]
  refine congrArg₂ List.cons ?_ (List.map_congr_left fun i hi => ?_)
  · simp [fillItembuf, newItem, h0]
  · have hi' := List.mem_range.mp hi
    simp only [Function.comp, fillItembuf]
    rw [if_pos (Nat.succ_le_of_lt hi')]
    rfl

theorem Item.undelete_eq {it : Item} (h : it.del = false) : it.undelete = it := by
  cases it
  simp_all [Item.undelete]

theorem leafAfter_marks {itembuf : Nat → Item} (h0 : (itembuf 0).del = false) (op : Rect × Nat)
    (n : Node) :
    (leafAfter itembuf n op.1 op.2).Perm (newItem op :: n.entries) ↔
      if n.counter = maxEntries then
        ∀ i < maxEntries, (n.items i).del = true →
          (pickSeeds (fillItembuf itembuf op.1 op.2 n) (maxEntries + 1)).1 = i + 1
      else (n.items n.counter).del = false := by
  unfold leafAfter
  by_cases hfull : n.counter = maxEntries
  · rw [if_pos hfull, if_pos hfull]
    rw [← fillItembuf_range h0 op hfull]
    have hzero : (fillItembuf itembuf op.1 op.2 n 0).del = false := by
      simpa [fillItembuf] using h0
    have hsucc : ∀ i < maxEntries, fillItembuf itembuf op.1 op.2 n (i + 1) = n.items i := by
      intro i hi
      rw [fillItembuf, if_pos (Nat.succ_le_of_lt hi)]
      rfl
    generalize fillItembuf itembuf op.1 op.2 n = items at hzero hsucc ⊢
    generalize (pickSeeds items (maxEntries + 1)).1 = e0
    constructor
    · -- the marks are counted: a cleared one is missing
      intro hperm i hi hdel
      have hsub : ((List.range (maxEntries + 1)).filter fun j => (afterSplit items e0 j).del).Sublist
          ((List.range (maxEntries + 1)).filter fun j => (items j).del) := by
        refine List.monotone_filter_right _ fun j hj => ?_
        unfold afterSplit at hj
        split at hj
        · exact hj
        · simp [Item.undelete] at hj
      have hlen : ((List.range (maxEntries + 1)).filter fun j =>
          (afterSplit items e0 j).del).length =
          ((List.range (maxEntries + 1)).filter fun j => (items j).del).length := by
        have := (hperm.filter fun it => it.del).length_eq
        rw [List.filter_map, List.filter_map, List.length_map, List.length_map] at this
        exact this
      have heq := hsub.eq_of_length hlen
      have hmem : i + 1 ∈ (List.range (maxEntries + 1)).filter fun j => (items j).del := by
        rw [List.mem_filter, List.mem_range, hsucc i hi]
        exact ⟨by omega, hdel⟩
      rw [← heq, List.mem_filter] at hmem
      by_contra hne
      have := hmem.2
      unfold afterSplit at this
      rw [if_neg (Ne.symm hne)] at this
      simp [Item.undelete] at this
    · intro hcond
      refine .of_eq (List.map_congr_left fun i hi => ?_)
      unfold afterSplit
      split
      · rfl
      · next hne =>
        rw [List.mem_range] at hi
        refine Item.undelete_eq ?_
        cases i with
        | zero => exact hzero
        | succ i =>
          have hi' : i < maxEntries := by omega
          rw [hsucc i hi']
          by_contra hdel
          rw [Bool.not_eq_false] at hdel
          exact hne (hcond i hi' hdel).symm
  · rw [if_neg hfull, if_neg hfull]
    constructor
    · intro hperm
      have := hperm.trans (List.perm_append_singleton _ _).symm
      rw [List.perm_append_left_iff, List.singleton_perm_singleton] at this
      exact congrArg Item.del this
    · intro hdel
      have : newItem op = { n.items n.counter with rect := op.1, ptr := op.2 } := by
        rw [newItem, ← hdel]
      rw [this]
      exact List.perm_append_singleton _ _

/-- One insertion keeps the marks exactly when `MarksKept` holds before it. -/
theorem insertRtreeAux_marks {s : State} {items : Multiset Item} (hs : WellFormed s items)
    (h0 : (s.itembuf 0).del = false) (op : Rect × Nat) :
    ∃ s', insertRtreeAux s op.1 op.2 = .ok s' ∧ (s'.itembuf 0).del = false ∧
      (WellFormed s' (newItem op ::ₘ items) ↔ MarksKept s op) := by
  obtain ⟨s₁, b, anc, s', rest, hdest, rfl, hbuf, hins, hs', hclr⟩ :=
    insertRtreeAux_ok hs op.1 op.2
  have h0' : (s'.itembuf 0).del = false := by
    by_contra h
    rw [hclr (by simpa using h)] at h0
    cases h0
  have hiff : WellFormed s' (newItem op ::ₘ (rest + (s₁.buffer.entries : Multiset Item))) ↔
      (leafAfter s.itembuf s₁.buffer op.1 op.2).Perm (newItem op :: s₁.buffer.entries) := by
    rw [← Multiset.coe_eq_coe, ← Multiset.cons_coe]
    constructor
    · intro h
      have := hs'.unique h
      rwa [← Multiset.add_cons, add_right_inj] at this
    · intro h
      rwa [h, Multiset.add_cons] at hs'
  refine ⟨s', hins, h0', hiff.trans ((leafAfter_marks h0 op _).trans ?_)⟩
  constructor
  · exact fun h => ⟨s₁, b, anc, hdest, h⟩
  · rintro ⟨s₂, b₂, anc₂, hdest', h⟩
    rw [hdest] at hdest'
    cases hdest'
    exact h

/-- A run keeps the marks exactly when each of its insertions meets the condition. -/
theorem keepsMarks_iff {s : State} {items : Multiset Item} (hs : WellFormed s items)
    (h0 : (s.itembuf 0).del = false) (ops : List (Rect × Nat)) :
    KeepsMarks s items ops ↔ AllMarksKept s ops := by
  induction ops generalizing s items with
  | nil => exact Iff.rfl
  | cons op ops ih =>
    obtain ⟨s', hins, h0', hiff⟩ := insertRtreeAux_marks hs h0 op
    constructor
    · rintro ⟨s₁, hins', hs₁, hrest⟩
      rw [hins] at hins'
      cases hins'
      refine ⟨hiff.mp hs₁, fun s₂ hins'' => ?_⟩
      rw [hins] at hins''
      cases hins''
      exact (ih hs₁ h0').mp hrest
    · rintro ⟨hcond, hrest⟩
      have hs' := hiff.mpr hcond
      exact ⟨s', hins, hs', (ih hs' h0').mpr (hrest s' hins)⟩

/-- An R-tree whose root is the leaf `n`, with the static buffers as they are at the start. -/
def leafRoot (n : Node) : State :=
  { fbInd := 2, tbInd := 2, lptr := blockSz, m := 2
    index := fun b => if b = 1 then .node n else .absent
    buffer := n
    itembuf := fun _ => ⟨⟨0, 0, 0, 0⟩, 0, false⟩
    split0 := n, split1 := n, blkno0 := 0, blkno1 := 0
    coverr0 := ⟨0, 0, 0, 0⟩, coverr1 := ⟨0, 0, 0, 0⟩ }

theorem leafRoot_wellFormed {n : Node} (hty : n.nodetype = .leaf) (hcap : n.counter ≤ maxEntries)
    (hnext : n.nextlptr = 0) (hprev : n.prevlptr = 0) :
    WellFormed (leafRoot n) (n.entries : Multiset Item) := by
  refine .inr ⟨0, ({1}, {1}, n.entries), ⟨rfl, ⟨n.entries, ⟨n, rfl, hty, rfl⟩, ?_, rfl⟩, ?_, ?_⟩,
    rfl⟩
  · rwa [Node.entries_length]
  · exact ⟨(by decide : 1 ≤ 2), [], rfl, rfl⟩
  · exact ⟨[1], rfl, rfl, hprev, hnext, trivial⟩

def fullLeaf : Node :=
  { nodetype := .leaf, counter := maxEntries, nextlptr := 0, prevlptr := 0
    items := fun i => ⟨⟨0, 0, 0, 0⟩, i, i == 5⟩ }

theorem fullLeaf_wellFormed : WellFormed (leafRoot fullLeaf) (fullLeaf.entries : Multiset Item) :=
  leafRoot_wellFormed rfl le_rfl rfl rfl

theorem fullLeaf_not_marksKept : ¬MarksKept (leafRoot fullLeaf) (⟨0, 0, 0, 0⟩, 96) := by
  rintro ⟨s₁, b, anc, hdest, h⟩
  cases hdest
  have hrect : ∀ i, (fillItembuf (leafRoot fullLeaf).itembuf ⟨0, 0, 0, 0⟩ 96 fullLeaf i).rect =
      ⟨0, 0, 0, 0⟩ := by
    intro i
    unfold fillItembuf
    split
    · rfl
    · split <;> rfl
  have hseed := h 5 (by decide) rfl
  have hconst := pickSeeds_const hrect (by decide : 2 ≤ maxEntries + 1)
  exact absurd (hseed.symm.trans (congrArg Prod.fst hconst)) (by decide)

/-- Inserting a 97th point splits the leaf, and tuple 5 is visible again. -/
theorem fullLeaf_not_keepsMarks :
    ¬∀ (s : State) (items : Multiset Item) (ops : List (Rect × Nat)), WellFormed s items →
      (s.itembuf 0).del = false → KeepsMarks s items ops := by
  intro hall
  obtain ⟨s', hins, hs', -⟩ := hall (leafRoot fullLeaf) fullLeaf.entries [(⟨0, 0, 0, 0⟩, 96)]
    fullLeaf_wellFormed rfl
  obtain ⟨s₁, hins₁, -, hiff⟩ := insertRtreeAux_marks fullLeaf_wellFormed rfl (⟨0, 0, 0, 0⟩, 96)
  rw [hins] at hins₁
  cases hins₁
  exact fullLeaf_not_marksKept (hiff.mp hs')

theorem keepsMarks_iff_fullLeaf :
    KeepsMarks (leafRoot fullLeaf) fullLeaf.entries [(⟨0, 0, 0, 0⟩, 96)] ↔
      AllMarksKept (leafRoot fullLeaf) [(⟨0, 0, 0, 0⟩, 96)] :=
  keepsMarks_iff fullLeaf_wellFormed rfl _

end StreamMill.RTree
