import StreamMill.RTree.Insert
import StreamMill.Lib.Loop
import Mathlib.Tactic.Ring

/-!
# StreamMill.RTree.Split

What `split_node` does to the `M+1` entries. `Grouped items k g` is the invariant of its loop:
after `k` passes the two groups hold `k + 2` of the entries, each once, each group covered by its
rectangle. Only the first seed keeps its deletion byte (`afterSplit`).
-/

namespace StreamMill.RTree

open Lib

def Item.key (it : Item) : Rect × Nat := (it.rect, it.ptr)

@[simp] theorem Item.undelete_key (it : Item) : it.undelete.key = it.key := rfl
@[simp] theorem Item.undelete_rect (it : Item) : it.undelete.rect = it.rect := rfl

def slots (n : Nat) (items : Nat → Item) : List Item := (List.range n).map items

theorem slots_succ (n : Nat) (items : Nat → Item) :
    slots (n + 1) items = slots n items ++ [items n] := by
  simp [slots, List.range_succ]

theorem slots_update (n : Nat) (items : Nat → Item) (it : Item) :
    slots (n + 1) (Function.update items n it) = slots n items ++ [it] := by
  rw [slots_succ, Function.update_self]
  congr 1
  apply List.map_congr_left
  intro i hi
  exact Function.update_of_ne (Nat.ne_of_lt (List.mem_range.mp hi)) _ _

variable {n i : Nat} {items : Nat → Item} {r : Rect} {g : Grouping}

theorem mem_seedPairs {p : Nat × Nat} : p ∈ seedPairs n ↔ p.1 < p.2 ∧ p.2 < n := by
  obtain ⟨i, j⟩ := p
  simp only [seedPairs, List.mem_flatMap, List.mem_range, List.mem_map, List.mem_range'_1,
    Prod.mk.injEq]
  constructor
  · omega
  · intro h; exact ⟨i, by omega, j, by omega, rfl, rfl⟩

theorem seedStep_foldl (items : Nat → Item) (ps : List (Nat × Nat)) (acc : Option Int × Nat × Nat) :
    ps.foldl (seedStep items) acc = acc ∨ (ps.foldl (seedStep items) acc).2 ∈ ps := by
  induction ps generalizing acc with
  | nil => exact .inl rfl
  | cons p ps ih =>
    rw [List.foldl_cons]
    rcases ih (seedStep items acc p) with h | h
    · rw [h]
      simp only [seedStep]
      split
      · exact .inr (by simp)
      · exact .inl rfl
    · exact .inr (List.mem_cons_of_mem _ h)

theorem pickSeeds_lt (items : Nat → Item) (hn : 2 ≤ n) :
    (pickSeeds items n).1 < (pickSeeds items n).2 ∧ (pickSeeds items n).2 < n := by
  have h01 : (0, 1) ∈ seedPairs n := mem_seedPairs.mpr ⟨by decide, hn⟩
  unfold pickSeeds
  cases hps : seedPairs n with
  | nil => rw [hps] at h01; cases h01
  | cons p ps =>
    have hfirst : seedStep items (none, 0, 0) p = (some (deadSpace items p.1 p.2), p.1, p.2) := by
      simp [seedStep, exceeds]
    rw [List.foldl_cons, hfirst]
    apply mem_seedPairs.mp
    rw [hps]
    rcases seedStep_foldl items ps (some (deadSpace items p.1 p.2), p.1, p.2) with h | h
    · rw [h]; simp
    · exact List.mem_cons_of_mem _ h

theorem pickSeeds_const (hr : ∀ i, (items i).rect = r) (hn : 2 ≤ n) :
    pickSeeds items n = (0, 1) := by
  obtain ⟨ps, hps⟩ : ∃ ps, seedPairs n = (0, 1) :: ps := by
    obtain ⟨k, rfl⟩ : ∃ k, n = k + 2 := ⟨n - 2, by omega⟩
    simp [seedPairs, List.range_succ_eq_map, List.range'_succ]
  have hd : ∀ p : Nat × Nat, deadSpace items p.1 p.2 = area (compose r r) - area r - area r :=
    fun p => by simp [deadSpace, hr]
  have hstay : ∀ ps : List (Nat × Nat),
      ps.foldl (seedStep items) (some (area (compose r r) - area r - area r), 0, 1) =
        (some (area (compose r r) - area r - area r), 0, 1) := by
    intro ps
    induction ps with
    | nil => rfl
    | cons p ps ih =>
      rw [List.foldl_cons]
      have : seedStep items (some (area (compose r r) - area r - area r), 0, 1) p =
          (some (area (compose r r) - area r - area r), 0, 1) := by
        simp [seedStep, hd, exceeds]
      rw [this, ih]
  have hfirst : seedStep items (none, 0, 0) (0, 1) =
      (some (area (compose r r) - area r - area r), 0, 1) := by
    simp [seedStep, exceeds, hd (0, 1)]
  rw [pickSeeds, hps, List.foldl_cons, hfirst, hstay]

theorem pickNext_succ (c0 c1 : Rect) (flags : Nat → Bool) (items : Nat → Item) (n : Nat) :
    pickNext c0 c1 flags items (n + 1) =
      if flags n then some n else pickNext c0 c1 flags items n := by
  unfold pickNext
  rw [List.range_succ]
  simp [exceeds]

theorem pickNext_eq_none {c0 c1 : Rect} {flags : Nat → Bool} :
    pickNext c0 c1 flags items n = none ↔ ∀ i < n, flags i = false := by
  induction n with
  | zero => simp [pickNext]
  | succ n ih =>
    rw [pickNext_succ]
    cases hf : flags n with
    | true =>
      constructor
      · intro h; simp at h
      · intro h
        have := h n (Nat.lt_succ_self n)
        rw [hf] at this
        cases this
    | false =>
      simp only [Bool.false_eq_true, if_false, ih]
      constructor
      · intro h i hi
        rcases Nat.lt_succ_iff_lt_or_eq.mp hi with hi | rfl
        · exact h i hi
        · exact hf
      · intro h i hi; exact h i (Nat.lt_succ_of_lt hi)

theorem pickNext_mem {c0 c1 : Rect} {flags : Nat → Bool} (h : pickNext c0 c1 flags items n = some i) :
    i < n ∧ flags i = true := by
  induction n with
  | zero => simp [pickNext] at h
  | succ n ih =>
    rw [pickNext_succ] at h
    split at h
    · next hf => cases h; exact ⟨Nat.lt_succ_self _, hf⟩
    · exact ⟨Nat.lt_succ_of_lt (ih h).1, (ih h).2⟩

/-- The entry `i` of the `M+1` entries as `split_node` stores it, where `e0` is the first seed. -/
def afterSplit (items : Nat → Item) (e0 i : Nat) : Item :=
  if i = e0 then items i else (items i).undelete

theorem afterSplit_key (items : Nat → Item) (e0 i : Nat) :
    (afterSplit items e0 i).key = (items i).key := by
  unfold afterSplit; split <;> rfl

/-- The invariant after `k` passes, where `e0` is the first seed. -/
structure Grouped (items : Nat → Item) (e0 k : Nat) (g : Grouping) : Prop where
  count : g.num0 + g.num1 = k + 2
  pos0 : 1 ≤ g.num0
  pos1 : 1 ≤ g.num1
  /-- The last pass fills up a group that has only its seed. -/
  fill : k = maxEntries - 1 → 2 ≤ g.num0 ∧ 2 ≤ g.num1
  seed : g.flags e0 = false
  rest : ∀ i, g.flags i = true → g.itembuf i = items i
  /-- The loop only clears deletion bytes of `itembuf`. -/
  clears : ∀ i, (g.itembuf i).del = true → (items i).del = true
  split : (slots g.num0 g.items0 ++ slots g.num1 g.items1).Perm
    (((List.range (maxEntries + 1)).filter fun i => !g.flags i).map (afterSplit items e0))
  cover0 : ∀ it ∈ slots g.num0 g.items0, Covers g.coverr0 it.rect
  cover1 : ∀ it ∈ slots g.num1 g.items1, Covers g.coverr1 it.rect

theorem seedGroups_grouped (s : State) (items : Nat → Item) :
    Grouped items (pickSeeds items (maxEntries + 1)).1 0 (seedGroups s items) := by
  obtain ⟨hlt, hlt'⟩ := pickSeeds_lt items (n := maxEntries + 1) (by decide)
  generalize her : pickSeeds items (maxEntries + 1) = er at hlt hlt'
  obtain ⟨e0, e1⟩ := er
  have hne : e0 ≠ e1 := Nat.ne_of_lt hlt
  have hs0 : slots 1 (seedGroups s items).items0 = [items e0] := by
    simp [slots, seedGroups, her]
  have hs1 : slots 1 (seedGroups s items).items1 = [(items e1).undelete] := by
    simp [slots, seedGroups, her]
  refine ⟨rfl, le_rfl, le_rfl, fun h => absurd h (by decide), ?_, fun _ _ => rfl,
    fun _ h => h, ?_, ?_, ?_⟩
  · simp [seedGroups, her, Function.update_of_ne hne]
  · show (slots 1 _ ++ slots 1 _).Perm _
    rw [hs0, hs1]
    have h1 := filter_range_update (p := fun _ => true) (i := e0) (n := maxEntries + 1)
      (by omega) rfl
    have h2 := filter_range_update (p := Function.update (fun _ => true) e0 false)
      hlt' (by simp [Function.update_of_ne hne.symm])
    have h3 : ((List.range (maxEntries + 1)).filter fun i => !(seedGroups s items).flags i).Perm
        [e1, e0] := by
      have hflags : (seedGroups s items).flags =
          Function.update (Function.update (fun _ => true) e0 false) e1 false := by
        simp [seedGroups, her]
      rw [hflags]
      exact h2.trans ((h1.trans (by simp)).cons e1)
    have h4 := h3.map (afterSplit items e0)
    have e0' : afterSplit items e0 e0 = items e0 := by simp [afterSplit]
    have e1' : afterSplit items e0 e1 = (items e1).undelete := by simp [afterSplit, hne.symm]
    simp only [List.map_cons, List.map_nil, e0', e1'] at h4
    exact (List.Perm.swap _ _ _).trans h4.symm
  · intro it hit
    rw [List.mem_singleton.mp hit]
    simpa [seedGroups] using Covers.refl _
  · intro it hit
    rw [List.mem_singleton.mp hit]
    simpa [seedGroups] using Covers.refl _

theorem groupFlag_eq_zero (hi : i = maxEntries - 2) (h0 : g.num0 = 1) (h1 : g.num1 = maxEntries - 1) :
    groupFlag 2 i g r = 0 := by
  have e0 : usub 2 1 = maxEntries - 1 - (maxEntries - 2) := by decide
  have e1 : usub 2 (maxEntries - 1) ≠ maxEntries - 1 - (maxEntries - 2) := by decide
  simp only [groupFlag, hi, h0, h1, e0, true_and, e1, false_and, if_false]
  split <;> simp

theorem groupFlag_ne_zero (hi : i = maxEntries - 2) (h0 : g.num0 = maxEntries - 1) (h1 : g.num1 = 1) :
    groupFlag 2 i g r ≠ 0 := by
  have e1 : usub 2 1 = maxEntries - 1 - (maxEntries - 2) := by decide
  have e0 : usub 2 (maxEntries - 1) ≠ maxEntries - 1 - (maxEntries - 2) := by decide
  simp only [groupFlag, hi, h0, h1, e0, e1, true_and, false_and, if_false]
  split <;> simp

theorem groupFlag_fill {k : Nat} (hc : g.num0 + g.num1 = k + 2) (hp0 : 1 ≤ g.num0)
    (hp1 : 1 ≤ g.num1) (hk : k + 1 = maxEntries - 1) :
    (groupFlag 2 k g r = 0 → 2 ≤ g.num1) ∧ (groupFlag 2 k g r ≠ 0 → 2 ≤ g.num0) := by
  have hk' : k = maxEntries - 2 := by omega
  constructor
  · intro h
    by_contra hlt
    exact groupFlag_ne_zero hk' (by omega) (by omega) h
  · intro h
    by_contra hlt
    exact h (groupFlag_eq_zero hk' (by omega) (by omega))

theorem covers_compose_left {c : Rect} {its : List Item} (h : ∀ it ∈ its, Covers c it.rect) :
    ∀ it ∈ its, Covers (compose c r) it.rect :=
  fun it hit => (compose_covers_left c r).trans (h it hit)

theorem covers_snoc {c : Rect} {it : Item} {its : List Item} (h : ∀ x ∈ its, Covers c x.rect) :
    ∀ x ∈ its ++ [it], Covers (compose c it.rect) x.rect := by
  intro x hx
  rcases List.mem_append.mp hx with hx | hx
  · exact covers_compose_left h x hx
  · rw [List.mem_singleton.mp hx]; exact compose_covers_right _ _

theorem groupNext_grouped {e0 k : Nat} (hk : k < maxEntries - 1) (hg : Grouped items e0 k g) :
    ∃ g', groupNext 2 g k = .ok g' ∧ Grouped items e0 (k + 1) g' := by
  -- some entry is still ungrouped
  have hlen : ((List.range (maxEntries + 1)).filter fun i => !g.flags i).length = k + 2 := by
    have := hg.split.length_eq
    simpa [slots, hg.count] using this.symm
  cases hn : pickNext g.coverr0 g.coverr1 g.flags g.itembuf (maxEntries + 1) with
  | none =>
    have hall := pickNext_eq_none.mp hn
    have : (List.range (maxEntries + 1)).filter (fun i => !g.flags i) =
        List.range (maxEntries + 1) := by
      apply List.filter_eq_self.mpr
      intro i hi
      simp [hall i (List.mem_range.mp hi)]
    rw [this, List.length_range] at hlen
    omega
  | some next =>
    obtain ⟨hlt, hflag⟩ := pickNext_mem hn
    have hitem : g.itembuf next = items next := hg.rest next hflag
    have hseed : next ≠ e0 := by
      rintro rfl; rw [hg.seed] at hflag; cases hflag
    have hafter : afterSplit items e0 next = (items next).undelete := by simp [afterSplit, hseed]
    have hperm := (filter_range_update hlt hflag).map (afterSplit items e0)
    rw [List.map_cons, hafter] at hperm
    have hrest : ∀ i, Function.update g.flags next false i = true →
        Function.update g.itembuf next (items next).undelete i = items i := by
      intro i hi
      by_cases h : i = next
      · subst h; simp at hi
      · rw [Function.update_of_ne h] at hi ⊢; exact hg.rest i hi
    have hclears : ∀ i, (Function.update g.itembuf next (items next).undelete i).del = true →
        (items i).del = true := by
      intro i hi
      by_cases h : i = next
      · subst h; simp [Item.undelete] at hi
      · rw [Function.update_of_ne h] at hi; exact hg.clears i hi
    have hseed' : Function.update g.flags next false e0 = false := by
      rw [Function.update_of_ne hseed.symm]; exact hg.seed
    unfold groupNext
    simp only [hn, hitem]
    generalize hfl : groupFlag 2 k _ _ = fl
    have hfill := groupFlag_fill (g := { g with flags := Function.update g.flags next false })
      (r := (items next).rect) hg.count hg.pos0 hg.pos1
    rw [hfl] at hfill
    by_cases h0 : fl = 0
    · rw [if_pos h0]
      refine ⟨_, rfl, ?_, ?_, hg.pos1, ?_, hseed', hrest, hclears, ?_, ?_, ?_⟩
      · show g.num0 + 1 + g.num1 = k + 1 + 2
        have := hg.count; omega
      · exact Nat.le_add_left 1 _
      · intro hlast
        have hp := hg.pos0
        exact ⟨by show 2 ≤ g.num0 + 1; omega, (hfill hlast).1 h0⟩
      · rw [slots_update, List.append_assoc]
        exact List.perm_middle.trans ((hg.split.cons _).trans hperm.symm)
      · rw [slots_update]
        exact covers_snoc hg.cover0
      · exact hg.cover1
    · rw [if_neg h0]
      refine ⟨_, rfl, ?_, hg.pos0, ?_, ?_, hseed', hrest, hclears, ?_, ?_, ?_⟩
      · show g.num0 + (g.num1 + 1) = k + 1 + 2
        have := hg.count; omega
      · exact Nat.le_add_left 1 _
      · intro hlast
        have hp := hg.pos1
        exact ⟨(hfill hlast).2 h0, by show 2 ≤ g.num1 + 1; omega⟩
      · rw [slots_update, ← List.append_assoc]
        refine (List.perm_append_singleton _ _).trans ?_
        exact (hg.split.cons _).trans hperm.symm
      · exact hg.cover0
      · rw [slots_update]
        exact covers_snoc hg.cover1

theorem grouping_ok (s : State) (items : Nat → Item) :
    ∃ g, (List.range (maxEntries - 1)).foldlM (groupNext 2) (seedGroups s items) = .ok g ∧
      Grouped items (pickSeeds items (maxEntries + 1)).1 (maxEntries - 1) g ∧
      (slots g.num0 g.items0 ++ slots g.num1 g.items1).Perm
        ((List.range (maxEntries + 1)).map
          (afterSplit items (pickSeeds items (maxEntries + 1)).1)) := by
  obtain ⟨g, hg, hG⟩ := foldlM_range_inv (groupNext 2)
    (Grouped items (pickSeeds items (maxEntries + 1)).1) (maxEntries - 1)
    (seedGroups_grouped s items) (fun k t hk ht => groupNext_grouped hk ht)
  refine ⟨g, hg, hG, ?_⟩
  have hlen := hG.split.length_eq
  have hfull : (List.range (maxEntries + 1)).filter (fun i => !g.flags i) =
      List.range (maxEntries + 1) := by
    apply List.filter_sublist.eq_of_length
    rw [List.length_map] at hlen
    rw [← hlen]
    have hc := hG.count
    have hm : maxEntries = 96 := rfl
    simp only [slots, List.length_append, List.length_map, List.length_range]
    omega
  have := hG.split
  rwa [hfull] at this

end StreamMill.RTree
