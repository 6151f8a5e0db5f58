import StreamMill.FPTree.Mining

/-!
# StreamMill.FPTree.Conditional

The nodes of an item stand for the transactions with the item: a node weighs what the transactions
that go through it weigh. `Represents.below_alike`: the paths above the nodes of `x`, without the
infrequent items, are alike to what the suffix with `x` leaves of the transactions.
-/

namespace StreamMill.FPTree

open Lib

/-- The same weights and itemsets, the empty itemset aside. -/
structure Alike (us vs : List Trans) : Prop where
  weight : ∀ q : List Nat → Bool, q [] = false → weightOf us q = weightOf vs q
  items : ∀ l, l ≠ [] → ((∃ t ∈ us, t.items = l) ↔ ∃ t ∈ vs, t.items = l)

/-- The transactions with `x`, of which only the items with `f` are kept. -/
def below (us : List Trans) (x : Nat) (f : Nat → Bool) : List Trans :=
  (us.filter fun t => x ∈ t.items).map fun t => ⟨t.support, t.items.filter f⟩

/-- What is read for the nodes `as`: the items above each node. -/
def above (tree : Tree) (f : Nat → Bool) (as : List Adr) : List Trans :=
  as.map fun a => ⟨(tree.node a).support, a.dropLast.filter f⟩

theorem above_cons (tree : Tree) (f : Nat → Bool) (a : Adr) (as : List Adr) :
    above tree f (a :: as) = ⟨(tree.node a).support, a.dropLast.filter f⟩ :: above tree f as := rfl

def nonempty (us : List Trans) : List Trans := us.filter fun t => t.items ≠ []

def itemCount (us : List Trans) : Nat := (us.map fun t => t.items.length).sum

variable {tree : Tree} {ts us vs ws : List Trans} {minsupp x y : Nat} {S Y : List Nat}
  {f g : Nat → Bool} {as : List Adr}

theorem Alike.refl (us : List Trans) : Alike us us := ⟨fun _ _ => rfl, fun _ _ => Iff.rfl⟩

theorem Alike.trans (h : Alike us vs) (h' : Alike vs ws) : Alike us ws where
  weight q hq := (h.weight q hq).trans (h'.weight q hq)
  items l hl := (h.items l hl).trans (h'.items l hl)

theorem weightOf_cons (t : Trans) (q : List Nat → Bool) :
    weightOf (t :: us) q = (if q t.items then t.support else 0) + weightOf us q := weight_cons t

section

variable (h : Alike us vs)
include h

theorem Alike.supportOf_eq (hY : Y ≠ []) : supportOf us Y = supportOf vs Y := by
  refine h.weight _ (decide_eq_false fun hall => ?_)
  obtain ⟨y, hy⟩ := List.exists_mem_of_ne_nil Y hY
  exact List.not_mem_nil (hall y hy)

theorem Alike.onePath (hone : OnePath vs) : OnePath us := by
  intro t ht t' ht'
  by_cases hnil : t.items = []
  · exact .inl (hnil ▸ List.nil_prefix)
  · by_cases hnil' : t'.items = []
    · exact .inr (hnil' ▸ List.nil_prefix)
    · obtain ⟨u, hu, hitems⟩ := (h.items t.items hnil).mp ⟨t, ht, rfl⟩
      obtain ⟨u', hu', hitems'⟩ := (h.items t'.items hnil').mp ⟨t', ht', rfl⟩
      rw [← hitems, ← hitems']
      exact hone u hu u' hu'

theorem Alike.symm : Alike vs us where
  weight q hq := (h.weight q hq).symm
  items l hl := (h.items l hl).symm

theorem Alike.onePath_iff : OnePath us ↔ OnePath vs :=
  ⟨h.symm.onePath, h.onePath⟩

theorem Alike.exists_iff {p : List Nat → Prop} (hp : ¬ p []) :
    (∃ t ∈ us, p t.items) ↔ ∃ t ∈ vs, p t.items := by
  have hne : ∀ {t : Trans}, p t.items → t.items ≠ [] := fun ht hnil => hp (hnil ▸ ht)
  constructor
  · rintro ⟨t, ht, hpt⟩
    obtain ⟨u, hu, hitems⟩ := (h.items t.items (hne hpt)).mp ⟨t, ht, rfl⟩
    exact ⟨u, hu, hitems ▸ hpt⟩
  · rintro ⟨t, ht, hpt⟩
    obtain ⟨u, hu, hitems⟩ := (h.items t.items (hne hpt)).mpr ⟨t, ht, rfl⟩
    exact ⟨u, hu, hitems ▸ hpt⟩

theorem Alike.mem_iff (x : Nat) :
    (∃ t ∈ us, x ∈ t.items) ↔ ∃ t ∈ vs, x ∈ t.items :=
  h.exists_iff List.not_mem_nil

theorem Alike.sublist_iff :
    (Y = [] ∨ ∃ t ∈ us, Y.Sublist t.items) ↔ Y = [] ∨ ∃ t ∈ vs, Y.Sublist t.items := by
  by_cases hY : Y = []
  · simp [hY]
  · exact or_congr_right (h.exists_iff fun hsub =>
      hY (List.sublist_nil.mp hsub))

end

theorem mem_below {l : List Nat} : (∃ t ∈ below us x f, t.items = l) ↔
    ∃ u ∈ us, x ∈ u.items ∧ u.items.filter f = l := by
  simp [below, and_assoc]

theorem weightOf_below (q : List Nat → Bool) :
    weightOf (below us x f) q = weightOf us fun l => q (l.filter f) && decide (x ∈ l) := by
  rw [below, weightOf, weight_map]
  exact weightOf_filter (fun l => decide (x ∈ l)) fun l => q (l.filter f)

theorem Alike.below (h : Alike us vs) (x : Nat) (f : Nat → Bool) :
    Alike (below us x f) (below vs x f) where
  weight q hq := by
    rw [weightOf_below, weightOf_below]
    exact h.weight _ (by simp)
  items l hl := by
    rw [mem_below, mem_below]
    exact h.exists_iff (p := fun l' => x ∈ l' ∧ l'.filter f = l) fun hmem => List.not_mem_nil hmem.1

theorem nonempty_alike (us : List Trans) : Alike (nonempty us) us where
  weight q hq := by
    rw [nonempty, weightOf_filter (fun l => decide (l ≠ []))]
    congr 1
    funext l
    cases l with
    | nil => rw [hq, Bool.false_and]
    | cons y l => exact Bool.and_true _
  items l hl := by
    constructor
    · rintro ⟨t, ht, hitems⟩
      exact ⟨t, List.mem_of_mem_filter ht, hitems⟩
    · rintro ⟨t, ht, rfl⟩
      exact ⟨t, List.mem_filter.mpr ⟨ht, decide_eq_true hl⟩, rfl⟩

theorem concat_prefix_iff {b l : List Nat} (hl : l.Pairwise (· < ·)) :
    b ++ [x] <+: l ↔ x ∈ l ∧ b = l.filter fun y => y < x := by
  have hsplit : ∀ b r : List Nat, (b ++ x :: r).Pairwise (· < ·) →
      (b ++ x :: r).filter (fun y => y < x) = b := by
    intro b r hinc
    obtain ⟨-, hr, hlt⟩ := List.pairwise_append.mp hinc
    have hb : b.filter (fun y => y < x) = b := List.filter_eq_self.mpr fun y hy =>
      decide_eq_true (hlt y hy x List.mem_cons_self)
    have hnil : r.filter (fun y => y < x) = [] := List.filter_eq_nil_iff.mpr fun y hy hyx =>
      absurd ((List.pairwise_cons.mp hr).1 y hy) (Nat.lt_asymm (of_decide_eq_true hyx))
    rw [List.filter_append, hb, List.filter_cons_of_neg (by simp), hnil, List.append_nil]
  constructor
  · rintro ⟨r, rfl⟩
    rw [List.append_assoc] at hl ⊢
    exact ⟨List.mem_append_right b List.mem_cons_self, (hsplit b r hl).symm⟩
  · rintro ⟨hx, rfl⟩
    obtain ⟨b, r, rfl⟩ := List.append_of_mem hx
    rw [hsplit b r hl]
    exact ⟨r, by simp⟩

section

variable (h : Represents tree us)
include h

theorem Represents.mem_header {a : Adr} :
    a ∈ tree.header x ↔ ∃ b, a = b ++ [x] ∧ ∃ t ∈ us, b ++ [x] <+: t.items := by
  rw [Tree.header, List.mem_filter, h.mem, decide_eq_true_eq, List.getLast?_eq_some_iff]
  constructor
  · rintro ⟨⟨-, t, ht, hp⟩, b, rfl⟩
    exact ⟨b, rfl, t, ht, hp⟩
  · rintro ⟨b, rfl, t, ht, hp⟩
    exact ⟨⟨by simp, t, ht, hp⟩, b, rfl⟩

section

variable (hinc : Increasing us)
include hinc

theorem Represents.sum_header (w : Trans → Nat) (p : Adr → Bool) :
    ((((tree.header x).reverse.filter p)).map fun a =>
      weight w us fun t => a <+: t.items).sum =
    weight w us fun t => decide (x ∈ t.items) && p ((t.items.filter fun y => y < x) ++ [x]) := by
  have hnd : ((tree.header x).reverse.filter p).Nodup :=
    (List.nodup_reverse.mpr (h.nodup.filter _)).filter p
  rw [weight_fiber hnd]
  · refine weight_congr fun t ht => ?_
    rw [Bool.eq_iff_iff, List.any_eq_true, Bool.and_eq_true, decide_eq_true_eq]
    constructor
    · rintro ⟨a, ha, hp⟩
      obtain ⟨ha, hpa⟩ := List.mem_filter.mp ha
      obtain ⟨b, rfl, -⟩ := h.mem_header.mp (List.mem_reverse.mp ha)
      obtain ⟨hx, rfl⟩ := (concat_prefix_iff (hinc t ht)).mp (of_decide_eq_true hp)
      exact ⟨hx, hpa⟩
    · rintro ⟨hx, hpa⟩
      have hp := (concat_prefix_iff (hinc t ht)).mpr ⟨hx, rfl⟩
      exact ⟨_, List.mem_filter.mpr ⟨List.mem_reverse.mpr
        (h.mem_header.mpr ⟨_, rfl, t, ht, hp⟩), hpa⟩, decide_eq_true hp⟩
  · intro t ht a ha a' ha' hp hp'
    obtain ⟨b, rfl, -⟩ := h.mem_header.mp (List.mem_reverse.mp (List.mem_of_mem_filter ha))
    obtain ⟨b', rfl, -⟩ := h.mem_header.mp (List.mem_reverse.mp (List.mem_of_mem_filter ha'))
    rw [((concat_prefix_iff (hinc t ht)).mp (of_decide_eq_true hp)).2,
      ((concat_prefix_iff (hinc t ht)).mp (of_decide_eq_true hp')).2]

theorem Represents.weightOf_above (q : List Nat → Bool) :
    weightOf (above tree f (tree.header x).reverse) q =
      weightOf (below us x fun y => y < x && f y) q := by
  have hsum := h.sum_header (x := x) hinc Trans.support fun a => q (a.dropLast.filter f)
  rw [weightOf_below, above, weightOf, weight_map]
  simp only [h.support]
  refine hsum.trans (weight_congr fun t _ => ?_)
  rw [List.dropLast_concat, List.filter_filter, Bool.and_comm]
  congr 3
  funext y
  exact Bool.and_comm _ _

theorem Represents.below_alike :
    Alike (above tree f (tree.header x).reverse) (below us x fun y => y < x && f y) where
  weight q _ := h.weightOf_above hinc q
  items l _ := by
    rw [mem_below]
    constructor
    · rintro ⟨t, ht, rfl⟩
      obtain ⟨a, ha, rfl⟩ := List.mem_map.mp ht
      obtain ⟨b, rfl, u, hu, hp⟩ := h.mem_header.mp (List.mem_reverse.mp ha)
      obtain ⟨hx, rfl⟩ := (concat_prefix_iff (hinc u hu)).mp hp
      refine ⟨u, hu, hx, ?_⟩
      rw [List.dropLast_concat, List.filter_filter]
      exact List.filter_congr fun y _ => Bool.and_comm _ _
    · rintro ⟨u, hu, hx, rfl⟩
      have hp := (concat_prefix_iff (hinc u hu)).mpr ⟨hx, rfl⟩
      refine ⟨_, List.mem_map_of_mem (List.mem_reverse.mpr
        (h.mem_header.mpr ⟨_, rfl, u, hu, hp⟩)), ?_⟩
      rw [List.dropLast_concat, List.filter_filter]
      exact List.filter_congr fun y _ => Bool.and_comm _ _

theorem Represents.header_length :
    ((tree.header x).reverse.map List.length).sum ≤ itemCount us := by
  have hsum := h.sum_header (x := x) hinc (fun t => t.items.length) fun _ => true
  rw [List.filter_true] at hsum
  have hle : ∀ a ∈ (tree.header x).reverse,
      a.length ≤ weight (fun t : Trans => t.items.length) us fun t => a <+: t.items := by
    intro a ha
    obtain ⟨b, rfl, t, ht, hp⟩ := h.mem_header.mp (List.mem_reverse.mp ha)
    refine hp.length_le.trans ?_
    exact List.single_le_sum (fun _ _ => Nat.zero_le _) _ (List.mem_map_of_mem
      (List.mem_filter.mpr ⟨ht, decide_eq_true hp⟩))
  refine (List.sum_le_sum hle).trans (hsum.trans_le ?_)
  refine (weight_mono fun _ _ _ => rfl).trans (Nat.le_of_eq ?_)
  rw [weight, List.filter_true]
  rfl

theorem Represents.support_above (hy : y < x) :
    weightOf (above tree (fun _ => true) (tree.header x).reverse) (fun l => y ∈ l) =
      supportOf us [x, y] := by
  rw [h.weightOf_above hinc, weightOf_below]
  congr 1
  funext l
  rw [← Bool.decide_and]
  simp [hy, and_comm]

end

end

theorem itemCount_nonempty (us : List Trans) : itemCount (nonempty us) ≤ itemCount us :=
  ((List.filter_sublist).map _).sum_le_sum fun _ _ => Nat.zero_le _

section

variable (h : Represents tree us) (hinc : Increasing us)
include h hinc

theorem Represents.itemCount_above :
    itemCount (above tree f (tree.header x).reverse) ≤ itemCount us := by
  refine le_trans ?_ (h.header_length (x := x) hinc)
  rw [itemCount, above, List.map_map]
  refine List.sum_le_sum fun a _ => ?_
  exact (List.length_filter_le f a.dropLast).trans (by simp)

theorem Represents.weightOf_nonempty_above (q : List Nat → Bool) :
    weightOf (nonempty (above tree f (tree.header x).reverse)) q ≤ weightOf us fun _ => true := by
  rw [nonempty, weightOf_filter fun l => decide (l ≠ []), h.weightOf_above hinc, weightOf_below]
  exact weight_mono fun _ _ _ => rfl

theorem Represents.above_increasing :
    ∀ t ∈ above tree f (tree.header x).reverse, t.items.Pairwise (· < ·) ∧
      ∀ y ∈ t.items, y < x ∧ ∃ u ∈ us, y ∈ u.items := by
  intro t ht
  obtain ⟨a, ha, rfl⟩ := List.mem_map.mp ht
  obtain ⟨b, rfl, u, hu, hp⟩ := h.mem_header.mp (List.mem_reverse.mp ha)
  have hincr := (hinc u hu).sublist hp.sublist
  rw [List.dropLast_concat]
  refine ⟨(List.pairwise_append.mp hincr).1.filter f, fun y hy => ?_⟩
  have hyb := List.mem_of_mem_filter hy
  exact ⟨(List.pairwise_append.mp hincr).2.2 y hyb x List.mem_cons_self, u, hu,
    hp.subset (List.mem_append_left [x] hyb)⟩

/-- The paths above the nodes of `x`, without the infrequent items, are what is left of the
transactions when `x` goes to the suffix. -/
theorem Represents.conditional_alike (halike : Alike us (conditional ts minsupp S))
    (hx : ∃ t ∈ us, x ∈ t.items) (hfreq : minsupp ≤ supportOf ts (x :: S))
    (hf : ∀ y < x, f y = decide (minsupp ≤ supportOf us [x, y])) :
    Alike (above tree f (tree.header x).reverse) (conditional ts minsupp (x :: S)) := by
  have hextends : Extends ts minsupp S x := by
    obtain ⟨t, ht, hxt⟩ := (halike.mem_iff x).mp hx
    exact conditional_extends ht hxt
  have hkept : (fun y => decide (y < x) && f y) = fun y =>
      decide (y < x ∧ minsupp ≤ supportOf (conditional ts minsupp S) [x, y]) := by
    funext y
    rw [Bool.decide_and]
    by_cases hy : y < x
    · rw [hf y hy, halike.supportOf_eq (List.cons_ne_nil x [y])]
    · rw [decide_eq_false hy, Bool.false_and, Bool.false_and]
  have habove := h.below_alike (x := x) (f := f) hinc
  rw [hkept] at habove
  rw [conditional_cons hextends hfreq]
  exact habove.trans (halike.below x _)

end

end StreamMill.FPTree
