import Mathlib.Algebra.Order.BigOperators.Group.List
import Mathlib.Data.List.Induction
import StreamMill.FPTree.Represents

/-!
# StreamMill.FPTree.Mining

What FP-growth puts into a pattern tree, said of the transactions alone. A suffix leaves of the
transactions that contain it the items before it that are frequent together with it. If these lie
on one path, every part of the path is a pattern, together with the suffix; otherwise the suffix
grows by one item, and is no pattern itself (`Mined`).

`mined_paths_iff`: the paths of the patterns are the frequent itemsets if and only if a single path
has no infrequent items and every frequent itemset that no larger item extends has an end that
leaves one path.
-/

namespace StreamMill.FPTree

open Lib

/-- The total support of the transactions that contain `X`. -/
def supportOf (ts : List Trans) (X : List Nat) : Nat := weightOf ts fun l => ∀ y ∈ X, y ∈ l

def Extends (ts : List Trans) (minsupp : Nat) (S : List Nat) (y : Nat) : Prop :=
  S = [] ∨ (∀ x ∈ S, y < x) ∧ minsupp ≤ supportOf ts (y :: S)

instance (ts : List Trans) (minsupp : Nat) (S : List Nat) (y : Nat) :
    Decidable (Extends ts minsupp S y) := inferInstanceAs (Decidable (_ ∨ _))

/-- What is left of the transactions that contain `S`. -/
def conditional (ts : List Trans) (minsupp : Nat) (S : List Nat) : List Trans :=
  (ts.filter fun t => ∀ x ∈ S, x ∈ t.items).map fun t =>
    ⟨t.support, t.items.filter fun y => Extends ts minsupp S y⟩

def OnePath (ts : List Trans) : Prop :=
  ∀ t ∈ ts, ∀ t' ∈ ts, t.items <+: t'.items ∨ t'.items <+: t.items

instance (ts : List Trans) : Decidable (OnePath ts) :=
  inferInstanceAs (Decidable (∀ t ∈ ts, ∀ t' ∈ ts, t.items <+: t'.items ∨ t'.items <+: t.items))

/-- The patterns that are put in with the suffix `S`. -/
inductive Mined (ts : List Trans) (minsupp : Nat) : List Nat → List Nat → Prop where
  | path {S Y : List Nat} : OnePath (conditional ts minsupp S) →
      (Y = [] ∨ ∃ t ∈ conditional ts minsupp S, Y.Sublist t.items) →
      Mined ts minsupp S (Y ++ S)
  | step {S X : List Nat} {x : Nat} : ¬ OnePath (conditional ts minsupp S) →
      (∃ t ∈ conditional ts minsupp S, x ∈ t.items) → minsupp ≤ supportOf ts (x :: S) →
      Mined ts minsupp (x :: S) X → Mined ts minsupp S X

inductive Visited (ts : List Trans) (minsupp : Nat) : List Nat → Prop where
  | nil : Visited ts minsupp []
  | cons {S : List Nat} {x : Nat} : Visited ts minsupp S → ¬ OnePath (conditional ts minsupp S) →
      (∃ t ∈ conditional ts minsupp S, x ∈ t.items) → minsupp ≤ supportOf ts (x :: S) →
      Visited ts minsupp (x :: S)

def Increasing (ts : List Trans) : Prop := ∀ t ∈ ts, t.items.Pairwise (· < ·)

instance (ts : List Trans) : Decidable (Increasing ts) :=
  inferInstanceAs (Decidable (∀ t ∈ ts, t.items.Pairwise (· < ·)))

def NoneAdded (ts : List Trans) (minsupp : Nat) : Prop :=
  OnePath ts → ∀ t ∈ ts, ∀ i ∈ t.items, minsupp ≤ supportOf ts [i]

def NoneMissed (ts : List Trans) (minsupp : Nat) : Prop :=
  ∀ X, X ≠ [] → X.Pairwise (· < ·) → minsupp ≤ supportOf ts X →
    (∀ y, (∀ x ∈ X, x < y) → supportOf ts (X ++ [y]) < minsupp) →
    ∃ S, S <:+ X ∧ OnePath (conditional ts minsupp S)

variable {ts us vs : List Trans} {minsupp : Nat} {S X Y : List Nat} {x y : Nat}

theorem supportOf_mono (h : ∀ y ∈ X, y ∈ Y) : supportOf ts Y ≤ supportOf ts X :=
  weight_mono fun _ _ hp =>
    decide_eq_true fun y hy => of_decide_eq_true hp y (h y hy)

theorem supportOf_congr (h : ∀ y, y ∈ X ↔ y ∈ Y) : supportOf ts X = supportOf ts Y :=
  le_antisymm (supportOf_mono fun y hy => (h y).mpr hy) (supportOf_mono fun y hy => (h y).mp hy)

theorem exists_of_supportOf_pos (h : 0 < supportOf ts X) :
    ∃ t ∈ ts, ∀ y ∈ X, y ∈ t.items := by
  by_contra hno
  have hzero : supportOf ts X = 0 := weight_zero fun t ht =>
    decide_eq_false fun hall => hno ⟨t, ht, hall⟩
  omega

theorem weightOf_filter (p q : List Nat → Bool) :
    weightOf (ts.filter fun t => p t.items) q = weightOf ts fun l => q l && p l := by
  rw [weightOf, weight, List.filter_filter]
  rfl

theorem weightOf_conditional (q : List Nat → Bool) :
    weightOf (conditional ts minsupp S) q = weightOf ts fun l =>
      q (l.filter fun y => Extends ts minsupp S y) && decide (∀ x ∈ S, x ∈ l) := by
  rw [conditional, weightOf, weight_map]
  exact weightOf_filter (fun l => decide (∀ x ∈ S, x ∈ l)) fun l =>
    q (l.filter (Extends ts minsupp S))

theorem supportOf_conditional (hY : ∀ y ∈ Y, Extends ts minsupp S y) :
    supportOf (conditional ts minsupp S) Y = supportOf ts (Y ++ S) := by
  rw [supportOf, weightOf_conditional]
  congr 1
  funext l
  rw [← Bool.decide_and]
  refine decide_eq_decide.mpr ?_
  constructor
  · rintro ⟨hyl, hxl⟩ z hz
    rcases List.mem_append.mp hz with hz | hz
    · exact List.mem_of_mem_filter (hyl z hz)
    · exact hxl z hz
  · intro hl
    refine ⟨fun z hz => List.mem_filter.mpr ⟨hl z (List.mem_append_left S hz), ?_⟩, fun z hz =>
      hl z (List.mem_append_right Y hz)⟩
    exact decide_eq_true (hY z hz)

theorem mem_conditional {t : Trans} : t ∈ conditional ts minsupp S ↔
    ∃ u ∈ ts, (∀ x ∈ S, x ∈ u.items) ∧
      t = ⟨u.support, u.items.filter fun y => Extends ts minsupp S y⟩ := by
  simp only [conditional, List.mem_map, List.mem_filter, decide_eq_true_eq, and_assoc]
  exact exists_congr fun u => and_congr_right fun _ => and_congr_right fun _ => eq_comm

theorem conditional_nil : conditional ts minsupp [] = ts := by
  simp [conditional, Extends]

theorem conditional_increasing (h : Increasing ts) : Increasing (conditional ts minsupp S) := by
  intro t ht
  obtain ⟨u, hu, -, rfl⟩ := mem_conditional.mp ht
  exact (h u hu).filter _

theorem conditional_length {n : Nat} (h : ∀ t ∈ ts, t.items.length ≤ n) :
    ∀ t ∈ conditional ts minsupp S, t.items.length ≤ n := by
  intro t ht
  obtain ⟨u, hu, -, rfl⟩ := mem_conditional.mp ht
  exact (List.length_filter_le _ _).trans (h u hu)

theorem conditional_extends {t : Trans} (ht : t ∈ conditional ts minsupp S) (hy : y ∈ t.items) :
    Extends ts minsupp S y := by
  obtain ⟨u, -, -, rfl⟩ := mem_conditional.mp ht
  exact of_decide_eq_true (List.mem_filter.mp hy).2

theorem conditional_cons (hx : Extends ts minsupp S x) (hfreq : minsupp ≤ supportOf ts (x :: S)) :
    conditional ts minsupp (x :: S) =
      ((conditional ts minsupp S).filter fun t => x ∈ t.items).map fun t =>
        ⟨t.support, t.items.filter fun y =>
          y < x ∧ minsupp ≤ supportOf (conditional ts minsupp S) [x, y]⟩ := by
  have hextends : ∀ y, Extends ts minsupp (x :: S) y ↔
      Extends ts minsupp S y ∧ y < x ∧ minsupp ≤ supportOf (conditional ts minsupp S) [x, y] := by
    intro y
    have hsame : supportOf ts (y :: x :: S) = supportOf ts ([x, y] ++ S) :=
      supportOf_congr fun z => by simp [or_left_comm]
    constructor
    · intro hy
      obtain ⟨hlt, hle⟩ := hy.resolve_left (List.cons_ne_nil x S)
      have hyS : Extends ts minsupp S y := .inr ⟨fun z hz => hlt z (List.mem_cons_of_mem x hz),
        hle.trans (supportOf_mono fun z hz => by
          rcases List.mem_cons.mp hz with rfl | hz
          · exact List.mem_cons_self
          · exact List.mem_cons_of_mem y (List.mem_cons_of_mem x hz))⟩
      refine ⟨hyS, hlt x List.mem_cons_self, ?_⟩
      rw [supportOf_conditional (List.forall_mem_cons.mpr ⟨hx, List.forall_mem_singleton.mpr hyS⟩),
        ← hsame]
      exact hle
    · rintro ⟨hyS, hlt, hle⟩
      rw [supportOf_conditional (List.forall_mem_cons.mpr ⟨hx, List.forall_mem_singleton.mpr hyS⟩),
        ← hsame] at hle
      refine .inr ⟨List.forall_mem_cons.mpr ⟨hlt, fun z hz => ?_⟩, hle⟩
      rcases hyS with rfl | ⟨hlts, -⟩
      · cases hz
      · exact hlts z hz
  rw [conditional, conditional, List.filter_map, List.map_map, List.filter_filter]
  have hfilter : (ts.filter fun t => ∀ z ∈ x :: S, z ∈ t.items) = ts.filter fun t =>
      ((fun u : Trans => decide (x ∈ u.items)) ∘ fun u : Trans =>
        (⟨u.support, u.items.filter (Extends ts minsupp S)⟩ : Trans)) t &&
        decide (∀ z ∈ S, z ∈ t.items) := by
    refine List.filter_congr fun t _ => ?_
    simp only [Function.comp_apply, List.mem_filter, decide_eq_true hx, and_true]
    rw [← Bool.decide_and]
    exact decide_eq_decide.mpr List.forall_mem_cons
  rw [hfilter]
  refine List.map_congr_left fun t _ => ?_
  simp only [Function.comp_apply, List.filter_filter]
  congr 1
  refine List.filter_congr fun y _ => ?_
  rw [← Bool.decide_and, decide_eq_decide, hextends y]
  exact and_comm

theorem OnePath.subset (h : OnePath us) (hinc : Increasing us) {t u : Trans} (ht : t ∈ us)
    (hu : u ∈ us) (hY : ∀ y ∈ Y, y ∈ t.items) (hlast : ∀ y ∈ Y, y ≤ x) (hx : x ∈ u.items) :
    ∀ y ∈ Y, y ∈ u.items := by
  intro y hy
  rcases h t ht u hu with hp | ⟨v, hv⟩
  · exact hp.subset (hY y hy)
  · have hyt := hY y hy
    rw [← hv] at hyt
    rcases List.mem_append.mp hyt with hyu | hyv
    · exact hyu
    · have hlt := (List.pairwise_append.mp (hv ▸ hinc t ht)).2.2 x hx y hyv
      exact absurd (hlast y hy) (Nat.not_le.mpr hlt)

theorem OnePath.supportOf_le (h : OnePath us) (hinc : Increasing us) {t : Trans} (ht : t ∈ us)
    (hY : ∀ y ∈ Y, y ∈ t.items) (hlast : ∀ y ∈ Y, y ≤ x) :
    supportOf us [x] ≤ supportOf us Y := by
  refine weight_mono fun u hu hx => decide_eq_true ?_
  exact h.subset hinc ht hu hY hlast (of_decide_eq_true hx x List.mem_cons_self)

theorem exists_last (hY : Y ≠ []) (hinc : Y.Pairwise (· < ·)) : ∃ x ∈ Y, ∀ y ∈ Y, y ≤ x := by
  obtain ⟨Z, x, rfl⟩ := (List.eq_nil_or_concat' Y).resolve_left hY
  have hlt := (List.pairwise_append.mp hinc).2.2
  refine ⟨x, List.mem_append_right Z List.mem_cons_self, fun y hy => ?_⟩
  rcases List.mem_append.mp hy with hy | hy
  · exact Nat.le_of_lt (hlt y hy x List.mem_cons_self)
  · exact Nat.le_of_eq (List.mem_singleton.mp hy)

theorem mined_path_iff (hone : OnePath (conditional ts minsupp S)) : Mined ts minsupp S X ↔
    ∃ Y, (Y = [] ∨ ∃ t ∈ conditional ts minsupp S, Y.Sublist t.items) ∧ X = Y ++ S := by
  constructor
  · rintro (⟨-, hY⟩ | ⟨hno, -⟩)
    · exact ⟨_, hY, rfl⟩
    · exact absurd hone hno
  · rintro ⟨Y, hY, rfl⟩
    exact .path hone hY

theorem mined_step_iff (hno : ¬ OnePath (conditional ts minsupp S)) : Mined ts minsupp S X ↔
    ∃ x, (∃ t ∈ conditional ts minsupp S, x ∈ t.items) ∧ minsupp ≤ supportOf ts (x :: S) ∧
      Mined ts minsupp (x :: S) X := by
  constructor
  · rintro (⟨hone, -⟩ | ⟨-, hx, hfreq, h⟩)
    · exact absurd hone hno
    · exact ⟨_, hx, hfreq, h⟩
  · rintro ⟨x, hx, hfreq, h⟩
    exact .step hno hx hfreq h

theorem cons_increasing (hS : S.Pairwise (· < ·))
    (hx : ∃ t ∈ conditional ts minsupp S, x ∈ t.items) : (x :: S).Pairwise (· < ·) := by
  obtain ⟨t, ht, hxt⟩ := hx
  refine List.pairwise_cons.mpr ⟨fun z hz => ?_, hS⟩
  exact ((conditional_extends ht hxt).resolve_left (List.ne_nil_of_mem hz)).1 z hz

theorem Visited.increasing (h : Visited ts minsupp S) : S.Pairwise (· < ·) := by
  induction h with
  | nil => exact .nil
  | cons _ _ hx _ ih => exact cons_increasing ih hx

theorem Mined.increasing (h : Mined ts minsupp S X) (hinc : Increasing ts)
    (hS : S.Pairwise (· < ·)) : X.Pairwise (· < ·) := by
  induction h with
  | path _ hY =>
    rcases hY with rfl | ⟨t, ht, hsub⟩
    · exact hS
    · refine List.pairwise_append.mpr ⟨(conditional_increasing hinc t ht).sublist hsub, hS,
        fun y hy x hx => ?_⟩
      have hlt := (conditional_extends ht (hsub.subset hy)).resolve_left (List.ne_nil_of_mem hx)
      exact hlt.1 x hx
  | step _ hx _ _ ih => exact ih (cons_increasing hS hx)

theorem Mined.frequent (h : Mined ts minsupp S X) (hinc : Increasing ts)
    (hadded : S = [] → NoneAdded ts minsupp) (hS : S ≠ [] → minsupp ≤ supportOf ts S)
    (hX : X ≠ []) : minsupp ≤ supportOf ts X := by
  induction h with
  | @path S Y hone hY =>
    by_cases hnil : Y = []
    · subst hnil
      exact hS hX
    · obtain ⟨t, ht, hsub⟩ := hY.resolve_left hnil
      have hextends : ∀ y ∈ Y, Extends ts minsupp S y := fun y hy =>
        conditional_extends ht (hsub.subset hy)
      have hincr : Increasing (conditional ts minsupp S) := conditional_increasing hinc
      obtain ⟨x, hx, hlast⟩ := exists_last hnil ((hincr t ht).sublist hsub)
      have hle := hone.supportOf_le hincr ht (fun y hy => hsub.subset hy) hlast
      rw [supportOf_conditional hextends,
        supportOf_conditional (List.forall_mem_singleton.mpr (hextends x hx))] at hle
      refine le_trans ?_ hle
      rcases hextends x hx with rfl | ⟨-, hfreq⟩
      · rw [conditional_nil] at hone ht
        exact hadded rfl hone t ht x (hsub.subset hx)
      · exact hfreq
  | step _ _ hfreq _ ih => exact ih nofun (fun _ => hfreq) hX

theorem Mined.onePath (h : Mined ts minsupp S X) :
    ∃ S', S' <:+ X ∧ OnePath (conditional ts minsupp S') := by
  induction h with
  | @path S Y hone _ => exact ⟨S, List.suffix_append Y S, hone⟩
  | step _ _ _ _ ih => exact ih

theorem exists_conditional (hS : 0 < supportOf ts (Y ++ S))
    (hY : ∀ y ∈ Y, Extends ts minsupp S y) :
    ∃ t ∈ conditional ts minsupp S, ∀ y ∈ Y, y ∈ t.items := by
  obtain ⟨u, hu, hall⟩ := exists_of_supportOf_pos hS
  refine ⟨_, mem_conditional.mpr ⟨u, hu, fun x hx => hall x (List.mem_append_right Y hx), rfl⟩,
    fun y hy => List.mem_filter.mpr ⟨hall y (List.mem_append_left S hy), ?_⟩⟩
  exact decide_eq_true (hY y hy)

theorem extends_of_frequent (hinc : (Y ++ S).Pairwise (· < ·))
    (hfreq : minsupp ≤ supportOf ts (Y ++ S)) (hy : y ∈ Y) : Extends ts minsupp S y := by
  refine .inr ⟨(List.pairwise_append.mp hinc).2.2 y hy, hfreq.trans ?_⟩
  refine supportOf_mono fun z hz => ?_
  rcases List.mem_cons.mp hz with rfl | hz
  · exact List.mem_append_left S hy
  · exact List.mem_append_right Y hz

/-- A frequent itemset with such an end is a pattern. The induction is on what stands before the
suffix. -/
theorem mined_of_onePath (hinc : Increasing ts) (hm : 1 ≤ minsupp) {Y S' : List Nat}
    (hX : (Y ++ S).Pairwise (· < ·)) (hfreq : minsupp ≤ supportOf ts (Y ++ S))
    (hS' : S <:+ S') (hsuffix : S' <:+ Y ++ S) (hone : OnePath (conditional ts minsupp S')) :
    Mined ts minsupp S (Y ++ S) := by
  induction Y using List.reverseRecOn generalizing S with
  | nil =>
    obtain rfl : S = S' := hS'.eq_of_length_le hsuffix.length_le
    exact .path hone (.inl rfl)
  | append_singleton Y x ih =>
    have hextends := fun y (hy : y ∈ Y ++ [x]) => extends_of_frequent hX hfreq hy
    obtain ⟨t, ht, hall⟩ := exists_conditional (hm.trans hfreq) hextends
    by_cases hpath : OnePath (conditional ts minsupp S)
    · refine .path hpath (.inr ⟨t, ht, ?_⟩)
      have hY := (List.pairwise_append.mp hX).1
      exact List.sublist_of_subperm_of_pairwise (List.subperm_of_subset hY.nodup hall) hY
        (conditional_increasing hinc t ht)
    · rw [List.append_assoc] at hX hfreq hsuffix ⊢
      have hx : x ∈ Y ++ [x] := List.mem_append_right Y List.mem_cons_self
      refine .step hpath ⟨t, ht, hall x hx⟩ ?_ (ih hX hfreq ?_ hsuffix)
      · exact hfreq.trans (supportOf_mono fun z hz => List.mem_append_right Y hz)
      · -- the suffix that leaves one path is longer than `S`
        have hle := List.suffix_of_suffix_length_le (List.suffix_append Y (x :: S)) hsuffix
        refine hle ?_
        obtain ⟨Z, rfl⟩ := hS'
        cases Z with
        | nil => exact absurd hone hpath
        | cons z Z => simp

theorem exists_maximal (hm : 1 ≤ minsupp) (hX : X.Pairwise (· < ·))
    (hfreq : minsupp ≤ supportOf ts X) : ∃ Z, X <+: Z ∧ Z.Pairwise (· < ·) ∧
      minsupp ≤ supportOf ts Z ∧
      ∀ y, (∀ x ∈ Z, x < y) → supportOf ts (Z ++ [y]) < minsupp := by
  have hbound : ∀ Z : List Nat, Z.Pairwise (· < ·) → minsupp ≤ supportOf ts Z →
      Z.length ≤ (ts.map fun t => t.items.length).sum := by
    intro Z hZ hle
    obtain ⟨t, ht, hall⟩ := exists_of_supportOf_pos (hm.trans hle)
    refine (List.subperm_of_subset hZ.nodup hall).length_le.trans ?_
    exact List.single_le_sum (fun _ _ => Nat.zero_le _) _ (List.mem_map_of_mem ht)
  induction hn : (ts.map fun t => t.items.length).sum - X.length generalizing X with
  | zero =>
    refine ⟨X, List.prefix_rfl, hX, hfreq, fun y hy => ?_⟩
    by_contra hle
    have hlen := hbound (X ++ [y]) (List.pairwise_append.mpr ⟨hX, List.pairwise_singleton _ _,
      fun x hx z hz => List.mem_singleton.mp hz ▸ hy x hx⟩) (not_lt.mp hle)
    rw [List.length_append, List.length_singleton] at hlen
    omega
  | succ n ih =>
    by_cases hmax : ∀ y, (∀ x ∈ X, x < y) → supportOf ts (X ++ [y]) < minsupp
    · exact ⟨X, List.prefix_rfl, hX, hfreq, hmax⟩
    · obtain ⟨y, hy⟩ := not_forall.mp hmax
      obtain ⟨hy, hle⟩ := Classical.not_imp.mp hy
      have hXy := List.pairwise_append.mpr ⟨hX, List.pairwise_singleton _ y,
        fun x hx z hz => List.mem_singleton.mp hz ▸ hy x hx⟩
      obtain ⟨Z, hp, hZ⟩ := ih hXy (not_lt.mp hle) (by
        rw [List.length_append, List.length_singleton]
        omega)
      exact ⟨Z, (List.prefix_append X [y]).trans hp, hZ⟩

theorem mined_of_frequent (hinc : Increasing ts) (hm : 1 ≤ minsupp)
    (hmissed : NoneMissed ts minsupp) (hX : X ≠ []) (hincr : X.Pairwise (· < ·))
    (hfreq : minsupp ≤ supportOf ts X) : ∃ Z, Mined ts minsupp [] Z ∧ X <+: Z := by
  obtain ⟨Z, hp, hZ, hle, hmax⟩ := exists_maximal hm hincr hfreq
  have hne : Z ≠ [] := by
    rintro rfl
    exact hX (List.prefix_nil.mp hp)
  obtain ⟨S, hS, hone⟩ := hmissed Z hne hZ hle hmax
  have hmined := mined_of_onePath hinc hm (by rwa [List.append_nil])
    (by rwa [List.append_nil]) (List.nil_suffix) (by rwa [List.append_nil]) hone
  rw [List.append_nil] at hmined
  exact ⟨Z, hmined, hp⟩

theorem mined_paths_iff (hinc : Increasing ts) (hm : 1 ≤ minsupp) :
    (∀ X, X ≠ [] → ((∃ Z, Mined ts minsupp [] Z ∧ X <+: Z) ↔
      X.Pairwise (· < ·) ∧ minsupp ≤ supportOf ts X)) ↔
    NoneAdded ts minsupp ∧ NoneMissed ts minsupp := by
  constructor
  · intro hright
    refine ⟨fun hone t ht i hi => ?_, fun X hX hincr hfreq hmax => ?_⟩
    · have hnil : conditional ts minsupp [] = ts := conditional_nil
      rw [← hnil] at hone ht
      have hmined : Mined ts minsupp [] ([i] ++ []) :=
        .path hone (.inr ⟨t, ht, List.singleton_sublist.mpr hi⟩)
      exact ((hright [i] (List.cons_ne_nil i [])).mp ⟨_, hmined, List.prefix_rfl⟩).2
    · obtain ⟨Z, hmined, Y, rfl⟩ := (hright X hX).mpr ⟨hincr, hfreq⟩
      cases Y with
      | nil =>
        rw [List.append_nil] at hmined
        exact hmined.onePath
      | cons y Y =>
        have hp : X ++ [y] <+: X ++ y :: Y := ⟨Y, by simp⟩
        have hlonger := (hright (X ++ [y]) (by simp)).mp ⟨_, hmined, hp⟩
        have hlt := (List.pairwise_append.mp hlonger.1).2.2
        have hlow := hmax y fun x hx => hlt x hx y List.mem_cons_self
        exact absurd hlonger.2 (not_le.mpr hlow)
  · rintro ⟨hadded, hmissed⟩ X hX
    constructor
    · rintro ⟨Z, hmined, hp⟩
      have hne : Z ≠ [] := by
        rintro rfl
        exact hX (List.prefix_nil.mp hp)
      refine ⟨(hmined.increasing hinc .nil).sublist hp.sublist, ?_⟩
      refine (hmined.frequent hinc (fun _ => hadded) (absurd rfl) hne).trans ?_
      exact supportOf_mono fun y hy => hp.subset hy
    · rintro ⟨hincr, hfreq⟩
      exact mined_of_frequent hinc hm hmissed hX hincr hfreq

end StreamMill.FPTree
