import StreamMill.RTree.Alloc
import StreamMill.Lib.Parts
import Mathlib.Algebra.Group.Prod
import Mathlib.Algebra.Order.Group.Multiset
import Mathlib.Tactic.Abel
import Mathlib.Tactic.Tauto

/-!
# StreamMill.RTree.Tree

What the blocks of the index file have to be to form an R-tree. `Subtree index h b es t`: block `b`
holds the entries `es` and is the root of a tree of height `h` over the blocks, the leaf blocks and
the leaf entries `t`; each entry of an inner block covers the block it points to. `Above` is the
same tree with one subtree taken out, described along the ancestor stack that `choose_leaf` builds.
-/

namespace StreamMill.RTree

open Lib

def Page.Holds (p : Page) (ty : NodeType) (es : List Item) : Prop :=
  ∃ n, p = .node n ∧ n.nodetype = ty ∧ n.entries = es

abbrev Contents := Multiset Nat × Multiset Nat × Multiset Item

/-- The entry `e` points to a subtree whose root block is not underfull, and covers it. -/
def Child (S : Nat → List Item → Contents → Prop) (e : Rect × Nat) (t : Contents) : Prop :=
  ∃ c es, e.2 = c * blockSz ∧ c ≠ 1 ∧ 2 ≤ es.length ∧ (∀ it ∈ es, Covers e.1 it.rect) ∧ S c es t

def Subtree (index : Nat → Page) : Nat → Nat → List Item → Contents → Prop
  | 0, b, es, t =>
    (index b).Holds .leaf es ∧ es.length ≤ maxEntries ∧ t = ({b}, {b}, (es : Multiset Item))
  | h + 1, b, es, t => (index b).Holds .inner es ∧ 2 ≤ es.length ∧ es.length ≤ maxEntries ∧
      ∃ t', Parts (Child (Subtree index h)) (es.map Item.key) t' ∧ t = ({b}, 0, 0) + t'

/-- A tree of height `h` with root block 1, but for the subtree at block `c` of height `k`, whose
rectangles are among `rs`; `anc` are the ancestors of `c`. -/
def Above (index : Nat → Page) (h : Nat) : Nat → Nat → List Nat → List Rect → Contents → Prop
  | k, c, [], _, t => c = 1 ∧ k = h ∧ t = 0
  | k, c, p :: anc, rs, t => c ≠ 1 ∧ ∃ as it bs t₁ t₂,
      (index p).Holds .inner (as ++ it :: bs) ∧
      2 ≤ (as ++ it :: bs).length ∧ (as ++ it :: bs).length ≤ maxEntries ∧
      it.ptr = c * blockSz ∧ (∀ r ∈ rs, Covers it.rect r) ∧
      Parts (Child (Subtree index k)) ((as ++ bs).map Item.key) t₁ ∧
      Above index h (k + 1) p anc ((as ++ it :: bs).map Item.rect) t₂ ∧
      t = ({p}, 0, 0) + t₁ + t₂

variable {index index' : Nat → Page}
variable {es es' : List Item} {e : Rect × Nat} {t : Contents} {bs : Multiset Nat} {b h k c : Nat}
  {anc : List Nat} {rs : List Rect}

theorem Page.Holds.ty_eq {p : Page} {ty ty' : NodeType} (h : p.Holds ty es) (h' : p.Holds ty' es') :
    ty = ty' := by
  obtain ⟨n, hn, rfl, -⟩ := h
  obtain ⟨n', hn', rfl, -⟩ := h'
  rw [hn] at hn'
  cases hn'
  rfl

theorem Page.Holds.entries_eq {p : Page} {ty ty' : NodeType} (h : p.Holds ty es)
    (h' : p.Holds ty' es') : es = es' := by
  obtain ⟨n, hn, -, rfl⟩ := h
  obtain ⟨n', hn', -, rfl⟩ := h'
  rw [hn] at hn'
  cases hn'
  rfl

theorem Child.mono {S S' : Nat → List Item → Contents → Prop} (h : Child S e t)
    (hS : ∀ c es, S c es t → S' c es t) : Child S' e t := by
  obtain ⟨c, es, h1, h2, h3, h4, h5⟩ := h
  exact ⟨c, es, h1, h2, h3, h4, hS c es h5⟩

/-- `index'` has the same nodes at the blocks `bs`, up to leaf pointers. -/
def SameOn (index index' : Nat → Page) (bs : Multiset Nat) : Prop :=
  ∀ b ∈ bs, ∀ ty es, (index b).Holds ty es → (index' b).Holds ty es

theorem SameOn.of_eq (h : ∀ b ∈ bs, index' b = index b) :
    SameOn index index' bs := by
  intro b hb ty es hh
  rw [h b hb]
  exact hh

theorem SameOn.left {bs' : Multiset Nat} (h : SameOn index index' (bs + bs')) :
    SameOn index index' bs := fun b hb => h b (Multiset.mem_add.mpr (.inl hb))

theorem SameOn.right {bs' : Multiset Nat} (h : SameOn index index' (bs + bs')) :
    SameOn index index' bs' := fun b hb => h b (Multiset.mem_add.mpr (.inr hb))

theorem Subtree.congr (ht : Subtree index h b es t) (heq : SameOn index index' t.1) :
    Subtree index' h b es t := by
  induction h generalizing b es t with
  | zero =>
    obtain ⟨h1, h2, rfl⟩ := ht
    exact ⟨heq b (Multiset.mem_singleton_self b) _ _ h1, h2, rfl⟩
  | succ h ih =>
    obtain ⟨h1, h2, h3, t', h4, rfl⟩ := ht
    refine ⟨heq b (by simp) _ _ h1, h2, h3, t', ?_, rfl⟩
    refine h4.mono fun e _ u v hu hc => hc.mono fun c ces hs => ih hs ?_
    rw [hu] at heq
    exact heq.right.left

theorem Child.mono_on (h : Child (Subtree index k) e t) (heq : SameOn index index' t.1) :
    Child (Subtree index' k) e t := h.mono fun _ _ hs => hs.congr heq

theorem Parts.congr_child {es : List (Rect × Nat)} (h : Parts (Child (Subtree index k)) es t)
    (heq : SameOn index index' t.1) :
    Parts (Child (Subtree index' k)) es t := by
  refine h.mono fun e _ u v hu hc => hc.mono fun c ces hs => hs.congr ?_
  rw [hu] at heq
  exact heq.left

theorem Above.congr (ht : Above index h k c anc rs t) (heq : SameOn index index' t.1) :
    Above index' h k c anc rs t := by
  induction anc generalizing k c rs t with
  | nil => exact ht
  | cons p anc ih =>
    obtain ⟨hc, as, it, bs, t₁, t₂, h1, h2, h3, h4, h5, h6, h7, rfl⟩ := ht
    have h2' := heq.right
    have h1' := heq.left
    exact ⟨hc, as, it, bs, t₁, t₂, h1' p (by simp) _ _ h1, h2, h3, h4, h5,
      Parts.congr_child h6 h1'.right, ih h7 h2', rfl⟩

theorem Subtree.mem (ht : Subtree index h b es t) :
    b ∈ t.1 := by
  cases h with
  | zero => obtain ⟨-, -, rfl⟩ := ht; exact Multiset.mem_singleton_self b
  | succ h => obtain ⟨-, -, -, t', -, rfl⟩ := ht; simp

theorem Above.anc_mem {p : Nat} (ht : Above index h k c anc rs t) (hp : p ∈ anc) :
    p ∈ t.1 ∧ ∃ es, (index p).Holds .inner es := by
  induction anc generalizing k c rs t with
  | nil => cases hp
  | cons q anc ih =>
    obtain ⟨hc, as, it, bs, t₁, t₂, h1, h2, h3, h4, h5, h6, h7, rfl⟩ := ht
    rcases List.mem_cons.mp hp with rfl | hp
    · exact ⟨by simp, _, h1⟩
    · obtain ⟨h8, h9⟩ := ih h7 hp
      exact ⟨by simp [h8], h9⟩

theorem Subtree.unique {h' : Nat} {t' : Contents} (ht : Subtree index h b es t)
    (ht' : Subtree index h' b es' t') : h = h' ∧ t = t' := by
  induction h generalizing h' b es es' t t' with
  | zero =>
    cases h' with
    | zero =>
      obtain ⟨h1, -, rfl⟩ := ht
      obtain ⟨h1', -, rfl⟩ := ht'
      rw [h1.entries_eq h1']
      exact ⟨rfl, rfl⟩
    | succ h' => exact absurd (ht.1.ty_eq ht'.1) (by simp)
  | succ h ih =>
    cases h' with
    | zero => exact absurd (ht.1.ty_eq ht'.1) (by simp)
    | succ h' =>
      obtain ⟨h1, h2, -, u, hu, rfl⟩ := ht
      obtain ⟨h1', -, -, u', hu', rfl⟩ := ht'
      obtain rfl := h1.entries_eq h1'
      have huniq : ∀ e v v', Child (Subtree index h) e v → Child (Subtree index h') e v' →
          h = h' ∧ v = v' := by
        rintro e v v' ⟨c, ces, hc, -, -, -, hs⟩ ⟨c', ces', hc', -, -, -, hs'⟩
        obtain rfl : c = c' :=
          Nat.eq_of_mul_eq_mul_right (by decide : 0 < blockSz) (hc.symm.trans hc')
        exact ih hs hs'
      obtain ⟨e, he⟩ := List.exists_mem_of_length_pos (l := es) (by omega)
      obtain ⟨v, -, hv, -⟩ := hu.of_mem (List.mem_map_of_mem he)
      obtain ⟨v', -, hv', -⟩ := hu'.of_mem (List.mem_map_of_mem he)
      rw [(huniq _ _ _ hv hv').1, hu.unique hu' fun e _ v v' hv hv' => (huniq e v v' hv hv').2]
      exact ⟨rfl, rfl⟩

/-- The leaf blocks of `t` are among its blocks and hold leaves. -/
def LeavesIn (index : Nat → Page) (t : Contents) : Prop :=
  t.2.1 ≤ t.1 ∧ ∀ l ∈ t.2.1, ∃ es, (index l).Holds .leaf es

theorem LeavesIn.mem {l : Nat} (h : LeavesIn index t) (hl : l ∈ t.2.1) :
    l ∈ t.1 := Multiset.mem_of_le h.1 hl

theorem LeavesIn.zero : LeavesIn index 0 := ⟨le_rfl, fun l hl => by simp at hl⟩

theorem LeavesIn.block (b : Nat) : LeavesIn index ({b}, 0, 0) :=
  ⟨Multiset.zero_le _, fun l hl => by simp at hl⟩

theorem LeavesIn.add {t u : Contents} (ht : LeavesIn index t) (hu : LeavesIn index u) :
    LeavesIn index (t + u) := by
  refine ⟨add_le_add ht.1 hu.1, fun l hl => ?_⟩
  rcases Multiset.mem_add.mp hl with hl | hl
  · exact ht.2 l hl
  · exact hu.2 l hl

theorem Parts.leavesIn {S : Nat → List Item → Contents → Prop} {es : List (Rect × Nat)}
    (h : Parts (Child S) es t) (hS : ∀ c es t, S c es t → LeavesIn index t) :
    LeavesIn index t := by
  refine h.sum_induct .zero (fun _ _ => .add) ?_
  rintro e - u ⟨c, ces, -, -, -, -, hs⟩
  exact hS c ces u hs

theorem Subtree.leavesIn (ht : Subtree index h b es t) : LeavesIn index t := by
  induction h generalizing b es t with
  | zero =>
    obtain ⟨h1, h2, rfl⟩ := ht
    refine ⟨le_rfl, fun l hl => ?_⟩
    obtain rfl := Multiset.mem_singleton.mp hl
    exact ⟨es, h1⟩
  | succ h ih =>
    obtain ⟨h1, -, -, t', h4, rfl⟩ := ht
    exact (LeavesIn.block b).add (Parts.leavesIn h4 fun _ _ _ => ih)

theorem leavesIn_child (h : Child (Subtree index k) e t) : LeavesIn index t := by
  obtain ⟨c, es, -, -, -, -, hs⟩ := h
  exact hs.leavesIn

theorem Above.leavesIn (ht : Above index h k c anc rs t) : LeavesIn index t := by
  induction anc generalizing k c rs t with
  | nil => obtain ⟨-, -, rfl⟩ := ht; exact .zero
  | cons p anc ih =>
    obtain ⟨hc, as, it, bs, t₁, t₂, h1, h2, h3, h4, h5, h6, h7, rfl⟩ := ht
    exact ((LeavesIn.block p).add (Parts.leavesIn h6 fun _ _ _ hs => hs.leavesIn)).add (ih h7)

theorem Above.root_mem (ht : Above index h k c anc rs t) : 1 ∈ c ::ₘ t.1 := by
  induction anc generalizing k c rs t with
  | nil => obtain ⟨rfl, -, -⟩ := ht; exact Multiset.mem_cons_self _ _
  | cons p anc ih =>
    obtain ⟨hc, as, it, bs, t₁, t₂, h1, h2, h3, h4, h5, h6, h7, rfl⟩ := ht
    have := ih h7
    simp only [Multiset.mem_cons] at this
    simp only [Multiset.mem_cons, Prod.fst_add, Multiset.mem_add, Multiset.mem_singleton]
    tauto

theorem Parts.ptr_ne {as : List Item} (h : Parts (Child (Subtree index k)) (as.map Item.key) t)
    (hc : c ∉ t.1) :
    ∀ a ∈ as, a.ptr ≠ c * blockSz := by
  rintro a ha hptr
  obtain ⟨u, v, ⟨c', ces, hptr', -, -, -, hs⟩, rfl⟩ := h.of_mem (List.mem_map_of_mem ha)
  have heq : c' = c := Nat.eq_of_mul_eq_mul_right (by decide : 0 < blockSz) (hptr'.symm.trans hptr)
  exact hc (Multiset.mem_add.mpr (.inl (heq ▸ hs.mem)))

theorem Subtree.height_lt (ht : Subtree index h b es t) : h < t.1.card := by
  induction h generalizing b es t with
  | zero => obtain ⟨-, -, rfl⟩ := ht; simp
  | succ h ih =>
    obtain ⟨-, h2, -, t', h4, rfl⟩ := ht
    obtain ⟨e, he⟩ := List.exists_mem_of_length_pos (l := es) (by omega)
    obtain ⟨u, v, ⟨c, ces, -, -, -, -, hs⟩, rfl⟩ := h4.of_mem (List.mem_map_of_mem he)
    have := ih hs
    simp
    omega

theorem Above.plug {u : Contents} (ht : Above index h k c anc rs t) (hs : Subtree index k c es u)
    (hrs : ∀ it ∈ es, it.rect ∈ rs) (hfill : c ≠ 1 → 2 ≤ es.length) :
    ∃ es', Subtree index h 1 es' (t + u) := by
  induction anc generalizing k c rs t u es with
  | nil =>
    obtain ⟨rfl, rfl, rfl⟩ := ht
    exact ⟨es, by rwa [zero_add]⟩
  | cons p anc ih =>
    obtain ⟨hc, as, it, bs, t₁, t₂, h1, h2, h3, h4, h5, h6, h7, rfl⟩ := ht
    have hchild : Child (Subtree index k) it.key u :=
      ⟨c, es, h4, hc, hfill hc, fun e he => h5 _ (hrs e he), hs⟩
    have hparts : Parts (Child (Subtree index k)) ((as ++ it :: bs).map Item.key) (u + t₁) := by
      rw [List.map_append] at h6 ⊢
      exact parts_middle.mpr ⟨u, t₁, hchild, h6, rfl⟩
    have hsub : Subtree index (k + 1) p (as ++ it :: bs) (({p}, 0, 0) + (u + t₁)) :=
      ⟨h1, h2, h3, _, hparts, rfl⟩
    obtain ⟨es', h8⟩ := ih h7 hsub (fun e he => List.mem_map_of_mem he) fun _ => h2
    refine ⟨es', ?_⟩
    convert h8 using 1
    abel

end StreamMill.RTree
