import Mathlib.Algebra.BigOperators.Group.Finset.Basic
import Mathlib.Algebra.BigOperators.Group.Finset.Piecewise
import StreamMill.Swim.Insert

/-!
# StreamMill.Swim.DiffTrees

`diffTrees` compares two trees without a table: a child of `right` that was found for a child of
`left` is marked by an item number below zero, and at the end of its level all marks are taken
away. The counters are `int`, so they hold the numbers of nodes modulo `2^32`.
-/

namespace StreamMill.Swim

open Lib
open FPTree (Trans Adr)

abbrev Memory := Ptr → Node

def Memory.set (mem : Memory) (p : Ptr) (f : Node → Node) : Memory :=
  Function.update mem p (f (mem p))

/-- `for (node=p->leftChild; node; node=node->sibling)`, with no more than `n` nodes -/
def Memory.children (n : Nat) (mem : Memory) (p : Ptr) : Except Fault (List Ptr) :=
  visits .endless (fun p => (mem p).sibling) n (mem p).leftChild

/-- The first child of `right` with the item of `node`. -/
def Memory.sameItem (n : Nat) (mem : Memory) (right node : Ptr) : Except Fault (Option Ptr) :=
  walk .endless (fun node2 => (mem node2).itemNo ≠ (mem node).itemNo)
    (fun node2 => (mem node2).sibling) n (mem right).leftChild

def Node.mark (n : Node) : Node := { n with itemNo := n.itemNo - 20000 }

def Node.unmark (n : Node) : Node :=
  if n.itemNo.toInt < 0 then { n with itemNo := n.itemNo + 20000 } else n

/-- `*leftmore`, `*common` and `*rightmore` -/
structure Diff where
  leftmore : BitVec 32
  common : BitVec 32
  rightmore : BitVec 32

def Diff.zero : Diff := ⟨0, 0, 0⟩

section Loops

variable (diff : Memory → Option Ptr → Option Ptr → Except Fault (Memory × Diff))

/-- A node that `left` does not have. -/
def diffRight (s : Memory × Diff) (node2 : Ptr) : Except Fault (Memory × Diff) := do
  let (mem, t) ← diff s.1 none (some node2)
  return (mem, { s.2 with rightmore := s.2.rightmore + 1 + t.rightmore })

/-- A node that `right` does not have. -/
def diffLeft (s : Memory × Diff) (node : Ptr) : Except Fault (Memory × Diff) := do
  let (mem, t) ← diff s.1 (some node) none
  return (mem, { s.2 with leftmore := s.2.leftmore + 1 + t.leftmore })

/-- A child of `left`, with the child of `right` that has its item. -/
def diffBoth (n : Nat) (right : Ptr) (s : Memory × Diff) (node : Ptr) :
    Except Fault (Memory × Diff) := do
  let node2 ← s.1.sameItem n right node
  let (mem, out) :=
    match node2 with
    | some q => (s.1.set q Node.mark, { s.2 with common := s.2.common + 1 })
    | none => (s.1, { s.2 with leftmore := s.2.leftmore + 1 })
  let (mem, t) ← diff mem (some node) node2
  return (mem, ⟨out.leftmore + t.leftmore, out.common + t.common, out.rightmore + t.rightmore⟩)

def diffUnvisited (s : Memory × Diff) (node2 : Ptr) : Except Fault (Memory × Diff) :=
  if 0 ≤ (s.1 node2).itemNo.toInt then diffRight diff s node2 else .ok s

end Loops

/-- The nodes afterwards and the results, which are not written to `NULL`. `n` bounds the lists of
children, the other number the depth. -/
def diffTrees (n : Nat) : Nat → Memory → Option Ptr → Option Ptr → Except Fault (Memory × Diff)
  | 0, _, _, _ => .error .endless
  | _ + 1, mem, none, none => .ok (mem, .zero)
  | fuel + 1, mem, none, some right => do
    let nodes ← mem.children n right
    nodes.foldlM (diffRight (diffTrees n fuel)) (mem, .zero)
  | fuel + 1, mem, some left, none => do
    let nodes ← mem.children n left
    nodes.foldlM (diffLeft (diffTrees n fuel)) (mem, .zero)
  | fuel + 1, mem, some left, some right => do
    let nodes ← mem.children n left
    let s ← nodes.foldlM (diffBoth (diffTrees n fuel) n right) (mem, .zero)
    let nodes ← s.1.children n right
    let s ← nodes.foldlM (diffUnvisited (diffTrees n fuel)) s
    -- "Undoing right tree marks"
    let nodes ← s.1.children n right
    return (nodes.foldl (fun mem node2 => mem.set node2 Node.unmark) s.1, s.2)

/-! ## Trees in memory -/

/-- The nodes of `S` lie at the addresses that `addr` gives, with their children. The items are
right below `a`; elsewhere there may be marks. -/
structure Subtree (mem : Memory) (S : Shape) (addr : Adr → Ptr) (a : Adr) : Prop where
  ok : S.Ok
  inj : ∀ b c, S.Has b → S.Has c → addr b = addr c → b = c
  children : ∀ b, S.Has b → Path (fun p => (mem p).sibling) (mem (addr b)).leftChild
    ((S.children b).map fun i => addr (b ++ [i]))
  small : ∀ b i, b ++ [i] ∈ S.nodes → i < 20000
  item : ∀ b i, b ++ [i] ∈ S.nodes → a <+: b →
    (mem (addr (b ++ [i]))).itemNo = BitVec.ofNat 16 i

variable {mem : Memory} {S T : Shape} {addr taddr : Adr → Ptr} {a b : Adr} {i j n : Nat}
  {l : List Ptr} {p : Ptr} {f : Node → Node}

/-! ## Marks -/

theorem foldl_set_other (hp : p ∉ l) : (l.foldl (fun mem q => mem.set q f) mem) p = mem p := by
  induction l generalizing mem with
  | nil => rfl
  | cons q l ih =>
    obtain ⟨hpq, hp⟩ := not_or.mp (mt List.mem_cons.mpr hp)
    rw [List.foldl_cons, ih hp, Memory.set, Function.update_of_ne hpq]

theorem foldl_set_mem (hnd : l.Nodup) (hp : p ∈ l) :
    (l.foldl (fun mem q => mem.set q f) mem) p = f (mem p) := by
  induction l generalizing mem with
  | nil => cases hp
  | cons q l ih =>
    obtain ⟨hq, hnd⟩ := List.nodup_cons.mp hnd
    rw [List.foldl_cons]
    rcases List.mem_cons.mp hp with rfl | hp
    · rw [foldl_set_other hq, Memory.set, Function.update_self]
    · have hpq : p ≠ q := fun he => hq (he ▸ hp)
      rw [ih hnd hp, Memory.set, Function.update_of_ne hpq]

theorem foldl_set_field {β : Type} (get : Node → β) (hget : ∀ n, get (f n) = get n) (p : Ptr) :
    get ((l.foldl (fun mem q => mem.set q f) mem) p) = get (mem p) := by
  induction l generalizing mem with
  | nil => rfl
  | cons q l ih =>
    rw [List.foldl_cons, ih, Memory.set]
    by_cases hpq : p = q
    · subst hpq
      rw [Function.update_self, hget]
    · rw [Function.update_of_ne hpq]

def Memory.marks (mem : Memory) (addr : Adr → Ptr) (a : Adr) (M : List Nat) : Memory :=
  (M.map fun i => addr (a ++ [i])).foldl (fun mem q => mem.set q Node.mark) mem

theorem marks_field {β : Type} (get : Node → β) (hget : ∀ n, get n.mark = get n) (mem : Memory)
    (addr : Adr → Ptr) (a : Adr) (M : List Nat) (p : Ptr) :
    get (mem.marks addr a M p) = get (mem p) :=
  foldl_set_field get hget p

theorem marks_concat (mem : Memory) (addr : Adr → Ptr) (a : Adr) (M : List Nat) (i : Nat) :
    mem.marks addr a (M ++ [i]) = (mem.marks addr a M).set (addr (a ++ [i])) Node.mark := by
  rw [Memory.marks, List.map_append, List.foldl_append]
  rfl

/-- The subtrees of the children are as they were. `hsame`: only children of `a` are marked. -/
theorem Subtree.marks (h : Subtree mem S addr a) {M : List Nat}
    (hsame : ∀ b, S.Has b → ∀ k ∈ M, addr b = taddr (a ++ [k]) → b = a ++ [k]) (i : Nat) :
    Subtree (mem.marks taddr a M) S addr (a ++ [i]) := by
  refine ⟨h.ok, h.inj, fun b hb => ?_, h.small, fun b j hm hpre => ?_⟩
  · rw [marks_field Node.leftChild fun _ => rfl]
    exact (h.children b hb).congr fun p _ =>
      marks_field Node.sibling (fun _ => rfl) mem taddr a M p
  · have hno : addr (b ++ [j]) ∉ M.map fun k => taddr (a ++ [k]) := by
      intro hmem
      obtain ⟨k, hk, heq⟩ := List.mem_map.mp hmem
      obtain rfl : b = a := List.append_inj_left' (hsame _ (S.has_node hm) k hk heq.symm) rfl
      have hle := hpre.length_le
      simp at hle
    rw [Memory.marks, foldl_set_other hno]
    exact h.item b j hm ((List.prefix_append a [i]).trans hpre)

theorem item_injective (hi : i < 20000) (hj : j < 20000)
    (h : BitVec.ofNat 16 i = BitVec.ofNat 16 j) : i = j := by
  have hnat := congrArg BitVec.toNat h
  rw [BitVec.toNat_ofNat, BitVec.toNat_ofNat, Nat.mod_eq_of_lt (by omega),
    Nat.mod_eq_of_lt (by omega)] at hnat
  exact hnat

theorem item_nonneg (hi : i < 20000) : 0 ≤ (BitVec.ofNat 16 i).toInt := by
  rw [toInt_item (by rw [itemLimit]; omega)]
  exact Int.natCast_nonneg i

theorem marked_neg (hi : i < 20000) : (BitVec.ofNat 16 i - 20000).toInt < 0 := by
  have hsub : (BitVec.ofNat 16 i - 20000).toNat = i + 45536 := by
    change (65536 - 20000 + i % 65536) % 65536 = _
    omega
  rw [BitVec.toInt_eq_toNat_cond]
  omega

theorem Node.unmark_mark {x : Node} (hi : i < 20000) (hx : x.itemNo = BitVec.ofNat 16 i) :
    x.mark.unmark = x := by
  have hneg : x.mark.itemNo.toInt < 0 := by
    rw [Node.mark, hx]
    exact marked_neg hi
  rw [Node.unmark, if_pos hneg, Node.mark]
  simp [BitVec.sub_add_cancel]

theorem Node.unmark_item {x : Node} (hi : i < 20000) (hx : x.itemNo = BitVec.ofNat 16 i) :
    x.unmark = x := by
  have hpos : ¬ x.itemNo.toInt < 0 := by
    rw [hx]
    exact (item_nonneg hi).not_gt
  rw [Node.unmark, if_neg hpos]

section Children

variable {M : List Nat}

section

variable (h : Subtree mem S addr a)
include h

theorem Subtree.child_small (hi : i ∈ S.children b) : i < 20000 :=
  h.small b i ((h.ok.child b i).mp hi)

theorem Subtree.map_nodup (hM : M.Nodup) (hsub : M ⊆ S.children b) :
    (M.map fun i => addr (b ++ [i])).Nodup := by
  refine hM.map_on fun i hi j hj heq => ?_
  have heq := h.inj _ _ (h.ok.has_child (hsub hi)) (h.ok.has_child (hsub hj)) heq
  exact List.singleton_inj.mp (List.append_inj_right' heq rfl)

theorem Subtree.children_length (b : Adr) :
    (S.children b).length ≤ S.nodes.length := by
  have hnd : ((S.children b).map fun i => b ++ [i]).Nodup :=
    (h.ok.childNodup b).map fun i j heq => List.singleton_inj.mp (List.append_inj_right' heq rfl)
  have hsub : ((S.children b).map fun i => b ++ [i]) ⊆ S.nodes := by
    intro c hc
    obtain ⟨i, hi, rfl⟩ := List.mem_map.mp hc
    exact (h.ok.child b i).mp hi
  have hle := (hnd.subperm hsub).length_le
  rwa [List.length_map] at hle

theorem Subtree.marks_item (hM : M.Nodup) (hsub : M ⊆ S.children a) (hi : i ∈ S.children a) :
    mem.marks addr a M (addr (a ++ [i])) =
      if i ∈ M then (mem (addr (a ++ [i]))).mark else mem (addr (a ++ [i])) := by
  have hmem : addr (a ++ [i]) ∈ M.map (fun j => addr (a ++ [j])) ↔ i ∈ M := by
    constructor
    · intro hm
      obtain ⟨j, hj, heq⟩ := List.mem_map.mp hm
      have heq := h.inj _ _ (h.ok.has_child (hsub hj)) (h.ok.has_child hi) heq
      exact List.singleton_inj.mp (List.append_inj_right' heq rfl) ▸ hj
    · exact fun hm => List.mem_map.mpr ⟨i, hm, rfl⟩
  by_cases him : i ∈ M
  · rw [if_pos him, Memory.marks, foldl_set_mem (h.map_nodup hM hsub) (hmem.mpr him)]
  · rw [if_neg him, Memory.marks, foldl_set_other (mt hmem.mp him)]

theorem Subtree.marks_itemNo (hM : M.Nodup) (hsub : M ⊆ S.children a) (hi : i ∈ S.children a) :
    (mem.marks addr a M (addr (a ++ [i]))).itemNo =
      if i ∈ M then BitVec.ofNat 16 i - 20000 else BitVec.ofNat 16 i := by
  have hitem := h.item a i ((h.ok.child a i).mp hi) List.prefix_rfl
  rw [h.marks_item hM hsub hi, apply_ite Node.itemNo, Node.mark, hitem]

theorem Subtree.marks_children (ha : S.Has a) (taddr : Adr → Ptr) (b : Adr)
    (hn : S.nodes.length < n) :
    (mem.marks taddr b M).children n (addr a) =
      .ok ((S.children a).map fun i => addr (a ++ [i])) := by
  refine visits_path _ ?_ ?_
  · rw [marks_field Node.leftChild fun _ => rfl]
    exact (h.children a ha).congr fun p _ => marks_field Node.sibling (fun _ => rfl) mem taddr b M p
  · rw [List.length_map]
    exact (h.children_length a).trans hn.le

theorem Subtree.sameItem (ha : S.Has a) (hM : M.Nodup) (hsub : M ⊆ S.children a) (hi : i < 20000)
    (hiM : i ∉ M) (hn : S.nodes.length < n) (hp : (mem.marks addr a M p).itemNo = BitVec.ofNat 16 i) :
    (mem.marks addr a M).sameItem n (addr a) p =
      .ok (if i ∈ S.children a then some (addr (a ++ [i])) else none) := by
  have hpath : Path (fun q => (mem.marks addr a M q).sibling)
      (mem.marks addr a M (addr a)).leftChild ((S.children a).map fun i => addr (a ++ [i])) := by
    rw [marks_field Node.leftChild fun _ => rfl]
    exact (h.children a ha).congr fun p _ => marks_field Node.sibling (fun _ => rfl) mem addr a M p
  have hle : ((S.children a).map fun i => addr (a ++ [i])).length ≤ n := by
    rw [List.length_map]
    exact (h.children_length a).trans hn.le
  rw [Memory.sameItem, walk_path _ _ hpath hle, ← List.find?_not_eq_head?_dropWhile,
    find_map fun j hj => ?_]
  rw [hp, h.marks_itemNo hM hsub hj]
  have hj := h.child_small hj
  by_cases hji : j = i
  · subst hji
    simp [hiM]
  · have hne : (if j ∈ M then BitVec.ofNat 16 j - 20000 else BitVec.ofNat 16 j) ≠
        BitVec.ofNat 16 i := by
      split
      · intro heq
        have hneg := marked_neg hj
        rw [heq] at hneg
        exact (item_nonneg hi).not_gt hneg
      · exact fun heq => hji (item_injective hj hi heq)
    rw [decide_eq_true hne, decide_eq_false hji]
    rfl

theorem Subtree.unmark (hM : M.Nodup) (hsub : M ⊆ S.children a) :
    ((S.children a).map fun i => addr (a ++ [i])).foldl (fun mem q => mem.set q Node.unmark)
      (mem.marks addr a M) = mem := by
  funext p
  by_cases hp : p ∈ (S.children a).map fun i => addr (a ++ [i])
  · rw [foldl_set_mem (h.map_nodup (h.ok.childNodup a) (List.Subset.refl _)) hp]
    obtain ⟨i, hi, rfl⟩ := List.mem_map.mp hp
    have hsmall := h.child_small hi
    have hitem := h.item a i ((h.ok.child a i).mp hi) List.prefix_rfl
    rw [h.marks_item hM hsub hi]
    split
    · exact Node.unmark_mark hsmall hitem
    · exact Node.unmark_item hsmall hitem
  · rw [foldl_set_other hp, Memory.marks, foldl_set_other fun hm => hp ?_]
    obtain ⟨i, hi, rfl⟩ := List.mem_map.mp hm
    exact List.mem_map.mpr ⟨i, hsub hi, rfl⟩

end

end Children

/-! ## Numbers of nodes -/

def Shape.number (S : Shape) (q : Adr → Bool) (a : Adr) : Nat := (S.extensions a).countP q

theorem Shape.mem_extensions : b ∈ S.extensions a ↔ b ∈ S.nodes ∧ a <+: b ∧ b ≠ a := by
  rw [extensions, List.mem_filter, decide_eq_true_iff]

theorem Shape.Ok.extensions_perm (h : S.Ok) (a : Adr) :
    (S.extensions a).Perm
      ((S.children a).flatMap fun i => (a ++ [i]) :: S.extensions (a ++ [i])) := by
  have hcons : ∀ i, ((a ++ [i]) :: S.extensions (a ++ [i])).Nodup := fun i =>
    List.nodup_cons.mpr ⟨fun hm => (mem_extensions.mp hm).2.2 rfl, h.nodup.filter _⟩
  have hbelow : ∀ i, ∀ b ∈ (a ++ [i]) :: S.extensions (a ++ [i]), a ++ [i] <+: b := by
    intro i b hb
    rcases List.mem_cons.mp hb with rfl | hb
    · exact List.prefix_rfl
    · exact (mem_extensions.mp hb).2.1
  have hnodup : ((S.children a).flatMap fun i =>
      (a ++ [i]) :: S.extensions (a ++ [i])).Nodup := by
    refine List.nodup_flatMap.mpr ⟨fun i _ => hcons i, (h.childNodup a).imp fun {i j} hij => ?_⟩
    intro b hi hj
    have heq := List.prefix_of_prefix_length_le (hbelow i b hi) (hbelow j b hj) (by simp)
    have heq := heq.eq_of_length (by simp)
    exact hij (List.singleton_inj.mp (List.append_inj_right' heq rfl))
  have hext : (S.extensions a).Nodup := h.nodup.filter _
  refine (List.perm_ext_iff_of_nodup hext hnodup).mpr fun b => ?_
  rw [mem_extensions, List.mem_flatMap]
  constructor
  · rintro ⟨hb, ⟨t, rfl⟩, hne⟩
    cases t with
    | nil => exact absurd (List.append_nil a) hne
    | cons i t =>
      have hpre : a ++ [i] <+: a ++ i :: t := ⟨t, by rw [List.append_assoc]; rfl⟩
      have hchild : a ++ [i] ∈ S.nodes :=
        (List.mem_cons.mp (h.has_prefix (S.has_node hb) hpre)).resolve_left (by simp)
      refine ⟨i, (h.child a i).mpr hchild, List.mem_cons.mpr ?_⟩
      by_cases heq : a ++ i :: t = a ++ [i]
      · exact .inl heq
      · exact .inr (mem_extensions.mpr ⟨hb, hpre, heq⟩)
  · rintro ⟨i, hi, hb⟩
    have hpre := hbelow i b hb
    refine ⟨?_, (List.prefix_append a [i]).trans hpre, ?_⟩
    · rcases List.mem_cons.mp hb with rfl | hb
      · exact (h.child a i).mp hi
      · exact (mem_extensions.mp hb).1
    · rintro rfl
      have hle := hpre.length_le
      simp at hle

theorem Shape.Ok.number_eq (h : S.Ok) (q : Adr → Bool) (a : Adr) :
    S.number q a = ((S.children a).map fun i =>
      (if q (a ++ [i]) then 1 else 0) + S.number q (a ++ [i])).sum := by
  rw [number, (h.extensions_perm a).countP_eq, List.countP_flatMap]
  refine congrArg List.sum (List.map_congr_left fun i _ => ?_)
  rw [Function.comp_apply, List.countP_cons, Nat.add_comm]
  rfl

theorem Shape.Ok.number_missing (h : S.Ok) (q : Adr → Bool) (ha : ¬ S.Has a) :
    S.number q a = 0 := by
  have hnil : S.extensions a = [] := by
    refine List.eq_nil_iff_forall_not_mem.mpr fun b hb => ?_
    obtain ⟨hb, hpre, -⟩ := mem_extensions.mp hb
    exact ha (h.has_prefix (S.has_node hb) hpre)
  rw [number, hnil]
  rfl

def Shape.inBoth (T : Shape) (b : Adr) : Bool := T.nodes.contains b

def Shape.notIn (T : Shape) (b : Adr) : Bool := !T.nodes.contains b

theorem sum_common {l l' : List Nat} (hl : l.Nodup) (hl' : l'.Nodup) (g : Nat → Nat)
    (hzero : ∀ i ∈ l, i ∉ l' → g i = 0) :
    (l.map g).sum = (l'.map fun j => if j ∈ l then g j else 0).sum := by
  rw [← List.sum_toFinset g hl, ← List.sum_toFinset _ hl']
  have hite : ∀ j, (if j ∈ l then g j else 0) = if j ∈ l.toFinset then g j else 0 := fun j => by
    simp [List.mem_toFinset]
  simp only [hite]
  rw [Finset.sum_ite_mem, Finset.inter_comm]
  refine (Finset.sum_subset Finset.inter_subset_left fun i hi hno => ?_).symm
  refine hzero i (List.mem_toFinset.mp hi) fun hi' => hno ?_
  exact Finset.mem_inter.mpr ⟨hi, List.mem_toFinset.mpr hi'⟩

theorem Shape.Ok.inBoth_iff (h : T.Ok) : T.inBoth (a ++ [i]) = true ↔ i ∈ T.children a := by
  rw [inBoth, List.contains_iff_mem, h.child]

theorem Shape.Ok.notIn_iff (h : T.Ok) : T.notIn (a ++ [i]) = true ↔ i ∉ T.children a := by
  rw [notIn, Bool.not_eq_true', ← Bool.not_eq_true, List.contains_iff_mem, h.child]

theorem Shape.Ok.number_notIn (h : T.Ok) (S : Shape) (ha : ¬ T.Has a) :
    S.number T.notIn a = S.number (fun _ => true) a ∧ S.number T.inBoth a = 0 := by
  have hno : ∀ b ∈ S.extensions a, b ∉ T.nodes := fun b hb hm =>
    ha (h.has_prefix (T.has_node hm) (mem_extensions.mp hb).2.1)
  constructor
  · refine List.countP_congr fun b hb => ?_
    simp [notIn, hno b hb]
  · refine List.countP_eq_zero.mpr fun b hb => ?_
    simp [inBoth, hno b hb]

/-! ## The loops -/

def Diff.of (x y z : Nat) : Diff := ⟨BitVec.ofNat 32 x, BitVec.ofNat 32 y, BitVec.ofNat 32 z⟩

theorem foldlM_count {loop : Memory × Diff → Ptr → Except Fault (Memory × Diff)}
    {m : List Nat → Memory} {g : Nat → Ptr} {dl dc dr : Nat → Nat} (l : List Nat)
    (h : ∀ pre i suf, l = pre ++ i :: suf → ∀ x y z, loop (m pre, .of x y z) (g i) =
      .ok (m (pre ++ [i]), .of (x + dl i) (y + dc i) (z + dr i))) (x y z : Nat) :
    (l.map g).foldlM loop (m [], .of x y z) =
      .ok (m l, .of (x + (l.map dl).sum) (y + (l.map dc).sum) (z + (l.map dr).sum)) := by
  induction l using List.reverseRecOn with
  | nil => rfl
  | append_singleton l i ih =>
    have hlast := h l i [] rfl
    have hrest := ih fun pre j suf heq => h pre j (suf ++ [i]) (by rw [heq, List.append_assoc]; rfl)
    rw [List.map_append, List.foldlM_append, hrest]
    change (List.foldlM loop _ [g i]) = _
    rw [List.foldlM_cons, hlast]
    simp [Nat.add_assoc]

theorem mem_split {l pre suf : List Nat} (h : l = pre ++ i :: suf) : i ∈ l := by
  rw [h]
  exact List.mem_append_right _ List.mem_cons_self

theorem Subtree.mono (h : Subtree mem S addr a) (hpre : a <+: b) : Subtree mem S addr b :=
  ⟨h.ok, h.inj, h.children, h.small, fun c i hm hc => h.item c i hm (hpre.trans hc)⟩

theorem Subtree.children_eq (h : Subtree mem S addr a) (ha : S.Has a) (hn : S.nodes.length < n) :
    mem.children n (addr a) = .ok ((S.children a).map fun i => addr (a ++ [i])) :=
  h.marks_children (M := []) ha addr [] hn

/-- No node below `a` is deeper than `fuel` allows. -/
def Shape.Shallow (S : Shape) (a : Adr) (fuel : Nat) : Prop :=
  ∀ b, S.Has b → a <+: b → b.length < a.length + fuel

variable {fuel : Nat}

theorem Shape.Shallow.not_zero (h : S.Shallow a 0) (ha : S.Has a) : False :=
  (h a ha List.prefix_rfl).false

theorem Shape.Shallow.child (h : S.Shallow a (fuel + 1)) (i : Nat) :
    S.Shallow (a ++ [i]) fuel := by
  intro b hb hpre
  have hlt := h b hb ((List.prefix_append a [i]).trans hpre)
  rw [List.length_append, List.length_singleton]
  omega

section

variable (h : Subtree mem S addr a) (ha : S.Has a) (hn : S.nodes.length < n)
  (hfuel : S.Shallow a fuel)
include h ha hn hfuel

theorem diffTrees_left :
    diffTrees n fuel mem (some (addr a)) none =
      .ok (mem, .of (S.number (fun _ => true) a) 0 0) := by
  induction fuel generalizing a with
  | zero => exact (hfuel.not_zero ha).elim
  | succ fuel ih =>
    have hstep : ∀ i ∈ S.children a, ∀ x y z,
        diffLeft (diffTrees n fuel) (mem, .of x y z) (addr (a ++ [i])) =
          .ok (mem, .of (x + (1 + S.number (fun _ => true) (a ++ [i]))) (y + 0) (z + 0)) := by
      intro i hi x y z
      rw [diffLeft, ih (h.mono (List.prefix_append a [i])) (h.ok.has_child hi) (hfuel.child i)]
      simp only [Diff.of, Nat.add_zero, BitVec.ofNat_add, ← BitVec.add_assoc]
      rfl
    have hloop := foldlM_count (S.children a) (fun pre i suf heq =>
      hstep i (mem_split heq)) 0 0 0
    rw [diffTrees, h.children_eq ha hn, h.ok.number_eq]
    refine Eq.trans hloop ?_
    simp

theorem diffTrees_right_only :
    diffTrees n fuel mem none (some (addr a)) =
      .ok (mem, .of 0 0 (S.number (fun _ => true) a)) := by
  induction fuel generalizing a with
  | zero => exact (hfuel.not_zero ha).elim
  | succ fuel ih =>
    have hstep : ∀ i ∈ S.children a, ∀ x y z,
        diffRight (diffTrees n fuel) (mem, .of x y z) (addr (a ++ [i])) =
          .ok (mem, .of (x + 0) (y + 0) (z + (1 + S.number (fun _ => true) (a ++ [i])))) := by
      intro i hi x y z
      rw [diffRight, ih (h.mono (List.prefix_append a [i])) (h.ok.has_child hi) (hfuel.child i)]
      simp only [Diff.of, Nat.add_zero, BitVec.ofNat_add, ← BitVec.add_assoc]
      rfl
    have hloop := foldlM_count (S.children a) (fun pre i suf heq =>
      hstep i (mem_split heq)) 0 0 0
    rw [diffTrees, h.children_eq ha hn, h.ok.number_eq]
    refine Eq.trans hloop ?_
    simp

end

/-- A node that is in both trees is at the same place in both: they are two trees, or one. -/
def Aligned (S T : Shape) (addr taddr : Adr → Ptr) : Prop :=
  ∀ b c, S.Has b → T.Has c → addr b = taddr c → b = c

/-- The children of `a` that `T` has are marked. -/
def Memory.marked (mem : Memory) (T : Shape) (taddr : Adr → Ptr) (a : Adr) (pre : List Nat) :
    Memory :=
  mem.marks taddr a (pre.filter fun i => i ∈ T.children a)

theorem filter_subset (pre l : List Nat) : (pre.filter fun i => i ∈ l) ⊆ l := fun _ hi =>
  of_decide_eq_true (List.mem_filter.mp hi).2

section

variable (hs : Subtree mem S addr a)
include hs

theorem Subtree.marked (hst : Aligned S T addr taddr) (ht : T.Ok) (pre : List Nat) (i : Nat) :
    Subtree (mem.marked T taddr a pre) S addr (a ++ [i]) :=
  hs.marks (fun b hb k hk heq =>
    hst b (a ++ [k]) hb (ht.has_child (filter_subset pre _ hk)) heq) i

theorem Subtree.marked_item (hst : Aligned S T addr taddr) (ht : T.Ok) {pre : List Nat}
    (hi : i ∈ S.children a) (hpre : i ∉ pre) :
    (mem.marked T taddr a pre (addr (a ++ [i]))).itemNo = BitVec.ofNat 16 i := by
  rw [Memory.marked, Memory.marks, foldl_set_other fun hm => ?_]
  · exact hs.item a i ((hs.ok.child a i).mp hi) List.prefix_rfl
  · obtain ⟨k, hk, heq⟩ := List.mem_map.mp hm
    have hkT := ht.has_child (filter_subset pre _ hk)
    have heq := hst _ _ (hs.ok.has_child hi) hkT heq.symm
    obtain rfl : i = k := List.singleton_inj.mp (List.append_inj_right' heq rfl)
    exact hpre (List.mem_filter.mp hk).1

theorem Subtree.diffBoth (ht : Subtree mem T taddr a) (hst : Aligned S T addr taddr) (ha : T.Has a)
    (hn : S.nodes.length < n) (hn' : T.nodes.length < n) (hfuel : S.Shallow a (fuel + 1))
    (ih : ∀ {mem : Memory} {b : Adr}, Subtree mem S addr b → Subtree mem T taddr b → S.Has b →
      T.Has b → b = a ++ [i] →
      diffTrees n fuel mem (some (addr b)) (some (taddr b)) =
        .ok (mem, .of (S.number T.notIn b) (S.number T.inBoth b) (T.number S.notIn b)))
    {pre suf : List Nat} (hpre : S.children a = pre ++ i :: suf) (x y z : Nat) :
    Swim.diffBoth (diffTrees n fuel) n (taddr a) (mem.marked T taddr a pre, .of x y z)
        (addr (a ++ [i])) =
      .ok (mem.marked T taddr a (pre ++ [i]), .of
        (x + ((if T.notIn (a ++ [i]) then 1 else 0) + S.number T.notIn (a ++ [i])))
        (y + ((if T.inBoth (a ++ [i]) then 1 else 0) + S.number T.inBoth (a ++ [i])))
        (z + T.number S.notIn (a ++ [i]))) := by
  have hi := mem_split hpre
  obtain ⟨hpreNodup, -, hdisjoint⟩ := List.nodup_append.mp (hpre ▸ hs.ok.childNodup a)
  have hno : i ∉ pre := fun hm => hdisjoint i hm i List.mem_cons_self rfl
  have hsame : (mem.marked T taddr a pre).sameItem n (taddr a) (addr (a ++ [i])) =
      .ok (if i ∈ T.children a then some (taddr (a ++ [i])) else none) :=
    ht.sameItem ha (hpreNodup.filter _) (filter_subset pre _) (hs.child_small hi)
      (fun hm => hno (List.mem_filter.mp hm).1) hn' (hs.marked_item hst ht.ok hi hno)
  have hchild := hs.ok.has_child hi
  rw [Swim.diffBoth]
  by_cases hiT : i ∈ T.children a
  · rw [if_pos hiT] at hsame
    have hmarked : (mem.marked T taddr a pre).set (taddr (a ++ [i])) Node.mark =
        mem.marked T taddr a (pre ++ [i]) := by
      rw [Memory.marked, Memory.marked, ← marks_concat]
      simp [hiT]
    have hrest := ih (hs.marked hst ht.ok (pre ++ [i]) i) (ht.marked ht.inj ht.ok (pre ++ [i]) i)
      hchild (ht.ok.has_child hiT) rfl
    rw [hsame]
    change diffTrees n fuel ((mem.marked T taddr a pre).set _ Node.mark) _ _ >>= _ = _
    rw [hmarked, hrest, ht.ok.inBoth_iff.mpr hiT, if_neg (fun h => ht.ok.notIn_iff.mp h hiT)]
    simp only [Diff.of, Nat.zero_add, BitVec.ofNat_add, ← BitVec.add_assoc]
    rfl
  · rw [if_neg hiT] at hsame
    have hmarked : mem.marked T taddr a (pre ++ [i]) = mem.marked T taddr a pre := by
      rw [Memory.marked, Memory.marked]
      simp [hiT]
    have hnoT : ¬ T.Has (a ++ [i]) := fun hm =>
      hiT ((ht.ok.child a i).mpr ((List.mem_cons.mp hm).resolve_left (by simp)))
    obtain ⟨hnotIn, hboth⟩ := ht.ok.number_notIn S hnoT
    have hrest := diffTrees_left (hs.marked hst ht.ok pre i) hchild hn (hfuel.child i)
    rw [hsame]
    change diffTrees n fuel (mem.marked T taddr a pre) _ _ >>= _ = _
    rw [hmarked, hrest, hnotIn, hboth, ht.ok.number_missing _ hnoT,
      if_pos (ht.ok.notIn_iff.mpr hiT), if_neg (fun h => hiT (ht.ok.inBoth_iff.mp h))]
    simp only [Diff.of, Nat.zero_add, BitVec.ofNat_add, ← BitVec.add_assoc]
    rfl

theorem Subtree.diffUnvisited (ht : Subtree mem T taddr a) (hn : T.nodes.length < n)
    (hfuel : T.Shallow a (fuel + 1)) (hj : j ∈ T.children a) (x y z : Nat) :
    Swim.diffUnvisited (diffTrees n fuel) (mem.marked T taddr a (S.children a), .of x y z)
        (taddr (a ++ [j])) =
      .ok (mem.marked T taddr a (S.children a), .of (x + 0) (y + 0)
        (z + if j ∈ S.children a then 0 else 1 + T.number S.notIn (a ++ [j]))) := by
  have hitem : (mem.marked T taddr a (S.children a) (taddr (a ++ [j]))).itemNo =
      if j ∈ S.children a then BitVec.ofNat 16 j - 20000 else BitVec.ofNat 16 j := by
    refine (ht.marks_itemNo ((hs.ok.childNodup a).filter _) (filter_subset _ _) hj).trans ?_
    refine if_congr ?_ rfl rfl
    rw [List.mem_filter, decide_eq_true_iff, and_iff_left hj]
  rw [Swim.diffUnvisited, hitem]
  by_cases hjS : j ∈ S.children a
  · rw [if_pos hjS, if_pos hjS, if_neg (marked_neg (ht.child_small hj)).not_ge]
    rfl
  · have hnoS : ¬ S.Has (a ++ [j]) := fun hm =>
      hjS ((hs.ok.child a j).mpr ((List.mem_cons.mp hm).resolve_left (by simp)))
    have hrest := diffTrees_right_only (ht.marked ht.inj ht.ok (S.children a) j)
      (ht.ok.has_child hj) hn (hfuel.child j)
    rw [if_neg hjS, if_neg hjS, if_pos (item_nonneg (ht.child_small hj)), diffRight, hrest,
      (hs.ok.number_notIn T hnoS).1]
    simp only [Diff.of, Nat.add_zero, BitVec.ofNat_add, ← BitVec.add_assoc]
    rfl

end

theorem Shape.Ok.number_right (hs : S.Ok) (ht : T.Ok) (a : Adr) :
    ((S.children a).map fun i => T.number S.notIn (a ++ [i])).sum +
        ((T.children a).map fun j =>
          if j ∈ S.children a then 0 else 1 + T.number S.notIn (a ++ [j])).sum =
      T.number S.notIn a := by
  have hzero : ∀ i ∈ S.children a, i ∉ T.children a → T.number S.notIn (a ++ [i]) = 0 :=
    fun i _ hi => ht.number_missing _ fun hm =>
      hi ((ht.child a i).mpr ((List.mem_cons.mp hm).resolve_left (by simp)))
  rw [sum_common (hs.childNodup a) (ht.childNodup a) (fun i => T.number S.notIn (a ++ [i])) hzero,
    ← List.sum_map_add, ht.number_eq]
  refine congrArg List.sum (List.map_congr_left fun j _ => ?_)
  by_cases hj : j ∈ S.children a
  · rw [if_pos hj, if_pos hj, if_neg fun h => hs.notIn_iff.mp h hj, Nat.add_comm]
  · rw [if_neg hj, if_neg hj, if_pos (hs.notIn_iff.mpr hj), Nat.zero_add]

theorem diffTrees_both (hst : Aligned S T addr taddr) (hn : S.nodes.length < n)
    (hn' : T.nodes.length < n) (hs : Subtree mem S addr a) (ht : Subtree mem T taddr a)
    (ha : S.Has a) (ha' : T.Has a) (hfuel : S.Shallow a fuel) (hfuel' : T.Shallow a fuel) :
    diffTrees n fuel mem (some (addr a)) (some (taddr a)) =
      .ok (mem, .of (S.number T.notIn a) (S.number T.inBoth a) (T.number S.notIn a)) := by
  induction fuel generalizing mem a with
  | zero => exact (hfuel.not_zero ha).elim
  | succ fuel ih =>
    have hrec : ∀ i, ∀ {mem : Memory} {b : Adr}, Subtree mem S addr b → Subtree mem T taddr b →
        S.Has b → T.Has b → b = a ++ [i] →
        diffTrees n fuel mem (some (addr b)) (some (taddr b)) =
          .ok (mem, .of (S.number T.notIn b) (S.number T.inBoth b) (T.number S.notIn b)) := by
      rintro i mem b hs ht hb hb' rfl
      exact ih hs ht hb hb' (hfuel.child i) (hfuel'.child i)
    have hleft := foldlM_count (S.children a)
      (fun pre i suf hpre => hs.diffBoth ht hst ha' hn hn' hfuel (hrec i) hpre) 0 0 0
    have hright := foldlM_count (T.children a)
      (fun pre j suf hpre => hs.diffUnvisited ht hn' hfuel' (mem_split hpre))
      (0 + ((S.children a).map fun i =>
        (if T.notIn (a ++ [i]) then 1 else 0) + S.number T.notIn (a ++ [i])).sum)
      (0 + ((S.children a).map fun i =>
        (if T.inBoth (a ++ [i]) then 1 else 0) + S.number T.inBoth (a ++ [i])).sum)
      (0 + ((S.children a).map fun i => T.number S.notIn (a ++ [i])).sum)
    have hunmark := ht.unmark
      ((hs.ok.childNodup a).filter _) (filter_subset _ _)
    have hchildren : (mem.marked T taddr a (S.children a)).children n (taddr a) =
        .ok ((T.children a).map fun j => taddr (a ++ [j])) := ht.marks_children ha' taddr a hn'
    rw [diffTrees, hs.children_eq ha hn]
    change ((S.children a).map fun i => addr (a ++ [i])).foldlM
      (Swim.diffBoth (diffTrees n fuel) n (taddr a)) (mem, .of 0 0 0) >>= _ = _
    refine (congrArg (· >>= _) hleft).trans ?_
    change (mem.marked T taddr a (S.children a)).children n (taddr a) >>= _ = _
    rw [hchildren]
    change ((T.children a).map fun j => taddr (a ++ [j])).foldlM
      (Swim.diffUnvisited (diffTrees n fuel)) (mem.marked T taddr a (S.children a), _) >>= _ = _
    refine (congrArg (· >>= _) hright).trans ?_
    change (mem.marked T taddr a (S.children a)).children n (taddr a) >>= _ = _
    rw [hchildren]
    refine congrArg Except.ok (Prod.ext hunmark ?_)
    rw [hs.ok.number_eq T.notIn, hs.ok.number_eq T.inBoth, ← hs.ok.number_right ht.ok]
    simp

/-! ## Two trees -/

theorem Shape.Ok.length_le (h : S.Ok) (hb : S.Has b) : b.length ≤ S.nodes.length := by
  have hsub : ((List.range b.length).map fun k => b.take (k + 1)) ⊆ S.nodes := by
    intro c hc
    obtain ⟨k, hk, rfl⟩ := List.mem_map.mp hc
    have hk := List.mem_range.mp hk
    have hlen : (b.take (k + 1)).length = k + 1 := List.length_take_of_le hk
    refine (List.mem_cons.mp (h.has_prefix hb (List.take_prefix (k + 1) b))).resolve_left ?_
    intro hnil
    rw [hnil] at hlen
    cases hlen
  have hnodup : ((List.range b.length).map fun k => b.take (k + 1)).Nodup := by
    refine List.nodup_range.map_on fun k hk l hl heq => ?_
    have hk := List.mem_range.mp hk
    have hl := List.mem_range.mp hl
    have hlen := congrArg List.length heq
    rw [List.length_take, List.length_take] at hlen
    omega
  have hle := (hnodup.subperm hsub).length_le
  rwa [List.length_map, List.length_range] at hle

theorem Shape.Ok.shallow (h : S.Ok) (hn : S.nodes.length < n) : S.Shallow [] n := fun b hb _ => by
  have hle := h.length_le hb
  omega

theorem Shape.Ok.extensions_root (h : S.Ok) : S.extensions [] = S.nodes := by
  refine List.filter_eq_self.mpr fun b hb => decide_eq_true ⟨List.nil_prefix, ?_⟩
  rintro rfl
  exact h.root hb

theorem Linked.subtree {tree : Tree} (h : Linked tree S addr)
    (hsmall : ∀ a i, a ++ [i] ∈ S.nodes → i < 20000) : Subtree tree.node S addr [] :=
  ⟨h.ok, h.inj, h.children, hsmall, fun b i hm _ => h.item b i hm⟩

/-- The results are the numbers of paths, and the nodes are as they were. -/
theorem diffTrees_right (hs : Subtree mem S addr []) (ht : Subtree mem T taddr [])
    (hst : Aligned S T addr taddr) (hn : S.nodes.length < n) (hn' : T.nodes.length < n) :
    diffTrees n n mem (some (addr [])) (some (taddr [])) =
        .ok (mem, .of (S.nodes.countP T.notIn) (S.nodes.countP T.inBoth)
          (T.nodes.countP S.notIn)) ∧
      diffTrees n n mem none (some (taddr [])) = .ok (mem, .of 0 0 T.nodes.length) ∧
      diffTrees n n mem (some (addr [])) none = .ok (mem, .of S.nodes.length 0 0) ∧
      diffTrees n n mem none none = .ok (mem, .of 0 0 0) := by
  have hroot := S.has_root
  have hroot' := T.has_root
  have hboth := diffTrees_both hst hn hn' hs ht hroot hroot' (hs.ok.shallow hn) (ht.ok.shallow hn')
  have hright := diffTrees_right_only ht hroot' hn' (ht.ok.shallow hn')
  have hleft := diffTrees_left hs hroot hn (hs.ok.shallow hn)
  simp only [Shape.number, hs.ok.extensions_root, ht.ok.extensions_root] at hboth hright hleft
  rw [List.countP_true] at hright hleft
  refine ⟨hboth, hright, hleft, ?_⟩
  obtain ⟨k, rfl⟩ := Nat.exists_eq_succ_of_ne_zero (Nat.ne_zero_of_lt hn)
  rfl

/-- A tree and itself. -/
theorem diffTrees_right_self :
    ∃ tree, insertAll (newTree 6) [⟨1, [0, 5]⟩, ⟨1, [5]⟩] = .ok tree ∧
      diffTrees 4 4 tree.node (some root) (some root) = .ok (tree.node, .of 0 3 0) := by
  have hcleared : Cleared (newTree 6) := .inl ⟨6, rfl⟩
  have hsmallItems : ∀ t ∈ [(⟨1, [0, 5]⟩ : Trans), ⟨1, [5]⟩], ∀ c ∈ t.items, c < itemLimit := by
    simp [itemLimit]
  obtain ⟨tree, addr, hall, href⟩ := insertAll_refines hcleared.refines hsmallItems
  refine ⟨tree, hall, ?_⟩
  have hlinks := href.links
  have hsmall : ∀ b ∈ (shape (FPTree.build (FPTree.newTree 6) [⟨1, [0, 5]⟩, ⟨1, [5]⟩])).nodes,
      ∀ i ∈ b, i < 20000 := by decide
  have hsub := hlinks.subtree fun a i hm =>
    hsmall _ hm i (List.mem_append_right a List.mem_cons_self)
  have hdiff := diffTrees_right hsub hsub (fun b c hb hc heq => hlinks.inj b c hb hc heq)
    (n := 4) (by decide) (by decide)
  rw [hlinks.root] at hdiff
  exact hdiff.1

end StreamMill.Swim
