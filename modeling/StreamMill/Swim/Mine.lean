import Mathlib.Data.List.DropRight
import StreamMill.FPTree.Conditional
import StreamMill.Swim.Union

/-!
# StreamMill.Swim.Mine

`Mine`, with `doReport == 0`, which puts the patterns that it finds in an FP-tree into a pattern
tree. A tree that is one path gives every part of the path, together with the suffix; the words of
a Gray code choose the parts. Otherwise the paths above the nodes of each frequent item are written
to a buffer, read back without the infrequent items into a conditional tree, and that is mined with
the item added to the suffix.
-/

namespace StreamMill.Swim

open Lib
open FPTree (Trans Adr)

def maxBits : Nat := 23

def maxInserted : Nat := 350000

/-- `words[i]` after the first `level` passes of `gray`. -/
def words : Nat → Nat → Nat
  | 0, _ => 0
  | level + 1, i =>
    let width := 2 ^ level
    if i < width then words level i else words level (2 * width - i - 1) ||| width

/-- An insertion sort. Each item goes behind the last one that is not greater. -/
def sortTran (items : List Nat) : List Nat :=
  items.foldl (fun sorted temp =>
    sorted.rdropWhile (temp < ·) ++ temp :: sorted.rtakeWhile (temp < ·)) []

structure Mining where
  patternTree : Tree
  /-- `temp_inserted_patterns` -/
  inserted : Nat
  /-- `temp_inserted_patterns_flag` -/
  flag : Bool

def Tree.itemIndex (tree : Tree) (p : Ptr) : Except Fault Nat :=
  if (tree.node p).itemNo.toInt < 0 then .error .outside else .ok (tree.node p).itemNo.toInt.toNat

def isSinglePath (tree : Tree) : Except Fault Bool :=
  (walk .endless (fun p => (tree.node p).sibling = none) (fun p => (tree.node p).leftChild)
    tree.fresh (some root)).map Option.isNone

/-- The items from place `j` of the path on that word `w` chooses. -/
def chosen (w : Nat) : Nat → List Nat → List Nat
  | _, [] => []
  | j, item :: path =>
    if w.testBit j then item :: chosen w (j + 1) path else chosen w (j + 1) path

def mineWords (suffix path : List Nat) (windowid : BitVec 16) :
    List Nat → Mining → Nat → Except Fault (Mining × Nat)
  | [], s, sumAllPatLen => .ok (s, sumAllPatLen)
  | i :: is, s, sumAllPatLen => do
    if 2 ^ maxBits ≤ i then throw .outside
    let help := sortTran (suffix ++ chosen (words maxBits i) 0 path)
    if s.inserted < maxInserted then
      let (patternTree, created) ← insertPatternSortedly s.patternTree ⟨0, help⟩ windowid
      mineWords suffix path windowid is ⟨patternTree, s.inserted + created, s.flag⟩
        (sumAllPatLen + (help.length + 1))
    else return ({ s with flag := true }, sumAllPatLen + (help.length + 1))

def mineIntoPatTree (tree : Tree) (suffix : List Nat) (windowid : BitVec 16) (s : Mining) :
    Except Fault (Mining × Nat) := do
  let nodes ← visits .endless (fun p => (tree.node p).leftChild) tree.fresh
    (tree.node root).leftChild
  let path ← nodes.mapM tree.itemIndex
  mineWords suffix path windowid (List.range (2 ^ path.length)) s 0

/-- What is written for `node` on the way up from `target`: the buffer and the counts. -/
def Tree.write (tree : Tree) (target : Ptr) (s : List Int × (Nat → BitVec 32)) (node : Ptr) :
    List Int × (Nat → BitVec 32) :=
  let i := (tree.node node).itemNo.toInt
  if 0 ≤ i then
    (s.1 ++ [i], Function.update s.2 i.toNat (s.2 i.toNat + (tree.node target).support))
  else (s.1 ++ [-(tree.node target).support.toInt - 1], s.2)

/-- The way up from the parent of `target`. -/
def Tree.writeAbove (tree : Tree) (s : List Int × (Nat → BitVec 32)) (target : Ptr) :
    Except Fault (List Int × (Nat → BitVec 32)) := do
  let nodes ← visits .endless (fun p => (tree.node p).parent) tree.fresh (tree.node target).parent
  return nodes.foldl (tree.write target) s

/-- The paths above the nodes of item `i`. More than `maxLen` numbers do not fit. -/
def Tree.writeChain (tree : Tree) (maxLen : Int) (i : Nat) :
    Except Fault (List Int × (Nat → BitVec 32)) := do
  let targets ← tree.chain i
  let s ← targets.foldlM tree.writeAbove ([], fun _ => 0)
  if maxLen < s.1.length then throw .outside else return s

/-- Markers are read back, and items with `count[item] >= minsupp`. -/
def kept (minsupp : Int) (count : Nat → BitVec 32) (x : Int) : Bool :=
  x < 0 || minsupp ≤ (count x.toNat).toInt

/-- The pass for item `i`, with the conditional tree and the sum of the passes before. -/
def mineItem (minsupp maxLen : Int) (mine : Tree → List Nat → Mining → Except Fault (Mining × Nat))
    (tree : Tree) (suffix : List Nat) (r : Tree × Mining × Nat) (i : Nat) :
    Except Fault (Tree × Mining × Nat) :=
  match tree.header i with
  | none => return r
  | some target =>
    if (tree.singleSupport i).toInt < minsupp then return r
    else do
      let curItem ← tree.itemIndex target
      let (buf, count) ← tree.writeChain maxLen i
      let conTree ← emptyTree r.1
      let conTree ← insertAll conTree
        (readBack ⟨0, []⟩ (buf.reverse.filter (kept minsupp count)))
      let (s, sum) ← mine conTree (suffix ++ [curItem]) r.2.1
      return (conTree, s, r.2.2 + sum)

def mine (minsupp maxLen : Int) (windowid : BitVec 16) :
    Nat → Tree → List Nat → Mining → Except Fault (Mining × Nat)
  | 0, _, _, _ => .error .endless
  | fuel + 1, tree, suffix, s => do
    if ← isSinglePath tree then mineIntoPatTree tree suffix windowid s
    else do
      let r ← tree.items.foldlM
        (mineItem minsupp maxLen (mine minsupp maxLen windowid fuel) tree suffix)
        (newTree tree.maxItems, s, 0)
      return r.2

variable {tree : Tree} {S : Shape} {addr : Adr → Ptr} {a : Adr} {i n : Nat}

theorem words_lt {level i : Nat} (hi : i < 2 ^ level) : words level i < 2 ^ level := by
  induction level generalizing i with
  | zero => exact Nat.one_pos
  | succ level ih =>
    rw [words]
    by_cases hlow : i < 2 ^ level
    · rw [if_pos hlow]
      exact (ih hlow).trans (Nat.pow_lt_pow_succ Nat.one_lt_two)
    · rw [if_neg hlow]
      refine Nat.or_lt_two_pow ((ih ?_).trans (Nat.pow_lt_pow_succ Nat.one_lt_two))
        (Nat.pow_lt_pow_succ Nat.one_lt_two)
      omega

theorem words_bits (level : Nat) (f : Nat → Bool) :
    ∃ i < 2 ^ level, ∀ j < level, (words level i).testBit j = f j := by
  induction level with
  | zero => exact ⟨0, Nat.one_pos, fun j hj => absurd hj (Nat.not_lt_zero j)⟩
  | succ level ih =>
    obtain ⟨i, hi, hbits⟩ := ih
    cases hf : f level with
    | false =>
      refine ⟨i, by omega, fun j hj => ?_⟩
      rw [words, if_pos hi]
      rcases Nat.lt_succ_iff_lt_or_eq.mp hj with hj | rfl
      · exact hbits j hj
      · rw [hf, Nat.testBit_lt_two_pow (words_lt hi)]
    | true =>
      have hmirror : 2 * 2 ^ level - (2 * 2 ^ level - i - 1) - 1 = i := by omega
      refine ⟨2 * 2 ^ level - i - 1, by omega, fun j hj => ?_⟩
      rw [words, if_neg (by omega), hmirror, Nat.testBit_or]
      rcases Nat.lt_succ_iff_lt_or_eq.mp hj with hj | rfl
      · rw [hbits j hj, Nat.testBit_two_pow_of_ne (Nat.ne_of_gt hj), Bool.or_false]
      · rw [hf, Nat.testBit_two_pow_self, Bool.or_true]

theorem words_stable {level k i : Nat} (hk : k ≤ level) (hi : i < 2 ^ k) :
    words level i = words k i := by
  induction level, hk using Nat.le_induction with
  | base => rfl
  | succ level hk ih =>
    rw [words, if_pos (hi.trans_le (Nat.pow_le_pow_right Nat.two_pos hk)), ih]

theorem chosen_sublist (w j : Nat) (path : List Nat) : (chosen w j path).Sublist path := by
  induction path generalizing j with
  | nil => exact List.Sublist.refl []
  | cons item path ih =>
    rw [chosen]
    by_cases hw : w.testBit j
    · rw [if_pos hw]
      exact (ih (j + 1)).cons_cons item
    · rw [if_neg hw]
      exact (ih (j + 1)).cons item

theorem exists_chosen {Y path : List Nat} (h : Y.Sublist path) (j : Nat) : ∃ f : Nat → Bool,
    ∀ w : Nat, (∀ k < j + path.length, j ≤ k → w.testBit k = f k) → chosen w j path = Y := by
  induction h generalizing j with
  | slnil => exact ⟨fun _ => false, fun w _ => rfl⟩
  | @cons Y path item _ ih =>
    obtain ⟨f, hf⟩ := ih (j + 1)
    refine ⟨Function.update f j false, fun w hw => ?_⟩
    have hj := hw j (by simp) le_rfl
    rw [Function.update_self] at hj
    rw [chosen, hj]
    refine hf w fun k hk hjk => ?_
    rw [hw k (by rw [List.length_cons]; omega) (by omega), Function.update_of_ne (by omega)]
  | @cons_cons Y path item _ ih =>
    obtain ⟨f, hf⟩ := ih (j + 1)
    refine ⟨Function.update f j true, fun w hw => ?_⟩
    have hj := hw j (by simp) le_rfl
    rw [Function.update_self] at hj
    rw [chosen, hj]
    refine congrArg (item :: ·) (hf w fun k hk hjk => ?_)
    rw [hw k (by rw [List.length_cons]; omega) (by omega), Function.update_of_ne (by omega)]

theorem exists_word {Y path : List Nat} (h : Y.Sublist path) (hlen : path.length ≤ maxBits) :
    ∃ i < 2 ^ path.length, chosen (words maxBits i) 0 path = Y := by
  obtain ⟨f, hf⟩ := exists_chosen h 0
  obtain ⟨i, hi, hbits⟩ := words_bits path.length f
  refine ⟨i, hi, hf _ fun k hk _ => ?_⟩
  rw [words_stable hlen hi]
  exact hbits k (by omega)

theorem sortTran_concat (items : List Nat) (temp : Nat) : sortTran (items ++ [temp]) =
    (sortTran items).rdropWhile (temp < ·) ++ temp :: (sortTran items).rtakeWhile (temp < ·) := by
  rw [sortTran, List.foldl_append]
  rfl

theorem sortTran_perm (items : List Nat) : (sortTran items).Perm items := by
  induction items using List.reverseRecOn with
  | nil => exact .nil
  | append_singleton items temp ih =>
    rw [sortTran_concat]
    refine List.perm_middle.trans ?_
    rw [List.rdropWhile_append_rtakeWhile]
    exact (ih.cons temp).trans (List.perm_append_singleton temp items).symm

theorem sortTran_sorted (items : List Nat) : (sortTran items).Pairwise (· ≤ ·) := by
  induction items using List.reverseRecOn with
  | nil => exact .nil
  | append_singleton items temp ih =>
    rw [sortTran_concat]
    rw [← List.rdropWhile_append_rtakeWhile (l := sortTran items)]
      at ih
    obtain ⟨hdrop, htake, hle⟩ := List.pairwise_append.mp ih
    have hgreater : ∀ y ∈ (sortTran items).rtakeWhile (temp < ·), temp < y := by
      intro y hy
      have hlt := List.mem_rtakeWhile_imp hy
      exact of_decide_eq_true hlt
    have hless : ∀ y ∈ (sortTran items).rdropWhile (temp < ·), y ≤ temp := by
      intro y hy
      have hlast := List.rdropWhile_last_not _ _ (List.ne_nil_of_mem hy)
      rw [decide_eq_true_eq, Nat.not_lt] at hlast
      exact (hdrop.rel_getLast hy).trans hlast
    refine List.pairwise_append.mpr ⟨hdrop, List.pairwise_cons.mpr
      ⟨fun y hy => Nat.le_of_lt (hgreater y hy), htake⟩, fun y hy z hz => ?_⟩
    rcases List.mem_cons.mp hz with rfl | hz
    · exact hless y hy
    · exact hle y hy z hz

theorem sortTran_eq {items l : List Nat} (hperm : items.Perm l) (hl : l.Pairwise (· < ·)) :
    sortTran items = l :=
  ((sortTran_perm items).trans hperm).eq_of_pairwise' (sortTran_sorted items)
    (hl.imp Nat.le_of_lt)

/-- The way down from `a` along the first children. -/
structure Leftmost (tree : Tree) (S : Shape) (addr : Adr → Ptr) (a : Adr) (l : List Nat)
    (nodes : List Ptr) : Prop where
  path : Path (fun p => (tree.node p).leftChild) (tree.node (addr a)).leftChild nodes
  items : nodes.mapM tree.itemIndex = .ok l
  length : nodes.length = l.length
  has : S.Has (a ++ l)
  single : (∀ p ∈ nodes, (tree.node p).sibling = none) ↔
    ∀ b, S.Has b → a <+: b → (S.children b).length ≤ 1
  all : (∀ b, S.Has b → a <+: b → (S.children b).length ≤ 1) →
    ∀ b, S.Has b → a <+: b → b <+: a ++ l

theorem Shape.Ok.below {b : Adr} (h : S.Ok) (hb : S.Has b) (hp : a <+: b) (hne : b ≠ a) :
    ∃ j ∈ S.children a, a ++ [j] <+: b := by
  obtain ⟨r, rfl⟩ := hp
  cases r with
  | nil => exact absurd (List.append_nil a) hne
  | cons j r =>
    have hp : a ++ [j] <+: a ++ j :: r := ⟨r, by simp⟩
    have hm := (List.mem_cons.mp (h.has_prefix hb hp)).resolve_left (by simp)
    exact ⟨j, (h.child a j).mpr hm, hp⟩

theorem Linked.leaf (h : Linked tree S addr) (ha : S.Has a) (hno : S.children a = []) :
    Leftmost tree S addr a [] [] := by
  have honly : ∀ b, S.Has b → a <+: b → b = a := by
    intro b hb hp
    by_contra hne
    obtain ⟨j, hj, -⟩ := h.ok.below hb hp hne
    exact List.not_mem_nil (hno ▸ hj)
  refine ⟨?_, rfl, rfl, (List.append_nil a).symm ▸ ha, iff_of_true (fun p hp => by cases hp)
    fun b hb hp => ?_, fun _ b hb hp => ?_⟩
  · have hpath := h.children a ha
    rw [hno] at hpath
    exact hpath
  · rw [honly b hb hp, hno]
    exact Nat.zero_le 1
  · rw [honly b hb hp, List.append_nil]

theorem Linked.itemIndex_eq (h : Linked tree S addr) (hm : a ++ [i] ∈ S.nodes) :
    tree.itemIndex (addr (a ++ [i])) = .ok i := by
  have hnot : ¬ (i : Int) < 0 := not_lt.mpr (Int.natCast_nonneg i)
  rw [Tree.itemIndex, h.item_eq ((h.ok.child a i).mpr hm), if_neg hnot, Int.toNat_natCast]

theorem Leftmost.cons {i : Nat} {rest l : List Nat} {nodes : List Ptr} (h : Linked tree S addr)
    (ha : S.Has a) (hchildren : S.children a = i :: rest)
    (hdown : Leftmost tree S addr (a ++ [i]) l nodes) :
    Leftmost tree S addr a (i :: l) (addr (a ++ [i]) :: nodes) := by
  have happ : a ++ i :: l = a ++ [i] ++ l := by simp
  have hi : i ∈ S.children a := hchildren ▸ List.mem_cons_self
  obtain ⟨hfirst, hsiblings⟩ : (tree.node (addr a)).leftChild = some (addr (a ++ [i])) ∧
      Path (fun p => (tree.node p).sibling) (tree.node (addr (a ++ [i]))).sibling
        (rest.map fun j => addr (a ++ [j])) := by
    have hpath := h.children a ha
    rw [hchildren] at hpath
    exact hpath
  have hsibling : (tree.node (addr (a ++ [i]))).sibling = none ↔ rest = [] := by
    rw [hsiblings.head, List.head?_eq_none_iff, List.map_eq_nil_iff]
  have hindex := h.itemIndex_eq ((h.ok.child a i).mp hi)
  have hbelow : (∀ b, S.Has b → a <+: b → (S.children b).length ≤ 1) ↔
      rest = [] ∧ ∀ b, S.Has b → a ++ [i] <+: b → (S.children b).length ≤ 1 := by
    constructor
    · intro hle
      refine ⟨?_, fun b hb hp => hle b hb ((List.prefix_append a [i]).trans hp)⟩
      have hlen := hle a ha List.prefix_rfl
      rw [hchildren, List.length_cons] at hlen
      exact List.eq_nil_of_length_eq_zero (by omega)
    · rintro ⟨rfl, hle⟩ b hb hp
      by_cases hne : b = a
      · rw [hne, hchildren, List.length_singleton]
      · obtain ⟨j, hj, hpj⟩ := h.ok.below hb hp hne
        rw [hchildren, List.mem_singleton] at hj
        exact hle b hb (hj ▸ hpj)
  refine ⟨⟨hfirst, hdown.path⟩, ?_, congrArg (· + 1) hdown.length, happ ▸ hdown.has, ?_,
    fun hle b hb hp => ?_⟩
  · rw [List.mapM_cons, hindex, hdown.items]
    rfl
  · rw [hbelow, List.forall_mem_cons, hsibling, hdown.single]
  · by_cases hne : b = a
    · exact hne ▸ List.prefix_append a (i :: l)
    · obtain ⟨rfl, hle⟩ := hbelow.mp hle
      obtain ⟨j, hj, hpj⟩ := h.ok.below hb hp hne
      rw [hchildren, List.mem_singleton] at hj
      rw [happ]
      exact hdown.all hle b hb (hj ▸ hpj)

theorem Linked.leftmost (h : Linked tree S addr) (ha : S.Has a) :
    ∃ l nodes, Leftmost tree S addr a l nodes := by
  obtain ⟨n, hn⟩ : ∃ n : Nat, tree.fresh ≤ a.length + n := ⟨tree.fresh, Nat.le_add_left _ _⟩
  induction n generalizing a with
  | zero => exact absurd (h.depth ha) (not_lt.mpr hn)
  | succ n ih =>
    cases hchildren : S.children a with
    | nil => exact ⟨[], [], h.leaf ha hchildren⟩
    | cons i rest =>
      have hhas := h.ok.has_child (hchildren ▸ List.mem_cons_self)
      obtain ⟨l, nodes, hdown⟩ := ih hhas (hn.trans (Nat.le_of_eq (by simp; omega)))
      exact ⟨i :: l, _, hdown.cons h ha hchildren⟩

theorem Linked.isSinglePath_eq (h : Linked tree S addr)
    (hsibling : (tree.node Swim.root).sibling = none) : ∃ b, isSinglePath tree = .ok b ∧
      (b = true ↔ ∀ a, S.Has a → (S.children a).length ≤ 1) := by
  obtain ⟨l, nodes, hdown⟩ := h.leftmost S.has_root
  have hpath : Path (fun p => (tree.node p).leftChild) (some Swim.root)
      (Swim.root :: nodes) := ⟨rfl, h.root ▸ hdown.path⟩
  have hfuel : (Swim.root :: nodes).length ≤ tree.fresh := by
    have hdepth := h.depth hdown.has
    rw [List.nil_append, ← hdown.length] at hdepth
    exact hdepth
  refine ⟨_, congrArg (Except.map Option.isNone) (walk_path _ _ hpath hfuel), ?_⟩
  rw [Option.isNone_iff_eq_none, List.head?_eq_none_iff, List.dropWhile_eq_nil_iff,
    List.forall_mem_cons]
  simp only [decide_eq_true_eq]
  rw [hdown.single]
  simp [List.nil_prefix, hsibling, true_and]

/-- The paths of a pattern tree are those of the patterns `L`. -/
def HoldsPaths (tree : Tree) (L : List (List Nat)) : Prop :=
  ∃ S addr D, Stamped tree S addr D ∧ ∀ b, b ∈ S.nodes ↔ b ≠ [] ∧ ∃ X ∈ L, b <+: X

/-- The patterns `L` were put in. They have `P`, and all that have it are put in unless the flag is
set. -/
structure Filled (P : List Nat → Prop) (flag flag' : Bool) (L : List (List Nat)) : Prop where
  sound : ∀ X ∈ L, P X
  complete : flag' = false → flag = false ∧ ∀ X, P X → X ∈ L

variable {L L' : List (List Nat)} {P Q : List Nat → Prop} {flag flag' : Bool} {w : BitVec 16}

theorem Filled.nil (hP : ∀ X, ¬ P X) : Filled P flag flag [] :=
  ⟨fun _ hX => absurd hX List.not_mem_nil, fun h => ⟨h, fun X hX => absurd hX (hP X)⟩⟩

theorem Filled.congr (h : Filled P flag flag' L) (hPQ : ∀ X, P X ↔ Q X) :
    Filled Q flag flag' L :=
  ⟨fun X hX => (hPQ X).mp (h.sound X hX), fun hf =>
    ⟨(h.complete hf).1, fun X hX => (h.complete hf).2 X ((hPQ X).mpr hX)⟩⟩

theorem Filled.append {flag₁ : Bool} (h : Filled P flag flag₁ L) (h' : Filled Q flag₁ flag' L') :
    Filled (fun X => P X ∨ Q X) flag flag' (L ++ L') where
  sound X hX := by
    rcases List.mem_append.mp hX with hX | hX
    · exact .inl (h.sound X hX)
    · exact .inr (h'.sound X hX)
  complete hf := by
    obtain ⟨hf₁, hQ⟩ := h'.complete hf
    obtain ⟨hf₀, hP⟩ := h.complete hf₁
    refine ⟨hf₀, fun X hX => List.mem_append.mpr ?_⟩
    rcases hX with hX | hX
    · exact .inl (hP X hX)
    · exact .inr (hQ X hX)

theorem HoldsPaths.insert {X : List Nat} (h : HoldsPaths tree L) (hX : ∀ c ∈ X, c < itemLimit)
    (w : BitVec 16) : ∃ tree' n, insertPatternSortedly tree ⟨0, X⟩ w = .ok (tree', n) ∧
      HoldsPaths tree' (L ++ [X]) := by
  obtain ⟨S, addr, D, hD, hnodes⟩ := h
  obtain ⟨tree', n, S', addr', hinsert, h', -, -⟩ := hD.insert (t := ⟨0, X⟩) hX w
  refine ⟨tree', n, hinsert, S', addr', _, h', fun b => ?_⟩
  rw [h'.mem_iff, Stamps.insert_apply]
  simp only [List.mem_append, List.mem_singleton, or_and_right, exists_or, exists_eq_left]
  by_cases hp : b ≠ [] ∧ b <+: X
  · rw [if_pos hp]
    exact iff_of_true rfl ⟨hp.1, .inr hp.2⟩
  · rw [if_neg hp, ← hD.mem_iff, hnodes]
    refine and_congr_right fun hb => ?_
    rw [or_iff_left fun hbX => hp ⟨hb, hbX⟩]

theorem mineWords_ok {suffix path is : List Nat} {s : Mining} (h : HoldsPaths s.patternTree L)
    (hsuffix : ∀ c ∈ suffix, c < itemLimit) (hpath : ∀ c ∈ path, c < itemLimit)
    (his : ∀ i ∈ is, i < 2 ^ maxBits) (sum : Nat) :
    ∃ s' sum' L', mineWords suffix path w is s sum = .ok (s', sum') ∧
      HoldsPaths s'.patternTree (L ++ L') ∧
      Filled (fun X => ∃ i ∈ is, X = sortTran (suffix ++ chosen (words maxBits i) 0 path))
        s.flag s'.flag L' := by
  induction is generalizing s sum L with
  | nil => exact ⟨s, sum, [], rfl, (List.append_nil L).symm ▸ h, .nil fun X hX => by simp at hX⟩
  | cons i is ih =>
    obtain ⟨hi, his⟩ := List.forall_mem_cons.mp his
    have hin : ¬ 2 ^ maxBits ≤ i := not_le.mpr hi
    by_cases hcap : s.inserted < maxInserted
    · have hsmall : ∀ c ∈ sortTran (suffix ++ chosen (words maxBits i) 0 path), c < itemLimit := by
        intro c hc
        rcases List.mem_append.mp ((sortTran_perm _).subset hc) with hc | hc
        · exact hsuffix c hc
        · exact hpath c ((chosen_sublist _ _ _).subset hc)
      obtain ⟨tree', n, hinsert, h₁⟩ := h.insert hsmall w
      obtain ⟨s', sum', L', hrun, h', hfilled⟩ :=
        ih (s := ⟨tree', s.inserted + n, s.flag⟩) h₁ his
          (sum + ((sortTran (suffix ++ chosen (words maxBits i) 0 path)).length + 1))
      refine ⟨s', sum', [_] ++ L', ?_, List.append_assoc L _ L' ▸ h', ?_⟩
      · rw [← hrun, mineWords]
        simp only [if_neg hin, if_pos hcap, hinsert]
        rfl
      · have hone : Filled (fun X => X = sortTran (suffix ++ chosen (words maxBits i) 0 path))
            s.flag s.flag [sortTran (suffix ++ chosen (words maxBits i) 0 path)] :=
          ⟨fun X hX => List.mem_singleton.mp hX, fun hf =>
            ⟨hf, fun X hX => List.mem_singleton.mpr hX⟩⟩
        refine (hone.append hfilled).congr fun X => ?_
        simp [List.mem_cons, or_and_right, exists_or]
    · refine ⟨{ s with flag := true },
        sum + ((sortTran (suffix ++ chosen (words maxBits i) 0 path)).length + 1), [], ?_,
        (List.append_nil L).symm ▸ h, ?_⟩
      · rw [mineWords]
        simp only [if_neg hin, if_neg hcap]
        rfl
      · exact ⟨fun X hX => absurd hX List.not_mem_nil, Bool.noConfusion⟩

theorem mineIntoPatTree_ok {suffix l : List Nat} {nodes : List Ptr} {s : Mining}
    (hlinks : Linked tree S addr) (hdown : Leftmost tree S addr [] l nodes)
    (h : HoldsPaths s.patternTree L) (hsuffix : ∀ c ∈ suffix, c < itemLimit)
    (hlen : l.length ≤ maxBits) :
    ∃ s' sum L', mineIntoPatTree tree suffix w s = .ok (s', sum) ∧
      HoldsPaths s'.patternTree (L ++ L') ∧
      Filled (fun X => ∃ Y, Y.Sublist l ∧ X = sortTran (suffix ++ Y)) s.flag s'.flag L' := by
  have hpath : ∀ c ∈ l, c < itemLimit := by
    intro c hc
    have hm := (List.mem_cons.mp hdown.has).resolve_left (List.ne_nil_of_mem hc)
    exact hlinks.item_small hm hc
  have his : ∀ i ∈ List.range (2 ^ l.length), i < 2 ^ maxBits := fun i hi =>
    (List.mem_range.mp hi).trans_le (Nat.pow_le_pow_right Nat.two_pos hlen)
  obtain ⟨s', sum, L', hrun, h', hfilled⟩ :=
    mineWords_ok h hsuffix hpath his 0
  refine ⟨s', sum, L', ?_, h', hfilled.congr fun X => ⟨?_, ?_⟩⟩
  · have hfuel : nodes.length ≤ tree.fresh := by
      have hdepth := hlinks.depth hdown.has
      rw [List.nil_append, ← hdown.length] at hdepth
      exact Nat.le_of_lt hdepth
    have hvisits := visits_path Fault.endless hdown.path hfuel
    rw [hlinks.root] at hvisits
    simp only [mineIntoPatTree, hvisits, hdown.items, Bind.bind, Except.bind]
    exact hrun
  · rintro ⟨i, -, rfl⟩
    exact ⟨_, chosen_sublist _ _ _, rfl⟩
  · rintro ⟨Y, hY, rfl⟩
    obtain ⟨i, hi, hchosen⟩ := exists_word hY hlen
    exact ⟨i, List.mem_range.mpr hi, by rw [hchosen]⟩

end StreamMill.Swim
