import StreamMill.Swim.Insert

/-!
# StreamMill.Swim.Accurate

What a tree owes to the transactions that were put into it, said of the memory alone: the nodes are
those that are reached from the root by `leftChild` and `sibling`. `insertAll_accurate_iff` says
when every sequence of insertions gives such a tree.
-/

namespace StreamMill.Swim

open Lib
open FPTree (Trans Adr weightOf)

variable {tree tree' : Tree} {T : FPTree.Tree} {addr : Adr → Ptr} {ts : List Trans} {i : Nat}

/-- The children of `p` are `l`, in this order. -/
def Tree.Children (tree : Tree) (p : Ptr) (l : List Ptr) : Prop :=
  Path (fun c => (tree.node c).sibling) (tree.node p).leftChild l

/-- `p` is in the tree, and these are the items on the way to it. -/
inductive Tree.At (tree : Tree) : Ptr → List Int → Prop
  | root : At tree root []
  | child {p c : Ptr} {a : List Int} {l : List Ptr} : At tree p a → tree.Children p l → c ∈ l →
      At tree c (a ++ [(tree.node c).itemNo.toInt])

def Tree.IsNode (tree : Tree) (p : Ptr) : Prop := p ≠ root ∧ ∃ a, tree.At p a

structure Accurate (tree : Tree) (ts : List Trans) : Prop where
  support : ∀ p a, tree.At p a →
    (tree.node p).support.toInt = weightOf ts fun l => a <+: l.map Int.ofNat
  siblings : ∀ p a, tree.At p a → ∃ l, tree.Children p l ∧
    (l.map fun c => (tree.node c).itemNo).Nodup ∧ ∀ c ∈ l, (tree.node c).parent = some p
  single : ∀ i < tree.maxItems, (tree.singleSupport i).toInt = weightOf ts fun l => i ∈ l
  header : ∀ i < tree.maxItems, ∃ l, tree.header i = first some l none ∧
    Seg (fun p => (tree.node p).nextHeader) (fun p => (tree.node p).prevHeader) some none l none ∧
    l.Nodup ∧ (∀ p, p ∈ l ↔ tree.IsNode p ∧ (tree.node p).itemNo.toInt = i) ∧
    tree.redundancy i = l.length
  total : ∃ l : List Ptr, l.Nodup ∧ (∀ p, p ∈ l ↔ tree.IsNode p) ∧ tree.totalNodes = l.length

variable {S : Shape} {p : Ptr} {n : Nat} {t : Trans}

theorem Linked.at_iff (h : Linked tree S addr) {α : List Int} :
    tree.At p α ↔ ∃ a, S.Has a ∧ p = addr a ∧ α = a.map Int.ofNat := by
  constructor
  · intro hat
    induction hat with
    | root => exact ⟨[], S.has_root, h.root.symm, rfl⟩
    | child _ hl hc ih =>
      obtain ⟨a, ha, rfl, rfl⟩ := ih
      obtain rfl := hl.unique (h.children a ha)
      obtain ⟨i, hi, rfl⟩ := List.mem_map.mp hc
      refine ⟨a ++ [i], h.ok.has_child hi, rfl, ?_⟩
      rw [h.item_eq hi, List.map_append]
      rfl
  · rintro ⟨a, ha, rfl, rfl⟩
    induction a using List.reverseRecOn with
    | nil =>
      rw [h.root]
      exact .root
    | append_singleton a i ih =>
      have hm : a ++ [i] ∈ S.nodes := by
        rcases List.mem_cons.mp ha with hnil | hm
        · simp at hnil
        · exact hm
      have hi := (h.ok.child a i).mpr hm
      have hchild := Tree.At.child (ih (h.ok.closed a i hm)) (h.children a (h.ok.closed a i hm))
        (List.mem_map_of_mem hi)
      rw [h.item_eq hi] at hchild
      rw [List.map_append]
      exact hchild

theorem Wired.isNode_iff {chains : Nat → List Adr} (h : Wired tree S addr chains) :
    tree.IsNode p ↔ ∃ a ∈ S.nodes, p = addr a := by
  have hdown : ∀ {p α}, tree.At p α → ∃ a, S.Has a ∧ p = addr a := by
    intro p α hat
    induction hat with
    | root => exact ⟨[], S.has_root, h.root.symm⟩
    | child _ hl hc ih =>
      obtain ⟨a, ha, rfl⟩ := ih
      obtain rfl := hl.unique (h.children a ha)
      obtain ⟨i, hi, rfl⟩ := List.mem_map.mp hc
      exact ⟨a ++ [i], h.ok.has_child hi, rfl⟩
  have hup : ∀ a, S.Has a → ∃ α, tree.At (addr a) α := by
    intro a
    induction a using List.reverseRecOn with
    | nil => exact fun _ => ⟨[], h.root ▸ .root⟩
    | append_singleton a i ih =>
      intro ha
      have hne : a ++ [i] ≠ [] := List.append_ne_nil_of_right_ne_nil a (List.cons_ne_nil i [])
      have hm : a ++ [i] ∈ S.nodes := (List.mem_cons.mp ha).resolve_left hne
      have hi := (h.ok.child a i).mpr hm
      have hhas := h.ok.closed a i hm
      obtain ⟨α, hat⟩ := ih hhas
      exact ⟨_, hat.child (h.children a hhas) (List.mem_map_of_mem hi)⟩
  constructor
  · rintro ⟨hne, α, hat⟩
    obtain ⟨a, ha, rfl⟩ := hdown hat
    rcases List.mem_cons.mp ha with rfl | ha
    · exact absurd h.root hne
    · exact ⟨a, ha, rfl⟩
  · rintro ⟨a, ha, rfl⟩
    refine ⟨fun he => ?_, hup a (S.has_node ha)⟩
    rw [← h.root] at he
    have hnil := h.inj a [] (S.has_node ha) S.has_root he
    exact h.ok.root (hnil ▸ ha)

theorem Linked.isNode_iff (h : Linked tree S addr) :
    tree.IsNode p ↔ ∃ a ∈ S.nodes, p = addr a := h.wired.isNode_iff

theorem toInt_weight {m : Nat} (h : n ≤ m) (hm : m < 2 ^ 31) : (BitVec.ofNat 32 n).toInt = n := by
  rw [BitVec.toInt_ofNat', Int.bmod_eq_of_le (by omega) (by omega)]

def totalSupport (ts : List Trans) : Nat := weightOf ts fun _ => true

theorem weightOf_le (ts : List Trans) (p : List Nat → Bool) : weightOf ts p ≤ totalSupport ts :=
  weight_mono fun _ _ _ => rfl

theorem Refines.accurate (h : Refines tree T addr) (hT : FPTree.Represents T ts)
    (hfit : totalSupport ts < 2 ^ 31) : Accurate tree ts := by
  have hlinks := h.links
  refine ⟨fun p α hat => ?_, fun p α hat => ?_, fun i _ => ?_, fun i _ => ?_, ?_⟩
  · obtain ⟨a, ha, rfl, rfl⟩ := hlinks.at_iff.mp hat
    rw [h.support a ha, hT.support, toInt_weight (weightOf_le ts _) hfit]
    congr 2
    funext l
    exact decide_eq_decide.mpr (List.prefix_map_iff_of_injective Int.ofNat_injective).symm
  · obtain ⟨a, ha, rfl, -⟩ := hlinks.at_iff.mp hat
    refine ⟨_, hlinks.children a ha, ?_, fun c hc => ?_⟩
    · rw [List.map_map]
      refine (hlinks.ok.childNodup a).map_on fun i hi j hj heq => ?_
      have hint := congrArg BitVec.toInt heq
      simp only [Function.comp_apply] at hint
      rw [hlinks.item_eq hi, hlinks.item_eq hj] at hint
      exact Int.ofNat_inj.mp hint
    · obtain ⟨i, hi, rfl⟩ := List.mem_map.mp hc
      exact hlinks.parent a i ((hlinks.ok.child a i).mp hi)
  · rw [h.single, hT.single, toInt_weight (weightOf_le ts _) hfit]
  · refine ⟨_, hlinks.header i, hlinks.chain i, hlinks.map_nodup (fun a ha => Linked.has_header ha)
      (hlinks.ok.nodup.filter _), fun p => ?_, ?_⟩
    · rw [hlinks.isNode_iff, List.mem_map]
      constructor
      · rintro ⟨a, ha, rfl⟩
        obtain ⟨hm, b, rfl⟩ := Shape.mem_header.mp ha
        exact ⟨⟨_, hm, rfl⟩, hlinks.item_eq ((hlinks.ok.child b i).mpr hm)⟩
      · rintro ⟨⟨a, ha, rfl⟩, hitem⟩
        rcases List.eq_nil_or_concat a with rfl | ⟨b, j, rfl⟩
        · exact absurd ha hlinks.ok.root
        · rw [List.concat_eq_append] at ha hitem ⊢
          rw [hlinks.item_eq ((hlinks.ok.child b j).mpr ha)] at hitem
          obtain rfl : j = i := Int.ofNat_inj.mp hitem
          exact ⟨_, Shape.mem_header.mpr ⟨ha, b, rfl⟩, rfl⟩
    · rw [List.length_map]
      exact hlinks.redundancy i
  · refine ⟨(shape T).nodes.map addr,
      hlinks.map_nodup (fun a => (shape T).has_node) hlinks.ok.nodup, fun p => ?_, ?_⟩
    · rw [hlinks.isNode_iff]
      simp [eq_comm]
    · rw [List.length_map]
      exact hlinks.total

theorem toInt_lt (x : BitVec 16) : x.toInt < itemLimit := by
  have hlt := x.toInt_lt
  rw [itemLimit]
  simpa using hlt

/-- The search finds no child for an item that does not fit in a `short`. -/
theorem findChild_small {node : Ptr} {c : Nat} (h : tree.findChild p c = .ok (some node)) :
    c < itemLimit := by
  have hstop := walk_stops h
  have hlt := toInt_lt (tree.node node).itemNo
  simp only [ne_eq, decide_not, Bool.not_eq_false', decide_eq_true_eq] at hstop
  omega

theorem descend_keeps {items rest : List Nat} {s : Nat} {r : Option Ptr} {p' : Ptr}
    (h : descend s r tree p items = .ok (tree', p', rest)) :
    tree'.header = tree.header ∧ tree'.maxItems = tree.maxItems ∧
      ∀ c ∈ items, itemLimit ≤ c → c ∈ rest := by
  induction items generalizing tree p with
  | nil =>
    cases h
    exact ⟨rfl, rfl, fun c hc => absurd hc List.not_mem_nil⟩
  | cons d items ih =>
    cases hfind : tree.findChild p d with
    | error f =>
      rw [descend, hfind] at h
      cases h
    | ok found =>
      cases found with
      | none =>
        rw [descend, hfind] at h
        cases h
        exact ⟨rfl, rfl, fun c hc _ => hc⟩
      | some node =>
        have hd := findChild_small hfind
        rw [descend_found hfind] at h
        obtain ⟨hheader, hmax, hrest⟩ := ih h
        refine ⟨hheader.trans ?_, hmax.trans ?_, fun c hc hbig => hrest c ?_ hbig⟩
        · split
          · rfl
          · rfl
        · split
          · rfl
          · rfl
        · rcases List.mem_cons.mp hc with rfl | hc
          · omega
          · exact hc

theorem grow_header (s : Nat) (r : Option Ptr) (tree : Tree) (p : Ptr) (items : List Nat) (i : Nat)
    (h : tree.header i ≠ none ∨ i ∈ items) : (grow s r tree p items).header i ≠ none := by
  induction items generalizing tree p with
  | nil => simpa [grow] using h
  | cons c items ih =>
    refine ih _ _ ?_
    rw [addNode_header]
    by_cases hic : i = c
    · subst hic
      simp
    · rw [Function.update_of_ne hic]
      exact h.imp id fun hm => (List.mem_cons.mp hm).resolve_left hic

theorem grow_maxItems (s : Nat) (r : Option Ptr) (tree : Tree) (p : Ptr) (items : List Nat) :
    (grow s r tree p items).maxItems = tree.maxItems := by
  induction items generalizing tree p with
  | nil => rfl
  | cons c items ih => rw [grow, ih, addNode_maxItems]

theorem insertTrans_header (h : insertTrans tree t = .ok (tree', n))
    (hi : tree.header i ≠ none ∨ i ∈ t.items ∧ itemLimit ≤ i) : tree'.header i ≠ none := by
  obtain ⟨⟨tree₁, p, rest⟩, hdescend, hout⟩ := bind_eq_ok h
  cases hout
  obtain ⟨hheader, -, hrest⟩ := descend_keeps hdescend
  refine grow_header _ _ _ _ _ i (hi.imp (fun hne => ?_) fun hbig => hrest i hbig.1 hbig.2)
  rw [hheader]
  exact hne

theorem insertTrans_maxItems (h : insertTrans tree t = .ok (tree', n)) :
    tree'.maxItems = tree.maxItems := by
  obtain ⟨⟨tree₁, p, rest⟩, hdescend, hout⟩ := bind_eq_ok h
  cases hout
  rw [grow_maxItems]
  exact (descend_keeps hdescend).2.1

theorem insertAll_cons (h : insertAll tree (t :: ts) = .ok tree') :
    ∃ tree₁ n, insertTrans tree t = .ok (tree₁, n) ∧ insertAll tree₁ ts = .ok tree' := by
  rw [insertAll, List.foldlM_cons] at h
  obtain ⟨tree₁, hinsert, h⟩ := bind_eq_ok h
  cases hstep : insertTrans tree t with
  | error f =>
    rw [hstep] at hinsert
    cases hinsert
  | ok out =>
    rw [hstep] at hinsert
    cases hinsert
    exact ⟨out.1, out.2, rfl, h⟩

theorem insertAll_header (h : insertAll tree ts = .ok tree')
    (hi : tree.header i ≠ none ∨ ∃ t ∈ ts, i ∈ t.items ∧ itemLimit ≤ i) :
    tree'.header i ≠ none := by
  induction ts generalizing tree with
  | nil =>
    cases h
    exact hi.resolve_right (by simp)
  | cons t ts ih =>
    obtain ⟨tree₁, n, hinsert, h⟩ := insertAll_cons h
    refine ih h ?_
    rcases hi with hne | ⟨u, hu, hbig⟩
    · exact .inl (insertTrans_header hinsert (.inl hne))
    · rcases List.mem_cons.mp hu with rfl | hu
      · exact .inl (insertTrans_header hinsert (.inr hbig))
      · exact .inr ⟨u, hu, hbig⟩

theorem insertAll_maxItems (h : insertAll tree ts = .ok tree') :
    tree'.maxItems = tree.maxItems := by
  induction ts generalizing tree with
  | nil =>
    cases h
    rfl
  | cons t ts ih =>
    obtain ⟨tree₁, n, hinsert, h⟩ := insertAll_cons h
    exact (ih h).trans (insertTrans_maxItems hinsert)

/-- A sequence of insertions gives the tree that it should exactly if all items fit in the `short`
of a node and the support of all transactions in the `int`. -/
theorem insertAll_accurate_iff (h0 : Cleared tree)
    (hts : ∀ t ∈ ts, t.items.Pairwise (· < ·) ∧ ∀ i ∈ t.items, i < tree.maxItems) :
    (∃ tree', insertAll tree ts = .ok tree' ∧ Accurate tree' ts) ↔
      (∀ t ∈ ts, ∀ i ∈ t.items, i < itemLimit) ∧ totalSupport ts < 2 ^ 31 := by
  constructor
  · rintro ⟨tree', hall, hacc⟩
    refine ⟨fun t ht i hi => ?_, ?_⟩
    · by_contra hbig
      have hhead := insertAll_header hall (.inr ⟨t, ht, hi, Nat.le_of_not_lt hbig⟩)
      obtain ⟨l, hl, -, -, hmem, -⟩ := hacc.header i (by
        rw [insertAll_maxItems hall]
        exact (hts t ht).2 i hi)
      cases l with
      | nil => exact hhead hl
      | cons p l =>
        have hitem := ((hmem p).mp List.mem_cons_self).2
        have hlt := toInt_lt (tree'.node p).itemNo
        omega
    · have hroot := hacc.support root [] .root
      have hlt := (tree'.node root).support.toInt_lt
      have hall' : weightOf ts (fun l => [] <+: l.map Int.ofNat) = totalSupport ts :=
        weight_congr fun t _ => decide_eq_true List.nil_prefix
      rw [hroot, hall'] at hlt
      omega
  · rintro ⟨hsmall, hfit⟩
    obtain ⟨tree', addr', hall, href⟩ := insertAll_refines h0.refines hsmall
    have hnodup : ∀ t ∈ ts, t.items.Nodup := fun t ht => (hts t ht).1.imp fun h => h.ne
    obtain ⟨hrep, -⟩ := FPTree.build_represents (FPTree.newTree_represents tree.maxItems) hnodup
    exact ⟨tree', hall, href.accurate hrep hfit⟩

theorem insertAll_accurate_iff_shared :
    ((∃ tree', insertAll (newTree 4) [⟨2, [0, 3]⟩, ⟨5, [0, 1]⟩] = .ok tree' ∧
      Accurate tree' [⟨2, [0, 3]⟩, ⟨5, [0, 1]⟩]) ↔
      (∀ t ∈ [(⟨2, [0, 3]⟩ : Trans), ⟨5, [0, 1]⟩], ∀ i ∈ t.items, i < itemLimit) ∧
        totalSupport [⟨2, [0, 3]⟩, ⟨5, [0, 1]⟩] < 2 ^ 31) :=
  insertAll_accurate_iff (.inl ⟨4, rfl⟩) (by decide)

/-- The item of the one node is read as a negative number. -/
theorem bigItem_not_accurate :
    ¬ ∃ tree', insertAll (newTree 40001) [⟨1, [40000]⟩] = .ok tree' ∧
      Accurate tree' [⟨1, [40000]⟩] := by
  rintro ⟨tree', hall, hacc⟩
  have hhead := insertAll_header (i := 40000) hall (.inr ⟨_, List.mem_singleton_self _, by simp,
    by simp [itemLimit]⟩)
  obtain ⟨l, hl, -, -, hmem, -⟩ := hacc.header 40000 (by
    rw [insertAll_maxItems hall]
    decide)
  cases l with
  | nil => exact hhead hl
  | cons p l =>
    have hitem := ((hmem p).mp List.mem_cons_self).2
    have hlt := toInt_lt (tree'.node p).itemNo
    rw [itemLimit] at hlt
    omega

end StreamMill.Swim
