import Mathlib.Data.List.Infix
import StreamMill.Swim.Pattern

/-!
# StreamMill.Swim.Union

`UnionTrees` puts the patterns of one tree into another. The paths of the nodes of an item are
written to a buffer from the leaves to the root, with the support in place of the root, and read
back from its end.
-/

namespace StreamMill.Swim

open Lib
open FPTree (Trans Adr)

def Tree.up (tree : Tree) (p : Ptr) : Except Fault (List Ptr) :=
  visits .endless (fun p => (tree.node p).parent) tree.fresh (some p)

/-- What is written for `node` on the way up from `target`. -/
def Tree.entry (tree : Tree) (target node : Ptr) : Int :=
  if 0 ≤ (tree.node node).itemNo.toInt then (tree.node node).itemNo.toInt
  else -(tree.node target).support.toInt - 1

/-- The buffer for item `i`. More than `maxLen` numbers do not fit. -/
def Tree.partialDB (tree : Tree) (maxLen : Int) (i : Nat) : Except Fault (List Int) := do
  let targets ← tree.chain i
  let paths ← targets.mapM fun target => (tree.up target).map (List.map (tree.entry target))
  if maxLen < paths.flatten.length then throw .outside else return paths.flatten

def flush (trans : Trans) : List Trans := if trans.items = [] then [] else [trans]

def readBack : Trans → List Int → List Trans
  | t, [] => flush t
  | t, x :: buf =>
    if x < 0 then flush t ++ readBack ⟨(-x - 1).toNat, []⟩ buf
    else readBack ⟨t.support, t.items ++ [x.toNat]⟩ buf

def insertEach (s : Tree × Nat) (ts : List Trans) (windowid : BitVec 16) :
    Except Fault (Tree × Nat) :=
  ts.foldlM (fun s trans => do
    let (tree, created) ← insertPatternSortedly s.1 trans windowid
    return (tree, s.2 + created)) s

def unionTrees (mainPatTree tempPatTree : Tree) (windowid : BitVec 16) (maxAvgLenTrans : Int) :
    Except Fault (Tree × Nat) :=
  tempPatTree.items.foldlM (fun s i => do
    let buf ← tempPatTree.partialDB maxAvgLenTrans i
    insertEach s (readBack ⟨0, []⟩ buf.reverse) windowid) (mainPatTree, 0)

variable {tree : Tree} {S : Shape} {addr : Adr → Ptr} {ends : Adr → BitVec 16} {a : Adr} {i : Nat}

theorem Linked.up_path (h : Linked tree S addr) (ha : S.Has a) :
    Path (fun p => (tree.node p).parent) (some (addr a)) (a.inits.reverse.map addr) := by
  induction a using List.reverseRecOn with
  | nil => exact ⟨rfl, h.root ▸ h.rootParent⟩
  | append_singleton a i ih =>
    have hm : a ++ [i] ∈ S.nodes := by
      rcases List.mem_cons.mp ha with hnil | hm
      · simp at hnil
      · exact hm
    have hparent : (tree.node (addr (a ++ [i]))).parent = some (addr a) := h.parent a i hm
    have hinits : (a ++ [i]).inits.reverse = (a ++ [i]) :: a.inits.reverse := by
      simp [List.inits_append]
    have hpath := ih (h.ok.closed a i hm)
    rw [← hparent] at hpath
    rw [hinits]
    exact ⟨rfl, hpath⟩

theorem Linked.up_eq (h : Linked tree S addr) (ha : S.Has a) :
    tree.up (addr a) = .ok (a.inits.reverse.map addr) := by
  refine visits_path _ (h.up_path ha) ?_
  rw [List.length_map, List.length_reverse, List.length_inits]
  exact h.depth ha

theorem Linked.entries (h : Linked tree S addr) (ha : S.Has a) (target : Ptr) :
    (a.inits.reverse.map addr).map (tree.entry target) =
      (a.map Int.ofNat).reverse ++ [-(tree.node target).support.toInt - 1] := by
  induction a using List.reverseRecOn with
  | nil =>
    have hroot : (tree.node (addr [])).itemNo.toInt = -1 := by
      rw [h.root, h.rootItem]
      rfl
    simp [Tree.entry, hroot]
  | append_singleton a i ih =>
    have hm : a ++ [i] ∈ S.nodes := by
      rcases List.mem_cons.mp ha with hnil | hm
      · simp at hnil
      · exact hm
    have hitem := h.item_eq ((h.ok.child a i).mpr hm)
    have hinits : (a ++ [i]).inits.reverse = (a ++ [i]) :: a.inits.reverse := by
      simp [List.inits_append]
    rw [hinits, List.map_cons, List.map_cons, ih (h.ok.closed a i hm), Tree.entry, hitem,
      List.map_append, List.reverse_append]
    rfl

/-- The room that the paths of `l` need. -/
def pathsLen (l : List Adr) : Nat := (l.map fun a => a.length + 1).sum

def backward (tree : Tree) (addr : Adr → Ptr) (a : Adr) : List Int :=
  (-(tree.node (addr a)).support.toInt - 1) :: a.map Int.ofNat

theorem Linked.paths_mapM (h : Linked tree S addr) {l : List Adr} (hl : ∀ a ∈ l, S.Has a) :
    (l.map addr).mapM (fun target => (tree.up target).map (List.map (tree.entry target))) =
      .ok (l.map fun a => (backward tree addr a).reverse) := by
  induction l with
  | nil => rfl
  | cons a l ih =>
    obtain ⟨ha, hl⟩ := List.forall_mem_cons.mp hl
    have hone : (tree.up (addr a)).map (List.map (tree.entry (addr a))) =
        .ok (backward tree addr a).reverse := by
      rw [h.up_eq ha, Except.map, h.entries ha, backward, List.reverse_cons]
    rw [List.map_cons, List.mapM_cons, hone, ih hl]
    rfl

theorem Linked.partialDB_run (h : Linked tree S addr) (maxLen : Int) (i : Nat) :
    tree.partialDB maxLen i = if maxLen < pathsLen (S.header i) then .error .outside
      else .ok ((S.header i).map fun a => (backward tree addr a).reverse).flatten := by
  have hpaths := h.paths_mapM fun a (ha : a ∈ S.header i) => Linked.has_header ha
  have hlen : (((S.header i).map fun a => (backward tree addr a).reverse).flatten.length : Int) =
      pathsLen (S.header i) := by
    rw [List.length_flatten, List.map_map]
    have heq : List.length ∘ (fun a => (backward tree addr a).reverse) =
        fun a : Adr => a.length + 1 := by
      funext a
      simp [backward]
    rw [heq]
    rfl
  rw [Tree.partialDB, h.chain_eq]
  simp only [Bind.bind, Except.bind, hpaths, hlen]
  rfl

variable {maxLen : Int} {ts : List Trans} {w : BitVec 16} {T : Shape} {taddr : Adr → Ptr}
  {temp : Tree}

theorem Linked.partialDB_eq (h : Linked tree S addr) (hlen : pathsLen (S.header i) ≤ maxLen) :
    ∃ buf, tree.partialDB maxLen i = .ok buf ∧
      buf.reverse = (S.header i).reverse.flatMap (backward tree addr) := by
  refine ⟨_, (h.partialDB_run maxLen i).trans (if_neg (not_lt.mpr hlen)), ?_⟩
  rw [List.reverse_flatten, List.map_map, List.flatMap_def, List.map_reverse]
  congr 2
  refine List.map_congr_left fun a _ => ?_
  exact List.reverse_reverse _

theorem readBack_items (s : Nat) (pre l : List Nat) (buf : List Int) :
    readBack ⟨s, pre⟩ (l.map Int.ofNat ++ buf) = readBack ⟨s, pre ++ l⟩ buf := by
  induction l generalizing pre with
  | nil => rw [List.append_nil]; rfl
  | cons i l ih =>
    rw [List.map_cons, List.cons_append, readBack, ih, List.append_assoc]
    rfl

theorem readBack_paths (t : Trans) {l : List Adr} (hl : ∀ a ∈ l, a ≠ [])
    (hs : ∀ a ∈ l, 0 ≤ (tree.node (addr a)).support.toInt) :
    readBack t (l.flatMap (backward tree addr)) =
      flush t ++ l.map fun a => ⟨(tree.node (addr a)).support.toInt.toNat, a⟩ := by
  induction l generalizing t with
  | nil => exact (List.append_nil _).symm
  | cons a l ih =>
    obtain ⟨ha, hl⟩ := List.forall_mem_cons.mp hl
    obtain ⟨hsa, hs⟩ := List.forall_mem_cons.mp hs
    have hneg : -(tree.node (addr a)).support.toInt - 1 < 0 := by omega
    have hsupport : (-(-(tree.node (addr a)).support.toInt - 1) - 1).toNat =
        (tree.node (addr a)).support.toInt.toNat := by
      omega
    rw [List.flatMap_cons, backward, List.cons_append, readBack, if_pos hneg, hsupport,
      readBack_items, ih _ hl hs]
    exact congrArg (flush t ++ ·) (congrArg (· ++ _) (if_neg ha))

variable {D : Stamps}

theorem Stamped.insertEach (h : Stamped tree S addr D)
    (hsmall : ∀ t ∈ ts, ∀ c ∈ t.items, c < itemLimit) (w : BitVec 16) (n : Nat) :
    ∃ tree' n' S' addr', insertEach (tree, n) ts w = .ok (tree', n') ∧
      Stamped tree' S' addr' (D.insertAll (ts.map fun t => (t, w))) ∧
      Keeps tree S addr tree' S' addr' := by
  induction ts generalizing tree n S addr D with
  | nil => exact ⟨tree, n, S, addr, rfl, h, .refl tree S addr⟩
  | cons t ts ih =>
    obtain ⟨ht, hsmall⟩ := List.forall_mem_cons.mp hsmall
    obtain ⟨tree₁, k, S₁, addr₁, hinsert, h₁, hkeeps, -⟩ := h.insert ht w
    obtain ⟨tree', n', S', addr', hrun, h', hkeeps'⟩ := ih h₁ hsmall (n + k)
    refine ⟨tree', n', S', addr', ?_, h', hkeeps.trans hkeeps'⟩
    rw [← hrun, Swim.insertEach, List.foldlM_cons, hinsert]
    rfl

theorem Patterns.after {tree' : Tree} {S' : Shape} {addr' : Adr → Ptr}
    (h : Patterns tree S addr ends)
    (h' : Stamped tree' S' addr' ((tree.stamps S addr).insertAll (ts.map fun t => (t, w)))) :
    Patterns tree' S' addr' (fun b => if ∃ t ∈ ts, b <+: t.items then w else ends b) := by
  refine h'.patterns fun b hb d hd => ?_
  rcases Stamps.insertAll_endId (h'.links.ok.ne_nil hb) hd with ⟨hts, hend⟩ | ⟨hts, hold⟩
  · rw [if_pos hts, hend]
  · rw [if_neg hts]
    exact h.endId_eq hold

theorem Patterns.nodes_after {tree' : Tree} {S' : Shape} {addr' : Adr → Ptr}
    (h : Patterns tree S addr ends)
    (h' : Stamped tree' S' addr' ((tree.stamps S addr).insertAll (ts.map fun t => (t, w))))
    (b : Adr) : b ∈ S'.nodes ↔ b ∈ S.nodes ∨ b ≠ [] ∧ ∃ t ∈ ts, b <+: t.items := by
  by_cases hb : b = []
  · subst hb
    simp [h.links.ok.root, h'.links.ok.root]
  · rw [h'.mem_iff, Stamps.insertAll_isSome hb, h.stamped.mem_iff]
    simp [hb]

theorem Patterns.insertEach (h : Patterns tree S addr ends)
    (hsmall : ∀ t ∈ ts, ∀ c ∈ t.items, c < itemLimit) (w : BitVec 16) (n : Nat) :
    ∃ tree' n' S' addr', insertEach (tree, n) ts w = .ok (tree', n') ∧
      Patterns tree' S' addr' (fun b => if ∃ t ∈ ts, b <+: t.items then w else ends b) ∧
      S'.maxItems = S.maxItems ∧ (Unmarked tree S addr → Unmarked tree' S' addr') ∧
      ∀ b, b ∈ S'.nodes ↔ b ∈ S.nodes ∨ b ≠ [] ∧ ∃ t ∈ ts, b <+: t.items := by
  obtain ⟨tree', n', S', addr', hrun, h', hkeeps⟩ := h.stamped.insertEach hsmall w n
  exact ⟨tree', n', S', addr', hrun, h.after h', hkeeps.maxItems, hkeeps.unmarked, h.nodes_after h'⟩

theorem insertEach_support {P : BitVec 32 → Prop} {s s' : Tree × Nat} (h0 : P 0)
    (hts : ∀ t ∈ ts, t.support = 0) (hP : ∀ q, P (s.1.node q).support)
    (h : Swim.insertEach s ts w = .ok s') : ∀ q, P (s'.1.node q).support := by
  induction ts generalizing s with
  | nil =>
    cases h
    exact hP
  | cons t ts ih =>
    obtain ⟨support, items⟩ := t
    obtain ⟨ht, hrest⟩ := List.forall_mem_cons.mp hts
    obtain rfl : support = 0 := ht
    obtain ⟨s₁, hstep, h⟩ := bind_eq_ok h
    obtain ⟨⟨tree₁, n⟩, hone, hout⟩ := bind_eq_ok hstep
    cases hout
    have hP₁ := insertPatternSortedly_support h0 hP hone
    exact ih hrest hP₁ h

def pathTrans (tree : Tree) (addr : Adr → Ptr) (a : Adr) : Trans :=
  ⟨(tree.node (addr a)).support.toInt.toNat, a⟩

section

variable (h : Stamped tree S addr D) (ht : Linked temp T taddr)
  (hs : ∀ a ∈ T.nodes, 0 ≤ (temp.node (taddr a)).support.toInt)
include h ht hs

theorem Stamped.union_foldlM {l : List Nat} (hlen : ∀ i ∈ l, pathsLen (T.header i) ≤ maxLen)
    (w : BitVec 16) (n : Nat) :
    ∃ tree' n' S' addr', l.foldlM (fun s i => do
        let buf ← temp.partialDB maxLen i
        Swim.insertEach s (readBack ⟨0, []⟩ buf.reverse) w) (tree, n) = .ok (tree', n') ∧
      Stamped tree' S' addr' (D.insertAll (((l.flatMap fun i => (T.header i).reverse).map
        (pathTrans temp taddr)).map fun t => (t, w))) ∧
      Keeps tree S addr tree' S' addr' := by
  induction l generalizing tree n S addr D with
  | nil => exact ⟨tree, n, S, addr, rfl, h, .refl tree S addr⟩
  | cons i l ih =>
    obtain ⟨hi, hlen⟩ := List.forall_mem_cons.mp hlen
    obtain ⟨buf, hbuf, hrev⟩ := ht.partialDB_eq hi
    have hnode : ∀ a ∈ (T.header i).reverse, a ∈ T.nodes := fun a ha =>
      (Shape.mem_header.mp (List.mem_reverse.mp ha)).1
    have hback : readBack ⟨0, []⟩ buf.reverse =
        (T.header i).reverse.map (pathTrans temp taddr) := by
      rw [hrev, readBack_paths _ (fun a ha => ht.ok.ne_nil (hnode a ha)) fun a ha =>
        hs a (hnode a ha)]
      rfl
    have hsmall : ∀ t ∈ readBack ⟨0, []⟩ buf.reverse, ∀ c ∈ t.items, c < itemLimit := by
      intro t htm c hc
      rw [hback] at htm
      obtain ⟨a, ha, rfl⟩ := List.mem_map.mp htm
      exact ht.item_small (hnode a ha) hc
    obtain ⟨tree₁, n₁, S₁, addr₁, hinsert, h₁, hkeeps⟩ := h.insertEach hsmall w n
    obtain ⟨tree', n', S', addr', hrun, h', hkeeps'⟩ := ih h₁ hlen n₁
    refine ⟨tree', n', S', addr', ?_, ?_, hkeeps.trans hkeeps'⟩
    · rw [← hrun, List.foldlM_cons, hbuf]
      exact congrArg (· >>= _) hinsert
    · rw [hback, ← Stamps.insertAll_append, ← List.map_append, ← List.map_append] at h'
      exact h'

theorem Stamped.union (hlen : ∀ i < T.maxItems, pathsLen (T.header i) ≤ maxLen) (w : BitVec 16) :
    ∃ tree' n S' addr', unionTrees tree temp w maxLen = .ok (tree', n) ∧
      Stamped tree' S' addr' (D.insertAll (((temp.items.flatMap fun i => (T.header i).reverse).map
        (pathTrans temp taddr)).map fun t => (t, w))) ∧
      Keeps tree S addr tree' S' addr' :=
  h.union_foldlM ht hs (fun i hi => hlen i (ht.maxItems ▸ temp.mem_items.mp hi)) w 0

end

theorem Linked.passed_iff (ht : Linked temp T taddr)
    (hitems : ∀ b ∈ T.nodes, ∀ i ∈ b, i < T.maxItems) {b : Adr} (hb : b ≠ []) :
    (∃ t ∈ (temp.items.flatMap fun i => (T.header i).reverse).map (pathTrans temp taddr),
      b <+: t.items) ↔ b ∈ T.nodes := by
  constructor
  · rintro ⟨t, htm, hp⟩
    obtain ⟨a, ha, rfl⟩ := List.mem_map.mp htm
    obtain ⟨i, -, ha⟩ := List.mem_flatMap.mp ha
    exact (List.mem_cons.mp (ht.ok.has_prefix
      (Linked.has_header (List.mem_reverse.mp ha)) hp)).resolve_left hb
  · intro hm
    obtain ⟨i, hi, hbi⟩ := ht.exists_header hitems hm
    exact ⟨pathTrans temp taddr b, List.mem_map_of_mem (List.mem_flatMap.mpr
      ⟨i, hi, List.mem_reverse.mpr hbi⟩), List.prefix_rfl⟩

theorem Patterns.union (h : Patterns tree S addr ends) (ht : Linked temp T taddr)
    (hitems : ∀ b ∈ T.nodes, ∀ i ∈ b, i < T.maxItems)
    (hs : ∀ a ∈ T.nodes, 0 ≤ (temp.node (taddr a)).support.toInt)
    (hlen : ∀ i, pathsLen (T.header i) ≤ maxLen) (w : BitVec 16) :
    ∃ tree' n S' addr', unionTrees tree temp w maxLen = .ok (tree', n) ∧
      Patterns tree' S' addr' (fun b => if b ∈ T.nodes then w else ends b) ∧
      S'.maxItems = S.maxItems ∧ (Unmarked tree S addr → Unmarked tree' S' addr') ∧
      ∀ b, b ∈ S'.nodes ↔ b ∈ S.nodes ∨ b ∈ T.nodes := by
  obtain ⟨tree', n, S', addr', hrun, h', hkeeps⟩ := h.stamped.union ht hs (fun i _ => hlen i) w
  have hafter := h.after h'
  have hmem := fun b (hb : b ≠ []) => ht.passed_iff hitems hb
  refine ⟨tree', n, S', addr', hrun, ⟨h'.links, h'.sorted, fun b hb => ?_⟩, hkeeps.maxItems,
    hkeeps.unmarked, fun b => ?_⟩
  · rw [hafter.ends b hb, if_congr (hmem b (h'.links.ok.ne_nil hb)) rfl rfl]
  · rw [h.nodes_after h']
    refine or_congr_right ⟨fun hb => (hmem b hb.1).mp hb.2, fun hb => ?_⟩
    have hne := ht.ok.ne_nil hb
    exact ⟨hne, (hmem b hne).mpr hb⟩

end StreamMill.Swim
