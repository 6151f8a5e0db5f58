import StreamMill.Swim.Insert
import StreamMill.Swim.Stamps

/-!
# StreamMill.Swim.Pattern

`InsertPatternSortedly`. A pattern tree keeps the children of every node in increasing order, and
in every node the support and the windows of the pattern: `Stamped tree S addr D`. Where only the
last window matters it is `Patterns tree S addr ends`.
-/

namespace StreamMill.Swim

open Lib
open FPTree (Trans Adr)

/-- The search among the siblings, from `node` on: the node with the item, or else the one to put
it behind. -/
def Tree.seekFrom (tree : Tree) (curItem : Nat) : Nat → Option Ptr → Except Fault (Option Ptr)
  | _, none => .ok none
  | 0, some _ => .error .endless
  | fuel + 1, some node =>
    if (tree.node node).itemNo.toInt = curItem then .ok (some node)
    else if (tree.node node).itemNo.toInt > curItem then .ok none
    else
      match (tree.node node).sibling with
      | none => .ok (some node)
      | some next =>
        if (tree.node next).itemNo.toInt ≤ curItem then tree.seekFrom curItem fuel (some next)
        else .ok (some node)

def Tree.seek (tree : Tree) (parent : Ptr) (curItem : Nat) : Except Fault (Option Ptr) :=
  tree.seekFrom curItem tree.fresh (tree.node parent).leftChild

def Tree.passNode (tree : Tree) (node : Ptr) (curItem support : Nat) (windowid : BitVec 16) :
    Tree :=
  ((tree.addSupport node support).setNode node fun n => { n with endId := windowid }).addSingle
    curItem support

/-- The first loop of `InsertPatternSortedly`, with the left sibling it ends at. -/
def descendSortedly (support : Nat) (windowid : BitVec 16) :
    Tree → Ptr → List Nat → Except Fault (Tree × Ptr × Option Ptr × List Nat)
  | tree, parent, [] => .ok (tree, parent, none, [])
  | tree, parent, curItem :: items => do
    let found ← tree.seek parent curItem
    match found.filter fun p => (tree.node p).itemNo.toInt = curItem with
    | some node =>
      descendSortedly support windowid (tree.passNode node curItem support windowid) node items
    | none => return (tree, parent, found, curItem :: items)

def growSortedly (support : Nat) (windowid : BitVec 16) :
    Tree → Ptr → Option Ptr → List Nat → Tree
  | tree, _, _, [] => tree
  | tree, parent, leftsibling, curItem :: items =>
    growSortedly support windowid
      (tree.addNode parent leftsibling curItem support windowid none) tree.fresh none items

def insertPatternSortedly (tree : Tree) (trans : Trans) (windowid : BitVec 16) :
    Except Fault (Tree × Nat) := do
  let (tree, parent, leftsibling, items) ←
    descendSortedly trans.support windowid tree root trans.items
  return (growSortedly trans.support windowid tree parent leftsibling items, items.length)

variable {tree tree' : Tree} {S : Shape} {addr : Adr → Ptr} {ends : Adr → BitVec 16} {a b : Adr}
  {i s : Nat} {w : BitVec 16}

structure Patterns (tree : Tree) (S : Shape) (addr : Adr → Ptr) (ends : Adr → BitVec 16) :
    Prop where
  links : Linked tree S addr
  sorted : ∀ a, (S.children a).Pairwise (· < ·)
  ends : ∀ a ∈ S.nodes, (tree.node (addr a)).endId = ends a

/-- `PruneTree` has marked none of the nodes. -/
def Unmarked (tree : Tree) (S : Shape) (addr : Adr → Ptr) : Prop :=
  ∀ a ∈ S.nodes, (tree.node (addr a)).flag ≠ .expired

theorem Linked.seekFrom_eq (h : Linked tree S addr) (c : Nat) {l : List Nat}
    (hl : ∀ j ∈ l, j ∈ S.children a) {o : Option Ptr} {fuel : Nat}
    (hpath : Path (fun p => (tree.node p).sibling) o (l.map fun j => addr (a ++ [j])))
    (hfuel : l.length ≤ fuel) :
    tree.seekFrom c fuel o = .ok ((FPTree.seek c l).map fun j => addr (a ++ [j])) := by
  induction l generalizing o fuel with
  | nil =>
    cases hpath
    cases fuel <;> rfl
  | cons i l ih =>
    obtain ⟨rfl, hpath⟩ := hpath
    cases fuel with
    | zero => cases hfuel
    | succ fuel =>
      have hi := h.item_eq (hl i List.mem_cons_self)
      have hrest := ih (fun j hj => hl j (List.mem_cons_of_mem _ hj)) hpath
        (Nat.le_of_succ_le_succ hfuel)
      rw [Tree.seekFrom, FPTree.seek_cons, hi]
      by_cases hic : i = c
      · rw [if_pos hic, if_pos (by omega)]
        rfl
      · rw [if_neg hic, if_neg (by omega)]
        by_cases hgt : i > c
        · rw [if_pos hgt, if_pos (by omega)]
          rfl
        · rw [if_neg hgt, if_neg (by omega)]
          have hsibling : (tree.node (addr (a ++ [i]))).sibling = _ := hpath.head
          cases l with
          | nil =>
            simp only [hsibling]
            rfl
          | cons j l =>
            have hj := h.item_eq (hl j (by simp))
            have hnext : (tree.node (addr (a ++ [i]))).sibling = some (addr (a ++ [j])) := hsibling
            simp only [hnext, hj]
            by_cases hjc : j ≤ c
            · rw [if_pos hjc, if_pos (by omega), ← hrest]
              exact congrArg _ hnext.symm
            · rw [if_neg hjc, if_neg (by omega)]
              rfl

theorem Linked.seek_eq (h : Linked tree S addr) (ha : S.Has a) (c : Nat) :
    tree.seek (addr a) c =
      .ok ((FPTree.seek c (S.children a)).map fun j => addr (a ++ [j])) := by
  refine h.seekFrom_eq c (fun j hj => hj) (h.children a ha) ?_
  have hle := h.children_length a
  rwa [List.length_map] at hle

def Node.stamp (n : Node) : Stamp := ⟨n.support, n.startId, n.endId⟩

def Tree.stamps (tree : Tree) (S : Shape) (addr : Adr → Ptr) : Stamps := fun b =>
  if S.nodes.contains b then some (tree.node (addr b)).stamp else none

/-- The tree holds the patterns of `D`, with their stamps. -/
structure Stamped (tree : Tree) (S : Shape) (addr : Adr → Ptr) (D : Stamps) : Prop where
  links : Linked tree S addr
  sorted : ∀ a, (S.children a).Pairwise (· < ·)
  stamp : D = tree.stamps S addr

/-- `single_support` adds up the supports of the nodes. -/
def Summed (tree : Tree) (S : Shape) (addr : Adr → Ptr) : Prop :=
  ∀ i, tree.singleSupport i = ((S.header i).map fun b => (tree.node (addr b)).support).sum

structure Keeps (tree : Tree) (S : Shape) (addr : Adr → Ptr) (tree' : Tree) (S' : Shape)
    (addr' : Adr → Ptr) : Prop where
  maxItems : S'.maxItems = S.maxItems
  unmarked : Unmarked tree S addr → Unmarked tree' S' addr'
  summed : Summed tree S addr → Summed tree' S' addr'

variable {S' S'' : Shape} {addr' addr'' : Adr → Ptr} {tree'' : Tree} {D : Stamps}

theorem Keeps.refl (tree : Tree) (S : Shape) (addr : Adr → Ptr) : Keeps tree S addr tree S addr :=
  ⟨rfl, id, id⟩

theorem Keeps.trans (h : Keeps tree S addr tree' S' addr')
    (h' : Keeps tree' S' addr' tree'' S'' addr'') : Keeps tree S addr tree'' S'' addr'' :=
  ⟨h'.maxItems.trans h.maxItems, h'.unmarked ∘ h.unmarked, h'.summed ∘ h.summed⟩

theorem Tree.stamps_node (tree : Tree) (addr : Adr → Ptr) (hb : b ∈ S.nodes) :
    tree.stamps S addr b = some (tree.node (addr b)).stamp :=
  if_pos (List.contains_iff_mem.mpr hb)

theorem Tree.stamps_other (tree : Tree) (addr : Adr → Ptr) (hb : b ∉ S.nodes) :
    tree.stamps S addr b = none :=
  if_neg fun hm => hb (List.contains_iff_mem.mp hm)

theorem Stamped.at_node (h : Stamped tree S addr D) (hb : b ∈ S.nodes) :
    D b = some (tree.node (addr b)).stamp := by
  rw [h.stamp, tree.stamps_node addr hb]

theorem Stamped.at_other (h : Stamped tree S addr D) (hb : b ∉ S.nodes) : D b = none := by
  rw [h.stamp, tree.stamps_other addr hb]

theorem Stamped.mem_iff (h : Stamped tree S addr D) : b ∈ S.nodes ↔ (D b).isSome := by
  by_cases hb : b ∈ S.nodes
  · simp [h.at_node hb, hb]
  · simp [h.at_other hb, hb]

theorem Patterns.stamped (h : Patterns tree S addr ends) :
    Stamped tree S addr (tree.stamps S addr) := ⟨h.links, h.sorted, rfl⟩

theorem Shape.Ok.ne_nil (h : S.Ok) (hb : b ∈ S.nodes) : b ≠ [] := by
  rintro rfl
  exact h.root hb

theorem Patterns.endId_eq (h : Patterns tree S addr ends) {d : Stamp}
    (hd : tree.stamps S addr b = some d) : d.endId = ends b := by
  by_cases hb : b ∈ S.nodes
  · rw [tree.stamps_node addr hb] at hd
    cases hd
    exact h.ends b hb
  · rw [tree.stamps_other addr hb] at hd
    cases hd

theorem Stamped.patterns (h : Stamped tree S addr D)
    (hends : ∀ b ∈ S.nodes, ∀ d ∈ D b, d.endId = ends b) : Patterns tree S addr ends :=
  ⟨h.links, h.sorted, fun b hb => hends b hb _ (h.at_node hb)⟩

theorem passNode_links (tree : Tree) (p : Ptr) (i s : Nat) (w : BitVec 16) :
    (tree.passNode p i s w).links = tree.links :=
  (setNode_links (tree.addSupport p s) p (f := fun n => { n with endId := w }) fun _ => rfl).trans
    (setNode_links tree p
      fun _ => rfl)

theorem passNode_flag (tree : Tree) (p q : Ptr) (i s : Nat) (w : BitVec 16) :
    ((tree.passNode p i s w).node q).flag = (tree.node q).flag := by
  simp only [Tree.passNode, Tree.addSingle, Tree.addSupport, setNode_node]
  split <;> rfl

theorem passNode_stamp (tree : Tree) (p q : Ptr) (i s : Nat) (w : BitVec 16) :
    ((tree.passNode p i s w).node q).stamp =
      if q = p then (tree.node q).stamp.seen s w else (tree.node q).stamp := by
  simp only [Tree.passNode, Tree.addSingle, Tree.addSupport, setNode_node]
  split <;> rfl

theorem sum_map_grow {α β : Type} [AddCommMonoid β] [DecidableEq α] {l : List α} (hnd : l.Nodup)
    {x : α} (hx : x ∈ l) {f g : α → β} {s : β} (hself : g x = f x + s)
    (hother : ∀ y ∈ l, y ≠ x → g y = f y) : (l.map g).sum = (l.map f).sum + s := by
  have hrest : (l.erase x).map g = (l.erase x).map f := List.map_congr_left fun y hy =>
    hother y (List.mem_of_mem_erase hy) (hnd.mem_erase_iff.mp hy).1
  rw [← List.sum_map_erase g hx, ← List.sum_map_erase f hx, hrest, hself]
  exact add_right_comm _ _ _

theorem Shape.mem_header_concat {j : Nat} : a ++ [i] ∈ S.header j ↔ a ++ [i] ∈ S.nodes ∧ j = i := by
  rw [Shape.mem_header]
  refine and_congr_right fun _ => ⟨?_, ?_⟩
  · rintro ⟨b, heq⟩
    exact (List.singleton_inj.mp (List.append_inj_right' heq rfl)).symm
  · rintro rfl
    exact ⟨a, rfl⟩

theorem Linked.visit_summed (h : Linked tree S addr) (hi : i ∈ S.children a)
    (hsummed : Summed tree S addr) :
    Summed (tree.passNode (addr (a ++ [i])) i s w) S addr := by
  intro j
  have hm := (h.ok.child a i).mp hi
  have hsupport : ∀ p, ((tree.passNode (addr (a ++ [i])) i s w).node p).support =
      if p = addr (a ++ [i]) then (tree.node p).support + BitVec.ofNat 32 s
      else (tree.node p).support := by
    intro p
    have hstamp := congrArg Stamp.support (passNode_stamp tree (addr (a ++ [i])) p i s w)
    rw [apply_ite Stamp.support] at hstamp
    exact hstamp
  have hother : ∀ b ∈ S.nodes, b ≠ a ++ [i] →
      ((tree.passNode (addr (a ++ [i])) i s w).node (addr b)).support =
        (tree.node (addr b)).support := by
    intro b hb hne
    rw [hsupport, if_neg fun he => hne (h.inj _ _ (S.has_node hb) (S.has_node hm) he)]
  have hsingle : (tree.passNode (addr (a ++ [i])) i s w).singleSupport j =
      if j = i then tree.singleSupport j + BitVec.ofNat 32 s else tree.singleSupport j := by
    simp only [Tree.passNode, Tree.addSingle, Tree.addSupport, setNode_single,
      Function.update_apply]
    split
    · next hj => rw [hj]
    · rfl
  have hnode : ∀ b ∈ S.header j, b ∈ S.nodes := fun b hb => (Shape.mem_header.mp hb).1
  rw [hsingle, hsummed j]
  by_cases hj : j = i
  · rw [if_pos hj]
    refine (sum_map_grow (h.ok.nodup.filter _) (Shape.mem_header_concat.mpr ⟨hm, hj⟩) ?_
      fun b hb hne => hother b (hnode b hb) hne).symm
    rw [hsupport, if_pos rfl]
  · rw [if_neg hj]
    refine congrArg List.sum (List.map_congr_left fun b hb => (hother b (hnode b hb) ?_).symm)
    rintro rfl
    exact hj (Shape.mem_header_concat.mp hb).2

theorem Stamped.visit (h : Stamped tree S addr D) (hi : i ∈ S.children a) :
    Stamped (tree.passNode (addr (a ++ [i])) i s w) S addr (D.touch s w (a ++ [i])) ∧
      Keeps tree S addr (tree.passNode (addr (a ++ [i])) i s w) S addr := by
  have hm := (h.links.ok.child a i).mp hi
  refine ⟨⟨h.links.congr (passNode_links ..), h.sorted, funext fun b => ?_⟩, rfl, fun hu b hb => ?_,
    h.links.visit_summed hi⟩
  · rw [Stamps.touch, Function.update_apply]
    by_cases hba : b = a ++ [i]
    · subst hba
      rw [if_pos rfl, Tree.stamps_node _ _ hm, passNode_stamp, if_pos rfl, h.at_node hm]
      rfl
    · rw [if_neg hba]
      by_cases hb : b ∈ S.nodes
      · have hne : addr b ≠ addr (a ++ [i]) := fun he =>
          hba (h.links.inj _ _ (S.has_node hb) (S.has_node hm) he)
        rw [h.at_node hb, Tree.stamps_node _ _ hb, passNode_stamp, if_neg hne]
      · rw [h.at_other hb, Tree.stamps_other _ _ hb]
  · rw [passNode_flag]
    exact hu b hb

theorem Shape.add_sorted (hok : S.Ok) (hsorted : ∀ a, (S.children a).Pairwise (· < ·))
    (hi : i ∉ S.children a) (b : Adr) :
    ((S.add a i (FPTree.place (FPTree.seek i (S.children a)) i (S.children a))).children
      b).Pairwise (· < ·) := by
  rw [Shape.children_add]
  by_cases hba : b = a
  · subst hba
    rw [if_pos rfl, (FPTree.place_seek (hsorted b) i).2 hi]
    have hle := ((hsorted b).imp Nat.le_of_lt).orderedInsert i
    have hnd := (List.perm_orderedInsert (· ≤ ·) i (S.children b)).nodup_iff.mpr
      (List.nodup_cons.mpr ⟨hi, hok.childNodup b⟩)
    exact hle.imp₂ (fun _ _ hle hne => Nat.lt_of_le_of_ne hle hne) hnd
  · rw [if_neg hba]
    split
    · exact .nil
    · exact hsorted b

variable {parent : Ptr} {c : Nat} {items : List Nat}

theorem Linked.add_summed (h : Linked tree S addr) (hi : i ∉ S.children a) {left : Option Ptr}
    {siblings : List Nat} (hsummed : Summed tree S addr) :
    Summed (tree.addNode parent left i s w none) (S.add a i siblings)
      (Function.update addr (a ++ [i]) tree.fresh) := by
  intro j
  obtain ⟨hnew, hold⟩ :=
    h.wired.addNode_get hi parent left i s w Node.support fun _ _ _ _ _ => rfl
  have hrest : (S.header j).map (fun b => ((tree.addNode parent left i s w none).node
      (Function.update addr (a ++ [i]) tree.fresh b)).support) =
        (S.header j).map fun b => (tree.node (addr b)).support :=
    List.map_congr_left fun b hb => hold b (S.has_node (Shape.mem_header.mp hb).1)
  rw [addNode_single, Function.update_apply, Shape.header_add]
  by_cases hj : j = i
  · subst hj
    rw [if_pos rfl, if_pos rfl, List.map_cons, hnew, hrest, hsummed j]
    exact add_comm _ _
  · rw [if_neg hj, if_neg hj, hrest, hsummed j]

theorem Stamped.add (h : Stamped tree S addr D) (ha : S.Has a) (hi : i ∉ S.children a)
    (hsmall : i < itemLimit) {left : Option Nat} (hleft : left = FPTree.seek i (S.children a)) :
    let tree' := tree.addNode (addr a) (left.map fun j => addr (a ++ [j])) i s w none
    let addr' := Function.update addr (a ++ [i]) tree.fresh
    ∃ S', Stamped tree' S' addr' (D.touch s w (a ++ [i])) ∧ Keeps tree S addr tree' S' addr' ∧
      S'.Has (a ++ [i]) ∧ S'.children (a ++ [i]) = [] ∧
      S'.nodes.length = S.nodes.length + 1 := by
  subst hleft
  have hnew : a ++ [i] ∉ S.nodes := fun hm => hi ((h.links.ok.child a i).mpr hm)
  have hmem : ∀ b, b ∈ (S.add a i (FPTree.place (FPTree.seek i (S.children a)) i
      (S.children a))).nodes ↔ b = a ++ [i] ∨ b ∈ S.nodes := fun b => List.mem_cons
  obtain ⟨hstampNew, hstampOld⟩ :=
    h.links.wired.addNode_get hi (addr a)
      ((FPTree.seek i (S.children a)).map fun j => addr (a ++ [j])) i s w Node.stamp
      fun _ _ _ _ _ => rfl
  obtain ⟨hflagNew, hflagOld⟩ :=
    h.links.wired.addNode_get hi (addr a)
      ((FPTree.seek i (S.children a)).map fun j => addr (a ++ [j])) i s w Node.flag
      fun _ _ _ _ _ => rfl
  refine ⟨S.add a i (FPTree.place (FPTree.seek i (S.children a)) i (S.children a)),
    ⟨h.links.addNode ha hi hsmall fun j hj => FPTree.seek_mem hj,
      Shape.add_sorted h.links.ok h.sorted hi, funext fun b => ?_⟩,
    ⟨rfl, fun hu b hb => ?_, h.links.add_summed hi⟩, Shape.has_add.mpr (.inl rfl), ?_,
    List.length_cons⟩
  · rw [Stamps.touch, Function.update_apply]
    by_cases hba : b = a ++ [i]
    · subst hba
      rw [if_pos rfl, Tree.stamps_node _ _ ((hmem _).mpr (.inl rfl)), hstampNew, h.at_other hnew]
      rfl
    · rw [if_neg hba]
      by_cases hb : b ∈ S.nodes
      · rw [h.at_node hb, Tree.stamps_node _ _ ((hmem b).mpr (.inr hb)), hstampOld b (S.has_node hb)]
      · rw [h.at_other hb, Tree.stamps_other _ _ fun hm => ((hmem b).mp hm).elim hba hb]
  · rcases (hmem b).mp hb with rfl | hb
    · rw [hflagNew]
      exact Flag.noConfusion
    · rw [hflagOld b (S.has_node hb)]
      exact hu b hb
  · rw [Shape.children_add, if_neg (by simp), if_pos rfl]

theorem descendSortedly_found {node : Ptr} (hseek : tree.seek parent c = .ok (some node))
    (hitem : (tree.node node).itemNo.toInt = c) :
    descendSortedly s w tree parent (c :: items) =
      descendSortedly s w (tree.passNode node c s w) node items := by
  have hfilter : (some node).filter (fun p => decide ((tree.node p).itemNo.toInt = c)) =
      some node := by simp [hitem]
  rw [descendSortedly, hseek]
  simp [Bind.bind, Except.bind, hfilter]

theorem descendSortedly_stop {found : Option Ptr} (hseek : tree.seek parent c = .ok found)
    (hitem : ∀ p, found = some p → (tree.node p).itemNo.toInt ≠ c) :
    descendSortedly s w tree parent (c :: items) = .ok (tree, parent, found, c :: items) := by
  have hfilter : found.filter (fun p => decide ((tree.node p).itemNo.toInt = c)) = none := by
    cases found with
    | none => rfl
    | some p => simp [hitem p rfl]
  rw [descendSortedly, hseek]
  simp only [Bind.bind, Except.bind, hfilter]
  rfl

theorem Linked.seek_ne (h : Linked tree S addr) (hsorted : (S.children a).Pairwise (· < ·))
    (hc : c ∉ S.children a) {p : Ptr}
    (hp : (FPTree.seek c (S.children a)).map (fun j => addr (a ++ [j])) = some p) :
    (tree.node p).itemNo.toInt ≠ c := by
  obtain ⟨j, hj, rfl⟩ := Option.map_eq_some_iff.mp hp
  rw [h.item_eq (FPTree.seek_mem hj)]
  intro heq
  obtain rfl : j = c := Int.ofNat_inj.mp heq
  exact hc ((FPTree.place_seek hsorted j).1.mp hj)

theorem Stamped.descend (items : List Nat) (h : Stamped tree S addr D) (ha : S.Has a) :
    ∃ tree' a' left rest D', descendSortedly s w tree (addr a) items =
        .ok (tree', addr a', left.map (fun j => addr (a' ++ [j])), rest) ∧
      S.Has a' ∧ Stamped tree' S addr D' ∧ Keeps tree S addr tree' S addr ∧
      D'.along s w a' rest = D.along s w a items ∧ (∀ c ∈ rest, c ∈ items) ∧
      ∀ c ∈ rest.head?, c ∉ S.children a' ∧ left = FPTree.seek c (S.children a') := by
  induction items generalizing tree D a with
  | nil =>
    exact ⟨tree, a, none, [], D, rfl, ha, h, .refl tree S addr, rfl, fun _ => id, by simp⟩
  | cons c items ih =>
    have hseek := h.links.seek_eq ha c
    by_cases hc : c ∈ S.children a
    · obtain ⟨h₁, hkeeps⟩ := h.visit hc
      obtain ⟨tree', a', left, rest, D', hdescend, ha', h', hkeeps', halong, hsub, hstop⟩ :=
        ih h₁ (h.links.ok.has_child hc)
      refine ⟨tree', a', left, rest, D', ?_, ha', h', hkeeps.trans hkeeps', halong,
        fun d hd => List.mem_cons_of_mem _ (hsub d hd), hstop⟩
      rw [(FPTree.place_seek (h.sorted a) c).1.mpr hc] at hseek
      rw [descendSortedly_found hseek (h.links.item_eq hc)]
      exact hdescend
    · exact ⟨tree, a, FPTree.seek c (S.children a), c :: items, D,
        descendSortedly_stop hseek fun p hp => h.links.seek_ne (h.sorted a) hc hp, ha, h,
        .refl tree S addr, rfl, fun _ => id, by simpa using hc⟩

theorem Stamped.grow {left : Option Nat} (h : Stamped tree S addr D) (ha : S.Has a)
    (hsmall : ∀ c ∈ items, c < itemLimit)
    (hstop : ∀ c ∈ items.head?, c ∉ S.children a ∧ left = FPTree.seek c (S.children a)) :
    let tree' := growSortedly s w tree (addr a) (left.map fun j => addr (a ++ [j])) items
    ∃ S' addr', Stamped tree' S' addr' (D.along s w a items) ∧ Keeps tree S addr tree' S' addr' ∧
      S'.nodes.length = S.nodes.length + items.length := by
  induction items generalizing tree S addr D a left with
  | nil => exact ⟨S, addr, h, .refl tree S addr, rfl⟩
  | cons c items ih =>
    obtain ⟨hc, hsmall⟩ := List.forall_mem_cons.mp hsmall
    obtain ⟨hno, hleft⟩ := hstop c rfl
    obtain ⟨S₁, h₁, hkeeps, hhas, hnone, hlen⟩ := h.add ha hno hc hleft
    -- the new node has no children yet
    have hfirst : ∀ d ∈ items.head?, d ∉ S₁.children (a ++ [c]) ∧
        none = FPTree.seek d (S₁.children (a ++ [c])) := fun d _ => by simp [hnone, FPTree.seek]
    obtain ⟨S', addr', h', hkeeps', hlen'⟩ := ih h₁ hhas hsmall hfirst
    rw [Function.update_self] at h' hkeeps'
    refine ⟨S', addr', h', hkeeps.trans hkeeps', ?_⟩
    rw [hlen', hlen, List.length_cons, Nat.add_assoc, Nat.add_comm 1]

theorem Stamped.insert {t : Trans} (h : Stamped tree S addr D)
    (hsmall : ∀ c ∈ t.items, c < itemLimit) (w : BitVec 16) :
    ∃ tree' n S' addr', insertPatternSortedly tree t w = .ok (tree', n) ∧
      Stamped tree' S' addr' (D.insert w t) ∧ Keeps tree S addr tree' S' addr' ∧
      S'.nodes.length = S.nodes.length + n := by
  obtain ⟨tree₁, a, left, rest, D₁, hdescend, ha, h₁, hkeeps, halong, hsub, hstop⟩ :=
    h.descend t.items S.has_root
  obtain ⟨S', addr', h', hkeeps', hlen⟩ :=
    h₁.grow ha (fun c hc => hsmall c (hsub c hc)) hstop
  rw [halong] at h'
  refine ⟨_, rest.length, S', addr', ?_, h', hkeeps.trans hkeeps', hlen⟩
  rw [h.links.root] at hdescend
  rw [insertPatternSortedly, hdescend]
  rfl

theorem Patterns.insert {t : Trans} (h : Patterns tree S addr ends)
    (hsmall : ∀ c ∈ t.items, c < itemLimit) (w : BitVec 16) :
    ∃ tree' n S' addr', insertPatternSortedly tree t w = .ok (tree', n) ∧
      Patterns tree' S' addr' (fun b => if b <+: t.items then w else ends b) ∧
      S'.maxItems = S.maxItems ∧ (Unmarked tree S addr → Unmarked tree' S' addr') ∧
      ∀ b, b ∈ S'.nodes ↔ b ∈ S.nodes ∨ b ≠ [] ∧ b <+: t.items := by
  obtain ⟨tree', n, S', addr', hinsert, h', hkeeps, -⟩ := h.stamped.insert hsmall w
  refine ⟨tree', n, S', addr', hinsert, h'.patterns fun b hb d hd => ?_, hkeeps.maxItems,
    hkeeps.unmarked, fun b => ?_⟩
  · rw [Stamps.insert_apply] at hd
    by_cases hp : b <+: t.items
    · rw [if_pos ⟨h'.links.ok.ne_nil hb, hp⟩] at hd
      cases hd
      rw [if_pos hp, touched_endId]
    · rw [if_neg fun hn => hp hn.2] at hd
      rw [if_neg hp]
      exact h.endId_eq hd
  · rw [h'.mem_iff, Stamps.insert_apply]
    by_cases hp : b ≠ [] ∧ b <+: t.items
    · rw [if_pos hp]
      exact iff_of_true rfl (.inr hp)
    · rw [if_neg hp, or_iff_left hp]
      exact h.stamped.mem_iff.symm

section Supports

variable {P : BitVec 32 → Prop}
variable {items : List Nat}

theorem descendSortedly_support {rest : List Nat} {p p' : Ptr} {left : Option Ptr}
    (hP : ∀ q, P (tree.node q).support)
    (h : descendSortedly 0 w tree p items = .ok (tree', p', left, rest)) :
    ∀ q, P (tree'.node q).support := by
  induction items generalizing tree p with
  | nil =>
    cases h
    exact hP
  | cons c items ih =>
    obtain ⟨found, -, h⟩ := bind_eq_ok h
    split at h
    · next node _ =>
      refine ih (fun q => ?_) h
      simp only [Tree.passNode, Tree.addSingle, Tree.addSupport, setNode_node]
      split
      · simpa using hP q
      · exact hP q
    · cases h
      exact hP

theorem growSortedly_support {p : Ptr} {left : Option Ptr} (h0 : P 0)
    (hP : ∀ q, P (tree.node q).support) :
    ∀ q, P ((growSortedly 0 w tree p left items).node q).support := by
  induction items generalizing tree p left with
  | nil => exact hP
  | cons c items ih =>
    refine ih fun q => ?_
    rw [addNode_field tree p left c 0 w none q Node.support fun _ _ _ _ _ => rfl]
    split
    · exact h0
    · exact hP q

theorem insertPatternSortedly_support {n : Nat} (h0 : P 0) (hP : ∀ q, P (tree.node q).support)
    (h : insertPatternSortedly tree ⟨0, items⟩ w = .ok (tree', n)) :
    ∀ q, P (tree'.node q).support := by
  obtain ⟨⟨tree₁, p, left, rest⟩, hdescend, hgrow⟩ := bind_eq_ok h
  cases hgrow
  exact growSortedly_support h0 (descendSortedly_support hP hdescend)

end Supports

end StreamMill.Swim
