import Mathlib.Algebra.Order.BigOperators.Group.List
import StreamMill.Swim.Prune
import StreamMill.Swim.Union

/-!
# StreamMill.Swim.Slides

`ProcessMain`: the window of `no_slides` slides moves by one slide. The FP-trees of the last
`no_slides + 1` slides stand in a ring, and the pattern tree holds the patterns of the slides in the
window.

Of `Mine` and `Rec_Verify` the step uses no more than that the one puts patterns into a pattern tree
and the other sets the supports of a pattern tree (`Routines`).
-/

namespace StreamMill.Swim

open Lib
open FPTree (Trans Adr weightOf)

/-- What `initialize` accepts. -/
structure Config where
  noItems : Nat
  noSlides : Nat
  slideSize : Nat
  lDelayMax : Nat
  delay : lDelayMax < noSlides
  /-- `slide_size` is an `int`. -/
  size : slideSize < 2 ^ 31

/-- `struct SwimFisStatus`, as far as the steps change it. -/
structure Status where
  localFPs : Nat → Tree
  localAllTransLen : Nat → Nat
  patternTree : Tree
  tempPatternTree : Tree
  sumAllPatLens : BitVec 32

def Config.initialize (c : Config) : Status where
  localFPs := fun _ => newTree c.noItems
  localAllTransLen := fun _ => 0
  patternTree := newTree c.noItems
  tempPatternTree := newTree c.noItems
  sumAllPatLens := 0

/-- A pattern as `sortTran` leaves it. -/
structure Pattern (noItems : Nat) where
  items : List Nat
  increasing : items.Pairwise (· < ·)
  bounded : ∀ i ∈ items, i < noItems

structure Routines (c : Config) where
  /-- The patterns that `Mine` finds in an FP-tree, in the order in which it inserts them. -/
  mine : Tree → Nat → List (Pattern c.noItems)
  /-- The supports of the pattern tree after `Rec_Verify`. -/
  recVerify : Tree → Tree → Int → Ptr → BitVec 32
  count : ∀ fptree patternTree maxLen p, 0 ≤ (recVerify fptree patternTree maxLen p).toInt

/-- `StreamMillBuffer` after `addTuple` of all transactions of a slide. -/
def addTuples (ts : List (List Nat)) : List Nat := ts.flatMap fun t => t.length :: t

/-- The loop of `ReadChunkToFP_b`: whether the end of the buffer was not passed, the tree and the
length of all transactions. -/
def readTrans : Nat → List Nat → Tree × Nat → Except Fault (Bool × Tree × Nat)
  | 0, _, s => .ok (true, s)
  | _ + 1, [], s => .ok (false, s)
  | t + 1, len :: buf, (fp, n) =>
    if buf.length < len then .ok (false, fp, n)
    else do
      let (fp, _) ← insertTrans fp ⟨1, buf.take len⟩
      readTrans t (buf.drop len) (fp, n + len + 1)

def readChunkToFP (c : Config) (status : Status) (index : Nat) (buf : List Nat) :
    Except Fault (Bool × Status) := do
  let fp ← emptyTree (status.localFPs index)
  let (done, fp, n) ← readTrans c.slideSize buf (fp, 0)
  return (done, { status with
    localFPs := Function.update status.localFPs index fp
    localAllTransLen := Function.update status.localAllTransLen index n })

/-- What `Mine` returns. -/
def patLens {noItems : Nat} (ps : List (Pattern noItems)) : Nat :=
  (ps.map fun p => p.items.length + 1).sum

/-- `Mine` puts the patterns into `patternTree`, with the support 0. -/
def insertMined {noItems : Nat} (patternTree : Tree) (ps : List (Pattern noItems))
    (windowid : BitVec 16) : Except Fault Tree :=
  (insertEach (patternTree, 0) (ps.map fun p => ⟨0, p.items⟩) windowid).map Prod.fst

def Routines.verified {c : Config} (r : Routines c) (status : Status) (index : Nat)
    (sumAllPatLens : BitVec 32) (patternTree : Tree) : Tree :=
  patternTree.withSupports (r.recVerify (status.localFPs index) patternTree
    (max (status.localAllTransLen index) sumAllPatLens.toInt))

/-- `hist` from `windowid - 1` down to `windowid - (no_slides - L_delay_max - 1)` -/
def Config.hists (c : Config) (windowid : Nat) : List Nat :=
  (List.range (c.noSlides - c.lDelayMax - 1)).map fun k => windowid - 1 - k

def fillWindow (windowid : Nat) {noItems : Nat} (mined : List (Pattern noItems)) (status : Status) :
    Except Fault Status := do
  let patternTree ← insertMined status.patternTree mined (BitVec.ofNat 16 windowid)
  return { status with
    patternTree := patternTree
    sumAllPatLens := status.sumAllPatLens + BitVec.ofNat 32 (patLens mined) }

def moveWindow (c : Config) (r : Routines c) (windowid : Nat) (mined : List (Pattern c.noItems))
    (status : Status) : Except Fault Status := do
  let temp ← insertMined status.tempPatternTree mined (BitVec.ofNat 16 windowid)
  let sumAllPatLens := status.sumAllPatLens + BitVec.ofNat 32 (patLens mined)
  let temp := (c.hists windowid).foldl (fun temp hist =>
    r.verified status (hist % (c.noSlides + 1)) sumAllPatLens temp) temp
  let (patternTree, _) ←
    unionTrees status.patternTree temp (BitVec.ofNat 16 windowid) sumAllPatLens.toInt
  let temp ← emptyTree temp
  let expiredIndex := (windowid - c.noSlides) % (c.noSlides + 1)
  let patternTree := r.verified status expiredIndex sumAllPatLens patternTree
  let (patternTree, _) ← pruneTree patternTree (windowid - c.noSlides + 1)
  return { status with
    patternTree := patternTree
    tempPatternTree := temp
    sumAllPatLens := sumAllPatLens }

def processSlide (c : Config) (r : Routines c) (windowid : Nat) (status : Status) :
    Except Fault Status :=
  let newIndex := windowid % (c.noSlides + 1)
  let mined := r.mine (status.localFPs newIndex) (status.localAllTransLen newIndex)
  if windowid < c.noSlides then fillWindow windowid mined status
  else moveWindow c r windowid mined status

def processMain (c : Config) (r : Routines c) (windowid : Nat) (buf : List Nat) (status : Status) :
    Except Fault (Int × Status) := do
  let (done, status) ← readChunkToFP c status (windowid % (c.noSlides + 1)) buf
  if done then (processSlide c r windowid status).map fun status => (0, status)
  else return (1, status)

variable {c : Config} {tree : Tree} {S : Shape} {addr : Adr → Ptr} {ends : Adr → BitVec 16}

def transOf (ts : List (List Nat)) : List Trans := ts.map fun t => ⟨1, t⟩

def transLen (ts : List (List Nat)) : Nat := (ts.map fun t => t.length + 1).sum

theorem Wired.emptyTree_ok {chains : Nat → List Adr} (h : Wired tree S addr chains) :
    ∃ tree', emptyTree tree = .ok tree' ∧ Cleared tree' ∧ tree'.maxItems = tree.maxItems := by
  have hroot : Swim.root < tree.fresh := h.root ▸ h.fresh [] S.has_root
  have hchains : ∀ l : List Nat,
      l.mapM tree.chain = .ok (l.map fun i => (chains i).map addr) := by
    intro l
    induction l with
    | nil => rfl
    | cons i l ih =>
      rw [List.mapM_cons, h.chain_eq, ih]
      rfl
  have hempty : emptyTree tree = .ok { tree with
      totalNodes := 0
      node := Function.update tree.node Swim.root { Node.zero with itemNo := -1 }
      header := fun _ => none
      redundancy := fun _ => 0
      singleSupport := fun _ => 0 } := by
    rw [emptyTree, hchains]
    rfl
  exact ⟨_, hempty, .inr ⟨tree, hroot, hempty⟩, rfl⟩

theorem Linked.emptyTree_ok (h : Linked tree S addr) :
    ∃ tree', emptyTree tree = .ok tree' ∧ Cleared tree' ∧ tree'.maxItems = tree.maxItems :=
  h.wired.emptyTree_ok

theorem readTrans_eq (ts : List (List Nat)) (fp : Tree) (n : Nat) :
    readTrans ts.length (addTuples ts) (fp, n) =
      (insertAll fp (transOf ts)).map fun fp => (true, fp, n + transLen ts) := by
  induction ts generalizing fp n with
  | nil => rfl
  | cons t ts ih =>
    have hbuf : addTuples (t :: ts) = t.length :: (t ++ addTuples ts) := by
      rfl
    have hfit : ¬ (t ++ addTuples ts).length < t.length := by
      rw [List.length_append]
      omega
    have hlen : n + transLen (t :: ts) = n + t.length + 1 + transLen ts := by
      simp only [transLen, List.map_cons, List.sum_cons]
      omega
    rw [hbuf, List.length_cons, readTrans, if_neg hfit, List.take_left, List.drop_left, hlen]
    cases hinsert : insertTrans fp ⟨1, t⟩ with
    | error f =>
      rw [insertAll, transOf, List.map_cons, List.foldlM_cons, hinsert]
      rfl
    | ok out =>
      change readTrans ts.length (addTuples ts) (out.1, n + t.length + 1) = _
      rw [ih, insertAll, insertAll, transOf, transOf, List.map_cons, List.foldlM_cons, hinsert]
      rfl

theorem totalSupport_transOf (ts : List (List Nat)) : totalSupport (transOf ts) = ts.length := by
  rw [totalSupport, weightOf, transOf, weight_map]
  induction ts with
  | nil => rfl
  | cons t ts ih =>
    rw [weight_cons, ih, if_pos rfl, List.length_cons, Nat.add_comm]

structure Slide (c : Config) (ts : List (List Nat)) : Prop where
  length : ts.length = c.slideSize
  increasing : ∀ t ∈ ts, t.Pairwise (· < ·)
  bounded : ∀ t ∈ ts, ∀ i ∈ t, i < c.noItems

def IsSlot (c : Config) (tree : Tree) : Prop :=
  tree.maxItems = c.noItems ∧ ∃ S addr, Linked tree S addr

theorem Slide.insertAll {ts : List (List Nat)} (h : Slide c ts) (hitems : c.noItems ≤ itemLimit)
    {fp : Tree} (hfp : Cleared fp) (hmax : fp.maxItems = c.noItems) :
    ∃ fp', insertAll fp (transOf ts) = .ok fp' ∧ IsSlot c fp' ∧ Accurate fp' (transOf ts) := by
  have hsmall : ∀ t ∈ transOf ts, ∀ i ∈ t.items, i < itemLimit := by
    intro t ht i hi
    obtain ⟨l, hl, rfl⟩ := List.mem_map.mp ht
    exact (h.bounded l hl i hi).trans_le hitems
  have hnodup : ∀ t ∈ transOf ts, t.items.Nodup := by
    intro t ht
    obtain ⟨l, hl, rfl⟩ := List.mem_map.mp ht
    exact (h.increasing l hl).imp fun hlt => hlt.ne
  have hfit : totalSupport (transOf ts) < 2 ^ 31 := by
    have hlen := totalSupport_transOf ts
    have hsize := c.size
    rw [h.length] at hlen
    rwa [hlen]
  obtain ⟨fp', addr, hall, href⟩ := insertAll_refines hfp.refines hsmall
  obtain ⟨hrep, -⟩ := FPTree.build_represents (FPTree.newTree_represents fp.maxItems) hnodup
  exact ⟨fp', hall, ⟨(insertAll_maxItems hall).trans hmax, _, addr, href.links⟩,
    href.accurate hrep hfit⟩

theorem Slide.readChunkToFP {ts : List (List Nat)} (h : Slide c ts) (hitems : c.noItems ≤ itemLimit)
    {status : Status} {index : Nat} (hslot : IsSlot c (status.localFPs index)) :
    ∃ fp, readChunkToFP c status index (addTuples ts) = .ok (true, { status with
        localFPs := Function.update status.localFPs index fp
        localAllTransLen := Function.update status.localAllTransLen index (transLen ts) }) ∧
      IsSlot c fp ∧ Accurate fp (transOf ts) := by
  obtain ⟨hmax, S, addr, hlinks⟩ := hslot
  obtain ⟨fp, hempty, hcleared, hmax'⟩ := hlinks.emptyTree_ok
  obtain ⟨fp', hall, hslot', hacc⟩ := h.insertAll hitems hcleared (hmax'.trans hmax)
  have hread := readTrans_eq ts fp 0
  rw [hall, h.length, Nat.zero_add] at hread
  refine ⟨fp', ?_, hslot', hacc⟩
  rw [Swim.readChunkToFP, hempty]
  change readTrans c.slideSize (addTuples ts) (fp, 0) >>= _ = _
  rw [hread]
  rfl

def Closure {noItems : Nat} (ps : List (Pattern noItems)) (b : Adr) : Prop :=
  b ≠ [] ∧ ∃ p ∈ ps, b <+: p.items

instance {noItems : Nat} (ps : List (Pattern noItems)) : DecidablePred (Closure ps) :=
  fun b => inferInstanceAs (Decidable (b ≠ [] ∧ ∃ p ∈ ps, b <+: p.items))

/-- The nodes of the tree are those with `N`, and they were last seen in the windows `ends`. -/
def HoldsPatterns (c : Config) (tree : Tree) (N : Adr → Prop) (ends : Adr → BitVec 16) : Prop :=
  (∀ b, N b → ∀ i ∈ b, i < c.noItems) ∧ ∃ S addr, Patterns tree S addr ends ∧
    Unmarked tree S addr ∧ S.maxItems = c.noItems ∧ ∀ b, b ∈ S.nodes ↔ N b

variable {N N' : Adr → Prop} {ps : List (Pattern c.noItems)} {w : BitVec 16}

theorem Cleared.holds (h : Cleared tree) (hmax : tree.maxItems = c.noItems)
    (ends : Adr → BitVec 16) : HoldsPatterns c tree (fun _ => False) ends := by
  have hlinks := h.refines.links
  refine ⟨fun b hb => hb.elim, _, _, ⟨hlinks, fun a => .nil, fun a ha => ?_⟩, fun a ha => ?_, ?_,
    fun b => ?_⟩
  · exact absurd ha List.not_mem_nil
  · exact absurd ha List.not_mem_nil
  · exact hlinks.maxItems.symm.trans hmax
  · exact iff_of_false List.not_mem_nil id

theorem HoldsPatterns.withSupports (h : HoldsPatterns c tree N ends) (C : Ptr → BitVec 32) :
    HoldsPatterns c (tree.withSupports C) N ends := by
  obtain ⟨hbounded, S, addr, hp, hu, hmax, hN⟩ := h
  exact ⟨hbounded, S, addr, ⟨hp.links.congr rfl, hp.sorted, hp.ends⟩, hu, hmax, hN⟩

theorem HoldsPatterns.insertMined (h : HoldsPatterns c tree N ends) (hitems : c.noItems ≤ itemLimit)
    (ps : List (Pattern c.noItems)) (w : BitVec 16) :
    ∃ tree', insertMined tree ps w = .ok tree' ∧
      HoldsPatterns c tree' (fun b => N b ∨ Closure ps b) fun b =>
        if Closure ps b then w else ends b := by
  obtain ⟨hbounded, S, addr, hp, hu, hmax, hN⟩ := h
  have hsmall : ∀ t ∈ ps.map fun p => (⟨0, p.items⟩ : Trans), ∀ i ∈ t.items, i < itemLimit := by
    intro t ht i hi
    obtain ⟨p, -, rfl⟩ := List.mem_map.mp ht
    exact (p.bounded i hi).trans_le hitems
  obtain ⟨tree', n, S', addr', hrun, hp', hmax', hu', hnodes⟩ := hp.insertEach hsmall w 0
  have hmem : ∀ b, (∃ t ∈ ps.map fun p => (⟨0, p.items⟩ : Trans), b <+: t.items) ↔
      ∃ p ∈ ps, b <+: p.items := fun b => by simp
  have hN' : ∀ b, b ∈ S'.nodes ↔ N b ∨ Closure ps b := by
    intro b
    rw [hnodes, hN, hmem]
    rfl
  refine ⟨tree', ?_, ?_, S', addr', ⟨hp'.links, hp'.sorted, fun b hb => ?_⟩, hu' hu,
    hmax'.trans hmax, hN'⟩
  · rw [Swim.insertMined, hrun]
    rfl
  · rintro b (hb | ⟨-, p, -, hpre⟩) i hi
    · exact hbounded b hb i hi
    · exact p.bounded i (hpre.subset hi)
  · have hne : b ≠ [] := by
      rintro rfl
      exact hp'.links.ok.root hb
    rw [hp'.ends b hb]
    refine if_congr ?_ rfl rfl
    rw [hmem]
    exact (and_iff_right hne).symm

theorem insertMined_support {P : BitVec 32 → Prop} (h0 : P 0) {tree' : Tree}
    (hP : ∀ q, P (tree.node q).support) (h : insertMined tree ps w = .ok tree') :
    ∀ q, P (tree'.node q).support := by
  cases hins : insertEach (tree, 0) (ps.map fun p => ⟨0, p.items⟩) w with
  | error f =>
    rw [insertMined, hins] at h
    cases h
  | ok s =>
    rw [insertMined, hins] at h
    cases h
    refine insertEach_support h0 (fun t ht => ?_) hP hins
    obtain ⟨p, -, rfl⟩ := List.mem_map.mp ht
    rfl

theorem HoldsPatterns.prune (h : HoldsPatterns c tree N ends) {min : Nat}
    (hclosed : ∀ a i, N (a ++ [i]) → min ≤ (ends (a ++ [i])).toNat →
      a = [] ∨ min ≤ (ends a).toNat) :
    ∃ tree' n, pruneTree tree min = .ok (tree', n) ∧
      HoldsPatterns c tree' (fun b => N b ∧ min ≤ (ends b).toNat) ends := by
  obtain ⟨hbounded, S, addr, hp, hu, hmax, hN⟩ := h
  obtain ⟨tree', hrun, hp', hu'⟩ := hp.prune
    (fun b hb i hi => hmax ▸ hbounded b ((hN b).mp hb) i hi) hu min (fun a _ => rfl)
    fun a i hm hk => by
      rw [decide_eq_true_iff] at hk ⊢
      exact hclosed a i ((hN _).mp hm) hk
  refine ⟨tree', _, hrun, fun b hb => hbounded b hb.1, _, addr, hp', hu', hmax, fun b => ?_⟩
  exact List.mem_filter.trans (and_congr (hN b) decide_eq_true_iff)

theorem patLens_eq : patLens ps = weight (fun p : Pattern c.noItems => p.items.length + 1) ps
    fun _ => true := by
  rw [patLens, weight, List.filter_true]

/-- The buffer of `UnionTrees` is large enough for the chain of an item: a pattern has only one
prefix that ends with it. -/
theorem pathsLen_le (hnd : S.nodes.Nodup) (hS : ∀ b ∈ S.nodes, Closure ps b) (i : Nat) :
    pathsLen (S.header i) ≤ patLens ps := by
  let len := fun p : Pattern c.noItems => p.items.length + 1
  have hone : ∀ b ∈ S.header i, b.length + 1 ≤ weight len ps fun p => b <+: p.items := by
    intro b hb
    obtain ⟨-, p, hp, hpre⟩ := hS b (Shape.mem_header.mp hb).1
    refine (Nat.succ_le_succ hpre.length_le).trans ?_
    exact List.le_sum_of_mem (List.mem_map_of_mem
      (List.mem_filter.mpr ⟨hp, decide_eq_true hpre⟩))
  have huniq : ∀ p ∈ ps, ∀ b ∈ S.header i, ∀ b' ∈ S.header i, decide (b <+: p.items) = true →
      decide (b' <+: p.items) = true → b = b' := by
    intro p _ b hb b' hb' h h'
    obtain ⟨-, a, rfl⟩ := Shape.mem_header.mp hb
    obtain ⟨-, a', rfl⟩ := Shape.mem_header.mp hb'
    have hinc : p.items.Nodup := p.increasing.imp fun hlt => hlt.ne
    exact FPTree.prefix_unique hinc (of_decide_eq_true h) (of_decide_eq_true h')
  have hfiber : ((S.header i).map fun b => weight len ps fun p => b <+: p.items).sum =
      weight len ps fun p => (S.header i).any fun b => b <+: p.items :=
    weight_fiber (hnd.filter _) huniq
  calc pathsLen (S.header i)
      ≤ ((S.header i).map fun b => weight len ps fun p => b <+: p.items).sum :=
        List.sum_le_sum hone
    _ = weight len ps fun p => (S.header i).any fun b => b <+: p.items := hfiber
    _ ≤ weight len ps fun _ => true := weight_mono fun _ _ _ => rfl
    _ = patLens ps := patLens_eq.symm

section

variable (h : HoldsPatterns c tree N ends)
include h

theorem HoldsPatterns.congr (hN : ∀ b, N b ↔ N' b) :
    HoldsPatterns c tree N' ends := by
  obtain rfl : N = N' := funext fun b => propext (hN b)
  exact h

theorem HoldsPatterns.union {temp : Tree} {ends' : Adr → BitVec 16}
    (ht : HoldsPatterns c temp (Closure ps) ends') (hcount : ∀ p, 0 ≤ (temp.node p).support.toInt)
    {maxLen : Int} (hlen : patLens ps ≤ maxLen) (w : BitVec 16) :
    ∃ tree' n, unionTrees tree temp w maxLen = .ok (tree', n) ∧
      HoldsPatterns c tree' (fun b => N b ∨ Closure ps b) fun b =>
        if Closure ps b then w else ends b := by
  obtain ⟨hbounded, S, addr, hp, hu, hmax, hN⟩ := h
  obtain ⟨hbounded', T, taddr, ht, -, hmaxT, hT⟩ := ht
  have hfits : ∀ i, (pathsLen (T.header i) : Int) ≤ maxLen := fun i =>
    (Int.ofNat_le.mpr (pathsLen_le ht.links.ok.nodup (fun b hb => (hT b).mp hb) i)).trans hlen
  obtain ⟨tree', n, S', addr', hrun, hp', hmax', hu', hnodes⟩ := hp.union ht.links
    (fun b hb i hi => hmaxT ▸ hbounded' b ((hT b).mp hb) i hi) (fun a _ => hcount _) hfits w
  refine ⟨tree', n, hrun, ?_, S', addr', ⟨hp'.links, hp'.sorted, fun b hb => ?_⟩, hu' hu,
    hmax'.trans hmax, fun b => ?_⟩
  · rintro b (hb | hb)
    · exact hbounded b hb
    · exact hbounded' b hb
  · rw [hp'.ends b hb]
    exact if_congr (hT b) rfl rfl
  · rw [hnodes, hN, hT]

theorem HoldsPatterns.at_iff {α : List Int} :
    (∃ p, tree.At p α) ↔ α = [] ∨ ∃ b, N b ∧ α = b.map Int.ofNat := by
  obtain ⟨-, S, addr, hp, -, -, hN⟩ := h
  simp only [hp.links.at_iff]
  constructor
  · rintro ⟨-, a, ha, -, rfl⟩
    rcases List.mem_cons.mp ha with rfl | ha
    · exact .inl rfl
    · exact .inr ⟨a, (hN a).mp ha, rfl⟩
  · rintro (rfl | ⟨b, hb, rfl⟩)
    · exact ⟨_, [], S.has_root, rfl, rfl⟩
    · exact ⟨_, b, S.has_node ((hN b).mpr hb), rfl, rfl⟩

theorem HoldsPatterns.at_unique {α : List Int} {p q : Ptr} (hp : tree.At p α) (hq : tree.At q α) :
    p = q := by
  obtain ⟨-, S, addr, hpat, -⟩ := h
  obtain ⟨a, -, rfl, rfl⟩ := hpat.links.at_iff.mp hp
  obtain ⟨b, -, rfl, heq⟩ := hpat.links.at_iff.mp hq
  rw [List.map_injective_iff.mpr Int.ofNat_injective heq]

end

/-- Between two slides: the trees of the ring are whole, the pattern tree has the nodes `N`, the
temporary tree is empty. -/
structure Status.Ok (c : Config) (status : Status) (N : Adr → Prop) (ends : Adr → BitVec 16) :
    Prop where
  slots : ∀ k, IsSlot c (status.localFPs k)
  patterns : HoldsPatterns c status.patternTree N ends
  temp : Cleared status.tempPatternTree
  tempItems : status.tempPatternTree.maxItems = c.noItems
  counts : ∀ p, 0 ≤ (status.tempPatternTree.node p).support.toInt

def Status.withSlide (status : Status) (index : Nat) (fp : Tree) (n : Nat) : Status :=
  { status with
    localFPs := Function.update status.localFPs index fp
    localAllTransLen := Function.update status.localAllTransLen index n }

theorem Status.Ok.withSlide {status : Status} (h : status.Ok c N ends) {fp : Tree}
    (hfp : IsSlot c fp) (index n : Nat) : (status.withSlide index fp n).Ok c N ends := by
  refine ⟨fun k => ?_, h.patterns, h.temp, h.tempItems, h.counts⟩
  by_cases hk : k = index
  · subst hk
    change IsSlot c (Function.update status.localFPs k fp k)
    rw [Function.update_self]
    exact hfp
  · change IsSlot c (Function.update status.localFPs index fp k)
    rw [Function.update_of_ne hk]
    exact h.slots k

/-- What a slide leaves alone. -/
structure Status.Kept (status status' : Status) (ps : List (Pattern c.noItems)) : Prop where
  localFPs : status'.localFPs = status.localFPs
  localAllTransLen : status'.localAllTransLen = status.localAllTransLen
  sum : status'.sumAllPatLens = status.sumAllPatLens + BitVec.ofNat 32 (patLens ps)

theorem Status.Ok.fillWindow {status : Status} (h : status.Ok c N ends)
    (hitems : c.noItems ≤ itemLimit) (ps : List (Pattern c.noItems)) (w : Nat) :
    ∃ status', fillWindow w ps status = .ok status' ∧ status.Kept status' ps ∧
      status'.Ok c (fun b => N b ∨ Closure ps b) fun b =>
        if Closure ps b then BitVec.ofNat 16 w else ends b := by
  obtain ⟨tree', hrun, hholds⟩ := h.patterns.insertMined hitems ps (BitVec.ofNat 16 w)
  refine ⟨{ status with
      patternTree := tree'
      sumAllPatLens := status.sumAllPatLens + BitVec.ofNat 32 (patLens ps) }, ?_, ⟨rfl, rfl, rfl⟩,
    h.slots, hholds, h.temp, h.tempItems, h.counts⟩
  rw [Swim.fillWindow, hrun]
  rfl

theorem Routines.verified_foldl (r : Routines c) (status : Status) (sum : BitVec 32)
    (h : HoldsPatterns c tree N ends) (hcount : ∀ p, 0 ≤ (tree.node p).support.toInt)
    (l : List Nat) :
    let tree' := l.foldl (fun temp hist =>
      r.verified status (hist % (c.noSlides + 1)) sum temp) tree
    HoldsPatterns c tree' N ends ∧ ∀ p, 0 ≤ (tree'.node p).support.toInt := by
  induction l generalizing tree with
  | nil => exact ⟨h, hcount⟩
  | cons k l ih => exact ih (h.withSupports _) fun p => r.count ..

theorem Status.Ok.moveWindow {status : Status} (h : status.Ok c N ends)
    (hitems : c.noItems ≤ itemLimit) (r : Routines c) (ps : List (Pattern c.noItems)) (w : Nat)
    (hsum : patLens ps ≤ (status.sumAllPatLens + BitVec.ofNat 32 (patLens ps)).toInt)
    {ends' : Adr → BitVec 16}
    (hends : ends' = fun b => if Closure ps b then BitVec.ofNat 16 w else ends b)
    (hclosed : ∀ a i, N (a ++ [i]) ∨ Closure ps (a ++ [i]) →
      w - c.noSlides + 1 ≤ (ends' (a ++ [i])).toNat →
      a = [] ∨ w - c.noSlides + 1 ≤ (ends' a).toNat) :
    ∃ status', moveWindow c r w ps status = .ok status' ∧ status.Kept status' ps ∧
      status'.Ok c (fun b => (N b ∨ Closure ps b) ∧ w - c.noSlides + 1 ≤ (ends' b).toNat)
        ends' := by
  obtain ⟨temp, hmine, hmined⟩ := (h.temp.holds h.tempItems ends).insertMined hitems ps
    (BitVec.ofNat 16 w)
  have hcount := insertMined_support (P := fun s => 0 ≤ s.toInt) (by decide) h.counts hmine
  have hmined : HoldsPatterns c temp (Closure ps) _ := hmined.congr fun b => by rw [false_or]
  obtain ⟨hverified, hcount'⟩ := r.verified_foldl status
    (status.sumAllPatLens + BitVec.ofNat 32 (patLens ps)) hmined hcount (c.hists w)
  obtain ⟨tree₁, n₁, hunion, hholds⟩ := h.patterns.union hverified hcount' hsum (BitVec.ofNat 16 w)
  obtain ⟨-, T, taddr, hT, -, hmaxT, -⟩ := hverified
  obtain ⟨temp', hempty, hcleared, hmax'⟩ := hT.links.emptyTree_ok
  have hsupport : ∀ p, 0 ≤ (temp'.node p).support.toInt := by
    obtain ⟨-, -, hout⟩ := bind_eq_ok hempty
    cases hout
    intro p
    by_cases hp : p = root
    · subst hp
      simp [Node.zero]
    · simpa [hp] using hcount' p
  rw [← hends] at hholds
  have hexpired : HoldsPatterns c (r.verified status ((w - c.noSlides) % (c.noSlides + 1))
      (status.sumAllPatLens + BitVec.ofNat 32 (patLens ps)) tree₁) (fun b => N b ∨ Closure ps b)
      ends' := hholds.withSupports _
  obtain ⟨tree', n, hprune, hpruned⟩ := hexpired.prune hclosed
  refine ⟨{ status with
      patternTree := tree'
      tempPatternTree := temp'
      sumAllPatLens := status.sumAllPatLens + BitVec.ofNat 32 (patLens ps) }, ?_, ⟨rfl, rfl, rfl⟩,
    h.slots, hpruned, hcleared, hmax'.trans (hT.links.maxItems.trans hmaxT), hsupport⟩
  rw [Swim.moveWindow, hmine]
  simp only [Bind.bind, Except.bind, hunion, hempty, hprune]
  rfl

end StreamMill.Swim
