import StreamMill.RTree.Invariant
import StreamMill.Lib.While
import Mathlib.Data.Multiset.Bind

/-!
# StreamMill.RTree.Dfs

`rtree_dfs`: the depth-first search that can be resumed. Its stack holds the blocks on the path with
the entry to examine next. `Pending s stack es` lists the leaf entries that a search with this stack
has still to examine; the rectangle does not matter, as `overlap` is never negative. The search
returns the first of them that is wanted (`dfs_found`), or comes to the end (`dfs_notFound`).
-/

namespace StreamMill.RTree

open Lib

def overlap (r1 r2 : Rect) : Int :=
  if r1.xLr < r2.xUl ∨ r2.xLr < r1.xUl ∨ r1.yUl < r2.yLr ∨ r2.yUl < r1.yLr then 0 else 1

theorem overlap_nonneg (r1 r2 : Rect) : 0 ≤ overlap r1 r2 := by
  unfold overlap
  split <;> simp

def zeroNode : Node where
  nodetype := .leaf
  counter := 0
  nextlptr := 0
  prevlptr := 0
  items := fun _ => ⟨⟨0, 0, 0, 0⟩, 0, false⟩

def Page.isLeaf : Page → Bool
  | .absent => false
  | .node n => n.nodetype == .leaf
  | .free next _ => next % 256 == 'l'.toNat

def Page.counter : Page → Nat
  | .absent => 0
  | .node n => n.counter
  | .free next n => next / 256 + n.counter / 2 ^ 24 * 2 ^ 24

def Page.item (p : Page) (i : Nat) : Item := (p.contents zeroNode).items i

/-- `read_blk_by_ptr` into a buffer of the caller. -/
def peekBlkByPtr (s : State) (ptr : Nat) : Except Err Page :=
  if ptr % blockSz = 0 then
    match s.index (ptr / blockSz) with
    | .absent => .error .readBlk
    | p => .ok p
  else .error .readBlk

inductive SearchType
  | equality
  | containment
  deriving DecidableEq

/-- `cBufferType` -/
structure Frame where
  blkptr : Nat
  ent : Nat

def got (type : SearchType) (mbr r : Rect) : Bool :=
  match type with
  | .equality => containedIn mbr r = 0
  | .containment => 0 ≤ containedIn r mbr

def wanted (type : SearchType) (mbr : Rect) (item : Item) : Bool :=
  got type mbr item.rect && !item.del

inductive Scanned
  | got (i : Nat)
  | child (i : Nat)
  | nothing

/-- `for (i = cbt.ent; i < num_items; i++)`, with the number of entries that are left. -/
def scanItems (type : SearchType) (mbr : Rect) (p : Page) : Nat → Nat → Scanned
  | 0, _ => .nothing
  | k + 1, i =>
    if p.isLeaf then
      if wanted type mbr (p.item i) then .got i else scanItems type mbr p k (i + 1)
    else if 0 ≤ overlap mbr (p.item i).rect then .child i
    else scanItems type mbr p k (i + 1)

/-- What a search leaves: `curtpl` with `none` for `DB_NOTFOUND`, the stack, the rectangle and the
block that was read last. -/
structure DfsOut where
  curtpl : Option Nat
  stack : List Frame
  mbr : Rect
  temp : Page

def rtreeDfs (s : State) (type : SearchType) :
    Nat → List Frame → Rect → Page → Option (Except Err DfsOut)
  | 0, _, _, _ => none
  | _ + 1, [], mbr, temp => some (.ok ⟨none, [], mbr, temp⟩)
  | fuel + 1, f :: stack, mbr, _ =>
    match peekBlkByPtr s f.blkptr with
    | .error e => some (.error e)
    | .ok p =>
      match scanItems type mbr p (p.counter - f.ent) f.ent with
      | .got i =>
        -- a containment search writes its match over the rectangle
        let mbr := match type with
          | .equality => mbr
          | .containment => (p.item i).rect
        some (.ok ⟨some (p.item i).ptr, ⟨f.blkptr, i + 1⟩ :: stack, mbr, p⟩)
      | .child i =>
        rtreeDfs s type fuel (⟨(p.item i).ptr, 0⟩ :: ⟨f.blkptr, i + 1⟩ :: stack) mbr p
      | .nothing => rtreeDfs s type fuel stack mbr p

def mbrAfter (type : SearchType) (mbr : Rect) (item : Item) : Rect :=
  match type with
  | .equality => mbr
  | .containment => item.rect

structure Entry where
  blkptr : Nat
  ent : Nat
  item : Item

inductive Pending (s : State) : List Frame → List Entry → Prop
  | nil : Pending s [] []
  | last {f : Frame} {stack : List Frame} {p : Page} {es : List Entry} :
      peekBlkByPtr s f.blkptr = .ok p → p.counter ≤ f.ent → Pending s stack es →
      Pending s (f :: stack) es
  | entry {f : Frame} {stack : List Frame} {p : Page} {es : List Entry} :
      peekBlkByPtr s f.blkptr = .ok p → f.ent < p.counter → p.isLeaf = true →
      Pending s (⟨f.blkptr, f.ent + 1⟩ :: stack) es →
      Pending s (f :: stack) (⟨f.blkptr, f.ent, p.item f.ent⟩ :: es)
  | child {f : Frame} {stack : List Frame} {p : Page} {es : List Entry} :
      peekBlkByPtr s f.blkptr = .ok p → f.ent < p.counter → p.isLeaf = false →
      Pending s (⟨(p.item f.ent).ptr, 0⟩ :: ⟨f.blkptr, f.ent + 1⟩ :: stack) es →
      Pending s (f :: stack) es

section Moves

variable {s : State} {type : SearchType} {mbr : Rect} {p temp : Page} {f : Frame}
  {stack : List Frame} {fuel : Nat}

theorem dfs_scan (hp : peekBlkByPtr s f.blkptr = .ok p) :
    rtreeDfs s type (fuel + 1) (f :: stack) mbr temp =
      match scanItems type mbr p (p.counter - f.ent) f.ent with
      | .got i => some (.ok ⟨some (p.item i).ptr, ⟨f.blkptr, i + 1⟩ :: stack,
          mbrAfter type mbr (p.item i), p⟩)
      | .child i => rtreeDfs s type fuel (⟨(p.item i).ptr, 0⟩ :: ⟨f.blkptr, i + 1⟩ :: stack) mbr p
      | .nothing => rtreeDfs s type fuel stack mbr p := by
  rw [rtreeDfs, hp]
  rfl

theorem dfs_last (hp : peekBlkByPtr s f.blkptr = .ok p) (hlast : p.counter ≤ f.ent) :
    rtreeDfs s type (fuel + 1) (f :: stack) mbr temp = rtreeDfs s type fuel stack mbr p := by
  rw [dfs_scan hp, Nat.sub_eq_zero_of_le hlast]
  rfl

theorem scanItems_cons (hlt : f.ent < p.counter) :
    scanItems type mbr p (p.counter - f.ent) f.ent =
      if p.isLeaf then
        if wanted type mbr (p.item f.ent) then .got f.ent
        else scanItems type mbr p (p.counter - (f.ent + 1)) (f.ent + 1)
      else .child f.ent := by
  obtain ⟨k, hk⟩ : ∃ k, p.counter - f.ent = k + 1 := ⟨p.counter - f.ent - 1, by omega⟩
  have hk' : p.counter - (f.ent + 1) = k := by omega
  rw [hk, hk', scanItems, if_pos (overlap_nonneg _ _)]

section

variable (hp : peekBlkByPtr s f.blkptr = .ok p) (hlt : f.ent < p.counter)
include hp hlt

theorem dfs_skip (hleaf : p.isLeaf = true) (hw : wanted type mbr (p.item f.ent) = false) :
    rtreeDfs s type fuel (f :: stack) mbr temp =
      rtreeDfs s type fuel (⟨f.blkptr, f.ent + 1⟩ :: stack) mbr temp := by
  cases fuel with
  | zero => rfl
  | succ fuel =>
    have hnext := @dfs_scan s type mbr p temp ⟨f.blkptr, f.ent + 1⟩ stack fuel hp
    rw [dfs_scan hp, hnext, scanItems_cons hlt, if_pos hleaf, hw]
    rfl

theorem dfs_child (hleaf : p.isLeaf = false) :
    rtreeDfs s type (fuel + 1) (f :: stack) mbr temp =
      rtreeDfs s type fuel (⟨(p.item f.ent).ptr, 0⟩ :: ⟨f.blkptr, f.ent + 1⟩ :: stack) mbr p := by
  rw [dfs_scan hp, scanItems_cons hlt, hleaf]
  rfl

theorem dfs_got (hleaf : p.isLeaf = true) (hw : wanted type mbr (p.item f.ent) = true) :
    rtreeDfs s type (fuel + 1) (f :: stack) mbr temp =
      some (.ok ⟨some (p.item f.ent).ptr, ⟨f.blkptr, f.ent + 1⟩ :: stack,
        mbrAfter type mbr (p.item f.ent), p⟩) := by
  rw [dfs_scan hp, scanItems_cons hlt, if_pos hleaf, if_pos hw]

end

end Moves

variable {s : State} {type : SearchType} {mbr : Rect} {stack : List Frame} {es : List Entry}

theorem dfs_notFound (h : Pending s stack es)
    (hes : ∀ e ∈ es, wanted type mbr e.item = false) (temp : Page) :
    ∃ temp', Returns (fun fuel => rtreeDfs s type fuel stack mbr temp)
      (.ok ⟨none, [], mbr, temp'⟩) := by
  induction h generalizing temp with
  | nil =>
    refine ⟨temp, 1, fun fuel hfuel => ?_⟩
    obtain ⟨k, rfl⟩ : ∃ k, fuel = k + 1 := ⟨fuel - 1, by omega⟩
    rfl
  | last hp hlast _ ih =>
    obtain ⟨temp', h⟩ := ih hes _
    exact ⟨temp', h.of_succ fun _ => dfs_last hp hlast⟩
  | entry hp hlt hleaf _ ih =>
    rw [List.forall_mem_cons] at hes
    obtain ⟨temp', h⟩ := ih hes.2 temp
    simp only [← dfs_skip hp hlt hleaf hes.1] at h
    exact ⟨temp', h⟩
  | child hp hlt hleaf _ ih =>
    obtain ⟨temp', h⟩ := ih hes _
    exact ⟨temp', h.of_succ fun _ => dfs_child hp hlt hleaf⟩

structure Entry.At (s : State) (e : Entry) (p : Page) : Prop where
  read : peekBlkByPtr s e.blkptr = .ok p
  lt : e.ent < p.counter
  leaf : p.isLeaf = true
  item : p.item e.ent = e.item

theorem dfs_found {skipped rest : List Entry} {e : Entry} (h : Pending s stack es)
    (hes : es = skipped ++ e :: rest) (hskip : ∀ e ∈ skipped, wanted type mbr e.item = false)
    (he : wanted type mbr e.item = true) (temp : Page) :
    ∃ stack' p, Returns (fun fuel => rtreeDfs s type fuel stack mbr temp)
        (.ok ⟨some e.item.ptr, ⟨e.blkptr, e.ent + 1⟩ :: stack', mbrAfter type mbr e.item, p⟩) ∧
      Pending s (⟨e.blkptr, e.ent + 1⟩ :: stack') rest ∧ e.At s p := by
  induction h generalizing temp skipped with
  | nil => simp at hes
  | last hp hlast _ ih =>
    obtain ⟨stack', p, h, hrest⟩ := ih hes hskip _
    exact ⟨stack', p, h.of_succ fun _ => dfs_last hp hlast, hrest⟩
  | @entry f stack p es hp hlt hleaf hpend ih =>
    cases skipped with
    | nil =>
      obtain ⟨rfl, rfl⟩ := hes
      refine ⟨stack, p, ⟨1, fun fuel hfuel => ?_⟩, hpend, hp, hlt, hleaf, rfl⟩
      obtain ⟨k, rfl⟩ : ∃ k, fuel = k + 1 := ⟨fuel - 1, by omega⟩
      exact dfs_got hp hlt hleaf he
    | cons x skipped =>
      obtain ⟨rfl, rfl⟩ := hes
      rw [List.forall_mem_cons] at hskip
      obtain ⟨stack', p', h, hrest⟩ := ih rfl hskip.2 temp
      simp only [← dfs_skip hp hlt hleaf hskip.1] at h
      exact ⟨stack', p', h, hrest⟩
  | child hp hlt hleaf _ ih =>
    obtain ⟨stack', p, h, hrest⟩ := ih hes hskip _
    exact ⟨stack', p, h.of_succ fun _ => dfs_child hp hlt hleaf, hrest⟩

def DfsOut.Explains (s : State) (type : SearchType) (mbr : Rect) (stack : List Frame)
    (out : DfsOut) : Prop :=
  match out.curtpl with
  | none => ∃ es, Pending s stack es ∧ ∀ e ∈ es, wanted type mbr e.item = false
  | some tpl => ∃ skipped e stack', tpl = e.item.ptr ∧
      out.stack = ⟨e.blkptr, e.ent + 1⟩ :: stack' ∧
      (∀ e ∈ skipped, wanted type mbr e.item = false) ∧ wanted type mbr e.item = true ∧
      ∀ es, Pending s out.stack es → Pending s stack (skipped ++ e :: es)

variable {out : DfsOut} {b h : Nat} {n : Node} {t : Contents}

theorem DfsOut.Explains.of_pending {stack' : List Frame} (h : out.Explains s type mbr stack')
    (hpend : ∀ es, Pending s stack' es → Pending s stack es) : out.Explains s type mbr stack := by
  unfold DfsOut.Explains at h ⊢
  cases hc : out.curtpl with
  | none =>
    rw [hc] at h
    obtain ⟨es, hes, hw⟩ := h
    exact ⟨es, hpend es hes, hw⟩
  | some _ =>
    rw [hc] at h
    obtain ⟨skipped, e, st, htpl, hst, hskip, he, hes⟩ := h
    exact ⟨skipped, e, st, htpl, hst, hskip, he, fun es h => hpend _ (hes es h)⟩

theorem DfsOut.Explains.skip {stack' : List Frame} {x : Entry} (h : out.Explains s type mbr stack')
    (hx : wanted type mbr x.item = false)
    (hpend : ∀ es, Pending s stack' es → Pending s stack (x :: es)) :
    out.Explains s type mbr stack := by
  unfold DfsOut.Explains at h ⊢
  cases hc : out.curtpl with
  | none =>
    rw [hc] at h
    obtain ⟨es, hes, hw⟩ := h
    exact ⟨x :: es, hpend es hes, List.forall_mem_cons.mpr ⟨hx, hw⟩⟩
  | some _ =>
    rw [hc] at h
    obtain ⟨skipped, e, st, htpl, hst, hskip, he, hes⟩ := h
    exact ⟨x :: skipped, e, st, htpl, hst, List.forall_mem_cons.mpr ⟨hx, hskip⟩, he,
      fun es h => hpend _ (hes es h)⟩

theorem dfs_explains (fuel : Nat) {temp : Page}
    (h : rtreeDfs s type fuel stack mbr temp = some (.ok out)) :
    out.Explains s type mbr stack := by
  induction fuel generalizing stack temp with
  | zero => cases h
  | succ fuel ih =>
    cases stack with
    | nil =>
      cases h
      exact ⟨[], .nil, nofun⟩
    | cons f stack =>
      cases hp : peekBlkByPtr s f.blkptr with
      | error e =>
        rw [rtreeDfs, hp] at h
        cases h
      | ok p =>
        -- over the entries of the block that are left
        generalize hk : p.counter - f.ent = k
        induction k generalizing f temp with
        | zero =>
          rw [dfs_last hp (by omega)] at h
          exact (ih h).of_pending fun es => .last hp (by omega)
        | succ k ihk =>
          have hlt : f.ent < p.counter := by omega
          cases hleaf : p.isLeaf with
          | false =>
            rw [dfs_child hp hlt hleaf] at h
            exact (ih h).of_pending fun es => .child hp hlt hleaf
          | true =>
            cases hw : wanted type mbr (p.item f.ent) with
            | false =>
              rw [dfs_skip hp hlt hleaf hw] at h
              have hrest := ihk ⟨f.blkptr, f.ent + 1⟩ h hp (by simp only; omega)
              exact hrest.skip hw
                fun es => .entry hp hlt hleaf
            | true =>
              rw [dfs_got hp hlt hleaf hw] at h
              cases h
              exact ⟨[], ⟨f.blkptr, f.ent, p.item f.ent⟩, stack, rfl, rfl, nofun, hw,
                fun es => .entry hp hlt hleaf⟩

/-- What a search leaves on the stack is what it still has to examine for the frames below. -/
theorem Pending.tail {fs : List Frame} (h : Pending s (fs ++ stack) es) :
    ∃ rest, Pending s stack rest := by
  generalize hst : fs ++ stack = st at h
  induction h generalizing fs with
  | nil =>
    rw [List.append_eq_nil_iff] at hst
    exact ⟨[], hst.2 ▸ .nil⟩
  | @last f st p es hp hlast h ih =>
    cases fs with
    | nil =>
      obtain rfl : stack = f :: st := hst
      exact ⟨_, .last hp hlast h⟩
    | cons g fs => exact ih (List.cons.inj hst).2
  | @entry f st p es hp hlt hleaf h ih =>
    cases fs with
    | nil =>
      obtain rfl : stack = f :: st := hst
      exact ⟨_, .entry hp hlt hleaf h⟩
    | cons g fs =>
      obtain ⟨-, rfl⟩ := List.cons.inj hst
      exact @ih (⟨f.blkptr, f.ent + 1⟩ :: fs) rfl
  | @child f st p es hp hlt hleaf h ih =>
    cases fs with
    | nil =>
      obtain rfl : stack = f :: st := hst
      exact ⟨_, .child hp hlt hleaf h⟩
    | cons g fs =>
      obtain ⟨-, rfl⟩ := List.cons.inj hst
      exact @ih (⟨(p.item f.ent).ptr, 0⟩ :: ⟨f.blkptr, f.ent + 1⟩ :: fs) rfl

theorem Pending.unique {es' : List Entry} (h : Pending s stack es) (h' : Pending s stack es') :
    es = es' := by
  induction h generalizing es' with
  | nil => cases h'; rfl
  | last hp hlast _ ih =>
    cases h' with
    | last _ _ h' => exact ih h'
    | entry hp' hlt => rw [hp] at hp'; cases hp'; omega
    | child hp' hlt => rw [hp] at hp'; cases hp'; omega
  | entry hp hlt hleaf _ ih =>
    cases h' with
    | last hp' hlast => rw [hp] at hp'; cases hp'; omega
    | entry hp' _ _ h' => rw [hp] at hp'; cases hp'; rw [ih h']
    | child hp' _ hleaf' => rw [hp] at hp'; cases hp'; rw [hleaf] at hleaf'; cases hleaf'
  | child hp hlt hleaf _ ih =>
    cases h' with
    | last hp' hlast => rw [hp] at hp'; cases hp'; omega
    | entry hp' _ hleaf' => rw [hp] at hp'; cases hp'; rw [hleaf] at hleaf'; cases hleaf'
    | child hp' _ _ h' => rw [hp] at hp'; cases hp'; exact ih h'

def leafEntries (index : Nat → Page) (b : Nat) : List Entry :=
  match index b with
  | .node n => (List.range n.counter).map fun i => ⟨blkPtr b, i, n.items i⟩
  | _ => []

def LeafEntry (s : State) (e : Entry) : Prop :=
  ∃ h t, IsTree s h t ∧ ∃ b ∈ t.2.1, e ∈ leafEntries s.index b

/-- A search that comes to block `b` has the entries `ents` before it. -/
def Lists (s : State) (f : Frame) (ents : List Entry) : Prop :=
  ∀ stack rest, Pending s stack rest → Pending s (f :: stack) (ents ++ rest)

theorem peekBlkByPtr_node (h : s.index b = .node n) :
    peekBlkByPtr s (blkPtr b) = .ok (.node n) := by
  rw [peekBlkByPtr, blkPtr, if_pos (Nat.mul_mod_left b blockSz),
    Nat.mul_div_cancel b blockSz_pos, h]

theorem lists_leaf (hn : s.index b = .node n) (hty : n.nodetype = .leaf) (k i : Nat)
    (hk : i + k = n.counter) :
    Lists s ⟨blkPtr b, i⟩ ((List.range' i k).map fun i => ⟨blkPtr b, i, n.items i⟩) := by
  induction k generalizing i with
  | zero =>
    intro stack rest h
    exact .last (peekBlkByPtr_node hn) (Nat.le_of_eq hk.symm) h
  | succ k ih =>
    intro stack rest h
    have hleaf : (Page.node n).isLeaf = true := by simp [Page.isLeaf, hty]
    refine .entry (peekBlkByPtr_node hn) ?_ hleaf (ih (i + 1) (by omega) stack rest h)
    show i < n.counter
    omega

theorem lists_inner {k : Nat} (hn : s.index b = .node n) (hty : n.nodetype = .inner)
    (hsub : ∀ c es t, Subtree s.index k c es t → ∃ ents : List Entry,
      (ents : Multiset Entry) = t.2.1.bind (fun l => leafEntries s.index l) ∧
      Lists s ⟨blkPtr c, 0⟩ ents) (ps : List Item) {qs : List Item} (hes : n.entries = ps ++ qs)
    (hparts : Parts (Child (Subtree s.index k)) (qs.map Item.key) t) :
    ∃ ents : List Entry,
      (ents : Multiset Entry) = t.2.1.bind (fun l => leafEntries s.index l) ∧
      Lists s ⟨blkPtr b, ps.length⟩ ents := by
  induction qs generalizing ps t with
  | nil =>
    obtain rfl : t = 0 := hparts
    refine ⟨[], rfl, fun stack rest h => .last (peekBlkByPtr_node hn) ?_ h⟩
    have hlen := congrArg List.length hes
    rw [Node.entries_length, List.append_nil] at hlen
    exact Nat.le_of_eq hlen
  | cons it qs ih =>
    obtain ⟨u, v, ⟨c, ces, hptr, -, -, -, hc⟩, hv, rfl⟩ := hparts
    obtain ⟨ents, hents, hlist⟩ := hsub c ces u hc
    obtain ⟨ents', hents', hlist'⟩ := ih (ps ++ [it]) (by simp [hes]) hv
    obtain ⟨hlt, hitem⟩ := Node.entries_middle hes
    refine ⟨ents ++ ents', ?_, fun stack rest h => ?_⟩
    · rw [← Multiset.coe_add, hents, hents', ← Multiset.add_bind]
      rfl
    · have hptr' : ((Page.node n).item ps.length).ptr = blkPtr c := by
        show (n.items ps.length).ptr = _
        rw [hitem]
        exact hptr
      refine .child (peekBlkByPtr_node hn) hlt (by simp [Page.isLeaf, hty]) ?_
      rw [hptr', List.append_assoc]
      have hnext := hlist' stack rest h
      rw [List.length_append] at hnext
      exact hlist _ _ hnext

theorem Subtree.lists {es : List Item} (ht : Subtree s.index h b es t) :
    ∃ ents : List Entry,
      (ents : Multiset Entry) = t.2.1.bind (fun l => leafEntries s.index l) ∧
      Lists s ⟨blkPtr b, 0⟩ ents := by
  induction h generalizing b es t with
  | zero =>
    obtain ⟨⟨n, hn, hty, -⟩, -, rfl⟩ := ht
    refine ⟨_, ?_, lists_leaf hn hty n.counter 0 (Nat.zero_add _)⟩
    rw [← List.range_eq_range']
    simp [leafEntries, hn]
  | succ h ih =>
    obtain ⟨⟨n, hn, hty, hes⟩, -, -, t', hparts, rfl⟩ := ht
    obtain ⟨ents, hents, hlist⟩ :=
      lists_inner hn hty (fun _ _ _ => ih) [] hes hparts
    refine ⟨ents, ?_, hlist⟩
    rw [hents]
    simp

theorem leafEntries_blkptr {index : Nat → Page} {e : Entry} (h : e ∈ leafEntries index b) :
    e.blkptr = blkPtr b := by
  unfold leafEntries at h
  split at h
  · obtain ⟨i, -, rfl⟩ := List.mem_map.mp h
    rfl
  · simp at h

theorem leafEntries_nodup (index : Nat → Page) (b : Nat) : (leafEntries index b).Nodup := by
  unfold leafEntries
  split
  · refine List.nodup_range.map fun i j hij => ?_
    exact congrArg Entry.ent hij
  · exact .nil

theorem IsTree.leaves_nodup (hs : IsTree s h t) : t.2.1.Nodup := by
  obtain ⟨es, hroot⟩ := hs.tree
  exact Multiset.nodup_of_le hroot.leavesIn.1 hs.alloc.nodup

theorem IsTree.lists (hs : IsTree s h t) :
    ∃ ents : List Entry, ents.Nodup ∧ (∀ e, e ∈ ents ↔ LeafEntry s e) ∧
      Lists s ⟨blockSz, 0⟩ ents := by
  obtain ⟨es, hroot⟩ := hs.tree
  obtain ⟨ents, hents, hlist⟩ := hroot.lists
  have hlv := hs.leaves_nodup
  obtain ⟨bs, hbs⟩ : ∃ bs : List Nat, (bs : Multiset Nat) = t.2.1 := Quot.exists_rep t.2.1
  rw [← hbs] at hents hlv
  refine ⟨ents, ?_, fun e => ?_, by simpa [blkPtr] using hlist⟩
  · have hperm : ents.Perm (bs.flatMap (leafEntries s.index)) := by
      rw [← Multiset.coe_eq_coe, hents]
      exact Multiset.coe_bind bs (leafEntries s.index)
    rw [hperm.nodup_iff, List.nodup_flatMap]
    refine ⟨fun b _ => leafEntries_nodup s.index b, ?_⟩
    have hlv' : bs.Nodup := hlv
    refine hlv'.imp fun hne e he he' => hne ?_
    exact blkPtr_inj ((leafEntries_blkptr he).symm.trans (leafEntries_blkptr he'))
  · rw [← Multiset.mem_coe, hents, Multiset.mem_bind]
    constructor
    · rintro ⟨b, hb, he⟩
      exact ⟨h, t, hs, b, hbs ▸ hb, he⟩
    · rintro ⟨h', t', hs', b, hb, he⟩
      obtain ⟨es', hroot'⟩ := hs'.tree
      rw [← (hroot.unique hroot').2, ← hbs] at hb
      exact ⟨b, hb, he⟩

end StreamMill.RTree
