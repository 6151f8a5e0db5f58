import StreamMill.RTree.Cursor

/-!
# StreamMill.RTree.Search

`rtree_get`: the search for one tuple with a given rectangle. It goes down into every entry that
contains the rectangle until a leaf has an entry equal to it; the covering rectangles are what makes
it complete (`IsTree.getOne`). As long as nothing has been deleted no deletion byte is set, neither
in the file nor in the static buffers, and insertions keep it so (`insertRtreeAux_unmarked`).
-/

namespace StreamMill.RTree

open Lib

/-- `*blk`, `*ent`, `*tpl` of `rtree_get_one`. -/
structure GetOne where
  blk : Nat
  ent : Nat
  tpl : Nat

/-- The scan of the entries from `i` on, of which `k` are left; `rec` searches a child block. -/
def getOneItems (s : State) (mbr : Rect) (curblk : Nat) (n : Node)
    (rec : Nat → Option (Except Err GetOne)) : Nat → Nat → GetOne → Option (Except Err GetOne)
  | 0, _, out => some (.ok { out with blk := 0 })
  | k + 1, i, out =>
    match n.nodetype with
    | .leaf =>
      if containedIn mbr (n.items i).rect = 0 ∧ (n.items i).del = false then
        some (.ok ⟨curblk, i, (n.items i).ptr⟩)
      else getOneItems s mbr curblk n rec k (i + 1) out
    | .inner =>
      if 0 ≤ containedIn mbr (n.items i).rect then
        let b := (n.items i).ptr / blockSz
        if b < 1 ∨ s.tbInd ≤ b then some (.ok { out with blk := uintMax })
        else
          match rec b with
          | none => none
          | some (.error e) => some (.error e)
          | some (.ok out) =>
            if out.blk ≠ 0 then some (.ok out) else getOneItems s mbr curblk n rec k (i + 1) out
      else getOneItems s mbr curblk n rec k (i + 1) out

/-- `fuel` bounds the depth of the recursion. -/
def rtreeGetOne (s : State) (mbr : Rect) : Nat → Nat → Option (Except Err GetOne)
  | 0, _ => none
  | fuel + 1, curblk =>
    if s.fbInd = 1 then some (.ok ⟨0, uintMax, uintMax⟩)
    else
      match peekBlk s curblk with
      | .error e => some (.error e)
      | .ok n =>
        getOneItems s mbr curblk n (rtreeGetOne s mbr fuel) n.counter 0 ⟨uintMax, uintMax, uintMax⟩

/-- What `rtree_get` ends with; `δ` are the tuples of the record file. -/
inductive Got (δ : Type)
  | found (tuple : δ)
  | notFound
  /-- `tuple_get` fails and `myerr` exits. -/
  | exit
  deriving DecidableEq

def rtreeGet {δ : Type} (s : State) (tupleGet : Nat → Option δ) (mbr : Rect) (fuel : Nat) :
    Option (Except Err (Got δ)) :=
  match rtreeGetOne s mbr fuel 1 with
  | none => none
  | some (.error e) => some (.error e)
  | some (.ok out) =>
    if out.tpl ≠ uintMax then
      match tupleGet out.tpl with
      | some x => some (.ok (.found x))
      | none => some (.ok .exit)
    else some (.ok .notFound)

variable {s : State} {index : Nat → Page} {mbr : Rect}
variable {b h : Nat} {es : List Item} {t : Contents} {out : GetOne} {n : Node}
  {rec : Nat → Option (Except Err GetOne)}

theorem Subtree.covers (ht : Subtree index h b es t) :
    ∀ it ∈ t.2.2, ∃ e ∈ es, Covers e.rect it.rect := by
  induction h generalizing b es t with
  | zero =>
    obtain ⟨-, -, rfl⟩ := ht
    exact fun it hit => ⟨it, hit, .refl _⟩
  | succ h ih =>
    obtain ⟨-, -, -, t', hparts, rfl⟩ := ht
    intro it hit
    rw [Prod.snd_add, Prod.snd_add, zero_add] at hit
    obtain ⟨key, hkey, u, v, ⟨c, ces, -, -, -, hcov, hc⟩, hu, -⟩ :=
      hparts.of_sum (R := fun t => it ∈ t.2.2) hit (Multiset.notMem_zero it)
        fun u v => Multiset.mem_add.mp
    obtain ⟨e, he, rfl⟩ := List.mem_map.mp hkey
    obtain ⟨e', he', hcov'⟩ := ih hc it hu
    exact ⟨e, he, (hcov e' he').trans hcov'⟩

/-- What the search returns when the entries `items` are before it. -/
def GetOne.Right (out : GetOne) (mbr : Rect) (items : Multiset Item) : Prop :=
  (out.blk = 0 ∧ out.ent = uintMax ∧ out.tpl = uintMax ∧
    ∀ it ∈ items, it.rect = mbr → it.del = true) ∨
  (out.blk ≠ 0 ∧ ∃ it ∈ items, it.rect = mbr ∧ it.del = false ∧ out.tpl = it.ptr)

theorem GetOne.Right.skip {items items' : Multiset Item} (h : out.Right mbr items')
    (hskip : ∀ it ∈ items, it.rect = mbr → it.del = true) :
    out.Right mbr (items + items') := by
  rcases h with ⟨hblk, hent, htpl, hall⟩ | ⟨hblk, it, hit, hright⟩
  · refine .inl ⟨hblk, hent, htpl, fun it hit hr => ?_⟩
    rcases Multiset.mem_add.mp hit with hit | hit
    · exact hskip it hit hr
    · exact hall it hit hr
  · exact .inr ⟨hblk, it, Multiset.mem_add.mpr (.inr hit), hright⟩

theorem getOneItems_leaf (hb : b ≠ 0) (hty : n.nodetype = .leaf) (ps : List Item) {qs : List Item}
    (hes : n.entries = ps ++ qs) (hent : out.ent = uintMax) (htpl : out.tpl = uintMax) :
    ∃ out', getOneItems s mbr b n rec qs.length ps.length out = some (.ok out') ∧
      out'.Right mbr (qs : Multiset Item) := by
  induction qs generalizing ps with
  | nil => exact ⟨_, rfl, .inl ⟨rfl, hent, htpl, fun it hit => by cases hit⟩⟩
  | cons it qs ih =>
    obtain ⟨-, hitem⟩ := Node.entries_middle hes
    rw [List.length_cons, getOneItems]
    simp only [hty, hitem]
    by_cases hgot : containedIn mbr it.rect = 0 ∧ it.del = false
    · rw [if_pos hgot]
      have hrect : it.rect = mbr := (containedIn_eq_zero.mp hgot.1).symm
      exact ⟨_, rfl, .inr ⟨hb, it, by simp, hrect, hgot.2, rfl⟩⟩
    · rw [if_neg hgot]
      obtain ⟨out', hrun, hright⟩ := ih (ps ++ [it]) (by simp [hes])
      rw [List.length_append] at hrun
      refine ⟨out', hrun, ?_⟩
      rw [← Multiset.cons_coe, ← Multiset.singleton_add]
      refine hright.skip fun it' hit' hr => ?_
      obtain rfl := Multiset.mem_singleton.mp hit'
      by_contra hdel
      exact hgot ⟨containedIn_eq_zero.mpr hr.symm, by simpa using hdel⟩

theorem getOneItems_inner {k : Nat} (hty : n.nodetype = .inner) (ps : List Item) {qs : List Item}
    (hes : n.entries = ps ++ qs) (hparts : Parts (Child (Subtree s.index k)) (qs.map Item.key) t)
    (hblocks : ∀ c ∈ t.1, 1 ≤ c ∧ c < s.tbInd)
    (hrec : ∀ c ces u, Subtree s.index k c ces u → (∀ d ∈ u.1, 1 ≤ d ∧ d < s.tbInd) →
      ∃ out, rec c = some (.ok out) ∧ out.Right mbr u.2.2) (hent : out.ent = uintMax)
    (htpl : out.tpl = uintMax) :
    ∃ out', getOneItems s mbr b n rec qs.length ps.length out = some (.ok out') ∧
      out'.Right mbr t.2.2 := by
  induction qs generalizing ps t out with
  | nil =>
    obtain rfl : t = 0 := hparts
    exact ⟨_, rfl, .inl ⟨rfl, hent, htpl, fun it hit => absurd hit (Multiset.notMem_zero it)⟩⟩
  | cons it qs ih =>
    obtain ⟨u, v, ⟨c, ces, hptr, -, -, hcov, hc⟩, hv, rfl⟩ := hparts
    obtain ⟨-, hitem⟩ := Node.entries_middle hes
    have hblocks_u : ∀ d ∈ u.1, 1 ≤ d ∧ d < s.tbInd :=
      fun d hd => hblocks d (Multiset.mem_add.mpr (.inl hd))
    have hblocks_v : ∀ d ∈ v.1, 1 ≤ d ∧ d < s.tbInd :=
      fun d hd => hblocks d (Multiset.mem_add.mpr (.inr hd))
    have hrest : ∀ {o : GetOne}, o.ent = uintMax → o.tpl = uintMax →
        (∀ x ∈ u.2.2, x.rect = mbr → x.del = true) →
        ∃ out', getOneItems s mbr b n rec qs.length (ps.length + 1) o = some (.ok out') ∧
          out'.Right mbr (u + v).2.2 := by
      intro o ho ho' hskip
      obtain ⟨out', hrun, hright⟩ := ih (ps ++ [it]) (by simp [hes]) hv hblocks_v ho ho'
      rw [List.length_append] at hrun
      exact ⟨out', hrun, hright.skip hskip⟩
    rw [List.length_cons, getOneItems]
    simp only [hty, hitem]
    by_cases hin : 0 ≤ containedIn mbr it.rect
    · have hb : it.ptr / blockSz = c := by
        have hptr : it.ptr = c * blockSz := hptr
        rw [hptr, Nat.mul_div_cancel c blockSz_pos]
      have hcb := hblocks_u c hc.mem
      obtain ⟨o, ho, hright⟩ := hrec c ces u hc hblocks_u
      rw [if_pos hin, hb, if_neg (by omega), ho]
      dsimp only
      rcases hright with ⟨hblk, hoe, hot, hall⟩ | ⟨hblk, x, hx, hxr⟩
      · rw [if_neg (by simp [hblk])]
        exact hrest hoe hot hall
      · rw [if_pos hblk]
        exact ⟨o, rfl, .inr ⟨hblk, x, Multiset.mem_add.mpr (.inl hx), hxr⟩⟩
    · -- no entry below has the rectangle, for it would be covered
      rw [if_neg hin]
      refine hrest hent htpl fun x hx hr => ?_
      obtain ⟨e, he, hex⟩ := hc.covers x hx
      refine absurd (containedIn_nonneg.mpr ?_) hin
      rw [← hr]
      exact (hcov e he).trans hex

variable (mbr) in
theorem Subtree.getOne {fuel : Nat} (ht : Subtree s.index h b es t) (hfb : s.fbInd ≠ 1)
    (hblocks : ∀ c ∈ t.1, 1 ≤ c ∧ c < s.tbInd) (hfuel : h < fuel) :
    ∃ out, rtreeGetOne s mbr fuel b = some (.ok out) ∧ out.Right mbr t.2.2 := by
  induction h generalizing b es t fuel with
  | zero =>
    obtain ⟨fuel, rfl⟩ : ∃ k, fuel = k + 1 := ⟨fuel - 1, by omega⟩
    have hb := hblocks b ht.mem
    obtain ⟨⟨n, hn, hty, rfl⟩, -, rfl⟩ := ht
    obtain ⟨out, hrun, hright⟩ : ∃ out,
        getOneItems s mbr b n (rtreeGetOne s mbr fuel) n.entries.length 0
          ⟨uintMax, uintMax, uintMax⟩ = some (.ok out) ∧ out.Right mbr (n.entries : Multiset Item) :=
      getOneItems_leaf (show b ≠ 0 by omega) hty [] (List.nil_append _).symm rfl rfl
    rw [Node.entries_length] at hrun
    refine ⟨out, ?_, hright⟩
    rw [rtreeGetOne, if_neg hfb, peekBlk, hn]
    exact hrun
  | succ h ih =>
    obtain ⟨fuel, rfl⟩ : ∃ k, fuel = k + 1 := ⟨fuel - 1, by omega⟩
    obtain ⟨⟨n, hn, hty, rfl⟩, -, -, t', hparts, rfl⟩ := ht
    obtain ⟨out, hrun, hright⟩ : ∃ out,
        getOneItems s mbr b n (rtreeGetOne s mbr fuel) n.entries.length 0
          ⟨uintMax, uintMax, uintMax⟩ = some (.ok out) ∧ out.Right mbr t'.2.2 :=
      getOneItems_inner hty [] (List.nil_append _).symm hparts
        (fun c hc => hblocks c (Multiset.mem_add.mpr (.inr hc)))
        (fun c ces u hc hblk => ih hc hblk (show h < fuel by omega)) rfl rfl
    rw [Node.entries_length] at hrun
    refine ⟨out, ?_, ?_⟩
    · rw [rtreeGetOne, if_neg hfb, peekBlk, hn]
      exact hrun
    · rwa [Prod.snd_add, Prod.snd_add, zero_add]

theorem getOneItems_mono {k i : Nat} {rec' : Nat → Option (Except Err GetOne)}
    (hrec : ∀ c r, rec c = some r → rec' c = some r) {r : Except Err GetOne}
    (h : getOneItems s mbr b n rec k i out = some r) :
    getOneItems s mbr b n rec' k i out = some r := by
  induction k generalizing i out with
  | zero => exact h
  | succ k ih =>
    rw [getOneItems] at h ⊢
    cases hty : n.nodetype with
    | leaf =>
      simp only [hty] at h ⊢
      split at h
      · next hgot => rwa [if_pos hgot]
      · next hgot =>
        rw [if_neg hgot]
        exact ih h
    | inner =>
      simp only [hty] at h ⊢
      split at h
      · next hin =>
        rw [if_pos hin]
        split at h
        · next hbad => rwa [if_pos hbad]
        · next hok =>
          rw [if_neg hok]
          cases hc : rec ((n.items i).ptr / blockSz) with
          | none =>
            rw [hc] at h
            cases h
          | some r' =>
            rw [hc] at h
            rw [hrec _ _ hc]
            rcases r' with e | o
            · exact h
            · dsimp only at h ⊢
              split at h
              · next hblk => rwa [if_pos hblk]
              · next hblk =>
                rw [if_neg hblk]
                exact ih h
      · next hin =>
        rw [if_neg hin]
        exact ih h

theorem rtreeGetOne_mono {fuel : Nat} {r : Except Err GetOne}
    (h : rtreeGetOne s mbr fuel b = some r) : rtreeGetOne s mbr (fuel + 1) b = some r := by
  induction fuel generalizing b r with
  | zero => cases h
  | succ fuel ih =>
    rw [rtreeGetOne] at h ⊢
    split at h
    · next hfb => rwa [if_pos hfb]
    · next hfb =>
      rw [if_neg hfb]
      cases hread : peekBlk s b with
      | error e =>
        rw [hread] at h
        exact h
      | ok n =>
        rw [hread] at h
        exact getOneItems_mono (fun c r hc => ih hc) h

/-- In a tree the search finds an entry with the rectangle that is not deleted, if there is one. -/
theorem IsTree.getOne (hs : IsTree s h t) (mbr : Rect) :
    ∃ out : GetOne, out.Right mbr t.2.2 ∧
      Returns (fun fuel => rtreeGetOne s mbr fuel 1) (.ok out) := by
  obtain ⟨es, hroot⟩ := hs.tree
  have hfb : s.fbInd ≠ 1 := hs.alloc.fbInd_ne hroot.mem
  obtain ⟨out, hrun, hright⟩ := hroot.getOne mbr hfb (fun c hc => hs.alloc.mem hc)
    (Nat.lt_succ_self h)
  exact ⟨out, hright, .of_mono hrun fun _ => rtreeGetOne_mono⟩

def Clear (items : Nat → Item) : Prop := ∀ i, (items i).del = false

theorem Clear.update {items : Nat → Item} (h : Clear items) (i : Nat) {item : Item}
    (hi : item.del = false) : Clear (Function.update items i item) := by
  intro j
  by_cases hj : j = i
  · rw [hj, Function.update_self, hi]
  · rw [Function.update_of_ne hj, h j]

/-- No deletion has been made: no deletion byte is set in the file or in a static buffer. -/
structure Unmarked (s : State) : Prop where
  index : ∀ b n, peekBlk s b = .ok n → Clear n.items
  buffer : Clear s.buffer.items
  itembuf : Clear s.itembuf
  split0 : Clear s.split0.items
  split1 : Clear s.split1.items

namespace Unmarked

variable {s' : State} {b : Nat} {n : Node}

theorem readBlk (hs : Unmarked s) (h : readBlk s b = .ok s') : Unmarked s' := by
  obtain ⟨n, hn, h⟩ := bind_eq_ok h
  cases h
  exact ⟨hs.index, hs.index b n hn, hs.itembuf, hs.split0, hs.split1⟩

variable {ptr cur : Nat} {mbr : Rect} {anc : List Nat}

section

variable (hs : Unmarked s)
include hs

theorem readBlkByPtr (h : readBlkByPtr s ptr = .ok s') :
    Unmarked s' := by
  unfold RTree.readBlkByPtr at h
  split at h
  · exact hs.readBlk h
  · cases h

theorem setBuffer (hn : Clear n.items) : Unmarked { s with buffer := n } :=
  ⟨hs.index, hn, hs.itembuf, hs.split0, hs.split1⟩

theorem writeBlk (b : Nat) (hn : Clear n.items) : Unmarked (writeBlk s b n) := by
  refine ⟨fun c m hm => ?_, hs.buffer, hs.itembuf, hs.split0, hs.split1⟩
  by_cases hc : c = b
  · subst hc
    simp only [peekBlk, RTree.writeBlk, Function.update_self] at hm
    cases hm
    exact hn
  · simp only [peekBlk, RTree.writeBlk, Function.update_of_ne hc] at hm
    exact hs.index c m hm

theorem writeBlkByPtr (hn : Clear n.items) (h : writeBlkByPtr s ptr n = .ok s') :
    Unmarked s' := by
  unfold RTree.writeBlkByPtr at h
  split at h
  · cases h
    exact hs.writeBlk _ hn
  · cases h

theorem freeBlock (hb : b ≠ 1) (h : freeBlock s b 0 = .ok s') : Unmarked s' := by
  rw [RTree.freeBlock, if_neg hb] at h
  cases h
  refine ⟨fun c m hm => ?_, hs.buffer, hs.itembuf, hs.split0, hs.split1⟩
  by_cases hc : c = b
  · subst hc
    simp only [peekBlk, Function.update_self] at hm
    cases hm
    cases hp : s.index c with
    | absent => exact hs.buffer
    | node n => exact hs.index c n (by rw [peekBlk, hp])
    | free next n => exact hs.index c n (by rw [peekBlk, hp])
  · simp only [peekBlk, Function.update_of_ne hc] at hm
    exact hs.index c m hm

theorem getNewblock (h : getNewblock s = .ok (b, s')) : Unmarked s' := by
  unfold RTree.getNewblock at h
  split at h
  · cases h
    exact ⟨hs.index, hs.buffer, hs.itembuf, hs.split0, hs.split1⟩
  · split at h
    · next next n hn =>
      cases h
      have hclear := hs.index s.fbInd n (by rw [peekBlk, hn])
      exact ⟨hs.index, hclear, hs.itembuf, hs.split0, hs.split1⟩
    · cases h

end

theorem groupNext {m i : Nat} {g g' : Grouping}
    (hg : Clear g.items0 ∧ Clear g.items1 ∧ Clear g.itembuf) (h : groupNext m g i = .ok g') :
    Clear g'.items0 ∧ Clear g'.items1 ∧ Clear g'.itembuf := by
  obtain ⟨h0, h1, hbuf⟩ := hg
  unfold RTree.groupNext at h
  split at h
  · cases h
  · dsimp only at h
    split at h
    · cases h
      exact ⟨h0.update _ rfl, h1, hbuf.update _ rfl⟩
    · cases h
      exact ⟨h0, h1.update _ rfl, hbuf.update _ rfl⟩

theorem fillItembuf (hs : Unmarked s) (mbr : Rect) (ptr : Nat) (hn : Clear n.items) :
    Clear (fillItembuf s.itembuf mbr ptr n) := by
  intro i
  unfold RTree.fillItembuf
  split
  · exact hs.itembuf 0
  · split
    · exact hn (i - 1)
    · exact hs.itembuf i

theorem splitNode {ptr0 ptr1 : Nat} {ty : NodeType} (hs : Unmarked s)
    (h : splitNode s cur mbr ptr ty ptr0 ptr1 = .ok s') : Unmarked s' := by
  obtain ⟨s₁, hread, h⟩ := bind_eq_ok h
  obtain ⟨g, hg, h⟩ := bind_eq_ok h
  obtain ⟨⟨b0, s₂⟩, hb0, h⟩ := bind_eq_ok h
  obtain ⟨⟨b1, s₃⟩, hb1, h⟩ := bind_eq_ok h
  cases h
  have hs₁ := hs.readBlk hread
  have hfill := hs₁.fillItembuf mbr ptr hs₁.buffer
  obtain ⟨h0, h1, hbuf⟩ := foldlM_ok_inv
   
    (fun _ _ _ => groupNext) ⟨hs₁.split0.update 0 (hfill _), hs₁.split1.update 0 rfl, hfill⟩ hg
  have hs₁' : Unmarked { s₁ with itembuf := g.itembuf, coverr0 := g.coverr0,
                                 coverr1 := g.coverr1 } :=
    ⟨hs₁.index, hs₁.buffer, hbuf, hs₁.split0, hs₁.split1⟩
  have hs₃ := (hs₁'.getNewblock hb0).getNewblock hb1
  have h0' : Clear (splitBlock s₃.split0 ty g.num0 g.items0 (b1 * blockSz) ptr0).items := by
    rwa [splitBlock_items]
  have h1' : Clear (splitBlock s₃.split1 ty g.num1 g.items1 ptr1 (b0 * blockSz)).items := by
    rwa [splitBlock_items]
  refine writeBlk (writeBlk ?_ b0 h0') b1 h1'
  exact ⟨hs₃.index, hs₃.buffer, hs₃.itembuf, h0', h1'⟩

theorem adjustTreeWithoutSplit (hs : Unmarked s) (h : adjustTreeWithoutSplit s cur mbr anc = .ok s') :
    Unmarked s' := by
  induction anc generalizing s cur mbr with
  | nil =>
    unfold RTree.adjustTreeWithoutSplit at h
    split at h
    · cases h
      exact hs
    · cases h
  | cons p anc ih =>
    unfold RTree.adjustTreeWithoutSplit at h
    split at h
    · cases h
      exact hs
    · obtain ⟨s₁, hread, h⟩ := bind_eq_ok h
      have hs₁ := hs.readBlk hread
      split at h
      · cases h
      · next i _ =>
        dsimp only at h
        split at h
        · cases h
          exact hs₁
        · refine ih ?_ h
          let item : Item := { s₁.buffer.items i with
            rect := compose (s₁.buffer.items i).rect mbr }
          have hclear := hs₁.buffer.update i (show item.del = false from hs₁.buffer i)
          exact (hs₁.setBuffer hclear).writeBlk p hclear

theorem newRoot (hs : Unmarked s) : Unmarked (newRoot s) := by
  let item0 : Item := ⟨s.coverr0, s.blkno0 * blockSz, false⟩
  let item1 : Item := ⟨s.coverr1, s.blkno1 * blockSz, false⟩
  have hclear := (hs.buffer.update 0 (show item0.del = false from rfl)).update 1
    (show item1.del = false from rfl)
  exact (hs.setBuffer hclear).writeBlk 1 hclear

theorem insertTwo (hn : Clear n.items) (s : State) (i : Nat) : Clear (insertTwo s n i).items := by
  have hmoved : Clear fun j => if i + 2 ≤ j ∧ j ≤ n.counter then n.items (j - 1) else n.items j := by
    intro j
    dsimp only
    split
    · exact hn (j - 1)
    · exact hn j
  refine (hmoved.update i ?_).update (i + 1) ?_
  · exact hmoved i
  · exact hmoved (i + 1)

section

variable (hs : Unmarked s)
include hs

theorem splitParent {p i : Nat} (h : splitParent s p i = .ok s') :
    Unmarked s' := by
  obtain ⟨s₁, hup, h⟩ := bind_eq_ok h
  obtain ⟨n, hn, hup⟩ := bind_eq_ok hup
  cases hup
  refine splitNode (hs.writeBlk p ?_) h
  exact (hs.index p n hn).update i (hs.index p n hn i)

theorem adjustTreeWithSplit (h : adjustTreeWithSplit s cur anc = .ok s') :
    Unmarked s' := by
  induction anc generalizing s cur s' with
  | nil =>
    unfold RTree.adjustTreeWithSplit at h
    split at h
    · cases h
      exact hs.newRoot
    · cases h
  | cons p anc ih =>
    unfold RTree.adjustTreeWithSplit at h
    split at h
    · cases h
      exact hs.newRoot
    · next hcur =>
      obtain ⟨s₁, hread, h⟩ := bind_eq_ok h
      have hs₁ := hs.readBlk hread
      split at h
      · cases h
      · next i _ =>
        split at h
        · obtain ⟨s₂, hsplit, h⟩ := bind_eq_ok h
          obtain ⟨s₃, hup, h⟩ := bind_eq_ok h
          exact (ih (hs₁.splitParent hsplit) hup).freeBlock hcur h
        · obtain ⟨s₂, hup, h⟩ := bind_eq_ok h
          have hclear := insertTwo hs₁.buffer s₁ i
          have hs₂ := ((hs₁.setBuffer hclear).writeBlk p hclear).adjustTreeWithoutSplit hup
          exact hs₂.freeBlock hcur h

theorem rewriteBlk {change : State → Node → Node} (h : rewriteBlk change s ptr = .ok s')
    (hsame : ∀ s n, (change s n).items = n.items) :
    Unmarked s' := by
  unfold RTree.rewriteBlk at h
  split at h
  · obtain ⟨s₁, hread, h⟩ := bind_eq_ok h
    have hs₁ := hs.readBlkByPtr hread
    have hclear : Clear (change s₁ s₁.buffer).items := by
      rw [hsame]
      exact hs₁.buffer
    exact writeBlkByPtr (hs₁.setBuffer hclear) hclear h
  · cases h
    exact hs

theorem relinkPrev (h : relinkPrev s ptr = .ok s') :
    Unmarked s' := by
  rw [relinkPrev_eq] at h
  exact hs.rewriteBlk h fun _ _ => rfl

theorem relinkNext (h : relinkNext s ptr = .ok s') :
    Unmarked s' := by
  rw [relinkNext_eq] at h
  exact hs.rewriteBlk h fun _ _ => rfl

theorem chooseLeafLoop {fuel res b : Nat} {anc' : List Nat}
    (h : chooseLeafLoop mbr fuel s res anc = .ok (s', b, anc')) : Unmarked s' := by
  induction fuel generalizing s res anc with
  | zero => cases h
  | succ fuel ih =>
    rw [RTree.chooseLeafLoop] at h
    split at h
    · cases h
      exact hs
    · split at h
      · cases h
      · obtain ⟨s₁, hread, h⟩ := bind_eq_ok h
        exact ih (hs.readBlkByPtr hread) h

theorem destLeaf (h : destLeaf s mbr = .ok (s', b, anc)) : Unmarked s' := by
  unfold RTree.destLeaf at h
  split at h
  · cases h
    let item : Item := { s.buffer.items 0 with del := false }
    have hclear := hs.buffer.update 0 (show item.del = false from rfl)
    exact ⟨hs.index, hclear, hs.itembuf, hs.split0, hs.split1⟩
  · obtain ⟨⟨s₂, b', anc'⟩, hchoose, h⟩ := bind_eq_ok h
    obtain ⟨s₁, hroot, hchoose⟩ := bind_eq_ok hchoose
    obtain ⟨s₃, hread, h⟩ := bind_eq_ok h
    cases h
    exact ((hs.readBlkByPtr hroot).chooseLeafLoop hchoose).readBlk hread

theorem insertRtreeAux {tplno : Nat} (h : insertRtreeAux s mbr tplno = .ok s') :
    Unmarked s' := by
  obtain ⟨⟨s₁, b, anc⟩, hdest, h⟩ := bind_eq_ok h
  have hs₁ := hs.destLeaf hdest
  dsimp only at h
  split at h
  · obtain ⟨s₂, hsplit, h⟩ := bind_eq_ok h
    obtain ⟨s₃, hprev, h⟩ := bind_eq_ok h
    obtain ⟨s₄, hnext, h⟩ := bind_eq_ok h
    have hs₂ := hs₁.splitNode hsplit
    refine adjustTreeWithSplit ((relinkPrev ?_ hprev).relinkNext hnext) h
    split
    · exact ⟨hs₂.index, hs₂.buffer, hs₂.itembuf, hs₂.split0, hs₂.split1⟩
    · exact hs₂
  · let item : Item := { s₁.buffer.items s₁.buffer.counter with rect := mbr, ptr := tplno }
    have hclear := hs₁.buffer.update s₁.buffer.counter
      (show item.del = false from hs₁.buffer _)
    refine adjustTreeWithoutSplit (writeBlk (setBuffer hs₁ ?_) b ?_) h
    · exact hclear
    · exact hclear

end

end Unmarked

theorem Subtree.entry_mem (ht : Subtree index h b es t) {it : Item} (hit : it ∈ t.2.2) :
    ∃ c n, index c = .node n ∧ it ∈ n.entries := by
  induction h generalizing b es t with
  | zero =>
    obtain ⟨⟨n, hn, -, rfl⟩, -, rfl⟩ := ht
    exact ⟨b, n, hn, hit⟩
  | succ h ih =>
    obtain ⟨-, -, -, t', hparts, rfl⟩ := ht
    rw [Prod.snd_add, Prod.snd_add, zero_add] at hit
    obtain ⟨key, -, u, v, ⟨c, ces, -, -, -, -, hc⟩, hu, -⟩ :=
      hparts.of_sum (R := fun t => it ∈ t.2.2) hit (Multiset.notMem_zero it)
        fun u v => Multiset.mem_add.mp
    exact ih hc hu

theorem Unmarked.entries (hs : Unmarked s) (ht : IsTree s h t) {it : Item} (hit : it ∈ t.2.2) :
    it.del = false := by
  obtain ⟨es, hroot⟩ := ht.tree
  obtain ⟨b, n, hn, hmem⟩ := hroot.entry_mem hit
  obtain ⟨i, -, rfl⟩ := List.mem_map.mp hmem
  exact hs.index b n (by rw [peekBlk, hn]) i

theorem Unmarked.initRtree (hs : Unmarked s) : Unmarked (initRtree s) :=
  ⟨hs.index, hs.buffer, hs.itembuf, hs.split0, hs.split1⟩

theorem Unmarked.insertAll {s' : State} {ops : List (Rect × Nat)} (hs : Unmarked s)
    (h : insertAll s ops = .ok s') : Unmarked s' :=
  foldlM_ok_inv (fun _ _ _ hs h => Unmarked.insertRtreeAux hs h) hs h

/-- In a tree made by insertions `rtree_get_one` finds an entry exactly if one was inserted with the
rectangle, and one that was. So does `rtree_get`, when the tuple numbers are those of records. -/
theorem rtreeGet_inserted (s : State) (hs : Unmarked s) (op : Rect × Nat) (ops : List (Rect × Nat))
    (mbr : Rect) :
    ∃ s' out, insertAll (initRtree s) (op :: ops) = .ok s' ∧
      Returns (fun fuel => rtreeGetOne s' mbr fuel 1) (.ok out) ∧
      (out.blk ≠ 0 ↔ ∃ n, (mbr, n) ∈ op :: ops) ∧ (out.blk ≠ 0 → (mbr, out.tpl) ∈ op :: ops) ∧
      ∀ (δ : Type) (tupleGet : Nat → Option δ),
        (∀ o ∈ op :: ops, o.2 ≠ uintMax ∧ (tupleGet o.2).isSome = true) →
        ∃ res, Returns (rtreeGet s' tupleGet mbr) (.ok res) ∧
          ((∃ x, res = .found x) ↔ ∃ n, (mbr, n) ∈ op :: ops) ∧
          (∀ x, res = .found x → ∃ n, (mbr, n) ∈ op :: ops ∧ tupleGet n = some x) ∧
          ((¬∃ n, (mbr, n) ∈ op :: ops) → res = .notFound) := by
  obtain ⟨s', items, hrun, hs', hitems⟩ := insertAll_wellFormed s (op :: ops)
  obtain ⟨-, rfl⟩ | ⟨h, t, ht, rfl⟩ := hs'
  · exact absurd hitems.symm (Multiset.cons_ne_zero (m := (ops : Multiset (Rect × Nat))))
  have hclear := hs.initRtree.insertAll hrun
  obtain ⟨out, hright, hget⟩ := ht.getOne mbr
  have hmem : ∀ n, (mbr, n) ∈ op :: ops ↔ ∃ it ∈ t.2.2, it.rect = mbr ∧ it.ptr = n := by
    intro n
    rw [← Multiset.mem_coe, ← hitems, Multiset.mem_map]
    simp [Item.key]
  have hfound : out.blk ≠ 0 → (mbr, out.tpl) ∈ op :: ops := by
    intro hblk
    rcases hright with ⟨h0, -⟩ | ⟨-, it, hit, hr, -, htpl⟩
    · exact absurd h0 hblk
    · exact (hmem out.tpl).mpr ⟨it, hit, hr, htpl.symm⟩
  have hnone : out.blk = 0 → out.tpl = uintMax ∧ ¬∃ n, (mbr, n) ∈ op :: ops := by
    intro hblk
    rcases hright with ⟨-, -, htpl, hall⟩ | ⟨h0, -⟩
    · refine ⟨htpl, ?_⟩
      rintro ⟨n, hn⟩
      obtain ⟨it, hit, hr, -⟩ := (hmem n).mp hn
      have hdel := hall it hit hr
      rw [hclear.entries ht hit] at hdel
      cases hdel
    · exact absurd hblk h0
  refine ⟨s', out, hrun, hget, ⟨fun hblk => ⟨_, hfound hblk⟩, fun hn hblk => (hnone hblk).2 hn⟩,
    hfound, fun δ tupleGet hrec => ?_⟩
  obtain ⟨enough, hget⟩ := hget
  by_cases hblk : out.blk = 0
  · obtain ⟨htpl, hno⟩ := hnone hblk
    refine ⟨.notFound, ⟨enough, fun fuel hfuel => ?_⟩, ?_, fun x hx => ?_, fun _ => rfl⟩
    · have hout : rtreeGetOne s' mbr fuel 1 = some (.ok out) := hget fuel hfuel
      simp [rtreeGet, hout, htpl]
    · constructor
      · rintro ⟨x, hx⟩
        cases hx
      · exact fun hn => absurd hn hno
    · cases hx
  · have hmem' := hfound hblk
    obtain ⟨htpl, hx⟩ := hrec _ hmem'
    obtain ⟨x, hx⟩ := Option.isSome_iff_exists.mp hx
    refine ⟨.found x, ⟨enough, fun fuel hfuel => ?_⟩, ?_, fun y hy => ?_, fun hn => ?_⟩
    · have hout : rtreeGetOne s' mbr fuel 1 = some (.ok out) := hget fuel hfuel
      simp [rtreeGet, hout, htpl, hx]
    · exact ⟨fun _ => ⟨_, hmem'⟩, fun _ => ⟨x, rfl⟩⟩
    · cases hy
      exact ⟨_, hmem', hx⟩
    · exact absurd ⟨_, hmem'⟩ hn

def startState : State where
  fbInd := 1
  tbInd := 1
  lptr := blockSz
  m := 2
  index := fun _ => .absent
  buffer := zeroNode
  itembuf := fun _ => ⟨⟨0, 0, 0, 0⟩, 0, false⟩
  split0 := zeroNode
  split1 := zeroNode
  blkno0 := 0
  blkno1 := 0
  coverr0 := ⟨0, 0, 0, 0⟩
  coverr1 := ⟨0, 0, 0, 0⟩

theorem startState_unmarked : Unmarked startState := by
  refine ⟨fun b n h => ?_, fun _ => rfl, fun _ => rfl, fun _ => rfl, fun _ => rfl⟩
  simp [peekBlk, startState] at h

theorem rtreeGet_inserted_point :
    ∃ s' out, insertAll (initRtree startState) [(⟨1, 1, 1, 1⟩, 7)] = .ok s' ∧
      Returns (fun fuel => rtreeGetOne s' ⟨1, 1, 1, 1⟩ fuel 1) (.ok out) ∧
      (out.blk ≠ 0 ↔ ∃ n, (⟨1, 1, 1, 1⟩, n) ∈ [((⟨1, 1, 1, 1⟩ : Rect), 7)]) ∧
      (out.blk ≠ 0 → (⟨1, 1, 1, 1⟩, out.tpl) ∈ [((⟨1, 1, 1, 1⟩ : Rect), 7)]) ∧
      ∀ (δ : Type) (tupleGet : Nat → Option δ),
        (∀ o ∈ [((⟨1, 1, 1, 1⟩ : Rect), 7)], o.2 ≠ uintMax ∧ (tupleGet o.2).isSome = true) →
        ∃ res, Returns (rtreeGet s' tupleGet ⟨1, 1, 1, 1⟩) (.ok res) ∧
          ((∃ x, res = .found x) ↔ ∃ n, (⟨1, 1, 1, 1⟩, n) ∈ [((⟨1, 1, 1, 1⟩ : Rect), 7)]) ∧
          (∀ x, res = .found x →
            ∃ n, (⟨1, 1, 1, 1⟩, n) ∈ [((⟨1, 1, 1, 1⟩ : Rect), 7)] ∧ tupleGet n = some x) ∧
          ((¬∃ n, (⟨1, 1, 1, 1⟩, n) ∈ [((⟨1, 1, 1, 1⟩ : Rect), 7)]) → res = .notFound) :=
  rtreeGet_inserted startState startState_unmarked (⟨1, 1, 1, 1⟩, 7) [] ⟨1, 1, 1, 1⟩

end StreamMill.RTree
