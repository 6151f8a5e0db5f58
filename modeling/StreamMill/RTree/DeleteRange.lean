import StreamMill.RTree.Cursor

/-!
# StreamMill.RTree.DeleteRange

`delete_rtree`: mark every entry whose rectangle is contained in `mbr`. The search writes each match
over the rectangle it searches with, so that the next match must be contained in the last one:
`narrowing` is what the loop marks. `deletesRange_iff`: it marks the entries it should exactly if
the tree is not empty and each of them, in the order of the search, contains the ones after it.
-/

namespace StreamMill.RTree

open Lib

def Node.setDel (n : Node) (i : Nat) : Node :=
  { n with items := Function.update n.items i { n.items i with del := true } }

/-- `SET_DEL(item, 1)` for item `i` of a block in a buffer. -/
def Page.setDel (p : Page) (i : Nat) : Page :=
  match p with
  | .absent => .absent
  | .node n => .node (n.setDel i)
  | .free next n => .free next (n.setDel i)

/-- `write_blk_by_ptr` from a buffer of the caller. -/
def writePageByPtr (s : State) (ptr : Nat) (p : Page) : Except Err State :=
  if ptr % blockSz = 0 then .ok { s with index := Function.update s.index (ptr / blockSz) p }
  else .error .readBlk

/-- `n'` is `n` with the deletion bytes of the items `P` set. -/
structure NodeMarks (P : Nat → Prop) (n n' : Node) : Prop where
  nodetype : n'.nodetype = n.nodetype
  counter : n'.counter = n.counter
  nextlptr : n'.nextlptr = n.nextlptr
  prevlptr : n'.prevlptr = n.prevlptr
  key : ∀ i, (n'.items i).key = (n.items i).key
  del : ∀ i, (n'.items i).del = true ↔ (n.items i).del = true ∨ P i

def PageMarks (P : Nat → Prop) : Page → Page → Prop
  | .absent, p => p = .absent
  | .node n, p => ∃ n', p = .node n' ∧ NodeMarks P n n'
  | .free next n, p => ∃ n', p = .free next n' ∧ NodeMarks P n n'

/-- `s'` is `s` with the deletion bytes of the items `P b i` of the blocks `b` set: nothing else in
the file has changed, and nothing in memory. -/
structure MarksOf (P : Nat → Nat → Prop) (s s' : State) : Prop where
  rest : s' = { s with index := s'.index }
  index : ∀ b, PageMarks (P b) (s.index b) (s'.index b)

section Marks

variable {P Q : Nat → Prop} {n n' n'' : Node} {p p' p'' : Page}

theorem NodeMarks.refl (h : ∀ i, ¬P i) (n : Node) : NodeMarks P n n :=
  ⟨rfl, rfl, rfl, rfl, fun _ => rfl, fun i => (or_iff_left (h i)).symm⟩

theorem NodeMarks.trans {R : Nat → Prop} (h : NodeMarks P n n') (h' : NodeMarks Q n' n'')
    (hR : ∀ i, R i ↔ P i ∨ Q i) : NodeMarks R n n'' where
  nodetype := h'.nodetype.trans h.nodetype
  counter := h'.counter.trans h.counter
  nextlptr := h'.nextlptr.trans h.nextlptr
  prevlptr := h'.prevlptr.trans h.prevlptr
  key i := (h'.key i).trans (h.key i)
  del i := by rw [h'.del, h.del, hR, or_assoc]

theorem NodeMarks.setDel (n : Node) (j : Nat) : NodeMarks (· = j) n (n.setDel j) := by
  refine ⟨rfl, rfl, rfl, rfl, fun i => ?_, fun i => ?_⟩
  · rcases eq_or_ne i j with rfl | hij
    · simp [Node.setDel, Item.key]
    · simp [Node.setDel, Function.update_of_ne hij]
  · rcases eq_or_ne i j with rfl | hij
    · simp [Node.setDel]
    · simp [Node.setDel, hij]

theorem PageMarks.refl (h : ∀ i, ¬P i) (p : Page) : PageMarks P p p := by
  cases p with
  | absent => rfl
  | node n => exact ⟨n, rfl, .refl h n⟩
  | free next n => exact ⟨n, rfl, .refl h n⟩

theorem PageMarks.trans {R : Nat → Prop} (h : PageMarks P p p') (h' : PageMarks Q p' p'')
    (hR : ∀ i, R i ↔ P i ∨ Q i) : PageMarks R p p'' := by
  cases p with
  | absent =>
    obtain rfl : p' = .absent := h
    exact h'
  | node n =>
    obtain ⟨n', rfl, h⟩ := h
    obtain ⟨n'', rfl, h'⟩ := h'
    exact ⟨n'', rfl, h.trans h' hR⟩
  | free next n =>
    obtain ⟨n', rfl, h⟩ := h
    obtain ⟨n'', rfl, h'⟩ := h'
    exact ⟨n'', rfl, h.trans h' hR⟩

theorem PageMarks.setDel (p : Page) (j : Nat) : PageMarks (· = j) p (p.setDel j) := by
  cases p with
  | absent => rfl
  | node n => exact ⟨_, rfl, .setDel n j⟩
  | free next n => exact ⟨_, rfl, .setDel n j⟩

end Marks

section MarksOf

variable {P Q : Nat → Nat → Prop} {s s' s'' : State}

theorem MarksOf.refl (h : ∀ b i, ¬P b i) (s : State) : MarksOf P s s :=
  ⟨rfl, fun b => .refl (h b) _⟩

theorem MarksOf.trans {R : Nat → Nat → Prop} (h : MarksOf P s s') (h' : MarksOf Q s' s'')
    (hR : ∀ b i, R b i ↔ P b i ∨ Q b i) : MarksOf R s s'' where
  rest := by
    rw [h'.rest, h.rest]
  index b := (h.index b).trans (h'.index b) (hR b)

theorem MarksOf.congr (h : MarksOf P s s') (hPQ : ∀ b i, P b i ↔ Q b i) : MarksOf Q s s' := by
  obtain rfl : P = Q := funext fun b => funext fun i => propext (hPQ b i)
  exact h

theorem MarksOf.setDel {b j : Nat} {p : Page} (hp : s.index b = p) :
    MarksOf (fun c i => c = b ∧ i = j) s
      { s with index := Function.update s.index b (p.setDel j) } := by
  refine ⟨rfl, fun c => ?_⟩
  show PageMarks _ (s.index c) (Function.update s.index b (p.setDel j) c)
  rcases eq_or_ne c b with rfl | hc
  · rw [Function.update_self, hp]
    have hP : (fun i => c = c ∧ i = j) = (· = j) := funext fun i => propext (and_iff_right rfl)
    rw [hP]
    exact .setDel p j
  · rw [Function.update_of_ne hc]
    exact .refl (fun i hi => hc hi.1) _

theorem MarksOf.iff (h : MarksOf P s s') (h' : MarksOf Q s s') {b i : Nat} {n : Node}
    (hn : s.index b = .node n) (hdel : (n.items i).del = false) : P b i ↔ Q b i := by
  have hp := h.index b
  have hq := h'.index b
  rw [hn] at hp hq
  obtain ⟨n', hn', hp⟩ := hp
  obtain ⟨n'', hn'', hq⟩ := hq
  rw [hn'] at hn''
  cases hn''
  have hiff := (hp.del i).symm.trans (hq.del i)
  simpa [hdel] using hiff

end MarksOf

def deleteLoop : Nat → State → List Frame → Rect → Page → Option (Except Err State)
  | 0, _, _, _, _ => none
  | fuel + 1, s, dfsStack, mbr, buffer =>
    match rtreeDfs s .containment fuel dfsStack mbr buffer with
    | none => none
    | some (.error e) => some (.error e)
    | some (.ok out) =>
      match out.curtpl, out.stack with
      | some _, cbt :: _ =>
        let buffer := out.temp.setDel (cbt.ent - 1)
        match writePageByPtr s cbt.blkptr buffer with
        | .error e => some (.error e)
        | .ok s => deleteLoop fuel s out.stack out.mbr buffer
      | _, _ => some (.ok s)

/-- `delete_rtree`. The local buffer is read into before it is used. -/
def deleteRtree (s : State) (fuel : Nat) (mbr : Rect) : Option (Except Err State) :=
  deleteLoop fuel s [⟨blockSz, 0⟩] mbr .absent

/-- The entries to mark: in the tree, not deleted and contained in `mbr`. -/
def InRange (s : State) (mbr : Rect) (b i : Nat) : Prop :=
  ∃ e, LeafEntry s e ∧ e.blkptr = blkPtr b ∧ e.ent = i ∧ Matches .containment mbr e.item

/-- `delete_rtree` returns and has marked the entries in the range, and nothing else is changed. -/
def DeletesRange (s : State) (mbr : Rect) : Prop :=
  ∃ s', Returns (fun fuel => deleteRtree s fuel mbr) (.ok s') ∧ MarksOf (InRange s mbr) s s'

/-- What the loop marks of the entries before it: the rectangle becomes that of the last match. -/
def narrowing : Rect → List Entry → List Entry
  | _, [] => []
  | mbr, e :: es =>
    if wanted .containment mbr e.item then e :: narrowing e.item.rect es else narrowing mbr es

section Narrowing

variable {mbr : Rect} {es : List Entry}

theorem narrowing_skip {skipped : List Entry}
    (hskip : ∀ e ∈ skipped, wanted .containment mbr e.item = false) :
    narrowing mbr (skipped ++ es) = narrowing mbr es := by
  induction skipped with
  | nil => rfl
  | cons x skipped ih =>
    rw [List.forall_mem_cons] at hskip
    rw [List.cons_append, narrowing, if_neg (by simp [hskip.1]), ih hskip.2]

theorem wanted_mono {mbr' : Rect} {item : Item} (h : wanted .containment mbr' item = true)
    (hc : Covers mbr mbr') : wanted .containment mbr item = true := by
  rw [wanted_iff] at h ⊢
  exact ⟨h.1, hc.trans h.2⟩

theorem narrowing_sublist (mbr : Rect) (es : List Entry) :
    (narrowing mbr es).Sublist (es.filter fun e => wanted .containment mbr e.item) := by
  induction es generalizing mbr with
  | nil => exact .slnil
  | cons e es ih =>
    cases hw : wanted .containment mbr e.item with
    | false =>
      rw [narrowing, if_neg (by simp [hw]), List.filter_cons_of_neg (by simp [hw])]
      exact ih mbr
    | true =>
      rw [narrowing, if_pos hw, List.filter_cons, if_pos hw]
      refine .cons_cons e ((ih e.item.rect).trans (List.monotone_filter_right es fun e' h => ?_))
      exact wanted_mono h (wanted_iff.mp hw).2

/-- The loop finds all of them exactly if each contains the ones after it. -/
theorem narrowing_eq_iff (mbr : Rect) (es : List Entry) :
    narrowing mbr es = es.filter (fun e => wanted .containment mbr e.item) ↔
      (es.filter fun e => wanted .containment mbr e.item).Pairwise
        fun e e' => Covers e.item.rect e'.item.rect := by
  induction es generalizing mbr with
  | nil => simp [narrowing]
  | cons e es ih =>
    cases hw : wanted .containment mbr e.item with
    | false =>
      rw [narrowing, if_neg (by simp [hw]), List.filter_cons_of_neg (by simp [hw])]
      exact ih mbr
    | true =>
      have hcov := (wanted_iff.mp hw).2
      rw [narrowing, if_pos hw, List.filter_cons, if_pos hw, List.cons.injEq, List.pairwise_cons]
      -- with either side, the matches after `e` are those contained in `e`
      have hsame : (∀ e' ∈ es.filter (fun e => wanted .containment mbr e.item),
            Covers e.item.rect e'.item.rect) →
          es.filter (fun e' => wanted .containment e.item.rect e'.item) =
            es.filter fun e' => wanted .containment mbr e'.item := by
        intro hall
        refine List.filter_congr fun e' he' => Bool.eq_iff_iff.mpr ⟨fun h => ?_, fun h => ?_⟩
        · exact wanted_mono h hcov
        · have hmem : e' ∈ es.filter fun e => wanted .containment mbr e.item :=
            List.mem_filter.mpr ⟨he', h⟩
          exact wanted_iff.mpr ⟨(wanted_iff.mp h).1, hall e' hmem⟩
      constructor
      · rintro ⟨-, heq⟩
        have hall : ∀ e' ∈ es.filter (fun e => wanted .containment mbr e.item),
            Covers e.item.rect e'.item.rect := by
          intro e' he'
          rw [← heq] at he'
          have hmem := (narrowing_sublist _ _).subset he'
          exact (wanted_iff.mp (List.mem_filter.mp hmem).2).2
        rw [← hsame hall] at heq ⊢
        exact ⟨fun e' he' => (wanted_iff.mp (List.mem_filter.mp he').2).2, (ih _).mp heq⟩
      · rintro ⟨hall, hpw⟩
        rw [← hsame hall] at hpw ⊢
        exact ⟨rfl, (ih _).mpr hpw⟩

end Narrowing

theorem Page.setDel_isLeaf (p : Page) (j : Nat) : (p.setDel j).isLeaf = p.isLeaf := by
  cases p <;> rfl

theorem Page.setDel_counter (p : Page) (j : Nat) : (p.setDel j).counter = p.counter := by
  cases p <;> rfl

theorem Page.setDel_item {p : Page} (hp : p ≠ .absent) (i j : Nat) :
    (p.setDel j).item i = if i = j then { p.item i with del := true } else p.item i := by
  have hnode : ∀ n : Node, (n.setDel j).items i =
      if i = j then { n.items i with del := true } else n.items i := by
    rcases eq_or_ne i j with rfl | hij
    · simp [Node.setDel]
    · simp [Node.setDel, hij]
  cases p with
  | absent => exact absurd rfl hp
  | node n => exact hnode n
  | free next n => exact hnode n

variable {s : State} {stack : List Frame} {es : List Entry}

theorem blkPtr_div {ptr : Nat} (hal : ptr % blockSz = 0) : ptr = blkPtr (ptr / blockSz) :=
  (Nat.div_mul_cancel (Nat.dvd_of_mod_eq_zero hal)).symm

theorem peekBlkByPtr_ok {ptr : Nat} {p : Page} (h : peekBlkByPtr s ptr = .ok p) :
    ptr = blkPtr (ptr / blockSz) ∧ s.index (ptr / blockSz) = p ∧ p ≠ .absent := by
  unfold peekBlkByPtr at h
  split at h
  · next hal =>
    split at h
    · cases h
    · next hne =>
      cases h
      exact ⟨blkPtr_div hal, rfl, hne⟩
  · cases h

theorem peekBlkByPtr_page {b : Nat} {p : Page} (hidx : s.index b = p) (hne : p ≠ .absent) :
    peekBlkByPtr s (blkPtr b) = .ok p := by
  rw [peekBlkByPtr, blkPtr, if_pos (Nat.mul_mod_left b blockSz),
    Nat.mul_div_cancel b blockSz_pos, hidx]
  cases p with
  | absent => exact absurd rfl hne
  | node n => rfl
  | free next n => rfl

/-- The file after item `j` of block `b` is marked. -/
def markItem (s : State) (b j : Nat) : State :=
  { s with index := Function.update s.index b ((s.index b).setDel j) }

theorem peekBlkByPtr_markItem {ptr b : Nat} {p : Page} (j : Nat)
    (h : peekBlkByPtr s ptr = .ok p) :
    peekBlkByPtr (markItem s b j) ptr = .ok (if ptr = blkPtr b then p.setDel j else p) := by
  obtain ⟨hptr, hidx, hne⟩ := peekBlkByPtr_ok h
  rw [hptr]
  by_cases hb : ptr / blockSz = b
  · subst hb
    rw [if_pos rfl]
    refine peekBlkByPtr_page ?_ ?_
    · show Function.update s.index _ _ _ = _
      rw [Function.update_self, hidx]
    · cases p with
      | absent => exact absurd rfl hne
      | node n => simp [Page.setDel]
      | free next n => simp [Page.setDel]
  · rw [if_neg fun h => hb (blkPtr_inj h)]
    refine peekBlkByPtr_page ?_ hne
    show Function.update s.index _ _ _ = _
    rw [Function.update_of_ne hb, hidx]

def Entry.mark (ptr j : Nat) (e : Entry) : Entry :=
  if e.blkptr = ptr ∧ e.ent = j then { e with item := { e.item with del := true } } else e

theorem Pending.markItem (h : Pending s stack es) (b j : Nat) :
    Pending (markItem s b j) stack (es.map (Entry.mark (blkPtr b) j)) := by
  induction h with
  | nil => exact .nil
  | @last f stack p es hp hlast _ ih =>
    refine .last (peekBlkByPtr_markItem j hp) ?_ ih
    split
    · rwa [Page.setDel_counter]
    · exact hlast
  | @entry f stack p es hp hlt hleaf _ ih =>
    have hread := peekBlkByPtr_markItem (b := b) j hp
    have hne := (peekBlkByPtr_ok hp).2.2
    by_cases hb : f.blkptr = blkPtr b
    · rw [if_pos hb] at hread
      have hent := Pending.entry hread (by rwa [Page.setDel_counter])
        (by rwa [Page.setDel_isLeaf]) ih
      rw [Page.setDel_item hne] at hent
      rw [List.map_cons, Entry.mark]
      by_cases hj : f.ent = j
      · rw [if_pos hj] at hent
        rw [if_pos ⟨hb, hj⟩]
        exact hent
      · rw [if_neg hj] at hent
        rw [if_neg fun h => hj h.2]
        exact hent
    · rw [if_neg hb] at hread
      rw [List.map_cons, Entry.mark, if_neg fun h => hb h.1]
      exact .entry hread hlt hleaf ih
  | @child f stack p es hp hlt hleaf _ ih =>
    have hread := peekBlkByPtr_markItem (b := b) j hp
    have hne := (peekBlkByPtr_ok hp).2.2
    by_cases hb : f.blkptr = blkPtr b
    · rw [if_pos hb] at hread
      refine .child hread (by rwa [Page.setDel_counter]) (by rwa [Page.setDel_isLeaf]) ?_
      have hptr : ((p.setDel j).item f.ent).ptr = (p.item f.ent).ptr := by
        rw [Page.setDel_item hne]
        split <;> rfl
      rw [hptr]
      exact ih
    · rw [if_neg hb] at hread
      exact .child hread hlt hleaf ih

def Entry.pos (e : Entry) : Nat × Nat := (e.blkptr, e.ent)

theorem map_mark_eq {e : Entry} (h : e.pos ∉ es.map Entry.pos) :
    es.map (Entry.mark e.blkptr e.ent) = es := by
  conv_rhs => rw [← List.map_id es]
  refine List.map_congr_left fun x hx => ?_
  rw [Entry.mark, if_neg, id]
  rintro ⟨hblk, hent⟩
  exact h (List.mem_map.mpr ⟨x, hx, Prod.ext hblk hent⟩)

theorem writePageByPtr_blkPtr (b : Nat) (p : Page) :
    writePageByPtr s (blkPtr b) p = .ok { s with index := Function.update s.index b p } := by
  rw [writePageByPtr, blkPtr, if_pos (Nat.mul_mod_left b blockSz),
    Nat.mul_div_cancel b blockSz_pos]

theorem deleteLoop_returns (mbr : Rect) (h : Pending s stack es)
    (hnd : (es.map Entry.pos).Nodup) (buffer : Page) :
    ∃ s', Returns (fun fuel => deleteLoop fuel s stack mbr buffer) (.ok s') ∧
      MarksOf (fun b i => ∃ e ∈ narrowing mbr es, e.blkptr = blkPtr b ∧ e.ent = i) s s' := by
  generalize hlen : es.length = len
  induction len using Nat.strong_induction_on generalizing s stack es mbr buffer with
  | _ len ih =>
    cases hw : es.filter fun e => wanted .containment mbr e.item with
    | nil =>
      obtain ⟨temp, n, hn⟩ := dfs_notFound h (by simpa using hw) buffer
      refine ⟨s, ⟨n + 1, fun fuel hfuel => ?_⟩, .refl ?_ s⟩
      · obtain ⟨k, rfl⟩ : ∃ k, fuel = k + 1 := ⟨fuel - 1, by omega⟩
        have hdfs := hn k (by omega)
        simp [deleteLoop, hdfs]
      · rintro b i ⟨e, he, -⟩
        have hmem := (narrowing_sublist mbr es).subset he
        rw [hw] at hmem
        cases hmem
    | cons e ws =>
      obtain ⟨skipped, rest, rfl, hskip, he, -⟩ := List.filter_eq_cons_iff.mp hw
      have hskip' : ∀ x ∈ skipped, wanted .containment mbr x.item = false := by simpa using hskip
      obtain ⟨stack', p, ⟨n, hn⟩, hpend, hat⟩ := dfs_found h rfl hskip' he buffer
      obtain ⟨hptr, hidx, hne⟩ := peekBlkByPtr_ok hat.read
      -- the rest is as it was in the marked file
      rw [List.map_append, List.map_cons, List.nodup_append, List.nodup_cons] at hnd
      have hpend' := hpend.markItem (e.blkptr / blockSz) e.ent
      rw [← hptr, map_mark_eq hnd.2.1.1] at hpend'
      simp only [List.length_append, List.length_cons] at hlen
      obtain ⟨s', ⟨m, hm⟩, hmarks⟩ := ih rest.length (by omega) e.item.rect hpend'
        hnd.2.1.2 (p.setDel e.ent) rfl
      refine ⟨s', ⟨n + m + 1, fun fuel hfuel => ?_⟩, ?_⟩
      · obtain ⟨k, rfl⟩ : ∃ k, fuel = k + 1 := ⟨fuel - 1, by omega⟩
        have hdfs := hn k (by omega)
        have hrun := hm k (by omega)
        have hwrite : writePageByPtr s e.blkptr (p.setDel e.ent) =
            .ok (markItem s (e.blkptr / blockSz) e.ent) := by
          rw [hptr, writePageByPtr_blkPtr, markItem, ← hptr, hidx]
        simp only [deleteLoop, hdfs, Nat.add_sub_cancel, hwrite]
        exact hrun
      · rw [narrowing_skip hskip', narrowing, if_pos he]
        refine (MarksOf.setDel rfl).trans hmarks fun b i => ?_
        rw [List.exists_mem_cons_iff]
        refine or_congr_left ⟨?_, ?_⟩
        · rintro ⟨hblk, rfl⟩
          refine ⟨?_, rfl⟩
          exact (Nat.div_eq_of_eq_mul_left blockSz_pos hblk).symm
        · rintro ⟨rfl, rfl⟩
          exact ⟨hptr, rfl⟩

theorem LeafEntry.node {e : Entry} (h : LeafEntry s e) :
    ∃ b n, e.blkptr = blkPtr b ∧ s.index b = .node n ∧ n.items e.ent = e.item := by
  obtain ⟨_, _, -, b, -, he⟩ := h
  unfold leafEntries at he
  split at he
  · next n hn =>
    obtain ⟨i, -, rfl⟩ := List.mem_map.mp he
    exact ⟨b, n, rfl, hn, rfl⟩
  · cases he

theorem LeafEntry.eq_of_pos {e e' : Entry} (h : LeafEntry s e) (h' : LeafEntry s e')
    (hpos : e.pos = e'.pos) : e = e' := by
  obtain ⟨b, n, hb, hn, hi⟩ := h.node
  obtain ⟨b', n', hb', hn', hi'⟩ := h'.node
  obtain ⟨blkptr, ent, item⟩ := e
  obtain ⟨blkptr', ent', item'⟩ := e'
  simp only [Entry.pos, Prod.mk.injEq] at hpos hb hb' hi hi'
  obtain ⟨rfl, rfl⟩ := hpos
  obtain rfl := blkPtr_inj (hb.symm.trans hb')
  rw [hn] at hn'
  cases hn'
  rw [← hi, ← hi']

theorem IsTree.deletes {h : Nat} {t : Contents} (hs : IsTree s h t) (mbr : Rect) :
    ∃ ents s', Pending s [⟨blockSz, 0⟩] ents ∧ ents.Nodup ∧ (∀ e, e ∈ ents ↔ LeafEntry s e) ∧
      Returns (fun fuel => deleteRtree s fuel mbr) (.ok s') ∧
      MarksOf (fun b i => ∃ e ∈ narrowing mbr ents, e.blkptr = blkPtr b ∧ e.ent = i) s s' := by
  obtain ⟨ents, hnd, hmem, hlist⟩ := hs.lists
  have hpend : Pending s [⟨blockSz, 0⟩] ents := by simpa using hlist [] [] .nil
  have hpos : (ents.map Entry.pos).Nodup :=
    hnd.map_on fun e he e' he' h => ((hmem e).mp he).eq_of_pos ((hmem e').mp he') h
  obtain ⟨s', hrun, hmarks⟩ := deleteLoop_returns mbr hpend hpos .absent
  exact ⟨ents, s', hpend, hnd, hmem, hrun, hmarks⟩

/-- In the order of the search each entry of the range contains the ones after it. -/
def Nested (s : State) (mbr : Rect) : Prop :=
  ∃ ents, Pending s [⟨blockSz, 0⟩] ents ∧
    (ents.filter fun e => wanted .containment mbr e.item).Pairwise
      fun e e' => Covers e.item.rect e'.item.rect

theorem IsTree.deletesRange_nested {h : Nat} {t : Contents} (hs : IsTree s h t) (mbr : Rect) :
    DeletesRange s mbr ↔ Nested s mbr := by
  obtain ⟨ents, s', hpend, hnd, hmem, hrun, hmarks⟩ := hs.deletes mbr
  have hfilter : ∀ {b i}, (∃ e ∈ ents.filter fun e => wanted .containment mbr e.item,
      e.blkptr = blkPtr b ∧ e.ent = i) ↔ InRange s mbr b i := by
    simp only [List.mem_filter, hmem, wanted_iff]
    exact exists_congr fun e => by tauto
  constructor
  · rintro ⟨s'', hrun', hmarks'⟩
    have heq := hrun.unique hrun'
    cases heq
    refine ⟨ents, hpend, (narrowing_eq_iff mbr ents).mp ?_⟩
    refine (narrowing_sublist mbr ents).eq_of_length_le ?_
    refine ((hnd.filter _).subperm fun e he => ?_).length_le
    obtain ⟨he₁, he₂⟩ := List.mem_filter.mp he
    have hentry := (hmem e).mp he₁
    obtain ⟨b, n, hb, hn, hi⟩ := hentry.node
    have hdel : (n.items e.ent).del = false := hi ▸ (wanted_iff.mp he₂).1
    obtain ⟨e', he', hb', hi'⟩ := (hmarks.iff hmarks' hn hdel).mpr (hfilter.mp ⟨e, he, hb, rfl⟩)
    have he'mem := (List.mem_filter.mp ((narrowing_sublist mbr ents).subset he')).1
    have hpos : e'.pos = e.pos := Prod.ext (hb'.trans hb.symm) hi'
    rwa [← ((hmem e').mp he'mem).eq_of_pos hentry hpos]
  · rintro ⟨ents', hpend', hpw⟩
    obtain rfl := hpend.unique hpend'
    refine ⟨s', hrun, hmarks.congr fun b i => ?_⟩
    rw [(narrowing_eq_iff mbr ents).mpr hpw]
    exact hfilter

theorem not_deletesRange_of_empty (hroot : s.index 1 = .absent) (mbr : Rect) :
    ¬DeletesRange s mbr := by
  rintro ⟨s', ⟨n, hn⟩, -⟩
  have hrun := hn (n + 2) (by omega)
  have hread : peekBlkByPtr s blockSz = .error .readBlk := by
    have hdiv : blockSz / blockSz = 1 := rfl
    simp [peekBlkByPtr, hdiv, hroot]
  simp [deleteRtree, deleteLoop, rtreeDfs, hread] at hrun

/-- `delete_rtree` marks exactly the entries in the range if and only if the tree is not empty and
these are nested in the order of the search. -/
theorem deletesRange_iff {items : Multiset Item} (hs : Stored s items) (mbr : Rect) :
    DeletesRange s mbr ↔ ¬IsEmpty s ∧ Nested s mbr := by
  obtain ⟨⟨hempty, -⟩ | ⟨h, t, htree, -⟩, habsent⟩ := hs
  · constructor
    · exact fun hdel => absurd hdel (not_deletesRange_of_empty (habsent hempty) mbr)
    · exact fun hdel => absurd hempty hdel.1
  · rw [htree.deletesRange_nested, and_iff_right htree.not_isEmpty]

/-- The root of an R-tree of the points (0, 0) and (1, 1). -/
def diagonal : Node where
  nodetype := .leaf
  counter := 2
  nextlptr := 0
  prevlptr := 0
  items := fun i => ⟨⟨i, i, i, i⟩, i, false⟩

theorem diagonal_stored : Stored (leafRoot diagonal) (diagonal.entries : Multiset Item) := by
  refine ⟨leafRoot_wellFormed rfl (by decide) rfl rfl, ?_⟩
  rintro ⟨-, htb, -⟩
  cases htb

theorem deletesRange_iff_diagonal :
    DeletesRange (leafRoot diagonal) ⟨0, 0, 0, 0⟩ ↔
      ¬IsEmpty (leafRoot diagonal) ∧ Nested (leafRoot diagonal) ⟨0, 0, 0, 0⟩ :=
  deletesRange_iff diagonal_stored ⟨0, 0, 0, 0⟩

/-- Deleting the square around both points marks (0, 0) only. -/
theorem square_not_deletesRange :
    ∃ (s : State) (items : Multiset Item) (mbr : Rect), Stored s items ∧ ¬IsEmpty s ∧
      ¬DeletesRange s mbr := by
  obtain ⟨⟨he, -⟩ | ⟨h, t, htree, -⟩, -⟩ := diagonal_stored
  · exact absurd he.2.1 (by simp [leafRoot])
  refine ⟨leafRoot diagonal, diagonal.entries, ⟨0, 1, 1, 0⟩, diagonal_stored, htree.not_isEmpty,
    fun hdel => ?_⟩
  obtain ⟨ents, hpend, hpw⟩ := (htree.deletesRange_nested _).mp hdel
  have hnode : (leafRoot diagonal).index 1 = .node diagonal := rfl
  obtain rfl := hpend.unique (lists_leaf hnode rfl 2 0 rfl [] [] .nil)
  revert hpw
  decide

end StreamMill.RTree
