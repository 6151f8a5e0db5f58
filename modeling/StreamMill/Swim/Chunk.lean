import StreamMill.Swim.Slides

/-!
# StreamMill.Swim.Chunk

The buffer between the stream and the trees, cell by cell: `addTuple` writes transactions behind
each other, each with its length before it, and `ReadChunkToFP_b` reads them back into the tree of
a slide. The buffer is used again for every slide, so that behind `StreamMillPtr` there are cells
of earlier slides.
-/

namespace StreamMill.Swim

open Lib
open FPTree (Trans Adr)

variable {tree tree' : Tree} {S : Shape} {addr : Adr → Ptr} {chains : Nat → List Adr} {a : Adr}
  {i s : Nat}

/-! ## `InsertTrans` of any items -/

/-- The links are right. The labels in the shape say nothing about items. -/
structure Laid (tree : Tree) (S : Shape) (addr : Adr → Ptr) (chains : Nat → List Adr) : Prop where
  wired : Wired tree S addr chains
  labels : ∀ a i, a ++ [i] ∈ S.nodes → i < tree.fresh

theorem Laid.congr (h : Laid tree S addr chains) (heq : tree'.links = tree.links) :
    Laid tree' S addr chains := by
  have hfresh : tree'.links.fresh = tree.links.fresh := congrArg Tree.fresh heq
  exact ⟨h.wired.congr heq, fun a i hm => (h.labels a i hm).trans_eq hfresh.symm⟩

theorem Laid.findChild (h : Laid tree S addr chains) (ha : S.Has a) (c : Nat) :
    ∃ r, tree.findChild (addr a) c = .ok r ∧
      ∀ p ∈ r, ∃ j ∈ S.children a, p = addr (a ++ [j]) := by
  have hle := (h.wired.children_nodup (List.Sublist.refl (S.children a))).2
  refine ⟨_, walk_path _ _ (h.wired.children a ha) hle, fun p hp => ?_⟩
  have hm := (List.dropWhile_sublist _).mem (List.mem_of_head? hp)
  obtain ⟨j, hj, rfl⟩ := List.mem_map.mp hm
  exact ⟨j, hj, rfl⟩

theorem Laid.descend (items : List Nat) (r : Option Ptr) (h : Laid tree S addr chains)
    (ha : S.Has a) :
    ∃ tree' a' rest, Swim.descend s r tree (addr a) items = .ok (tree', addr a', rest) ∧
      S.Has a' ∧ Laid tree' S addr chains := by
  induction items generalizing tree a with
  | nil => exact ⟨tree, a, [], rfl, ha, h⟩
  | cons c items ih =>
    obtain ⟨found, hfind, hfound⟩ := h.findChild ha c
    cases found with
    | none =>
      refine ⟨tree, a, c :: items, ?_, ha, h⟩
      rw [Swim.descend, hfind]
      rfl
    | some node =>
      obtain ⟨j, hj, rfl⟩ := hfound node rfl
      rw [descend_found hfind]
      have hsupport : (tree.addSupport (addr (a ++ [j])) s).links = tree.links :=
        setNode_links _ _ fun n => rfl
      refine ih (h.congr ?_) (h.wired.ok.has_child hj)
      split
      · exact (setNode_links (tree.addSupport (addr (a ++ [j])) s) (addr (a ++ [j]))
          (f := fun n => { n with returnFreqAdr := r }) fun n => rfl).trans hsupport
      · exact hsupport

theorem Laid.grow {items : List Nat} (r : Option Ptr) (h : Laid tree S addr chains)
    (ha : S.Has a) :
    ∃ S' addr' chains', Laid (Swim.grow s r tree (addr a) items) S' addr' chains' := by
  induction items generalizing tree S addr chains a with
  | nil => exact ⟨S, addr, chains, h⟩
  | cons c items ih =>
    have hx : tree.fresh ∉ S.children a := fun hm =>
      (h.labels a _ ((h.wired.ok.child a _).mp hm)).false
    have hnone : ∀ j ∈ (none : Option Nat), j ∈ S.children a := fun j hj => nomatch hj
    have hwired := h.wired.addNode (i := c) (s := s) (w := 0) (r := if items = [] then r else none)
      ha hx hnone
    have hnew : Laid (tree.addNode (addr a) none c s 0 (if items = [] then r else none))
        (S.add a tree.fresh (FPTree.place none tree.fresh (S.children a)))
        (Function.update addr (a ++ [tree.fresh]) tree.fresh)
        (addChain chains c (a ++ [tree.fresh])) := by
      refine ⟨hwired, fun b j hb => ?_⟩
      rw [addNode_fresh]
      rcases List.mem_cons.mp hb with heq | hb
      · obtain rfl : j = tree.fresh := List.singleton_inj.mp (List.append_inj_right' heq rfl)
        exact Nat.lt_succ_self _
      · exact Nat.lt_succ_of_lt (h.labels b j hb)
    have hgrow := ih hnew (Shape.has_add.mpr (.inl rfl))
    rw [Function.update_self] at hgrow
    exact hgrow

/-- A tree on which every loop of `fptree.c` ends. -/
def Tree.Sound (tree : Tree) : Prop := ∃ S addr chains, Laid tree S addr chains

theorem Tree.Sound.insertTrans (h : tree.Sound) (t : Trans) :
    ∃ tree' n, insertTrans tree t = .ok (tree', n) ∧ tree'.Sound := by
  obtain ⟨S, addr, chains, h⟩ := h
  have hvisit : Laid (tree.addSupport root t.support) S addr chains :=
    h.congr (setNode_links _ _ fun n => rfl)
  obtain ⟨tree₁, a, rest, hdescend, ha, h₁⟩ :=
    hvisit.descend t.items none S.has_root
  rw [h.wired.root] at hdescend
  refine ⟨grow t.support none tree₁ (addr a) rest, rest.length, ?_, h₁.grow none ha⟩
  rw [Swim.insertTrans, insertTransAdr, hdescend]
  rfl

theorem Tree.Sound.insertAll (h : tree.Sound) (ts : List Trans) :
    ∃ tree', insertAll tree ts = .ok tree' ∧ tree'.Sound := by
  induction ts generalizing tree with
  | nil => exact ⟨tree, rfl, h⟩
  | cons t ts ih =>
    obtain ⟨tree₁, n, hinsert, h₁⟩ := h.insertTrans t
    obtain ⟨tree', hall, h'⟩ := ih h₁
    refine ⟨tree', ?_, h'⟩
    rw [Swim.insertAll, List.foldlM_cons, hinsert]
    exact hall

theorem Cleared.sound (h : Cleared tree) : tree.Sound := by
  refine ⟨_, _, _, h.refines.links.wired, fun a i hm => ?_⟩
  simp [shape, FPTree.newTree] at hm

theorem Tree.Sound.emptyTree (h : tree.Sound) :
    ∃ tree', emptyTree tree = .ok tree' ∧ tree'.Sound ∧ tree'.maxItems = tree.maxItems := by
  obtain ⟨S, addr, chains, h⟩ := h
  obtain ⟨tree', hempty, hcleared, hmax⟩ := h.wired.emptyTree_ok
  exact ⟨tree', hempty, hcleared.sound, hmax⟩

/-! ## The buffer -/

/-- `StreamMillBuffer`, all of it, and `StreamMillPtr`. -/
structure Buffer where
  cells : List (BitVec 32)
  ptr : Nat

def store (buf : List (BitVec 32)) (i : Nat) (x : BitVec 32) : Except Fault (List (BitVec 32)) :=
  if i < buf.length then .ok (buf.set i x) else .error .outside

def load (buf : List (BitVec 32)) (i : Int) : Except Fault (BitVec 32) :=
  if 0 ≤ i then (buf[i.toNat]?).elim (.error .outside) .ok else .error .outside

def storeEach : List (BitVec 32) → Nat → List (BitVec 32) → Except Fault (List (BitVec 32))
  | buf, _, [] => .ok buf
  | buf, i, x :: pt => do
    let buf ← store buf i x
    storeEach buf (i + 1) pt

def addTuple (pt buf : List (BitVec 32)) (bufPtr : Nat) :
    Except Fault (List (BitVec 32) × Nat) := do
  let buf ← store buf bufPtr (BitVec.ofNat 32 pt.length)
  let buf ← storeEach buf (bufPtr + 1) pt
  return (buf, pt.length + 1)

/-- `StreamMillPtr += addTuple(…)` -/
def Buffer.append (b : Buffer) (pt : List (BitVec 32)) : Except Fault Buffer := do
  let (cells, n) ← addTuple pt b.cells b.ptr
  return ⟨cells, b.ptr + n⟩

def Buffer.appendAll (b : Buffer) (ts : List (List (BitVec 32))) : Except Fault Buffer :=
  ts.foldlM Buffer.append b

/-- `trans.items[i] = StreamMillBuffer[readPointer+i]` for `n` items from `i` on. There is room for
`noItems` items in `trans`. -/
def copyItems (buf : List (BitVec 32)) (noItems : Nat) (readPointer : Int) :
    Nat → Nat → Except Fault (List (BitVec 32))
  | _, 0 => .ok []
  | i, n + 1 =>
    if i < noItems then do
      let x ← load buf (readPointer + i)
      let xs ← copyItems buf noItems readPointer (i + 1) n
      return x :: xs
    else .error .outside

def InTable (maxItems : Nat) (i : BitVec 32) : Prop := 0 ≤ i.toInt ∧ i.toInt < maxItems

instance (maxItems : Nat) : DecidablePred (InTable maxItems) :=
  fun _ => inferInstanceAs (Decidable (_ ∧ _))

/-- `InsertTrans` uses `header` and `single_support` at every item. -/
def insertItems (fp : Tree) (items : List (BitVec 32)) : Except Fault Tree :=
  if items.all fun i => InTable fp.maxItems i then
    (insertTrans fp ⟨1, items.map BitVec.toNat⟩).map Prod.fst
  else .error .outside

/-- The variables of `ReadChunkToFP_b`, and which cells of the buffer it has read. -/
structure Reading where
  readPointer : Int
  fp : Tree
  localAllTransLen : BitVec 32
  reads : List Int

def cellsFrom (p : Int) (n : Nat) : List Int := (List.range n).map fun i : Nat => p + i

def readRecords (noItems : Nat) (b : Buffer) : Nat → Reading → Except Fault (Int × Reading)
  | 0, s => .ok (0, s)
  | t + 1, s => do
    let len ← load b.cells s.readPointer
    let readPointer := s.readPointer + 1
    if (b.ptr : Int) < (BitVec.ofInt 32 readPointer + len).toInt then
      return (2, { s with
        readPointer := readPointer
        reads := s.reads ++ [s.readPointer] })
    else
      let items ← copyItems b.cells noItems readPointer 0 len.toInt.toNat
      let fp ← insertItems s.fp items
      readRecords noItems b t {
        readPointer := readPointer + len.toInt
        fp := fp
        localAllTransLen := s.localAllTransLen + (len + 1)
        reads := s.reads ++ cellsFrom s.readPointer (len.toInt.toNat + 1) }

/-- `fp` is `localFPs[index]`. -/
def readChunkToFP_b (noItems : Nat) (fp : Tree) (b : Buffer) (chunksize : Nat) :
    Except Fault (Int × Reading) := do
  let fp ← emptyTree fp
  readRecords noItems b chunksize ⟨0, fp, 0, []⟩

/-- A tree of the ring, `new_tree(no_items)`. -/
structure Slot (noItems : Nat) where
  tree : Tree
  maxItems : tree.maxItems = noItems
  sound : tree.Sound

def newSlot (noItems : Nat) : Slot noItems :=
  ⟨newTree noItems, rfl, Cleared.sound (.inl ⟨noItems, rfl⟩)⟩

/-! ## What `addTuple` writes -/

def record (t : List (BitVec 32)) : List (BitVec 32) := BitVec.ofNat 32 t.length :: t

def records (ts : List (List (BitVec 32))) : List (BitVec 32) := ts.flatMap record

@[simp] theorem records_nil : records [] = [] := rfl

@[simp] theorem records_cons (t : List (BitVec 32)) (ts : List (List (BitVec 32))) :
    records (t :: ts) = record t ++ records ts := List.flatMap_cons

@[simp] theorem record_length (t : List (BitVec 32)) : (record t).length = t.length + 1 := rfl

variable {buf more t : List (BitVec 32)} {i p noItems : Nat} {fp : Tree}
  {ts : List (List (BitVec 32))} {s : Reading}

theorem storeEach_eq (pt : List (BitVec 32)) (hi : i ≤ buf.length) :
    storeEach buf i pt =
      if i + pt.length ≤ buf.length then .ok (buf.take i ++ pt ++ buf.drop (i + pt.length))
      else .error .outside := by
  induction pt generalizing buf i with
  | nil => simp [storeEach, hi]
  | cons x pt ih =>
    rw [storeEach, store]
    by_cases hlt : i < buf.length
    · rw [if_pos hlt]
      change storeEach (buf.set i x) (i + 1) pt = _
      have hlen : (buf.set i x).length = buf.length := List.length_set
      rw [ih (by rw [hlen]; exact hlt)]
      have htake : (buf.set i x).take (i + 1) = buf.take i ++ [x] := by
        rw [List.take_set, List.take_add_one, List.getElem?_eq_getElem hlt, List.set_append_right _ _ (by simp [hlt.le])]
        simp [hlt.le]
      have hdrop : (buf.set i x).drop (i + 1 + pt.length) = buf.drop (i + (x :: pt).length) := by
        rw [List.drop_set_of_lt (by omega), List.length_cons]
        congr 1
        omega
      have hiff : i + 1 + pt.length ≤ buf.length ↔ i + (x :: pt).length ≤ buf.length := by
        rw [List.length_cons]
        omega
      rw [htake, hdrop]
      simp [hiff, List.append_assoc, List.cons_append, List.nil_append]
    · have hno : ¬ i + (x :: pt).length ≤ buf.length := by
        rw [List.length_cons]
        omega
      rw [if_neg hlt, if_neg hno]
      rfl

theorem Buffer.append_eq (b : Buffer) (hb : b.ptr ≤ b.cells.length) (t : List (BitVec 32)) :
    b.append t =
      if b.ptr + (record t).length ≤ b.cells.length then
        .ok ⟨b.cells.take b.ptr ++ record t ++ b.cells.drop (b.ptr + (record t).length),
          b.ptr + (record t).length⟩
      else .error .outside := by
  have hadd : addTuple t b.cells b.ptr =
      (storeEach b.cells b.ptr (record t)).map fun buf => (buf, t.length + 1) := by
    rw [record, storeEach, addTuple]
    cases store b.cells b.ptr (BitVec.ofNat 32 t.length) with
    | error e => rfl
    | ok buf => rfl
  rw [Buffer.append, hadd, storeEach_eq (record t) hb]
  by_cases hfit : b.ptr + (record t).length ≤ b.cells.length
  · rw [if_pos hfit, if_pos hfit]
    rfl
  · rw [if_neg hfit, if_neg hfit]
    rfl

theorem Buffer.appendAll_eq (ts : List (List (BitVec 32))) {b : Buffer}
    (hb : b.ptr ≤ b.cells.length) :
    b.appendAll ts =
      if b.ptr + (records ts).length ≤ b.cells.length then
        .ok ⟨b.cells.take b.ptr ++ records ts ++ b.cells.drop (b.ptr + (records ts).length),
          b.ptr + (records ts).length⟩
      else .error .outside := by
  induction ts generalizing b with
  | nil =>
    simp [Buffer.appendAll, hb]
    rfl
  | cons t ts ih =>
    rw [Buffer.appendAll, List.foldlM_cons, b.append_eq hb, records_cons, List.length_append]
    by_cases hfit : b.ptr + (record t).length ≤ b.cells.length
    · rw [if_pos hfit]
      have hlen : (b.cells.take b.ptr ++ record t ++
          b.cells.drop (b.ptr + (record t).length)).length = b.cells.length := by
        simp only [List.length_append, List.length_take, List.length_drop]
        omega
      have hpre : (b.cells.take b.ptr ++ record t).length = b.ptr + (record t).length := by
        rw [List.length_append, List.length_take, Nat.min_eq_left hb]
      refine (ih (by rw [hlen]; exact hfit)).trans ?_
      simp only [hlen, Nat.add_assoc]
      rw [List.take_left' hpre, List.drop_append, hpre, List.drop_eq_nil_of_le (by omega)]
      simp [Nat.add_assoc]
    · have hno : ¬ b.ptr + ((record t).length + (records ts).length) ≤ b.cells.length := by omega
      rw [if_neg hfit, if_neg hno]
      rfl

/-! ## What the loop reads -/

theorem load_eq {x : BitVec 32} (h : buf.drop p = x :: more) : load buf p = .ok x := by
  have hget : buf[p]? = some x := by
    have hhead := List.head?_drop (l := buf) (i := p)
    rw [h] at hhead
    exact hhead.symm
  rw [load, Int.toNat_natCast, hget]
  rfl

theorem load_outside (h : buf.length ≤ p) :
    load buf p = .error .outside := by
  rw [load, Int.toNat_natCast, List.getElem?_eq_none h]
  rfl

theorem copyItems_eq (h : buf.drop (p + i) = t ++ more) (hi : i ≤ noItems) :
    copyItems buf noItems p i t.length =
      if i + t.length ≤ noItems then .ok t else .error .outside := by
  induction t generalizing i with
  | nil => exact (if_pos hi).symm
  | cons x t ih =>
    have hrest : buf.drop (p + (i + 1)) = t ++ more := by
      rw [← Nat.add_assoc, ← List.drop_drop, h]
      rfl
    have hload : load buf ((p : Int) + (i : Int)) = .ok x := load_eq h
    have hiff : i + 1 + t.length ≤ noItems ↔ i + (x :: t).length ≤ noItems := by
      rw [List.length_cons]
      omega
    rw [List.length_cons, copyItems, hload]
    by_cases hlt : i < noItems
    · rw [if_pos hlt]
      rw [ih hrest hlt]
      simp only [hiff, List.length_cons]
      split
      · rfl
      · rfl
    · rw [if_neg hlt, if_neg (by omega)]

theorem copyItems_outside {n : Nat} (hn : 0 < n) (h : buf.length < p + i + n) :
    ∃ e, copyItems buf noItems p i n = .error e := by
  induction n generalizing i with
  | zero => exact absurd hn (Nat.lt_irrefl 0)
  | succ n ih =>
    rw [copyItems]
    split
    · by_cases hp : buf.length ≤ p + i
      · have hload : load buf ((p : Int) + (i : Int)) = .error .outside := load_outside hp
        rw [hload]
        exact ⟨_, rfl⟩
      · obtain ⟨e, hrest⟩ := ih (show 0 < n by omega) (show buf.length < p + (i + 1) + n by omega)
        cases load buf ((p : Int) + (i : Int)) with
        | error e' => exact ⟨e', rfl⟩
        | ok x =>
          rw [hrest]
          exact ⟨e, rfl⟩
    · exact ⟨_, rfl⟩

/-- The transaction has room in `trans.items`, its items have places in the header table. -/
structure FitsTable (noItems : Nat) (t : List (BitVec 32)) : Prop where
  length : t.length ≤ noItems
  items : ∀ i ∈ t, InTable noItems i

def insertRecord (noItems : Nat) (fp : Tree) (t : List (BitVec 32)) : Except Fault Tree :=
  if t.length ≤ noItems then insertItems fp t else .error .outside

def itemsOf (ts : List (List (BitVec 32))) : List Trans := transOf (ts.map (List.map BitVec.toNat))

theorem insertRecord_fits (hmax : fp.maxItems = noItems) (ht : FitsTable noItems t) :
    insertRecord noItems fp t = (insertTrans fp ⟨1, t.map BitVec.toNat⟩).map Prod.fst := by
  have hall : (t.all (InTable fp.maxItems)) = true := by
    simpa [hmax] using ht.items
  rw [insertRecord, if_pos ht.length, insertItems, if_pos hall]

theorem insertRecord_outside (hmax : fp.maxItems = noItems) (ht : ¬ FitsTable noItems t) :
    insertRecord noItems fp t = .error .outside := by
  rw [insertRecord]
  split
  · next hlen =>
    have hall : ¬ (t.all (InTable fp.maxItems)) = true := fun hall =>
      ht ⟨hlen, by simpa [hmax] using hall⟩
    rw [insertItems, if_neg hall]
  · rfl

theorem insertRecords_fit (hfp : fp.Sound) (hmax : fp.maxItems = noItems)
    (hts : ∀ t ∈ ts, FitsTable noItems t) :
    ts.foldlM (insertRecord noItems) fp = insertAll fp (itemsOf ts) := by
  induction ts generalizing fp with
  | nil => rfl
  | cons t ts ih =>
    obtain ⟨ht, hts⟩ := List.forall_mem_cons.mp hts
    obtain ⟨fp', n, hinsert, hfp'⟩ := hfp.insertTrans ⟨1, t.map BitVec.toNat⟩
    have hone : insertRecord noItems fp t = .ok fp' := by
      rw [insertRecord_fits hmax ht, hinsert]
      rfl
    have hrest := ih hfp' ((insertTrans_maxItems hinsert).trans hmax) hts
    rw [List.foldlM_cons, hone, insertAll, itemsOf, transOf, List.map_cons, List.map_cons,
      List.foldlM_cons, hinsert]
    exact hrest

theorem insertRecords_outside (hfp : fp.Sound) (hmax : fp.maxItems = noItems)
    (hts : ¬ ∀ t ∈ ts, FitsTable noItems t) :
    ts.foldlM (insertRecord noItems) fp = .error .outside := by
  induction ts generalizing fp with
  | nil => exact absurd (fun t ht => absurd ht List.not_mem_nil) hts
  | cons t ts ih =>
    rw [List.foldlM_cons]
    by_cases ht : FitsTable noItems t
    · obtain ⟨fp', n, hinsert, hfp'⟩ := hfp.insertTrans ⟨1, t.map BitVec.toNat⟩
      have hone : insertRecord noItems fp t = .ok fp' := by
        rw [insertRecord_fits hmax ht, hinsert]
        rfl
      rw [hone]
      exact ih hfp' ((insertTrans_maxItems hinsert).trans hmax) fun hall =>
        hts (List.forall_mem_cons.mpr ⟨ht, hall⟩)
    · rw [insertRecord_outside hmax ht]
      rfl

/-- After `n` cells from `p` on were read. -/
def Reading.after (s : Reading) (p n : Nat) (fp : Tree) : Reading where
  readPointer := p + n
  fp := fp
  localAllTransLen := s.localAllTransLen + BitVec.ofNat 32 n
  reads := s.reads ++ cellsFrom p n

variable {noItems : Nat} {b : Buffer}

theorem toInt_cells {n : Nat} (h : n < 2 ^ 31) : (BitVec.ofNat 32 n).toInt = n :=
  toInt_weight (le_refl n) h

theorem readRecords_record (k : Nat) (hs : s.readPointer = p)
    (hdrop : b.cells.drop p = record t ++ more) (hptr : p + (record t).length ≤ b.ptr)
    (hsize : b.ptr < 2 ^ 31) :
    readRecords noItems b (k + 1) s = insertRecord noItems s.fp t >>= fun fp =>
      readRecords noItems b k (s.after p (record t).length fp) := by
  rw [record_length] at hptr
  have hload : load b.cells s.readPointer = .ok (BitVec.ofNat 32 t.length) := by
    rw [hs]
    exact load_eq hdrop
  have hlen : (BitVec.ofNat 32 t.length).toInt = t.length := toInt_cells (by omega)
  have hsum : BitVec.ofInt 32 (s.readPointer + 1) + BitVec.ofNat 32 t.length =
      BitVec.ofNat 32 (p + 1 + t.length) := by
    rw [hs, BitVec.ofNat_add, ← Int.natCast_succ, BitVec.ofInt_natCast]
  have hcheck : ¬ (b.ptr : Int) <
      (BitVec.ofInt 32 (s.readPointer + 1) + BitVec.ofNat 32 t.length).toInt := by
    rw [hsum, toInt_cells (by omega)]
    omega
  have hrest : b.cells.drop (p + 1 + 0) = t ++ more := by
    rw [Nat.add_zero, ← List.drop_drop, hdrop]
    rfl
  have hcopy := copyItems_eq hrest (Nat.zero_le noItems)
  rw [Nat.zero_add] at hcopy
  have hpointer : s.readPointer + 1 = ((p + 1 : Nat) : Int) := by
    rw [hs, Int.natCast_succ]
  rw [readRecords, hload]
  change (if _ then _ else _) = _
  rw [if_neg hcheck, hlen, Int.toNat_natCast, hpointer, hcopy, insertRecord]
  by_cases hroom : t.length ≤ noItems
  · rw [if_pos hroom, if_pos hroom]
    change insertItems s.fp t >>= _ = _
    congr 1
    funext fp
    congr 1
    rw [Reading.after, record_length, BitVec.ofNat_add, hs]
    congr 1
    omega
  · rw [if_neg hroom, if_neg hroom]
    rfl

theorem Reading.after_after (s : Reading) (p m n : Nat) (fp fp' : Tree) :
    (s.after p m fp).after (p + m) n fp' = s.after p (m + n) fp' := by
  have hreads : cellsFrom p (m + n) = cellsFrom p m ++ cellsFrom ((p + m : Nat) : Int) n := by
    rw [cellsFrom, List.range_add, List.map_append, List.map_map]
    congr 1
    refine List.map_congr_left fun i _ => ?_
    rw [Function.comp_apply]
    omega
  simp only [Reading.after, Reading.mk.injEq, true_and]
  refine ⟨?_, ?_, ?_⟩
  · omega
  · rw [BitVec.add_assoc, BitVec.ofNat_add]
  · rw [hreads, List.append_assoc]

theorem readRecords_records (ts : List (List (BitVec 32))) (k : Nat) (hs : s.readPointer = p)
    (hdrop : b.cells.drop p = records ts ++ more) (hptr : p + (records ts).length ≤ b.ptr)
    (hsize : b.ptr < 2 ^ 31) :
    readRecords noItems b (ts.length + k) s = ts.foldlM (insertRecord noItems) s.fp >>= fun fp =>
      readRecords noItems b k (s.after p (records ts).length fp) := by
  induction ts generalizing s p with
  | nil =>
    have hafter : s.after p 0 s.fp = s := by
      cases s
      simp_all [Reading.after, cellsFrom]
    change readRecords noItems b (0 + k) s = readRecords noItems b k (s.after p 0 s.fp)
    rw [hafter, Nat.zero_add]
  | cons t ts ih =>
    rw [records_cons, List.append_assoc] at hdrop
    rw [records_cons, List.length_append] at hptr
    have hnext : b.cells.drop (p + (record t).length) = records ts ++ more := by
      rw [← List.drop_drop, hdrop, List.drop_left]
    rw [List.length_cons, Nat.succ_add,
      readRecords_record _ hs hdrop (by omega) hsize, List.foldlM_cons, bind_assoc]
    congr 1
    funext fp
    refine (ih rfl hnext (by omega)).trans ?_
    congr 1
    funext fp'
    rw [Reading.after_after, records_cons, List.length_append]

theorem readRecords_reads {k : Nat} {out : Int × Reading} (h : readRecords noItems b k s = .ok out) :
    s.reads ⊆ out.2.reads := by
  induction k generalizing s with
  | zero =>
    cases h
    exact fun r hr => hr
  | succ k ih =>
    obtain ⟨len, -, h⟩ := bind_eq_ok h
    dsimp only at h
    split at h
    · cases h
      exact List.subset_append_left _ _
    · obtain ⟨items, -, h⟩ := bind_eq_ok h
      obtain ⟨fp, -, h⟩ := bind_eq_ok h
      exact fun r hr => ih h (List.mem_append_left _ hr)

theorem readRecords_first {k : Nat} {out : Int × Reading}
    (h : readRecords noItems b (k + 1) s = .ok out) : s.readPointer ∈ out.2.reads := by
  obtain ⟨len, -, h⟩ := bind_eq_ok h
  dsimp only at h
  split at h
  · cases h
    exact List.mem_append_right _ List.mem_cons_self
  · obtain ⟨items, -, h⟩ := bind_eq_ok h
    obtain ⟨fp, -, h⟩ := bind_eq_ok h
    refine readRecords_reads h (List.mem_append_right _ (List.mem_map.mpr ⟨0, ?_, ?_⟩))
    · exact List.mem_range.mpr (Nat.succ_pos _)
    · simp

/-! ## Buffers of a whole slide -/

/-- The transactions `ts` are appended to the buffer and read again. -/
def AppendedRight (slot : Slot noItems) (b : Buffer) (ts : List (List (BitVec 32))) : Prop :=
  ∃ b' out, b.appendAll ts = .ok b' ∧
    readChunkToFP_b noItems slot.tree b' ts.length = .ok out ∧ out.1 = 0 ∧
    (emptyTree slot.tree >>= fun fp => insertAll fp (itemsOf ts)) = .ok out.2.fp ∧
    out.2.localAllTransLen.toInt = transLen (ts.map (List.map BitVec.toNat))

theorem records_length (ts : List (List (BitVec 32))) :
    (records ts).length = transLen (ts.map (List.map BitVec.toNat)) := by
  induction ts with
  | nil => rfl
  | cons t ts ih =>
    rw [records_cons, List.length_append, ih, record_length, transLen, transLen, List.map_cons,
      List.map_cons, List.sum_cons, List.length_map]

theorem appendedRight_iff (slot : Slot noItems) (hptr : b.ptr = 0) (hsize : b.cells.length < 2 ^ 31) :
    AppendedRight slot b ts ↔
      (records ts).length ≤ b.cells.length ∧ ∀ t ∈ ts, FitsTable noItems t := by
  have happend := b.appendAll_eq ts (hptr ▸ Nat.zero_le _)
  rw [hptr, Nat.zero_add] at happend
  by_cases hroom : (records ts).length ≤ b.cells.length
  · rw [if_pos hroom] at happend
    obtain ⟨fp, hempty, hfp, hmax⟩ := slot.sound.emptyTree
    have hread : ∀ b', b.appendAll ts = .ok b' →
        readChunkToFP_b noItems slot.tree b' ts.length =
          ts.foldlM (insertRecord noItems) fp >>= fun fp' =>
            .ok (0, (⟨0, fp, 0, []⟩ : Reading).after 0 (records ts).length fp') := by
      intro b' hb'
      cases happend.symm.trans hb'
      rw [readChunkToFP_b, hempty]
      exact readRecords_records ts 0 rfl (List.drop_zero ..) (by simp) (by dsimp only; omega)
    constructor
    · rintro ⟨b', out, hb', hout, -⟩
      refine ⟨hroom, by_contra fun hts => ?_⟩
      rw [hread b' hb', insertRecords_outside hfp (hmax.trans slot.maxItems) hts] at hout
      cases hout
    · rintro ⟨-, hts⟩
      obtain ⟨fp', hall, -⟩ := hfp.insertAll (itemsOf ts)
      refine ⟨_, (0, (⟨0, fp, 0, []⟩ : Reading).after 0 (records ts).length fp'), happend, ?_, rfl,
        ?_, ?_⟩
      · rw [hread _ happend, insertRecords_fit hfp (hmax.trans slot.maxItems) hts, hall]
        rfl
      · rw [hempty]
        exact hall
      · change (0#32 + BitVec.ofNat 32 (records ts).length).toInt = _
        rw [BitVec.zero_add, toInt_cells (by omega), records_length]
  · rw [if_neg hroom] at happend
    constructor
    · rintro ⟨b', out, hb', -⟩
      rw [happend] at hb'
      cases hb'
    · exact fun h => absurd h.1 hroom

/-! ## Buffers that end early -/

/-- What stands in the buffer up to `StreamMillPtr`. -/
structure Buffer.Holds (b : Buffer) (ts : List (List (BitVec 32))) (rest : List (BitVec 32)) :
    Prop where
  cells : b.cells.take b.ptr = records ts ++ rest
  within : b.ptr ≤ b.cells.length
  size : b.cells.length < 2 ^ 31

inductive CutOff : List (BitVec 32) → Prop where
  | nothing : CutOff []
  | items {len : BitVec 32} {items : List (BitVec 32)} (short : (items.length : Int) < len.toInt) :
      CutOff (len :: items)

/-- An error is returned, and nothing behind the end was read. -/
def EndsRight (slot : Slot noItems) (b : Buffer) (chunksize : Nat) : Prop :=
  ∃ out, readChunkToFP_b noItems slot.tree b chunksize = .ok out ∧ out.1 ≠ 0 ∧
    ∀ r ∈ out.2.reads, r < b.ptr

def Checked (ts : List (List (BitVec 32))) (rest : List (BitVec 32)) : Prop :=
  ∃ len ∈ rest.head?, ((records ts).length : Int) + 1 + len.toInt < 2 ^ 31

theorem Buffer.Holds.ptr_eq {rest : List (BitVec 32)} (h : b.Holds ts rest) :
    b.ptr = (records ts).length + rest.length := by
  have hlen := congrArg List.length h.cells
  rwa [List.length_take, Nat.min_eq_left h.within, List.length_append] at hlen

theorem readRecords_refused {len : BitVec 32} (k : Nat) (hs : s.readPointer = p)
    (hdrop : b.cells.drop p = len :: more) (hlen : 0 ≤ len.toInt)
    (hshort : (b.ptr : Int) < p + 1 + len.toInt) (hsmall : (p : Int) + 1 + len.toInt < 2 ^ 31) :
    readRecords noItems b (k + 1) s = .ok (2, { s with
      readPointer := s.readPointer + 1
      reads := s.reads ++ [s.readPointer] }) := by
  have hload : load b.cells s.readPointer = .ok len := by
    rw [hs]
    exact load_eq hdrop
  have hcheck : (b.ptr : Int) < (BitVec.ofInt 32 (s.readPointer + 1) + len).toInt := by
    rw [hs, BitVec.toInt_add, BitVec.toInt_ofInt, Int.bmod_add_bmod,
      Int.bmod_eq_of_le (by omega) (by omega)]
    exact hshort
  rw [readRecords, hload]
  exact if_pos hcheck

/-- A length on which the check overflows. The loop runs out of the buffer, or out of `trans`. -/
theorem readRecords_overflow {len : BitVec 32} (k : Nat) (hs : s.readPointer = p)
    (hdrop : b.cells.drop p = len :: more) (hsize : b.cells.length < 2 ^ 31)
    (hp : p < b.cells.length) (hbig : 2 ^ 31 ≤ (p : Int) + 1 + len.toInt) :
    ∃ e, readRecords noItems b (k + 1) s = .error e := by
  have hload : load b.cells s.readPointer = .ok len := by
    rw [hs]
    exact load_eq hdrop
  have hlt := len.toInt_lt
  have hsum : (BitVec.ofInt 32 (s.readPointer + 1) + len).toInt =
      (p : Int) + 1 + len.toInt - 2 ^ 32 := by
    rw [BitVec.toInt_add, BitVec.toInt_ofInt, Int.bmod_add_bmod, Int.bmod_def]
    omega
  have hcheck : ¬ (b.ptr : Int) < (BitVec.ofInt 32 (s.readPointer + 1) + len).toInt := by
    omega
  have hitems : ∃ e, copyItems b.cells noItems (p + 1 : Nat) 0 len.toInt.toNat = .error e :=
    copyItems_outside (by omega) (by omega)
  obtain ⟨e, hcopy⟩ := hitems
  have hpointer : s.readPointer + 1 = ((p + 1 : Nat) : Int) := by
    rw [hs, Int.natCast_succ]
  refine ⟨e, ?_⟩
  rw [readRecords, hload]
  refine (if_neg hcheck).trans ?_
  rw [hpointer, hcopy]
  rfl

theorem endsRight_iff (slot : Slot noItems) {rest : List (BitVec 32)} {chunksize : Nat}
    (h : b.Holds ts rest) (hcut : CutOff rest) (hmore : ts.length < chunksize) :
    EndsRight slot b chunksize ↔ (∀ t ∈ ts, FitsTable noItems t) ∧ Checked ts rest := by
  obtain ⟨k, rfl⟩ := Nat.exists_eq_add_of_lt hmore
  obtain ⟨fp, hempty, hfp, hmax⟩ := slot.sound.emptyTree
  have hptr := h.ptr_eq
  have hwithin := h.within
  have hsize := h.size
  have hcells : b.cells.drop 0 = records ts ++ (rest ++ b.cells.drop b.ptr) := by
    rw [← List.append_assoc, ← h.cells, List.take_append_drop, List.drop_zero]
  have hrest : b.cells.drop (records ts).length = rest ++ b.cells.drop b.ptr := by
    have hdrop := congrArg (List.drop (records ts).length) hcells
    rwa [List.drop_left] at hdrop
  have hread : readChunkToFP_b noItems slot.tree b (ts.length + k + 1) =
      ts.foldlM (insertRecord noItems) fp >>= fun fp' => readRecords noItems b (k + 1)
        ((⟨0, fp, 0, []⟩ : Reading).after 0 (records ts).length fp') := by
    rw [readChunkToFP_b, hempty]
    exact readRecords_records ts (k + 1) rfl hcells (by omega) (by omega)
  by_cases hts : ∀ t ∈ ts, FitsTable noItems t
  · obtain ⟨fp', hall, -⟩ := hfp.insertAll (itemsOf ts)
    rw [insertRecords_fit hfp (hmax.trans slot.maxItems) hts, hall] at hread
    have hread : readChunkToFP_b noItems slot.tree b (ts.length + k + 1) =
        readRecords noItems b (k + 1)
          ((⟨0, fp, 0, []⟩ : Reading).after 0 (records ts).length fp') := hread
    rw [EndsRight, hread, and_iff_right hts]
    have hpointer : ((⟨0, fp, 0, []⟩ : Reading).after 0 (records ts).length fp').readPointer =
        (records ts).length := by
      simp [Reading.after]
    cases hcut with
    | nothing =>
      constructor
      · rintro ⟨out, hout, -, hreads⟩
        have hlt := hreads _ (readRecords_first hout)
        rw [hpointer, hptr] at hlt
        exact absurd hlt (by simp)
      · rintro ⟨len, hlen, -⟩
        cases hlen
    | items short =>
      rename_i len items
      have hlen : (len :: items).length = items.length + 1 := rfl
      by_cases hsmall : ((records ts).length : Int) + 1 + len.toInt < 2 ^ 31
      · refine iff_of_true ⟨_, readRecords_refused k hpointer hrest (by omega) (by omega) hsmall,
          by simp, fun r hr => ?_⟩ ⟨len, rfl, hsmall⟩
        rcases List.mem_append.mp hr with hr | hr
        · obtain ⟨i, hi, rfl⟩ := List.mem_map.mp (show r ∈ cellsFrom 0 _ from hr)
          have hi := List.mem_range.mp hi
          omega
        · rw [List.mem_singleton.mp hr]
          omega
      · obtain ⟨e, herror⟩ := readRecords_overflow k hpointer hrest hsize (by omega) (by omega)
        refine iff_of_false ?_ ?_
        · rintro ⟨out, hout, -⟩
          rw [herror] at hout
          cases hout
        · rintro ⟨len', hlen', hlt⟩
          cases hlen'
          exact hsmall hlt
  · rw [insertRecords_outside hfp (hmax.trans slot.maxItems) hts] at hread
    refine iff_of_false ?_ fun hall => hts hall.1
    rintro ⟨out, hout, -⟩
    rw [hread] at hout
    cases hout

theorem readChunkToFP_b_iff (slot : Slot noItems) :
    (∀ (b : Buffer) ts, b.ptr = 0 → b.cells.length < 2 ^ 31 →
      (AppendedRight slot b ts ↔
        (records ts).length ≤ b.cells.length ∧ ∀ t ∈ ts, FitsTable noItems t)) ∧
    ∀ (b : Buffer) ts rest chunksize, b.Holds ts rest → CutOff rest → ts.length < chunksize →
      (EndsRight slot b chunksize ↔ (∀ t ∈ ts, FitsTable noItems t) ∧ Checked ts rest) :=
  ⟨fun _ _ hptr hsize => appendedRight_iff slot hptr hsize,
    fun _ _ _ _ h hcut hmore => endsRight_iff slot h hcut hmore⟩

theorem readChunkToFP_b_iff_small :
    AppendedRight (newSlot 2) ⟨[7, 7, 7, 7, 7], 0⟩ [[0], [0, 1]] ∧
      EndsRight (newSlot 2) ⟨[1, 0, 2, 0], 4⟩ 2 := by
  have htable : ∀ i ∈ [(0 : BitVec 32), 1], InTable 2 i := by simp [InTable]
  have hzero : ∀ i ∈ [(0 : BitVec 32)], InTable 2 i := by simp [InTable]
  have hone : FitsTable 2 [0] := ⟨by decide, hzero⟩
  constructor
  · refine ((readChunkToFP_b_iff (newSlot 2)).1 _ _ rfl (by decide)).mpr ⟨by decide, ?_⟩
    exact List.forall_mem_cons.mpr ⟨hone, List.forall_mem_singleton.mpr ⟨by decide, htable⟩⟩
  · refine ((readChunkToFP_b_iff (newSlot 2)).2 _ [[0]] [2, 0] 2 ⟨rfl, by decide, by decide⟩
      (.items (by decide)) (by decide)).mpr ⟨List.forall_mem_singleton.mpr hone, 2, rfl, by decide⟩

/-- The slide has one transaction and the end of the buffer is not looked for: a cell of the last
slide is read. -/
theorem oneOfTwo_not_endsRight :
    (⟨[1, 0, 1, 0], 2⟩ : Buffer).Holds [[0]] [] ∧ CutOff [] ∧ [[(0 : BitVec 32)]].length < 2 ∧
      ¬ EndsRight (newSlot 1) ⟨[1, 0, 1, 0], 2⟩ 2 ∧
      ¬ EndsRight (newSlot 1) ⟨[1, 0, -1, 0], 2⟩ 2 := by
  have hrun : ∀ x : BitVec 32, x = 1 ∨ x = -1 →
      (readChunkToFP_b 1 (newTree 1) ⟨[1, 0, x, 0], 2⟩ 2).map (fun out => out.2.reads) =
        .ok [0, 1, 2] := by
    rintro x (rfl | rfl)
    · decide +kernel
    · decide +kernel
  have hno : ∀ x : BitVec 32, x = 1 ∨ x = -1 → ¬ EndsRight (newSlot 1) ⟨[1, 0, x, 0], 2⟩ 2 := by
    rintro x hx ⟨out, hout, -, hreads⟩
    have hrun := hrun x hx
    have hout : readChunkToFP_b 1 (newTree 1) ⟨[1, 0, x, 0], 2⟩ 2 = .ok out := hout
    rw [hout] at hrun
    have heq : out.2.reads = [0, 1, 2] := Except.ok.inj hrun
    exact absurd (hreads 2 (heq ▸ by decide)) (Int.lt_irrefl 2)
  exact ⟨⟨rfl, by decide, by decide⟩, .nothing, by decide, hno 1 (.inl rfl), hno (-1) (.inr rfl)⟩

/-! ## The step of the window -/

end StreamMill.Swim
