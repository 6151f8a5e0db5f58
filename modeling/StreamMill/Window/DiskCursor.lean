import StreamMill.Window.DiskPut

/-!
# StreamMill.Window.DiskCursor

The cursor of `atlaswin.cc` over the tuples of a window. It keeps one block of the file in a
buffer; `DB_FIRST` and `DB_NEXT` give the caller an address in that buffer.

`returns_iff`: a cursor gives the records of an intact chain when they come before the end in the
order of the block numbers, every link fits in a `char`, and the block that is read after the last
record of the buffer leaves that record as it is.
-/

namespace StreamMill.Window
namespace Disk

open Lib Lib.Memory

/-- A byte of the file as a `char`, which has a sign. -/
def Cell.char : Cell → Int
  | .byte b => b.toInt
  | .int n i => (BitVec.ofNat 8 (n / 256 ^ (i : Nat))).toInt

/-- `_adl_winc_s`, and the position of the file, where a read starts when the seek before it
fails. -/
structure Winc where
  cursorBeg : Off
  cursorEnd : Off
  cursorBlock : Int
  cursorOff : Nat
  block : Memory Cell
  filePos : Nat

inductive GetFlag
  | first
  | next
  deriving DecidableEq

/-- What a call that finds a record gives: the position of the record, and the bytes at
`data->data` after the call. -/
structure Got where
  block : Int
  off : Nat
  data : List Cell
  deriving DecidableEq

/-- `_adl_winCursor`. `c` is the memory of the new cursor. -/
def winCursor (win : Win) (expired_p : Bool) (c : Winc) : Winc :=
  if expired_p then { c with cursorBeg := win.expired, cursorEnd := win.begin }
  else { c with cursorBeg := win.begin, cursorEnd := win.current }

section

variable {κ : Type} (wc : WinCtrl κ) (flen : Nat)

/-- `fseek` to the block of the cursor and `fread`, in a file of `flen` bytes. Nothing is read past
the end, and the buffer keeps there what it had. -/
def readBlock (c : Winc) : Winc :=
  let start := if 0 ≤ c.cursorBlock then c.cursorBlock.toNat * wc.blockSize else c.filePos
  { c with
    block := fun i => if i < wc.blockSize ∧ start + i < flen then wc.f (start + i) else c.block i
    filePos := max start (min (start + wc.blockSize) flen) }

/-- `winc_get` from the label of `DB_NEXT`. -/
def wincNext (c : Winc) : Option Got × Winc :=
  if c.cursorBlock < c.cursorEnd.block ∨
      c.cursorBlock = c.cursorEnd.block ∧ c.cursorOff < c.cursorEnd.off then
    let c' :=
      if wc.nRecords ≤ c.cursorOff + 1 then
        -- one `char` of the link
        let link := (c.block (wc.blockSize - sizeofInt)).char
        readBlock wc flen { c with cursorOff := 0, cursorBlock := link }
      else { c with cursorOff := c.cursorOff + 1 }
    (some ⟨c.cursorBlock, c.cursorOff, load c'.block (c.cursorOff * wc.dataSize) wc.dataSize⟩, c')
  else (none, c)

def wincGet (flag : GetFlag) (c : Winc) : Option Got × Winc :=
  match flag with
  | .first =>
    wincNext wc flen (readBlock wc flen
      { c with cursorBlock := c.cursorBeg.block, cursorOff := c.cursorBeg.off })
  | .next => wincNext wc flen c

/-- The calls from `flag` on, each after the first one with `DB_NEXT`, give `gs` until
`DB_NOTFOUND`. -/
def Returns : GetFlag → Winc → List Got → Prop
  | flag, c, [] => (wincGet wc flen flag c).1 = none
  | flag, c, g :: gs =>
    (wincGet wc flen flag c).1 = some g ∧ Returns .next (wincGet wc flen flag c).2 gs

def got (p : Off) : Got := ⟨p.block, p.off, record wc p⟩

/-- The chain from `p` to `q` is `ps`: its records and its links are in the file, and no position
comes twice. -/
structure Intact (garble : List Cell → Nat) (p : Off) (ps : List Off) (q : Off) : Prop where
  path : Path garble wc p ps q
  nodup : (ps ++ [q]).Nodup
  records : ∀ x ∈ ps, diskOffset wc x + wc.dataSize ≤ flen
  links : ∀ x ∈ ps, wc.nRecords ≤ x.off + 1 → linkOffset wc x.block + sizeofInt ≤ flen ∧
    load wc.f (linkOffset wc x.block) sizeofInt = intCells (next garble wc x).block

/-- The end test lets `p` pass. -/
def BeforeEnd (p q : Off) : Prop := p.block < q.block ∨ p.block = q.block ∧ p.off < q.off

/-- The bytes of the record at `p` when block `b` has been read over those of its block. -/
def KeptBy (p : Off) (b : Nat) : Prop :=
  ∀ i < wc.dataSize, b * wc.blockSize + p.off * wc.dataSize + i < flen →
    wc.f (b * wc.blockSize + p.off * wc.dataSize + i) = wc.f (diskOffset wc p + i)

/-- The record at `p` of a chain with end `q` comes out right, and the cursor goes on to the next
one. -/
def Readable (garble : List Cell → Nat) (q p : Off) : Prop :=
  BeforeEnd p q ∧ (wc.nRecords ≤ p.off + 1 →
    (next garble wc p).block < 128 ∧ KeptBy wc flen p (next garble wc p).block)

end

variable {κ : Type} {garble : List Cell → Nat} {wc : WinCtrl κ} {flen : Nat} {c : Winc}
variable {p q : Off} {ps : List Off}

theorem char_int_eq_iff (n : Nat) : (Cell.int n 0).char = n ↔ n < 128 := by
  show (BitVec.ofNat 8 (n / 256 ^ 0)).toInt = n ↔ _
  rw [BitVec.toInt_ofNat', Int.bmod_def]
  omega

theorem char_int_lt (n : Nat) : (Cell.int n 0).char < 128 := by
  show (BitVec.ofNat 8 (n / 256 ^ 0)).toInt < _
  rw [BitVec.toInt_ofNat', Int.bmod_def]
  omega

/-- The cursor is at `p` and its buffer has the block of `p`, as far as the file goes. -/
structure At (wc : WinCtrl κ) (flen : Nat) (p : Off) (c : Winc) : Prop where
  block : c.cursorBlock = p.block
  off : c.cursorOff = p.off
  buffer : ∀ i < wc.blockSize, p.block * wc.blockSize + i < flen →
    c.block i = wc.f (p.block * wc.blockSize + i)

structure Sized (wc : WinCtrl κ) : Prop where
  fits : wc.nRecords * wc.dataSize ≤ wc.blockSize
  link : sizeofInt ≤ wc.blockSize

theorem Sized.slot (h : Sized wc) (hp : p.off < wc.nRecords) :
    p.off * wc.dataSize + wc.dataSize ≤ wc.blockSize := by
  have := Nat.mul_le_mul_right wc.dataSize hp
  rw [Nat.succ_mul] at this
  exact this.trans h.fits

theorem readBlock_at (b : Nat) (o : Nat) :
    At wc flen ⟨b, o⟩ (readBlock wc flen { c with cursorOff := o, cursorBlock := b }) := by
  refine ⟨rfl, rfl, fun i hi hlen => ?_⟩
  have hstart : (if (0 : Int) ≤ (b : Int) then (b : Int).toNat * wc.blockSize else c.filePos) =
      b * wc.blockSize := if_pos (Int.natCast_nonneg b)
  show (if i < wc.blockSize ∧ _ + i < flen then wc.f (_ + i) else c.block i) = _
  rw [hstart, if_pos ⟨hi, hlen⟩]

theorem At.loaded (h : At wc flen p c) (hs : Sized wc) (hp : p.off < wc.nRecords)
    (hlen : diskOffset wc p + wc.dataSize ≤ flen) :
    load c.block (p.off * wc.dataSize) wc.dataSize = record wc p := by
  have hslot := hs.slot hp
  unfold diskOffset at hlen
  apply List.ext_getElem?
  intro i
  by_cases hi : i < wc.dataSize
  · rw [load_getElem? _ hi, record, load_getElem? _ hi, h.buffer _ (by omega) (by omega),
      diskOffset, Nat.add_assoc]
  · rw [List.getElem?_eq_none (by rw [load_length]; omega),
      List.getElem?_eq_none (by rw [record, load_length]; omega)]

theorem wincNext_end (h : At wc flen p c) (hend : ¬BeforeEnd p c.cursorEnd) :
    (wincNext wc flen c).1 = none := by
  unfold BeforeEnd at hend
  have hcond : ¬(c.cursorBlock < c.cursorEnd.block ∨
      c.cursorBlock = c.cursorEnd.block ∧ c.cursorOff < c.cursorEnd.off) := by
    rw [h.block, h.off]
    omega
  rw [wincNext, if_neg hcond]

theorem wincNext_inside (h : At wc flen p c) (hs : Sized wc) (hbefore : BeforeEnd p c.cursorEnd)
    (hlen : diskOffset wc p + wc.dataSize ≤ flen) (hin : ¬wc.nRecords ≤ p.off + 1) :
    wincNext wc flen c = (some (got wc p), { c with cursorOff := p.off + 1 }) := by
  unfold BeforeEnd at hbefore
  have hcond : c.cursorBlock < c.cursorEnd.block ∨
      c.cursorBlock = c.cursorEnd.block ∧ c.cursorOff < c.cursorEnd.off := by
    rw [h.block, h.off]
    omega
  have hrec := h.loaded hs (by omega) hlen
  rw [wincNext, if_pos hcond, h.off, if_neg hin]
  show (some (⟨c.cursorBlock, p.off, load c.block (p.off * wc.dataSize) wc.dataSize⟩ : Got), _) = _
  rw [hrec, h.block]
  rfl

variable {n : Nat} {wc' : WinCtrl κ} {win : Win}

theorem At.link (h : At wc flen p c) (hs : Sized wc)
    (hlen : linkOffset wc p.block + sizeofInt ≤ flen)
    (hlink : load wc.f (linkOffset wc p.block) sizeofInt = intCells n) :
    c.block (wc.blockSize - sizeofInt) = .int n 0 := by
  have hsize := hs.link
  have hsucc : (p.block + 1) * wc.blockSize = p.block * wc.blockSize + wc.blockSize :=
    Nat.succ_mul _ _
  have hpos : linkOffset wc p.block = p.block * wc.blockSize + (wc.blockSize - sizeofInt) := by
    rw [linkOffset]
    omega
  have hfirst : wc.f (linkOffset wc p.block) = .int n 0 := (List.cons.inj hlink).1
  rw [h.buffer _ (by unfold sizeofInt at *; omega) (by unfold sizeofInt at *; omega),
    ← hpos, hfirst]

def nextBlock (wc : WinCtrl κ) (flen : Nat) (c : Winc) (link : Int) : Winc :=
  readBlock wc flen { c with cursorOff := 0, cursorBlock := link }

theorem wincNext_last (h : At wc flen p c) (hs : Sized wc) (hbefore : BeforeEnd p c.cursorEnd)
    (hlast : wc.nRecords ≤ p.off + 1) (hlen : linkOffset wc p.block + sizeofInt ≤ flen)
    (hlink : load wc.f (linkOffset wc p.block) sizeofInt = intCells n) :
    wincNext wc flen c =
      (some ⟨p.block, p.off,
        load (nextBlock wc flen c (Cell.int n 0).char).block (p.off * wc.dataSize) wc.dataSize⟩,
        nextBlock wc flen c (Cell.int n 0).char) := by
  unfold BeforeEnd at hbefore
  have hcond : c.cursorBlock < c.cursorEnd.block ∨
      c.cursorBlock = c.cursorEnd.block ∧ c.cursorOff < c.cursorEnd.off := by
    rw [h.block, h.off]
    omega
  rw [wincNext, if_pos hcond, h.off, if_pos hlast, h.link hs hlen hlink, h.block]
  rfl

theorem nextBlock_at (hn : n < 128) :
    At wc flen ⟨n, 0⟩ (nextBlock wc flen c (Cell.int n 0).char) := by
  rw [(char_int_eq_iff n).mpr hn]
  exact readBlock_at n 0

/-- The record at `p` is still in the buffer exactly if block `n` keeps it. -/
theorem nextBlock_load_iff (h : At wc flen p c) (hs : Sized wc) (hp : p.off < wc.nRecords)
    (hlen : diskOffset wc p + wc.dataSize ≤ flen) (hn : n < 128) :
    load (nextBlock wc flen c (Cell.int n 0).char).block (p.off * wc.dataSize) wc.dataSize =
      record wc p ↔ KeptBy wc flen p n := by
  have hslot := hs.slot hp
  have hbyte : ∀ i < wc.dataSize,
      (nextBlock wc flen c (Cell.int n 0).char).block (p.off * wc.dataSize + i) =
      if n * wc.blockSize + p.off * wc.dataSize + i < flen then
        wc.f (n * wc.blockSize + p.off * wc.dataSize + i)
      else wc.f (diskOffset wc p + i) := by
    intro i hi
    have hbuf : c.block (p.off * wc.dataSize + i) = wc.f (diskOffset wc p + i) := by
      unfold diskOffset at *
      rw [h.buffer _ (by omega) (by omega), Nat.add_assoc]
    split
    · next hin =>
      have hin' : n * wc.blockSize + (p.off * wc.dataSize + i) < flen := by omega
      rw [(nextBlock_at hn).buffer _ (by omega) hin', ← Nat.add_assoc]
    · next hout =>
      have hstart : (if (0 : Int) ≤ (n : Int) then (n : Int).toNat * wc.blockSize else c.filePos) =
          n * wc.blockSize := if_pos (Int.natCast_nonneg n)
      rw [(char_int_eq_iff n).mpr hn, ← hbuf]
      refine if_neg fun hread => hout ?_
      rw [hstart] at hread
      omega
  have hget : ∀ m : Memory Cell, ∀ off i, i < wc.dataSize →
      (load m off wc.dataSize)[i]? = some (m (off + i)) := fun m off i hi => load_getElem? m hi
  constructor
  · intro heq i hi hin
    have hi' := congrArg (fun l => l[i]?) heq
    simp only [record, hget _ _ i hi, Option.some.injEq] at hi'
    rw [hbyte i hi, if_pos hin] at hi'
    exact hi'
  · intro hkept
    apply List.ext_getElem?
    intro i
    by_cases hi : i < wc.dataSize
    · rw [record, hget _ _ i hi, hget _ _ i hi, hbyte i hi]
      split
      · next hin => rw [hkept i hi hin]
      · rfl
    · rw [List.getElem?_eq_none (by rw [load_length]; omega),
        List.getElem?_eq_none (by rw [record, load_length]; omega)]

theorem wincNext_block {g : Got} (h : (wincNext wc flen c).1 = some g) :
    g.block = c.cursorBlock := by
  unfold wincNext at h
  split at h
  · cases h
    rfl
  · cases h

theorem wincNext_before (hend : c.cursorBlock < c.cursorEnd.block) :
    (wincNext wc flen c).1 ≠ none := by
  rw [wincNext, if_pos (Or.inl hend)]
  nofun

theorem not_returns_of_link (hn : 128 ≤ n) (hpath : Path garble wc ⟨n, 0⟩ ps q)
    (hq : c.cursorEnd = q) :
    ¬Returns wc flen .next (nextBlock wc flen c (Cell.int n 0).char) (ps.map (got wc)) := by
  have hchar := char_int_lt n
  cases ps with
  | nil =>
    refine wincNext_before ?_
    show (Cell.int n 0).char < (c.cursorEnd.block : Int)
    rw [hq, ← hpath]
    show (Cell.int n 0).char < (n : Int)
    omega
  | cons x ps =>
    obtain ⟨rfl, -⟩ := hpath
    rintro ⟨hfirst, -⟩
    have hblock : (n : Int) = (Cell.int n 0).char := wincNext_block hfirst
    omega

theorem nexts_iff (hs : Sized wc) (hat : At wc flen p c) (hp : p.off < wc.nRecords)
    (hpath : Path garble wc p ps q) (hq : c.cursorEnd = q)
    (hrecords : ∀ x ∈ ps, diskOffset wc x + wc.dataSize ≤ flen)
    (hlinks : ∀ x ∈ ps, wc.nRecords ≤ x.off + 1 → linkOffset wc x.block + sizeofInt ≤ flen ∧
      load wc.f (linkOffset wc x.block) sizeofInt = intCells (next garble wc x).block) :
    Returns wc flen .next c (ps.map (got wc)) ↔ ∀ x ∈ ps, Readable wc flen garble q x := by
  induction ps generalizing p c with
  | nil =>
    obtain rfl : p = q := hpath
    refine iff_of_true (wincNext_end hat ?_) (fun x hx => absurd hx List.not_mem_nil)
    rw [hq]
    unfold BeforeEnd
    omega
  | cons x ps ih =>
    obtain ⟨rfl, hpath⟩ := hpath
    have hlen := hrecords x List.mem_cons_self
    have hrecords' := fun y hy => hrecords y (List.mem_cons_of_mem x hy)
    have hlinks' := fun y hy => hlinks y (List.mem_cons_of_mem x hy)
    rw [List.forall_mem_cons]
    show (wincNext wc flen c).1 = some (got wc x) ∧
      Returns wc flen .next (wincNext wc flen c).2 _ ↔ _
    by_cases hbefore : BeforeEnd x q
    · rw [← hq] at hbefore
      by_cases hlast : wc.nRecords ≤ x.off + 1
      · obtain ⟨hll, hlink⟩ := hlinks x List.mem_cons_self hlast
        have hnext : next garble wc x = ⟨(next garble wc x).block, 0⟩ := by
          rw [next, if_pos hlast]
        generalize (next garble wc x).block = n at hlink hnext
        rw [wincNext_last hat hs hbefore hlast hll hlink]
        rw [hnext] at hpath
        by_cases hn : n < 128
        · have hload := nextBlock_load_iff hat hs hp hlen hn
          have hrest := ih (nextBlock_at hn) (by show 0 < wc.nRecords; omega) hpath hq hrecords'
            hlinks'
          rw [hrest]
          refine and_congr_left fun _ => ?_
          constructor
          · intro hgot
            refine ⟨hq ▸ hbefore, fun _ => ?_⟩
            rw [hnext]
            exact ⟨hn, hload.mp (congrArg Got.data (Option.some.inj hgot))⟩
          · rintro ⟨-, hread⟩
            obtain ⟨-, hkept⟩ := hread hlast
            rw [hnext] at hkept
            rw [hload.mpr hkept]
            rfl
        · refine iff_of_false (fun h => ?_) (fun h => ?_)
          · exact not_returns_of_link (by omega) hpath hq h.2
          · have := (h.1.2 hlast).1
            rw [hnext] at this
            exact hn this
      · have hnext : next garble wc x = ⟨x.block, x.off + 1⟩ := if_neg hlast
        rw [wincNext_inside hat hs hbefore hlen hlast]
        rw [hnext] at hpath
        have hat' : At wc flen ⟨x.block, x.off + 1⟩ { c with cursorOff := x.off + 1 } :=
          ⟨hat.block, rfl, hat.buffer⟩
        have hrest := ih hat' (by show x.off + 1 < wc.nRecords; omega) hpath hq hrecords' hlinks'
        rw [hrest]
        refine and_congr_left fun _ => iff_of_true rfl ⟨hq ▸ hbefore, fun h => absurd h hlast⟩
    · refine iff_of_false (fun h => ?_) (fun h => hbefore h.1.1)
      have hnone : (wincNext wc flen c).1 = none := wincNext_end hat (hq.symm ▸ hbefore)
      rw [hnone] at h
      cases h.1

structure Slots (n : Nat) (win : Win) : Prop where
  begin : win.begin.off < n
  expired : win.expired.off < n
  current : win.current.off < n

structure SameShape (wc wc' : WinCtrl κ) : Prop where
  dataSize : wc'.dataSize = wc.dataSize
  blockSize : wc'.blockSize = wc.blockSize
  nRecords : wc'.nRecords = wc.nRecords
  keyhash : wc'.keyhash = wc.keyhash

theorem newBlock_shape (wc : WinCtrl κ) : SameShape wc (newBlock wc).2 := by
  unfold newBlock
  split <;> exact ⟨rfl, rfl, rfl, rfl⟩

theorem putCurrent_slots {win' : Win} (hn : 1 ≤ wc.nRecords) (h : Slots wc.nRecords win)
    {data : Nat → BitVec 8} (hput : putCurrent wc win data = (win', wc')) :
    Slots wc.nRecords win' ∧ SameShape wc wc' := by
  let wc₁ : WinCtrl κ :=
    { wc with f := store wc.f (diskOffset wc win.current) (tupleCells wc.dataSize data) }
  by_cases hlast : wc.nRecords ≤ win.current.off + 1
  · have hshape := newBlock_shape wc₁
    simp only [putCurrent, if_pos hlast] at hput
    cases hput
    exact ⟨⟨h.begin, h.expired, hn⟩,
      hshape.dataSize, hshape.blockSize, hshape.nRecords, hshape.keyhash⟩
  · simp only [putCurrent, if_neg hlast] at hput
    cases hput
    exact ⟨⟨h.begin, h.expired, by show win.current.off + 1 < _; omega⟩, rfl, rfl, rfl, rfl⟩

theorem expire_slots {win' : Win} (hn : 1 ≤ wc.nRecords) (h : Slots wc.nRecords win)
    (hexp : expire garble wc win = (win', wc')) :
    Slots wc.nRecords win' ∧ SameShape wc wc' := by
  have hfree : SameShape wc (if win.begin.off = 0 then freeBlock wc win.expired.block else wc) := by
    split <;> exact ⟨rfl, rfl, rfl, rfl⟩
  cases hexp
  refine ⟨⟨?_, h.begin, h.current⟩, hfree⟩
  rw [hfree.nRecords]
  split
  · exact hn
  · next hin =>
    show win.begin.off + 1 < wc.nRecords
    omega

/-- What holds of a control structure for tuples of `d` bytes in every run. -/
structure Placed (d : Nat) (wc : WinCtrl κ) : Prop where
  dataSize : wc.dataSize = d
  blockSize : wc.blockSize = blockSizeOf d
  nRecords : wc.nRecords = nRecordsOf d
  slots : ∀ k win, wc.keyhash k = some win → Slots wc.nRecords win

variable {d : Nat}

theorem Placed.sized (h : Placed d wc) : Sized wc := by
  have hpage := blockSizeOf_ge d
  refine ⟨?_, ?_⟩
  · rw [h.nRecords, h.dataSize, h.blockSize]
    exact Nat.div_mul_le_self _ _
  · rw [h.blockSize]
    exact (by decide : sizeofInt ≤ pageSize).trans hpage

theorem Placed.of_shape (h : Placed d wc) (hs : SameShape wc wc') :
    Placed d wc' := by
  refine ⟨hs.dataSize.trans h.dataSize, hs.blockSize.trans h.blockSize,
    hs.nRecords.trans h.nRecords, fun k win hk => ?_⟩
  rw [hs.nRecords]
  exact h.slots k win (hs.keyhash ▸ hk)

variable [DecidableEq κ]

theorem Placed.setWin (h : Placed d wc) (k : κ) (hw : Slots wc.nRecords win) :
    Placed d (setWin wc k win) := by
  refine ⟨h.dataSize, h.blockSize, h.nRecords, fun k' win' hk' => ?_⟩
  have hk' : Function.update wc.keyhash k (some win) k' = some win' := hk'
  by_cases hk : k' = k
  · subst hk
    rw [Function.update_self] at hk'
    cases hk'
    exact hw
  · rw [Function.update_of_ne hk] at hk'
    exact h.slots k' win' hk'

theorem Placed.findWin (h : Placed d wc) (hn : 1 ≤ wc.nRecords) (k : κ)
    (hfind : findWin wc k = (win, wc')) :
    Placed d wc' ∧ Slots wc'.nRecords win := by
  cases hk : wc.keyhash k with
  | some win₀ =>
    simp only [Disk.findWin, hk] at hfind
    cases hfind
    exact ⟨h, h.slots k _ hk⟩
  | none =>
    have hshape := newBlock_shape wc
    have hn' : 1 ≤ (newBlock wc).2.nRecords := hshape.nRecords.symm ▸ hn
    have hnew : Slots (newBlock wc).2.nRecords (newWin wc).1 := ⟨hn', hn', hn'⟩
    simp only [Disk.findWin, hk] at hfind
    cases hfind
    exact ⟨(h.of_shape hshape).setWin k hnew, hnew⟩

theorem Placed.winPutTuple (h : Placed d wc) (hn : 1 ≤ wc.nRecords) (k : κ)
    (data : Nat → BitVec 8) : Placed d (winPutTuple garble wc k data) := by
  rcases hfind : Disk.findWin wc k with ⟨win, wc₁⟩
  rcases hput : putCurrent wc₁ win data with ⟨win₂, wc₂⟩
  rcases hexp : expire garble wc₂ win₂ with ⟨win₃, wc₃⟩
  obtain ⟨h₁, hw₁⟩ := h.findWin hn k hfind
  have hn₁ : 1 ≤ wc₁.nRecords := by rwa [h₁.nRecords, ← h.nRecords]
  obtain ⟨hw₂, hs₂⟩ := putCurrent_slots hn₁ hw₁ hput
  have h₂ := h₁.of_shape hs₂
  rw [← hs₂.nRecords] at hw₂ hn₁
  obtain ⟨hw₃, hs₃⟩ := expire_slots hn₁ hw₂ hexp
  simp only [Disk.winPutTuple, hfind, hput]
  cases wc₂.winType with
  | time => exact h₂.setWin k hw₂
  | row =>
    dsimp only
    split
    · rw [hexp]
      exact (h₂.of_shape hs₃).setWin k (hs₃.nRecords.symm ▸ hw₃)
    · exact h₂.setWin k hw₂

theorem placed_putAll (garble : List Cell → Nat) (type : WinType) (w : Nat)
    (hrec : 1 ≤ nRecordsOf d) (f : Memory Cell) (ops : List (κ × (Nat → BitVec 8))) :
    Placed d (putAll garble (newWinCtrl type w d f) ops) := by
  induction ops using List.reverseRecOn with
  | nil => exact ⟨rfl, rfl, rfl, nofun⟩
  | append_singleton ops op ih =>
    rw [putAll_concat]
    exact ih.winPutTuple (ih.nRecords.symm ▸ hrec) op.1 op.2

/-- After any run of puts, the cursor of a window whose chain is intact gives the records of the
chain, in order and each once, exactly if every one of them is readable. -/
theorem cursor_returns_iff (garble : List Cell → Nat) (type : WinType) (w d : Nat)
    (hrec : 1 ≤ nRecordsOf d) (f : Memory Cell) (ops : List (κ × (Nat → BitVec 8))) (k : κ)
    (win : Win) (hk : (putAll garble (newWinCtrl type w d f) ops).keyhash k = some win)
    (expired_p : Bool) (c : Winc) (flen : Nat) (ps : List Off)
    (hchain : Intact (putAll garble (newWinCtrl type w d f) ops) flen garble
      (winCursor win expired_p c).cursorBeg ps (winCursor win expired_p c).cursorEnd) :
    Returns (putAll garble (newWinCtrl type w d f) ops) flen .first (winCursor win expired_p c)
        (ps.map (got (putAll garble (newWinCtrl type w d f) ops))) ↔
      ∀ p ∈ ps, Readable (putAll garble (newWinCtrl type w d f) ops) flen garble
        (winCursor win expired_p c).cursorEnd p := by
  have hplaced := placed_putAll garble type w hrec f ops
  generalize putAll garble (newWinCtrl type w d f) ops = wc at *
  have hslots := hplaced.slots k win hk
  have hbeg : (winCursor win expired_p c).cursorBeg.off < wc.nRecords := by
    cases expired_p
    · exact hslots.begin
    · exact hslots.expired
  generalize winCursor win expired_p c = c at *
  have hat : At wc flen c.cursorBeg (readBlock wc flen
      { c with cursorBlock := c.cursorBeg.block, cursorOff := c.cursorBeg.off }) :=
    readBlock_at c.cursorBeg.block c.cursorBeg.off
  rw [← nexts_iff hplaced.sized hat hbeg hchain.path rfl hchain.records hchain.links]
  cases ps <;> rfl

/-- Two tuples of 100 bytes, in one block. -/
theorem cursor_returns_iff_two :
    Returns (putAll (fun _ => 0) (newWinCtrl .row 5 100 fun _ => .byte 0)
        [((), fun _ => 1), ((), fun _ => 2)]) 200 .first
      (winCursor ⟨2, ⟨0, 0⟩, ⟨0, 0⟩, ⟨0, 2⟩⟩ false ⟨⟨0, 0⟩, ⟨0, 0⟩, 0, 0, fun _ => .byte 0, 0⟩)
      (List.map (got (putAll (fun _ => 0) (newWinCtrl .row 5 100 fun _ => .byte 0)
        [((), fun _ => 1), ((), fun _ => 2)])) [⟨0, 0⟩, ⟨0, 1⟩]) := by
  refine (cursor_returns_iff (fun _ => 0) .row 5 100 (by decide) (fun _ => .byte 0)
    [((), fun _ => 1), ((), fun _ => 2)] () ⟨2, ⟨0, 0⟩, ⟨0, 0⟩, ⟨0, 2⟩⟩ rfl false
    ⟨⟨0, 0⟩, ⟨0, 0⟩, 0, 0, fun _ => .byte 0, 0⟩ 200 [⟨0, 0⟩, ⟨0, 1⟩]
    ⟨⟨rfl, rfl, rfl⟩, by decide, by decide, fun x hx hlast => ?_⟩).mpr
      fun x hx => ⟨?_, fun hlast => ?_⟩
  · exact absurd hlast (by revert x; decide)
  · revert x
    unfold BeforeEnd
    decide
  · exact absurd hlast (by revert x; decide)

def fourPuts : WinCtrl Unit :=
  putAll (fun _ => 0) (newWinCtrl .row 10 2000 fun _ => .byte 0)
    [((), fun _ => 1), ((), fun _ => 2), ((), fun _ => 3), ((), fun _ => 4)]

theorem fourPuts_intact : Intact fourPuts 8192 (fun _ => 0) ⟨0, 0⟩
    [⟨0, 0⟩, ⟨0, 1⟩, ⟨1, 0⟩, ⟨1, 1⟩] ⟨2, 0⟩ := by
  have h00 : next (fun _ => 0) fourPuts ⟨0, 0⟩ = ⟨0, 1⟩ := by decide +kernel
  have h01 : next (fun _ => 0) fourPuts ⟨0, 1⟩ = ⟨1, 0⟩ := by decide +kernel
  have h10 : next (fun _ => 0) fourPuts ⟨1, 0⟩ = ⟨1, 1⟩ := by decide +kernel
  have h11 : next (fun _ => 0) fourPuts ⟨1, 1⟩ = ⟨2, 0⟩ := by decide +kernel
  refine ⟨⟨rfl, h00.symm, ?_⟩, by decide, by decide +kernel, by decide +kernel⟩
  refine ⟨h01.symm, ?_⟩
  refine ⟨h10.symm, ?_⟩
  exact h11

/-- The second tuple comes out as the fourth, whose block has been read over it. -/
theorem lastRecord_not_returned :
    ¬∀ (w d : Nat), 1 ≤ nRecordsOf d →
      ∀ (f : Memory Cell) (ops : List (Unit × (Nat → BitVec 8))) (win : Win),
      (putAll (fun _ => 0) (newWinCtrl .row w d f) ops).keyhash () = some win →
      ∀ (c : Winc) (flen : Nat) (ps : List Off),
      Intact (putAll (fun _ => 0) (newWinCtrl .row w d f) ops) flen (fun _ => 0)
        (winCursor win false c).cursorBeg ps (winCursor win false c).cursorEnd →
      Returns (putAll (fun _ => 0) (newWinCtrl .row w d f) ops) flen .first
        (winCursor win false c)
        (ps.map (got (putAll (fun _ => 0) (newWinCtrl .row w d f) ops))) := by
  intro hall
  have hplaced : Placed 2000 fourPuts := placed_putAll _ _ _ (by decide) _ _
  have hchain := fourPuts_intact
  have hreturns := hall 10 2000 (by decide) (fun _ => .byte 0)
    [((), fun _ => 1), ((), fun _ => 2), ((), fun _ => 3), ((), fun _ => 4)]
    ⟨4, ⟨0, 0⟩, ⟨0, 0⟩, ⟨2, 0⟩⟩ rfl ⟨⟨0, 0⟩, ⟨0, 0⟩, 0, 0, fun _ => .byte 0, 0⟩ 8192 _ hchain
  have hreadable := (nexts_iff hplaced.sized (readBlock_at 0 0) (by decide +kernel) hchain.path rfl
    hchain.records hchain.links).mp hreturns
  obtain ⟨-, hlast⟩ := hreadable ⟨0, 1⟩ (by decide)
  obtain ⟨-, hkept⟩ := hlast (by decide +kernel)
  have hbyte := hkept 0 (by decide +kernel) (by decide +kernel)
  revert hbyte
  decide +kernel

end Disk
end StreamMill.Window
