import StreamMill.Window.Disk

/-!
# StreamMill.Window.DiskPut

What the windows of `atlaswin.cc` should keep. `Right` says that the positions from `begin` to
`current` of every window hold its last tuples, that the windows have blocks of their own, none of
them free, and that no link lies over a record. `_adl_winPutTuple` keeps it as long as the windows
only fill (`Filling`); the first tuple that expires frees the block of `begin`, and where a block
has no four bytes left the link overwrites its last record (`putAll_right_iff`).
-/

namespace StreamMill.Window
namespace Disk

open Lib Lib.Memory

variable {κ : Type} {garble : List Cell → Nat}

def next (garble : List Cell → Nat) (wc : WinCtrl κ) (p : Off) : Off :=
  if wc.nRecords ≤ p.off + 1 then ⟨readNextBlockId garble wc p.block, 0⟩
  else ⟨p.block, p.off + 1⟩

def Path (garble : List Cell → Nat) (wc : WinCtrl κ) : Off → List Off → Off → Prop
  | p, [], q => p = q
  | p, x :: ps, q => x = p ∧ Path garble wc (next garble wc p) ps q

def record (wc : WinCtrl κ) (p : Off) : List Cell := load wc.f (diskOffset wc p) wc.dataSize

/-- The link of `block` does not lie over the record at `p`. -/
def LinkApart (wc : WinCtrl κ) (block : Nat) (p : Off) : Prop :=
  diskOffset wc p + wc.dataSize ≤ linkOffset wc block ∨
    linkOffset wc block + sizeofInt ≤ diskOffset wc p

/-- `puts k` are the tuples put for `k` so far; `gone k` are the positions from `expired` to
`begin`, `kept k` those from `begin` to `current`. -/
structure RightWith (garble : List Cell → Nat) (wc : WinCtrl κ) (puts : κ → List (Nat → BitVec 8))
    (gone kept : κ → List Off) : Prop where
  absent : ∀ k, wc.keyhash k = none → puts k = []
  gonePath : ∀ k win, wc.keyhash k = some win → Path garble wc win.expired (gone k) win.begin
  keptPath : ∀ k win, wc.keyhash k = some win → Path garble wc win.begin (kept k) win.current
  tuples : ∀ k win, wc.keyhash k = some win → (kept k).map (record wc) =
    ((puts k).drop ((puts k).length - wc.winSize)).map (tupleCells wc.dataSize)
  apart : ∀ k k' win win', k ≠ k' → wc.keyhash k = some win → wc.keyhash k' = some win' →
    ∀ p ∈ gone k ++ kept k ++ [win.current], ∀ p' ∈ gone k' ++ kept k' ++ [win'.current],
      p.block ≠ p'.block
  free : ∀ k win, wc.keyhash k = some win → ∀ p ∈ gone k ++ kept k ++ [win.current],
    p.block ∉ wc.freeBlocks
  links : ∀ k win, wc.keyhash k = some win → ∀ p ∈ gone k ++ kept k, ∀ q ∈ gone k ++ kept k,
    wc.nRecords ≤ q.off + 1 → LinkApart wc q.block p

/-- Every window has what it should have. -/
def Right (garble : List Cell → Nat) (wc : WinCtrl κ) (puts : κ → List (Nat → BitVec 8)) : Prop :=
  ∃ gone kept, RightWith garble wc puts gone kept

/-! ## Paths -/

variable {wc wc' : WinCtrl κ} {p q : Off} {ps : List Off}

section

variable (h : Path garble wc p ps q)
include h

theorem Path.congr (hnext : ∀ x ∈ ps, next garble wc' x = next garble wc x) :
    Path garble wc' p ps q := by
  induction ps generalizing p with
  | nil => exact h
  | cons x ps ih =>
    obtain ⟨rfl, h⟩ := h
    refine ⟨rfl, ?_⟩
    rw [hnext x List.mem_cons_self]
    exact ih h fun y hy => hnext y (List.mem_cons_of_mem _ hy)

theorem Path.snoc : Path garble wc p (ps ++ [q]) (next garble wc q) := by
  induction ps generalizing p with
  | nil =>
    obtain rfl : p = q := h
    exact ⟨rfl, rfl⟩
  | cons x ps ih =>
    obtain ⟨rfl, h⟩ := h
    exact ⟨rfl, ih h⟩

theorem Path.within (hlen : p.off + ps.length < wc.nRecords) :
    q = ⟨p.block, p.off + ps.length⟩ := by
  induction ps generalizing p with
  | nil =>
    obtain rfl : p = q := h
    rfl
  | cons x ps ih =>
    obtain ⟨-, h⟩ := h
    rw [List.length_cons] at hlen
    have hnext : next garble wc p = ⟨p.block, p.off + 1⟩ := if_neg (by omega)
    rw [hnext] at h
    rw [ih h (by show p.off + 1 + ps.length < _; omega), List.length_cons]
    rw [Nat.add_assoc, Nat.add_comm 1]

theorem Path.last_mem (hp : p.off < wc.nRecords) (hq : q.block ≠ p.block) :
    ⟨p.block, wc.nRecords - 1⟩ ∈ ps := by
  induction ps generalizing p with
  | nil =>
    obtain rfl : p = q := h
    exact absurd rfl hq
  | cons x ps ih =>
    obtain ⟨rfl, h⟩ := h
    by_cases hlast : wc.nRecords ≤ x.off + 1
    · have hoff : x.off = wc.nRecords - 1 := by omega
      rw [← hoff]
      exact List.mem_cons_self
    · have hnext : next garble wc x = ⟨x.block, x.off + 1⟩ := if_neg hlast
      rw [hnext] at h
      have hlt : x.off + 1 < wc.nRecords := by omega
      exact List.mem_cons_of_mem _ (ih (p := ⟨x.block, x.off + 1⟩) h hlt hq)

theorem Path.head_mem : p ∈ ps ++ [q] := by
  cases ps with
  | nil =>
    obtain rfl : p = q := h
    exact List.mem_cons_self
  | cons x ps =>
    obtain ⟨rfl, -⟩ := h
    exact List.mem_cons_self

end

/-! ## Windows that only fill -/

/-- A window from which nothing has expired; `ds` are its tuples. -/
structure FillingWin (garble : List Cell → Nat) (wc : WinCtrl κ) (win : Win)
    (ds : List (Nat → BitVec 8)) (kept : List Off) : Prop where
  expired : win.expired = win.begin
  beginOff : win.begin.off = 0
  count : win.count = ds.length
  path : Path garble wc win.begin kept win.current
  tuples : kept.map (record wc) = ds.map (tupleCells wc.dataSize)
  slots : ∀ p ∈ kept, p.block < wc.lastBlock ∧ p.off < wc.nRecords ∧ p.off < ds.length
  current : win.current.block < wc.lastBlock ∧ win.current.off < wc.nRecords ∧
    win.current.off ≤ ds.length
  /-- The records of the current block are before `current`. -/
  before : ∀ p ∈ kept, p.block = win.current.block → p.off < win.current.off

def LinksFit (wc : WinCtrl κ) (puts : κ → List (Nat → BitVec 8)) : Prop :=
  wc.nRecords * wc.dataSize + sizeofInt ≤ wc.blockSize ∨ ∀ k, (puts k).length < wc.nRecords

structure Filling (garble : List Cell → Nat) (wc : WinCtrl κ) (puts : κ → List (Nat → BitVec 8))
    (kept : κ → List Off) : Prop where
  row : wc.winType = .row
  pos : 1 ≤ wc.nRecords
  fits : wc.nRecords * wc.dataSize ≤ wc.blockSize
  data : 1 ≤ wc.dataSize
  block : sizeofInt ≤ wc.blockSize
  links : LinksFit wc puts
  free : wc.freeBlocks = []
  absent : ∀ k, wc.keyhash k = none → puts k = []
  window : ∀ k win, wc.keyhash k = some win → FillingWin garble wc win (puts k) (kept k)
  apart : ∀ k k' win win', k ≠ k' → wc.keyhash k = some win → wc.keyhash k' = some win' →
    ∀ p ∈ kept k ++ [win.current], ∀ p' ∈ kept k' ++ [win'.current], p.block ≠ p'.block

variable {puts : κ → List (Nat → BitVec 8)} {kept : κ → List Off} {k : κ} {win : Win}

theorem Filling.room (h : Filling garble wc puts kept) (hk : wc.keyhash k = some win)
    (hp : p ∈ kept k) (hfull : wc.nRecords ≤ p.off + 1) :
    wc.nRecords * wc.dataSize + sizeofInt ≤ wc.blockSize := by
  obtain hroom | hshort := h.links
  · exact hroom
  · have := ((h.window k win hk).slots p hp).2.2
    have := hshort k
    omega

variable {d : Nat} {win' : Win} {data : Nat → BitVec 8}

theorem record_apart {bs n : Nat} (hfits : n * d ≤ bs) (hp : p.off < n) (hq : q.off < n)
    (hne : p ≠ q) :
    p.block * bs + p.off * d + d ≤ q.block * bs + q.off * d ∨
      q.block * bs + q.off * d + d ≤ p.block * bs + p.off * d := by
  have hin : ∀ o : Nat, o < n → o * d + d ≤ bs := fun o ho => by
    have := Nat.mul_le_mul_right d ho
    rw [Nat.succ_mul] at this
    exact this.trans hfits
  have hstep : ∀ a b : Nat, a < b → a * bs + bs ≤ b * bs := fun a b hab => by
    have := Nat.mul_le_mul_right bs hab
    rwa [Nat.succ_mul] at this
  have hd : ∀ a b : Nat, a < b → a * d + d ≤ b * d := fun a b hab => by
    have := Nat.mul_le_mul_right d hab
    rwa [Nat.succ_mul] at this
  have hp' := hin p.off hp
  have hq' := hin q.off hq
  rcases Nat.lt_trichotomy p.block q.block with hb | hb | hb
  · have := hstep _ _ hb
    omega
  · rcases Nat.lt_trichotomy p.off q.off with ho | ho | ho
    · have := hd _ _ ho
      rw [hb]
      omega
    · exact absurd (by cases p; simp_all) hne
    · have := hd _ _ ho
      rw [hb]
      omega
  · have := hstep _ _ hb
    omega

theorem link_apart {bs n : Nat} (hroom : n * d + sizeofInt ≤ bs) (hp : p.off < n) (b : Nat) :
    p.block * bs + p.off * d + d ≤ (b + 1) * bs - sizeofInt ∨
      (b + 1) * bs - sizeofInt + sizeofInt ≤ p.block * bs + p.off * d := by
  have hin : p.off * d + d ≤ n * d := by
    have := Nat.mul_le_mul_right d hp
    rwa [Nat.succ_mul] at this
  have hb : (b + 1) * bs = b * bs + bs := Nat.succ_mul b bs
  rcases Nat.lt_or_ge b p.block with h | h
  · have := Nat.mul_le_mul_right bs h
    rw [Nat.succ_mul] at this
    omega
  · have := Nat.mul_le_mul_right bs h
    omega

/-- What writing a tuple at `current` does, as far as the positions can see. -/
structure Written (garble : List Cell → Nat) (wc wc' : WinCtrl κ) (cur cur' : Off)
    (data : Nat → BitVec 8) : Prop where
  same : wc'.winType = wc.winType ∧ wc'.winSize = wc.winSize ∧ wc'.dataSize = wc.dataSize ∧
    wc'.blockSize = wc.blockSize ∧ wc'.nRecords = wc.nRecords ∧ wc'.freeBlocks = wc.freeBlocks ∧
    wc'.keyhash = wc.keyhash
  new : record wc' cur = tupleCells wc.dataSize data
  next : next garble wc' cur = cur'
  old : ∀ p, p.off < wc.nRecords → p ≠ cur → record wc' p = record wc p
  nexts : ∀ p, p.off < wc.nRecords → p ≠ cur →
    (wc.nRecords ≤ p.off + 1 → wc.nRecords * wc.dataSize + sizeofInt ≤ wc.blockSize) →
    Disk.next garble wc' p = Disk.next garble wc p
  place : (cur' = ⟨cur.block, cur.off + 1⟩ ∧ cur.off + 1 < wc.nRecords ∧
      wc'.lastBlock = wc.lastBlock) ∨
    (cur' = ⟨wc.lastBlock, 0⟩ ∧ wc.nRecords ≤ cur.off + 1 ∧ wc'.lastBlock = wc.lastBlock + 1)

@[simp] theorem tupleCells_length (d : Nat) (data : Nat → BitVec 8) :
    (tupleCells d data).length = d := by simp [tupleCells]

theorem record_store {pos : Nat} {cells : List Cell}
    (h : diskOffset wc p + wc.dataSize ≤ pos ∨ pos + cells.length ≤ diskOffset wc p) :
    record { wc with f := store wc.f pos cells } p = record wc p := load_store_other h

theorem next_congr (hn : wc'.nRecords = wc.nRecords) (hb : wc'.blockSize = wc.blockSize)
    (h : wc.nRecords ≤ p.off + 1 → load wc'.f (linkOffset wc p.block) sizeofInt =
      load wc.f (linkOffset wc p.block) sizeofInt) : next garble wc' p = next garble wc p := by
  unfold next
  rw [hn]
  by_cases hlast : wc.nRecords ≤ p.off + 1
  · have hl : linkOffset wc' p.block = linkOffset wc p.block := by rw [linkOffset, hb, linkOffset]
    rw [readNextBlockId, hl, h hlast, readNextBlockId]
  · rw [if_neg hlast, if_neg hlast]

theorem asInt_intCells (garble : List Cell → Nat) (n : Nat) : asInt garble (intCells n) = n := by
  simp [asInt, intCells]

theorem newBlock_of_free (hfree : wc.freeBlocks = []) :
    newBlock wc = (wc.lastBlock, { wc with lastBlock := wc.lastBlock + 1 }) := by
  unfold newBlock
  split
  · next h =>
    rw [hfree] at h
    cases h
  · rfl

variable (garble) in
theorem putCurrent_written (hfits : wc.nRecords * wc.dataSize ≤ wc.blockSize)
    (hblk : sizeofInt ≤ wc.blockSize) (hfree : wc.freeBlocks = [])
    (hcur : win.current.off < wc.nRecords)
    (hroom : wc.nRecords ≤ win.current.off + 1 →
      wc.nRecords * wc.dataSize + sizeofInt ≤ wc.blockSize) (data : Nat → BitVec 8) :
    ∃ cur' wc', putCurrent wc win data =
        ({ win with current := cur', count := win.count + 1 }, wc') ∧
      Written garble wc wc' win.current cur' data := by
  let wc₁ : WinCtrl κ :=
    { wc with f := store wc.f (diskOffset wc win.current) (tupleCells wc.dataSize data) }
  have hlen : (tupleCells wc.dataSize data).length = wc.dataSize := tupleCells_length _ _
  have hnew : record wc₁ win.current = tupleCells wc.dataSize data := by
    have := load_store_same wc.f (diskOffset wc win.current) (tupleCells wc.dataSize data)
    rwa [hlen] at this
  have hold : ∀ p, p.off < wc.nRecords → p ≠ win.current → record wc₁ p = record wc p := by
    intro p hp hne
    refine record_store ?_
    rw [hlen]
    exact record_apart hfits hp hcur hne
  have hnexts : ∀ p, (wc.nRecords ≤ p.off + 1 →
      wc.nRecords * wc.dataSize + sizeofInt ≤ wc.blockSize) →
      next garble wc₁ p = next garble wc p := by
    intro p hp
    refine next_congr rfl rfl fun hlast => load_store_other ?_
    rw [hlen]
    exact (link_apart (hp hlast) hcur p.block).symm
  by_cases hlast : wc.nRecords ≤ win.current.off + 1
  · have hroom := hroom hlast
    let wc₂ : WinCtrl κ :=
      { wc₁ with
        lastBlock := wc.lastBlock + 1
        f := store wc₁.f (linkOffset wc win.current.block) (intCells wc.lastBlock) }
    have hput : putCurrent wc win data =
        ({ win with current := ⟨wc.lastBlock, 0⟩, count := win.count + 1 }, wc₂) := by
      have hnew : newBlock wc₁ = _ := newBlock_of_free hfree
      simp only [putCurrent, if_pos hlast]
      rw [hnew]
      rfl
    have hlink : ∀ p, p.off < wc.nRecords → record wc₂ p = record wc₁ p := fun p hp =>
      load_store_other (link_apart hroom hp win.current.block)
    refine ⟨_, wc₂, hput, ⟨rfl, rfl, rfl, rfl, rfl, rfl, rfl⟩, ?_, ?_, ?_, ?_,
      .inr ⟨rfl, hlast, rfl⟩⟩
    · rw [hlink _ hcur, hnew]
    · have hread : load wc₂.f (linkOffset wc win.current.block) sizeofInt =
          intCells wc.lastBlock :=
        load_store_same wc₁.f (linkOffset wc win.current.block) (intCells wc.lastBlock)
      rw [next, if_pos hlast, readNextBlockId]
      show (⟨asInt garble (load wc₂.f (linkOffset wc win.current.block) sizeofInt), 0⟩ : Off) = _
      rw [hread, asInt_intCells]
    · intro p hp hne
      rw [hlink p hp, hold p hp hne]
    · intro p hp hne hp'
      rw [← hnexts p hp']
      show next garble wc₂ p = next garble wc₁ p
      refine next_congr rfl rfl fun hplast => load_store_other ?_
      -- the two blocks are full, so they are different blocks
      have hplast : wc.nRecords ≤ p.off + 1 := hplast
      have hb : p.block ≠ win.current.block := by
        intro hb
        have hoff : p.off = win.current.off := by omega
        exact hne (by cases p; cases hw : win.current; simp_all)
      have hstep : ∀ a b : Nat, a < b → (a + 1) * wc.blockSize + wc.blockSize ≤
          (b + 1) * wc.blockSize := fun a b hab => by
        have := Nat.mul_le_mul_right wc.blockSize (show a + 1 + 1 ≤ b + 1 by omega)
        rwa [Nat.succ_mul] at this
      have hmin : wc.blockSize ≤ (p.block + 1) * wc.blockSize :=
        Nat.le_mul_of_pos_left _ (Nat.succ_pos _)
      have hmin' : wc.blockSize ≤ (win.current.block + 1) * wc.blockSize :=
        Nat.le_mul_of_pos_left _ (Nat.succ_pos _)
      show (p.block + 1) * wc.blockSize - sizeofInt + sizeofInt ≤
          (win.current.block + 1) * wc.blockSize - sizeofInt ∨
        (win.current.block + 1) * wc.blockSize - sizeofInt + sizeofInt ≤
          (p.block + 1) * wc.blockSize - sizeofInt
      rcases Nat.lt_or_gt_of_ne hb with h | h
      · have := hstep _ _ h
        omega
      · have := hstep _ _ h
        omega
  · have hput : putCurrent wc win data =
        ({ win with current := ⟨win.current.block, win.current.off + 1⟩, count := win.count + 1 },
          wc₁) := by
      simp only [putCurrent, if_neg hlast]
      rfl
    refine ⟨_, wc₁, hput, ⟨rfl, rfl, rfl, rfl, rfl, rfl, rfl⟩, hnew, ?_, hold,
      fun p _ _ hp => hnexts p hp, .inl ⟨rfl, by omega, rfl⟩⟩
    exact if_neg hlast

theorem FillingWin.congr {ds : List (Nat → BitVec 8)} (h : FillingWin garble wc win ds ps)
    (hn : wc'.nRecords = wc.nRecords) (hd : wc'.dataSize = wc.dataSize)
    (hl : wc.lastBlock ≤ wc'.lastBlock) (hrec : ∀ p ∈ ps, record wc' p = record wc p)
    (hnext : ∀ p ∈ ps, next garble wc' p = next garble wc p) : FillingWin garble wc' win ds ps := by
  refine ⟨h.expired, h.beginOff, h.count, h.path.congr hnext, ?_, fun p hp => ?_, ?_, h.before⟩
  · rw [List.map_congr_left hrec, h.tuples, hd]
  · obtain ⟨h1, h2, h3⟩ := h.slots p hp
    exact ⟨h1.trans_le hl, hn ▸ h2, h3⟩
  · obtain ⟨h1, h2, h3⟩ := h.current
    exact ⟨h1.trans_le hl, hn ▸ h2, h3⟩

theorem FillingWin.slot {ds : List (Nat → BitVec 8)} (h : FillingWin garble wc win ds ps)
    (hp : p ∈ ps ++ [win.current]) : p.block < wc.lastBlock := by
  rcases List.mem_append.mp hp with hp | hp
  · exact (h.slots p hp).1
  · rw [List.mem_singleton.mp hp]
    exact h.current.1

theorem Filling.right (h : Filling garble wc puts kept)
    (hcount : ∀ k, (puts k).length ≤ wc.winSize) : Right garble wc puts := by
  refine ⟨fun _ => [], kept, h.absent, fun k win hk => ?_, fun k win hk => (h.window k win hk).path,
    fun k win hk => ?_, ?_, fun k win hk p _ => ?_, fun k win hk p hp q hq hlast => ?_⟩
  · exact (h.window k win hk).expired
  · rw [Nat.sub_eq_zero_of_le (hcount k)]
    exact (h.window k win hk).tuples
  · simpa using h.apart
  · rw [h.free]
    exact List.not_mem_nil
  · exact link_apart (h.room hk hq hlast) ((h.window k win hk).slots p hp).2.1 q.block

/-- The last record of the first block is overwritten by the link. -/
theorem not_right_of_link (hk : wc.keyhash k = some win') (hoff : win'.begin.off = 0)
    (hpos : 1 ≤ wc.nRecords) (hfits : wc.nRecords * wc.dataSize ≤ wc.blockSize)
    (hdata : 1 ≤ wc.dataSize) (hblk : sizeofInt ≤ wc.blockSize)
    (hroom : ¬wc.nRecords * wc.dataSize + sizeofInt ≤ wc.blockSize)
    (hcur : win'.current.block ≠ win'.begin.block) (puts : κ → List (Nat → BitVec 8)) :
    ¬Right garble wc puts := by
  rintro ⟨gone, kept, h⟩
  have hmem := (h.keptPath k win' hk).last_mem (by omega) hcur
  have hlink := h.links k win' hk _ (List.mem_append_right _ hmem) _
    (List.mem_append_right _ hmem) (show wc.nRecords ≤ wc.nRecords - 1 + 1 by omega)
  obtain ⟨n, hn⟩ : ∃ n, wc.nRecords = n + 1 := ⟨wc.nRecords - 1, by omega⟩
  have hb : (win'.begin.block + 1) * wc.blockSize = win'.begin.block * wc.blockSize + wc.blockSize :=
    Nat.succ_mul _ _
  unfold LinkApart diskOffset linkOffset at hlink
  rw [hn, Nat.succ_mul] at hfits hroom
  rw [hn, Nat.add_sub_cancel] at hlink
  dsimp only at hlink
  omega

theorem putCurrent_same (h : putCurrent wc win data = (win', wc')) :
    win'.begin = win.begin ∧ win'.expired = win.expired ∧ win'.count = win.count + 1 ∧
      wc'.winType = wc.winType ∧ wc'.winSize = wc.winSize := by
  unfold putCurrent newBlock at h
  dsimp only at h
  split at h
  · split at h <;> cases h <;> exact ⟨rfl, rfl, rfl, rfl, rfl⟩
  · cases h
    exact ⟨rfl, rfl, rfl, rfl, rfl⟩

theorem putCurrent_last (hfree : wc.freeBlocks = []) (hlast : wc.nRecords ≤ win.current.off + 1)
    (data : Nat → BitVec 8) :
    ∃ wc', putCurrent wc win data =
        ({ win with current := ⟨wc.lastBlock, 0⟩, count := win.count + 1 }, wc') ∧
      wc'.winType = wc.winType ∧ wc'.winSize = wc.winSize ∧ wc'.nRecords = wc.nRecords ∧
      wc'.dataSize = wc.dataSize ∧ wc'.blockSize = wc.blockSize := by
  let wc₁ : WinCtrl κ :=
    { wc with f := store wc.f (diskOffset wc win.current) (tupleCells wc.dataSize data) }
  have hnew : newBlock wc₁ = _ := newBlock_of_free hfree
  simp only [putCurrent, if_pos hlast]
  rw [hnew]
  exact ⟨_, rfl, rfl, rfl, rfl, rfl, rfl⟩

def Fine (wc : WinCtrl κ) (puts : κ → List (Nat → BitVec 8)) : Prop :=
  (∀ k, (puts k).length ≤ wc.winSize) ∧ LinksFit wc puts

def SameSizes (wc wc' : WinCtrl κ) : Prop :=
  wc'.winSize = wc.winSize ∧ wc'.dataSize = wc.dataSize ∧ wc'.blockSize = wc.blockSize ∧
    wc'.nRecords = wc.nRecords

theorem Fine.congr (hs : SameSizes wc wc') (puts : κ → List (Nat → BitVec 8)) :
    Fine wc' puts ↔ Fine wc puts := by
  obtain ⟨hsize, hdata, hblock, hrecs⟩ := hs
  rw [Fine, LinksFit, hsize, hdata, hblock, hrecs]
  rfl

variable [DecidableEq κ]

theorem Filling.find (h : Filling garble wc puts kept) (k : κ) :
    ∃ win wc₁ kept₁, findWin wc k = (win, wc₁) ∧ wc₁.keyhash k = some win ∧
      wc₁.winSize = wc.winSize ∧ wc₁.nRecords = wc.nRecords ∧ wc₁.dataSize = wc.dataSize ∧
      wc₁.blockSize = wc.blockSize ∧ Filling garble wc₁ puts kept₁ := by
  cases hk : wc.keyhash k with
  | some win =>
    refine ⟨win, wc, kept, ?_, hk, rfl, rfl, rfl, rfl, h⟩
    simp [findWin, hk]
  | none =>
    let win : Win := ⟨0, ⟨wc.lastBlock, 0⟩, ⟨wc.lastBlock, 0⟩, ⟨wc.lastBlock, 0⟩⟩
    let wc₁ : WinCtrl κ := setWin { wc with lastBlock := wc.lastBlock + 1 } k win
    have hfind : findWin wc k = (win, wc₁) := by
      simp only [findWin, hk, newWin, newBlock_of_free h.free]
      rfl
    have hself : wc₁.keyhash k = some win := Function.update_self _ _ _
    have hother : ∀ k', k' ≠ k → wc₁.keyhash k' = wc.keyhash k' :=
      fun k' hk' => Function.update_of_ne hk' _ _
    have hempty := h.absent k hk
    refine ⟨win, wc₁, Function.update kept k [], hfind, hself, rfl, rfl, rfl, rfl, ?_⟩
    refine ⟨h.row, h.pos, h.fits, h.data, h.block, h.links, h.free, fun k' hk' => ?_,
      fun k' win' hk' => ?_, fun k₁ k₂ w₁ w₂ hne h₁ h₂ => ?_⟩
    · have hne : k' ≠ k := by
        rintro rfl
        rw [hself] at hk'
        cases hk'
      rw [hother k' hne] at hk'
      exact h.absent k' hk'
    · by_cases hne : k' = k
      · subst hne
        rw [hself] at hk'
        cases hk'
        rw [Function.update_self, hempty]
        refine ⟨rfl, rfl, rfl, rfl, rfl, ?_, ⟨Nat.lt_succ_self _, h.pos, le_rfl⟩, ?_⟩
        · simp
        · simp
      · rw [Function.update_of_ne hne]
        rw [hother k' hne] at hk'
        exact (h.window k' win' hk').congr rfl rfl (Nat.le_succ _) (fun _ _ => rfl) fun _ _ => rfl
    · -- the block is new, so it is below no other window
      have hnew : ∀ {k' w'}, k' ≠ k → wc₁.keyhash k' = some w' →
          ∀ p ∈ Function.update kept k [] k' ++ [w'.current], p.block ≠ wc.lastBlock := by
        intro k' w' hk' hw' p hp
        rw [Function.update_of_ne hk'] at hp
        rw [hother k' hk'] at hw'
        exact ((h.window k' w' hw').slot hp).ne
      have hown : ∀ {w'}, wc₁.keyhash k = some w' →
          ∀ p ∈ Function.update kept k [] k ++ [w'.current], p.block = wc.lastBlock := by
        intro w' hw' p hp
        rw [hself] at hw'
        cases hw'
        rw [Function.update_self] at hp
        rw [List.mem_singleton.mp hp]
      by_cases hk₁ : k₁ = k
      · subst hk₁
        intro p hp p' hp'
        rw [hown h₁ p hp]
        exact (hnew hne.symm h₂ p' hp').symm
      · by_cases hk₂ : k₂ = k
        · subst hk₂
          intro p hp p' hp'
          rw [hown h₂ p' hp']
          exact hnew hne h₁ p hp
        · rw [Function.update_of_ne hk₁, Function.update_of_ne hk₂]
          rw [hother _ hk₁] at h₁
          rw [hother _ hk₂] at h₂
          exact h.apart k₁ k₂ w₁ w₂ hne h₁ h₂

def push (puts : κ → List (Nat → BitVec 8)) (k : κ) (data : Nat → BitVec 8) :
    κ → List (Nat → BitVec 8) := Function.update puts k (puts k ++ [data])

@[simp] theorem push_self (puts : κ → List (Nat → BitVec 8)) (k : κ) (data : Nat → BitVec 8) :
    push puts k data k = puts k ++ [data] := Function.update_self _ _ _

theorem push_of_ne {k' : κ} (h : k' ≠ k) (puts : κ → List (Nat → BitVec 8))
    (data : Nat → BitVec 8) : push puts k data k' = puts k' := Function.update_of_ne h _ _

theorem Filling.put (h : Filling garble wc puts kept) (hk : wc.keyhash k = some win)
    (hlinks : LinksFit wc (push puts k data)) :
    ∃ cur' wc', putCurrent wc win data =
        ({ win with current := cur', count := win.count + 1 }, wc') ∧
      Written garble wc wc' win.current cur' data ∧
      Filling garble (setWin wc' k { win with current := cur', count := win.count + 1 })
        (push puts k data) (Function.update kept k (kept k ++ [win.current])) := by
  have hw := h.window k win hk
  have hroom : wc.nRecords ≤ win.current.off + 1 →
      wc.nRecords * wc.dataSize + sizeofInt ≤ wc.blockSize := by
    intro hlast
    obtain hroom | hshort := hlinks
    · exact hroom
    · have hlen := hshort k
      rw [push_self, List.length_append, List.length_singleton] at hlen
      have := hw.current.2.2
      omega
  obtain ⟨cur', wc', hput, hwr⟩ :=
    putCurrent_written garble h.fits h.block h.free hw.current.2.1 hroom data
  obtain ⟨htype, hsize, hdata, hblock, hrecs, hfree, hhash⟩ := hwr.same
  let win' : Win := { win with current := cur', count := win.count + 1 }
  have hself : (setWin wc' k win').keyhash k = some win' := Function.update_self _ _ _
  have hother : ∀ k', k' ≠ k → (setWin wc' k win').keyhash k' = wc.keyhash k' := by
    intro k' hk'
    rw [← hhash]
    exact Function.update_of_ne hk' _ _
  have hl : wc.lastBlock ≤ wc'.lastBlock := by
    rcases hwr.place with ⟨-, -, h⟩ | ⟨-, -, h⟩ <;> omega
  have hblk : cur'.block = win.current.block ∨ cur'.block = wc.lastBlock := by
    rcases hwr.place with ⟨rfl, -, -⟩ | ⟨rfl, -, -⟩
    · exact .inl rfl
    · exact .inr rfl
  -- the records of other windows and the earlier ones of this window are not `current`
  have hne : ∀ p ∈ kept k, p ≠ win.current := by
    rintro p hp rfl
    exact lt_irrefl _ (hw.before _ hp rfl)
  have hne' : ∀ k' win', k' ≠ k → wc.keyhash k' = some win' → ∀ p ∈ kept k', p ≠ win.current := by
    rintro k' win' hk' hwin' p hp rfl
    exact h.apart k' k win' win hk' hwin' hk _ (List.mem_append_left _ hp) _ (by simp) rfl
  have hnexts : ∀ k' win', wc.keyhash k' = some win' → ∀ p ∈ kept k', p ≠ win.current →
      next garble wc' p = next garble wc p := fun k' win' hwin' p hp hpne =>
    hwr.nexts p ((h.window k' win' hwin').slots p hp).2.1 hpne (h.room hwin' hp)
  refine ⟨cur', wc', hput, hwr, ⟨htype.trans h.row, hrecs ▸ h.pos, ?_, hdata ▸ h.data,
    hblock ▸ h.block, ?_, hfree.trans h.free, fun k' hk' => ?_, fun k' win₁ hk' => ?_,
    fun k₁ k₂ w₁ w₂ hne₁₂ h₁ h₂ => ?_⟩⟩
  · show wc'.nRecords * wc'.dataSize ≤ wc'.blockSize
    rw [hrecs, hdata, hblock]
    exact h.fits
  · show LinksFit wc' (push puts k data)
    rw [LinksFit, hrecs, hdata, hblock]
    exact hlinks
  · have hk'ne : k' ≠ k := by
      rintro rfl
      rw [hself] at hk'
      cases hk'
    rw [push_of_ne hk'ne]
    rw [hother k' hk'ne] at hk'
    exact h.absent k' hk'
  · by_cases hk'ne : k' = k
    · subst hk'ne
      rw [hself] at hk'
      cases hk'
      rw [push_self, Function.update_self]
      have hmem : ∀ p ∈ kept k' ++ [win.current],
          p ∈ kept k' ∧ p ≠ win.current ∨ p = win.current := by
        intro p hp
        rcases List.mem_append.mp hp with hp | hp
        · exact .inl ⟨hp, hne p hp⟩
        · exact .inr (List.mem_singleton.mp hp)
      refine ⟨hw.expired, hw.beginOff, ?_, ?_, ?_, fun p hp => ?_, ?_, fun p hp hpb => ?_⟩
      · rw [List.length_append, List.length_singleton, ← hw.count]
      · have hpath : Path garble wc' win.begin (kept k') win.current :=
          hw.path.congr fun p hp => hnexts k' win hk p hp (hne p hp)
        have := hpath.snoc
        rw [hwr.next] at this
        exact this.congr fun _ _ => rfl
      · show (kept k' ++ [win.current]).map (record wc') =
          (puts k' ++ [data]).map (tupleCells wc'.dataSize)
        have hold : (kept k').map (record wc') = (kept k').map (record wc) :=
          List.map_congr_left fun p hp => hwr.old p (hw.slots p hp).2.1 (hne p hp)
        rw [List.map_append, List.map_append, hold, hw.tuples, hdata, List.map_singleton, hwr.new]
        rfl
      · show p.block < wc'.lastBlock ∧ p.off < wc'.nRecords ∧ _
        rw [List.length_append, List.length_singleton]
        rcases hmem p hp with ⟨hp, -⟩ | rfl
        · have := hw.slots p hp
          omega
        · have := hw.current
          omega
      · show cur'.block < wc'.lastBlock ∧ cur'.off < wc'.nRecords ∧ _
        rw [hrecs, List.length_append]
        have hcur := hw.current
        have hpos := h.pos
        rcases hwr.place with ⟨rfl, hlt, -⟩ | ⟨rfl, -, hlast⟩
        · exact ⟨hcur.1.trans_le hl, hlt, Nat.succ_le_succ hcur.2.2⟩
        · exact ⟨hlast ▸ Nat.lt_succ_self _, hpos, Nat.zero_le _⟩
      · rcases hwr.place with ⟨rfl, -, -⟩ | ⟨rfl, -, -⟩
        · rcases hmem p hp with ⟨hp, -⟩ | rfl
          · exact (hw.before p hp hpb).trans (Nat.lt_succ_self _)
          · exact Nat.lt_succ_self _
        · exact absurd hpb (hw.slot hp).ne
    · rw [push_of_ne hk'ne, Function.update_of_ne hk'ne]
      rw [hother k' hk'ne] at hk'
      refine (h.window k' win₁ hk').congr hrecs hdata hl (fun p hp => ?_) fun p hp => ?_
      · exact hwr.old p ((h.window k' win₁ hk').slots p hp).2.1 (hne' k' win₁ hk'ne hk' p hp)
      · exact hnexts k' win₁ hk' p hp (hne' k' win₁ hk'ne hk' p hp)
  · -- `k` has its old blocks and at most a new one
    have hown : ∀ {w'}, (setWin wc' k win').keyhash k = some w' →
        ∀ p ∈ Function.update kept k (kept k ++ [win.current]) k ++ [w'.current],
          p.block = wc.lastBlock ∨ ∃ q ∈ kept k ++ [win.current], p.block = q.block := by
      intro w' hw' p hp
      rw [hself] at hw'
      cases hw'
      rw [Function.update_self] at hp
      rcases List.mem_append.mp hp with hp | hp
      · exact .inr ⟨p, hp, rfl⟩
      · rw [List.mem_singleton.mp hp]
        rcases hblk with hb | hb
        · exact .inr ⟨win.current, by simp, hb⟩
        · exact .inl hb
    have hnew : ∀ {k' w'}, k' ≠ k → (setWin wc' k win').keyhash k' = some w' →
        ∀ p ∈ Function.update kept k (kept k ++ [win.current]) k' ++ [w'.current],
          p.block ≠ wc.lastBlock ∧ ∀ q ∈ kept k ++ [win.current], p.block ≠ q.block := by
      intro k' w' hk' hw' p hp
      rw [Function.update_of_ne hk'] at hp
      rw [hother k' hk'] at hw'
      exact ⟨((h.window k' w' hw').slot hp).ne, h.apart k' k w' win hk' hw' hk p hp⟩
    by_cases hk₁ : k₁ = k
    · subst hk₁
      intro p hp p' hp'
      obtain ⟨h1, h2⟩ := hnew hne₁₂.symm h₂ p' hp'
      rcases hown h₁ p hp with hb | ⟨q, hq, hb⟩
      · rw [hb]
        exact h1.symm
      · rw [hb]
        exact (h2 q hq).symm
    · by_cases hk₂ : k₂ = k
      · subst hk₂
        intro p hp p' hp'
        obtain ⟨h1, h2⟩ := hnew hne₁₂ h₁ p hp
        rcases hown h₂ p' hp' with hb | ⟨q, hq, hb⟩
        · rwa [hb]
        · rw [hb]
          exact h2 q hq
      · rw [Function.update_of_ne hk₁, Function.update_of_ne hk₂]
        rw [hother _ hk₁] at h₁
        rw [hother _ hk₂] at h₂
        exact h.apart k₁ k₂ w₁ w₂ hne₁₂ h₁ h₂

/-! ## One put -/

theorem winPutTuple_eq {win : Win} {wc₁ wc₂ : WinCtrl κ} (hrow : wc₂.winType = .row)
    (hfind : findWin wc k = (win, wc₁)) (hput : putCurrent wc₁ win data = (win', wc₂)) :
    winPutTuple garble wc k data =
      if wc₂.winSize < win'.count then
        setWin (expire garble wc₂ win').2 k (expire garble wc₂ win').1
      else setWin wc₂ k win' := by
  simp only [winPutTuple, hfind, hput, hrow]
  split <;> rfl

/-- When the first tuple of a window expires its first block goes on the free list, and `expired`
is in it. -/
theorem not_right_of_expire (hexp : win'.expired = win'.begin) (hoff : win'.begin.off = 0)
    (puts : κ → List (Nat → BitVec 8)) :
    ¬Right garble (setWin (expire garble wc win').2 k (expire garble wc win').1) puts := by
  rintro ⟨gone, kept, h⟩
  have hself : (setWin (expire garble wc win').2 k (expire garble wc win').1).keyhash k =
      some (expire garble wc win').1 := Function.update_self _ _ _
  have hmem : win'.begin ∈ gone k ++ kept k ++ [(expire garble wc win').1.current] := by
    have hgone : win'.begin ∈ gone k ++ [(expire garble wc win').1.begin] :=
      (h.gonePath k _ hself).head_mem
    rw [List.append_assoc]
    rcases List.mem_append.mp hgone with hgone | hbegin
    · exact List.mem_append_left _ hgone
    · rw [List.mem_singleton.mp hbegin]
      exact List.mem_append_right _ (h.keptPath k _ hself).head_mem
  have hfree : win'.begin.block ∈ (setWin (expire garble wc win').2 k
      (expire garble wc win').1).freeBlocks := by
    simp [setWin, expire, hoff, freeBlock, hexp]
  exact h.free k _ hself _ hmem hfree

/-! ## Runs of puts -/

theorem Filling.step (h : Filling garble wc puts kept) (k : κ) (data : Nat → BitVec 8)
    (hfine : Fine wc (push puts k data)) :
    SameSizes wc (winPutTuple garble wc k data) ∧
      (∃ kept', Filling garble (winPutTuple garble wc k data) (push puts k data) kept') ∧
      Right garble (winPutTuple garble wc k data) (push puts k data) := by
  obtain ⟨win, wc₁, kept₁, hfind, hk, hsize, hrecs, hdata, hblock, h₁⟩ := h.find k
  have hlinks : LinksFit wc₁ (push puts k data) := by
    rw [LinksFit, hrecs, hdata, hblock]
    exact hfine.2
  obtain ⟨cur', wc', hput, hwr, hfill⟩ := h₁.put hk hlinks
  obtain ⟨-, -, -, htype, hsize'⟩ := putCurrent_same hput
  have hlen := hfine.1 k
  rw [push_self, List.length_append, ← (h₁.window k win hk).count] at hlen
  have hrun : winPutTuple garble wc k data =
      setWin wc' k { win with current := cur', count := win.count + 1 } := by
    rw [winPutTuple_eq (htype.trans h₁.row) hfind hput, hsize', hsize, if_neg (by simpa using hlen)]
  rw [hrun]
  obtain ⟨-, -, hdata', hblock', hrecs', -⟩ := hwr.same
  refine ⟨⟨hsize'.trans hsize, hdata'.trans hdata, hblock'.trans hblock, hrecs'.trans hrecs⟩,
    ⟨_, hfill⟩, hfill.right fun k' => ?_⟩
  show _ ≤ wc'.winSize
  rw [hsize', hsize]
  exact hfine.1 k'

theorem Filling.not_right (h : Filling garble wc puts kept)
    (hcount : ∀ k, (puts k).length ≤ wc.winSize) (k : κ) (data : Nat → BitVec 8)
    (hfine : ¬Fine wc (push puts k data)) :
    ¬Right garble (winPutTuple garble wc k data) (push puts k data) := by
  obtain ⟨win, wc₁, kept₁, hfind, hk, hsize, hrecs, hdata, hblock, h₁⟩ := h.find k
  have hw := h₁.window k win hk
  by_cases hlen : (puts k).length + 1 ≤ wc.winSize
  · -- some window has filled its first block
    have hlinks : ¬LinksFit wc (push puts k data) := by
      refine fun hlinks => hfine ⟨fun k' => ?_, hlinks⟩
      by_cases hk' : k' = k
      · subst hk'
        simpa using hlen
      · rw [push_of_ne hk']
        exact hcount k'
    obtain ⟨hroom, hlong⟩ := not_or.mp hlinks
    have hshort := h.links.resolve_left hroom
    have hlenk : (puts k).length + 1 = wc.nRecords := by
      rw [not_forall] at hlong
      obtain ⟨k', hk'⟩ := hlong
      have hkk : k' = k := by
        by_contra hne
        rw [push_of_ne hne] at hk'
        exact hk' (hshort k')
      subst hkk
      have := hshort k'
      rw [push_self, List.length_append, List.length_singleton] at hk'
      omega
    have hkept : (kept₁ k).length = (puts k).length := by
      simpa using congrArg List.length hw.tuples
    have hcur : win.current = ⟨win.begin.block, (puts k).length⟩ := by
      have := hw.path.within (by rw [hw.beginOff]; omega)
      rwa [hw.beginOff, hkept, Nat.zero_add] at this
    have hlast : wc₁.nRecords ≤ win.current.off + 1 := by
      rw [hcur, hrecs]
      exact hlenk.ge
    obtain ⟨wc', hput, htype, hsize', hrecs', hdata', hblock'⟩ :=
      putCurrent_last h₁.free hlast data
    have hrun : winPutTuple garble wc k data =
        setWin wc' k { win with current := ⟨wc₁.lastBlock, 0⟩, count := win.count + 1 } := by
      rw [winPutTuple_eq (htype.trans h₁.row) hfind hput, hsize', hsize]
      refine if_neg ?_
      show ¬wc.winSize < win.count + 1
      rw [hw.count]
      omega
    rw [hrun]
    have hb : win.begin.block < wc₁.lastBlock := by
      have := hw.current.1
      rwa [hcur] at this
    let win' : Win := { win with current := ⟨wc₁.lastBlock, 0⟩, count := win.count + 1 }
    have hself : (setWin wc' k win').keyhash k = some win' := Function.update_self _ _ _
    refine not_right_of_link hself hw.beginOff ?_ ?_ ?_ ?_ ?_ hb.ne' _
    · exact hrecs'.symm ▸ h₁.pos
    · show wc'.nRecords * wc'.dataSize ≤ wc'.blockSize
      rw [hrecs', hdata', hblock']
      exact h₁.fits
    · exact hdata'.symm ▸ h₁.data
    · exact hblock'.symm ▸ h₁.block
    · show ¬wc'.nRecords * wc'.dataSize + sizeofInt ≤ wc'.blockSize
      rw [hrecs', hdata', hblock', hrecs, hdata, hblock]
      exact hroom
  · -- the window is full, so its first tuple expires
    rcases hput : putCurrent wc₁ win data with ⟨win', wc'⟩
    obtain ⟨hbegin, hexp, hcnt, htype, hsize'⟩ := putCurrent_same hput
    have hrun : winPutTuple garble wc k data =
        setWin (expire garble wc' win').2 k (expire garble wc' win').1 := by
      rw [winPutTuple_eq (htype.trans h₁.row) hfind hput]
      refine if_pos ?_
      rw [hcnt, hw.count]
      omega
    rw [hrun]
    refine not_right_of_expire ?_ ?_ _
    · rw [hexp, hbegin, hw.expired]
    · rw [hbegin, hw.beginOff]

variable {ops : List (κ × (Nat → BitVec 8))} {op : κ × (Nat → BitVec 8)}

theorem tuplesOf_concat : tuplesOf (ops ++ [op]) = push (tuplesOf ops) op.1 op.2 := by
  funext k
  unfold tuplesOf
  by_cases hk : op.1 = k
  · subst hk
    simp [push]
  · rw [push_of_ne (Ne.symm hk)]
    simp [hk]

theorem putAll_concat (wc : WinCtrl κ) :
    putAll garble wc (ops ++ [op]) = winPutTuple garble (putAll garble wc ops) op.1 op.2 := by
  rw [putAll, List.foldl_append]
  rfl

theorem tuplesOf_le {pre : List (κ × (Nat → BitVec 8))} (h : pre <+: ops) (k : κ) :
    (tuplesOf pre k).length ≤ (tuplesOf ops k).length := by
  simp only [tuplesOf, List.length_map]
  exact (h.sublist.filter _).length_le

theorem Fine.of_le {pre : List (κ × (Nat → BitVec 8))} (h : Fine wc (tuplesOf ops))
    (hpre : pre <+: ops) : Fine wc (tuplesOf pre) := by
  refine ⟨fun k => (tuplesOf_le hpre k).trans (h.1 k), ?_⟩
  obtain hroom | hshort := h.2
  · exact .inl hroom
  · exact .inr fun k => (tuplesOf_le hpre k).trans_lt (hshort k)

theorem Filling.putAll (h : Filling garble wc (tuplesOf []) kept)
    (hright : Right garble wc (tuplesOf [])) (ops : List (κ × (Nat → BitVec 8)))
    (hfine : Fine wc (tuplesOf ops)) :
    SameSizes wc (Disk.putAll garble wc ops) ∧
      (∃ kept', Filling garble (Disk.putAll garble wc ops) (tuplesOf ops) kept') ∧
      Right garble (Disk.putAll garble wc ops) (tuplesOf ops) := by
  induction ops using List.reverseRecOn with
  | nil => exact ⟨⟨rfl, rfl, rfl, rfl⟩, ⟨kept, h⟩, hright⟩
  | append_singleton ops op ih =>
    obtain ⟨hs, ⟨kept', hfill⟩, -⟩ := ih (hfine.of_le (List.prefix_append ops [op]))
    rw [tuplesOf_concat] at hfine ⊢
    rw [putAll_concat]
    obtain ⟨hs', hfill', hright'⟩ := hfill.step op.1 op.2 ((Fine.congr hs _).mpr hfine)
    refine ⟨?_, hfill', hright'⟩
    obtain ⟨h1, h2, h3, h4⟩ := hs
    obtain ⟨h1', h2', h3', h4'⟩ := hs'
    exact ⟨h1'.trans h1, h2'.trans h2, h3'.trans h3, h4'.trans h4⟩

theorem blockSizeOf_ge (d : Nat) : pageSize ≤ blockSizeOf d := by
  unfold blockSizeOf pageSize sizeofInt
  split <;> omega

theorem filling_newWinCtrl (garble : List Cell → Nat) (w : Nat) (hrec : 1 ≤ nRecordsOf d)
    (f : Memory Cell) :
    Filling garble (newWinCtrl (κ := κ) .row w d f) (tuplesOf []) fun _ => [] := by
  have hd : 1 ≤ d := by
    rcases Nat.eq_zero_or_pos d with rfl | hd
    · simp [nRecordsOf] at hrec
    · exact hd
  have hblk : sizeofInt ≤ blockSizeOf d := (by decide : sizeofInt ≤ pageSize).trans (blockSizeOf_ge d)
  refine ⟨rfl, hrec, Nat.div_mul_le_self _ _, hd, hblk, .inr fun k => hrec, rfl, fun k _ => rfl,
    fun k win hk => ?_, fun k k' win win' _ hk => ?_⟩
  · cases hk
  · cases hk

/-- Every state of a run is right exactly if no window gets more tuples than it may hold, and none
fills a block that has no room for the link. -/
theorem putAll_right_iff (garble : List Cell → Nat) (w d : Nat) (hrec : 1 ≤ nRecordsOf d)
    (f : Memory Cell) (ops : List (κ × (Nat → BitVec 8))) :
    (∀ pre, pre <+: ops →
      Right garble (putAll garble (newWinCtrl .row w d f) pre) (tuplesOf pre)) ↔
    (∀ k, (tuplesOf ops k).length ≤ w) ∧
      (nRecordsOf d * d + sizeofInt ≤ blockSizeOf d ∨
        ∀ k, (tuplesOf ops k).length < nRecordsOf d) := by
  have h0 := filling_newWinCtrl (κ := κ) garble w hrec f
  have hright0 := h0.right fun k => Nat.zero_le w
  show _ ↔ Fine (newWinCtrl .row w d f) (tuplesOf ops)
  constructor
  · intro hall
    induction ops using List.reverseRecOn with
    | nil => exact ⟨fun k => Nat.zero_le w, .inr fun k => hrec⟩
    | append_singleton ops op ih =>
      have hfine := ih fun pre hpre => hall pre (hpre.trans (List.prefix_append ops [op]))
      obtain ⟨hs, ⟨kept, hfill⟩, -⟩ := h0.putAll hright0 ops hfine
      have hright := hall (ops ++ [op]) (List.prefix_refl _)
      rw [tuplesOf_concat, putAll_concat] at hright
      rw [tuplesOf_concat, ← Fine.congr hs]
      by_contra hbad
      exact hfill.not_right ((Fine.congr hs _).mpr hfine).1 op.1 op.2 hbad hright
  · intro hfine pre hpre
    exact (h0.putAll hright0 pre (hfine.of_le hpre)).2.2

theorem putAll_right_iff_one :
    (∀ pre, pre <+: [((), fun _ : Nat => (7 : BitVec 8))] →
      Right (fun _ => 0) (putAll (fun _ => 0) (newWinCtrl .row 2 100 fun _ => .byte 0) pre)
        (tuplesOf pre)) ↔
    (∀ k, (tuplesOf [((), fun _ : Nat => (7 : BitVec 8))] k).length ≤ 2) ∧
      (nRecordsOf 100 * 100 + sizeofInt ≤ blockSizeOf 100 ∨
        ∀ k, (tuplesOf [((), fun _ : Nat => (7 : BitVec 8))] k).length < nRecordsOf 100) :=
  putAll_right_iff (fun _ => 0) 2 100 (by decide) (fun _ => .byte 0) _

/-- A window of one row of four bytes: the second tuple puts the block of the first one on the free
list. -/
theorem second_put_not_right :
    ¬∀ (w d : Nat), 1 ≤ nRecordsOf d → ∀ ops : List (Unit × (Nat → BitVec 8)),
      Right (fun _ => 0) (putAll (fun _ => 0) (newWinCtrl .row w d fun _ => .byte 0) ops)
        (tuplesOf ops) := by
  intro hall
  let first : Unit × (Nat → BitVec 8) := ((), fun _ => 1)
  let second : Unit × (Nat → BitVec 8) := ((), fun _ => 2)
  have hrec : 1 ≤ nRecordsOf 4 := by decide
  have h0 := filling_newWinCtrl (κ := Unit) (fun _ => 0) 1 hrec fun _ => .byte 0
  have hfine : Fine (newWinCtrl .row 1 4 fun _ => .byte 0) (tuplesOf [first]) :=
    ⟨fun k => (by decide : 1 ≤ 1), .inr fun k => (by decide : 1 < nRecordsOf 4)⟩
  obtain ⟨hs, ⟨kept, hfill⟩, -⟩ := h0.putAll (h0.right fun k => Nat.zero_le 1) [first] hfine
  have hright := hall 1 4 hrec ([first] ++ [second])
  rw [tuplesOf_concat, putAll_concat] at hright
  refine hfill.not_right ((Fine.congr hs _).mpr hfine).1 () second.2 (fun hbad => ?_) hright
  have hlen : 2 ≤ 1 := ((Fine.congr hs _).mp hbad).1 ()
  omega

end Disk
end StreamMill.Window
