import StreamMill.Lib.Memory
import Mathlib.Logic.Function.Basic
import Mathlib.Data.List.Nodup
import Mathlib.Data.List.Infix
import Mathlib.Tactic.Linarith

/-!
# StreamMill.Window.Disk

The windows of `atlaswin.cc`, which keep their tuples in a file. A window has three positions,
`begin`, `expired` and `current`; records are packed into blocks and a full block ends with the
number of the next one. Blocks that are no longer needed go on a stack that all the windows of one
control structure share. The hash table of the windows is the map it stands for, and an `int` of
the file is a natural number in four places.
-/

namespace StreamMill.Window
namespace Disk

open Lib Lib.Memory

def pageSize : Nat := 4096
def sizeofInt : Nat := 4

/-- What a byte of the file belongs to: a byte of a tuple, or byte `i` of the `int` `n`. -/
inductive Cell where
  | byte (b : BitVec 8)
  | int (n : Nat) (i : Fin 4)
  deriving DecidableEq

def intCells (n : Nat) : List Cell := [.int n 0, .int n 1, .int n 2, .int n 3]

/-- `_adl_win_off_t` -/
structure Off where
  block : Nat
  off : Nat
  deriving DecidableEq

inductive WinType
  | row
  | time
  deriving DecidableEq

/-- `_adl_win_s` -/
structure Win where
  count : Nat
  begin : Off
  expired : Off
  current : Off

/-- `_adl_win_ctrl_s`. `freeBlocks` has the block that is given out next in front. -/
structure WinCtrl (κ : Type) where
  winType : WinType
  winSize : Nat
  dataSize : Nat
  blockSize : Nat
  nRecords : Nat
  lastBlock : Nat
  freeBlocks : List Nat
  keyhash : κ → Option Win
  f : Memory Cell

def blockSizeOf (datasize : Nat) : Nat :=
  if datasize < pageSize - sizeofInt then pageSize
  else 2 * datasize / pageSize * pageSize

/-- `wc->nRecords` -/
def nRecordsOf (datasize : Nat) : Nat := blockSizeOf datasize / datasize

section

variable {κ : Type} [DecidableEq κ]

/-- `f` is what is read past the end of the file. -/
def newWinCtrl (type : WinType) (size datasize : Nat) (f : Memory Cell) : WinCtrl κ where
  winType := type
  winSize := size
  dataSize := datasize
  blockSize := blockSizeOf datasize
  nRecords := nRecordsOf datasize
  lastBlock := 0
  freeBlocks := []
  keyhash := fun _ => none
  f := f

def freeBlock (wc : WinCtrl κ) (block_id : Nat) : WinCtrl κ :=
  { wc with freeBlocks := block_id :: wc.freeBlocks }

def newBlock (wc : WinCtrl κ) : Nat × WinCtrl κ :=
  match wc.freeBlocks with
  | b :: bs => (b, { wc with freeBlocks := bs })
  | [] => (wc.lastBlock, { wc with lastBlock := wc.lastBlock + 1 })

def newWin (wc : WinCtrl κ) : Win × WinCtrl κ :=
  let (block, wc) := newBlock wc
  ({ count := 0, begin := ⟨block, 0⟩, expired := ⟨block, 0⟩, current := ⟨block, 0⟩ }, wc)

def diskOffset (wc : WinCtrl κ) (o : Off) : Nat := o.block * wc.blockSize + o.off * wc.dataSize

/-- Where a block keeps the number of the next one: its last four bytes. -/
def linkOffset (wc : WinCtrl κ) (block : Nat) : Nat := (block + 1) * wc.blockSize - sizeofInt

def writeNextBlockId (wc : WinCtrl κ) (block next_block : Nat) : WinCtrl κ :=
  { wc with f := store wc.f (linkOffset wc block) (intCells next_block) }

/-- The `int` in four bytes of the file; `garble` is for bytes that are not those of one `int`. -/
def asInt (garble : List Cell → Nat) (cells : List Cell) : Nat :=
  match cells with
  | .int n _ :: _ => if cells = intCells n then n else garble cells
  | _ => garble cells

def readNextBlockId (garble : List Cell → Nat) (wc : WinCtrl κ) (block : Nat) : Nat :=
  asInt garble (load wc.f (linkOffset wc block) sizeofInt)

/-- The `dataSize` bytes at `data`. -/
def tupleCells (dataSize : Nat) (data : Nat → BitVec 8) : List Cell :=
  (List.range dataSize).map fun i => .byte (data i)

def setWin (wc : WinCtrl κ) (key : κ) (win : Win) : WinCtrl κ :=
  { wc with keyhash := Function.update wc.keyhash key (some win) }

def findWin (wc : WinCtrl κ) (key : κ) : Win × WinCtrl κ :=
  match wc.keyhash key with
  | some win => (win, wc)
  | none =>
    let (win, wc) := newWin wc
    (win, setWin wc key win)

/-- The tuple is written at `current`, which moves on. -/
def putCurrent (wc : WinCtrl κ) (win : Win) (data : Nat → BitVec 8) : Win × WinCtrl κ :=
  let f := store wc.f (diskOffset wc win.current) (tupleCells wc.dataSize data)
  let wc := { wc with f := f }
  let off := win.current.off + 1
  if wc.nRecords ≤ off then
    let (newblock, wc) := newBlock wc
    let wc := writeNextBlockId wc win.current.block newblock
    ({ win with current := ⟨newblock, 0⟩, count := win.count + 1 }, wc)
  else ({ win with current := ⟨win.current.block, off⟩, count := win.count + 1 }, wc)

def expire (garble : List Cell → Nat) (wc : WinCtrl κ) (win : Win) : Win × WinCtrl κ :=
  let expired_block := win.expired.block
  let expired := win.begin
  let wc := if expired.off = 0 then freeBlock wc expired_block else wc
  let off := win.begin.off + 1
  let begin : Off :=
    if wc.nRecords ≤ off then ⟨readNextBlockId garble wc win.begin.block, 0⟩
    else ⟨win.begin.block, off⟩
  ({ win with expired := expired, begin := begin, count := win.count - 1 }, wc)

/-- `_adl_winPutTuple`. The hash table has the address of the window, so it sees the change. -/
def winPutTuple (garble : List Cell → Nat) (wc : WinCtrl κ) (key : κ) (data : Nat → BitVec 8) :
    WinCtrl κ :=
  let (win, wc) := findWin wc key
  let (win, wc) := putCurrent wc win data
  let (win, wc) :=
    match wc.winType with
    | .time => (win, wc)
    | .row => if wc.winSize < win.count then expire garble wc win else (win, wc)
  setWin wc key win

def putAll (garble : List Cell → Nat) (wc : WinCtrl κ) (ops : List (κ × (Nat → BitVec 8))) :
    WinCtrl κ :=
  ops.foldl (fun wc op => winPutTuple garble wc op.1 op.2) wc

def tuplesOf (ops : List (κ × (Nat → BitVec 8))) (key : κ) : List (Nat → BitVec 8) :=
  (ops.filter fun op => op.1 = key).map Prod.snd

end

end Disk
end StreamMill.Window
