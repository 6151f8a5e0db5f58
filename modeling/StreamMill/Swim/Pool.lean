import StreamMill.Swim.Tree

/-!
# StreamMill.Swim.Pool

The nodes of all trees come from the blocks of `memmgr.c`. A block has `BLOCK_SIZE` nodes and a
stack of the indices of those that are free; `new_node` takes one from the last block that has one
left, `delete_node` finds the block of a node by its address. `release_memory` ends a mining
session: it frees the blocks, but `current_block_number` stays as it is.
-/

namespace StreamMill.Swim

def blockSize : Nat := 4095 * 1024

structure Block where
  /-- `&(block->mem[0])` -/
  mem : Nat
  remains : Nat
  fat : Nat → Nat
  /-- `free` was called for the block. -/
  freed : Bool

/-- The variables of `memmgr.c`, and the nodes at their addresses. -/
structure Pool where
  allBlocks : Nat → Block
  /-- `current_block_number + 1` -/
  count : Nat
  tempMaxNodesNum : Int
  tempCurNodesNum : Int
  node : Nat → Node

inductive PoolFault where
  /-- A block is used, or freed, after it was freed. -/
  | freed
  /-- A read or write outside an array. -/
  | outside
  deriving DecidableEq

def Pool.start : Pool := ⟨fun _ => ⟨0, 0, fun _ => 0, false⟩, 0, 0, 0, fun _ => Node.zero⟩

/-- `&(block->mem[i])`, with `size` for `sizeof(Node)` -/
def Block.addr (size : Nat) (b : Block) (i : Nat) : Nat := b.mem + i * size

/-- `for (i=current_block_number ; i>=0 ; i--)` up to the first `i` with the test. -/
def searchDown (test : Nat → Except PoolFault Bool) : Nat → Except PoolFault (Option Nat)
  | 0 => .ok none
  | i + 1 => do
    if ← test i then return some i
    else searchDown test i

def newBlock (mem : Nat) : Block := ⟨mem, blockSize, fun i => blockSize - i - 1, false⟩

/-- `malloc` gives a block with its nodes at `mem`. -/
def Pool.grow (size : Nat) (pool : Pool) (mem : Nat) : Except PoolFault Pool :=
  if pool.count < 1000 then
    .ok { pool with
      allBlocks := Function.update pool.allBlocks pool.count (newBlock mem)
      count := pool.count + 1
      node := fun p => if mem ≤ p ∧ p < mem + blockSize * size then Node.zero else pool.node p }
  else .error .outside

/-- The node on top of the stack of block `i`. -/
def Pool.take (size : Nat) (pool : Pool) (i : Nat) : Nat × Pool :=
  let block := pool.allBlocks i
  let node := block.addr size (block.fat (block.remains - 1))
  (node, { pool with
    allBlocks := Function.update pool.allBlocks i { block with remains := block.remains - 1 }
    node := Function.update pool.node node Node.zero })

/-- `all_blocks[i]->remains` -/
def Pool.hasRoom (pool : Pool) (i : Nat) : Except PoolFault Bool :=
  if (pool.allBlocks i).freed then .error .freed else .ok ((pool.allBlocks i).remains != 0)

/-- `mem` is what `malloc` gives, if it is called. -/
def Pool.newNode (size : Nat) (pool : Pool) (mem : Nat) : Except PoolFault (Nat × Pool) := do
  let pool := { pool with
    tempCurNodesNum := pool.tempCurNodesNum + 1
    tempMaxNodesNum := max pool.tempMaxNodesNum (pool.tempCurNodesNum + 1) }
  match ← searchDown pool.hasRoom pool.count with
  | some i => return pool.take size i
  | none =>
    let grown ← pool.grow size mem
    return grown.take size pool.count

/-- The address is that of a node of block `i`. -/
def Pool.holds (size : Nat) (pool : Pool) (node i : Nat) : Bool :=
  decide ((pool.allBlocks i).mem ≤ node) && node < (pool.allBlocks i).mem + blockSize * size

def Pool.deleteNode (size : Nat) (pool : Pool) (node : Nat) : Except PoolFault Pool := do
  let pool := { pool with tempCurNodesNum := pool.tempCurNodesNum - 1 }
  match ← searchDown (fun i => .ok (pool.holds size node i)) pool.count with
  | none => return pool
  | some i =>
    let block := pool.allBlocks i
    if block.freed then .error .freed
    else if block.remains < blockSize then
      return { pool with
        allBlocks := Function.update pool.allBlocks i { block with
          fat := Function.update block.fat block.remains ((node - block.mem) / size)
          remains := block.remains + 1 } }
    else .error .outside

def Pool.freeBlock (pool : Pool) (i : Nat) : Except PoolFault Pool :=
  let block := pool.allBlocks i
  if block.freed then .error .freed
  else .ok { pool with allBlocks := Function.update pool.allBlocks i { block with freed := true } }

/-- The end of `cleanUp`. -/
def Pool.releaseMemory (pool : Pool) : Except PoolFault Pool :=
  (List.range pool.count).foldlM Pool.freeBlock pool

/-! ## Sessions -/

structure Client where
  pool : Pool
  live : List Nat

inductive PoolCall where
  | newNode (mem : Nat)
  | deleteNode (node : Nat)
  /-- The fields of a node are set. -/
  | write (node : Nat) (value : Node)
  | releaseMemory

def Client.step (size : Nat) (s : Client) : PoolCall → Except PoolFault Client
  | .newNode mem => do
    let (node, pool) ← s.pool.newNode size mem
    return ⟨pool, node :: s.live⟩
  | .deleteNode node => do
    let pool ← s.pool.deleteNode size node
    return ⟨pool, s.live.erase node⟩
  | .write node value =>
    .ok { s with pool := { s.pool with node := Function.update s.pool.node node value } }
  | .releaseMemory => do
    let pool ← s.pool.releaseMemory
    return ⟨pool, []⟩

/-- The nodes at `mem` and those of the block do not overlap. -/
def Block.Apart (size : Nat) (b : Block) (mem : Nat) : Prop :=
  b.mem + blockSize * size ≤ mem ∨ mem + blockSize * size ≤ b.mem

/-- `malloc` gives memory that is not in use, and only nodes in use are deleted or written. -/
def Client.Legal (size : Nat) (s : Client) : PoolCall → Prop
  | .newNode mem => ∀ i < s.pool.count, (s.pool.allBlocks i).freed = false →
      (s.pool.allBlocks i).Apart size mem
  | .deleteNode node => node ∈ s.live
  | .write node _ => node ∈ s.live
  | .releaseMemory => True

/-- The states of all runs. -/
inductive Client.Reached (size : Nat) : Client → Prop where
  | start : Reached size ⟨Pool.start, []⟩
  | step {s s' : Client} (op : PoolCall) (reached : Reached size s) (legal : s.Legal size op)
      (run : s.step size op = .ok s') : Reached size s'

/-! ## What the calls must do -/

def Block.free (b : Block) : List Nat := (List.range b.remains).map b.fat

def Pool.Free (size : Nat) (pool : Pool) (p : Nat) : Prop :=
  ∃ i < pool.count, (pool.allBlocks i).freed = false ∧
    ∃ k ∈ (pool.allBlocks i).free, p = (pool.allBlocks i).addr size k

structure NewRight (size : Nat) (s : Client) (mem p : Nat) (pool : Pool) : Prop where
  zero : pool.node p = Node.zero
  new : p ∉ s.live
  block : ∃ i < pool.count, (pool.allBlocks i).freed = false ∧
    ∃ k < blockSize, p = (pool.allBlocks i).addr size k
  others : ∀ q ∈ s.live, pool.node q = s.pool.node q
  reused : (∃ q, s.pool.Free size q) →
    s.pool.Free size p ∧ ∀ q, pool.Free size q ↔ s.pool.Free size q ∧ q ≠ p
  grown : (¬ ∃ q, s.pool.Free size q) →
    ∀ q, pool.Free size q ↔ (∃ k < blockSize, q = mem + k * size) ∧ q ≠ p

/-- `p` can be given again, and no other node that could not. -/
structure DeleteRight (size : Nat) (s : Client) (p : Nat) (pool : Pool) : Prop where
  free : ∀ q, pool.Free size q ↔ s.pool.Free size q ∨ q = p
  others : pool.node = s.pool.node

def StepRight (size : Nat) (s : Client) : PoolCall → Prop
  | .newNode mem => ∃ p pool, s.pool.newNode size mem = .ok (p, pool) ∧ NewRight size s mem p pool
  | .deleteNode node => ∃ pool, s.pool.deleteNode size node = .ok pool ∧
      DeleteRight size s node pool
  | .write _ _ => True
  | .releaseMemory => ∃ pool, s.pool.releaseMemory = .ok pool ∧ ∀ q, ¬ pool.Free size q

/-- No block was freed, and the blocks that there may be are not all in use. -/
def Permitted (s : Client) : PoolCall → Prop
  | .newNode _ => (∀ i < s.pool.count, (s.pool.allBlocks i).freed = false) ∧
      s.live.length < 1000 * blockSize
  | .releaseMemory => ∀ i < s.pool.count, (s.pool.allBlocks i).freed = false
  | _ => True

/-! ## Addresses -/

variable {size : Nat} {s s' : Client} {pool : Pool} {b c : Block} {i j k l p q mem : Nat}

theorem blockSize_pos : 0 < blockSize := Nat.mul_pos (Nat.succ_pos _) (Nat.succ_pos _)

theorem addr_range (size : Nat) (b : Block) (hk : k < blockSize) :
    b.mem ≤ b.addr size k ∧ b.addr size k + size ≤ b.mem + blockSize * size := by
  have hle : (k + 1) * size ≤ blockSize * size := Nat.mul_le_mul_right size hk
  rw [Nat.add_mul] at hle
  rw [Block.addr]
  omega

theorem addr_apart (size : Nat) (b : Block) (hkl : k ≠ l) :
    b.addr size k + size ≤ b.addr size l ∨ b.addr size l + size ≤ b.addr size k := by
  rw [Block.addr, Block.addr]
  rcases Nat.lt_or_gt_of_ne hkl with hlt | hlt
  · have hle : (k + 1) * size ≤ l * size := Nat.mul_le_mul_right size hlt
    rw [Nat.add_mul] at hle
    omega
  · have hle : (l + 1) * size ≤ k * size := Nat.mul_le_mul_right size hlt
    rw [Nat.add_mul] at hle
    omega

theorem addr_inj (hsize : 0 < size) (h : b.addr size k = b.addr size l) : k = l := by
  by_contra hkl
  have hapart := addr_apart size b hkl
  omega

theorem addr_disjoint (hbc : b.Apart size c.mem) (hk : k < blockSize)
    (hl : l < blockSize) :
    b.addr size k + size ≤ c.addr size l ∨ c.addr size l + size ≤ b.addr size k := by
  have hb := addr_range size b hk
  have hc := addr_range size c hl
  rcases hbc with h | h
  · omega
  · omega

/-! ## The stack of a block -/

structure Block.Ok (b : Block) : Prop where
  remains : b.remains ≤ blockSize
  index : ∀ k ∈ b.free, k < blockSize
  nodup : b.free.Nodup

theorem mem_newBlock (mem : Nat) : k ∈ (newBlock mem).free ↔ k < blockSize := by
  have hfree : (newBlock mem).free = (List.range blockSize).map fun i => blockSize - i - 1 := rfl
  rw [hfree, List.mem_map]
  constructor
  · rintro ⟨i, hi, rfl⟩
    have hi := List.mem_range.mp hi
    omega
  · intro hk
    exact ⟨blockSize - k - 1, List.mem_range.mpr (by omega), by omega⟩

theorem newBlock_ok (mem : Nat) : (newBlock mem).Ok := by
  refine ⟨le_refl _, fun k hk => (mem_newBlock mem).mp hk, ?_⟩
  refine List.nodup_range.map_on fun i hi j hj heq => ?_
  have hi : i < blockSize := List.mem_range.mp hi
  have hj : j < blockSize := List.mem_range.mp hj
  have heq : blockSize - i - 1 = blockSize - j - 1 := heq
  omega

theorem free_pop (b : Block) (hb : b.remains ≠ 0) :
    b.free = { b with remains := b.remains - 1 }.free ++ [b.fat (b.remains - 1)] := by
  obtain ⟨r, hr⟩ := Nat.exists_eq_succ_of_ne_zero hb
  rw [Block.free, hr, List.range_succ, List.map_append]
  rfl

theorem free_push (b : Block) (k : Nat) :
    { b with fat := Function.update b.fat b.remains k, remains := b.remains + 1 }.free =
      b.free ++ [k] := by
  rw [Block.free, List.range_succ, List.map_append]
  congr 1
  · refine List.map_congr_left fun i hi => Function.update_of_ne ?_ _ _
    exact (List.mem_range.mp hi).ne
  · exact congrArg (fun x => [x]) (Function.update_self _ _ _)

theorem Block.Ok.pop (h : b.Ok) (hb : b.remains ≠ 0) :
    { b with remains := b.remains - 1 }.Ok ∧ b.fat (b.remains - 1) < blockSize ∧
      ∀ k, k ∈ { b with remains := b.remains - 1 }.free ↔
        k ∈ b.free ∧ k ≠ b.fat (b.remains - 1) := by
  have hfree := free_pop b hb
  obtain ⟨hnodup, -, hdisjoint⟩ := List.nodup_append.mp (hfree ▸ h.nodup)
  refine ⟨⟨(Nat.sub_le ..).trans h.remains, fun k hk => h.index k ?_, hnodup⟩, h.index _ ?_,
    fun k => ?_⟩
  · rw [hfree]
    exact List.mem_append_left _ hk
  · rw [hfree]
    exact List.mem_append_right _ List.mem_cons_self
  · rw [hfree, List.mem_append, List.mem_singleton]
    constructor
    · exact fun hk => ⟨.inl hk, hdisjoint k hk _ List.mem_cons_self⟩
    · rintro ⟨hk | rfl, hne⟩
      · exact hk
      · exact absurd rfl hne

theorem Block.Ok.push (h : b.Ok) (hk : k < blockSize) (hno : k ∉ b.free) :
    { b with fat := Function.update b.fat b.remains k, remains := b.remains + 1 }.Ok := by
  have hfree := free_push b k
  have hnodup : (k :: b.free).Nodup := List.nodup_cons.mpr ⟨hno, h.nodup⟩
  have hroom : (k :: b.free).length ≤ (List.range blockSize).length := by
    refine (hnodup.subperm fun l hl => List.mem_range.mpr ?_).length_le
    rcases List.mem_cons.mp hl with rfl | hl
    · exact hk
    · exact h.index l hl
  rw [List.length_cons, Block.free, List.length_map, List.length_range, List.length_range] at hroom
  refine ⟨hroom, fun l hl => ?_, ?_⟩
  · rw [hfree] at hl
    rcases List.mem_append.mp hl with hl | hl
    · exact h.index l hl
    · exact List.mem_singleton.mp hl ▸ hk
  · rw [hfree]
    exact (List.perm_append_singleton k b.free).nodup_iff.mpr hnodup

/-! ## A session -/

/-- While a session is open no block is freed, and the nodes that are not on the stacks are in
use. -/
structure Client.Open (size : Nat) (s : Client) : Prop where
  alive : ∀ i < s.pool.count, (s.pool.allBlocks i).freed = false
  ok : ∀ i < s.pool.count, (s.pool.allBlocks i).Ok
  apart : ∀ i < s.pool.count, ∀ j < s.pool.count, i ≠ j →
    (s.pool.allBlocks i).Apart size (s.pool.allBlocks j).mem
  nodup : s.live.Nodup
  live : ∀ p, p ∈ s.live ↔ ∃ i < s.pool.count, ∃ k < blockSize,
    p = (s.pool.allBlocks i).addr size k ∧ k ∉ (s.pool.allBlocks i).free

theorem Client.Open.addr_inj (h : s.Open size) (hsize : 0 < size) (hi : i < s.pool.count)
    (hj : j < s.pool.count) (hk : k < blockSize) (hl : l < blockSize)
    (heq : (s.pool.allBlocks i).addr size k = (s.pool.allBlocks j).addr size l) :
    i = j ∧ k = l := by
  have hij : i = j := by
    by_contra hij
    have hapart := addr_disjoint (h.apart i hi j hj hij) hk hl
    omega
  subst hij
  exact ⟨rfl, Swim.addr_inj hsize heq⟩

theorem Client.Open.storage (h : s.Open size) (hp : p ∈ s.live) (hq : q ∈ s.live) (hpq : p ≠ q) :
    p + size ≤ q ∨ q + size ≤ p := by
  obtain ⟨i, hi, k, hk, rfl, -⟩ := (h.live p).mp hp
  obtain ⟨j, hj, l, hl, rfl, -⟩ := (h.live q).mp hq
  by_cases hij : i = j
  · subst hij
    exact addr_apart size _ fun hkl => hpq (by rw [hkl])
  · exact addr_disjoint (h.apart i hi j hj hij) hk hl

theorem Client.Open.free_iff (h : s.Open size) :
    s.pool.Free size q ↔
      ∃ i < s.pool.count, ∃ k ∈ (s.pool.allBlocks i).free, q = (s.pool.allBlocks i).addr size k :=
  ⟨fun ⟨i, hi, _, hk⟩ => ⟨i, hi, hk⟩, fun ⟨i, hi, hk⟩ => ⟨i, hi, h.alive i hi, hk⟩⟩

/-- The blocks are those of `s` but for the stack of block `i`, from which nodes came or to which
they went. -/
structure Restacked (s s' : Client) (i : Nat) : Prop where
  count : s'.pool.count = s.pool.count
  other : ∀ j, j ≠ i → s'.pool.allBlocks j = s.pool.allBlocks j
  mem : (s'.pool.allBlocks i).mem = (s.pool.allBlocks i).mem
  freed : (s'.pool.allBlocks i).freed = (s.pool.allBlocks i).freed

theorem Restacked.all_mem (h : Restacked s s' i) (j : Nat) :
    (s'.pool.allBlocks j).mem = (s.pool.allBlocks j).mem := by
  by_cases hj : j = i
  · subst hj
    exact h.mem
  · rw [h.other j hj]

theorem Restacked.addr (h : Restacked s s' i) (j k : Nat) :
    (s'.pool.allBlocks j).addr size k = (s.pool.allBlocks j).addr size k := by
  rw [Block.addr, Block.addr, h.all_mem]

theorem Client.Open.restack (h : s.Open size) (hr : Restacked s s' i)
    (hok : (s'.pool.allBlocks i).Ok) (hnodup : s'.live.Nodup)
    (hlive : ∀ p, p ∈ s'.live ↔ ∃ j < s.pool.count, ∃ k < blockSize,
      p = (s.pool.allBlocks j).addr size k ∧ k ∉ (s'.pool.allBlocks j).free) :
    s'.Open size := by
  refine ⟨fun j hj => ?_, fun j hj => ?_, fun j hj k hk hjk => ?_, hnodup, fun p => ?_⟩
  · rw [hr.count] at hj
    by_cases hji : j = i
    · subst hji
      rw [hr.freed, h.alive j hj]
    · rw [hr.other j hji, h.alive j hj]
  · rw [hr.count] at hj
    by_cases hji : j = i
    · subst hji
      exact hok
    · rw [hr.other j hji]
      exact h.ok j hj
  · rw [hr.count] at hj hk
    rw [Block.Apart, hr.all_mem j, hr.all_mem k]
    exact h.apart j hj k hk hjk
  · rw [hlive p, hr.count]
    simp [hr.addr]

/-! ## `new_node` -/

theorem searchDown_ok {test : Nat → Except PoolFault Bool} {f : Nat → Bool} {n : Nat}
    (h : ∀ i < n, test i = .ok (f i)) :
    (searchDown test n = .ok none ∧ ∀ i < n, f i = false) ∨
      ∃ i < n, searchDown test n = .ok (some i) ∧ f i = true := by
  induction n with
  | zero => exact .inl ⟨rfl, fun i hi => absurd hi (Nat.not_lt_zero i)⟩
  | succ n ih =>
    have htest := h n (Nat.lt_succ_self n)
    cases hn : f n with
    | true =>
      refine .inr ⟨n, Nat.lt_succ_self n, ?_, hn⟩
      rw [searchDown, htest, hn]
      rfl
    | false =>
      have hstep : searchDown test (n + 1) = searchDown test n := by
        rw [searchDown, htest, hn]
        rfl
      rw [hstep]
      rcases ih fun i hi => h i (Nat.lt_succ_of_lt hi) with ⟨hnone, hall⟩ | ⟨i, hi, hsome, hf⟩
      · refine .inl ⟨hnone, fun i hi => ?_⟩
        rcases Nat.lt_succ_iff_lt_or_eq.mp hi with hi | rfl
        · exact hall i hi
        · exact hn
      · exact .inr ⟨i, Nat.lt_succ_of_lt hi, hsome, hf⟩

theorem Client.Open.take (h : s.Open size) (hsize : 0 < size) (hi : i < s.pool.count)
    (hroom : (s.pool.allBlocks i).remains ≠ 0) :
    let out := s.pool.take size i
    Client.Open size ⟨out.2, out.1 :: s.live⟩ ∧ out.2.node out.1 = Node.zero ∧ out.1 ∉ s.live ∧
      (∃ k < blockSize, out.1 = (out.2.allBlocks i).addr size k) ∧ s.pool.Free size out.1 ∧
      (∀ q ∈ s.live, out.2.node q = s.pool.node q) ∧
      ∀ q, out.2.Free size q ↔ s.pool.Free size q ∧ q ≠ out.1 := by
  intro out
  let b := s.pool.allBlocks i
  let top := b.fat (b.remains - 1)
  have hp : out.1 = b.addr size top := rfl
  obtain ⟨hok, htop, hfree⟩ := (h.ok i hi).pop hroom
  have hmem : top ∈ b.free := by
    rw [free_pop b hroom]
    exact List.mem_append_right _ List.mem_cons_self
  have hself : out.2.allBlocks i = { b with remains := b.remains - 1 } :=
    Function.update_self i _ s.pool.allBlocks
  have hother : ∀ j, j ≠ i → out.2.allBlocks j = s.pool.allBlocks j := fun j hj =>
    Function.update_of_ne hj _ _
  have hr : Restacked s ⟨out.2, out.1 :: s.live⟩ i := by
    refine ⟨rfl, hother, ?_, ?_⟩
    · exact (congrArg Block.mem hself).trans rfl
    · exact (congrArg Block.freed hself).trans rfl
  have hnew : out.1 ∉ s.live := by
    intro hm
    obtain ⟨j, hj, k, hk, heq, hno⟩ := (h.live _).mp hm
    obtain ⟨rfl, rfl⟩ := h.addr_inj hsize hi hj htop hk (hp ▸ heq)
    exact hno hmem
  -- An index that is not `top` is on the new stack just when it is on the old one.
  have hstack : ∀ j < s.pool.count, ∀ k < blockSize, k ∈ (out.2.allBlocks j).free ↔
      k ∈ (s.pool.allBlocks j).free ∧ (s.pool.allBlocks j).addr size k ≠ out.1 := by
    intro j hj k hk
    by_cases hji : j = i
    · subst hji
      rw [hself, hfree, hp]
      exact and_congr_right fun _ => not_congr ⟨fun he => by rw [he], Swim.addr_inj hsize⟩
    · rw [hother j hji]
      exact (and_iff_left fun heq => hji (h.addr_inj hsize hj hi hk htop heq).1).symm
  have hopen : Client.Open size ⟨out.2, out.1 :: s.live⟩ := by
    refine h.restack hr (hself ▸ hok) (List.nodup_cons.mpr ⟨hnew, h.nodup⟩) fun p => ?_
    rw [List.mem_cons, h.live]
    constructor
    · rintro (rfl | ⟨j, hj, k, hk, rfl, hno⟩)
      · exact ⟨i, hi, top, htop, rfl, fun hm => ((hstack i hi top htop).mp hm).2 rfl⟩
      · exact ⟨j, hj, k, hk, rfl, fun hm => hno ((hstack j hj k hk).mp hm).1⟩
    · rintro ⟨j, hj, k, hk, rfl, hno⟩
      by_cases heq : (s.pool.allBlocks j).addr size k = out.1
      · exact .inl heq
      · exact .inr ⟨j, hj, k, hk, rfl, fun hm => hno ((hstack j hj k hk).mpr ⟨hm, heq⟩)⟩
  refine ⟨hopen, Function.update_self .., hnew, ⟨top, htop, (hr.addr i top).symm⟩,
    h.free_iff.mpr ⟨i, hi, top, hmem, rfl⟩,
    fun q hq => Function.update_of_ne (show q ≠ out.1 from fun he => hnew (he ▸ hq)) _ _,
    fun q => ?_⟩
  rw [h.free_iff, hopen.free_iff]
  constructor
  · rintro ⟨j, hj, k, hk, rfl⟩
    have hlt := (hopen.ok j hj).index k hk
    obtain ⟨hold, hne⟩ := (hstack j hj k hlt).mp hk
    rw [hr.addr]
    exact ⟨⟨j, hj, k, hold, rfl⟩, hne⟩
  · rintro ⟨⟨j, hj, k, hk, rfl⟩, hne⟩
    refine ⟨j, hj, k, (hstack j hj k ((h.ok j hj).index k hk)).mpr ⟨hk, hne⟩, ?_⟩
    rw [hr.addr]

structure Extended (s s' : Client) (mem : Nat) : Prop where
  count : s'.pool.count = s.pool.count + 1
  block : s'.pool.allBlocks s.pool.count = newBlock mem
  other : ∀ j < s.pool.count, s'.pool.allBlocks j = s.pool.allBlocks j
  live : s'.live = s.live

theorem Extended.cases (h : Extended s s' mem) (hj : j < s'.pool.count) :
    (j < s.pool.count ∧ s'.pool.allBlocks j = s.pool.allBlocks j) ∨
      (j = s.pool.count ∧ s'.pool.allBlocks j = newBlock mem) := by
  rw [h.count] at hj
  rcases Nat.lt_succ_iff_lt_or_eq.mp hj with hj | rfl
  · exact .inl ⟨hj, h.other j hj⟩
  · exact .inr ⟨rfl, h.block⟩

theorem Extended.old (h : Extended s s' mem) (hj : j < s.pool.count) : j < s'.pool.count := by
  rw [h.count]
  exact Nat.lt_succ_of_lt hj

theorem Extended.last (h : Extended s s' mem) : s.pool.count < s'.pool.count := by
  rw [h.count]
  exact Nat.lt_succ_self _

section

variable (h : s.Open size)
include h

theorem Client.Open.extend (hext : Extended s s' mem)
    (hapart : ∀ j < s.pool.count, (s.pool.allBlocks j).Apart size mem) : s'.Open size := by
  refine ⟨fun j hj => ?_, fun j hj => ?_, fun j hj k hk hjk => ?_, hext.live ▸ h.nodup, fun p => ?_⟩
  · rcases hext.cases hj with ⟨hj, heq⟩ | ⟨-, heq⟩
    · rw [heq, h.alive j hj]
    · rw [heq]
      rfl
  · rcases hext.cases hj with ⟨hj, heq⟩ | ⟨-, heq⟩
    · rw [heq]
      exact h.ok j hj
    · rw [heq]
      exact newBlock_ok mem
  · rcases hext.cases hj with ⟨hj, heqj⟩ | ⟨rfl, heqj⟩
    · rcases hext.cases hk with ⟨hk, heqk⟩ | ⟨-, heqk⟩
      · rw [heqj, heqk]
        exact h.apart j hj k hk hjk
      · rw [heqj, heqk]
        exact hapart j hj
    · rcases hext.cases hk with ⟨hk, heqk⟩ | ⟨rfl, -⟩
      · rw [heqj, heqk]
        exact (hapart k hk).symm
      · exact absurd rfl hjk
  · rw [hext.live, h.live]
    constructor
    · rintro ⟨j, hj, hk⟩
      refine ⟨j, hext.old hj, ?_⟩
      rwa [hext.other j hj]
    · rintro ⟨j, hj, k, hk, heq, hno⟩
      rcases hext.cases hj with ⟨hj, hblock⟩ | ⟨-, hblock⟩
      · rw [hblock] at heq hno
        exact ⟨j, hj, k, hk, heq, hno⟩
      · rw [hblock, mem_newBlock] at hno
        exact absurd hk hno

theorem Client.Open.extend_free (h' : s'.Open size) (hext : Extended s s' mem) :
    s'.pool.Free size q ↔ s.pool.Free size q ∨ ∃ k < blockSize, q = mem + k * size := by
  rw [h.free_iff, h'.free_iff]
  constructor
  · rintro ⟨j, hj, k, hk, heq⟩
    rcases hext.cases hj with ⟨hj, hblock⟩ | ⟨-, hblock⟩
    · rw [hblock] at hk heq
      exact .inl ⟨j, hj, k, hk, heq⟩
    · rw [hblock] at hk heq
      exact .inr ⟨k, (mem_newBlock mem).mp hk, heq⟩
  · rintro (⟨j, hj, hk⟩ | ⟨k, hk, heq⟩)
    · refine ⟨j, hext.old hj, ?_⟩
      rwa [hext.other j hj]
    · refine ⟨s.pool.count, hext.last, k, ?_, ?_⟩
      · rw [hext.block, mem_newBlock]
        exact hk
      · rw [hext.block]
        exact heq

theorem Client.Open.outside (hsize : 0 < size)
    (hapart : ∀ j < s.pool.count, (s.pool.allBlocks j).Apart size mem) (hq : q ∈ s.live) :
    ¬ (mem ≤ q ∧ q < mem + blockSize * size) := by
  obtain ⟨j, hj, k, hk, rfl, -⟩ := (h.live q).mp hq
  have hrange := addr_range size (s.pool.allBlocks j) hk
  rcases hapart j hj with hle | hle
  · omega
  · omega

theorem Client.Open.grow (hsize : 0 < size) (hlegal : s.Legal size (.newNode mem))
    (hcount : s.pool.count < 1000) :
    ∃ pool, s.pool.grow size mem = .ok pool ∧ Client.Open size ⟨pool, s.live⟩ ∧
      Extended s ⟨pool, s.live⟩ mem ∧ ∀ q ∈ s.live, pool.node q = s.pool.node q := by
  have hapart : ∀ j < s.pool.count, (s.pool.allBlocks j).Apart size mem := fun j hj =>
    hlegal j hj (h.alive j hj)
  refine ⟨_, if_pos hcount, ?_⟩
  have hext : Extended s ⟨{ s.pool with
      allBlocks := Function.update s.pool.allBlocks s.pool.count (newBlock mem)
      count := s.pool.count + 1
      node := fun p => if mem ≤ p ∧ p < mem + blockSize * size then Node.zero
        else s.pool.node p }, s.live⟩ mem :=
    ⟨rfl, Function.update_self .., fun j hj => Function.update_of_ne hj.ne _ _, rfl⟩
  exact ⟨h.extend hext hapart, hext, fun q hq => if_neg (h.outside hsize hapart hq)⟩

theorem Client.Open.free_room :
    (∃ q, s.pool.Free size q) ↔ ∃ i < s.pool.count, (s.pool.allBlocks i).remains ≠ 0 := by
  constructor
  · rintro ⟨q, hq⟩
    obtain ⟨i, hi, k, hk, -⟩ := h.free_iff.mp hq
    refine ⟨i, hi, fun hzero => ?_⟩
    rw [Block.free, hzero] at hk
    exact absurd hk List.not_mem_nil
  · rintro ⟨i, hi, hroom⟩
    refine ⟨_, h.free_iff.mpr ⟨i, hi, (s.pool.allBlocks i).fat ((s.pool.allBlocks i).remains - 1),
      ?_, rfl⟩⟩
    rw [free_pop _ hroom]
    exact List.mem_append_right _ List.mem_cons_self

theorem Client.Open.search {m n : Int} :
    let pool := { s.pool with tempMaxNodesNum := m, tempCurNodesNum := n }
    (searchDown pool.hasRoom pool.count = .ok none ∧ ¬ ∃ q, s.pool.Free size q) ∨
      ∃ i < s.pool.count, searchDown pool.hasRoom pool.count = .ok (some i) ∧
        (s.pool.allBlocks i).remains ≠ 0 := by
  have htest : ∀ i < s.pool.count,
      Pool.hasRoom { s.pool with tempMaxNodesNum := m, tempCurNodesNum := n } i =
        .ok ((s.pool.allBlocks i).remains != 0) := by
    intro i hi
    rw [Pool.hasRoom, if_neg]
    rw [h.alive i hi]
    exact Bool.false_ne_true
  rcases searchDown_ok htest with ⟨hnone, hall⟩ | ⟨i, hi, hsome, hroom⟩
  · refine .inl ⟨hnone, fun hfree => ?_⟩
    obtain ⟨i, hi, hroom⟩ := h.free_room.mp hfree
    exact hroom (by simpa using hall i hi)
  · exact .inr ⟨i, hi, hsome, by simpa using hroom⟩

theorem Client.Open.newNode (hsize : 0 < size) (hlegal : s.Legal size (.newNode mem))
    (hroom : (∃ q, s.pool.Free size q) ∨ s.pool.count < 1000) :
    ∃ p pool, s.pool.newNode size mem = .ok (p, pool) ∧ NewRight size s mem p pool ∧
      Client.Open size ⟨pool, p :: s.live⟩ ∧ pool.count ≤ max s.pool.count 1000 := by
  let pool₀ : Pool := { s.pool with
    tempCurNodesNum := s.pool.tempCurNodesNum + 1
    tempMaxNodesNum := max s.pool.tempMaxNodesNum (s.pool.tempCurNodesNum + 1) }
  have h₀ : Client.Open size ⟨pool₀, s.live⟩ := ⟨h.alive, h.ok, h.apart, h.nodup, h.live⟩
  rcases h.search with
    ⟨hnone, hno⟩ | ⟨i, hi, hsome, hremains⟩
  · have hcount := hroom.resolve_left hno
    obtain ⟨grown, hgrow, h₁, hext, hothers⟩ := h₀.grow hsize hlegal hcount
    have hlast : s.pool.count < grown.count := hext.last
    have hremains : (grown.allBlocks s.pool.count).remains ≠ 0 := by
      have hblock : grown.allBlocks s.pool.count = newBlock mem := hext.block
      rw [hblock]
      exact blockSize_pos.ne'
    obtain ⟨hopen, hzero, hnew, hblock, -, hkept, hfree⟩ := h₁.take hsize hlast hremains
    refine ⟨_, _, ?_, ⟨hzero, hnew, ⟨s.pool.count, hlast, hopen.alive _ hlast, hblock⟩,
      fun q hq => (hkept q hq).trans (hothers q hq), fun hsome => absurd hsome hno,
      fun _ q => ?_⟩, hopen, ?_⟩
    · rw [Pool.newNode]
      rw [hnone]
      rw [hgrow]
      rfl
    · refine (hfree q).trans (and_congr_left fun _ => ?_)
      exact (h₀.extend_free h₁ hext).trans (or_iff_right fun hq => hno ⟨q, hq⟩)
    · have hsucc : grown.count = s.pool.count + 1 := hext.count
      change grown.count ≤ _
      omega
  · obtain ⟨hopen, hzero, hnew, hblock, hold, hkept, hfree⟩ := h₀.take hsize hi hremains
    refine ⟨_, _, ?_, ⟨hzero, hnew, ⟨i, hi, hopen.alive i hi, hblock⟩, hkept,
      fun _ => ⟨hold, hfree⟩, absurd (h.free_room.mpr ⟨i, hi, hremains⟩)⟩, hopen,
      Nat.le_max_left ..⟩
    rw [Pool.newNode]
    rw [hsome]
    rfl

end

/-! ## `delete_node` -/

theorem Client.Open.search_node (h : s.Open size) (hsize : 0 < size) (hi : i < s.pool.count)
    (hk : k < blockSize) (hp : p = (s.pool.allBlocks i).addr size k) :
    searchDown (fun j => .ok (s.pool.holds size p j)) s.pool.count = .ok (some i) := by
  have hself : s.pool.holds size p i = true := by
    have hrange := addr_range size (s.pool.allBlocks i) hk
    rw [Pool.holds]
    simp only [Bool.and_eq_true, decide_eq_true_eq]
    omega
  let test : Nat → Except PoolFault Bool := fun j => .ok (s.pool.holds size p j)
  have htest : ∀ j < s.pool.count, test j = .ok (s.pool.holds size p j) := fun j _ => rfl
  rcases searchDown_ok htest with ⟨-, hall⟩ | ⟨j, hj, hsome, hholds⟩
  · rw [hall i hi] at hself
    cases hself
  · have hij : i = j := by
      by_contra hij
      have hrange := addr_range size (s.pool.allBlocks i) hk
      rw [Pool.holds] at hholds
      simp only [Bool.and_eq_true, decide_eq_true_eq] at hholds
      rcases h.apart i hi j hj hij with hle | hle
      · omega
      · omega
    rw [hsome, hij]

theorem Client.Open.deleteNode (h : s.Open size) (hsize : 0 < size) (hp : p ∈ s.live) :
    ∃ pool, s.pool.deleteNode size p = .ok pool ∧ DeleteRight size s p pool ∧
      Client.Open size ⟨pool, s.live.erase p⟩ ∧ pool.count = s.pool.count := by
  obtain ⟨i, hi, k, hk, hp', hno⟩ := (h.live p).mp hp
  let b := s.pool.allBlocks i
  let out : Pool := { s.pool with
    tempCurNodesNum := s.pool.tempCurNodesNum - 1
    allBlocks := Function.update s.pool.allBlocks i { b with
      fat := Function.update b.fat b.remains k
      remains := b.remains + 1 } }
  have hok := (h.ok i hi).push hk hno
  have hindex : (p - b.mem) / size = k := by
    have heq : p = b.mem + k * size := hp'
    rw [heq, Nat.add_sub_cancel_left, Nat.mul_div_cancel _ hsize]
  have hrun : s.pool.deleteNode size p = .ok out := by
    change searchDown (fun j => .ok (s.pool.holds size p j)) s.pool.count >>= _ = _
    rw [h.search_node hsize hi hk hp']
    change (if b.freed = true then _ else if b.remains < blockSize then _ else _) = _
    have halive : ¬ b.freed = true := by
      rw [h.alive i hi]
      exact Bool.false_ne_true
    have hroom : b.remains < blockSize := hok.remains
    rw [if_neg halive, if_pos hroom, hindex]
    rfl
  have hself : out.allBlocks i = { b with
      fat := Function.update b.fat b.remains k
      remains := b.remains + 1 } := Function.update_self i _ s.pool.allBlocks
  have hother : ∀ j, j ≠ i → out.allBlocks j = s.pool.allBlocks j := fun j hj =>
    Function.update_of_ne hj _ _
  have hr : Restacked s ⟨out, s.live.erase p⟩ i := by
    refine ⟨rfl, hother, ?_, ?_⟩
    · exact (congrArg Block.mem hself).trans rfl
    · exact (congrArg Block.freed hself).trans rfl
  -- An index is on the new stack when it is on the old one, or is that of `p`.
  have hstack : ∀ j < s.pool.count, ∀ l < blockSize, l ∈ (out.allBlocks j).free ↔
      l ∈ (s.pool.allBlocks j).free ∨ (s.pool.allBlocks j).addr size l = p := by
    intro j hj l hl
    by_cases hji : j = i
    · subst hji
      rw [hself, free_push, List.mem_append, List.mem_singleton, hp']
      exact or_congr_right ⟨fun he => by rw [he], Swim.addr_inj hsize⟩
    · rw [hother j hji]
      exact (or_iff_left fun heq =>
        hji (h.addr_inj hsize hj hi hl hk (heq.trans hp')).1).symm
  have hopen : Client.Open size ⟨out, s.live.erase p⟩ := by
    refine h.restack hr (hself ▸ hok) (h.nodup.erase p) fun q => ?_
    rw [h.nodup.mem_erase_iff, h.live]
    constructor
    · rintro ⟨hne, j, hj, l, hl, rfl, hfree⟩
      exact ⟨j, hj, l, hl, rfl, fun hm => ((hstack j hj l hl).mp hm).elim hfree hne⟩
    · rintro ⟨j, hj, l, hl, rfl, hfree⟩
      have hfree := not_or.mp ((hstack j hj l hl).not.mp hfree)
      exact ⟨hfree.2, j, hj, l, hl, rfl, hfree.1⟩
  refine ⟨out, hrun, ⟨fun q => ?_, rfl⟩, hopen, rfl⟩
  rw [h.free_iff, hopen.free_iff]
  constructor
  · rintro ⟨j, hj, l, hl, rfl⟩
    rw [hr.addr]
    rcases (hstack j hj l ((hopen.ok j hj).index l hl)).mp hl with hl | heq
    · exact .inl ⟨j, hj, l, hl, rfl⟩
    · exact .inr heq
  · rintro (⟨j, hj, l, hl, rfl⟩ | rfl)
    · refine ⟨j, hj, l, (hstack j hj l ((h.ok j hj).index l hl)).mpr (.inl hl), ?_⟩
      rw [hr.addr]
    · refine ⟨i, hi, k, (hstack i hi k hk).mpr (.inr hp'.symm), ?_⟩
      rw [hr.addr]
      exact hp'

/-! ## `release_memory` -/

theorem freeBlocks_ok {n : Nat} (pool : Pool) (h : ∀ i < n, (pool.allBlocks i).freed = false) :
    ∃ pool', (List.range n).foldlM Pool.freeBlock pool = .ok pool' ∧ pool'.count = pool.count ∧
      (∀ i < n, (pool'.allBlocks i).freed = true) ∧
      ∀ i, n ≤ i → pool'.allBlocks i = pool.allBlocks i := by
  induction n with
  | zero => exact ⟨pool, rfl, rfl, fun i hi => absurd hi (Nat.not_lt_zero i), fun i _ => rfl⟩
  | succ n ih =>
    obtain ⟨pool', hrun, hcount, hfreed, hother⟩ := ih fun i hi => h i (Nat.lt_succ_of_lt hi)
    have halive : ¬ (pool'.allBlocks n).freed = true := by
      rw [hother n (le_refl n), h n (Nat.lt_succ_self n)]
      exact Bool.false_ne_true
    refine ⟨{ pool' with
        allBlocks := Function.update pool'.allBlocks n { pool'.allBlocks n with freed := true } },
      ?_, hcount, fun i hi => ?_, fun i hi => ?_⟩
    · rw [List.range_succ, List.foldlM_append, hrun]
      change pool'.freeBlock n >>= _ = _
      rw [Pool.freeBlock]
      rw [if_neg halive]
      rfl
    · change (Function.update pool'.allBlocks n _ i).freed = true
      rcases Nat.lt_succ_iff_lt_or_eq.mp hi with hi | rfl
      · rw [Function.update_of_ne hi.ne]
        exact hfreed i hi
      · rw [Function.update_self]
    · change Function.update pool'.allBlocks n _ i = _
      rw [Function.update_of_ne (by omega)]
      exact hother i (by omega)

theorem releaseMemory_again (hcount : 0 < pool.count) (h : (pool.allBlocks 0).freed = true) :
    pool.releaseMemory = .error .freed := by
  obtain ⟨n, hn⟩ := Nat.exists_eq_succ_of_ne_zero hcount.ne'
  rw [Pool.releaseMemory, hn, List.range_succ_eq_map, List.foldlM_cons, Pool.freeBlock,
    if_pos h]
  rfl

theorem newNode_released (hcount : 0 < pool.count)
    (h : ∀ i < pool.count, (pool.allBlocks i).freed = true) :
    pool.newNode size mem = .error .freed := by
  obtain ⟨n, hn⟩ := Nat.exists_eq_succ_of_ne_zero hcount.ne'
  have hlast := h n (hn ▸ Nat.lt_succ_self n)
  rw [Pool.newNode]
  rw [hn, searchDown, Pool.hasRoom]
  rw [if_pos hlast]
  rfl

/-! ## Room for one more node -/

def Pool.nodes (size : Nat) (pool : Pool) : List Nat :=
  (List.range pool.count).flatMap fun i =>
    (List.range blockSize).map fun k => (pool.allBlocks i).addr size k

theorem mem_nodes : p ∈ pool.nodes size ↔
    ∃ i < pool.count, ∃ k < blockSize, p = (pool.allBlocks i).addr size k := by
  simp [Pool.nodes, List.mem_flatMap, List.mem_map, List.mem_range, eq_comm]

theorem nodes_length (size : Nat) (pool : Pool) :
    (pool.nodes size).length = pool.count * blockSize := by
  simp [Pool.nodes, List.length_flatMap]

theorem Client.Open.nodes_nodup (h : s.Open size) (hsize : 0 < size) :
    (s.pool.nodes size).Nodup := by
  refine List.nodup_flatMap.mpr ⟨fun i hi => ?_, ?_⟩
  · exact List.nodup_range.map fun k l heq => Swim.addr_inj hsize heq
  · refine List.nodup_range.imp_of_mem fun {i j} hi hj hij => ?_
    intro p hp hq
    obtain ⟨k, hk, rfl⟩ := List.mem_map.mp hp
    obtain ⟨l, hl, heq⟩ := List.mem_map.mp hq
    exact hij (h.addr_inj hsize (List.mem_range.mp hi) (List.mem_range.mp hj)
      (List.mem_range.mp hk) (List.mem_range.mp hl) heq.symm).1

theorem Client.Open.live_nodes (h : s.Open size) : s.live ⊆ s.pool.nodes size := by
  intro p hp
  obtain ⟨i, hi, k, hk, heq, -⟩ := (h.live p).mp hp
  exact mem_nodes.mpr ⟨i, hi, k, hk, heq⟩

theorem Client.Open.room_iff (h : s.Open size) (hsize : 0 < size) (hcount : s.pool.count ≤ 1000) :
    ((∃ q, s.pool.Free size q) ∨ s.pool.count < 1000) ↔ s.live.length < 1000 * blockSize := by
  constructor
  · rintro (⟨q, hq⟩ | hlt)
    · obtain ⟨i, hi, k, hk, rfl⟩ := h.free_iff.mp hq
      have hk' := (h.ok i hi).index k hk
      have hnew : (s.pool.allBlocks i).addr size k ∉ s.live := by
        intro hm
        obtain ⟨j, hj, l, hl, heq, hno⟩ := (h.live _).mp hm
        obtain ⟨rfl, rfl⟩ := h.addr_inj hsize hi hj hk' hl heq
        exact hno hk
      have hsub : (s.pool.allBlocks i).addr size k :: s.live ⊆ s.pool.nodes size :=
        List.cons_subset.mpr ⟨mem_nodes.mpr ⟨i, hi, k, hk', rfl⟩, h.live_nodes⟩
      have hle := ((List.nodup_cons.mpr ⟨hnew, h.nodup⟩).subperm hsub).length_le
      rw [nodes_length] at hle
      exact hle.trans (Nat.mul_le_mul_right _ hcount)
    · have hle := (h.nodup.subperm h.live_nodes).length_le
      rw [nodes_length] at hle
      exact hle.trans_lt (Nat.mul_lt_mul_of_pos_right hlt blockSize_pos)
  · intro hlt
    by_contra hno
    obtain ⟨hnone, hfull⟩ := not_or.mp hno
    have hcount : s.pool.count = 1000 := by omega
    have hsub : s.pool.nodes size ⊆ s.live := by
      intro p hp
      obtain ⟨i, hi, k, hk, rfl⟩ := mem_nodes.mp hp
      exact (h.live _).mpr ⟨i, hi, k, hk, rfl, fun hm =>
        hnone ⟨_, h.free_iff.mpr ⟨i, hi, k, hm, rfl⟩⟩⟩
    have hle := ((h.nodes_nodup hsize).subperm hsub).length_le
    rw [nodes_length, hcount] at hle
    omega

theorem Client.Open.newNode_full (h : s.Open size) (hno : ¬ ∃ q, s.pool.Free size q)
    (hfull : ¬ s.pool.count < 1000) : s.pool.newNode size mem = .error .outside := by
  rcases h.search
    with ⟨hnone, -⟩ | ⟨i, hi, -, hremains⟩
  · rw [Pool.newNode]
    rw [hnone]
    rw [Pool.grow]
    rw [if_neg hfull]
    rfl
  · exact absurd (h.free_room.mpr ⟨i, hi, hremains⟩) hno

/-! ## Whole runs -/

/-- A session is open, or the last one has ended and nothing is in use. -/
structure Client.Sound (size : Nat) (s : Client) : Prop where
  count : s.pool.count ≤ 1000
  session : s.Open size ∨
    0 < s.pool.count ∧ (∀ i < s.pool.count, (s.pool.allBlocks i).freed = true) ∧ s.live = []

theorem Client.Open.releaseMemory (h : s.Open size) :
    ∃ pool, s.pool.releaseMemory = .ok pool ∧ pool.count = s.pool.count ∧
      (∀ i < pool.count, (pool.allBlocks i).freed = true) ∧ ∀ q, ¬ pool.Free size q := by
  obtain ⟨pool, hrun, hcount, hfreed, -⟩ := freeBlocks_ok s.pool h.alive
  refine ⟨pool, hrun, hcount, fun i hi => hfreed i (hcount ▸ hi), ?_⟩
  rintro q ⟨i, hi, halive, -⟩
  rw [hfreed i (hcount ▸ hi)] at halive
  cases halive

theorem start_open (size : Nat) : Client.Open size ⟨Pool.start, []⟩ := by
  have hno : ∀ i, ¬ i < Pool.start.count := Nat.not_lt_zero
  refine ⟨fun i hi => absurd hi (hno i), fun i hi => absurd hi (hno i),
    fun i hi => absurd hi (hno i), List.nodup_nil, fun p => ?_⟩
  constructor
  · exact fun hp => absurd hp List.not_mem_nil
  · rintro ⟨i, hi, -⟩
    exact absurd hi (hno i)

theorem Client.Sound.step (hsize : 0 < size) (h : s.Sound size) {op : PoolCall}
    (hlegal : s.Legal size op) (hrun : s.step size op = .ok s') : s'.Sound size := by
  cases op with
  | newNode mem =>
    rw [Client.step] at hrun
    rcases h.session with hopen | ⟨hpos, hfreed, -⟩
    · by_cases hroom : (∃ q, s.pool.Free size q) ∨ s.pool.count < 1000
      · obtain ⟨p, pool, hnew, -, hopen', hcount⟩ := hopen.newNode hsize hlegal hroom
        rw [hnew] at hrun
        cases hrun
        exact ⟨hcount.trans (max_le h.count (le_refl _)), .inl hopen'⟩
      · obtain ⟨hno, hfull⟩ := not_or.mp hroom
        rw [hopen.newNode_full hno hfull] at hrun
        cases hrun
    · rw [newNode_released hpos hfreed] at hrun
      cases hrun
  | deleteNode p =>
    rcases h.session with hopen | ⟨-, -, hlive⟩
    · obtain ⟨pool, hdelete, -, hopen', hcount⟩ := hopen.deleteNode hsize hlegal
      rw [Client.step, hdelete] at hrun
      cases hrun
      exact ⟨hcount.trans_le h.count, .inl hopen'⟩
    · have hp : p ∈ s.live := hlegal
      rw [hlive] at hp
      exact absurd hp List.not_mem_nil
  | write p value =>
    cases hrun
    exact ⟨h.count, h.session.imp_left fun hopen =>
      ⟨hopen.alive, hopen.ok, hopen.apart, hopen.nodup, hopen.live⟩⟩
  | releaseMemory =>
    rcases h.session with hopen | ⟨hpos, hfreed, -⟩
    · obtain ⟨pool, hrelease, hcount, hfreed, -⟩ := hopen.releaseMemory
      rw [Client.step, hrelease] at hrun
      cases hrun
      refine ⟨hcount.trans_le h.count, ?_⟩
      by_cases hzero : pool.count = 0
      · left
        have hno : ∀ i, ¬ i < pool.count := fun i hi => by omega
        exact ⟨fun i hi => absurd hi (hno i), fun i hi => absurd hi (hno i),
          fun i hi => absurd hi (hno i), List.nodup_nil, fun q =>
            ⟨fun hq => absurd hq List.not_mem_nil, fun ⟨i, hi, _⟩ => absurd hi (hno i)⟩⟩
      · exact .inr ⟨Nat.pos_of_ne_zero hzero, hfreed, rfl⟩
    · rw [Client.step, releaseMemory_again hpos (hfreed 0 hpos)] at hrun
      cases hrun

theorem Client.Reached.sound (hsize : 0 < size) (h : s.Reached size) : s.Sound size := by
  induction h with
  | start => exact ⟨Nat.zero_le _, .inl (start_open size)⟩
  | step op _ legal run ih => exact ih.step hsize legal run

theorem stepRight_iff (hsize : 0 < size) (h : s.Sound size) {op : PoolCall}
    (hlegal : s.Legal size op) : StepRight size s op ↔ Permitted s op := by
  cases op with
  | newNode mem =>
    rcases h.session with hopen | ⟨hpos, hfreed, -⟩
    · rw [Permitted, and_iff_right hopen.alive, ← hopen.room_iff hsize h.count]
      constructor
      · rintro ⟨p, pool, hnew, -⟩
        by_contra hroom
        obtain ⟨hno, hfull⟩ := not_or.mp hroom
        rw [hopen.newNode_full hno hfull] at hnew
        cases hnew
      · intro hroom
        obtain ⟨p, pool, hnew, hright, -⟩ := hopen.newNode hsize hlegal hroom
        exact ⟨p, pool, hnew, hright⟩
    · refine iff_of_false ?_ fun hperm => ?_
      · rintro ⟨p, pool, hnew, -⟩
        rw [newNode_released hpos hfreed] at hnew
        cases hnew
      · have halive := hperm.1 0 hpos
        rw [hfreed 0 hpos] at halive
        cases halive
  | deleteNode p =>
    rcases h.session with hopen | ⟨-, -, hlive⟩
    · obtain ⟨pool, hdelete, hright, -⟩ := hopen.deleteNode hsize hlegal
      exact iff_of_true ⟨pool, hdelete, hright⟩ trivial
    · have hp : p ∈ s.live := hlegal
      rw [hlive] at hp
      exact absurd hp List.not_mem_nil
  | write p value => exact Iff.rfl
  | releaseMemory =>
    rcases h.session with hopen | ⟨hpos, hfreed, -⟩
    · obtain ⟨pool, hrelease, -, -, hfree⟩ := hopen.releaseMemory
      exact iff_of_true ⟨pool, hrelease, hfree⟩ hopen.alive
    · refine iff_of_false ?_ fun hperm => ?_
      · rintro ⟨pool, hrelease, -⟩
        rw [releaseMemory_again hpos (hfreed 0 hpos)] at hrelease
        cases hrelease
      · have halive := hperm 0 hpos
        rw [hfreed 0 hpos] at halive
        cases halive

/-- In every state of every run the nodes in use are different and do not share storage, and the
next call is right just when it is permitted. -/
theorem memmgr_right (hsize : 0 < size) (h : s.Reached size) :
    s.live.Nodup ∧ (∀ p ∈ s.live, ∀ q ∈ s.live, p ≠ q → p + size ≤ q ∨ q + size ≤ p) ∧
      ∀ op, s.Legal size op → (StepRight size s op ↔ Permitted s op) := by
  have hsound := h.sound hsize
  refine ⟨?_, fun p hp q hq hpq => ?_, fun op hlegal => stepRight_iff hsize hsound hlegal⟩
  · rcases hsound.session with hopen | ⟨-, -, hlive⟩
    · exact hopen.nodup
    · rw [hlive]
      exact List.nodup_nil
  · rcases hsound.session with hopen | ⟨-, -, hlive⟩
    · exact hopen.storage hp hq hpq
    · rw [hlive] at hp
      exact absurd hp List.not_mem_nil

theorem memmgr_right_first : StepRight 80 ⟨Pool.start, []⟩ (.newNode 4096) := by
  have hno : ∀ i, ¬ i < Pool.start.count := Nat.not_lt_zero
  have hlegal : Client.Legal 80 ⟨Pool.start, []⟩ (.newNode 4096) := fun i hi => absurd hi (hno i)
  exact ((memmgr_right (by decide) .start).2.2 _ hlegal).mpr
    ⟨fun i hi => absurd hi (hno i), Nat.mul_pos (by decide) blockSize_pos⟩

/-- Two sessions: the first `new_node` of the second one looks for room in a block that was
freed. -/
theorem secondSession_not_right :
    ∃ s : Client, s.Reached 80 ∧ s.live = [] ∧ s.Legal 80 (.newNode 4096) ∧
      ¬ StepRight 80 s (.newNode 4096) := by
  have hopen := start_open 80
  have hlegal : Client.Legal 80 ⟨Pool.start, []⟩ (.newNode 4096) := fun i hi =>
    absurd hi (Nat.not_lt_zero i)
  obtain ⟨p, pool, hnew, hright, hopen', -⟩ :=
    hopen.newNode (by decide) hlegal (.inr (show 0 < 1000 by decide))
  obtain ⟨i, hi, -⟩ := hright.block
  obtain ⟨pool', hrelease, hcount, hfreed, -⟩ := hopen'.releaseMemory
  have hfirst : Client.step 80 ⟨Pool.start, []⟩ (.newNode 4096) = .ok ⟨pool, [p]⟩ := by
    rw [Client.step, hnew]
    rfl
  have hlast : Client.step 80 ⟨pool, [p]⟩ .releaseMemory = .ok ⟨pool', []⟩ := by
    rw [Client.step, hrelease]
    rfl
  have hreached : Client.Reached 80 ⟨pool', []⟩ :=
    .step .releaseMemory (.step _ .start hlegal hfirst) trivial hlast
  refine ⟨⟨pool', []⟩, hreached, rfl, fun j hj halive => ?_, ?_⟩
  · rw [hfreed j hj] at halive
    cases halive
  · rintro ⟨q, pool'', hnew', -⟩
    have hpos : 0 < pool'.count := hcount ▸ Nat.zero_lt_of_lt hi
    rw [newNode_released hpos hfreed] at hnew'
    cases hnew'

end StreamMill.Swim
