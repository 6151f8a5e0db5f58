import StreamMill.Buf.SharedBuf
import StreamMill.Esl.Driver
import StreamMill.Lib.BinarySearch
import Mathlib.Data.Char

/-!
# StreamMill.Buf.BufferMngr

The dictionary of buffers (`bufferMngr` in `buffer.cc`): an array of names and buffers that
`create` sorts anew and `kill` closes up, so that `lookup` can search it by halves. `qsort` is the
library's sort.
-/

namespace StreamMill.Buf

open Lib
open Esl (Name)

def maxName : Nat := 256

def maxBuf : Nat := 500

inductive BufType where
  | notShared
  | shared
  | stdout
  | btree
  | recno
  | winbuf
  deriving DecidableEq, Repr

structure BufObj where
  addr : Nat
  type : BufType
  deriving DecidableEq, Repr

structure BufMapEntry where
  name : Name
  b : Ptr BufObj
  deriving DecidableEq

/-- The first `n` entries of `dict`. -/
structure BufferMngr where
  dict : List BufMapEntry
  deriving DecidableEq

def strcmp : Name → Name → Int
  | [], [] => 0
  | [], _ :: _ => -1
  | _ :: _, [] => 1
  | x :: xs, y :: ys => if x < y then -1 else if y < x then 1 else strcmp xs ys

def bufMapCmp (m₁ m₂ : BufMapEntry) : Int := strcmp m₁.name m₂.name

def newBufferMngr : BufferMngr := { dict := [] }

/-- Of a key whose name does not fit the array the copy overflows. -/
def BufferMngr.lookupBufMapIdx (m : BufferMngr) (name : Name) : Except BufFault (Option Nat) :=
  if maxName ≤ name.length then .error .overflow
  else .ok (bsearch (fun e => sgn (strcmp name e.name)) m.dict)

def BufferMngr.lookup (m : BufferMngr) (name : Name) : Except BufFault (Ptr BufObj) := do
  match ← m.lookupBufMapIdx name with
  | none => return .null
  | some r => return (m.dict[r]?.map BufMapEntry.b).getD .null

/-- The new buffer of `create`; `none` if there is no shared memory for it. A type that is not
known leaves the pointer unset. -/
def newBuffer (type : BufType) (alloc : Option Nat) : Except BufFault (Option (Ptr BufObj)) :=
  match type, alloc with
  | .stdout, _ => .ok (some .wild)
  | .shared, none => .ok none
  | type, some addr => .ok (some (.ref ⟨addr, type⟩))
  | _, none => .error .badAlloc

abbrev QSort := (BufMapEntry → BufMapEntry → Int) → List BufMapEntry → List BufMapEntry

/-- `alloc` is what `mm_malloc` or `new` returns. -/
def BufferMngr.create (qsort : QSort) (m : BufferMngr) (name : Name) (type : BufType)
    (alloc : Option Nat) : Except BufFault (BufferMngr × Int × List LockOp) := do
  match ← m.lookup name with
  | .wild => .error .wildPtr
  | .ref _ => return (m, -1, [])
  | .null =>
    match ← newBuffer type alloc with
    | none => return (m, -1, [])
    | some b =>
      if maxBuf ≤ m.dict.length then .error .overflow
      else return (⟨qsort bufMapCmp (m.dict ++ [⟨name, b⟩])⟩, 0, [.lock, .unlock])

def BufferMngr.kill (m : BufferMngr) (name : Name) :
    Except BufFault (BufferMngr × Int × List LockOp) := do
  match ← m.lookupBufMapIdx name with
  | none => return (m, -1, [.lock])
  | some r =>
    match m.dict[r]?.map BufMapEntry.b with
    | some (.ref _) => return (⟨m.dict.eraseIdx r⟩, 0, [.lock, .unlock])
    | _ => .error .wildPtr

theorem sgn_strcmp (a b : Name) : sgn (strcmp a b) = order a b := by
  induction a generalizing b with
  | nil =>
    cases b with
    | nil => exact (order_eq rfl).symm
    | cons y ys => exact (order_lt (List.nil_lt_cons y ys)).symm
  | cons x xs ih =>
    cases b with
    | nil => exact (order_gt (List.nil_lt_cons x xs)).symm
    | cons y ys =>
      rw [order_cons, strcmp]
      rcases lt_trichotomy x y with h | h | h
      · rw [if_pos h, order_lt h]
        rfl
      · subst h
        rw [if_neg (lt_irrefl x), if_neg (lt_irrefl x), order_eq rfl, ih]
        rfl
      · rw [if_neg (lt_asymm h), if_pos h, order_gt h]
        rfl

variable {m m' : BufferMngr} {alive : List (Name × BufObj)} {name : Name} {b : BufObj}

def aliveEntry (x : Name × BufObj) : BufMapEntry := ⟨x.1, .ref x.2⟩

/-- The dictionary is sorted, and has the buffers that are alive. -/
structure BufferMngr.Holds (m : BufferMngr) (alive : List (Name × BufObj)) : Prop where
  sorted : m.dict.Pairwise fun e e' => e.name < e'.name
  perm : m.dict.Perm (alive.map aliveEntry)

theorem newBufferMngr_holds : newBufferMngr.Holds [] := ⟨List.Pairwise.nil, List.Perm.refl _⟩

variable {r : Nat} {type : BufType}

theorem lookupBufMapIdx_iff (hs : m.dict.Pairwise fun e e' => e.name < e'.name)
    (hname : name.length < maxName) :
    m.lookupBufMapIdx name = .ok (some r) ↔ ∃ e, m.dict[r]? = some e ∧ e.name = name := by
  rw [BufferMngr.lookupBufMapIdx, if_neg (by omega)]
  simp only [sgn_strcmp, Except.ok.injEq]
  exact bsearch_iff hs

theorem lookupBufMapIdx_ok (m : BufferMngr) (hname : name.length < maxName) :
    ∃ r, m.lookupBufMapIdx name = .ok r := by
  rw [BufferMngr.lookupBufMapIdx, if_neg (by omega)]
  exact ⟨_, rfl⟩

theorem BufferMngr.Holds.nodup (h : m.Holds alive) : (alive.map Prod.fst).Nodup := by
  have hnames : (m.dict.map BufMapEntry.name).Nodup := by
    rw [List.nodup_iff_pairwise_ne, List.pairwise_map]
    exact h.sorted.imp ne_of_lt
  have hperm := h.perm.map BufMapEntry.name
  rw [List.map_map] at hperm
  exact hperm.nodup_iff.mp hnames

def bufPtr : Option BufObj → Ptr BufObj
  | none => .null
  | some b => .ref b

theorem lookup_some_iff (hnd : (alive.map Prod.fst).Nodup) :
    alive.lookup name = some b ↔ (name, b) ∈ alive := by
  induction alive with
  | nil => simp
  | cons x alive ih =>
    rw [List.map_cons, List.nodup_cons] at hnd
    rw [List.lookup_cons, List.mem_cons]
    cases hx : name == x.1 with
    | true =>
      have hx := eq_of_beq hx
      subst hx
      constructor
      · intro h
        cases h
        exact Or.inl rfl
      · rintro (h | h)
        · rw [← h]
        · exact absurd (List.mem_map_of_mem h) hnd.1
    | false =>
      have hx := ne_of_beq_false hx
      rw [ih hnd.2]
      constructor
      · exact Or.inr
      · rintro (h | h)
        · exact absurd (congrArg Prod.fst h) hx
        · exact h

theorem BufferMngr.Holds.find (h : m.Holds alive) (hname : name.length < maxName) :
    (∃ r b, m.lookupBufMapIdx name = .ok (some r) ∧ m.dict[r]? = some ⟨name, .ref b⟩ ∧
      alive.lookup name = some b) ∨
    m.lookupBufMapIdx name = .ok none ∧ alive.lookup name = none := by
  obtain ⟨o, ho⟩ := lookupBufMapIdx_ok m hname
  cases hl : alive.lookup name with
  | none =>
    refine Or.inr ⟨?_, rfl⟩
    cases o with
    | none => exact ho
    | some r =>
      obtain ⟨e, he, hn⟩ := (lookupBufMapIdx_iff h.sorted hname).mp ho
      obtain ⟨x, hx, rfl⟩ := List.mem_map.mp (h.perm.mem_iff.mp (List.mem_of_getElem? he))
      have hsome := (lookup_some_iff h.nodup).mpr hx
      rw [show x.1 = name from hn, hl] at hsome
      cases hsome
  | some b =>
    have hmem := (lookup_some_iff h.nodup).mp hl
    have hdict := h.perm.mem_iff.mpr (List.mem_map_of_mem hmem)
    obtain ⟨r, hr⟩ := List.getElem?_of_mem hdict
    exact Or.inl ⟨r, b, (lookupBufMapIdx_iff h.sorted hname).mpr ⟨_, hr, rfl⟩, hr, rfl⟩

theorem BufferMngr.Holds.lookup (h : m.Holds alive) (hname : name.length < maxName) :
    m.lookup name = .ok (bufPtr (alive.lookup name)) := by
  rw [BufferMngr.lookup]
  rcases h.find hname with ⟨r, b, hidx, hr, hl⟩ | ⟨hidx, hl⟩
  · rw [hidx, hl]
    simp only [bufOk_bind, hr]
    rfl
  · rw [hidx, hl]
    rfl

theorem pairwise_lt_of_cmp {es : List BufMapEntry} (h : es.Pairwise fun e e' => bufMapCmp e e' ≤ 0)
    (hnd : (es.map BufMapEntry.name).Nodup) : es.Pairwise fun e e' => e.name < e'.name := by
  rw [List.nodup_iff_pairwise_ne, List.pairwise_map] at hnd
  refine (h.and hnd).imp fun hle => ?_
  obtain ⟨hcmp, hne⟩ := hle
  rw [bufMapCmp, ← sgn_isLE, sgn_strcmp, order_isLE] at hcmp
  exact lt_of_le_of_ne hcmp hne

variable {qsort : QSort}

theorem bufMapCmp_trans : Std.TransCmp fun a b => sgn (bufMapCmp a b) := by
  simp only [bufMapCmp, sgn_strcmp]
  exact order_trans BufMapEntry.name

theorem BufferMngr.Holds.insert (hq : Sorts qsort) (h : m.Holds alive)
    (hl : alive.lookup name = none) (b : BufObj) :
    BufferMngr.Holds ⟨qsort bufMapCmp (m.dict ++ [⟨name, .ref b⟩])⟩ ((name, b) :: alive) := by
  obtain ⟨hperm, hsort⟩ := hq bufMapCmp bufMapCmp_trans (m.dict ++ [⟨name, .ref b⟩])
  have hperm' : (qsort bufMapCmp (m.dict ++ [⟨name, .ref b⟩])).Perm
      (((name, b) :: alive).map aliveEntry) := by
    refine hperm.trans ?_
    exact (List.perm_append_singleton _ _).trans (h.perm.cons _)
  have hnew : name ∉ alive.map Prod.fst := by
    intro hmem
    obtain ⟨x, hx, rfl⟩ := List.mem_map.mp hmem
    have hsome := (lookup_some_iff h.nodup).mpr hx
    rw [hl] at hsome
    cases hsome
  refine ⟨pairwise_lt_of_cmp hsort ?_, hperm'⟩
  have hnames := hperm'.map BufMapEntry.name
  rw [List.map_map] at hnames
  exact hnames.nodup_iff.mpr (List.nodup_cons.mpr ⟨hnew, h.nodup⟩)

theorem eraseIdx_eq_filter {es : List BufMapEntry} (hs : es.Pairwise fun e e' => e.name < e'.name)
    {e : BufMapEntry} (hr : es[r]? = some e) :
    es.eraseIdx r = es.filter fun e' => e'.name ≠ e.name := by
  induction es generalizing r with
  | nil => cases hr
  | cons x es ih =>
    rw [List.pairwise_cons] at hs
    cases r with
    | zero =>
      cases hr
      rw [List.filter_cons_of_neg (by simp)]
      exact (List.filter_eq_self.mpr fun y hy => decide_eq_true (ne_of_gt (hs.1 y hy))).symm
    | succ r =>
      have hx : x.name ≠ e.name := ne_of_lt (hs.1 e (List.mem_of_getElem? hr))
      rw [List.eraseIdx_cons_succ, List.filter_cons, if_pos (decide_eq_true hx), ih hs.2 hr]

theorem BufferMngr.Holds.erase (h : m.Holds alive) (hr : m.dict[r]? = some ⟨name, .ref b⟩) :
    BufferMngr.Holds ⟨m.dict.eraseIdx r⟩ (alive.filter fun x => x.1 ≠ name) := by
  refine ⟨h.sorted.sublist (List.eraseIdx_sublist _ _), ?_⟩
  rw [eraseIdx_eq_filter h.sorted hr]
  have hperm := h.perm.filter fun e => e.name ≠ name
  rw [List.filter_map] at hperm
  exact hperm

inductive MngrOp where
  | create (name : Name) (type : BufType) (alloc : Option Nat)
  | kill (name : Name)
  deriving DecidableEq

def MngrOp.run (qsort : QSort) (m : BufferMngr) :
    MngrOp → Except BufFault (BufferMngr × Int × List LockOp)
  | .create name type alloc => m.create qsort name type alloc
  | .kill name => m.kill name

def runMngr (qsort : QSort) (m : BufferMngr) : List MngrOp → Except BufFault (BufferMngr × List Int)
  | [] => .ok (m, [])
  | op :: ops => do
    let (m, rc, _) ← op.run qsort m
    let (m, rcs) ← runMngr qsort m ops
    return (m, rc :: rcs)

/-- What becomes of the buffers that are alive, the newest first. -/
def MngrOp.step (alive : List (Name × BufObj)) : MngrOp → List (Name × BufObj) × Int
  | .create name type alloc =>
    match alive.lookup name with
    | some _ => (alive, -1)
    | none =>
      match alloc with
      | none => (alive, -1)
      | some addr => ((name, ⟨addr, type⟩) :: alive, 0)
  | .kill name =>
    match alive.lookup name with
    | none => (alive, -1)
    | some _ => (alive.filter fun x => x.1 ≠ name, 0)

def aliveAfter (alive : List (Name × BufObj)) : List MngrOp → List (Name × BufObj) × List Int
  | [] => (alive, [])
  | op :: ops => ((aliveAfter (op.step alive).1 ops).1,
      (op.step alive).2 :: (aliveAfter (op.step alive).1 ops).2)

/-- The name fits its array and the entry the dictionary, the type is known, and only for a shared
buffer may there be no memory. -/
def MngrOp.Fits (alive : List (Name × BufObj)) : MngrOp → Prop
  | .create name type alloc => name.length < maxName ∧ type ≠ .stdout ∧
      (alloc = none → type = .shared) ∧ (alive.lookup name = none → alive.length < maxBuf)
  | .kill name => name.length < maxName

def AllOpsFit (alive : List (Name × BufObj)) : List MngrOp → Prop
  | [] => True
  | op :: ops => op.Fits alive ∧ AllOpsFit (op.step alive).1 ops

theorem newBuffer_some (h : type ≠ .stdout) (addr : Nat) :
    newBuffer type (some addr) = .ok (some (.ref ⟨addr, type⟩)) := by
  cases type <;> first | rfl | exact absurd rfl h

theorem create_present {alloc : Option Nat} (hl : m.lookup name = .ok (.ref b)) :
    m.create qsort name type alloc = .ok (m, -1, []) := by
  rw [BufferMngr.create, hl]
  rfl

theorem create_noMemory (hl : m.lookup name = .ok .null) :
    m.create qsort name .shared none = .ok (m, -1, []) := by
  rw [BufferMngr.create, hl]
  rfl

theorem create_new {addr : Nat} (hl : m.lookup name = .ok .null) (ht : type ≠ .stdout)
    (hlen : m.dict.length < maxBuf) :
    m.create qsort name type (some addr) =
      .ok (⟨qsort bufMapCmp (m.dict ++ [⟨name, .ref ⟨addr, type⟩⟩])⟩, 0, [.lock, .unlock]) := by
  rw [BufferMngr.create, hl]
  simp only [bufOk_bind, newBuffer_some ht]
  rw [if_neg (by omega)]
  rfl

theorem MngrOp.call_holds (hq : Sorts qsort) (op : MngrOp) (h : m.Holds alive)
    (hf : op.Fits alive) :
    ∃ m' locks, op.run qsort m = .ok (m', (op.step alive).2, locks) ∧
      m'.Holds (op.step alive).1 ∧ ((op.step alive).2 = -1 → m' = m) := by
  cases op with
  | create name type alloc =>
    obtain ⟨hname, ht, halloc, hroom⟩ := hf
    have hlookup := h.lookup hname
    cases hl : alive.lookup name with
    | some b =>
      have hstep : (MngrOp.create name type alloc).step alive = (alive, -1) := by
        simp [MngrOp.step, hl]
      rw [hl] at hlookup
      rw [hstep]
      exact ⟨m, [], create_present hlookup, h, fun _ => rfl⟩
    | none =>
      rw [hl] at hlookup
      cases alloc with
      | none =>
        have hstep : (MngrOp.create name type none).step alive = (alive, -1) := by
          simp [MngrOp.step, hl]
        rw [hstep, halloc rfl]
        exact ⟨m, [], create_noMemory hlookup, h, fun _ => rfl⟩
      | some addr =>
        have hstep : (MngrOp.create name type (some addr)).step alive =
            ((name, ⟨addr, type⟩) :: alive, 0) := by
          simp [MngrOp.step, hl]
        have hlen : m.dict.length < maxBuf := by
          rw [h.perm.length_eq, List.length_map]
          exact hroom hl
        rw [hstep]
        exact ⟨_, _, create_new hlookup ht hlen, h.insert hq hl _, fun he => by cases he⟩
  | kill name =>
    rw [MngrOp.step, MngrOp.run, BufferMngr.kill]
    rcases h.find hf with ⟨r, b, hidx, hr, hl⟩ | ⟨hidx, hl⟩
    · rw [hidx, hl]
      simp only [bufOk_bind, hr]
      exact ⟨_, _, rfl, h.erase hr, fun he => by cases he⟩
    · rw [hidx, hl]
      exact ⟨m, [.lock], rfl, h, fun _ => rfl⟩

theorem runMngr_holds (hq : Sorts qsort) {ops : List MngrOp} (h : m.Holds alive)
    (hf : AllOpsFit alive ops) :
    ∃ m', runMngr qsort m ops = .ok (m', (aliveAfter alive ops).2) ∧
      m'.Holds (aliveAfter alive ops).1 := by
  induction ops generalizing m alive with
  | nil => exact ⟨m, rfl, h⟩
  | cons op ops ih =>
    obtain ⟨m₁, locks, hop, hm₁, -⟩ := op.call_holds hq h hf.1
    obtain ⟨m', hrun, hm'⟩ := ih hm₁ hf.2
    refine ⟨m', ?_, hm'⟩
    rw [runMngr, hop]
    simp only [bufOk_bind, hrun]
    rfl

theorem step_create_failed {alloc : Option Nat} :
    ((MngrOp.create name type alloc).step alive).2 = -1 ↔
      (alive.lookup name).isSome ∨ alloc = none := by
  simp only [MngrOp.step]
  cases alive.lookup name with
  | some b => simp
  | none => cases alloc <;> simp

/-- After any operations the dictionary is sorted without duplicates and finds what is alive; a
create of a name that is present and a kill of one that is absent fail. -/
theorem bufferMngr_dict (hq : Sorts qsort) (ops : List MngrOp) (hf : AllOpsFit [] ops) :
    ∃ m rcs, runMngr qsort newBufferMngr ops = .ok (m, rcs) ∧ rcs = (aliveAfter [] ops).2 ∧
      m.dict.Pairwise (fun e e' => e.name < e'.name) ∧
      (∀ name, name.length < maxName →
        m.lookup name = .ok (bufPtr ((aliveAfter [] ops).1.lookup name))) ∧
      (∀ name type alloc, MngrOp.Fits (aliveAfter [] ops).1 (.create name type alloc) →
        ∃ m' rc locks, m.create qsort name type alloc = .ok (m', rc, locks) ∧
          (rc = -1 ↔ m.lookup name ≠ .ok .null ∨ alloc = none) ∧ (rc = -1 → m' = m)) ∧
      ∀ name, name.length < maxName → ∃ m' rc locks, m.kill name = .ok (m', rc, locks) ∧
        (rc = -1 ↔ m.lookup name = .ok .null) ∧
        m'.dict = m.dict.filter fun e => e.name ≠ name := by
  obtain ⟨m, hrun, hm⟩ := runMngr_holds hq newBufferMngr_holds hf
  refine ⟨m, _, hrun, rfl, hm.sorted, fun name hname => hm.lookup hname, ?_, ?_⟩
  · intro name type alloc hfits
    obtain ⟨m', locks, hcreate, -, hsame⟩ := MngrOp.call_holds hq _ hm hfits
    refine ⟨m', _, locks, hcreate, ?_, hsame⟩
    rw [step_create_failed, hm.lookup hfits.1]
    cases (aliveAfter [] ops).1.lookup name <;> simp [bufPtr]
  · intro name hname
    rw [BufferMngr.kill, hm.lookup hname]
    rcases hm.find hname with ⟨r, b, hidx, hr, hl⟩ | ⟨hidx, hl⟩
    · rw [hidx, hl]
      simp only [bufOk_bind, hr]
      exact ⟨_, 0, _, rfl, by simp [bufPtr], eraseIdx_eq_filter hm.sorted hr⟩
    · rw [hidx, hl]
      refine ⟨m, -1, [.lock], rfl, by simp [bufPtr], (List.filter_eq_self.mpr ?_).symm⟩
      intro e he
      obtain ⟨r, hr⟩ := List.getElem?_of_mem he
      refine decide_eq_true fun hn => ?_
      have hsome := (lookupBufMapIdx_iff hm.sorted hname).mpr ⟨e, hr, hn⟩
      rw [hidx] at hsome
      cases hsome

def librarySort : QSort := fun f es => es.mergeSort fun a b => f a b ≤ 0

theorem bufferMngr_dict_two : ∃ m, runMngr librarySort newBufferMngr
    [.create ['b'] .notShared (some 1), .create ['a'] .shared (some 2), .kill ['b']] =
      .ok (m, [0, 0, 0]) ∧ m.lookup ['a'] = .ok (.ref ⟨2, .shared⟩) ∧
      m.lookup ['b'] = .ok .null := by
  obtain ⟨m, rcs, hrun, hrcs, -, hlookup, -⟩ := bufferMngr_dict sorts_mergeSort
    [.create ['b'] .notShared (some 1), .create ['a'] .shared (some 2), .kill ['b']]
    ⟨⟨by decide, by decide, by decide, by decide⟩, ⟨by decide, by decide, by decide, by decide⟩,
      (by decide : ['b'].length < maxName), trivial⟩
  subst hrcs
  exact ⟨m, hrun, hlookup ['a'] (by decide), hlookup ['b'] (by decide)⟩

/-- Without shared memory a create fails for a name that is absent. -/
theorem create_fails_absent : newBufferMngr.lookup ['a'] = .ok .null ∧
    newBufferMngr.create librarySort ['a'] .shared none = .ok (newBufferMngr, -1, []) :=
  ⟨rfl, rfl⟩

end StreamMill.Buf
