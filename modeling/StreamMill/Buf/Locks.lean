import StreamMill.Buf.BufferMngr
import StreamMill.Lib.Loop

/-!
# StreamMill.Buf.Locks

Who holds the lock of the shared memory after the calls that change buffers. A call without memory
for its node gives back a lock that it did not take; a `kill` that finds nothing keeps it.
-/

namespace StreamMill.Buf

open Lib
open Esl (Name)

/-- How often the lock is held after the calls; `none` if it is given back without being held. -/
def lockDepth : Nat → List LockOp → Option Nat
  | d, [] => some d
  | d, .lock :: ops => lockDepth (d + 1) ops
  | 0, .unlock :: _ => none
  | d + 1, .unlock :: ops => lockDepth d ops

/-- A call that leaves the lock as it was, and gives back only what it took. -/
def Balanced (ops : List LockOp) : Prop := lockDepth 0 ops = some 0

instance (ops : List LockOp) : Decidable (Balanced ops) := inferInstanceAs (Decidable (_ = _))

variable {s s' : SharedBuf} {m m' : BufferMngr} {rc : BufRc} {ret : Int} {locks : List LockOp}

theorem putNode_balanced_iff {node : Option ShmAddr} {init : Except BufFault SDbt}
    (h : s.putNode node init = .ok (s', rc, locks)) : Balanced locks ↔ node ≠ none := by
  cases node with
  | none =>
    cases h
    decide
  | some p =>
    obtain ⟨sdbt, -, h⟩ := bind_eq_ok h
    obtain ⟨s₁, -, h⟩ := bind_eq_ok h
    cases h
    simp [show Balanced [.lock, .unlock] from rfl]

theorem pop_balanced (h : s.pop = .ok (s', rc, locks)) : Balanced locks := by
  rw [SharedBuf.pop] at h
  split at h
  · cases h
    rfl
  · obtain ⟨x, -, h⟩ := bind_eq_ok h
    obtain ⟨u, -, h⟩ := bind_eq_ok h
    cases h
    rfl

theorem create_balanced {qsort : QSort} {name : Name} {type : BufType} {alloc : Option Nat}
    (h : m.create qsort name type alloc = .ok (m', ret, locks)) : Balanced locks := by
  obtain ⟨b, -, h⟩ := bind_eq_ok h
  cases b with
  | wild => cases h
  | ref b =>
    cases h
    rfl
  | null =>
    obtain ⟨o, -, h⟩ := bind_eq_ok h
    cases o with
    | none =>
      cases h
      rfl
    | some b =>
      dsimp only at h
      split at h
      · cases h
      · cases h
        rfl

/-- Whether the search of `kill` finds the name. -/
def BufferMngr.Found (m : BufferMngr) (name : Name) : Prop :=
  ∃ r, m.lookupBufMapIdx name = .ok (some r)

theorem kill_balanced_iff {name : Name} (h : m.kill name = .ok (m', ret, locks)) :
    Balanced locks ↔ m.Found name := by
  obtain ⟨o, ho, h⟩ := bind_eq_ok h
  rw [BufferMngr.Found, ho]
  cases o with
  | none =>
    cases h
    simp [show ¬Balanced [.lock] by decide]
  | some r =>
    dsimp only at h
    split at h
    · cases h
      simp [show Balanced [.lock, .unlock] from rfl]
    · cases h

theorem found_iff {name : Name} (hs : m.dict.Pairwise fun e e' => e.name < e'.name)
    (hname : name.length < maxName) : m.Found name ↔ name ∈ m.dict.map BufMapEntry.name := by
  rw [List.mem_map]
  constructor
  · rintro ⟨r, hr⟩
    obtain ⟨e, he, hn⟩ := (lookupBufMapIdx_iff hs hname).mp hr
    exact ⟨e, List.mem_of_getElem? he, hn⟩
  · rintro ⟨e, he, hn⟩
    obtain ⟨r, hr⟩ := List.getElem?_of_mem he
    exact ⟨r, (lookupBufMapIdx_iff hs hname).mpr ⟨e, hr, hn⟩⟩

/-- A put leaves the lock as it was if there was memory for its node, a kill if the name was found,
and pop and create always. -/
theorem locks_balanced_iff (qsort : QSort) :
    (∀ (s s' : SharedBuf) (malloc : Mallocs) (d : DBT) (atime : Option Timestamp)
      (k : Option DBT) (rc : BufRc) (locks : List LockOp),
      s.putDBT malloc d atime k = .ok (s', rc, locks) →
        (Balanced locks ↔ malloc.node ≠ none)) ∧
    (∀ (s s' : SharedBuf) (malloc : Mallocs) (d : Dbt) (rc : BufRc) (locks : List LockOp),
      s.put malloc d = .ok (s', rc, locks) → (Balanced locks ↔ malloc.node ≠ none)) ∧
    (∀ (s s' : SharedBuf) (rc : BufRc) (locks : List LockOp),
      s.pop = .ok (s', rc, locks) → Balanced locks) ∧
    (∀ (m m' : BufferMngr) (name : Name) (type : BufType) (alloc : Option Nat) (ret : Int)
      (locks : List LockOp), m.create qsort name type alloc = .ok (m', ret, locks) →
        Balanced locks) ∧
    ∀ (m m' : BufferMngr) (name : Name) (ret : Int) (locks : List LockOp),
      m.kill name = .ok (m', ret, locks) →
        (Balanced locks ↔ m.Found name) ∧
        (m.dict.Pairwise (fun e e' => e.name < e'.name) → name.length < maxName →
          (m.Found name ↔ name ∈ m.dict.map BufMapEntry.name)) :=
  ⟨fun _ _ _ _ _ _ _ _ h => putNode_balanced_iff h, fun _ _ _ _ _ _ h => putNode_balanced_iff h,
    fun _ _ _ _ h => pop_balanced h, fun _ _ _ _ _ _ _ h => create_balanced h,
    fun _ _ _ _ _ h => ⟨kill_balanced_iff h, fun hs hname => found_iff hs hname⟩⟩

/-- A put with memory. -/
theorem locks_balanced_iff_put : ∃ s' rc locks,
    newSharedBuf.put ⟨some 8, true, true, true, fun _ => 0⟩ ⟨0, 0, none, none, none⟩ =
      .ok (s', rc, locks) ∧ (Balanced locks ↔ some 8 ≠ none) :=
  ⟨_, _, _, rfl, (locks_balanced_iff fun _ es => es).2.1 newSharedBuf _
    ⟨some 8, true, true, true, fun _ => 0⟩ ⟨0, 0, none, none, none⟩ _ _ rfl⟩

/-- A put without memory, and a kill of a name that is absent. -/
theorem locks_not_balanced :
    (∃ locks, newSharedBuf.put ⟨none, true, true, true, fun _ => 0⟩ ⟨0, 0, none, none, none⟩ =
      .ok (newSharedBuf, .errBuffer, locks) ∧ ¬Balanced locks) ∧
    ∃ locks, newBufferMngr.kill ['a'] = .ok (newBufferMngr, -1, locks) ∧ ¬Balanced locks :=
  ⟨⟨[.unlock], rfl, by decide⟩, [.lock], rfl, by decide⟩

end StreamMill.Buf
