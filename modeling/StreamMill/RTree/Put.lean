import StreamMill.RTree.Search

/-!
# StreamMill.RTree.Put

`rtree_put`. With `DB_NODUPDATA` and `DB_NOOVERWRITE` it first searches for the rectangle, but that
case of the `switch` runs on into the default one: where the rectangle is free the put fails instead
of inserting (`putsRight_iff`).
-/

namespace StreamMill.RTree

open Lib

/-- An R-tree with the tuples of its record file, which are numbered from 1 on. -/
structure Db (δ : Type) where
  tree : State
  records : List δ

inductive PutFlags where
  /-- `0` -/
  | normal
  /-- `DB_NODUPDATA` -/
  | nodupdata
  /-- `DB_NOOVERWRITE` -/
  | nooverwrite
  | other
  deriving DecidableEq

inductive PutRc where
  /-- `0` -/
  | ok
  /-- `DB_KEYEXIST` -/
  | keyexist
  /-- `-1` -/
  | failed
  deriving DecidableEq

section

variable {δ : Type}

/-- The record number and the file after it. Berkeley DB appends. -/
def tuplePut (records : List δ) (tuple : δ) : Nat × List δ :=
  (records.length + 1, records ++ [tuple])

def insertRtree (db : Db δ) (mbr : Rect) (tuple : δ) : Except Err (Db δ) := do
  let (tplno, records) := tuplePut db.records tuple
  let tree ← insertRtreeAux db.tree mbr tplno
  return { tree, records }

/-- `fuel` bounds the depth of the search. -/
def rtreePut (db : Db δ) (mbr : Rect) (tuple : δ) (flags : PutFlags) (fuel : Nat) :
    Option (Except Err (PutRc × Db δ)) :=
  match flags with
  | .normal => some ((insertRtree db mbr tuple).map fun db => (.ok, db))
  | .nodupdata | .nooverwrite =>
    match rtreeGetOne db.tree mbr fuel 1 with
    | none => none
    | some (.error e) => some (.error e)
    | some (.ok out) =>
      if out.tpl ≠ uintMax then some (.ok (.keyexist, db))
      -- no `break`
      else some (.ok (.failed, db))
  | .other => some (.ok (.failed, db))

/-- The entries of the tree refer to records, and `UINT_MAX` is the number of none. -/
structure Db.Holds (db : Db δ) (items : Multiset Item) : Prop where
  tree : WellFormed db.tree items
  numbers : ∀ it ∈ items, it.ptr ≤ db.records.length
  room : db.records.length < uintMax

def Taken (items : Multiset Item) (mbr : Rect) : Prop :=
  ∃ it ∈ items, it.rect = mbr ∧ it.del = false

variable {db : Db δ} {items : Multiset Item} {mbr : Rect}

theorem Db.Holds.ptr_ne (h : db.Holds items) {it : Item} (hit : it ∈ items) : it.ptr ≠ uintMax :=
  Nat.ne_of_lt (Nat.lt_of_le_of_lt (h.numbers it hit) h.room)

theorem initRtree_holds (s : State) : Db.Holds ({ tree := initRtree s, records := [] } : Db δ) 0 :=
  ⟨initRtree_wellFormed s, fun it hit => absurd hit (Multiset.notMem_zero it),
    (by decide : 0 < uintMax)⟩

/-- What a put with these flags is for: a free rectangle gets the tuple, of a taken one the caller is
told, and nothing changes. -/
def PutsRight (db : Db δ) (items : Multiset Item) (flags : PutFlags) (mbr : Rect) (tuple : δ) :
    Prop :=
  (¬Taken items mbr → ∃ db', Returns (rtreePut db mbr tuple flags) (.ok (.ok, db')) ∧
    WellFormed db'.tree (newItem (mbr, db.records.length + 1) ::ₘ items) ∧
    db'.records = db.records ++ [tuple]) ∧
  (Taken items mbr → Returns (rtreePut db mbr tuple flags) (.ok (.keyexist, db)))

theorem Db.Holds.getOne (h : db.Holds items) (mbr : Rect) :
    ∃ out : GetOne, Returns (fun fuel => rtreeGetOne db.tree mbr fuel 1) (.ok out) ∧
      (out.tpl ≠ uintMax ↔ Taken items mbr) := by
  obtain ⟨⟨-, hfb, -⟩, rfl⟩ | ⟨ht, t, hs, rfl⟩ := h.tree
  · refine ⟨⟨0, uintMax, uintMax⟩, ⟨1, fun fuel hfuel => ?_⟩, by simp [Taken]⟩
    obtain ⟨fuel, rfl⟩ : ∃ k, fuel = k + 1 := ⟨fuel - 1, by omega⟩
    simp [rtreeGetOne, if_pos hfb]
  · obtain ⟨out, hright, hget⟩ := hs.getOne mbr
    refine ⟨out, hget, ?_⟩
    obtain ⟨-, -, htpl, hall⟩ | ⟨-, it, hit, hr, hdel, htpl⟩ := hright
    · refine iff_of_false (fun hne => hne htpl) ?_
      rintro ⟨it, hit, hr, hdel⟩
      rw [hall it hit hr] at hdel
      cases hdel
    · exact iff_of_true (htpl ▸ h.ptr_ne hit) ⟨it, hit, hr, hdel⟩

theorem rtreePut_checked (h : db.Holds items) {flags : PutFlags}
    (hflags : flags = .nodupdata ∨ flags = .nooverwrite) (mbr : Rect) (tuple : δ) :
    ∃ rc, Returns (rtreePut db mbr tuple flags) (.ok (rc, db)) ∧
      (Taken items mbr → rc = .keyexist) ∧ (¬Taken items mbr → rc = .failed) := by
  obtain ⟨out, ⟨enough, hget⟩, htaken⟩ := h.getOne mbr
  have hput : ∀ fuel, enough ≤ fuel → rtreePut db mbr tuple flags fuel =
      some (.ok (if out.tpl ≠ uintMax then .keyexist else .failed, db)) := by
    intro fuel hfuel
    have hout : rtreeGetOne db.tree mbr fuel 1 = some (.ok out) := hget fuel hfuel
    have hsame : rtreePut db mbr tuple flags fuel = rtreePut db mbr tuple .nodupdata fuel := by
      obtain rfl | rfl := hflags <;> rfl
    rw [hsame]
    simp only [rtreePut, hout]
    split <;> rfl
  refine ⟨_, ⟨enough, hput⟩, fun ht => if_pos (htaken.mpr ht), fun ht => if_neg fun hne => ?_⟩
  exact ht (htaken.mp hne)

/-- A put with `DB_NODUPDATA` or `DB_NOOVERWRITE` does what it is for exactly when the rectangle is
taken. -/
theorem putsRight_iff (h : db.Holds items) {flags : PutFlags}
    (hflags : flags = .nodupdata ∨ flags = .nooverwrite) (mbr : Rect) (tuple : δ) :
    PutsRight db items flags mbr tuple ↔ Taken items mbr := by
  obtain ⟨rc, hput, htaken, hfree⟩ := rtreePut_checked h hflags mbr tuple
  constructor
  · rintro ⟨hinsert, -⟩
    by_contra hno
    obtain ⟨db', hok, -⟩ := hinsert hno
    rw [hfree hno] at hput
    cases hput.unique hok
  · intro ht
    rw [htaken ht] at hput
    exact ⟨fun hno => absurd ht hno, fun _ => hput⟩

def firstRecord : Node :=
  { nodetype := .leaf, counter := 1, nextlptr := 0, prevlptr := 0
    items := fun _ => ⟨⟨0, 0, 0, 0⟩, 1, false⟩ }

theorem putsRight_iff_firstRecord :
    PutsRight ⟨leafRoot firstRecord, ["a"]⟩ firstRecord.entries .nooverwrite ⟨0, 0, 0, 0⟩ "b" ↔
      Taken (firstRecord.entries : Multiset Item) ⟨0, 0, 0, 0⟩ := by
  have hentries : firstRecord.entries = [⟨⟨0, 0, 0, 0⟩, 1, false⟩] := rfl
  refine putsRight_iff ⟨leafRoot_wellFormed rfl (by decide) rfl rfl, ?_, by decide⟩ (.inr rfl) _ _
  simp [hentries]

/-- Nothing is inserted into an empty tree. -/
theorem emptyTree_not_putsRight :
    ¬∀ (db : Db String) (items : Multiset Item) (mbr : Rect) (tuple : String), db.Holds items →
      PutsRight db items .nooverwrite mbr tuple := by
  intro hall
  obtain ⟨hinsert, -⟩ := hall ⟨initRtree startState, []⟩ 0 ⟨0, 0, 0, 0⟩ "a" (initRtree_holds _)
  obtain ⟨db', ⟨enough, hput⟩, -⟩ := hinsert (by simp [Taken])
  have hfail := hput (enough + 1) (Nat.le_succ _)
  cases hfail

end

end StreamMill.RTree
