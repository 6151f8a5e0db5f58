import StreamMill.ImDb.ScanDel

/-!
# StreamMill.Query.GbHash

The tables of the group-by statements (`adllib.cc`). `gbhashdb` is an open-addressed array of
`GBHASHSIZE` slots; a slot belongs to one statement `sid` and one run `rid` of it, and holds an
in-memory relation without an index and the cursor of an iteration. An index outside the array and
the use of a closed relation are faults. `size` is the size of the keys of a statement, `blank`
what memory holds before it is used.
-/

namespace StreamMill.Query
namespace GbHash

open ImDb (Byte Key Fault Addr Tuple imRelCreate imRelGet imRelPut imRelCursor imRelCursorGet)

def gbHashSize : Nat := 109

def slotEmpty : Int := -1
def slotDeleted : Int := -2

structure Pair where
  sid : Int
  rid : Int
  deriving DecidableEq

abbrev Word := BitVec 32

abbrev RelId := Nat

/-- `IM_RELC`, which knows its relation. -/
structure RelCursor where
  rel : RelId
  cursor : ImDb.Cursor

/-- `struct _gbhashdb` -/
structure Slot where
  db : Option RelId
  ac : Option RelCursor
  sid : Int
  rid : Int

/-- `gbhashdb` and the relations that are open. -/
structure GbTable where
  slot : Nat → Slot
  rels : RelId → Option (Σ n, ImDb.Rel n Word)
  relCount : Nat

inductive GbFault where
  | outOfBounds
  | nullPtr
  | useAfterFree
  /-- Not a fault of the source: the keys of a relation have another size. -/
  | keySize
  | rel (f : Fault)

@[simp] theorem ok_bind {α β : Type} (a : α) (f : α → Except GbFault β) :
    (Except.ok a >>= f) = f a := rfl

def hashgbInit : GbTable where
  slot := fun _ => { db := none, ac := none, sid := slotEmpty, rid := -1 }
  rels := fun _ => none
  relCount := 0

/-- `(sid*65599+rid) % GBHASHSIZE`, in `int` arithmetic: the sum wraps, and the remainder has its
sign. -/
def home (p : Pair) : Int := (Int.bmod (p.sid * 65599 + p.rid) (2 ^ 32)).tmod gbHashSize

def GbTable.Owns (t : GbTable) (h : Nat) (p : Pair) : Prop :=
  (t.slot h).sid = p.sid ∧ (t.slot h).rid = p.rid

instance (t : GbTable) (h : Nat) (p : Pair) : Decidable (t.Owns h p) :=
  inferInstanceAs (Decidable (_ ∧ _))

def wrapIndex (h : Nat) : Nat := if h = gbHashSize then 0 else h

/-- The loop of `gethashhandle` from `h` on, and whether it has found the pair. Its `foundslot` is
never read. -/
def probe (t : GbTable) (p : Pair) (rh : Nat) : Nat → Nat → Bool × Nat
  | 0, h => (false, h)
  | fuel + 1, h =>
    if t.Owns h p then (true, h)
    else if (t.slot h).sid = slotEmpty then (false, h)
    else if wrapIndex (h + 1) = rh then (false, rh)
    else probe t p rh fuel (wrapIndex (h + 1))

section

variable (size : Int → Nat) (blank : ∀ n, Addr → Tuple n Word)

def GbTable.install (t : GbTable) (h : Nat) (p : Pair) : GbTable where
  slot := Function.update t.slot h
    { t.slot h with sid := p.sid, rid := p.rid, db := some t.relCount }
  rels := Function.update t.rels t.relCount
    (some ⟨size p.sid, imRelCreate (blank (size p.sid)) false false⟩)
  relCount := t.relCount + 1

/-- The test for `GBHASHSIZE` after the loop never holds. -/
def gethashhandle (p : Pair) (t : GbTable) : Except GbFault (Nat × GbTable) :=
  if home p < 0 then .error .outOfBounds
  else
    match probe t p (home p).toNat gbHashSize (home p).toNat with
    | (true, h) => .ok (h, t)
    | (false, h) => .ok (h, t.install size blank h p)

def GbTable.rel (t : GbTable) (n : Nat) : Option RelId → Except GbFault (RelId × ImDb.Rel n Word)
  | none => .error .nullPtr
  | some r =>
    match t.rels r with
    | none => .error .useAfterFree
    | some ⟨m, s⟩ => if h : m = n then .ok (r, h ▸ s) else .error .keySize

def GbTable.setRel (t : GbTable) (r : RelId) (n : Nat) (s : ImDb.Rel n Word) : GbTable :=
  { t with rels := Function.update t.rels r (some ⟨n, s⟩) }

def GbTable.setAc (t : GbTable) (h : Nat) (ac : Option RelCursor) : GbTable :=
  { t with slot := Function.update t.slot h { t.slot h with ac } }

def lift {α : Type} (x : Except Fault α) : Except GbFault α := x.mapError .rel

/-- `hash_get` with a key; `none` is `DB_NOTFOUND`. -/
def hashGet (p : Pair) (key : Key (size p.sid)) (t : GbTable) :
    Except GbFault (GbTable × Option Word) := do
  let (h, t) ← gethashhandle size blank p t
  let (r, s) ← t.rel (size p.sid) (t.slot h).db
  let (s, data) ← lift (imRelGet s key)
  return (t.setRel r _ s, data)

def hashPut (p : Pair) (key : Key (size p.sid)) (data : Word) (t : GbTable) :
    Except GbFault GbTable := do
  let (h, t) ← gethashhandle size blank p t
  let (r, s) ← t.rel (size p.sid) (t.slot h).db
  let s ← lift (imRelPut s key data .overwrite)
  return t.setRel r _ s

def GbTable.cursorOf (t : GbTable) (n h : Nat) : Except GbFault (RelCursor × ImDb.GetFlags) :=
  match (t.slot h).ac with
  | some c => .ok (c, .next)
  | none => do
    let (r, _) ← t.rel n (t.slot h).db
    return ({ rel := r, cursor := imRelCursor }, .first)

/-- `hash_get` without a key: the next pair of the iteration, or `DB_NOTFOUND`, which ends it. -/
def hashGetNext (p : Pair) (t : GbTable) :
    Except GbFault (GbTable × Option (List Byte × Word)) := do
  let (h, t) ← gethashhandle size blank p t
  let (c, flag) ← t.cursorOf (size p.sid) h
  let (r, s) ← t.rel (size p.sid) (some c.rel)
  let (s, cursor, found) ← lift
    (imRelCursorGet s c.cursor ⟨List.replicate (size p.sid) 0, List.length_replicate⟩ 0 flag)
  let t := t.setRel r _ s
  match found with
  | some (k, d, _) => return (t.setAc h (some { c with cursor }), some (k.val, d))
  | none => return (t.setAc h none, none)

/-- `hashgb_delete`. It leaves the cursor of the slot. -/
def hashgbDelete (p : Pair) (t : GbTable) : Except GbFault GbTable := do
  let (h, t) ← gethashhandle size blank p t
  let (r, _) ← t.rel (size p.sid) (t.slot h).db
  return { t with
    slot := Function.update t.slot h { t.slot h with sid := slotDeleted, db := none }
    rels := Function.update t.rels r none }

end

variable {t : GbTable} {p : Pair}

/-- The slot that a probe from `rh` looks at after `j` steps. -/
def cell (rh j : Nat) : Nat := (rh + j) % gbHashSize

theorem gbHashSize_pos : 0 < gbHashSize := by decide

theorem cell_lt (rh j : Nat) : cell rh j < gbHashSize := Nat.mod_lt _ gbHashSize_pos

theorem cell_zero {rh : Nat} (h : rh < gbHashSize) : cell rh 0 = rh := Nat.mod_eq_of_lt h

theorem cell_full {rh : Nat} (h : rh < gbHashSize) : cell rh gbHashSize = rh := by
  rw [cell, Nat.add_mod_right, Nat.mod_eq_of_lt h]

theorem wrapIndex_cell (rh j : Nat) : wrapIndex (cell rh j + 1) = cell rh (j + 1) := by
  have hlt := cell_lt rh j
  have hsucc : cell rh (j + 1) = (cell rh j + 1) % gbHashSize := by
    rw [cell, cell, Nat.mod_add_mod, Nat.add_assoc]
  rw [hsucc, wrapIndex]
  split
  · next h => rw [h, Nat.mod_self]
  · exact (Nat.mod_eq_of_lt (by omega)).symm

theorem cell_inj {rh i j : Nat} (hi : i < gbHashSize) (hj : j < gbHashSize)
    (h : cell rh i = cell rh j) : i = j := ImDb.offset_inj hi hj h

theorem exists_cell (rh : Nat) {h : Nat} (hh : h < gbHashSize) :
    ∃ j < gbHashSize, cell rh j = h := ImDb.exists_offset hh

def Passed (t : GbTable) (p : Pair) (h : Nat) : Prop :=
  ¬t.Owns h p ∧ (t.slot h).sid ≠ slotEmpty

theorem fuel_succ {i : Nat} (hi : i < gbHashSize) :
    gbHashSize - i = (gbHashSize - (i + 1)) + 1 := by omega

theorem probe_passes {rh i : Nat} (hrh : rh < gbHashSize) (hi : i + 1 < gbHashSize)
    (hpass : Passed t p (cell rh i)) :
    probe t p rh (gbHashSize - i) (cell rh i) =
      probe t p rh (gbHashSize - (i + 1)) (cell rh (i + 1)) := by
  have hne : cell rh (i + 1) ≠ rh := by
    intro heq
    have hzero := cell_inj hi gbHashSize_pos (heq.trans (cell_zero hrh).symm)
    omega
  rw [fuel_succ (by omega), probe, if_neg hpass.1, if_neg hpass.2, wrapIndex_cell, if_neg hne]

theorem probe_stops {rh i j : Nat} (hrh : rh < gbHashSize) (hij : i ≤ j) (hj : j < gbHashSize)
    (hpass : ∀ k, i ≤ k → k < j → Passed t p (cell rh k)) (hstop : ¬Passed t p (cell rh j)) :
    probe t p rh (gbHashSize - i) (cell rh i) = (decide (t.Owns (cell rh j) p), cell rh j) := by
  obtain ⟨d, rfl⟩ := Nat.exists_eq_add_of_le hij
  clear hij
  induction d generalizing i with
  | zero =>
    rw [Nat.add_zero] at hstop hj ⊢
    rw [fuel_succ hj, probe]
    by_cases ho : t.Owns (cell rh i) p
    · simp [ho]
    · have he : (t.slot (cell rh i)).sid = slotEmpty := by
        by_contra he
        exact hstop ⟨ho, he⟩
      simp [ho, he]
  | succ d ih =>
    have hadd : i + (d + 1) = i + 1 + d := by omega
    rw [probe_passes hrh (by omega) (hpass i (Nat.le_refl i) (by omega)), hadd]
    rw [hadd] at hj hstop hpass
    exact ih hj (fun k hk => hpass k (by omega)) hstop

theorem probe_full {rh i : Nat} (hrh : rh < gbHashSize) (hi : i < gbHashSize)
    (hpass : ∀ k, i ≤ k → k < gbHashSize → Passed t p (cell rh k)) :
    probe t p rh (gbHashSize - i) (cell rh i) = (false, rh) := by
  obtain ⟨d, hd⟩ := Nat.exists_eq_add_of_lt hi
  induction d generalizing i with
  | zero =>
    obtain ⟨ho, he⟩ := hpass i (Nat.le_refl i) hi
    have hsucc : i + 1 = gbHashSize := by omega
    rw [fuel_succ hi, probe, if_neg ho, if_neg he, wrapIndex_cell, hsucc, if_pos (cell_full hrh)]
  | succ d ih =>
    rw [probe_passes hrh (by omega) (hpass i (Nat.le_refl i) hi)]
    exact ih (by omega) (fun k hk => hpass k (by omega)) (by omega)

def GbTable.pairAt (t : GbTable) (h : Nat) : Pair := ⟨(t.slot h).sid, (t.slot h).rid⟩

theorem owns_iff {h : Nat} : t.Owns h p ↔ t.pairAt h = p := by
  rw [GbTable.Owns, GbTable.pairAt, Pair.mk.injEq]

theorem home_toNat_lt (p : Pair) : (home p).toNat < gbHashSize := by
  have hlt : home p < gbHashSize := Int.tmod_lt_of_pos _ (by decide)
  have hpos : (0 : Int) < gbHashSize := by decide
  omega

/-- The `sid` is not one of the markers, and the home of the pair is in the array. -/
structure Named (p : Pair) : Prop where
  notEmpty : p.sid ≠ slotEmpty
  notDeleted : p.sid ≠ slotDeleted
  home : 0 ≤ home p

structure Seats (t : GbTable) (live : Pair → Prop) : Prop where
  used : ∀ h < gbHashSize, (t.pairAt h).sid ≠ slotEmpty → (t.pairAt h).sid ≠ slotDeleted →
    live (t.pairAt h)
  named : ∀ p, live p → Named p
  seated : ∀ p, live p → ∃ j < gbHashSize, t.pairAt (cell (home p).toNat j) = p ∧
    ∀ k < j, (t.pairAt (cell (home p).toNat k)).sid ≠ slotEmpty
  unique : ∀ p, live p → ∀ h < gbHashSize, ∀ h' < gbHashSize, t.pairAt h = p →
    t.pairAt h' = p → h = h'

def Fits (t : GbTable) (p : Pair) : Prop :=
  Named p ∧ ((∃ h < gbHashSize, t.Owns h p) ∨ (∃ h < gbHashSize, (t.slot h).sid = slotEmpty) ∨
    (t.slot (home p).toNat).sid = slotDeleted)

section

variable {t' : GbTable} {live : Pair → Prop} {h : Nat}

theorem Seats.congr (hs : Seats t live) (hpair : ∀ h, t'.pairAt h = t.pairAt h) :
    Seats t' live where
  used h hh := by
    rw [hpair]
    exact hs.used h hh
  named := hs.named
  seated p hp := by
    obtain ⟨j, hj, hown, hk⟩ := hs.seated p hp
    refine ⟨j, hj, (hpair _).trans hown, fun k hkj => ?_⟩
    rw [hpair]
    exact hk k hkj
  unique p hp h hh h' hh' ho ho' :=
    hs.unique p hp h hh h' hh' ((hpair h).symm.trans ho) ((hpair h').symm.trans ho')

theorem Seats.live_of_pairAt (hs : Seats t live) (hp : Named p) (hh : h < gbHashSize)
    (ho : t.pairAt h = p) : live p := by
  subst ho
  exact hs.used h hh hp.notEmpty hp.notDeleted

theorem probe_own (hs : Seats t live) (hp : live p) :
    ∃ h < gbHashSize, t.pairAt h = p ∧
      probe t p (home p).toNat gbHashSize (home p).toNat = (true, h) := by
  obtain ⟨j, hj, hown, hk⟩ := hs.seated p hp
  have hstop := probe_stops (home_toNat_lt p) (Nat.zero_le j) hj
    (fun k _ hkj => ⟨fun ho => ?_, hk k hkj⟩) fun hpass => hpass.1 (owns_iff.mpr hown)
  · rw [cell_zero (home_toNat_lt p), decide_eq_true (owns_iff.mpr hown)] at hstop
    exact ⟨_, cell_lt _ j, hown, hstop⟩
  · have heq := hs.unique p hp _ (cell_lt _ k) _ (cell_lt _ j) (owns_iff.mp ho) hown
    have := cell_inj (by omega) hj heq
    omega

/-- The pair has no slot, none is empty, and its home was deleted. -/
structure Reuses (t : GbTable) (p : Pair) : Prop where
  full : ∀ h < gbHashSize, Passed t p h
  deleted : (t.slot (home p).toNat).sid = slotDeleted

/-- The slot that a pair which has none gets, when the pair fits. -/
structure Seat (t : GbTable) (p : Pair) (h : Nat) : Prop where
  lt : h < gbHashSize
  free : (t.slot h).sid = slotEmpty ∨ h = (home p).toNat ∧ Reuses t p
  reached : ∃ j < gbHashSize, h = cell (home p).toNat j ∧
    ∀ k < j, (t.pairAt (cell (home p).toNat k)).sid ≠ slotEmpty

theorem probe_new (hs : Seats t live) (hfit : Fits t p) (hp : ¬live p) :
    ∃ h, Seat t p h ∧ probe t p (home p).toNat gbHashSize (home p).toNat = (false, h) := by
  obtain ⟨hnamed, hroom⟩ := hfit
  have hnone : ∀ h < gbHashSize, ¬t.Owns h p := fun h hh ho =>
    hp (hs.live_of_pairAt hnamed hh (owns_iff.mp ho))
  have hzero := cell_zero (home_toNat_lt p)
  by_cases hempty : ∃ j, j < gbHashSize ∧ (t.slot (cell (home p).toNat j)).sid = slotEmpty
  · obtain ⟨⟨hj, he⟩, hfirst⟩ := And.intro (Nat.find_spec hempty) fun k => Nat.find_min hempty
    have hk : ∀ k < Nat.find hempty, (t.slot (cell (home p).toNat k)).sid ≠ slotEmpty :=
      fun k hkj he' => hfirst k hkj ⟨by omega, he'⟩
    have hstop := probe_stops (home_toNat_lt p) (Nat.zero_le _) hj
      (fun k _ hkj => ⟨hnone _ (cell_lt _ k), hk k hkj⟩) fun hpass => hpass.2 he
    rw [hzero, decide_eq_false (hnone _ (cell_lt _ _))] at hstop
    exact ⟨_, ⟨cell_lt _ _, .inl he, _, hj, rfl, hk⟩, hstop⟩
  · have hpassed : ∀ h < gbHashSize, Passed t p h := by
      intro h hh
      obtain ⟨j, hj, rfl⟩ := exists_cell (home p).toNat hh
      exact ⟨hnone _ hh, fun he => hempty ⟨j, hj, he⟩⟩
    have hfull := probe_full (home_toNat_lt p) gbHashSize_pos
      fun k _ hk => hpassed _ (cell_lt _ k)
    rw [hzero] at hfull
    have hdel : (t.slot (home p).toNat).sid = slotDeleted := by
      rcases hroom with ⟨h, hh, ho⟩ | ⟨h, hh, he⟩ | hdel
      · exact absurd ho (hnone h hh)
      · exact absurd he (hpassed h hh).2
      · exact hdel
    exact ⟨_, ⟨home_toNat_lt p, .inr ⟨rfl, hpassed, hdel⟩, 0, gbHashSize_pos, hzero.symm,
      fun k hk => absurd hk (Nat.not_lt_zero k)⟩, hfull⟩

theorem Seat.not_named (hseat : Seat t p h) : ¬Named (t.pairAt h) := by
  intro hn
  rcases hseat.free with he | ⟨rfl, hreuse⟩
  · exact hn.notEmpty he
  · exact hn.notDeleted hreuse.deleted

theorem notEmpty_kept (hself : (t'.pairAt h).sid ≠ slotEmpty)
    (hother : ∀ h' ≠ h, t'.pairAt h' = t.pairAt h') {h' : Nat}
    (he : (t.pairAt h').sid ≠ slotEmpty) : (t'.pairAt h').sid ≠ slotEmpty := by
  by_cases heq : h' = h
  · rwa [heq]
  · rwa [hother h' heq]

theorem Seats.occupy (hs : Seats t live) (hp : ¬live p) (hnamed : Named p) (hseat : Seat t p h)
    (hself : t'.pairAt h = p) (hother : ∀ h' ≠ h, t'.pairAt h' = t.pairAt h') :
    Seats t' fun q => q = p ∨ live q := by
  have hmark := hseat.not_named
  have hfull : (t'.pairAt h).sid ≠ slotEmpty := hself ▸ hnamed.notEmpty
  have hold : ∀ q, live q → ∀ h', t'.pairAt h' = q → t.pairAt h' = q := by
    intro q hq h' ho
    have hne : h' ≠ h := fun heq => hp (by rwa [← hself, ← heq, ho])
    rwa [← hother h' hne]
  refine ⟨fun h' hh he hd => ?_, fun q hq => ?_, fun q hq => ?_, fun q hq h₁ hh₁ h₂ hh₂ ho₁ ho₂ => ?_⟩
  · by_cases heq : h' = h
    · exact .inl (by rw [heq, hself])
    · rw [hother h' heq] at he hd ⊢
      exact .inr (hs.used h' hh he hd)
  · exact hq.elim (fun heq => heq ▸ hnamed) (hs.named q)
  · by_cases hqp : q = p
    · subst hqp
      obtain ⟨j, hj, rfl, hk⟩ := hseat.reached
      exact ⟨j, hj, hself, fun k hkj => notEmpty_kept hfull hother (hk k hkj)⟩
    · have hlive := hq.resolve_left hqp
      obtain ⟨j, hj, hown, hk⟩ := hs.seated q hlive
      refine ⟨j, hj, ?_, fun k hkj => notEmpty_kept hfull hother (hk k hkj)⟩
      rw [hother, hown]
      exact fun heq => hmark (by rw [← heq, hown]; exact hs.named q hlive)
  · by_cases hqp : q = p
    · subst hqp
      have hone : ∀ h' < gbHashSize, t'.pairAt h' = q → h' = h := by
        intro h' hh' ho
        by_contra hne
        exact hp (hs.live_of_pairAt hnamed hh' ((hother h' hne).symm.trans ho))
      rw [hone h₁ hh₁ ho₁, hone h₂ hh₂ ho₂]
    · have hlive := hq.resolve_left hqp
      exact hs.unique q hlive h₁ hh₁ h₂ hh₂ (hold q hlive h₁ ho₁) (hold q hlive h₂ ho₂)

theorem Seats.vacate (hs : Seats t live) (hp : live p) (hh : h < gbHashSize)
    (ho : t.pairAt h = p) (hself : (t'.pairAt h).sid = slotDeleted)
    (hother : ∀ h' ≠ h, t'.pairAt h' = t.pairAt h') : Seats t' fun q => q ≠ p ∧ live q := by
  have hfull : (t'.pairAt h).sid ≠ slotEmpty := by
    rw [hself]
    decide
  have hold : ∀ q, live q → ∀ h', t'.pairAt h' = q → t.pairAt h' = q := by
    intro q hq h' ho'
    have hne : h' ≠ h := fun heq => (hs.named q hq).notDeleted (by rw [← ho', heq, hself])
    rwa [← hother h' hne]
  refine ⟨fun h' hh' he hd => ?_, fun q hq => hs.named q hq.2, fun q hq => ?_,
    fun q hq h₁ hh₁ h₂ hh₂ ho₁ ho₂ =>
      hs.unique q hq.2 h₁ hh₁ h₂ hh₂ (hold q hq.2 h₁ ho₁) (hold q hq.2 h₂ ho₂)⟩
  · have hne : h' ≠ h := fun heq => hd (heq ▸ hself)
    rw [hother h' hne] at he hd ⊢
    refine ⟨fun heq => hne (hs.unique p hp h' hh' h hh heq ho), hs.used h' hh' he hd⟩
  · obtain ⟨j, hj, hown, hk⟩ := hs.seated q hq.2
    refine ⟨j, hj, ?_, fun k hkj => notEmpty_kept hfull hother (hk k hkj)⟩
    rw [hother, hown]
    exact fun heq => hq.1 (by rw [← hown, heq, ho])

end

end GbHash
end StreamMill.Query
