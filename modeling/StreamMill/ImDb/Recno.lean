import StreamMill.ImDb.ScanDel

/-!
# StreamMill.ImDb.Recno

`im_rel_get` with `DB_SET_RECNO`, which is to return the n-th live tuple. The loop counts the live
tuples it passes, but returns the tuple it has come to as soon as `n - 1` are counted, deleted or
not (`getsRecno_iff`).
-/

namespace StreamMill.ImDb

open Lib

variable {n : Nat} {δ : Type} {s : Rel n δ} {l rest : List (Entry n δ)} {e : Entry n δ}
  {head : Addr} {recno : Nat}

/-- The loop from `cur` on, `i` being the number of the next live tuple. -/
def Rel.recnoLoop (s : Rel n δ) (recno : Nat) (head : Addr) :
    Nat → Nat → Addr → Except Fault (Option Addr)
  | 0, _, _ => .error .loop
  | fuel + 1, i, cur =>
    if i = recno then .ok (some cur)
    else
      match s.listNext head cur with
      | none => .ok none
      | some next => s.recnoLoop recno head fuel (if s.live cur then i + 1 else i) next

def imRelGetRecno (s : Rel n δ) (recno : Nat) : Except Fault (Option (Key n × δ × Addr)) :=
  match s.head with
  | none => .ok none
  | some head => do
    let cur ← s.recnoLoop recno head s.fuel 1 head
    return cur.map fun a => ((s.mem a).key, (s.mem a).data, a)

/-- The get returns the live tuple with the number, or `DB_NOTFOUND` if there is none. -/
def GetsRecno (s : Rel n δ) (l : List (Entry n δ)) (recno : Nat) : Prop :=
  imRelGetRecno s recno = .ok ((liveEntries l)[recno - 1]?.map Entry.found)

/-- No deleted tuple has `recno - 1` live ones before it. -/
def RecnoSafe (l : List (Entry n δ)) (recno : Nat) : Prop :=
  ∀ pre e post, l = pre ++ e :: post → (liveEntries pre).length + 1 = recno → e.deleted = false

/-- The first tuple that has `m` live ones before it. -/
def entryAt : List (Entry n δ) → Nat → Option (Entry n δ)
  | [], _ => none
  | e :: _, 0 => some e
  | e :: l, m + 1 => entryAt l (if e.deleted then m + 1 else m)

theorem Rel.Listed.recnoLoop_eq (h : s.Listed l) (hsub : e :: rest ⊆ l)
    (hpath : Path (s.listNext head) (some e.slot) (slots (e :: rest))) (m i : Nat) {fuel : Nat}
    (hfuel : (e :: rest).length ≤ fuel) :
    s.recnoLoop (i + m) head fuel i e.slot = .ok ((entryAt (e :: rest) m).map Entry.slot) := by
  induction rest generalizing e m i fuel with
  | nil =>
    obtain ⟨fuel, rfl⟩ : ∃ k, fuel = k + 1 := ⟨fuel - 1, by simp at hfuel; omega⟩
    have hnext : s.listNext head e.slot = none := hpath.2
    rw [recnoLoop, hnext]
    cases m with
    | zero => rw [if_pos (Nat.add_zero i).symm]; rfl
    | succ m => rw [if_neg (by omega)]; rfl
  | cons x rest ih =>
    obtain ⟨fuel, rfl⟩ : ∃ k, fuel = k + 1 := ⟨fuel - 1, by simp at hfuel; omega⟩
    obtain ⟨-, hrest⟩ := hpath
    have hnext : s.listNext head e.slot = some x.slot := hrest.head
    have hsub' : x :: rest ⊆ l := fun y hy => hsub (List.mem_cons_of_mem _ hy)
    have hlive := h.live_iff (hsub List.mem_cons_self)
    have hfuel' := Nat.le_of_succ_le_succ hfuel
    rw [hnext] at hrest
    rw [recnoLoop, hnext]
    cases m with
    | zero => rw [if_pos (Nat.add_zero i).symm]; rfl
    | succ m =>
      rw [if_neg (by omega), entryAt]
      rw [hlive]
      cases e.deleted with
      | true => exact ih hsub' hrest (m + 1) i hfuel'
      | false =>
        rw [show i + (m + 1) = i + 1 + m by omega]
        exact ih hsub' hrest m (i + 1) hfuel'

theorem entryAt_mem {m : Nat} (h : entryAt l m = some e) : e ∈ l := by
  induction l generalizing m with
  | nil => cases h
  | cons x l ih =>
    cases m with
    | zero =>
      cases h
      exact List.mem_cons_self
    | succ m => exact List.mem_cons_of_mem _ (ih h)

theorem imRelGetRecno_eq (h : s.Listed l) (m : Nat) :
    imRelGetRecno s (m + 1) = .ok ((entryAt l m).map Entry.found) := by
  cases l with
  | nil =>
    have hhead : s.head = none := h.head
    rw [imRelGetRecno, hhead]
    rfl
  | cons e l =>
    have hhead : s.head = some e.slot := h.head
    have hlen : (e :: l).length ≤ s.fuel := by
      rw [← List.length_map Entry.slot]
      exact h.length_le
    have hpath := h.path (slots_middle [] l e) hhead
    have hloop := h.recnoLoop_eq (fun _ hx => hx) hpath m 1 hlen
    rw [Nat.add_comm 1 m] at hloop
    rw [imRelGetRecno, hhead]
    dsimp only
    rw [hloop]
    cases hat : entryAt (e :: l) m with
    | none => rfl
    | some x =>
      have hs := h.stored x (entryAt_mem hat)
      simp only [Option.map_some, Entry.found, ← hs.1, ← hs.2.1]
      rfl

theorem recnoSafe_cons (e : Entry n δ) (l : List (Entry n δ)) (m : Nat) :
    RecnoSafe (e :: l) (m + 2) ↔ RecnoSafe l (if e.deleted then m + 2 else m + 1) := by
  have hcount (pre : List (Entry n δ)) : (liveEntries (e :: pre)).length + 1 = m + 2 ↔
      (liveEntries pre).length + 1 = if e.deleted then m + 2 else m + 1 := by
    cases he : e.deleted with
    | true => simp [liveEntries, he]
    | false => simp [liveEntries, he]
  constructor
  · intro h pre x post hl hpre
    exact h (e :: pre) x post (by rw [hl, List.cons_append]) ((hcount pre).mpr hpre)
  · intro h pre x post hl hpre
    cases pre with
    | nil => cases hpre
    | cons y pre =>
      obtain ⟨rfl, hrest⟩ := List.cons.inj hl
      exact h pre x post hrest ((hcount pre).mp hpre)

theorem entryAt_iff (l : List (Entry n δ)) (m : Nat) :
    entryAt l m = (liveEntries l)[m]? ↔ RecnoSafe l (m + 1) := by
  induction l generalizing m with
  | nil =>
    refine iff_of_true rfl fun pre e post hl => ?_
    simp at hl
  | cons e l ih =>
    cases m with
    | zero =>
      rw [entryAt]
      cases he : e.deleted with
      | false =>
        refine iff_of_true (by simp [liveEntries, he]) fun pre x post hl hpre => ?_
        cases pre with
        | nil =>
          cases hl
          exact he
        | cons y pre =>
          obtain ⟨rfl, -⟩ := List.cons.inj hl
          simp [liveEntries, he] at hpre
      | true =>
        refine iff_of_false (fun heq => ?_) fun hsafe => ?_
        · have hmem := List.mem_of_getElem? heq.symm
          simp [liveEntries, he] at hmem
        · have hlive := hsafe [] e l rfl rfl
          rw [he] at hlive
          cases hlive
    | succ m =>
      rw [entryAt, recnoSafe_cons]
      cases he : e.deleted with
      | true =>
        rw [liveEntries, List.filter_cons_of_neg (by simp [he])]
        exact ih (m + 1)
      | false =>
        rw [liveEntries, List.filter_cons_of_pos (by simp [he])]
        exact ih m

/-- `DB_SET_RECNO` does what it is for exactly when no deleted tuple has `recno - 1` live ones
before it. -/
theorem getsRecno_iff (h : s.Listed l) (hpos : 1 ≤ recno) :
    GetsRecno s l recno ↔ RecnoSafe l recno := by
  obtain ⟨m, rfl⟩ : ∃ m, recno = m + 1 := ⟨recno - 1, by omega⟩
  have hinj : ∀ x ∈ l, ∀ y ∈ l, x.found = y.found → x = y := by
    intro x hx y hy hxy
    exact List.inj_on_of_nodup_map h.nodup hx hy (congrArg (fun t => t.2.2) hxy)
  rw [GetsRecno, imRelGetRecno_eq h, ← entryAt_iff, Nat.add_sub_cancel]
  constructor
  · intro heq
    have heq := Except.ok.inj heq
    cases hat : entryAt l m with
    | none =>
      rw [hat] at heq
      exact (Option.map_eq_none_iff.mp heq.symm).symm
    | some x =>
      rw [hat] at heq
      obtain ⟨y, hy, hxy⟩ := Option.map_eq_some_iff.mp heq.symm
      have hmem : y ∈ l := List.mem_of_mem_filter (List.mem_of_getElem? hy)
      rw [hy, hinj y hmem x (entryAt_mem hat) hxy]
  · intro heq
    rw [heq]

theorem RecnoSafe.value (h : s.Listed l) (ho : s.oid = false) (recno : Nat) : RecnoSafe l recno :=
  fun pre e post hl _ => h.value ho e (by simp [hl])

/-- The only tuple of a value relation. -/
theorem getsRecno_iff_value : ∃ s, Run blankTuples false true s [⟨0, keySeven, 5, false⟩] ∧
    GetsRecno s.rel [⟨0, keySeven, 5, false⟩] 1 := by
  have run : Run blankTuples false true _ _ := .put keySeven 5 .append .create rfl
  obtain ⟨h, ho, -⟩ := run_kept run
  exact ⟨_, run, (getsRecno_iff h.toListed le_rfl).mpr (.value h.toListed ho 1)⟩

/-- The only tuple is deleted, and returned. -/
theorem tombstone_not_getsRecno : ∃ s, Run blankTuples true true s [⟨0, keySeven, 5, true⟩] ∧
    ¬GetsRecno s.rel [⟨0, keySeven, 5, true⟩] 1 := by
  obtain ⟨s, run⟩ := tombstoneRun
  obtain ⟨h, -⟩ := run_kept run
  refine ⟨s, run, fun hget => ?_⟩
  rw [GetsRecno, imRelGetRecno_eq h.toListed 0] at hget
  cases hget

end StreamMill.ImDb
