import StreamMill.ImDb.HashTable

/-!
# StreamMill.ImDb.HashOps

What the operations of the hash table do to the map that it holds, where their probes are clear.
Growth puts every key in again, so there the probes of these have to be clear as well
(`GrowClear`).
-/

namespace StreamMill.ImDb

variable {ρ ν : Type} {mem : ρ → Nat → Byte} {n : Nat} {c : HashControl ρ ν} {key : ρ}
  {m : List Byte → Option (ρ × ν)}

section

variable [DecidableEq ρ]

theorem Holding.find_ok (h : Holding mem c m) (hclear : Clear mem c key n) :
    ∃ c', hashFind mem c key n = .ok (c', (m (bytes mem key n)).map Prod.snd) ∧
      Holding mem c' m := by
  cases hm : m (bytes mem key n) with
  | none =>
    obtain ⟨c', slot, hask, hr, -⟩ := h.ask_absent hclear hm
    refine ⟨c', ?_, hr⟩
    rw [hashFind, hask]
    rfl
  | some pv =>
    obtain ⟨p, v⟩ := pv
    obtain ⟨slot, -, hask, -, hv, -⟩ := h.ask_present hclear hm
    refine ⟨c, ?_, h⟩
    rw [hashFind, hask, ← hv]
    rfl

variable {p : ρ} {v : ν} {j : Nat}

section

variable (h : Holding mem c m) (hclear : Clear mem c key n)
include h hclear

theorem Holding.replace_ok (value : ν) (hm : m (bytes mem key n) = some (p, v)) :
    ∃ c', hashReplace mem c key n value = .ok (c', some v) ∧
      Holding mem c' (Function.update m (bytes mem key n) (some (key, value))) := by
  obtain ⟨slot, hslot, hask, hp, hv, hb⟩ := h.ask_present hclear hm
  refine ⟨_, ?_, h.setKey (e := { c.hashWhere slot with hashValue := value, hashKey := .key key })
    hslot hp hb rfl rfl rfl rfl⟩
  rw [hashReplace, hask, ← hv]
  rfl

theorem Holding.replace_absent (value : ν) (hm : m (bytes mem key n) = none) :
    ∃ c', hashReplace mem c key n value = .ok (c', none) ∧ Holding mem c' m := by
  obtain ⟨c', slot, hask, hr, -⟩ := h.ask_absent hclear hm
  refine ⟨c', ?_, hr⟩
  rw [hashReplace, hask]
  rfl

theorem Holding.delete_ok :
    ∃ c', hashDelete mem c key n = .ok (c', (m (bytes mem key n)).map Prod.snd) ∧
      Holding mem c' (Function.update m (bytes mem key n) none) := by
  cases hm : m (bytes mem key n) with
  | none =>
    obtain ⟨c', slot, hask, hr, -⟩ := h.ask_absent hclear hm
    refine ⟨c', ?_, ?_⟩
    · rw [hashDelete, hask]
      rfl
    · rwa [← hm, Function.update_eq_self]
  | some pv =>
    obtain ⟨p, v⟩ := pv
    obtain ⟨slot, hslot, hask, hp, hv, hb⟩ := h.ask_present hclear hm
    refine ⟨_, ?_, h.deleteKey (e := { c.hashWhere slot with hashKey := .deleted }) hslot hp hb rfl⟩
    rw [hashDelete, hask, ← hv]
    rfl

theorem Holding.jamRoom_absent (value : ν) (hm : m (bytes mem key n) = none)
    (hroom : c.statUsed ≤ c.hashFull) :
    ∃ c', hashJamRoom mem c key n value = .ok c' ∧
      Holding mem c' (Function.update m (bytes mem key n) (some (key, value))) ∧
      c'.statUsed = c.statUsed + 1 ∧ c'.hashFull = c.hashFull := by
  obtain ⟨c', slot, hask, hr, hslot, hought, hu, hf, hl, hh⟩ := h.ask_absent hclear hm
  let e : HashEntry ρ ν :=
    { c'.hashWhere slot with hashKey := .key key, keySize := n, hashValue := value }
  refine ⟨{ c'.setSlot slot e with statUsed := c'.statUsed + 1 }, ?_,
    hr.putKey hm hslot hought (by omega) rfl rfl rfl (by rw [hl]; exact hh), by rw [← hu], hf⟩
  rw [hashJamRoom, hask]
  rfl

theorem Holding.jamRoom_present (value : ν) (hm : m (bytes mem key n) = some (p, v)) :
    ∃ c', hashJamRoom mem c key n value = .ok c' ∧
      Holding mem c' (Function.update m (bytes mem key n) (some (p, value))) := by
  obtain ⟨slot, hslot, hask, hp, -, hb⟩ := h.ask_present hclear hm
  have hlen : (c.hashWhere slot).keySize = n := by
    simpa [bytes_length] using congrArg List.length hb
  have hset := h.setKey (e := { c.hashWhere slot with hashValue := value })
    hslot hp (by rw [hlen]) hp rfl rfl rfl
  rw [← hlen, hb] at hset
  refine ⟨_, ?_, hset⟩
  rw [hashJamRoom, hask]
  rfl

end

/-- The table as it is before slot `j` of the old one is put in. -/
def growUpTo [Inhabited ν] (mem : ρ → Nat → Byte) (c : HashControl ρ ν) (j : Nat) :
    Except Fault (HashControl ρ ν) :=
  (List.range j).foldlM (hashGrowStep mem c) (emptyTable (c.hashSizelog + 1) (c.hashFull * 2))

def GrowClear [Inhabited ν] (mem : ρ → Nat → Byte) (c : HashControl ρ ν) : Prop :=
  ∀ j < c.statSize, ∀ p, (c.hashWhere j).hashKey = .key p → ∀ new, growUpTo mem c j = .ok new →
    Clear mem new p (c.hashWhere j).keySize

omit [DecidableEq ρ] in
theorem foldlM_range_succ {σ : Type} (f : σ → Nat → Except Fault σ) (s : σ) (j : Nat) :
    (List.range (j + 1)).foldlM f s = (List.range j).foldlM f s >>= fun t => f t j := by
  rw [List.range_succ, List.foldlM_append]
  congr 1
  funext t
  rw [List.foldlM_cons]
  cases f t j <;> rfl

/-- `new` has the first `j` slots of `c`. -/
structure PutAgain (mem : ρ → Nat → Byte) (c : HashControl ρ ν) (j : Nat) (new : HashControl ρ ν)
    (mj : List Byte → Option (ρ × ν)) : Prop where
  holds : Holding mem new mj
  used : new.statUsed = ((List.range j).filter fun i => (c.hashWhere i).hashKey.isLive).length
  full : new.hashFull = c.hashFull * 2
  map : ∀ k p v, mj k = some (p, v) ↔ ∃ i < j, (c.hashWhere i).hashKey = .key p ∧
    (c.hashWhere i).hashValue = v ∧ bytes mem p (c.hashWhere i).keySize = k

omit [DecidableEq ρ] in
theorem Holding.full_double (h : Holding mem c m) : c.hashFull * 2 = c.statSize := by
  obtain ⟨l, hl⟩ : ∃ l, c.hashSizelog = l + 1 := ⟨c.hashSizelog - 1, by have := h.big; omega⟩
  rw [h.full, HashControl.statSize, hl, Nat.pow_succ]
  omega

omit [DecidableEq ρ] in
theorem putAgain_zero [Inhabited ν] (h : Holding mem c m) :
    PutAgain mem c 0 (emptyTable (c.hashSizelog + 1) (c.hashFull * 2)) fun _ => none := by
  refine ⟨emptyTable_holding mem (by have := h.big; omega) ?_, rfl, rfl, fun k p v => ?_⟩
  · rw [h.full_double, HashControl.statSize, Nat.pow_succ]
    omega
  · constructor
    · intro hm
      cases hm
    · rintro ⟨i, hi, -⟩
      cases hi

omit [DecidableEq ρ] in
theorem PutAgain.skip {new : HashControl ρ ν} {mj : List Byte → Option (ρ × ν)}
    (h : PutAgain mem c j new mj) (hfree : (c.hashWhere j).hashKey.isLive = false) :
    PutAgain mem c (j + 1) new mj := by
  refine ⟨h.holds, ?_, h.full, fun k p v => ?_⟩
  · rw [h.used, List.range_succ, List.filter_append, List.length_append]
    simp [hfree]
  · rw [h.map]
    constructor
    · rintro ⟨i, hi, hr⟩
      exact ⟨i, Nat.lt_succ_of_lt hi, hr⟩
    · rintro ⟨i, hi, hp, hr⟩
      refine ⟨i, ?_, hp, hr⟩
      rcases Nat.lt_succ_iff_lt_or_eq.mp hi with hi | rfl
      · exact hi
      · rw [hp] at hfree
        cases hfree

theorem PutAgain.put (h : Holding mem c m) (hj : j < c.statSize)
    (hk : (c.hashWhere j).hashKey = .key p) {new : HashControl ρ ν}
    {mj : List Byte → Option (ρ × ν)} (hput : PutAgain mem c j new mj)
    (hclear : Clear mem new p (c.hashWhere j).keySize) :
    ∃ new', hashGrowStep mem c new j = .ok new' ∧ ∃ mj', PutAgain mem c (j + 1) new' mj' := by
  have hnone : mj (bytes mem p (c.hashWhere j).keySize) = none := by
    cases hm : mj (bytes mem p (c.hashWhere j).keySize) with
    | none => rfl
    | some pv =>
      obtain ⟨i, hi, hp, -, hb⟩ := (hput.map _ pv.1 pv.2).mp hm
      have := h.inj i (hi.trans hj) j hj _ p hp hk hb
      omega
  have hle : ((List.range j).filter fun i => (c.hashWhere i).hashKey.isLive).length ≤
      c.statUsed := by
    rw [h.used]
    exact ((List.range_sublist.mpr hj.le).filter _).length_le
  have hroom := h.room
  have hused := hput.used
  have hfull := hput.full
  have hdouble := h.full_double
  obtain ⟨new', hrun, hholds, hu, hf⟩ :=
    hput.holds.jamRoom_absent hclear (c.hashWhere j).hashValue hnone (by omega)
  refine ⟨new', ?_, _, hholds, ?_, hf.trans hfull, fun k q v => ?_⟩
  · rw [hashGrowStep]
    simp only [hk]
    rw [if_neg (by omega)]
    exact hrun
  · rw [hu, hused, List.range_succ]
    simp [hk, HashKey.isLive]
  · by_cases hkb : k = bytes mem p (c.hashWhere j).keySize
    · subst hkb
      rw [Function.update_self]
      constructor
      · rintro ⟨rfl, rfl⟩
        exact ⟨j, Nat.lt_succ_self j, hk, rfl, rfl⟩
      · rintro ⟨i, hi, hq, hv, hb⟩
        obtain rfl := h.inj i (by omega) j hj q p hq hk hb
        rw [hk] at hq
        cases hq
        rw [hv]
    · rw [Function.update_of_ne hkb, hput.map]
      constructor
      · rintro ⟨i, hi, hr⟩
        exact ⟨i, Nat.lt_succ_of_lt hi, hr⟩
      · rintro ⟨i, hi, hq, hv, hb⟩
        refine ⟨i, ?_, hq, hv, hb⟩
        rcases Nat.lt_succ_iff_lt_or_eq.mp hi with hi | rfl
        · exact hi
        · rw [hk] at hq
          cases hq
          exact absurd hb.symm hkb

theorem growUpTo_ok [Inhabited ν] (h : Holding mem c m) (hj : j ≤ c.statSize)
    (hclear : ∀ i < j, ∀ p, (c.hashWhere i).hashKey = .key p → ∀ new,
      growUpTo mem c i = .ok new → Clear mem new p (c.hashWhere i).keySize) :
    ∃ new mj, growUpTo mem c j = .ok new ∧ PutAgain mem c j new mj := by
  have hrun := Lib.foldlM_range_inv (hashGrowStep mem c)
    (fun i new => growUpTo mem c i = .ok new ∧ ∃ mj, PutAgain mem c i new mj) j
    ⟨rfl, _, putAgain_zero h⟩ ?_
  · obtain ⟨new, hnew, -, mj, hput⟩ := hrun
    exact ⟨new, mj, hnew, hput⟩
  rintro i new hi ⟨hnew, mj, hput⟩
  have hsucc (new' : HashControl ρ ν) (hstep : hashGrowStep mem c new i = .ok new') :
      growUpTo mem c (i + 1) = .ok new' := by
    rw [growUpTo, foldlM_range_succ]
    change growUpTo mem c i >>= _ = _
    rw [hnew]
    exact hstep
  cases hk : (c.hashWhere i).hashKey with
  | key p =>
    obtain ⟨new', hstep, hput'⟩ := PutAgain.put h (hi.trans_le hj) hk hput (hclear i hi p hk new hnew)
    exact ⟨new', hstep, hsucc new' hstep, hput'⟩
  | null =>
    have hstep : hashGrowStep mem c new i = .ok new := by
      rw [hashGrowStep]
      simp [hk]
    exact ⟨new, hstep, hsucc new hstep, mj, hput.skip (by rw [hk]; rfl)⟩
  | deleted =>
    have hstep : hashGrowStep mem c new i = .ok new := by
      rw [hashGrowStep]
      simp [hk]
    exact ⟨new, hstep, hsucc new hstep, mj, hput.skip (by rw [hk]; rfl)⟩

theorem Holding.grow_ok [Inhabited ν] (h : Holding mem c m) (hclear : GrowClear mem c) :
    ∃ c', hashGrow mem c = .ok c' ∧ Holding mem c' m ∧ c'.statUsed ≤ c'.hashFull := by
  obtain ⟨c', mj, hrun, hput⟩ := growUpTo_ok h le_rfl hclear
  have heq : mj = m := by
    funext k
    refine Option.ext fun pv => ?_
    obtain ⟨p, v⟩ := pv
    rw [hput.map]
    constructor
    · rintro ⟨i, hi, hp, rfl, rfl⟩
      exact (h.slots i hi p hp).1
    · intro hm
      obtain ⟨d, hd, hp, hk, -⟩ := h.reach k p v hm
      have hlt := Nat.mod_lt (home c.hashSizelog k + d) (statSize_pos c)
      have hv := (h.slots _ hlt p hp).1
      rw [hk, hm] at hv
      exact ⟨_, hlt, hp, (Prod.mk.inj (Option.some.inj hv)).2.symm, hk⟩
  refine ⟨c', hrun, heq ▸ hput.holds, ?_⟩
  rw [hput.used, hput.full, ← liveSlots, ← h.used]
  have hroom := h.room
  have hbig := h.four_le
  have hdouble := h.full_double
  omega

def FullClear [Inhabited ν] (mem : ρ → Nat → Byte) (c : HashControl ρ ν) : Prop :=
  c.statUsed > c.hashFull → GrowClear mem c

theorem Holding.growIfFull_ok [Inhabited ν] (h : Holding mem c m) (hclear : FullClear mem c) :
    ∃ c', hashGrowIfFull mem c = .ok c' ∧ Holding mem c' m ∧ c'.statUsed ≤ c'.hashFull := by
  unfold hashGrowIfFull
  split
  · next hfull => exact h.grow_ok (hclear hfull)
  · next hroom => exact ⟨c, rfl, h, by omega⟩

def InsertClear [Inhabited ν] (mem : ρ → Nat → Byte) (c : HashControl ρ ν) (key : ρ) (n : Nat) :
    Prop :=
  FullClear mem c ∧ ∀ c', hashGrowIfFull mem c = .ok c' → Clear mem c' key n

section

variable [Inhabited ν] (h : Holding mem c m) (hclear : InsertClear mem c key n) (value : ν)
include h hclear value

theorem Holding.insert_ok (hm : m (bytes mem key n) = none) :
    ∃ c', hashInsert mem c key n value = .ok (c', true) ∧
      Holding mem c' (Function.update m (bytes mem key n) (some (key, value))) := by
  obtain ⟨c₁, hgrow, h₁, hroom⟩ := h.growIfFull_ok hclear.1
  obtain ⟨c₂, slot, hask, h₂, hslot, hought, hu, hf, hl, hh⟩ :=
    h₁.ask_absent (hclear.2 c₁ hgrow) hm
  let e : HashEntry ρ ν :=
    { c₂.hashWhere slot with hashValue := value, hashKey := .key key, keySize := n }
  refine ⟨{ c₂.setSlot slot e with statUsed := c₂.statUsed + 1 }, ?_,
    h₂.putKey hm hslot hought (by omega) rfl rfl rfl (by rw [hl]; exact hh)⟩
  rw [hashInsert, hgrow, ok_bind, hask]
  rfl

theorem Holding.insert_present (hm : m (bytes mem key n) = some (p, v)) :
    ∃ c', hashInsert mem c key n value = .ok (c', false) ∧ Holding mem c' m := by
  obtain ⟨c₁, hgrow, h₁, -⟩ := h.growIfFull_ok hclear.1
  obtain ⟨slot, -, hask, -⟩ := h₁.ask_present (hclear.2 c₁ hgrow) hm
  refine ⟨c₁, ?_, h₁⟩
  rw [hashInsert, hgrow, ok_bind, hask]
  rfl

theorem Holding.jam_absent (hm : m (bytes mem key n) = none) :
    ∃ c', hashJam mem c key n value = .ok c' ∧
      Holding mem c' (Function.update m (bytes mem key n) (some (key, value))) := by
  obtain ⟨c₁, hgrow, h₁, hroom⟩ := h.growIfFull_ok hclear.1
  obtain ⟨c', hrun, h', -⟩ := h₁.jamRoom_absent (hclear.2 c₁ hgrow) value hm hroom
  refine ⟨c', ?_, h'⟩
  rw [hashJam, hgrow, ok_bind, hrun]

theorem Holding.jam_present (hm : m (bytes mem key n) = some (p, v)) :
    ∃ c', hashJam mem c key n value = .ok c' ∧
      Holding mem c' (Function.update m (bytes mem key n) (some (p, value))) := by
  obtain ⟨c₁, hgrow, h₁, -⟩ := h.growIfFull_ok hclear.1
  obtain ⟨c', hrun, h'⟩ := h₁.jamRoom_present (hclear.2 c₁ hgrow) value hm
  refine ⟨c', ?_, h'⟩
  rw [hashJam, hgrow, ok_bind, hrun]

end

end

end StreamMill.ImDb
