import StreamMill.ImDb.HashOps

/-!
# StreamMill.ImDb.HashMap

The hash table is a finite map when its keys have one size. `Rep mem n c m`: the table `c`, whose
keys are the `n` bytes at the addresses it holds, represents the map `m` from key contents to
addresses and values. Keys of one size are told apart, so every probe is clear (`Rep.clear`,
`Rep.growClear`).
-/

namespace StreamMill.ImDb

variable {ρ ν : Type} {mem : ρ → Nat → Byte} {n : Nat} {c : HashControl ρ ν}

structure Rep (mem : ρ → Nat → Byte) (n : Nat) (c : HashControl ρ ν)
    (m : List Byte → Option (ρ × ν)) : Prop where
  big : 2 ≤ c.hashSizelog
  full : c.hashFull = c.statSize / 2
  used : c.statUsed = (liveSlots c).length
  room : c.statUsed ≤ c.hashFull + 1
  slots : ∀ j < c.statSize, ∀ p, (c.hashWhere j).hashKey = .key p →
    m (bytes mem p n) = some (p, (c.hashWhere j).hashValue) ∧ (c.hashWhere j).keySize = n ∧
      (c.hashWhere j).h = hashCode c.hashSizelog (bytes mem p n)
  reach : ∀ k p v, m k = some (p, v) → bytes mem p n = k ∧ ∃ d < c.statSize,
    (c.hashWhere ((home c.hashSizelog k + d) % c.statSize)).hashKey = .key p ∧
      Passable c (home c.hashSizelog k) d
  inj : ∀ j < c.statSize, ∀ j' < c.statSize, ∀ p p', (c.hashWhere j).hashKey = .key p →
    (c.hashWhere j').hashKey = .key p' → bytes mem p n = bytes mem p' n → j = j'

variable {m : List Byte → Option (ρ × ν)}

def Sized (n : Nat) (m : List Byte → Option (ρ × ν)) : Prop := ∀ k pv, m k = some pv → k.length = n

theorem Rep.sized (h : Rep mem n c m) : Sized n m := by
  intro k pv hm
  rw [← (h.reach k pv.1 pv.2 hm).1, bytes_length]

theorem Rep.holding (h : Rep mem n c m) : Holding mem c m := by
  refine ⟨h.big, h.full, h.used, h.room, fun j hj p hp => ?_, fun k p v hm => ?_, ?_⟩
  · obtain ⟨h1, h2, h3⟩ := h.slots j hj p hp
    rw [h2]
    exact ⟨h1, h3⟩
  · obtain ⟨hk, d, hd, hp, hpass⟩ := h.reach k p v hm
    refine ⟨d, hd, hp, ?_, hpass⟩
    rw [(h.slots _ (Nat.mod_lt _ (statSize_pos c)) p hp).2.1, hk]
  · intro j hj j' hj' p p' hp hp' hb
    rw [(h.slots j hj p hp).2.1, (h.slots j' hj' p' hp').2.1] at hb
    exact h.inj j hj j' hj' p p' hp hp' hb

theorem Holding.keySize_eq (h : Holding mem c m) (hsized : Sized n m) {j : Nat}
    (hj : j < c.statSize) {p : ρ} (hp : (c.hashWhere j).hashKey = .key p) :
    (c.hashWhere j).keySize = n := by
  simpa [bytes_length] using hsized _ _ (h.slots j hj p hp).1

theorem Holding.rep (h : Holding mem c m) (hsized : Sized n m) : Rep mem n c m := by
  have hsize := fun {j : Nat} (hj : j < c.statSize) {p : ρ}
    (hp : (c.hashWhere j).hashKey = .key p) => h.keySize_eq hsized hj hp
  refine ⟨h.big, h.full, h.used, h.room, fun j hj p hp => ?_, fun k p v hm => ?_, ?_⟩
  · have hslot := h.slots j hj p hp
    rw [hsize hj hp] at hslot
    exact ⟨hslot.1, hsize hj hp, hslot.2⟩
  · obtain ⟨d, hd, hp, hk, hpass⟩ := h.reach k p v hm
    rw [hsize (Nat.mod_lt _ (statSize_pos c)) hp] at hk
    exact ⟨hk, d, hd, hp, hpass⟩
  · intro j hj j' hj' p p' hp hp' hb
    refine h.inj j hj j' hj' p p' hp hp' ?_
    rwa [hsize hj hp, hsize hj' hp']

theorem Sized.update (hsized : Sized n m) {k : List Byte} (hk : k.length = n)
    (pv : Option (ρ × ν)) : Sized n (Function.update m k pv) := by
  intro k' pv' hm
  by_cases hkk : k' = k
  · rw [hkk, hk]
  · rw [Function.update_of_ne hkk] at hm
    exact hsized k' pv' hm

theorem Holding.clear (h : Holding mem c m) (hsized : Sized n m) (key : ρ) :
    Clear mem c key n := by
  intro d hd _ s hs hne
  have hsize := h.keySize_eq hsized (Nat.mod_lt _ (statSize_pos c)) hs
  rw [hsize] at hne
  refine ⟨fun hks => hne (by rw [hks]), fun _ => ⟨hsize.ge, Ne.symm hne⟩⟩

theorem Rep.clear (h : Rep mem n c m) (key : ρ) : Clear mem c key n := h.holding.clear h.sized key

theorem emptyTable_rep [Inhabited ν] (mem : ρ → Nat → Byte) (n : Nat) {sizelog full : Nat}
    (hbig : 2 ≤ sizelog) (hfull : full = 2 ^ sizelog / 2) :
    Rep mem n (emptyTable sizelog full : HashControl ρ ν) fun _ => none :=
  (emptyTable_holding mem hbig hfull).rep fun _ _ hm => by cases hm

theorem Rep.congr_mem (h : Rep mem n c m) {mem' : ρ → Nat → Byte}
    (heq : ∀ k p v, m k = some (p, v) → bytes mem' p n = bytes mem p n) : Rep mem' n c m := by
  refine (h.holding.congr_mem fun k p v hm => ?_).rep h.sized
  rw [h.sized k _ hm]
  exact heq k p v hm

section Operations

variable [DecidableEq ρ]

theorem Rep.growClear [Inhabited ν] (h : Rep mem n c m) : GrowClear mem c := by
  intro j
  induction j using Nat.strong_induction_on with
  | _ j ih =>
    intro hj p hp new hnew
    obtain ⟨new', mj, hrun, hput⟩ := growUpTo_ok h.holding hj.le
      fun i hi q hq => ih i hi (hi.trans hj) q hq
    rw [hrun] at hnew
    cases hnew
    rw [(h.slots j hj p hp).2.1]
    refine hput.holds.clear (fun k pv hm => ?_) p
    obtain ⟨i, hi, hq, -, rfl⟩ := (hput.map k pv.1 pv.2).mp hm
    rw [bytes_length, (h.slots i (hi.trans hj) _ hq).2.1]

section

variable (h : Rep mem n c m) (key : ρ)
include h key

theorem Rep.insertClear [Inhabited ν] : InsertClear mem c key n := by
  refine ⟨fun _ => h.growClear, fun c' hgrow => ?_⟩
  obtain ⟨c₁, hrun, h₁, -⟩ := h.holding.growIfFull_ok fun _ => h.growClear
  rw [hrun] at hgrow
  cases hgrow
  exact h₁.clear h.sized key

theorem hashFind_ok :
    ∃ c', hashFind mem c key n = .ok (c', (m (bytes mem key n)).map Prod.snd) ∧
      Rep mem n c' m := by
  obtain ⟨c', hrun, h'⟩ := h.holding.find_ok (h.clear key)
  exact ⟨c', hrun, h'.rep h.sized⟩

theorem hashReplace_ok {p : ρ} {v : ν} (value : ν) (hm : m (bytes mem key n) = some (p, v)) :
    ∃ c', hashReplace mem c key n value = .ok (c', some v) ∧
      Rep mem n c' (Function.update m (bytes mem key n) (some (key, value))) := by
  obtain ⟨c', hrun, h'⟩ := h.holding.replace_ok (h.clear key) value hm
  exact ⟨c', hrun, h'.rep (h.sized.update (bytes_length ..) _)⟩

theorem hashDelete_ok {p : ρ} {v : ν} (hm : m (bytes mem key n) = some (p, v)) :
    ∃ c', hashDelete mem c key n = .ok (c', some v) ∧
      Rep mem n c' (Function.update m (bytes mem key n) none) := by
  obtain ⟨c', hrun, h'⟩ := h.holding.delete_ok (h.clear key)
  rw [hm] at hrun
  exact ⟨c', hrun, h'.rep (h.sized.update (bytes_length ..) _)⟩

theorem hashInsert_ok [Inhabited ν] (value : ν) (hm : m (bytes mem key n) = none) :
    ∃ c', hashInsert mem c key n value = .ok (c', true) ∧
      Rep mem n c' (Function.update m (bytes mem key n) (some (key, value))) := by
  obtain ⟨c', hrun, h'⟩ := h.holding.insert_ok (h.insertClear key) value hm
  exact ⟨c', hrun, h'.rep (h.sized.update (bytes_length ..) _)⟩

end

end Operations

end StreamMill.ImDb
