import StreamMill.ImDb.Hash
import StreamMill.Lib.Loop
import Mathlib.Data.List.Nodup
import Mathlib.Data.Nat.ModEq
import Mathlib.Tactic.Linarith

/-!
# StreamMill.ImDb.HashTable

The invariant of the hash table, whatever the sizes of its keys. `Holding mem c m`: the table `c`
represents the map `m` from the bytes of a key to its address and value. Every stored key is reached
from its home slot without crossing an unused one, and at least one slot is free. A probe compares
as many bytes as the key it looks for has, so it must meet no stored key that it takes for its own
(`Clear`).
-/

namespace StreamMill.ImDb

variable {ρ ν : Type} {mem : ρ → Nat → Byte} {n : Nat} {c : HashControl ρ ν}

def HashKey.isLive : HashKey ρ → Bool
  | .key _ => true
  | _ => false

def home (sizelog : Nat) (k : List Byte) : Nat := (hashCode sizelog k).toNat % 2 ^ sizelog

def liveSlots (c : HashControl ρ ν) : List Nat :=
  (List.range c.statSize).filter fun j => (c.hashWhere j).hashKey.isLive

/-- No slot that a probe from `i` passes in its first `d` steps is unused. -/
def Passable (c : HashControl ρ ν) (i d : Nat) : Prop :=
  ∀ d' < d, (c.hashWhere ((i + d') % c.statSize)).hashKey ≠ .null

theorem statSize_pos (c : HashControl ρ ν) : 0 < c.statSize := Nat.two_pow_pos _

variable {i d slot : Nat} {e : HashEntry ρ ν} {key : ρ}

theorem exists_offset {size j : Nat} (hj : j < size) : ∃ d < size, (i + d) % size = j := by
  refine ⟨(j + (size - i % size)) % size, Nat.mod_lt _ (by omega), ?_⟩
  have hi : i % size < size := Nat.mod_lt _ (by omega)
  rw [Nat.add_mod, Nat.mod_mod, ← Nat.add_mod]
  have : i + (j + (size - i % size)) = j + size * (i / size + 1) := by
    have := Nat.div_add_mod i size
    rw [Nat.mul_add]
    omega
  rw [this, Nat.add_mul_mod_self_left, Nat.mod_eq_of_lt hj]

theorem offset_inj {size d' : Nat} (hd : d < size) (hd' : d' < size)
    (h : (i + d) % size = (i + d') % size) : d = d' := by
  have : d ≡ d' [MOD size] := Nat.ModEq.add_left_cancel' i h
  rwa [Nat.ModEq, Nat.mod_eq_of_lt hd, Nat.mod_eq_of_lt hd'] at this

theorem probe_succ (size i d : Nat) : ((i + 1) % size + d) % size = (i + (d + 1)) % size := by
  rw [Nat.mod_add_mod]
  congr 1
  omega

theorem Passable.succ (h : Passable c i (d + 1)) :
    Passable c ((i + 1) % c.statSize) d := by
  intro d' hd'
  rw [probe_succ]
  exact h (d' + 1) (by omega)

section Ask

variable {hit : HashEntry ρ ν → ρ → Bool}

theorem hashAskLoop_found {d fuel slot : Nat} {p : ρ} (ought : Option Nat)
    (hslot : slot < c.statSize) (hd : d < fuel)
    (hkey : (c.hashWhere ((slot + d) % c.statSize)).hashKey = .key p)
    (hhit : hit (c.hashWhere ((slot + d) % c.statSize)) p = true) (hpass : Passable c slot d)
    (hmiss : ∀ d' < d, ∀ s, (c.hashWhere ((slot + d') % c.statSize)).hashKey = .key s →
      hit (c.hashWhere ((slot + d') % c.statSize)) s = false) :
    hashAskLoop c hit fuel slot ought = (some ((slot + d) % c.statSize), true) := by
  induction d generalizing fuel slot ought with
  | zero =>
    obtain ⟨fuel, rfl⟩ : ∃ f, fuel = f + 1 := ⟨fuel - 1, by omega⟩
    have hslot0 : (slot + 0) % c.statSize = slot := Nat.mod_eq_of_lt hslot
    rw [hslot0] at hkey hhit ⊢
    simp [hashAskLoop, hkey, hhit]
  | succ d ih =>
    obtain ⟨fuel, rfl⟩ : ∃ f, fuel = f + 1 := ⟨fuel - 1, by omega⟩
    have h0 := hpass 0 (Nat.succ_pos d)
    have hm0 := hmiss 0 (Nat.succ_pos d)
    rw [Nat.add_zero, Nat.mod_eq_of_lt hslot] at h0 hm0
    rw [← probe_succ] at hkey hhit ⊢
    have hnext : ∀ o, hashAskLoop c hit fuel ((slot + 1) % c.statSize) o =
        (some (((slot + 1) % c.statSize + d) % c.statSize), true) := by
      intro o
      refine ih o (Nat.mod_lt _ (statSize_pos c)) (by omega) hkey hhit hpass.succ ?_
      intro d' hd' s hs
      rw [probe_succ] at hs ⊢
      exact hmiss (d' + 1) (by omega) s hs
    cases hk : (c.hashWhere slot).hashKey with
    | null => exact absurd hk h0
    | deleted => simp [hashAskLoop, hk, hnext]
    | key s => simp [hashAskLoop, hk, hm0 s hk, Bool.false_eq_true, hnext]

theorem hashAskLoop_absent (fuel : Nat) {slot : Nat} (hslot : slot < c.statSize)
    (hmiss : ∀ d < fuel, Passable c slot d → ∀ s,
      (c.hashWhere ((slot + d) % c.statSize)).hashKey = .key s →
      hit (c.hashWhere ((slot + d) % c.statSize)) s = false) (ought : Option Nat) :
    ∃ o, hashAskLoop c hit fuel slot ought = (ought.or o, false) ∧
      ((∃ d < fuel, o = some ((slot + d) % c.statSize) ∧
          (c.hashWhere ((slot + d) % c.statSize)).hashKey.isLive = false ∧ Passable c slot d) ∨
        (o = none ∧ ∀ d < fuel, (c.hashWhere ((slot + d) % c.statSize)).hashKey.isLive = true)) := by
  induction fuel generalizing slot ought with
  | zero => exact ⟨none, by simp [hashAskLoop], .inr ⟨rfl, fun d hd => absurd hd (by omega)⟩⟩
  | succ fuel ih =>
    have hslot0 : (slot + 0) % c.statSize = slot := by
      rw [Nat.add_zero, Nat.mod_eq_of_lt hslot]
    have hfree : (c.hashWhere slot).hashKey.isLive = false →
        ∃ d < fuel + 1, some slot = some ((slot + d) % c.statSize) ∧
          (c.hashWhere ((slot + d) % c.statSize)).hashKey.isLive = false ∧ Passable c slot d :=
      fun h => ⟨0, Nat.succ_pos fuel, by rw [hslot0], by rwa [hslot0],
        fun d' hd' => absurd hd' (by omega)⟩
    have hpass (hk : (c.hashWhere slot).hashKey ≠ .null) {d : Nat}
        (h : Passable c ((slot + 1) % c.statSize) d) : Passable c slot (d + 1) := by
      intro d' hd'
      cases d' with
      | zero => rwa [hslot0]
      | succ d' =>
        rw [← probe_succ]
        exact h d' (by omega)
    have hmiss' (hk : (c.hashWhere slot).hashKey ≠ .null) : ∀ d < fuel,
        Passable c ((slot + 1) % c.statSize) d → ∀ s,
        (c.hashWhere (((slot + 1) % c.statSize + d) % c.statSize)).hashKey = .key s →
        hit (c.hashWhere (((slot + 1) % c.statSize + d) % c.statSize)) s = false := by
      intro d hd hp s hs
      rw [probe_succ] at hs ⊢
      exact hmiss (d + 1) (by omega) (hpass hk hp) s hs
    cases hk : (c.hashWhere slot).hashKey with
    | null =>
      refine ⟨some slot, ?_, .inl (hfree (by rw [hk]; rfl))⟩
      simp [hashAskLoop, hk]
    | deleted =>
      obtain ⟨o, ho, -⟩ := ih (Nat.mod_lt (slot + 1) (statSize_pos c)) (hmiss' (by simp [hk]))
        (ought.or (some slot))
      refine ⟨some slot, ?_, .inl (hfree (by rw [hk]; rfl))⟩
      simp only [hashAskLoop, hk, ho]
      cases ought <;> rfl
    | key s =>
      have hne : (c.hashWhere slot).hashKey ≠ .null := by simp [hk]
      obtain ⟨o, ho, hor⟩ := ih (Nat.mod_lt (slot + 1) (statSize_pos c)) (hmiss' hne) ought
      have hs : hit (c.hashWhere slot) s = false := by
        have h0 := hmiss 0 (Nat.succ_pos fuel) (fun d' hd' => absurd hd' (by omega)) s
        rw [hslot0] at h0
        exact h0 hk
      refine ⟨o, ?_, ?_⟩
      · simp [hashAskLoop, hk, hs, ho]
      · rcases hor with ⟨d, hd, rfl, hlive, hp⟩ | ⟨rfl, hall⟩
        · left
          exact ⟨d + 1, by omega, by rw [probe_succ], by rwa [← probe_succ], hpass hne hp⟩
        · right
          refine ⟨rfl, fun d hd => ?_⟩
          cases d with
          | zero => rw [hslot0, hk]; rfl
          | succ d =>
            rw [← probe_succ]
            exact hall d (by omega)

end Ask

@[simp] theorem setSlot_self (c : HashControl ρ ν) (slot : Nat) (e : HashEntry ρ ν) :
    (c.setSlot slot e).hashWhere slot = e := Function.update_self _ _ _

theorem setSlot_ne {j : Nat} (e : HashEntry ρ ν) (hj : j ≠ slot) :
    (c.setSlot slot e).hashWhere j = c.hashWhere j := Function.update_of_ne hj _ _

theorem liveSlots_congr (he : e.hashKey.isLive = (c.hashWhere slot).hashKey.isLive) :
    liveSlots (c.setSlot slot e) = liveSlots c := by
  refine List.filter_congr fun j _ => ?_
  by_cases hj : j = slot
  · subst hj; rw [setSlot_self, he]
  · rw [setSlot_ne e hj]

theorem liveSlots_add (hslot : slot < c.statSize)
    (hfree : (c.hashWhere slot).hashKey.isLive = false) (he : e.hashKey.isLive = true) :
    (liveSlots (c.setSlot slot e)).length = (liveSlots c).length + 1 := by
  have hperm := Lib.filter_range_update (p := fun j => !(c.hashWhere j).hashKey.isLive) hslot
    (by rw [hfree]; rfl)
  have hlen := hperm.length_eq
  simp only [Bool.not_not, List.length_cons] at hlen
  refine Eq.trans (congrArg List.length (List.filter_congr fun j _ => ?_)) hlen
  by_cases hj : j = slot
  · subst hj; rw [setSlot_self, he, Function.update_self]; rfl
  · rw [setSlot_ne e hj, Function.update_of_ne hj, Bool.not_not]

theorem liveSlots_sub (hslot : slot < c.statSize) (hlive : (c.hashWhere slot).hashKey.isLive = true)
    (he : e.hashKey.isLive = false) :
    (liveSlots c).length = (liveSlots (c.setSlot slot e)).length + 1 := by
  have h := liveSlots_add (c := c.setSlot slot e) hslot
    (by rw [setSlot_self, he]) hlive
  rw [← h]
  have hback : (c.setSlot slot e).setSlot slot (c.hashWhere slot) = c := by
    simp [HashControl.setSlot]
  rw [hback]

theorem passable_setSlot (h : Passable c i d)
    (he : (c.hashWhere slot).hashKey ≠ .null → e.hashKey ≠ .null) :
    Passable (c.setSlot slot e) i d := by
  intro d' hd'
  have := h d' hd'
  show ((c.setSlot slot e).hashWhere ((i + d') % c.statSize)).hashKey ≠ _
  by_cases hj : (i + d') % c.statSize = slot
  · rw [hj, setSlot_self]
    exact he (hj ▸ this)
  · rwa [setSlot_ne e hj]

variable {m : List Byte → Option (ρ × ν)}

structure Holding (mem : ρ → Nat → Byte) (c : HashControl ρ ν)
    (m : List Byte → Option (ρ × ν)) : Prop where
  big : 2 ≤ c.hashSizelog
  full : c.hashFull = c.statSize / 2
  used : c.statUsed = (liveSlots c).length
  room : c.statUsed ≤ c.hashFull + 1
  slots : ∀ j < c.statSize, ∀ p, (c.hashWhere j).hashKey = .key p →
    m (bytes mem p (c.hashWhere j).keySize) = some (p, (c.hashWhere j).hashValue) ∧
      (c.hashWhere j).h = hashCode c.hashSizelog (bytes mem p (c.hashWhere j).keySize)
  reach : ∀ k p v, m k = some (p, v) → ∃ d < c.statSize,
    (c.hashWhere ((home c.hashSizelog k + d) % c.statSize)).hashKey = .key p ∧
      bytes mem p (c.hashWhere ((home c.hashSizelog k + d) % c.statSize)).keySize = k ∧
      Passable c (home c.hashSizelog k) d
  inj : ∀ j < c.statSize, ∀ j' < c.statSize, ∀ p p', (c.hashWhere j).hashKey = .key p →
    (c.hashWhere j').hashKey = .key p' →
    bytes mem p (c.hashWhere j).keySize = bytes mem p' (c.hashWhere j').keySize → j = j'

theorem Holding.four_le (h : Holding mem c m) : 4 ≤ c.statSize :=
  Nat.pow_le_pow_right (by decide : 0 < 2) h.big

theorem Holding.exists_free (h : Holding mem c m) :
    ∃ j < c.statSize, (c.hashWhere j).hashKey.isLive = false := by
  by_contra hall
  have hlive : ∀ j ∈ List.range c.statSize, (c.hashWhere j).hashKey.isLive = true := by
    intro j hj
    by_contra hf
    exact hall ⟨j, List.mem_range.mp hj, by simpa using hf⟩
  have hcount : (liveSlots c).length = c.statSize := by
    rw [liveSlots, List.filter_eq_self.mpr hlive, List.length_range]
  have h1 := h.used
  have h2 := h.room
  have h3 := h.full
  have h4 := h.four_le
  omega

theorem Holding.setSlot (h : Holding mem c m) {used : Nat} {m' : List Byte → Option (ρ × ν)}
    (hnull : (c.hashWhere slot).hashKey ≠ .null → e.hashKey ≠ .null)
    (hlive : ∀ p, e.hashKey = .key p → m' (bytes mem p e.keySize) = some (p, e.hashValue) ∧
      e.h = hashCode c.hashSizelog (bytes mem p e.keySize) ∧ ∃ d < c.statSize,
        slot = (home c.hashSizelog (bytes mem p e.keySize) + d) % c.statSize ∧
          Passable c (home c.hashSizelog (bytes mem p e.keySize)) d)
    (hother : ∀ j < c.statSize, j ≠ slot → ∀ p, (c.hashWhere j).hashKey = .key p →
      m' (bytes mem p (c.hashWhere j).keySize) = m (bytes mem p (c.hashWhere j).keySize) ∧
        ∀ q, e.hashKey = .key q → bytes mem q e.keySize ≠ bytes mem p (c.hashWhere j).keySize)
    (hback : ∀ k p v, m' k = some (p, v) → (e.hashKey = .key p ∧ bytes mem p e.keySize = k) ∨
      (m k = some (p, v) ∧ ∀ q, (c.hashWhere slot).hashKey = .key q →
        bytes mem q (c.hashWhere slot).keySize ≠ k))
    (hused : used = (liveSlots (c.setSlot slot e)).length) (hroom : used ≤ c.hashFull + 1) :
    Holding mem { c.setSlot slot e with statUsed := used } m' := by
  refine ⟨h.big, h.full, hused, hroom, ?_, ?_, ?_⟩
  · intro j hj p hp
    by_cases hjs : j = slot
    · subst hjs
      rw [setSlot_self] at hp ⊢
      obtain ⟨h1, h2, -⟩ := hlive p hp
      exact ⟨h1, h2⟩
    · rw [setSlot_ne e hjs] at hp ⊢
      rw [(hother j hj hjs p hp).1]
      exact h.slots j hj p hp
  · intro k p v hm
    rcases hback k p v hm with ⟨hp, rfl⟩ | ⟨hm', hne⟩
    · obtain ⟨-, -, d, hd, hslot, hpass⟩ := hlive p hp
      refine ⟨d, hd, ?_⟩
      show ((c.setSlot slot e).hashWhere ((home c.hashSizelog _ + d) % c.statSize)).hashKey = _ ∧
        bytes mem p ((c.setSlot slot e).hashWhere ((home c.hashSizelog _ + d) % c.statSize)).keySize
          = _ ∧ _
      rw [← hslot, setSlot_self]
      exact ⟨hp, rfl, passable_setSlot hpass hnull⟩
    · obtain ⟨d, hd, hp, hk, hpass⟩ := h.reach k p v hm'
      refine ⟨d, hd, ?_⟩
      show ((c.setSlot slot e).hashWhere ((home c.hashSizelog k + d) % c.statSize)).hashKey = _ ∧
        bytes mem p ((c.setSlot slot e).hashWhere ((home c.hashSizelog k + d) % c.statSize)).keySize
          = _ ∧ _
      have hne' : (home c.hashSizelog k + d) % c.statSize ≠ slot := by
        intro hs
        rw [hs] at hp hk
        exact hne p hp hk
      rw [setSlot_ne e hne']
      exact ⟨hp, hk, passable_setSlot hpass hnull⟩
  · intro j hj j' hj' p p' hp hp' hb
    by_cases hjs : j = slot
    · by_cases hjs' : j' = slot
      · rw [hjs, hjs']
      · rw [hjs, setSlot_self] at hp hb
        rw [setSlot_ne e hjs'] at hp' hb
        exact absurd hb ((hother j' hj' hjs' p' hp').2 p hp)
    · rw [setSlot_ne e hjs] at hp hb
      by_cases hjs' : j' = slot
      · rw [hjs', setSlot_self] at hp' hb
        exact absurd hb.symm ((hother j hj hjs p hp).2 p' hp')
      · rw [setSlot_ne e hjs'] at hp' hb
        exact h.inj j hj j' hj' p p' hp hp' hb

theorem Holding.setFree (h : Holding mem c m) (hfree : (c.hashWhere slot).hashKey.isLive = false)
    (he : e.hashKey = (c.hashWhere slot).hashKey) : Holding mem (c.setSlot slot e) m := by
  have hno : ∀ p, (c.hashWhere slot).hashKey ≠ .key p := by
    intro p hp
    rw [hp] at hfree
    cases hfree
  refine h.setSlot (by rw [he]; exact id) (fun p hp => absurd (he ▸ hp) (hno p)) ?_ ?_
    ?_ h.room
  · exact fun j _ _ p _ => ⟨rfl, fun q hq => absurd (he ▸ hq) (hno q)⟩
  · exact fun k p v hm => .inr ⟨hm, fun q hq => absurd hq (hno q)⟩
  · rw [liveSlots_congr (by rw [he])]
    exact h.used

def Ought (c : HashControl ρ ν) (k : List Byte) (slot : Nat) : Prop :=
  (c.hashWhere slot).hashKey.isLive = false ∧ ∃ d < c.statSize,
    slot = (home c.hashSizelog k + d) % c.statSize ∧ Passable c (home c.hashSizelog k) d

theorem Holding.putKey (h : Holding mem c m) {v : ν} (hm : m (bytes mem key n) = none)
    (hslot : slot < c.statSize) (hought : Ought c (bytes mem key n) slot)
    (hroom : c.statUsed ≤ c.hashFull) (hkey : e.hashKey = .key key) (hsize : e.keySize = n)
    (hval : e.hashValue = v) (hh : e.h = hashCode c.hashSizelog (bytes mem key n)) :
    Holding mem { c.setSlot slot e with statUsed := c.statUsed + 1 }
      (Function.update m (bytes mem key n) (some (key, v))) := by
  subst hsize
  obtain ⟨hfree, d, hd, hs, hpass⟩ := hought
  have hno : ∀ p, (c.hashWhere slot).hashKey ≠ .key p := by
    intro p hp
    rw [hp] at hfree
    cases hfree
  have hne : ∀ j < c.statSize, ∀ p, (c.hashWhere j).hashKey = .key p →
      bytes mem key e.keySize ≠ bytes mem p (c.hashWhere j).keySize := by
    intro j hj p hp he
    have := (h.slots j hj p hp).1
    rw [← he, hm] at this
    cases this
  refine h.setSlot (fun _ => by rw [hkey]; simp) ?_ ?_ ?_ ?_ (by omega)
  · intro p hp
    rw [hkey] at hp
    cases hp
    exact ⟨by rw [Function.update_self, hval], hh, d, hd, hs, hpass⟩
  · intro j hj _ p hp
    refine ⟨Function.update_of_ne (hne j hj p hp).symm _ _, fun q hq => ?_⟩
    rw [hkey] at hq
    cases hq
    exact hne j hj p hp
  · intro k p v' hm'
    by_cases hk : k = bytes mem key e.keySize
    · subst hk
      rw [Function.update_self] at hm'
      cases hm'
      exact .inl ⟨hkey, rfl⟩
    · rw [Function.update_of_ne hk] at hm'
      exact .inr ⟨hm', fun q hq => absurd hq (hno q)⟩
  · rw [liveSlots_add hslot hfree (by rw [hkey]; rfl), h.used]

theorem Holding.setKey (h : Holding mem c m) {p : ρ} {v : ν} (hslot : slot < c.statSize)
    (hp : (c.hashWhere slot).hashKey = .key p)
    (hb : bytes mem p (c.hashWhere slot).keySize = bytes mem key n) (hkey : e.hashKey = .key key)
    (hval : e.hashValue = v) (hsize : e.keySize = (c.hashWhere slot).keySize)
    (hh : e.h = (c.hashWhere slot).h) :
    Holding mem (c.setSlot slot e) (Function.update m (bytes mem key n) (some (key, v))) := by
  obtain ⟨hm, hh'⟩ := h.slots slot hslot p hp
  have hlen : e.keySize = n := by
    rw [hsize]
    simpa [bytes] using congrArg List.length hb
  have hreach := h.reach _ p _ hm
  have hne : ∀ j < c.statSize, j ≠ slot → ∀ q, (c.hashWhere j).hashKey = .key q →
      bytes mem key n ≠ bytes mem q (c.hashWhere j).keySize := by
    intro j hj hjs q hq he
    exact hjs (h.inj j hj slot hslot q p hq hp (he.symm.trans hb.symm))
  rw [hb] at hreach hh'
  refine h.setSlot (fun _ => by rw [hkey]; simp) ?_ ?_ ?_ ?_ h.room
  · intro q hq
    rw [hkey] at hq
    cases hq
    rw [hlen]
    obtain ⟨d, hd, hp', hb', hpass⟩ := hreach
    refine ⟨by rw [Function.update_self, hval], by rw [hh, hh'], d, hd, ?_, hpass⟩
    exact h.inj _ hslot _ (Nat.mod_lt _ (statSize_pos c)) p p hp hp' (hb.trans hb'.symm)
  · intro j hj hjs q hq
    refine ⟨Function.update_of_ne (hne j hj hjs q hq).symm _ _, fun q' hq' => ?_⟩
    rw [hkey] at hq'
    cases hq'
    rw [hlen]
    exact hne j hj hjs q hq
  · intro k q v' hm'
    by_cases hk : k = bytes mem key n
    · subst hk
      rw [Function.update_self] at hm'
      cases hm'
      exact .inl ⟨hkey, by rw [hlen]⟩
    · rw [Function.update_of_ne hk] at hm'
      refine .inr ⟨hm', fun q' hq' hkq => hk ?_⟩
      rw [hp] at hq'
      cases hq'
      rw [← hkq, hb]
  · rw [liveSlots_congr (by rw [hkey, hp]; rfl)]
    exact h.used

theorem Holding.deleteKey (h : Holding mem c m) {p : ρ} (hslot : slot < c.statSize)
    (hp : (c.hashWhere slot).hashKey = .key p)
    (hb : bytes mem p (c.hashWhere slot).keySize = bytes mem key n) (he : e.hashKey = .deleted) :
    Holding mem { c.setSlot slot e with statUsed := c.statUsed - 1 }
      (Function.update m (bytes mem key n) none) := by
  have hsub := liveSlots_sub hslot (by rw [hp]; rfl) (by rw [he]; rfl)
  have hused := h.used
  have hroom := h.room
  refine h.setSlot (fun _ => by rw [he]; simp) (fun q hq => ?_) ?_ ?_ (by omega) (by omega)
  · rw [he] at hq
    cases hq
  · intro j hj hjs q hq
    refine ⟨Function.update_of_ne (fun hk => ?_) _ _, fun q' hq' => ?_⟩
    · exact hjs (h.inj j hj slot hslot q p hq hp (hk.trans hb.symm))
    · rw [he] at hq'
      cases hq'
  · intro k q v' hm'
    by_cases hk : k = bytes mem key n
    · subst hk
      rw [Function.update_self] at hm'
      cases hm'
    · rw [Function.update_of_ne hk] at hm'
      refine .inr ⟨hm', fun q' hq' hkq => hk ?_⟩
      rw [hp] at hq'
      cases hq'
      rw [← hkq, hb]

theorem emptyTable_holding [Inhabited ν] (mem : ρ → Nat → Byte) {sizelog full : Nat}
    (hbig : 2 ≤ sizelog) (hfull : full = 2 ^ sizelog / 2) :
    Holding mem (emptyTable sizelog full : HashControl ρ ν) fun _ => none := by
  have hlive : liveSlots (emptyTable sizelog full : HashControl ρ ν) = [] := by
    rw [liveSlots]
    simp [emptyTable, HashKey.isLive]
  refine ⟨hbig, hfull, by rw [hlive]; rfl, Nat.zero_le _, ?_, ?_, ?_⟩
  · intro j _ p hp
    cases hp
  · intro k p v hm
    cases hm
  · intro j _ j' _ p p' hp
    cases hp

theorem Holding.congr_mem (h : Holding mem c m) {mem' : ρ → Nat → Byte}
    (heq : ∀ k p v, m k = some (p, v) → bytes mem' p k.length = bytes mem p k.length) :
    Holding mem' c m := by
  have hkey : ∀ j < c.statSize, ∀ p, (c.hashWhere j).hashKey = .key p →
      bytes mem' p (c.hashWhere j).keySize = bytes mem p (c.hashWhere j).keySize := by
    intro j hj p hp
    simpa [bytes] using heq _ p _ (h.slots j hj p hp).1
  refine ⟨h.big, h.full, h.used, h.room, fun j hj p hp => ?_, fun k p v hm => ?_, ?_⟩
  · rw [hkey j hj p hp]
    exact h.slots j hj p hp
  · obtain ⟨d, hd, hp, hk, hpass⟩ := h.reach k p v hm
    refine ⟨d, hd, hp, ?_, hpass⟩
    rw [hkey _ (Nat.mod_lt _ (statSize_pos c)) p hp, hk]
  · intro j hj j' hj' p p' hp hp' hb
    rw [hkey j hj p hp, hkey j' hj' p' hp'] at hb
    exact h.inj j hj j' hj' p p' hp hp' hb

/-- A probe for `k` passes `d` slots: none is unused, and none has `k`. -/
def Passes (mem : ρ → Nat → Byte) (c : HashControl ρ ν) (k : List Byte) (d : Nat) : Prop :=
  ∀ d' < d, (c.hashWhere ((home c.hashSizelog k + d') % c.statSize)).hashKey ≠ .null ∧
    ∀ s, (c.hashWhere ((home c.hashSizelog k + d') % c.statSize)).hashKey = .key s →
      bytes mem s (c.hashWhere ((home c.hashSizelog k + d') % c.statSize)).keySize ≠ k

def HashEntry.Apart (mem : ρ → Nat → Byte) (sizelog : Nat) (key : ρ) (n : Nat)
    (e : HashEntry ρ ν) (s : ρ) : Prop :=
  key ≠ s ∧ (e.h = hashCode sizelog (bytes mem key n) →
    n ≤ e.keySize ∧ bytes mem key n ≠ bytes mem s n)

def Clear (mem : ρ → Nat → Byte) (c : HashControl ρ ν) (key : ρ) (n : Nat) : Prop :=
  ∀ d < c.statSize, Passes mem c (bytes mem key n) d → ∀ s,
    (c.hashWhere ((home c.hashSizelog (bytes mem key n) + d) % c.statSize)).hashKey = .key s →
    bytes mem s (c.hashWhere
      ((home c.hashSizelog (bytes mem key n) + d) % c.statSize)).keySize ≠ bytes mem key n →
    (c.hashWhere ((home c.hashSizelog (bytes mem key n) + d) % c.statSize)).Apart mem
      c.hashSizelog key n s

section Operations

variable [DecidableEq ρ] {key : ρ}

omit [DecidableEq ρ] in
theorem bytes_length (mem : ρ → Nat → Byte) (p : ρ) (n : Nat) : (bytes mem p n).length = n := by
  simp [bytes]

theorem Holding.hit_own (h : Holding mem c m) {s : ρ} {j : Nat} (hj : j < c.statSize)
    (hs : (c.hashWhere j).hashKey = .key s)
    (hown : bytes mem s (c.hashWhere j).keySize = bytes mem key n) :
    hashHit mem (hashCode c.hashSizelog (bytes mem key n)) key n (c.hashWhere j) s = true := by
  have hlen : (c.hashWhere j).keySize = n := by
    simpa [bytes_length] using congrArg List.length hown
  have hh := (h.slots j hj s hs).2
  rw [hown] at hh
  rw [hlen] at hown
  simp [hashHit, hh, hown]

theorem HashEntry.Apart.miss {e : HashEntry ρ ν} {s : ρ} {sizelog : Nat}
    (h : e.Apart mem sizelog key n s) :
    hashHit mem (hashCode sizelog (bytes mem key n)) key n e s = false := by
  obtain ⟨hne, hcode⟩ := h
  by_cases hh : e.h = hashCode sizelog (bytes mem key n)
  · simp [hashHit, hne, (hcode hh).2]
  · simp [hashHit, hne, hh]

theorem Holding.ask_present (h : Holding mem c m) (hclear : Clear mem c key n) {p : ρ} {v : ν}
    (hm : m (bytes mem key n) = some (p, v)) :
    ∃ slot < c.statSize, hashAsk mem c key n = .ok (c, slot, true) ∧
      (c.hashWhere slot).hashKey = .key p ∧ (c.hashWhere slot).hashValue = v ∧
      bytes mem p (c.hashWhere slot).keySize = bytes mem key n := by
  obtain ⟨d, hd, hkey, hown, hpass⟩ := h.reach _ p v hm
  have hhome : home c.hashSizelog (bytes mem key n) < c.statSize := Nat.mod_lt _ (statSize_pos c)
  have hlt := Nat.mod_lt (home c.hashSizelog (bytes mem key n) + d) (statSize_pos c)
  have hval := (h.slots _ hlt p hkey).1
  rw [hown, hm] at hval
  refine ⟨_, hlt, ?_, hkey, (Prod.mk.inj (Option.some.inj hval)).2.symm, hown⟩
  have hne : ∀ d' < d, ∀ s,
      (c.hashWhere ((home c.hashSizelog (bytes mem key n) + d') % c.statSize)).hashKey = .key s →
      bytes mem s (c.hashWhere
        ((home c.hashSizelog (bytes mem key n) + d') % c.statSize)).keySize ≠ bytes mem key n := by
    intro d' hd' s hs hb
    have hlt' := Nat.mod_lt (home c.hashSizelog (bytes mem key n) + d') (statSize_pos c)
    have heq := h.inj _ hlt _ hlt' p s hkey hs (hown.trans hb.symm)
    exact absurd (offset_inj hd (hd'.trans hd) heq) (by omega)
  have hloop := hashAskLoop_found none hhome hd hkey (h.hit_own hlt hkey hown) hpass ?_
  · simp only [hashAsk]
    rw [show (hashCode c.hashSizelog (bytes mem key n)).toNat % c.statSize =
      home c.hashSizelog (bytes mem key n) from rfl, hloop]
  · -- the keys before it are other keys
    intro d' hd' s hs
    refine (hclear d' (hd'.trans hd) (fun d'' hd'' => ?_) s hs (hne d' hd' s hs)).miss
    exact ⟨hpass d'' (hd''.trans hd'), hne d'' (hd''.trans hd')⟩

theorem Holding.ask_absent (h : Holding mem c m) (hclear : Clear mem c key n)
    (hm : m (bytes mem key n) = none) :
    ∃ c' slot, hashAsk mem c key n = .ok (c', slot, false) ∧ Holding mem c' m ∧
      slot < c'.statSize ∧ Ought c' (bytes mem key n) slot ∧ c'.statUsed = c.statUsed ∧
      c'.hashFull = c.hashFull ∧ c'.hashSizelog = c.hashSizelog ∧
      (c'.hashWhere slot).h = hashCode c.hashSizelog (bytes mem key n) := by
  have hhome : home c.hashSizelog (bytes mem key n) < c.statSize := Nat.mod_lt _ (statSize_pos c)
  have hne : ∀ j < c.statSize, ∀ s, (c.hashWhere j).hashKey = .key s →
      bytes mem s (c.hashWhere j).keySize ≠ bytes mem key n := by
    intro j hj s hs hb
    have := (h.slots j hj s hs).1
    rw [hb, hm] at this
    cases this
  have hmiss : ∀ d < c.statSize, Passable c (home c.hashSizelog (bytes mem key n)) d → ∀ s,
      (c.hashWhere ((home c.hashSizelog (bytes mem key n) + d) % c.statSize)).hashKey = .key s →
      hashHit mem (hashCode c.hashSizelog (bytes mem key n)) key n
        (c.hashWhere ((home c.hashSizelog (bytes mem key n) + d) % c.statSize)) s = false := by
    intro d hd hpass s hs
    have hlt (d : Nat) := Nat.mod_lt (home c.hashSizelog (bytes mem key n) + d) (statSize_pos c)
    exact (hclear d hd (fun d' hd' => ⟨hpass d' hd', hne _ (hlt d')⟩) s hs (hne _ (hlt d) s hs)).miss
  obtain ⟨o, hloop, hor⟩ := hashAskLoop_absent c.statSize hhome hmiss none
  rcases hor with ⟨d, hd, rfl, hfree, hpass⟩ | ⟨-, hall⟩
  · let slot := (home c.hashSizelog (bytes mem key n) + d) % c.statSize
    let e := { c.hashWhere slot with h := hashCode c.hashSizelog (bytes mem key n) }
    have he : (c.hashWhere slot).hashKey ≠ .null → e.hashKey ≠ .null := id
    refine ⟨c.setSlot slot e, slot, ?_, h.setFree hfree rfl, Nat.mod_lt _ (statSize_pos c),
      ⟨?_, d, hd, rfl, passable_setSlot hpass he⟩, rfl, rfl, rfl, ?_⟩
    · simp only [hashAsk]
      rw [show (hashCode c.hashSizelog (bytes mem key n)).toNat % c.statSize =
        home c.hashSizelog (bytes mem key n) from rfl, hloop]
      rfl
    · simp only [HashControl.setSlot, Function.update_self]
      exact hfree
    · simp [HashControl.setSlot, e]
  · obtain ⟨j, hj, hfree⟩ := h.exists_free
    obtain ⟨d, hd, rfl⟩ := exists_offset (i := home c.hashSizelog (bytes mem key n)) hj
    rw [hall d hd] at hfree
    cases hfree

end Operations

end StreamMill.ImDb
