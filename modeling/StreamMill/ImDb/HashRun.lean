import StreamMill.ImDb.HashMap

/-!
# StreamMill.ImDb.HashRun

Runs of the hash table, with writes to memory that leave the stored keys alone. With keys of one
size the table is a finite map (`fixedRun_map`). With keys of any sizes it is one as long as every
probe is clear, and a probe compares whole keys exactly when it is (`clearRun_map`).
-/

namespace StreamMill.ImDb

variable {ρ ν : Type} {mem : ρ → Nat → Byte} {n : Nat} {c c' : HashControl ρ ν} {key : ρ}
  {m : List Byte → Option (ρ × ν)} {f : List Byte → Option ν}

inductive HashOp (ρ ν : Type) where
  | insert (key : ρ) (size : Nat) (value : ν)
  | replace (key : ρ) (size : Nat) (value : ν)
  | jam (key : ρ) (size : Nat) (value : ν)
  | delete (key : ρ) (size : Nat)
  | find (key : ρ) (size : Nat)

def HashOp.size : HashOp ρ ν → Nat
  | .insert _ n _ => n
  | .replace _ n _ => n
  | .jam _ n _ => n
  | .delete _ n => n
  | .find _ n => n

def mapStep (mem : ρ → Nat → Byte) (f : List Byte → Option ν) : HashOp ρ ν → List Byte → Option ν
  | .insert key n value =>
    if (f (bytes mem key n)).isSome then f else Function.update f (bytes mem key n) (some value)
  | .replace key n value =>
    if (f (bytes mem key n)).isSome then Function.update f (bytes mem key n) (some value) else f
  | .jam key n value => Function.update f (bytes mem key n) (some value)
  | .delete key n => Function.update f (bytes mem key n) none
  | .find _ _ => f

section

variable [DecidableEq ρ] [Inhabited ν]

def hashStep (mem : ρ → Nat → Byte) (c : HashControl ρ ν) :
    HashOp ρ ν → Except Fault (HashControl ρ ν)
  | .insert key n value => (hashInsert mem c key n value).map Prod.fst
  | .replace key n value => (hashReplace mem c key n value).map Prod.fst
  | .jam key n value => hashJam mem c key n value
  | .delete key n => (hashDelete mem c key n).map Prod.fst
  | .find key n => (hashFind mem c key n).map Prod.fst

/-- Runs from an empty table, of calls that meet `P`, with the map that the calls make. Memory may
change, but not where a key is stored. -/
inductive HashRun (P : (ρ → Nat → Byte) → HashControl ρ ν → HashOp ρ ν → Prop) :
    (ρ → Nat → Byte) → HashControl ρ ν → (List Byte → Option ν) → Prop where
  | new (mem : ρ → Nat → Byte) : HashRun P mem hashNew fun _ => none
  | call {mem : ρ → Nat → Byte} {c c' : HashControl ρ ν} {f : List Byte → Option ν}
      (op : HashOp ρ ν) (run : HashRun P mem c f) (hop : P mem c op)
      (hstep : hashStep mem c op = .ok c') : HashRun P mem c' (mapStep mem f op)
  | write {mem mem' : ρ → Nat → Byte} {c : HashControl ρ ν} {f : List Byte → Option ν}
      (run : HashRun P mem c f)
      (hkeys : ∀ j < c.statSize, ∀ p, (c.hashWhere j).hashKey = .key p →
        bytes mem' p (c.hashWhere j).keySize = bytes mem p (c.hashWhere j).keySize) :
      HashRun P mem' c f

def HashOp.Clear (mem : ρ → Nat → Byte) (c : HashControl ρ ν) : HashOp ρ ν → Prop
  | .insert key n _ => InsertClear mem c key n
  | .jam key n _ => InsertClear mem c key n
  | .replace key n _ => ImDb.Clear mem c key n
  | .delete key n => ImDb.Clear mem c key n
  | .find key n => ImDb.Clear mem c key n

/-- The table holds the map, each key at some address. -/
def Holds (mem : ρ → Nat → Byte) (c : HashControl ρ ν) (f : List Byte → Option ν) : Prop :=
  ∃ m, Holding mem c m ∧ ∀ k, f k = (m k).map Prod.snd

omit [DecidableEq ρ] [Inhabited ν] in
theorem map_update (hf : ∀ k, f k = (m k).map Prod.snd) (k : List Byte) (pv : Option (ρ × ν)) :
    ∀ k', Function.update f k (pv.map Prod.snd) k' = (Function.update m k pv k').map Prod.snd := by
  intro k'
  by_cases hk : k' = k
  · subst hk
    rw [Function.update_self, Function.update_self]
  · rw [Function.update_of_ne hk, Function.update_of_ne hk, hf]

theorem hashStep_holds (h : Holds mem c f) (op : HashOp ρ ν) (hclear : op.Clear mem c) :
    ∃ c', hashStep mem c op = .ok c' ∧ Holds mem c' (mapStep mem f op) := by
  obtain ⟨m, hm, hf⟩ := h
  cases op with
  | insert key n value =>
    rw [mapStep]
    cases hk : m (bytes mem key n) with
    | none =>
      obtain ⟨c', hrun, h'⟩ := hm.insert_ok hclear value hk
      refine ⟨c', by rw [hashStep, hrun]; rfl, _, h', ?_⟩
      rw [if_neg (by simp [hf, hk])]
      exact map_update hf _ (some (key, value))
    | some pv =>
      obtain ⟨c', hrun, h'⟩ := hm.insert_present hclear value hk
      refine ⟨c', by rw [hashStep, hrun]; rfl, m, h', ?_⟩
      rw [if_pos (by simp [hf, hk])]
      exact hf
  | replace key n value =>
    rw [mapStep]
    cases hk : m (bytes mem key n) with
    | none =>
      obtain ⟨c', hrun, h'⟩ := hm.replace_absent hclear value hk
      refine ⟨c', by rw [hashStep, hrun]; rfl, m, h', ?_⟩
      rw [if_neg (by simp [hf, hk])]
      exact hf
    | some pv =>
      obtain ⟨c', hrun, h'⟩ := hm.replace_ok hclear value hk
      refine ⟨c', by rw [hashStep, hrun]; rfl, _, h', ?_⟩
      rw [if_pos (by simp [hf, hk])]
      exact map_update hf _ (some (key, value))
  | jam key n value =>
    cases hk : m (bytes mem key n) with
    | none =>
      obtain ⟨c', hrun, h'⟩ := hm.jam_absent hclear value hk
      exact ⟨c', hrun, _, h', map_update hf _ (some (key, value))⟩
    | some pv =>
      obtain ⟨c', hrun, h'⟩ := hm.jam_present hclear value hk
      exact ⟨c', hrun, _, h', map_update hf _ (some (pv.1, value))⟩
  | delete key n =>
    obtain ⟨c', hrun, h'⟩ := hm.delete_ok hclear
    exact ⟨c', by rw [hashStep, hrun]; rfl, _, h', map_update hf _ none⟩
  | find key n =>
    obtain ⟨c', hrun, h'⟩ := hm.find_ok hclear
    exact ⟨c', by rw [hashStep, hrun]; rfl, m, h', hf⟩

omit [DecidableEq ρ] [Inhabited ν] in
theorem Holds.write (h : Holds mem c f) {mem' : ρ → Nat → Byte}
    (hkeys : ∀ j < c.statSize, ∀ p, (c.hashWhere j).hashKey = .key p →
      bytes mem' p (c.hashWhere j).keySize = bytes mem p (c.hashWhere j).keySize) :
    Holds mem' c f := by
  obtain ⟨m, hm, hf⟩ := h
  refine ⟨m, hm.congr_mem fun k p v hk => ?_, hf⟩
  obtain ⟨d, hd, hp, hb, -⟩ := hm.reach k p v hk
  have hkey := hkeys _ (Nat.mod_lt _ (statSize_pos c)) p hp
  have hlen := congrArg List.length hb
  rw [bytes_length] at hlen
  rwa [hlen] at hkey

omit [DecidableEq ρ] in
theorem hashNew_holds (mem : ρ → Nat → Byte) :
    Holds mem (hashNew : HashControl ρ ν) fun _ => none :=
  ⟨fun _ => none, emptyTable_holding mem (by decide) rfl, fun _ => rfl⟩

omit [Inhabited ν] in
theorem Holds.find (h : Holds mem c f) (hclear : ImDb.Clear mem c key n) :
    ∃ c', hashFind mem c key n = .ok (c', f (bytes mem key n)) := by
  obtain ⟨m, hm, hf⟩ := h
  obtain ⟨c', hrun, -⟩ := hm.find_ok hclear
  exact ⟨c', by rw [hrun, hf]⟩

omit [Inhabited ν] in
theorem Holds.ask (h : Holds mem c f) (hclear : ImDb.Clear mem c key n) :
    ∃ c' slot found, hashAsk mem c key n = .ok (c', slot, found) ∧ slot < c.statSize ∧
      (found = true ↔ (f (bytes mem key n)).isSome) := by
  obtain ⟨m, hm, hf⟩ := h
  cases hk : m (bytes mem key n) with
  | none =>
    obtain ⟨c', slot, hrun, -, hslot, -, -, -, hl, -⟩ := hm.ask_absent hclear hk
    rw [HashControl.statSize, hl] at hslot
    exact ⟨c', slot, false, hrun, hslot, by simp [hf, hk]⟩
  | some pv =>
    obtain ⟨slot, hslot, hrun, -⟩ := hm.ask_present hclear hk
    exact ⟨c, slot, true, hrun, hslot, by simp [hf, hk]⟩

def KeysOf (n : Nat) (f : List Byte → Option ν) : Prop := ∀ k, (f k).isSome → k.length = n

omit [DecidableEq ρ] [Inhabited ν] in
theorem Holds.rep (h : Holds mem c f) (hkeys : KeysOf n f) :
    ∃ m, Rep mem n c m ∧ ∀ k, f k = (m k).map Prod.snd := by
  obtain ⟨m, hm, hf⟩ := h
  exact ⟨m, hm.rep fun k pv hk => hkeys k (by simp [hf, hk]), hf⟩

theorem Rep.opClear (h : Rep mem n c m) (op : HashOp ρ ν) (hop : op.size = n) :
    op.Clear mem c := by
  subst hop
  cases op with
  | insert key n value => exact h.insertClear key
  | replace key n value => exact h.clear key
  | jam key n value => exact h.insertClear key
  | delete key n => exact h.clear key
  | find key n => exact h.clear key

omit [Inhabited ν] [DecidableEq ρ] in
theorem KeysOf.update (hkeys : KeysOf n f) (mem : ρ → Nat → Byte) (key : ρ) (v : Option ν) :
    KeysOf n (Function.update f (bytes mem key n) v) := by
  intro k hk
  by_cases hkk : k = bytes mem key n
  · rw [hkk, bytes_length]
  · rw [Function.update_of_ne hkk] at hk
    exact hkeys k hk

omit [Inhabited ν] [DecidableEq ρ] in
theorem KeysOf.step (hkeys : KeysOf n f) (mem : ρ → Nat → Byte) (op : HashOp ρ ν)
    (hop : op.size = n) : KeysOf n (mapStep mem f op) := by
  subst hop
  cases op with
  | insert key n value =>
    rw [mapStep]
    split
    · exact hkeys
    · exact hkeys.update mem key _
  | replace key n value =>
    rw [mapStep]
    split
    · exact hkeys.update mem key _
    · exact hkeys
  | jam key n value => exact hkeys.update mem key _
  | delete key n => exact hkeys.update mem key _
  | find key n => exact hkeys

theorem fixedRun_holds {n : Nat} (run : HashRun (fun _ _ op => op.size = n) mem c f) :
    Holds mem c f ∧ KeysOf n f := by
  induction run with
  | new mem => exact ⟨hashNew_holds mem, fun k hk => by cases hk⟩
  | @call mem c c' f op run hop hstep ih =>
    obtain ⟨h, hkeys⟩ := ih
    obtain ⟨m, hm, -⟩ := h.rep hkeys
    obtain ⟨c₁, hrun, h₁⟩ := hashStep_holds h op (hm.opClear op hop)
    rw [hrun] at hstep
    cases hstep
    exact ⟨h₁, hkeys.step mem op hop⟩
  | write run hsame ih => exact ⟨ih.1.write hsame, ih.2⟩

/-- With keys of one size the table is a finite map: every call returns, a probe always ends at a
slot, and a find returns the value that was stored last, if it was not deleted. -/
theorem fixedRun_map {n : Nat} (run : HashRun (fun _ _ op => op.size = n) mem c f) :
    (∀ op : HashOp ρ ν, op.size = n → ∃ c', hashStep mem c op = .ok c') ∧
    (∀ key, ∃ c' slot found, hashAsk mem c key n = .ok (c', slot, found) ∧ slot < c.statSize ∧
      (found = true ↔ (f (bytes mem key n)).isSome)) ∧
    ∀ key, ∃ c', hashFind mem c key n = .ok (c', f (bytes mem key n)) := by
  obtain ⟨h, hkeys⟩ := fixedRun_holds run
  obtain ⟨m, hm, -⟩ := h.rep hkeys
  refine ⟨fun op hop => ?_, fun key => h.ask (hm.clear key), fun key => h.find (hm.clear key)⟩
  obtain ⟨c', hrun, -⟩ := hashStep_holds h op (hm.opClear op hop)
  exact ⟨c', hrun⟩

theorem clearRun_holds (run : HashRun (fun mem c op => op.Clear mem c) mem c f) :
    Holds mem c f := by
  induction run with
  | new mem => exact hashNew_holds mem
  | @call mem c c' f op run hop hstep ih =>
    obtain ⟨c₁, hrun, h₁⟩ := hashStep_holds ih op hop
    rw [hrun] at hstep
    cases hstep
    exact h₁
  | write run hsame ih => exact ih.write hsame

/-- The probe for a key comes past `d` slots without stopping. -/
def Probed (mem : ρ → Nat → Byte) (c : HashControl ρ ν) (key : ρ) (n d : Nat) : Prop :=
  ∀ d' < d, (c.hashWhere ((home c.hashSizelog (bytes mem key n) + d') % c.statSize)).hashKey ≠ .null ∧
    ∀ s, (c.hashWhere ((home c.hashSizelog (bytes mem key n) + d') % c.statSize)).hashKey = .key s →
      hashHit mem (hashCode c.hashSizelog (bytes mem key n)) key n
        (c.hashWhere ((home c.hashSizelog (bytes mem key n) + d') % c.statSize)) s = false

def ComparesWhole (mem : ρ → Nat → Byte) (c : HashControl ρ ν) (key : ρ) (n : Nat) : Prop :=
  ∀ d < c.statSize, Probed mem c key n d → ∀ s,
    (c.hashWhere ((home c.hashSizelog (bytes mem key n) + d) % c.statSize)).hashKey = .key s →
    (hashHit mem (hashCode c.hashSizelog (bytes mem key n)) key n
        (c.hashWhere ((home c.hashSizelog (bytes mem key n) + d) % c.statSize)) s = true →
      bytes mem s (c.hashWhere
        ((home c.hashSizelog (bytes mem key n) + d) % c.statSize)).keySize = bytes mem key n) ∧
    (key ≠ s → (c.hashWhere ((home c.hashSizelog (bytes mem key n) + d) % c.statSize)).h =
        hashCode c.hashSizelog (bytes mem key n) →
      n ≤ (c.hashWhere ((home c.hashSizelog (bytes mem key n) + d) % c.statSize)).keySize)

omit [Inhabited ν] in
theorem comparesWhole_iff (h : Holding mem c m) (key : ρ) (n : Nat) :
    ComparesWhole mem c key n ↔ Clear mem c key n := by
  have hlt (d : Nat) : (home c.hashSizelog (bytes mem key n) + d) % c.statSize < c.statSize :=
    Nat.mod_lt _ (statSize_pos c)
  constructor
  · intro hwhole d hd hpass s hs hne
    -- a probe that has not met its key has not stopped
    have hprobed : ∀ e ≤ d, Probed mem c key n e := by
      intro e
      induction e with
      | zero => exact fun _ d' hd' => absurd hd' (Nat.not_lt_zero d')
      | succ e ih =>
        intro he d' hd'
        refine ⟨(hpass d' (by omega)).1, fun s' hs' => ?_⟩
        by_contra hhit
        rw [Bool.not_eq_false] at hhit
        have hbefore : Probed mem c key n d' := fun d'' hd'' => ih (by omega) d'' (by omega)
        exact (hpass d' (by omega)).2 s' hs' ((hwhole d' (by omega) hbefore s' hs').1 hhit)
    obtain ⟨hhit, hsize⟩ := hwhole d hd (hprobed d le_rfl) s hs
    have hmiss : ¬ hashHit mem (hashCode c.hashSizelog (bytes mem key n)) key n
        (c.hashWhere ((home c.hashSizelog (bytes mem key n) + d) % c.statSize)) s = true :=
      fun hh => hne (hhit hh)
    simp only [hashHit, Bool.or_eq_true, decide_eq_true_eq, Bool.and_eq_true, not_or, not_and]
      at hmiss
    exact ⟨hmiss.1, fun hcode => ⟨hsize hmiss.1 hcode, hmiss.2 hcode⟩⟩
  · intro hclear d hd hprobed s hs
    have hpass : Passes mem c (bytes mem key n) d := by
      intro d' hd'
      refine ⟨(hprobed d' hd').1, fun s' hs' hown => ?_⟩
      have hmiss := (hprobed d' hd').2 s' hs'
      rw [h.hit_own (hlt d') hs' hown] at hmiss
      cases hmiss
    by_cases hown : bytes mem s (c.hashWhere
        ((home c.hashSizelog (bytes mem key n) + d) % c.statSize)).keySize = bytes mem key n
    · refine ⟨fun _ => hown, fun _ _ => ?_⟩
      have hlen := congrArg List.length hown
      rw [bytes_length, bytes_length] at hlen
      exact hlen.ge
    · have hapart := hclear d hd hpass s hs hown
      refine ⟨fun hhit => ?_, fun _ hcode => (hapart.2 hcode).1⟩
      rw [hapart.miss] at hhit
      cases hhit

def ReturnsOwn (mem : ρ → Nat → Byte) (c : HashControl ρ ν) (p : ρ) (n : Nat) (q : ρ) (k : Nat)
    (v w : ν) : Prop :=
  ∃ c₁ c₂ c₃ c₄, hashInsert mem c p n v = .ok (c₁, true) ∧
    hashInsert mem c₁ q k w = .ok (c₂, true) ∧ hashFind mem c₂ p n = .ok (c₃, some v) ∧
    hashFind mem c₂ q k = .ok (c₄, some w)

def BothClear (mem : ρ → Nat → Byte) (c : HashControl ρ ν) (p : ρ) (n : Nat) (q : ρ) (k : Nat)
    (v w : ν) : Prop :=
  InsertClear mem c p n ∧ ∀ c₁ b, hashInsert mem c p n v = .ok (c₁, b) →
    InsertClear mem c₁ q k ∧ ∀ c₂ b, hashInsert mem c₁ q k w = .ok (c₂, b) →
      Clear mem c₂ p n ∧ Clear mem c₂ q k

theorem returnsOwn (h : Holds mem c f) {p q : ρ} {k : Nat} {v w : ν}
    (hne : bytes mem p n ≠ bytes mem q k) (hp : f (bytes mem p n) = none)
    (hq : f (bytes mem q k) = none) (hclear : BothClear mem c p n q k v w) :
    ReturnsOwn mem c p n q k v w := by
  obtain ⟨m, hm, hf⟩ := h
  have hpm : m (bytes mem p n) = none := by simpa [hp] using hf (bytes mem p n)
  have hqm : m (bytes mem q k) = none := by simpa [hq] using hf (bytes mem q k)
  obtain ⟨c₁, hins₁, hm₁⟩ := hm.insert_ok hclear.1 v hpm
  obtain ⟨hclear₁, hrest⟩ := hclear.2 c₁ true hins₁
  obtain ⟨c₂, hins₂, hm₂⟩ := hm₁.insert_ok hclear₁ w
    (by rw [Function.update_of_ne (Ne.symm hne), hqm])
  obtain ⟨hfp, hfq⟩ := hrest c₂ true hins₂
  obtain ⟨c₃, hfind₃, -⟩ := hm₂.find_ok hfp
  obtain ⟨c₄, hfind₄, -⟩ := hm₂.find_ok hfq
  rw [Function.update_of_ne hne, Function.update_self] at hfind₃
  rw [Function.update_self] at hfind₄
  exact ⟨c₁, c₂, c₃, c₄, hins₁, hins₂, hfind₃, hfind₄⟩

/-- With keys of any sizes, in every run whose probes are all clear, the table is a finite map from
the keys as bytes and length. -/
theorem clearRun_map (run : HashRun (fun mem c op => op.Clear mem c) mem c f) :
    (∀ op : HashOp ρ ν, op.Clear mem c → ∃ c', hashStep mem c op = .ok c') ∧
    (∀ key n, (ComparesWhole mem c key n ↔ Clear mem c key n) ∧
      (Clear mem c key n → ∃ c', hashFind mem c key n = .ok (c', f (bytes mem key n)))) ∧
    ∀ p n q k v w, bytes mem p n ≠ bytes mem q k → f (bytes mem p n) = none →
      f (bytes mem q k) = none → BothClear mem c p n q k v w → ReturnsOwn mem c p n q k v w := by
  have h := clearRun_holds run
  refine ⟨fun op hop => ?_, fun key n => ⟨?_, fun hclear => h.find hclear⟩,
    fun p n q k v w hne hp hq hclear => returnsOwn h hne hp hq hclear⟩
  · obtain ⟨c', hrun, -⟩ := hashStep_holds h op hop
    exact ⟨c', hrun⟩
  · obtain ⟨m, hm, -⟩ := h
    exact comparesWhole_iff hm key n

end

def zeros : Nat → Nat → Byte := fun _ _ => 0

theorem zeros_insert : ∃ c, hashStep zeros (hashNew : HashControl Nat Nat) (.insert 0 2 5) = .ok c ∧
    hashFind zeros c 0 2 = .ok (c, some 5) := ⟨_, rfl, rfl⟩

theorem fixedRun_map_zeros : ∃ c f, HashRun (fun _ _ op => op.size = 2) zeros c f ∧
    f [0, 0] = some 5 ∧ ∃ c', hashFind zeros c 0 2 = .ok (c', some 5) := by
  obtain ⟨c, hstep, -⟩ := zeros_insert
  have run : HashRun (fun _ _ op => op.size = 2) zeros c _ :=
    .call (.insert 0 2 5) (.new zeros) rfl hstep
  exact ⟨c, _, run, rfl, (fixedRun_map run).2.2 0⟩

theorem clearRun_map_zeros : ∃ c f, HashRun (fun mem c op => op.Clear mem c) zeros c f ∧
    f [0, 0] = some 5 ∧ ∃ c', hashFind zeros c 0 2 = .ok (c', some 5) := by
  obtain ⟨c, hstep, -⟩ := zeros_insert
  have hnew : Rep zeros 2 (hashNew : HashControl Nat Nat) _ := emptyTable_rep zeros 2 (by decide) rfl
  have run : HashRun (fun mem c op => op.Clear mem c) zeros c _ :=
    .call (.insert 0 2 5) (.new zeros) (hnew.insertClear 0) hstep
  have sized : HashRun (fun _ _ op => op.size = 2) zeros c _ :=
    .call (.insert 0 2 5) (.new zeros) rfl hstep
  obtain ⟨h, hkeys⟩ := fixedRun_holds sized
  obtain ⟨m, hm, -⟩ := h.rep hkeys
  exact ⟨c, _, run, rfl, ((clearRun_map run).2.1 0 2).2 (hm.clear 0)⟩

/-- The key of one zero is a prefix of the key of two zeros, and both have the code 0: the second
insertion finds the first key. -/
theorem zeros_not_returnsOwn : bytes zeros 0 2 ≠ bytes zeros 1 1 ∧
    ¬ ReturnsOwn zeros (hashNew : HashControl Nat Nat) 0 2 1 1 5 7 := by
  refine ⟨by decide, ?_⟩
  rintro ⟨c₁, c₂, c₃, c₄, hins₁, hins₂, -, -⟩
  have hrun : ((hashInsert zeros (hashNew : HashControl Nat Nat) 0 2 5).bind fun r =>
      hashInsert zeros r.1 1 1 7).map Prod.snd = .ok false := rfl
  rw [hins₁] at hrun
  simp only [Except.bind, hins₂] at hrun
  cases hrun

end StreamMill.ImDb
