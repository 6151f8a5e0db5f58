import StreamMill.Window.Winbuf

/-!
# StreamMill.Window.Positions

Windows of the last tuples of a stream by position. A position has at most one tuple; its id is
the position in 32 bits. `expired` is one short just after the ids start over, for the tuple
exactly `size` positions back (`expired_eq`), so there a window keeps a position too many
(`heldFrom`).
-/

namespace StreamMill.Window

variable {α : Type}

/-- How far an id lies back, in 32 bits. -/
def age (id t : Nat) : Nat := (id + 2 ^ 32 - t) % 2 ^ 32

variable {id t size j : Nat} {os : List (Option α)}

theorem age_of_le (hid : id < 2 ^ 32) (h : t ≤ id) : age id t = id - t := by
  rw [age, show id + 2 ^ 32 - t = id - t + 2 ^ 32 by omega, Nat.add_mod_right]
  exact Nat.mod_eq_of_lt (by omega)

theorem age_of_lt (h : id < t) : age id t = id + 2 ^ 32 - t :=
  Nat.mod_eq_of_lt (by omega)

theorem expired_eq (hpos : 0 < size) (hsize : size < 2 ^ 31) (hid : id < 2 ^ 32) (ht : t < 2 ^ 32) :
    expired size id t = decide (size < age id t ∨ size = age id t ∧ size ≤ id) := by
  rw [expired]
  rcases Nat.lt_or_ge id t with hlt | hle
  · rw [age_of_lt hlt]
    split
    · next hs =>
      rw [decide_eq_true hlt, Bool.and_true, decide_eq_decide]
      omega
    · next hs =>
      rw [decide_eq_true hlt, Bool.or_true, eq_comm, decide_eq_true_iff]
      omega
  · rw [age_of_le hid hle]
    have hno : decide (id < t) = false := decide_eq_false (by omega)
    split
    · next hs =>
      rw [hno, Bool.and_false, eq_comm, decide_eq_false_iff_not]
      omega
    · next hs =>
      rw [hno, Bool.or_false, decide_eq_decide]
      omega

/-- The test is the age test but for one age, and for that one just after the wrap. -/
theorem expired_right_iff (hpos : 0 < size) (hsize : size < 2 ^ 31) (hid : id < 2 ^ 32)
    (ht : t < 2 ^ 32) :
    ((expired size id t = true ↔ size ≤ age id t) ↔ ¬(id < size ∧ age id t = size)) := by
  rw [expired_eq hpos hsize hid ht, decide_eq_true_iff]
  omega

def posId (p : Nat) : Nat := p % 2 ^ 32

theorem posId_lt (p : Nat) : posId p < 2 ^ 32 := Nat.mod_lt _ (by decide)

theorem age_posId {k p : Nat} (hp : p ≤ k) (hk : k - p < 2 ^ 32) :
    age (posId k) (posId p) = k - p := by
  rw [age, posId, posId]
  omega

/-- The tuples at the positions after `i`. -/
def tuplesFrom : Nat → List (Option α) → List (WinTuple α)
  | _, [] => []
  | i, o :: os => (o.map fun v => ⟨v, posId (i + 1)⟩).toList ++ tuplesFrom (i + 1) os

theorem tuplesFrom_append (i : Nat) (os os' : List (Option α)) :
    tuplesFrom i (os ++ os') = tuplesFrom i os ++ tuplesFrom (i + os.length) os' := by
  induction os generalizing i with
  | nil => rfl
  | cons o os ih =>
    rw [List.cons_append, tuplesFrom, tuplesFrom, ih, List.append_assoc, List.length_cons,
      Nat.add_right_comm, Nat.add_assoc]

theorem mem_tuplesFrom {i : Nat} {d : WinTuple α} (h : d ∈ tuplesFrom i os) :
    ∃ p, i < p ∧ p ≤ i + os.length ∧ d.tupleId = posId p := by
  induction os generalizing i with
  | nil => cases h
  | cons o os ih =>
    rw [tuplesFrom, List.mem_append] at h
    rw [List.length_cons]
    rcases h with h | h
    · rw [Option.mem_toList, Option.map_eq_some_iff] at h
      obtain ⟨v, -, rfl⟩ := h
      exact ⟨i + 1, by omega, by omega, rfl⟩
    · obtain ⟨p, h1, h2, h3⟩ := ih h
      exact ⟨p, by omega, by omega, h3⟩

/-- The tuples of the run at the positions after `j`. -/
def after (j : Nat) (os : List (Option α)) : List (WinTuple α) := tuplesFrom j (os.drop j)

theorem after_split {m : Nat} (hjm : j ≤ m) (hm : m ≤ os.length) :
    after j os = tuplesFrom j ((os.drop j).take (m - j)) ++ after m os := by
  have hlen : ((os.drop j).take (m - j)).length = m - j := by
    rw [List.length_take, List.length_drop]
    omega
  have hdrop : (os.drop j).drop (m - j) = os.drop m := by
    rw [List.drop_drop]
    congr 1
    omega
  rw [after]
  conv_lhs => rw [← List.take_append_drop (m - j) (os.drop j), tuplesFrom_append]
  congr 2
  omega

theorem after_concat (hj : j ≤ os.length) (o : Option α) :
    after j (os ++ [o]) = after j os ++ (o.map fun v => ⟨v, posId (os.length + 1)⟩).toList := by
  have hlen : j + (os.length - j) = os.length := by omega
  rw [after, List.drop_append_of_le_length hj, tuplesFrom_append, List.length_drop, hlen]
  simp [tuplesFrom, after]

theorem dropWhile_after {m : Nat} (hjm : j ≤ m) (hm : m ≤ os.length)
    (hgone : ∀ p, j < p → p ≤ m → expired size id (posId p) = true)
    (hkept : ∀ p, m < p → p ≤ os.length → expired size id (posId p) = false) :
    (after j os).dropWhile (fun d => expired size id d.tupleId) = after m os := by
  rw [after_split hjm hm, List.dropWhile_append_of_pos]
  · cases hl : after m os with
    | nil => rfl
    | cons d es =>
      have hd : d ∈ after m os := by rw [hl]; exact List.mem_cons_self
      obtain ⟨p, h1, h2, h3⟩ := mem_tuplesFrom hd
      rw [List.length_drop] at h2
      rw [List.dropWhile_cons_of_neg]
      rw [h3, hkept p h1 (by omega)]
      exact Bool.false_ne_true
  · intro d hd
    obtain ⟨p, h1, h2, h3⟩ := mem_tuplesFrom hd
    rw [List.length_take] at h2
    rw [h3]
    exact hgone p h1 (by omega)

/-- The ids of the last `k` positions start over among the last `size` ones. -/
def JustWrapped (size k : Nat) : Prop := 2 ^ 32 ≤ k ∧ posId k < size

instance (size k : Nat) : Decidable (JustWrapped size k) := inferInstanceAs (Decidable (_ ∧ _))

/-- The position after which the tuples are held, after `k` positions. -/
def heldFrom (size k : Nat) : Nat := if JustWrapped size k then k - size - 1 else k - size

def held (size : Nat) (os : List (Option α)) : List (WinTuple α) :=
  after (heldFrom size os.length) os

def lastPositions (size : Nat) (os : List (Option α)) : List (WinTuple α) :=
  after (os.length - size) os

theorem heldFrom_eq (size k : Nat) :
    heldFrom size k = if 2 ^ 32 ≤ k ∧ k % 2 ^ 32 < size then k - size - 1 else k - size := rfl

theorem held_concat (hpos : 0 < size) (hsize : size < 2 ^ 31) (os : List (Option α)) (o : Option α) :
    held size (os ++ [o]) =
      (held size os).dropWhile (fun d => expired size (posId (os.length + 1)) d.tupleId) ++
        (o.map fun v => ⟨v, posId (os.length + 1)⟩).toList := by
  have hm : heldFrom size (os.length + 1) ≤ os.length := by
    rw [heldFrom_eq]
    split <;> omega
  have hjm : heldFrom size os.length ≤ heldFrom size (os.length + 1) := by
    rw [heldFrom_eq, heldFrom_eq]
    split <;> split <;> omega
  have hfar : os.length + 1 ≤ heldFrom size os.length + size + 2 := by
    rw [heldFrom_eq]
    split <;> omega
  have hexp : ∀ p, heldFrom size os.length < p → p ≤ os.length →
      expired size (posId (os.length + 1)) (posId p) =
        decide (p ≤ heldFrom size (os.length + 1)) := by
    intro p hp hple
    rw [expired_eq hpos hsize (posId_lt _) (posId_lt _), age_posId (by omega) (by omega),
      decide_eq_decide, heldFrom_eq, posId]
    split <;> omega
  rw [held, List.length_append, List.length_singleton, after_concat hm, held,
    dropWhile_after hjm hm]
  · intro p h1 h2
    rw [hexp p h1 (by omega), decide_eq_true h2]
  · intro p h1 h2
    rw [hexp p (by omega) h2, decide_eq_false (by omega)]

/-- A window holds the last positions, unless the ids have just started over and there was a tuple
one position before. -/
theorem held_eq_iff (hsize : size < 2 ^ 31) (os : List (Option α)) :
    held size os = lastPositions size os ↔
      ¬(JustWrapped size os.length ∧ (os[os.length - size - 1]?.join).isSome) := by
  by_cases hw : JustWrapped size os.length
  · have hlong : size < os.length := by
      have := hw.1
      omega
    have hheld : heldFrom size os.length = os.length - size - 1 := if_pos hw
    have hone : (os.drop (os.length - size - 1)).take 1 = [os[os.length - size - 1]] := by
      rw [List.drop_eq_getElem_cons (by omega)]
      rfl
    have hget : os[os.length - size - 1]? = some os[os.length - size - 1] :=
      List.getElem?_eq_getElem (by omega)
    rw [held, lastPositions, hheld, after_split (m := os.length - size) (by omega) (by omega),
      show os.length - size - (os.length - size - 1) = 1 by omega, hone, hget]
    cases ho : os[os.length - size - 1] with
    | none => simp [tuplesFrom, hw]
    | some v => simp [tuplesFrom, hw]
  · have hheld : heldFrom size os.length = os.length - size := if_neg hw
    rw [held, lastPositions, hheld]
    simp [hw]

end StreamMill.Window
