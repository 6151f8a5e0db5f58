import StreamMill.Window.Positions
import StreamMill.Window.WindowBuf

/-!
# StreamMill.Window.Expiry

Runs of a window of tuples: for every position the id counts on, what is expired is popped, and
the tuple of the position, if there is one, is put. Both window buffers are windows in this sense
(`winbufOps_lawful`, `windowBufOps_lawful`); `run_held` says what a window holds after a run.
-/

namespace StreamMill.Window

open ImDb Lib

structure WindowOps (α σ : Type) where
  updateTupleID : σ → σ
  getExpired : σ → Except Fault (σ × Option α)
  pop : σ → Except Fault σ
  put : σ → α → Except Fault σ
  /-- Passes enough for a loop over the window. -/
  fuel : σ → Nat

section

variable {α σ : Type} (ops : WindowOps α σ)

/-- `while (hasExpired()) pop();` -/
def WindowOps.popExpired : Nat → σ → Except Fault σ
  | 0, _ => .error .loop
  | fuel + 1, w => do
    let (w, x) ← ops.getExpired w
    match x with
    | none => return w
    | some _ => do
      let w ← ops.pop w
      WindowOps.popExpired fuel w

def WindowOps.step (w : σ) (o : Option α) : Except Fault σ := do
  let w ← ops.popExpired (ops.fuel (ops.updateTupleID w)) (ops.updateTupleID w)
  match o with
  | none => return w
  | some v => ops.put w v

def WindowOps.run : σ → List (Option α) → Except Fault σ
  | w, [] => .ok w
  | w, o :: os => do
    let w ← ops.step w o
    WindowOps.run w os

/-- The operations are those of a queue of tuples with ids. -/
structure WindowOps.Lawful (size : Nat) (Holds : σ → Nat → List (WinTuple α) → Prop) : Prop where
  updateTupleID : ∀ {w id es}, Holds w id es → Holds (ops.updateTupleID w) ((id + 1) % 2 ^ 32) es
  getExpired : ∀ {w id es}, Holds w id es → ∃ w',
    ops.getExpired w = .ok (w', (es.head?.filter fun d => expired size id d.tupleId).map
      WinTuple.value) ∧ Holds w' id es
  pop : ∀ {w id es}, Holds w id es → ∃ w', ops.pop w = .ok w' ∧ Holds w' id es.tail
  put : ∀ {w id es}, Holds w id es → id < 2 ^ 32 → ∀ v, ∃ w', ops.put w v = .ok w' ∧
    Holds w' id (es ++ [⟨v, id⟩])
  fuel : ∀ {w id es}, Holds w id es → es.length < ops.fuel w

variable {ops} {size : Nat} {Holds : σ → Nat → List (WinTuple α) → Prop} {w : σ} {id : Nat}

theorem WindowOps.Lawful.popExpired (law : ops.Lawful size Holds) {es : List (WinTuple α)}
    {fuel : Nat} (h : Holds w id es) (hfuel : es.length < fuel) :
    ∃ w', ops.popExpired fuel w = .ok w' ∧
      Holds w' id (es.dropWhile fun d => expired size id d.tupleId) := by
  induction es generalizing w fuel with
  | nil =>
    obtain ⟨fuel, rfl⟩ : ∃ f, fuel = f + 1 := ⟨fuel - 1, by omega⟩
    obtain ⟨w', hget, hw'⟩ := law.getExpired h
    refine ⟨w', ?_, hw'⟩
    rw [WindowOps.popExpired, hget]
    rfl
  | cons d es ih =>
    obtain ⟨fuel, rfl⟩ : ∃ f, fuel = f + 1 := ⟨fuel - 1, by omega⟩
    obtain ⟨w₁, hget, hw₁⟩ := law.getExpired h
    rw [List.head?_cons, Option.filter_some] at hget
    rw [WindowOps.popExpired, hget]
    cases hx : expired size id d.tupleId with
    | true =>
      obtain ⟨w₂, hpop, hw₂⟩ := law.pop hw₁
      obtain ⟨w', hrun, hw'⟩ := ih hw₂ (Nat.lt_of_succ_lt_succ hfuel)
      refine ⟨w', ?_, ?_⟩
      · simp [ok_bind, hpop, hrun]
      · rw [List.dropWhile_cons, if_pos hx]
        exact hw'
    | false =>
      refine ⟨w₁, rfl, ?_⟩
      rw [List.dropWhile_cons, if_neg (by rw [hx]; exact Bool.false_ne_true)]
      exact hw₁

theorem WindowOps.Lawful.step (law : ops.Lawful size Holds) (hpos : 0 < size)
    (hsize : size < 2 ^ 31) {os : List (Option α)} (h : Holds w (posId os.length) (held size os))
    (o : Option α) :
    ∃ w', ops.step w o = .ok w' ∧ Holds w' (posId (os ++ [o]).length) (held size (os ++ [o])) := by
  have hup := law.updateTupleID h
  have hid : (posId os.length + 1) % 2 ^ 32 = posId (os.length + 1) := by
    rw [posId, posId, Nat.mod_add_mod]
  rw [hid] at hup
  obtain ⟨w₁, hpop, hw₁⟩ := law.popExpired hup (law.fuel hup)
  rw [List.length_append, held_concat hpos hsize]
  cases o with
  | none =>
    refine ⟨w₁, ?_, by simpa using hw₁⟩
    rw [WindowOps.step, hpop]
    rfl
  | some v =>
    obtain ⟨w', hput, hw'⟩ := law.put hw₁ (posId_lt _) v
    refine ⟨w', ?_, hw'⟩
    rw [WindowOps.step, hpop]
    exact hput

theorem WindowOps.Lawful.run_from (law : ops.Lawful size Holds) (hpos : 0 < size)
    (hsize : size < 2 ^ 31) {os : List (Option α)} (h : Holds w (posId os.length) (held size os))
    (os' : List (Option α)) :
    ∃ w', ops.run w os' = .ok w' ∧
      Holds w' (posId (os ++ os').length) (held size (os ++ os')) := by
  induction os' generalizing w os with
  | nil =>
    rw [List.append_nil]
    exact ⟨w, rfl, h⟩
  | cons o os' ih =>
    obtain ⟨w₁, hstep, hw₁⟩ := law.step hpos hsize h o
    obtain ⟨w', hrun, hw'⟩ := ih hw₁
    rw [List.append_assoc] at hw'
    refine ⟨w', ?_, hw'⟩
    rw [WindowOps.run, hstep]
    exact hrun

theorem held_nil (size : Nat) : held size ([] : List (Option α)) = [] := by
  rw [held, after, List.drop_nil, tuplesFrom]

theorem WindowOps.Lawful.run_held (law : ops.Lawful size Holds) (hpos : 0 < size)
    (hsize : size < 2 ^ 31) (h : Holds w 0 []) (os : List (Option α)) :
    ∃ w', ops.run w os = .ok w' ∧ Holds w' (posId os.length) (held size os) := by
  have h0 : Holds w (posId ([] : List (Option α)).length) (held size []) := by
    rw [held_nil]
    exact h
  exact law.run_from hpos hsize h0 os

end

variable {α : Type} [DecidableEq α] [Inhabited α]

def winbufOps : WindowOps α (Winbuf α) where
  updateTupleID := fun w => w.updateTupleID none
  getExpired := Winbuf.getExpired
  pop := Winbuf.pop
  put := Winbuf.put
  fuel := fun w => w.b.fuel + 1

def windowBufOps : WindowOps α (WindowBuf α) where
  updateTupleID := fun w => w.updateTupleID none
  getExpired := WindowBuf.getExpired
  pop := fun w => do
    let (w, _) ← w.pop
    return w
  put := WindowBuf.put
  fuel := fun w => w.b.fuel + 1

omit [DecidableEq α] [Inhabited α] in
theorem length_lt_fuel {n : Nat} {δ : Type} {s : Rel n δ} {l : List (Entry n δ)} (h : s.Holds l)
    (tuple : Entry n δ → WinTuple α) : (l.map tuple).length < s.fuel + 1 := by
  have hlen := h.length_le
  rw [slots, List.length_map] at hlen
  rw [List.length_map]
  exact Nat.lt_succ_of_le hlen

theorem winbufOps_lawful (size : Nat) : winbufOps.Lawful size
    fun (w : Winbuf α) id es => w.Holds es ∧ w.size = size ∧ w.tupleId = id where
  updateTupleID := by
    rintro w id es ⟨h, hs, rfl⟩
    exact ⟨h, hs, rfl⟩
  getExpired := by
    rintro w id es ⟨h, rfl, rfl⟩
    obtain ⟨w', hget, hw', hsame⟩ := getExpired_holds h
    exact ⟨w', hget, hw', hsame.1, hsame.2.1⟩
  pop := by
    rintro w id es ⟨h, rfl, rfl⟩
    obtain ⟨w', hpop, hw', hsame⟩ := pop_holds h
    exact ⟨w', hpop, hw', hsame.1, hsame.2.1⟩
  put := by
    rintro w id es ⟨h, rfl, rfl⟩ - v
    obtain ⟨w', hput, hw', hs, hid, -⟩ := put_holds h v
    exact ⟨w', hput, hw', hs, hid⟩
  fuel := by
    rintro w id es ⟨⟨l, hl, rfl⟩, -, -⟩
    exact length_lt_fuel hl.rel _

theorem windowBufOps_lawful (size : Nat) : windowBufOps.Lawful size
    fun (w : WindowBuf α) id es => w.Holds es ∧ w.size = size ∧ w.tupleId = id where
  updateTupleID := by
    rintro w id es ⟨h, hs, rfl⟩
    exact ⟨h, hs, rfl⟩
  getExpired := by
    rintro w id es ⟨h, rfl, rfl⟩
    obtain ⟨w', hget, hw', hsame, -⟩ := WindowBuf.getExpired_holds h
    exact ⟨w', hget, hw', hsame.1, hsame.2.1⟩
  pop := by
    rintro w id es ⟨h, rfl, rfl⟩
    obtain ⟨w', hpop, hw', hsame, -⟩ := WindowBuf.pop_holds h
    refine ⟨w', ?_, hw', hsame.1, hsame.2.1⟩
    simp only [windowBufOps, hpop]
    rfl
  put := by
    rintro w id es ⟨h, rfl, rfl⟩ hid v
    obtain ⟨w', hput, hw', hsame, -⟩ := WindowBuf.put_holds h hid v
    exact ⟨w', hput, hw', hsame.1, hsame.2.1⟩
  fuel := by
    rintro w id es ⟨⟨l, hl, rfl⟩, -, -⟩
    exact length_lt_fuel hl.rel _

omit [DecidableEq α] [Inhabited α] in
theorem reported_iff {size id : Nat} {d : WinTuple α} {es : List (WinTuple α)} (hpos : 0 < size)
    (hsize : size < 2 ^ 31) (hid : id < 2 ^ 32) (ht : d.tupleId < 2 ^ 32) :
    (((((d :: es).head?.filter fun d => expired size id d.tupleId).map
        WinTuple.value).isSome ↔ size ≤ age id d.tupleId) ↔
      ¬(id < size ∧ age id d.tupleId = size)) := by
  rw [← expired_right_iff hpos hsize hid ht, List.head?_cons, Option.filter_some]
  cases expired size id d.tupleId <;> simp

/-- What is reported of the oldest tuple is right but for a tuple exactly `size` positions back when
the id is below `size`; a run leaves the tuples of the last `size` positions unless the ids have
just started over. -/
theorem expiry_right_iff (mem : Addr → Tuple 0 (WinTuple α)) (mem' : Addr → Tuple 4 α)
    {size : Nat} (hpos : 0 < size) (hsize : size < 2 ^ 31) :
    (∀ (w : Winbuf α) (d : WinTuple α) (es : List (WinTuple α)), w.Holds (d :: es) →
      w.size = size → w.tupleId < 2 ^ 32 → d.tupleId < 2 ^ 32 →
      ∃ w' x, w.getExpired = .ok (w', x) ∧
        ((x.isSome ↔ size ≤ age w.tupleId d.tupleId) ↔
          ¬(w.tupleId < size ∧ age w.tupleId d.tupleId = size))) ∧
    (∀ (w : WindowBuf α) (d : WinTuple α) (es : List (WinTuple α)), w.Holds (d :: es) →
      w.size = size → w.tupleId < 2 ^ 32 → d.tupleId < 2 ^ 32 →
      ∃ w' x, w.getExpired = .ok (w', x) ∧
        ((x.isSome ↔ size ≤ age w.tupleId d.tupleId) ↔
          ¬(w.tupleId < size ∧ age w.tupleId d.tupleId = size))) ∧
    (∀ os : List (Option α), ∃ w es, winbufOps.run (newWinbuf mem size) os = .ok w ∧
      w.Holds es ∧ (es = lastPositions size os ↔
        ¬(JustWrapped size os.length ∧ (os[os.length - size - 1]?.join).isSome))) ∧
    ∀ os : List (Option α), ∃ w es, windowBufOps.run (newWindowBuf mem' size) os = .ok w ∧
      w.Holds es ∧ (es = lastPositions size os ↔
        ¬(JustWrapped size os.length ∧ (os[os.length - size - 1]?.join).isSome)) := by
  refine ⟨?_, ?_, ?_, ?_⟩
  · rintro w d es h rfl hid ht
    obtain ⟨w', hget, -⟩ := getExpired_holds h
    exact ⟨w', _, hget, reported_iff hpos hsize hid ht⟩
  · rintro w d es h rfl hid ht
    obtain ⟨w', hget, -⟩ := WindowBuf.getExpired_holds h
    exact ⟨w', _, hget, reported_iff hpos hsize hid ht⟩
  · intro os
    obtain ⟨w, hrun, hw, -⟩ := (winbufOps_lawful size).run_held hpos hsize
      ⟨newWinbuf_holds mem size, rfl, rfl⟩ os
    exact ⟨w, _, hrun, hw, held_eq_iff hsize os⟩
  · intro os
    obtain ⟨w, hrun, hw, -⟩ := (windowBufOps_lawful size).run_held hpos hsize
      ⟨newWindowBuf_holds mem' size, rfl, rfl⟩ os
    exact ⟨w, _, hrun, hw, held_eq_iff hsize os⟩

def unusedTuples : Addr → Tuple 0 (WinTuple Nat) :=
  fun _ => ⟨emptyKey, ⟨0, 0⟩, false, 0, 0, none⟩

def unusedKeyTuples : Addr → Tuple 4 Nat := fun _ => ⟨idKey 0, 0, false, 0, 0, none⟩

theorem expiry_right_iff_ten :
    (∃ w w' x, (newWinbuf unusedTuples 10).put 7 = .ok w ∧ w.getExpired = .ok (w', x) ∧
      ((x.isSome ↔ 10 ≤ age w.tupleId 0) ↔ ¬(w.tupleId < 10 ∧ age w.tupleId 0 = 10))) ∧
    ∃ w es, winbufOps.run (newWinbuf unusedTuples 10) [some 7, none] = .ok w ∧ w.Holds es ∧
      (es = lastPositions 10 [some 7, none] ↔
        ¬(JustWrapped 10 2 ∧ ([some 7, none][2 - 10 - 1]?.join).isSome)) := by
  obtain ⟨h, -, hrun, -⟩ :=
    expiry_right_iff unusedTuples unusedKeyTuples (by decide : 0 < 10) (by decide)
  obtain ⟨w, hput, hw, hs, hid, -⟩ := put_holds (newWinbuf_holds unusedTuples 10) 7
  have hid : w.tupleId = 0 := hid
  obtain ⟨w', x, hget, hx⟩ := h w ⟨7, 0⟩ [] hw hs (by rw [hid]; decide) (by decide)
  exact ⟨⟨w, w', x, hput, hget, hx⟩, hrun [some 7, none]⟩

theorem oneTuple_run (n : Nat) (hn : JustWrapped 1 n) :
    ∃ w es, winbufOps.run (newWinbuf unusedTuples 1) (List.replicate n (some 7)) = .ok w ∧
      w.Holds es ∧ es ≠ lastPositions 1 (List.replicate n (some 7)) := by
  obtain ⟨w, hrun, hw, -⟩ := (winbufOps_lawful 1).run_held (by decide) (by decide)
    ⟨newWinbuf_holds unusedTuples 1, rfl, rfl⟩ (List.replicate n (some 7))
  refine ⟨w, _, hrun, hw, fun heq => ?_⟩
  have hno := (held_eq_iff (by decide) _).mp heq
  have hlong := hn.1
  refine hno ⟨by rw [List.length_replicate]; exact hn, ?_⟩
  rw [List.length_replicate, List.getElem?_replicate, if_pos (by omega)]
  rfl

/-- After `2 ^ 32` tuples it holds one too many. -/
theorem window_not_last : ∃ w es,
    winbufOps.run (newWinbuf unusedTuples 1) (List.replicate (2 ^ 32) (some 7)) = .ok w ∧
      w.Holds es ∧ es ≠ lastPositions 1 (List.replicate (2 ^ 32) (some 7)) :=
  oneTuple_run (2 ^ 32) ⟨Nat.le_refl _, by decide⟩

end StreamMill.Window
