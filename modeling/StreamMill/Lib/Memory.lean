import Mathlib.Algebra.Order.Ring.Nat
import Mathlib.Data.List.Basic

/-!
# StreamMill.Lib.Memory

Buffers. A memory is a function from offsets to bytes; `store` copies a list of bytes into it and
`load` reads one back. `Holds m off cells` says that the cells lie one after the other from `off`:
`holds_iff` turns it into one `load`, `Holds.store` overwrites one cell and `Holds.snoc` adds one
at the end. `storeAll` is a list of stores, in order.
-/

namespace StreamMill.Lib

universe u

abbrev Memory (β : Type u) := Nat → β

variable {β : Type u}

namespace Memory

/-- `memcpy(m + off, bs, bs.length)` -/
def store (m : Memory β) (off : Nat) (bs : List β) : Memory β := fun i =>
  if i < off then m i else (bs[i - off]?).getD (m i)

def load (m : Memory β) : Nat → Nat → List β
  | _, 0 => []
  | off, n + 1 => m off :: load m (off + 1) n

def storeAll (m : Memory β) (ws : List (Nat × List β)) : Memory β :=
  ws.foldl (fun m w => m.store w.1 w.2) m

end Memory

open Memory

variable {m m' : Memory β}

theorem load_succ (m : Memory β) (off n : Nat) :
    load m off (n + 1) = m off :: load m (off + 1) n := rfl

@[simp] theorem load_length (m : Memory β) (off n : Nat) : (load m off n).length = n := by
  induction n generalizing off with
  | zero => rfl
  | succ n ih => simp [load_succ, ih]

theorem load_append (m : Memory β) (off a b : Nat) :
    load m off (a + b) = load m off a ++ load m (off + a) b := by
  induction a generalizing off with
  | zero =>
    rw [Nat.zero_add]
    rfl
  | succ a ih =>
    rw [show a + 1 + b = (a + b) + 1 by omega]
    rw [load_succ, load_succ, List.cons_append, ih, show off + 1 + a = off + (a + 1) by omega]

variable {i n off : Nat} {bs : List β} {ws : List (Nat × List β)}

theorem load_getElem? (m : Memory β) (h : i < n) :
    (load m off n)[i]? = some (m (off + i)) := by
  induction n generalizing off i with
  | zero => omega
  | succ n ih =>
    cases i with
    | zero => rfl
    | succ i =>
      rw [load_succ, List.getElem?_cons_succ, ih (by omega), show off + 1 + i = off + (i + 1) by omega]

theorem load_const (b : β) (off n : Nat) : load (fun _ => b) off n = List.replicate n b := by
  induction n generalizing off with
  | zero => rfl
  | succ n ih => rw [load_succ, ih, List.replicate_succ]

theorem load_congr (h : ∀ i, off ≤ i → i < off + n → m i = m' i) :
    load m off n = load m' off n := by
  induction n generalizing off with
  | zero => rfl
  | succ n ih =>
    rw [load_succ, load_succ, h off (Nat.le_refl _) (by omega), ih fun i h1 h2 => h i (by omega) (by omega)]

theorem store_outside (h : i < off ∨ off + bs.length ≤ i) :
    store m off bs i = m i := by
  unfold store
  rcases h with h | h
  · rw [if_pos h]
  · rw [if_neg (by omega), List.getElem?_eq_none (by omega)]
    rfl

theorem store_inside {b : β} (h : off ≤ i) (hb : bs[i - off]? = some b) : store m off bs i = b := by
  unfold store
  rw [if_neg (by omega), hb]
  rfl

theorem store_store (m : Memory β) (off : Nat) (a b : List β) :
    store (store m off a) off b = store m off (b ++ a.drop b.length) := by
  funext i
  unfold store
  by_cases hi : i < off
  · rw [if_pos hi, if_pos hi, if_pos hi]
  · rw [if_neg hi, if_neg hi, if_neg hi]
    by_cases hb : i - off < b.length
    · rw [List.getElem?_append_left hb, List.getElem?_eq_getElem hb]
      rfl
    · rw [List.getElem?_append_right (by omega), List.getElem?_drop,
        List.getElem?_eq_none (by omega), show b.length + (i - off - b.length) = i - off by omega]
      rfl

theorem load_store_same (m : Memory β) (off : Nat) (bs : List β) :
    load (store m off bs) off bs.length = bs := by
  apply List.ext_getElem?
  intro i
  by_cases hi : i < bs.length
  · rw [load_getElem? _ hi, List.getElem?_eq_getElem hi]
    congr 1
    apply store_inside (by omega)
    rw [Nat.add_sub_cancel_left, List.getElem?_eq_getElem hi]
  · rw [List.getElem?_eq_none (by rw [load_length]; omega), List.getElem?_eq_none (by omega)]

theorem load_store_other {pos : Nat} (h : off + n ≤ pos ∨ pos + bs.length ≤ off) :
    load (store m pos bs) off n = load m off n := by
  apply load_congr
  intro i h1 h2
  exact store_outside (by omega)

/-! Cells one after the other. -/

/-- The cells lie one after the other from `off`. -/
def Holds (m : Memory β) : Nat → List (List β) → Prop
  | _, [] => True
  | off, c :: cs => load m off c.length = c ∧ Holds m (off + c.length) cs

def cellOff (cs : List (List β)) (i : Nat) : Nat := (cs.take i).flatten.length

variable {cs : List (List β)} {c v : List β} {off : Nat}

theorem holds_iff : Holds m off cs ↔ load m off cs.flatten.length = cs.flatten := by
  induction cs generalizing off with
  | nil => simp [Holds, List.flatten_nil, List.length_nil, load]
  | cons c cs ih =>
    rw [List.flatten_cons, List.length_append, load_append]
    constructor
    · rintro ⟨hc, hcs⟩
      rw [hc, ih.mp hcs]
    · intro h
      obtain ⟨hc, hcs⟩ := List.append_inj h (load_length _ _ _)
      exact ⟨hc, ih.mpr hcs⟩

theorem Holds.congr (h : Holds m off cs)
    (heq : ∀ i, off ≤ i → i < off + cs.flatten.length → m i = m' i) : Holds m' off cs := by
  rw [holds_iff] at h ⊢
  rw [← load_congr heq, h]

theorem holds_append {ds : List (List β)} :
    Holds m off (cs ++ ds) ↔ Holds m off cs ∧ Holds m (off + cs.flatten.length) ds := by
  induction cs generalizing off with
  | nil => simp [List.nil_append, Holds, List.flatten_nil, List.length_nil,
      true_and]
  | cons c cs ih =>
    simp only [List.cons_append, Holds, List.flatten_cons, List.length_append]
    rw [ih, and_assoc, Nat.add_assoc]

theorem Holds.snoc (h : Holds m off cs) (c : List β) :
    Holds (store m (off + cs.flatten.length) c) off (cs ++ [c]) := by
  rw [holds_append]
  constructor
  · apply h.congr
    intro i _ hi
    exact (store_outside (Or.inl hi)).symm
  · exact ⟨load_store_same _ _ _, trivial⟩

theorem cellOff_cons_succ (c : List β) (cs : List (List β)) (i : Nat) :
    cellOff (c :: cs) (i + 1) = c.length + cellOff cs i := by
  simp [cellOff, List.take_succ_cons, List.flatten_cons, List.length_append]

theorem Holds.store (h : Holds m off cs) (hc : cs[i]? = some c) (hv : v.length = c.length) :
    Holds (store m (off + cellOff cs i) v) off (cs.set i v) := by
  induction cs generalizing off i with
  | nil => simp only [List.getElem?_nil, reduceCtorEq] at hc
  | cons d cs ih =>
    obtain ⟨hd, hcs⟩ := h
    cases i with
    | zero =>
      obtain rfl : d = c := by simpa only [List.getElem?_cons_zero, Option.some.injEq] using hc
      have hz : cellOff (d :: cs) 0 = 0 := rfl
      constructor
      · exact load_store_same _ _ _
      · rw [hv]
        apply hcs.congr
        intro i h1 _
        exact (store_outside (Or.inr (by omega))).symm
    | succ i =>
      rw [cellOff_cons_succ]
      constructor
      · rw [load_store_other (Or.inl (by omega))]
        exact hd
      · rw [show off + (d.length + cellOff cs i) = (off + d.length) + cellOff cs i by omega]
        exact ih hcs hc

theorem cellOff_set (hc : cs[i]? = some c) (hv : v.length = c.length) (j : Nat) :
    cellOff (cs.set i v) j = cellOff cs j := by
  induction cs generalizing i j with
  | nil => rfl
  | cons d cs ih =>
    cases j with
    | zero => rfl
    | succ j =>
      cases i with
      | zero =>
        obtain rfl : d = c := by simpa only [List.getElem?_cons_zero, Option.some.injEq] using hc
        rw [List.set_cons_zero, cellOff_cons_succ, cellOff_cons_succ, hv]
      | succ i =>
        rw [List.set_cons_succ, cellOff_cons_succ, cellOff_cons_succ, ih hc]

theorem flatten_getElem? {cell : List β} {k : Nat} (hc : cs[i]? = some cell) (hk : k < cell.length) :
    cs.flatten[cellOff cs i + k]? = cell[k]? := by
  induction cs generalizing i with
  | nil => simp only [List.getElem?_nil, reduceCtorEq] at hc
  | cons d cs ih =>
    cases i with
    | zero =>
      obtain rfl : d = cell := by simpa only [List.getElem?_cons_zero, Option.some.injEq] using hc
      have hz : cellOff (d :: cs) 0 = 0 := rfl
      rw [hz, Nat.zero_add, List.flatten_cons, List.getElem?_append_left hk]
    | succ i =>
      rw [cellOff_cons_succ, List.flatten_cons, List.getElem?_append_right (by omega)]
      rw [show d.length + cellOff cs i + k - d.length = cellOff cs i + k by omega]
      exact ih hc

/-! Lists of stores. -/

def setAll (cs : List (List β)) (ws : List (Nat × List β)) : List (List β) :=
  ws.foldl (fun cs w => cs.set w.1 w.2) cs

theorem setAll_cons (cs : List (List β)) (w : Nat × List β) (ws : List (Nat × List β)) :
    setAll cs (w :: ws) = setAll (cs.set w.1 w.2) ws := rfl

theorem storeAll_cons (m : Memory β) (w : Nat × List β) (ws : List (Nat × List β)) :
    storeAll m (w :: ws) = storeAll (store m w.1 w.2) ws := rfl

theorem storeAll_append (m : Memory β) (ws us : List (Nat × List β)) :
    storeAll m (ws ++ us) = storeAll (storeAll m ws) us := List.foldl_append

theorem store_nil (m : Memory β) (off : Nat) : store m off [] = m := by
  funext i
  exact store_outside (by simp only [List.length_nil]; omega)

theorem storeAll_map_congr {α : Type u} {f g : α → Nat × List β} {l : List α}
    (h : ∀ a ∈ l, ∀ m : Memory β, m.store (f a).1 (f a).2 = m.store (g a).1 (g a).2)
    (m : Memory β) : storeAll m (l.map f) = storeAll m (l.map g) := by
  induction l generalizing m with
  | nil => rfl
  | cons a l ih =>
    rw [List.map_cons, storeAll_cons, h a (List.mem_cons_self ..)]
    exact ih (fun b hb => h b (List.mem_cons_of_mem _ hb)) _

theorem setAll_getElem? {g : Nat → List β} (hg : ∀ w ∈ ws, w.2 = g w.1) (hc : cs[i]? = some c) :
    (setAll cs ws)[i]? = some (if i ∈ ws.map Prod.fst then g i else c) := by
  induction ws generalizing cs c with
  | nil => exact hc
  | cons w ws ih =>
    have hrest : ∀ w' ∈ ws, w'.2 = g w'.1 := fun w' hw' => hg w' (List.mem_cons_of_mem _ hw')
    rw [setAll_cons, hg w (List.mem_cons_self ..)]
    by_cases hi : i = w.1
    · have hnew : (cs.set w.1 (g w.1))[i]? = some (g i) := by
        rw [hi] at hc ⊢
        exact List.getElem?_set_self (List.getElem?_eq_some_iff.mp hc).1
      rw [ih hrest hnew, ite_self, if_pos]
      rw [List.map_cons, List.mem_cons]
      exact Or.inl hi
    · have hold : (cs.set w.1 (g w.1))[i]? = some c := by
        rw [List.getElem?_set_ne (fun h => hi h.symm)]
        exact hc
      rw [ih hrest hold]
      simp only [List.map_cons, List.mem_cons, hi, false_or]

theorem setAll_left (h : ∀ w ∈ ws, w.1 < cs.length) (ds : List (List β)) :
    setAll (cs ++ ds) ws = setAll cs ws ++ ds := by
  induction ws generalizing cs with
  | nil => rfl
  | cons w ws ih =>
    rw [setAll_cons, List.set_append_left _ _ (h w (List.mem_cons_self ..))]
    apply ih
    intro w' hw'
    rw [List.length_set]
    exact h w' (List.mem_cons_of_mem _ hw')

theorem setAll_right (cs ds : List (List β)) (ws : List (Nat × List β)) :
    setAll (cs ++ ds) (ws.map fun w => (cs.length + w.1, w.2)) = cs ++ setAll ds ws := by
  induction ws generalizing ds with
  | nil => rfl
  | cons w ws ih =>
    rw [List.map_cons, setAll_cons, List.set_append_right _ _ (Nat.le_add_right _ _),
      Nat.add_sub_cancel_left]
    exact ih _

theorem cellOff_left (h : i ≤ cs.length) (ds : List (List β)) :
    cellOff (cs ++ ds) i = cellOff cs i := by
  unfold cellOff
  rw [List.take_append_of_le_length h]

theorem cellOff_right (cs ds : List (List β)) (i : Nat) :
    cellOff (cs ++ ds) (cs.length + i) = cs.flatten.length + cellOff ds i := by
  unfold cellOff
  rw [List.take_length_add_append, List.flatten_append, List.length_append]

def FitsAll (cs : List (List β)) (ws : List (Nat × List β)) : Prop :=
  ∀ w ∈ ws, ∃ c, cs[w.1]? = some c ∧ w.2.length = c.length

theorem FitsAll.set (h : FitsAll cs ws) (hc : cs[i]? = some c) (hv : v.length = c.length) :
    FitsAll (cs.set i v) ws := by
  intro w hw
  obtain ⟨d, hd, hlen⟩ := h w hw
  by_cases hi : i = w.1
  · subst hi
    rw [hc] at hd
    cases hd
    refine ⟨v, List.getElem?_set_self ?_, hlen.trans hv.symm⟩
    exact (List.getElem?_eq_some_iff.mp hc).1
  · exact ⟨d, by rw [List.getElem?_set_ne hi]; exact hd, hlen⟩

theorem Holds.storeAll (h : Holds m off cs) (hf : FitsAll cs ws) :
    Holds (storeAll m (ws.map fun w => (off + cellOff cs w.1, w.2))) off (setAll cs ws) := by
  induction ws generalizing m cs with
  | nil => exact h
  | cons w ws ih =>
    obtain ⟨c, hc, hv⟩ := hf w (List.mem_cons_self ..)
    have hrest := (FitsAll.set (fun w' hw' => hf w' (List.mem_cons_of_mem _ hw')) hc hv)
    have hstep := ih (h.store hc hv) hrest
    rw [List.map_cons, storeAll_cons, setAll_cons]
    simpa only [cellOff_set hc hv] using hstep

theorem set_flatten_length (hc : cs[i]? = some c) (hv : v.length = c.length) :
    (cs.set i v).flatten.length = cs.flatten.length := by
  have h := cellOff_set hc hv cs.length
  unfold cellOff at h
  rw [List.take_of_length_le (by rw [List.length_set]), List.take_length] at h
  exact h

theorem setAll_flatten_length (hf : FitsAll cs ws) :
    (setAll cs ws).flatten.length = cs.flatten.length := by
  induction ws generalizing cs with
  | nil => rfl
  | cons w ws ih =>
    obtain ⟨c, hc, hv⟩ := hf w (List.mem_cons_self ..)
    rw [setAll_cons, ih (FitsAll.set (fun w' hw' => hf w' (List.mem_cons_of_mem _ hw')) hc hv),
      set_flatten_length hc hv]

theorem load_storeAll (h : load m 0 cs.flatten.length = cs.flatten) (hf : FitsAll cs ws) :
    load (m.storeAll (ws.map fun w => (cellOff cs w.1, w.2))) 0 cs.flatten.length =
      (setAll cs ws).flatten := by
  have hall := holds_iff.mp ((holds_iff.mpr h).storeAll hf)
  simp only [Nat.zero_add] at hall
  rw [setAll_flatten_length hf] at hall
  exact hall

theorem storeAll_byte (P : β → Prop) (h0 : P (m i))
    (hw : ∀ w ∈ ws, ∀ b, w.1 ≤ i → w.2[i - w.1]? = some b → P b) : P (storeAll m ws i) := by
  induction ws generalizing m with
  | nil => exact h0
  | cons w ws ih =>
    apply ih
    · show P (if i < w.1 then m i else (w.2[i - w.1]?).getD (m i))
      split
      · exact h0
      · cases hb : w.2[i - w.1]? with
        | none => exact h0
        | some b => exact hw w (List.mem_cons_self ..) b (by omega) hb
    · intro w' hw'
      exact hw w' (List.mem_cons_of_mem _ hw')

theorem storeAll_reached (P : β → Prop) (hin : ∃ w ∈ ws, w.1 ≤ i ∧ i < w.1 + w.2.length)
    (hw : ∀ w ∈ ws, ∀ b, w.1 ≤ i → w.2[i - w.1]? = some b → P b) : P (storeAll m ws i) := by
  obtain ⟨w, hmem, hle, hlt⟩ := hin
  obtain ⟨us, vs, rfl⟩ := List.append_of_mem hmem
  rw [storeAll_append, storeAll_cons]
  apply storeAll_byte P
  · obtain ⟨b, hb⟩ : ∃ b, w.2[i - w.1]? = some b :=
      ⟨w.2[i - w.1], List.getElem?_eq_getElem (by omega)⟩
    rw [store_inside hle hb]
    exact hw w hmem b hle hb
  · intro w' hw'
    exact hw w' (List.mem_append_right _ (List.mem_cons_of_mem _ hw'))

theorem storeAll_outside (h : ∀ w ∈ ws, i < w.1 ∨ w.1 + w.2.length ≤ i) :
    storeAll m ws i = m i := by
  apply storeAll_byte (fun b => b = m i) rfl
  intro w hw b hle hb
  have hlt := (List.getElem?_eq_some_iff.mp hb).1
  have := h w hw
  omega

end StreamMill.Lib
