import Mathlib.Data.List.InsertIdx
import Mathlib.Logic.Function.Basic
import Mathlib.Tactic.Ring

/-!
# StreamMill.Sql.AList

`list.cc`: the growing array `A_list` that the parse trees are made of, next to the list it stands
for. `stepRight_iff` says, for each operation, when it does what the operation on lists does
without leaving the array; `runRight_iff` is the same for runs.
-/

namespace StreamMill.Sql

/-- `A_list_`; `none` is the null pointer. The cells are those at any distance from the start of
the array, `touched` are the ones an operation has read and written. -/
structure AList (α : Type) where
  elements : Int → Option α
  size : Nat
  length : Nat
  touched : List Int

namespace AList

variable {α : Type}

section Code

def new (memory : Int → Option α) : AList α where
  elements i := if 0 ≤ i ∧ i < 10 then none else memory i
  size := 10
  length := 0
  touched := []

def read (l : AList α) (i : Int) : AList α := { l with touched := i :: l.touched }

def write (l : AList α) (i : Int) (obj : Option α) : AList α :=
  { l with elements := Function.update l.elements i obj, touched := i :: l.touched }

/-- `elements[target] = elements[source]` -/
def move (l : AList α) (target source : Int) : AList α :=
  (l.read source).write target (l.elements source)

def newSize (l : AList α) : Nat := if l.size ≠ 0 then 2 * l.size else 1

/-- `ntRealloc` gives the memory of an array of so many cells, or fails. -/
abbrev Realloc (α : Type) := Nat → Option (Int → Option α)

variable (realloc : Realloc α)

def doubleSizeList (l : AList α) : Option (AList α) :=
  (realloc l.newSize).map fun memory =>
    { l with
      size := l.newSize
      elements := fun i => if 0 ≤ i ∧ i < l.size then l.elements i else memory i }

def getNthElementList (l : AList α) (position : Int) : Option α × AList α :=
  if position < l.length then (l.elements position, l.read position) else (none, l)

/-- `for (i = n; i > position; i--)` -/
def shiftUp (position : Int) : Nat → AList α → AList α
  | 0, l => l
  | i + 1, l => if position < i + 1 then shiftUp position i (l.move (i + 1) i) else l

/-- `n` passes of `for (j = i; ; j++)` -/
def shiftDown : Nat → Int → AList α → AList α
  | 0, _, l => l
  | n + 1, j, l => shiftDown n (j + 1) (l.move j (j + 1))

theorem size_lt (l : AList α) : l.size < l.newSize := by
  unfold newSize
  split <;> omega

theorem doubleSizeList_spec {realloc : Realloc α} {l l' : AList α}
    (h : l.doubleSizeList realloc = some l') : l'.size = l.newSize ∧ l'.length = l.length ∧
      l'.touched = l.touched ∧ ∀ i : Int, 0 ≤ i → i < l.size → l'.elements i = l.elements i := by
  obtain ⟨memory, -, rfl⟩ := Option.map_eq_some_iff.mp h
  exact ⟨rfl, rfl, rfl, fun i h0 hi => if_pos ⟨h0, hi⟩⟩

/-- Out of memory, the list stays as it is; `appendElementList` does not tell. -/
def insertElementList (l : AList α) (position : Int) (obj : Option α) : AList α :=
  if 0 ≤ position ∧ position ≤ l.length then
    if l.length < l.size then
      let l := (shiftUp position l.length l).write position obj
      { l with length := l.length + 1 }
    else
      match _h : l.doubleSizeList realloc with
      | some l' => l'.insertElementList position obj
      | none => l
  else l
  termination_by l.length + 1 - l.size
  decreasing_by
    obtain ⟨hsize, hlen, -, -⟩ := doubleSizeList_spec _h
    have := l.size_lt
    omega

def appendElementList (l : AList α) (obj : Option α) : AList α :=
  l.insertElementList realloc l.length obj

/-- `list->length--; list->elements[list->length] = 0;` -/
def dropLast (l : AList α) : AList α :=
  { l with length := l.length - 1 }.write (l.length - 1 : Nat) none

variable [DecidableEq α]

/-- `for (i = 0; i < length; i++) if (elements[i] == obj) break;` -/
def find (obj : Option α) : Nat → Nat → AList α → Nat × AList α
  | 0, i, l => (i, l)
  | n + 1, i, l => if l.elements i = obj then (i, l.read i) else find obj n (i + 1) (l.read i)

/-- The last pass reads `elements[length]`. -/
def removeElementList (l : AList α) (obj : Option α) : AList α :=
  let (i, l) := find obj l.length 0 l
  if i < l.length then (shiftDown (l.length - i) i l).dropLast else l

omit [DecidableEq α] in
def removeNthElementList (l : AList α) (position : Int) : Option α × AList α :=
  if 0 ≤ position ∧ position < l.length then
    (l.elements position,
      (shiftDown (l.length - 1 - position.toNat) position (l.read position)).dropLast)
  else (none, l)

omit [DecidableEq α] in
/-- Position `0` is left out. -/
def exchangeElementsList (l : AList α) (position1 position2 : Int) : AList α :=
  if 0 < position1 ∧ position1 < l.length ∧ 0 < position2 ∧ position2 < l.length then
    ((l.read position1).move position1 position2).write position2 (l.elements position1)
  else l

inductive Op (α : Type)
  | append (obj : Option α)
  | insert (position : Int) (obj : Option α)
  | remove (obj : Option α)
  | removeNth (position : Int)
  | exchange (position1 position2 : Int)
  | get (position : Int)

def step (l : AList α) : Op α → Option α × AList α
  | .append obj => (none, l.appendElementList realloc obj)
  | .insert position obj => (none, l.insertElementList realloc position obj)
  | .remove obj => (none, l.removeElementList obj)
  | .removeNth position => l.removeNthElementList position
  | .exchange position1 position2 => (none, l.exchangeElementsList position1 position2)
  | .get position => l.getNthElementList position

end Code

section Spec

def contents (l : AList α) : List (Option α) := (List.range l.length).map fun i : Nat => l.elements i

variable [DecidableEq α]

def Op.apply (xs : List (Option α)) : Op α → Option α × List (Option α)
  | .append obj => (none, xs ++ [obj])
  | .insert p obj => (none, if 0 ≤ p ∧ p ≤ xs.length then xs.insertIdx p.toNat obj else xs)
  | .remove obj => (none, xs.erase obj)
  | .removeNth p =>
    if 0 ≤ p ∧ p < xs.length then (xs.getD p.toNat none, xs.eraseIdx p.toNat) else (none, xs)
  | .exchange p q => (none,
    if 0 ≤ p ∧ p < xs.length ∧ 0 ≤ q ∧ q < xs.length then
      (xs.set p.toNat (xs.getD q.toNat none)).set q.toNat (xs.getD p.toNat none)
    else xs)
  | .get p => (if 0 ≤ p then xs.getD p.toNat none else none, xs)

variable (realloc : Realloc α)

/-- The operation does what it does to the sequence `xs`, and stays in the array: among the cells
of the list before it or after it. -/
structure StepRight (l : AList α) (xs : List (Option α)) (op : Op α) : Prop where
  result : (step realloc { l with touched := [] } op).1 = (op.apply xs).1
  contents : (step realloc { l with touched := [] } op).2.contents = (op.apply xs).2
  capacity : (step realloc { l with touched := [] } op).2.length ≤
    (step realloc { l with touched := [] } op).2.size
  inside : ∀ i ∈ (step realloc { l with touched := [] } op).2.touched,
    0 ≤ i ∧ i < max l.length (step realloc { l with touched := [] } op).2.length

def RunRight : AList α → List (Option α) → List (Op α) → Prop
  | _, _, [] => True
  | l, xs, op :: ops => StepRight realloc l xs op ∧
    RunRight (step realloc { l with touched := [] } op).2 (op.apply xs).2 ops

omit [DecidableEq α] in
def Room (l : AList α) : Prop := l.length < l.size ∨ (realloc l.newSize).isSome

def Meets (l : AList α) : Op α → Prop
  | .append _ => l.Room realloc
  | .insert p _ => 0 ≤ p ∧ p ≤ l.length → l.Room realloc
  | .remove obj => obj ∉ l.contents
  | .removeNth _ => True
  | .exchange p q => 0 ≤ p ∧ p < l.length ∧ 0 ≤ q ∧ q < l.length → p = 0 ∨ q = 0 →
    l.elements p = l.elements q
  | .get p => 0 ≤ p

/-- Every operation of a run meets its condition. -/
def AllMeet : AList α → List (Op α) → Prop
  | _, [] => True
  | l, op :: ops => l.Meets realloc op ∧ AllMeet (step realloc { l with touched := [] } op).2 ops

end Spec

section Shifts

variable {l : AList α} {p j : Int} {n : Nat}

/-- `l'` differs from `l` in its cells, and touches only cells from `a` to `b` on the way. -/
structure Within (a b : Int) (l l' : AList α) : Prop where
  size : l'.size = l.size
  length : l'.length = l.length
  touched : ∀ i ∈ l'.touched, i ∈ l.touched ∨ a ≤ i ∧ i ≤ b

theorem shiftUp_within : Within p n l (shiftUp p n l) := by
  induction n generalizing l with
  | zero => exact ⟨rfl, rfl, fun i hi => .inl hi⟩
  | succ n ih =>
    rw [shiftUp]
    split
    · have h := ih (l := l.move (n + 1) n)
      refine ⟨h.size, h.length, fun i hi => ?_⟩
      have hi := h.touched i hi
      simp only [move, write, read, List.mem_cons] at hi
      rcases hi with (rfl | rfl | hi) | hi
      · exact .inr (by omega)
      · exact .inr (by omega)
      · exact .inl hi
      · exact .inr (by omega)
    · exact ⟨rfl, rfl, fun i hi => .inl hi⟩

theorem shiftUp_elements (hp : 0 ≤ p) (k : Int) : (shiftUp p n l).elements k =
    if p < k ∧ k ≤ n then l.elements (k - 1) else l.elements k := by
  induction n generalizing l with
  | zero => rw [shiftUp, if_neg (by omega)]
  | succ n ih =>
    rw [shiftUp]
    split
    · rw [ih]
      simp only [move, write, read, Function.update_apply]
      grind
    · rw [if_neg (by omega)]

theorem shiftDown_within : Within j (j + n) l (shiftDown n j l) := by
  induction n generalizing l j with
  | zero => exact ⟨rfl, rfl, fun i hi => .inl hi⟩
  | succ n ih =>
    have h := ih (l := l.move j (j + 1)) (j := j + 1)
    refine ⟨h.size, h.length, fun i hi => ?_⟩
    have hi := h.touched i hi
    simp only [move, write, read, List.mem_cons] at hi
    rcases hi with (rfl | rfl | hi) | hi
    · exact .inr (by omega)
    · exact .inr (by omega)
    · exact .inl hi
    · exact .inr (by omega)

theorem shiftDown_elements (k : Int) : (shiftDown n j l).elements k =
    if j ≤ k ∧ k < j + n then l.elements (k + 1) else l.elements k := by
  induction n generalizing l j with
  | zero => rw [shiftDown, if_neg (by omega)]
  | succ n ih =>
    rw [shiftDown]
    simp only [move, write, read]
    grind

end Shifts

variable {l l' : AList α} {p : Int} {obj : Option α} {realloc : Realloc α}

@[simp] theorem contents_length (l : AList α) : l.contents.length = l.length := by
  simp [contents]

theorem contents_getElem? (l : AList α) (k : Nat) :
    l.contents[k]? = if k < l.length then some (l.elements k) else none := by
  rw [contents, List.getElem?_map]
  split
  · rw [List.getElem?_range ‹_›]
    rfl
  · rw [List.getElem?_eq_none (by simpa using Nat.le_of_not_lt ‹_›)]
    rfl

theorem getD_contents (hp : 0 ≤ p) (hlt : p < l.length) :
    l.contents.getD p.toNat none = l.elements p := by
  rw [List.getD_eq_getElem?_getD, contents_getElem?, if_pos (by omega), Int.toNat_of_nonneg hp]
  rfl

theorem contents_congr (hlen : l'.length = l.length)
    (h : ∀ k : Nat, k < l.length → l'.elements k = l.elements k) : l'.contents = l.contents := by
  apply List.ext_getElem?
  intro k
  rw [contents_getElem?, contents_getElem?, hlen]
  split
  · rw [h k ‹_›]
  · rfl

structure Goes (l l' : AList α) (xs : List (Option α)) : Prop where
  contents : l'.contents = xs
  capacity : l'.length ≤ l'.size
  inside : ∀ i ∈ l'.touched, 0 ≤ i ∧ i < max l.length l'.length

theorem insert_room (h : l.length < l.size) (hp : 0 ≤ p ∧ p ≤ l.length) (hl : l.touched = []) :
    Goes l (l.insertElementList realloc p obj) (l.contents.insertIdx p.toNat obj) := by
  have hup := shiftUp_within (p := p) (n := l.length) (l := l)
  rw [insertElementList, if_pos hp, if_pos h]
  refine ⟨?_, ?_, fun i hi => ?_⟩
  · apply List.ext_getElem?
    intro k
    rw [List.getElem?_insertIdx]
    simp only [write, hup.length, Function.update_apply, shiftUp_elements hp.1, contents_getElem?,
      contents_length]
    grind
  · simp only [write, hup.length, hup.size]
    omega
  · simp only [write, hup.length, List.mem_cons] at hi ⊢
    rcases hi with rfl | hi
    · omega
    · have := hup.touched i hi
      rw [hl] at this
      simp only [List.not_mem_nil, false_or] at this
      omega

/-- `insertElementList` inserts if and only if there is room, or the position is no position. -/
theorem insert_iff (hcap : l.length ≤ l.size) (hl : l.touched = []) :
    Goes l (l.insertElementList realloc p obj)
      (if 0 ≤ p ∧ p ≤ l.length then l.contents.insertIdx p.toNat obj else l.contents) ↔
      (0 ≤ p ∧ p ≤ l.length → l.Room realloc) := by
  by_cases hp : 0 ≤ p ∧ p ≤ l.length
  · rw [if_pos hp]
    constructor
    · intro hgoes _
      by_contra hfull
      obtain ⟨hfull, hno⟩ := not_or.mp hfull
      rw [Option.not_isSome_iff_eq_none] at hno
      have hsame : l.insertElementList realloc p obj = l := by
        rw [insertElementList, if_pos hp, if_neg hfull]
        split
        · rename_i hsome
          simp [doubleSizeList, hno] at hsome
        · rfl
      have hlen := congrArg List.length hgoes.contents
      rw [hsame, List.length_insertIdx_of_le_length (by simp; omega)] at hlen
      simp at hlen
    · intro hroom
      by_cases h : l.length < l.size
      · exact insert_room h hp hl
      · obtain ⟨memory, hm⟩ := Option.isSome_iff_exists.mp ((hroom hp).resolve_left h)
        obtain ⟨l', hl'⟩ : ∃ l', l.doubleSizeList realloc = some l' := by
          simp [doubleSizeList, hm]
        have hinsert : l.insertElementList realloc p obj = l'.insertElementList realloc p obj := by
          rw [insertElementList, if_pos hp, if_neg h]
          split
          · rename_i hsome
            rw [hl'] at hsome
            rw [Option.some.inj hsome]
          · rename_i hnone
            simp [hl'] at hnone
        obtain ⟨hsize, hlen, htouched, hcells⟩ := doubleSizeList_spec hl'
        have hlt := l.size_lt
        have hgoes := @insert_room α l' p obj realloc (by omega) (by omega) (htouched.trans hl)
        have hcontents : l'.contents = l.contents := by
          apply contents_congr hlen
          intro k hk
          exact hcells k (by omega) (by omega)
        rw [hcontents] at hgoes
        rw [hinsert]
        exact ⟨hgoes.contents, hgoes.capacity, hlen ▸ hgoes.inside⟩
  · rw [if_neg hp, insertElementList, if_neg hp]
    exact iff_of_true ⟨rfl, hcap, by simp [hl]⟩ fun h => absurd h hp

theorem dropLast_goes (hcap : l.length ≤ l.size) (hp : 0 ≤ p ∧ p < l.length)
    (hsize : l'.size = l.size) (hlen : l'.length = l.length)
    (hcells : ∀ k : Nat, l'.elements k =
      if p ≤ k ∧ (k : Int) < l.length - 1 then l.elements (k + 1) else l.elements k) :
    l'.dropLast.contents = l.contents.eraseIdx p.toNat ∧ l'.dropLast.length ≤ l'.dropLast.size := by
  constructor
  · apply List.ext_getElem?
    intro k
    rw [List.getElem?_eraseIdx]
    simp only [dropLast, write, hlen, Function.update_apply, contents_getElem?]
    grind
  · simp only [dropLast, write, hlen, hsize]
    omega

theorem removeNth_goes (hcap : l.length ≤ l.size) (hl : l.touched = [])
    (hp : 0 ≤ p ∧ p < l.length) :
    Goes l (l.removeNthElementList p).2 (l.contents.eraseIdx p.toNat) := by
  have hdown := shiftDown_within (l := l.read p) (j := p) (n := l.length - 1 - p.toNat)
  have hdrop := @dropLast_goes α l (shiftDown (l.length - 1 - p.toNat) p (l.read p)) p hcap hp
    hdown.size hdown.length (by
      intro k
      rw [shiftDown_elements]
      simp only [read]
      grind)
  rw [removeNthElementList, if_pos hp]
  refine ⟨hdrop.1, hdrop.2, fun i hi => ?_⟩
  simp only [dropLast, write, hdown.length, List.mem_cons] at hi ⊢
  simp only [read] at hi ⊢
  rcases hi with rfl | hi
  · omega
  · have := hdown.touched i hi
    simp only [read, hl, List.mem_cons, List.not_mem_nil, or_false] at this
    omega

theorem shiftDown_last {n : Nat} {j : Int} (hn : 0 < n) :
    j + n ∈ (shiftDown n j l).touched := by
  induction n generalizing l j with
  | zero => omega
  | succ n ih =>
    cases n with
    | zero => simp [shiftDown, move, write, read]
    | succ n =>
      have := ih (l := l.move j (j + 1)) (j := j + 1) (Nat.succ_pos n)
      rw [shiftDown]
      convert this using 1
      push_cast
      ring

variable [DecidableEq α]

theorem find_spec (n i : Nat) (l : AList α) : ∃ j ts, find obj n i l = (j, { l with touched := ts }) ∧
    (∀ k : Nat, i ≤ k → k < j → l.elements k ≠ obj) ∧ j ≤ i + n ∧
    (j < i + n → l.elements j = obj) ∧ ∀ t ∈ ts, t ∈ l.touched ∨ 0 ≤ t ∧ t < i + n := by
  induction n generalizing i l with
  | zero => exact ⟨i, l.touched, rfl, by omega, le_refl _, by omega, fun t ht => .inl ht⟩
  | succ n ih =>
    rw [find]
    split
    · rename_i hfound
      refine ⟨i, i :: l.touched, rfl, by omega, by omega, fun _ => hfound, fun t ht => ?_⟩
      rcases List.mem_cons.mp ht with rfl | ht
      · exact .inr (by omega)
      · exact .inl ht
    · rename_i hnot
      obtain ⟨j, ts, hfind, hbefore, hle, hat, htouched⟩ := ih (i + 1) (l.read i)
      refine ⟨j, ts, hfind, fun k hik hkj => ?_, by omega, fun h => hat (by omega), fun t ht => ?_⟩
      · rcases Nat.eq_or_lt_of_le hik with rfl | hik
        · exact hnot
        · exact hbefore k hik hkj
      · rcases htouched t ht with ht | ht
        · rcases List.mem_cons.mp ht with rfl | ht
          · exact .inr (by omega)
          · exact .inl ht
        · exact .inr (by omega)

omit [DecidableEq α] in
theorem mem_contents : obj ∈ l.contents ↔ ∃ k : Nat, k < l.length ∧ l.elements k = obj := by
  simp [contents]

theorem remove_iff (hcap : l.length ≤ l.size) (hl : l.touched = []) :
    Goes l (l.removeElementList obj) (l.contents.erase obj) ↔ obj ∉ l.contents := by
  obtain ⟨j, ts, hfind, hbefore, hle, hat, htouched⟩ := @find_spec α obj _ l.length 0 l
  simp only [Nat.zero_add] at hle hat
  unfold removeElementList
  rw [hfind]
  dsimp only
  by_cases hlt : j < l.length
  · rw [if_pos hlt]
    refine iff_of_false (fun hgoes => ?_) (not_not.mpr (mem_contents.mpr ⟨j, hlt, hat hlt⟩))
    have hlast := @shiftDown_last α { l with touched := ts } (l.length - j) j (by omega)
    have hdown := @shiftDown_within α { l with touched := ts } j (l.length - j)
    have hin := hgoes.inside _ (List.mem_cons_of_mem _ hlast)
    simp only [dropLast, write, hdown.length] at hin
    omega
  · have habsent : obj ∉ l.contents := by
      rw [mem_contents]
      rintro ⟨k, hk, hobj⟩
      exact hbefore k (Nat.zero_le k) (by omega) hobj
    rw [if_neg hlt, List.erase_of_not_mem habsent]
    refine iff_of_true ⟨rfl, hcap, fun t ht => ?_⟩ habsent
    have := htouched t ht
    simp only [hl, List.not_mem_nil, false_or] at this
    omega

omit [DecidableEq α] in
theorem exchange_iff {p q : Int} (hcap : l.length ≤ l.size) (hl : l.touched = []) :
    Goes l (l.exchangeElementsList p q)
      (if 0 ≤ p ∧ p < l.length ∧ 0 ≤ q ∧ q < l.length then
        (l.contents.set p.toNat (l.contents.getD q.toNat none)).set q.toNat
          (l.contents.getD p.toNat none)
      else l.contents) ↔
      (0 ≤ p ∧ p < l.length ∧ 0 ≤ q ∧ q < l.length → p = 0 ∨ q = 0 →
        l.elements p = l.elements q) := by
  by_cases hin : 0 ≤ p ∧ p < l.length ∧ 0 ≤ q ∧ q < l.length
  · rw [if_pos hin, getD_contents hin.1 hin.2.1, getD_contents hin.2.2.1 hin.2.2.2]
    by_cases hpos : 0 < p ∧ 0 < q
    · rw [exchangeElementsList, if_pos (by omega)]
      refine iff_of_true ⟨?_, hcap, ?_⟩ fun _ h => by omega
      · apply List.ext_getElem?
        intro k
        simp only [contents_getElem?, List.getElem?_set, move, write, read, Function.update_apply,
          List.length_set, contents_length]
        grind
      · simp only [move, write, read, hl]
        grind
    · rw [exchangeElementsList, if_neg (by omega)]
      constructor
      · intro hgoes _ _
        have h := congrArg (·[q.toNat]?) hgoes.contents
        simp only [contents_getElem?, List.getElem?_set, List.length_set, contents_length] at h
        grind
      · intro h
        refine ⟨?_, hcap, by simp [hl]⟩
        have heq := h hin (by omega)
        apply List.ext_getElem?
        intro k
        simp only [contents_getElem?, List.getElem?_set, List.length_set, contents_length]
        grind
  · rw [if_neg hin, exchangeElementsList, if_neg (by omega)]
    exact iff_of_true ⟨rfl, hcap, by simp [hl]⟩ fun h => absurd h hin

omit [DecidableEq α] in
theorem get_iff {p : Int} (hcap : l.length ≤ l.size) (hl : l.touched = []) :
    (l.getNthElementList p).1 = (if 0 ≤ p then l.contents.getD p.toNat none else none) ∧
      Goes l (l.getNthElementList p).2 l.contents ↔ 0 ≤ p := by
  unfold getNthElementList
  by_cases hp : 0 ≤ p
  · refine iff_of_true ?_ hp
    rw [if_pos hp]
    split
    · rename_i hlt
      refine ⟨(getD_contents hp hlt).symm, rfl, hcap, ?_⟩
      simp only [read, hl, List.mem_cons, List.not_mem_nil, or_false]
      omega
    · refine ⟨?_, rfl, hcap, by simp [hl]⟩
      rw [List.getD_eq_getElem?_getD, contents_getElem?, if_neg (by omega)]
      rfl
  · refine iff_of_false (fun h => ?_) hp
    rw [if_pos (by omega)] at h
    have := h.2.inside p (by simp [read])
    omega

theorem StepRight.iff_goes {op : Op α} {xs : List (Option α)} : StepRight realloc l xs op ↔
    (step realloc { l with touched := [] } op).1 = (op.apply xs).1 ∧
      Goes { l with touched := [] } (step realloc { l with touched := [] } op).2 (op.apply xs).2 :=
  ⟨fun h => ⟨h.result, h.contents, h.capacity, h.inside⟩,
    fun h => ⟨h.1, h.2.contents, h.2.capacity, h.2.inside⟩⟩

theorem stepRight_iff (hcap : l.length ≤ l.size) (op : Op α) :
    StepRight realloc l l.contents op ↔ l.Meets realloc op := by
  rw [StepRight.iff_goes]
  let l₀ : AList α := { l with touched := [] }
  have hlen : (l.contents.length : Int) = l.length := by simp
  cases op with
  | append obj =>
    have h := @insert_iff α l₀ l.length obj realloc hcap rfl
    rw [if_pos ⟨by omega, le_refl _⟩, Int.toNat_natCast,
      show l₀.contents.insertIdx l.length obj = l.contents ++ [obj] by
        rw [← l.contents_length]; exact List.insertIdx_length_self] at h
    exact ((and_iff_right rfl).trans h).trans ⟨fun h => h ⟨by omega, le_refl _⟩, fun h _ => h⟩
  | insert p obj =>
    have h := @insert_iff α l₀ p obj realloc hcap rfl
    simp only [Op.apply, hlen]
    exact (and_iff_right rfl).trans h
  | remove obj => exact (and_iff_right rfl).trans (@remove_iff α l₀ obj _ hcap rfl)
  | removeNth p =>
    simp only [Op.apply, hlen, step, Meets, iff_true]
    by_cases hp : 0 ≤ p ∧ p < l.length
    · rw [if_pos hp]
      refine ⟨?_, @removeNth_goes α l₀ p hcap rfl hp⟩
      rw [removeNthElementList, if_pos hp, getD_contents hp.1 hp.2]
    · rw [if_neg hp, removeNthElementList, if_neg hp]
      exact ⟨rfl, rfl, hcap, by simp⟩
  | exchange p q =>
    have h := @exchange_iff α l₀ p q hcap rfl
    simp only [Op.apply, hlen]
    exact (and_iff_right rfl).trans h
  | get p => exact @get_iff α l₀ p hcap rfl

/-- A run on a new list is right if and only if each of its operations is on its condition. -/
theorem runRight_iff (memory : Int → Option α) (realloc : Realloc α) (ops : List (Op α)) :
    RunRight realloc (new memory) [] ops ↔ AllMeet realloc (new memory) ops := by
  have hrun : ∀ (ops : List (Op α)) (l : AList α), l.length ≤ l.size →
      (RunRight realloc l l.contents ops ↔ AllMeet realloc l ops) := by
    intro ops
    induction ops with
    | nil => exact fun l _ => Iff.rfl
    | cons op ops ih =>
      intro l hcap
      simp only [RunRight, AllMeet]
      rw [← stepRight_iff hcap]
      constructor
      · rintro ⟨hright, hrest⟩
        rw [← hright.contents] at hrest
        exact ⟨hright, (ih _ hright.capacity).mp hrest⟩
      · rintro ⟨hright, hrest⟩
        refine ⟨hright, ?_⟩
        rw [← hright.contents]
        exact (ih _ hright.capacity).mpr hrest
  exact hrun ops (new memory) (Nat.zero_le _)

/-- `getLastElementList` of a new list. -/
theorem emptyLast_not_right :
    ¬ RunRight (fun _ => none) (new fun _ => (none : Option Nat)) [] [.get (-1)] := by
  intro h
  have := h.1.inside (-1) (by simp [step, getNthElementList, read, new])
  omega

end AList
end StreamMill.Sql
