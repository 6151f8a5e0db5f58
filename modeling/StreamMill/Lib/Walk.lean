import StreamMill.Lib.DList
import Mathlib.Data.List.Perm.Subperm
import Mathlib.Data.List.TakeWhile
import Mathlib.Logic.Function.Basic

/-!
# StreamMill.Lib.Walk

Loops that follow links. `Path step o xs` says that the walk from `o` with `step` visits exactly
`xs` and then stops. `walk` is the loop `while (o && skip(o)) o = step(o)`; `walk_path` says where
it stops. `visits` is what a loop over the whole list sees. A circular doubly linked list is walked
in both directions (`Seg.path`, `Seg.path_until`).
-/

namespace StreamMill.Lib

universe u v

variable {α : Type u}

def Path (step : α → Option α) : Option α → List α → Prop
  | o, [] => o = none
  | o, a :: xs => o = some a ∧ Path step (step a) xs

section Path

variable {step step' : α → Option α} {o : Option α} {xs ys : List α}

theorem Path.head (h : Path step o xs) : o = xs.head? := by
  cases xs with
  | nil => exact h
  | cons a xs => exact h.1

theorem Path.congr (h : Path step o xs) (heq : ∀ a ∈ xs, step' a = step a) :
    Path step' o xs := by
  induction xs generalizing o with
  | nil => exact h
  | cons a xs ih =>
    obtain ⟨ho, h⟩ := h
    refine ⟨ho, ?_⟩
    rw [heq a List.mem_cons_self]
    exact ih h fun b hb => heq b (List.mem_cons_of_mem _ hb)

theorem Path.unique (h : Path step o xs) (h' : Path step o ys) : xs = ys := by
  induction xs generalizing o ys with
  | nil =>
    cases ys with
    | nil => rfl
    | cons b ys => exact absurd (h.symm.trans h'.1) (by simp)
  | cons a xs ih =>
    cases ys with
    | nil => exact absurd (h.1.symm.trans h') (by simp)
    | cons b ys =>
      obtain ⟨ho, h⟩ := h
      obtain ⟨ho', h'⟩ := h'
      obtain rfl : a = b := Option.some.inj (ho.symm.trans ho')
      rw [ih h h']

theorem Path.insert {b c : α} (h : Path step o (xs ++ b :: ys)) (hb : step' b = some c)
    (hc : step' c = step b) (hxs : ∀ a ∈ xs, step' a = step a) (hys : ∀ a ∈ ys, step' a = step a) :
    Path step' o (xs ++ b :: c :: ys) := by
  induction xs generalizing o with
  | nil =>
    obtain ⟨ho, h⟩ := h
    refine ⟨ho, hb, ?_⟩
    rw [hc]
    exact h.congr hys
  | cons a xs ih =>
    obtain ⟨ho, h⟩ := h
    refine ⟨ho, ?_⟩
    rw [hxs a List.mem_cons_self]
    exact ih h fun d hd => hxs d (List.mem_cons_of_mem _ hd)

variable {a b : α}

theorem Path.suffix (h : Path step o (xs ++ a :: ys)) : Path step (step a) ys := by
  induction xs generalizing o with
  | nil => exact h.2
  | cons b xs ih => exact ih h.2

theorem Path.step_mem (h : Path step o xs) (ha : a ∈ xs) (hb : step a = some b) :
    b ∈ xs := by
  induction xs generalizing o with
  | nil => cases ha
  | cons c xs ih =>
    obtain ⟨-, h⟩ := h
    rcases List.mem_cons.mp ha with rfl | ha
    · have hhead := h.head
      rw [hb] at hhead
      exact List.mem_cons_of_mem _ (List.mem_of_head? hhead.symm)
    · exact List.mem_cons_of_mem _ (ih h ha)

theorem Path.bypass [DecidableEq α] (h : Path step o (xs ++ b :: a :: ys))
    (hnd : (xs ++ b :: a :: ys).Nodup) :
    Path (Function.update step b (step a)) o (xs ++ b :: ys) := by
  induction xs generalizing o with
  | nil =>
    obtain ⟨ho, -, h⟩ := h
    refine ⟨ho, ?_⟩
    rw [Function.update_self]
    refine h.congr fun c hc => Function.update_of_ne ?_ _ _
    rintro rfl
    exact (List.nodup_cons.mp hnd).1 (List.mem_cons_of_mem _ hc)
  | cons c xs ih =>
    obtain ⟨ho, h⟩ := h
    obtain ⟨hc, hnd⟩ := List.nodup_cons.mp hnd
    refine ⟨ho, ?_⟩
    rw [Function.update_of_ne fun he => hc (by simp [he])]
    exact ih h hnd

theorem Path.before [DecidableEq α] (h : Path step o (xs ++ b :: a :: ys))
    (hnd : (xs ++ b :: a :: ys).Nodup) :
    ((xs ++ b :: a :: ys).dropWhile fun c => (step c).isSome && step c ≠ some a).head? =
      some b := by
  induction xs generalizing o with
  | nil =>
    obtain ⟨-, h, -⟩ := h
    simp [h]
  | cons c xs ih =>
    obtain ⟨-, h⟩ := h
    obtain ⟨-, hnd⟩ := List.nodup_cons.mp hnd
    have hstep := h.head
    have hne : step c ≠ some a := by
      rw [hstep]
      cases xs with
      | nil =>
        intro he
        have he : b = a := Option.some.inj he
        exact (List.nodup_cons.mp hnd).1 (by simp [he])
      | cons d xs =>
        intro he
        have he : d = a := Option.some.inj he
        exact (List.nodup_cons.mp hnd).1 (by simp [he])
    have hsome : (step c).isSome = true := by
      rw [hstep]
      cases xs <;> rfl
    rw [List.cons_append, List.dropWhile_cons_of_pos (by simp [hsome, hne])]
    exact ih h hnd

end Path

/-- `while (o && skip(o)) o = step(o)`, with `e` for a loop that does not stop in time. -/
def walk {ε : Type v} (e : ε) (skip : α → Bool) (step : α → Option α) :
    Nat → Option α → Except ε (Option α)
  | _, none => .ok none
  | 0, some _ => .error e
  | fuel + 1, some a => if skip a then walk e skip step fuel (step a) else .ok (some a)

variable {n : Nat} {o : Option α} {step : α → Option α} {xs : List α} {skip : α → Bool}

theorem walk_path {ε : Type v} (e : ε) (skip : α → Bool) (h : Path step o xs)
    (hfuel : xs.length ≤ n) :
    walk e skip step n o = .ok (xs.dropWhile skip).head? := by
  induction xs generalizing o n with
  | nil =>
    cases h
    cases n <;> rfl
  | cons a xs ih =>
    obtain ⟨rfl, h⟩ := h
    cases n with
    | zero => cases hfuel
    | succ n =>
      cases hs : skip a with
      | true =>
        rw [walk, ih h (Nat.le_of_succ_le_succ hfuel)]
        simp [hs]
      | false => simp [walk, hs]

/-- What `for (a = o; a; a = step(a))` visits. -/
def visits {ε : Type v} (e : ε) (step : α → Option α) : Nat → Option α → Except ε (List α)
  | _, none => .ok []
  | 0, some _ => .error e
  | fuel + 1, some a => (visits e step fuel (step a)).map (a :: ·)

theorem visits_path {ε : Type v} (e : ε) (h : Path step o xs) (hfuel : xs.length ≤ n) :
    visits e step n o = .ok xs := by
  induction xs generalizing o n with
  | nil =>
    cases h
    cases n <;> rfl
  | cons a xs ih =>
    obtain ⟨rfl, h⟩ := h
    cases n with
    | zero => cases hfuel
    | succ n =>
      rw [visits, ih h (Nat.le_of_succ_le_succ hfuel)]
      rfl

theorem Seg.forward {nx pv : α → Option α} {p : Option α} (h : Seg nx pv some p xs none) :
    Path nx (first some xs none) xs := by
  induction xs generalizing p with
  | nil => rfl
  | cons a xs ih =>
    obtain ⟨-, hnx, h⟩ := h
    refine ⟨rfl, ?_⟩
    rw [hnx]
    exact ih h

theorem find_map {β : Type v} [DecidableEq β] {f : β → α} {p : α → Bool} {c : β} {l : List β}
    (h : ∀ b ∈ l, p (f b) = decide (b = c)) :
    (l.map f).find? p = if c ∈ l then some (f c) else none := by
  induction l with
  | nil => rfl
  | cons b l ih =>
    have hb := h b List.mem_cons_self
    have hrest := ih fun d hd => h d (List.mem_cons_of_mem _ hd)
    by_cases hbc : b = c
    · subst hbc
      simp [hb]
    · simp [hb, hbc, hrest, Ne.symm hbc]

theorem length_le_of_lt {xs : List Nat} (hnd : xs.Nodup) (h : ∀ x ∈ xs, x < n) :
    xs.length ≤ n := by
  have hle := (hnd.subperm fun x hx => List.mem_range.mpr (h x hx)).length_le
  rwa [List.length_range] at hle

theorem head_dropWhile :
    ∀ a ∈ (xs.dropWhile skip).head?, skip a = false := by
  intro a ha
  have hnot := List.head?_dropWhile_not skip xs
  rw [Option.mem_def.mp ha] at hnot
  exact hnot

theorem Path.dropWhile (h : Path step o xs) (skip : α → Bool) :
    Path step (xs.dropWhile skip).head? (xs.dropWhile skip) := by
  induction xs generalizing o with
  | nil => rfl
  | cons a xs ih =>
    rw [List.dropWhile_cons]
    split
    · exact ih h.2
    · exact ⟨rfl, h.2⟩

theorem walk_inv {ε : Type v} {e : ε} {fuel : Nat} {a : α} {P : α → Prop}
    (ho : ∀ b, o = some b → P b) (hstep : ∀ b c, P b → step b = some c → P c)
    (h : walk e skip step fuel o = .ok (some a)) :
    P a := by
  induction fuel generalizing o with
  | zero => cases o <;> cases h
  | succ fuel ih =>
    cases o with
    | none => cases h
    | some b =>
      cases hs : skip b with
      | true =>
        rw [walk, hs] at h
        exact ih (fun c hc => hstep b c (ho b rfl) hc) h
      | false =>
        simp only [walk, hs] at h
        cases h
        exact ho _ rfl

theorem walk_stops {ε : Type v} {e : ε} {fuel : Nat} {a : α}
    (h : walk e skip step fuel o = .ok (some a)) : skip a = false := by
  induction fuel generalizing o with
  | zero => cases o <;> cases h
  | succ fuel ih =>
    cases o with
    | none => cases h
    | some b =>
      cases hs : skip b with
      | true =>
        rw [walk, hs] at h
        exact ih h
      | false =>
        simp only [walk, hs] at h
        cases h
        exact hs

section Ring

variable {nx pv : α → α} [DecidableEq α]

/-- On to the next node, unless that is `h`. -/
def stepBefore (nx : α → α) (h a : α) : Option α := if nx a = h then none else some (nx a)

/-- On to the next node, unless this one is `h`. -/
def stepUntil (nx : α → α) (h a : α) : Option α := if a = h then none else some (nx a)

theorem Seg.path {p h : α} {ys : List α} (hs : Seg nx pv id p ys h) (hh : h ∉ ys.tail) :
    Path (stepBefore nx h) ys.head? ys := by
  induction ys generalizing p with
  | nil => rfl
  | cons a ys ih =>
    refine ⟨rfl, ?_⟩
    obtain ⟨-, hnx, hs⟩ := hs
    cases ys with
    | nil =>
      exact if_pos hnx
    | cons b ys =>
      have hnx : nx a = b := hnx
      have hb : b ≠ h := fun he => hh (by simp [he])
      rw [stepBefore, hnx, if_neg hb]
      exact ih hs fun hm => hh (List.mem_cons_of_mem _ hm)

theorem Seg.path_until {p q h : α} {ys : List α} (hs : Seg nx pv id p (ys ++ [h]) q)
    (hh : h ∉ ys) : Path (stepUntil nx h) (ys ++ [h]).head? (ys ++ [h]) := by
  induction ys generalizing p with
  | nil => exact ⟨rfl, if_pos rfl⟩
  | cons a ys ih =>
    refine ⟨rfl, ?_⟩
    obtain ⟨-, hnx, hs⟩ := hs
    have ha : a ≠ h := fun he => hh (by simp [he])
    have hhead : (ys ++ [h]).head? = some (nx a) := by
      rw [hnx]
      cases ys <;> rfl
    rw [stepUntil, if_neg ha, ← hhead]
    exact ih hs fun hm => hh (List.mem_cons_of_mem _ hm)

theorem Ring.path {h a : α} {xs ys : List α} (hr : Ring nx pv (xs ++ a :: ys))
    (hnd : (xs ++ a :: ys).Nodup) (hh : (xs ++ a :: ys).head? = some h) :
    Path (stepBefore nx h) (some a) (a :: ys) := by
  have hseg := seg_append.mp (hr h)
  have hfirst : first id (xs ++ a :: ys) h = h := by
    cases xs with
    | nil => exact Option.some.inj hh
    | cons b xs => exact Option.some.inj hh
  rw [hfirst] at hseg
  refine hseg.2.path ?_
  cases xs with
  | nil =>
    have he : a = h := Option.some.inj hh
    exact he ▸ (List.nodup_cons.mp hnd).1
  | cons b xs =>
    have he : b = h := Option.some.inj hh
    subst he
    intro hm
    exact (List.nodup_cons.mp hnd).1 (List.mem_append_right _ (List.mem_cons_of_mem _ hm))

omit [DecidableEq α] in
theorem last_reverse (q : α) (xs : List α) : last id q xs.reverse = first id xs q := by
  cases xs with
  | nil => rfl
  | cons a xs => rw [List.reverse_cons, last_concat, first_cons]

omit [DecidableEq α] in
theorem Seg.reverse {p q : α} {xs : List α} (h : Seg nx pv id p xs q) :
    Seg pv nx id q xs.reverse p := by
  induction xs generalizing p with
  | nil => trivial
  | cons a xs ih =>
    obtain ⟨hpv, hnx, h⟩ := h
    rw [List.reverse_cons, seg_append]
    refine ⟨ih h, ?_, hpv, trivial⟩
    rw [hnx, last_reverse]

omit [DecidableEq α] in
theorem first_reverse (q : α) (xs : List α) : first id xs.reverse q = last id q xs := by
  rw [← last_reverse, List.reverse_reverse]

omit [DecidableEq α] in
theorem Ring.reverse {xs : List α} (h : Ring nx pv xs) : Ring pv nx xs.reverse := by
  intro d
  rw [last_reverse, first_reverse]
  exact (h d).reverse

end Ring

end StreamMill.Lib
