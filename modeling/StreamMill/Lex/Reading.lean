import StreamMill.Lex.Scanner

/-!
# StreamMill.Lex.Reading

What the reads of the scanner give, in terms of the text that is left at a pointer, and how the
passes of a call are put together.
-/

namespace StreamMill.Lex

open ImDb (Byte)
open Lib (Returns)

structure At (text : List Byte) (p : Nat) (rest : List Byte) : Prop where
  le : p ≤ text.length
  drop : text.drop p = rest

/-- The text does not go on with one of these characters. -/
def Stops (f : Byte → Bool) (rest : List Byte) : Prop := ∀ c ∈ rest.head?, f c = false

section Reading

variable {text rest xs ys : List Byte} {p : Nat} {c : Byte} {f : Byte → Bool}

theorem At.byteAt (h : At text p rest) : byteAt text p = rest.headD 0 := by
  obtain ⟨-, rfl⟩ := h
  rw [Lex.byteAt, List.headD_eq_head?_getD, List.head?_drop, List.getD_eq_getElem?_getD]

theorem At.readAt (h : At text p rest) : readAt text p = .ok (rest.headD 0) := by
  rw [Lex.readAt, if_pos h.le, h.byteAt]

theorem At.append (h : At text p (xs ++ ys)) : At text (p + xs.length) ys := by
  obtain ⟨hle, hdrop⟩ := h
  have hlen := congrArg List.length hdrop
  rw [List.length_drop, List.length_append] at hlen
  refine ⟨by omega, ?_⟩
  rw [← List.drop_drop, hdrop, List.drop_left]

theorem At.cons (h : At text p (c :: xs)) : At text (p + 1) xs :=
  @At.append text [c] xs p h

theorem At.length (h : At text p rest) : p + rest.length = text.length := by
  obtain ⟨hle, rfl⟩ := h
  rw [List.length_drop]
  omega

theorem takeWhile_append (hf : ∀ c ∈ xs, f c = true) (hs : Stops f ys) :
    (xs ++ ys).takeWhile f = xs := by
  rw [List.takeWhile_append_of_pos hf]
  cases ys with
  | nil => rw [List.takeWhile_nil, List.append_nil]
  | cons y ys => rw [List.takeWhile_cons_of_neg (by simp [hs y rfl]), List.append_nil]

theorem At.endOf (h : At text p (xs ++ ys)) (hf : ∀ c ∈ xs, f c = true) (hs : Stops f ys) :
    endOf f text p = p + xs.length := by
  rw [Lex.endOf, h.drop, takeWhile_append hf hs]

theorem At.readEnd (h : At text p (xs ++ ys)) (hf : ∀ c ∈ xs, f c = true) (hs : Stops f ys) :
    readEnd f text p = .ok (p + xs.length) := by
  rw [Lex.readEnd, if_pos h.le, h.endOf hf hs]

theorem At.copyToken (h : At text p (xs ++ ys)) : copyToken text p (p + xs.length) = xs := by
  rw [Lex.copyToken, h.drop, Nat.add_sub_cancel_left, List.take_left]

theorem Stops.head (h : Stops f rest) (h0 : f 0 = false) : f (rest.headD 0) = false := by
  cases rest with
  | nil => exact h0
  | cons c cs => exact h c rfl

theorem stops_cons : Stops f (c :: xs) ↔ f c = false := by
  simp [Stops]

theorem stops_nil : Stops f [] := by
  simp [Stops]

theorem splits (f : Byte → Bool) (rest : List Byte) :
    ∃ xs ys, rest = xs ++ ys ∧ (∀ c ∈ xs, f c = true) ∧ Stops f ys := by
  induction rest with
  | nil => exact ⟨[], [], rfl, by simp, stops_nil⟩
  | cons c cs ih =>
    by_cases hc : f c = true
    · obtain ⟨xs, ys, rfl, hxs, hys⟩ := ih
      exact ⟨c :: xs, ys, rfl, List.forall_mem_cons.mpr ⟨hc, hxs⟩, hys⟩
    · exact ⟨[], c :: cs, rfl, by simp, stops_cons.mpr (by simpa using hc)⟩

theorem byteAt_lt (h : Lex.byteAt text p ≠ 0) : p < text.length := by
  by_contra hle
  rw [Lex.byteAt, List.getD_eq_getElem?_getD, List.getElem?_eq_none (by omega)] at h
  exact h rfl

theorem le_endOf (f : Byte → Bool) (text : List Byte) (p : Nat) : p ≤ Lex.endOf f text p :=
  Nat.le_add_right _ _

theorem endOf_le (f : Byte → Bool) (hp : p ≤ text.length) : Lex.endOf f text p ≤ text.length := by
  have hlen := (@List.takeWhile_sublist _ (text.drop p) f).length_le
  rw [List.length_drop] at hlen
  rw [Lex.endOf]
  omega

theorem class_lt (h0 : f 0 = false) (h : f (Lex.byteAt text p) = true) : p < text.length :=
  byteAt_lt fun heq => by
    rw [heq, h0] at h
    cases h

end Reading

namespace Scanner

variable {s s' : Scanner} {r : Except Fault (Token × Scanner)}

theorem returns_step (hs : s.step = .ok (.inl s')) (hr : Returns (fun n => run n s') r) :
    Returns (fun n => run n s) r :=
  hr.of_succ fun fuel => by
    rw [run, hs]

theorem returns_done {x : Token × Scanner} (hs : s.step = .ok (.inr x)) :
    Returns (fun n => run n s) (.ok x) := by
  refine ⟨1, fun fuel hfuel => ?_⟩
  obtain ⟨k, rfl⟩ := Nat.exists_eq_add_of_le' hfuel
  show run (k + 1) s = _
  rw [run, hs]

theorem returns_fault {e : Fault} (hs : s.step = .error e) :
    Returns (fun n => run n s) (.error e) := by
  refine ⟨1, fun fuel hfuel => ?_⟩
  obtain ⟨k, rfl⟩ := Nat.exists_eq_add_of_le' hfuel
  show run (k + 1) s = _
  rw [run, hs]

variable {rest xs ys : List Byte} {c : Byte} {f : Byte → Bool}

theorem get_at (h : At s.text s.tokPtr rest) :
    s.get = .ok { s with c := rest.headD 0, tokPtr := s.tokPtr + 1 } := by
  rw [get, h.readAt]
  rfl

theorem getWhile_at (h : At s.text s.tokPtr (xs ++ ys)) (hf : ∀ c ∈ xs, f c = true)
    (hs : Stops f ys) :
    s.getWhile f = .ok { s with c := ys.headD 0, tokPtr := s.tokPtr + xs.length + 1 } := by
  rw [getWhile, h.readEnd hf hs, ← h.append.byteAt]
  rfl

theorem get_within (h : s.tokPtr ≤ s.text.length) :
    s.get = .ok { s with c := byteAt s.text s.tokPtr, tokPtr := s.tokPtr + 1 } := by
  rw [get, readAt, if_pos h]
  rfl

theorem getWhile_within (f : Byte → Bool) (h : s.tokPtr ≤ s.text.length) :
    s.getWhile f = .ok { s with
      c := byteAt s.text (endOf f s.text s.tokPtr)
      tokPtr := endOf f s.text s.tokPtr + 1 } := by
  rw [getWhile, readEnd, if_pos h]
  rfl

theorem startState_at (hfile : s.filenameP = false) (h : At s.text s.tokPtr (xs ++ ys))
    (hxs : ∀ c ∈ xs, blank c = true) (hys : Stops blank ys) {state : LexState}
    (hstate : stateOf (ys.headD 0) = some state) :
    s.startState = .ok (.inl { s with
      c := ys.headD 0
      tokPtr := s.tokPtr + xs.length + 1
      tokStart := s.tokPtr + xs.length
      state := state }) := by
  rw [startState, getWhile_at h hxs hys]
  generalize ys.headD 0 = c at hstate ⊢
  simp [bind, Except.bind, hfile, hstate]

theorem startState_filename (hfile : s.filenameP = true)
    (h : At s.text s.tokPtr (xs ++ (ys ++ rest)))
    (hxs : ∀ c ∈ xs, blank c = true) (hys : ∀ c ∈ ys, filenameChar c = true)
    (hblank : Stops blank (ys ++ rest)) (hrest : Stops filenameChar rest) :
    s.startState = .ok (.inr (.ident s.inSql, { s with
      c := (ys ++ rest).headD 0
      tokPtr := s.tokPtr + xs.length + ys.length
      tokStart := s.tokPtr + xs.length
      yytext := copyToken s.text (s.tokPtr + xs.length) (s.tokPtr + xs.length + ys.length)
      filenameP := false })) := by
  have hat : At s.text (s.tokPtr + xs.length) (ys ++ rest) := h.append
  rw [startState, getWhile_at h hxs hblank]
  show (if s.filenameP = true then _ else _) = _
  rw [if_pos hfile]
  show (readEnd filenameChar s.text (s.tokPtr + xs.length) >>= _) = _
  rw [hat.readEnd hys hrest]
  rfl

theorem step_char (hs : s.state = .char) (h : At s.text s.tokStart (c :: rest)) :
    s.step = .ok (.inr (.char c, { s with
      tokPtr := s.tokStart + 1
      nextState := if s.c = 41 then .start else s.nextState
      c := c })) := by
  have hat : At s.text ({ s with tokPtr := s.tokStart } : Scanner).tokPtr (c :: rest) := h
  have hstep : s.step = s.charState := by
    rw [step, hs]
  rw [hstep, charState, get, hat.readAt]
  rfl

end Scanner

end StreamMill.Lex
