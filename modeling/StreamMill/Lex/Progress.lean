import StreamMill.Lex.Reading

/-!
# StreamMill.Lex.Progress

The calls of the scanner, one after the other. In a run of `Calm` calls each one returns without a
fault and goes on in the text, and nothing is found behind its end (`scanner_run`). What is not calm
is what goes wrong: a third call at the end, the characters whose states have no case, a byte from
128 on behind a comparison, a sign at the end, and a name of 100 bytes.
-/

namespace StreamMill.Lex

open ImDb (Byte)
open Lib (Returns)
open Scanner (isExp isSign notNewline)

/-- What is skipped in front of a token: blanks and comments. -/
inductive Skips : List Byte → List Byte → Prop
  | refl {rest : List Byte} : Skips rest rest
  | blank {c : Byte} {cs rest : List Byte} : blank c = true → Skips cs rest → Skips (c :: cs) rest
  | comment {cs xs ys rest : List Byte} : cs = xs ++ ys → (∀ c ∈ xs, notNewline c = true) →
      Stops notNewline ys → Skips ys rest → Skips (35 :: cs) rest
  | longComment {cs rest : List Byte} {n : Nat} : commentLength cs = some n →
      Skips (cs.drop n) rest → Skips (47 :: 42 :: cs) rest

/-- The scanner copes with a token that begins with `c`. -/
structure Sound (c : Byte) (cs : List Byte) : Prop where
  /-- `BOOL_STATE` and `ESCAPE_STATE` have no case. -/
  known : c ≠ 38 ∧ c ≠ 124 ∧ c ≠ 92
  /-- The character behind a comparison is an index. -/
  cmpOp : c = 33 ∨ c = 60 ∨ c = 61 ∨ c = 62 → (cs.headD 0).toNat < 128
  /-- Two characters are looked up. -/
  sign : isSign c = true → cs ≠ []
  /-- A name is copied to a buffer. -/
  name : isalpha c = true ∨ c = 95 → (cs.takeWhile identChar).length + 1 < 100

/-- A call that meets nothing the scanner gets wrong. -/
def Calm (s : Scanner) : Prop :=
  s.nextState = .finish ∨ s.tokPtr ≤ s.text.length ∧
    if s.filenameP then
      ∃ c ∈ (s.text.drop s.tokPtr).head?, blank c = true ∨ filenameChar c = true
    else ∀ c cs, Skips (s.text.drop s.tokPtr) (c :: cs) → Sound c cs

/-- What a call that began at `p` has left. -/
structure Outcome (text : List Byte) (p : Nat) (tok : Token) (s : Scanner) : Prop where
  same : s.text = text
  ptr : p < s.tokPtr
  within : tok ≠ .endOfInput → s.tokPtr ≤ text.length
  past : tok = .endOfInput → text.length < s.tokPtr
  token : tok ≠ .zero
  next : s.nextState = .start ∨ s.nextState = .allowSignedNumber ∨
    s.nextState = .finish ∧ tok = .endOfInput

/-- The passes from `s` on end with what a call may leave that began at `p`. -/
def Lands (p : Nat) (s : Scanner) : Prop :=
  ∃ tok s', Returns (fun n => s.run n) (.ok (tok, s')) ∧ Outcome s.text p tok s'

/-- In a token that begins behind `p`. -/
structure InToken (p : Nat) (s : Scanner) : Prop where
  start : p ≤ s.tokStart
  inside : s.tokStart < s.text.length
  ptr : s.tokStart < s.tokPtr
  next : s.nextState = .start ∨ s.nextState = .allowSignedNumber

section States

variable {p : Nat} {s s' : Scanner} {tok : Token} {cs : List Byte}

theorem Lands.step (hs : s.step = .ok (.inl s')) (htext : s'.text = s.text) (h : Lands p s') :
    Lands p s := by
  obtain ⟨tok, t, hret, hout⟩ := h
  exact ⟨tok, t, Scanner.returns_step hs hret, htext ▸ hout⟩

theorem Lands.done (hs : s.step = .ok (.inr (tok, s'))) (hout : Outcome s.text p tok s') :
    Lands p s :=
  ⟨tok, s', Scanner.returns_done hs, hout⟩

theorem InToken.outcome (h : InToken p s) (htext : s'.text = s.text)
    (hptr : s.tokStart < s'.tokPtr) (hle : s'.tokPtr ≤ s.text.length)
    (hnext : s'.nextState = .start ∨ s'.nextState = .allowSignedNumber) (hend : tok ≠ .endOfInput)
    (hzero : tok ≠ .zero) : Outcome s.text p tok s' where
  same := htext
  ptr := Nat.lt_of_le_of_lt h.start hptr
  within _ := hle
  past heq := absurd heq hend
  token := hzero
  next := hnext.imp_right .inl

theorem lands_char (hs : s.state = .char) (h : InToken p s) : Lands p s := by
  have hat : At s.text s.tokStart (s.text.drop s.tokStart) := ⟨h.inside.le, rfl⟩
  rw [List.drop_eq_getElem_cons h.inside] at hat
  refine Lands.done (Scanner.step_char hs hat) (h.outcome rfl (Nat.lt_succ_self _) h.inside ?_
    (by simp) (by simp))
  split
  · exact .inl rfl
  · exact h.next

theorem lands_real (hs : s.state = .real) (h : InToken p s) (hptr : s.tokPtr ≤ s.text.length) :
    Lands p s := by
  have hend := le_endOf isdigit s.text s.tokPtr
  have hle := endOf_le isdigit hptr
  have hstart := h.ptr
  have hstep : s.step = s.realState := by
    rw [Scanner.step, hs]
  rw [Scanner.realState, Scanner.getWhile_within isdigit hptr] at hstep
  generalize endOf isdigit s.text s.tokPtr = q at hend hle hstep
  change s.step = (if isExp (byteAt s.text q) = true then _ else _) at hstep
  by_cases hexp : isExp (byteAt s.text q) = true
  · have hq := class_lt rfl hexp
    rw [if_pos hexp, Scanner.get_within (by exact hq)] at hstep
    change s.step = (if (!isSign (byteAt s.text (q + 1))) = true then _ else _) at hstep
    by_cases hsgn : (!isSign (byteAt s.text (q + 1))) = true
    · rw [if_pos hsgn] at hstep
      exact Lands.step hstep rfl (lands_char rfl ⟨h.start, h.inside, by simp; omega, h.next⟩)
    · have hq' : q + 1 < s.text.length := class_lt rfl (by simpa using hsgn)
      rw [if_neg hsgn] at hstep
      change s.step = (readAt s.text (q + 2) >>= _) at hstep
      rw [readAt, if_pos (by omega)] at hstep
      change s.step = (if (!isdigit (byteAt s.text (q + 2))) = true then _ else _) at hstep
      by_cases hdigit : (!isdigit (byteAt s.text (q + 2))) = true
      · rw [if_pos hdigit] at hstep
        exact Lands.step hstep rfl (lands_char rfl ⟨h.start, h.inside, by simp; omega, h.next⟩)
      · have hq'' : q + 2 < s.text.length := class_lt rfl (by simpa using hdigit)
        have hend' := le_endOf isdigit s.text (q + 3)
        rw [if_neg hdigit] at hstep
        change s.step = (readEnd isdigit s.text (q + 3) >>= _) at hstep
        rw [readEnd, if_pos (by omega)] at hstep
        refine Lands.done hstep (h.outcome rfl ?_ (endOf_le _ (by omega)) (.inl rfl) (by simp)
          (by simp))
        exact (by omega : s.tokStart < endOf isdigit s.text (q + 3))
  · rw [if_neg hexp] at hstep
    exact Lands.done hstep (h.outcome rfl (by omega : s.tokStart < q) hle (.inl rfl) (by simp)
      (by simp))

theorem lands_intOrReal (hs : s.state = .intOrReal) (h : InToken p s)
    (hptr : s.tokStart + 1 < s.tokPtr) (hle : s.tokPtr ≤ s.text.length + 1)
    (hpoint : s.c = 46 → s.tokPtr ≤ s.text.length) : Lands p s := by
  have hstep : s.step = s.intOrRealState := by
    rw [Scanner.step, hs]
  rw [Scanner.intOrRealState] at hstep
  by_cases hc : s.c ≠ 46
  · rw [if_pos hc] at hstep
    exact Lands.done hstep (h.outcome rfl (by omega : s.tokStart < s.tokPtr - 1)
      (by omega : s.tokPtr - 1 ≤ s.text.length) (.inl rfl) (by simp) (by simp))
  · rw [if_neg hc] at hstep
    exact Lands.step hstep rfl (lands_real rfl ⟨h.start, h.inside, h.ptr, h.next⟩
      (hpoint (not_not.mp hc)))

theorem lands_number (hs : s.state = .number) (h : InToken p s)
    (hptr : s.tokPtr ≤ s.text.length) : Lands p s := by
  have hend := le_endOf isdigit s.text s.tokPtr
  have hle := endOf_le isdigit hptr
  have hstart := h.ptr
  have hstep : s.step = s.numberState := by
    rw [Scanner.step, hs]
  rw [Scanner.numberState, Scanner.getWhile_within isdigit hptr] at hstep
  generalize endOf isdigit s.text s.tokPtr = q at hend hle hstep
  change s.step = (if isExp (byteAt s.text q) = true then _ else _) at hstep
  by_cases hexp : isExp (byteAt s.text q) = true
  · have hq : q < s.text.length := class_lt rfl hexp
    -- the character behind the `e` is given back
    have hback {c : Byte} : Lands p { s with c := c, tokPtr := q + 1, state := .intOrReal } :=
      lands_intOrReal rfl ⟨h.start, h.inside, (by omega : s.tokStart < q + 1), h.next⟩
        (by omega : s.tokStart + 1 < q + 1) (by omega : q + 1 ≤ s.text.length + 1) (fun _ => hq)
    rw [if_pos hexp, Scanner.get_within (by exact hq)] at hstep
    change s.step = (if isSign (byteAt s.text (q + 1)) = true then _ else _) at hstep
    by_cases hsgn : isSign (byteAt s.text (q + 1)) = true
    · have hq' : q + 1 < s.text.length := class_lt rfl hsgn
      rw [if_pos hsgn] at hstep
      change s.step = (readAt s.text (q + 2) >>= _) at hstep
      rw [readAt, if_pos (by omega)] at hstep
      change s.step = (if isdigit (byteAt s.text (q + 2)) = true then _ else _) at hstep
      by_cases hdigit : isdigit (byteAt s.text (q + 2)) = true
      · have hend' := le_endOf isdigit s.text (q + 2)
        rw [if_pos hdigit] at hstep
        change s.step = (readEnd isdigit s.text (q + 2) >>= _) at hstep
        rw [readEnd, if_pos (by omega)] at hstep
        refine Lands.done hstep (h.outcome rfl ?_ (endOf_le _ (by omega)) (.inl rfl) (by simp)
          (by simp))
        exact (by omega : s.tokStart < endOf isdigit s.text (q + 2))
      · rw [if_neg hdigit] at hstep
        exact Lands.step hstep rfl hback
    · rw [if_neg hsgn] at hstep
      exact Lands.step hstep rfl hback
  · rw [if_neg hexp] at hstep
    refine Lands.step hstep rfl (lands_intOrReal rfl ⟨h.start, h.inside, ?_, h.next⟩ ?_ ?_ ?_)
    · exact (by omega : s.tokStart < q + 1)
    · exact (by omega : s.tokStart + 1 < q + 1)
    · exact Nat.succ_le_succ hle
    · exact fun h46 => byteAt_lt (by rw [show byteAt s.text q = 46 from h46]; decide)

theorem findKeyword_within {text : List Byte} {inSql : Bool} {tok lookahead : Nat}
    (hle : lookahead ≤ text.length) (hbuf : lookahead - tok < 100) :
    ∃ r, findKeyword text inSql tok lookahead = .ok r := by
  have hlen : ¬ 100 ≤ ((text ++ [0]).drop tok |>.take (lookahead - tok)).length := by
    have hmin := List.length_take_le (lookahead - tok) ((text ++ [0]).drop tok)
    omega
  have hsearch (table : List Symtab) :
      ∃ r, searchTable ((text ++ [0]).drop tok |>.take (lookahead - tok)) table = .ok r :=
    ⟨_, if_neg hlen⟩
  obtain ⟨func, hfunc⟩ := hsearch funcsym
  obtain ⟨aggr, haggr⟩ := hsearch aggrsym
  obtain ⟨sql, hsql⟩ := hsearch sqlsym
  rw [findKeyword, readEnd, if_pos hle, hfunc, haggr, hsql]
  by_cases hparen : byteAt text (endOf blank text lookahead) = 40
  · simp only [bind, Except.bind, if_pos hparen]
    rcases func with _ | func <;> rcases aggr with _ | aggr <;> rcases sql with _ | sql <;>
      exact ⟨_, rfl⟩
  · simp only [bind, Except.bind, if_neg hparen]
    rcases sql with _ | sql <;> exact ⟨_, rfl⟩

/-- The `switch` falls through behind the digits of a signed number. -/
theorem lands_signedNumber (hs : s.state = .signedNumber) (h : InToken p s)
    (hsgn : isSign s.c = true) (hptr : s.tokPtr = s.tokStart + 1)
    (hmore : s.tokPtr < s.text.length) : Lands p s := by
  have hstep : s.step = s.signedNumberState := by
    rw [Scanner.step, hs]
  obtain ⟨r, hr⟩ := @findKeyword_within s.text s.inSql s.tokStart (s.tokStart + 2) (by omega)
    (by omega)
  rw [Scanner.signedNumberState, if_pos hsgn, hr] at hstep
  rcases r with _ | tok
  · by_cases hprev : s.prevState ≠ .allowSignedNumber
    · rw [if_pos hprev] at hstep
      exact Lands.step hstep rfl (lands_char rfl ⟨h.start, h.inside, h.ptr, h.next⟩)
    · rw [if_neg hprev, Scanner.get_within (by omega)] at hstep
      generalize byteAt s.text s.tokPtr = c at hstep
      change s.step = (if (!isdigit c && c ≠ 46) = true then _ else _) at hstep
      by_cases hc : (!isdigit c && c ≠ 46) = true
      · rw [if_pos hc] at hstep
        exact Lands.step hstep rfl (lands_char rfl ⟨h.start, h.inside,
          (by omega : s.tokStart < s.tokPtr + 1), h.next⟩)
      · -- a point is given back
        have hsome : ∃ q, s.tokStart < q ∧ q ≤ s.text.length ∧
            s.step = ({ s with c := c, tokPtr := q } : Scanner).getWhile isdigit >>= fun s =>
              .ok (.inl { s with state := .intOrReal }) := by
          rw [if_neg hc] at hstep
          by_cases hdigit : isdigit c = true
          · exact ⟨s.tokPtr + 1, by omega, hmore, by simpa [hdigit] using hstep⟩
          · exact ⟨s.tokPtr, h.ptr, hmore.le, by simpa [hdigit, Scanner.unget] using hstep⟩
        obtain ⟨q, hstart, hq, hstep⟩ := hsome
        have hend := le_endOf isdigit s.text q
        rw [Scanner.getWhile_within isdigit (by exact hq)] at hstep
        refine Lands.step hstep rfl (lands_intOrReal rfl ⟨h.start, h.inside, ?_, h.next⟩ ?_ ?_ ?_)
        · exact (by omega : s.tokStart < endOf isdigit s.text q + 1)
        · exact (by omega : s.tokStart + 1 < endOf isdigit s.text q + 1)
        · exact Nat.succ_le_succ (endOf_le isdigit hq)
        · exact fun h46 => byteAt_lt
            (by rw [show byteAt s.text (endOf isdigit s.text q) = 46 from h46]; decide)
  · rw [readAt, if_pos hmore.le] at hstep
    exact Lands.done hstep (h.outcome rfl (by omega : s.tokStart < s.tokPtr + 1) hmore h.next
      (by simp) (by simp))

theorem stateOf_ascii {c : Byte} (hc : c.toNat < 128) : ∃ state, stateOf c = some state :=
  ⟨_, if_pos hc⟩

theorem lands_cmpOp (hs : s.state = .cmpOp) (h : InToken p s) (hptr : s.tokPtr = s.tokStart + 1)
    (hascii : (byteAt s.text s.tokPtr).toNat < 128) : Lands p s := by
  have hinside := h.inside
  have hstep : s.step = s.cmpOpState := by
    rw [Scanner.step, hs]
  obtain ⟨state, hstate⟩ := stateOf_ascii hascii
  rw [Scanner.cmpOpState, Scanner.get_within (by omega)] at hstep
  simp only [bind, Except.bind, hstate] at hstep
  -- one or two characters
  have hsome : ∃ q, s.tokStart < q ∧ q ≤ s.tokStart + 2 ∧ q ≤ s.text.length ∧
      ∀ r, findKeyword s.text s.inSql s.tokStart q = .ok r → s.step = .ok (r.elim
        (.inl { s with c := byteAt s.text s.tokPtr, tokPtr := q, state := .char })
        fun tok => .inr (.keyword tok, { s with c := byteAt s.text s.tokPtr, tokPtr := q })) := by
    by_cases hcmp : state ≠ .cmpOp
    · refine ⟨s.tokPtr, h.ptr, by omega, by omega, fun r hr => ?_⟩
      simp only [if_pos hcmp] at hstep
      rw [hstep]
      cases r <;> simp [Scanner.unget, hr]
    · have hlt : s.tokPtr < s.text.length := byteAt_lt fun h0 => by
        rw [h0] at hstate
        exact hcmp (by rw [← Option.some.inj hstate]; decide)
      refine ⟨s.tokPtr + 1, by omega, by omega, hlt, fun r hr => ?_⟩
      simp only [if_neg hcmp] at hstep
      rw [hstep]
      cases r <;> simp [hr]
  obtain ⟨q, hstart, hshort, hle, hsome⟩ := hsome
  obtain ⟨r, hr⟩ := @findKeyword_within s.text s.inSql s.tokStart q hle (by omega)
  have hstep := hsome r hr
  rcases r with _ | tok
  · exact Lands.step hstep rfl (lands_char rfl ⟨h.start, h.inside, hstart, h.next⟩)
  · exact Lands.done hstep (h.outcome rfl hstart hle h.next (by simp) (by simp))

theorem lands_ident (hs : s.state = .ident) (h : InToken p s) (hptr : s.tokPtr ≤ s.text.length)
    (hname : endOf identChar s.text s.tokPtr - s.tokStart < 100) : Lands p s := by
  have hend := le_endOf identChar s.text s.tokPtr
  have hle := endOf_le identChar hptr
  have hstart : s.tokStart < endOf identChar s.text s.tokPtr := Nat.lt_of_lt_of_le h.ptr hend
  obtain ⟨r, hr⟩ := @findKeyword_within s.text s.inSql s.tokStart _ hle hname
  have hstep : s.step = s.identState := by
    rw [Scanner.step, hs]
  rw [Scanner.identState, Scanner.getWhile_within identChar hptr] at hstep
  change s.step = (findKeyword s.text s.inSql s.tokStart (endOf identChar s.text s.tokPtr) >>= _)
    at hstep
  rw [hr] at hstep
  rcases r with _ | tok
  · exact Lands.done hstep (h.outcome rfl hstart hle (.inl rfl) (by simp) (by simp))
  · exact Lands.done hstep (h.outcome rfl hstart hle (.inl rfl) (by simp) (by simp))

theorem readTextLiteral_length {cs tok : List Byte} (h : readTextLiteral cs = some tok) :
    tok.length < cs.length := by
  fun_induction readTextLiteral cs generalizing tok with
  | case1 => cases h
  | case2 => cases h
  | case3 d cs ih =>
    obtain ⟨tok, htok, rfl⟩ := Option.map_eq_some_iff.mp h
    have hlen := ih htok
    simp only [List.length_cons]
    omega
  | case4 =>
    rw [← Option.some.inj h]
    exact Nat.succ_pos _
  | case5 c cs hback hquote ih =>
    obtain ⟨tok, htok, rfl⟩ := Option.map_eq_some_iff.mp h
    exact Nat.succ_lt_succ (ih htok)

theorem readCCode_length {cs tok : List Byte} (h : readCCode cs = some tok) :
    tok.length < cs.length := by
  fun_induction readCCode cs generalizing tok with
  | case1 => cases h
  | case2 =>
    rw [← Option.some.inj h]
    exact Nat.succ_pos _
  | case3 c cs hat ih =>
    obtain ⟨tok, htok, rfl⟩ := Option.map_eq_some_iff.mp h
    exact Nat.succ_lt_succ (ih htok)

theorem lands_literal {read : List Byte → Option (List Byte)}
    (hs : s.step = s.literalState read tok) (h : InToken p s) (hptr : s.tokPtr ≤ s.text.length)
    (hread : ∀ {cs text}, read cs = some text → text.length < cs.length)
    (hend : tok ≠ .endOfInput) (hzero : tok ≠ .zero) : Lands p s := by
  rw [Scanner.literalState, if_pos hptr] at hs
  rcases hr : read (s.text.drop s.tokPtr) with _ | text
  · rw [hr] at hs
    exact Lands.step hs rfl (lands_char rfl ⟨h.start, h.inside, h.ptr, h.next⟩)
  · rw [hr] at hs
    have hlen := hread hr
    have hstart := h.ptr
    rw [List.length_drop] at hlen
    exact Lands.done hs (h.outcome rfl (by omega : s.tokStart < s.tokPtr + text.length + 1)
      (by omega : s.tokPtr + text.length + 1 ≤ s.text.length) (.inl rfl) hend hzero)

theorem lands_realOrPoint (hs : s.state = .realOrPoint) (h : InToken p s)
    (hptr : s.tokPtr ≤ s.text.length) : Lands p s := by
  have hstep : s.step = s.realOrPointState := by
    rw [Scanner.step, hs]
  rw [Scanner.realOrPointState, readAt, if_pos hptr] at hstep
  change s.step = .ok (.inl { s with
    state := if isdigit (byteAt s.text s.tokPtr) then .real else .char }) at hstep
  by_cases hdigit : isdigit (byteAt s.text s.tokPtr) = true
  · rw [if_pos hdigit] at hstep
    exact Lands.step hstep rfl (lands_real rfl ⟨h.start, h.inside, h.ptr, h.next⟩ hptr)
  · rw [if_neg hdigit] at hstep
    exact Lands.step hstep rfl (lands_char rfl ⟨h.start, h.inside, h.ptr, h.next⟩)

theorem lands_token {c : Byte} (h : InToken p s) (hat : At s.text s.tokStart (c :: cs))
    (hptr : s.tokPtr = s.tokStart + 1) (hc : s.c = c) (hgraph : isgraph c = true)
    (hsound : Sound c cs) (hstate : stateOf c = some s.state) (hcomment : s.state ≠ .comment)
    (hlong : s.state ≠ .longComment) : Lands p s := by
  have hrest : At s.text s.tokPtr cs := hptr ▸ hat.cons
  have hle := hrest.le
  rw [stateOf_graph c hgraph] at hstate
  replace hstate := (Option.some.inj hstate).symm
  by_cases hdigit : isdigit c = true
  · rw [if_pos hdigit] at hstate
    exact lands_number hstate h hle
  rw [if_neg hdigit] at hstate
  by_cases hname : (isalpha c || c = 95) = true
  · rw [if_pos hname] at hstate
    have hbuf := hsound.name (by simpa using hname)
    refine lands_ident hstate h hle ?_
    rw [endOf, hrest.drop]
    omega
  rw [if_neg hname] at hstate
  by_cases hsgn : (c = 43 || c = 45) = true
  · rw [if_pos hsgn] at hstate
    have hsign : isSign c = true := hsgn
    have hmore := List.length_pos_of_ne_nil (hsound.sign hsign)
    have hlen := hrest.length
    exact lands_signedNumber hstate h (hc ▸ hsign) hptr (by omega)
  rw [if_neg hsgn] at hstate
  by_cases hcmp : (c = 33 || c = 60 || c = 61 || c = 62) = true
  · rw [if_pos hcmp] at hstate
    have hascii := hsound.cmpOp (by simpa [or_assoc] using hcmp)
    exact lands_cmpOp hstate h hptr (hrest.byteAt ▸ hascii)
  rw [if_neg hcmp] at hstate
  by_cases hquote : (c = 34 || c = 39) = true
  · rw [if_pos hquote] at hstate
    have hstep : s.step = s.literalState readTextLiteral (.string s.inSql) := by
      rw [Scanner.step, hstate]
    exact lands_literal hstep h hle readTextLiteral_length (by simp) (by simp)
  rw [if_neg hquote] at hstate
  by_cases hhash : c = 35
  · rw [if_pos hhash] at hstate
    exact absurd hstate hcomment
  rw [if_neg hhash] at hstate
  by_cases hbool : (c = 38 || c = 124) = true
  · rcases (by simpa using hbool : c = 38 ∨ c = 124) with rfl | rfl
    · exact absurd rfl hsound.known.1
    · exact absurd rfl hsound.known.2.1
  rw [if_neg hbool] at hstate
  by_cases hpoint : c = 46
  · rw [if_pos hpoint] at hstate
    exact lands_realOrPoint hstate h hle
  rw [if_neg hpoint] at hstate
  by_cases hslash : c = 47
  · rw [if_pos hslash] at hstate
    exact absurd hstate hlong
  rw [if_neg hslash] at hstate
  by_cases hcode : c = 64
  · rw [if_pos hcode] at hstate
    have hstep : s.step = s.literalState readCCode .ccode := by
      rw [Scanner.step, hstate]
    exact lands_literal hstep h hle readCCode_length (by simp) (by simp)
  rw [if_neg hcode] at hstate
  by_cases hback : c = 92
  · exact absurd hback hsound.known.2.2
  · rw [if_neg hback] at hstate
    exact lands_char hstate h

theorem commentLength_le {n : Nat} (h : commentLength cs = some n) : n ≤ cs.length := by
  fun_induction commentLength cs generalizing n with
  | case1 => cases h
  | case2 c cs hclose =>
    rcases cs with _ | ⟨d, cs⟩
    · cases hclose.2
    · rw [← Option.some.inj h]
      simp
  | case3 c cs hopen ih =>
    obtain ⟨n, hn, rfl⟩ := Option.map_eq_some_iff.mp h
    exact Nat.succ_le_succ (ih hn)

theorem skips_blanks {xs ys rest : List Byte} (hxs : ∀ c ∈ xs, blank c = true)
    (h : Skips ys rest) : Skips (xs ++ ys) rest := by
  induction xs with
  | nil => exact h
  | cons c xs ih =>
    rw [List.forall_mem_cons] at hxs
    exact .blank hxs.1 (ih hxs.2)

theorem lands_comment {us vs : List Byte} (hs : s.state = .comment)
    (hat : At s.text s.tokPtr (us ++ vs)) (hus : ∀ c ∈ us, notNewline c = true)
    (hvs : Stops notNewline vs)
    (hrest : ∀ c, Lands p { s with c := c, tokPtr := s.tokPtr + us.length, state := .start }) :
    Lands p s := by
  have hstep : s.step = s.commentState := by
    rw [Scanner.step, hs]
  rw [Scanner.commentState, Scanner.getWhile_at hat hus hvs] at hstep
  exact Lands.step hstep rfl (hrest _)

theorem lands_longComment (hs : s.state = .longComment) (h : InToken p s)
    (hat : At s.text s.tokPtr cs)
    (hrest : ∀ n ds, cs = 42 :: ds → commentLength ds = some n →
      Lands p { s with c := 42, tokPtr := s.tokPtr + 1 + n, state := .start }) : Lands p s := by
  have hstart := h.start
  have hinside := h.inside
  have hstep : s.step = s.longCommentState := by
    rw [Scanner.step, hs]
  rw [Scanner.longCommentState, hat.readAt] at hstep
  change s.step = (if cs.headD 0 ≠ 42 then _ else _) at hstep
  by_cases hstar : cs.headD 0 ≠ 42
  · rw [if_pos hstar] at hstep
    exact Lands.step hstep rfl (lands_char rfl ⟨h.start, h.inside, h.ptr, h.next⟩)
  · obtain ⟨ds, rfl⟩ : ∃ ds, cs = 42 :: ds := by
      rcases cs with _ | ⟨d, ds⟩
      · exact absurd (by decide) hstar
      · exact ⟨ds, by rw [show d = 42 from not_not.mp hstar]⟩
    rw [hat.cons.drop] at hstep
    rcases hlen : commentLength ds with _ | n
    · rw [hlen] at hstep
      refine Lands.done hstep ⟨rfl, ?_, ?_, ?_, by simp, h.next.imp_right .inl⟩
      · exact (by omega : p < s.text.length + 1)
      · exact absurd rfl
      · exact fun _ => Nat.lt_succ_self _
    · rw [hlen] at hstep
      exact Lands.step hstep rfl (hrest n ds rfl hlen)

/-- What a call does behind blanks and comments, if no file name is read. -/
theorem lands_start (hs : s.state = .start ∨ s.state = .allowSignedNumber)
    (hfile : s.filenameP = false) (hle : s.tokPtr ≤ s.text.length) (hp : p ≤ s.tokPtr)
    (hnext : s.nextState = .allowSignedNumber) (hzero : 0 ∉ s.text)
    (hsound : ∀ c cs, Skips (s.text.drop s.tokPtr) (c :: cs) → Sound c cs) : Lands p s := by
  -- by induction on the text that is left: a comment shortens it
  induction hn : s.text.length - s.tokPtr using Nat.strong_induction_on generalizing s with
  | _ n ih =>
  subst hn
  have hstep : s.step = s.startState := by
    rw [Scanner.step]
    rcases hs with hs | hs <;> rw [hs]
  obtain ⟨xs, ys, hsplit, hxs, hys⟩ := splits blank (s.text.drop s.tokPtr)
  have hat : At s.text s.tokPtr (xs ++ ys) := ⟨hle, hsplit⟩
  have hskip {rest : List Byte} (h : Skips ys rest) : Skips (s.text.drop s.tokPtr) rest :=
    hsplit ▸ skips_blanks hxs h
  have htok := hat.append
  rcases ys with _ | ⟨c, cs⟩
  · have hlen := hat.length
    rw [List.append_nil] at hlen
    rw [@Scanner.startState_at s xs [] hfile hat hxs hys .eol rfl] at hstep
    refine Lands.step hstep rfl (Lands.done rfl ⟨rfl, ?_, ?_, ?_, by simp, .inr (.inr ⟨rfl, rfl⟩)⟩)
    · exact (by omega : p < s.tokPtr + xs.length + 1)
    · exact absurd rfl
    · exact fun _ => (by omega : s.text.length < s.tokPtr + xs.length + 1)
  · have hmem : c ∈ s.text := List.mem_of_mem_drop (hsplit ▸ by simp : c ∈ s.text.drop s.tokPtr)
    have hgraph : isgraph c = true := by
      have hno := hys c rfl
      rw [blank, Bool.and_eq_false_iff] at hno
      rcases hno with h0 | hgraph
      · exact absurd (of_decide_eq_false h0) (fun hne => hne (fun heq => hzero (heq ▸ hmem)))
      · simpa using hgraph
    obtain ⟨state, hstate⟩ : ∃ state, stateOf c = some state := ⟨_, stateOf_graph c hgraph⟩
    have hlen := htok.length
    rw [List.length_cons] at hlen
    rw [@Scanner.startState_at s xs (c :: cs) hfile hat hxs hys state hstate] at hstep
    refine Lands.step hstep rfl ?_
    have hin {t : LexState} {d : Byte} : InToken p { s with
        c := d
        tokPtr := s.tokPtr + xs.length + 1
        tokStart := s.tokPtr + xs.length
        state := t } :=
      ⟨(by omega : p ≤ s.tokPtr + xs.length), (by omega : s.tokPtr + xs.length < s.text.length),
        Nat.lt_succ_self _, .inr hnext⟩
    by_cases hcomment : state = .comment
    · subst hcomment
      obtain rfl := stateOf_comment c hstate
      obtain ⟨us, vs, rfl, hus, hvs⟩ := splits notNewline cs
      have hend := htok.cons.append
      refine lands_comment rfl htok.cons hus hvs fun d => ih _ ?_ (.inl rfl) hfile hend.le ?_ hnext
        hzero ?_ rfl
      · exact (by omega : s.text.length - (s.tokPtr + xs.length + 1 + us.length) <
          s.text.length - s.tokPtr)
      · exact (by omega : p ≤ s.tokPtr + xs.length + 1 + us.length)
      · intro d ds hskips
        exact hsound d ds (hskip (.comment rfl hus hvs (hend.drop ▸ hskips)))
    by_cases hlong : state = .longComment
    · subst hlong
      obtain rfl := stateOf_longComment c hstate
      refine lands_longComment rfl hin htok.cons fun n ds hcs hclose => ?_
      subst hcs
      have hshort := commentLength_le hclose
      have hend : At s.text (s.tokPtr + xs.length + 1 + 1 + n) (ds.drop n) := by
        rw [← List.take_append_drop n ds] at htok
        have hend := htok.cons.cons.append
        rwa [List.length_take_of_le hshort] at hend
      refine ih _ ?_ (.inl rfl) hfile hend.le ?_ hnext hzero ?_ rfl
      · exact (by omega : s.text.length - (s.tokPtr + xs.length + 1 + 1 + n) <
          s.text.length - s.tokPtr)
      · exact (by omega : p ≤ s.tokPtr + xs.length + 1 + 1 + n)
      · intro d es hskips
        exact hsound d es (hskip (.longComment hclose (hend.drop ▸ hskips)))
    exact lands_token hin htok rfl rfl hgraph (hsound c cs (hskip .refl)) hstate hcomment hlong

end States

section Calls

variable {s : Scanner}

theorem step_enter (hctx : s.nextState = .start ∨ s.nextState = .allowSignedNumber) :
    s.enter.step = s.enter.startState := by
  rw [Scanner.step]
  rcases hctx with hctx | hctx
  · rw [show s.enter.state = .start from hctx]
  · rw [show s.enter.state = .allowSignedNumber from hctx]

theorem lands_filename (hctx : s.nextState = .start ∨ s.nextState = .allowSignedNumber)
    (hfile : s.filenameP = true) (hle : s.tokPtr ≤ s.text.length)
    (hname : ∃ c ∈ (s.text.drop s.tokPtr).head?, blank c = true ∨ filenameChar c = true) :
    Lands s.tokPtr s.enter := by
  obtain ⟨xs, zs, hsplit, hxs, hzs⟩ := splits blank (s.text.drop s.tokPtr)
  obtain ⟨ys, rest, rfl, hys, hrest⟩ := splits filenameChar zs
  have hat : At s.enter.text s.enter.tokPtr (xs ++ (ys ++ rest)) := ⟨hle, hsplit⟩
  have hstep := (step_enter hctx).trans
    (@Scanner.startState_filename s.enter rest xs ys hfile hat hxs hys hzs hrest)
  have hsome : 0 < xs.length + ys.length := by
    obtain ⟨c, hc, hclass⟩ := hname
    rw [hsplit] at hc
    rcases xs with _ | ⟨x, xs⟩
    · rcases ys with _ | ⟨y, ys⟩
      · rcases hclass with hblank | hchar
        · rw [hzs c hc] at hblank
          cases hblank
        · rw [hrest c hc] at hchar
          cases hchar
      · simp
    · simp only [List.length_cons]
      omega
  refine Lands.done hstep ⟨rfl, ?_, fun _ => hat.append.append.le, ?_, by simp, .inr (.inl rfl)⟩
  · exact (by omega : s.tokPtr < s.tokPtr + xs.length + ys.length)
  · exact fun heq => absurd heq (by simp)

theorem yylex_calm (hctx : s.nextState = .start ∨ s.nextState = .allowSignedNumber)
    (hzero : 0 ∉ s.text) (hcalm : Calm s) :
    ∃ tok s', Returns (fun n => s.yylex n) (.ok (tok, s')) ∧ Outcome s.text s.tokPtr tok s' := by
  rcases hcalm with hfinish | ⟨hle, hcalm⟩
  · rw [hfinish] at hctx
    rcases hctx with hctx | hctx <;> cases hctx
  by_cases hfile : s.filenameP = true
  · rw [if_pos hfile] at hcalm
    exact lands_filename hctx hfile hle hcalm
  · rw [if_neg hfile] at hcalm
    rw [Bool.not_eq_true] at hfile
    exact lands_start hctx hfile hle (le_refl _) rfl hzero hcalm

theorem yylex_finish (hctx : s.nextState = .finish) :
    Returns (fun n => s.yylex n) (.ok (.zero, s.enter)) :=
  Scanner.returns_done (by rw [Scanner.step, show s.enter.state = .finish from hctx])

end Calls

def Scanner.withFlags (s : Scanner) (inSql filenameP : Bool) : Scanner :=
  { s with inSql := inSql, filenameP := filenameP }

/-- The calls since `sqlInitScanner`, with what they have returned; all of them were calm. -/
inductive Run (text : List Byte) : List Token → Scanner → Prop
  | init : Run text [] (Scanner.sqlInitScanner text)
  | call {toks : List Token} {s s' : Scanner} {inSql filenameP : Bool} {tok : Token} :
      Run text toks s → Calm (s.withFlags inSql filenameP) →
      Returns (fun n => (s.withFlags inSql filenameP).yylex n) (.ok (tok, s')) →
      Run text (toks ++ [tok]) s'

structure Between (text : List Byte) (toks : List Token) (s : Scanner) : Prop where
  same : s.text = text
  next : s.nextState = .start ∨ s.nextState = .allowSignedNumber ∨ s.nextState = .finish
  finish : s.nextState = .finish → .endOfInput ∈ toks
  past : .endOfInput ∈ toks → text.length < s.tokPtr
  within : .endOfInput ∉ toks → s.tokPtr ≤ text.length

section Runs

variable {text : List Byte} {toks : List Token} {s : Scanner} {inSql filenameP : Bool}

theorem Between.call (hzero : 0 ∉ text) (h : Between text toks s)
    (hcalm : Calm (s.withFlags inSql filenameP)) :
    ∃ tok s', Returns (fun n => (s.withFlags inSql filenameP).yylex n) (.ok (tok, s')) ∧
      Between text (toks ++ [tok]) s' ∧ (tok ≠ .zero → s.tokPtr < s'.tokPtr) ∧
      (.endOfInput ∈ toks → tok = .zero) := by
  obtain ⟨rfl, hnext, hfinish, hpast, hwithin⟩ := h
  by_cases hend : s.nextState = .finish
  · -- the text is behind the scanner
    have hmem := hfinish hend
    refine ⟨.zero, _, yylex_finish hend, ⟨rfl, .inr (.inl rfl), ?_, fun _ => hpast hmem, ?_⟩, ?_,
      fun _ => rfl⟩
    · exact fun _ => List.mem_append_left _ hmem
    · exact absurd (List.mem_append_left _ hmem)
    · exact absurd rfl
  · have hctx : s.nextState = .start ∨ s.nextState = .allowSignedNumber := by
      rcases hnext with hnext | hnext | hnext
      · exact .inl hnext
      · exact .inr hnext
      · exact absurd hnext hend
    obtain ⟨tok, s', hret, hout⟩ := @yylex_calm (s.withFlags inSql filenameP) hctx hzero hcalm
    have hle : s.tokPtr ≤ s.text.length := (hcalm.resolve_left hend).1
    have hnone : .endOfInput ∉ toks := fun hmem => Nat.not_lt.mpr hle (hpast hmem)
    refine ⟨tok, s', hret, ⟨hout.same, ?_, ?_, ?_, ?_⟩, fun _ => hout.ptr,
      fun hmem => absurd hmem hnone⟩
    · rcases hout.next with hnext | hnext | hnext
      · exact .inl hnext
      · exact .inr (.inl hnext)
      · exact .inr (.inr hnext.1)
    · intro hstate
      rcases hout.next with hnext | hnext | hnext
      · rw [hnext] at hstate
        cases hstate
      · rw [hnext] at hstate
        cases hstate
      · rw [hnext.2]
        simp
    · intro hmem
      rcases List.mem_append.mp hmem with hmem | hmem
      · exact absurd hmem hnone
      · exact hout.past (List.mem_singleton.mp hmem).symm
    · intro hno
      exact hout.within fun heq => hno (by simp [heq])

theorem run_between (hzero : 0 ∉ text) (h : Run text toks s) : Between text toks s := by
  induction h with
  | init =>
    refine ⟨rfl, .inl rfl, fun heq => ?_, fun hmem => ?_, fun _ => Nat.zero_le _⟩
    · cases heq
    · cases hmem
  | call _ hcalm hret ih =>
    obtain ⟨tok, s', hret', hbetween, -⟩ := ih.call hzero hcalm
    obtain ⟨rfl, rfl⟩ := Prod.mk.inj (Except.ok.inj (hret.unique hret'))
    exact hbetween

/-- In a run of calm calls each call returns, goes on in the text, and returns 0 behind its end. -/
theorem scanner_run (hzero : 0 ∉ text) (hrun : Run text toks s)
    (hcalm : Calm (s.withFlags inSql filenameP)) :
    ∃ tok s', Returns (fun n => (s.withFlags inSql filenameP).yylex n) (.ok (tok, s')) ∧
      (tok ≠ .zero → s.tokPtr < s'.tokPtr) ∧ (.endOfInput ∈ toks → tok = .zero) := by
  obtain ⟨tok, s', hret, -, hptr, hend⟩ := (run_between hzero hrun).call hzero hcalm
  exact ⟨tok, s', hret, hptr, hend⟩

theorem skips_token {c : Byte} {cs rest : List Byte} (hc : blank c = false) (hhash : c ≠ 35)
    (hslash : c ≠ 47) (h : Skips (c :: cs) rest) : rest = c :: cs := by
  cases h with
  | refl => rfl
  | blank hblank _ =>
    rw [hc] at hblank
    cases hblank
  | comment => exact absurd rfl hhash
  | longComment => exact absurd rfl hslash

/-- The text `x`. -/
theorem scanner_run_name : ∃ tok s',
    Returns (fun n => ((Scanner.sqlInitScanner [120]).withFlags true false).yylex n)
      (.ok (tok, s')) ∧
      (tok ≠ .zero → 0 < s'.tokPtr) ∧ (.endOfInput ∈ ([] : List Token) → tok = .zero) := by
  refine @scanner_run [120] [] (Scanner.sqlInitScanner [120]) true false (by decide) .init
    (.inr ⟨by decide, ?_⟩)
  intro c cs hskips
  obtain ⟨rfl, rfl⟩ := List.cons.inj (skips_token (by decide) (by decide) (by decide) hskips)
  exact ⟨by decide, by decide, by decide, by decide⟩

/-- The third call at the end of an empty text reads past it. -/
theorem emptyText_third : ∃ s s',
    Returns (fun n => (Scanner.sqlInitScanner []).yylex n) (.ok (.endOfInput, s)) ∧
      Returns (fun n => s.yylex n) (.ok (.zero, s')) ∧
      Returns (fun n => s'.yylex n) (.error .pastEnd) :=
  ⟨_, _, Scanner.returns_step rfl (Scanner.returns_done rfl), Scanner.returns_done rfl,
    Scanner.returns_fault rfl⟩

end Runs

end StreamMill.Lex
