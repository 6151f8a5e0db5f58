import StreamMill.Lex.Reading

/-!
# StreamMill.Lex.Number

Numbers without a sign. `Longest` is the longest number at the front of a text; `scansNumber_iff`
says when a call returns it. Behind a fraction the scanner takes every `e` for that of an exponent,
and behind an integer it takes a point that follows an `e` for that of a fraction.
-/

namespace StreamMill.Lex

open ImDb (Byte)
open Lib (Returns)
open Scanner (isExp isSign)

def Digits (xs : List Byte) : Prop := ∀ c ∈ xs, isdigit c = true

/-- `.[digits]`, or nothing. -/
def Fraction (fr : List Byte) : Prop := fr = [] ∨ ∃ fs, Digits fs ∧ fr = 46 :: fs

def Exponent (ex : List Byte) : Prop :=
  ex = [] ∨ ∃ e sgn xs, isExp e = true ∧ isSign sgn = true ∧ Digits xs ∧ xs ≠ [] ∧
    ex = e :: sgn :: xs

/-- `digits[.[digits]][(e|E)(+|-)digits]` -/
def Number (w : List Byte) : Prop :=
  ∃ ds fr ex, Digits ds ∧ ds ≠ [] ∧ Fraction fr ∧ Exponent ex ∧ w = ds ++ (fr ++ ex)

def Longest (rest w : List Byte) : Prop :=
  w <+: rest ∧ Number w ∧ ∀ w', w' <+: rest → Number w' → w'.length ≤ w.length

def LongestExponent (rest ex : List Byte) : Prop :=
  ex <+: rest ∧ Exponent ex ∧ ∀ ex', ex' <+: rest → Exponent ex' → ex'.length ≤ ex.length

def ScansNumber (s : Scanner) : Prop :=
  ∃ w s', Longest (s.text.drop s.tokPtr) w ∧
    Returns (fun n => s.yylex n)
      (.ok (if w.all isdigit then .num s.inSql else .realNum s.inSql, s')) ∧
    s'.yytext = w ∧ s'.tokPtr = s.tokPtr + w.length

/-- An `e` behind a fraction that no exponent begins with, or an `e` with a point behind an integer.
-/
def Stray (rest : List Byte) : Prop :=
  ∃ ds e more, Digits ds ∧ ds ≠ [] ∧ isExp e = true ∧
    (rest = ds ++ e :: 46 :: more ∨
      ∃ fs, Digits fs ∧ rest = ds ++ 46 :: (fs ++ e :: more) ∧ LongestExponent (e :: more) [])

section Forms

variable {ds ds' fs u v rest more ex xs : List Byte} {c e sgn : Byte}

theorem isdigit_graph (hc : isdigit c = true) : isgraph c = true := by
  simp only [isdigit, isgraph, Bool.and_eq_true, decide_eq_true_eq] at hc ⊢
  omega

theorem exp_not_digit (he : isExp e = true) : isdigit e = false := by
  simp only [isExp, Bool.or_eq_true, decide_eq_true_eq] at he
  rcases he with rfl | rfl <;> rfl

theorem exp_ne_point (he : isExp e = true) : e ≠ 46 := by
  rintro rfl
  cases he

theorem sign_ne_point (hs : isSign sgn = true) : sgn ≠ 46 := by
  rintro rfl
  cases hs

theorem Exponent.stops (hx : Exponent ex) : Stops isdigit ex := by
  rcases hx with rfl | ⟨e, sgn, xs, he, -, -, -, rfl⟩
  · exact stops_nil
  · exact stops_cons.mpr (exp_not_digit he)

theorem Fraction.stops {fr : List Byte} (hfr : Fraction fr) (hx : Exponent ex) :
    Stops isdigit (fr ++ ex) := by
  rcases hfr with rfl | ⟨fs, -, rfl⟩
  · exact hx.stops
  · exact stops_cons.mpr rfl

theorem digits_prefix (hds' : Digits ds') (hds : Digits ds) (hu : Stops isdigit u)
    (hv : Stops isdigit v) (hp : ds' ++ u <+: ds ++ v) :
    (ds' = ds ∧ u <+: v) ∨ (u = [] ∧ ds'.length ≤ ds.length) := by
  induction ds' generalizing ds with
  | nil =>
    rcases ds with _ | ⟨d, ds⟩
    · exact .inl ⟨rfl, hp⟩
    · rcases u with _ | ⟨c, u⟩
      · exact .inr ⟨rfl, by simp⟩
      · obtain ⟨rfl, -⟩ := List.cons_prefix_cons.mp hp
        have hno := hu c rfl
        rw [hds c List.mem_cons_self] at hno
        cases hno
  | cons d' ds' ih =>
    rw [Digits, List.forall_mem_cons] at hds'
    rcases ds with _ | ⟨d, ds⟩
    · have hhead : d' ∈ v.head? := by
        obtain ⟨t, rfl⟩ := hp
        rfl
      have hno := hv d' hhead
      rw [hds'.1] at hno
      cases hno
    · rw [Digits, List.forall_mem_cons] at hds
      obtain ⟨rfl, hrest⟩ := List.cons_prefix_cons.mp hp
      rcases ih hds'.2 hds.2 hrest with ⟨rfl, hu⟩ | ⟨rfl, hlen⟩
      · exact .inl ⟨rfl, hu⟩
      · exact .inr ⟨rfl, Nat.succ_le_succ hlen⟩

theorem longestExponent_nil (hno : ∀ e sgn d more, rest = e :: sgn :: d :: more → isExp e = true →
    isSign sgn = true → isdigit d = false) : LongestExponent rest [] := by
  refine ⟨List.nil_prefix, .inl rfl, fun ex hp hx => ?_⟩
  rcases hx with rfl | ⟨e, sgn, xs, he, hs, hxs, hne, rfl⟩
  · exact le_refl _
  · rcases xs with _ | ⟨d, xs⟩
    · exact absurd rfl hne
    · obtain ⟨more, rfl⟩ := hp
      have hd := hno e sgn d (xs ++ more) rfl he hs
      rw [hxs d List.mem_cons_self] at hd
      cases hd

theorem longestExponent_digits (he : isExp e = true) (hs : isSign sgn = true) (hxs : Digits xs)
    (hne : xs ≠ []) (hmore : Stops isdigit more) :
    LongestExponent (e :: sgn :: (xs ++ more)) (e :: sgn :: xs) := by
  refine ⟨⟨more, rfl⟩, .inr ⟨e, sgn, xs, he, hs, hxs, hne, rfl⟩, fun ex hp hx => ?_⟩
  rcases hx with rfl | ⟨e', sgn', xs', -, -, hxs', -, rfl⟩
  · exact Nat.zero_le _
  · obtain ⟨-, hp⟩ := List.cons_prefix_cons.mp hp
    obtain ⟨-, hp⟩ := List.cons_prefix_cons.mp hp
    rw [← List.append_nil xs'] at hp
    rcases digits_prefix hxs' hxs stops_nil hmore hp with ⟨rfl, -⟩ | ⟨-, hlen⟩
    · exact le_refl _
    · exact Nat.succ_le_succ (Nat.succ_le_succ hlen)

theorem not_digit_behind (he : isExp e = true) (hsgn : isSign sgn = true)
    (hno : LongestExponent (e :: sgn :: v) []) : isdigit (v.headD 0) = false := by
  rcases v with _ | ⟨x, v⟩
  · rfl
  · by_contra hx
    have hmax := hno.2.2 [e, sgn, x] ⟨v, rfl⟩
      (.inr ⟨e, sgn, [x], he, hsgn, by simpa [Digits] using hx, by simp, rfl⟩)
    simp at hmax

theorem longest_integer (hds : Digits ds) (hne : ds ≠ []) (hv : Stops isdigit v)
    (hpoint : ∀ t, v ≠ 46 :: t) (hx : LongestExponent v ex) : Longest (ds ++ v) (ds ++ ex) := by
  obtain ⟨hpre, hexp, hmax⟩ := hx
  refine ⟨(List.prefix_append_right_inj ds).mpr hpre,
    ⟨ds, [], ex, hds, hne, .inl rfl, hexp, rfl⟩, ?_⟩
  rintro w hp ⟨ds', fr, ex', hds', -, hfr, hexp', rfl⟩
  rw [List.length_append, @List.length_append _ ds]
  rcases digits_prefix hds' hds (hfr.stops hexp') hv hp with ⟨rfl, hrest⟩ | ⟨hnil, hlen⟩
  · rcases hfr with rfl | ⟨fs, -, rfl⟩
    · exact Nat.add_le_add_left (hmax _ hrest hexp') _
    · obtain ⟨t, rfl⟩ := hrest
      exact absurd rfl (hpoint _)
  · rw [hnil]
    exact hlen.trans (Nat.le_add_right _ _)

theorem longest_fraction (hds : Digits ds) (hne : ds ≠ []) (hfs : Digits fs)
    (hv : Stops isdigit v) (hx : LongestExponent v ex) :
    Longest (ds ++ 46 :: (fs ++ v)) (ds ++ 46 :: (fs ++ ex)) := by
  obtain ⟨hpre, hexp, hmax⟩ := hx
  refine ⟨?_, ⟨ds, 46 :: fs, ex, hds, hne, .inr ⟨fs, hfs, rfl⟩, hexp, rfl⟩, ?_⟩
  · exact (List.prefix_append_right_inj ds).mpr
      (List.cons_prefix_cons.mpr ⟨rfl, (List.prefix_append_right_inj fs).mpr hpre⟩)
  rintro w hp ⟨ds', fr, ex', hds', -, hfr, hexp', rfl⟩
  have hpoint : Stops isdigit (46 :: (fs ++ v)) := stops_cons.mpr rfl
  simp only [List.length_append, List.length_cons]
  rcases digits_prefix hds' hds (hfr.stops hexp') hpoint hp with ⟨rfl, hrest⟩ | ⟨hnil, hlen⟩
  · rcases hfr with rfl | ⟨fs', hfs', rfl⟩
    · rcases hexp' with rfl | ⟨e, sgn, xs, he, -, -, -, rfl⟩
      · simp
      · exact absurd (List.cons_prefix_cons.mp hrest).1 (exp_ne_point he)
    · obtain ⟨-, hmore⟩ := List.cons_prefix_cons.mp hrest
      rcases digits_prefix hfs' hfs hexp'.stops hv hmore with ⟨rfl, hex⟩ | ⟨rfl, hlen⟩
      · have hle := hmax _ hex hexp'
        simp only [List.length_cons]
        omega
      · simp only [List.length_cons, List.length_nil]
        omega
  · have hzero := congrArg List.length hnil
    rw [List.length_append, List.length_nil] at hzero
    omega

end Forms

namespace Scanner

section States

variable {s : Scanner} {ds xs v more : List Byte} {d e sgn : Byte}
  {r : Except Fault (Token × Scanner)}

def inNumber (s : Scanner) (d : Byte) : Scanner :=
  { s.enter with c := d, tokPtr := s.tokPtr + 1, state := .number }

theorem yylex_digit (hctx : s.nextState = .start ∨ s.nextState = .allowSignedNumber)
    (hfile : s.filenameP = false) (h : At s.text s.tokPtr (d :: v)) (hd : isdigit d = true)
    (hr : Returns (fun n => run n (s.inNumber d)) r) : Returns (fun n => s.yylex n) r := by
  have hgraph := isdigit_graph hd
  have hstate := stateOf_graph d hgraph
  rw [if_pos hd] at hstate
  have hblank : Stops blank (d :: v) := stops_cons.mpr (by simp [blank, hgraph])
  have henter : At s.enter.text s.enter.tokPtr ([] ++ d :: v) := h
  have hstart : s.enter.startState = .ok (.inl (s.inNumber d)) :=
    @startState_at s.enter [] (d :: v) hfile henter (by simp) hblank .number hstate
  refine returns_step ?_ hr
  rw [step]
  rcases hctx with hctx | hctx
  · rw [show s.enter.state = .start from hctx]
    exact hstart
  · rw [show s.enter.state = .allowSignedNumber from hctx]
    exact hstart

theorem numberState_plain (h : At s.text s.tokPtr (ds ++ v)) (hds : Digits ds)
    (hv : Stops isdigit v) (hexp : isExp (v.headD 0) = false) :
    s.numberState = .ok (.inl { s with
      c := v.headD 0, tokPtr := s.tokPtr + ds.length + 1, state := .intOrReal }) := by
  rw [numberState, getWhile_at h hds hv]
  show (if isExp (v.headD 0) = true then _ else _) = _
  rw [if_neg (by rw [hexp]; decide)]

theorem numberState_exponent (h : At s.text s.tokPtr (ds ++ e :: sgn :: (xs ++ more)))
    (hds : Digits ds) (he : isExp e = true) (hsgn : isSign sgn = true) (hxs : Digits xs)
    (hne : xs ≠ []) (hmore : Stops isdigit more) :
    ∃ s', s.numberState = .ok (.inr (.realNum s.inSql, s')) ∧
      s'.tokPtr = s.tokPtr + ds.length + 2 + xs.length ∧
      s'.yytext = copyToken s.text s.tokStart s'.tokPtr := by
  have hv : Stops isdigit (e :: sgn :: (xs ++ more)) := stops_cons.mpr (exp_not_digit he)
  obtain ⟨x, xs, rfl⟩ := List.exists_cons_of_ne_nil hne
  have hsign := h.append.cons
  refine ⟨{ ({ s with
    c := sgn
    tokPtr := s.tokPtr + ds.length + 1 + 1 + (x :: xs).length }.copy) with nextState := .start },
    ?_, by simp [copy], rfl⟩
  · rw [numberState, getWhile_at h hds hv]
    show (if isExp e = true then _ else _) = _
    rw [if_pos he, get_at hsign]
    show (if isSign sgn = true then _ else _) = _
    rw [if_pos hsgn]
    rw [hsign.cons.readAt]
    show (if isdigit x = true then _ else _) = _
    rw [if_pos (hxs x List.mem_cons_self), hsign.cons.readEnd hxs hmore]
    rfl

theorem numberState_stray (h : At s.text s.tokPtr (ds ++ e :: v)) (hds : Digits ds)
    (he : isExp e = true) (hno : LongestExponent (e :: v) []) :
    s.numberState = .ok (.inl { s with
      c := v.headD 0, tokPtr := s.tokPtr + ds.length + 1, state := .intOrReal }) := by
  have hv : Stops isdigit (e :: v) := stops_cons.mpr (exp_not_digit he)
  have hsign := h.append.cons
  rw [numberState, getWhile_at h hds hv]
  show (if isExp e = true then _ else _) = _
  rw [if_pos he, get_at hsign]
  show (if isSign (v.headD 0) = true then _ else _) = _
  by_cases hsgn : isSign (v.headD 0) = true
  · obtain ⟨sgn, v, rfl⟩ : ∃ sgn v', v = sgn :: v' := by
      rcases v with _ | ⟨sgn, v⟩
      · cases hsgn
      · exact ⟨sgn, v, rfl⟩
    rw [if_pos hsgn]
    rw [hsign.cons.readAt]
    show (if isdigit (v.headD 0) = true then _ else _) = _
    rw [if_neg (by rw [not_digit_behind he hsgn hno]; decide)]
    rfl
  · rw [if_neg hsgn]
    rfl

theorem intOrRealState_num (hc : s.c ≠ 46) :
    s.intOrRealState = .ok (.inr (.num s.inSql, { s.unget.copy with nextState := .start })) := by
  rw [intOrRealState, if_pos hc]

theorem realState_plain (h : At s.text s.tokPtr (ds ++ v)) (hds : Digits ds)
    (hv : Stops isdigit v) (hexp : isExp (v.headD 0) = false) :
    ∃ s', s.realState = .ok (.inr (.realNum s.inSql, s')) ∧ s'.tokPtr = s.tokPtr + ds.length ∧
      s'.yytext = copyToken s.text s.tokStart s'.tokPtr := by
  refine ⟨{ ({ s with c := v.headD 0, tokPtr := s.tokPtr + ds.length }.copy) with
    nextState := .start }, ?_, rfl, rfl⟩
  rw [realState, getWhile_at h hds hv]
  show (if isExp (v.headD 0) = true then _ else _) = _
  rw [if_neg (by rw [hexp]; decide)]
  rfl

theorem realState_exponent (h : At s.text s.tokPtr (ds ++ e :: sgn :: (xs ++ more)))
    (hds : Digits ds) (he : isExp e = true) (hsgn : isSign sgn = true) (hxs : Digits xs)
    (hne : xs ≠ []) (hmore : Stops isdigit more) :
    ∃ s', s.realState = .ok (.inr (.realNum s.inSql, s')) ∧
      s'.tokPtr = s.tokPtr + ds.length + 2 + xs.length ∧
      s'.yytext = copyToken s.text s.tokStart s'.tokPtr := by
  have hv : Stops isdigit (e :: sgn :: (xs ++ more)) := stops_cons.mpr (exp_not_digit he)
  obtain ⟨x, xs, rfl⟩ := List.exists_cons_of_ne_nil hne
  have hsign := h.append.cons
  refine ⟨{ ({ s with
    c := sgn
    tokPtr := s.tokPtr + ds.length + 1 + 1 + 1 + xs.length }.copy) with nextState := .start },
    ?_, ?_, rfl⟩
  · rw [realState, getWhile_at h hds hv]
    show (if isExp e = true then _ else _) = _
    rw [if_pos he, get_at hsign]
    show (if (!isSign sgn) = true then _ else _) = _
    rw [if_neg (by simp [hsgn])]
    rw [hsign.cons.readAt]
    show (if (!isdigit x) = true then _ else _) = _
    rw [if_neg (by simp [hxs x List.mem_cons_self])]
    have hrest : Digits xs := fun c hc => hxs c (List.mem_cons_of_mem _ hc)
    rw [hsign.cons.cons.readEnd hrest hmore]
    rfl
  · simp only [copy, List.length_cons]
    omega

theorem realState_stray (h : At s.text s.tokPtr (ds ++ e :: v)) (hds : Digits ds)
    (he : isExp e = true) (hno : LongestExponent (e :: v) []) :
    ∃ s', s.realState = .ok (.inl s') ∧ s'.state = .char ∧ s'.text = s.text ∧
      s'.tokStart = s.tokStart := by
  have hv : Stops isdigit (e :: v) := stops_cons.mpr (exp_not_digit he)
  have hsign := h.append.cons
  rw [realState, getWhile_at h hds hv]
  show ∃ s', (if isExp e = true then _ else _) = _ ∧ _
  rw [if_pos he, get_at hsign]
  show ∃ s', (if (!isSign (v.headD 0)) = true then _ else _) = _ ∧ _
  by_cases hsgn : isSign (v.headD 0) = true
  · obtain ⟨sgn, v, rfl⟩ : ∃ sgn v', v = sgn :: v' := by
      rcases v with _ | ⟨sgn, v⟩
      · cases hsgn
      · exact ⟨sgn, v, rfl⟩
    rw [if_neg (by rw [hsgn]; decide)]
    rw [hsign.cons.readAt]
    show ∃ s', (if (!isdigit (v.headD 0)) = true then _ else _) = _ ∧ _
    rw [if_pos (by rw [not_digit_behind he hsgn hno]; rfl)]
    exact ⟨_, rfl, rfl, rfl, rfl⟩
  · rw [if_pos (by simpa using hsgn)]
    exact ⟨_, rfl, rfl, rfl, rfl⟩

end States

end Scanner

section Numbers

variable {ds ds' fs v v' more xs : List Byte} {e sgn : Byte}

theorem split_unique (hds : Digits ds) (hds' : Digits ds') (hv : Stops isdigit v)
    (hv' : Stops isdigit v') (heq : ds ++ v = ds' ++ v') : ds = ds' ∧ v = v' := by
  have hsame : ds = ds' := by
    rw [← takeWhile_append hds hv, heq, takeWhile_append hds' hv']
  subst hsame
  exact ⟨rfl, List.append_cancel_left heq⟩

theorem stray_integer (hds : Digits ds) (hne : ds ≠ []) (hv : Stops isdigit v)
    (hpoint : ∀ t, v ≠ 46 :: t) :
    Stray (ds ++ v) ↔ ∃ e more, isExp e = true ∧ v = e :: 46 :: more := by
  constructor
  · rintro ⟨ds', e, more, hds', -, he, heq | ⟨fs, hfs, heq, -⟩⟩
    · obtain ⟨-, rfl⟩ := split_unique hds hds' hv (stops_cons.mpr (exp_not_digit he)) heq
      exact ⟨e, more, he, rfl⟩
    · obtain ⟨-, rfl⟩ := split_unique hds hds' hv (stops_cons.mpr rfl) heq
      exact absurd rfl (hpoint _)
  · rintro ⟨e, more, he, rfl⟩
    exact ⟨ds, e, more, hds, hne, he, .inl rfl⟩

theorem stray_fraction (hds : Digits ds) (hne : ds ≠ []) (hfs : Digits fs)
    (hv : Stops isdigit v) : Stray (ds ++ 46 :: (fs ++ v)) ↔
      ∃ e more, isExp e = true ∧ v = e :: more ∧ LongestExponent (e :: more) [] := by
  constructor
  · rintro ⟨ds', e, more, hds', -, he, heq | ⟨fs', hfs', heq, hno⟩⟩
    · obtain ⟨-, hpoint⟩ := split_unique hds hds' (stops_cons.mpr rfl)
        (stops_cons.mpr (exp_not_digit he)) heq
      exact absurd (List.cons.inj hpoint).1.symm (exp_ne_point he)
    · obtain ⟨-, hpoint⟩ := split_unique hds hds' (stops_cons.mpr rfl) (stops_cons.mpr rfl) heq
      obtain ⟨-, rfl⟩ := split_unique hfs hfs' hv (stops_cons.mpr (exp_not_digit he))
        (List.cons.inj hpoint).2
      exact ⟨e, more, he, rfl, hno⟩
  · rintro ⟨e, more, he, rfl, hno⟩
    exact ⟨ds, e, more, hds, hne, he, .inr ⟨fs, hfs, rfl, hno⟩⟩

theorem exponent_cases (v : List Byte) : isExp (v.headD 0) = false ∨
    (∃ e sgn xs more, v = e :: sgn :: (xs ++ more) ∧ isExp e = true ∧ isSign sgn = true ∧
      Digits xs ∧ xs ≠ [] ∧ Stops isdigit more) ∨
    ∃ e v', v = e :: v' ∧ isExp e = true ∧ LongestExponent (e :: v') [] := by
  rcases v with _ | ⟨e, v⟩
  · exact .inl rfl
  by_cases he : isExp e = true
  · right
    by_cases hx : ∃ sgn xs more, v = sgn :: (xs ++ more) ∧ isSign sgn = true ∧ Digits xs ∧
        xs ≠ [] ∧ Stops isdigit more
    · obtain ⟨sgn, xs, more, rfl, hsgn, hxs, hne, hmore⟩ := hx
      exact .inl ⟨e, sgn, xs, more, rfl, he, hsgn, hxs, hne, hmore⟩
    · refine .inr ⟨e, v, rfl, he, longestExponent_nil fun e' sgn d more heq _ hsgn => ?_⟩
      obtain ⟨rfl, rfl⟩ := List.cons.inj heq
      by_contra hd
      obtain ⟨xs, ys, hsplit, hxs, hys⟩ := splits isdigit (d :: more)
      refine hx ⟨sgn, xs, ys, by rw [← hsplit], hsgn, hxs, ?_, hys⟩
      rintro rfl
      have hstop := hys d (by rw [← show d :: more = ys from hsplit]; rfl)
      exact hd hstop
  · exact .inl (by simpa using he)

theorem longestExponent_plain (hexp : isExp (v.headD 0) = false) : LongestExponent v [] := by
  refine longestExponent_nil fun e sgn d more heq he _ => ?_
  subst heq
  rw [show isExp e = false from hexp] at he
  cases he

end Numbers

namespace Scanner

section Calls

variable {s s' : Scanner} {ds fs v more xs : List Byte} {e sgn : Byte}
  {r : Except Fault (Token × Scanner)}

/-- The scanner is in front of the digits `ds`, which `v` follows. -/
structure AtDigits (s : Scanner) (ds v : List Byte) : Prop where
  ctx : s.nextState = .start ∨ s.nextState = .allowSignedNumber
  file : s.filenameP = false
  at_text : At s.text s.tokPtr (ds ++ v)
  digits : Digits ds
  ne : ds ≠ []

theorem step_number (hs : s.state = .number) : s.step = s.numberState := by
  rw [step, hs]

theorem step_intOrReal (hs : s.state = .intOrReal) : s.step = s.intOrRealState := by
  rw [step, hs]

theorem step_real (hs : s.state = .real) : s.step = s.realState := by
  rw [step, hs]

/-- The scanner behind the digits of an integer, where `c` follows. -/
def behind (s : Scanner) (ds : List Byte) (c : Byte) : Scanner :=
  { s.enter with c := c, tokPtr := s.tokPtr + ds.length + 1, state := .intOrReal }

theorem yylex_behind (h : AtDigits s ds v) (hv : Stops isdigit v) {c : Byte}
    (hc : (isExp (v.headD 0) = false ∧ c = v.headD 0) ∨
      ∃ e v', v = e :: v' ∧ isExp e = true ∧ LongestExponent (e :: v') [] ∧ c = v'.headD 0)
    (hr : Returns (fun n => run n (s.behind ds c)) r) : Returns (fun n => s.yylex n) r := by
  obtain ⟨hctx, hfile, h, hds, hne⟩ := h
  obtain ⟨d, ds, rfl⟩ := List.exists_cons_of_ne_nil hne
  rw [Digits, List.forall_mem_cons] at hds
  refine yylex_digit hctx hfile h hds.1 (@returns_step _ (s.behind (d :: ds) c) _ ?_ hr)
  have hat : At (s.inNumber d).text (s.inNumber d).tokPtr (ds ++ v) := h.cons
  have hlen : s.tokPtr + 1 + ds.length + 1 = s.tokPtr + (d :: ds).length + 1 := by
    rw [List.length_cons]
    omega
  rw [step_number rfl]
  rcases hc with ⟨hexp, rfl⟩ | ⟨e, v', rfl, he, hno, rfl⟩
  · rw [numberState_plain hat hds.2 hv hexp, behind, ← hlen]
    rfl
  · rw [numberState_stray hat hds.2 he hno, behind, ← hlen]
    rfl

theorem yylex_num (h : AtDigits s ds v) (hv : Stops isdigit v) {c : Byte} (hpoint : c ≠ 46)
    (hc : (isExp (v.headD 0) = false ∧ c = v.headD 0) ∨
      ∃ e v', v = e :: v' ∧ isExp e = true ∧ LongestExponent (e :: v') [] ∧ c = v'.headD 0) :
    ∃ s', Returns (fun n => s.yylex n) (.ok (.num s.inSql, s')) ∧ s'.yytext = ds ∧
      s'.tokPtr = s.tokPtr + ds.length := by
  refine ⟨_, yylex_behind h hv hc
    (returns_done ((step_intOrReal rfl).trans (intOrRealState_num hpoint))), ?_, rfl⟩
  exact h.at_text.copyToken

theorem yylex_exponent (h : AtDigits s ds (e :: sgn :: (xs ++ more))) (he : isExp e = true)
    (hsgn : isSign sgn = true) (hxs : Digits xs) (hnexs : xs ≠ []) (hmore : Stops isdigit more) :
    ∃ s', Returns (fun n => s.yylex n) (.ok (.realNum s.inSql, s')) ∧
      s'.yytext = ds ++ e :: sgn :: xs ∧
      s'.tokPtr = s.tokPtr + (ds ++ e :: sgn :: xs).length := by
  obtain ⟨hctx, hfile, h, hds, hne⟩ := h
  obtain ⟨d, ds, rfl⟩ := List.exists_cons_of_ne_nil hne
  rw [Digits, List.forall_mem_cons] at hds
  have hat : At (s.inNumber d).text (s.inNumber d).tokPtr (ds ++ e :: sgn :: (xs ++ more)) := h.cons
  obtain ⟨s', hstep, hptr, htext⟩ := numberState_exponent hat hds.2 he hsgn hxs hnexs hmore
  have hlen : s'.tokPtr = s.tokPtr + (d :: ds ++ e :: sgn :: xs).length := by
    rw [hptr, List.length_append, List.length_cons, List.length_cons, List.length_cons]
    simp only [inNumber]
    omega
  refine ⟨s', yylex_digit hctx hfile h hds.1 (returns_done ((step_number rfl).trans hstep)), ?_,
    hlen⟩
  have hsplit : At s.text s.tokPtr ((d :: ds ++ e :: sgn :: xs) ++ more) := by
    simpa using h
  rw [htext, hlen]
  exact hsplit.copyToken

theorem yylex_point (h : AtDigits s ds (46 :: v))
    (hr : Returns (fun n => run n { s.behind ds 46 with state := .real }) r) :
    Returns (fun n => s.yylex n) r := by
  have hplain : isExp ((46 :: v : List Byte).headD 0) = false := rfl
  refine yylex_behind h (stops_cons.mpr rfl) (.inl ⟨hplain, rfl⟩) (returns_step ?_ hr)
  rfl

theorem yylex_real (h : AtDigits s ds (46 :: (xs ++ v)))
    (hstep : { s.behind ds 46 with state := .real }.realState = .ok (.inr (.realNum s.inSql, s')))
    (hptr : s'.tokPtr = s.tokPtr + ds.length + 1 + xs.length)
    (htext : s'.yytext = copyToken s.text s.tokPtr s'.tokPtr) :
    ∃ s', Returns (fun n => s.yylex n) (.ok (.realNum s.inSql, s')) ∧ s'.yytext = ds ++ 46 :: xs ∧
      s'.tokPtr = s.tokPtr + (ds ++ 46 :: xs).length := by
  have hlen : s'.tokPtr = s.tokPtr + (ds ++ 46 :: xs).length := by
    rw [List.length_append, List.length_cons]
    omega
  refine ⟨s', yylex_point h (returns_done ((step_real rfl).trans hstep)), ?_, hlen⟩
  have hsplit : At s.text s.tokPtr ((ds ++ 46 :: xs) ++ v) := by
    simpa using h.at_text
  rw [htext, hlen]
  exact hsplit.copyToken

theorem yylex_fraction (h : AtDigits s ds (46 :: (fs ++ v))) (hfs : Digits fs)
    (hv : Stops isdigit v) (hexp : isExp (v.headD 0) = false) :
    ∃ s', Returns (fun n => s.yylex n) (.ok (.realNum s.inSql, s')) ∧ s'.yytext = ds ++ 46 :: fs ∧
      s'.tokPtr = s.tokPtr + (ds ++ 46 :: fs).length := by
  obtain ⟨s', hstep, hptr, htext⟩ := @realState_plain { s.behind ds 46 with state := .real } fs v
    h.at_text.append.cons hfs hv hexp
  exact yylex_real h hstep hptr htext

theorem yylex_full (h : AtDigits s ds (46 :: (fs ++ e :: sgn :: (xs ++ more)))) (hfs : Digits fs)
    (he : isExp e = true) (hsgn : isSign sgn = true) (hxs : Digits xs) (hnexs : xs ≠ [])
    (hmore : Stops isdigit more) :
    ∃ s', Returns (fun n => s.yylex n) (.ok (.realNum s.inSql, s')) ∧
      s'.yytext = ds ++ 46 :: (fs ++ e :: sgn :: xs) ∧
      s'.tokPtr = s.tokPtr + (ds ++ 46 :: (fs ++ e :: sgn :: xs)).length := by
  obtain ⟨s', hstep, hptr, htext⟩ := @realState_exponent { s.behind ds 46 with state := .real } fs
    xs more e sgn h.at_text.append.cons hfs he hsgn hxs hnexs hmore
  have hassoc : fs ++ e :: sgn :: (xs ++ more) = (fs ++ e :: sgn :: xs) ++ more := by simp
  rw [hassoc] at h
  refine yylex_real h hstep (hptr.trans ?_) htext
  simp only [behind, List.length_append, List.length_cons]
  omega

/-- Behind a fraction, an `e` that no exponent begins with: the first digit is returned alone. -/
theorem yylex_stray (h : AtDigits s ds (46 :: (fs ++ e :: v))) (hfs : Digits fs)
    (he : isExp e = true) (hno : LongestExponent (e :: v) []) :
    ∃ c s', Returns (fun n => s.yylex n) (.ok (.char c, s')) := by
  obtain ⟨t, hstep, hstate, htext, hstart⟩ := @realState_stray
    { s.behind ds 46 with state := .real } fs v e h.at_text.append.cons hfs he hno
  obtain ⟨d, ds, rfl⟩ := List.exists_cons_of_ne_nil h.ne
  have hback : At t.text t.tokStart (d :: (ds ++ 46 :: (fs ++ e :: v))) := by
    rw [htext, hstart]
    exact h.at_text
  exact ⟨d, _, yylex_point h (returns_step ((step_real rfl).trans hstep)
    (returns_done (step_char hstate hback)))⟩

/-- Behind an integer, an `e` before a point: the `e` becomes part of the number. -/
theorem yylex_letter (h : AtDigits s ds (e :: 46 :: v)) (he : isExp e = true) :
    ∃ s', Returns (fun n => s.yylex n) (.ok (.realNum s.inSql, s')) ∧ s'.yytext = ds ++ [e] := by
  have hno : LongestExponent (e :: 46 :: v) [] := by
    refine longestExponent_nil fun e' sgn d more heq _ hs => ?_
    obtain ⟨-, heq⟩ := List.cons.inj heq
    exact absurd (List.cons.inj heq).1.symm (sign_ne_point hs)
  have hat : At s.text (s.tokPtr + ds.length + 1) ([] ++ 46 :: v) := h.at_text.append.cons
  obtain ⟨s', hstep, hptr, htext⟩ := @realState_plain { s.behind ds 46 with state := .real } []
    (46 :: v) hat (by simp [Digits]) (stops_cons.mpr rfl) rfl
  refine ⟨s', yylex_behind h (stops_cons.mpr (exp_not_digit he))
    (.inr ⟨e, 46 :: v, rfl, he, hno, rfl⟩) (@returns_step _ { s.behind ds 46 with state := .real } _
      ?_ (returns_done ((step_real rfl).trans hstep))), ?_⟩
  · rfl
  · have hsplit : At s.text s.tokPtr ((ds ++ [e]) ++ 46 :: v) := by
      simpa using h.at_text
    have hcopy := hsplit.copyToken
    rw [List.length_append] at hcopy
    rw [htext, hptr]
    exact hcopy

end Calls

end Scanner

section Whole

variable {s s' : Scanner} {ds v w rest more xs : List Byte} {d e sgn : Byte}

theorem point_not_digits : (ds ++ 46 :: v).all isdigit = false := by
  rw [List.all_append, List.all_cons, show isdigit 46 = false from rfl, Bool.false_and,
    Bool.and_false]

theorem exp_not_digits (he : isExp e = true) : (ds ++ e :: v).all isdigit = false := by
  rw [List.all_append, List.all_cons, exp_not_digit he, Bool.false_and, Bool.and_false]

theorem digits_all (hds : Digits ds) : ds.all isdigit = true := List.all_eq_true.mpr hds

theorem Longest.unique {w' : List Byte} (h : Longest rest w) (h' : Longest rest w') : w = w' :=
  (List.prefix_of_prefix_length_le h.1 h'.1 (h'.2.2 w h.1 h.2.1)).eq_of_length
    (le_antisymm (h'.2.2 w h.1 h.2.1) (h.2.2 w' h'.1 h'.2.1))

theorem scans_num (hat : At s.text s.tokPtr rest) (hlong : Longest rest ds) (hds : Digits ds)
    (hret : Returns (fun n => s.yylex n) (.ok (.num s.inSql, s'))) (htext : s'.yytext = ds)
    (hptr : s'.tokPtr = s.tokPtr + ds.length) : ScansNumber s := by
  refine ⟨ds, s', by rwa [hat.drop], ?_, htext, hptr⟩
  rwa [if_pos (digits_all hds)]

theorem scans_real (hat : At s.text s.tokPtr rest) (hlong : Longest rest w)
    (hw : w.all isdigit = false)
    (hret : Returns (fun n => s.yylex n) (.ok (.realNum s.inSql, s'))) (htext : s'.yytext = w)
    (hptr : s'.tokPtr = s.tokPtr + w.length) : ScansNumber s := by
  refine ⟨w, s', by rwa [hat.drop], ?_, htext, hptr⟩
  rwa [if_neg (by rw [hw]; decide)]

theorem not_scans_char {c : Byte} (hret : Returns (fun n => s.yylex n) (.ok (.char c, s'))) :
    ¬ ScansNumber s := by
  rintro ⟨w, t, -, hret', -⟩
  have heq := congrArg Prod.fst (Except.ok.inj (hret.unique hret'))
  split at heq <;> cases heq

theorem not_scans_text {tok : Token} (hat : At s.text s.tokPtr rest) (hlong : Longest rest w)
    (hret : Returns (fun n => s.yylex n) (.ok (tok, s'))) (hw : s'.yytext ≠ w) :
    ¬ ScansNumber s := by
  rintro ⟨w', t, hlong', hret', htext, -⟩
  rw [hat.drop] at hlong'
  have heq := congrArg Prod.snd (Except.ok.inj (hret.unique hret'))
  dsimp only at heq
  rw [heq, htext] at hw
  exact hw (hlong'.unique hlong)

theorem scansNumber_integer (h : Scanner.AtDigits s ds v) (hv : Stops isdigit v)
    (hpoint : ∀ t, v ≠ 46 :: t) :
    ScansNumber s ↔ ¬ ∃ e more, isExp e = true ∧ v = e :: 46 :: more := by
  obtain ⟨-, -, hat, hds, hne⟩ := id h
  rcases exponent_cases v with hexp | ⟨e, sgn, xs, more, rfl, he, hsgn, hxs, hnexs, hmore⟩ |
    ⟨e, v, rfl, he, hno⟩
  · -- nothing follows the digits
    have hne46 : v.headD 0 ≠ 46 := by
      rcases v with _ | ⟨c, v⟩
      · decide
      · rintro rfl
        exact hpoint v rfl
    obtain ⟨s', hret, htext, hptr⟩ :=
      Scanner.yylex_num h hv hne46 (.inl ⟨hexp, rfl⟩)
    refine iff_of_true (scans_num hat ?_ hds hret htext hptr) ?_
    · simpa using longest_integer hds hne hv hpoint (longestExponent_plain hexp)
    · rintro ⟨e, more, he, rfl⟩
      rw [show isExp e = false from hexp] at he
      cases he
  · -- an exponent follows
    obtain ⟨s', hret, htext, hptr⟩ :=
      Scanner.yylex_exponent h he hsgn hxs hnexs hmore
    refine iff_of_true (scans_real hat (longest_integer hds hne hv hpoint
      (longestExponent_digits he hsgn hxs hnexs hmore)) (exp_not_digits he) hret htext hptr) ?_
    rintro ⟨e', more', -, heq⟩
    obtain ⟨-, heq⟩ := List.cons.inj heq
    exact absurd (List.cons.inj heq).1 (sign_ne_point hsgn)
  · -- a stray letter is given back, unless a point follows it
    have hlong : Longest (ds ++ e :: v) ds := by
      simpa using longest_integer hds hne hv hpoint hno
    by_cases h46 : v.headD 0 = 46
    · obtain ⟨v, rfl⟩ : ∃ v', v = 46 :: v' := by
        rcases v with _ | ⟨c, v⟩
        · cases h46
        · exact ⟨v, by rw [show c = 46 from h46]⟩
      obtain ⟨s', hret, htext⟩ := Scanner.yylex_letter h he
      refine iff_of_false (not_scans_text hat hlong hret ?_) (not_not.mpr ⟨e, v, he, rfl⟩)
      rw [htext]
      exact fun heq => by simpa using congrArg List.length heq
    · obtain ⟨s', hret, htext, hptr⟩ :=
        Scanner.yylex_num h hv h46 (.inr ⟨e, v, rfl, he, hno, rfl⟩)
      refine iff_of_true (scans_num hat hlong hds hret htext hptr) ?_
      rintro ⟨e', more, -, heq⟩
      exact h46 (by rw [(List.cons.inj heq).2]; rfl)

theorem scansNumber_fraction {fs : List Byte} (h : Scanner.AtDigits s ds (46 :: (fs ++ v)))
    (hfs : Digits fs) (hv : Stops isdigit v) : ScansNumber s ↔
      ¬ ∃ e more, isExp e = true ∧ v = e :: more ∧ LongestExponent (e :: more) [] := by
  obtain ⟨-, -, hat, hds, hne⟩ := id h
  rcases exponent_cases v with hexp | ⟨e, sgn, xs, more, rfl, he, hsgn, hxs, hnexs, hmore⟩ |
    ⟨e, v, rfl, he, hno⟩
  · obtain ⟨s', hret, htext, hptr⟩ :=
      Scanner.yylex_fraction h hfs hv hexp
    refine iff_of_true (scans_real hat ?_ point_not_digits hret htext hptr) ?_
    · simpa using longest_fraction hds hne hfs hv (longestExponent_plain hexp)
    · rintro ⟨e, more, he, rfl, -⟩
      rw [show isExp e = false from hexp] at he
      cases he
  · obtain ⟨s', hret, htext, hptr⟩ :=
      Scanner.yylex_full h hfs he hsgn hxs hnexs hmore
    have hlong := longestExponent_digits he hsgn hxs hnexs hmore
    refine iff_of_true (scans_real hat (longest_fraction hds hne hfs hv hlong) point_not_digits
      hret htext hptr) ?_
    rintro ⟨e', more', -, heq, hnil⟩
    rw [← heq] at hnil
    have hle := hnil.2.2 _ hlong.1 hlong.2.1
    simp at hle
  · obtain ⟨c, s', hret⟩ := Scanner.yylex_stray h hfs he hno
    exact iff_of_false (not_scans_char hret) (not_not.mpr ⟨e, v, he, rfl, hno⟩)

theorem not_scans_filename (hctx : s.nextState = .start ∨ s.nextState = .allowSignedNumber)
    (hfile : s.filenameP = true) (hat : At s.text s.tokPtr (d :: v)) (hd : isdigit d = true) :
    ¬ ScansNumber s := by
  obtain ⟨ys, rest, hsplit, hys, hrest⟩ := splits filenameChar (d :: v)
  have henter : At s.enter.text s.enter.tokPtr ([] ++ (ys ++ rest)) := by
    rw [← hsplit]
    exact hat
  have hblank : Stops blank (ys ++ rest) := by
    rw [← hsplit]
    exact stops_cons.mpr (by simp [blank, isdigit_graph hd])
  have hstart := @Scanner.startState_filename s.enter rest [] ys hfile henter (by simp) hys hblank
    hrest
  have hstep : s.enter.step = s.enter.startState := by
    rw [Scanner.step]
    rcases hctx with hctx | hctx
    · rw [show s.enter.state = .start from hctx]
    · rw [show s.enter.state = .allowSignedNumber from hctx]
  have hret : Returns (s.yylex) _ := Scanner.returns_done (hstep.trans hstart)
  rintro ⟨w, t, -, hret', -⟩
  have heq := congrArg Prod.fst (Except.ok.inj (hret.unique hret'))
  split at heq <;> cases heq

/-- A number is returned as the longest match exactly if no file name is read and no stray `e`
stands behind its digits. -/
theorem scansNumber_iff (s : Scanner)
    (hctx : s.nextState = .start ∨ s.nextState = .allowSignedNumber)
    (hdigit : isdigit (byteAt s.text s.tokPtr) = true) :
    ScansNumber s ↔ s.filenameP = false ∧ ¬ Stray (s.text.drop s.tokPtr) := by
  have hle : s.tokPtr ≤ s.text.length := by
    by_contra hlt
    rw [byteAt, List.getD_eq_getElem?_getD, List.getElem?_eq_none (by omega)] at hdigit
    cases hdigit
  obtain ⟨ds, v, hsplit, hds, hv⟩ := splits isdigit (s.text.drop s.tokPtr)
  have hat : At s.text s.tokPtr (ds ++ v) := ⟨hle, hsplit⟩
  have hne : ds ≠ [] := by
    rintro rfl
    have hno := Stops.head hv rfl
    rw [← (show At s.text s.tokPtr v from hat).byteAt, hdigit] at hno
    cases hno
  by_cases hfile : s.filenameP = true
  · obtain ⟨d, ds, rfl⟩ := List.exists_cons_of_ne_nil hne
    have hno := not_scans_filename hctx hfile hat (hds d List.mem_cons_self)
    refine iff_of_false hno fun hcond => ?_
    rw [hfile] at hcond
    cases hcond.1
  rw [Bool.not_eq_true] at hfile
  rw [hsplit, and_iff_right hfile]
  have h : Scanner.AtDigits s ds v := ⟨hctx, hfile, hat, hds, hne⟩
  by_cases hpoint : ∀ t, v ≠ 46 :: t
  · rw [scansNumber_integer h hv hpoint, stray_integer hds hne hv hpoint]
  · simp only [not_forall, not_not] at hpoint
    obtain ⟨t, rfl⟩ := hpoint
    obtain ⟨fs, u, rfl, hfs, hu⟩ := splits isdigit t
    rw [scansNumber_fraction h hfs hu, stray_fraction hds hne hfs hu]

/-- `12.5e+3 x` -/
theorem scansNumber_real :
    ScansNumber (Scanner.sqlInitScanner [49, 50, 46, 53, 101, 43, 51, 32, 120]) := by
  refine (scansNumber_iff _ (.inl rfl) (by decide)).mpr ⟨rfl, ?_⟩
  have hsplit : ([49, 50, 46, 53, 101, 43, 51, 32, 120] : List Byte) =
      [49, 50] ++ 46 :: ([53] ++ [101, 43, 51, 32, 120]) := rfl
  show ¬ Stray [49, 50, 46, 53, 101, 43, 51, 32, 120]
  rw [hsplit, stray_fraction (by simp [Digits, isdigit]) (by simp) (by simp [Digits, isdigit])
    (stops_cons.mpr rfl)]
  rintro ⟨e, more, -, heq, hno⟩
  obtain ⟨rfl, rfl⟩ := List.cons.inj heq
  have hdigit : isdigit 51 = false := @not_digit_behind [51, 32, 120] 101 43 rfl rfl hno
  cases hdigit

/-- `1.5else` -/
theorem scansNumber_else :
    ¬ ScansNumber (Scanner.sqlInitScanner [49, 46, 53, 101, 108, 115, 101]) := by
  have hat : At [49, 46, 53, 101, 108, 115, 101] 0 ([49] ++ 46 :: ([53] ++ [101, 108, 115, 101])) :=
    ⟨by simp, rfl⟩
  rw [@scansNumber_fraction (Scanner.sqlInitScanner [49, 46, 53, 101, 108, 115, 101]) [49]
    [101, 108, 115, 101] [53] ⟨.inl rfl, rfl, hat, by simp [Digits, isdigit], by simp⟩
    (by simp [Digits, isdigit]) (stops_cons.mpr rfl), not_not]
  refine ⟨101, [108, 115, 101], rfl, rfl, longestExponent_nil fun e sgn d more heq _ hsgn => ?_⟩
  obtain ⟨-, heq⟩ := List.cons.inj heq
  rw [← (List.cons.inj heq).1] at hsgn
  cases hsgn

end Whole

end StreamMill.Lex
