import StreamMill.Lex.Scanner
import StreamMill.Lib.CString

/-!
# StreamMill.Lex.TextLiteral

Text literals on their way to C. The scanner keeps the escapes of a literal as they are, and
`Tr_QuoteString` puts it between double quotes. The C literal never denotes more characters than the
SQL literal has, and it denotes the same ones exactly if the text is `Plain` (`survives_iff`).
-/

namespace StreamMill.Lex

open ImDb (Byte)
open Lib.CString (splice splice_cons splice_pair Body CLiteral escape_cases)

def trQuoteString (s : List Byte) : List Byte := 34 :: (s ++ [34])

/-- The characters of an SQL literal: a backslash before a quote or a backslash stands for that
character. -/
def sqlChars : List Byte → List Byte
  | [] => []
  | [c] => [c]
  | c :: d :: cs => if c = 92 ∧ (d = 39 ∨ d = 92) then d :: sqlChars cs else c :: sqlChars (d :: cs)

inductive Plain : List Byte → Prop
  | nil : Plain []
  | char {c : Byte} {cs : List Byte} : c ≠ 34 → c ≠ 92 → c ≠ 10 → Plain cs → Plain (c :: cs)
  | escape {d : Byte} {cs : List Byte} : d = 39 ∨ d = 92 → Plain cs → Plain (92 :: d :: cs)

structure TextLiteral where
  input : List Byte
  text : List Byte
  read : readTextLiteral input = some text

def TextLiteral.Survives (l : TextLiteral) : Prop :=
  CLiteral (trQuoteString l.text) (sqlChars l.text)

section Chars

variable {c d : Byte} {cs ds es chars : List Byte}

theorem sqlChars_pair : sqlChars (c :: d :: cs) =
    if c = 92 ∧ (d = 39 ∨ d = 92) then d :: sqlChars cs else c :: sqlChars (d :: cs) := by
  rw [sqlChars]

theorem sqlChars_cons (hc : c ≠ 92) : sqlChars (c :: cs) = c :: sqlChars cs := by
  rcases cs with _ | ⟨d, cs⟩
  · rfl
  · rw [sqlChars_pair, if_neg fun h => hc h.1]

theorem sqlChars_escape (hd : d = 39 ∨ d = 92) : sqlChars (92 :: d :: cs) = d :: sqlChars cs := by
  rw [sqlChars_pair, if_pos ⟨rfl, hd⟩]

theorem sqlChars_backslash (hd : d ≠ 39) (hd' : d ≠ 92) :
    sqlChars (92 :: d :: cs) = 92 :: d :: sqlChars cs := by
  rw [sqlChars_pair, if_neg fun h => h.2.elim hd hd', sqlChars_cons hd']

theorem sqlChars_append (hes : ∀ c ∈ es, c ≠ 92) : sqlChars (es ++ cs) = es ++ sqlChars cs := by
  induction es with
  | nil => rfl
  | cons e es ih =>
    rw [List.forall_mem_cons] at hes
    rw [List.cons_append, sqlChars_cons hes.1, ih hes.2, List.cons_append]

theorem sqlChars_concat (hc : c ≠ 39) (hc' : c ≠ 92) (cs : List Byte) :
    sqlChars (cs ++ [c]) = sqlChars cs ++ [c] := by
  fun_induction sqlChars cs with
  | case1 => rfl
  | case2 d =>
    by_cases hd : d = 92
    · subst hd
      exact sqlChars_backslash hc hc'
    · exact sqlChars_cons hd
  | case3 d e cs hpair ih =>
    obtain ⟨rfl, he⟩ := hpair
    rw [List.cons_append, List.cons_append, sqlChars_escape he, ih, List.cons_append]
  | case4 d e cs hpair ih =>
    rw [List.cons_append, List.cons_append, sqlChars_pair, if_neg hpair, ← List.cons_append, ih,
      List.cons_append]

theorem sqlChars_length_cons (c : Byte) (cs : List Byte) :
    (sqlChars cs).length ≤ (sqlChars (c :: cs)).length ∧
      (sqlChars (c :: cs)).length ≤ (sqlChars cs).length + 1 := by
  induction cs generalizing c with
  | nil => exact ⟨Nat.zero_le _, le_refl _⟩
  | cons d cs ih =>
    obtain ⟨hless, hmore⟩ := ih d
    rw [sqlChars_pair]
    split
    · simp only [List.length_cons]
      omega
    · simp only [List.length_cons]
      omega

theorem splice_length (cs : List Byte) :
    splice cs = cs ∨ (sqlChars (splice cs)).length < (sqlChars cs).length := by
  induction hn : cs.length using Nat.strong_induction_on generalizing cs with
  | _ n ih =>
  subst hn
  rcases cs with _ | ⟨c, _ | ⟨d, cs⟩⟩
  · exact .inl rfl
  · exact .inl rfl
  -- a backslash disappears with a newline
  have hpair (cs : List Byte) (hle : (sqlChars (splice cs)).length ≤ (sqlChars cs).length) :
      (sqlChars (splice (92 :: 10 :: cs))).length + 1 < (sqlChars (92 :: 10 :: cs)).length := by
    rw [splice_pair, sqlChars_backslash (by decide) (by decide)]
    simp only [List.length_cons]
    omega
  have hle {ds : List Byte} (hlt : ds.length < (c :: d :: cs).length) :
      (sqlChars (splice ds)).length ≤ (sqlChars ds).length := by
    rcases ih _ hlt ds rfl with hsame | hless
    · rw [hsame]
    · exact hless.le
  by_cases hline : c = 92 ∧ d = 10
  · obtain ⟨rfl, rfl⟩ := hline
    have hless := hpair cs (hle (by simp only [List.length_cons]; omega))
    exact .inr (by omega)
  have hkeep : c ≠ 92 ∨ (d :: cs).head? ≠ some 10 :=
    (Decidable.not_and_iff_or_not.mp hline).imp_right fun hne heq => hne (Option.some.inj heq)
  rw [splice_cons hkeep]
  by_cases hesc : c = 92 ∧ (d = 39 ∨ d = 92)
  · obtain ⟨rfl, hd⟩ := hesc
    rw [sqlChars_escape hd]
    by_cases hnext : d ≠ 92 ∨ cs.head? ≠ some 10
    · rw [splice_cons hnext, sqlChars_escape hd]
      rcases ih _ (by simp only [List.length_cons]; omega) cs rfl with hsame | hless
      · exact .inl (by rw [hsame])
      · exact .inr (Nat.succ_lt_succ hless)
    · -- the escaped backslash takes the newline with it
      rw [not_or, not_not, not_not] at hnext
      obtain ⟨rfl, hhead⟩ := hnext
      obtain ⟨cs, rfl⟩ : ∃ cs', cs = 10 :: cs' := by
        rcases cs with _ | ⟨e, cs⟩
        · cases hhead
        · exact ⟨cs, by rw [Option.some.inj hhead]⟩
      have hless := hpair cs (hle (by simp only [List.length_cons]; omega))
      have hmore := (sqlChars_length_cons 92 (splice (92 :: 10 :: cs))).2
      have hmore' := (sqlChars_length_cons 92 (10 :: cs)).2
      rw [List.length_cons]
      omega
  · rcases ih _ (by simp only [List.length_cons]; omega) (d :: cs) rfl with hsame | hless
    · exact .inl (by rw [hsame])
    · have hmore := (sqlChars_length_cons c (splice (d :: cs))).2
      rw [sqlChars_pair, if_neg hesc, List.length_cons]
      omega

theorem Plain.body (h : Plain cs) : Body (cs ++ [34]) (sqlChars cs) := by
  induction h with
  | nil => exact .close
  | char h34 h92 h10 _ ih =>
    rw [sqlChars_cons h92]
    exact .char h34 h92 h10 ih
  | @escape d cs hd _ ih =>
    rw [sqlChars_escape hd]
    refine @Body.escape (d :: (cs ++ [34])) [d] (cs ++ [34]) _ ?_ ih
    rcases hd with rfl | rfl <;> rfl

theorem Plain.head (h : Plain cs) : (cs ++ [34]).head? ≠ some 10 := by
  cases h with
  | nil => decide
  | char _ _ h10 _ => exact fun heq => h10 (Option.some.inj heq)
  | escape _ _ => exact fun heq => absurd (Option.some.inj heq) (by decide)

theorem Plain.splice (h : Plain cs) : splice (cs ++ [34]) = cs ++ [34] := by
  induction h with
  | nil => rfl
  | char h34 h92 h10 _ ih => rw [List.cons_append, splice_cons (.inl h92), ih]
  | @escape d cs hd hplain ih =>
    have hhead : (d :: (cs ++ [34])).head? ≠ some 10 := by
      rcases hd with rfl | rfl <;> exact fun heq => absurd (Option.some.inj heq) (by decide)
    show Lib.CString.splice (92 :: d :: (cs ++ [34])) = 92 :: d :: (cs ++ [34])
    rw [splice_cons (.inr hhead), splice_cons (.inr hplain.head), ih]

/-- What a body denotes is no longer than what SQL reads in its place. -/
theorem body_length (h : Body cs chars) : chars.length + 1 ≤ (sqlChars cs).length ∧
    (chars.length + 1 = (sqlChars cs).length → ∃ ds, cs = ds ++ [34] ∧ Plain ds) := by
  induction h with
  | close => exact ⟨le_refl _, fun _ => ⟨[], rfl, .nil⟩⟩
  | char h34 h92 h10 _ ih =>
    obtain ⟨hle, hplain⟩ := ih
    rw [sqlChars_cons h92]
    simp only [List.length_cons]
    refine ⟨by omega, fun heq => ?_⟩
    obtain ⟨ds, rfl, hds⟩ := hplain (by omega)
    exact ⟨_ :: ds, rfl, .char h34 h92 h10 hds⟩
  | escape hesc _ ih =>
    obtain ⟨hle, hplain⟩ := ih
    rcases escape_cases hesc with ⟨d, hd, rfl, rfl⟩ | ⟨e, es, rfl, he, he', hes, hlen⟩
    · rw [sqlChars_escape hd]
      simp only [List.length_cons, List.length_append, List.length_nil]
      refine ⟨by omega, fun heq => ?_⟩
      obtain ⟨ds, rfl, hds⟩ := hplain (by omega)
      exact ⟨92 :: d :: ds, rfl, .escape hd hds⟩
    · rw [sqlChars_backslash he he', sqlChars_append hes]
      simp only [List.length_cons, List.length_append]
      exact ⟨by omega, fun heq => absurd heq (by omega)⟩

theorem cLiteral_iff : CLiteral (trQuoteString cs) (sqlChars cs) ↔ Plain cs := by
  rw [CLiteral, trQuoteString, splice_cons (.inl (by decide))]
  constructor
  · rintro ⟨ds, heq, hbody⟩
    obtain rfl := (List.cons.inj heq).2
    obtain ⟨hle, hplain⟩ := body_length hbody
    have hlen : (sqlChars (cs ++ [34])).length = (sqlChars cs).length + 1 := by
      rw [sqlChars_concat (by decide) (by decide), List.length_append]
      rfl
    rcases splice_length (cs ++ [34]) with hsame | hless
    · rw [hsame] at hplain
      obtain ⟨ds, hds, hplain⟩ := hplain hlen.symm
      rwa [List.append_cancel_right hds]
    · omega
  · intro h
    exact ⟨cs ++ [34], by rw [h.splice], h.body⟩

end Chars

/-- A literal survives the translation exactly if its text is plain. -/
theorem survives_iff (l : TextLiteral) : l.Survives ↔ Plain l.text := cLiteral_iff

/-- A double quote ends the C literal. -/
theorem survives_doubleQuote : ¬ (⟨[34, 39], [34], rfl⟩ : TextLiteral).Survives := by
  rintro ⟨cs, heq, hbody⟩
  obtain rfl : [34, 34] = cs := (List.cons.inj heq).2
  cases hbody with
  | char h34 => exact h34 rfl

end StreamMill.Lex
