import Mathlib.Data.List.Basic
import Mathlib.Data.List.TakeWhile

/-!
# StreamMill.Lib.CString

String literals of C: the lines are spliced, and then a literal runs from a double quote to the next
one that no backslash escapes. `CLiteral src chars` says that `src` is one literal and denotes
`chars`.
-/

namespace StreamMill.Lib
namespace CString

/-- A backslash before a newline disappears with it. -/
def splice : List (BitVec 8) → List (BitVec 8)
  | [] => []
  | [c] => [c]
  | c :: d :: cs => if c = 92 ∧ d = 10 then splice cs else c :: splice (d :: cs)

theorem splice_cons {c : BitVec 8} {cs : List (BitVec 8)} (h : c ≠ 92 ∨ cs.head? ≠ some 10) :
    splice (c :: cs) = c :: splice cs := by
  rcases cs with _ | ⟨d, cs⟩
  · rfl
  · rw [splice, if_neg]
    rintro ⟨hc, rfl⟩
    exact h.elim (fun hne => hne hc) (fun hne => hne rfl)

theorem splice_pair (cs : List (BitVec 8)) : splice (92 :: 10 :: cs) = splice cs := by
  rw [splice, if_pos ⟨rfl, rfl⟩]

def simpleEscapes : List (BitVec 8 × BitVec 8) :=
  [(39, 39), (34, 34), (63, 63), (92, 92), (97, 7), (98, 8), (102, 12), (110, 10), (114, 13),
   (116, 9), (118, 11)]

def isOctal (c : BitVec 8) : Bool := 48 ≤ c.toNat && c.toNat ≤ 55

def isHex (c : BitVec 8) : Bool :=
  (48 ≤ c.toNat && c.toNat ≤ 57) || (65 ≤ c.toNat && c.toNat ≤ 70) ||
    (97 ≤ c.toNat && c.toNat ≤ 102)

def digit (c : BitVec 8) : Nat :=
  if c.toNat ≤ 57 then c.toNat - 48 else if c.toNat ≤ 70 then c.toNat - 55 else c.toNat - 87

def number (base : Nat) (ds : List (BitVec 8)) : Nat := ds.foldl (fun n c => n * base + digit c) 0

def byte (n : Nat) (rest : List (BitVec 8)) : Option (List (BitVec 8) × List (BitVec 8)) :=
  if n < 256 then some ([.ofNat 8 n], rest) else none

def utf8 (n : Nat) : List (BitVec 8) :=
  if n < 0x80 then [.ofNat 8 n]
  else if n < 0x800 then [.ofNat 8 (0xC0 + n / 64), .ofNat 8 (0x80 + n % 64)]
  else if n < 0x10000 then
    [.ofNat 8 (0xE0 + n / 4096), .ofNat 8 (0x80 + n / 64 % 64), .ofNat 8 (0x80 + n % 64)]
  else
    [.ofNat 8 (0xF0 + n / 262144), .ofNat 8 (0x80 + n / 4096 % 64), .ofNat 8 (0x80 + n / 64 % 64),
     .ofNat 8 (0x80 + n % 64)]

def isUniversal (n : Nat) : Bool :=
  (n = 0x24 || n = 0x40 || n = 0x60 || 0xA0 ≤ n) && !(0xD800 ≤ n && n ≤ 0xDFFF) && n ≤ 0x10FFFF

/-- A universal name of `k` digits. -/
def universal (k : Nat) (cs : List (BitVec 8)) : Option (List (BitVec 8) × List (BitVec 8)) :=
  if k ≤ cs.length ∧ (cs.take k).all isHex ∧ isUniversal (number 16 (cs.take k)) then
    some (utf8 (number 16 (cs.take k)), cs.drop k)
  else none

def escape : List (BitVec 8) → Option (List (BitVec 8) × List (BitVec 8))
  | [] => none
  | c :: cs =>
    match simpleEscapes.lookup c with
    | some d => some ([d], cs)
    | none =>
      if isOctal c then
        let ds := (cs.takeWhile isOctal).take 2
        byte (number 8 (c :: ds)) (cs.drop ds.length)
      else if c = 120 then
        let ds := cs.takeWhile isHex
        if ds = [] then none else byte (number 16 ds) (cs.drop ds.length)
      else if c = 117 then universal 4 cs
      else if c = 85 then universal 8 cs
      else none

section Escapes

variable {c d : BitVec 8} {cs ds bytes rest : List (BitVec 8)} {n k : Nat}

theorem byte_eq_some (h : byte n cs = some (bytes, rest)) : bytes.length = 1 ∧ rest = cs := by
  rw [byte] at h
  split at h
  · obtain ⟨rfl, rfl⟩ := Prod.mk.inj (Option.some.inj h)
    exact ⟨rfl, rfl⟩
  · cases h

theorem utf8_length (n : Nat) : (utf8 n).length ≤ 4 := by
  rw [utf8]
  split_ifs <;> simp

theorem universal_eq_some (h : universal k cs = some (bytes, rest)) :
    ∃ ds, cs = ds ++ rest ∧ ds.length = k ∧ ds.all isHex = true ∧ bytes.length ≤ 4 := by
  rw [universal] at h
  split at h
  · rename_i hname
    obtain ⟨rfl, rfl⟩ := Prod.mk.inj (Option.some.inj h)
    exact ⟨cs.take k, (List.take_append_drop k cs).symm, List.length_take_of_le hname.1, hname.2.1,
      utf8_length _⟩
  · cases h

theorem isHex_ne (h : isHex c = true) : c ≠ 92 := by
  rintro rfl
  cases h

theorem isOctal_ne (h : isOctal c = true) : c ≠ 92 := by
  rintro rfl
  cases h

theorem escape_cases (h : escape cs = some (bytes, rest)) :
    (∃ d, (d = 39 ∨ d = 92) ∧ cs = d :: rest ∧ bytes = [d]) ∨
      ∃ e es, cs = e :: (es ++ rest) ∧ e ≠ 39 ∧ e ≠ 92 ∧ (∀ c ∈ es, c ≠ 92) ∧
        bytes.length ≤ es.length + 1 := by
  rcases cs with _ | ⟨c, cs⟩
  · cases h
  by_cases hself : c = 39 ∨ c = 92
  · refine .inl ⟨c, hself, ?_⟩
    rcases hself with rfl | rfl
    · obtain ⟨rfl, rfl⟩ := Prod.mk.inj (Option.some.inj h)
      exact ⟨rfl, rfl⟩
    · obtain ⟨rfl, rfl⟩ := Prod.mk.inj (Option.some.inj h)
      exact ⟨rfl, rfl⟩
  rw [not_or] at hself
  suffices hshape : ∃ es, cs = es ++ rest ∧ (∀ c ∈ es, c ≠ 92) ∧ bytes.length ≤ es.length + 1 by
    obtain ⟨es, rfl, hes, hlen⟩ := hshape
    exact .inr ⟨c, es, rfl, hself.1, hself.2, hes, hlen⟩
  rw [escape] at h
  rcases hsimple : simpleEscapes.lookup c with _ | d
  · rw [hsimple] at h
    dsimp only at h
    split at h
    · -- octal
      obtain ⟨hbytes, rfl⟩ := byte_eq_some h
      have hpre : (cs.takeWhile isOctal).take 2 <+: cs :=
        (List.take_prefix _ _).trans (List.takeWhile_prefix _)
      refine ⟨_, (List.prefix_iff_eq_append.mp hpre).symm, fun x hx => ?_, by omega⟩
      exact isOctal_ne (List.mem_takeWhile_imp (List.mem_of_mem_take hx))
    · split at h
      · -- hexadecimal
        split at h
        · cases h
        · obtain ⟨hbytes, rfl⟩ := byte_eq_some h
          exact ⟨_, (List.prefix_iff_eq_append.mp (List.takeWhile_prefix _)).symm,
            fun x hx => isHex_ne (List.mem_takeWhile_imp hx), by omega⟩
      · -- universal names
        have hname {k : Nat} (hk : 4 ≤ k) (h : universal k cs = some (bytes, rest)) :
            ∃ es, cs = es ++ rest ∧ (∀ c ∈ es, c ≠ 92) ∧ bytes.length ≤ es.length + 1 := by
          obtain ⟨ds, hsplit, hlen, hhex, hbytes⟩ := universal_eq_some h
          exact ⟨ds, hsplit, fun x hx => isHex_ne (List.all_eq_true.mp hhex x hx), by omega⟩
        split at h
        · exact hname (by omega) h
        · split at h
          · exact hname (by omega) h
          · cases h
  · rw [hsimple] at h
    obtain ⟨rfl, rfl⟩ := Prod.mk.inj (Option.some.inj h)
    exact ⟨[], rfl, by simp, le_refl _⟩

end Escapes

inductive Body : List (BitVec 8) → List (BitVec 8) → Prop
  | close : Body [34] []
  | char {c : BitVec 8} {cs chars : List (BitVec 8)} : c ≠ 34 → c ≠ 92 → c ≠ 10 → Body cs chars →
      Body (c :: cs) (c :: chars)
  | escape {cs bytes rest chars : List (BitVec 8)} : escape cs = some (bytes, rest) →
      Body rest chars → Body (92 :: cs) (bytes ++ chars)

def CLiteral (src chars : List (BitVec 8)) : Prop := ∃ cs, splice src = 34 :: cs ∧ Body cs chars

end CString
end StreamMill.Lib
