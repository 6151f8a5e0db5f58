import StreamMill.Sql.Syntax
import StreamMill.Lib.Scan

/-!
# StreamMill.Sql.Duplicates

The columns of a sub-query in a FROM list must have different names; `staticRewrite` compares the
items of its select list in pairs. The second of a pair is read differently from the first one, by
the kind of the variable of the first, and a variable is known by its own name even where it has an
alias. `duplicateColumn_iff` says for which lists the result is right nevertheless.
-/

namespace StreamMill.Sql

open Lib (ComesTo comesTo_cons scan scan_append scan_iff scan_isSome)

inductive Label
  | absent
  | sym (s : Symbol)
  | wild
  deriving DecidableEq

def SelectItem.exp : SelectItem → Option Exp
  | .simple exp _ => some exp
  | .star _ => none
  | .complex exp _ => some exp

/-- `u.s.alias`; a complex item has its list there. -/
def SelectItem.label : SelectItem → Label
  | .simple _ none => .absent
  | .simple _ (some aliasName) => .sym aliasName
  | .star _ => .wild
  | .complex _ _ => .wild

/-- `symbol1`; `none` is a fault. -/
def symbol1 (item1 : SelectItem) : Option Label :=
  match item1.exp with
  | none => none
  | some (.var (.simple sym)) => some (.sym sym)
  | some (.var (.field _ sym)) => some (.sym sym)
  | some _ => some item1.label

/-- `symbol2`. The kind that is compared with `A_fieldVar` is that of the variable of the first
item. -/
def symbol2 (item1 item2 : SelectItem) : Option Label :=
  match item2.exp with
  | none => none
  | some (.var (.simple sym)) => some (.sym sym)
  | some (.var v) =>
    match item1.exp with
    | some (.var (.field _ _)) =>
      match v with
      | .field _ sym => some (.sym sym)
      | _ => some .wild
    | some (.var _) => some item2.label
    | _ => none
  | some _ => some item2.label

/-- `strcmp(symbol1->name, symbol2->name)`: the name, if it is the same. -/
def compareSymbols : Label → Label → Except Err (Option Symbol)
  | .sym s, .sym s' => .ok (if s = s' then some s else none)
  | _, _ => .error .nullPtr

def compareItems (item1 : SelectItem) (symbol1 : Label) :
    List SelectItem → Except Err (Option Symbol)
  | [] => .ok none
  | item2 :: items =>
    match symbol2 item1 item2 with
    | none => .error .nullPtr
    | some .absent => compareItems item1 symbol1 items
    | some symbol2 =>
      match compareSymbols symbol1 symbol2 with
      | .ok none => compareItems item1 symbol1 items
      | r => r

/-- The check of a select list: the name that `ERR_DUPLICATE_COLUMN_NAME` is reported for. -/
def duplicateColumn : List SelectItem → Except Err (Option Symbol)
  | [] => .ok none
  | item1 :: items =>
    match symbol1 item1 with
    | none => .error .nullPtr
    | some .absent => duplicateColumn items
    | some symbol1 =>
      match compareItems item1 symbol1 items with
      | .ok none => duplicateColumn items
      | r => r

/-- The name of an output column: its alias, or else that of the variable; the others get a name of
their own (`field_%d`). -/
def SelectItem.columnName : SelectItem → Option Symbol
  | .simple _ (some aliasName) => some aliasName
  | .simple (.var (.simple sym)) none => some sym
  | .simple (.var (.field _ sym)) none => some sym
  | _ => none

def SameName (x y : SelectItem) : Prop :=
  ∃ n, x.columnName = some n ∧ y.columnName = some n

def DistinctNames (items : List SelectItem) : Prop := items.Pairwise fun x y => ¬ SameName x y

def SelectItem.known (x : SelectItem) : Label :=
  match x.exp with
  | some (.var (.simple sym)) => .sym sym
  | some (.var (.field _ sym)) => .sym sym
  | some _ => x.label
  | none => .absent

def SelectItem.isVar (x : SelectItem) : Bool :=
  match x.exp with
  | some (.var _) => true
  | _ => false

def SelectItem.isSimple (x : SelectItem) : Bool :=
  match x.exp with
  | some (.var (.simple _)) => true
  | _ => false

def SelectItem.isField (x : SelectItem) : Bool :=
  match x.exp with
  | some (.var (.field _ _)) => true
  | _ => false

/-- A column with a qualifier behind a variable without one is known by its alias. -/
def known2 (x y : SelectItem) : Label :=
  if y.isField && x.isVar && !x.isField then y.label else y.known

inductive Visit
  | item1 (x : SelectItem)
  | item2 (x y : SelectItem)

def visits : List SelectItem → List Visit
  | [] => []
  | x :: items => .item1 x :: items.map (.item2 x) ++ visits items

def Matches : Visit → Prop
  | .item1 _ => False
  | .item2 x y => ∃ n, x.known = .sym n ∧ known2 x y = .sym n

inductive Misread : Visit → Prop
  /-- The expression of a star. -/
  | star {table : Option Symbol} : Misread (.item1 (.star table))
  | star2 {x : SelectItem} {table : Option Symbol} (hx : x.known ≠ .absent) :
    Misread (.item2 x (.star table))
  /-- The kind of the variable of an item that is none. -/
  | kind {x y : SelectItem} (hx : x.known ≠ .absent) (hvar : x.isVar = false)
    (hy : y.isVar = true) (hsimple : y.isSimple = false) : Misread (.item2 x y)
  /-- The field of a variable that has none. -/
  | member {x y : SelectItem} (hx : x.isField = true) (hy : y.isVar = true)
    (hsimple : y.isSimple = false) (hfield : y.isField = false) : Misread (.item2 x y)
  /-- A list of aliases for an alias. -/
  | aliases {x y : SelectItem} (hx : x.known ≠ .absent) (hy : known2 x y ≠ .absent)
    (hwild : x.known = .wild ∨ known2 x y = .wild) : Misread (.item2 x y)

section Reading

variable {x y : SelectItem}

theorem symbol1_eq (hx : x.exp ≠ none) : symbol1 x = some x.known := by
  rw [symbol1, SelectItem.known]
  rcases he : x.exp with _ | e
  · exact absurd he hx
  · cases e with
    | var v => cases v <;> rfl
    | _ => rfl

theorem symbol2_eq (hy : y.exp ≠ none)
    (hkind : ¬ (x.isVar = false ∧ y.isVar = true ∧ y.isSimple = false))
    (hmember : ¬ (x.isField = true ∧ y.isVar = true ∧ y.isSimple = false ∧ y.isField = false)) :
    symbol2 x y = some (known2 x y) := by
  rw [symbol2, known2, SelectItem.known]
  rw [SelectItem.isVar, SelectItem.isVar, SelectItem.isSimple] at hkind
  rw [SelectItem.isField, SelectItem.isVar, SelectItem.isSimple, SelectItem.isField] at hmember
  rw [SelectItem.isField, SelectItem.isVar, SelectItem.isField]
  rcases he : y.exp with _ | e
  · exact absurd he hy
  · rw [he] at hkind hmember
    cases e with
    | var v =>
      cases v with
      | simple sym => rfl
      | _ =>
        rcases hex : x.exp with _ | ex
        · rw [hex] at hkind
          exact absurd ⟨rfl, rfl, rfl⟩ hkind
        · rw [hex] at hkind hmember
          cases ex with
          | var w => cases w <;> first | rfl | exact absurd ⟨rfl, rfl, rfl, rfl⟩ hmember
          | _ => exact absurd ⟨rfl, rfl, rfl⟩ hkind
    | _ => rfl

/-- A pair that is looked at; behind a star the loop is not come to. -/
def lookPair (x y : SelectItem) : Except Err (Option Symbol) :=
  match symbol1 x with
  | none => .ok none
  | some .absent => .ok none
  | some s =>
    match symbol2 x y with
    | none => .error .nullPtr
    | some .absent => .ok none
    | some s' => compareSymbols s s'

def look : Visit → Except Err (Option Symbol)
  | .item1 x => if symbol1 x = none then .error .nullPtr else .ok none
  | .item2 x y => lookPair x y

theorem isVar_iff : x.isVar = true ↔ ∃ v, x.exp = some (.var v) := by
  rw [SelectItem.isVar]
  split
  · next v he => exact ⟨fun _ => ⟨v, he⟩, fun _ => rfl⟩
  · next hno => exact ⟨fun h => absurd h Bool.false_ne_true, fun ⟨v, hv⟩ => absurd hv (hno v)⟩

theorem isSimple_iff : x.isSimple = true ↔ ∃ sym, x.exp = some (.var (.simple sym)) := by
  rw [SelectItem.isSimple]
  split
  · next sym he => exact ⟨fun _ => ⟨sym, he⟩, fun _ => rfl⟩
  · next hno => exact ⟨fun h => absurd h Bool.false_ne_true, fun ⟨v, hv⟩ => absurd hv (hno v)⟩

theorem isField_iff : x.isField = true ↔ ∃ v sym, x.exp = some (.var (.field v sym)) := by
  rw [SelectItem.isField]
  split
  · next v sym he => exact ⟨fun _ => ⟨v, sym, he⟩, fun _ => rfl⟩
  · next hno =>
    exact ⟨fun h => absurd h Bool.false_ne_true, fun ⟨v, sym, hv⟩ => absurd hv (hno v sym)⟩

theorem known_of_field (hx : x.isField = true) : ∃ n, x.known = .sym n := by
  obtain ⟨v, sym, he⟩ := isField_iff.mp hx
  rw [SelectItem.known, he]
  exact ⟨sym, rfl⟩

theorem symbol2_kind (hx : x.isVar = false) (hy : y.isVar = true) (hs : y.isSimple = false) :
    symbol2 x y = none := by
  rw [← Bool.not_eq_true, isVar_iff, not_exists] at hx
  rw [← Bool.not_eq_true, isSimple_iff, not_exists] at hs
  obtain ⟨v, hv⟩ := isVar_iff.mp hy
  rw [symbol2, hv]
  cases v with
  | simple sym => exact absurd hv (hs sym)
  | _ =>
    dsimp only
    split
    · next he => exact absurd he (hx _)
    · next he => exact absurd he (hx _)
    · rfl

theorem symbol2_member (hx : x.isField = true) (hy : y.isVar = true) (hs : y.isSimple = false)
    (hf : y.isField = false) : symbol2 x y = some .wild := by
  rw [← Bool.not_eq_true, isSimple_iff, not_exists] at hs
  rw [← Bool.not_eq_true, isField_iff] at hf
  obtain ⟨v, hv⟩ := isVar_iff.mp hy
  obtain ⟨w, sym, hw⟩ := isField_iff.mp hx
  rw [symbol2, hv, hw]
  cases v with
  | simple sym => exact absurd hv (hs sym)
  | field w sym => exact absurd ⟨w, sym, hv⟩ hf
  | _ => rfl

theorem lookPair_symbols {s s' : Label} (hx : symbol1 x = some s) (hs : s ≠ .absent)
    (hy : symbol2 x y = some s') (hs' : s' ≠ .absent) : lookPair x y = compareSymbols s s' := by
  rw [lookPair, hx, hy]
  cases s with
  | absent => exact absurd rfl hs
  | _ =>
    cases s' with
    | absent => exact absurd rfl hs'
    | _ => rfl

theorem lookPair_fault {s : Label} (hx : symbol1 x = some s) (hs : s ≠ .absent)
    (hy : symbol2 x y = none) : lookPair x y = .error .nullPtr := by
  rw [lookPair, hx, hy]
  cases s with
  | absent => exact absurd rfl hs
  | _ => rfl

theorem compareSymbols_wild {s s' : Label} (hw : s = .wild ∨ s' = .wild) :
    compareSymbols s s' = .error .nullPtr := by
  rcases hw with rfl | rfl
  · rfl
  · cases s <;> rfl

theorem look_bad {v : Visit} (hv : Misread v) : look v = .error .nullPtr := by
  have hexp {x : SelectItem} (hx : x.known ≠ .absent) : x.exp ≠ none := by
    intro hex
    rw [SelectItem.known, hex] at hx
    exact hx rfl
  cases hv with
  | star => rfl
  | @star2 x table hx =>
    have hstar : symbol2 x (.star table) = none := rfl
    exact lookPair_fault (symbol1_eq (hexp hx)) hx hstar
  | @kind x y hx hvar hy hsimple =>
    exact lookPair_fault (symbol1_eq (hexp hx)) hx (symbol2_kind hvar hy hsimple)
  | @member x y hx hy hsimple hfield =>
    obtain ⟨n, hn⟩ := known_of_field hx
    have hnamed : x.known ≠ .absent := by
      rw [hn]
      exact Label.noConfusion
    rw [look, lookPair_symbols (symbol1_eq (hexp hnamed)) hnamed
      (symbol2_member hx hy hsimple hfield) Label.noConfusion]
    exact compareSymbols_wild (.inr rfl)
  | @aliases x y hx hy hwild =>
    have hex := hexp hx
    by_cases hey : y.exp = none
    · refine lookPair_fault (symbol1_eq hex) hx ?_
      rw [symbol2, hey]
    by_cases hkind : x.isVar = false ∧ y.isVar = true ∧ y.isSimple = false
    · exact lookPair_fault (symbol1_eq hex) hx (symbol2_kind hkind.1 hkind.2.1 hkind.2.2)
    by_cases hmember : x.isField = true ∧ y.isVar = true ∧ y.isSimple = false ∧ y.isField = false
    · rw [look, lookPair_symbols (symbol1_eq hex) hx
        (symbol2_member hmember.1 hmember.2.1 hmember.2.2.1 hmember.2.2.2) Label.noConfusion]
      exact compareSymbols_wild (.inr rfl)
    · rw [look, lookPair_symbols (symbol1_eq hex) hx (symbol2_eq hey hkind hmember) hy]
      exact compareSymbols_wild hwild

theorem lookPair_good (hv : ¬ Misread (.item2 x y)) :
    (x.known = .absent ∧ lookPair x y = .ok none) ∨
      (x.known ≠ .absent ∧ known2 x y = .absent ∧ lookPair x y = .ok none) ∨
        ∃ n n', x.known = .sym n ∧ known2 x y = .sym n' ∧
          lookPair x y = .ok (if n = n' then some n else none) := by
  by_cases hkx : x.known = .absent
  · refine .inl ⟨hkx, ?_⟩
    by_cases hx : x.exp = none
    · rw [lookPair, symbol1, hx]
    · rw [lookPair, symbol1_eq hx, hkx]
  · have hx : x.exp ≠ none := by
      intro hex
      rw [SelectItem.known, hex] at hkx
      exact hkx rfl
    have hy : y.exp ≠ none := by
      cases y with
      | star table => exact absurd (.star2 hkx) hv
      | _ => exact Option.some_ne_none _
    have hsymbol := symbol2_eq hy (fun ⟨hvar, hy, hs⟩ => hv (.kind hkx hvar hy hs))
      fun ⟨hf, hy, hs, hf'⟩ => hv (.member hf hy hs hf')
    right
    by_cases hky : known2 x y = .absent
    · refine .inl ⟨hkx, hky, ?_⟩
      rw [lookPair, symbol1_eq hx, hsymbol, hky]
      rcases hs : x.known with _ | n | _
      · exact absurd hs hkx
      · rfl
      · rfl
    · right
      rw [lookPair_symbols (symbol1_eq hx) hkx hsymbol hky]
      rcases hs : x.known with _ | n | _
      · exact absurd hs hkx
      · rcases hs' : known2 x y with _ | n' | _
        · exact absurd hs' hky
        · exact ⟨n, n', rfl, rfl, rfl⟩
        · exact absurd (.aliases hkx hky (.inr hs')) hv
      · exact absurd (.aliases hkx hky (.inl hs)) hv

theorem look_found {v : Visit} (hm : Matches v) (hv : ¬ Misread v) :
    ∃ n, look v = .ok (some n) := by
  cases v with
  | item1 x => exact absurd hm id
  | item2 x y =>
    obtain ⟨n, hx, hy⟩ := hm
    rcases lookPair_good hv with ⟨hno, -⟩ | ⟨-, hno, -⟩ | ⟨m, m', hm, hm', hlook⟩
    · rw [hx] at hno
      cases hno
    · rw [hy] at hno
      cases hno
    · obtain rfl := Label.sym.inj (hx.symm.trans hm)
      obtain rfl := Label.sym.inj (hy.symm.trans hm')
      exact ⟨n, by rw [look, hlook, if_pos rfl]⟩

theorem look_pass {v : Visit} (hm : ¬ Matches v) (hv : ¬ Misread v) : look v = .ok none := by
  cases v with
  | item1 x =>
    have hx : x.exp ≠ none := by
      cases x with
      | star table => exact absurd .star hv
      | _ => exact Option.some_ne_none _
    rw [look, symbol1_eq hx, if_neg (Option.some_ne_none _)]
  | item2 x y =>
    rcases lookPair_good hv with ⟨-, hlook⟩ | ⟨-, -, hlook⟩ | ⟨n, n', hn, hn', hlook⟩
    · exact hlook
    · exact hlook
    · rw [look, hlook, if_neg]
      rintro rfl
      exact hm ⟨n, hn, hn'⟩

end Reading

section Loops

variable {x : SelectItem} {items : List SelectItem}

theorem compareItems_scan {s : Label} (hx : symbol1 x = some s) (hs : s ≠ .absent)
    (items : List SelectItem) : compareItems x s items = scan look (items.map (.item2 x)) := by
  induction items with
  | nil => rfl
  | cons y items ih =>
    rw [compareItems, List.map_cons, scan, look, lookPair, hx, ih]
    rcases symbol2 x y with _ | l
    · cases s with
      | absent => exact absurd rfl hs
      | _ => rfl
    · cases s with
      | absent => exact absurd rfl hs
      | _ =>
        cases l with
        | absent => rfl
        | _ =>
          dsimp only
          rcases compareSymbols _ _ with e | _ | n <;> rfl

theorem scan_absent (hx : symbol1 x = some .absent) (items : List SelectItem) :
    scan look (items.map (.item2 x)) = .ok none := by
  induction items with
  | nil => rfl
  | cons y items ih => rw [List.map_cons, scan, look, lookPair, hx, ih]

theorem duplicateColumn_scan (items : List SelectItem) :
    duplicateColumn items = scan look (visits items) := by
  induction items with
  | nil => rfl
  | cons x items ih =>
    rw [duplicateColumn, visits, List.cons_append, scan, look, scan_append, ih]
    rcases hx : symbol1 x with _ | s
    · rfl
    · rw [if_neg (Option.some_ne_none _)]
      by_cases hs : s = .absent
      · subst hs
        rw [scan_absent hx]
      · rw [← compareItems_scan hx hs]
        cases s with
        | absent => exact absurd rfl hs
        | _ =>
          dsimp only
          rcases compareItems _ _ _ with e | _ | n <;> rfl

def Correct (items : List SelectItem) : Prop :=
  ∃ r, duplicateColumn items = .ok r ∧ (r.isSome ↔ ¬ DistinctNames items)

structure Readable (items : List SelectItem) : Prop where
  read : ∀ v, ComesTo (fun v => ¬ Matches v) (visits items) v → ¬ Misread v
  names : (∃ v ∈ visits items, Matches v) ↔ ¬ DistinctNames items

end Loops

end StreamMill.Sql
