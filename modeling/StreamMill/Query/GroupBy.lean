import StreamMill.Query.Join
import StreamMill.Lib.While
import StreamMill.ImDb.Hash
import Mathlib.Data.List.Dedup
import Mathlib.Data.Nat.Cast.Defs
import Mathlib.Order.Lattice

/-!
# StreamMill.Query.GroupBy

The GROUP BY operator that `transGBOpr` generates outside stream queries, with built-in aggregates
that have no window. One automaton reads the source into the group table and then returns a row
for each group: `index` goes up over the one-shot flags of the aggregates of a group, and down again
to the next group.
-/

namespace StreamMill.Query

open Lib
open ImDb (Byte)

inductive GbTy
  | int
  | string (size : Nat)
  | timestamp

def GbTy.size : GbTy → Nat
  | .int => 4
  | .string size => size
  | .timestamp => 8

structure GbExp (T : Type) where
  ty : GbTy
  exp : T → { bs : List Byte // bs.length = ty.size }

inductive AggrKind
  | count
  | sum
  | min
  | max
  deriving DecidableEq

structure AggrExp (T V : Type) where
  builtin : AggrKind
  arg : T → V

/-- A status belongs to its entry of the group table: `group k` points to that of the `k`-th entry,
`freed` to one that is freed already. -/
inductive StatusPtr
  | null
  | group (k : Nat)
  | freed
  deriving DecidableEq

/-- `_baggr_value` and `_baggr_first_entry` -/
structure Slot (V : Type) where
  value : V
  firstEntry : Bool

structure Group (V : Type) where
  key : List Byte
  slots : List (Slot V)

inductive GbFault
  | nullPtr
  | useAfterFree
  deriving DecidableEq

/-- The source tuples still to come, the variables of the operator, the group table in the order
its entries were put, the position of its cursor, and the columns of the row. -/
structure Gb (T V : Type) where
  input : List T
  rc : Rc
  index : Int
  terminating : Bool
  firstEntry : Bool
  gbstatus : StatusPtr
  table : List (Group V)
  cursor : Option Nat
  rowKey : List (List Byte)
  rowAggr : Nat → V

section Operator

variable {T V : Type} [LinearOrder V] [AddMonoidWithOne V] (gbs : List (GbExp T))
  (aggrs : List (AggrExp T V))

def AggrKind.init : AggrKind → V → V
  | .count, _ => 1
  | _, v => v

def AggrKind.iterate : AggrKind → V → V → V
  | .count, value, _ => value + 1
  | .sum, value, v => value + v
  | .min, value, v => if value > v then v else value
  | .max, value, v => if value < v then v else value

def countOnly : Bool := aggrs.all fun aggr => aggr.builtin = .count || aggr.builtin = .sum

/-- The key of the group, `____` without a GROUP BY list. -/
def gbkey (t : T) : List Byte :=
  if gbs.isEmpty then List.replicate 4 95 else gbs.flatMap fun gb => (gb.exp t).1

/-- `decodebuf`: the columns copied out of the key at their offsets. -/
def decode : List (GbExp T) → List Byte → List (List Byte)
  | [], _ => []
  | gb :: gbs, key => key.take gb.ty.size :: decode gbs (key.drop gb.ty.size)

/-- A tuple of the group `key`: `hash_get`, and `INIT` and `hash_put`, or `ITERATE`. -/
def putTuple (t : T) (s : Gb T V) : Gb T V :=
  match s.table.findIdx? fun g => g.key = gbkey gbs t with
  | none =>
    { s with
      rc := .ok
      gbstatus := .group s.table.length
      table := s.table ++
        [⟨gbkey gbs t, aggrs.map fun aggr => ⟨aggr.builtin.init (aggr.arg t), true⟩⟩] }
  | some k =>
    { s with
      rc := .ok
      gbstatus := .group k
      table := s.table.modify k fun g =>
        { g with
          slots := List.zipWith
            (fun aggr slot => ⟨aggr.builtin.iterate slot.value (aggr.arg t), true⟩) aggrs g.slots } }

def getSource (s : Gb T V) : Gb T V :=
  match s.input with
  | [] => { s with rc := .notFound, terminating := true }
  | t :: input => putTuple gbs aggrs t { s with input, firstEntry := false }

/-- `DB_FIRST` for a new cursor, then `DB_NEXT`. -/
def nextPos : Option Nat → Nat
  | none => 0
  | some k => k + 1

/-- `hash_get` without a key. -/
def nextGroup (s : Gb T V) : Gb T V :=
  match s.table[nextPos s.cursor]? with
  | some g =>
    { s with
      rc := .ok
      cursor := some (nextPos s.cursor)
      gbstatus := .group (nextPos s.cursor)
      rowKey := decode gbs g.key }
  | none => { s with rc := .notFound, cursor := none }

/-- `if (terminating) { ... }`, which succeeds on an empty set when there are only counts and
sums. -/
def terminate (s : Gb T V) : Gb T V :=
  if countOnly aggrs && s.firstEntry then { s with rc := .ok } else nextGroup gbs s

def case0 (s : Gb T V) : Gb T V :=
  let s := if s.terminating then s else getSource gbs aggrs s
  if s.terminating then terminate gbs aggrs s else s

/-- `getBuiltInFinalResult` in `case i + 1`. -/
def getBuiltInFinalResult (i : Nat) (s : Gb T V) : Except GbFault (Gb T V) :=
  if s.terminating then
    if countOnly aggrs && s.gbstatus = .null then
      if s.firstEntry then
        .ok { s with rc := .ok, rowAggr := Function.update s.rowAggr i 0 }
      else .ok { s with rc := .notFound }
    else
      match s.gbstatus with
      | .null => .error .nullPtr
      | .freed => .error .useAfterFree
      | .group k =>
        match s.table[k]?.bind fun g => g.slots[i]? with
        | none => .error .nullPtr
        | some slot =>
          let table := s.table.modify k fun g =>
            { g with slots := g.slots.set i ⟨slot.value, !slot.firstEntry⟩ }
          if slot.firstEntry then
            .ok { s with rc := .ok, rowAggr := Function.update s.rowAggr i slot.value, table }
          else .ok { s with rc := .notFound, table }
  else .ok { s with rc := .notFound }

def caseAggr (i : Nat) (s : Gb T V) : Except GbFault (Gb T V) := do
  let s ← getBuiltInFinalResult aggrs i s
  return if i + 1 = aggrs.length then { s with firstEntry := false } else s

omit [LinearOrder V] [AddMonoidWithOne V] in
def stepIndex (s : Gb T V) : Gb T V :=
  match s.rc with
  | .ok => { s with index := s.index + 1 }
  | .notFound => { s with index := s.index - 1 }

def gbBody (s : Gb T V) : Except GbFault (Gb T V) := do
  let s ← match s.index.toNat with
    | 0 => pure (case0 gbs aggrs s)
    | i + 1 => caseAggr aggrs i s
  return stepIndex s

def gbCond (s : Gb T V) : Bool := decide (0 ≤ s.index ∧ s.index < (aggrs.length : Int) + 1)

omit [LinearOrder V] [AddMonoidWithOne V] in
/-- The statuses from the cursor on are freed, `gbstatus` is left on the last of them, and
`hashgb_delete` removes the table. -/
def cleanUp (s : Gb T V) : Gb T V :=
  { s with
    terminating := false
    firstEntry := true
    index := 0
    cursor := none
    gbstatus := if nextPos s.cursor < s.table.length then .freed else s.gbstatus
    table := [] }

abbrev Row (V : Type) := List (List Byte) × List V

omit [LinearOrder V] [AddMonoidWithOne V] in
def gbReturn (s : Gb T V) : Option (Row V) × Gb T V :=
  match s.rc with
  | .ok =>
    (some (s.rowKey, (List.range aggrs.length).map s.rowAggr), { s with index := s.index - 1 })
  | .notFound => (none, cleanUp s)

def gbCall (fuel : Nat) (s : Gb T V) : Option (Except GbFault (Option (Row V) × Gb T V)) :=
  (whileLoop (gbCond aggrs) (gbBody gbs aggrs) fuel s).map fun r => r.map (gbReturn aggrs)

def gbInit (rowKey : List (List Byte)) (rowAggr : Nat → V) : Gb T V where
  input := []
  rc := .ok
  index := 0
  terminating := false
  firstEntry := true
  gbstatus := .null
  table := []
  cursor := none
  rowKey := rowKey
  rowAggr := rowAggr

end Operator

section Spec

variable {T V : Type} [LinearOrder V] [AddMonoidWithOne V] (gbs : List (GbExp T))
  (aggrs : List (AggrExp T V))

def GbTy.value : GbTy → List Byte → List Byte
  | .string _, bs => bs.takeWhile fun b => b ≠ 0
  | _, bs => bs

def gbValues (t : T) : List (List Byte) := gbs.map fun gb => gb.ty.value (gb.exp t).1

omit [LinearOrder V] [AddMonoidWithOne V] in
def rowValue (row : Row V) : Row V := (List.zipWith (fun gb bs => gb.ty.value bs) gbs row.1, row.2)

def AggrKind.result : AggrKind → List V → V
  | .count, vs => (vs.length : V)
  | .sum, vs => vs.sum
  | .min, vs => vs.min?.getD 0
  | .max, vs => vs.max?.getD 0

/-- The row of the tuples whose GROUP BY columns are `v`. -/
def valueRow (ts : List T) (v : List (List Byte)) : Row V :=
  (v, aggrs.map fun aggr =>
    aggr.builtin.result ((ts.filter fun t => gbValues gbs t = v).map aggr.arg))

def groupRows (ts : List T) : List (Row V) :=
  if ts.isEmpty && gbs.isEmpty && countOnly aggrs then [([], aggrs.map fun _ => 0)]
  else (ts.map (gbValues gbs)).dedup.map (valueRow gbs aggrs ts)

inductive Evaluates : Gb T V → List (Row V) → Gb T V → Prop
  | notFound {s s' : Gb T V} : Returns (fun fuel => gbCall gbs aggrs fuel s) (.ok (none, s')) →
      Evaluates s [] s'
  | row {s s' s'' : Gb T V} {row : Row V} {rows : List (Row V)} :
      Returns (fun fuel => gbCall gbs aggrs fuel s) (.ok (some row, s')) →
      Evaluates s' rows s'' → Evaluates s (row :: rows) s''

omit [LinearOrder V] [AddMonoidWithOne V] in
structure AtStart (s : Gb T V) : Prop where
  index : s.index = 0
  terminating : s.terminating = false
  firstEntry : s.firstEntry = true
  cursor : s.cursor = none
  table : s.table = []

def EvaluatesRight : Gb T V → List (List T) → Prop
  | _, [] => True
  | s, ts :: inputs => ∃ rows s', Evaluates gbs aggrs { s with input := ts } rows s' ∧
      (rows.map (rowValue gbs)).Perm (groupRows gbs aggrs ts) ∧ AtStart s' ∧
      EvaluatesRight s' inputs

end Spec

section Table

variable {T V : Type} [LinearOrder V] [AddMonoidWithOne V] {gbs : List (GbExp T)}
  {aggrs : List (AggrExp T V)}

theorem decode_flatMap (gbs : List (GbExp T)) (t : T) :
    decode gbs (gbs.flatMap fun gb => (gb.exp t).1) = gbs.map fun gb => (gb.exp t).1 := by
  induction gbs with
  | nil => rfl
  | cons gb gbs ih =>
    have hlen := (gb.exp t).2
    rw [List.flatMap_cons, decode, List.take_left' hlen, List.drop_left' hlen, ih]
    rfl

theorem decode_gbkey (t : T) : decode gbs (gbkey gbs t) = gbs.map fun gb => (gb.exp t).1 := by
  cases gbs with
  | nil => rfl
  | cons gb gbs => exact decode_flatMap (gb :: gbs) t

/-- What a status holds after the tuples of its group. -/
def AggrExp.accum (aggr : AggrExp T V) : List T → V
  | [] => 0
  | t :: ts => (ts.map aggr.arg).foldl aggr.builtin.iterate (aggr.builtin.init (aggr.arg t))

omit [LinearOrder V] in
theorem foldl_count (vs : List V) (a : V) :
    vs.foldl (fun value _ => value + 1) a = a + (vs.length : V) := by
  induction vs generalizing a with
  | nil => simp
  | cons v vs ih =>
    rw [List.foldl_cons, ih, List.length_cons, Nat.add_comm vs.length, Nat.cast_add, Nat.cast_one,
      add_assoc]

omit [LinearOrder V] in
theorem foldl_sum (vs : List V) (a : V) : vs.foldl (fun value v => value + v) a = a + vs.sum := by
  induction vs generalizing a with
  | nil => simp
  | cons v vs ih => rw [List.foldl_cons, ih, List.sum_cons, add_assoc]

omit [AddMonoidWithOne V] in
theorem foldl_min (vs : List V) (a : V) :
    vs.foldl (fun value v => if value > v then v else value) a = vs.foldl min a := by
  congr 1
  funext a b
  rcases le_or_gt a b with h | h
  · rw [min_eq_left h, if_neg (not_lt_of_ge h)]
  · rw [min_eq_right (le_of_lt h), if_pos h]

omit [AddMonoidWithOne V] in
theorem foldl_max (vs : List V) (a : V) :
    vs.foldl (fun value v => if value < v then v else value) a = vs.foldl max a := by
  congr 1
  funext a b
  rcases le_or_gt b a with h | h
  · rw [max_eq_left h, if_neg (not_lt_of_ge h)]
  · rw [max_eq_right (le_of_lt h), if_pos h]

theorem AggrKind.foldl_iterate (builtin : AggrKind) (v : V) (vs : List V) :
    vs.foldl builtin.iterate (builtin.init v) = builtin.result (v :: vs) := by
  cases builtin with
  | count =>
    show vs.foldl (fun value _ => value + 1) 1 = ((v :: vs).length : V)
    rw [foldl_count, List.length_cons, Nat.add_comm, Nat.cast_add, Nat.cast_one]
  | sum =>
    show vs.foldl (fun value v => value + v) v = (v :: vs).sum
    rw [foldl_sum, List.sum_cons]
  | min => exact foldl_min vs v
  | max => exact foldl_max vs v

theorem AggrExp.accum_eq (aggr : AggrExp T V) {ts : List T} (hne : ts ≠ []) :
    aggr.accum ts = aggr.builtin.result (ts.map aggr.arg) := by
  cases ts with
  | nil => exact absurd rfl hne
  | cons t ts => exact aggr.builtin.foldl_iterate (aggr.arg t) (ts.map aggr.arg)

theorem AggrExp.accum_concat (aggr : AggrExp T V) {ts : List T} (hne : ts ≠ []) (t : T) :
    aggr.accum (ts ++ [t]) = aggr.builtin.iterate (aggr.accum ts) (aggr.arg t) := by
  cases ts with
  | nil => exact absurd rfl hne
  | cons t₀ ts => simp [AggrExp.accum]

variable (gbs aggrs) in
/-- The group table after the tuples `done`. -/
structure TableHolds (done : List T) (table : List (Group V)) : Prop where
  nodup : (table.map Group.key).Nodup
  mem_iff : ∀ key, key ∈ table.map Group.key ↔ key ∈ done.map (gbkey gbs)
  slots : ∀ g ∈ table, g.slots = aggrs.map fun aggr =>
    ⟨aggr.accum (done.filter fun t => gbkey gbs t = g.key), true⟩

theorem tableHolds_nil : TableHolds gbs aggrs [] [] :=
  ⟨List.nodup_nil, fun _ => Iff.rfl, fun _ h => absurd h List.not_mem_nil⟩

theorem TableHolds.new {done : List T} {table : List (Group V)} (h : TableHolds gbs aggrs done table)
    {t : T} (hnew : gbkey gbs t ∉ table.map Group.key) :
    TableHolds gbs aggrs (done ++ [t]) (table ++
      [⟨gbkey gbs t, aggrs.map fun aggr => ⟨aggr.builtin.init (aggr.arg t), true⟩⟩]) := by
  constructor
  · rw [List.map_append, List.nodup_append]
    refine ⟨h.nodup, List.nodup_singleton _, ?_⟩
    intro key hkey key' hkey'
    rw [List.mem_singleton.mp hkey']
    rintro rfl
    exact hnew hkey
  · intro key
    rw [List.map_append, List.map_append, List.mem_append, List.mem_append, h.mem_iff]
    rfl
  · intro g hg
    rcases List.mem_append.mp hg with hg | hg
    · have hne : gbkey gbs t ≠ g.key := by
        intro heq
        exact hnew (heq ▸ List.mem_map_of_mem hg)
      rw [h.slots g hg, List.filter_append, List.filter_cons_of_neg (by simpa using hne)]
      simp
    · obtain rfl := List.mem_singleton.mp hg
      have hnone : done.filter (fun t' => gbkey gbs t' = gbkey gbs t) = [] := by
        rw [List.filter_eq_nil_iff]
        intro t' ht' heq
        refine hnew ((h.mem_iff _).mpr ?_)
        exact of_decide_eq_true heq ▸ List.mem_map_of_mem ht'
      simp only [List.filter_append, hnone, List.nil_append]
      simp [AggrExp.accum]

theorem TableHolds.old {done : List T} {l r : List (Group V)} {g : Group V} {t : T}
    (h : TableHolds gbs aggrs done (l ++ g :: r)) (hkey : g.key = gbkey gbs t) :
    TableHolds gbs aggrs (done ++ [t]) (l ++ { g with
      slots := List.zipWith
        (fun aggr slot => ⟨aggr.builtin.iterate slot.value (aggr.arg t), true⟩) aggrs g.slots } ::
      r) := by
  have hnodup : ((l ++ g :: r).map Group.key).Nodup := h.nodup
  have hmem : gbkey gbs t ∈ done.map (gbkey gbs) := (h.mem_iff _).mp (by simp [hkey])
  constructor
  · simpa using hnodup
  · intro key
    have hsame : key ∈ (l ++ g :: r).map Group.key ↔ key ∈ (done ++ [t]).map (gbkey gbs) := by
      rw [h.mem_iff, List.map_append, List.mem_append]
      constructor
      · exact Or.inl
      · rintro (hin | hin)
        · exact hin
        · obtain rfl := List.mem_singleton.mp hin
          exact hmem
    rw [← hsame, List.map_append, List.map_append]
    rfl
  · intro g' hg'
    have hother : g' ∈ l ++ r → gbkey gbs t ≠ g'.key := by
      intro hin heq
      rw [List.map_append, List.map_cons, List.nodup_append_comm, List.cons_append,
        List.nodup_cons] at hnodup
      refine hnodup.1 ?_
      rw [hkey, heq, ← List.map_append]
      refine List.mem_map_of_mem ?_
      exact List.mem_append.mpr (List.mem_append.mp hin).symm
    rcases List.mem_append.mp hg' with hin | hin
    · have hne := hother (List.mem_append_left _ hin)
      rw [h.slots g' (by simp [hin]), List.filter_append,
        List.filter_cons_of_neg (by simpa using hne)]
      simp
    · rcases List.mem_cons.mp hin with rfl | hin
      · have hne : done.filter (fun t' => gbkey gbs t' = gbkey gbs t) ≠ [] := by
          obtain ⟨t', ht', heq⟩ := List.mem_map.mp hmem
          exact List.ne_nil_of_mem (List.mem_filter.mpr ⟨ht', by simpa using heq⟩)
        have hslots := h.slots g (by simp)
        simp only [hkey] at hslots ⊢
        rw [hslots, List.zipWith_map_right]
        simp [List.filter_nil, AggrExp.accum_concat _ hne]
      · have hne := hother (List.mem_append_right _ hin)
        rw [h.slots g' (by simp [hin]), List.filter_append,
          List.filter_cons_of_neg (by simpa using hne)]
        simp

theorem putTuple_holds {done : List T} {s : Gb T V} (h : TableHolds gbs aggrs done s.table) (t : T) :
    ∃ table k, TableHolds gbs aggrs (done ++ [t]) table ∧
      putTuple gbs aggrs t s = { s with rc := .ok, gbstatus := .group k, table } := by
  unfold putTuple
  cases hfind : s.table.findIdx? fun g => g.key = gbkey gbs t with
  | none =>
    refine ⟨_, _, h.new ?_, rfl⟩
    intro hin
    obtain ⟨g, hg, heq⟩ := List.mem_map.mp hin
    have hfalse := List.findIdx?_eq_none_iff.mp hfind g hg
    simp [heq] at hfalse
  | some k =>
    obtain ⟨hk, hkey, -⟩ := List.findIdx?_eq_some_iff_getElem.mp hfind
    have hsplit : s.table = s.table.take k ++ s.table[k] :: s.table.drop (k + 1) := by
      rw [List.getElem_cons_drop, List.take_append_drop]
    refine ⟨_, _, ?_, rfl⟩
    rw [List.modify_eq_take_cons_drop hk]
    rw [hsplit] at h
    exact h.old (of_decide_eq_true hkey)

end Table

end StreamMill.Query
