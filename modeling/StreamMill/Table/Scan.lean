import StreamMill.Table.Compare
import StreamMill.Table.Update
import StreamMill.Lib.Range

/-!
# StreamMill.Table.Scan

Index scans of a B-tree table. A query that fixes all key columns looks its key up; one that bounds
the first key of the index declaration writes the bound at the front of a zeroed key and scans from
there to the upper bound. Of the store it is assumed that the records stand in the order of the
generated comparison function, and what the positions of its cursor are (`cGet`).

`scan_agrees_iff`: with the integers of the key columns between `-M` and `M`, the scan visits what
a full scan finds exactly if the first declared key is the first key column of the table and, where
it is an integer, `M` is below `2 ^ 30` and no integer key follows.
-/

namespace StreamMill.Table

open Lib Lib.Memory
open ImDb (Byte)

/-- A disk table with keys of integers and strings; `first` is the key declared first. -/
structure IndexDec where
  fields : List Field
  keyTy : ∀ f ∈ fields, f.iskey = true → f.ty = .int ∨ ∃ n, 0 < n ∧ f.ty = .string n
  /-- `keyPos[0]` -/
  firstKey : Nat
  first : Field
  first_eq : fields[firstKey]? = some first
  first_key : first.iskey = true

inductive Query (dec : IndexDec)
  | all (row : Tuple dec.fields)
  | eq (v : Value dec.first.ty)
  | range (lower upper : Option (Value dec.first.ty))

inductive DbFlag
  | first
  | next
  | set
  | nextDup
  | setRange
  deriving DecidableEq

section Code

variable (dec : IndexDec)

def IndexDec.table : KeyedTable where
  fields := dec.fields
  memory := false
  oid := nofun

def IndexDec.keyMem (r : Tuple dec.fields) : Memory Byte := fun i =>
  ((keyBytes .insert dec.table (fun _ => 0) r)[i]?).getD 0

def IndexDec.cmp (a b : Memory Byte) : Int := cmpFrom dec.fields 0 a b

variable {dec}

/-- `keydata` and `key.size` -/
def Query.key : Query dec → Memory Byte × Nat
  | .all row => boundAll row (fun _ => 0) 0
  | .eq v => (boundStore (fun _ => 0) 0 dec.first.ty v, dec.first.ty.size)
  | .range (some l) _ => (boundStore (fun _ => 0) 0 dec.first.ty l, dec.first.ty.size)
  | .range none _ => (fun _ => 0, 0)

def Query.flag (q : Query dec) (firstEntry : Bool) : DbFlag :=
  match q with
  | .all _ => if firstEntry then .set else .nextDup
  | .eq _ => if firstEntry then .setRange else .next
  | .range (some _) _ => if firstEntry then .setRange else .next
  | .range none _ => if firstEntry then .first else .next

def beyond (key : Memory Byte) (offset : Nat) : (ty : FieldTy) → Value ty → Bool
  | .int, u => decide ((readInt key 0).toInt > BitVec.toInt u)
  | .string _, u => decide (strncmp (load key 0 offset) (load u 0 offset) > 0)
  | .real, _ => false
  | .timestamp, _ => false

def Query.stops (q : Query dec) (key : Memory Byte) : Bool :=
  match q with
  | .all _ => false
  | .eq v => beyond key q.key.2 dec.first.ty v
  | .range _ (some u) => beyond key q.key.2 dec.first.ty u
  | .range _ none => false

/-- `c_get` of the store: the record and the records after it. -/
def cGet (contents : List (Tuple dec.fields)) (key : Memory Byte) (flag : DbFlag)
    (rest : List (Tuple dec.fields)) : Option (Tuple dec.fields × List (Tuple dec.fields)) :=
  let found := match flag with
    | .first => contents
    | .next => rest
    | .set => contents.filter fun r => dec.cmp (dec.keyMem r) key = 0
    | .nextDup => rest
    | .setRange => contents.dropWhile fun r => dec.cmp (dec.keyMem r) key < 0
  match found with
  | [] => none
  | r :: rest => some (r, rest)

/-- One call of the generated code; `none` is `DB_NOTFOUND`. -/
def Query.call (q : Query dec) (contents : List (Tuple dec.fields)) (firstEntry : Bool)
    (rest : List (Tuple dec.fields)) : Option (Tuple dec.fields × List (Tuple dec.fields)) :=
  match cGet contents q.key.1 (q.flag firstEntry) rest with
  | none => none
  | some (r, rest) => if q.stops (dec.keyMem r) then none else some (r, rest)

/-- At most `n` calls, until one does not find a record. -/
def Query.calls (q : Query dec) (contents : List (Tuple dec.fields)) :
    Nat → Bool → List (Tuple dec.fields) → List (Tuple dec.fields)
  | 0, _, _ => []
  | n + 1, firstEntry, rest =>
    match q.call contents firstEntry rest with
    | none => []
    | some (r, rest) => r :: q.calls contents n false rest

def Query.scan (q : Query dec) (contents : List (Tuple dec.fields)) : List (Tuple dec.fields) :=
  q.calls contents (contents.length + 1) true []

end Code

section Spec

def keysEq : {fs : List Field} → Tuple fs → Tuple fs → Bool
  | _, .nil, .nil => true
  | _, @Tuple.cons f _ v t, .cons v' t' =>
    (!f.iskey || decide (sortKey f.ty v = sortKey f.ty v')) && keysEq t t'

variable {dec : IndexDec}

def Query.satisfies (q : Query dec) (r : Tuple dec.fields) : Bool :=
  match q with
  | .all row => keysEq row r
  | .eq v => decide (r.sortKeyAt dec.firstKey = sortKey dec.first.ty v)
  | .range lower upper =>
    (lower.all fun l => decide (sortKey dec.first.ty l ≤ r.sortKeyAt dec.firstKey)) &&
      upper.all fun u => decide (r.sortKeyAt dec.firstKey ≤ sortKey dec.first.ty u)

def InRange (M : Nat) : (ty : FieldTy) → Value ty → Prop
  | .int, v => (BitVec.toInt v).natAbs ≤ M
  | _, _ => True

def AllIn (M : Nat) : {fs : List Field} → Tuple fs → Prop
  | _, .nil => True
  | _, @Tuple.cons f _ v t => (f.iskey = true → InRange M f.ty v) ∧ AllIn M t

def Query.In (M : Nat) : Query dec → Prop
  | .all row => AllIn M row
  | .eq v => InRange M dec.first.ty v
  | .range lower upper => (∀ l ∈ lower, InRange M dec.first.ty l) ∧
      ∀ u ∈ upper, InRange M dec.first.ty u

variable (dec)

def IndexDec.Sorted (contents : List (Tuple dec.fields)) : Prop :=
  contents.Pairwise fun r r' => dec.cmp (dec.keyMem r) (dec.keyMem r') ≤ 0

def ScanAgrees (M : Nat) : Prop :=
  ∀ (contents : List (Tuple dec.fields)) (q : Query dec), (∀ r ∈ contents, AllIn M r) → q.In M →
    dec.Sorted contents →
    ((q.scan contents).filter q.satisfies).Perm (contents.filter q.satisfies)

/-- The type of the key column that follows the first declared one in the table. -/
def IndexDec.nextTy : Option FieldTy :=
  ((dec.fields.drop (dec.firstKey + 1)).find? (·.iskey)).map (·.ty)

/-- The condition on the index. -/
structure KeyFirst (M : Nat) : Prop where
  first : keyIndex dec.fields dec.firstKey = 0
  int : dec.first.ty = .int → M < 2 ^ 30 ∧ dec.nextTy ≠ some .int

end Spec

section Run

variable {dec : IndexDec}

theorem IndexDec.keyMem_holds (dec : IndexDec) (r : Tuple dec.fields) :
    Holds (dec.keyMem r) 0 (keyCells dec.fields (r.cellsWith rawCell)) := by
  have hbytes : keyBytes .insert dec.table (fun _ => 0) r =
      (keyCells dec.fields (r.cellsWith rawCell)).flatten := keyBytes_eq .insert dec.table _ r
  rw [holds_iff]
  unfold IndexDec.keyMem
  rw [hbytes]
  apply List.ext_getElem?
  intro i
  by_cases hi : i < (keyCells dec.fields (r.cellsWith rawCell)).flatten.length
  · rw [load_getElem? _ hi, Nat.zero_add, List.getElem?_eq_getElem hi]
    rfl
  · rw [List.getElem?_eq_none (by rw [load_length]; omega), List.getElem?_eq_none (by omega)]

/-- The records from the first `c_get` on. -/
def Query.start (q : Query dec) (contents : List (Tuple dec.fields)) : List (Tuple dec.fields) :=
  match q with
  | .all _ => contents.filter fun r => dec.cmp (dec.keyMem r) q.key.1 = 0
  | .eq _ => contents.dropWhile fun r => dec.cmp (dec.keyMem r) q.key.1 < 0
  | .range (some _) _ => contents.dropWhile fun r => dec.cmp (dec.keyMem r) q.key.1 < 0
  | .range none _ => contents

theorem cGet_first (q : Query dec) (contents rest : List (Tuple dec.fields)) :
    cGet contents q.key.1 (q.flag true) rest = (q.start contents).head?.map fun r =>
      (r, (q.start contents).tail) := by
  unfold cGet
  cases q with
  | all row =>
    simp only [Query.flag, if_true, Query.start]
    cases contents.filter fun r => dec.cmp (dec.keyMem r) _ = 0 <;> rfl
  | eq v =>
    simp only [Query.flag, if_true, Query.start]
    cases contents.dropWhile fun r => dec.cmp (dec.keyMem r) _ < 0 <;> rfl
  | range lower upper =>
    cases lower with
    | none =>
      cases contents <;> rfl
    | some l =>
      simp only [Query.flag, if_true, Query.start]
      cases contents.dropWhile fun r => dec.cmp (dec.keyMem r) _ < 0 <;> rfl

theorem cGet_next (q : Query dec) (contents rest : List (Tuple dec.fields)) :
    cGet contents q.key.1 (q.flag false) rest = rest.head?.map fun r => (r, rest.tail) := by
  have hflag : q.flag false = .next ∨ q.flag false = .nextDup := by
    cases q with
    | all row => exact Or.inr rfl
    | eq v => exact Or.inl rfl
    | range lower upper => cases lower <;> exact Or.inl rfl
  rcases hflag with h | h
  · rw [h]
    cases rest <;> rfl
  · rw [h]
    cases rest <;> rfl

section

variable (q : Query dec) (contents : List (Tuple dec.fields))
include q contents

theorem calls_eq {n : Nat} {rest : List (Tuple dec.fields)} (h : rest.length < n) :
    q.calls contents n false rest = rest.takeWhile fun r => !q.stops (dec.keyMem r) := by
  induction n generalizing rest with
  | zero => omega
  | succ n ih =>
    unfold Query.calls Query.call
    rw [cGet_next]
    cases rest with
    | nil => rfl
    | cons r rest =>
      simp only [List.head?_cons, Option.map_some, List.tail_cons, List.takeWhile_cons]
      cases q.stops (dec.keyMem r) with
      | true => rfl
      | false =>
        simp only [Bool.false_eq_true, if_false, Bool.not_false, if_true]
        rw [ih (by simpa using h)]

theorem start_length :
    (q.start contents).length ≤ contents.length := by
  cases q with
  | all row => exact List.length_filter_le _ _
  | eq v => exact (List.dropWhile_suffix _).length_le
  | range lower upper =>
    cases lower with
    | none => exact Nat.le_refl _
    | some l => exact (List.dropWhile_suffix _).length_le

/-- The scan visits the records from the start up to the first one beyond the upper bound. -/
theorem scan_eq :
    q.scan contents = (q.start contents).takeWhile fun r => !q.stops (dec.keyMem r) := by
  unfold Query.scan Query.calls Query.call
  have hlen := start_length q contents
  rw [cGet_first]
  cases hs : q.start contents with
  | nil => rfl
  | cons r rest =>
    rw [hs, List.length_cons] at hlen
    simp only [List.head?_cons, Option.map_some, List.tail_cons, List.takeWhile_cons]
    cases q.stops (dec.keyMem r) with
    | true => rfl
    | false =>
      simp only [Bool.false_eq_true, if_false, Bool.not_false, if_true]
      rw [calls_eq q contents (by omega)]

end

end Run

section FirstKey

variable {fs : List Field} {M : Nat}
variable {off : Nat}

theorem first_cell (row : Tuple fs) {i : Nat} {f : Field} (hf : fs[i]? = some f)
    (hk : f.iskey = true) (hi : keyIndex fs i = 0) {a : Memory Byte}
    (ha : Holds a off (keyCells fs (row.cellsWith rawCell))) :
    ∃ v : Value f.ty, load a off f.ty.size = rawCell f.ty v ∧
      row.sortKeyAt i = sortKey f.ty v ∧ (AllIn M row → InRange M f.ty v) := by
  induction row generalizing i with
  | nil => cases hf
  | @cons g fs v t ih =>
    simp only [Tuple.cellsWith, keyCells] at ha
    cases i with
    | zero =>
      cases hf
      rw [if_pos hk] at ha
      refine ⟨v, ?_, rfl, fun h => h.1 hk⟩
      rw [← rawCell_length f.ty v]
      exact ha.1
    | succ i =>
      rw [keyIndex_cons_succ] at hi
      cases hg : g.iskey with
      | true =>
        rw [hg] at hi
        simp at hi
      | false =>
        rw [hg] at hi ha
        obtain ⟨w, hload, hsort, hin⟩ := ih hf (by simpa using hi) ha
        exact ⟨w, hload, hsort, fun h => hin h.2⟩

theorem cmpFrom_first {i : Nat} {f : Field} (hf : fs[i]? = some f) (hk : f.iskey = true)
    (hi : keyIndex fs i = 0) {a b : Memory Byte} {v w : Value f.ty}
    (ha : load a off f.ty.size = rawCell f.ty v) (hb : load b off f.ty.size = rawCell f.ty w) :
    cmpFrom fs off a b = colCmp (cmpFrom (fs.drop (i + 1)) (off + 4) a b) f.ty v w := by
  induction fs generalizing i with
  | nil => cases hf
  | cons g fs ih =>
    cases i with
    | zero =>
      cases hf
      rw [cmpFrom, if_pos hk]
      obtain ⟨name, ty, iskey⟩ := f
      cases ty with
      | int =>
        have hra : readInt a off = v := readInt_eq ha
        have hrb : readInt b off = w := readInt_eq hb
        rw [hra, hrb]
        rfl
      | string n =>
        have hla : load a off n = load v 0 n := ha
        have hlb : load b off n = load w 0 n := hb
        dsimp only
        rw [hla, hlb]
        rfl
      | real => rfl
      | timestamp => rfl
    | succ i =>
      rw [keyIndex_cons_succ] at hi
      cases hg : g.iskey with
      | true =>
        rw [hg] at hi
        simp at hi
      | false =>
        rw [hg] at hi
        rw [cmpFrom, hg]
        exact ih hf (by simpa using hi)

theorem str_zero {m : Memory Byte} (h : ∀ i, off ≤ i → m i = 0) (n : Nat) :
    str (load m off n) = [] := by
  cases n with
  | zero => rfl
  | succ n => rw [load, str_cons, if_pos (h off (Nat.le_refl _))]

/-- Zeros do not come after a record if no integer is compared first. -/
theorem cmpFrom_zeros (a : Memory Byte) {b : Memory Byte} (h : ∀ i, off ≤ i → b i = 0)
    (hty : (fs.find? (·.iskey)).map (·.ty) ≠ some .int) :
    0 ≤ cmpFrom fs off a b := by
  induction fs with
  | nil => exact Int.le_refl _
  | cons f fs ih =>
    rw [cmpFrom]
    rw [List.find?_cons] at hty
    cases hk : f.iskey with
    | false =>
      rw [hk] at hty
      exact ih hty
    | true =>
      rw [hk] at hty
      rw [if_pos rfl]
      cases hf : f.ty with
      | int =>
        exfalso
        apply hty
        rw [← hf]
        rfl
      | string n =>
        rw [← Int.not_lt, strncmp_neg (by rw [load_length, load_length]), str_zero h]
        exact List.not_lt_nil _
      | real => exact Int.le_refl _
      | timestamp => exact Int.le_refl _

end FirstKey

section Columns

variable {M : Nat}

theorem sub_toInt {x y : BitVec 32} (hx : x.toInt.natAbs ≤ M) (hy : y.toInt.natAbs ≤ M)
    (hM : M < 2 ^ 30) : (x - y).toInt = x.toInt - y.toInt := by
  rw [BitVec.toInt_sub]
  apply Int.bmod_eq_of_le
  · omega
  · omega

theorem sortKey_int_lt {x y : BitVec 32} :
    sortKey .int x < sortKey .int y ↔ x.toInt < y.toInt := by
  show [x.toInt] < [y.toInt] ↔ _
  rw [List.cons_lt_cons_iff]
  simp

theorem loads_length (a b : Memory Byte) (n : Nat) :
    (load a 0 n).length = (load b 0 n).length := by
  rw [load_length, load_length]

variable {rest : Int} {ty : FieldTy} {v w : Value ty}

theorem colCmp_neg (hrest : ty = .int → M < 2 ^ 30 ∧ 0 ≤ rest) (hv : InRange M ty v)
    (hw : InRange M ty w) (h : colCmp rest ty v w < 0) : sortKey ty v < sortKey ty w := by
  cases ty with
  | int =>
    obtain ⟨hM, hrest⟩ := hrest rfl
    have hsub : BitVec.toInt (BitVec.sub v w) = BitVec.toInt v - BitVec.toInt w :=
      sub_toInt hv hw hM
    simp only [colCmp, hsub] at h
    apply sortKey_int_lt.mpr
    split at h
    · omega
    · omega
  | string n => exact (strncmp_neg (loads_length v w n)).mp h
  | real => exact absurd h (by simp [colCmp])
  | timestamp => exact absurd h (by simp [colCmp])

theorem colCmp_le (hM : ty = .int → M < 2 ^ 30) (hv : InRange M ty v) (hw : InRange M ty w)
    (h : colCmp rest ty v w ≤ 0) : sortKey ty v ≤ sortKey ty w := by
  cases ty with
  | int =>
    have hsub : BitVec.toInt (BitVec.sub v w) = BitVec.toInt v - BitVec.toInt w :=
      sub_toInt hv hw (hM rfl)
    simp only [colCmp, hsub] at h
    rw [← not_lt]
    intro hlt
    have hgt := sortKey_int_lt.mp hlt
    split at h
    · omega
    · omega
  | string n =>
    have hlen := loads_length v w n
    show str (load v 0 n) ≤ str (load w 0 n)
    rw [← not_lt, ← strncmp_pos hlen]
    exact not_lt.mpr h
  | real => exact le_refl _
  | timestamp => exact le_refl _

theorem beyond_lt {key : Memory Byte} {offset : Nat} (hoff : offset = ty.size ∨ offset = 0)
    (hload : load key 0 ty.size = rawCell ty v) (h : beyond key offset ty w = true) :
    sortKey ty w < sortKey ty v := by
  cases ty with
  | int =>
    have hread : readInt key 0 = v := readInt_eq hload
    have hgt := of_decide_eq_true h
    rw [hread] at hgt
    exact sortKey_int_lt.mpr hgt
  | string n =>
    have hgt := of_decide_eq_true h
    have hcell : load key 0 n = load v 0 n := hload
    rcases hoff with hoff | hoff
    · have hpos : strncmp (load key 0 n) (load w 0 n) > 0 := by
        rw [hoff] at hgt
        exact hgt
      rw [hcell] at hpos
      exact (strncmp_pos (loads_length v w n)).mp hpos
    · rw [hoff] at hgt
      cases hgt
  | real => cases h
  | timestamp => cases h

end Columns

section Agree

variable {dec : IndexDec} {M : Nat}

theorem boundKey_load (ty : FieldTy) (v : Value ty) :
    load (boundStore (fun _ => 0) 0 ty v) 0 ty.size = rawCell ty v := by
  rw [boundStore_eq]
  have hsame := load_store_same (fun _ => (0 : Byte)) 0 (rawCell ty v)
  rw [rawCell_length] at hsame
  exact hsame

theorem boundKey_zero {ty : FieldTy} (v : Value ty) {i : Nat} (hi : ty.size ≤ i) :
    boundStore (fun _ => 0) 0 ty v i = 0 := by
  rw [boundStore_eq, store_outside]
  rw [copied_length]
  omega

variable {r : Tuple dec.fields}

theorem below_bound (hkey : KeyFirst dec M) (hr : AllIn M r) {v : Value dec.first.ty}
    (hv : InRange M dec.first.ty v)
    (h : dec.cmp (dec.keyMem r) (boundStore (fun _ => 0) 0 dec.first.ty v) < 0) :
    r.sortKeyAt dec.firstKey < sortKey dec.first.ty v := by
  obtain ⟨w, hload, hsort, hin⟩ :=
    first_cell r dec.first_eq dec.first_key hkey.first (dec.keyMem_holds r)
  rw [hsort]
  unfold IndexDec.cmp at h
  rw [cmpFrom_first dec.first_eq dec.first_key hkey.first hload (boundKey_load _ v)] at h
  apply colCmp_neg _ (hin hr) hv h
  intro hty
  obtain ⟨hM, hnext⟩ := hkey.int hty
  refine ⟨hM, cmpFrom_zeros _ ?_ hnext⟩
  intro i hi
  apply boundKey_zero
  rw [hty]
  exact hi

theorem ordered (hkey : KeyFirst dec M) {r' : Tuple dec.fields} (hr : AllIn M r) (hr' : AllIn M r')
    (h : dec.cmp (dec.keyMem r) (dec.keyMem r') ≤ 0) :
    r.sortKeyAt dec.firstKey ≤ r'.sortKeyAt dec.firstKey := by
  obtain ⟨v, hload, hsort, hin⟩ :=
    first_cell r dec.first_eq dec.first_key hkey.first (dec.keyMem_holds r)
  obtain ⟨w, hload', hsort', hin'⟩ :=
    first_cell r' dec.first_eq dec.first_key hkey.first (dec.keyMem_holds r')
  rw [hsort, hsort']
  unfold IndexDec.cmp at h
  rw [cmpFrom_first dec.first_eq dec.first_key hkey.first hload hload'] at h
  exact colCmp_le (fun hty => (hkey.int hty).1) (hin hr) (hin' hr') h

theorem stop_above (hkey : KeyFirst dec M) (r : Tuple dec.fields) {u : Value dec.first.ty}
    {offset : Nat} (hoff : offset = dec.first.ty.size ∨ offset = 0)
    (h : beyond (dec.keyMem r) offset dec.first.ty u = true) :
    sortKey dec.first.ty u < r.sortKeyAt dec.firstKey := by
  obtain ⟨v, hload, hsort, -⟩ :=
    first_cell (M := M) r dec.first_eq dec.first_key hkey.first (dec.keyMem_holds r)
  rw [hsort]
  exact beyond_lt hoff hload h

theorem stops_above (hkey : KeyFirst dec M) (q : Query dec) (r : Tuple dec.fields)
    (h : q.stops (dec.keyMem r) = true) :
    ∃ k, k < r.sortKeyAt dec.firstKey ∧
      ∀ r' : Tuple dec.fields, q.satisfies r' = true → r'.sortKeyAt dec.firstKey ≤ k := by
  cases q with
  | all row => cases h
  | eq v =>
    refine ⟨_, stop_above hkey r (Or.inl rfl) h, ?_⟩
    intro r' hr'
    exact le_of_eq (of_decide_eq_true hr')
  | range lower upper =>
    cases upper with
    | none => cases h
    | some u =>
      have hoff : (Query.range lower (some u)).key.2 = dec.first.ty.size ∨
          (Query.range lower (some u) : Query dec).key.2 = 0 := by
        cases lower with
        | none => exact Or.inr rfl
        | some l => exact Or.inl rfl
      refine ⟨_, stop_above hkey r hoff h, ?_⟩
      intro r' hr'
      unfold Query.satisfies at hr'
      rw [Bool.and_eq_true] at hr'
      exact of_decide_eq_true hr'.2

theorem keyCmp_eq_zero {fs : List Field} (row r : Tuple fs) (h : keysEq row r = true) :
    keyCmp r row = 0 := by
  induction row with
  | nil => cases r with
    | nil => rfl
  | @cons f fs v t ih => cases r with
    | cons w t' =>
      simp only [keysEq, Bool.and_eq_true] at h
      obtain ⟨hcol, hrest⟩ := h
      have htail := ih t' hrest
      simp only [keyCmp, htail]
      cases hk : f.iskey with
      | false => rfl
      | true =>
        rw [hk] at hcol
        have heq : sortKey f.ty v = sortKey f.ty w := by simpa using hcol
        obtain ⟨name, ty, iskey⟩ := f
        cases ty with
        | int =>
          have hvw : w = v := BitVec.eq_of_toInt_eq (List.cons.inj heq).1.symm
          have hsub : BitVec.sub w v = 0 := by
            rw [hvw]
            exact BitVec.sub_self v
          simp [colCmp, hsub]
        | string n => exact (strncmp_eq_zero (loads_length w v n)).mpr heq.symm
        | real => rfl
        | timestamp => rfl

theorem lookup_cmp {row : Tuple dec.fields} (h : keysEq row r = true) :
    dec.cmp (dec.keyMem r) (Query.all row).key.1 = 0 := by
  have hstart : Holds (fun _ => (0 : Byte)) 0 [] := trivial
  have hkey := (bound_all row hstart (rfl : 0 = _)).1
  exact (cmpFrom_eq r row (dec.keyMem_holds r) hkey).trans (keyCmp_eq_zero row r h)

theorem start_filter (hkey : KeyFirst dec M) (q : Query dec) (hq : q.In M)
    {contents : List (Tuple dec.fields)} (hin : ∀ r ∈ contents, AllIn M r) :
    (q.start contents).filter q.satisfies = contents.filter q.satisfies := by
  cases q with
  | all row =>
    unfold Query.start
    rw [List.filter_filter]
    apply List.filter_congr
    intro r _
    cases hs : (Query.all row).satisfies r with
    | false => rfl
    | true => simpa using lookup_cmp hs
  | eq v =>
    apply filter_dropWhile
    intro r hr hlt
    have hbelow := below_bound hkey (hin r hr) hq (of_decide_eq_true hlt)
    exact decide_eq_false (ne_of_lt hbelow)
  | range lower upper =>
    cases lower with
    | none => rfl
    | some l =>
      apply filter_dropWhile
      intro r hr hlt
      have hbelow := below_bound hkey (hin r hr) (hq.1 l rfl) (of_decide_eq_true hlt)
      have hnot : ¬ sortKey dec.first.ty l ≤ r.sortKeyAt dec.firstKey := not_le.mpr hbelow
      simp [Query.satisfies, hnot]

theorem start_sublist (q : Query dec) (contents : List (Tuple dec.fields)) :
    (q.start contents).Sublist contents := by
  cases q with
  | all row => exact List.filter_sublist
  | eq v => exact List.dropWhile_sublist _
  | range lower upper =>
    cases lower with
    | none => exact List.Sublist.refl _
    | some l => exact List.dropWhile_sublist _

theorem scanAgrees_of (hkey : KeyFirst dec M) : ScanAgrees dec M := by
  intro contents q hin hq hsorted
  have hsub := start_sublist q contents
  rw [scan_eq, filter_takeWhile, start_filter hkey q hq hin]
  · apply (hsorted.sublist hsub).imp_of_mem
    intro r r' hr hr' hle hstop
    have hstop' : q.stops (dec.keyMem r) = true := by simpa using hstop
    obtain ⟨k, hk, hall⟩ := stops_above hkey q r hstop'
    have hord := ordered hkey (hin r (hsub.subset hr)) (hin r' (hsub.subset hr')) hle
    cases hs : q.satisfies r' with
    | false => rfl
    | true => exact absurd (lt_of_lt_of_le hk hord) (not_lt.mpr (hall r' hs))
  · intro r _ hstop
    have hstop' : q.stops (dec.keyMem r) = true := by simpa using hstop
    obtain ⟨k, hk, hall⟩ := stops_above hkey q r hstop'
    cases hs : q.satisfies r with
    | false => rfl
    | true => exact absurd hk (not_lt.mpr (hall r hs))

end Agree

section Failing

variable {dec : IndexDec} {M : Nat} {fs : List Field}

def tupleOf (g : Nat → (ty : FieldTy) → Value ty) : (fs : List Field) → Tuple fs
  | [] => .nil
  | f :: fs => .cons (g 0 f.ty) (tupleOf (fun i => g (i + 1)) fs)

/-- `x` as an integer, a string of `b`s. -/
def constVal (x : BitVec 32) (b : Byte) : (ty : FieldTy) → Value ty
  | .int => x
  | .real => (0 : BitVec 64)
  | .string _ => fun _ => b
  | .timestamp => ((0 : BitVec 32), (0 : BitVec 32))

/-- Column `j` has the value `constVal x b`, the others are zero. -/
def only (j : Nat) (x : BitVec 32) (b : Byte) (i : Nat) (ty : FieldTy) : Value ty :=
  if i = j then constVal x b ty else constVal 0 0 ty

variable {f : Field} {g : Nat → (ty : FieldTy) → Value ty} {i : Nat} {ty : FieldTy}

theorem sortKeyAt_tupleOf (hf : fs[i]? = some f) :
    (tupleOf g fs).sortKeyAt i = sortKey f.ty (g i f.ty) := by
  induction fs generalizing g i with
  | nil => cases hf
  | cons f' fs ih =>
    cases i with
    | zero =>
      cases hf
      rfl
    | succ i => exact ih hf

theorem allIn_tupleOf (h : ∀ i ty, InRange M ty (g i ty)) :
    AllIn M (tupleOf g fs) := by
  induction fs generalizing g with
  | nil => trivial
  | cons f fs ih => exact ⟨fun _ => h 0 f.ty, ih fun i ty => h (i + 1) ty⟩

theorem inRange_const {x : BitVec 32} {b : Byte} (h : x.toInt.natAbs ≤ M) (ty : FieldTy) :
    InRange M ty (constVal x b ty) := by
  cases ty with
  | int => exact h
  | real => trivial
  | string n => trivial
  | timestamp => trivial

theorem inRange_only {j : Nat} {x : BitVec 32} {b : Byte} (h : x.toInt.natAbs ≤ M) (i : Nat)
    (ty : FieldTy) : InRange M ty (only j x b i ty) := by
  unfold only
  split
  · exact inRange_const h ty
  · exact inRange_const (Nat.zero_le _) ty

theorem first_cell_of (hf : fs[i]? = some f) (hk : f.iskey = true) (hi : keyIndex fs i = 0)
    {a : Memory Byte} {off : Nat}
    (ha : Holds a off (keyCells fs ((tupleOf g fs).cellsWith rawCell))) :
    load a off f.ty.size = rawCell f.ty (g i f.ty) ∧
      Holds a (off + f.ty.size) (keyCells (fs.drop (i + 1))
        ((tupleOf (fun k => g (k + (i + 1))) (fs.drop (i + 1))).cellsWith rawCell)) := by
  induction fs generalizing g i with
  | nil => cases hf
  | cons f' fs ih =>
    simp only [tupleOf, Tuple.cellsWith, keyCells] at ha
    cases i with
    | zero =>
      cases hf
      rw [if_pos hk] at ha
      obtain ⟨hload, hrest⟩ := ha
      rw [rawCell_length] at hload hrest
      exact ⟨hload, hrest⟩
    | succ i =>
      rw [keyIndex_cons_succ] at hi
      cases hg : f'.iskey with
      | true =>
        rw [hg] at hi
        simp at hi
      | false =>
        rw [hg] at hi ha
        exact ih hf (by simpa using hi) ha

theorem find_first (h : fs.find? (·.iskey) = some f) :
    ∃ i, fs[i]? = some f ∧ f.iskey = true ∧ keyIndex fs i = 0 := by
  induction fs with
  | nil => cases h
  | cons g fs ih =>
    rw [List.find?_cons] at h
    cases hg : g.iskey with
    | true =>
      rw [hg] at h
      cases h
      exact ⟨0, rfl, hg, rfl⟩
    | false =>
      rw [hg] at h
      obtain ⟨i, hi, hk, hidx⟩ := ih h
      refine ⟨i + 1, hi, hk, ?_⟩
      rw [keyIndex_cons_succ, hg, hidx]
      rfl

/-- One stored tuple that satisfies a lower bound but comes before it in the index. -/
theorem not_agrees_of_below {r : Tuple dec.fields} {l : Value dec.first.ty} (hr : AllIn M r)
    (hl : InRange M dec.first.ty l)
    (hsat : sortKey dec.first.ty l ≤ r.sortKeyAt dec.firstKey)
    (hcmp : dec.cmp (dec.keyMem r) (boundStore (fun _ => 0) 0 dec.first.ty l) < 0) :
    ¬ ScanAgrees dec M := by
  intro h
  have hperm := h [r] (.range (some l) none) (by simpa using hr)
    ⟨by rintro _ ⟨⟩; exact hl, by rintro _ ⟨⟩⟩ (List.pairwise_singleton _ _)
  have hstart : (Query.range (some l) none).start [r] = [] := by
    show List.dropWhile (fun s => decide (dec.cmp (dec.keyMem s)
      (boundStore (fun _ => 0) 0 dec.first.ty l) < 0)) [r] = []
    rw [List.dropWhile_cons, if_pos (decide_eq_true hcmp), List.dropWhile_nil]
  have hsatisfies : (Query.range (some l) none).satisfies r = true := by
    simp [Query.satisfies, hsat]
  rw [scan_eq, hstart, List.filter_cons, if_pos hsatisfies] at hperm
  exact absurd hperm.length_eq (by simp)

theorem zero_bytes (ty : FieldTy) : ∀ b ∈ rawCell ty (constVal 0 0 ty), b = 0 := by
  cases ty with
  | int => decide
  | real => decide
  | string n =>
    intro b hb
    have hzero : rawCell (.string n) (constVal 0 0 (.string n)) = List.replicate n 0 :=
      load_const 0 0 n
    rw [hzero] at hb
    exact List.eq_of_mem_replicate hb
  | timestamp => decide

theorem zeroKey (ty : FieldTy) (i : Nat) :
    boundStore (fun _ => 0) 0 ty (constVal 0 0 ty) i = 0 := by
  have hraw : copied .lookup ty (constVal 0 0 ty) = rawCell ty (constVal 0 0 ty) := by
    cases ty <;> rfl
  rw [boundStore_eq, hraw]
  unfold Memory.store
  cases hb : (rawCell ty (constVal 0 0 ty))[i - 0]? with
  | none => rfl
  | some b => exact zero_bytes ty b (List.mem_of_getElem? hb)

theorem zero_cell {m : Memory Byte} (h : ∀ i, m i = 0) (off : Nat) (ty : FieldTy) :
    load m off ty.size = rawCell ty (constVal 0 0 ty) := by
  have hcongr : load m off ty.size = load (fun _ => 0) off ty.size := load_congr fun i _ _ => h i
  rw [hcongr, load_const, List.eq_replicate_iff.mpr ⟨rawCell_length ty _, zero_bytes ty⟩]

theorem only_self (j : Nat) (x : BitVec 32) (b : Byte) (ty : FieldTy) :
    only j x b j ty = constVal x b ty := if_pos rfl

theorem only_of_ne {j : Nat} (h : i ≠ j) (x : BitVec 32) (b : Byte) (ty : FieldTy) :
    only j x b i ty = constVal 0 0 ty := if_neg h

theorem colCmp_large (hty : ty = .int) (rest : Int) :
    colCmp rest ty (constVal 0x40000000#32 0 ty) (constVal 0xC0000000#32 0 ty) ≤ 0 := by
  subst hty
  have hsub : BitVec.toInt (BitVec.sub (constVal 0x40000000#32 0 .int)
      (constVal 0xC0000000#32 0 .int)) = -(2 ^ 31) := by decide
  simp only [colCmp, hsub]
  omega

theorem beyond_large (hty : ty = .int) {key : Memory Byte} (offset : Nat)
    (h : load key 0 ty.size = rawCell ty (constVal 0x40000000#32 0 ty)) :
    beyond key offset ty (constVal 0 0 ty) = true := by
  subst hty
  have hread : readInt key 0 = 0x40000000#32 := readInt_eq h
  simp only [beyond, hread]
  decide

theorem sortKey_large (hty : ty = .int) :
    sortKey ty (constVal 0xC0000000#32 0 ty) ≤ sortKey ty (constVal 0 0 ty) := by
  subst hty
  have hlt : sortKey .int (constVal 0xC0000000#32 0 .int) < sortKey .int (constVal 0 0 .int) :=
    sortKey_int_lt.mpr (by decide)
  exact le_of_lt hlt

/-- Overflow in the comparison of two first keys: the scan stops at the greater one. -/
theorem not_agrees_large (hi : keyIndex dec.fields dec.firstKey = 0) (hty : dec.first.ty = .int)
    (hM : 2 ^ 30 ≤ M) : ¬ ScanAgrees dec M := by
  intro h
  let a : Tuple dec.fields := tupleOf (only dec.firstKey 0x40000000#32 0) dec.fields
  let b : Tuple dec.fields := tupleOf (only dec.firstKey 0xC0000000#32 0) dec.fields
  let q : Query dec := .range none (some (constVal 0 0 dec.first.ty))
  have ha : AllIn M a := allIn_tupleOf (inRange_only (le_trans (by decide) hM))
  have hb : AllIn M b := allIn_tupleOf (inRange_only (le_trans (by decide) hM))
  have hla := (first_cell_of dec.first_eq dec.first_key hi (dec.keyMem_holds a)).1
  have hlb := (first_cell_of dec.first_eq dec.first_key hi (dec.keyMem_holds b)).1
  rw [only_self] at hla hlb
  have hcmp : dec.cmp (dec.keyMem a) (dec.keyMem b) ≤ 0 := by
    unfold IndexDec.cmp
    rw [cmpFrom_first dec.first_eq dec.first_key hi hla hlb]
    exact colCmp_large hty _
  have hstop : q.stops (dec.keyMem a) = true := beyond_large hty _ hla
  have hsat : q.satisfies b = true := by
    have hle := sortKey_large hty
    simpa [q, Query.satisfies, b, sortKeyAt_tupleOf dec.first_eq, only_self] using hle
  have hperm := h [a, b] q (by simpa using ⟨ha, hb⟩)
    ⟨by rintro _ ⟨⟩, by rintro _ ⟨⟩; exact inRange_const (Nat.zero_le _) _⟩
    (List.pairwise_pair.mpr hcmp)
  have hscan : q.scan [a, b] = [] := by
    rw [scan_eq]
    show List.takeWhile _ [a, b] = []
    rw [List.takeWhile_cons, hstop]
    rfl
  rw [hscan] at hperm
  have hnil := hperm.nil_eq
  have hmem : b ∈ [a, b].filter q.satisfies := List.mem_filter.mpr ⟨by simp, hsat⟩
  rw [← hnil] at hmem
  cases hmem

theorem colCmp_self (hty : ty = .int) (rest : Int) (v : Value ty) :
    colCmp rest ty v v = rest := by
  subst hty
  have hsub : BitVec.toInt (BitVec.sub v v) = 0 := by
    have hself : BitVec.sub v v = 0#32 := BitVec.sub_self v
    rw [hself]
    rfl
  simp [colCmp, hsub]

theorem colCmp_minus {rest : Int} (hty : ty = .int) :
    colCmp rest ty (constVal (-1) 0 ty) (constVal 0 0 ty) < 0 := by
  subst hty
  have hsub : BitVec.toInt (BitVec.sub (constVal (-1) 0 .int) (constVal 0 0 .int)) = -1 := by
    decide
  simp only [colCmp, hsub]
  omega

theorem not_agrees_next (hM : 1 ≤ M) (hi : keyIndex dec.fields dec.firstKey = 0)
    (hty : dec.first.ty = .int) (hnext : dec.nextTy = some .int) : ¬ ScanAgrees dec M := by
  obtain ⟨f, hfind, hf⟩ := Option.map_eq_some_iff.mp hnext
  obtain ⟨j, hj, hk, hidx⟩ := find_first hfind
  have hcol : j + (dec.firstKey + 1) ≠ dec.firstKey := by omega
  let r : Tuple dec.fields := tupleOf (only (j + (dec.firstKey + 1)) (-1) 0) dec.fields
  have hr : AllIn M r := allIn_tupleOf (inRange_only hM)
  obtain ⟨hload, hrest⟩ := first_cell_of dec.first_eq dec.first_key hi (dec.keyMem_holds r)
  rw [only_of_ne hcol.symm] at hload
  have hnextCell := (first_cell_of hj hk hidx hrest).1
  rw [only_self] at hnextCell
  have hfirst : sortKey dec.first.ty (constVal 0 0 dec.first.ty) ≤ r.sortKeyAt dec.firstKey := by
    rw [sortKeyAt_tupleOf dec.first_eq, only_of_ne hcol.symm]
  apply not_agrees_of_below hr (inRange_const (Nat.zero_le _) _) hfirst
  have hsize : dec.first.ty.size = 4 := by
    rw [hty]
    rfl
  rw [hsize] at hnextCell
  unfold IndexDec.cmp
  rw [cmpFrom_first dec.first_eq dec.first_key hi hload (boundKey_load _ _), colCmp_self hty,
    cmpFrom_first hj hk hidx hnextCell (zero_cell (zeroKey _) _ _)]
  exact colCmp_minus hf

theorem empty_before {n : Nat} (hty : ty = .string n) (hn : 0 < n) {m : Memory Byte} (hm : m 0 ≠ 0) :
    ∃ w : Value ty, load m 0 ty.size = rawCell ty w ∧
      ∀ rest, colCmp rest ty (constVal 0 0 ty) w < 0 := by
  subst hty
  refine ⟨m, rfl, fun _ => ?_⟩
  have hempty : str (load (fun _ => (0 : Byte)) 0 n) = [] := str_zero (fun _ _ => rfl) n
  have hlt : str (load (fun _ => (0 : Byte)) 0 n) < str (load m 0 n) := by
    rw [hempty]
    cases n with
    | zero => omega
    | succ n =>
      rw [load, str_cons, if_neg hm]
      exact List.nil_lt_cons _ _
  exact (strncmp_neg (loads_length _ _ n)).mpr hlt

theorem boundKey_one (hty : ty = .int ∨ ∃ n, 0 < n ∧ ty = .string n) :
    boundStore (fun _ => 0) 0 ty (constVal 1 1 ty) 0 ≠ 0 := by
  rcases hty with rfl | ⟨n, hn, rfl⟩
  · decide
  · cases n with
    | zero => omega
    | succ n =>
      show (1 : Byte) ≠ 0
      decide

/-- The key that is compared first is not the one that the bound is for. -/
theorem not_agrees_later (hM : 1 ≤ M) (hd : keyIndex dec.fields dec.firstKey ≠ 0) :
    ¬ ScanAgrees dec M := by
  have hsome : (dec.fields.find? (·.iskey)).isSome := by
    rw [List.find?_isSome]
    exact ⟨dec.first, List.mem_of_getElem? dec.first_eq, dec.first_key⟩
  obtain ⟨f, hfind⟩ := Option.isSome_iff_exists.mp hsome
  obtain ⟨i, hf, hk, hi⟩ := find_first hfind
  have hne : dec.firstKey ≠ i := by
    intro h
    rw [h] at hd
    exact hd hi
  rcases dec.keyTy f (List.mem_of_getElem? hf) hk with hty | ⟨n, hn, hty⟩
  · -- a negative integer comes before the zeros, whatever the bound is
    let r : Tuple dec.fields := tupleOf (only i (-1) 0) dec.fields
    have hr : AllIn M r := allIn_tupleOf (inRange_only hM)
    have hload := (first_cell_of hf hk hi (dec.keyMem_holds r)).1
    rw [only_self] at hload
    have hbound : sortKey dec.first.ty (constVal 0 0 dec.first.ty) ≤ r.sortKeyAt dec.firstKey := by
      rw [sortKeyAt_tupleOf dec.first_eq, only_of_ne hne]
    apply not_agrees_of_below hr (inRange_const (Nat.zero_le _) _) hbound
    unfold IndexDec.cmp
    rw [cmpFrom_first hf hk hi hload (zero_cell (zeroKey _) _ _)]
    exact colCmp_minus hty
  · -- the empty string comes before the bytes of the bound
    let r : Tuple dec.fields := tupleOf (only dec.firstKey 1 1) dec.fields
    have hr : AllIn M r := allIn_tupleOf (inRange_only hM)
    have hload := (first_cell_of hf hk hi (dec.keyMem_holds r)).1
    rw [only_of_ne hne.symm] at hload
    have hbound : sortKey dec.first.ty (constVal 1 1 dec.first.ty) ≤ r.sortKeyAt dec.firstKey := by
      rw [sortKeyAt_tupleOf dec.first_eq, only_self]
    apply not_agrees_of_below hr (inRange_const hM _) hbound
    have hone := boundKey_one (dec.keyTy _ (List.mem_of_getElem? dec.first_eq) dec.first_key)
    obtain ⟨w, hw, hneg⟩ := empty_before hty hn hone
    unfold IndexDec.cmp
    rw [cmpFrom_first hf hk hi hload hw]
    exact hneg _

end Failing

theorem scan_agrees_iff (dec : IndexDec) {M : Nat} (hM : 1 ≤ M) :
    ScanAgrees dec M ↔ KeyFirst dec M := by
  constructor
  · intro h
    have hfirst : keyIndex dec.fields dec.firstKey = 0 := by
      by_contra hne
      exact not_agrees_later hM hne h
    refine ⟨hfirst, fun hty => ⟨?_, ?_⟩⟩
    · by_contra hlarge
      exact not_agrees_large hfirst hty (by omega) h
    · intro hnext
      exact not_agrees_next hM hfirst hty hnext h
  · exact scanAgrees_of

def nameId : IndexDec where
  fields := [⟨"name", .string 4, true⟩, ⟨"id", .int, true⟩]
  keyTy := by
    intro f hf _
    simp only [List.mem_cons, List.not_mem_nil, or_false] at hf
    rcases hf with rfl | rfl
    · exact Or.inr ⟨4, by decide, rfl⟩
    · exact Or.inl rfl
  firstKey := 0
  first := ⟨"name", .string 4, true⟩
  first_eq := rfl
  first_key := rfl

theorem nameId_agrees : ScanAgrees nameId (2 ^ 31) :=
  (scan_agrees_iff nameId (by decide)).mpr ⟨rfl, nofun⟩

/-- `index btree (id, no)` on `(id int, no int)` -/
def idNo : IndexDec where
  fields := [⟨"id", .int, true⟩, ⟨"no", .int, true⟩]
  keyTy := by
    intro f hf _
    simp only [List.mem_cons, List.not_mem_nil, or_false] at hf
    rcases hf with rfl | rfl
    · exact Or.inl rfl
    · exact Or.inl rfl
  firstKey := 0
  first := ⟨"id", .int, true⟩
  first_eq := rfl
  first_key := rfl

/-- The tuple `(0, -1)` is not found by `id >= 0`. -/
theorem idNo_not_agrees : ¬ ScanAgrees idNo 1 :=
  not_agrees_next (Nat.le_refl 1) rfl rfl rfl

end StreamMill.Table
