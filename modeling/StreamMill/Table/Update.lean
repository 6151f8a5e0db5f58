import StreamMill.Table.Record

/-!
# StreamMill.Table.Update

UPDATE on a keyed table. The generated code assigns the columns of the SET list in the key and the
data of the current tuple, and puts the tuple through the temporary relation if a key column is
among them. `searchRecordField` gives one offset for each column, that in the data, and the code
uses it in the key as well.

`update_right_iff`: the key and the data written back are those that INSERT would write exactly if
every assigned key column has the same offset in both and the second corner of an R-tree key is
touched as it should.
-/

namespace StreamMill.Table

open Lib Lib.Memory
open ImDb (Byte)

structure Dbt where
  data : Memory Byte
  size : Nat

def Dbt.bytes (d : Dbt) : List Byte := load d.data 0 d.size

def searchFrom (fname : String) : List Field → Nat → Nat → Nat → Option (Nat × Nat × Field)
  | [], _, _, _ => none
  | f :: fs, i, off0, off1 =>
    if fname = f.name then
      -- `if (f->iskey) *off = offset[1]; *off = offset[0];`, without an `else`
      some (i, off0, f)
    else
      searchFrom fname fs (i + 1) (off0 + f.ty.size) (if f.iskey then off1 + f.ty.size else off1)

/-- The index, the offset and the field of the first column named `fname`. -/
def searchRecordField (fields : List Field) (fname : String) : Option (Nat × Nat × Field) :=
  searchFrom fname fields 0 0 0

/-- The current tuple while columns are assigned, and what the generator keeps on the way. -/
structure Update where
  key : Memory Byte
  data : Memory Byte
  /-- The stores of `rtree_update_buf`. -/
  rtreeUpdate : List (Nat × Cell)
  keyUpdated : Nat

def Update.assign (index : IndexKind) (u : Update) (f : Field) (offset : Nat) (v : Cell) : Update :=
  if f.iskey then
    { key := u.key.store offset v
      data := u.data.store offset v
      rtreeUpdate :=
        if f.ty = .int ∧ index = .rtree then u.rtreeUpdate ++ [(offset + 8, v)] else u.rtreeUpdate
      keyUpdated := u.keyUpdated + 1 }
  else { u with data := u.data.store offset v }

/-- The SET list; `none` is `ERR_UNDEFINED_VARIABLE`. -/
def assignAll (dec : TableDec) : List (String × Cell) → Update → Option Update
  | [], u => some u
  | (target, v) :: sets, u =>
    match searchRecordField dec.fields target with
    | none => none
    | some (_, offset, f) => assignAll dec sets (u.assign dec.index f offset v)

/-- `insertTemp` puts the key size, the key and the data in one record. -/
def insertTemp (key data : List Byte) : Nat × List Byte := (key.length, key ++ data)

/-- `_mvTemp` takes the record apart. -/
def mvTemp (pair : Nat × List Byte) : List Byte × List Byte :=
  (pair.2.take pair.1, pair.2.drop pair.1)

/-- The key and the data that UPDATE writes back. -/
def transUpdate (dec : TableDec) (key data : Dbt) (sets : List (String × Cell)) :
    Option (List Byte × List Byte) :=
  match assignAll dec sets ⟨key.data, data.data, [], 0⟩ with
  | none => none
  | some u =>
    if u.keyUpdated > 0 then
      let keyMem :=
        if dec.index = .rtree ∧ u.keyUpdated = 2 then u.key.storeAll u.rtreeUpdate else u.key
      some (mvTemp (insertTemp (load keyMem 0 key.size) (load u.data 0 data.size)))
    else some (load u.key 0 key.size, load u.data 0 data.size)

/-- The number of the column named `fname`. -/
def column (fields : List Field) (fname : String) : Nat :=
  fields.findIdx fun f => decide (fname = f.name)

def assignCells (fields : List Field) (cells : List Cell) (sets : List (String × Cell)) :
    List Cell :=
  setAll cells (sets.map fun s => (column fields s.1, s.2))

def Declared (fields : List Field) (targets : List String) : Prop :=
  ∀ n ∈ targets, ∃ f ∈ fields, n = f.name

def FitsSets (fields : List Field) (sets : List (String × Cell)) : Prop :=
  ∀ s ∈ sets, ∀ f, fields[column fields s.1]? = some f → s.2.length = f.ty.size

/-- For every stored tuple and all values for the columns `targets`, UPDATE writes back what INSERT
would write for the updated tuple. -/
def UpdateRight (dec : TableDec) (targets : List String) : Prop :=
  ∀ (keydata datadata : Memory Byte) (cells : List Cell) (key data : Dbt)
    (sets : List (String × Cell)),
    Fits dec.fields cells →
    (key.bytes, data.bytes) = transInsert2C dec keydata datadata cells →
    sets.map Prod.fst = targets → FitsSets dec.fields sets →
    transUpdate dec key data sets =
      some (transInsert2C dec keydata datadata (assignCells dec.fields cells sets))

def dataOffset (fields : List Field) (i : Nat) : Nat :=
  ((fields.take i).map (·.ty.size)).sum

def keyIndex (fields : List Field) (i : Nat) : Nat := (fields.take i).countP (·.iskey)

def keyOffset (fields : List Field) (i : Nat) : Nat :=
  (((fields.take i).filter (·.iskey)).map (·.ty.size)).sum

def IsKey (fields : List Field) (i : Nat) : Prop := ∃ f, fields[i]? = some f ∧ f.iskey = true

instance (fields : List Field) (i : Nat) : Decidable (IsKey fields i) :=
  match h : fields[i]? with
  | none => isFalse fun ⟨f, hf, _⟩ => by rw [h] at hf; cases hf
  | some f =>
    if hk : f.iskey = true then isTrue ⟨f, h, hk⟩
    else isFalse fun ⟨g, hg, hgk⟩ => by rw [h] at hg; cases hg; exact hk hgk

def keyTargets (fields : List Field) (targets : List String) : List Nat :=
  (targets.map (column fields)).filter fun i => decide (IsKey fields i)

/-- The column has one offset in key and data, or takes no room. -/
def SameOffset (fields : List Field) (i : Nat) : Prop :=
  dataOffset fields i = keyOffset fields i ∨ ∀ f, fields[i]? = some f → f.ty.size = 0

/-- The condition on a table and the assigned columns. -/
structure InStep (dec : TableDec) (targets : List String) : Prop where
  same : ∀ i ∈ keyTargets dec.fields targets, SameOffset dec.fields i
  /-- A point has its second corner changed only if two keys are assigned. -/
  point : dec.index = .rtree → dec.fields.countP (·.iskey) = 2 →
    (keyTargets dec.fields targets).length = 0 ∨ (keyTargets dec.fields targets).length = 2
  /-- A rectangle is taken for a point if two keys are assigned. -/
  rect : dec.index = .rtree → dec.fields.countP (·.iskey) = 4 →
    (keyTargets dec.fields targets).length = 2 →
    ∀ i ∈ keyTargets dec.fields targets, 8 ≤ keyOffset dec.fields i

section Offsets

variable {fields : List Field} {cells : List Cell}

section

variable (f : Field) (fs : List Field)
include f fs

theorem column_cons (fname : String) :
    column (f :: fs) fname = if fname = f.name then 0 else column fs fname + 1 := by
  unfold column
  rw [List.findIdx_cons]
  by_cases h : fname = f.name
  · rw [if_pos h, decide_eq_true h]
    rfl
  · rw [if_neg h, decide_eq_false h]
    rfl

theorem dataOffset_cons_succ (i : Nat) :
    dataOffset (f :: fs) (i + 1) = f.ty.size + dataOffset fs i := by
  simp [dataOffset]

theorem keyIndex_cons_succ (i : Nat) :
    keyIndex (f :: fs) (i + 1) = (if f.iskey then 1 else 0) + keyIndex fs i := by
  simp only [keyIndex, List.take_succ_cons, List.countP_cons]
  exact Nat.add_comm _ _

theorem keyOffset_cons_succ (i : Nat) :
    keyOffset (f :: fs) (i + 1) = (if f.iskey then f.ty.size else 0) + keyOffset fs i := by
  simp only [keyOffset, List.take_succ_cons, List.filter_cons]
  split
  · simp
  · simp

theorem isKey_cons_succ (i : Nat) :
    IsKey (f :: fs) (i + 1) ↔ IsKey fs i := by
  unfold IsKey
  rw [List.getElem?_cons_succ]

theorem isKey_cons_zero : IsKey (f :: fs) 0 ↔ f.iskey = true := by
  simp [IsKey]

end

theorem keyOffset_le (fields : List Field) (i : Nat) :
    keyOffset fields i ≤ dataOffset fields i := by
  induction fields generalizing i with
  | nil => simp [keyOffset, dataOffset]
  | cons f fs ih =>
    cases i with
    | zero => exact Nat.le_refl _
    | succ i =>
      rw [keyOffset_cons_succ, dataOffset_cons_succ]
      have := ih i
      split
      · omega
      · omega

theorem searchFrom_eq {fname : String} (h : ∃ f ∈ fields, fname = f.name) (i off0 off1 : Nat) :
    ∃ f, fields[column fields fname]? = some f ∧
      searchFrom fname fields i off0 off1 =
        some (i + column fields fname, off0 + dataOffset fields (column fields fname), f) := by
  induction fields generalizing i off0 off1 with
  | nil =>
    obtain ⟨f, hf, -⟩ := h
    cases hf
  | cons g fs ih =>
    rw [column_cons]
    unfold searchFrom
    by_cases hg : fname = g.name
    · rw [if_pos hg, if_pos hg]
      exact ⟨g, rfl, rfl⟩
    · obtain ⟨f, hf, hname⟩ := h
      have hmem : f ∈ fs := by
        rcases List.mem_cons.mp hf with rfl | hmem
        · exact absurd hname hg
        · exact hmem
      rw [if_neg hg, if_neg hg]
      obtain ⟨f', hf', hsearch⟩ := ih ⟨f, hmem, hname⟩ (i + 1) (off0 + g.ty.size)
        (if g.iskey then off1 + g.ty.size else off1)
      refine ⟨f', hf', ?_⟩
      rw [hsearch, dataOffset_cons_succ, Nat.add_assoc off0, Nat.add_assoc i, Nat.add_comm 1]

theorem cellOff_data (h : Fits fields cells) (i : Nat) :
    cellOff cells i = dataOffset fields i := by
  induction h generalizing i with
  | nil => simp [cellOff, dataOffset]
  | @cons f c fs cs hc _ ih =>
    cases i with
    | zero => rfl
    | succ i => rw [cellOff_cons_succ, dataOffset_cons_succ, hc, ih]

theorem cellOff_key (h : Fits fields cells) (i : Nat) :
    cellOff (keyCells fields cells) (keyIndex fields i) = keyOffset fields i := by
  induction h generalizing i with
  | nil => simp [cellOff, keyCells, keyOffset]
  | @cons f c fs cs hc _ ih =>
    cases i with
    | zero => rfl
    | succ i =>
      rw [keyIndex_cons_succ, keyOffset_cons_succ]
      cases hk : f.iskey with
      | false =>
        simp only [keyCells, hk, Bool.false_eq_true, if_false, Nat.zero_add]
        exact ih i
      | true =>
        simp only [keyCells, hk, if_true]
        rw [Nat.add_comm 1, cellOff_cons_succ, hc, ih]

variable {i : Nat}

theorem cell_of_field (h : Fits fields cells) {f : Field} (hf : fields[i]? = some f) :
    ∃ c, cells[i]? = some c ∧ c.length = f.ty.size := by
  induction h generalizing i with
  | nil => cases hf
  | @cons g c fs cs hc _ ih =>
    cases i with
    | zero =>
      cases hf
      exact ⟨c, rfl, hc⟩
    | succ i => exact ih hf

theorem keyCells_getElem? (h : Fits fields cells) (hk : IsKey fields i) :
    (keyCells fields cells)[keyIndex fields i]? = cells[i]? := by
  induction h generalizing i with
  | nil =>
    obtain ⟨f, hf, -⟩ := hk
    cases hf
  | @cons f c fs cs hc _ ih =>
    cases i with
    | zero =>
      rw [isKey_cons_zero] at hk
      simp only [keyCells, hk, if_true]
      rfl
    | succ i =>
      rw [keyIndex_cons_succ]
      cases hf : f.iskey with
      | false =>
        simp only [keyCells, hf, Bool.false_eq_true, if_false, Nat.zero_add]
        exact ih hk
      | true =>
        simp only [keyCells, hf, if_true]
        rw [Nat.add_comm 1]
        exact ih hk

theorem keyCells_set (h : Fits fields cells) (i : Nat) (v : Cell) :
    keyCells fields (cells.set i v) =
      if IsKey fields i then (keyCells fields cells).set (keyIndex fields i) v
      else keyCells fields cells := by
  induction h generalizing i with
  | nil => simp [keyCells]
  | @cons f c fs cs hc _ ih =>
    cases i with
    | zero =>
      cases hk : f.iskey with
      | false => simp [keyCells, hk, isKey_cons_zero]
      | true => simp [keyCells, hk, isKey_cons_zero, keyIndex]
    | succ i =>
      rw [List.set_cons_succ, keyIndex_cons_succ]
      simp only [isKey_cons_succ, keyCells, ih]
      cases hk : f.iskey with
      | false => simp
      | true =>
        simp only [if_true]
        split
        · rw [Nat.add_comm 1, List.set_cons_succ]
        · rfl

theorem Fits.set (h : Fits fields cells) {v : Cell}
    (hv : ∀ f, fields[i]? = some f → v.length = f.ty.size) : Fits fields (cells.set i v) := by
  induction h generalizing i with
  | nil => exact List.Forall₂.nil
  | @cons f c fs cs hc hrest ih =>
    cases i with
    | zero => exact List.Forall₂.cons (hv f rfl) hrest
    | succ i => exact List.Forall₂.cons hc (ih hv)

end Offsets

section Run

variable {dec : TableDec} {cells : List Cell} {sets : List (String × Cell)}

def setCells (fields : List Field) (sets : List (String × Cell)) : List (Nat × Cell) :=
  sets.map fun s => (column fields s.1, s.2)

def keySets (fields : List Field) (sets : List (String × Cell)) : List (Nat × Cell) :=
  (setCells fields sets).filter fun w => decide (IsKey fields w.1)

theorem keySets_cons (fields : List Field) (s : String × Cell) (sets : List (String × Cell)) :
    keySets fields (s :: sets) =
      (if IsKey fields (column fields s.1) then [(column fields s.1, s.2)] else []) ++
        keySets fields sets := by
  unfold keySets setCells
  rw [List.map_cons, List.filter_cons]
  by_cases hk : IsKey fields (column fields s.1)
  · rw [if_pos hk, if_pos (decide_eq_true hk)]
    rfl
  · rw [if_neg hk, if_neg (by simpa using hk)]
    rfl

theorem keySets_fst (fields : List Field) (sets : List (String × Cell)) :
    (keySets fields sets).map Prod.fst = keyTargets fields (sets.map Prod.fst) := by
  unfold keySets setCells keyTargets
  rw [List.map_map, List.filter_map, List.filter_map, List.map_map]
  rfl

theorem keySets_length (fields : List Field) (sets : List (String × Cell)) :
    (keySets fields sets).length = (keyTargets fields (sets.map Prod.fst)).length := by
  rw [← keySets_fst, List.length_map]

theorem assignAll_eq (hd : Declared dec.fields (sets.map Prod.fst)) (u : Update) :
    assignAll dec sets u = some
      { key := u.key.storeAll
          ((keySets dec.fields sets).map fun w => (dataOffset dec.fields w.1, w.2))
        data := u.data.storeAll
          ((setCells dec.fields sets).map fun w => (dataOffset dec.fields w.1, w.2))
        rtreeUpdate := u.rtreeUpdate ++ if dec.index = .rtree then
          (keySets dec.fields sets).map fun w => (dataOffset dec.fields w.1 + 8, w.2) else []
        keyUpdated := u.keyUpdated + (keySets dec.fields sets).length } := by
  induction sets generalizing u with
  | nil =>
    unfold assignAll
    split
    · simp [keySets, setCells, storeAll]
    · simp [keySets, setCells, storeAll]
  | cons s sets ih =>
    obtain ⟨target, v⟩ := s
    obtain ⟨f, hf, hsearch⟩ := searchFrom_eq (hd target (List.mem_cons_self ..)) 0 0 0
    have hrest : Declared dec.fields (sets.map Prod.fst) :=
      fun n hn => hd n (List.mem_cons_of_mem _ hn)
    have hkey : IsKey dec.fields (column dec.fields target) ↔ f.iskey = true := by
      constructor
      · rintro ⟨g, hg, hgk⟩
        rw [hf] at hg
        cases hg
        exact hgk
      · exact fun hk => ⟨f, hf, hk⟩
    unfold assignAll searchRecordField
    rw [hsearch]
    dsimp only
    rw [ih hrest, keySets_cons]
    unfold Update.assign
    cases hk : f.iskey with
    | false =>
      have hnot : ¬ IsKey dec.fields (column dec.fields target) := by rw [hkey, hk]; decide
      simp [setCells, storeAll_cons, hnot]
    | true =>
      have hyes := hkey.mpr hk
      have hint : dec.index = .rtree → f.ty = .int :=
        fun hr => dec.rtreeInt hr f (List.mem_of_getElem? hf) hk
      by_cases hr : dec.index = .rtree
      · simp [setCells, storeAll_cons, hyes, hr, hint hr]
        omega
      · simp [setCells, storeAll_cons, hyes, hr]
        omega

theorem mvTemp_insertTemp (key data : List Byte) : mvTemp (insertTemp key data) = (key, data) := by
  simp [mvTemp, insertTemp]

def keyStores (dec : TableDec) (sets : List (String × Cell)) : List (Nat × Cell) :=
  ((keySets dec.fields sets).map fun w => (dataOffset dec.fields w.1, w.2)) ++
    if dec.index = .rtree ∧ (keySets dec.fields sets).length = 2 then
      (keySets dec.fields sets).map fun w => (dataOffset dec.fields w.1 + 8, w.2)
    else []

theorem transUpdate_eq (hd : Declared dec.fields (sets.map Prod.fst)) (key data : Dbt) :
    transUpdate dec key data sets =
      some (load (key.data.storeAll (keyStores dec sets)) 0 key.size,
        load (data.data.storeAll
          ((setCells dec.fields sets).map fun w => (dataOffset dec.fields w.1, w.2))) 0
          data.size) := by
  unfold transUpdate
  rw [assignAll_eq hd]
  simp only [mvTemp_insertTemp, List.nil_append, Nat.zero_add]
  unfold keyStores
  by_cases hzero : (keySets dec.fields sets).length > 0
  · rw [if_pos hzero]
    by_cases hr : dec.index = .rtree ∧ (keySets dec.fields sets).length = 2
    · rw [if_pos hr, if_pos hr, if_pos hr.1, storeAll_append]
    · rw [if_neg hr, if_neg hr, List.append_nil]
  · rw [if_neg hzero, if_neg (by omega), List.append_nil]

theorem setCells_fits (hfit : Fits dec.fields cells)
    (hd : Declared dec.fields (sets.map Prod.fst)) (hs : FitsSets dec.fields sets) :
    FitsAll cells (setCells dec.fields sets) := by
  intro w hw
  obtain ⟨s, hmem, rfl⟩ := List.mem_map.mp hw
  obtain ⟨f, hf, -⟩ := searchFrom_eq (hd s.1 (List.mem_map_of_mem hmem)) 0 0 0
  obtain ⟨c, hc, hlen⟩ := cell_of_field hfit hf
  exact ⟨c, hc, (hs s hmem f hf).trans hlen.symm⟩

theorem assignCells_fits (hfit : Fits dec.fields cells) (hs : FitsSets dec.fields sets) :
    Fits dec.fields (assignCells dec.fields cells sets) := by
  induction sets generalizing cells with
  | nil => exact hfit
  | cons s sets ih =>
    exact ih (hfit.set (hs s (List.mem_cons_self ..)))
      fun t ht => hs t (List.mem_cons_of_mem _ ht)

theorem data_right (hfit : Fits dec.fields cells) (hd : Declared dec.fields (sets.map Prod.fst))
    (hs : FitsSets dec.fields sets) {data : Memory Byte}
    (h : load data 0 cells.flatten.length = cells.flatten) :
    load (data.storeAll ((setCells dec.fields sets).map fun w =>
        (dataOffset dec.fields w.1, w.2))) 0 cells.flatten.length =
      (assignCells dec.fields cells sets).flatten := by
  have hload := load_storeAll h (setCells_fits hfit hd hs)
  simp only [cellOff_data hfit] at hload
  exact hload

def keyWrites (fields : List Field) (sets : List (String × Cell)) : List (Nat × Cell) :=
  (keySets fields sets).map fun w => (keyIndex fields w.1, w.2)

theorem keyCells_assign (hfit : Fits dec.fields cells) (hs : FitsSets dec.fields sets) :
    keyCells dec.fields (assignCells dec.fields cells sets) =
      setAll (keyCells dec.fields cells) (keyWrites dec.fields sets) := by
  unfold assignCells keyWrites
  induction sets generalizing cells with
  | nil => rfl
  | cons s sets ih =>
    have hstep := hfit.set (hs s (List.mem_cons_self ..))
    rw [List.map_cons, setAll_cons, ih hstep fun t ht => hs t (List.mem_cons_of_mem _ ht),
      keyCells_set hfit, keySets_cons]
    split
    · rfl
    · rfl

theorem mem_keySets {w : Nat × Cell} (hs : FitsSets dec.fields sets)
    (hw : w ∈ keySets dec.fields sets) :
    IsKey dec.fields w.1 ∧ ∀ f, dec.fields[w.1]? = some f → w.2.length = f.ty.size := by
  unfold keySets setCells at hw
  rw [List.mem_filter] at hw
  obtain ⟨hmem, hk⟩ := hw
  obtain ⟨s, hsmem, rfl⟩ := List.mem_map.mp hmem
  exact ⟨of_decide_eq_true hk, hs s hsmem⟩

theorem keyWrites_fits (hfit : Fits dec.fields cells) (hs : FitsSets dec.fields sets) :
    FitsAll (keyCells dec.fields cells) (keyWrites dec.fields sets) := by
  intro w hw
  obtain ⟨u, hu, rfl⟩ := List.mem_map.mp hw
  obtain ⟨hk, hsize⟩ := mem_keySets hs hu
  have hcell := keyCells_getElem? hfit hk
  obtain ⟨f, hf, -⟩ := hk
  obtain ⟨c, hc, hlen⟩ := cell_of_field hfit hf
  rw [hc] at hcell
  exact ⟨c, hcell, (hsize f hf).trans hlen.symm⟩

theorem direct_stores (hfit : Fits dec.fields cells) (hs : FitsSets dec.fields sets)
    (hsame : ∀ w ∈ keySets dec.fields sets, SameOffset dec.fields w.1) (m : Memory Byte)
    (shift : Nat) :
    m.storeAll ((keySets dec.fields sets).map fun w => (dataOffset dec.fields w.1 + shift, w.2)) =
      m.storeAll ((keyWrites dec.fields sets).map fun w =>
        (cellOff (keyCells dec.fields cells) w.1 + shift, w.2)) := by
  unfold keyWrites
  rw [List.map_map]
  apply storeAll_map_congr
  intro w hw m
  obtain ⟨⟨f, hf, -⟩, hsize⟩ := mem_keySets hs hw
  simp only [Function.comp_apply, cellOff_key hfit]
  rcases hsame w hw with heq | hzero
  · rw [heq]
  · have hnil : w.2 = [] := by
      apply List.eq_nil_of_length_eq_zero
      rw [hsize f hf, hzero f hf]
    rw [hnil, store_nil, store_nil]

theorem rtree_cells (hr : dec.index = .rtree) (hfit : Fits dec.fields cells) :
    ∀ c ∈ keyCells dec.fields cells, c.length = longSize := by
  intro c hc
  obtain ⟨f, hf, hk, hlen⟩ := mem_keyCells hfit c hc
  rw [hlen, dec.rtreeInt hr f hf hk]
  rfl

theorem rtree_length (hr : dec.index = .rtree) (hfit : Fits dec.fields cells) :
    (keyCells dec.fields cells).flatten.length = longSize * dec.fields.countP (·.iskey) := by
  rw [flatten_length_of (rtree_cells hr hfit), keyCells_length hfit]

variable {m : Memory Byte}

theorem key_direct (hfit : Fits dec.fields cells) (hs : FitsSets dec.fields sets)
    (hsame : ∀ w ∈ keySets dec.fields sets, SameOffset dec.fields w.1) (ds : List Cell)
    (h : load m 0 (keyCells dec.fields cells ++ ds).flatten.length =
      (keyCells dec.fields cells ++ ds).flatten) :
    load (m.storeAll ((keySets dec.fields sets).map fun w =>
        (dataOffset dec.fields w.1, w.2))) 0 (keyCells dec.fields cells ++ ds).flatten.length =
      (keyCells dec.fields (assignCells dec.fields cells sets) ++ ds).flatten := by
  have hfits := keyWrites_fits hfit hs
  have hlt : ∀ w ∈ keyWrites dec.fields sets, w.1 < (keyCells dec.fields cells).length := by
    intro w hw
    obtain ⟨c, hc, -⟩ := hfits w hw
    exact (List.getElem?_eq_some_iff.mp hc).1
  have hall : FitsAll (keyCells dec.fields cells ++ ds) (keyWrites dec.fields sets) := by
    intro w hw
    obtain ⟨c, hc, hlen⟩ := hfits w hw
    exact ⟨c, by rw [List.getElem?_append_left (hlt w hw)]; exact hc, hlen⟩
  have hload := load_storeAll h hall
  rw [setAll_left hlt, ← keyCells_assign hfit hs] at hload
  have hstores := direct_stores hfit hs hsame m 0
  simp only [Nat.add_zero] at hstores
  have hoff : (keyWrites dec.fields sets).map (fun w =>
      (cellOff (keyCells dec.fields cells ++ ds) w.1, w.2)) =
      (keyWrites dec.fields sets).map fun w => (cellOff (keyCells dec.fields cells) w.1, w.2) := by
    apply List.map_congr_left
    intro w hw
    rw [cellOff_left (Nat.le_of_lt (hlt w hw))]
  rw [hoff, ← hstores] at hload
  exact hload

theorem key_point (hr : dec.index = .rtree) (h2 : dec.fields.countP (·.iskey) = 2)
    (hfit : Fits dec.fields cells) (hs : FitsSets dec.fields sets)
    (hsame : ∀ w ∈ keySets dec.fields sets, SameOffset dec.fields w.1)
    (h : load m 0 (keyCells dec.fields cells ++ keyCells dec.fields cells).flatten.length =
      (keyCells dec.fields cells ++ keyCells dec.fields cells).flatten) :
    load ((m.storeAll ((keySets dec.fields sets).map fun w => (dataOffset dec.fields w.1, w.2)))
        |>.storeAll ((keySets dec.fields sets).map fun w => (dataOffset dec.fields w.1 + 8, w.2))) 0
        (keyCells dec.fields cells ++ keyCells dec.fields cells).flatten.length =
      (keyCells dec.fields (assignCells dec.fields cells sets) ++
        keyCells dec.fields (assignCells dec.fields cells sets)).flatten := by
  have hfits := keyWrites_fits hfit hs
  have hafter := assignCells_fits hfit hs
  have hlen8 := rtree_length hr hfit
  have hlen8' := rtree_length hr hafter
  rw [h2] at hlen8 hlen8'
  have hfirst := key_direct hfit hs hsame _ h
  generalize m.storeAll _ = m1 at hfirst
  have hsame8 := direct_stores hfit hs hsame m1 8
  have hlengths : (keyCells dec.fields (assignCells dec.fields cells sets) ++
      keyCells dec.fields cells).flatten.length =
      (keyCells dec.fields cells ++ keyCells dec.fields cells).flatten.length := by
    rw [List.flatten_append, List.flatten_append, List.length_append, List.length_append, hlen8,
      hlen8']
  rw [← hlengths] at hfirst ⊢
  have hall : FitsAll (keyCells dec.fields (assignCells dec.fields cells sets) ++
      keyCells dec.fields cells) ((keyWrites dec.fields sets).map fun w =>
        ((keyCells dec.fields (assignCells dec.fields cells sets)).length + w.1, w.2)) := by
    intro w hw
    obtain ⟨u, hu, rfl⟩ := List.mem_map.mp hw
    obtain ⟨c, hc, hlen⟩ := hfits u hu
    refine ⟨c, ?_, hlen⟩
    rw [List.getElem?_append_right (Nat.le_add_right _ _), Nat.add_sub_cancel_left]
    exact hc
  have hload := load_storeAll hfirst hall
  rw [setAll_right, ← keyCells_assign hfit hs, List.map_map] at hload
  rw [hsame8, ← hload]
  congr 2
  apply List.map_congr_left
  intro w _
  simp only [Function.comp_apply, cellOff_right, hlen8']
  rw [Nat.add_comm]
  rfl

theorem storedKey_btree (hi : dec.index = .btree) (cells : List Cell) :
    storedKey dec cells = (keyCells dec.fields cells).flatten := by
  simp [storedKey, hi]

theorem storedKey_point (hi : dec.index = .rtree) (h2 : dec.fields.countP (·.iskey) = 2)
    (cells : List Cell) : storedKey dec cells =
      (keyCells dec.fields cells ++ keyCells dec.fields cells).flatten := by
  simp [storedKey, hi, h2]

theorem storedKey_rect (hi : dec.index = .rtree) (h4 : dec.fields.countP (·.iskey) = 4)
    (cells : List Cell) : storedKey dec cells = (keyCells dec.fields cells).flatten := by
  simp [storedKey, hi, h4]

theorem key_single (hfit : Fits dec.fields cells) (hs : FitsSets dec.fields sets)
    (hsame : ∀ w ∈ keySets dec.fields sets, SameOffset dec.fields w.1)
    (h : load m 0 (keyCells dec.fields cells).flatten.length = (keyCells dec.fields cells).flatten) :
    load (m.storeAll ((keySets dec.fields sets).map fun w =>
        (dataOffset dec.fields w.1, w.2))) 0 (keyCells dec.fields cells).flatten.length =
      (keyCells dec.fields (assignCells dec.fields cells sets)).flatten := by
  have hdirect := key_direct hfit hs hsame (m := m) []
  rw [List.append_nil, List.append_nil] at hdirect
  exact hdirect h

theorem key_right (hfit : Fits dec.fields cells) (hs : FitsSets dec.fields sets)
    (hin : InStep dec (sets.map Prod.fst))
    (h : load m 0 (storedKey dec cells).length = storedKey dec cells) :
    load (m.storeAll (keyStores dec sets)) 0 (storedKey dec cells).length =
      storedKey dec (assignCells dec.fields cells sets) := by
  have hcount := keySets_length dec.fields sets
  have hsame : ∀ w ∈ keySets dec.fields sets, SameOffset dec.fields w.1 := by
    intro w hw
    apply hin.same
    rw [← keySets_fst]
    exact List.mem_map_of_mem hw
  unfold keyStores
  cases hi : dec.index with
  | btree =>
    rw [storedKey_btree hi] at h ⊢
    rw [storedKey_btree hi, if_neg (by simp), List.append_nil]
    exact key_single hfit hs hsame h
  | rtree =>
    rcases dec.rtreeDim hi with h2 | h4
    · rw [storedKey_point hi h2] at h ⊢
      rw [storedKey_point hi h2]
      rcases hin.point hi h2 with hzero | htwo
      · have hnil : keySets dec.fields sets = [] := List.eq_nil_of_length_eq_zero (hcount.trans hzero)
        rw [keyCells_assign hfit hs]
        simp only [keyWrites, hnil, List.map_nil, List.length_nil]
        exact h
      · rw [if_pos ⟨rfl, hcount.trans htwo⟩, storeAll_append]
        exact key_point hi h2 hfit hs hsame h
    · rw [storedKey_rect hi h4] at h ⊢
      rw [storedKey_rect hi h4]
      by_cases htwo : (keySets dec.fields sets).length = 2
      · rw [if_pos ⟨rfl, htwo⟩, storeAll_append, ← key_single hfit hs hsame h]
        apply load_congr
        intro i _ hlt
        rw [rtree_length hi hfit] at hlt
        apply storeAll_outside
        intro w hw
        obtain ⟨u, hu, rfl⟩ := List.mem_map.mp hw
        -- the second store of a lower-right corner falls behind the key
        have hge : 8 ≤ keyOffset dec.fields u.1 := by
          apply hin.rect hi h4 (hcount ▸ htwo)
          rw [← keySets_fst]
          exact List.mem_map_of_mem hu
        have hle := keyOffset_le dec.fields u.1
        simp only [longSize] at hlt
        omega
      · rw [if_neg (fun hc => htwo hc.2), List.append_nil]
        exact key_single hfit hs hsame h

theorem updateRight_of {targets : List String} (hd : Declared dec.fields targets)
    (hin : InStep dec targets) : UpdateRight dec targets := by
  intro keydata datadata cells key data sets hfit hstored htargets hs
  subst htargets
  rw [transInsert2C_eq dec keydata datadata hfit] at hstored
  obtain ⟨hkey, hdata⟩ := Prod.mk.inj hstored
  have hksize : key.size = (storedKey dec cells).length := by
    rw [← hkey, Dbt.bytes, load_length]
  have hdsize : data.size = cells.flatten.length := by
    rw [← hdata, Dbt.bytes, load_length]
  unfold Dbt.bytes at hkey hdata
  rw [hksize] at hkey
  rw [hdsize] at hdata
  rw [transUpdate_eq hd, transInsert2C_eq dec keydata datadata (assignCells_fits hfit hs), hksize,
    hdsize, key_right hfit hs hin hkey, data_right hfit hd hs hdata]

end Run

section KeyPlaces

variable {fields : List Field}
variable {j : Nat}

theorem keyIndex_lt {i : Nat} (hi : IsKey fields i) (hlt : i < j) :
    keyIndex fields i < keyIndex fields j := by
  induction fields generalizing i j with
  | nil =>
    obtain ⟨f, hf, -⟩ := hi
    cases hf
  | cons f fs ih =>
    cases j with
    | zero => omega
    | succ j =>
      rw [keyIndex_cons_succ]
      cases i with
      | zero =>
        rw [isKey_cons_zero] at hi
        rw [if_pos hi]
        show 0 < _
        omega
      | succ i =>
        rw [keyIndex_cons_succ]
        have := ih hi (by omega : i < j)
        omega

theorem keyIndex_inj {i : Nat} (hi : IsKey fields i) (hj : IsKey fields j)
    (h : keyIndex fields i = keyIndex fields j) : i = j := by
  rcases Nat.lt_trichotomy i j with hlt | heq | hgt
  · have := keyIndex_lt hi hlt
    omega
  · exact heq
  · have := keyIndex_lt hj hgt
    omega

theorem exists_keyIndex (hj : j < fields.countP (·.iskey)) :
    ∃ i, IsKey fields i ∧ keyIndex fields i = j := by
  induction fields generalizing j with
  | nil => cases hj
  | cons f fs ih =>
    rw [List.countP_cons] at hj
    cases hk : f.iskey with
    | false =>
      rw [hk] at hj
      obtain ⟨i, hi, hidx⟩ := ih (by simpa using hj)
      refine ⟨i + 1, (isKey_cons_succ f fs i).mpr hi, ?_⟩
      rw [keyIndex_cons_succ, hk, hidx]
      simp
    | true =>
      cases j with
      | zero => exact ⟨0, (isKey_cons_zero f fs).mpr hk, rfl⟩
      | succ j =>
        rw [if_pos hk] at hj
        obtain ⟨i, hi, hidx⟩ := ih (by omega : j < fs.countP (·.iskey))
        refine ⟨i + 1, (isKey_cons_succ f fs i).mpr hi, ?_⟩
        rw [keyIndex_cons_succ, if_pos hk, hidx, Nat.add_comm]

theorem keyOffset_rtree (h : ∀ f ∈ fields, f.iskey = true → f.ty = .int) (i : Nat) :
    keyOffset fields i = 4 * keyIndex fields i := by
  induction fields generalizing i with
  | nil => simp [keyOffset, keyIndex]
  | cons f fs ih =>
    cases i with
    | zero => rfl
    | succ i =>
      have hrest := ih (fun g hg => h g (List.mem_cons_of_mem _ hg)) i
      rw [keyOffset_cons_succ, keyIndex_cons_succ, hrest]
      cases hk : f.iskey with
      | false => simp
      | true =>
        simp only [if_true, h f (List.mem_cons_self ..) hk, FieldTy.size]
        omega

end KeyPlaces

section Failing

variable {dec : TableDec} {targets : List String} {k : Nat}

def zeroCells (fields : List Field) : List Cell := fields.map fun f => List.replicate f.ty.size 0

def fieldSize (fields : List Field) (i : Nat) : Nat := ((fields[i]?).map (·.ty.size)).getD 0

def mark (fields : List Field) (k i : Nat) : Cell :=
  List.replicate (fieldSize fields i) (if i = k then 1 else 0)

def markSets (fields : List Field) (k : Nat) (targets : List String) : List (String × Cell) :=
  targets.map fun n => (n, mark fields k (column fields n))

theorem zeroCells_fits (fields : List Field) : Fits fields (zeroCells fields) := by
  induction fields with
  | nil => exact List.Forall₂.nil
  | cons f fs ih => exact List.Forall₂.cons (by simp) ih

theorem markSets_fst (fields : List Field) (k : Nat) (targets : List String) :
    (markSets fields k targets).map Prod.fst = targets := by
  unfold markSets
  rw [List.map_map]
  exact List.map_id _

theorem markSets_fits (fields : List Field) (k : Nat) (targets : List String) :
    FitsSets fields (markSets fields k targets) := by
  intro s hs f hf
  obtain ⟨n, -, rfl⟩ := List.mem_map.mp hs
  simp [mark, fieldSize, hf]

variable {fields : List Field}

theorem keySets_mark {w : Nat × Cell} (hw : w ∈ keySets fields (markSets fields k targets)) :
    w.2 = mark fields k w.1 := by
  unfold keySets setCells markSets at hw
  rw [List.mem_filter, List.map_map] at hw
  obtain ⟨n, -, rfl⟩ := List.mem_map.mp hw.1
  rfl

theorem assign_mark (hk : k ∈ targets.map (column fields)) {i : Nat} {f : Field}
    (hf : fields[i]? = some f) :
    (assignCells fields (zeroCells fields) (markSets fields k targets))[i]? =
      some (List.replicate f.ty.size (if i = k then 1 else 0)) := by
  have hzero : (zeroCells fields)[i]? = some (List.replicate f.ty.size 0) := by
    simp [zeroCells, hf]
  have hmarks : ∀ w ∈ (markSets fields k targets).map (fun s => (column fields s.1, s.2)),
      w.2 = mark fields k w.1 := by
    intro w hw
    unfold markSets at hw
    rw [List.map_map] at hw
    obtain ⟨n, -, rfl⟩ := List.mem_map.mp hw
    rfl
  have hfst : ((markSets fields k targets).map fun s => (column fields s.1, s.2)).map Prod.fst =
      targets.map (column fields) := by
    simp [markSets]
  have hmark : mark fields k i = List.replicate f.ty.size (if i = k then 1 else 0) := by
    simp [mark, fieldSize, hf]
  unfold assignCells
  rw [setAll_getElem? hmarks hzero, hfst, hmark]
  by_cases hi : i = k
  · subst hi
    rw [if_pos hk]
  · simp [hi, ite_self]

theorem storedKey_front (dec : TableDec) (cells : List Cell) :
    ∃ rest, storedKey dec cells = (keyCells dec.fields cells).flatten ++ rest := by
  cases hi : dec.index with
  | btree => exact ⟨[], by rw [storedKey_btree hi, List.append_nil]⟩
  | rtree =>
    rcases dec.rtreeDim hi with h2 | h4
    · exact ⟨_, by rw [storedKey_point hi h2, List.flatten_append]⟩
    · exact ⟨[], by rw [storedKey_rect hi h4, List.append_nil]⟩

theorem keyCells_byte {cells : List Cell} (hfit : Fits fields cells) {i : Nat} (hk : IsKey fields i)
    {cell : Cell} (hc : cells[i]? = some cell) (hpos : 0 < cell.length) :
    (keyCells fields cells).flatten[keyOffset fields i]? = cell[0]? := by
  have hcell := keyCells_getElem? hfit hk
  rw [hc] at hcell
  rw [← cellOff_key hfit i, ← flatten_getElem? hcell hpos]
  rfl

theorem zeroCells_zero (fields : List Field) :
    List.Forall₂ (fun _ c => ∀ b ∈ c, b = 0) fields (zeroCells fields) := by
  induction fields with
  | nil => exact List.Forall₂.nil
  | cons f fs ih => exact List.Forall₂.cons (fun b hb => List.eq_of_mem_replicate hb) ih

theorem zero_keyCells (fields : List Field) :
    ∀ b ∈ (keyCells fields (zeroCells fields)).flatten, b = 0 := by
  intro b hb
  obtain ⟨c, hc, hbc⟩ := List.mem_flatten.mp hb
  obtain ⟨f, -, -, hall⟩ := mem_keyCells (zeroCells_zero fields) c hc
  exact hall b hbc

theorem zero_storedKey (dec : TableDec) : ∀ b ∈ storedKey dec (zeroCells dec.fields), b = 0 := by
  have hkeys := zero_keyCells dec.fields
  intro b hb
  unfold storedKey at hb
  split at hb
  · exact hkeys b hb
  · split at hb
    · rw [List.flatten_append, List.mem_append, or_self] at hb
      exact hkeys b hb
    · exact hkeys b hb

theorem zero_data (fields : List Field) : ∀ b ∈ (zeroCells fields).flatten, b = 0 := by
  intro b hb
  obtain ⟨c, hc, hbc⟩ := List.mem_flatten.mp hb
  obtain ⟨f, -, rfl⟩ := List.mem_map.mp hc
  exact List.eq_of_mem_replicate hbc

theorem marked_run (hd : Declared dec.fields targets) (h : UpdateRight dec targets) (k : Nat)
    {p : Nat} {b : Byte}
    (hb : (storedKey dec (assignCells dec.fields (zeroCells dec.fields)
      (markSets dec.fields k targets)))[p]? = some b) :
    Memory.storeAll (fun _ => 0) (keyStores dec (markSets dec.fields k targets)) p = b := by
  have hfit := zeroCells_fits dec.fields
  have hs := markSets_fits dec.fields k targets
  have hfst := markSets_fst dec.fields k targets
  have hstored : ((⟨fun _ => 0, (storedKey dec (zeroCells dec.fields)).length⟩ : Dbt).bytes,
      (⟨fun _ => 0, (zeroCells dec.fields).flatten.length⟩ : Dbt).bytes) =
      transInsert2C dec (fun _ => 0) (fun _ => 0) (zeroCells dec.fields) := by
    rw [transInsert2C_eq dec _ _ hfit]
    unfold Dbt.bytes
    rw [load_const, load_const]
    congr 1
    · exact (List.eq_replicate_iff.mpr ⟨rfl, zero_storedKey dec⟩).symm
    · exact (List.eq_replicate_iff.mpr ⟨rfl, zero_data dec.fields⟩).symm
  have hrun := h _ _ _ _ _ _ hfit hstored hfst hs
  rw [transUpdate_eq (by rw [hfst]; exact hd), transInsert2C_eq dec _ _ (assignCells_fits hfit hs)]
    at hrun
  have hkey := (Prod.mk.inj (Option.some.inj hrun)).1
  have hp : p < (storedKey dec (zeroCells dec.fields)).length := by
    have hlt := (List.getElem?_eq_some_iff.mp hb).1
    rw [← hkey, load_length] at hlt
    exact hlt
  rw [← hkey, load_getElem? _ hp, Nat.zero_add] at hb
  exact Option.some.inj hb

theorem mem_keyTargets (hk : k ∈ keyTargets fields targets) :
    IsKey fields k ∧ k ∈ targets.map (column fields) := by
  unfold keyTargets at hk
  rw [List.mem_filter] at hk
  exact ⟨of_decide_eq_true hk.2, hk.1⟩

theorem marked_byte (hk : k ∈ keyTargets dec.fields targets) {f : Field}
    (hf : dec.fields[k]? = some f) (hpos : 0 < f.ty.size) :
    (keyCells dec.fields (assignCells dec.fields (zeroCells dec.fields)
      (markSets dec.fields k targets))).flatten[keyOffset dec.fields k]? = some 1 := by
  obtain ⟨hkey, hmem⟩ := mem_keyTargets hk
  have hfits := assignCells_fits (zeroCells_fits dec.fields) (markSets_fits dec.fields k targets)
  rw [keyCells_byte hfits hkey (assign_mark hmem hf) (by simpa using hpos), if_pos rfl]
  exact List.getElem?_replicate_of_lt hpos

theorem markSets_byte {w : Nat × Cell} (hw : w ∈ keySets fields (markSets fields k targets))
    {j : Nat} {b : Byte} (hb : w.2[j]? = some b) :
    j < fieldSize fields w.1 ∧ b = if w.1 = k then 1 else 0 := by
  rw [keySets_mark hw] at hb
  obtain ⟨hlt, heq⟩ := List.getElem?_eq_some_iff.mp hb
  rw [mark, List.length_replicate] at hlt
  refine ⟨hlt, ?_⟩
  rw [← heq]
  exact List.getElem_replicate _

theorem sameOffset_of (hd : Declared dec.fields targets) (h : UpdateRight dec targets)
    (hk : k ∈ keyTargets dec.fields targets) : SameOffset dec.fields k := by
  obtain ⟨⟨f, hf, hfk⟩, -⟩ := mem_keyTargets hk
  by_contra hne
  unfold SameOffset at hne
  push Not at hne
  obtain ⟨hoff, g, hg, hsize⟩ := hne
  rw [hf] at hg
  cases hg
  have hlt : keyOffset dec.fields k < dataOffset dec.fields k := by
    have := keyOffset_le dec.fields k
    omega
  obtain ⟨rest, hkeys⟩ := storedKey_front dec (assignCells dec.fields (zeroCells dec.fields)
    (markSets dec.fields k targets))
  have hone := marked_byte hk hf (Nat.pos_of_ne_zero hsize)
  have hrun := marked_run hd h k (by
    rw [hkeys, List.getElem?_append_left (List.getElem?_eq_some_iff.mp hone).1]
    exact hone)
  have hzero : Memory.storeAll (fun _ => (0 : Byte)) (keyStores dec (markSets dec.fields k targets))
      (keyOffset dec.fields k) = 0 := by
    apply storeAll_byte (fun b => b = 0) rfl
    intro w hw b hle hb
    rcases List.mem_append.mp hw with hw | hw
    · obtain ⟨u, hu, rfl⟩ := List.mem_map.mp hw
      have hval := (markSets_byte hu hb).2
      rw [hval, if_neg]
      intro huk
      rw [huk] at hle
      omega
    · split at hw
      · obtain ⟨u, hu, rfl⟩ := List.mem_map.mp hw
        have hval := (markSets_byte hu hb).2
        rw [hval, if_neg]
        intro huk
        rw [huk] at hle
        omega
      · cases hw
  rw [hrun] at hzero
  cases hzero

section Rtree

variable (hi : dec.index = .rtree)

include hi

theorem fieldSize_rtree {i : Nat} (hk : IsKey dec.fields i) : fieldSize dec.fields i = 4 := by
  obtain ⟨f, hf, hfk⟩ := hk
  simp [fieldSize, hf, dec.rtreeInt hi f (List.mem_of_getElem? hf) hfk, FieldTy.size]

theorem dataOffset_rtree (hk : IsKey dec.fields k) (h : SameOffset dec.fields k) :
    dataOffset dec.fields k = keyOffset dec.fields k := by
  rcases h with h | h
  · exact h
  · have h4 := fieldSize_rtree hi hk
    obtain ⟨f, hf, -⟩ := hk
    simp [fieldSize, hf, h f hf] at h4

theorem point_of (hd : Declared dec.fields targets) (h : UpdateRight dec targets)
    (h2 : dec.fields.countP (·.iskey) = 2) :
    (keyTargets dec.fields targets).length = 0 ∨ (keyTargets dec.fields targets).length = 2 := by
  by_contra hne
  push Not at hne
  obtain ⟨k, hk⟩ := List.exists_mem_of_length_pos (Nat.pos_of_ne_zero hne.1)
  obtain ⟨hkey, hmem⟩ := mem_keyTargets hk
  have hoff := dataOffset_rtree hi hkey (sameOffset_of hd h hk)
  obtain ⟨f, hf, hfk⟩ := hkey
  have hfits := assignCells_fits (zeroCells_fits dec.fields) (markSets_fits dec.fields k targets)
  have hsize : f.ty.size = 4 := by
    rw [dec.rtreeInt hi f (List.mem_of_getElem? hf) hfk]
    rfl
  have hrun := marked_run hd h k (p := 8 + keyOffset dec.fields k) (by
    have hlen := rtree_length hi hfits
    rw [h2] at hlen
    rw [storedKey_point hi h2, List.flatten_append, List.getElem?_append_right (by
      rw [hlen]
      exact Nat.le_add_right 8 _), hlen]
    show _[8 + keyOffset dec.fields k - 8]? = _
    rw [Nat.add_sub_cancel_left]
    exact marked_byte hk hf (by omega))
  have hzero : Memory.storeAll (fun _ => (0 : Byte)) (keyStores dec (markSets dec.fields k targets))
      (8 + keyOffset dec.fields k) = 0 := by
    apply storeAll_byte (fun b => b = 0) rfl
    intro w hw b hle hb
    have hcount := keySets_length dec.fields (markSets dec.fields k targets)
    rw [markSets_fst] at hcount
    unfold keyStores at hw
    rw [if_neg (fun hc => hne.2 (hcount ▸ hc.2)), List.append_nil] at hw
    obtain ⟨u, hu, rfl⟩ := List.mem_map.mp hw
    obtain ⟨hlt, hval⟩ := markSets_byte hu hb
    rw [hval, if_neg]
    intro huk
    rw [huk, fieldSize_rtree hi ⟨f, hf, hfk⟩] at hlt
    omega
  rw [hrun] at hzero
  cases hzero

/-- Two keys of a rectangle: the first corner is copied over the second. -/
theorem rect_of (hd : Declared dec.fields targets) (h : UpdateRight dec targets)
    (h4 : dec.fields.countP (·.iskey) = 4) (h2 : (keyTargets dec.fields targets).length = 2)
    (hk : k ∈ keyTargets dec.fields targets) : 8 ≤ keyOffset dec.fields k := by
  by_contra hlt
  obtain ⟨hkey, hmem⟩ := mem_keyTargets hk
  have hplace := keyOffset_rtree (dec.rtreeInt hi)
  have hfits := assignCells_fits (zeroCells_fits dec.fields) (markSets_fits dec.fields k targets)
  have hcount := keySets_length dec.fields (markSets dec.fields k targets)
  rw [markSets_fst] at hcount
  have hoff : ∀ u ∈ keySets dec.fields (markSets dec.fields k targets),
      dataOffset dec.fields u.1 = keyOffset dec.fields u.1 := by
    intro u hu
    have hut : u.1 ∈ keyTargets dec.fields targets := by
      rw [← markSets_fst dec.fields k targets, ← keySets_fst]
      exact List.mem_map_of_mem hu
    exact dataOffset_rtree hi (mem_keyTargets hut).1 (sameOffset_of hd h hut)
  -- the other corner is in column `i`, whose value is zero
  have hcorner : keyIndex dec.fields k + 2 < dec.fields.countP (·.iskey) := by
    have := hplace k
    omega
  obtain ⟨i, hikey, hidx⟩ := exists_keyIndex hcorner
  have hik : i ≠ k := by
    intro hc
    rw [hc] at hidx
    omega
  have hp : keyOffset dec.fields i = keyOffset dec.fields k + 8 := by
    rw [hplace, hplace]
    omega
  have hrun := marked_run hd h k (p := keyOffset dec.fields k + 8) (by
    obtain ⟨f, hf, hfk⟩ := id hikey
    have hsize : f.ty.size = 4 := by
      rw [dec.rtreeInt hi f (List.mem_of_getElem? hf) hfk]
      rfl
    rw [storedKey_rect hi h4, ← hp,
      keyCells_byte hfits hikey (assign_mark hmem hf) (by simp [hsize]), if_neg hik]
    exact List.getElem?_replicate_of_lt (by omega))
  have hone : Memory.storeAll (fun _ => (0 : Byte)) (keyStores dec (markSets dec.fields k targets))
      (keyOffset dec.fields k + 8) = 1 := by
    unfold keyStores
    rw [if_pos ⟨hi, hcount.trans h2⟩, storeAll_append]
    apply storeAll_reached (fun b => b = 1)
    · rw [← markSets_fst dec.fields k targets, ← keySets_fst] at hk
      obtain ⟨u, hu, huk⟩ := List.mem_map.mp hk
      refine ⟨_, List.mem_map_of_mem hu, ?_, ?_⟩
      · rw [hoff u hu, huk]
      · rw [hoff u hu, keySets_mark hu, huk, mark, List.length_replicate, fieldSize_rtree hi hkey]
        omega
    · intro w hw b hle hb
      obtain ⟨u, hu, rfl⟩ := List.mem_map.mp hw
      obtain ⟨hb4, hval⟩ := markSets_byte hu hb
      have hukey := (mem_keySets (markSets_fits dec.fields k targets) hu).1
      rw [fieldSize_rtree hi hukey] at hb4
      rw [hoff u hu, hplace, hplace] at hle hb4
      rw [hval, if_pos]
      exact keyIndex_inj hukey hkey (by omega)
  rw [hrun] at hone
  cases hone

end Rtree

/-- For every table and every list of assigned columns: UPDATE writes back the key and the data
that INSERT would write, for all tuples and values, exactly if the columns are in step. -/
theorem update_right_iff (dec : TableDec) (targets : List String)
    (hd : Declared dec.fields targets) : UpdateRight dec targets ↔ InStep dec targets := by
  constructor
  · intro h
    exact
      { same := fun _ hk => sameOffset_of hd h hk
        point := fun hi h2 => point_of hi hd h h2
        rect := fun hi h4 h2 _ hk => rect_of hi hd h h4 h2 hk }
  · exact updateRight_of hd

def idFirst : TableDec where
  fields := [⟨"id", .int, true⟩, ⟨"balance", .int, false⟩]
  index := .btree
  rtreeInt := nofun
  rtreeDim := nofun

theorem update_right_idFirst : UpdateRight idFirst ["id", "balance"] := by
  apply (update_right_iff idFirst ["id", "balance"] ?_).mpr
  · refine ⟨?_, nofun, nofun⟩
    intro i hi
    have hzero : i = 0 := by
      have hkeys : keyTargets idFirst.fields ["id", "balance"] = [0] := by decide
      rw [hkeys] at hi
      exact List.mem_singleton.mp hi
    subst hzero
    exact Or.inl rfl
  · intro n hn
    simp only [List.mem_cons, List.not_mem_nil, or_false] at hn
    rcases hn with rfl | rfl
    · exact ⟨⟨"id", .int, true⟩, by simp [idFirst], rfl⟩
    · exact ⟨⟨"balance", .int, false⟩, by simp [idFirst], rfl⟩

def idSecond : TableDec where
  fields := [⟨"balance", .int, false⟩, ⟨"id", .int, true⟩]
  index := .btree
  rtreeInt := nofun
  rtreeDim := nofun

/-- The key keeps the old value. -/
theorem idSecond_not_right : ¬ UpdateRight idSecond ["id"] := by
  intro h
  have hrun := h (fun _ => 0) (fun _ => 0) [[0, 0, 0, 0], [0, 0, 0, 0]] ⟨fun _ => 0, 4⟩
    ⟨fun _ => 0, 8⟩ [("id", [1, 0, 0, 0])] (by simp [idSecond, FieldTy.size]) (by decide) rfl
    (by
      intro s hs f hf
      obtain rfl := List.mem_singleton.mp hs
      cases hf
      rfl)
  revert hrun
  decide

end Failing

end StreamMill.Table
