import StreamMill.Table.Value

/-!
# StreamMill.Table.KeyCode

The key of a tuple as INSERT, LOAD and a lookup with an equality for every key column build it.
They agree on the order and the places of the columns, but INSERT and the lookup copy the bytes
behind the end of a string, and LOAD clears them; and a real zero has two patterns.

`key_agrees_iff`: the keys of two statements are equal exactly if the key columns have equal
values, if and only if the bytes behind equal strings and the signs of zeros are equal too.
-/

namespace StreamMill.Table

open Lib Lib.Memory
open ImDb (Byte)

/-- A table with a B-tree or an in-memory index. In-memory tables have an `oid` as last column. -/
structure KeyedTable where
  fields : List Field
  memory : Bool
  oid : memory = true → ∃ front, fields = front ++ [⟨"oid", .int, false⟩]

def KeyedTable.dec (t : KeyedTable) : TableDec where
  fields := t.fields
  index := .btree
  rtreeInt := nofun
  rtreeDim := nofun

def Tuple.cellsWith (g : (ty : FieldTy) → Value ty → Cell) : {fs : List Field} → Tuple fs →
    List Cell
  | _, .nil => []
  | _, @Tuple.cons f _ v t => g f.ty v :: t.cellsWith g

/-- `memset` to zero and then `memcpy`. -/
def clearStore (m : Memory Byte) (off n : Nat) (bs : List Byte) : Memory Byte :=
  (m.store off (List.replicate n 0)).store off bs

def loadStore (m : Memory Byte) (off : Nat) : (ty : FieldTy) → Value ty → Memory Byte
  | .string n, tok => clearStore m off n (cstr n tok)
  | .timestamp, v => clearStore m off (FieldTy.size .timestamp) (rawCell .timestamp v)
  | .int, v => m.store off (rawCell .int v)
  | .real, v => m.store off (rawCell .real v)

structure Load where
  key : Memory Byte
  data : Memory Byte
  keyoff : Nat
  dataoff : Nat

def Load.field (b : Load) (f : Field) (v : Value f.ty) : Load :=
  if f.iskey then
    { key := loadStore b.key b.keyoff f.ty v
      data := loadStore b.data b.dataoff f.ty v
      keyoff := b.keyoff + f.ty.size
      dataoff := b.dataoff + f.ty.size }
  else
    { b with data := loadStore b.data b.dataoff f.ty v, dataoff := b.dataoff + f.ty.size }

def Load.all : {fs : List Field} → Nat → Tuple fs → Load → Load
  | _, 0, _, b => b
  | _, _ + 1, .nil, b => b
  | _, len + 1, @Tuple.cons f _ v t, b => Load.all len t (b.field f v)

/-- `tuplesize[1]` -/
def keySize (fields : List Field) : Nat := ((fields.filter (·.iskey)).map (·.ty.size)).sum

/-- `tuplesize[0]` -/
def dataSize (fields : List Field) : Nat := (fields.map (·.ty.size)).sum

def transLoad2C (t : KeyedTable) (loadkeybuf loaddatabuf : Memory Byte) (row : Tuple t.fields) :
    List Byte × List Byte :=
  let len := if t.memory then t.fields.length - 1 else t.fields.length
  let b := Load.all len row ⟨loadkeybuf, loaddatabuf, 0, 0⟩
  (load b.key 0 (keySize t.fields), load b.data 0 (dataSize t.fields))

def boundStore (m : Memory Byte) (off : Nat) : (ty : FieldTy) → Value ty → Memory Byte
  | .string n, src => clearStore m off n (load src 0 n)
  | .timestamp, v => clearStore m off (FieldTy.size .timestamp) (rawCell .timestamp v)
  | .int, v => m.store off (rawCell .int v)
  | .real, v => m.store off (rawCell .real v)

def boundAll : {fs : List Field} → Tuple fs → Memory Byte → Nat → Memory Byte × Nat
  | _, .nil, m, offset => (m, offset)
  | _, @Tuple.cons f _ v t, m, offset =>
    if f.iskey then boundAll t (boundStore m offset f.ty v) (offset + f.ty.size)
    else boundAll t m offset

def transCursorGet2C (t : KeyedTable) (row : Tuple t.fields) : List Byte :=
  -- `memset(keydata, 0, sizeof(keydata))`
  let (key, offset) := boundAll row (fun _ => 0) 0
  load key 0 offset

inductive Stmt
  | insert
  | load
  | lookup
  deriving DecidableEq

/-- The key that a statement builds, with `buf` in the buffers before. -/
def keyBytes (s : Stmt) (t : KeyedTable) (buf : Memory Byte) (row : Tuple t.fields) : List Byte :=
  match s with
  | .insert => (transInsert2C t.dec buf buf (row.cellsWith rawCell)).1
  | .load => (transLoad2C t buf buf row).1
  | .lookup => transCursorGet2C t row

/-- `R` of every key column of two tuples. -/
def AllKeys (R : (ty : FieldTy) → Value ty → Value ty → Prop) : {fs : List Field} → Tuple fs →
    Tuple fs → Prop
  | _, .nil, .nil => True
  | _, @Tuple.cons f _ v t, .cons v' t' => (f.iskey = true → R f.ty v v') ∧ AllKeys R t t'

def SameKey {fs : List Field} (row row' : Tuple fs) : Prop := AllKeys SameValue row row'

/-- The bytes of a column in the key of a statement. -/
def copied (s : Stmt) (ty : FieldTy) (v : Value ty) : Cell :=
  match s, ty, v with
  | .load, .string n, tok => paddedStr n tok
  | _, ty, v => rawCell ty v

/-- The bytes from the terminating zero of a string on, and the signs of reals, are equal. -/
def TailAgrees (s s' : Stmt) : (ty : FieldTy) → Value ty → Value ty → Prop
  | .int, _, _ => True
  | .real, a, b => BitVec.msb a = BitVec.msb b
  | .string n, a, b =>
    (copied s (.string n) a).dropWhile (· ≠ 0) = (copied s' (.string n) b).dropWhile (· ≠ 0)
  | .timestamp, _, _ => True

section Walks

variable {fs : List Field}

theorem clearStore_eq (m : Memory Byte) (off n : Nat) (bs : List Byte) :
    clearStore m off n bs = m.store off (bs ++ (List.replicate n 0).drop bs.length) :=
  store_store m off _ bs

theorem clearStore_full (m : Memory Byte) (off : Nat) {n : Nat} {bs : List Byte}
    (h : bs.length = n) : clearStore m off n bs = m.store off bs := by
  rw [clearStore_eq, h, List.drop_of_length_le (by simp), List.append_nil]

theorem loadStore_eq (m : Memory Byte) (off : Nat) (ty : FieldTy) (v : Value ty) :
    loadStore m off ty v = m.store off (copied .load ty v) := by
  cases ty with
  | int => rfl
  | real => rfl
  | string n => exact clearStore_eq m off n (cstr n v)
  | timestamp => exact clearStore_full m off (rawCell_length .timestamp v)

theorem boundStore_eq (m : Memory Byte) (off : Nat) (ty : FieldTy) (v : Value ty) :
    boundStore m off ty v = m.store off (copied .lookup ty v) := by
  cases ty with
  | int => rfl
  | real => rfl
  | string n => exact clearStore_full m off (load_length _ _ _)
  | timestamp => exact clearStore_full m off (rawCell_length .timestamp v)

theorem copied_length (s : Stmt) (ty : FieldTy) (v : Value ty) :
    (copied s ty v).length = ty.size := by
  cases s with
  | insert => cases ty <;> exact rawCell_length _ v
  | lookup => cases ty <;> exact rawCell_length _ v
  | load =>
    cases ty with
    | int => exact rawCell_length _ v
    | real => exact rawCell_length _ v
    | string n => exact paddedStr_length n v
    | timestamp => exact rawCell_length _ v

theorem cellsWith_fits {g : (ty : FieldTy) → Value ty → Cell}
    (hg : ∀ ty v, (g ty v).length = ty.size) (row : Tuple fs) : Fits fs (row.cellsWith g) := by
  induction row with
  | nil => exact List.Forall₂.nil
  | cons v t ih => exact List.Forall₂.cons (hg _ v) ih

theorem keyCells_size {cells : List Cell} (h : Fits fs cells) :
    (keyCells fs cells).flatten.length = keySize fs := by
  induction h with
  | nil => rfl
  | @cons f c fs cs hc _ ih =>
    rw [keyCells_cons, List.flatten_append, List.length_append, ih]
    unfold keySize
    rw [List.filter_cons]
    split
    · simp [hc]
    · simp

theorem load_all (row : Tuple fs) (len : Nat) {b : Load} {kc : List Cell}
    (hkey : Holds b.key 0 kc) (hoff : b.keyoff = kc.flatten.length) :
    Holds (Load.all len row b).key 0
      (kc ++ keyCells (fs.take len) (row.cellsWith (copied .load))) := by
  induction row generalizing len b kc with
  | nil =>
    cases len with
    | zero => simpa [Load.all, keyCells] using hkey
    | succ len => simpa [Load.all, keyCells] using hkey
  | @cons f fs v t ih =>
    cases len with
    | zero => simpa [Load.all, keyCells] using hkey
    | succ len =>
      unfold Load.all Tuple.cellsWith
      rw [List.take_succ_cons, keyCells_cons, ← List.append_assoc]
      apply ih
      · unfold Load.field
        split
        · rw [loadStore_eq]
          exact holds_snoc hkey hoff _
        · simpa using hkey
      · unfold Load.field
        split
        · rw [flatten_snoc_length, copied_length, ← hoff]
        · simpa using hoff

theorem bound_all (row : Tuple fs) {m : Memory Byte} {off : Nat} {kc : List Cell}
    (hkey : Holds m 0 kc) (hoff : off = kc.flatten.length) :
    Holds (boundAll row m off).1 0 (kc ++ keyCells fs (row.cellsWith (copied .lookup))) ∧
      (boundAll row m off).2 =
        (kc ++ keyCells fs (row.cellsWith (copied .lookup))).flatten.length := by
  induction row generalizing m off kc with
  | nil =>
    rw [keyCells, List.append_nil]
    exact ⟨hkey, hoff⟩
    all_goals simp
  | @cons f fs v t ih =>
    unfold boundAll Tuple.cellsWith
    rw [keyCells_cons, ← List.append_assoc]
    split
    · apply ih
      · rw [boundStore_eq]
        exact holds_snoc hkey hoff _
      · rw [flatten_snoc_length, copied_length, ← hoff]
    · simpa using ih hkey hoff

theorem keyCells_snoc {f : Field} (hf : f.iskey = false) {cells : List Cell}
    (h : Fits (fs ++ [f]) cells) : keyCells (fs ++ [f]) cells = keyCells fs cells := by
  induction fs generalizing cells with
  | nil =>
    cases cells with
    | nil => rfl
    | cons c cs => simp [keyCells, hf]
  | cons g fs ih =>
    cases h with
    | cons _ hrest => simp [List.cons_append, keyCells, ih hrest]

theorem keyBytes_eq (s : Stmt) (t : KeyedTable) (buf : Memory Byte) (row : Tuple t.fields) :
    keyBytes s t buf row = (keyCells t.fields (row.cellsWith (copied s))).flatten := by
  have hfit := cellsWith_fits (copied_length s) row
  cases s with
  | insert =>
    have hraw : row.cellsWith (copied .insert) = row.cellsWith rawCell := by congr 1
    rw [hraw] at hfit ⊢
    unfold keyBytes
    rw [transInsert2C_eq t.dec buf buf hfit]
    rfl
  | load =>
    have hload : ∀ len, keyCells (t.fields.take len) (row.cellsWith (copied .load)) =
        keyCells t.fields (row.cellsWith (copied .load)) →
        load (Load.all len row ⟨buf, buf, 0, 0⟩).key 0 (keySize t.fields) =
          (keyCells t.fields (row.cellsWith (copied .load))).flatten := by
      intro len hlen
      have hstart : Holds (⟨buf, buf, 0, 0⟩ : Load).key 0 [] := trivial
      have hall := holds_iff.mp (load_all row len hstart rfl)
      rw [List.nil_append, hlen, keyCells_size hfit] at hall
      exact hall
    unfold keyBytes transLoad2C
    dsimp only
    split
    · apply hload
      obtain ⟨front, hfront⟩ := t.oid (by assumption)
      generalize row.cellsWith (copied .load) = cells at hfit ⊢
      rw [hfront] at hfit ⊢
      rw [keyCells_snoc rfl hfit]
      simp
    · exact hload _ (by rw [List.take_length])
  | lookup =>
    have hstart : Holds (fun _ => (0 : Byte)) 0 [] := trivial
    obtain ⟨hall, hoff⟩ := bound_all row hstart (rfl : 0 = _)
    unfold keyBytes transCursorGet2C
    dsimp only
    rw [hoff]
    exact holds_iff.mp hall

end Walks

section Agreement

variable {fs : List Field}

theorem allKeys_and {R S : (ty : FieldTy) → Value ty → Value ty → Prop} (row row' : Tuple fs) :
    AllKeys (fun ty v v' => R ty v v' ∧ S ty v v') row row' ↔
      AllKeys R row row' ∧ AllKeys S row row' := by
  induction row with
  | nil => cases row' with
    | nil => simp [AllKeys]
  | cons v t ih => cases row' with
    | cons v' t' =>
      simp only [AllKeys, ih]
      tauto

theorem allKeys_congr {R S : (ty : FieldTy) → Value ty → Value ty → Prop}
    (h : ∀ ty v v', R ty v v' ↔ S ty v v') (row row' : Tuple fs) :
    AllKeys R row row' ↔ AllKeys S row row' := by
  have heq : R = S := by
    funext ty v v'
    exact propext (h ty v v')
  rw [heq]

theorem keyCells_eq_iff {g g' : (ty : FieldTy) → Value ty → Cell}
    (hg : ∀ ty v, (g ty v).length = ty.size) (hg' : ∀ ty v, (g' ty v).length = ty.size)
    (row row' : Tuple fs) :
    (keyCells fs (row.cellsWith g)).flatten = (keyCells fs (row'.cellsWith g')).flatten ↔
      AllKeys (fun ty v v' => g ty v = g' ty v') row row' := by
  induction row with
  | nil => cases row' with
    | nil => simp [AllKeys, keyCells]
  | @cons f fs v t ih => cases row' with
    | cons v' t' =>
      simp only [Tuple.cellsWith, keyCells, AllKeys]
      cases hk : f.iskey with
      | false => simpa using ih t'
      | true =>
        simp only [if_true, List.flatten_cons, forall_const]
        constructor
        · intro h
          obtain ⟨hv, ht⟩ := List.append_inj h ((hg _ v).trans (hg' _ v').symm)
          exact ⟨hv, (ih t').mp ht⟩
        · rintro ⟨hv, ht⟩
          rw [hv, (ih t').mpr ht]

theorem copied_takeWhile (s : Stmt) (n : Nat) (src : Memory Byte) :
    (copied s (.string n) src).takeWhile (· ≠ 0) = cstr n src := by
  cases s with
  | insert => rfl
  | load => exact takeWhile_paddedStr n src
  | lookup => rfl

theorem sameReal_iff {a b : BitVec 64} : a = b ↔ SameReal a b ∧ a.msb = b.msb := by
  constructor
  · rintro rfl
    exact ⟨Or.inl rfl, rfl⟩
  · rintro ⟨heq | ⟨ha, hb⟩, hsign⟩
    · exact heq
    · apply BitVec.eq_of_toNat_eq
      rw [BitVec.msb_eq_decide, BitVec.msb_eq_decide, decide_eq_decide] at hsign
      omega

theorem split_iff (p : Byte → Bool) (l l' : List Byte) :
    l = l' ↔ l.takeWhile p = l'.takeWhile p ∧ l.dropWhile p = l'.dropWhile p := by
  constructor
  · rintro rfl
    exact ⟨rfl, rfl⟩
  · rintro ⟨htake, hdrop⟩
    rw [← List.takeWhile_append_dropWhile (l := l), htake, hdrop,
      List.takeWhile_append_dropWhile]

theorem copied_eq_iff (s s' : Stmt) (ty : FieldTy) (v v' : Value ty) :
    copied s ty v = copied s' ty v' ↔ SameValue ty v v' ∧ TailAgrees s s' ty v v' := by
  cases ty with
  | int =>
    have hraw : copied s .int v = leBytes 4 (BitVec.toNat v) := by cases s <;> rfl
    have hraw' : copied s' .int v' = leBytes 4 (BitVec.toNat v') := by cases s' <;> rfl
    rw [hraw, hraw']
    constructor
    · intro h
      exact ⟨leBytes_toNat_inj rfl h, trivial⟩
    · rintro ⟨h, -⟩
      rw [show v = v' from h]
  | real =>
    have hraw : copied s .real v = leBytes 8 (BitVec.toNat v) := by cases s <;> rfl
    have hraw' : copied s' .real v' = leBytes 8 (BitVec.toNat v') := by cases s' <;> rfl
    rw [hraw, hraw']
    constructor
    · intro h
      exact sameReal_iff.mp (leBytes_toNat_inj rfl h)
    · intro h
      rw [show v = v' from sameReal_iff.mpr h]
  | timestamp =>
    have hraw : copied s .timestamp v = rawCell .timestamp v := by cases s <;> rfl
    have hraw' : copied s' .timestamp v' = rawCell .timestamp v' := by cases s' <;> rfl
    rw [hraw, hraw']
    constructor
    · intro h
      obtain ⟨hsec, husec⟩ := List.append_inj h (by rw [leBytes_length, leBytes_length])
      have heq : v = v' := Prod.ext (leBytes_toNat_inj rfl hsec)
        (leBytes_toNat_inj rfl husec)
      exact ⟨heq, trivial⟩
    · rintro ⟨h, -⟩
      rw [show v = v' from h]
  | string n =>
    have hv := copied_takeWhile s n v
    have hv' := copied_takeWhile s' n v'
    rw [split_iff (· ≠ 0)]
    constructor
    · rintro ⟨htake, hdrop⟩
      exact ⟨hv.symm.trans (htake.trans hv'), hdrop⟩
    · rintro ⟨hval, htail⟩
      exact ⟨hv.trans (hval.trans hv'.symm), htail⟩

/-- For every table, all statements and all tuples: equal keys mean equal values of the key
columns, exactly if equal values come with equal bytes behind the strings and equal signs. -/
theorem key_agrees_iff (t : KeyedTable) (s s' : Stmt) (buf buf' : Memory Byte)
    (row row' : Tuple t.fields) :
    (keyBytes s t buf row = keyBytes s' t buf' row' ↔ SameKey row row') ↔
      (SameKey row row' → AllKeys (TailAgrees s s') row row') := by
  have hkeys : keyBytes s t buf row = keyBytes s' t buf' row' ↔
      SameKey row row' ∧ AllKeys (TailAgrees s s') row row' := by
    rw [keyBytes_eq, keyBytes_eq, keyCells_eq_iff (copied_length s) (copied_length s'),
      allKeys_congr (copied_eq_iff s s'), allKeys_and]
    rfl
  rw [hkeys]
  tauto

def names : KeyedTable where
  fields := [⟨"name", .string 3, true⟩]
  memory := false
  oid := nofun

/-- `"a"` in a buffer that held a longer string before. -/
def staleName : Memory Byte := fun i => [0x61, 0, 0x78].getD i 0

/-- INSERT and LOAD store one name under two keys. -/
theorem names_not_agree :
    ¬ (keyBytes .insert names (fun _ => 0) (.cons staleName .nil) =
        keyBytes .load names (fun _ => 0) (.cons staleName .nil) ↔
      @SameKey names.fields (.cons staleName .nil) (.cons staleName .nil)) := by
  intro h
  have hsame : @SameKey names.fields (.cons staleName .nil) (.cons staleName .nil) :=
    ⟨fun _ => rfl, trivial⟩
  have hkeys := h.mpr hsame
  revert hkeys
  decide

end Agreement

end StreamMill.Table
