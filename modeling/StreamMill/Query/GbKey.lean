import StreamMill.Absyn.Equal
import StreamMill.Table.KeyCode

/-!
# StreamMill.Query.GbKey

The key of a group (`transGenGBKey`). The generator gives every group-by column a range of the key
buffer and emits a `memcpy` into it and, for a column of the head, one back. The offsets are kept
in an array of 16; a `char(n)` is copied whole. The group-by list has plain variables.

`gbKey_iff`: the code is right for exactly the lists of up to 16 columns without a `char(n)` of
two or more bytes, and for two tuples exactly if equal strings have equal bytes behind them.
-/

namespace StreamMill.Query
namespace GbKey

open Lib Lib.Memory
open ImDb (Byte)
open Sql (Var)
open Absyn (PlainVar equalVar equalVar_sound equalVar_refl)
open Table (FieldTy Value rawCell rawCell_length SameValue TailAgrees copied copied_eq_iff cstr
  holds_snoc)

inductive HeadItem
  | column (v : Var)
  | call

structure GbNode where
  /-- The type that `transExp` finds for a variable. -/
  ty : Var → FieldTy
  heads : List HeadItem
  columns : List Var
  plain : ∀ v ∈ columns, PlainVar v
  distinct : ∀ (i j : Nat) v, heads[i]? = some (.column v) → heads[j]? = some (.column v) → i = j

/-- `memcpy(gbkey+offset, exp, size)` -/
structure Encode where
  offset : Nat
  exp : Var
  size : Nat
  deriving DecidableEq

/-- `memcpy(name.field, allkey+offset, size)` -/
structure Decode where
  field : Nat
  offset : Nat
  size : Nat
  deriving DecidableEq

inductive Rc
  | none
  | datatype
  deriving DecidableEq

structure GbKeyCode where
  encodebuf : List Encode
  decodebuf : List Decode
  keysize : Nat
  rc : Rc
  deriving DecidableEq

/-- `offset` and `grps` -/
def maxColumns : Nat := 16

def maxStrLen : Nat := 40960

def isHeadOf (gb : Var) : HeadItem → Bool
  | .column v => equalVar v gb
  | .call => false

def findHead (heads : List HeadItem) (gb : Var) : Option Nat := heads.findIdx? (isHeadOf gb)

def GbKeyCode.column (c : GbKeyCode) (heads : List HeadItem) (gb : Var) (ty : FieldTy) :
    GbKeyCode :=
  let offset := c.keysize
  let copy (size : Nat) : GbKeyCode :=
    { encodebuf := c.encodebuf ++ [⟨offset, gb, size⟩]
      decodebuf := c.decodebuf ++ ((findHead heads gb).map fun j => ⟨j, offset, size⟩).toList
      keysize := c.keysize + size
      rc := .none }
  match ty with
  | .int => copy 4
  | .string n => copy n
  | .timestamp => copy 8
  | .real => { c with rc := .datatype }

/-- The columns from `i` on; `none` when the generator writes behind its arrays. -/
def GbKeyCode.columnsFrom (ty : Var → FieldTy) (heads : List HeadItem) :
    List Var → Nat → GbKeyCode → Option GbKeyCode
  | [], _, c => some c
  | gb :: gbs, i, c =>
    if i < maxColumns then columnsFrom ty heads gbs (i + 1) (c.column heads gb (ty gb)) else none

def transGenGBKey (node : GbNode) : Option GbKeyCode :=
  GbKeyCode.columnsFrom node.ty node.heads node.columns 0 ⟨[], [], 0, .none⟩

abbrev Row (ty : Var → FieldTy) := (v : Var) → Value (ty v)

def Row.raw {ty : Var → FieldTy} (row : Row ty) (v : Var) : List Byte := rawCell (ty v) (row v)

/-- `encodebuf` runs; `none` when it writes behind the key buffer. -/
def runEncode {ty : Var → FieldTy} (row : Row ty) :
    List Encode → Memory Byte → Option (Memory Byte)
  | [], m => some m
  | e :: es, m =>
    if e.offset + e.size ≤ maxStrLen then
      runEncode row es (m.store e.offset ((row.raw e.exp).take e.size))
    else none

/-- The key of a tuple, with `buf` in the key buffer before. -/
def GbKeyCode.key (c : GbKeyCode) {ty : Var → FieldTy} (row : Row ty) (buf : Memory Byte) :
    Option (List Byte) :=
  (runEncode row c.encodebuf buf).map fun m => load m 0 c.keysize

/-- `decodebuf` runs over the columns of the head. -/
def runDecode (allkey : List Byte) : List Decode → (Nat → Memory Byte) → Nat → Memory Byte
  | [], heads => heads
  | d :: ds, heads =>
    runDecode allkey ds (Function.update heads d.field
      ((heads d.field).store 0 ((allkey.drop d.offset).take d.size)))

section Spec

variable (node : GbNode)

def SameGroup (row row' : Row node.ty) : Prop :=
  ∀ v ∈ node.columns, SameValue (node.ty v) (row v) (row' v)

/-- Equal group-by values have equal bytes behind the strings. -/
def SameTails (row row' : Row node.ty) : Prop :=
  ∀ v ∈ node.columns, TailAgrees .insert .insert (node.ty v) (row v) (row' v)

def Separates (c : GbKeyCode) (row row' : Row node.ty) : Prop :=
  ∀ buf buf', ∃ k k', c.key row buf = some k ∧ c.key row' buf' = some k' ∧
    (k = k' ↔ SameGroup node row row')

structure Layout (c : GbKeyCode) : Prop where
  columns : c.encodebuf.map Encode.exp = node.columns
  disjoint : c.encodebuf.Pairwise fun e e' => e.offset + e.size ≤ e'.offset
  cover : ∀ i, i < c.keysize ↔ ∃ e ∈ c.encodebuf, e.offset ≤ i ∧ i < e.offset + e.size

def Restores (c : GbKeyCode) : Prop :=
  ∀ (row : Row node.ty) buf, ∃ k, c.key row buf = some k ∧
    ∀ heads (j : Nat) v, node.heads[j]? = some (.column v) → v ∈ node.columns →
      load (runDecode k c.decodebuf heads j) 0 (node.ty v).size = row.raw v

/-- The generator stays inside its arrays and emits a codec. -/
def Right : Prop :=
  ∃ c, transGenGBKey node = some c ∧ c.rc = .none ∧ Layout node c ∧ Restores node c ∧
    ∀ row row', Separates node c row row'

def total (ty : Var → FieldTy) (vs : List Var) : Nat := (vs.map fun v => (ty v).size).sum

/-- The arrays of the generator and the key buffer suffice. -/
def Fits : Prop := node.columns.length ≤ maxColumns ∧ total node.ty node.columns ≤ maxStrLen

end Spec

section Generator

variable {ty : Var → FieldTy} {heads : List HeadItem}

def ranges (ty : Var → FieldTy) : Nat → List Var → List Encode
  | _, [] => []
  | off, v :: vs => ⟨off, v, (ty v).size⟩ :: ranges ty (off + (ty v).size) vs

/-- The `memcpy` back from a range. -/
def backOf (heads : List HeadItem) (e : Encode) : Option Decode :=
  (findHead heads e.exp).map fun j => ⟨j, e.offset, e.size⟩

theorem column_eq (c : GbKeyCode) (gb : Var) {t : FieldTy} (ht : t ≠ .real) :
    c.column heads gb t =
      { encodebuf := c.encodebuf ++ [⟨c.keysize, gb, t.size⟩]
        decodebuf := c.decodebuf ++ (backOf heads ⟨c.keysize, gb, t.size⟩).toList
        keysize := c.keysize + t.size
        rc := .none } := by
  cases t with
  | int | string n | timestamp => rfl
  | real => exact absurd rfl ht

theorem columnsFrom_eq {vs : List Var} (hreal : ∀ v ∈ vs, ty v ≠ .real) {i : Nat}
    (hi : i ≤ maxColumns) {c : GbKeyCode} (hrc : c.rc = .none) :
    GbKeyCode.columnsFrom ty heads vs i c =
      if i + vs.length ≤ maxColumns then
        some { encodebuf := c.encodebuf ++ ranges ty c.keysize vs
               decodebuf := c.decodebuf ++ (ranges ty c.keysize vs).filterMap (backOf heads)
               keysize := c.keysize + total ty vs
               rc := .none }
      else none := by
  induction vs generalizing i c with
  | nil =>
    rw [if_pos (by simpa using hi)]
    obtain ⟨encodebuf, decodebuf, keysize, rc⟩ := c
    obtain rfl : rc = .none := hrc
    simp [GbKeyCode.columnsFrom, ranges, total]
  | cons v vs ih =>
    have hrest : ∀ w ∈ vs, ty w ≠ .real := fun w hw => hreal w (List.mem_cons_of_mem _ hw)
    unfold GbKeyCode.columnsFrom
    by_cases hlt : i < maxColumns
    · rw [if_pos hlt, column_eq c v (hreal v List.mem_cons_self), ih hrest hlt rfl]
      have hlen : i + 1 + vs.length = i + (v :: vs).length := by
        rw [List.length_cons]
        omega
      congr 2
      rw [GbKeyCode.mk.injEq]
      refine ⟨?_, ?_, ?_, rfl⟩
      · simp [ranges]
      · cases hback : backOf heads ⟨c.keysize, v, (ty v).size⟩ with
        | none => simp [ranges, hback]
        | some d => simp [ranges, hback]
      · simp [total, Nat.add_assoc]
    · rw [if_neg hlt, if_neg]
      rw [List.length_cons]
      omega

def codeOf (node : GbNode) : GbKeyCode where
  encodebuf := ranges node.ty 0 node.columns
  decodebuf := (ranges node.ty 0 node.columns).filterMap (backOf node.heads)
  keysize := total node.ty node.columns
  rc := .none

theorem transGenGBKey_eq {node : GbNode} (hreal : ∀ v ∈ node.columns, node.ty v ≠ .real) :
    transGenGBKey node =
      if node.columns.length ≤ maxColumns then some (codeOf node) else none := by
  unfold transGenGBKey
  rw [columnsFrom_eq hreal (Nat.zero_le _) rfl]
  simp [codeOf]

end Generator

section Ranges

variable {ty : Var → FieldTy} {off : Nat} {vs : List Var} {e : Encode}

theorem ranges_map_exp (ty : Var → FieldTy) (off : Nat) (vs : List Var) :
    (ranges ty off vs).map Encode.exp = vs := by
  induction vs generalizing off with
  | nil => rfl
  | cons v vs ih => simp [ranges, ih]

theorem ranges_ge (he : e ∈ ranges ty off vs) : off ≤ e.offset := by
  induction vs generalizing off with
  | nil => cases he
  | cons v vs ih =>
    rcases List.mem_cons.mp he with rfl | he
    · exact Nat.le_refl _
    · have := ih he
      omega

theorem ranges_disjoint :
    (ranges ty off vs).Pairwise fun e e' => e.offset + e.size ≤ e'.offset := by
  induction vs generalizing off with
  | nil => exact List.Pairwise.nil
  | cons v vs ih =>
    apply List.Pairwise.cons _ ih
    intro e he
    exact ranges_ge he

theorem total_cons (v : Var) : total ty (v :: vs) = (ty v).size + total ty vs := by
  simp [total]

theorem ranges_cover (i : Nat) : off ≤ i ∧ i < off + total ty vs ↔
    ∃ e ∈ ranges ty off vs, e.offset ≤ i ∧ i < e.offset + e.size := by
  induction vs generalizing off with
  | nil => simp [ranges, total]
  | cons v vs ih =>
    have hrest : off + (ty v).size ≤ i ∧ i < off + (ty v).size + total ty vs ↔ _ := ih
    simp only [ranges, List.exists_mem_cons_iff, ← hrest, total_cons]
    omega

theorem ranges_slice (row : Row ty) (he : e ∈ ranges ty off vs) :
    ((((vs.map row.raw).flatten).drop (e.offset - off)).take e.size) = row.raw e.exp ∧
      e.size = (ty e.exp).size := by
  induction vs generalizing off with
  | nil => cases he
  | cons v vs ih =>
    have hlen : (row.raw v).length = (ty v).size := rawCell_length _ _
    rcases List.mem_cons.mp he with rfl | he
    · refine ⟨?_, rfl⟩
      simp only [List.map_cons, List.flatten_cons, Nat.sub_self, List.drop_zero]
      exact List.take_left' hlen
    · have hge := ranges_ge he
      obtain ⟨hslice, hsize⟩ := ih he
      refine ⟨?_, hsize⟩
      rw [List.map_cons, List.flatten_cons,
        show e.offset - off = (row.raw v).length + (e.offset - (off + (ty v).size)) by omega,
        ← List.drop_drop, List.drop_left]
      exact hslice

end Ranges

section Keys

variable {ty : Var → FieldTy} {vs : List Var}

def Row.cells (row : Row ty) (vs : List Var) : List (List Byte) := vs.map row.raw

theorem cells_size (row : Row ty) : (row.cells vs).flatten.length = total ty vs := by
  induction vs with
  | nil => rfl
  | cons v vs ih =>
    have hlen : (row.raw v).length = (ty v).size := rawCell_length _ _
    rw [total_cons, ← ih, ← hlen]
    simp [Row.cells]

theorem runEncode_some (row : Row ty) {off : Nat} (hmax : off + total ty vs ≤ maxStrLen)
    {m : Memory Byte} {cs : List (List Byte)} (hm : Holds m 0 cs)
    (hoff : off = cs.flatten.length) :
    ∃ m', runEncode row (ranges ty off vs) m = some m' ∧ Holds m' 0 (cs ++ row.cells vs) := by
  induction vs generalizing off m cs with
  | nil => exact ⟨m, rfl, by simpa [Row.cells] using hm⟩
  | cons v vs ih =>
    have hlen : (row.raw v).length = (ty v).size := rawCell_length _ _
    rw [total_cons] at hmax
    have hfit : off + (ty v).size + total ty vs ≤ maxStrLen := by omega
    obtain ⟨m', hrun, hm'⟩ := ih hfit
      (holds_snoc hm hoff (row.raw v)) (by rw [hoff, ← hlen]; simp)
    refine ⟨m', ?_, by simpa [Row.cells] using hm'⟩
    simp only [ranges, runEncode]
    rw [if_pos (by omega), ← hlen, List.take_length]
    rw [← hlen] at hrun
    exact hrun

theorem runEncode_none (row : Row ty) {off : Nat} (hoff : off ≤ maxStrLen)
    (hmax : maxStrLen < off + total ty vs) (m : Memory Byte) :
    runEncode row (ranges ty off vs) m = none := by
  induction vs generalizing off m with
  | nil =>
    simp only [total, List.map_nil, List.sum_nil] at hmax
    omega
  | cons v vs ih =>
    rw [total_cons] at hmax
    simp only [ranges, runEncode]
    split
    · rename_i hfit
      exact ih hfit (by omega) _
    · rfl

theorem key_eq {node : GbNode} (row : Row node.ty) (buf : Memory Byte) :
    (codeOf node).key row buf =
      if total node.ty node.columns ≤ maxStrLen then some (row.cells node.columns).flatten
      else none := by
  unfold GbKeyCode.key codeOf
  split
  · have hstart : Holds buf 0 [] := trivial
    have hmax : 0 + total node.ty node.columns ≤ maxStrLen := by omega
    obtain ⟨m, hrun, hm⟩ := runEncode_some row hmax hstart rfl
    have hload := holds_iff.mp hm
    rw [List.nil_append, cells_size] at hload
    rw [hrun, ← hload]
    rfl
  · rw [runEncode_none row (Nat.zero_le _) (by omega)]
    rfl

theorem cells_eq_iff (row row' : Row ty) :
    (row.cells vs).flatten = (row'.cells vs).flatten ↔ ∀ v ∈ vs, row.raw v = row'.raw v := by
  induction vs with
  | nil => simp [Row.cells]
  | cons v vs ih =>
    have hlen : (row.raw v).length = (row'.raw v).length :=
      (rawCell_length _ _).trans (rawCell_length _ _).symm
    rw [List.forall_mem_cons, ← ih]
    constructor
    · exact fun h => List.append_inj h hlen
    · rintro ⟨hv, hvs⟩
      show row.raw v ++ (row.cells vs).flatten = row'.raw v ++ (row'.cells vs).flatten
      rw [hv, hvs]

theorem raw_eq_iff (row row' : Row ty) (v : Var) : row.raw v = row'.raw v ↔
    SameValue (ty v) (row v) (row' v) ∧ TailAgrees .insert .insert (ty v) (row v) (row' v) := by
  have hcopied : ∀ t u, rawCell t u = copied .insert t u := by
    intro t u
    cases t <;> rfl
  unfold Row.raw
  rw [hcopied, hcopied, copied_eq_iff]

theorem keys_eq_iff {node : GbNode} (row row' : Row node.ty) :
    (row.cells node.columns).flatten = (row'.cells node.columns).flatten ↔
      SameGroup node row row' ∧ SameTails node row row' := by
  rw [cells_eq_iff]
  constructor
  · intro h
    exact ⟨fun v hv => ((raw_eq_iff row row' v).mp (h v hv)).1,
      fun v hv => ((raw_eq_iff row row' v).mp (h v hv)).2⟩
  · rintro ⟨hsame, htails⟩ v hv
    exact (raw_eq_iff row row' v).mpr ⟨hsame v hv, htails v hv⟩

end Keys

section Decoder

variable {allkey : List Byte}

theorem runDecode_load {ds : List Decode} {heads : Nat → Memory Byte} {j : Nat} {w : List Byte}
    (hds : ∀ d ∈ ds, d.field = j → (allkey.drop d.offset).take d.size = w)
    (hw : load (heads j) 0 w.length = w ∨ ∃ d ∈ ds, d.field = j) :
    load (runDecode allkey ds heads j) 0 w.length = w := by
  induction ds generalizing heads with
  | nil =>
    rcases hw with hw | ⟨d, hd, _⟩
    · exact hw
    · cases hd
  | cons d ds ih =>
    apply ih fun e he => hds e (List.mem_cons_of_mem _ he)
    by_cases hj : d.field = j
    · left
      rw [hj, Function.update_self, hds d List.mem_cons_self hj, load_store_same]
    · rw [Function.update_of_ne (Ne.symm hj)]
      rcases hw with hw | ⟨e, he, hej⟩
      · exact Or.inl hw
      · rcases List.mem_cons.mp he with rfl | he
        · exact absurd hej hj
        · exact Or.inr ⟨e, he, hej⟩

variable {node : GbNode}

theorem findHead_iff {v : Var} (hv : PlainVar v) (j : Nat) :
    findHead node.heads v = some j ↔ node.heads[j]? = some (.column v) := by
  have hfound : ∀ i, findHead node.heads v = some i → node.heads[i]? = some (.column v) := by
    intro i hi
    obtain ⟨hlt, hp, _⟩ := List.findIdx?_eq_some_iff_getElem.mp hi
    rw [List.getElem?_eq_getElem hlt]
    cases hitem : node.heads[i] with
    | column w =>
      rw [hitem] at hp
      rw [equalVar_sound hp]
    | call =>
      rw [hitem] at hp
      cases hp
  constructor
  · exact hfound j
  · intro hj
    have hsome : (findHead node.heads v).isSome := by
      unfold findHead
      rw [List.findIdx?_isSome, List.any_eq_true]
      exact ⟨_, List.mem_of_getElem? hj, equalVar_refl hv⟩
    obtain ⟨i, hi⟩ := Option.isSome_iff_exists.mp hsome
    rw [hi, node.distinct i j v (hfound i hi) hj]

theorem codeOf_restores (row : Row node.ty) (heads : Nat → Memory Byte) {j : Nat} {v : Var}
    (hj : node.heads[j]? = some (.column v)) (hv : v ∈ node.columns) :
    load (runDecode (row.cells node.columns).flatten (codeOf node).decodebuf heads j) 0
      (node.ty v).size = row.raw v := by
  have hlen : (row.raw v).length = (node.ty v).size := rawCell_length _ _
  rw [← hlen]
  apply runDecode_load
  · intro d hd hdj
    obtain ⟨e, he, hback⟩ := List.mem_filterMap.mp hd
    obtain ⟨i, hi, rfl⟩ := Option.map_eq_some_iff.mp hback
    have hmem : e.exp ∈ node.columns := by
      rw [← ranges_map_exp node.ty 0 node.columns]
      exact List.mem_map_of_mem he
    have hitem := (findHead_iff (node.plain _ hmem) i).mp hi
    obtain rfl : i = j := hdj
    rw [hj] at hitem
    obtain rfl : v = e.exp := HeadItem.column.inj (Option.some.inj hitem)
    exact (ranges_slice row he).1
  · right
    rw [← ranges_map_exp node.ty 0 node.columns] at hv
    obtain ⟨e, he, rfl⟩ := List.mem_map.mp hv
    have hmem : e.exp ∈ node.columns := by
      rw [← ranges_map_exp node.ty 0 node.columns]
      exact List.mem_map_of_mem he
    have hfind := (findHead_iff (node.plain _ hmem) j).mpr hj
    refine ⟨⟨j, e.offset, e.size⟩, List.mem_filterMap.mpr ⟨e, he, ?_⟩, rfl⟩
    unfold backOf
    rw [hfind]
    rfl

end Decoder

section Right

variable {node : GbNode}

theorem codeOf_layout : Layout node (codeOf node) where
  columns := ranges_map_exp node.ty 0 node.columns
  disjoint := ranges_disjoint
  cover i := by
    have hcover : 0 ≤ i ∧ i < 0 + total node.ty node.columns ↔ _ := ranges_cover i
    rw [Nat.zero_add] at hcover
    exact (and_iff_right (Nat.zero_le i)).symm.trans hcover

theorem codeOf_separates_iff (row row' : Row node.ty) : Separates node (codeOf node) row row' ↔
    total node.ty node.columns ≤ maxStrLen ∧
      (SameGroup node row row' → SameTails node row row') := by
  constructor
  · intro h
    obtain ⟨k, k', hk, hk', hsame⟩ := h (fun _ => 0) (fun _ => 0)
    rw [key_eq] at hk hk'
    split at hk
    · rename_i hfit
      rw [if_pos hfit] at hk'
      rw [← Option.some.inj hk, ← Option.some.inj hk', keys_eq_iff] at hsame
      exact ⟨hfit, fun hgroup => (hsame.mpr hgroup).2⟩
    · cases hk
  · rintro ⟨hfit, htails⟩ buf buf'
    refine ⟨_, _, (key_eq row buf).trans (if_pos hfit), (key_eq row' buf').trans (if_pos hfit), ?_⟩
    rw [keys_eq_iff]
    exact ⟨And.left, fun hgroup => ⟨hgroup, htails hgroup⟩⟩

/-- An empty string with `b` behind it; zero for the other types. -/
def emptyBefore (b : Byte) : (ty : FieldTy) → Value ty
  | .int => (0 : BitVec 32)
  | .real => (0 : BitVec 64)
  | .string _ => fun i => if i = 0 then 0 else b
  | .timestamp => ((0 : BitVec 32), (0 : BitVec 32))

def emptyRow (ty : Var → FieldTy) (b : Byte) : Row ty := fun v => emptyBefore b (ty v)

theorem codeOf_restores_iff :
    Restores node (codeOf node) ↔ total node.ty node.columns ≤ maxStrLen := by
  constructor
  · intro h
    obtain ⟨k, hk, -⟩ := h (emptyRow node.ty 0) (fun _ => 0)
    rw [key_eq] at hk
    split at hk
    · assumption
    · cases hk
  · intro hfit row buf
    exact ⟨_, (key_eq row buf).trans (if_pos hfit), fun heads j v => codeOf_restores row heads⟩

theorem emptyRow_same (b b' : Byte) :
    SameGroup node (emptyRow node.ty b) (emptyRow node.ty b') := by
  intro v _
  unfold emptyRow
  cases node.ty v with
  | int | timestamp => rfl
  | real => exact Or.inl rfl
  | string n =>
    cases n with
    | zero => rfl
    | succ n => rfl

theorem emptyRow_tails {n : Nat} {v : Var} (hv : v ∈ node.columns) (hty : node.ty v = .string n)
    (h : SameTails node (emptyRow node.ty 0) (emptyRow node.ty 1)) : n ≤ 1 := by
  have htail := h v hv
  unfold emptyRow at htail
  rw [hty] at htail
  by_contra hn
  obtain ⟨m, rfl⟩ : ∃ m, n = m + 2 := ⟨n - 2, by omega⟩
  have hbytes : (0 : Byte) :: 0 :: load (fun i => if i = 0 then (0 : Byte) else 0) 2 m =
      0 :: 1 :: load (fun i => if i = 0 then (0 : Byte) else 1) 2 m := htail
  have hbit := (List.cons.inj (List.cons.inj hbytes).2).1
  revert hbit
  decide

theorem tails_of_short {ty : FieldTy} (hreal : ty ≠ .real) (h : ∀ n, ty = .string n → n ≤ 1)
    {a b : Value ty} (hab : SameValue ty a b) : TailAgrees .insert .insert ty a b := by
  cases ty with
  | int | timestamp => trivial
  | real => exact absurd rfl hreal
  | string n =>
    have hn := h n rfl
    have hsame : (load a 0 n).takeWhile (· ≠ 0) = (load b 0 n).takeWhile (· ≠ 0) := hab
    show (load a 0 n).dropWhile (· ≠ 0) = (load b 0 n).dropWhile (· ≠ 0)
    obtain rfl | rfl : n = 0 ∨ n = 1 := by omega
    · rfl
    · simp only [load, List.takeWhile_cons, List.dropWhile_cons] at hsame ⊢
      cases ha : decide (a 0 ≠ 0) with
      | true =>
        cases hb : decide (b 0 ≠ 0) with
        | true => rfl
        | false =>
          rw [ha, hb] at hsame
          cases hsame
      | false =>
        cases hb : decide (b 0 ≠ 0) with
        | true =>
          rw [ha, hb] at hsame
          cases hsame
        | false =>
          have hzero : a 0 = b 0 :=
            (not_not.mp (of_decide_eq_false ha)).trans (not_not.mp (of_decide_eq_false hb)).symm
          rw [hzero]

theorem total_le {vs : List Var} {ty : Var → FieldTy}
    (h : ∀ v ∈ vs, ∀ n, ty v = .string n → n ≤ 1) : total ty vs ≤ 8 * vs.length := by
  induction vs with
  | nil => exact Nat.le_refl 0
  | cons v vs ih =>
    have hrest := ih fun w hw => h w (List.mem_cons_of_mem _ hw)
    have hsize : (ty v).size ≤ 8 := by
      cases hty : ty v with
      | int | real | timestamp => decide
      | string n => exact (h v List.mem_cons_self n hty).trans (by omega)
    rw [total_cons, List.length_cons]
    omega

end Right

/-- For all lists of group-by columns: the code is right exactly up to 16 columns with strings of at
most one byte. The generator stays in its arrays up to 16 columns; the ranges and the decoder are
then right, unless the key is longer than its buffer; and two tuples have equal keys exactly for
equal values, unless equal strings have different bytes behind them. -/
theorem gbKey_iff (node : GbNode) (hreal : ∀ v ∈ node.columns, node.ty v ≠ .real) :
    (Right node ↔ node.columns.length ≤ maxColumns ∧
      ∀ v ∈ node.columns, ∀ n, node.ty v = .string n → n ≤ 1) ∧
    ((∃ c, transGenGBKey node = some c) ↔ node.columns.length ≤ maxColumns) ∧
    ((∃ c, transGenGBKey node = some c ∧ c.rc = .none ∧ Layout node c ∧ Restores node c) ↔
      Fits node) ∧
    ∀ row row', (∃ c, transGenGBKey node = some c ∧ Separates node c row row') ↔
      Fits node ∧ (SameGroup node row row' → SameTails node row row') := by
  have hgen := transGenGBKey_eq hreal
  have hsome : ∀ c, transGenGBKey node = some c ↔
      node.columns.length ≤ maxColumns ∧ codeOf node = c := by
    intro c
    rw [hgen]
    split
    · rename_i hlen
      simp [hlen]
    · rename_i hlen
      simp [hlen]
  refine ⟨?_, ?_, ?_, ?_⟩
  · constructor
    · rintro ⟨c, hc, -, -, -, hsep⟩
      obtain ⟨hlen, rfl⟩ := (hsome c).mp hc
      refine ⟨hlen, fun v hv n hty => emptyRow_tails hv hty ?_⟩
      exact ((codeOf_separates_iff _ _).mp (hsep _ _)).2 (emptyRow_same 0 1)
    · rintro ⟨hlen, hshort⟩
      have hfit : total node.ty node.columns ≤ maxStrLen :=
        (total_le hshort).trans ((Nat.mul_le_mul_left 8 hlen).trans (by decide))
      refine ⟨_, (hsome _).mpr ⟨hlen, rfl⟩, rfl, codeOf_layout, codeOf_restores_iff.mpr hfit, ?_⟩
      intro row row'
      apply (codeOf_separates_iff row row').mpr
      exact ⟨hfit, fun hgroup v hv => tails_of_short (hreal v hv) (hshort v hv) (hgroup v hv)⟩
  · simp [hsome]
  · constructor
    · rintro ⟨c, hc, -, -, hrestores⟩
      obtain ⟨hlen, rfl⟩ := (hsome c).mp hc
      exact ⟨hlen, codeOf_restores_iff.mp hrestores⟩
    · rintro ⟨hlen, hfit⟩
      exact ⟨_, (hsome _).mpr ⟨hlen, rfl⟩, rfl, codeOf_layout, codeOf_restores_iff.mpr hfit⟩
  · intro row row'
    constructor
    · rintro ⟨c, hc, hsep⟩
      obtain ⟨hlen, rfl⟩ := (hsome c).mp hc
      obtain ⟨hfit, htails⟩ := (codeOf_separates_iff row row').mp hsep
      exact ⟨⟨hlen, hfit⟩, htails⟩
    · rintro ⟨⟨hlen, hfit⟩, htails⟩
      exact ⟨_, (hsome _).mpr ⟨hlen, rfl⟩, (codeOf_separates_iff row row').mpr ⟨hfit, htails⟩⟩

def byName : GbNode where
  ty _ := .string 2
  heads := [.column (.field "t" "name"), .call]
  columns := [.field "t" "name"]
  plain := by
    intro v hv
    rw [List.mem_singleton.mp hv]
    trivial
  distinct := by
    intro i j v hi hj
    have hfirst : ∀ i : Nat, [HeadItem.column (.field "t" "name"), HeadItem.call][i]? =
        some (.column v) → i = 0 := by
      intro i hi
      rcases i with _ | _ | i
      · rfl
      · cases hi
      · cases hi
    rw [hfirst i hi, hfirst j hj]

theorem byName_noReal : ∀ v ∈ byName.columns, byName.ty v ≠ .real := by
  intro v _ h
  cases h

theorem gbKey_byName :
    (Right byName ↔ byName.columns.length ≤ maxColumns ∧
      ∀ v ∈ byName.columns, ∀ n, byName.ty v = .string n → n ≤ 1) ∧
    ((∃ c, transGenGBKey byName = some c) ↔ byName.columns.length ≤ maxColumns) ∧
    ((∃ c, transGenGBKey byName = some c ∧ c.rc = .none ∧ Layout byName c ∧ Restores byName c) ↔
      Fits byName) ∧
    ∀ row row', (∃ c, transGenGBKey byName = some c ∧ Separates byName c row row') ↔
      Fits byName ∧ (SameGroup byName row row' → SameTails byName row row') :=
  gbKey_iff byName byName_noReal

/-- Empty strings with different bytes behind them are two groups. -/
theorem byName_splits :
    ¬ ∀ node : GbNode, (∀ v ∈ node.columns, node.ty v ≠ .real) → Right node := by
  intro h
  obtain ⟨c, hc, -, -, -, hsep⟩ := h byName byName_noReal
  obtain rfl : codeOf byName = c := Option.some.inj hc
  have htails := ((codeOf_separates_iff _ _).mp (hsep _ _)).2 (emptyRow_same 0 1)
  have hshort := emptyRow_tails List.mem_cons_self (rfl : byName.ty _ = .string 2) htails
  exact absurd hshort (by decide)

end GbKey
end StreamMill.Query
