import StreamMill.ImDb.Hash
import StreamMill.Lib.Memory

/-!
# StreamMill.Table.Record

Tables: the columns with their storage sizes, and the key and data buffers that the generated
INSERT fills. The sizes are those of a 32-bit machine. `transInsert2C_eq`: the data is the cells of
the columns one after the other, a B-tree key the cells of the key columns in the order of the
table, an R-tree key the same, with a point stored as both its corners.
-/

namespace StreamMill.Table

open Lib Lib.Memory
open ImDb (Byte)

inductive FieldTy
  | int
  | real
  | string (size : Nat)
  | timestamp
  deriving DecidableEq

def FieldTy.size : FieldTy → Nat
  | .int => 4
  | .real => 8
  | .string n => n
  | .timestamp => 8

structure Field where
  name : String
  ty : FieldTy
  iskey : Bool
  deriving DecidableEq

inductive IndexKind
  | btree
  | rtree
  deriving DecidableEq

/-- A keyed table, as `checkTabIndex` accepts it: the keys of an R-tree are two or four integers. -/
structure TableDec where
  fields : List Field
  index : IndexKind
  rtreeInt : index = .rtree → ∀ f ∈ fields, f.iskey = true → f.ty = .int
  rtreeDim : index = .rtree → fields.countP (·.iskey) = 2 ∨ fields.countP (·.iskey) = 4

abbrev Cell := List Byte

abbrev Fits (fields : List Field) (cells : List Cell) : Prop :=
  List.Forall₂ (fun f c => c.length = f.ty.size) fields cells

/-- The buffers while a tuple is copied. For an R-tree `key` is `r_key`, and column `nRecKeys` of
its four is next. -/
structure Put where
  key : Memory Byte
  data : Memory Byte
  keyoff : Nat
  dataoff : Nat
  nRecKeys : Nat

def longSize : Nat := 4

def rectSize : Nat := 4 * longSize

def Put.field (index : IndexKind) (b : Put) (f : Field) (c : Cell) : Put :=
  let b :=
    if f.iskey then
      match index, f.ty with
      | .rtree, .int =>
        { b with key := b.key.store (longSize * b.nRecKeys) c, nRecKeys := b.nRecKeys + 1 }
      | _, .string n =>
        { b with key := (b.key.store b.keyoff (List.replicate n 0)).store b.keyoff c,
                 keyoff := b.keyoff + n }
      | _, ty => { b with key := b.key.store b.keyoff c, keyoff := b.keyoff + ty.size }
    else b
  { b with data := b.data.store b.dataoff c, dataoff := b.dataoff + f.ty.size }

def Put.all (index : IndexKind) : List Field → List Cell → Put → Put
  | f :: fs, c :: cs, b => Put.all index fs cs (b.field index f c)
  | _, _, b => b

def Put.keyDone (b : Put) : Memory Byte :=
  if b.nRecKeys = 2 then
    -- `r_key.x_lr = r_key.x_ul; r_key.y_lr = r_key.y_ul;`
    let key := b.key.store (2 * longSize) (load b.key 0 longSize)
    key.store (3 * longSize) (load key longSize longSize)
  else b.key

def Put.keySize (index : IndexKind) (b : Put) : Nat :=
  match index with
  | .btree => b.keyoff
  | .rtree => rectSize

def transInsert2C (dec : TableDec) (keydata datadata : Memory Byte) (cells : List Cell) :
    List Byte × List Byte :=
  let b := Put.all dec.index dec.fields cells ⟨keydata, datadata, 0, 0, 0⟩
  (load b.keyDone 0 (b.keySize dec.index), load b.data 0 b.dataoff)

section Layout

def keyCells : List Field → List Cell → List Cell
  | f :: fs, c :: cs => if f.iskey then c :: keyCells fs cs else keyCells fs cs
  | _, _ => []

def storedKey (dec : TableDec) (cells : List Cell) : List Byte :=
  let keys := keyCells dec.fields cells
  match dec.index with
  | .btree => keys.flatten
  | .rtree => if dec.fields.countP (·.iskey) = 2 then (keys ++ keys).flatten else keys.flatten

theorem keyCells_cons (f : Field) (fs : List Field) (c : Cell) (cs : List Cell) :
    keyCells (f :: fs) (c :: cs) = (if f.iskey then [c] else []) ++ keyCells fs cs := by
  simp only [keyCells]
  split
  · rfl
  · rfl

variable {cs : List Cell} {fs : List Field}

theorem keyCells_length {R : Field → Cell → Prop} (h : List.Forall₂ R fs cs) :
    (keyCells fs cs).length = fs.countP (·.iskey) := by
  induction h with
  | nil => rfl
  | @cons f c fs cs _ _ ih =>
    rw [keyCells_cons, List.length_append, List.countP_cons]
    split
    · simp only [List.length_singleton]
      omega
    · simp only [List.length_nil]
      omega

def Put.keyEnd (index : IndexKind) (b : Put) : Nat :=
  match index with
  | .btree => b.keyoff
  | .rtree => longSize * b.nRecKeys

/-- The buffers after the key cells `kc` and the cells `dc`. -/
structure Filled (index : IndexKind) (b : Put) (kc dc : List Cell) : Prop where
  key : Holds b.key 0 kc
  keyEnd : b.keyEnd index = kc.flatten.length
  nRecKeys : b.nRecKeys = if index = .rtree then kc.length else 0
  data : Holds b.data 0 dc
  dataoff : b.dataoff = dc.flatten.length

variable {index : IndexKind} {b : Put} {kc dc : List Cell}

theorem holds_snoc {m : Memory Byte} {off : Nat} (h : Holds m 0 kc)
    (hoff : off = kc.flatten.length) (c : Cell) : Holds (m.store off c) 0 (kc ++ [c]) := by
  have hs := h.snoc c
  rw [Nat.zero_add] at hs
  rw [hoff]
  exact hs

theorem flatten_snoc_length (cs : List Cell) (c : Cell) :
    (cs ++ [c]).flatten.length = cs.flatten.length + c.length := by
  rw [List.flatten_append, List.length_append, List.flatten_singleton]

/-- One column: its cell is added to the data, and to the key if it is a key column. -/
theorem Filled.field (h : Filled index b kc dc) {f : Field} {c : Cell}
    (hint : index = .rtree → f.iskey = true → f.ty = .int) (hc : c.length = f.ty.size) :
    Filled index (b.field index f c) (kc ++ if f.iskey then [c] else []) (dc ++ [c]) := by
  have hdata : Holds (b.data.store b.dataoff c) 0 (dc ++ [c]) := holds_snoc h.data h.dataoff c
  have hdoff : b.dataoff + f.ty.size = (dc ++ [c]).flatten.length := by
    rw [flatten_snoc_length, h.dataoff, hc]
  have hkey := h.keyEnd
  have hrec := h.nRecKeys
  cases hk : f.iskey with
  | false =>
    simp only [Put.field, hk, Bool.false_eq_true, if_false, List.append_nil]
    exact ⟨h.key, hkey, hrec, hdata, hdoff⟩
  | true =>
    cases index with
    | rtree =>
      have hty := hint rfl hk
      rw [hty] at hc hdoff
      simp only [Put.field, hk, if_true, hty]
      refine ⟨holds_snoc h.key hkey c, ?_, ?_, hdata, hdoff⟩
      · show longSize * (b.nRecKeys + 1) = _
        have hlong : longSize * b.nRecKeys = kc.flatten.length := hkey
        rw [flatten_snoc_length, Nat.mul_succ, hlong, hc]
        rfl
      · rw [if_pos rfl]
        rw [if_pos rfl] at hrec
        rw [List.length_append, hrec, List.length_singleton]
    | btree =>
      have hkoff : b.keyoff + f.ty.size = (kc ++ [c]).flatten.length := by
        have hoff : b.keyoff = kc.flatten.length := hkey
        rw [flatten_snoc_length, hoff, hc]
      cases hty : f.ty with
      | string n =>
        rw [hty] at hkoff hdoff
        simp only [Put.field, hk, if_true, hty]
        have hclear : Holds (b.key.store b.keyoff (List.replicate n 0)) 0 kc := by
          apply h.key.congr
          intro i _ hi
          have hoff : b.keyoff = kc.flatten.length := hkey
          exact (store_outside (Or.inl (by omega))).symm
        exact ⟨holds_snoc hclear hkey c, hkoff, hrec, hdata, hdoff⟩
      | int | real | timestamp =>
        rw [hty] at hkoff hdoff
        simp only [Put.field, hk, if_true, hty]
        exact ⟨holds_snoc h.key hkey c, hkoff, hrec, hdata, hdoff⟩

theorem Filled.all (h : Filled index b kc dc)
    (hint : index = .rtree → ∀ f ∈ fs, f.iskey = true → f.ty = .int) (hfit : Fits fs cs) :
    Filled index (Put.all index fs cs b) (kc ++ keyCells fs cs) (dc ++ cs) := by
  induction hfit generalizing b kc dc with
  | nil => simpa only [Put.all, keyCells, List.append_nil] using h
  | @cons f c fs cs hc _ ih =>
    have hstep := h.field (fun hr => hint hr f (List.mem_cons_self ..)) hc
    have hrest := ih hstep fun hr g hg => hint hr g (List.mem_cons_of_mem _ hg)
    rw [keyCells_cons, ← List.append_assoc, List.append_cons dc c cs]
    exact hrest

theorem mem_keyCells {R : Field → Cell → Prop} (h : List.Forall₂ R fs cs) :
    ∀ c ∈ keyCells fs cs, ∃ f ∈ fs, f.iskey = true ∧ R f c := by
  induction h with
  | nil => intro c hc; cases hc
  | @cons f c fs cs hR _ ih =>
    intro d hd
    rw [keyCells_cons, List.mem_append] at hd
    rcases hd with hd | hd
    · split at hd
      · obtain rfl := List.mem_singleton.mp hd
        exact ⟨f, List.mem_cons_self .., by assumption, hR⟩
      · cases hd
    · obtain ⟨g, hg, hrest⟩ := ih d hd
      exact ⟨g, List.mem_cons_of_mem _ hg, hrest⟩

theorem flatten_length_of {n : Nat} (h : ∀ c ∈ cs, c.length = n) :
    cs.flatten.length = n * cs.length := by
  induction cs with
  | nil => rfl
  | cons c cs ih =>
    rw [List.flatten_cons, List.length_append, h c (List.mem_cons_self ..),
      ih fun d hd => h d (List.mem_cons_of_mem _ hd), List.length_cons, Nat.mul_succ, Nat.add_comm]

theorem Filled.point (h : Filled .rtree b kc dc) (hlong : ∀ c ∈ kc, c.length = longSize)
    (h2 : kc.length = 2) : Holds b.keyDone 0 (kc ++ kc) := by
  have hrec : b.nRecKeys = 2 := by rw [h.nRecKeys, if_pos rfl, h2]
  obtain ⟨x, y, rfl⟩ := List.length_eq_two.mp h2
  have hx : x.length = longSize := hlong x (by simp [List.mem_cons, true_or])
  have hy : y.length = longSize := hlong y (by simp [List.mem_cons, or_true])
  obtain ⟨hloadx, hloady, -⟩ := h.key
  rw [hx] at hloadx
  rw [hx, hy] at hloady
  have hx2 : Holds (b.key.store (2 * longSize) x) 0 ([x, y] ++ [x]) := by
    apply holds_snoc h.key
    simp only [List.flatten_cons, List.flatten_nil, List.length_append, hx, hy, List.length_nil]
    rfl
  have hy2 : load (b.key.store (2 * longSize) x) longSize longSize = y := by
    exact hloady
  unfold Put.keyDone
  rw [if_pos hrec]
  dsimp only
  rw [hloadx, hy2]
  apply holds_snoc hx2
  simp only [List.flatten_append, List.flatten_cons, List.flatten_nil, List.length_append, hx, hy,
    List.length_nil]
  rfl

theorem transInsert2C_eq (dec : TableDec) (keydata datadata : Memory Byte)
    {cells : List Cell} (hfit : Fits dec.fields cells) :
    transInsert2C dec keydata datadata cells = (storedKey dec cells, cells.flatten) := by
  have hstart : Filled dec.index ⟨keydata, datadata, 0, 0, 0⟩ [] [] := by
    refine ⟨trivial, ?_, ?_, trivial, rfl⟩
    · cases dec.index <;> rfl
    · cases dec.index <;> rfl
  have h := hstart.all dec.rtreeInt hfit
  simp only [List.nil_append] at h
  have hcount := keyCells_length hfit
  have hdata := holds_iff.mp h.data
  rw [← h.dataoff] at hdata
  unfold transInsert2C
  dsimp only
  congr 1
  generalize Put.all dec.index dec.fields cells ⟨keydata, datadata, 0, 0, 0⟩ = b at h
  unfold storedKey
  dsimp only
  cases hi : dec.index with
  | btree =>
    rw [hi] at h
    have hrec : b.nRecKeys ≠ 2 := by rw [h.nRecKeys, if_neg (by decide)]; decide
    have hoff : b.keyoff = (keyCells dec.fields cells).flatten.length := h.keyEnd
    rw [Put.keyDone, if_neg hrec, Put.keySize, hoff]
    exact holds_iff.mp h.key
  | rtree =>
    rw [hi] at h
    have hlong : ∀ c ∈ keyCells dec.fields cells, c.length = longSize := by
      intro c hc
      obtain ⟨f, hf, hk, hlen⟩ := mem_keyCells hfit c hc
      rw [hlen, dec.rtreeInt hi f hf hk]
      rfl
    have hlen := flatten_length_of hlong
    by_cases h2 : dec.fields.countP (·.iskey) = 2
    · rw [if_pos h2]
      have hpoint := holds_iff.mp (h.point hlong (hcount.trans h2))
      rw [List.flatten_append, List.length_append, hlen, hcount, h2] at hpoint
      rw [List.flatten_append]
      exact hpoint
    · have hrec : b.nRecKeys ≠ 2 := by rw [h.nRecKeys, hcount]; exact h2
      have h4 : dec.fields.countP (·.iskey) = 4 := (dec.rtreeDim hi).resolve_left h2
      rw [if_neg h2, Put.keyDone, if_neg hrec]
      have hkey := holds_iff.mp h.key
      rw [hlen, hcount, h4] at hkey
      exact hkey

end Layout

end StreamMill.Table
