import StreamMill.Table.Compare
import StreamMill.RTree.Rectangle

/-!
# StreamMill.Table.RectKey

The keys of an R-tree table as three generators build them. INSERT fills the corners of `r_key` and
makes a point a rectangle; LOAD writes the key columns one after the other, of which the R-tree
reads a whole rectangle; a scan makes its rectangle of the bounds of the query.

`rtree_access_iff`: the three fit together exactly for tables with four key columns, and for points
exactly if the point happens to stand a second time behind the key that LOAD wrote.
-/

namespace StreamMill.Table

open Lib Lib.Memory
open ImDb (Byte)
open RTree (Rect containedIn containedIn_nonneg Covers)

def longOf (bs : List Byte) : Int := (BitVec.ofNat 32 (leNat bs)).toInt

def asRect (bs : List Byte) : Rect where
  xUl := longOf (bs.take longSize)
  yUl := longOf ((bs.drop longSize).take longSize)
  xLr := longOf ((bs.drop (2 * longSize)).take longSize)
  yLr := longOf ((bs.drop (3 * longSize)).take longSize)

def insertRect (dec : TableDec) (keydata datadata : Memory Byte) (row : Tuple dec.fields) : Rect :=
  asRect (transInsert2C dec keydata datadata (row.cellsWith rawCell)).1

/-- The rectangle that LOAD puts: `rtree_put` reads a `Rect` from the key buffer. -/
def loadRect (dec : TableDec) (loadkeybuf loaddatabuf : Memory Byte) (row : Tuple dec.fields) :
    Rect :=
  let b := Load.all dec.fields.length row ⟨loadkeybuf, loaddatabuf, 0, 0⟩
  asRect (load b.key 0 rectSize)

def intMin : Int := -2 ^ 31

def intMax : Int := 2 ^ 31 - 1

def lowerOr (lower : Option (BitVec 32)) : Int := lower.elim intMin BitVec.toInt

def upperOr (upper : Option (BitVec 32)) : Int := upper.elim intMax BitVec.toInt

/-- The corners that key column `rkeyIdx` assigns. -/
def keyCorner (lower upper : Option (BitVec 32)) (rkeyIdx : Nat) (r : Rect) : Option Rect :=
  match rkeyIdx with
  | 0 => some { r with xUl := lowerOr lower, xLr := upperOr upper }
  | 1 => some { r with yLr := lowerOr lower, yUl := upperOr upper }
  | 2 => some { r with xLr := upperOr upper }
  | 3 => some { r with yLr := lowerOr lower }
  | _ => none

/-- `r_key` after the columns from `i` on; `lower` is `bndpLower` and `upper` is `bndpUpper`. -/
def queryFrom (lower upper : Nat → Option (BitVec 32)) :
    List Field → Nat → Nat → Rect → Option Rect
  | [], _, _, r => some r
  | f :: fs, i, rkeyIdx, r =>
    if f.iskey then
      match f.ty with
      | .int => do
        let r ← keyCorner (lower i) (upper i) rkeyIdx r
        queryFrom lower upper fs (i + 1) (rkeyIdx + 1) r
      | .real => none
      | .string _ => none
      | .timestamp => none
    else queryFrom lower upper fs (i + 1) rkeyIdx r

/-- The rectangle of a scan; `r` is what `r_key` holds before. -/
def queryRect (dec : TableDec) (lower upper : Nat → Option (BitVec 32)) (r : Rect) : Option Rect :=
  queryFrom lower upper dec.fields 0 0 r

def Between (lower upper : Option (BitVec 32)) (v : Int) : Prop :=
  (∀ l, lower = some l → l.toInt ≤ v) ∧ ∀ u, upper = some u → v ≤ u.toInt

def intOf : (ty : FieldTy) → Value ty → List (BitVec 32)
  | .int, v => [v]
  | .real, _ => []
  | .string _, _ => []
  | .timestamp, _ => []

def Tuple.keyInts : {fs : List Field} → Tuple fs → List (BitVec 32)
  | _, .nil => []
  | _, @Tuple.cons f _ v t => if f.iskey then intOf f.ty v ++ t.keyInts else t.keyInts

/-- The bounds of the key columns from column `i` on. -/
def keyBounds (lower upper : Nat → Option (BitVec 32)) :
    List Field → Nat → List (Option (BitVec 32) × Option (BitVec 32))
  | [], _ => []
  | f :: fs, i =>
    if f.iskey then (lower i, upper i) :: keyBounds lower upper fs (i + 1)
    else keyBounds lower upper fs (i + 1)

def Satisfies {fs : List Field} (lower upper : Nat → Option (BitVec 32)) (row : Tuple fs) : Prop :=
  List.Forall₂ (fun b v => Between b.1 b.2 (BitVec.toInt v)) (keyBounds lower upper fs 0)
    row.keyInts

/-- The buffers of INSERT and of LOAD before a tuple. -/
structure KeyBuffers where
  keydata : Memory Byte
  datadata : Memory Byte
  loadkeybuf : Memory Byte
  loaddatabuf : Memory Byte

def KeyBuffers.inserted (m : KeyBuffers) {dec : TableDec} (row : Tuple dec.fields) : Rect :=
  insertRect dec m.keydata m.datadata row

def KeyBuffers.loaded (m : KeyBuffers) {dec : TableDec} (row : Tuple dec.fields) : Rect :=
  loadRect dec m.loadkeybuf m.loaddatabuf row

structure Access (dec : TableDec) (m : KeyBuffers) (row : Tuple dec.fields) : Prop where
  same : m.inserted row = m.loaded row
  point : dec.fields.countP (·.iskey) = 2 →
    (m.inserted row).xLr = (m.inserted row).xUl ∧ (m.inserted row).yLr = (m.inserted row).yUl
  found : ∀ lower upper r, ∃ query, queryRect dec lower upper r = some query ∧
    (Satisfies lower upper row →
      containedIn (m.inserted row) query ≠ -1 ∧ containedIn (m.loaded row) query ≠ -1)

section Bytes

theorem longOf_leBytes (v : BitVec 32) : longOf (leBytes 4 v.toNat) = v.toInt := by
  unfold longOf
  rw [leNat_leBytes v.isLt, BitVec.ofNat_toNat, BitVec.setWidth_eq]

theorem asRect_append {a b c d : List Byte} (ha : a.length = longSize) (hb : b.length = longSize)
    (hc : c.length = longSize) (hd : d.length = longSize) :
    asRect (a ++ (b ++ (c ++ d))) = ⟨longOf a, longOf b, longOf c, longOf d⟩ := by
  have h2 : (a ++ (b ++ (c ++ d))).drop (2 * longSize) = c ++ d := by
    rw [← List.append_assoc, List.drop_left' (by rw [List.length_append, ha, hb]; rfl)]
  have h3 : (a ++ (b ++ (c ++ d))).drop (3 * longSize) = d := by
    rw [← List.append_assoc, ← List.append_assoc,
      List.drop_left' (by rw [List.length_append, List.length_append, ha, hb, hc]; rfl)]
  unfold asRect
  rw [h2, h3, List.take_left' ha, List.drop_left' ha, List.take_left' hb, List.take_left' hc,
    ← hd, List.take_length]

variable {fs : List Field}

theorem keyCells_ints (g : (ty : FieldTy) → Value ty → Cell)
    (hg : ∀ v, g .int v = leBytes 4 (BitVec.toNat v)) (row : Tuple fs)
    (hint : ∀ f ∈ fs, f.iskey = true → f.ty = .int) :
    keyCells fs (row.cellsWith g) = row.keyInts.map fun v => leBytes 4 v.toNat := by
  induction row with
  | nil => rfl
  | @cons f fs v t ih =>
    have hrest := ih fun g hg => hint g (List.mem_cons_of_mem _ hg)
    simp only [Tuple.cellsWith, keyCells, Tuple.keyInts]
    cases hk : f.iskey with
    | false => simpa using hrest
    | true =>
      have hty := hint f List.mem_cons_self hk
      obtain ⟨name, ty, iskey⟩ := f
      obtain rfl : ty = .int := hty
      rw [hg, hrest]
      rfl

theorem keyInts_length (row : Tuple fs) (hint : ∀ f ∈ fs, f.iskey = true → f.ty = .int) :
    row.keyInts.length = fs.countP (·.iskey) := by
  rw [← keyCells_length (cellsWith_fits rawCell_length row), keyCells_ints rawCell (fun _ => rfl)
    row hint, List.length_map]

theorem load_key_outside (row : Tuple fs) (len : Nat) (b : Load) {i : Nat}
    (hi : b.keyoff + keySize fs ≤ i) : (Load.all len row b).key i = b.key i := by
  induction row generalizing len b with
  | nil => cases len <;> rfl
  | @cons f fs v t ih =>
    cases len with
    | zero => rfl
    | succ len =>
      have hsize : keySize (f :: fs) = (if f.iskey then f.ty.size else 0) + keySize fs := by
        unfold keySize
        rw [List.filter_cons]
        split <;> simp
      rw [hsize] at hi
      simp only [Load.all]
      cases hk : f.iskey with
      | false =>
        rw [hk] at hi
        have hrest := ih len (b.field f v) (by
          unfold Load.field
          rw [hk]
          simpa using hi)
        rw [hrest]
        unfold Load.field
        rw [hk]
        rfl
      | true =>
        rw [hk, if_pos rfl] at hi
        have hrest := ih len (b.field f v) (by
          unfold Load.field
          rw [hk, if_pos rfl]
          dsimp only
          omega)
        rw [hrest]
        unfold Load.field
        rw [hk]
        rw [loadStore_eq]
        apply store_outside
        rw [copied_length]
        omega

end Bytes

section Stored

variable {dec : TableDec}

abbrev IsPoint (dec : TableDec) : Prop := dec.fields.countP (·.iskey) = 2

theorem keyInts_point (hr : dec.index = .rtree) (h2 : IsPoint dec) (row : Tuple dec.fields) :
    ∃ x y, row.keyInts = [x, y] :=
  List.length_eq_two.mp ((keyInts_length row (dec.rtreeInt hr)).trans h2)

theorem length_four {α : Type} {l : List α} (h : l.length = 4) : ∃ a b c d, l = [a, b, c, d] := by
  obtain ⟨a, t, rfl⟩ := List.exists_cons_of_length_eq_add_one h
  obtain ⟨b, c, d, rfl⟩ := List.length_eq_three.mp (Nat.succ.inj h)
  exact ⟨a, b, c, d, rfl⟩

theorem keyInts_rect (hr : dec.index = .rtree) (h2 : ¬ IsPoint dec) (row : Tuple dec.fields) :
    ∃ x y z w, row.keyInts = [x, y, z, w] := by
  have hlen := keyInts_length row (dec.rtreeInt hr)
  rw [(dec.rtreeDim hr).resolve_left h2] at hlen
  exact length_four hlen

theorem long_length (v : BitVec 32) : (leBytes 4 v.toNat).length = longSize := leBytes_length 4 _

theorem inserted_eq (hr : dec.index = .rtree) (row : Tuple dec.fields) (m : KeyBuffers) :
    m.inserted row = asRect (if IsPoint dec then
      ((row.keyInts ++ row.keyInts).map fun v => leBytes 4 v.toNat).flatten
      else (row.keyInts.map fun v => leBytes 4 v.toNat).flatten) := by
  have hfit := cellsWith_fits rawCell_length row
  have hkeys := keyCells_ints rawCell (fun _ => rfl) row (dec.rtreeInt hr)
  unfold KeyBuffers.inserted insertRect
  rw [transInsert2C_eq dec _ _ hfit]
  unfold storedKey
  rw [hr, hkeys]
  rw [List.map_append]

variable {row : Tuple dec.fields} {x y : BitVec 32}

section

variable (hr : dec.index = .rtree)
include hr

theorem inserted_point (h2 : IsPoint dec) (hrow : row.keyInts = [x, y]) (m : KeyBuffers) :
    m.inserted row = ⟨x.toInt, y.toInt, x.toInt, y.toInt⟩ := by
  rw [inserted_eq hr, if_pos h2, hrow]
  simp only [List.map_cons, List.map_nil, List.cons_append, List.nil_append, List.flatten_cons,
    List.flatten_nil, List.append_nil]
  rw [asRect_append (long_length x) (long_length y) (long_length x) (long_length y),
    longOf_leBytes, longOf_leBytes]

theorem inserted_rect (h2 : ¬ IsPoint dec) {z w : BitVec 32} (hrow : row.keyInts = [x, y, z, w])
    (m : KeyBuffers) :
    m.inserted row = ⟨x.toInt, y.toInt, z.toInt, w.toInt⟩ := by
  rw [inserted_eq hr, if_neg h2, hrow]
  simp only [List.map_cons, List.map_nil, List.flatten_cons, List.flatten_nil, List.append_nil]
  rw [asRect_append (long_length x) (long_length y) (long_length z) (long_length w),
    longOf_leBytes, longOf_leBytes, longOf_leBytes, longOf_leBytes]

theorem loaded_eq (row : Tuple dec.fields) (m : KeyBuffers) (rest : Nat)
    (hrest : 4 * row.keyInts.length + rest = rectSize) :
    m.loaded row = asRect ((row.keyInts.map fun v => leBytes 4 v.toNat).flatten ++
      load m.loadkeybuf (4 * row.keyInts.length) rest) := by
  have hkeys := keyCells_ints (copied .load) (fun _ => rfl) row (dec.rtreeInt hr)
  have hfit := cellsWith_fits (copied_length .load) row
  have hlong : ∀ c ∈ row.keyInts.map (fun v => leBytes 4 v.toNat), c.length = 4 := by
    intro c hc
    obtain ⟨v, -, rfl⟩ := List.mem_map.mp hc
    exact leBytes_length 4 _
  have hlen := flatten_length_of hlong
  rw [List.length_map] at hlen
  have hsize : keySize dec.fields = 4 * row.keyInts.length := by
    rw [← keyCells_size hfit, hkeys, hlen]
  have hstart : Holds (⟨m.loadkeybuf, m.loaddatabuf, 0, 0⟩ : Load).key 0 [] := trivial
  have hall := load_all row dec.fields.length hstart rfl
  rw [List.nil_append, List.take_length, hkeys, holds_iff, hlen] at hall
  unfold KeyBuffers.loaded loadRect
  dsimp only
  rw [← hrest, load_append, Nat.zero_add]
  congr 2
  apply load_congr
  intro i hi _
  apply load_key_outside
  dsimp only
  omega

theorem loaded_point (hrow : row.keyInts = [x, y]) (m : KeyBuffers) :
    m.loaded row = ⟨x.toInt, y.toInt, (readInt m.loadkeybuf 8).toInt,
      (readInt m.loadkeybuf 12).toInt⟩ := by
  rw [loaded_eq hr row m 8 (by rw [hrow]; rfl), hrow]
  have htail : load m.loadkeybuf 8 8 = load m.loadkeybuf 8 4 ++ load m.loadkeybuf 12 4 :=
    load_append _ 8 4 4
  simp only [List.map_cons, List.map_nil, List.flatten_cons, List.flatten_nil, List.append_nil,
    List.append_assoc, List.length_cons, List.length_nil]
  rw [htail,
    asRect_append (long_length x) (long_length y) (load_length m.loadkeybuf 8 4)
      (load_length m.loadkeybuf 12 4), longOf_leBytes, longOf_leBytes]
  rfl

theorem loaded_rect {z w : BitVec 32} (hrow : row.keyInts = [x, y, z, w]) (m : KeyBuffers) :
    m.loaded row = ⟨x.toInt, y.toInt, z.toInt, w.toInt⟩ := by
  rw [loaded_eq hr row m 0 (by rw [hrow]; rfl), hrow]
  simp only [List.map_cons, List.map_nil, List.flatten_cons, List.flatten_nil, List.append_nil,
    load]
  rw [asRect_append (long_length x) (long_length y) (long_length z) (long_length w),
    longOf_leBytes, longOf_leBytes, longOf_leBytes, longOf_leBytes]

end

end Stored

section Scan

variable {fs : List Field} {lower upper : Nat → Option (BitVec 32)}

def corners : List (Option (BitVec 32) × Option (BitVec 32)) → Nat → Rect → Option Rect
  | [], _, r => some r
  | b :: bs, rkeyIdx, r => do
    let r ← keyCorner b.1 b.2 rkeyIdx r
    corners bs (rkeyIdx + 1) r

theorem queryFrom_eq (hint : ∀ f ∈ fs, f.iskey = true → f.ty = .int) (i rkeyIdx : Nat) (r : Rect) :
    queryFrom lower upper fs i rkeyIdx r = corners (keyBounds lower upper fs i) rkeyIdx r := by
  induction fs generalizing i rkeyIdx r with
  | nil => rfl
  | cons f fs ih =>
    have hrest := ih fun g hg => hint g (List.mem_cons_of_mem _ hg)
    simp only [queryFrom, keyBounds]
    cases hk : f.iskey with
    | false => exact hrest (i + 1) rkeyIdx r
    | true =>
      rw [hint f List.mem_cons_self hk]
      simp [corners, hrest]

theorem keyBounds_length (i : Nat) :
    (keyBounds lower upper fs i).length = fs.countP (·.iskey) := by
  induction fs generalizing i with
  | nil => rfl
  | cons f fs ih =>
    simp only [keyBounds, List.countP_cons]
    cases hk : f.iskey with
    | false => simpa using ih (i + 1)
    | true => simpa using ih (i + 1)

theorem lowerOr_le {lower upper : Option (BitVec 32)} {v : BitVec 32}
    (h : Between lower upper v.toInt) : lowerOr lower ≤ v.toInt := by
  cases lower with
  | none => exact v.le_toInt
  | some l => exact h.1 l rfl

theorem le_upperOr {lower upper : Option (BitVec 32)} {v : BitVec 32}
    (h : Between lower upper v.toInt) : v.toInt ≤ upperOr upper := by
  cases upper with
  | none =>
    have := v.toInt_lt
    show v.toInt ≤ 2 ^ 31 - 1
    omega
  | some u => exact h.2 u rfl

theorem contained_of_covers {r s : Rect} (h : Covers s r) : containedIn r s ≠ -1 := by
  have := containedIn_nonneg.mpr h
  omega

theorem corners_point {bs : List (Option (BitVec 32) × Option (BitVec 32))} {x y : BitVec 32}
    (hlen : bs.length = 2) (r : Rect) : ∃ query, corners bs 0 r = some query ∧
      (List.Forall₂ (fun b v => Between b.1 b.2 (BitVec.toInt v)) bs [x, y] →
        Covers query ⟨x.toInt, y.toInt, x.toInt, y.toInt⟩) := by
  obtain ⟨b0, b1, rfl⟩ := List.length_eq_two.mp hlen
  refine ⟨_, rfl, ?_⟩
  intro h
  cases h with
  | cons h0 h =>
    cases h with
    | cons h1 _ => exact ⟨lowerOr_le h0, le_upperOr h1, le_upperOr h0, lowerOr_le h1⟩

theorem corners_rect {bs : List (Option (BitVec 32) × Option (BitVec 32))} {x y z w : BitVec 32}
    (hlen : bs.length = 4) (r : Rect) : ∃ query, corners bs 0 r = some query ∧
      (List.Forall₂ (fun b v => Between b.1 b.2 (BitVec.toInt v)) bs [x, y, z, w] →
        Covers query ⟨x.toInt, y.toInt, z.toInt, w.toInt⟩) := by
  obtain ⟨b0, b1, b2, b3, rfl⟩ := length_four hlen
  refine ⟨_, rfl, ?_⟩
  intro h
  cases h with
  | cons h0 h =>
    cases h with
    | cons h1 h =>
      cases h with
      | cons h2 h =>
        cases h with
        | cons h3 _ => exact ⟨lowerOr_le h0, le_upperOr h1, le_upperOr h2, lowerOr_le h3⟩

end Scan

section Access

variable {dec : TableDec}

/-- The point stands a second time behind the key columns in LOAD's key buffer. -/
def Doubled (m : KeyBuffers) (row : Tuple dec.fields) : Prop :=
  row.keyInts = [readInt m.loadkeybuf 8, readInt m.loadkeybuf 12]

theorem access_iff (hr : dec.index = .rtree) (m : KeyBuffers) (row : Tuple dec.fields) :
    Access dec m row ↔ IsPoint dec → Doubled m row := by
  by_cases h2 : IsPoint dec
  · obtain ⟨x, y, hrow⟩ := keyInts_point hr h2 row
    have hins := inserted_point hr h2 hrow m
    have hload := loaded_point hr hrow m
    constructor
    · intro h _
      have hsame := h.same
      rw [hins, hload, Rect.mk.injEq] at hsame
      unfold Doubled
      rw [hrow, BitVec.toInt_inj.mp hsame.2.2.1, BitVec.toInt_inj.mp hsame.2.2.2]
    · intro h
      have hdouble := h h2
      unfold Doubled at hdouble
      rw [hrow] at hdouble
      obtain ⟨hx, hy⟩ := List.cons.inj hdouble
      have hsame : m.inserted row = m.loaded row := by
        rw [hins, hload, ← hx, ← (List.cons.inj hy).1]
      refine ⟨hsame, fun _ => by rw [hins]; exact ⟨rfl, rfl⟩, ?_⟩
      intro lower upper r
      have hlen : (keyBounds lower upper dec.fields 0).length = 2 := (keyBounds_length 0).trans h2
      obtain ⟨query, hquery, hcover⟩ := corners_point hlen r
      refine ⟨query, (queryFrom_eq (dec.rtreeInt hr) 0 0 r).trans hquery, ?_⟩
      intro hsat
      unfold Satisfies at hsat
      rw [hrow] at hsat
      rw [← hsame, hins]
      exact ⟨contained_of_covers (hcover hsat), contained_of_covers (hcover hsat)⟩
  · obtain ⟨x, y, z, w, hrow⟩ := keyInts_rect hr h2 row
    have hins := inserted_rect hr h2 hrow m
    have hload := loaded_rect hr hrow m
    refine iff_of_true ⟨hins.trans hload.symm, fun h => absurd h h2, ?_⟩ fun h => absurd h h2
    intro lower upper r
    have hlen : (keyBounds lower upper dec.fields 0).length = 4 :=
      (keyBounds_length 0).trans ((dec.rtreeDim hr).resolve_left h2)
    obtain ⟨query, hquery, hcover⟩ := corners_rect hlen r
    refine ⟨query, (queryFrom_eq (dec.rtreeInt hr) 0 0 r).trans hquery, ?_⟩
    intro hsat
    unfold Satisfies at hsat
    rw [hrow] at hsat
    rw [hins, hload]
    exact ⟨contained_of_covers (hcover hsat), contained_of_covers (hcover hsat)⟩

def zeroValue : (ty : FieldTy) → Value ty
  | .int => (0 : BitVec 32)
  | .real => (0 : BitVec 64)
  | .string _ => fun _ => (0 : Byte)
  | .timestamp => ((0 : BitVec 32), (0 : BitVec 32))

def zeroRow : (fs : List Field) → Tuple fs
  | [] => .nil
  | f :: fs => .cons (zeroValue f.ty) (zeroRow fs)

theorem zeroRow_keyInts (fs : List Field) : ∀ v ∈ (zeroRow fs).keyInts, v = 0 := by
  induction fs with
  | nil =>
    intro v hv
    cases hv
  | cons f fs ih =>
    intro v hv
    simp only [zeroRow, Tuple.keyInts] at hv
    split at hv
    · rcases List.mem_append.mp hv with hv | hv
      · cases hty : f.ty with
        | int =>
          rw [hty] at hv
          exact List.mem_singleton.mp hv
        | real | string n | timestamp =>
          rw [hty] at hv
          cases hv
      · exact ih v hv
    · exact ih v hv

def dirtyBuffers : KeyBuffers := ⟨fun _ => 1, fun _ => 1, fun _ => 1, fun _ => 1⟩

theorem not_doubled (dec : TableDec) : ¬ Doubled dirtyBuffers (zeroRow dec.fields) := by
  intro h
  have hzero := zeroRow_keyInts dec.fields (readInt dirtyBuffers.loadkeybuf 8) (by rw [h]; simp)
  revert hzero
  decide +kernel

end Access

/-- INSERT, LOAD and the scans agree for exactly the tables of rectangles, and for a point exactly
if LOAD finds it a second time behind the key. -/
theorem rtree_access_iff (dec : TableDec) (hr : dec.index = .rtree) :
    ((∀ m row, Access dec m row) ↔ dec.fields.countP (·.iskey) = 4) ∧
      ∀ m row, Access dec m row ↔ (dec.fields.countP (·.iskey) = 2 → Doubled m row) := by
  refine ⟨?_, fun m row => access_iff hr m row⟩
  constructor
  · intro h
    apply (dec.rtreeDim hr).resolve_left
    intro h2
    exact not_doubled dec ((access_iff hr _ _).mp (h dirtyBuffers (zeroRow dec.fields)) h2)
  · intro h4 m row
    apply (access_iff hr m row).mpr
    intro h2
    exact absurd (h4.symm.trans h2) (by decide)

def pointTable : TableDec where
  fields := [⟨"x", .int, true⟩, ⟨"y", .int, true⟩]
  index := .rtree
  rtreeInt := by
    intro _ f hf _
    simp only [List.mem_cons, List.not_mem_nil, or_false] at hf
    rcases hf with rfl | rfl <;> rfl
  rtreeDim := fun _ => Or.inl rfl

theorem rtree_access_points :
    ((∀ m row, Access pointTable m row) ↔ pointTable.fields.countP (·.iskey) = 4) ∧
      ∀ m row, Access pointTable m row ↔
        (pointTable.fields.countP (·.iskey) = 2 → Doubled m row) :=
  rtree_access_iff pointTable rfl

/-- LOAD stores the point (0, 0) with what lies behind its key as second corner. -/
theorem load_misses_point :
    ¬ ∀ (dec : TableDec) m (row : Tuple dec.fields), dec.index = .rtree → Access dec m row := by
  intro h
  have hsame := (h pointTable dirtyBuffers (zeroRow pointTable.fields) rfl).same
  revert hsame
  decide +kernel

end StreamMill.Table
