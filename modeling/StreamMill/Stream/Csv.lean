import StreamMill.Table.Read

/-!
# StreamMill.Stream.Csv

The tuples of a CSV stream. `putDataInBuffer`, as `transCSVIomod2C` generates it, splits a line
into tokens, writes the columns and puts the tuple with its arrival time in the buffer of the
stream; `assignKeyData2C` reads the columns back. The sizes leave the time columns out, the writes
leave none out, and the reads leave out the time key that `checkTimeKey` marks. The conversions of
tokens are parameters. A write outside of the buffer is `none`.

`codec_right_iff`: tuples are read back as they came exactly if the stream has no time key and no
column with the name of the internal one.
-/

namespace StreamMill.Stream

open Lib Lib.Memory
open ImDb (Byte)
open Table

abbrev Timeval := BitVec 32 × BitVec 32

inductive TimekeyKind
  | external
  | internal
  | none
  deriving DecidableEq

structure TyField where
  name : String
  ty : FieldTy
  isTimekey : Bool

def itimeColumn : String := "current_time"

/-- The search of the time key; `none` is `ERR_UNDEFINED_FIELD`. -/
def markTimekey (skey : String) : List TyField → Option (List TyField)
  | [] => none
  | f :: fs =>
    if f.name = skey then some ({ f with isTimekey := true } :: fs)
    else (markTimekey skey fs).map (f :: ·)

def checkTimeKey (tk : TimekeyKind) (skey : String) (fields : List TyField) :
    Option (List TyField) :=
  match tk with
  | .none => some fields
  | .external => markTimekey skey fields
  | .internal => markTimekey skey fields

structure StreamVar where
  declared : List (String × FieldTy)
  nonempty : declared ≠ []
  tk : TimekeyKind
  timekey : String
  fields : List TyField
  checked : checkTimeKey tk timekey (declared.map fun d => ⟨d.1, d.2, false⟩) = some fields

structure Conv where
  atoi : List Byte → BitVec 32
  atof : List Byte → BitVec 64
  getTimeval : List Byte → Timeval

/-- `,` or a newline -/
def delim (b : Byte) : Bool := b = 44 || b = 10

/-- The tokens that `strtok` returns, after the bytes `cur` of the first one. -/
def tokensFrom : List Byte → List Byte → List (List Byte)
  | cur, [] => if cur = [] then [] else [cur]
  | cur, b :: bs =>
    if delim b then
      if cur = [] then tokensFrom [] bs else cur :: tokensFrom [] bs
    else tokensFrom (cur ++ [b]) bs

def lineOf : List (List Byte) → List Byte
  | [] => [10]
  | [t] => t ++ [10]
  | t :: ts => t ++ 44 :: lineOf ts

section Put

/-- The variables of `putDataInBuffer`; the tokens are `tok` and those after it. -/
structure CsvSt where
  toks : List (List Byte)
  data : Memory Byte
  tv : Timeval
  extTime : Timeval
  outOfOrder : Bool

/-- What ends `putDataInBuffer`: a write outside of `loaddatabuf` or a data format error. -/
inductive Stop
  | overflow
  | format

/-- `put` of the buffer of the stream, or of the one for tuples out of order. -/
structure Put where
  data : List Byte
  atime : Timeval
  outOfOrder : Bool

variable (st : StreamVar) (c : Conv)

def StreamVar.isExternal (f : TyField) : Bool := st.tk = .external && f.name = st.timekey

def tuplesizeFrom : List TyField → Nat
  | [] => 0
  | f :: fs =>
    if st.isExternal f || f.name = itimeColumn then tuplesizeFrom fs
    else f.ty.size + tuplesizeFrom fs

def StreamVar.tuplesize : Nat := tuplesizeFrom st st.fields

def copyOver (limit : Nat) (m : Memory Byte) (off n : Nat) (bs : List Byte) :
    Option (Memory Byte) :=
  match write limit m off (List.replicate n 0) with
  | none => none
  | some m => write limit m off bs

def writeToken (limit : Nat) (m : Memory Byte) (off : Nat) (tok : List Byte) :
    FieldTy → Option (Memory Byte)
  | .int => write limit m off (rawCell .int (c.atoi tok))
  | .real => write limit m off (rawCell .real (c.atof tok))
  | .string n => copyOver limit m off n (tok.take n)
  | .timestamp => copyOver limit m off 8 (rawCell .timestamp (c.getTimeval tok))

def CsvSt.arrive (s : CsvSt) : CsvSt :=
  let oos := match s.toks with
    | [] => (0, 0)
    | tok :: _ => c.getTimeval tok
  if timevalCmp s.extTime oos > 0 then { s with outOfOrder := true, tv := oos }
  else { s with outOfOrder := false, extTime := oos }

def CsvSt.column (limit : Nat) (f : TyField) (dataoff : Nat) (s : CsvSt) : Except Stop CsvSt :=
  let s := if st.isExternal f then s.arrive c else s
  if f.name = itimeColumn then
    match copyOver limit s.data dataoff 8 (rawCell .timestamp s.tv) with
    | none => .error .overflow
    | some m => .ok { s with data := m }
  else
    match s.toks with
    | [] => .error .format
    | tok :: toks =>
      match writeToken c limit s.data dataoff tok f.ty with
      | none => .error .overflow
      | some m => .ok { s with data := m, toks := toks }

/-- How far a column moves `dataoff`. -/
def writeSize (f : TyField) : Nat := if f.name = itimeColumn then 8 else f.ty.size

def CsvSt.columns (limit : Nat) : List TyField → Nat → CsvSt → Except Stop CsvSt
  | [], _, s => .ok s
  | f :: fs, dataoff, s =>
    match s.column st c limit f dataoff with
    | .error e => .error e
    | .ok s => CsvSt.columns limit fs (dataoff + writeSize f) s

def CsvSt.put (s : CsvSt) : Put where
  data := load s.data 0 st.tuplesize
  atime := match st.tk with
    | .internal => s.tv
    | .external => if s.outOfOrder then s.tv else s.extTime
    | .none => (0, 0)
  outOfOrder := st.tk = .external && s.outOfOrder

def CsvSt.loop : Nat → CsvSt → Option (List Put)
  | 0, _ => none
  | n + 1, s =>
    match s.toks with
    | [] => some []
    | _ :: _ =>
      match s.columns st c (st.tuplesize + 1) st.fields 0 with
      | .error .overflow => none
      | .error .format => some []
      | .ok s => (CsvSt.loop n s).map (s.put st :: ·)

def putDataInBuffer (s : CsvSt) (line : List Byte) : Option (List Put) :=
  CsvSt.loop st c (line.length + 1) { s with toks := tokensFrom [] line }

end Put

inductive Vals : List TyField → Type
  | nil : Vals []
  | cons {f : TyField} {fs : List TyField} (v : Value f.ty) (vs : Vals fs) : Vals (f :: fs)

def assignField (isTimekey : Bool) (data : Memory Byte) (dataoff : Nat) (atime : Timeval) :
    (ty : FieldTy) → Value ty
  | .timestamp => if isTimekey then atime else readTimeval data dataoff
  | .int => readCell data dataoff .int
  | .real => readCell data dataoff .real
  | .string n => readCell data dataoff (.string n)

/-- How far a column moves `dataoff`. -/
def readSize (isTimekey : Bool) : FieldTy → Nat
  | .timestamp => if isTimekey then 0 else 8
  | .int => 4
  | .real => 8
  | .string n => n

def assignKeyData (data : Memory Byte) (atime : Timeval) :
    (fs : List TyField) → Nat → Vals fs
  | [], _ => .nil
  | f :: fs, dataoff =>
    .cons (assignField f.isTimekey data dataoff atime f.ty)
      (assignKeyData data atime fs (dataoff + readSize f.isTimekey f.ty))

def readTotal : List TyField → Nat
  | [] => 0
  | f :: fs => readSize f.isTimekey f.ty + readTotal fs

def tokVal (c : Conv) (tok : List Byte) : (ty : FieldTy) → Value ty
  | .int => c.atoi tok
  | .real => c.atof tok
  | .string _ => atRecord tok
  | .timestamp => c.getTimeval tok

def IsTime (atime : Timeval) : (ty : FieldTy) → Value ty → Prop
  | .timestamp, v => v = atime
  | .int, _ => False
  | .real, _ => False
  | .string _, _ => False

def StreamVar.inLine (st : StreamVar) (f : TyField) : Bool :=
  !(st.tk = .internal && f.isTimekey)

/-- A line with one token that is not empty for each column. -/
structure ValidLine (st : StreamVar) (toks : List (List Byte)) : Prop where
  length : toks.length = st.fields.countP st.inLine
  nonempty : ∀ t ∈ toks, t ≠ []
  bytes : ∀ t ∈ toks, ∀ b ∈ t, b ≠ 0 ∧ delim b = false

def ColumnsRight (st : StreamVar) (c : Conv) (atime : Timeval) :
    {fs : List TyField} → List (List Byte) → Vals fs → Prop
  | _, _, .nil => True
  | _, toks, @Vals.cons f _ v vs =>
    (if f.isTimekey then IsTime atime f.ty v
      else ∃ tok ∈ toks.head?, SameValue f.ty v (tokVal c tok f.ty)) ∧
      ColumnsRight st c atime (if st.inLine f then toks.tail else toks) vs

def CodecRight (st : StreamVar) : Prop :=
  ∀ (c : Conv) (s : CsvSt) (toks : List (List Byte)), ValidLine st toks →
    ∃ p : Put, putDataInBuffer st c s (lineOf toks) = some [p] ∧
      p.data.length = readTotal st.fields ∧
      ColumnsRight st c p.atime toks (assignKeyData (atRecord p.data) p.atime st.fields 0)

theorem tokensFrom_token {t : List Byte} (h : ∀ b ∈ t, delim b = false) (cur rest : List Byte) :
    tokensFrom cur (t ++ rest) = tokensFrom (cur ++ t) rest := by
  induction t generalizing cur with
  | nil => rw [List.nil_append, List.append_nil]
  | cons b t ih =>
    rw [List.cons_append, tokensFrom, h b List.mem_cons_self, if_neg (by decide),
      ih (fun c hc => h c (List.mem_cons_of_mem _ hc)), List.append_assoc]
    rfl

theorem tokensFrom_delim {t : List Byte} (ht : t ≠ []) {b : Byte} (hb : delim b = true)
    (rest : List Byte) : tokensFrom t (b :: rest) = t :: tokensFrom [] rest := by
  rw [tokensFrom, if_pos hb, if_neg ht]

theorem tokens_lineOf {toks : List (List Byte)} (hne : ∀ t ∈ toks, t ≠ [])
    (hbytes : ∀ t ∈ toks, ∀ b ∈ t, delim b = false) : tokensFrom [] (lineOf toks) = toks := by
  induction toks with
  | nil => rfl
  | cons t ts ih =>
    have ht := hne t List.mem_cons_self
    have hb := hbytes t List.mem_cons_self
    have hrest := ih (fun u hu => hne u (List.mem_cons_of_mem _ hu))
      fun u hu => hbytes u (List.mem_cons_of_mem _ hu)
    cases ts with
    | nil =>
      rw [lineOf, tokensFrom_token hb, List.nil_append, tokensFrom_delim ht (by decide)]
      rfl
    | cons u us =>
      have hline : lineOf (t :: u :: us) = t ++ 44 :: lineOf (u :: us) := rfl
      rw [hline, tokensFrom_token hb, List.nil_append, tokensFrom_delim ht (by decide), hrest]

theorem lineOf_length (toks : List (List Byte)) : 0 < (lineOf toks).length := by
  cases toks with
  | nil => decide
  | cons t ts =>
    cases ts with
    | nil => simp [lineOf]
    | cons u us => simp [lineOf]

section Encode

variable {st : StreamVar} {c : Conv} {limit : Nat}
variable {off : Nat}

theorem copyOver_load (m : Memory Byte) {n : Nat} {bs : List Byte} (hbs : bs.length ≤ n)
    (h : off + n ≤ limit) :
    ∃ m', copyOver limit m off n bs = some m' ∧ (∀ i, i < off → m' i = m i) ∧
      load m' off n = bs ++ List.replicate (n - bs.length) 0 := by
  unfold copyOver
  rw [write_ok (by rw [List.length_replicate]; exact h)]
  dsimp only
  rw [write_ok (by omega), store_store, List.drop_replicate]
  refine ⟨_, rfl, fun i hi => store_outside (Or.inl hi), ?_⟩
  have hsame := load_store_same m off (bs ++ List.replicate (n - bs.length) 0)
  have hlen : (bs ++ List.replicate (n - bs.length) (0 : Byte)).length = n := by
    rw [List.length_append, List.length_replicate]
    omega
  rw [hlen] at hsame
  exact hsame

theorem write_load (m : Memory Byte) {n : Nat} {bs : List Byte} (hbs : bs.length = n)
    (h : off + n ≤ limit) :
    ∃ m', write limit m off bs = some m' ∧ (∀ i, i < off → m' i = m i) ∧ load m' off n = bs := by
  subst hbs
  exact ⟨_, write_ok h m, fun i hi => store_outside (Or.inl hi), load_store_same _ _ _⟩

theorem load_token (tok : List Byte) (n : Nat) :
    load (atRecord tok) 0 n = tok.take n ++ List.replicate (n - (tok.take n).length) 0 := by
  apply List.ext_getElem?
  intro i
  by_cases hi : i < n
  · rw [load_getElem? _ hi, Nat.zero_add]
    unfold atRecord
    by_cases ht : i < tok.length
    · rw [List.getElem?_append_left (by rw [List.length_take]; omega), List.getElem?_take_of_lt hi,
        List.getElem?_eq_getElem ht]
      rfl
    · rw [List.getElem?_append_right (by rw [List.length_take]; omega),
        List.getElem?_eq_none (by omega), List.getElem?_replicate, List.length_take,
        if_pos (by omega)]
      rfl
  · rw [List.getElem?_eq_none (by rw [load_length]; omega), List.getElem?_eq_none]
    rw [List.length_append, List.length_replicate, List.length_take]
    omega

theorem writeToken_load (m : Memory Byte) (tok : List Byte) {ty : FieldTy}
    (h : off + ty.size ≤ limit) :
    ∃ m', writeToken c limit m off tok ty = some m' ∧ (∀ i, i < off → m' i = m i) ∧
      load m' off ty.size = rawCell ty (tokVal c tok ty) := by
  have hlen := rawCell_length ty (tokVal c tok ty)
  cases ty with
  | int => exact write_load m hlen h
  | real => exact write_load m hlen h
  | string n =>
    obtain ⟨m', hm', hbelow, hload⟩ := copyOver_load m (List.length_take_le n tok) h
    exact ⟨m', hm', hbelow, hload.trans (load_token tok n).symm⟩
  | timestamp =>
    obtain ⟨m', hm', hbelow, hload⟩ := copyOver_load m (le_of_eq hlen) h
    refine ⟨m', hm', hbelow, ?_⟩
    exact hload

def TokensAt (c : Conv) : List TyField → List (List Byte) → Nat → Memory Byte → Prop
  | f :: fs, tok :: toks, off, m =>
    load m off f.ty.size = rawCell f.ty (tokVal c tok f.ty) ∧
      TokensAt c fs toks (off + f.ty.size) m
  | _, _, _, _ => True

def sizes : List TyField → Nat
  | [] => 0
  | f :: fs => f.ty.size + sizes fs

def Plain (st : StreamVar) (f : TyField) : Prop :=
  st.isExternal f = false ∧ f.name ≠ itimeColumn

theorem column_plain {f : TyField} (hf : Plain st f) {s : CsvSt} {tok : List Byte}
    {toks : List (List Byte)} (hs : s.toks = tok :: toks) (h : off + f.ty.size ≤ limit) :
    ∃ m', s.column st c limit f off = .ok { s with data := m', toks := toks } ∧
      (∀ i, i < off → m' i = s.data i) ∧
      load m' off f.ty.size = rawCell f.ty (tokVal c tok f.ty) := by
  obtain ⟨m', hm', hbelow, hload⟩ := writeToken_load s.data tok h
  refine ⟨m', ?_, hbelow, hload⟩
  unfold CsvSt.column
  rw [hf.1, if_neg hf.2]
  simp [Bool.false_eq_true, hs, hm']

theorem columns_plain {fs : List TyField} (hfs : ∀ f ∈ fs, Plain st f) {s : CsvSt}
    {toks rest : List (List Byte)} (hs : s.toks = toks ++ rest) (hlen : toks.length = fs.length)
    (h : off + sizes fs ≤ limit) :
    ∃ m', s.columns st c limit fs off = .ok { s with data := m', toks := rest } ∧
      (∀ i, i < off → m' i = s.data i) ∧ TokensAt c fs toks off m' := by
  induction fs generalizing off s toks with
  | nil =>
    obtain rfl := List.eq_nil_of_length_eq_zero hlen
    subst hs
    exact ⟨s.data, rfl, fun _ _ => rfl, trivial⟩
  | cons f fs ih =>
    cases toks with
    | nil => cases hlen
    | cons tok toks =>
      have hf := hfs f List.mem_cons_self
      have hroom : off + (f.ty.size + sizes fs) ≤ limit := h
      have hcol : off + f.ty.size ≤ limit := by omega
      obtain ⟨m1, hcolumn, hbelow, hload⟩ := column_plain hf hs hcol
      have hrestroom : off + f.ty.size + sizes fs ≤ limit := by omega
      obtain ⟨m', hcolumns, hbelow', hat⟩ := ih (fun g hg => hfs g (List.mem_cons_of_mem _ hg))
        (s := { s with data := m1, toks := toks ++ rest }) rfl (Nat.succ.inj hlen) hrestroom
      have hsize : writeSize f = f.ty.size := if_neg hf.2
      refine ⟨m', ?_, ?_, ?_, hat⟩
      · unfold CsvSt.columns
        rw [hcolumn, hsize]
        exact hcolumns
      · intro i hi
        exact (hbelow' i (by omega)).trans (hbelow i hi)
      · rw [← hload]
        exact load_congr fun i _ hi => hbelow' i hi

theorem tuplesize_plain {fs : List TyField} (hfs : ∀ f ∈ fs, Plain st f) :
    tuplesizeFrom st fs = sizes fs := by
  induction fs with
  | nil => rfl
  | cons f fs ih =>
    obtain ⟨hext, hname⟩ := hfs f List.mem_cons_self
    unfold tuplesizeFrom
    rw [hext, ih fun g hg => hfs g (List.mem_cons_of_mem _ hg)]
    simp [hname, sizes]

end Encode

section Decode

variable {st : StreamVar} {c : Conv}

theorem readSize_false (ty : FieldTy) : readSize false ty = ty.size := by cases ty <;> rfl

theorem assignField_false (data : Memory Byte) (off : Nat) (atime : Timeval) (ty : FieldTy) :
    assignField false data off atime ty = readCell data off ty := by cases ty <;> rfl

theorem readTotal_unmarked {fs : List TyField} (hfs : ∀ f ∈ fs, f.isTimekey = false) :
    readTotal fs = sizes fs := by
  induction fs with
  | nil => rfl
  | cons f fs ih =>
    rw [readTotal, hfs f List.mem_cons_self, readSize_false,
      ih fun g hg => hfs g (List.mem_cons_of_mem _ hg)]
    rfl

theorem columnsRight_of {fs : List TyField} (hfs : ∀ f ∈ fs, f.isTimekey = false)
    {toks : List (List Byte)} (hlen : toks.length = fs.length) {off : Nat} {m data : Memory Byte}
    (hat : TokensAt c fs toks off m) (hdata : ∀ i, i < off + sizes fs → data i = m i)
    (atime : Timeval) :
    ColumnsRight st c atime toks (assignKeyData data atime fs off) := by
  induction fs generalizing toks off with
  | nil => trivial
  | cons f fs ih =>
    cases toks with
    | nil => cases hlen
    | cons tok toks =>
      have hf := hfs f List.mem_cons_self
      have hline : st.inLine f = true := by
        unfold StreamVar.inLine
        rw [hf]
        simp
      obtain ⟨hload, hrest⟩ := hat
      simp only [sizes] at hdata
      unfold assignKeyData ColumnsRight
      rw [hf, hline, readSize_false, assignField_false]
      refine ⟨⟨tok, rfl, ?_⟩, ?_⟩
      · apply readCell_same
        rw [← hload]
        exact load_congr fun i _ hi => hdata i (by omega)
      · exact ih (fun g hg => hfs g (List.mem_cons_of_mem _ hg)) (Nat.succ.inj hlen) hrest
          fun i hi => hdata i (by omega)

end Decode

section Correct

variable {st : StreamVar}

theorem unmarked (h : st.tk = .none) : ∀ f ∈ st.fields, f.isTimekey = false := by
  have hchecked := st.checked
  rw [h] at hchecked
  have hfields := Option.some.inj hchecked
  intro f hf
  rw [← hfields] at hf
  obtain ⟨d, -, rfl⟩ := List.mem_map.mp hf
  rfl

theorem fields_ne_nil (h : st.tk = .none) : st.fields ≠ [] := by
  have hchecked := st.checked
  rw [h] at hchecked
  have hfields := Option.some.inj hchecked
  rw [← hfields]
  simpa using st.nonempty

theorem codec_right_of (htk : st.tk = .none) (hname : ∀ f ∈ st.fields, f.name ≠ itimeColumn) :
    CodecRight st := by
  intro c s toks hline
  have hunmarked := unmarked htk
  have hplain : ∀ f ∈ st.fields, Plain st f := by
    intro f hf
    refine ⟨?_, hname f hf⟩
    unfold StreamVar.isExternal
    rw [htk]
    rfl
  have hlen : toks.length = st.fields.length := by
    rw [hline.length, List.countP_eq_length]
    intro f hf
    unfold StreamVar.inLine
    rw [htk]
    rfl
  have hsize : st.tuplesize = sizes st.fields := tuplesize_plain hplain
  have htokens := tokens_lineOf hline.nonempty fun t ht b hb => (hline.bytes t ht b hb).2
  have hroom : 0 + sizes st.fields ≤ st.tuplesize + 1 := by omega
  obtain ⟨m', hcolumns, -, hat⟩ := columns_plain (s := { s with toks := toks }) hplain
    (List.append_nil toks).symm hlen hroom
  have hpos := lineOf_length toks
  obtain ⟨n, hn⟩ := Nat.exists_eq_add_of_lt hpos
  have hrun : putDataInBuffer st c s (lineOf toks) =
      some [({ s with data := m', toks := [] } : CsvSt).put st] := by
    unfold putDataInBuffer
    rw [htokens, hn]
    cases toks with
    | nil =>
      have hzero := List.eq_nil_of_length_eq_zero hlen.symm
      exact absurd hzero (fields_ne_nil htk)
    | cons tok toks =>
      unfold CsvSt.loop
      rw [hcolumns]
      rfl
  refine ⟨_, hrun, ?_, ?_⟩
  · show (load m' 0 st.tuplesize).length = _
    rw [load_length, hsize, readTotal_unmarked hunmarked]
  · apply columnsRight_of hunmarked hlen hat
    intro i hi
    exact memory_atRecord m' (by omega)

end Correct

section Failing

variable {st : StreamVar} {c : Conv} {limit : Nat}

def writeTotal : List TyField → Nat
  | [] => 0
  | f :: fs => writeSize f + writeTotal fs

variable {m m' : Memory Byte} {off : Nat} {f : TyField} {s : CsvSt} {fs : List TyField}

theorem write_room {bs : List Byte} (h : write limit m off bs = some m') :
    off + bs.length ≤ limit := by
  by_contra hlimit
  unfold write at h
  rw [if_neg hlimit] at h
  cases h

theorem copyOver_room {n : Nat} {bs : List Byte} (h : copyOver limit m off n bs = some m') :
    off + n ≤ limit := by
  unfold copyOver at h
  cases hw : write limit m off (List.replicate n 0) with
  | none =>
    rw [hw] at h
    cases h
  | some m1 =>
    have hroom := write_room hw
    rwa [List.length_replicate] at hroom

theorem writeToken_room {tok : List Byte} {ty : FieldTy}
    (h : writeToken c limit m off tok ty = some m') : off + ty.size ≤ limit := by
  cases ty with
  | int => exact write_room h
  | real => exact write_room h
  | string n => exact copyOver_room h
  | timestamp => exact copyOver_room h

theorem column_room {s' : CsvSt} (h : s.column st c limit f off = .ok s') :
    off + writeSize f ≤ limit := by
  unfold CsvSt.column at h
  generalize (if st.isExternal f then s.arrive c else s) = s1 at h
  unfold writeSize
  by_cases hname : f.name = itimeColumn
  · rw [if_pos hname] at h ⊢
    cases hw : copyOver limit s1.data off 8 (rawCell .timestamp s1.tv) with
    | none =>
      rw [hw] at h
      cases h
    | some m => exact copyOver_room hw
  · rw [if_neg hname] at h ⊢
    cases ht : s1.toks with
    | nil =>
      rw [ht] at h
      cases h
    | cons tok toks =>
      rw [ht] at h
      dsimp only at h
      cases hw : writeToken c limit s1.data off tok f.ty with
      | none =>
        rw [hw] at h
        cases h
      | some m => exact writeToken_room hw

theorem columns_room {s' : CsvSt} (hoff : off ≤ limit) (h : s.columns st c limit fs off = .ok s') :
    off + writeTotal fs ≤ limit := by
  induction fs generalizing off s with
  | nil => exact hoff
  | cons f fs ih =>
    unfold CsvSt.columns at h
    cases hc : s.column st c limit f off with
    | error e =>
      rw [hc] at h
      cases h
    | ok s1 =>
      rw [hc] at h
      have hrest := ih (column_room hc) h
      simp only [writeTotal]
      omega

theorem putDataInBuffer_room {line : List Byte} {p : Put}
    (h : putDataInBuffer st c s line = some [p]) :
    writeTotal st.fields ≤ st.tuplesize + 1 ∧ p.data.length = st.tuplesize := by
  unfold putDataInBuffer CsvSt.loop at h
  cases ht : tokensFrom [] line with
  | nil =>
    rw [ht] at h
    cases h
  | cons tok toks =>
    rw [ht] at h
    cases hc : ({ s with toks := tok :: toks } : CsvSt).columns st c (st.tuplesize + 1)
        st.fields 0 with
    | error e =>
      rw [hc] at h
      cases e with
      | overflow => cases h
      | format => cases h
    | ok s' =>
      rw [hc] at h
      have hroom := columns_room (Nat.zero_le _) hc
      rw [Nat.zero_add] at hroom
      obtain ⟨ps, -, hps⟩ := Option.map_eq_some_iff.mp h
      obtain ⟨rfl, -⟩ := List.cons.inj hps
      exact ⟨hroom, load_length _ _ _⟩

theorem tuplesize_excluded (st : StreamVar) (hf : f ∈ fs)
    (hout : (st.isExternal f || decide (f.name = itimeColumn)) = true) :
    tuplesizeFrom st fs + writeSize f ≤ writeTotal fs := by
  have hle : ∀ gs : List TyField, tuplesizeFrom st gs ≤ writeTotal gs := by
    intro gs
    induction gs with
    | nil => exact Nat.le_refl _
    | cons g gs ih =>
      unfold tuplesizeFrom writeTotal
      split
      · omega
      · rename_i hg
        have hname : g.name ≠ itimeColumn := by
          intro hname
          apply hg
          simp [hname]
        rw [writeSize, if_neg hname]
        omega
  induction fs with
  | nil => cases hf
  | cons g gs ih =>
    cases hf with
    | head =>
      have hgs := hle gs
      rw [tuplesizeFrom, if_pos hout, writeTotal]
      omega
    | tail _ hf =>
      have hrest := ih hf
      have hhead := hle [g]
      simp only [tuplesizeFrom, writeTotal] at hhead ⊢
      split at hhead
      · rename_i hg
        rw [if_pos hg]
        omega
      · rename_i hg
        rw [if_neg hg]
        omega

theorem columnsRight_time {atime : Timeval} {toks : List (List Byte)} {vs : Vals fs}
    (h : ColumnsRight st c atime toks vs) (hf : f ∈ fs) (hkey : f.isTimekey = true) :
    f.ty = .timestamp := by
  induction vs generalizing toks with
  | nil => cases hf
  | @cons g gs v vs ih =>
    obtain ⟨hcol, hrest⟩ := h
    cases hf with
    | head =>
      rw [if_pos hkey] at hcol
      obtain ⟨name, ty, isTimekey⟩ := f
      cases ty with
      | timestamp => rfl
      | int => cases hcol
      | real => cases hcol
      | string n => cases hcol
    | tail _ hf => exact ih hrest hf

theorem markTimekey_mem {skey : String} {gs : List TyField} (h : markTimekey skey fs = some gs) :
    ∃ f ∈ gs, f.isTimekey = true ∧ f.name = skey := by
  induction fs generalizing gs with
  | nil => cases h
  | cons f fs ih =>
    unfold markTimekey at h
    split at h
    · rename_i hname
      cases h
      exact ⟨_, List.mem_cons_self, rfl, hname⟩
    · obtain ⟨hs, hmark, rfl⟩ := Option.map_eq_some_iff.mp h
      obtain ⟨g, hg, hkey⟩ := ih hmark
      exact ⟨g, List.mem_cons_of_mem _ hg, hkey⟩

theorem timekey_mem (h : st.tk ≠ .none) :
    ∃ f ∈ st.fields, f.isTimekey = true ∧ f.name = st.timekey := by
  have hchecked := st.checked
  cases htk : st.tk with
  | none => exact absurd htk h
  | external =>
    rw [htk] at hchecked
    exact markTimekey_mem hchecked
  | internal =>
    rw [htk] at hchecked
    exact markTimekey_mem hchecked

theorem readTotal_marked (hf : f ∈ fs) (hkey : f.isTimekey = true) (hty : f.ty = .timestamp) :
    readTotal fs + 8 ≤ sizes fs := by
  have hle : ∀ g : TyField, readSize g.isTimekey g.ty ≤ g.ty.size := by
    intro g
    cases g.ty with
    | timestamp =>
      show (if g.isTimekey = true then 0 else 8) ≤ 8
      split
      · exact Nat.zero_le _
      · exact Nat.le_refl _
    | int => exact Nat.le_refl _
    | real => exact Nat.le_refl _
    | string n => exact Nat.le_refl _
  have htotal : ∀ gs : List TyField, readTotal gs ≤ sizes gs := by
    intro gs
    induction gs with
    | nil => exact Nat.le_refl _
    | cons g gs ih =>
      have := hle g
      simp only [readTotal, sizes]
      omega
  induction fs with
  | nil => cases hf
  | cons g gs ih =>
    simp only [readTotal, sizes]
    cases hf with
    | head =>
      have hgs := htotal gs
      have hzero : readSize f.isTimekey f.ty = 0 := by
        rw [hkey, hty]
        rfl
      have hsize : f.ty.size = 8 := by
        rw [hty]
        rfl
      omega
    | tail _ hf =>
      have := hle g
      have hrest := ih hf
      omega

theorem validLine_ones (st : StreamVar) :
    ValidLine st (List.replicate (st.fields.countP st.inLine) [49]) where
  length := List.length_replicate
  nonempty := by
    intro t ht
    rw [List.eq_of_mem_replicate ht]
    decide
  bytes := by
    intro t ht b hb
    rw [List.eq_of_mem_replicate ht] at hb
    rw [List.mem_singleton.mp hb]
    decide

theorem codec_plain (h : CodecRight st) :
    st.tk = .none ∧ ∀ f ∈ st.fields, f.name ≠ itimeColumn := by
  let c : Conv := ⟨fun _ => 0, fun _ => 0, fun _ => (0, 0)⟩
  let s : CsvSt := ⟨[], fun _ => 0, (0, 0), (0, 0), false⟩
  obtain ⟨p, hput, hlen, hcols⟩ := h c s _ (validLine_ones st)
  obtain ⟨hroom, hsize⟩ := putDataInBuffer_room hput
  have hname : ∀ f ∈ st.fields, f.name ≠ itimeColumn := by
    intro f hf hname
    have hout := tuplesize_excluded st hf (by simp [hname])
    rw [writeSize, if_pos hname] at hout
    unfold StreamVar.tuplesize at hroom
    omega
  refine ⟨?_, hname⟩
  by_contra htk
  obtain ⟨f, hf, hkey, hskey⟩ := timekey_mem htk
  have hty := columnsRight_time hcols hf hkey
  have height : f.ty.size = 8 := by
    rw [hty]
    rfl
  by_cases hext : st.tk = .external
  · have hisext : st.isExternal f = true := by
      unfold StreamVar.isExternal
      simp [hext, hskey]
    have hout := tuplesize_excluded st hf (by simp [hisext])
    rw [writeSize, if_neg (hname f hf)] at hout
    unfold StreamVar.tuplesize at hroom
    omega
  · have hplain : ∀ g ∈ st.fields, Plain st g := by
      intro g hg
      refine ⟨?_, hname g hg⟩
      unfold StreamVar.isExternal
      simp [hext]
    have htotal := readTotal_marked hf hkey hty
    have htuple : st.tuplesize = sizes st.fields := tuplesize_plain hplain
    omega

end Failing

/-- The codec is right exactly without time columns of its own. -/
theorem codec_right_iff (st : StreamVar) :
    CodecRight st ↔ st.tk = .none ∧ ∀ f ∈ st.fields, f.name ≠ itimeColumn :=
  ⟨codec_plain, fun h => codec_right_of h.1 h.2⟩

/-- `STREAM s(ts timestamp, v int) ORDER BY ts` -/
def byTs : StreamVar where
  declared := [("ts", .timestamp), ("v", .int)]
  nonempty := nofun
  tk := .external
  timekey := "ts"
  fields := [⟨"ts", .timestamp, true⟩, ⟨"v", .int, false⟩]
  checked := rfl

theorem byTs_not_right : ¬ CodecRight byTs := fun h => nomatch (codec_plain h).1

end StreamMill.Stream
