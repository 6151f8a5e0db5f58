import StreamMill.Buf.SharedQueue
import StreamMill.Table.Compare

/-!
# StreamMill.Buf.Codec

Messages of a code and two optional strings through a buffer: `buffer::put(code, s1, s2)` and
`buffer::get(code, s1, s2)` of `buffer.cc`, over a `commonBuf` and over a `sharedBuf`. The strings
lie behind the code, each with its terminating zero; `get` goes by the size of the message. The
second string without the first has no place.
-/

namespace StreamMill.Buf

open ImDb (Byte)
open Table (leBytes leNat leBytes_length leNat_leBytes)
open Lib

/-- A string, without its terminating zero. -/
abbrev CStr := {s : List Byte // 0 ∉ s}

def strSize : Option CStr → Nat
  | none => 0
  | some s => s.val.length + 1

def writeAt (buf : List Byte) (off : Nat) (bytes : List Byte) : Except BufFault (List Byte) :=
  if off + bytes.length ≤ buf.length then
    .ok (buf.take off ++ bytes ++ buf.drop (off + bytes.length))
  else .error .overflow

def strcpyTo (buf : List Byte) (off : Nat) (s : CStr) : Except BufFault (List Byte) :=
  writeAt buf off (s.val ++ [0])

/-- `cDBT cdbt(size)`: its memory holds `junk`. -/
def cDbt (junk : Nat → Byte) (size : Nat) : Dbt :=
  { keysz := 0
    datasz := size
    key := none
    data := some ((List.range size).map junk)
    atime := none }

/-- The `strcpy` of the first string. -/
def putFirst (data : List Byte) : Option CStr → Except BufFault (List Byte)
  | none => .ok data
  | some s1 => strcpyTo data 4 s1

/-- The `strcpy` of the second string, which takes the length of the first. -/
def putSecond (data : List Byte) (s1 s2 : Option CStr) : Except BufFault (List Byte) :=
  match s2 with
  | none => .ok data
  | some s2 =>
    match s1 with
    | none => .error .nullPtr
    | some s1 => strcpyTo data (4 + s1.val.length + 1) s2

def codecPut (junk : Nat → Byte) (code : BitVec 32) (s1 s2 : Option CStr) :
    Except BufFault Dbt := do
  let data ← writeAt ((List.range (4 + strSize s1 + strSize s2)).map junk) 0 (leBytes 4 code.toNat)
  let data ← putFirst data s1
  let data ← putSecond data s1 s2
  return { cDbt junk (4 + strSize s1 + strSize s2) with data := some data }

def strAt (data : List Byte) (off : Nat) : Except BufFault (List Byte) :=
  if 0 ∈ data.drop off then .ok ((data.drop off).takeWhile (· ≠ 0)) else .error .overflow

/-- `strcpy(r, cdbt.data+off)` if the message is longer than `off`. -/
def getString (cdbt : Dbt) (off : Nat) (r : List Byte) : Except BufFault (List Byte) :=
  if (off : Int) < cdbt.datasz then strAt (cdbt.data.getD []) off else .ok r

def getFirst (cdbt : Dbt) : Option (List Byte) → Except BufFault (Option (List Byte))
  | none => .ok none
  | some r1 => do
    let r1 ← getString cdbt 4 r1
    return some r1

/-- The length of the first string is that of the result. -/
def getSecond (cdbt : Dbt) (r1 : Option (List Byte)) :
    Option (List Byte) → Except BufFault (Option (List Byte))
  | none => .ok none
  | some r2 =>
    match r1 with
    | none => .error .nullPtr
    | some r1 => do
      let r2 ← getString cdbt (4 + r1.length + 1) r2
      return some r2

structure Message where
  code : BitVec 32
  s1 : Option (List Byte)
  s2 : Option (List Byte)
  deriving DecidableEq

/-- `buffer::get(code, s1, s2)` over the `get(dbt*)` of a buffer. -/
def codecGet (get : Dbt → Except BufFault (Dbt × BufRc)) (junk : Nat → Byte) (r : Message) :
    Except BufFault (Message × BufRc) := do
  let (cdbt, rc) ← get (cDbt junk maxStrLen)
  match rc with
  | .ok =>
    let s1 ← getFirst cdbt r.s1
    let s2 ← getSecond cdbt s1 r.s2
    return (⟨BitVec.ofNat 32 (leNat ((cdbt.data.getD []).take 4)), s1, s2⟩, .ok)
  | rc => return (r, rc)

/-- The buffer of a process, a `deque<cDBT*>`. -/
structure CommonBuf where
  b : List SDbt

def CommonBuf.put (s : CommonBuf) (junk : Nat → Byte) (d : Dbt) : Except BufFault CommonBuf := do
  let cdbt ← SDbt.init ⟨none, true, true, true, junk⟩ d.data d.datasz d.atime d.key d.keysz
  return ⟨s.b ++ [cdbt]⟩

def CommonBuf.get (s : CommonBuf) (d : Dbt) : Except BufFault (Dbt × BufRc) :=
  match s.b with
  | [] => .ok (d, .notFound)
  | cdbt :: _ => do
    let d ← d.copy cdbt
    return (d, .ok)

def strBytes : Option CStr → List Byte
  | none => []
  | some s => s.val ++ [0]

def message (code : BitVec 32) (s1 s2 : Option CStr) : List Byte :=
  leBytes 4 code.toNat ++ strBytes s1 ++ strBytes s2

variable {code : BitVec 32} {s1 s2 : Option CStr} {junk : Nat → Byte}

theorem strBytes_length (s : Option CStr) : (strBytes s).length = strSize s := by
  cases s with
  | none => rfl
  | some s => rw [strBytes, List.length_append]; rfl

theorem message_length : (message code s1 s2).length = 4 + strSize s1 + strSize s2 := by
  rw [message, List.length_append, List.length_append, leBytes_length, strBytes_length,
    strBytes_length]

theorem writeAt_append {off : Nat} (xs : List Byte) (hoff : off = xs.length)
    (ys bytes : List Byte) (h : bytes.length ≤ ys.length) :
    writeAt (xs ++ ys) off bytes = .ok (xs ++ bytes ++ ys.drop bytes.length) := by
  subst hoff
  rw [writeAt, if_pos (by rw [List.length_append]; omega), List.take_left,
    List.drop_length_add_append]

variable {B data : List Byte} {size : Nat} {get : Dbt → Except BufFault (Dbt × BufRc)}

theorem writeCode (hB : 4 ≤ B.length) :
    writeAt B 0 (leBytes 4 code.toNat) = .ok (leBytes 4 code.toNat ++ B.drop 4) := by
  have hw := writeAt_append [] rfl B (leBytes 4 code.toNat) (by exact hB)
  rwa [List.nil_append] at hw

/-- Without the first string the second makes the code take the length of `NULL`. -/
theorem codecPut_null (s2 : CStr) : codecPut junk code none (some s2) = .error .nullPtr := by
  rw [codecPut, writeCode (by rw [List.length_map, List.length_range]; omega)]
  rfl

theorem putFirst_ok (hB : B.length = 4 + strSize s1 + size) :
    putFirst (leBytes 4 code.toNat ++ B.drop 4) s1 =
      .ok (leBytes 4 code.toNat ++ strBytes s1 ++ B.drop (4 + strSize s1)) := by
  cases s1 with
  | none => rfl
  | some s1 =>
    have hlen : (s1.val ++ [0]).length = strSize (some s1) := strBytes_length (some s1)
    have hroom : (s1.val ++ [0]).length ≤ (B.drop 4).length := by
      rw [List.length_drop]
      omega
    rw [putFirst, strcpyTo, writeAt_append _ (leBytes_length 4 _).symm _ _ hroom, List.drop_drop,
      hlen]
    rfl

theorem putSecond_ok (h : s2.isSome → s1.isSome) (hB : B.length = 4 + strSize s1 + strSize s2) :
    putSecond (leBytes 4 code.toNat ++ strBytes s1 ++ B.drop (4 + strSize s1)) s1 s2 =
      .ok (message code s1 s2) := by
  cases s2 with
  | none =>
    rw [putSecond, List.drop_eq_nil_of_le (by rw [hB]; exact Nat.le_refl _), message, strBytes]
  | some s2 =>
    obtain ⟨s1, rfl⟩ := Option.isSome_iff_exists.mp (h rfl)
    have hlen : (s2.val ++ [0]).length = strSize (some s2) := strBytes_length (some s2)
    have hoff : 4 + s1.val.length + 1 = (leBytes 4 code.toNat ++ strBytes (some s1)).length := by
      rw [List.length_append, leBytes_length, strBytes_length, strSize, Nat.add_assoc]
    simp only [putSecond, strcpyTo]
    rw [writeAt_append _ hoff _ _ (by rw [List.length_drop]; omega), List.drop_drop, hlen,
      List.drop_eq_nil_of_le (by rw [hB]), List.append_nil]
    rfl

theorem codecPut_ok (h : s2.isSome → s1.isSome) :
    codecPut junk code s1 s2 = .ok { cDbt junk (4 + strSize s1 + strSize s2) with
      data := some (message code s1 s2) } := by
  have hB : ((List.range (4 + strSize s1 + strSize s2)).map junk).length =
      4 + strSize s1 + strSize s2 := by
    rw [List.length_map, List.length_range]
  rw [codecPut, writeCode (by omega)]
  simp only [bufOk_bind, putFirst_ok hB, putSecond_ok h hB]
  rfl

def Delivers (get : Dbt → Except BufFault (Dbt × BufRc)) (data : List Byte) : Prop :=
  ∀ r : Dbt, ∀ b, r.data = some b →
    if data.length ≤ b.length then
      ∃ r', get r = .ok (r', .ok) ∧ r'.datasz = data.length ∧
        fieldOf r'.data data.length = data
    else get r = .error .overflow

theorem Delivers.fits (h : Delivers get data) (junk : Nat → Byte) (hsize : data.length ≤ size) :
    ∃ r', get (cDbt junk size) = .ok (r', .ok) ∧ r'.datasz = data.length ∧
      fieldOf r'.data data.length = data := by
  have hroom := h (cDbt junk size) _ rfl
  rw [List.length_map, List.length_range] at hroom
  rwa [if_pos hsize] at hroom

theorem Delivers.overflow (h : Delivers get data) (junk : Nat → Byte) (hsize : size < data.length) :
    get (cDbt junk size) = .error .overflow := by
  have hroom := h (cDbt junk size) _ rfl
  rw [List.length_map, List.length_range] at hroom
  rwa [if_neg (Nat.not_le.mpr hsize)] at hroom

theorem strAt_append {off : Nat} {xs : List Byte} (hoff : off = xs.length) (s : CStr)
    (ys : List Byte) : strAt (xs ++ (s.val ++ [0]) ++ ys) off = .ok s.val := by
  subst hoff
  rw [strAt, List.append_assoc, List.drop_left, List.append_assoc]
  have hs : ∀ b ∈ s.val, decide (b ≠ 0) = true := fun b hb =>
    decide_eq_true fun h => s.property (h ▸ hb)
  rw [List.takeWhile_append_of_pos hs]
  simp

theorem getString_ok {r' : Dbt} {tail : List Byte} (xs ys : List Byte) (s : Option CStr)
    (hsize : r'.datasz = (xs ++ strBytes s ++ ys).length)
    (hdata : r'.data.getD [] = xs ++ strBytes s ++ ys ++ tail) (hys : s = none → ys = []) :
    getString r' xs.length [] = .ok (s.elim [] Subtype.val) := by
  rw [getString, hsize, hdata]
  cases s with
  | none =>
    rw [hys rfl, strBytes, List.append_nil, List.append_nil, if_neg (by omega)]
    rfl
  | some s =>
    have hlt : (xs.length : Int) < (xs ++ strBytes (some s) ++ ys).length := by
      rw [strBytes]
      simp only [List.length_append, List.length_singleton]
      omega
    rw [if_pos hlt, strBytes, List.append_assoc _ ys tail, strAt_append rfl]
    rfl

theorem getSecond_ok {r' : Dbt} {tail : List Byte} (h : s2.isSome → s1.isSome)
    (hsize : r'.datasz = (message code s1 s2).length)
    (hdata : r'.data.getD [] = message code s1 s2 ++ tail) :
    getSecond r' (some (s1.elim [] Subtype.val)) (some []) =
      .ok (some (s2.elim [] Subtype.val)) := by
  cases s1 with
  | none =>
    cases s2 with
    | some s2 => cases h rfl
    | none =>
      have hstr : getString r' (4 + ([] : List Byte).length + 1) [] = .ok [] := by
        refine if_neg ?_
        rw [hsize, message_length]
        decide
      simp only [getSecond, Option.elim, hstr, bufOk_bind]
      rfl
  | some s1 =>
    have hoff : 4 + s1.val.length + 1 = (leBytes 4 code.toNat ++ strBytes (some s1)).length := by
      rw [List.length_append, leBytes_length, strBytes_length, strSize, Nat.add_assoc]
    have hmessage : message code (some s1) s2 =
        leBytes 4 code.toNat ++ strBytes (some s1) ++ strBytes s2 ++ [] :=
      (List.append_nil _).symm
    rw [hmessage] at hsize hdata
    have hstr := getString_ok _ [] s2 hsize hdata fun _ => rfl
    simp only [getSecond, Option.elim, hoff, hstr, bufOk_bind]
    rfl

theorem codecGet_ok (hget : Delivers get (message code s1 s2)) (h : s2.isSome → s1.isSome)
    (hsize : 4 + strSize s1 + strSize s2 ≤ maxStrLen) (code' : BitVec 32) :
    codecGet get junk ⟨code', some [], some []⟩ =
      .ok (⟨code, some (s1.elim [] Subtype.val), some (s2.elim [] Subtype.val)⟩, .ok) := by
  have hfits : (message code s1 s2).length ≤ maxStrLen := by
    rw [message_length]
    exact hsize
  obtain ⟨r', hr', hdatasz, hdata⟩ := hget.fits junk hfits
  obtain ⟨tail, htail⟩ : ∃ tail, r'.data.getD [] = message code s1 s2 ++ tail := by
    refine ⟨(r'.data.getD []).drop (message code s1 s2).length, ?_⟩
    conv_rhs => enter [1]; rw [← hdata]
    exact (List.take_append_drop _ _).symm
  have hfirst : getString r' (leBytes 4 code.toNat).length [] =
      .ok (s1.elim [] Subtype.val) := by
    refine getString_ok _ (strBytes s2) s1 hdatasz htail ?_
    rintro rfl
    cases s2 with
    | none => rfl
    | some s2 => cases h rfl
  rw [leBytes_length] at hfirst
  have hgetFirst : getFirst r' (some []) = .ok (some (s1.elim [] Subtype.val)) := by
    rw [getFirst, hfirst]
    rfl
  have hcode : BitVec.ofNat 32 (leNat ((r'.data.getD []).take 4)) = code := by
    rw [htail, message, List.append_assoc, List.append_assoc,
      List.take_left' (leBytes_length 4 _), leNat_leBytes code.isLt]
    exact BitVec.ofNat_toNat _ _
  rw [codecGet, hr']
  simp only [bufOk_bind, hgetFirst, getSecond_ok h hdatasz htail, hcode]
  rfl

theorem delivers_of_stores {c : SDbt} (hs : c.Stores ⟨[], data, none⟩) (hget : ∀ r : Dbt, get r = do
      let d ← r.copy c
      return (d, .ok)) : Delivers get data := by
  intro r b hb
  have hkey : copyField true r.key c.key c.keysz = .ok r.key := by
    rw [hs.keysz]
    exact if_neg (lt_irrefl _)
  have htime : copyTime r.atime c.atime = .ok r.atime := by
    rw [hs.atime]
    rfl
  split
  · next hle =>
    obtain ⟨dst, hdst, hfield⟩ := @copyField_ok false r.data data
      fun _ => ⟨b, hb, hle⟩
    refine ⟨⟨c.keysz, c.datasz, r.key, dst, r.atime⟩, ?_, hs.datasz, hfield⟩
    rw [hget, Dbt.copy, hkey, hs.data, hs.datasz]
    simp only [bufOk_bind, hdst, htime]
    rfl
  · next hgt =>
    have hne : data ≠ [] := fun hnil => hgt (by rw [hnil]; exact Nat.zero_le _)
    have hpos : (0 : Int) < data.length := by
      omega
    have hdst : copyField false r.data c.data c.datasz = .error .overflow := by
      rw [hs.data, hs.datasz, part, if_neg hne, hb]
      unfold copyField
      rw [if_pos hpos]
      simp only [Int.toNat_natCast, memcpy]
      rw [if_neg (fun h => hgt h.2)]
      rfl
    rw [hget, Dbt.copy, hkey]
    simp only [bufOk_bind, hdst]
    rfl

def received (code : BitVec 32) (s1 s2 : Option CStr) : Message :=
  ⟨code, some (s1.elim [] Subtype.val), some (s2.elim [] Subtype.val)⟩

/-- The message comes through an empty `sharedBuf`. -/
def SharedRoundTrip (s : SharedBuf) (m : Mallocs) (junk : Nat → Byte) (code code' : BitVec 32)
    (s1 s2 : Option CStr) : Prop :=
  ∃ d s' locks, codecPut junk code s1 s2 = .ok d ∧ s.put m d = .ok (s', .ok, locks) ∧
    codecGet s'.get junk ⟨code', some [], some []⟩ = .ok (received code s1 s2, .ok)

/-- The message comes through an empty `commonBuf`. -/
def CommonRoundTrip (junk : Nat → Byte) (code code' : BitVec 32) (s1 s2 : Option CStr) : Prop :=
  ∃ d s', codecPut junk code s1 s2 = .ok d ∧ CommonBuf.put ⟨[]⟩ junk d = .ok s' ∧
    codecGet s'.get junk ⟨code', some [], some []⟩ = .ok (received code s1 s2, .ok)

theorem init_message (code : BitVec 32) (s1 s2 : Option CStr) {m : Mallocs} (hm : m.data = true) :
    ∃ c, SDbt.init m (some (message code s1 s2)) ((4 + strSize s1 + strSize s2 : Nat) : Int) none
      none 0 = .ok c ∧ c.Stores ⟨[], message code s1 s2, none⟩ ∧ c.next = .null := by
  have hfield : fieldOf (some (message code s1 s2)) ((4 + strSize s1 + strSize s2 : Nat) : Int) =
      message code s1 s2 := by
    rw [fieldOf, Option.getD_some, Int.toNat_natCast]
    exact List.take_of_length_le (by rw [message_length])
  have hinit := @init_ok m (some (message code s1 s2)) none
    ((4 + strSize s1 + strSize s2 : Nat) : Int) 0 none (by rw [FieldOk, hfield, message_length]) rfl
    ⟨absurd rfl, fun _ => hm, fun h => by cases h⟩
  rw [hfield] at hinit
  exact hinit

theorem shared_delivers (junk : Nat → Byte) (code : BitVec 32) (s1 s2 : Option CStr)
    {s : SharedBuf} (hs : s.Holds []) {m : Mallocs} (hnode : m.node.isSome)
    (hm : m.data = true) :
    ∃ s' locks, s.put m { cDbt junk (4 + strSize s1 + strSize s2) with
      data := some (message code s1 s2) } = .ok (s', .ok, locks) ∧
      Delivers s'.get (message code s1 s2) := by
  obtain ⟨p, hp⟩ := Option.isSome_iff_exists.mp hnode
  obtain ⟨s', locks, hput, hs'⟩ := SharedBuf.putNode_holds hs ⟨[], message code s1 s2, none⟩
    m.node _ fun _ _ => ⟨List.not_mem_nil, init_message code s1 s2 hm⟩
  rw [hp] at hput hs'
  obtain ⟨c, hderef, hstores, -⟩ := SharedBuf.deref_head hs'
  refine ⟨s', locks, ?_, delivers_of_stores hstores fun r => ?_⟩
  · rw [SharedBuf.put, hp]
    exact hput
  · have hempty := SharedBuf.empty_of_cons hs'
    rw [SharedBuf.get, if_neg (by rw [hempty]; exact Bool.false_ne_true), hderef]
    rfl

theorem common_delivers (junk : Nat → Byte) (code : BitVec 32) (s1 s2 : Option CStr) :
    ∃ s', CommonBuf.put ⟨[]⟩ junk { cDbt junk (4 + strSize s1 + strSize s2) with
      data := some (message code s1 s2) } = .ok s' ∧ Delivers s'.get (message code s1 s2) := by
  obtain ⟨c, hinit, hstores, -⟩ :=
    init_message code s1 s2 (m := ⟨none, true, true, true, junk⟩) rfl
  refine ⟨⟨[c]⟩, ?_, delivers_of_stores hstores fun r => rfl⟩
  simp only [CommonBuf.put, cDbt, hinit, bufOk_bind]
  rfl

theorem codecGet_overflow (hget : Delivers get data) (hsize : maxStrLen < data.length) (r : Message) :
    codecGet get junk r = .error .overflow := by
  rw [codecGet, hget.overflow junk hsize]
  rfl

/-- A message comes through either buffer unless the second string is there without the first, or
it is longer than the buffer of `get`. -/
theorem codec_roundTrip_iff (junk : Nat → Byte) (code code' : BitVec 32) (s1 s2 : Option CStr) :
    (∀ (s : SharedBuf) (m : Mallocs), s.Holds [] → m.node.isSome → m.data = true →
      (SharedRoundTrip s m junk code code' s1 s2 ↔
        (s2.isSome → s1.isSome) ∧ 4 + strSize s1 + strSize s2 ≤ maxStrLen)) ∧
    (CommonRoundTrip junk code code' s1 s2 ↔
      (s2.isSome → s1.isSome) ∧ 4 + strSize s1 + strSize s2 ≤ maxStrLen) := by
  have hput : ∀ d, codecPut junk code s1 s2 = .ok d → (s2.isSome → s1.isSome) ∧
      d = { cDbt junk (4 + strSize s1 + strSize s2) with data := some (message code s1 s2) } := by
    intro d hd
    have hpresent : s2.isSome → s1.isSome := by
      intro h2
      obtain ⟨s2, rfl⟩ := Option.isSome_iff_exists.mp h2
      cases s1 with
      | some s1 => rfl
      | none =>
        rw [codecPut_null] at hd
        cases hd
    rw [codecPut_ok hpresent] at hd
    exact ⟨hpresent, (Except.ok.inj hd).symm⟩
  have hfit : ∀ get, Delivers get (message code s1 s2) →
      codecGet get junk ⟨code', some [], some []⟩ = .ok (received code s1 s2, .ok) →
      4 + strSize s1 + strSize s2 ≤ maxStrLen := by
    intro get hget hr
    by_contra hlong
    rw [codecGet_overflow hget (by rw [message_length]; omega)] at hr
    cases hr
  constructor
  · intro s m hs hnode hm
    obtain ⟨s', locks, hs', hget⟩ := shared_delivers junk code s1 s2 hs hnode hm
    constructor
    · rintro ⟨d, s'', locks', hd, hput', hr⟩
      obtain ⟨hpresent, rfl⟩ := hput d hd
      rw [hs'] at hput'
      cases hput'
      exact ⟨hpresent, hfit _ hget hr⟩
    · rintro ⟨hpresent, hsize⟩
      exact ⟨_, s', locks, codecPut_ok hpresent, hs', codecGet_ok hget hpresent hsize code'⟩
  · obtain ⟨s', hs', hget⟩ := common_delivers junk code s1 s2
    constructor
    · rintro ⟨d, s'', hd, hput', hr⟩
      obtain ⟨hpresent, rfl⟩ := hput d hd
      rw [hs'] at hput'
      cases hput'
      exact ⟨hpresent, hfit _ hget hr⟩
    · rintro ⟨hpresent, hsize⟩
      exact ⟨_, s', codecPut_ok hpresent, hs', codecGet_ok hget hpresent hsize code'⟩

/-- A new buffer, and memory. -/
theorem codec_roundTrip_two : SharedRoundTrip newSharedBuf (mallocAt 8) (fun _ => 0) 3 0
    (some ⟨[65], by decide⟩) (some ⟨[], by decide⟩) :=
  ((codec_roundTrip_iff (fun _ => 0) 3 0 (some ⟨[65], by decide⟩) (some ⟨[], by decide⟩)).1
    newSharedBuf (mallocAt 8) newSharedBuf_holds rfl rfl).mpr ⟨fun _ => rfl, by decide⟩

/-- Only the second string. -/
theorem second_without_first : ¬CommonRoundTrip (fun _ => 0) 3 0 none (some ⟨[65], by decide⟩) := by
  rintro ⟨d, s', hd, -⟩
  rw [codecPut_null] at hd
  cases hd

end StreamMill.Buf
