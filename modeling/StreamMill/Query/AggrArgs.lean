import StreamMill.Types.Heap
import StreamMill.ImDb.Hash
import StreamMill.Lib.Extent

/-!
# StreamMill.Query.AggrArgs

The arguments of an aggregate over a window (`aggr_info.cc`). The generator emits the code that
packs them into the record of a tuple, and the code that takes them out again when the tuple
expires; both walk the list and count the offset for themselves. `aggrState_roundTrip`: they use the
same ranges, these share no byte and leave none out, and what is taken out is what has been put in.
-/

namespace StreamMill.Query
namespace AggrArgs

open Lib Lib.Memory
open ImDb (Byte)
open StreamMill.Types (Kind)

/-- `T_expty`, of a translated argument. -/
structure ExpTy where
  exp : String
  kind : Kind
  size : Nat

structure CSizes where
  int : Nat
  double : Nat
  timeval : Nat
  iExt : Nat
  rExt : Nat
  cExt : Nat
  tExt : Nat

/-- A `memcpy` of `size` bytes between the variable `exp`, or the one of an expired tuple, and the
buffer at `offset`. -/
structure Copy where
  offset : Nat
  exp : String
  size : Nat
  deriving DecidableEq

inductive Err
  | datatype
  deriving DecidableEq

section Code

variable (c : CSizes)

/-- `memcpy(&(exp_expire), (char*)source+size, n)`. It returns the code and the size. -/
def genGetCode (ae : ExpTy) (code : List Copy) (size : Nat) : Except Err (List Copy × Nat) :=
  let emit (n : Nat) : Except Err (List Copy × Nat) := .ok (code ++ [⟨size, ae.exp, n⟩], size + n)
  match ae.kind with
  | .int => emit c.int
  | .ref => emit c.int
  | .real => emit c.double
  | .timestamp => emit c.timeval
  | .string => emit ae.size
  | .iext => emit c.iExt
  | .rext => emit c.rExt
  | .cext => emit c.cExt
  | .text => emit c.tExt
  | _ => .error .datatype

/-- `memcpy(target+size, &(exp), n)` -/
def genComposeCode (ae : ExpTy) (code : List Copy) (size : Nat) : Except Err (List Copy × Nat) :=
  let emit (n : Nat) : Except Err (List Copy × Nat) := .ok (code ++ [⟨size, ae.exp, n⟩], size + n)
  match ae.kind with
  | .int => emit c.int
  | .ref => emit c.int
  | .real => emit c.double
  | .timestamp => emit c.timeval
  | .iext => emit c.iExt
  | .rext => emit c.rExt
  | .cext => emit c.cExt
  | .text => emit c.tExt
  | .string => emit ae.size
  | _ => .error .datatype

structure AggrInfo where
  winkeyCode : List Copy
  winkeySize : Nat
  windataCode : List Copy
  windataSize : Nat
  expireCode : List Copy

def transKeys : List ExpTy → AggrInfo → Except Err AggrInfo
  | [], info => .ok info
  | ae :: keys, info => do
    let (winkeyCode, winkeySize) ← genComposeCode c ae info.winkeyCode info.winkeySize
    transKeys keys { info with winkeyCode := winkeyCode, winkeySize := winkeySize }

def transArgs : List ExpTy → AggrInfo → Nat → Except Err (AggrInfo × Nat)
  | [], info, ei => .ok (info, ei)
  | ae :: args, info, ei => do
    let (windataCode, windataSize) ← genComposeCode c ae info.windataCode info.windataSize
    let (expireCode, ei) ← genGetCode c ae info.expireCode ei
    transArgs args { info with windataCode, windataSize, expireCode } ei

/-- `transAggrArgs`, with a window. The code of the partition key is emptied again before the
arguments. -/
def transAggrArgs (keys args : List ExpTy) : Except Err (AggrInfo × Nat) := do
  let info ← transKeys c keys ⟨[], 0, [], 0, []⟩
  transArgs c args
    { info with winkeyCode := [], windataCode := [], windataSize := 0, expireCode := [] } 0

end Code

abbrev Env := String → Memory Byte

def expire (exp : String) : String := exp ++ "_expire"

/-- `windataCode` -/
def compose (env : Env) : List Copy → Memory Byte → Memory Byte
  | [], buf => buf
  | p :: ps, buf => compose env ps (buf.store p.offset (load (env p.exp) 0 p.size))

/-- `expireCode`, with `data` in the record. -/
def get (data : Memory Byte) : List Copy → Env → Env
  | [], env => env
  | p :: ps, env =>
    get data ps (Function.update env (expire p.exp)
      ((env (expire p.exp)).store 0 (load data p.offset p.size)))

/-- The ranges share no byte, and cover the first `n` bytes. -/
structure Tiles (code : List Copy) (n : Nat) : Prop where
  apart : code.Pairwise fun p q => Apart p.offset p.size q.offset q.size
  cover : ∀ i, i < n ↔ ∃ p ∈ code, Within p.offset p.size i

def coded : Kind → Bool
  | .int | .ref | .real | .timestamp | .string | .iext | .rext | .cext | .text => true
  | _ => false

section Generated

variable {c : CSizes} {ae : ExpTy} {args : List ExpTy} {off : Nat}

def width (c : CSizes) (ae : ExpTy) : Nat :=
  match ae.kind with
  | .real => c.double
  | .timestamp => c.timeval
  | .string => ae.size
  | .iext => c.iExt
  | .rext => c.rExt
  | .cext => c.cExt
  | .text => c.tExt
  | _ => c.int

def layout (c : CSizes) : Nat → List ExpTy → List Copy
  | _, [] => []
  | off, ae :: args => ⟨off, ae.exp, width c ae⟩ :: layout c (off + width c ae) args

def total (c : CSizes) (args : List ExpTy) : Nat := (args.map (width c)).sum

theorem genGetCode_ok (hk : coded ae.kind = true) (code : List Copy) (size : Nat) :
    genGetCode c ae code size = .ok (code ++ [⟨size, ae.exp, width c ae⟩], size + width c ae) := by
  rw [genGetCode, width]
  cases hae : ae.kind <;> rw [hae] at hk <;> first | rfl | exact absurd hk (by decide)

theorem genComposeCode_ok (hk : coded ae.kind = true) (code : List Copy) (size : Nat) :
    genComposeCode c ae code size =
      .ok (code ++ [⟨size, ae.exp, width c ae⟩], size + width c ae) := by
  rw [genComposeCode, width]
  cases hae : ae.kind <;> rw [hae] at hk <;> first | rfl | exact absurd hk (by decide)

theorem transKeys_ok {keys : List ExpTy} (hkeys : ∀ ae ∈ keys, coded ae.kind = true)
    (info : AggrInfo) : ∃ info', transKeys c keys info = .ok info' := by
  induction keys generalizing info with
  | nil => exact ⟨info, rfl⟩
  | cons ae keys ih =>
    rw [List.forall_mem_cons] at hkeys
    rw [transKeys, genComposeCode_ok hkeys.1]
    exact ih hkeys.2 _

theorem transArgs_ok (hargs : ∀ ae ∈ args, coded ae.kind = true) (info : AggrInfo) (ei : Nat) :
    transArgs c args info ei = .ok ({ info with
      windataCode := info.windataCode ++ layout c info.windataSize args
      windataSize := info.windataSize + total c args
      expireCode := info.expireCode ++ layout c ei args }, ei + total c args) := by
  induction args generalizing info ei with
  | nil => simp [transArgs, layout, total]
  | cons ae args ih =>
    rw [List.forall_mem_cons] at hargs
    have hstep : transArgs c (ae :: args) info ei = transArgs c args { info with
        windataCode := info.windataCode ++ [⟨info.windataSize, ae.exp, width c ae⟩]
        windataSize := info.windataSize + width c ae
        expireCode := info.expireCode ++ [⟨ei, ae.exp, width c ae⟩] } (ei + width c ae) := by
      rw [transArgs, genComposeCode_ok hargs.1, genGetCode_ok hargs.1]
      rfl
    rw [hstep, ih hargs.2]
    simp [layout, total, List.map_cons, List.sum_cons, List.append_assoc,
      Nat.add_assoc]

theorem layout_fields (c : CSizes) (off : Nat) (args : List ExpTy) :
    (layout c off args).map (fun p => (p.exp, p.size)) =
      args.map fun ae => (ae.exp, width c ae) := by
  induction args generalizing off with
  | nil => rfl
  | cons ae args ih => rw [layout, List.map_cons, List.map_cons, ih]

theorem layout_within {p : Copy} (hp : p ∈ layout c off args) :
    off ≤ p.offset ∧ p.offset + p.size ≤ off + total c args := by
  induction args generalizing off with
  | nil => cases hp
  | cons ae args ih =>
    rw [total, List.map_cons, List.sum_cons]
    rcases List.mem_cons.mp hp with rfl | hp
    · exact ⟨le_refl _, by dsimp only; omega⟩
    · have hrest := ih hp
      rw [total] at hrest
      omega

theorem layout_apart (c : CSizes) (off : Nat) (args : List ExpTy) :
    (layout c off args).Pairwise fun p q => Apart p.offset p.size q.offset q.size := by
  induction args generalizing off with
  | nil => exact .nil
  | cons ae args ih => exact .cons (fun q hq => .inl (layout_within hq).1) (ih _)

theorem layout_cover (c : CSizes) (off : Nat) (args : List ExpTy) (i : Nat) :
    (off ≤ i ∧ i < off + total c args) ↔
      ∃ p ∈ layout c off args, Within p.offset p.size i := by
  induction args generalizing off with
  | nil => simp [layout, total]
  | cons ae args ih =>
    have hsum : total c (ae :: args) = width c ae + total c args := by
      rw [total, total, List.map_cons, List.sum_cons]
    rw [layout, List.exists_mem_cons_iff, ← ih, Within]
    dsimp only
    omega

theorem layout_tiles (c : CSizes) (args : List ExpTy) :
    Tiles (layout c 0 args) (total c args) := by
  refine ⟨layout_apart c 0 args, fun i => ?_⟩
  rw [← layout_cover]
  omega

end Generated

section Runs

variable {c : CSizes} {args : List ExpTy} {off : Nat} {env env' : Env} {buf data : Memory Byte}

theorem compose_below {code : List Copy} {i : Nat} (hcode : ∀ p ∈ code, i < p.offset) :
    compose env code buf i = buf i := by
  induction code generalizing buf with
  | nil => rfl
  | cons p code ih =>
    rw [List.forall_mem_cons] at hcode
    rw [compose, ih hcode.2, store_outside (.inl hcode.1)]

theorem compose_layout {p : Copy} (hp : p ∈ layout c off args) :
    load (compose env (layout c off args) buf) p.offset p.size = load (env p.exp) 0 p.size := by
  induction args generalizing off buf with
  | nil => cases hp
  | cons ae args ih =>
    rcases List.mem_cons.mp hp with rfl | hp
    · -- what follows is stored behind the range
      have hkept : ∀ i, off ≤ i → i < off + width c ae →
          compose env (layout c (off + width c ae) args)
            (buf.store off (load (env ae.exp) 0 (width c ae))) i =
          buf.store off (load (env ae.exp) 0 (width c ae)) i := fun i _ hi =>
        compose_below fun p hp => lt_of_lt_of_le hi (layout_within hp).1
      have hsame := load_store_same buf off (load (env ae.exp) 0 (width c ae))
      rw [load_length] at hsame
      exact (load_congr hkept).trans hsame
    · exact ih hp

theorem expire_injective : Function.Injective expire := by
  intro s s' hs
  exact (String.append_left_inj _).mp hs

theorem get_kept {code : List Copy} {exp : String} {k : Nat}
    (hdata : ∀ p ∈ code, load data p.offset p.size = load (env p.exp) 0 p.size)
    (hk : env' (expire exp) k = env exp k) : get data code env' (expire exp) k = env exp k := by
  induction code generalizing env' with
  | nil => exact hk
  | cons p code ih =>
    rw [List.forall_mem_cons] at hdata
    refine ih hdata.2 ?_
    by_cases hexp : exp = p.exp
    · subst hexp
      rw [Function.update_self, hdata.1]
      by_cases hlt : k < p.size
      · refine store_inside (Nat.zero_le k) ?_
        rw [Nat.sub_zero, load_getElem? _ hlt, Nat.zero_add]
      · rw [store_outside (.inr (by rw [load_length]; omega))]
        exact hk
    · rw [Function.update_of_ne fun hno => hexp (expire_injective hno)]
      exact hk

theorem get_expired {code : List Copy} {p : Copy}
    (hdata : ∀ p ∈ code, load data p.offset p.size = load (env p.exp) 0 p.size) (hp : p ∈ code) :
    load (get data code env' (expire p.exp)) 0 p.size = load (env p.exp) 0 p.size := by
  refine load_congr fun k _ hk => ?_
  rw [Nat.zero_add] at hk
  induction code generalizing env' with
  | nil => cases hp
  | cons q code ih =>
    rw [List.forall_mem_cons] at hdata
    rw [get]
    rcases List.mem_cons.mp hp with rfl | hp
    · refine get_kept hdata.2 ?_
      rw [Function.update_self, hdata.1]
      refine store_inside (Nat.zero_le k) ?_
      rw [Nat.sub_zero, load_getElem? _ hk, Nat.zero_add]
    · exact ih hdata.2 hp

end Runs

/-- What one part of the generated code packs, the other takes out again, whatever happens in
between to the variables and to the buffer behind the record. -/
theorem aggrState_roundTrip (c : CSizes) (keys args : List ExpTy)
    (hkeys : ∀ ae ∈ keys, coded ae.kind = true) (hargs : ∀ ae ∈ args, coded ae.kind = true) :
    ∃ info ei, transAggrArgs c keys args = .ok (info, ei) ∧ ei = info.windataSize ∧
      info.expireCode = info.windataCode ∧
      info.windataCode.map (fun p => (p.exp, p.size)) = args.map (fun ae => (ae.exp, width c ae)) ∧
      Tiles info.windataCode info.windataSize ∧
      ∀ (env env' : Env) (buf data : Memory Byte),
        load data 0 info.windataSize = load (compose env info.windataCode buf) 0 info.windataSize →
        ∀ p ∈ info.expireCode, load (get data info.expireCode env' (expire p.exp)) 0 p.size =
          load (env p.exp) 0 p.size := by
  obtain ⟨info, hinfo⟩ := transKeys_ok (c := c) hkeys ⟨[], 0, [], 0, []⟩
  have hrun := transArgs_ok (c := c) hargs
    { info with winkeyCode := [], windataCode := [], windataSize := 0, expireCode := [] } 0
  simp only [List.nil_append, Nat.zero_add] at hrun
  refine ⟨{ info with
      winkeyCode := []
      windataCode := layout c 0 args
      windataSize := total c args
      expireCode := layout c 0 args }, total c args, ?_, rfl, rfl, layout_fields c 0 args,
    layout_tiles c args, ?_⟩
  · rw [transAggrArgs, hinfo]
    exact hrun
  · intro env env' buf data hdata p hp
    refine get_expired (fun q hq => ?_) hp
    -- the range of the field is part of the record
    have hmade : load (compose env (layout c 0 args) buf) q.offset q.size =
        load (env q.exp) 0 q.size := compose_layout hq
    rw [← hmade]
    obtain ⟨-, hend⟩ := layout_within hq
    rw [Nat.zero_add] at hend
    refine load_congr fun i _ hi => ?_
    have hbyte := congrArg (fun bs => bs[i]?) hdata
    dsimp only at hbyte
    rwa [load_getElem? _ (by omega), load_getElem? _ (by omega), Option.some.injEq, Nat.zero_add]
      at hbyte

/-- An `int`, a `char(5)` and a timestamp take 25 bytes. -/
theorem aggrState_roundTrip_three : ∃ info,
    transAggrArgs ⟨4, 8, 16, 16, 16, 16, 16⟩ []
      [⟨"id", .int, 4⟩, ⟨"name", .string, 5⟩, ⟨"ts", .timestamp, 16⟩] = .ok (info, 25) ∧
      info.windataSize = 25 ∧ Tiles info.windataCode 25 := by
  obtain ⟨info, ei, hrun, hei, -, -, htiles, -⟩ := aggrState_roundTrip ⟨4, 8, 16, 16, 16, 16, 16⟩ []
    [⟨"id", .int, 4⟩, ⟨"name", .string, 5⟩, ⟨"ts", .timestamp, 16⟩] (by decide) (by decide)
  have hsize : ei = 25 := (Prod.mk.inj (Except.ok.inj hrun)).2.symm
  rw [hsize] at hrun hei
  rw [← hei] at htiles
  exact ⟨info, hrun, hei.symm, htiles⟩

end AggrArgs
end StreamMill.Query
