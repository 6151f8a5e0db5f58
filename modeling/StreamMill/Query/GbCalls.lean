import StreamMill.Query.GbRun

/-!
# StreamMill.Query.GbCalls

What the calls of a run return. `gethashhandle` remembers the first deleted slot that it passes
and never uses it: without an empty slot it comes back to the home of the pair, whoever has it.
`hashgb_delete` leaves the cursor in the slot, where the next pair finds it.
-/

namespace StreamMill.Query
namespace GbHash

open Lib
open ImDb (Byte Key Addr Tuple)

section

variable {size : Int → Nat} {blank : ∀ n, Addr → Tuple n Word} {t t' : GbTable} {p q : Pair}
  {cs : List (Call size)} {c : Call size} {a : Answer} {h : Nat}

def Call.NewKey (cs : List (Call size)) : Call size → Prop
  | .put p key _ => stored p key.val cs = none
  | _ => True

def Safe (cs : List (Call size)) (t : GbTable) (c : Call size) : Prop :=
  Fits t c.pair ∧ c.NewKey cs

abbrev KeptBy (cs : List (Call size)) (t : GbTable) : Prop :=
  Kept size t (· ∈ livePairs cs) (contents · cs) (pos · cs)

theorem gethashhandle_frame {t₁ : GbTable} (hget : gethashhandle size blank p t = .ok (h, t₁)) :
    (∀ h' ≠ h, t₁.slot h' = t.slot h') ∧ (∀ c, (t₁.slot h).ac = some c → (t.slot h).ac = some c) ∧
    ∀ r < t.relCount, t₁.rels r = t.rels r := by
  rw [gethashhandle] at hget
  split at hget
  · cases hget
  · split at hget
    · cases hget
      exact ⟨fun _ _ => rfl, fun _ hc => hc, fun _ _ => rfl⟩
    · cases hget
      refine ⟨install_slot_ne, fun c hc => ?_, fun r hr =>
        Function.update_of_ne (Nat.ne_of_lt hr) ..⟩
      rwa [install_slot] at hc

theorem run_frame (hrun : c.run size blank t = .ok (t', a)) :
    ∃ h t₁, gethashhandle size blank c.pair t = .ok (h, t₁) ∧
      (∀ h' ≠ h, t'.slot h' = t.slot h') ∧ ((∀ q, c ≠ .delete q) → t'.pairAt h = t₁.pairAt h) := by
  cases c with
  | handle p =>
    obtain ⟨⟨h, t₁⟩, hget, hrun⟩ := map_eq_ok hrun
    cases hrun
    exact ⟨h, t₁, hget, (gethashhandle_frame hget).1, fun _ => rfl⟩
  | put p key data =>
    obtain ⟨t₂, hput, hrun⟩ := map_eq_ok hrun
    cases hrun
    obtain ⟨⟨h, t₁⟩, hget, hput⟩ := bind_eq_ok hput
    obtain ⟨⟨r, s⟩, -, hput⟩ := bind_eq_ok hput
    obtain ⟨s', -, hput⟩ := bind_eq_ok hput
    cases hput
    exact ⟨h, t₁, hget, (gethashhandle_frame hget).1, fun _ => rfl⟩
  | get p key =>
    obtain ⟨⟨t₂, d⟩, hg, hrun⟩ := map_eq_ok hrun
    cases hrun
    obtain ⟨⟨h, t₁⟩, hget, hg⟩ := bind_eq_ok hg
    obtain ⟨⟨r, s⟩, -, hg⟩ := bind_eq_ok hg
    obtain ⟨⟨s', d'⟩, -, hg⟩ := bind_eq_ok hg
    cases hg
    exact ⟨h, t₁, hget, (gethashhandle_frame hget).1, fun _ => rfl⟩
  | next p =>
    obtain ⟨⟨t₂, d⟩, hg, hrun⟩ := map_eq_ok hrun
    cases hrun
    obtain ⟨⟨h, t₁⟩, hget, hg⟩ := bind_eq_ok hg
    obtain ⟨⟨c, flag⟩, -, hg⟩ := bind_eq_ok hg
    obtain ⟨⟨r, s⟩, -, hg⟩ := bind_eq_ok hg
    obtain ⟨⟨s', cursor, found⟩, -, hg⟩ := bind_eq_ok hg
    have hset (ac : Option RelCursor) : (∀ h' ≠ h, ((t₁.setRel r _ s').setAc h ac).slot h' =
        t.slot h') ∧ ((t₁.setRel r _ s').setAc h ac).pairAt h = t₁.pairAt h := by
      refine ⟨fun h' hne => (Function.update_of_ne hne ..).trans
        ((gethashhandle_frame hget).1 h' hne), ?_⟩
      simp [GbTable.pairAt, GbTable.setAc, GbTable.setRel]
    cases found with
    | none =>
      cases hg
      exact ⟨h, t₁, hget, (hset none).1, fun _ => (hset none).2⟩
    | some x =>
      cases hg
      exact ⟨h, t₁, hget, (hset _).1, fun _ => (hset _).2⟩
  | delete p =>
    obtain ⟨t₂, hdel, hrun⟩ := map_eq_ok hrun
    cases hrun
    obtain ⟨⟨h, t₁⟩, hget, hdel⟩ := bind_eq_ok hdel
    obtain ⟨⟨r, s⟩, -, hdel⟩ := bind_eq_ok hdel
    cases hdel
    exact ⟨h, t₁, hget, fun h' hne => (Function.update_of_ne hne ..).trans
      ((gethashhandle_frame hget).1 h' hne), fun hc => absurd rfl (hc p)⟩

theorem fresh_of_next {live : Pair → Prop} {C : Pair → List (List Byte × Word)}
    {P : Pair → Option Nat} {x : GbTable × Option (List Byte × Word)}
    (hk : Kept size t live C P) (hfit : Fits t p) (hdead : ¬live p → C p = [] ∧ P p = none)
    (hnext : hashGetNext size blank p t = .ok x) : ¬Stale t p := by
  rintro ⟨h', hh', htaken, c, hc, hne⟩
  obtain ⟨h, t₁, hget, hh, ho, hk₁, hsame, hnew, -⟩ :=
    gethashhandle_ok blank hk hfit hdead
  obtain ⟨r, l, hdb, -, -, -, hat⟩ := ho ▸ hk₁.group h hh (.inl ho)
  have hown : h' = h ∧ (t₁.slot h).ac = some c ∧ c.rel ≠ r := by
    rcases htaken with howns | ⟨rfl, hreuse⟩
    · have hp : live p := hk.seats.live_of_pairAt hfit.1 hh' (owns_iff.mp howns)
      obtain rfl := hsame hp
      obtain rfl := hk.seats.unique p hp h' hh' h hh (owns_iff.mp howns) ho
      exact ⟨rfl, hc, fun heq => hne (by rw [hdb, heq])⟩
    · have hp : ¬live p := by
        intro hp
        obtain ⟨h₀, hh₀, ho₀, -⟩ := probe_own hk.seats hp
        exact (hreuse.full h₀ hh₀).1 (owns_iff.mpr ho₀)
      obtain ⟨hseat, hac⟩ := hnew hp
      have hhome : h = (home p).toNat :=
        hseat.free.elim (fun he => absurd he (hreuse.full h hh).2) And.left
      subst hhome
      refine ⟨rfl, hac.trans hc, ?_⟩
      have hv := hk.vacant _ hh' fun hl => hseat.not_named (hk.seats.named _ hl)
      have hlt := (hv.ac c hc).2.1
      rintro rfl
      rw [gethashhandle, if_neg (Int.not_lt.mpr hfit.1.home)] at hget
      split at hget
      · cases hget
        rw [hv.db] at hdb
        cases hdb
      · cases hget
        rw [install_slot] at hdb
        exact Nat.ne_of_lt hlt (Option.some.inj hdb).symm
  obtain ⟨rfl, hac, hrel⟩ := hown
  rw [hac] at hat
  have hclosed : t₁.rels c.rel = none := by
    generalize P p = i at hat
    cases hat with
    | on heq => exact absurd heq hrel
    | stale _ hnone => exact hnone
  have hfault : t₁.rel (size p.sid) (some c.rel) = .error .useAfterFree := by
    simp [GbTable.rel, hclosed]
  simp only [hashGetNext, hget, ok_bind, GbTable.cursorOf, hac, hfault] at hnext
  cases hnext

theorem Call.run_kept (hk : KeptBy cs t) (hsafe : Safe cs t c)
    (hrun : c.run size blank t = .ok (t', a)) : KeptBy (c :: cs) t' := by
  obtain ⟨hfit, hkey⟩ := hsafe
  have hdead (p : Pair) : p ∉ livePairs cs → contents p cs = [] ∧ pos p cs = none := dead
  cases c with
  | handle p =>
    have hfit : Fits t p := hfit
    obtain ⟨h, t₁, hget, -, -, hk₁, -⟩ := gethashhandle_ok blank hk hfit (hdead p)
    obtain ⟨⟨h', t₂⟩, hget', hrun⟩ := map_eq_ok hrun
    rw [hget] at hget'
    cases hget'
    cases hrun
    exact hk₁.congr (fun q => mem_livePairs fun _ => by simp) (fun _ _ => rfl) fun _ _ => rfl
  | put p key data =>
    have hfit : Fits t p := hfit
    obtain ⟨t₁, hput, hk₁⟩ := hashPut_ok blank hk hfit (hdead p) key data
      ((stored_eq p key.val cs).symm.trans hkey)
    obtain ⟨t₂, hput', hrun⟩ := map_eq_ok hrun
    rw [hput] at hput'
    cases hput'
    cases hrun
    refine hk₁.congr (fun q => mem_livePairs fun _ => by simp) (fun q _ => ?_) fun _ _ => rfl
    rw [contents]
    by_cases hq : p = q <;> simp [hq, eq_comm]
  | get p key =>
    have hfit : Fits t p := hfit
    obtain ⟨t₁, hg, hk₁⟩ := hashGet_ok blank hk hfit (hdead p) key
    obtain ⟨⟨t₂, d⟩, hg', hrun⟩ := map_eq_ok hrun
    rw [hg] at hg'
    cases hg'
    cases hrun
    exact hk₁.congr (fun q => mem_livePairs fun _ => by simp) (fun _ _ => rfl) fun _ _ => rfl
  | next p =>
    have hfit : Fits t p := hfit
    obtain ⟨⟨t₂, d⟩, hg', hrun⟩ := map_eq_ok hrun
    obtain ⟨t₁, hg, hk₁, -⟩ := hashGetNext_ok blank hk hfit (hdead p)
      (fresh_of_next hk hfit (hdead p) hg')
    rw [hg] at hg'
    cases hg'
    cases hrun
    refine hk₁.congr (fun q => mem_livePairs fun _ => by simp) (fun _ _ => rfl) fun q _ => ?_
    rw [pos, Function.update_apply]
    by_cases hq : p = q
    · subst hq
      simp
    · rw [if_neg hq, if_neg (Ne.symm hq)]
  | delete p =>
    have hfit : Fits t p := hfit
    obtain ⟨t₁, hdel, hk₁⟩ := hashgbDelete_ok blank hk hfit (hdead p)
    obtain ⟨t₂, hdel', hrun⟩ := map_eq_ok hrun
    rw [hdel] at hdel'
    cases hdel'
    cases hrun
    refine hk₁.congr (fun q => mem_livePairs_delete) (fun q hq => ?_) fun q hq => ?_
    · rw [contents, if_neg (Ne.symm hq.1)]
    · rw [pos, if_neg (Ne.symm hq.1)]

theorem run_kept (hrun : GbRun size blank Safe cs t) : KeptBy cs t := by
  induction hrun with
  | init => exact init_kept.congr (fun p => by simp [livePairs]) (fun _ _ => rfl) fun _ _ => rfl
  | step _ hsafe hcall ih => exact Call.run_kept ih hsafe hcall

structure CallRight (size : Int → Nat) (blank : ∀ n, Addr → Tuple n Word) (cs : List (Call size))
    (t : GbTable) (c : Call size) : Prop where
  slot : ∃ h t', gethashhandle size blank c.pair t = .ok (h, t') ∧ h < gbHashSize ∧
    (∀ q ∈ livePairs cs, q ≠ c.pair → ¬t.Owns h q) ∧ (c.pair ∈ livePairs cs → t' = t)
  returns : (∀ p, c ≠ .next p) → ∃ t' a, c.run size blank t = .ok (t', a)
  get : ∀ p key, c = .get p key →
    ∃ t', hashGet size blank p key t = .ok (t', stored p key.val cs)
  keeps : ∀ t' a, c.run size blank t = .ok (t', a) → ∀ q ∈ livePairs cs, c ≠ .delete q → ∀ h,
    gethashhandle size blank q t = .ok (h, t) → gethashhandle size blank q t' = .ok (h, t')

theorem gethashhandle_live {live : Pair → Prop} (hs : Seats t live) (hp : live p)
    (hh : h < gbHashSize) (ho : t.pairAt h = p) : gethashhandle size blank p t = .ok (h, t) := by
  obtain ⟨h', hh', ho', hprobe⟩ := probe_own hs hp
  rw [gethashhandle, if_neg (Int.not_lt.mpr (hs.named p hp).home), hprobe,
    hs.unique p hp h' hh' h hh ho' ho]

theorem slot_keeps (hk : KeptBy cs t) (hsafe : Safe cs t c)
    (hrun : c.run size blank t = .ok (t', a)) (hq : q ∈ livePairs cs) (hc : c ≠ .delete q)
    (hget : gethashhandle size blank q t = .ok (h, t)) :
    gethashhandle size blank q t' = .ok (h, t') := by
  have hk' := Call.run_kept hk hsafe hrun
  obtain ⟨h₀, hh₀, ho₀, -⟩ := probe_own hk.seats hq
  rw [gethashhandle_live hk.seats hq hh₀ ho₀] at hget
  obtain rfl : h₀ = h := congrArg Prod.fst (Except.ok.inj hget)
  have hq' : q ∈ livePairs (c :: cs) := by
    by_cases hdel : ∃ p, c = .delete p
    · obtain ⟨p, rfl⟩ := hdel
      exact mem_livePairs_delete.mpr ⟨fun heq => hc (by rw [heq]), hq⟩
    · exact (mem_livePairs fun p hp => hdel ⟨p, hp⟩).mpr (.inr hq)
  obtain ⟨h₁, t₁, hget₁, hother, hself⟩ := run_frame hrun
  obtain ⟨h₂, t₂, hget₂, hh₂, ho₂, -, hsame, hnew, -⟩ :=
    gethashhandle_ok blank hk hsafe.1 dead
  rw [hget₁] at hget₂
  cases hget₂
  refine gethashhandle_live hk'.seats hq' hh₀ ?_
  by_cases heq : h₀ = h₁
  · subst heq
    by_cases hp : c.pair ∈ livePairs cs
    · obtain rfl := hsame hp
      rw [hself fun p hp' => ?_, ho₀]
      rw [ho₀] at ho₂
      exact hc (by rw [ho₂, hp', Call.pair])
    · exact absurd (ho₀.symm ▸ hk.seats.named q hq) (hnew hp).1.not_named
  · rw [pairAt_congr (hother h₀ heq), ho₀]

/-- When every call finds a slot for its pair and no put is for a key that is there, the slots are
right and a get returns the last value put. -/
theorem handles_right (hrun : GbRun size blank Safe cs t) (hsafe : Safe cs t c) :
    CallRight size blank cs t c := by
  have hk := run_kept hrun
  obtain ⟨h, t₁, hget, hh, ho, -, hsame, hnew, -⟩ :=
    gethashhandle_ok blank hk hsafe.1 dead
  refine ⟨⟨h, t₁, hget, hh, fun q hq hne howns => ?_, hsame⟩, fun hnext => ?_,
    fun p key hc => ?_, fun t' a hcall q hq hc h hq' => slot_keeps hk hsafe hcall hq hc hq'⟩
  · by_cases hp : c.pair ∈ livePairs cs
    · obtain rfl := hsame hp
      exact hne ((owns_iff.mp howns).symm.trans ho)
    · exact (hnew hp).1.not_named ((owns_iff.mp howns).symm ▸ hk.seats.named q hq)
  · cases c with
    | handle p => exact ⟨t₁, .slot h, by rw [Call.run, show gethashhandle _ _ p t = _ from hget]; rfl⟩
    | put p key data =>
      obtain ⟨t', hput, -⟩ := hashPut_ok blank (p := p) hk hsafe.1 dead key data
        ((stored_eq p key.val cs).symm.trans hsafe.2)
      exact ⟨t', .done, by rw [Call.run, hput]; rfl⟩
    | get p key =>
      obtain ⟨t', hg, -⟩ := hashGet_ok blank (p := p) hk hsafe.1 dead key
      exact ⟨t', .data _, by rw [Call.run, hg]; rfl⟩
    | next p => exact absurd rfl (hnext p)
    | delete p =>
      obtain ⟨t', hdel, -⟩ := hashgbDelete_ok blank (p := p) hk hsafe.1 dead
      exact ⟨t', .done, by rw [Call.run, hdel]; rfl⟩
  · subst hc
    obtain ⟨t', hg, -⟩ := hashGet_ok blank (p := p) hk hsafe.1 dead key
    exact ⟨t', by rw [hg, stored_eq]⟩

def nextCall (size : Int → Nat) (blank : ∀ n, Addr → Tuple n Word) (p : Pair) (t : GbTable) :
    Option (Option (List Byte × Word) × GbTable) :=
  (hashGetNext size blank p t).toOption.map Prod.swap

theorem nextCall_eq {x : Option (List Byte × Word)}
    (hnext : hashGetNext size blank p t = .ok (t', x)) : nextCall size blank p t = some (x, t') := by
  rw [nextCall, hnext]
  rfl

structure IterRight (size : Int → Nat) (blank : ∀ n, Addr → Tuple n Word) (cs : List (Call size))
    (t : GbTable) (p : Pair) : Prop where
  once : ((contents p cs).map Prod.fst).Nodup
  next : ∃ t', hashGetNext size blank p t = .ok (t', (contents p cs)[start (pos p cs)]?)
  pass : ∃ t' t'',
    calls (nextCall size blank p) (((contents p cs).drop (start (pos p cs))).length + 1) t =
      some (((contents p cs).drop (start (pos p cs))).map some ++ [none], t') ∧
    calls (nextCall size blank p) ((contents p cs).length + 1) t' =
      some ((contents p cs).map some ++ [none], t'')

/-- An iteration over the pairs `D` that has `xs` still to return. -/
def Iterating (size : Int → Nat) (p : Pair) (D xs : List (List Byte × Word)) (t : GbTable) :
    Prop :=
  ∃ live C P, Kept size t live C P ∧ Fits t p ∧ (¬live p → C p = [] ∧ P p = none) ∧ ¬Stale t p ∧
    C p = D ∧ xs = D.drop (start (P p))

variable {D xs : List (List Byte × Word)}

variable (blank) in
theorem Iterating.step (hit : Iterating size p D xs t) :
    ∃ t', nextCall size blank p t = some (xs.head?, t') ∧
      Iterating size p D (if xs = [] then D else xs.tail) t' := by
  obtain ⟨live, C, P, hk, hfit, hdead, hfresh, rfl, rfl⟩ := hit
  obtain ⟨t', hnext, hk', hfit', hfresh'⟩ :=
    hashGetNext_ok blank hk hfit hdead hfresh
  refine ⟨t', ?_, _, C, _, hk', hfit', fun hn => absurd (.inl rfl) hn, hfresh', rfl, ?_⟩
  · rw [nextCall_eq hnext, List.head?_drop]
  · rw [Function.update_self]
    by_cases hlt : start (P p) < (C p).length
    · rw [if_pos hlt, if_neg (by simpa using hlt), List.tail_drop, start]
    · rw [if_neg hlt, if_pos (by simpa using hlt), start, List.drop_zero]

/-- Under the same conditions an iteration is right, when the cursor in the slot is of the pair's
own relation. -/
theorem iteration_right (hrun : GbRun size blank Safe cs t) (hfit : Fits t p)
    (hfresh : ¬Stale t p) : IterRight size blank cs t p := by
  have hk := run_kept hrun
  have hend : ∀ s, Iterating size p (contents p cs) [] s → ∃ s',
      nextCall size blank p s = some (none, s') ∧
        Iterating size p (contents p cs) (contents p cs) s' := fun s hs => hs.step blank
  have hnext : ∀ x xs s, Iterating size p (contents p cs) (x :: xs) s → ∃ s',
      nextCall size blank p s = some (some x, s') ∧ Iterating size p (contents p cs) xs s' :=
    fun x xs s hs => by simpa using hs.step blank
  obtain ⟨t₁, hpass, hit⟩ := calls_pass hend hnext _
    (⟨_, _, _, hk, hfit, dead, hfresh, rfl, rfl⟩ :
      Iterating size p (contents p cs) ((contents p cs).drop (start (pos p cs))) t)
  obtain ⟨t₂, hpass', -⟩ := calls_pass hend hnext _ hit
  obtain ⟨t', hstep, -⟩ := hashGetNext_ok blank hk hfit dead hfresh
  exact ⟨contents_nodup p cs, ⟨t', hstep⟩, t₁, t₂, hpass, hpass'⟩

def Few (cs : List (Call size)) (_ : GbTable) (c : Call size) : Prop :=
  (livePairs (c :: cs)).length ≤ gbHashSize

instance (cs : List (Call size)) (t : GbTable) (c : Call size) : Decidable (Few cs t c) :=
  inferInstanceAs (Decidable (_ ≤ _))

def replay (size : Int → Nat) (blank : ∀ n, Addr → Tuple n Word) :
    List (Call size) → Option GbTable
  | [] => some hashgbInit
  | c :: cs =>
    (replay size blank cs).bind fun t =>
      if Few cs t c then (c.run size blank t).toOption.map Prod.fst else none

theorem run_of_replay (h : replay size blank cs = some t) : GbRun size blank Few cs t := by
  induction cs generalizing t with
  | nil =>
    cases h
    exact .init
  | cons c cs ih =>
    obtain ⟨t₀, h₀, h⟩ := Option.bind_eq_some_iff.mp h
    split at h
    · next hfew =>
      cases hcall : c.run size blank t₀ with
      | error e =>
        rw [hcall] at h
        cases h
      | ok x =>
        rw [hcall] at h
        cases h
        exact .step (ih h₀) hfew hcall
    · cases h

end

def oneByte : Int → Nat := fun _ => 1

def zeroMem (n : Nat) : Addr → Tuple n Word :=
  fun _ => ⟨⟨List.replicate n 0, List.length_replicate⟩, 0, false, 0, 0, none⟩

def keyOne : Key (oneByte 0) := ⟨[1], rfl⟩

theorem onePut_run : ∃ t, GbRun oneByte zeroMem Safe [.put ⟨0, 3⟩ keyOne 7] t ∧
    Fits t ⟨0, 3⟩ ∧ ¬Stale t ⟨0, 3⟩ := by
  have hnamed : Named ⟨0, 3⟩ := ⟨by decide, by decide, by decide⟩
  have hsafe : Safe [] hashgbInit (.put ⟨0, 3⟩ keyOne 7 : Call oneByte) :=
    ⟨⟨hnamed, .inr (.inl ⟨0, by decide, rfl⟩)⟩, rfl⟩
  have hinit : GbRun oneByte zeroMem Safe [] hashgbInit := .init
  obtain ⟨t, hput, -⟩ := hashPut_ok zeroMem (p := ⟨0, 3⟩) (run_kept hinit) hsafe.1 dead
    keyOne 7 rfl
  have hcall : Call.run oneByte zeroMem (.put ⟨0, 3⟩ keyOne 7) hashgbInit = .ok (t, .done) := by
    rw [Call.run, hput]
    rfl
  have hrun := hinit.step hsafe hcall
  obtain ⟨h, hh, ho, -⟩ := probe_own (run_kept hrun).seats (List.mem_singleton.mpr rfl)
  refine ⟨t, hrun, ⟨hnamed, .inl ⟨h, hh, owns_iff.mpr ho⟩⟩, ?_⟩
  rintro ⟨h', -, -, c, hc, -⟩
  obtain ⟨⟨h₁, t₁⟩, hget, hput⟩ := bind_eq_ok hput
  obtain ⟨⟨r, s⟩, -, hput⟩ := bind_eq_ok hput
  obtain ⟨s', -, hput⟩ := bind_eq_ok hput
  cases hput
  obtain ⟨hother, hself, -⟩ := gethashhandle_frame hget
  by_cases heq : h' = h₁
  · cases hself c (heq ▸ hc)
  · have hc : (t₁.slot h').ac = some c := hc
    rw [hother h' heq] at hc
    cases hc

theorem handles_right_onePut : ∃ t, GbRun oneByte zeroMem Safe [.put ⟨0, 3⟩ keyOne 7] t ∧
    CallRight oneByte zeroMem [.put ⟨0, 3⟩ keyOne 7] t (.get ⟨0, 3⟩ keyOne) := by
  obtain ⟨t, hrun, hfit, -⟩ := onePut_run
  exact ⟨t, hrun, handles_right hrun ⟨hfit, trivial⟩⟩

theorem iteration_right_onePut : ∃ t, GbRun oneByte zeroMem Safe [.put ⟨0, 3⟩ keyOne 7] t ∧
    IterRight oneByte zeroMem [.put ⟨0, 3⟩ keyOne 7] t ⟨0, 3⟩ := by
  obtain ⟨t, hrun, hfit, hfresh⟩ := onePut_run
  exact ⟨t, hrun, iteration_right hrun hfit hfresh⟩

/-- Every slot but the one of `(0, i)` is used and deleted. -/
def deleteOthers (i : Nat) : List (Call oneByte) :=
  ((List.range gbHashSize).filter (· ≠ i)).map fun j => .delete ⟨0, j⟩

/-- The slot of `(0, 3)` goes to `(0, 112)`, though all others were deleted. -/
theorem homeTaken_not_callRight : ∃ cs t, GbRun oneByte zeroMem Few cs t ∧
    Few cs t (.handle ⟨0, 112⟩ : Call oneByte) ∧
    ¬CallRight oneByte zeroMem cs t (.handle ⟨0, 112⟩) := by
  have hcheck : ((replay oneByte zeroMem (deleteOthers 3 ++ [.handle ⟨0, 3⟩])).any fun t =>
      (gethashhandle oneByte zeroMem ⟨0, 112⟩ t).toOption.map Prod.fst = some 3 ∧
        t.Owns 3 ⟨0, 3⟩) = true := by
    decide +kernel
  obtain ⟨t, hreplay, ht⟩ := Option.any_eq_true .. |>.mp hcheck
  obtain ⟨hslot, howns⟩ := of_decide_eq_true ht
  refine ⟨_, t, run_of_replay hreplay, ?_, fun hright => ?_⟩
  · show (livePairs _).length ≤ gbHashSize
    decide +kernel
  obtain ⟨h, t', hget, -, hnone, -⟩ := hright.slot
  rw [show gethashhandle oneByte zeroMem ⟨0, 112⟩ t = _ from hget] at hslot
  cases hslot
  exact hnone ⟨0, 3⟩ (by decide +kernel) (by decide) howns

/-- An iteration is given up, and the pair gets its slot again with the cursor still in it. -/
theorem cursorLeft_not_iterRight : ∃ cs t, GbRun oneByte zeroMem Few cs t ∧
    Few cs t (.next ⟨0, 3⟩ : Call oneByte) ∧ ¬IterRight oneByte zeroMem cs t ⟨0, 3⟩ := by
  have hcheck : ((replay oneByte zeroMem (deleteOthers 3 ++
      [.delete ⟨0, 3⟩, .next ⟨0, 3⟩, .put ⟨0, 3⟩ keyOne 7])).any fun t =>
      (hashGetNext oneByte zeroMem ⟨0, 3⟩ t).toOption.isNone) = true := by
    decide +kernel
  obtain ⟨t, hreplay, ht⟩ := Option.any_eq_true .. |>.mp hcheck
  refine ⟨_, t, run_of_replay hreplay, ?_, fun hright => ?_⟩
  · show (livePairs _).length ≤ gbHashSize
    decide +kernel
  obtain ⟨t', hnext⟩ := hright.next
  rw [hnext] at ht
  cases ht

end GbHash
end StreamMill.Query
