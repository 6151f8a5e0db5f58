import StreamMill.Lib.RoundRobin
import StreamMill.Esl.Union

/-!
# StreamMill.Esl.TlUnion

The union of streams without time stamps, `utlStmt::exe_set_in` of `stmt.cc`. An execution puts a
copy of the front tuple of an input to the output and leaves the input in `in`; the caller pops
it. The comment of the source has the search start behind `in`; the code looks at `in` itself
first, so that an input is served again as long as it is not empty (`tlUnion_starves`,
`tlUnion_fair`).
-/

namespace StreamMill.Esl

open Lib

section Model

variable {β : Type} [DecidableEq β]

/-- `utlStmt`: the unions with and without time stamps have the fields of `uStmt`. -/
abbrev UtlStmt (β : Type) := UtStmt β

/-- The variables of the loop. An iterator is a place in the list, its length for `end()`. -/
structure TlLoop where
  itr : Nat
  itr2 : Nat
  inFound : Bool

/-- How the loop ends: at a buffer that is not empty, or with `itr` at `itr2`. -/
inductive TlEnd (β : Type)
  | found (b : β)
  | around (itr2 : Nat)
  deriving DecidableEq

/-- `itr++`, and from `end()` to `begin()`. -/
def TlLoop.advance (size : Nat) (s : TlLoop) : TlLoop :=
  { s with itr := if s.itr + 1 = size then 0 else s.itr + 1 }

/-- What a pass does before it looks at the buffer `b`; `none` for a buffer before `in`. -/
def TlLoop.start (u : UtlStmt β) (b : β) (s : TlLoop) : Option TlLoop :=
  match u.inBuf with
  | none => some { s with itr2 := if s.itr2 = u.unionBufs.length then 0 else s.itr2 }
  | some c =>
    if s.inFound then some s
    else if b = c then some { s with itr2 := s.itr, inFound := true }
    else none

def tlLoop (u : UtlStmt β) (σ : Store β) : Nat → TlLoop → Option (TlEnd β)
  | 0, _ => none
  | fuel + 1, s =>
    if s.itr = s.itr2 then some (.around s.itr2)
    else
      match u.unionBufs[s.itr]? with
      | none => none
      | some b =>
        match s.start u b with
        | none => tlLoop u σ fuel { s with itr := s.itr + 1 }
        | some s' =>
          if σ b = [] then tlLoop u σ fuel (s'.advance u.unionBufs.length)
          else some (.found b)

/-- `utlStmt::exe_set_in`; `tv` is what the tuple of the function held when it was allocated. -/
def UtlStmt.exeSetIn (tv : Scratch) (u : UtlStmt β) (σ : Store β) :
    Option (StmtRc × UtlStmt β × Store β) := do
  let stop ← tlLoop u σ (2 * u.unionBufs.length + 1)
    { itr := 0, itr2 := u.unionBufs.length, inFound := false }
  match stop with
  | .around itr2 =>
    let b ← u.unionBufs[itr2]?
    pure (.noInput, { u with inBuf := some b }, σ)
  | .found b =>
    let head ← (σ b).head?
    let d ← tv.copy head
    match u.out with
    | none => pure (.failure, u, σ)
    | some out => pure (.success, { u with inBuf := some b }, σ.put out d.dbt)

/-- A successful execution: `in` and the buffers when it starts, and the input it chooses. -/
structure TlExe (β : Type) where
  inBuf : Option β
  store : Store β
  chosen : β

inductive TlRun (u₀ : UtlStmt β) (σ₀ : Store β) :
    UtlStmt β → Store β → List (TlExe β) → Prop
  | start : TlRun u₀ σ₀ u₀ σ₀ []
  | arrive {u : UtlStmt β} {σ σ' : Store β} {es : List (TlExe β)} (new : β → List Dbt) :
      TlRun u₀ σ₀ u σ es → (∀ b ∈ u.unionBufs, σ' b = σ b ++ new b) → TlRun u₀ σ₀ u σ' es
  | success {u u' : UtlStmt β} {σ σ' : Store β} {es : List (TlExe β)} {b : β} (tv : Scratch) :
      TlRun u₀ σ₀ u σ es → UtlStmt.exeSetIn tv u σ = some (.success, u', σ') →
      u'.inBuf = some b →
      TlRun u₀ σ₀ u' (popIn u' σ') (es ++ [{ inBuf := u.inBuf, store := σ, chosen := b }])
  | stopped {u u' : UtlStmt β} {σ σ' : Store β} {es : List (TlExe β)} {rc : StmtRc}
      (tv : Scratch) :
      TlRun u₀ σ₀ u σ es → UtlStmt.exeSetIn tv u σ = some (rc, u', σ') → rc ≠ .success →
      TlRun u₀ σ₀ u' σ' es

end Model

def Store.ready {β : Type} (σ : Store β) (b : β) : Bool := !(σ b).isEmpty

@[simp] theorem ready_iff {β : Type} {σ : Store β} {b : β} : σ.ready b = true ↔ σ b ≠ [] := by
  simp [Store.ready]

theorem drop_rotate {β : Type} {xs : List β} {p k : Nat} (hk : k < xs.length) :
    ∃ b, xs[(p + k) % xs.length]? = some b ∧
      (xs.rotate p).drop k = b :: (xs.rotate p).drop (k + 1) := by
  have hlt : k < (xs.rotate p).length := by rwa [List.length_rotate]
  refine ⟨(xs.rotate p)[k], ?_, List.drop_eq_getElem_cons hlt⟩
  rw [Nat.add_comm, ← List.getElem?_rotate hk, List.getElem?_eq_getElem hlt]

section Loop

variable {β : Type} [DecidableEq β]

def UtlStmt.place (u : UtlStmt β) : Nat := u.inBuf.elim 0 u.unionBufs.idxOf

variable {u : UtlStmt β} {p : Nat} {σ : Store β}

theorem place_lt (hin : ∀ b ∈ u.inBuf, b ∈ u.unionBufs) :
    UtlStmt.place u < u.unionBufs.length := by
  unfold UtlStmt.place
  cases hb : u.inBuf with
  | none => exact List.length_pos_iff.mpr u.nonempty
  | some b => exact List.idxOf_lt_length_of_mem (hin b hb)

theorem ringFrom_eq (u : UtlStmt β) :
    ringFrom u.unionBufs u.inBuf = u.unionBufs.rotate (UtlStmt.place u) := by
  unfold UtlStmt.place
  cases hb : u.inBuf with
  | none => exact (List.rotate_zero _).symm
  | some b => rfl

theorem advance_ring {size k : Nat} (hp : p < size) (itr2 : Nat) (f : Bool) :
    TlLoop.advance size { itr := (p + k) % size, itr2 := itr2, inFound := f } =
      { itr := (p + (k + 1)) % size, itr2 := itr2, inFound := f } := by
  have hlt : (p + k) % size < size := Nat.mod_lt _ (by omega)
  have hnext : (p + (k + 1)) % size = ((p + k) % size + 1) % size := by
    rw [Nat.mod_add_mod]
    rfl
  simp only [TlLoop.advance, hnext]
  split
  · next h => rw [h, Nat.mod_self]
  · next h =>
    have hlt' : (p + k) % size + 1 < size := by omega
    rw [Nat.mod_eq_of_lt hlt']

theorem tlLoop_pass {k fuel : Nat} {s : TlLoop} {f : Bool} (hp : p < u.unionBufs.length)
    (hk : k < u.unionBufs.length) (hitr : s.itr = (p + k) % u.unionBufs.length)
    (hne : s.itr ≠ s.itr2) (hstart : ∀ b, u.unionBufs[s.itr]? = some b →
      s.start u b = some { itr := s.itr, itr2 := p, inFound := f }) (hrest : tlLoop u σ fuel
        { itr := (p + (k + 1)) % u.unionBufs.length, itr2 := p, inFound := f } =
      some ((((u.unionBufs.rotate p).drop (k + 1)).find? σ.ready).elim (.around p) .found)) :
    tlLoop u σ (fuel + 1) s =
      some ((((u.unionBufs.rotate p).drop k).find? σ.ready).elim (.around p) .found) := by
  obtain ⟨b, hb, hdrop⟩ := drop_rotate hk
  rw [← hitr] at hb
  simp only [tlLoop, if_neg hne, hb, hstart b hb, hdrop]
  split
  · next hempty =>
    have hnot : σ.ready b = false := by simp [Store.ready, hempty]
    rw [hitr, advance_ring hp, hrest, List.find?_cons, hnot]
  · next hfull =>
    have hready : σ.ready b = true := ready_iff.mpr hfull
    rw [List.find?_cons, hready]
    rfl

/-- Around the ring: what is left of it is searched, up to the place where the search started. -/
theorem tlLoop_ring {f : Bool} (hp : p < u.unionBufs.length) (hf : ∀ b ∈ u.inBuf, f = true) :
    ∀ {fuel k : Nat}, 0 < k → k ≤ u.unionBufs.length → u.unionBufs.length < k + fuel →
      tlLoop u σ fuel { itr := (p + k) % u.unionBufs.length, itr2 := p, inFound := f } =
        some ((((u.unionBufs.rotate p).drop k).find? σ.ready).elim (.around p) .found) := by
  intro fuel
  induction fuel with
  | zero => omega
  | succ fuel ih =>
    intro k hpos hk hfuel
    rcases Nat.lt_or_eq_of_le hk with hlt | rfl
    · have hne : (p + k) % u.unionBufs.length ≠ p := by
        rcases Nat.lt_or_ge (p + k) u.unionBufs.length with h | h
        · rw [Nat.mod_eq_of_lt h]
          omega
        · rw [Nat.mod_eq_sub_mod h, Nat.mod_eq_of_lt (by omega)]
          omega
      refine tlLoop_pass hp hlt rfl hne (fun b _ => ?_) (ih (by omega) hlt (by omega))
      unfold TlLoop.start
      cases hb : u.inBuf with
      | none => simp [Nat.ne_of_lt hp]
      | some c => simp [hf c hb]
    · rw [Nat.add_mod_right, Nat.mod_eq_of_lt hp, List.drop_eq_nil_of_le (by simp)]
      simp [tlLoop]

theorem tlLoop_search {c : β} (hc : u.inBuf = some c) (hmem : c ∈ u.unionBufs) :
    ∀ {fuel i : Nat}, i ≤ u.unionBufs.idxOf c →
      u.unionBufs.idxOf c + u.unionBufs.length < i + fuel →
      tlLoop u σ fuel { itr := i, itr2 := u.unionBufs.length, inFound := false } =
        some (((u.unionBufs.rotate (u.unionBufs.idxOf c)).find? σ.ready).elim
          (.around (u.unionBufs.idxOf c)) .found) := by
  have hlt : u.unionBufs.idxOf c < u.unionBufs.length := List.idxOf_lt_length_of_mem hmem
  intro fuel
  induction fuel with
  | zero => omega
  | succ fuel ih =>
    intro i hi hfuel
    have hne : i ≠ u.unionBufs.length := by omega
    rcases Nat.lt_or_eq_of_le hi with hbefore | hat
    · -- a buffer before `in`
      have hget : u.unionBufs[i]? = some u.unionBufs[i] := List.getElem?_eq_getElem (by omega)
      have hother : u.unionBufs[i] ≠ c := by
        have hnot := List.not_of_lt_findIdx hbefore
        simpa using hnot
      rw [← ih hbefore (by omega)]
      simp [tlLoop, hne, hget, TlLoop.start, hc, hother]
    · have hring := tlLoop_ring (σ := σ) hlt (fun _ _ => rfl)
        Nat.one_pos (by omega) (show u.unionBufs.length < 1 + fuel by omega)
      refine tlLoop_pass hlt (by omega) ?_ hne (fun b hb => ?_) hring
      · rw [Nat.add_zero, Nat.mod_eq_of_lt hlt]
        exact hat
      · have hbc : b = c := by
          have hget : u.unionBufs[i]? = some c := by
            rw [hat, List.getElem?_eq_getElem hlt, List.getElem_idxOf]
          exact Option.some.inj (hb.symm.trans hget)
        simp [TlLoop.start, hc, hbc, hat]

theorem tlLoop_eq (σ : Store β) (hin : ∀ b ∈ u.inBuf, b ∈ u.unionBufs) :
    tlLoop u σ (2 * u.unionBufs.length + 1)
        { itr := 0, itr2 := u.unionBufs.length, inFound := false } =
      some (((ringFrom u.unionBufs u.inBuf).find? σ.ready).elim
        (.around (UtlStmt.place u)) .found) := by
  have hplace := place_lt hin
  rw [ringFrom_eq]
  cases hc : u.inBuf with
  | none =>
    have hzero : UtlStmt.place u = 0 := by simp [UtlStmt.place, hc]
    rw [hzero] at hplace ⊢
    have hring := tlLoop_ring (σ := σ) (f := false) hplace (fun b hb => by simp [hc] at hb)
      Nat.one_pos hplace
      (show u.unionBufs.length < 1 + 2 * u.unionBufs.length by omega)
    refine tlLoop_pass hplace hplace (by simp) (by simpa using hplace.ne)
      (fun b _ => ?_) hring
    simp [TlLoop.start, hc]
  | some c =>
    have hidx : UtlStmt.place u = u.unionBufs.idxOf c := by simp [UtlStmt.place, hc]
    rw [hidx] at hplace ⊢
    exact tlLoop_search hc (hin c hc) (Nat.zero_le _) (by omega)

end Loop

section Execution

variable {β : Type} [DecidableEq β]
variable {u : UtlStmt β} {σ : Store β}

theorem UtlStmt.exeSetIn_cases {tv : Scratch} {u' : UtlStmt β} {σ' : Store β} {rc : StmtRc}
    (hin : ∀ b ∈ u.inBuf, b ∈ u.unionBufs) (h : UtlStmt.exeSetIn tv u σ = some (rc, u', σ')) :
    (rc = .noInput ∧ (∀ b ∈ u.unionBufs, σ b = []) ∧ σ' = σ ∧
        ∃ b ∈ u.unionBufs, u' = { u with inBuf := some b } ∧ ∀ c ∈ u.inBuf, b = c) ∨
      ∃ b d s, (ringFrom u.unionBufs u.inBuf).find? σ.ready = some b ∧ (σ b).head? = some d ∧
        tv.copy d = some s ∧
        ((u.out = none ∧ rc = .failure ∧ u' = u ∧ σ' = σ) ∨
          ∃ out, u.out = some out ∧ rc = .success ∧ u' = { u with inBuf := some b } ∧
            σ' = σ.put out s.dbt) := by
  simp only [UtlStmt.exeSetIn, tlLoop_eq σ hin, Option.bind_eq_bind, Option.bind_some] at h
  cases hfind : (ringFrom u.unionBufs u.inBuf).find? σ.ready with
  | none =>
    have hlt := place_lt hin
    simp only [hfind, Option.elim_none, List.getElem?_eq_getElem hlt, Option.bind_some] at h
    obtain ⟨rfl, rfl, rfl⟩ : .noInput = rc ∧ _ = u' ∧ σ = σ' := by simpa using h
    refine .inl ⟨rfl, fun b hb => ?_, rfl, _, List.getElem_mem hlt, rfl, fun c hc => ?_⟩
    · simpa using List.find?_eq_none.mp hfind b (mem_ringFrom.mpr hb)
    · have hplace : UtlStmt.place u = u.unionBufs.idxOf c := by
        simp [UtlStmt.place, Option.mem_def.mp hc]
      simp [hplace]
  | some b =>
    simp only [hfind, Option.elim_some, Option.bind_eq_some_iff] at h
    obtain ⟨d, hd, s, hs, h⟩ := h
    refine .inr ⟨b, d, s, rfl, hd, hs, ?_⟩
    split at h
    · next hout =>
      obtain ⟨rfl, rfl, rfl⟩ : .failure = rc ∧ u = u' ∧ σ = σ' := by simpa using h
      exact .inl ⟨hout, rfl, rfl, rfl⟩
    · next out hout =>
      obtain ⟨rfl, rfl, rfl⟩ : .success = rc ∧ _ = u' ∧ _ = σ' := by simpa using h
      exact .inr ⟨out, hout, rfl, rfl, rfl⟩

theorem UtlStmt.exeSetIn_isSome (hin : ∀ b ∈ u.inBuf, b ∈ u.unionBufs)
    (hfit : ∀ b ∈ u.unionBufs, ∀ d ∈ (σ b).head?, d.Fits) (tv : Scratch) :
    (UtlStmt.exeSetIn tv u σ).isSome := by
  simp only [UtlStmt.exeSetIn, tlLoop_eq σ hin, Option.bind_eq_bind, Option.bind_some]
  cases hfind : (ringFrom u.unionBufs u.inBuf).find? σ.ready with
  | none => simp [List.getElem?_eq_getElem (place_lt hin)]
  | some b =>
    have hb : b ∈ u.unionBufs := mem_ringFrom.mp (List.mem_of_find?_eq_some hfind)
    obtain ⟨d, rest, hd⟩ := List.exists_cons_of_ne_nil (ready_iff.mp (List.find?_some hfind))
    obtain ⟨s, hs⟩ := copy_isSome tv (hfit b hb d (by simp [hd]))
    simp only [Option.elim_some, hd, List.head?_cons, Option.bind_some, hs]
    split <;> rfl

theorem copy_fields {s s' : Scratch} {d : Dbt} (h : s.copy d = some s') :
    s'.dbt.key = d.key ∧ s'.dbt.data = d.data ∧ (d.atime.isSome → s'.dbt = d) := by
  refine ⟨?_, ?_, copy_dbt h⟩ <;>
  · simp only [Scratch.copy] at h
    split at h
    · next hfit =>
      obtain rfl := Option.some.inj h
      simp [Scratch.dbt, hfit.1]
    · cases h

def Forwarded (d e : Dbt) : Prop :=
  e.key = d.key ∧ e.data = d.data ∧ (d.atime.isSome → e = d)

/-- An execution that returns finds no input exactly if there is none, and then changes no buffer;
else it forwards the front tuple of the input in `in`. -/
def TlForwards (u : UtlStmt β) (σ : Store β) : Prop :=
  ∀ tv rc u' σ', UtlStmt.exeSetIn tv u σ = some (rc, u', σ') →
    (rc = .noInput ↔ ∀ b ∈ u.unionBufs, σ b = []) ∧ (rc = .noInput → σ' = σ) ∧
      (rc ≠ .noInput → rc = .success ∧ ∃ b ∈ u.unionBufs, ∃ d e out, (σ b).head? = some d ∧
        Forwarded d e ∧ u'.inBuf = some b ∧ u.out = some out ∧ σ' = σ.put out e)

theorem tlForwards (σ : Store β) (hin : ∀ b ∈ u.inBuf, b ∈ u.unionBufs) (hout : u.out.isSome) :
    TlForwards u σ := by
  intro tv rc u' σ' h
  rcases UtlStmt.exeSetIn_cases hin h with ⟨rfl, hempty, hσ, -⟩ |
    ⟨b, d, s, hfind, hd, hs, ⟨hnone, -⟩ | ⟨out, hsome, rfl, rfl, rfl⟩⟩
  · exact ⟨⟨fun _ => hempty, fun _ => rfl⟩, fun _ => hσ, absurd rfl⟩
  · simp [hnone] at hout
  · have hb : b ∈ u.unionBufs := mem_ringFrom.mp (List.mem_of_find?_eq_some hfind)
    refine ⟨⟨fun hrc => (nomatch hrc), fun hempty => ?_⟩, fun hrc => (nomatch hrc), fun _ =>
      ⟨rfl, b, hb, d, s.dbt, out, hd, copy_fields hs, rfl, hsome, rfl⟩⟩
    simp [hempty b hb] at hd

/-- The input used last is empty when the execution starts, or no other one has a tuple. -/
def TlExe.Yields (inputs : List β) (e : TlExe β) : Prop :=
  ∀ b ∈ e.inBuf, e.store b ≠ [] → ∀ c ∈ inputs, e.store c ≠ [] → c = b

/-- Of any `n` executions in a row, `n` the number of the inputs, one chooses an input that has a
tuple before each of them. -/
def FairIn (inputs : List β) (es : List (TlExe β)) : Prop :=
  ∀ before row behind, es = before ++ row ++ behind → row.length = inputs.length →
    ∀ c ∈ inputs, (∀ e ∈ row, e.store c ≠ []) → ∃ e ∈ row, e.chosen = c

/-- What the service of the ring sees of an execution. -/
def TlExe.turn (e : TlExe β) : (β → Bool) × β := (e.store.ready, e.chosen)

/-- What every run keeps: the inputs and the output of the statement, an input in `in`, and
executions that search from there. -/
structure TlInv (u₀ u : UtlStmt β) (es : List (TlExe β)) : Prop where
  inputs : u.unionBufs = u₀.unionBufs
  out : u.out = u₀.out
  remembered : ∀ b ∈ u.inBuf, b ∈ u.unionBufs
  found : ∀ e ∈ es, (∀ b ∈ e.inBuf, b ∈ u.unionBufs) ∧
    (ringFrom u.unionBufs e.inBuf).find? e.store.ready = some e.chosen

theorem run_tlInv {u₀ : UtlStmt β} {σ₀ : Store β} {es : List (TlExe β)} (hrun : TlRun u₀ σ₀ u σ es)
    (hin : ∀ b ∈ u₀.inBuf, b ∈ u₀.unionBufs) : TlInv u₀ u es := by
  induction hrun with
  | start => exact ⟨rfl, rfl, hin, by simp⟩
  | arrive _ _ _ ih => exact ih
  | success tv _ hexe hb ih =>
    rcases UtlStmt.exeSetIn_cases ih.remembered hexe with ⟨hrc, -⟩ |
      ⟨b, d, s, hfind, -, -, ⟨-, hrc, -⟩ | ⟨out, -, -, rfl, -⟩⟩
    · cases hrc
    · cases hrc
    · obtain rfl := Option.some.inj hb
      have hmem := mem_ringFrom.mp (List.mem_of_find?_eq_some hfind)
      refine ⟨ih.inputs, ih.out, fun c hc => ?_, fun e he => ?_⟩
      · rwa [← Option.some.inj hc]
      · rcases List.mem_append.mp he with he | he
        · exact ih.found e he
        · rw [List.mem_singleton.mp he]
          exact ⟨ih.remembered, hfind⟩
  | stopped tv _ hexe hrc ih =>
    rcases UtlStmt.exeSetIn_cases ih.remembered hexe with ⟨-, -, -, b, hb, rfl, -⟩ |
      ⟨b, d, s, -, -, -, ⟨-, -, rfl, -⟩ | ⟨out, -, rfl, -⟩⟩
    · refine ⟨ih.inputs, ih.out, fun c hc => ?_, ih.found⟩
      rwa [← Option.some.inj hc]
    · exact ih
    · exact absurd rfl hrc

theorem run_turns {u₀ : UtlStmt β} {σ₀ : Store β} {es : List (TlExe β)} (hrun : TlRun u₀ σ₀ u σ es)
    (hin : ∀ b ∈ u₀.inBuf, b ∈ u₀.unionBufs) (hnd : u₀.unionBufs.Nodup)
    (hyields : ∀ e ∈ es, e.Yields u₀.unionBufs) :
    ∃ last, Turns u₀.unionBufs last (es.map TlExe.turn) ∧
      u.inBuf = ((es.map TlExe.turn).getLast?.map Prod.snd).or last := by
  induction hrun with
  | start => exact ⟨_, .nil _, rfl⟩
  | arrive _ _ _ ih => exact ih hyields
  | @success u u' σ σ' es b tv hrun hexe hb ih =>
    obtain ⟨last, hturns, hlast⟩ := ih fun e he => hyields e (List.mem_append_left _ he)
    obtain ⟨hin', hfound⟩ := (run_tlInv (.success tv hrun hexe hb) hin).found
      { inBuf := u.inBuf, store := σ, chosen := b } (by simp)
    have hu' := (run_tlInv (.success tv hrun hexe hb) hin).inputs
    rw [hu'] at hin' hfound
    have hturn := (turnFrom_fair_iff hnd hin' hfound).mpr fun y hy hready z hz hz' =>
      hyields _ (by simp) y hy (ready_iff.mp hready) z hz (ready_iff.mp hz')
    refine ⟨last, ?_, by simp [TlExe.turn, hb]⟩
    rw [List.map_append]
    exact hturns.concat (by rw [← hlast]; exact hturn)
  | @stopped u u' σ σ' es rc tv hrun hexe hrc ih =>
    obtain ⟨last, hturns, hlast⟩ := ih hyields
    rcases UtlStmt.exeSetIn_cases (run_tlInv hrun hin).remembered hexe with
      ⟨-, -, -, b, hb, rfl, hkeep⟩ | ⟨b, d, s, -, -, -, ⟨-, -, rfl, -⟩ | ⟨out, -, rfl, -⟩⟩
    · cases hu : u.inBuf with
      | none =>
        -- the first of the list takes the place of NULL: nothing was chosen before
        have hnil : es = [] := by
          rcases List.eq_nil_or_concat es with h | ⟨es', e, h⟩
          · exact h
          · rw [hu, h] at hlast
            simp at hlast
        subst hnil
        exact ⟨some b, .nil _, rfl⟩
      | some c =>
        obtain rfl := hkeep c hu
        exact ⟨last, hturns, by rw [← hlast, hu]⟩
    · exact ⟨last, hturns, hlast⟩
    · exact absurd rfl hrc

/-- Every execution of a run that returns finds an input if there is one, and forwards its front
tuple; a run whose executions all yield is fair. -/
theorem tlUnion_fair {u₀ u : UtlStmt β} {σ₀ σ : Store β} {es : List (TlExe β)}
    (hrun : TlRun u₀ σ₀ u σ es) (hin : ∀ b ∈ u₀.inBuf, b ∈ u₀.unionBufs)
    (hout : u₀.out.isSome) :
    TlForwards u σ ∧
      ((∀ b ∈ u.unionBufs, ∀ d ∈ (σ b).head?, d.Fits) →
        ∀ tv, (UtlStmt.exeSetIn tv u σ).isSome) ∧
      (u₀.unionBufs.Nodup →
        (∀ e ∈ es, (ringAfter u₀.unionBufs e.inBuf).find? e.store.ready = some e.chosen ↔
          e.Yields u₀.unionBufs) ∧
        ((∀ e ∈ es, e.Yields u₀.unionBufs) → FairIn u₀.unionBufs es)) := by
  have hinv := run_tlInv hrun hin
  refine ⟨tlForwards σ hinv.remembered (by rwa [hinv.out]),
    fun hfit => UtlStmt.exeSetIn_isSome hinv.remembered hfit, fun hnd => ⟨fun e he => ?_, ?_⟩⟩
  · obtain ⟨hin', hfound⟩ := hinv.found e he
    rw [hinv.inputs] at hin' hfound
    simpa [TlExe.Yields] using turnFrom_fair_iff hnd hin' hfound
  · intro hyields before row behind hes hlen c hc hready
    obtain ⟨last, hturns, -⟩ := run_turns hrun hin hnd hyields
    rw [hes, List.map_append, List.map_append, List.append_assoc] at hturns
    obtain ⟨last', hrow⟩ := hturns.of_append
    obtain ⟨t, ht, hchosen⟩ := hrow.take.served hnd hc
      (fun t ht => by
        obtain ⟨e, he, rfl⟩ := List.mem_map.mp ht
        exact ready_iff.mpr (hready e he))
      (by simp [hlen])
    obtain ⟨e, he, rfl⟩ := List.mem_map.mp ht
    exact ⟨e, he, hchosen⟩

def twoEach : Store Nat := fun b => if b < 2 then [sameTime b, sameTime b] else []

def noTuple : Scratch := { data := [], atime := ⟨0, 0⟩ }

theorem serve_first {i : Option Nat} {σ : Store Nat} (hi : ∀ b ∈ i, b = 0)
    (hσ : (σ 0).head? = some (sameTime 0)) :
    UtlStmt.exeSetIn noTuple { twoInputs with inBuf := i } σ =
      some (.success, { twoInputs with inBuf := some 0 }, σ.put 2 (sameTime 0)) := by
  have hcopy : noTuple.copy (sameTime 0) = some { data := [0], atime := ⟨1, 0⟩ } := by
    decide +kernel
  have hready : σ 0 ≠ [] := by
    intro h
    simp [h] at hσ
  cases i with
  | none =>
    simp [UtlStmt.exeSetIn, tlLoop, TlLoop.start, twoInputs, hready, hσ, hcopy]
    rfl
  | some b =>
    obtain rfl := hi b rfl
    simp [UtlStmt.exeSetIn, tlLoop, TlLoop.start, twoInputs, hready, hσ, hcopy]
    rfl

def secondStore : Store Nat := (twoEach.put 2 (sameTime 0)).pop 0

def twoExecutions : List (TlExe Nat) :=
  [{ inBuf := none, store := twoEach, chosen := 0 },
    { inBuf := some 0, store := secondStore, chosen := 0 }]

theorem twoExecutions_run : ∃ u σ, TlRun twoInputs twoEach u σ twoExecutions := by
  have h₁ : (twoEach 0).head? = some (sameTime 0) := rfl
  have h₂ : (secondStore 0).head? = some (sameTime 0) := by decide
  have hfirst := TlRun.success noTuple .start (serve_first (i := none) (by simp) h₁) rfl
  exact ⟨_, _, .success noTuple hfirst (serve_first (by simp) h₂) rfl⟩

/-- Of two inputs that both have tuples the second one is not served. -/
theorem tlUnion_starves :
    ¬ ∀ u σ es, TlRun twoInputs twoEach u σ es → FairIn twoInputs.unionBufs es := by
  intro h
  obtain ⟨u, σ, hrun⟩ := twoExecutions_run
  have hready : ∀ e ∈ twoExecutions, e.store 1 ≠ [] := by decide
  obtain ⟨e, he, hchosen⟩ := h u σ _ hrun [] twoExecutions [] (by simp) rfl 1 (by decide) hready
  have hother : ∀ e ∈ twoExecutions, e.chosen = 0 := by decide
  rw [hother e he] at hchosen
  cases hchosen

/-- One tuple in each input: the second execution finds the first input drained. -/
theorem tlUnion_fair_oneEach :
    ∃ u σ es, TlRun twoInputs oneEach u σ es ∧ es.map TlExe.chosen = [0, 1] ∧
      FairIn twoInputs.unionBufs es := by
  have hcopy : noTuple.copy (sameTime 1) = some { data := [1], atime := ⟨1, 0⟩ } := by
    decide +kernel
  have h₁ : (oneEach 0).head? = some (sameTime 0) := rfl
  have hfirst := TlRun.success noTuple .start (serve_first (i := none) (by simp) h₁) rfl
  have hserved : UtlStmt.exeSetIn noTuple { twoInputs with inBuf := some 0 }
      ((oneEach.put 2 (sameTime 0)).pop 0) =
        some (.success, { twoInputs with inBuf := some 1 },
          ((oneEach.put 2 (sameTime 0)).pop 0).put 2 (sameTime 1)) := by
    have hempty : ((oneEach.put 2 (sameTime 0)).pop 0) 0 = [] := by decide
    have hone : ((oneEach.put 2 (sameTime 0)).pop 0) 1 = [sameTime 1] := by decide
    simp [UtlStmt.exeSetIn, tlLoop, TlLoop.start, TlLoop.advance, twoInputs, hempty, hone, hcopy]
    rfl
  have hrun := TlRun.success noTuple hfirst hserved rfl
  refine ⟨_, _, _, hrun, rfl, ((tlUnion_fair hrun (by simp [twoInputs]) rfl).2.2 (by decide)).2 ?_⟩
  intro e he
  rcases List.mem_append.mp he with he | he
  · rcases List.mem_append.mp he with he | he
    · cases he
    · rw [List.mem_singleton.mp he]
      simp [TlExe.Yields, twoInputs]
  · rw [List.mem_singleton.mp he]
    rintro _ ⟨⟩ hne
    exact absurd (by decide) hne

end Execution

end StreamMill.Esl
