import StreamMill.Lib.Merge
import StreamMill.Window.Winbuf

/-!
# StreamMill.Esl.Union

The union of streams with time stamps, `utStmt::exe_set_in` of `stmt.cc`. An execution looks at the
head of every input, puts a copy of the earliest one to the output and leaves its buffer in `in`,
which the caller pops. If an input is empty, it stops with `s_no_input` and that buffer in `in`. A
run has executions, and in between whatever comes in (`UnionRun`).

`unionRun_merges`: the output is the merge of what came in, by time stamp and then by the place of
the input.
-/

namespace StreamMill.Esl

open Lib
open ImDb (Byte)
open Window (Timeval)

def maxStrLen : Nat := 40960

structure Dbt where
  key : List Byte
  data : List Byte
  atime : Option Timeval
  deriving DecidableEq

/-- A tuple as `cDBT(MAX_STR_LEN, &tv1)` allocates it: room for the data and the arrival time,
no key. -/
structure Scratch where
  data : List Byte
  atime : Timeval
  deriving DecidableEq

/-- `dbt::copy`: a tuple without arrival time leaves the old one. A key, for which there is no
room, or data that is too long is `none`. -/
def Scratch.copy (s : Scratch) (d : Dbt) : Option Scratch :=
  if d.key = [] ∧ d.data.length ≤ maxStrLen then
    some { data := d.data, atime := d.atime.getD s.atime }
  else none

/-- `new cDBT(d)` -/
def Scratch.dbt (s : Scratch) : Dbt := { key := [], data := s.data, atime := some s.atime }

/-- The comparison of `exe_set_in`. -/
def after (t u : Timeval) : Prop := t.sec > u.sec ∨ t.sec = u.sec ∧ t.usec > u.usec

instance (t u : Timeval) : Decidable (after t u) := inferInstanceAs (Decidable (_ ∨ _))

inductive StmtRc
  | success
  | noInput
  | failure
  deriving DecidableEq

section Model

variable {β : Type} [DecidableEq β]

abbrev Store (β : Type) := β → List Dbt

def Store.put (σ : Store β) (b : β) (d : Dbt) : Store β := Function.update σ b (σ b ++ [d])

def Store.pop (σ : Store β) (b : β) : Store β := Function.update σ b (σ b).tail

/-- `utStmt`, with what its executions use. `semant.cc` builds one for two or more sources. -/
structure UtStmt (β : Type) where
  unionBufs : List β
  inBuf : Option β
  out : Option β
  nonempty : unionBufs ≠ []

structure UnionLoop (β : Type) where
  empty : Bool
  first : Bool
  d : Scratch
  current : Scratch
  inBuf : Option β

/-- One pass of the loop, for a buffer that is not empty. -/
def UnionLoop.look (s : UnionLoop β) (b : β) (head : Dbt) : Option (UnionLoop β) := do
  let d ← s.d.copy head
  if s.first then
    pure { s with d := d, current := d, inBuf := some b, first := false }
  else if after s.current.atime d.atime then
    pure { s with d := d, current := d, inBuf := some b }
  else
    pure { s with d := d }

def unionLoop (σ : Store β) : List β → UnionLoop β → Option (UnionLoop β)
  | [], s => some s
  | b :: bs, s =>
    match σ b with
    | [] => some { s with empty := true, inBuf := some b }
    | head :: _ => do
      let s ← s.look b head
      unionLoop σ bs s

/-- `utStmt::exe_set_in`; `tv` is what the tuples of the function held when they were allocated. -/
def exeSetIn (tv : Scratch) (u : UtStmt β) (σ : Store β) :
    Option (StmtRc × UtStmt β × Store β) := do
  let s ← unionLoop σ u.unionBufs
    { empty := false, first := true, d := tv, current := tv, inBuf := u.inBuf }
  let u := { u with inBuf := s.inBuf }
  if s.empty then
    pure (.noInput, u, σ)
  else
    match u.out with
    | none => pure (.failure, u, σ)
    | some out => pure (.success, u, σ.put out s.current.dbt)

def popIn (u : UtStmt β) (σ : Store β) : Store β :=
  match u.inBuf with
  | none => σ
  | some b => σ.pop b

def popped (u : UtStmt β) (σ : Store β) : List (β × Dbt) :=
  match u.inBuf with
  | none => []
  | some b => (σ b).head?.toList.map fun d => (b, d)

def outputOf (u : UtStmt β) (σ σ' : Store β) : List Dbt :=
  match u.out with
  | none => []
  | some out => (σ' out).drop (σ out).length

/-- Executions with the pops of the caller; in between, tuples come in to the inputs. `fed` is what
came in, `consumed` what was popped, `output` what was put. -/
inductive UnionRun (u₀ : UtStmt β) (σ₀ : Store β) :
    UtStmt β → Store β → (β → List Dbt) → List (β × Dbt) → List Dbt → Prop
  | start : UnionRun u₀ σ₀ u₀ σ₀ (fun _ => []) [] []
  | arrive {u : UtStmt β} {σ σ' : Store β} {fed : β → List Dbt} {consumed : List (β × Dbt)}
      {output : List Dbt} (new : β → List Dbt) :
      UnionRun u₀ σ₀ u σ fed consumed output → (∀ b ∈ u.unionBufs, σ' b = σ b ++ new b) →
      UnionRun u₀ σ₀ u σ' (fun b => fed b ++ new b) consumed output
  | success {u u' : UtStmt β} {σ σ' : Store β} {fed : β → List Dbt} {consumed : List (β × Dbt)}
      {output : List Dbt} (tv : Scratch) :
      UnionRun u₀ σ₀ u σ fed consumed output → exeSetIn tv u σ = some (.success, u', σ') →
      UnionRun u₀ σ₀ u' (popIn u' σ') (fun b => fed b ++ (σ' b).drop (σ b).length)
        (consumed ++ popped u' σ') (output ++ outputOf u σ σ')
  | stopped {u u' : UtStmt β} {σ σ' : Store β} {fed : β → List Dbt} {consumed : List (β × Dbt)}
      {output : List Dbt} {rc : StmtRc} (tv : Scratch) :
      UnionRun u₀ σ₀ u σ fed consumed output → exeSetIn tv u σ = some (rc, u', σ') →
      rc ≠ .success → UnionRun u₀ σ₀ u' σ' fed consumed output

end Model

/-- The arrival time, in the order of `after`. -/
def Dbt.time (d : Dbt) : Int ×ₗ Int :=
  match d.atime with
  | none => toLex (0, 0)
  | some t => toLex (t.sec, t.usec)

/-- There is room for the tuple in those of `exe_set_in`. -/
def Dbt.Fits (d : Dbt) : Prop := d.key = [] ∧ d.data.length ≤ maxStrLen

/-- Every tuple has an arrival time, and they do not decrease. -/
def InOrder (ds : List Dbt) : Prop :=
  (∀ d ∈ ds, d.atime.isSome) ∧ ds.Pairwise fun d e => d.time ≤ e.time

theorem copy_isSome (s : Scratch) {d : Dbt} (h : d.Fits) : ∃ s', s.copy d = some s' :=
  ⟨_, if_pos h⟩

theorem copy_dbt {s s' : Scratch} {d : Dbt} (h : s.copy d = some s') (ht : d.atime.isSome) :
    s'.dbt = d := by
  obtain ⟨key, data, atime⟩ := d
  obtain ⟨t, rfl⟩ := Option.isSome_iff_exists.mp ht
  simp only [Scratch.copy] at h
  split at h
  · next hfit =>
    obtain rfl := Option.some.inj h
    simp [Scratch.dbt, hfit.1]
  · cases h

theorem after_iff (s s' : Scratch) : after s.atime s'.atime ↔ s'.dbt.time < s.dbt.time := by
  simp [after, Scratch.dbt, Dbt.time, Prod.Lex.toLex_lt_toLex, eq_comm]

section Loop

variable {β : Type}

theorem unionLoop_isSome {σ : Store β} {bs : List β}
    (hfit : ∀ b ∈ bs, ∀ d ∈ (σ b).head?, d.Fits) (s : UnionLoop β) :
    ∃ s', unionLoop σ bs s = some s' := by
  induction bs generalizing s with
  | nil => exact ⟨s, rfl⟩
  | cons b bs ih =>
    rw [unionLoop]
    cases hb : σ b with
    | nil => exact ⟨_, rfl⟩
    | cons head rest =>
      obtain ⟨d, hd⟩ := copy_isSome s.d (hfit b List.mem_cons_self head (by simp [hb]))
      have hrest := ih fun c hc => hfit c (List.mem_cons_of_mem _ hc)
      have hlook : ∃ s₁, s.look b head = some s₁ := by
        simp only [UnionLoop.look, hd, Option.bind_eq_bind, Option.bind_some]
        split
        · exact ⟨_, rfl⟩
        · split <;> exact ⟨_, rfl⟩
      obtain ⟨s₁, hs₁⟩ := hlook
      simpa [hs₁] using hrest s₁

theorem look_empty {s s' : UnionLoop β} {b : β} {head : Dbt} (h : s.look b head = some s') :
    s'.empty = s.empty := by
  simp only [UnionLoop.look, Option.bind_eq_bind, Option.bind_eq_some_iff] at h
  obtain ⟨d, -, h⟩ := h
  split at h
  · rw [← Option.some.inj h]
  · split at h <;> rw [← Option.some.inj h]

theorem unionLoop_empty {σ : Store β} {bs : List β} {s s' : UnionLoop β}
    (h : unionLoop σ bs s = some s') :
    (s'.empty = true ∧ ∃ b ∈ bs, σ b = [] ∧ s'.inBuf = some b) ∨
      (s'.empty = s.empty ∧ ∀ b ∈ bs, σ b ≠ []) := by
  induction bs generalizing s with
  | nil =>
    obtain rfl := Option.some.inj h
    exact .inr ⟨rfl, fun b hb => nomatch hb⟩
  | cons b bs ih =>
    rw [unionLoop] at h
    cases hb : σ b with
    | nil =>
      rw [hb] at h
      obtain rfl := Option.some.inj h
      exact .inl ⟨rfl, b, List.mem_cons_self, hb, rfl⟩
    | cons head rest =>
      simp only [hb, Option.bind_eq_bind, Option.bind_eq_some_iff] at h
      obtain ⟨s₁, hlook, h⟩ := h
      rcases ih h with ⟨he, c, hc, hempty, hin⟩ | ⟨he, hne⟩
      · exact .inl ⟨he, c, List.mem_cons_of_mem _ hc, hempty, hin⟩
      · refine .inr ⟨he.trans (look_empty hlook), ?_⟩
        intro c hc
        rcases List.mem_cons.mp hc with rfl | hc
        · simp [hb]
        · exact hne c hc

end Loop

section Execution

variable {β : Type} [DecidableEq β]

/-- After the inputs `done` of `all`: the earliest of their heads is in `current`. -/
def Earliest (σ : Store β) (all done : List β) (s : UnionLoop β) : Prop :=
  (s.first = true ↔ done = []) ∧ (done ≠ [] → ∃ b d, s.inBuf = some b ∧ b ∈ done ∧
    (σ b).head? = some d ∧ s.current.dbt = d ∧
    ∀ c ∈ done, ∃ d' ∈ (σ c).head?, rank Dbt.time all (b, d) ≤ rank Dbt.time all (c, d'))

variable {σ σ' : Store β} {u u' : UtStmt β} {tv : Scratch}

theorem look_earliest {all done bs : List β} {b : β} {s s' : UnionLoop β} {head : Dbt}
    (hs : Earliest σ all done s) (hall : all = done ++ b :: bs) (hhead : (σ b).head? = some head)
    (ht : head.atime.isSome) (h : s.look b head = some s') :
    Earliest σ all (done ++ [b]) s' := by
  obtain ⟨hfirst, hmin⟩ := hs
  simp only [UnionLoop.look, Option.bind_eq_bind, Option.bind_eq_some_iff] at h
  obtain ⟨d, hd, h⟩ := h
  have hdh : d.dbt = head := copy_dbt hd ht
  split at h
  · next hf =>
    obtain rfl := Option.some.inj h
    have hdone : done = [] := hfirst.mp hf
    refine ⟨by simp, fun _ => ⟨b, head, rfl, by simp, hhead, hdh, ?_⟩⟩
    intro c hc
    rw [hdone, List.nil_append, List.mem_singleton] at hc
    exact ⟨head, by rw [hc]; exact hhead, by rw [hc]⟩
  · next hf =>
    have hdone : done ≠ [] := fun h => hf (hfirst.mpr h)
    obtain ⟨b₀, d₀, hin, hb₀, hhead₀, hcur, hle⟩ := hmin hdone
    have hafter : after s.current.atime d.atime ↔ head.time < d₀.time := by
      rw [after_iff, hdh, hcur]
    split at h
    · next ha =>
      -- `b` takes the lead: its head is before all the others
      obtain rfl := Option.some.inj h
      refine ⟨by simpa using hf, fun _ => ⟨b, head, rfl, by simp, hhead, hdh, ?_⟩⟩
      intro c hc
      rcases List.mem_append.mp hc with hc | hc
      · obtain ⟨d', hd', hr⟩ := hle c hc
        have hlt : head.time < d'.time := lt_of_lt_of_le (hafter.mp ha) (rank_le_key hr)
        exact ⟨d', hd', by simp [rank, Prod.Lex.toLex_le_toLex, hlt]⟩
      · rw [List.mem_singleton.mp hc]
        exact ⟨head, hhead, le_refl _⟩
    · next ha =>
      obtain rfl := Option.some.inj h
      have hge : d₀.time ≤ head.time := not_lt.mp fun hlt => ha (hafter.mpr hlt)
      refine ⟨by simpa using hf, fun _ => ⟨b₀, d₀, hin, by simp [hb₀], hhead₀, hcur, ?_⟩⟩
      intro c hc
      rcases List.mem_append.mp hc with hc | hc
      · exact hle c hc
      · rw [List.mem_singleton.mp hc]
        by_cases hb : b ∈ done
        · exact hle b hb
        · -- a new buffer comes after all of `done`
          have hidx : all.idxOf b₀ ≤ all.idxOf b := by
            rw [hall, List.idxOf_append_of_mem hb₀, List.idxOf_append_of_notMem hb]
            exact le_trans (le_of_lt (List.idxOf_lt_length_of_mem hb₀)) (Nat.le_add_right _ _)
          refine ⟨head, hhead, ?_⟩
          rcases lt_or_eq_of_le hge with hlt | heq
          · simp [rank, Prod.Lex.toLex_le_toLex, hlt]
          · simp [rank, Prod.Lex.toLex_le_toLex, heq, hidx]

theorem unionLoop_earliest {all bs : List β} (hstamp : ∀ b ∈ all, ∀ d ∈ (σ b).head?, d.atime.isSome) :
    ∀ {done : List β} {s s' : UnionLoop β}, all = done ++ bs → Earliest σ all done s →
      unionLoop σ bs s = some s' → (∀ b ∈ bs, σ b ≠ []) → Earliest σ all all s' := by
  induction bs with
  | nil =>
    intro done s s' hall hs h _
    obtain rfl := Option.some.inj h
    rw [List.append_nil] at hall
    rwa [← hall] at hs
  | cons b bs ih =>
    intro done s s' hall hs h hne
    rw [unionLoop] at h
    cases hb : σ b with
    | nil => exact absurd hb (hne b List.mem_cons_self)
    | cons head rest =>
      simp only [hb, Option.bind_eq_bind, Option.bind_eq_some_iff] at h
      obtain ⟨s₁, hlook, h⟩ := h
      have hhead : (σ b).head? = some head := by simp [hb]
      have ht : head.atime.isSome := hstamp b (by simp [hall]) head hhead
      exact ih (by simp [hall]) (look_earliest hs hall hhead ht hlook) h
        fun c hc => hne c (List.mem_cons_of_mem _ hc)

theorem exeSetIn_isSome (hfit : ∀ b ∈ u.unionBufs, ∀ d ∈ (σ b).head?, d.Fits) (tv : Scratch) :
    (exeSetIn tv u σ).isSome := by
  obtain ⟨s, hs⟩ := unionLoop_isSome hfit
    { empty := false, first := true, d := tv, current := tv, inBuf := u.inBuf }
  simp only [exeSetIn, hs, Option.bind_eq_bind, Option.bind_some]
  split
  · rfl
  · split <;> rfl

theorem exeSetIn_cases {rc : StmtRc} (h : exeSetIn tv u σ = some (rc, u', σ')) :
    u'.unionBufs = u.unionBufs ∧ (rc ≠ .success → σ' = σ) ∧
      ((rc = .noInput ∧ ∃ b ∈ u.unionBufs, σ b = [] ∧ u'.inBuf = some b) ∨
        (rc ≠ .noInput ∧ ∀ b ∈ u.unionBufs, σ b ≠ [])) := by
  simp only [exeSetIn, Option.bind_eq_bind, Option.bind_eq_some_iff] at h
  obtain ⟨s, hs, h⟩ := h
  rcases unionLoop_empty hs with ⟨he, b, hb, hempty, hin⟩ | ⟨he, hne⟩
  · rw [if_pos he] at h
    obtain ⟨rfl, rfl, rfl⟩ : .noInput = rc ∧ _ = u' ∧ σ = σ' := by simpa using h
    exact ⟨rfl, fun _ => rfl, .inl ⟨rfl, b, hb, hempty, hin⟩⟩
  · rw [if_neg (by simp [he])] at h
    split at h
    · obtain ⟨rfl, rfl, rfl⟩ : .failure = rc ∧ _ = u' ∧ σ = σ' := by simpa using h
      exact ⟨rfl, fun _ => rfl, .inr ⟨by simp, hne⟩⟩
    · obtain ⟨rfl, rfl, -⟩ : .success = rc ∧ _ = u' ∧ _ = σ' := by simpa using h
      exact ⟨rfl, absurd rfl, .inr ⟨by simp, hne⟩⟩

theorem exeSetIn_success (hstamp : ∀ b ∈ u.unionBufs, ∀ d ∈ (σ b).head?, d.atime.isSome)
    (h : exeSetIn tv u σ = some (.success, u', σ')) :
    ∃ b d out, u'.inBuf = some b ∧ Least Dbt.time u.unionBufs σ b d ∧ u.out = some out ∧
      σ' = σ.put out d := by
  obtain ⟨-, -, ⟨hrc, -⟩ | ⟨-, hne⟩⟩ := exeSetIn_cases h
  · cases hrc
  simp only [exeSetIn, Option.bind_eq_bind, Option.bind_eq_some_iff] at h
  obtain ⟨s, hs, h⟩ := h
  have hstart : Earliest σ u.unionBufs []
      { empty := false, first := true, d := tv, current := tv, inBuf := u.inBuf } :=
    ⟨by simp, absurd rfl⟩
  obtain ⟨-, hmin⟩ := unionLoop_earliest hstamp rfl hstart hs hne
  obtain ⟨b, d, hin, hb, hhead, hcur, hle⟩ := hmin u.nonempty
  split at h
  · simp at h
  · split at h
    · simp at h
    · next out hout =>
      obtain ⟨rfl, rfl⟩ : _ = u' ∧ _ = σ' := by simpa using h
      exact ⟨b, d, out, hin, ⟨hb, hhead, hle⟩, hout, by rw [hcur]⟩

theorem InOrder.of_append {xs : List Dbt} (ys : List Dbt) (h : InOrder (xs ++ ys)) : InOrder xs :=
  ⟨fun d hd => h.1 d (List.mem_append_left _ hd), (List.pairwise_append.mp h.2).1⟩

theorem success_merges {σ₀ : Store β} {fed : β → List Dbt} {consumed : List (β × Dbt)}
    (hm : Merge Dbt.time u.unionBufs σ₀ σ fed consumed)
    (hstamp : ∀ b ∈ u.unionBufs, ∀ d ∈ (σ b).head?, d.atime.isSome)
    (h : exeSetIn tv u σ = some (.success, u', σ')) :
    Merge Dbt.time u.unionBufs σ₀ (popIn u' σ') (fun b => fed b ++ (σ' b).drop (σ b).length)
        (consumed ++ popped u' σ') ∧
      outputOf u σ σ' = (popped u' σ').map Prod.snd := by
  obtain ⟨b, d, out, hin, hleast, hout, rfl⟩ := exeSetIn_success hstamp h
  obtain ⟨rest, hrest⟩ : ∃ rest, σ b = d :: rest := by
    cases hb : σ b with
    | nil => simpa [hb] using hleast.2.1
    | cons d' rest =>
      have hd : d' = d := by simpa [hb] using hleast.2.1
      exact ⟨rest, by rw [hd]⟩
  have hput : ∀ c, (σ.put out d) c = σ c ++ if c = out then [d] else [] := by
    intro c
    by_cases hc : c = out
    · subst hc
      simp [Store.put]
    · simp [Store.put, hc]
  have hpopped : popped u' (σ.put out d) = [(b, d)] := by
    simp [popped, hin, hput, hrest]
  refine ⟨?_, ?_⟩
  · rw [hpopped]
    have htake : Merge Dbt.time u.unionBufs σ₀ (fun c => if c = b then (σ c).tail else σ c) fed
        (consumed ++ [(b, d)]) := .take hm hleast fun _ _ => rfl
    refine htake.feed (fun c _ => ?_) (fun c _ => rfl)
    by_cases hc : c = b
    · subst hc
      simp [popIn, hin, Store.pop, hput, hrest]
    · simp [popIn, hin, Store.pop, hput, hc]
  · rw [hpopped]
    simp [outputOf, hout, hput]

theorem run_merge {u₀ : UtStmt β} {σ₀ : Store β} {fed : β → List Dbt} {consumed : List (β × Dbt)}
    {output : List Dbt} (hrun : UnionRun u₀ σ₀ u σ fed consumed output)
    (horder : ∀ b ∈ u₀.unionBufs, InOrder (σ₀ b ++ fed b)) :
    u.unionBufs = u₀.unionBufs ∧ Merge Dbt.time u₀.unionBufs σ₀ σ fed consumed ∧
      output = consumed.map Prod.snd := by
  induction hrun with
  | start => exact ⟨rfl, .start, rfl⟩
  | arrive new _ hq ih =>
    obtain ⟨hu, hm, hout⟩ := ih fun b hb =>
      InOrder.of_append (new b) (by simpa using horder b hb)
    exact ⟨hu, hm.feed (hu ▸ hq) fun _ _ => rfl, hout⟩
  | @success u u' σ σ' fed consumed output tv _ hexe ih =>
    obtain ⟨hu, hm, hout⟩ := ih fun b hb =>
      InOrder.of_append ((σ' b).drop (σ b).length) (by simpa using horder b hb)
    have hstamp : ∀ b ∈ u.unionBufs, ∀ d ∈ (σ b).head?, d.atime.isSome := by
      intro b hb d hd
      rw [hu] at hb
      refine (horder b hb).1 d ?_
      rw [← List.append_assoc, hm.split hb]
      exact List.mem_append_left _ (List.mem_append_right _ (List.mem_of_head? hd))
    rw [← hu] at hm
    obtain ⟨hm', hout'⟩ := success_merges hm hstamp hexe
    rw [hu] at hm'
    exact ⟨(exeSetIn_cases hexe).1.trans hu, hm', by rw [hout, hout', List.map_append]⟩
  | stopped tv _ hexe hrc ih =>
    obtain ⟨hu, hm, hout⟩ := ih horder
    obtain ⟨hu', hσ, -⟩ := exeSetIn_cases hexe
    rw [hσ hrc]
    exact ⟨hu'.trans hu, hm, hout⟩

/-- The output has the consumed tuples, once each, by time stamp; of each input, in order, what came
in before what is left; ties go to the first input of the list. An execution stops for an empty
input exactly if there is one. -/
theorem unionRun_merges {u₀ u : UtStmt β} {σ₀ σ : Store β} {fed : β → List Dbt}
    {consumed : List (β × Dbt)} {output : List Dbt}
    (hrun : UnionRun u₀ σ₀ u σ fed consumed output)
    (horder : ∀ b ∈ u₀.unionBufs, InOrder (σ₀ b ++ fed b)) :
    output.Pairwise (fun d e => d.time ≤ e.time) ∧
      output = consumed.map Prod.snd ∧
      (∀ e ∈ consumed, e.1 ∈ u₀.unionBufs) ∧
      (∀ b ∈ u₀.unionBufs, σ₀ b ++ fed b = takenOf consumed b ++ σ b) ∧
      consumed.Pairwise (fun e f => e.2.time = f.2.time →
        u₀.unionBufs.idxOf e.1 ≤ u₀.unionBufs.idxOf f.1) ∧
      ∀ tv : Scratch,
        ((∀ b ∈ u₀.unionBufs, ∀ d ∈ (σ b).head?, d.Fits) → (exeSetIn tv u σ).isSome) ∧
        ∀ rc u' σ', exeSetIn tv u σ = some (rc, u', σ') →
          (rc = .noInput ↔ ∃ b ∈ u₀.unionBufs, σ b = []) ∧
          (rc = .noInput → σ' = σ ∧ ∃ b ∈ u₀.unionBufs, σ b = [] ∧ u'.inBuf = some b) ∧
          (rc = .success → ∃ b d out, u'.inBuf = some b ∧ u.out = some out ∧
            σ' = σ.put out d ∧ Least Dbt.time u₀.unionBufs σ b d) := by
  obtain ⟨hu, hm, hout⟩ := run_merge hrun horder
  have hsorted := hm.sorted fun b hb => (horder b hb).2
  refine ⟨?_, hout, fun e he => hm.mem_inputs he, fun b hb => hm.split hb, ?_, ?_⟩
  · rw [hout, List.pairwise_map]
    exact hsorted.imp fun h => rank_le_key h
  · refine hsorted.imp fun h ht => ?_
    rcases rank_lt_or _ _ h with hlt | ⟨-, hidx⟩
    · exact absurd ht (ne_of_lt hlt)
    · exact hidx
  · intro tv
    rw [← hu]
    refine ⟨fun hfit => exeSetIn_isSome hfit tv, ?_⟩
    intro rc u' σ' hexe
    obtain ⟨-, hσ, hcases⟩ := exeSetIn_cases hexe
    refine ⟨?_, ?_, ?_⟩
    · rcases hcases with ⟨hrc, b, hb, hempty, -⟩ | ⟨hrc, hne⟩
      · exact ⟨fun _ => ⟨b, hb, hempty⟩, fun _ => hrc⟩
      · exact ⟨fun h => absurd h hrc, fun ⟨b, hb, hempty⟩ => absurd hempty (hne b hb)⟩
    · intro hrc
      rcases hcases with ⟨-, hin⟩ | ⟨hrc', -⟩
      · exact ⟨hσ (by simp [hrc]), hin⟩
      · exact absurd hrc hrc'
    · rintro rfl
      have hstamp : ∀ b ∈ u.unionBufs, ∀ d ∈ (σ b).head?, d.atime.isSome := by
        intro b hb d hd
        rw [hu] at hb
        refine (horder b hb).1 d ?_
        rw [hm.split hb]
        exact List.mem_append_right _ (List.mem_of_head? hd)
      obtain ⟨b, d, out, hin, hleast, hout, hput⟩ := exeSetIn_success hstamp hexe
      exact ⟨b, d, out, hin, hout, hput, hleast⟩

def twoInputs : UtStmt Nat :=
  { unionBufs := [0, 1], inBuf := none, out := some 2, nonempty := by simp }

def sameTime (b : Nat) : Dbt := { key := [], data := [BitVec.ofNat 8 b], atime := some ⟨1, 0⟩ }

def oneEach : Store Nat := fun b => if b < 2 then [sameTime b] else []

theorem unionRun_merges_oneEach :
    ∃ u σ fed, UnionRun twoInputs oneEach u σ fed [(0, sameTime 0)] [sameTime 0] ∧
      ∀ b ∈ [0, 1], oneEach b ++ fed b = takenOf [(0, sameTime 0)] b ++ σ b := by
  have hexe : exeSetIn { data := [], atime := ⟨0, 0⟩ } twoInputs oneEach =
      some (.success, { twoInputs with inBuf := some 0 }, oneEach.put 2 (sameTime 0)) := by
    simp [exeSetIn, unionLoop, UnionLoop.look, twoInputs, oneEach, Scratch.copy, sameTime, after,
      Scratch.dbt, maxStrLen]
  have hrun := UnionRun.success _ .start hexe
  have hone : ∀ b, InOrder [sameTime b] := fun b =>
    ⟨by simp [sameTime], List.pairwise_singleton _ _⟩
  refine ⟨_, _, _, hrun, (unionRun_merges hrun ?_).2.2.2.1⟩
  intro b hb
  have hb' : b = 0 ∨ b = 1 := by simpa [twoInputs] using hb
  rcases hb' with rfl | rfl
  · exact hone 0
  · exact hone 1

end Execution

end StreamMill.Esl
