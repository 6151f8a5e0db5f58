import StreamMill.Env.Scope

/-!
# StreamMill.Env.SwapScope

`S_swapScope`: on every table with two open scopes or more it removes the second one
(`swapScope_run`).
-/

namespace StreamMill.Env

open Lib (Scopes)

variable {mark : Mark}

section Depth

variable {ops ops' : List (Op mark)} {d e k : Nat}

theorem depth_append : depth d (ops ++ ops') = (depth d ops).bind fun e => depth e ops' := by
  induction ops generalizing d with
  | nil => rfl
  | cons op ops ih =>
    cases op with
    | beginScope => exact ih
    | enter sym value => exact ih
    | dump => exact ih
    | endScope =>
      cases d with
      | zero => rfl
      | succ d => exact ih

theorem depth_add (h : depth d ops = some e) (k : Nat) : depth (d + k) ops = some (e + k) := by
  induction ops generalizing d with
  | nil => rw [← Option.some.inj h, depth]
  | cons op ops ih =>
    cases op with
    | beginScope =>
      have hk := ih h
      rwa [Nat.add_right_comm] at hk
    | enter sym value => exact ih h
    | dump => exact ih h
    | endScope =>
      cases d with
      | zero => cases h
      | succ d =>
        rw [Nat.add_right_comm]
        exact ih h

theorem opened_split (h : depth 0 ops = some (d + 1)) :
    ∃ pre body, ops = pre ++ .beginScope :: body ∧ Balanced body ∧ depth 0 pre = some d := by
  induction hn : ops.length using Nat.strong_induction_on generalizing ops d with
  | _ n ih =>
    subst hn
    cases ops using List.reverseRecOn with
    | nil => cases h
    | append_singleton ops op =>
      rw [depth_append] at h
      obtain ⟨e, he, hop⟩ := Option.bind_eq_some_iff.mp h
      have hless : ops.length < (ops ++ [op]).length := by simp
      have hlast (hdepth : depth 0 ops = some (d + 1))
          (hkeep : ∀ e : Nat, depth e [op] = some e) : ∃ pre body,
          ops ++ [op] = pre ++ .beginScope :: body ∧ Balanced body ∧ depth 0 pre = some d := by
        obtain ⟨pre, body, rfl, hbody, hpre⟩ := ih _ hless hdepth rfl
        refine ⟨pre, body ++ [op], by simp, ?_, hpre⟩
        rw [Balanced, depth_append, hbody]
        exact hkeep 0
      cases op with
      | enter sym value =>
        obtain rfl := Option.some.inj hop
        exact hlast he fun _ => rfl
      | dump =>
        obtain rfl := Option.some.inj hop
        exact hlast he fun _ => rfl
      | beginScope =>
        obtain rfl := Nat.succ.inj (Option.some.inj hop)
        exact ⟨ops, [], rfl, rfl, he⟩
      | endScope =>
        cases e with
        | zero => cases hop
        | succ e =>
          obtain rfl := Option.some.inj hop
          -- the scope that ends, and the one around it
          obtain ⟨pre', body', rfl, hbody', hpre'⟩ := ih _ hless he rfl
          obtain ⟨pre, body, rfl, hbody, hpre⟩ :=
            ih pre'.length (by simp) hpre' rfl
          refine ⟨pre, body ++ .beginScope :: body' ++ [.endScope], by simp, ?_, hpre⟩
          rw [Balanced, depth_append, depth_append, hbody]
          show ((depth 1 body').bind fun e => depth e [.endScope]) = some 0
          rw [show depth 1 body' = some 1 from depth_add hbody' 1]
          rfl

end Depth

theorem sSwapScope_table (inner second outer : List (SSymbol mark × Ptr))
    (outers : List (List (SSymbol mark × Ptr))) :
    sSwapScope mark (table ⟨inner, second :: outer :: outers⟩) =
      if maxStrLen < 2 * (inner.length + 1) then .error .overflow
      else .ok (table ⟨inner, outer :: outers⟩) := by
  rw [sSwapScope, table, rows_cons, rows_cons, saveScope_tableOf, List.length_nil, Nat.zero_add]
  by_cases hfull : maxStrLen < 2 * (inner.length + 1)
  · rw [if_pos hfull, if_pos hfull]
  · rw [if_neg hfull, if_neg hfull]
    dsimp only
    rw [sEndScope_tableOf]
    dsimp only
    rw [enterAll_tableOf]
    · simp [table, rows_cons]
    · intro e he
      rw [List.append_nil, List.mem_cons, List.mem_reverse] at he
      rcases he with rfl | he
      · exact mark.2
      · obtain ⟨b, -, rfl⟩ := List.mem_map.mp he
        exact b.1.2.1

section Run

variable {s : Scopes (SSymbol mark) Ptr}

theorem balanced_run {body : List (Op mark)} (h : Balanced body) :
    ∃ inner, inner = openBindings body ∧
      ∀ outer, body.foldlM scopesStep ⟨[], outer⟩ = some ⟨inner, outer⟩ := by
  obtain ⟨inner, opened, hnil, hrun⟩ := scopes_run [] [] h
  obtain rfl := List.length_eq_zero_iff.mp hnil
  refine ⟨inner, ?_, hrun⟩
  have hback := outside_run (hrun []) 0
  rw [Scopes.outside_zero, Scopes.bindings] at hback
  simpa [openBindings] using hback

theorem run_scope {pre body : List (Op mark)} {inner : List (SSymbol mark × Ptr)}
    (hpre : pre.foldlM scopesStep .empty = some s)
    (hbody : ∀ outer, body.foldlM scopesStep ⟨[], outer⟩ = some ⟨inner, outer⟩) :
    (pre ++ .beginScope :: body).foldlM scopesStep .empty =
      some ⟨inner, s.inner :: s.outer⟩ := by
  rw [List.foldlM_append, hpre]
  exact hbody _

/-- The last two scopes that are open begin behind `pre` and behind `second`. -/
structure TwoScopes (ops pre second top : List (Op mark)) : Prop where
  split : ops = pre ++ .beginScope :: second ++ .beginScope :: top
  second : Balanced second
  top : Balanced top

/-- After every run that leaves two scopes open, `S_swapScope` leads to the table of the run without
the second one, unless its buffer is too small. -/
theorem swapScope_run {d : Nat} (ops : List (Op mark)) (hops : depth 0 ops = some (d + 2)) :
    (∃ pre second top, TwoScopes ops pre second top) ∧
      ∀ pre second top, TwoScopes ops pre second top →
        ∃ t t' t₀, run sEmpty ops = .ok t ∧ run sEmpty (pre ++ .beginScope :: top) = .ok t' ∧
          run sEmpty pre = .ok t₀ ∧
          (2 * ((openBindings top).length + 1) ≤ maxStrLen →
            sSwapScope mark t = .ok t' ∧ sEndScope mark t' = .ok t₀) ∧
          (maxStrLen < 2 * ((openBindings top).length + 1) →
            sSwapScope mark t = .error .overflow) := by
  constructor
  · obtain ⟨pre', top, rfl, htop, hpre'⟩ := opened_split hops
    obtain ⟨pre, second, rfl, hsecond, -⟩ := opened_split hpre'
    exact ⟨pre, second, top, rfl, hsecond, htop⟩
  · rintro pre second top ⟨rfl, hsecond, htop⟩
    rw [List.append_assoc, depth_append] at hops
    obtain ⟨e, hpre, -⟩ := Option.bind_eq_some_iff.mp hops
    obtain ⟨inner, opened, -, hs⟩ := scopes_run [] [] hpre
    have hrun := hs []
    obtain ⟨innerSecond, -, hinner₂⟩ := balanced_run hsecond
    obtain ⟨innerTop, htopen, hinner⟩ := balanced_run htop
    have hrun₁ := run_scope hrun hinner₂
    rw [sEmpty_eq mark]
    refine ⟨_, _, _, run_table (run_scope hrun₁ hinner), run_table (run_scope hrun hinner),
      run_table hrun, fun hfit => ⟨?_, sEndScope_table rfl⟩, fun hfull => ?_⟩
    · rw [sSwapScope_table, if_neg (by rw [htopen]; omega)]
    · rw [sSwapScope_table, if_pos (by rw [htopen]; exact hfull)]

/-- A symbol bound in all three scopes. -/
theorem swapScope_run_three :
    ∃ (a : SSymbol ⟨1, by decide⟩) (t t' : TabTable),
      run sEmpty [.enter a 4, .beginScope, .enter a 5, .beginScope, .enter a 6] = .ok t ∧
      run sEmpty [.enter a 4, .beginScope, .enter a 6] = .ok t' ∧
      sSwapScope ⟨1, by decide⟩ t = .ok t' := by
  have hswap := @swapScope_run ⟨1, by decide⟩ 0
    [.enter ⟨2, by decide⟩ 4, .beginScope, .enter ⟨2, by decide⟩ 5, .beginScope,
      .enter ⟨2, by decide⟩ 6] rfl
  obtain ⟨t, t', _, ht, ht', -, hfit, -⟩ := hswap.2 [_] [_] [_] ⟨rfl, rfl, rfl⟩
  exact ⟨_, t, t', ht, ht', (hfit (by decide)).1⟩

end Run

end StreamMill.Env
