import Mathlib.Data.List.Basic

/-!
# StreamMill.Lib.While

A `while` loop with a body that may fail. `Passes` leads from a state to a later one by finitely
many passes; with enough fuel the loop then ends where they lead (`Passes.ends`), or fails there
(`Passes.fails`). `Returns` says the same of a fuelled function as such.
-/

namespace StreamMill.Lib

universe u v w

variable {σ : Type u} {ε : Type v} {β : Type w}

/-- `while (cond) body`; `none` if `fuel` passes are not enough. -/
def whileLoop (cond : σ → Bool) (body : σ → Except ε σ) : Nat → σ → Option (Except ε σ)
  | 0, _ => none
  | fuel + 1, s =>
    if cond s then
      match body s with
      | .error e => some (.error e)
      | .ok s => whileLoop cond body fuel s
    else some (.ok s)

/-- With enough fuel `f` returns `r`. -/
def Returns (f : Nat → Option β) (r : β) : Prop :=
  ∃ enough, ∀ fuel, enough ≤ fuel → f fuel = some r

theorem Returns.unique {f : Nat → Option β} {r r' : β} (h : Returns f r) (h' : Returns f r') :
    r = r' := by
  obtain ⟨n, hn⟩ := h
  obtain ⟨n', hn'⟩ := h'
  have heq := hn (n + n') (Nat.le_add_right _ _)
  rw [hn' (n + n') (Nat.le_add_left _ _)] at heq
  exact (Option.some.inj heq).symm

theorem Returns.of_succ {f g : Nat → Option β} {r : β} (h : Returns g r)
    (hfg : ∀ fuel, f (fuel + 1) = g fuel) : Returns f r := by
  obtain ⟨n, hn⟩ := h
  refine ⟨n + 1, fun fuel hfuel => ?_⟩
  obtain ⟨k, rfl⟩ : ∃ k, fuel = k + 1 := ⟨fuel - 1, by omega⟩
  rw [hfg]
  exact hn k (by omega)

theorem Returns.of_mono {f : Nat → Option β} {r : β} {n : Nat} (h : f n = some r)
    (hmono : ∀ fuel, f fuel = some r → f (fuel + 1) = some r) : Returns f r := by
  refine ⟨n, fun fuel hfuel => ?_⟩
  obtain ⟨k, rfl⟩ := Nat.exists_eq_add_of_le hfuel
  clear hfuel
  induction k with
  | zero => exact h
  | succ k ih => exact hmono (n + k) ih

variable {cond : σ → Bool} {body : σ → Except ε σ}

inductive Passes (cond : σ → Bool) (body : σ → Except ε σ) : σ → σ → Prop
  | refl {s : σ} : Passes cond body s s
  | pass {s s' s'' : σ} : cond s = true → body s = .ok s' → Passes cond body s' s'' →
      Passes cond body s s''

theorem Passes.single {s s' : σ} (hc : cond s = true) (hb : body s = .ok s') :
    Passes cond body s s' := .pass hc hb .refl

theorem Passes.trans {s s' s'' : σ} (h : Passes cond body s s') (h' : Passes cond body s' s'') :
    Passes cond body s s'' := by
  induction h with
  | refl => exact h'
  | pass hc hb _ ih => exact .pass hc hb (ih h')

theorem Passes.returns {s s' : σ} {r : Except ε σ} (h : Passes cond body s s')
    (hr : Returns (fun fuel => whileLoop cond body fuel s') r) :
    Returns (fun fuel => whileLoop cond body fuel s) r := by
  induction h with
  | refl => exact hr
  | pass hc hb _ ih =>
    obtain ⟨n, hn⟩ := ih hr
    refine ⟨n + 1, fun fuel hfuel => ?_⟩
    cases fuel with
    | zero => omega
    | succ fuel =>
      have hpass := hn fuel (by omega)
      show whileLoop cond body (fuel + 1) _ = some r
      rw [whileLoop, if_pos hc, hb]
      exact hpass

theorem Passes.ends {s s' : σ} (h : Passes cond body s s') (hc : cond s' = false) :
    Returns (fun fuel => whileLoop cond body fuel s) (.ok s') := by
  refine h.returns ⟨1, fun fuel hfuel => ?_⟩
  cases fuel with
  | zero => omega
  | succ fuel =>
    show whileLoop cond body (fuel + 1) _ = _
    rw [whileLoop, if_neg (by simp [hc])]

theorem Passes.fails {s s' : σ} {e : ε} (h : Passes cond body s s') (hc : cond s' = true)
    (hb : body s' = .error e) : Returns (fun fuel => whileLoop cond body fuel s) (.error e) := by
  refine h.returns ⟨1, fun fuel hfuel => ?_⟩
  cases fuel with
  | zero => omega
  | succ fuel =>
    show whileLoop cond body (fuel + 1) _ = _
    rw [whileLoop, if_pos hc, hb]

end StreamMill.Lib
