import StreamMill.Lib.Routine

/-!
# StreamMill.Lib.Bisim

Two routines side by side: they return the same, or both do not return, and leave their states in a
relation that may depend on what they have returned. `Same.bind` puts calls together, `Same.calls`
carries a relation through any number of calls.
-/

namespace StreamMill.Lib

universe u v

variable {σ τ : Type u} {β : Type v}

def Same (R : β → σ → τ → Prop) : Option (β × σ) → Option (β × τ) → Prop :=
  Option.Rel fun r r' => r.1 = r'.1 ∧ R r.1 r.2 r'.2

variable {R : β → σ → τ → Prop} {o : Option (β × σ)} {o' : Option (β × τ)}

theorem Same.stuck : Same R (none : Option (β × σ)) (none : Option (β × τ)) := .none

theorem Same.ret {s : σ} {t : τ} (b : β) (h : R b s t) : Same R (some (b, s)) (some (b, t)) :=
  .some ⟨rfl, h⟩

theorem Same.results (h : Same R o o') : o.map Prod.fst = o'.map Prod.fst := by
  cases h with
  | none => rfl
  | some h => exact congrArg some h.1

theorem Same.bind {σ' τ' : Type u} {γ : Type v} {R' : γ → σ' → τ' → Prop} (h : Same R o o')
    {f : β × σ → Option (γ × σ')} {f' : β × τ → Option (γ × τ')}
    (hf : ∀ b s t, R b s t → Same R' (f (b, s)) (f' (b, t))) : Same R' (o.bind f) (o'.bind f') := by
  cases h with
  | none => exact .none
  | some h =>
    rename_i r r'
    obtain ⟨b, s⟩ := r
    obtain ⟨b', t⟩ := r'
    obtain ⟨rfl, hR⟩ := h
    exact hf b s t hR

theorem Same.map {σ' τ' : Type u} {γ : Type v} {R' : γ → σ' → τ' → Prop} (h : Same R o o')
    {f : β × σ → γ × σ'} {f' : β × τ → γ × τ'}
    (hf : ∀ b s t, R b s t → (f (b, s)).1 = (f' (b, t)).1 ∧
      R' (f (b, s)).1 (f (b, s)).2 (f' (b, t)).2) : Same R' (o.map f) (o'.map f') := by
  cases h with
  | none => exact .none
  | some h =>
    rename_i r r'
    obtain ⟨b, s⟩ := r
    obtain ⟨b', t⟩ := r'
    obtain ⟨rfl, hR⟩ := h
    exact .some (hf b s t hR)

theorem Same.calls {R : σ → τ → Prop} {next : σ → Option (Option β × σ)}
    {next' : τ → Option (Option β × τ)}
    (hnext : ∀ s t, R s t → Same (fun _ => R) (next s) (next' t)) (n : Nat) {s : σ} {t : τ}
    (h : R s t) : Same (fun _ => R) (calls next n s) (calls next' n t) := by
  induction n generalizing s t with
  | zero => exact Same.ret [] h
  | succ n ih =>
    refine (hnext s t h).bind fun a s₁ t₁ h₁ => ?_
    exact (ih h₁).bind fun as s₂ t₂ h₂ => Same.ret (a :: as) h₂

end StreamMill.Lib
