import StreamMill.Lib.Depth

/-!
# StreamMill.Lib.Dataflow

Networks of stages that read channels and fill one each. A stage makes its output out of what came
on its channels so far, so that more input never takes output back. A history says what came on
each channel. If there are no cycles, what stages have put out so far is always a beginning of what
they put out in the end (`Network.sound_prefix`), and the end does not depend on the order in which
the stages ran (`Network.settled_unique`).
-/

namespace StreamMill.Lib

universe u v w

variable {κ : Type u} {ι : Type v} {α : Type w}

structure Network (ι : Type v) (κ : Type u) (α : Type w) where
  stages : List ι
  reads : ι → List κ
  fills : ι → κ
  make : ι → (κ → List α) → List α
  grows : ∀ s h h', (∀ c ∈ reads s, h c <+: h' c) → make s h <+: make s h'

namespace Network

variable (N : Network ι κ α)

/-- The first channel is filled from the second. -/
def From (c a : κ) : Prop := ∃ s ∈ N.stages, N.fills s = c ∧ a ∈ N.reads s

structure Sound (fed h : κ → List α) : Prop where
  made : ∀ s ∈ N.stages, h (N.fills s) <+: N.make s h
  fed : ∀ c, (∀ s ∈ N.stages, N.fills s ≠ c) → h c <+: fed c

/-- All that can be made of what was fed has come. -/
structure Settled (fed h : κ → List α) : Prop where
  made : ∀ s ∈ N.stages, h (N.fills s) = N.make s h
  fed : ∀ c, (∀ s ∈ N.stages, N.fills s ≠ c) → h c = fed c

variable {N} {fed fed' h h' : κ → List α}

theorem Settled.sound (hs : N.Settled fed h) : N.Sound fed h :=
  ⟨fun s hs' => hs.made s hs' ▸ List.prefix_refl _, fun c hc => hs.fed c hc ▸ List.prefix_refl _⟩

theorem sound_prefix (hac : Acyclic N.From) (hsound : N.Sound fed h) (hend : N.Settled fed' h')
    (hfed : ∀ c, (∀ s ∈ N.stages, N.fills s ≠ c) → fed c <+: fed' c) (c : κ) : h c <+: h' c := by
  -- the induction is on the number of channels above `c`
  induction hn : depth N.From (N.stages.flatMap N.reads) c using Nat.strongRecOn generalizing c with
  | ind n ih =>
    by_cases hc : ∃ s ∈ N.stages, N.fills s = c
    · obtain ⟨s, hs, rfl⟩ := hc
      refine (hsound.made s hs).trans ?_
      rw [hend.made s hs]
      refine N.grows s h h' fun a ha => ih _ ?_ a rfl
      rw [← hn]
      exact depth_lt hac (List.mem_flatMap.mpr ⟨s, hs, ha⟩) ⟨s, hs, rfl, ha⟩
    · have hc' : ∀ s ∈ N.stages, N.fills s ≠ c := fun s hs he => hc ⟨s, hs, he⟩
      rw [hend.fed c hc']
      exact (hsound.fed c hc').trans (hfed c hc')

theorem settled_unique (hac : Acyclic N.From) (hend : N.Settled fed h) (hend' : N.Settled fed' h')
    (hfed : ∀ c, (∀ s ∈ N.stages, N.fills s ≠ c) → fed c = fed' c) (c : κ) : h c = h' c := by
  have hto := sound_prefix hac hend.sound hend' (fun a ha => hfed a ha ▸ List.prefix_refl _) c
  have hfrom := sound_prefix hac hend'.sound hend (fun a ha => hfed a ha ▸ List.prefix_refl _) c
  exact hto.eq_of_length (Nat.le_antisymm hto.length_le hfrom.length_le)

end Network

section Transduce

variable {σ β : Type*} (f : σ → α → List β × σ)

def transduce : σ → List α → List β
  | _, [] => []
  | s, a :: as => (f s a).1 ++ transduce (f s a).2 as

def after (s : σ) (as : List α) : σ := as.foldl (fun s a => (f s a).2) s

@[simp] theorem after_concat (s : σ) (as : List α) (a : α) :
    after f s (as ++ [a]) = (f (after f s as) a).2 := by
  simp [after]

theorem transduce_append (s : σ) (as bs : List α) :
    transduce f s (as ++ bs) = transduce f s as ++ transduce f (after f s as) bs := by
  induction as generalizing s with
  | nil => rfl
  | cons a as ih => simp [transduce, after, ih]

@[simp] theorem transduce_concat (s : σ) (as : List α) (a : α) :
    transduce f s (as ++ [a]) = transduce f s as ++ (f (after f s as) a).1 := by
  simp [transduce_append, transduce]

theorem transduce_prefix (s : σ) {as bs : List α} (h : as <+: bs) :
    transduce f s as <+: transduce f s bs := by
  obtain ⟨rest, rfl⟩ := h
  rw [transduce_append]
  exact List.prefix_append _ _

end Transduce

end StreamMill.Lib
