import Mathlib.Algebra.Order.Ring.Int
import Mathlib.Order.Lattice
import Mathlib.Tactic.Linarith

/-!
# StreamMill.RTree.Rectangle

Rectangles of the R-tree (`rectangle.cc`). A rectangle keeps its upper left and its lower right
corner, so `xUl ≤ xLr` and `yLr ≤ yUl` for a proper one. Areas are exact integers: the source
computes them in doubles.

`Covers r s` is the abstract reading of `containedIn s r ≥ 0`; the R-tree proofs use `Covers` and
its order lemmas only.
-/

namespace StreamMill.RTree

structure Rect where
  xUl : Int
  yUl : Int
  xLr : Int
  yLr : Int
  deriving DecidableEq, Repr

def containedIn (r1 r2 : Rect) : Int :=
  if r1.xUl = r2.xUl ∧ r1.yUl = r2.yUl ∧ r1.xLr = r2.xLr ∧ r1.yLr = r2.yLr then 0
  else if r1.xUl ≥ r2.xUl ∧ r1.yUl ≤ r2.yUl ∧ r1.xLr ≤ r2.xLr ∧ r1.yLr ≥ r2.yLr then 1
  else -1

def area (r : Rect) : Int := (r.yUl - r.yLr) * (r.xLr - r.xUl)

def compose (r1 r2 : Rect) : Rect where
  xUl := min r1.xUl r2.xUl
  yUl := max r1.yUl r2.yUl
  xLr := max r1.xLr r2.xLr
  yLr := min r1.yLr r2.yLr

def Covers (r s : Rect) : Prop :=
  r.xUl ≤ s.xUl ∧ s.yUl ≤ r.yUl ∧ s.xLr ≤ r.xLr ∧ r.yLr ≤ s.yLr

instance (r s : Rect) : Decidable (Covers r s) := by unfold Covers; infer_instance

theorem Covers.refl (r : Rect) : Covers r r := ⟨le_rfl, le_rfl, le_rfl, le_rfl⟩

theorem Covers.trans {r s t : Rect} (h₁ : Covers r s) (h₂ : Covers s t) : Covers r t :=
  ⟨h₁.1.trans h₂.1, h₂.2.1.trans h₁.2.1, h₂.2.2.1.trans h₁.2.2.1, h₁.2.2.2.trans h₂.2.2.2⟩

theorem compose_covers_left (r s : Rect) : Covers (compose r s) r :=
  ⟨min_le_left _ _, le_max_left _ _, le_max_left _ _, min_le_left _ _⟩

theorem compose_covers_right (r s : Rect) : Covers (compose r s) s :=
  ⟨min_le_right _ _, le_max_right _ _, le_max_right _ _, min_le_right _ _⟩

theorem containedIn_eq_zero {r s : Rect} : containedIn r s = 0 ↔ r = s := by
  unfold containedIn
  constructor
  · intro h
    split at h
    · next he =>
      cases r; cases s
      simp only [Rect.mk.injEq]
      exact he
    · split at h <;> simp at h
  · rintro rfl
    simp

theorem containedIn_nonneg {r s : Rect} : 0 ≤ containedIn r s ↔ Covers s r := by
  unfold containedIn Covers
  split
  · next h => omega
  · split
    · next h => omega
    · next h => constructor <;> intro h' <;> omega

end StreamMill.RTree
