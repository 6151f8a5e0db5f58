import Mathlib.Data.List.Basic

/-!
# StreamMill.Lib.Scopes

Environments with scopes: `look` finds the latest binding, and a scope that ends takes its bindings
along.
-/

namespace StreamMill.Lib

universe u v

structure Scopes (κ : Type u) (ν : Type v) where
  inner : List (κ × ν)
  outer : List (List (κ × ν))

namespace Scopes

variable {κ : Type u} {ν : Type v}

def empty : Scopes κ ν := ⟨[], []⟩

def beginScope (s : Scopes κ ν) : Scopes κ ν := ⟨[], s.inner :: s.outer⟩

def enter (s : Scopes κ ν) (k : κ) (v : ν) : Scopes κ ν := ⟨(k, v) :: s.inner, s.outer⟩

def endScope (s : Scopes κ ν) : Option (Scopes κ ν) :=
  match s.outer with
  | [] => none
  | inner :: outer => some ⟨inner, outer⟩

def bindings (s : Scopes κ ν) : List (κ × ν) := s.inner ++ s.outer.flatten

def look [BEq κ] (s : Scopes κ ν) (k : κ) : Option ν := s.bindings.lookup k

/-- The environment outside the `n` innermost scopes. -/
def outside (s : Scopes κ ν) (n : Nat) : List (κ × ν) := ((s.inner :: s.outer).drop n).flatten

@[simp] theorem outside_zero (s : Scopes κ ν) : s.outside 0 = s.bindings := rfl

theorem outside_endScope {s s' : Scopes κ ν} (h : s.endScope = some s') (n : Nat) :
    s'.outside n = s.outside (n + 1) := by
  obtain ⟨inner, _ | ⟨c, cs⟩⟩ := s
  · cases h
  · obtain rfl := Option.some.inj h
    rfl

end Scopes

end StreamMill.Lib
