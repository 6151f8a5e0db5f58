import StreamMill.Esl.Driver
import Mathlib.Logic.Function.Basic
import Mathlib.Tactic.SplitIfs

/-!
# StreamMill.Esl.BufGraph

What the buffer state table stands for: which statements read a buffer and which statement
produces it. `Canon` says that a table is the one of such a graph, entry for entry; every
branch of `addStmt` and `dropStmt` is then one of four changes of the graph (`read`,
`produce`, `unread`, `unproduce`).
-/

namespace StreamMill.Esl

def Stmt.inputs (s : Stmt) : List Name := s.inBufs.getD []

/-- `back` and `first` are what the table keeps besides: the `back` member of a buffer, and
the statement that stays in the entry of a fork. -/
structure Graph where
  cons : Name → List StmtId
  prod : Name → Option StmtId
  first : Name → Option StmtId
  back : Name → Bk

section Render

variable (cat : Catalog)

def bufferTyOf : Option StmtId → List StmtId → BufferTy
  | none, [] => .none
  | none, [_] => .source
  | none, _ :: _ :: _ => .sourceFork
  | some p, [] => if (cat p).type = .normal then .sink else .mergeSink
  | some p, [_] => if (cat p).type = .normal then .normal else .merge
  | some p, _ :: _ :: _ => if (cat p).type = .normal then .fork else .mergeFork

def actionOf : BufferTy → DAction
  | .none | .sink => .none
  | .source | .normal => .cjump
  | .merge => .mergeJump
  | .mergeSink => .merge
  | .fork | .sourceFork => .cfork
  | .mergeFork => .mergeCfork
  | .forkDummy => .jump

def forwardOf : List StmtId → Fw
  | [] => .forwardBuf none
  | [c] => .forwardBuf (some (cat c).out)
  | cs => .forkCount cs.length

def statementOf (first : Option StmtId) : List StmtId → Option StmtId
  | [] => none
  | [c] => some c
  | _ => first

def inplaceOf (b : Name) : List StmtId → Option Name
  | [] => none
  | _ => some b

def render (b : Name) (p : Option StmtId) (cs : List StmtId) (first : Option StmtId)
    (back : Bk) : BufferEntry :=
  { bType := bufferTyOf cat p cs, statement := statementOf first cs, buf := some b
    back := back, inplace := inplaceOf b cs, forward := forwardOf cat cs
    action := actionOf (bufferTyOf cat p cs) }

def Graph.entry (G : Graph) (b : Name) : BufferEntry :=
  render cat b (G.prod b) (G.cons b) (G.first b) (G.back b)

end Render

namespace Graph

def Known (G : Graph) (b : Name) : Prop := G.prod b ≠ none ∨ G.cons b ≠ []

def Forks (G : Graph) (b : Name) : Prop := 2 ≤ (G.cons b).length

def empty : Graph := ⟨fun _ => [], fun _ => none, fun _ => none, fun _ => .backBuf none⟩

/-- `s` reads `b`. The first reader of an unknown buffer makes it a source, a second one a fork, and
the output of the first one comes after its dummy. -/
def read (cat : Catalog) (G : Graph) (s : StmtId) (b : Name) : Graph :=
  { G with
    cons := Function.update G.cons b (G.cons b ++ [s])
    first := match G.cons b with
      | [c] => Function.update G.first b (some c)
      | _ => G.first
    back := match G.cons b with
      | [] => if G.prod b = none then Function.update G.back b (.backBuf none) else G.back
      | [c] =>
        if (cat c).type = .normal then
          Function.update G.back (cat c).out (.backBuf (some (b ++ (cat c).out)))
        else G.back
      | _ => G.back }

def produce (G : Graph) (s : StmtId) (out : Name) (back : Bk) : Graph :=
  { G with prod := Function.update G.prod out (some s), back := Function.update G.back out back }

/-- `s` no longer reads `b`. When one reader stays behind a fork, its output comes after `b`
itself, whatever produces that output. -/
def unread (cat : Catalog) (G : Graph) (s : StmtId) (b : Name) : Graph :=
  { G with
    cons := Function.update G.cons b ((G.cons b).erase s)
    back := match (G.cons b).erase s with
      | [c] => Function.update G.back (cat c).out (.backBuf (some b))
      | _ => G.back }

def unproduce (G : Graph) (out : Name) : Graph :=
  { G with prod := Function.update G.prod out none
           back := Function.update G.back out (.backBuf none) }

end Graph

section Names

variable (cat : Catalog)

def IsBuf (W : List StmtId) (b : Name) : Prop :=
  ∃ s ∈ W, b = (cat s).out ∨ b ∈ (cat s).inputs

/-- A statement reads a buffer once, no two produce one buffer, and the name of a dummy is no
buffer's name and no other dummy's. -/
structure Names (W : List StmtId) : Prop where
  inputsNodup : ∀ s ∈ W, (cat s).inputs.Nodup
  outInj : ∀ s ∈ W, ∀ s' ∈ W, (cat s).out = (cat s').out → s = s'
  dummyApart : ∀ s ∈ W, ∀ b ∈ (cat s).inputs, ¬ IsBuf cat W (b ++ (cat s).out)
  dummyInj : ∀ s ∈ W, ∀ s' ∈ W, ∀ b ∈ (cat s).inputs, ∀ b' ∈ (cat s').inputs,
    b ++ (cat s).out = b' ++ (cat s').out → b = b' ∧ (cat s).out = (cat s').out

structure Within (W : List StmtId) (G : Graph) : Prop where
  cons : ∀ b, ∀ c ∈ G.cons b, c ∈ W ∧ b ∈ (cat c).inputs
  prod : ∀ b p, G.prod b = some p → p ∈ W ∧ (cat p).out = b
  nodup : ∀ b, (G.cons b).Nodup

structure Canon (t : BufStateTbl) (G : Graph) : Prop where
  buffers : ∀ b, G.Known b → t.lookup b = some (G.entry cat b)
  dummies : ∀ b, G.Forks b → ∀ c ∈ G.cons b,
    t.lookup (b ++ (cat c).out) = some (dummyEntry (some c) b (cat c).out)
  only : ∀ k e, t.lookup k = some e →
    G.Known k ∨ ∃ b, G.Forks b ∧ ∃ c ∈ G.cons b, k = b ++ (cat c).out

end Names

section Rendered

variable {cat : Catalog} {b : Name} {p : Option StmtId} {first : Option StmtId} {back : Bk}

theorem render_toFork (c s : StmtId) :
    (render cat b p [c] first back).toFork = render cat b p [c, s] (some c) back := by
  cases p with
  | none => rfl
  | some p =>
    by_cases h : (cat p).type = .normal <;>
      simp [BufferEntry.toFork, render, bufferTyOf, statementOf, forwardOf, inplaceOf, actionOf, h]

theorem render_grow {cs : List StmtId} (h : 2 ≤ cs.length) (s : StmtId) :
    { render cat b p cs first back with forward := .forkCount (cs.length + 1) }
      = render cat b p (cs ++ [s]) first back := by
  obtain ⟨c₁, c₂, r, rfl⟩ : ∃ c₁ c₂ r, cs = c₁ :: c₂ :: r := by
    match cs, h with
    | c₁ :: c₂ :: r, _ => exact ⟨c₁, c₂, r, rfl⟩
  cases p <;> simp [render, bufferTyOf, statementOf, forwardOf, inplaceOf]

theorem render_toRead (p s : StmtId) :
    (render cat b (some p) [] first back).toRead s (cat s).out b
      = render cat b (some p) [s] first back := by
  by_cases h : (cat p).type = .normal <;>
    simp [BufferEntry.toRead, render, bufferTyOf, statementOf, forwardOf, inplaceOf, actionOf, h]

end Rendered

end StreamMill.Esl
