import Mathlib.Data.BitVec
import StreamMill.FPTree.Represents

/-!
# StreamMill.Swim.Stamps

What insertions of patterns leave for every pattern, without a tree: its support and the windows
of the first and of the last insertion that passed it.
-/

namespace StreamMill.Swim

open FPTree (Trans Adr)

structure Stamp where
  support : BitVec 32
  startId : BitVec 16
  endId : BitVec 16
  deriving DecidableEq

def Stamp.made (s : Nat) (w : BitVec 16) : Stamp := ⟨BitVec.ofNat 32 s, w, w⟩

def Stamp.seen (d : Stamp) (s : Nat) (w : BitVec 16) : Stamp :=
  { d with support := d.support + BitVec.ofNat 32 s, endId := w }

def touched (s : Nat) (w : BitVec 16) : Option Stamp → Stamp
  | none => .made s w
  | some d => d.seen s w

abbrev Stamps := Adr → Option Stamp

namespace Stamps

variable (s : Nat) (w : BitVec 16) (D : Stamps)

def touch (b : Adr) : Stamps := Function.update D b (some (touched s w (D b)))

/-- The patterns from `a` to `a ++ items`, `a` apart. -/
def along : Stamps → Adr → List Nat → Stamps
  | D, _, [] => D
  | D, a, c :: items => along (D.touch s w (a ++ [c])) (a ++ [c]) items

def insert (t : Trans) : Stamps := D.along t.support w [] t.items

def insertAll (ops : List (Trans × BitVec 16)) : Stamps :=
  ops.foldl (fun D op => D.insert op.2 op.1) D

def support (b : Adr) : BitVec 32 := (D b).elim 0 Stamp.support

def through (b : Adr) (ops : List (Trans × BitVec 16)) : List (Trans × BitVec 16) :=
  ops.filter fun op => b <+: op.1.items

end Stamps

variable {D : Stamps} {s : Nat} {w : BitVec 16} {a b : Adr}

@[simp] theorem touched_endId (o : Option Stamp) : (touched s w o).endId = w := by
  cases o <;> rfl

theorem touched_support (o : Option Stamp) :
    (touched s w o).support = o.elim 0 Stamp.support + BitVec.ofNat 32 s := by
  cases o with
  | none => exact (BitVec.zero_add _).symm
  | some d => rfl

theorem not_concat_prefix (a : Adr) (i : Nat) : ¬ a ++ [i] <+: a := by
  intro h
  have hle := h.length_le
  simp only [List.length_append, List.length_singleton] at hle
  omega

theorem Stamps.along_apply (D : Stamps) (a : Adr) (items : List Nat) (b : Adr) :
    D.along s w a items b =
      if b <+: a ++ items ∧ ¬ b <+: a then some (touched s w (D b)) else D b := by
  induction items generalizing D a with
  | nil =>
    rw [List.append_nil, if_neg fun h => h.2 h.1]
    rfl
  | cons c items ih =>
    have happ : a ++ [c] ++ items = a ++ c :: items := by rw [List.append_assoc]; rfl
    have hac : a ++ [c] <+: a ++ c :: items := happ ▸ List.prefix_append _ _
    rw [along, ih, happ, touch, Function.update_apply]
    by_cases hb : b = a ++ [c]
    · subst hb
      rw [if_neg fun h => h.2 List.prefix_rfl, if_pos rfl, if_pos ⟨hac, not_concat_prefix a c⟩]
    · rw [if_neg hb]
      refine if_congr (and_congr_right fun _ => not_congr ?_) rfl rfl
      constructor
      · exact fun h => (FPTree.prefix_concat_iff.mp h).resolve_right hb
      · exact fun h => h.trans (List.prefix_append a [c])

theorem Stamps.insert_apply (D : Stamps) (t : Trans) (b : Adr) :
    D.insert w t b =
      if b ≠ [] ∧ b <+: t.items then some (touched t.support w (D b)) else D b := by
  rw [insert, along_apply]
  refine if_congr ?_ rfl rfl
  rw [List.prefix_nil]
  exact and_comm

def passes (o : Option Stamp) (ops : List (Trans × BitVec 16)) : Option Stamp :=
  ops.foldl (fun o op => some (touched op.1.support op.2 o)) o

theorem Stamps.insertAll_apply (D : Stamps) (ops : List (Trans × BitVec 16)) (hb : b ≠ []) :
    D.insertAll ops b = passes (D b) (through b ops) := by
  induction ops generalizing D with
  | nil => rfl
  | cons op ops ih =>
    have hstep : D.insertAll (op :: ops) = (D.insert op.2 op.1).insertAll ops := rfl
    rw [hstep, ih, insert_apply, through, through, List.filter_cons]
    by_cases hp : b <+: op.1.items
    · rw [if_pos ⟨hb, hp⟩, if_pos (decide_eq_true hp)]
      rfl
    · rw [if_neg fun h => hp h.2, if_neg fun h => hp (of_decide_eq_true h)]

theorem Stamps.mem_through {ops : List (Trans × BitVec 16)} {op : Trans × BitVec 16} :
    op ∈ through b ops ↔ op ∈ ops ∧ b <+: op.1.items := by
  rw [through, List.mem_filter, decide_eq_true_iff]

section Folds

variable {o : Option Stamp} {ops : List (Trans × BitVec 16)}

theorem passes_isSome : (passes o ops).isSome ↔ o.isSome ∨ ops ≠ [] := by
  induction ops generalizing o with
  | nil => simp [passes]
  | cons op ops ih =>
    have hstep : passes o (op :: ops) = passes (some (touched op.1.support op.2 o)) ops := rfl
    rw [hstep, ih]
    simp

theorem passes_support : (passes o ops).elim 0 Stamp.support =
    o.elim 0 Stamp.support + (ops.map fun op => BitVec.ofNat 32 op.1.support).sum := by
  induction ops generalizing o with
  | nil => exact (add_zero _).symm
  | cons op ops ih =>
    have hstep : passes o (op :: ops) = passes (some (touched op.1.support op.2 o)) ops := rfl
    rw [hstep, ih, List.map_cons, List.sum_cons, ← add_assoc]
    exact congrArg (· + _) (touched_support o)

theorem passes_endId {op : Trans × BitVec 16} (h : op ∈ ops.getLast?) :
    ∃ d, passes o ops = some d ∧ d.endId = op.2 := by
  obtain ⟨pre, rfl⟩ := List.getLast?_eq_some_iff.mp h
  rw [passes, List.foldl_append]
  exact ⟨_, rfl, touched_endId _⟩

theorem passes_startId {d : Stamp} :
    ∃ d', passes (some d) ops = some d' ∧ d'.startId = d.startId := by
  induction ops generalizing d with
  | nil => exact ⟨d, rfl, rfl⟩
  | cons op ops ih =>
    obtain ⟨d', hd', hstart⟩ := ih
    exact ⟨d', hd', hstart⟩

end Folds

theorem Stamps.insertAll_append (D : Stamps) (ops ops' : List (Trans × BitVec 16)) :
    D.insertAll (ops ++ ops') = (D.insertAll ops).insertAll ops' := List.foldl_append

theorem Stamps.through_ne_nil {ops : List (Trans × BitVec 16)} :
    through b ops ≠ [] ↔ ∃ op ∈ ops, b <+: op.1.items := by
  rw [Ne, List.eq_nil_iff_forall_not_mem]
  simp [mem_through]

theorem Stamps.insertAll_isSome (hb : b ≠ []) {ops : List (Trans × BitVec 16)} :
    (D.insertAll ops b).isSome ↔ (D b).isSome ∨ ∃ op ∈ ops, b <+: op.1.items := by
  rw [insertAll_apply D ops hb, passes_isSome, through_ne_nil]

theorem Stamps.insertAll_endId (hb : b ≠ []) {ts : List Trans} {d : Stamp}
    (hd : d ∈ D.insertAll (ts.map fun t => (t, w)) b) :
    (∃ t ∈ ts, b <+: t.items) ∧ d.endId = w ∨ (¬ ∃ t ∈ ts, b <+: t.items) ∧ D b = some d := by
  rw [insertAll_apply D _ hb] at hd
  have hmem : (∃ op ∈ ts.map fun t => (t, w), b <+: op.1.items) ↔ ∃ t ∈ ts, b <+: t.items := by
    simp
  rw [← hmem, ← through_ne_nil]
  by_cases hnil : through b (ts.map fun t => (t, w)) = []
  · rw [hnil] at hd
    exact .inr ⟨not_not.mpr hnil, hd⟩
  · obtain ⟨op, hop⟩ := Option.ne_none_iff_exists'.mp (mt List.getLast?_eq_none_iff.mp hnil)
    obtain ⟨d', hd', hend⟩ := passes_endId hop
    obtain rfl : d' = d := Option.some.inj (hd'.symm.trans hd)
    obtain ⟨t, -, rfl⟩ := List.mem_map.mp (mem_through.mp (List.mem_of_getLast? hop)).1
    exact .inl ⟨hnil, hend⟩

end StreamMill.Swim
