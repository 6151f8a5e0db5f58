import StreamMill.Lib.Scan
import Mathlib.Logic.Function.Basic
import Mathlib.Logic.Relation

/-!
# StreamMill.Types.Heap

The types of `types.cc` as what they are in memory: nodes, lists and fields that are shared and
overwritten. The scalar types have one node each (`Ty_Int()` and the like), whose union is never
filled.
-/

namespace StreamMill.Types

/-- `ty_t` -/
inductive Kind
  | record | nil | int | real | string | array | name | void | ref | timestamp
  | iext | rext | cext | text
  deriving DecidableEq

abbrev TyId := Nat
abbrev ListId := Nat
abbrev FieldId := Nat

inductive Fault
  | wildPtr
  deriving DecidableEq

/-- `Ty_ty_`, `A_list` and `Ty_field_`, without the sizes of the fields. `u.record` is `none` where
another member has been written, or none; `single` are the nodes that `Ty_Int()` and the like
return. -/
structure Shape where
  kind : TyId → Kind
  record : TyId → Option ListId
  elements : ListId → List FieldId
  ty : FieldId → TyId
  implicit : FieldId → Bool
  single : Kind → TyId

structure Heap extends Shape where
  size : FieldId → Int

namespace Shape

def setKind (h : Shape) (t : TyId) (k : Kind) : Shape :=
  { h with kind := Function.update h.kind t k }

def fields (h : Shape) (t : TyId) : Option (List FieldId) :=
  if h.kind t = .record then (h.record t).map h.elements else none

def Wf (h : Shape) : Prop := ∀ t, h.kind t = .record → ∃ l, h.record t = some l

inductive Finite (h : Shape) : TyId → Prop
  | intro {t : TyId} (fields : ∀ fs, h.fields t = some fs → ∀ f ∈ fs, Finite h (h.ty f)) :
    Finite h t

/-- `t` is `s`, or the type of a field in it. -/
inductive PartOf (h : Shape) (s : TyId) : TyId → Prop
  | refl : PartOf h s s
  | field {t : TyId} {fs : List FieldId} {f : FieldId} :
    PartOf h s t → h.fields t = some fs → f ∈ fs → PartOf h s (h.ty f)

variable {h : Shape} {s t r : TyId} {fs : List FieldId} {f : FieldId} {k : Kind}

@[simp] theorem setKind_record (h : Shape) : (h.setKind t k).record = h.record := rfl

@[simp] theorem setKind_elements (h : Shape) : (h.setKind t k).elements = h.elements := rfl

@[simp] theorem setKind_ty (h : Shape) : (h.setKind t k).ty = h.ty := rfl

theorem setKind_self (h : Shape) (hk : h.kind t = k) : h.setKind t k = h := by
  rw [setKind, ← hk, Function.update_eq_self]

theorem fields_eq_some :
    h.fields t = some fs ↔ h.kind t = .record ∧ ∃ l, h.record t = some l ∧ h.elements l = fs := by
  rw [fields]
  split
  · next hk => simp [hk]
  · next hk => simp [hk]

theorem Wf.fields (hwf : h.Wf) (hk : h.kind t = .record) :
    ∃ l, h.record t = some l ∧ h.fields t = some (h.elements l) := by
  obtain ⟨l, hl⟩ := hwf t hk
  exact ⟨l, hl, fields_eq_some.mpr ⟨hk, l, hl, rfl⟩⟩

theorem PartOf.trans (hst : h.PartOf s t) (htr : h.PartOf t r) : h.PartOf s r := by
  induction htr with
  | refl => exact hst
  | field _ hfs hf ih => exact .field ih hfs hf

theorem PartOf.head (hst : h.PartOf s t) :
    t = s ∨ ∃ fs f, h.fields s = some fs ∧ f ∈ fs ∧ h.PartOf (h.ty f) t := by
  induction hst with
  | refl => exact .inl rfl
  | @field t gs g _ hgs hg ih =>
    rcases ih with rfl | ⟨fs, f, hfs, hf, hft⟩
    · exact .inr ⟨gs, g, hgs, hg, .refl⟩
    · exact .inr ⟨fs, f, hfs, hf, .field hft hgs hg⟩

def HasField (h : Shape) (s : TyId) (f : FieldId) : Prop :=
  ∃ r fs, h.PartOf s r ∧ h.fields r = some fs ∧ f ∈ fs

theorem HasField.part (hst : h.PartOf s t) (hf : h.HasField t f) : h.HasField s f := by
  obtain ⟨r, fs, hr, hfs, hf⟩ := hf
  exact ⟨r, fs, hst.trans hr, hfs, hf⟩

/-- By induction on the depth: a property of types holds of all parts of one if it holds of each
whose parts below have it. -/
theorem Finite.induction {P : TyId → Prop} (hs : h.Finite s)
    (hstep : ∀ r, (∀ fs f t, h.fields r = some fs → f ∈ fs → h.PartOf (h.ty f) t → P t) → P r) :
    ∀ r, h.PartOf s r → P r := by
  induction hs with
  | @intro s _ ih =>
    intro r hr
    rcases hr.head with rfl | ⟨fs, f, hfs, hf, hfr⟩
    · exact hstep _ fun fs f t hfs hf ht => ih fs hfs f hf t ht
    · exact ih fs hfs f hf r hfr

end Shape

end StreamMill.Types
