import StreamMill.Types.Compatible
import Mathlib.Algebra.Order.Group.Int

/-!
# StreamMill.Types.Unify

`makeCompatibleType` grows the first type in place: the sizes of its fields, and the kind of a node
that is `int`. As this node is the one of `Ty_Int()`, a call changes nothing else exactly if it
meets no `int` against `real` (`Widened`), grows no field of another type, and grows nothing before
it fails (`Safe`).
-/

namespace StreamMill.Types

open Lib (Returns ComesTo comesTo_cons comesTo_at_cons)

def Heap.setKind (h : Heap) (t : TyId) (k : Kind) : Heap :=
  { h with toShape := h.toShape.setKind t k }

def Heap.setSize (h : Heap) (f : FieldId) (n : Int) : Heap :=
  { h with size := Function.update h.size f n }

/-- One of the kinds is `int` and the other one `real`. -/
def numbers (k k' : Kind) : Bool := (k = .int && k' = .real) || (k = .real && k' = .int)

def nilRef (k k' : Kind) : Bool := (k = .nil && k' = .ref) || (k = .ref && k' = .nil)

def unifyFields (call : Heap → TyId → TyId → Option (Except Fault (Bool × Heap))) :
    List (FieldId × FieldId) → Heap → Option (Except Fault (Bool × Heap))
  | [], h => some (.ok (true, h))
  | (f1, f2) :: ps, h =>
    match call h (h.ty f1) (h.ty f2) with
    | some (.ok (true, h)) =>
      -- grow size
      unifyFields call ps (if h.size f1 < h.size f2 then h.setSize f1 (h.size f2) else h)
    | r => r

def unifyRecords (call : Heap → TyId → TyId → Option (Except Fault (Bool × Heap))) (h : Heap)
    (source target : TyId) : Option (Except Fault (Bool × Heap)) :=
  if h.kind source = .record then
    match h.record source, h.record target with
    | some list1, some list2 =>
      if (h.elements list1).length ≠ (h.elements list2).length then some (.ok (false, h))
      else unifyFields call ((h.elements list1).zip (h.elements list2)) h
    | _, _ => some (.error .wildPtr)
  else some (.ok (true, h))

/-- `makeCompatibleType`; the fuel is the depth of the recursion. -/
def makeCompatibleType : Nat → Heap → TyId → TyId → Option (Except Fault (Bool × Heap))
  | 0, _, _, _ => none
  | n + 1, h, source, target =>
    if nilRef (h.kind source) (h.kind target) then some (.ok (true, h))
    else if h.kind source ≠ h.kind target then
      -- grow type
      if numbers (h.kind source) (h.kind target) then
        unifyRecords (makeCompatibleType n) (h.setKind source .real) source target
      else some (.ok (false, h))
    else unifyRecords (makeCompatibleType n) h source target

theorem grow_size (h : Shape) (size : FieldId → Int) (f g : FieldId) :
    (if size f < size g then Heap.setSize ⟨h, size⟩ f (size g) else ⟨h, size⟩) =
      ⟨h, if size f < size g then Function.update size f (size g) else size⟩ := by
  split <;> rfl

/-! ## Programs -/

/-- The kinds of the types that have one node for the whole program. -/
def Kind.scalar : Kind → Bool
  | .record | .array | .name | .ref => false
  | _ => true

/-- The types of a program: a record has its list, and a scalar is the one node of its kind. -/
structure Shape.Program (h : Shape) : Prop where
  wf : h.Wf
  single : ∀ k : Kind, k.scalar = true → ∀ t, h.kind t = k ↔ t = h.single k

def SameTy (h h' : Heap) (t : TyId) : Prop :=
  ∀ r, h.PartOf t r → h'.kind r = h.kind r ∧ h'.fields r = h.fields r ∧
    ∀ fs, h.fields r = some fs → ∀ f ∈ fs, h'.ty f = h.ty f ∧ h'.size f = h.size f

/-- A type that is not part of `s`, or is a scalar of the whole program. -/
def Other (h : Shape) (s o : TyId) : Prop :=
  ¬ h.PartOf s o ∨ ∃ k : Kind, k.scalar = true ∧ o = h.single k

/-- Only parts of `s` have the field. -/
def Private (h : Shape) (s : TyId) (f : FieldId) : Prop :=
  ∀ o, h.HasField o f → h.PartOf s o

/-! ## What a call meets -/

/-- The types that can be made compatible: besides those that are compatible, `nil` and a
reference. -/
inductive Fits (h : Shape) : TyId → TyId → Prop
  | nil {s t : TyId} (hk : nilRef (h.kind s) (h.kind t) = true) : Fits h s t
  | scalar {s t : TyId} (hs : h.kind s ≠ .record) (hk : agree (h.kind s) (h.kind t) = true) :
    Fits h s t
  | record {s t : TyId} {fs gs : List FieldId} (hs : h.fields s = some fs)
    (ht : h.fields t = some gs) (hlen : fs.length = gs.length)
    (hall : ∀ p ∈ fs.zip gs, Fits h (h.ty p.1) (h.ty p.2)) : Fits h s t

inductive Meets (h : Shape) (s t : TyId) : FieldId × FieldId → Prop
  | intro {fs gs : List FieldId} {pre post : List (FieldId × FieldId)} {p : FieldId × FieldId}
    (hs : h.fields s = some fs) (ht : h.fields t = some gs) (hlen : fs.length = gs.length)
    (hsplit : fs.zip gs = pre ++ p :: post)
    (hpre : ∀ q ∈ pre, Fits h (h.ty q.1) (h.ty q.2)) : Meets h s t p

/-- The sizes of the fields `f` and `g` are compared. -/
inductive Reached (h : Shape) : TyId → TyId → FieldId → FieldId → Prop
  | here {s t : TyId} {f g : FieldId} (hm : Meets h s t (f, g)) (hfit : Fits h (h.ty f) (h.ty g)) :
    Reached h s t f g
  | inner {s t : TyId} {p : FieldId × FieldId} {f g : FieldId} (hm : Meets h s t p)
    (hr : Reached h (h.ty p.1) (h.ty p.2) f g) : Reached h s t f g

/-- An `int` is met against a `real`. -/
inductive Widened (h : Shape) : TyId → TyId → Prop
  | here {s t : TyId} (hs : h.kind s = .int) (ht : h.kind t = .real) : Widened h s t
  | inner {s t : TyId} {p : FieldId × FieldId} (hm : Meets h s t p)
    (hw : Widened h (h.ty p.1) (h.ty p.2)) : Widened h s t

/-- The call succeeds, makes the types compatible and leaves the others as they are, or fails and
leaves its arguments as they are. -/
def Transactional (h : Heap) (s t : TyId) : Prop :=
  ∃ b h', Returns (fun n => makeCompatibleType n h s t) (.ok (b, h')) ∧
    (b = true → Fits h'.toShape s t ∧ ∀ o, Other h.toShape s o → SameTy h h' o) ∧
    (b = false → SameTy h h' s ∧ SameTy h h' t)

/-- No `int` is met against a `real`; if the types fit, only a field of no other type grows, and
otherwise none. -/
structure Safe (h : Heap) (s t : TyId) : Prop where
  narrow : ¬ Widened h.toShape s t
  fit : Fits h.toShape s t → ∀ f g, Reached h.toShape s t f g → h.size f < h.size g →
    Private h.toShape s f
  unfit : ¬ Fits h.toShape s t → ∀ f g, Reached h.toShape s t f g → h.size g ≤ h.size f

section Relations

variable {h : Shape} {s t : TyId} {k k' : Kind} {f g : FieldId}

theorem agree_of_numbers (hk : numbers k k' = true) : agree k k' = true := by
  cases k <;> cases k' <;> first | rfl | cases hk

theorem agree_cases (hk : agree k k' = true) : k = k' ∨ numbers k k' = true := by
  rcases agree_iff.mp hk with hk | ⟨rfl, rfl⟩ | ⟨rfl, rfl⟩
  · exact .inl hk
  · exact .inr rfl
  · exact .inr rfl

theorem Fits.cases (hf : Fits h s t) : nilRef (h.kind s) (h.kind t) = true ∨
    agree (h.kind s) (h.kind t) = true := by
  cases hf with
  | nil hk => exact .inl hk
  | scalar _ hk => exact .inr hk
  | record hs ht _ _ =>
    rw [(Shape.fields_eq_some.mp hs).1, (Shape.fields_eq_some.mp ht).1]
    exact .inr rfl

variable {fs gs : List FieldId} {p : FieldId × FieldId}

theorem fits_record (hs : h.fields s = some fs) (ht : h.fields t = some gs) : Fits h s t ↔
      fs.length = gs.length ∧ ∀ p ∈ fs.zip gs, Fits h (h.ty p.1) (h.ty p.2) := by
  have hks := (Shape.fields_eq_some.mp hs).1
  constructor
  · intro hf
    cases hf with
    | nil hk =>
      rw [hks] at hk
      cases hk
    | scalar hk _ => exact absurd hks hk
    | record hs' ht' hlen hall =>
      rw [hs, Option.some.injEq] at hs'
      rw [ht, Option.some.injEq] at ht'
      subst hs' ht'
      exact ⟨hlen, hall⟩
  · rintro ⟨hlen, hall⟩
    exact .record hs ht hlen hall

/-- The pairs that a loop over `ps` comes to. -/
def MeetsIn (h : Shape) : List (FieldId × FieldId) → FieldId × FieldId → Prop :=
  ComesTo fun q => Fits h (h.ty q.1) (h.ty q.2)

def ReachedIn (h : Shape) (ps : List (FieldId × FieldId)) (f g : FieldId) : Prop :=
  ∃ p, MeetsIn h ps p ∧
    ((p = (f, g) ∧ Fits h (h.ty f) (h.ty g)) ∨ Reached h (h.ty p.1) (h.ty p.2) f g)

theorem not_meets (hs : h.kind s ≠ .record) : ¬ Meets h s t p := by
  rintro ⟨hfs, -, -, -, -⟩
  exact hs (Shape.fields_eq_some.mp hfs).1

theorem meets_iff (hs : h.fields s = some fs) (ht : h.fields t = some gs)
    (hlen : fs.length = gs.length) :
    Meets h s t p ↔ MeetsIn h (fs.zip gs) p := by
  constructor
  · rintro ⟨hs', ht', -, hsplit, hpre⟩
    rw [hs, Option.some.injEq] at hs'
    rw [ht, Option.some.injEq] at ht'
    subst hs' ht'
    exact ⟨_, _, hsplit, hpre⟩
  · rintro ⟨pre, post, hsplit, hpre⟩
    exact ⟨hs, ht, hlen, hsplit, hpre⟩

theorem reached_iff (hs : h.fields s = some fs) (ht : h.fields t = some gs)
    (hlen : fs.length = gs.length) : Reached h s t f g ↔ ReachedIn h (fs.zip gs) f g := by
  constructor
  · intro hr
    cases hr with
    | here hm hfit => exact ⟨_, (meets_iff hs ht hlen).mp hm, .inl ⟨rfl, hfit⟩⟩
    | inner hm hr => exact ⟨_, (meets_iff hs ht hlen).mp hm, .inr hr⟩
  · rintro ⟨p, hm, ⟨rfl, hfit⟩ | hr⟩
    · exact .here ((meets_iff hs ht hlen).mpr hm) hfit
    · exact .inner ((meets_iff hs ht hlen).mpr hm) hr

theorem Reached.meets (hr : Reached h s t f g) : ∃ p, Meets h s t p := by
  cases hr with
  | here hm _ => exact ⟨_, hm⟩
  | inner hm _ => exact ⟨_, hm⟩

theorem reachedIn_cons {ps : List (FieldId × FieldId)} :
    ReachedIn h (p :: ps) f g ↔ Reached h (h.ty p.1) (h.ty p.2) f g ∨
      (Fits h (h.ty p.1) (h.ty p.2) ∧ (p = (f, g) ∨ ReachedIn h ps f g)) := comesTo_at_cons

end Relations

/-! ## A call that meets no `int` against a `real` -/

/-- What happens to the sizes when those of the pairs in `R` are compared: all become large enough,
and outside a set of fields with all that grow nothing changes. -/
structure Grows (R : FieldId → FieldId → Prop) (size size' : FieldId → Int) : Prop where
  le : ∀ f, size f ≤ size' f
  enough : ∀ f g, R f g → size g ≤ size' f
  only : ∀ P : FieldId → Prop, (∀ f g, R f g → ¬ P f → ¬ P g ∧ size g ≤ size f) →
    ∀ f, ¬ P f → size' f = size f

section Grows

variable {R R' : FieldId → FieldId → Prop} {size size' size'' : FieldId → Int}

theorem Grows.refl (hR : ∀ f g, ¬ R f g) (size : FieldId → Int) : Grows R size size :=
  ⟨fun _ => le_refl _, fun f g hr => absurd hr (hR f g), fun _ _ _ _ => rfl⟩

theorem Grows.trans (h : Grows R size size') (h' : Grows R' size' size'') :
    Grows (fun f g => R f g ∨ R' f g) size size'' := by
  refine ⟨fun f => (h.le f).trans (h'.le f), ?_, fun P hP => ?_⟩
  · rintro f g (hr | hr)
    · exact (h.enough f g hr).trans (h'.le f)
    · exact (h.le g).trans (h'.enough f g hr)
  · have hsame := h.only P fun f g hr => hP f g (.inl hr)
    have hrest := h'.only P fun f g hr hf => by
      obtain ⟨hg, hle⟩ := hP f g (.inr hr) hf
      rw [hsame f hf, hsame g hg]
      exact ⟨hg, hle⟩
    intro f hf
    rw [hrest f hf, hsame f hf]

theorem Grows.congr (h : Grows R size size') (hR : ∀ f g, R' f g ↔ R f g) : Grows R' size size' :=
  ⟨h.le, fun f g hr => h.enough f g ((hR f g).mp hr),
    fun P hP => h.only P fun f g hr => hP f g ((hR f g).mpr hr)⟩

theorem grows_pair (f g : FieldId) (size : FieldId → Int) :
    Grows (fun f' g' => (f, g) = (f', g')) size
      (if size f < size g then Function.update size f (size g) else size) := by
  refine ⟨fun f' => ?_, fun f' g' hr => ?_, fun P hP f' hf' => ?_⟩
  · split
    · next hlt =>
      by_cases hf : f' = f
      · subst hf
        simpa using hlt.le
      · simp [hf]
    · exact le_refl _
  · obtain ⟨rfl, rfl⟩ := Prod.mk.inj hr
    split
    · simp
    · next hge => exact not_lt.mp hge
  · split
    · next hlt =>
      by_cases hf : f' = f
      · subst hf
        exact absurd hlt (not_lt.mpr (hP f' g rfl hf').2)
      · simp [hf]
    · rfl

end Grows

section Narrow

variable {h : Shape} {s t : TyId} {n : Nat}

/-- What a call does that meets no `int` against a `real`. -/
def Narrow (h : Shape) (s t : TyId) : Prop :=
  ∀ size, ∃ b size', Returns (fun n => makeCompatibleType n ⟨h, size⟩ s t)
      (.ok (b, ⟨h, size'⟩)) ∧
    (b = true ↔ Fits h s t) ∧ Grows (Reached h s t) size size'

theorem unifyFields_narrow {ps : List (FieldId × FieldId)}
    (hcall : ∀ p, MeetsIn h ps p → Narrow h (h.ty p.1) (h.ty p.2)) (size : FieldId → Int) :
    ∃ b size', Returns (fun n => unifyFields (makeCompatibleType n) ps ⟨h, size⟩)
        (.ok (b, ⟨h, size'⟩)) ∧
      (b = true ↔ ∀ p ∈ ps, Fits h (h.ty p.1) (h.ty p.2)) ∧
      Grows (ReachedIn h ps) size size' := by
  induction ps generalizing size with
  | nil =>
    refine ⟨true, size, ⟨0, fun _ _ => rfl⟩, by simp, .refl ?_ size⟩
    rintro f g ⟨p, ⟨pre, post, hsplit, -⟩, -⟩
    simp at hsplit
  | cons p ps ih =>
    obtain ⟨f, g⟩ := p
    obtain ⟨b, size₁, ⟨n, hn⟩, hb, hgrow⟩ := hcall (f, g) (comesTo_cons.mpr (.inl rfl)) size
    replace hn (m : Nat) (hm : n ≤ m) :
        makeCompatibleType m ⟨h, size⟩ (h.ty f) (h.ty g) = some (.ok (b, ⟨h, size₁⟩)) := hn m hm
    cases b with
    | false =>
      have hfit : ¬ Fits h (h.ty f) (h.ty g) := fun hfit => by simpa using hb.mpr hfit
      refine ⟨false, size₁, ⟨n, fun m hm => ?_⟩, ⟨fun hb => by simp at hb,
        fun hall => absurd (hall _ List.mem_cons_self) hfit⟩, hgrow.congr fun f' g' => ?_⟩
      · show unifyFields (makeCompatibleType m) ((f, g) :: ps) ⟨h, size⟩ = _
        rw [unifyFields, hn m hm]
      · rw [reachedIn_cons]
        exact ⟨fun hr => hr.resolve_right fun hr => hfit hr.1, .inl⟩
    | true =>
      have hfit := hb.mp rfl
      obtain ⟨b', size', ⟨n', hn'⟩, hb', hgrow'⟩ := ih
        (fun q hq => hcall q (comesTo_cons.mpr (.inr ⟨hfit, hq⟩)))
        (if size₁ f < size₁ g then Function.update size₁ f (size₁ g) else size₁)
      refine ⟨b', size', ⟨n + n', fun m hm => ?_⟩, ?_,
        ((hgrow.trans (grows_pair f g size₁)).trans hgrow').congr fun f' g' => ?_⟩
      · show unifyFields (makeCompatibleType m) ((f, g) :: ps) ⟨h, size⟩ = _
        rw [unifyFields, hn m (by omega)]
        dsimp only
        rw [grow_size]
        exact hn' m (by omega)
      · rw [hb', List.forall_mem_cons]
        exact ⟨fun hps => ⟨hfit, hps⟩, And.right⟩
      · rw [reachedIn_cons, or_assoc]
        exact or_congr_right ⟨And.right, fun hr => ⟨hfit, hr⟩⟩

theorem not_reached (hs : ∀ p, ¬ Meets h s t p) (f g : FieldId) : ¬ Reached h s t f g := fun hr =>
  let ⟨p, hm⟩ := hr.meets
  hs p hm

theorem makeCompatibleType_succ (h : Heap) (s t : TyId) : makeCompatibleType (n + 1) h s t =
    if nilRef (h.kind s) (h.kind t) then some (.ok (true, h))
    else if h.kind s ≠ h.kind t then
      if numbers (h.kind s) (h.kind t) then
        unifyRecords (makeCompatibleType n) (h.setKind s .real) s t
      else some (.ok (false, h))
    else unifyRecords (makeCompatibleType n) h s t := rfl

theorem setKind_self {h : Heap} {k : Kind} (hk : h.kind s = k) : h.setKind s k = h := by
  rw [Heap.setKind, h.toShape.setKind_self hk]

theorem makeCompatibleType_narrow (hwf : h.Wf) (hfin : h.Finite s) (hn : ¬ Widened h s t) :
    Narrow h s t := by
  induction hfin generalizing t with
  | @intro s hfs ih =>
    intro size
    have hstep (b : Bool) (hret : ∀ m, makeCompatibleType (m + 1) ⟨h, size⟩ s t =
        some (.ok (b, ⟨h, size⟩))) :
        Returns (fun n => makeCompatibleType n ⟨h, size⟩ s t) (.ok (b, ⟨h, size⟩)) := by
      refine ⟨1, fun m hm => ?_⟩
      obtain ⟨k, rfl⟩ := Nat.exists_eq_add_of_le' hm
      exact hret k
    by_cases hnil : nilRef (h.kind s) (h.kind t) = true
    · have hks : h.kind s ≠ .record := by
        intro hk
        rw [hk] at hnil
        cases hnil
      refine ⟨true, size, hstep true fun m => ?_, ⟨fun _ => .nil hnil, fun _ => rfl⟩,
        .refl (not_reached fun _ => not_meets hks) size⟩
      rw [makeCompatibleType_succ, if_pos hnil]
    by_cases hne : h.kind s = h.kind t
    · by_cases hks : h.kind s = .record
      · obtain ⟨l, hl, hs⟩ := hwf.fields hks
        obtain ⟨l', hl', ht⟩ := hwf.fields (hne.symm.trans hks)
        have hlists (m : Nat) : makeCompatibleType (m + 1) ⟨h, size⟩ s t =
            if (h.elements l).length ≠ (h.elements l').length then some (.ok (false, ⟨h, size⟩))
            else unifyFields (makeCompatibleType m) ((h.elements l).zip (h.elements l'))
              ⟨h, size⟩ := by
          rw [makeCompatibleType_succ, if_neg hnil, if_neg (not_not.mpr hne), unifyRecords,
            if_pos hks]
          rw [hl, hl']
        by_cases hlen : (h.elements l).length = (h.elements l').length
        · have hcall (p : FieldId × FieldId)
              (hp : MeetsIn h ((h.elements l).zip (h.elements l')) p) :
              Narrow h (h.ty p.1) (h.ty p.2) :=
            ih _ hs p.1 (List.of_mem_zip hp.mem).1 fun hw =>
              hn (.inner ((meets_iff hs ht hlen).mpr hp) hw)
          obtain ⟨b, size', ⟨n, hn'⟩, hb, hgrow⟩ := unifyFields_narrow hcall size
          refine ⟨b, size', ⟨n + 1, fun m hm => ?_⟩, ?_, hgrow.congr fun f g => ?_⟩
          · obtain ⟨k, rfl⟩ := Nat.exists_eq_add_of_le' (Nat.le_of_add_left_le hm)
            exact (hlists k).trans ((if_neg (not_not.mpr hlen)).trans (hn' k (by omega)))
          · rw [hb, fits_record hs ht]
            exact ⟨fun hall => ⟨hlen, hall⟩, And.right⟩
          · exact reached_iff hs ht hlen
        · have hfit : ¬ Fits h s t := fun hfit => hlen ((fits_record hs ht).mp hfit).1
          refine ⟨false, size, hstep false fun m => (hlists m).trans (if_pos hlen),
            ⟨fun hb => by simp at hb, fun hfit' => absurd hfit' hfit⟩,
            .refl (not_reached ?_) size⟩
          rintro p ⟨hs', ht', hlen', -, -⟩
          rw [hs, Option.some.injEq] at hs'
          rw [ht, Option.some.injEq] at ht'
          subst hs' ht'
          exact hlen hlen'
      · refine ⟨true, size, hstep true fun m => ?_,
          ⟨fun _ => .scalar hks (agree_iff.mpr (.inl hne)), fun _ => rfl⟩,
          .refl (not_reached fun _ => not_meets hks) size⟩
        rw [makeCompatibleType_succ, if_neg hnil, if_neg (not_not.mpr hne), unifyRecords,
          if_neg hks]
    · by_cases hnum : numbers (h.kind s) (h.kind t) = true
      · -- the kind of the source is `real` already
        obtain ⟨hks, hkt⟩ : h.kind s = .real ∧ h.kind t = .int := by
          rcases agree_iff.mp (agree_of_numbers hnum) with hk | ⟨hk, hk'⟩ | hk
          · exact absurd hk hne
          · exact absurd (.here hk hk') hn
          · exact hk
        have hrec : h.kind s ≠ .record := by
          rw [hks]
          decide
        refine ⟨true, size, hstep true fun m => ?_,
          ⟨fun _ => .scalar hrec (agree_of_numbers hnum), fun _ => rfl⟩,
          .refl (not_reached fun _ => not_meets hrec) size⟩
        rw [makeCompatibleType_succ, if_neg hnil, if_pos hne, if_pos hnum, setKind_self hks,
          unifyRecords, if_neg hrec]
      · have hfit : ¬ Fits h s t := by
          intro hfit
          rcases hfit.cases with hk | hk
          · exact hnil hk
          · rcases agree_cases hk with hk | hk
            · exact hne hk
            · exact hnum hk
        refine ⟨false, size, hstep false fun m => ?_,
          ⟨fun hb => by simp at hb, fun hfit' => absurd hfit' hfit⟩,
          .refl (not_reached ?_) size⟩
        · rw [makeCompatibleType_succ, if_neg hnil, if_pos hne, if_neg hnum]
        · rintro p ⟨hs', ht', -, -, -⟩
          exact hne ((Shape.fields_eq_some.mp hs').1.trans (Shape.fields_eq_some.mp ht').1.symm)

end Narrow

/-! ## A call that does -/

section Wide

variable {sh : Shape} {h h' : Heap} {s t r : TyId} {n : Nat} {b : Bool}

theorem unifyFields_real {call : Heap → TyId → TyId → Option (Except Fault (Bool × Heap))}
    (hcall : ∀ h s t b h', call h s t = some (.ok (b, h')) → h.kind r = .real → h'.kind r = .real)
    {ps : List (FieldId × FieldId)} (hr : unifyFields call ps h = some (.ok (b, h')))
    (hk : h.kind r = .real) : h'.kind r = .real := by
  induction ps generalizing h with
  | nil =>
    obtain ⟨-, rfl⟩ := Prod.mk.inj (Except.ok.inj (Option.some.inj hr))
    exact hk
  | cons p ps ih =>
    rw [unifyFields] at hr
    split at hr
    · next h₁ hc =>
      refine ih hr ?_
      have hk₁ := hcall _ _ _ _ _ hc hk
      split <;> exact hk₁
    · exact hcall _ _ _ _ _ hr hk

theorem unifyRecords_real {call : Heap → TyId → TyId → Option (Except Fault (Bool × Heap))}
    (hcall : ∀ h s t b h', call h s t = some (.ok (b, h')) → h.kind r = .real → h'.kind r = .real)
    (hr : unifyRecords call h s t = some (.ok (b, h'))) (hk : h.kind r = .real) :
    h'.kind r = .real := by
  rw [unifyRecords] at hr
  split at hr
  · split at hr
    · split at hr
      · obtain ⟨-, rfl⟩ := Prod.mk.inj (Except.ok.inj (Option.some.inj hr))
        exact hk
      · exact unifyFields_real hcall hr hk
    · cases hr
  · obtain ⟨-, rfl⟩ := Prod.mk.inj (Except.ok.inj (Option.some.inj hr))
    exact hk

theorem makeCompatibleType_real (hr : makeCompatibleType n h s t = some (.ok (b, h')))
    (hk : h.kind r = .real) : h'.kind r = .real := by
  induction n generalizing h s t b h' with
  | zero => cases hr
  | succ n ih =>
    rw [makeCompatibleType_succ] at hr
    split at hr
    · obtain ⟨-, rfl⟩ := Prod.mk.inj (Except.ok.inj (Option.some.inj hr))
      exact hk
    · split at hr
      · split at hr
        · refine unifyRecords_real (fun _ _ _ _ _ hc => ih hc) hr ?_
          by_cases hrs : r = s
          · subst hrs
            simp [Heap.setKind, Shape.setKind]
          · simpa [Heap.setKind, Shape.setKind, hrs] using hk
        · obtain ⟨-, rfl⟩ := Prod.mk.inj (Except.ok.inj (Option.some.inj hr))
          exact hk
      · exact unifyRecords_real (fun _ _ _ _ _ hc => ih hc) hr hk

/-- Either `Ty_Int()` has become `real`, or no kind has changed, no `int` has been met against a
`real`, and the result is right. -/
def WideOr (sh : Shape) (h' : Heap) (narrow fits : Prop) (b : Bool) : Prop :=
  h'.kind (sh.single .int) = .real ∨ (h'.toShape = sh ∧ narrow ∧ (b = true ↔ fits))

variable {size : FieldId → Int}

theorem unifyFields_wide
    (hcall : ∀ size s t b h', makeCompatibleType n ⟨sh, size⟩ s t = some (.ok (b, h')) →
      WideOr sh h' (¬ Widened sh s t) (Fits sh s t) b) {ps : List (FieldId × FieldId)}
    (hr : unifyFields (makeCompatibleType n) ps ⟨sh, size⟩ = some (.ok (b, h'))) :
    WideOr sh h' (∀ p, MeetsIn sh ps p → ¬ Widened sh (sh.ty p.1) (sh.ty p.2))
      (∀ p ∈ ps, Fits sh (sh.ty p.1) (sh.ty p.2)) b := by
  induction ps generalizing size with
  | nil =>
    obtain ⟨rfl, rfl⟩ := Prod.mk.inj (Except.ok.inj (Option.some.inj hr))
    exact .inr ⟨rfl, fun p hp => absurd hp.mem (by simp), by simp⟩
  | cons p ps ih =>
    obtain ⟨f, g⟩ := p
    rw [unifyFields] at hr
    split at hr
    · next h₁ hc =>
      rcases hcall _ _ _ _ _ hc with hw | ⟨hsh, hnw, hfit⟩
      · refine .inl (unifyFields_real (fun _ _ _ _ _ hc => makeCompatibleType_real hc) hr ?_)
        split <;> exact hw
      · obtain ⟨sh₁, size₁⟩ := h₁
        obtain rfl : sh₁ = sh := hsh
        have hfg := hfit.mp rfl
        rw [grow_size] at hr
        refine (ih hr).imp_right fun ⟨hsh', hall, hb⟩ => ⟨hsh', fun p hp => ?_, ?_⟩
        · rcases comesTo_cons.mp hp with rfl | ⟨-, hp⟩
          · exact hnw
          · exact hall p hp
        · rw [hb, List.forall_mem_cons]
          exact ⟨fun hps => ⟨hfg, hps⟩, And.right⟩
    · next hstop =>
      have hb : b = false := by
        cases b with
        | true => exact absurd hr (hstop _)
        | false => rfl
      subst hb
      refine (hcall _ _ _ _ _ hr).imp_right fun ⟨hsh, hnw, hfit⟩ => ?_
      have hfg : ¬ Fits sh (sh.ty f) (sh.ty g) := fun hc => by simpa using hfit.mpr hc
      refine ⟨hsh, fun p hp => ?_, fun hb => by simp at hb,
        fun hall => absurd (hall _ List.mem_cons_self) hfg⟩
      rcases comesTo_cons.mp hp with rfl | ⟨hc, -⟩
      · exact hnw
      · exact absurd hc hfg

theorem not_widened (hk : ¬ (sh.kind s = .int ∧ sh.kind t = .real))
    (hm : ∀ p, ¬ Meets sh s t p) : ¬ Widened sh s t := by
  rintro (⟨hs, ht⟩ | ⟨hmp, -⟩)
  · exact hk ⟨hs, ht⟩
  · exact hm _ hmp

theorem unifyRecords_wide
    (hcall : ∀ size s t b h', makeCompatibleType n ⟨sh, size⟩ s t = some (.ok (b, h')) →
      WideOr sh h' (¬ Widened sh s t) (Fits sh s t) b) (hne : sh.kind s = sh.kind t)
    (hr : unifyRecords (makeCompatibleType n) ⟨sh, size⟩ s t = some (.ok (b, h'))) :
    WideOr sh h' (¬ Widened sh s t) (Fits sh s t) b := by
  have hint : ¬ (sh.kind s = .int ∧ sh.kind t = .real) := by
    rintro ⟨hs, ht⟩
    rw [hs, ht] at hne
    cases hne
  rw [unifyRecords] at hr
  split at hr
  · next hks =>
    split at hr
    · next l l' hl hl' =>
      have hs := Shape.fields_eq_some.mpr ⟨hks, l, hl, rfl⟩
      have ht := Shape.fields_eq_some.mpr ⟨hne.symm.trans hks, l', hl', rfl⟩
      split at hr
      · next hlen =>
        obtain ⟨rfl, rfl⟩ := Prod.mk.inj (Except.ok.inj (Option.some.inj hr))
        refine .inr ⟨rfl, not_widened hint ?_, fun hb => by simp at hb,
          fun hfit => absurd ((fits_record hs ht).mp hfit).1 hlen⟩
        rintro p ⟨hs', ht', hlen', -, -⟩
        rw [hs, Option.some.injEq] at hs'
        rw [ht, Option.some.injEq] at ht'
        subst hs' ht'
        exact hlen hlen'
      · next hlen =>
        replace hlen := not_not.mp hlen
        refine (unifyFields_wide hcall hr).imp_right fun ⟨hsh, hall, hb⟩ => ⟨hsh, ?_, ?_⟩
        · rintro (⟨hs', ht'⟩ | ⟨hm, hw⟩)
          · exact hint ⟨hs', ht'⟩
          · exact hall _ ((meets_iff hs ht hlen).mp hm) hw
        · rw [hb, fits_record hs ht]
          exact ⟨fun hps => ⟨hlen, hps⟩, And.right⟩
    · cases hr
  · next hks =>
    obtain ⟨rfl, rfl⟩ := Prod.mk.inj (Except.ok.inj (Option.some.inj hr))
    exact .inr ⟨rfl, not_widened hint fun _ => not_meets hks,
      fun _ => .scalar hks (agree_iff.mpr (.inl hne)), fun _ => rfl⟩

theorem makeCompatibleType_wide (hp : sh.Program)
    (hr : makeCompatibleType n ⟨sh, size⟩ s t = some (.ok (b, h'))) :
    WideOr sh h' (¬ Widened sh s t) (Fits sh s t) b := by
  induction n generalizing s t size b h' with
  | zero => cases hr
  | succ n ih =>
    rw [makeCompatibleType_succ] at hr
    split at hr
    · next hnil =>
      obtain ⟨rfl, rfl⟩ := Prod.mk.inj (Except.ok.inj (Option.some.inj hr))
      refine .inr ⟨rfl, not_widened ?_ fun _ => not_meets ?_, fun _ => .nil hnil, fun _ => rfl⟩
      · rintro ⟨hs, -⟩
        rw [hs] at hnil
        cases hnil
      · intro hs
        rw [hs] at hnil
        cases hnil
    · next hnil =>
      split at hr
      · next hne =>
        split at hr
        · next hnum =>
          have hrec : (Heap.setKind ⟨sh, size⟩ s .real).kind s ≠ .record := by
            simp [Heap.setKind, Shape.setKind]
          rw [unifyRecords, if_neg hrec] at hr
          obtain ⟨rfl, rfl⟩ := Prod.mk.inj (Except.ok.inj (Option.some.inj hr))
          rcases agree_iff.mp (agree_of_numbers hnum) with hk | ⟨hs, ht⟩ | ⟨hs, ht⟩
          · exact absurd hk hne
          · -- the node is the one of `Ty_Int()`
            refine .inl ?_
            rw [← (hp.single .int rfl s).mp hs]
            simp [Heap.setKind, Shape.setKind]
          · rw [setKind_self hs]
            have hks : sh.kind s ≠ .record := by
              rw [hs]
              decide
            refine .inr ⟨rfl, not_widened ?_ fun _ => not_meets hks,
              fun _ => .scalar hks (agree_of_numbers hnum), fun _ => rfl⟩
            rintro ⟨hi, -⟩
            rw [hs] at hi
            cases hi
        · next hnum =>
          obtain ⟨rfl, rfl⟩ := Prod.mk.inj (Except.ok.inj (Option.some.inj hr))
          refine .inr ⟨rfl, not_widened ?_ ?_, fun hb => by simp at hb, fun hfit => ?_⟩
          · rintro ⟨hs, ht⟩
            rw [hs, ht] at hnum
            exact hnum rfl
          · rintro p ⟨hs', ht', -, -, -⟩
            exact hne ((Shape.fields_eq_some.mp hs').1.trans (Shape.fields_eq_some.mp ht').1.symm)
          · rcases hfit.cases with hk | hk
            · exact absurd hk hnil
            · rcases agree_cases hk with hk | hk
              · exact absurd hk hne
              · exact absurd hk hnum
      · next hne => exact unifyRecords_wide (fun _ _ _ _ _ hc => ih hc) (not_not.mp hne) hr

end Wide

/-! ## Exactly the safe calls -/

section Safe

variable {h : Shape} {s t r : TyId} {f g : FieldId} {p : FieldId × FieldId}

theorem Meets.pair (hm : Meets h s t p) :
    ∃ fs gs, h.fields s = some fs ∧ h.fields t = some gs ∧ p ∈ fs.zip gs := by
  obtain ⟨hs, ht, -, hsplit, -⟩ := hm
  refine ⟨_, _, hs, ht, ?_⟩
  rw [hsplit]
  simp

theorem Meets.parts (hm : Meets h s t p) :
    ∃ fs gs, h.fields s = some fs ∧ p.1 ∈ fs ∧ h.fields t = some gs ∧ p.2 ∈ gs := by
  obtain ⟨fs, gs, hs, ht, hp⟩ := hm.pair
  exact ⟨fs, gs, hs, (List.of_mem_zip hp).1, ht, (List.of_mem_zip hp).2⟩

theorem Reached.has (hr : Reached h s t f g) : h.HasField s f ∧ h.HasField t g := by
  induction hr with
  | here hm _ =>
    obtain ⟨fs, gs, hs, hf, ht, hg⟩ := hm.parts
    exact ⟨⟨_, fs, .refl, hs, hf⟩, ⟨_, gs, .refl, ht, hg⟩⟩
  | inner hm _ ih =>
    obtain ⟨fs, gs, hs, hf, ht, hg⟩ := hm.parts
    exact ⟨ih.1.part (.field .refl hs hf), ih.2.part (.field .refl ht hg)⟩

theorem Widened.part (hw : Widened h s t) : ∃ r, h.PartOf s r ∧ h.kind r = .int := by
  induction hw with
  | here hs _ => exact ⟨_, .refl, hs⟩
  | inner hm _ ih =>
    obtain ⟨r, hr, hk⟩ := ih
    obtain ⟨fs, -, hs, hf, -, -⟩ := hm.parts
    exact ⟨r, .trans (.field .refl hs hf) hr, hk⟩

theorem Reached.self (hr : Reached h s t f g) (hst : s = t) : f = g := by
  have heq : ∀ {s t p}, Meets h s t p → s = t → p.1 = p.2 := by
    rintro s _ p hm rfl
    obtain ⟨fs, gs, hs, ht, hp⟩ := hm.pair
    rw [hs, Option.some.injEq] at ht
    rw [← ht, zip_self] at hp
    obtain ⟨f, -, rfl⟩ := List.mem_map.mp hp
    rfl
  induction hr with
  | here hm _ => exact heq hm hst
  | inner hm _ ih => exact ih (congrArg _ (heq hm hst))

theorem Fits.mirror (hf : Fits h s t) {fs : List FieldId} (hs : h.fields s = some fs)
    (hmem : f ∈ fs) (hr : h.PartOf (h.ty f) r) :
    ∃ gs g r', h.fields t = some gs ∧ g ∈ gs ∧ h.PartOf (h.ty g) r' ∧ Fits h r r' := by
  have hpair : ∀ {s t fs f}, Fits h s t → h.fields s = some fs → f ∈ fs →
      ∃ gs g, h.fields t = some gs ∧ g ∈ gs ∧ Fits h (h.ty f) (h.ty g) := by
    intro s t fs f hf hs hmem
    have hks := (Shape.fields_eq_some.mp hs).1
    cases hf with
    | nil hk =>
      rw [hks] at hk
      cases hk
    | scalar hk _ => exact absurd hks hk
    | @record _ _ _ gs hs' ht hlen hall =>
      rw [hs, Option.some.injEq] at hs'
      subst hs'
      obtain ⟨i, hi, rfl⟩ := List.getElem_of_mem hmem
      have hp : (fs[i], gs[i]) ∈ fs.zip gs :=
        List.mem_iff_getElem.mpr ⟨i, by simp; omega, by simp⟩
      exact ⟨gs, gs[i], ht, List.getElem_mem _, hall _ hp⟩
  obtain ⟨gs, g, ht, hg, hfg⟩ := hpair hf hs hmem
  refine ⟨gs, g, ?_⟩
  induction hr with
  | refl => exact ⟨_, ht, hg, .refl, hfg⟩
  | field _ hfs hf' ih =>
    obtain ⟨r', -, -, hr', hfit⟩ := ih
    obtain ⟨gs', g', ht', hg', hfit'⟩ := hpair hfit hfs hf'
    exact ⟨_, ht, hg, .field hr' ht' hg', hfit'⟩

theorem Fits.not_below (hfin : h.Finite s) (hf : Fits h s t) (ht : h.PartOf s t) : t = s := by
  rcases ht.head with rfl | ⟨fs, f, hfs, hmem, hft⟩
  · rfl
  · exfalso
    have hnot := hfin.induction (P := fun r => ∀ t fs f, Fits h r t → h.fields r = some fs →
      f ∈ fs → ¬ h.PartOf (h.ty f) t) fun r ih t fs f hf hfs hmem hft => by
        obtain ⟨gs, g, r', hgs, hg, hr', hfit⟩ := hf.mirror hfs hmem hft
        exact ih fs f t hfs hmem hft r' gs g hfit hgs hg hr'
    exact hnot s .refl t fs f hf hfs hmem hft

theorem single_parts (hp : h.Program) {k : Kind} (hk : k.scalar = true)
    (hr : h.PartOf (h.single k) r) : r = h.single k ∧ h.fields r = none := by
  have hnone : h.fields (h.single k) = none := by
    rw [Shape.fields, (hp.single k hk _).mpr rfl, if_neg]
    rintro rfl
    cases hk
  rcases hr.head with rfl | ⟨fs, f, hfs, -, -⟩
  · exact ⟨rfl, hnone⟩
  · rw [hnone] at hfs
    cases hfs

variable {o : TyId}

theorem sameTy_sizes {size size' : FieldId → Int} (hsame : ∀ f, h.HasField o f → size' f = size f) :
    SameTy ⟨h, size⟩ ⟨h, size'⟩ o :=
  fun r hr => ⟨rfl, rfl, fun fs hfs f hf => ⟨rfl, hsame f ⟨r, fs, hr, hfs, hf⟩⟩⟩

theorem SameTy.size {h h' : Heap} (hsame : SameTy h h' o) {f : FieldId} (hf : h.HasField o f) :
    h'.size f = h.size f := by
  obtain ⟨r, fs, hr, hfs, hf⟩ := hf
  exact ((hsame r hr).2.2 fs hfs f hf).2

variable {size size' : FieldId → Int}

theorem grows_private (hfin : h.Finite s) (hfit : Fits h s t)
    (hgrow : Grows (Reached h s t) size size')
    (hpriv : ∀ f g, Reached h s t f g → size f < size g → Private h s f) (ho : ¬ h.PartOf s o)
    (hf : h.HasField o f) : size' f = size f := by
  refine hgrow.only (fun f => ∃ g, Reached h s t f g ∧ size f < size g) ?_ f ?_
  · intro f g hr hno
    refine ⟨?_, not_lt.mp fun hlt => hno ⟨g, hr, hlt⟩⟩
    rintro ⟨g', hr', hlt⟩
    have ht := hpriv g g' hr' hlt t hr.has.2
    obtain rfl := hfit.not_below hfin ht
    rw [hr'.self rfl] at hlt
    exact lt_irrefl _ hlt
  · rintro ⟨g, hr, hlt⟩
    exact ho (hpriv f g hr hlt o hf)

theorem Safe.transactional (hp : h.Program) (hfin : h.Finite s) (hs : Safe ⟨h, size⟩ s t) :
    Transactional ⟨h, size⟩ s t := by
  obtain ⟨b, size', hret, hb, hgrow⟩ := makeCompatibleType_narrow hp.wf hfin hs.narrow size
  refine ⟨b, _, hret, fun htrue => ?_, fun hfalse => ?_⟩
  · have hfit := hb.mp htrue
    refine ⟨hfit, fun o ho => sameTy_sizes fun f hf => ?_⟩
    rcases ho with ho | ⟨k, hk, rfl⟩
    · exact grows_private hfin hfit hgrow (hs.fit hfit) ho hf
    · obtain ⟨r, fs, hr, hfs, -⟩ := hf
      rw [(single_parts hp hk hr).2] at hfs
      cases hfs
  · have hfit : ¬ Fits h s t := fun hfit => by simp [hb.mpr hfit] at hfalse
    have hsame := hgrow.only (fun _ => False) fun f g hr _ => ⟨id, hs.unfit hfit f g hr⟩
    exact ⟨sameTy_sizes fun f _ => hsame f id, sameTy_sizes fun f _ => hsame f id⟩

theorem Transactional.safe (hp : h.Program) (hfin : h.Finite s)
    (htr : Transactional ⟨h, size⟩ s t) : Safe ⟨h, size⟩ s t := by
  obtain ⟨b, h', hret, htrue, hfalse⟩ := htr
  have hint : h.kind (h.single .int) = .int := (hp.single .int rfl _).mpr rfl
  have hnarrow : ¬ Widened h s t := by
    intro hw
    obtain ⟨n, hn⟩ := hret
    have hsame : h'.kind (h.single .int) = .int := by
      cases b with
      | true =>
        obtain ⟨-, hothers⟩ := htrue rfl
        rw [(hothers _ (.inr ⟨.int, rfl, rfl⟩) _ .refl).1]
        exact hint
      | false =>
        obtain ⟨r, hr, hk⟩ := hw.part
        obtain rfl := (hp.single .int rfl r).mp hk
        rw [((hfalse rfl).1 _ hr).1]
        exact hint
    rcases makeCompatibleType_wide hp (hn n (Nat.le_refl n)) with hwide | ⟨-, hno, -⟩
    · rw [hsame] at hwide
      cases hwide
    · exact hno hw
  obtain ⟨b', size', hret', hb, hgrow⟩ := makeCompatibleType_narrow hp.wf hfin hnarrow size
  obtain ⟨rfl, rfl⟩ := Prod.mk.inj (Except.ok.inj (hret.unique hret'))
  refine ⟨hnarrow, fun hfit f g hr hlt o ho => ?_, fun hfit f g hr => ?_⟩
  · by_contra hno
    have hsize := ((htrue (hb.mpr hfit)).2 o (.inl hno)).size ho
    have henough := hgrow.enough f g hr
    rw [show size' f = size f from hsize] at henough
    exact absurd hlt (not_lt.mpr henough)
  · have hfail : b = false := by
      cases b with
      | true => exact absurd (hb.mp rfl) hfit
      | false => rfl
    have henough := hgrow.enough f g hr
    rwa [show size' f = size f from (hfalse hfail).1.size hr.has.1] at henough

end Safe

end StreamMill.Types
