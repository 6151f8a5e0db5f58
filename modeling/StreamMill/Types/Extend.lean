import StreamMill.Types.Unify

/-!
# StreamMill.Types.Extend

`extendType` overwrites the place that holds the first type, and the types and sizes of the fields
in it. The place is a field or, in the calls of the translation, that of an expression. As with
`makeCompatibleType`, what has been overwritten stays when a later field fails
(`unification_transactional_iff`).
-/

namespace StreamMill.Types

open Lib (Returns ComesTo comesTo_cons comesTo_at_cons exists_comesTo_cons)

def Heap.setTy (h : Heap) (f : FieldId) (t : TyId) : Heap :=
  { h with ty := Function.update h.ty f t }

/-- The fields without an implicit one at the end; of an empty list it reads what is in front. -/
def getNumOfExplictFields (h : Shape) (fields : ListId) : Option Nat :=
  (h.elements fields).getLast?.map fun f =>
    if h.implicit f then (h.elements fields).length - 1 else (h.elements fields).length

def extendFields (call : Heap → FieldId → TyId → Option (Except Fault (Bool × Heap))) :
    List (FieldId × FieldId) → Heap → Option (Except Fault (Bool × Heap))
  | [], h => some (.ok (true, h))
  | (f1, f2) :: ps, h =>
    match call h f1 (h.ty f2) with
    | some (.ok (true, h)) => extendFields call ps (h.setSize f1 (h.size f2))
    | r => r

def extendRecords (call : Heap → FieldId → TyId → Option (Except Fault (Bool × Heap))) (h : Heap)
    (source : FieldId) (target : TyId) : Option (Except Fault (Bool × Heap)) :=
  if h.kind (h.ty source) = .record then
    match h.record (h.ty source), h.record target with
    | some list1, some list2 =>
      if list1 ≠ list2 then
        match getNumOfExplictFields h.toShape list2 with
        | none => some (.error .wildPtr)
        | some n =>
          if (h.elements list1).length ≠ n then some (.ok (false, h))
          else extendFields call ((h.elements list1).zip (h.elements list2)) h
      else some (.ok (true, h))
    | _, _ => some (.error .wildPtr)
  else some (.ok (true, h))

/-- `nil`, `int` and records are kept in a place for a reference. -/
def refable (k : Kind) : Bool := k = .nil || k = .int || k = .record

/-- `extendType`, for the place of the source; the fuel is the depth of the recursion. -/
def extendType : Nat → Heap → FieldId → TyId → Option (Except Fault (Bool × Heap))
  | 0, _, _, _ => none
  | n + 1, h, source, target =>
    if h.kind (h.ty source) ≠ h.kind target then
      -- change type
      if h.kind (h.ty source) = .int ∧ h.kind target = .real then
        extendRecords (extendType n) (h.setTy source (h.single .real)) source target
      else if h.kind target = .ref ∧ refable (h.kind (h.ty source)) then
        extendRecords (extendType n) h source target
      else some (.ok (false, h))
    else extendRecords (extendType n) h source target

/-! ## What a call meets -/

def Accepts (k k' : Kind) : Prop :=
  k = k' ∨ (k = .int ∧ k' = .real) ∨ (k' = .ref ∧ refable k = true)

structure Lists (h : Shape) (s t : TyId) (l l' : ListId) : Prop where
  kind : h.kind s = .record
  accepts : Accepts (h.kind s) (h.kind t)
  source : h.record s = some l
  target : h.record t = some l'
  ne : l ≠ l'

inductive Extends (h : Shape) : TyId → TyId → Prop
  | scalar {s t : TyId} (hs : h.kind s ≠ .record) (hk : Accepts (h.kind s) (h.kind t)) :
    Extends h s t
  | same {s t : TyId} {l : ListId} (hs : h.kind s = .record) (hk : Accepts (h.kind s) (h.kind t))
    (hl : h.record s = some l) (hl' : h.record t = some l) : Extends h s t
  | record {s t : TyId} {l l' : ListId} (hl : Lists h s t l l')
    (hlen : getNumOfExplictFields h l' = some (h.elements l).length)
    (hall : ∀ p ∈ (h.elements l).zip (h.elements l'), Extends h (h.ty p.1) (h.ty p.2)) :
    Extends h s t

/-- The pairs that a loop over `ps` comes to. -/
def Comes (h : Shape) : List (FieldId × FieldId) → FieldId × FieldId → Prop :=
  ComesTo fun q => Extends h (h.ty q.1) (h.ty q.2)

def Compares (h : Shape) (s t : TyId) (p : FieldId × FieldId) : Prop :=
  ∃ l l', Lists h s t l l' ∧ getNumOfExplictFields h l' = some (h.elements l).length ∧
    Comes h ((h.elements l).zip (h.elements l')) p

inductive Visits (h : Shape) : TyId → TyId → FieldId × FieldId → Prop
  | here {s t : TyId} {p : FieldId × FieldId} (hc : Compares h s t p) : Visits h s t p
  | inner {s t : TyId} {p q : FieldId × FieldId} (hc : Compares h s t p)
    (hv : Visits h (h.ty p.1) (h.ty p.2) q) : Visits h s t q

/-- The size of the field `f` is made that of `g`. -/
inductive Sized (h : Shape) : TyId → TyId → FieldId → FieldId → Prop
  | here {s t : TyId} {f g : FieldId} (hc : Compares h s t (f, g))
    (hfit : Extends h (h.ty f) (h.ty g)) : Sized h s t f g
  | inner {s t : TyId} {p : FieldId × FieldId} {f g : FieldId} (hc : Compares h s t p)
    (hs : Sized h (h.ty p.1) (h.ty p.2) f g) : Sized h s t f g

/-- A list is followed that is none, or is looked at behind its end. -/
inductive Faulty (h : Shape) : TyId → TyId → Prop
  | list {s t : TyId} (hs : h.kind s = .record) (hk : Accepts (h.kind s) (h.kind t))
    (ht : h.record t = none) : Faulty h s t
  | empty {s t : TyId} {l l' : ListId} (hl : Lists h s t l l')
    (hnone : getNumOfExplictFields h l' = none) : Faulty h s t
  | inner {s t : TyId} {p : FieldId × FieldId} (hc : Compares h s t p)
    (hf : Faulty h (h.ty p.1) (h.ty p.2)) : Faulty h s t

def Within (h : Shape) (f r : FieldId) : Prop := r = f ∨ h.HasField (h.ty f) r

inductive Distinct (h : Shape) : TyId → Prop
  | intro {s : TyId}
    (apart : ∀ fs, h.fields s = some fs → fs.Pairwise fun f g => ∀ r, Within h f r → ¬ Within h g r)
    (below : ∀ fs, h.fields s = some fs → ∀ f ∈ fs, Distinct h (h.ty f)) : Distinct h s

/-- The place is not in a list, and what is overwritten in its type is not read again: no field
occurs twice there, and none is looked at as one of the target. -/
structure Unshared (h : Shape) (source : FieldId) (t : TyId) : Prop where
  place : ∀ l, source ∉ h.elements l
  distinct : Distinct h (h.ty source)
  apart : ∀ p, Visits h (h.ty source) t p → ¬ h.HasField (h.ty source) p.2

def Changes (h : Heap) (f g : FieldId) : Prop :=
  h.size f ≠ h.size g ∨ (h.kind (h.ty f) = .int ∧ h.kind (h.ty g) = .real)

/-- The call succeeds, makes the type of the place one that can be extended to the other and leaves
the other types as they are, or fails and leaves its arguments as they are. -/
def ExtendTransactional (h : Heap) (source : FieldId) (t : TyId) : Prop :=
  ∃ b h', Returns (fun n => extendType n h source t) (.ok (b, h')) ∧
    (b = true → Extends h'.toShape (h'.ty source) t ∧
      ∀ o, Other h.toShape (h.ty source) o → SameTy h h' o) ∧
    (b = false → h'.ty source = h.ty source ∧ SameTy h h' (h.ty source) ∧ SameTy h h' t)

/-- No list is missing; if the type can be extended, only fields of no other type change, and
otherwise none. -/
structure ExtendSafe (h : Heap) (source : FieldId) (t : TyId) : Prop where
  lists : ¬ Faulty h.toShape (h.ty source) t
  fit : Extends h.toShape (h.ty source) t → ∀ f g, Sized h.toShape (h.ty source) t f g →
    Changes h f g → Private h.toShape (h.ty source) f
  unfit : ¬ Extends h.toShape (h.ty source) t →
    ∀ f g, Sized h.toShape (h.ty source) t f g → ¬ Changes h f g

section Relations

variable {h : Shape} {s t : TyId} {f g r : FieldId} {p q : FieldId × FieldId}
  {ps : List (FieldId × FieldId)} {l l' : ListId} {n : Nat}

theorem Extends.accepts (he : Extends h s t) : Accepts (h.kind s) (h.kind t) := by
  cases he with
  | scalar _ hk => exact hk
  | same _ hk _ _ => exact hk
  | record hl _ _ => exact hl.accepts

theorem Faulty.accepts (hf : Faulty h s t) :
    h.kind s = .record ∧ Accepts (h.kind s) (h.kind t) := by
  cases hf with
  | list hs hk _ => exact ⟨hs, hk⟩
  | empty hl _ => exact ⟨hl.kind, hl.accepts⟩
  | inner hc _ =>
    obtain ⟨l, l', hl, -, -⟩ := hc
    exact ⟨hl.kind, hl.accepts⟩

theorem Lists.unique (hl : Lists h s t l l') {k k' : ListId} (hk : Lists h s t k k') :
    k = l ∧ k' = l' :=
  ⟨Option.some.inj (hk.source.symm.trans hl.source), Option.some.inj (hk.target.symm.trans hl.target)⟩

theorem comes_cons : Comes h (p :: ps) q ↔
    q = p ∨ (Extends h (h.ty p.1) (h.ty p.2) ∧ Comes h ps q) := comesTo_cons

theorem Comes.mem (hc : Comes h ps p) : p ∈ ps := ComesTo.mem hc

section

variable (hl : Lists h s t l l') (hlen : getNumOfExplictFields h l' = some (h.elements l).length)
include hl hlen

theorem extends_record : Extends h s t ↔
      ∀ p ∈ (h.elements l).zip (h.elements l'), Extends h (h.ty p.1) (h.ty p.2) := by
  constructor
  · intro he
    cases he with
    | scalar hs _ => exact absurd hl.kind hs
    | same _ _ hk hk' =>
      exact absurd (Option.some.inj (hl.source.symm.trans
        (hk.trans (hk'.symm.trans hl.target)))) hl.ne
    | record hk _ hall =>
      obtain ⟨rfl, rfl⟩ := hl.unique hk
      exact hall
  · exact .record hl hlen

theorem compares_iff : Compares h s t p ↔
      Comes h ((h.elements l).zip (h.elements l')) p := by
  constructor
  · rintro ⟨k, k', hk, -, hc⟩
    obtain ⟨rfl, rfl⟩ := hl.unique hk
    exact hc
  · exact fun hc => ⟨l, l', hl, hlen, hc⟩

end

theorem Compares.fields (hc : Compares h s t p) : ∃ fs, h.fields s = some fs ∧ p.1 ∈ fs := by
  obtain ⟨l, l', hl, -, hc⟩ := hc
  exact ⟨_, Shape.fields_eq_some.mpr ⟨hl.kind, l, hl.source, rfl⟩, (List.of_mem_zip hc.mem).1⟩

theorem Compares.within (hc : Compares h s t p) (hw : Within h p.1 r) : h.HasField s r := by
  obtain ⟨fs, hfs, hp⟩ := hc.fields
  rcases hw with rfl | hr
  · exact ⟨s, fs, .refl, hfs, hp⟩
  · exact hr.part (.field .refl hfs hp)

theorem Sized.has (hs : Sized h s t f g) : h.HasField s f := by
  induction hs with
  | here hc _ => exact hc.within (.inl rfl)
  | inner hc _ ih => exact hc.within (.inr ih)

theorem Sized.visits (hs : Sized h s t f g) : Visits h s t (f, g) := by
  induction hs with
  | here hc _ => exact .here hc
  | inner hc _ ih => exact .inner hc ih

theorem Sized.compares (hs : Sized h s t f g) : ∃ p, Compares h s t p := by
  cases hs with
  | here hc _ => exact ⟨_, hc⟩
  | inner hc _ => exact ⟨_, hc⟩

theorem Extends.not_faulty (he : Extends h s t) : ¬ Faulty h s t := by
  induction he with
  | scalar hs _ => exact fun hf => hs hf.accepts.1
  | same _ _ hl hl' =>
    intro hf
    cases hf with
    | list _ _ ht =>
      rw [hl'] at ht
      cases ht
    | empty hk _ => exact hk.ne (Option.some.inj ((hk.source.symm.trans hl).trans
        (hl'.symm.trans hk.target)))
    | inner hc _ =>
      obtain ⟨k, k', hk, -, -⟩ := hc
      exact hk.ne (Option.some.inj ((hk.source.symm.trans hl).trans (hl'.symm.trans hk.target)))
  | record hl hlen _ ih =>
    intro hf
    cases hf with
    | list _ _ ht =>
      rw [hl.target] at ht
      cases ht
    | empty hk hnone =>
      obtain ⟨rfl, rfl⟩ := hl.unique hk
      rw [hlen] at hnone
      cases hnone
    | inner hc hf => exact ih _ ((compares_iff hl hlen).mp hc).mem hf

theorem not_has_self {fs : List FieldId} (hfin : h.Finite s) (hs : h.fields s = some fs)
    (hf : f ∈ fs) : ¬ h.HasField (h.ty f) f := by
  rintro ⟨r, gs, hr, hgs, hfr⟩
  have hnot := hfin.induction (P := fun r => ∀ fs f, h.fields r = some fs → f ∈ fs →
    ¬ h.PartOf (h.ty f) r) fun r ih fs f hfs hf hback => ih fs f r hfs hf hback fs f hfs hf hback
  exact hnot r (.trans (.field .refl hs hf) hr) gs f hgs hfr hr

theorem explicit_le (hn : getNumOfExplictFields h l = some n) : n ≤ (h.elements l).length := by
  obtain ⟨f, -, rfl⟩ := Option.map_eq_some_iff.mp hn
  split
  · exact Nat.sub_le _ _
  · exact le_refl _

def SizedIn (h : Shape) (ps : List (FieldId × FieldId)) (f g : FieldId) : Prop :=
  ∃ p, Comes h ps p ∧
    ((p = (f, g) ∧ Extends h (h.ty f) (h.ty g)) ∨ Sized h (h.ty p.1) (h.ty p.2) f g)

def FaultyIn (h : Shape) (ps : List (FieldId × FieldId)) : Prop :=
  ∃ p, Comes h ps p ∧ Faulty h (h.ty p.1) (h.ty p.2)

theorem sizedIn_cons : SizedIn h (p :: ps) f g ↔ Sized h (h.ty p.1) (h.ty p.2) f g ∨
    (Extends h (h.ty p.1) (h.ty p.2) ∧ (p = (f, g) ∨ SizedIn h ps f g)) := comesTo_at_cons

theorem faultyIn_cons : FaultyIn h (p :: ps) ↔ Faulty h (h.ty p.1) (h.ty p.2) ∨
    (Extends h (h.ty p.1) (h.ty p.2) ∧ FaultyIn h ps) := exists_comesTo_cons

section

variable (hl : Lists h s t l l') (hlen : getNumOfExplictFields h l' = some (h.elements l).length)
include hl hlen

theorem sized_iff :
    Sized h s t f g ↔ SizedIn h ((h.elements l).zip (h.elements l')) f g := by
  constructor
  · intro hs
    cases hs with
    | here hc hfit => exact ⟨_, (compares_iff hl hlen).mp hc, .inl ⟨rfl, hfit⟩⟩
    | inner hc hs => exact ⟨_, (compares_iff hl hlen).mp hc, .inr hs⟩
  · rintro ⟨p, hm, ⟨rfl, hfit⟩ | hs⟩
    · exact .here ((compares_iff hl hlen).mpr hm) hfit
    · exact .inner ((compares_iff hl hlen).mpr hm) hs

theorem faulty_iff :
    Faulty h s t ↔ FaultyIn h ((h.elements l).zip (h.elements l')) := by
  constructor
  · intro hf
    cases hf with
    | list _ _ ht =>
      rw [hl.target] at ht
      cases ht
    | empty hk hnone =>
      obtain ⟨rfl, rfl⟩ := hl.unique hk
      rw [hlen] at hnone
      cases hnone
    | inner hc hf => exact ⟨_, (compares_iff hl hlen).mp hc, hf⟩
  · rintro ⟨p, hm, hf⟩
    exact .inner ((compares_iff hl hlen).mpr hm) hf

end

end Relations

/-! ## What a call writes -/

/-- The type of a place for `t` that held `s`. -/
def widen (h : Shape) (s t : TyId) : TyId :=
  if h.kind s = .int ∧ h.kind t = .real then h.single .real else s

def Moved (sh : Shape) (h : Heap) : Prop := h.toShape = { sh with ty := h.ty }

/-- The fields on the left of `R` have got their sizes and types, and the others none. -/
structure Effect (sh : Shape) (size : FieldId → Int) (R : FieldId → FieldId → Prop) (h h' : Heap) :
    Prop where
  moved : Moved sh h'
  rest : ∀ f, (∀ g, ¬ R f g) → h'.ty f = h.ty f ∧ h'.size f = h.size f
  done : ∀ f g, R f g → h'.ty f = widen sh (sh.ty f) (sh.ty g) ∧ h'.size f = size g

def Fresh (sh : Shape) (size : FieldId → Int) (h : Heap) (f : FieldId) : Prop :=
  h.ty f = sh.ty f ∧ h.size f = size f

/-- All that a call for the place `c` and the target `t` reads is as it was at the beginning. -/
structure Ready (sh : Shape) (size : FieldId → Int) (c : FieldId) (t : TyId) (h : Heap) : Prop where
  moved : Moved sh h
  source : ∀ f, Within sh c f → h.ty f = sh.ty f
  target : ∀ p, Visits sh (sh.ty c) t p → Fresh sh size h p.2

/-- What a call for the place `c` and the target `t` does where all is ready for it. -/
def Called (sh : Shape) (size : FieldId → Int) (c : FieldId) (t : TyId) : Prop :=
  ∀ h, Ready sh size c t h →
    (Faulty sh (sh.ty c) t → Returns (fun n => extendType n h c t) (.error .wildPtr)) ∧
    (¬ Faulty sh (sh.ty c) t → ∃ b h', Returns (fun n => extendType n h c t)
        (.ok (b, h'.setTy c (if b then widen sh (sh.ty c) t else sh.ty c))) ∧
      (b = true ↔ Extends sh (sh.ty c) t) ∧ Effect sh size (Sized sh (sh.ty c) t) h h')

section Effects

variable {sh : Shape} {size : FieldId → Int} {R R' : FieldId → FieldId → Prop} {h h' h'' : Heap}

theorem Effect.refl (hm : Moved sh h) (hR : ∀ f g, ¬ R f g) : Effect sh size R h h :=
  ⟨hm, fun _ _ => ⟨rfl, rfl⟩, fun f g hr => absurd hr (hR f g)⟩

theorem Effect.congr (he : Effect sh size R h h') (hR : ∀ f g, R' f g ↔ R f g) :
    Effect sh size R' h h' :=
  ⟨he.moved, fun f hno => he.rest f fun g hr => hno g ((hR f g).mpr hr),
    fun f g hr => he.done f g ((hR f g).mp hr)⟩

theorem Effect.trans (he : Effect sh size R h h') (he' : Effect sh size R' h' h'')
    (hapart : ∀ f g g', R f g → ¬ R' f g') : Effect sh size (fun f g => R f g ∨ R' f g) h h'' := by
  refine ⟨he'.moved, fun f hno => ?_, ?_⟩
  · obtain ⟨hty, hsize⟩ := he.rest f fun g hr => hno g (.inl hr)
    obtain ⟨hty', hsize'⟩ := he'.rest f fun g hr => hno g (.inr hr)
    exact ⟨hty'.trans hty, hsize'.trans hsize⟩
  · rintro f g (hr | hr)
    · obtain ⟨hty, hsize⟩ := he'.rest f fun g' hr' => hapart f g g' hr hr'
      obtain ⟨hty', hsize'⟩ := he.done f g hr
      exact ⟨hty.trans hty', hsize.trans hsize'⟩
    · exact he'.done f g hr

theorem Moved.kind (hm : Moved sh h) : h.kind = sh.kind := by
  rw [show h.toShape = _ from hm]

theorem Moved.record (hm : Moved sh h) : h.record = sh.record := by
  rw [show h.toShape = _ from hm]

theorem Moved.elements (hm : Moved sh h) : h.elements = sh.elements := by
  rw [show h.toShape = _ from hm]

theorem Moved.single (hm : Moved sh h) : h.single = sh.single := by
  rw [show h.toShape = _ from hm]

theorem Moved.explicit (hm : Moved sh h) (l : ListId) :
    getNumOfExplictFields h.toShape l = getNumOfExplictFields sh l := by
  rw [getNumOfExplictFields, getNumOfExplictFields, hm]

theorem Moved.setTy (hm : Moved sh h) (f : FieldId) (t : TyId) : Moved sh (h.setTy f t) := by
  rw [Moved, Heap.setTy, hm]

theorem Moved.setSize (hm : Moved sh h) (f : FieldId) (k : Int) : Moved sh (h.setSize f k) := hm

theorem setTy_self {c : FieldId} {t : TyId} (ht : h.ty c = t) : h.setTy c t = h := by
  rw [Heap.setTy, ← ht, Function.update_eq_self]

theorem effect_pair (hm : Moved sh h) (f g : FieldId) :
    Effect sh size (fun f' g' => (f, g) = (f', g')) h
      ((h.setTy f (widen sh (sh.ty f) (sh.ty g))).setSize f (size g)) := by
  refine ⟨(hm.setTy f _).setSize f _, fun f' hno => ?_, fun f' g' hr => ?_⟩
  · have hne : f' ≠ f := by
      rintro rfl
      exact hno g rfl
    simp [Heap.setTy, Heap.setSize, hne]
  · obtain ⟨rfl, rfl⟩ := Prod.mk.inj hr
    simp [Heap.setTy, Heap.setSize]

end Effects

section Loop

variable {sh : Shape} {size : FieldId → Int} {h : Heap} {p : FieldId × FieldId}
  {ps : List (FieldId × FieldId)}

/-- All that the loop reads is as it was at the beginning. -/
structure ReadyIn (sh : Shape) (size : FieldId → Int) (ps : List (FieldId × FieldId)) (h : Heap) :
    Prop where
  moved : Moved sh h
  source : ∀ p ∈ ps, ∀ f, Within sh p.1 f → h.ty f = sh.ty f
  target : ∀ p, Comes sh ps p →
    Fresh sh size h p.2 ∧ ∀ v, Visits sh (sh.ty p.1) (sh.ty p.2) v → Fresh sh size h v.2

/-- The pairs have nothing in common on the left, and nothing on the right is there. -/
structure Apart (sh : Shape) (ps : List (FieldId × FieldId)) : Prop where
  left : ps.Pairwise fun p q => ∀ r, Within sh p.1 r → ¬ Within sh q.1 r
  self : ∀ p ∈ ps, ¬ sh.HasField (sh.ty p.1) p.1
  right : ∀ p, Comes sh ps p →
    ∀ q ∈ ps, ¬ Within sh q.1 p.2 ∧
      ∀ v, Visits sh (sh.ty p.1) (sh.ty p.2) v → ¬ Within sh q.1 v.2

theorem ReadyIn.head (hr : ReadyIn sh size (p :: ps) h) : Ready sh size p.1 (sh.ty p.2) h :=
  ⟨hr.moved, hr.source p List.mem_cons_self, (hr.target p (comes_cons.mpr (.inl rfl))).2⟩

theorem ReadyIn.tail {h' : Heap} (hr : ReadyIn sh size (p :: ps) h) (ha : Apart sh (p :: ps))
    (hfit : Extends sh (sh.ty p.1) (sh.ty p.2)) {R : FieldId → FieldId → Prop}
    (he : Effect sh size R h h') (hR : ∀ f g, R f g → Within sh p.1 f) :
    ReadyIn sh size ps h' := by
  have hkeep (f : FieldId) (hf : ¬ Within sh p.1 f) : h'.ty f = h.ty f ∧ h'.size f = h.size f :=
    he.rest f fun g hr => hf (hR f g hr)
  have hfresh (f : FieldId) (hf : ¬ Within sh p.1 f) (hfr : Fresh sh size h f) :
      Fresh sh size h' f := by
    obtain ⟨hty, hsize⟩ := hkeep f hf
    exact ⟨hty.trans hfr.1, hsize.trans hfr.2⟩
  refine ⟨he.moved, fun q hq f hf => ?_, fun q hq => ?_⟩
  · have hno : ¬ Within sh p.1 f := fun hp =>
      (List.pairwise_cons.mp ha.left).1 q hq f hp hf
    exact (hkeep f hno).1.trans (hr.source q (List.mem_cons_of_mem _ hq) f hf)
  · have hcons := comes_cons.mpr (.inr ⟨hfit, hq⟩)
    obtain ⟨hg, hv⟩ := ha.right q hcons p List.mem_cons_self
    obtain ⟨hg', hv'⟩ := hr.target q hcons
    exact ⟨hfresh _ hg hg', fun v hvis => hfresh _ (hv v hvis) (hv' v hvis)⟩

theorem Apart.tail (ha : Apart sh (p :: ps)) (hfit : Extends sh (sh.ty p.1) (sh.ty p.2)) :
    Apart sh ps :=
  ⟨(List.pairwise_cons.mp ha.left).2, fun q hq => ha.self q (List.mem_cons_of_mem _ hq),
    fun q hq r hr => ha.right q (comes_cons.mpr (.inr ⟨hfit, hq⟩)) r (List.mem_cons_of_mem _ hr)⟩

theorem SizedIn.within {f g : FieldId} (hs : SizedIn sh ps f g) : ∃ p ∈ ps, Within sh p.1 f := by
  obtain ⟨p, hc, ⟨rfl, -⟩ | hs⟩ := hs
  · exact ⟨_, hc.mem, .inl rfl⟩
  · exact ⟨p, hc.mem, .inr hs.has⟩

theorem extendFields_called
    (hcall : ∀ p, Comes sh ps p →
      Called sh size p.1 (sh.ty p.2))
    (ha : Apart sh ps) (hr : ReadyIn sh size ps h) :
    (FaultyIn sh ps → Returns (fun n => extendFields (extendType n) ps h) (.error .wildPtr)) ∧
    (¬ FaultyIn sh ps → ∃ b h', Returns (fun n => extendFields (extendType n) ps h) (.ok (b, h')) ∧
      (b = true ↔ ∀ p ∈ ps, Extends sh (sh.ty p.1) (sh.ty p.2)) ∧
      Effect sh size (SizedIn sh ps) h h') := by
  induction ps generalizing h with
  | nil =>
    refine ⟨?_, fun _ => ⟨true, h, ⟨0, fun _ _ => rfl⟩, by simp, .refl hr.moved ?_⟩⟩
    · rintro ⟨p, hc, -⟩
      exact absurd hc.mem (by simp)
    · rintro f g ⟨p, hc, -⟩
      exact absurd hc.mem (by simp)
  | cons p ps ih =>
    obtain ⟨f, g⟩ := p
    obtain ⟨hfault, hok⟩ := hcall (f, g) (comes_cons.mpr (.inl rfl)) h hr.head
    obtain ⟨⟨hg, hgsize⟩, -⟩ := hr.target (f, g) (comes_cons.mpr (.inl rfl))
    have hpass (n : Nat) : extendFields (extendType n) ((f, g) :: ps) h =
        match extendType n h f (sh.ty g) with
        | some (.ok (true, h)) => extendFields (extendType n) ps (h.setSize f (h.size g))
        | r => r := by
      rw [extendFields, show h.ty g = sh.ty g from hg]
    by_cases hf : Faulty sh (sh.ty f) (sh.ty g)
    · refine ⟨fun _ => ?_, absurd (faultyIn_cons.mpr (.inl hf))⟩
      obtain ⟨n, hn⟩ := hfault hf
      refine ⟨n, fun m hm => (hpass m).trans ?_⟩
      rw [show extendType m h f (sh.ty g) = _ from hn m hm]
    · obtain ⟨b, h₁, ⟨n, hn⟩, hb, heff⟩ := hok hf
      replace hn (m : Nat) (hm : n ≤ m) : extendType m h f (sh.ty g) = _ := hn m hm
      have hself (g' : FieldId) : ¬ Sized sh (sh.ty f) (sh.ty g) f g' := fun hs =>
        ha.self _ List.mem_cons_self hs.has
      cases b with
      | false =>
        have hfit : ¬ Extends sh (sh.ty f) (sh.ty g) := fun hfit => by simpa using hb.mpr hfit
        have hkept : h₁.setTy f (sh.ty f) = h₁ :=
          setTy_self ((heff.rest f hself).1.trans (hr.source _ List.mem_cons_self f (.inl rfl)))
        refine ⟨fun hin => ?_, fun _ => ⟨false, h₁, ⟨n, fun m hm => (hpass m).trans ?_⟩,
          ⟨fun hb => by simp at hb, fun hall => absurd (hall _ List.mem_cons_self) hfit⟩,
          heff.congr fun f' g' => ?_⟩⟩
        · rcases faultyIn_cons.mp hin with hin | ⟨hfit', -⟩
          · exact absurd hin hf
          · exact absurd hfit' hfit
        · rw [hn m hm, if_neg (by decide), hkept]
        · rw [sizedIn_cons]
          exact ⟨fun hs => hs.resolve_right fun hs => hfit hs.1, .inl⟩
      | true =>
        have hfit := hb.mp rfl
        have hgself : ¬ Within sh f g := (ha.right (f, g) (comes_cons.mpr (.inl rfl)) _
          List.mem_cons_self).1
        have hsize : h₁.size g = size g :=
          (heff.rest g fun g' hs => hgself (.inr hs.has)).2.trans hgsize
        have hboth := heff.trans (effect_pair heff.moved f g) (fun f' g' g'' hs hpair => by
          obtain ⟨rfl, -⟩ := Prod.mk.inj hpair
          exact hself g' hs)
        have hready := hr.tail ha hfit hboth (by
          rintro f' g' (hs | hpair)
          · exact .inr hs.has
          · exact .inl (Prod.mk.inj hpair).1.symm)
        obtain ⟨hfault', hok'⟩ := ih
          (fun q hq => hcall q (comes_cons.mpr (.inr ⟨hfit, hq⟩))) (ha.tail hfit) hready
        have hnext (m : Nat) (hm : n ≤ m) : extendFields (extendType m) ((f, g) :: ps) h =
            extendFields (extendType m) ps
              ((h₁.setTy f (widen sh (sh.ty f) (sh.ty g))).setSize f (size g)) := by
          rw [hpass m, hn m hm, if_pos rfl]
          dsimp only
          rw [show (h₁.setTy f _).size g = size g from hsize]
        refine ⟨fun hin => ?_, fun hin => ?_⟩
        · rcases faultyIn_cons.mp hin with hin | ⟨-, hin⟩
          · exact absurd hin hf
          · obtain ⟨n', hn'⟩ := hfault' hin
            exact ⟨n + n', fun m hm => (hnext m (by omega)).trans (hn' m (by omega))⟩
        · obtain ⟨b', h', ⟨n', hn'⟩, hb', heff'⟩ := hok' fun hin' =>
            hin (faultyIn_cons.mpr (.inr ⟨hfit, hin'⟩))
          refine ⟨b', h', ⟨n + n', fun m hm => (hnext m (by omega)).trans (hn' m (by omega))⟩, ?_,
            (hboth.trans heff' ?_).congr fun f' g' => ?_⟩
          · rw [hb', List.forall_mem_cons]
            exact ⟨fun hps => ⟨hfit, hps⟩, And.right⟩
          · intro f' g' g'' hleft hright
            obtain ⟨q, hq, hw⟩ := SizedIn.within hright
            refine (List.pairwise_cons.mp ha.left).1 q hq f' ?_ hw
            rcases hleft with hs | hpair
            · exact .inr hs.has
            · exact .inl (Prod.mk.inj hpair).1.symm
          · rw [sizedIn_cons, or_assoc]
            exact or_congr_right ⟨And.right, fun hs => ⟨hfit, hs⟩⟩

end Loop

section Call

variable {sh : Shape} {size : FieldId → Int} {h : Heap} {c : FieldId} {s t : TyId} {n : Nat}

theorem extendType_succ (h : Heap) (source : FieldId) (target : TyId) :
    extendType (n + 1) h source target =
      if h.kind (h.ty source) ≠ h.kind target then
        if h.kind (h.ty source) = .int ∧ h.kind target = .real then
          extendRecords (extendType n) (h.setTy source (h.single .real)) source target
        else if h.kind target = .ref ∧ refable (h.kind (h.ty source)) then
          extendRecords (extendType n) h source target
        else some (.ok (false, h))
      else extendRecords (extendType n) h source target := rfl

theorem returns_step {r : Except Fault (Bool × Heap)}
    (hstep : ∀ n, extendType (n + 1) h c t = some r) :
    Returns (fun n => extendType n h c t) r := by
  refine ⟨1, fun m hm => ?_⟩
  obtain ⟨k, rfl⟩ := Nat.exists_eq_add_of_le' hm
  exact hstep k

theorem not_sized (hno : ∀ l l', ¬ Lists sh s t l l') (f g : FieldId) : ¬ Sized sh s t f g := by
  intro hs
  obtain ⟨p, l, l', hl, -, -⟩ := hs.compares
  exact hno l l' hl

theorem called_refused (hk : ¬ Accepts (sh.kind (sh.ty c)) (sh.kind t)) : Called sh size c t := by
  intro h hr
  have hty : h.ty c = sh.ty c := hr.source c (.inl rfl)
  refine ⟨fun hf => absurd hf.accepts.2 hk, fun _ => ⟨false, h, returns_step fun n => ?_,
    ⟨fun hb => by simp at hb, fun he => absurd he.accepts hk⟩,
    .refl hr.moved (not_sized fun l l' hl => hk hl.accepts)⟩⟩
  rw [extendType_succ, hr.moved.kind, hty, if_pos, if_neg, if_neg, if_neg (by decide),
    setTy_self hty]
  · exact fun hno => hk (.inr (.inr hno))
  · exact fun hno => hk (.inr (.inl hno))
  · exact fun hno => hk (.inl hno)

theorem called_number (hsingle : sh.kind (sh.single .real) = .real)
    (hs : sh.kind (sh.ty c) = .int) (ht : sh.kind t = .real) : Called sh size c t := by
  intro h hr
  have hty : h.ty c = sh.ty c := hr.source c (.inl rfl)
  have hrec : sh.kind (sh.ty c) ≠ .record := by
    rw [hs]
    decide
  refine ⟨fun hf => absurd hf.accepts.1 hrec, fun _ => ⟨true, h, returns_step fun n => ?_,
    ⟨fun _ => .scalar hrec (.inr (.inl ⟨hs, ht⟩)), fun _ => rfl⟩,
    .refl hr.moved (not_sized fun l l' hl => hrec hl.kind)⟩⟩
  have hne : sh.kind (sh.ty c) ≠ sh.kind t := by
    rw [hs, ht]
    decide
  have hset : (h.setTy c (h.single .real)).ty c = h.single .real := by simp [Heap.setTy]
  rw [extendType_succ, hr.moved.kind, hty, if_pos hne, if_pos ⟨hs, ht⟩, extendRecords, hset,
    (hr.moved.setTy c _).kind, hr.moved.single, hsingle, if_neg (by decide), if_pos rfl, widen,
    if_pos ⟨hs, ht⟩]

theorem extendType_lists (hr : Ready sh size c t h) (hk : Accepts (sh.kind (sh.ty c)) (sh.kind t))
    (hnum : ¬ (sh.kind (sh.ty c) = .int ∧ sh.kind t = .real)) (n : Nat) :
    extendType (n + 1) h c t = extendRecords (extendType n) h c t := by
  have hty : h.ty c = sh.ty c := hr.source c (.inl rfl)
  rw [extendType_succ, hr.moved.kind, hty]
  by_cases hne : sh.kind (sh.ty c) = sh.kind t
  · rw [if_neg (not_not.mpr hne)]
  · rw [if_pos hne, if_neg hnum, if_pos]
    rcases hk with hk | hk | hk
    · exact absurd hk hne
    · exact absurd hk hnum
    · exact hk

theorem extendRecords_lists (hr : Ready sh size c t h) (n : Nat) :
    extendRecords (extendType n) h c t =
      if sh.kind (sh.ty c) = .record then
        match sh.record (sh.ty c), sh.record t with
        | some list1, some list2 =>
          if list1 ≠ list2 then
            match getNumOfExplictFields sh list2 with
            | none => some (.error .wildPtr)
            | some k =>
              if (sh.elements list1).length ≠ k then some (.ok (false, h))
              else extendFields (extendType n) ((sh.elements list1).zip (sh.elements list2)) h
          else some (.ok (true, h))
        | _, _ => some (.error .wildPtr)
      else some (.ok (true, h)) := by
  have hty : h.ty c = sh.ty c := hr.source c (.inl rfl)
  rw [extendRecords, hr.moved.kind, hr.moved.record, hr.moved.elements, hty]
  simp [hr.moved.explicit]

theorem Ready.fields (hr : Ready sh size c t h) {l l' : ListId} (hl : Lists sh (sh.ty c) t l l')
    (hlen : getNumOfExplictFields sh l' = some (sh.elements l).length) :
    ReadyIn sh size ((sh.elements l).zip (sh.elements l')) h := by
  refine ⟨hr.moved, fun p hp f hf => hr.source f (.inr ?_), fun p hp => ?_⟩
  · have hfs : sh.fields (sh.ty c) = some (sh.elements l) :=
      Shape.fields_eq_some.mpr ⟨hl.kind, l, hl.source, rfl⟩
    rcases hf with rfl | hf
    · exact ⟨_, _, .refl, hfs, (List.of_mem_zip hp).1⟩
    · exact hf.part (.field .refl hfs (List.of_mem_zip hp).1)
  · have hc := (compares_iff hl hlen).mpr hp
    exact ⟨hr.target p (.here hc), fun v hv => hr.target v (.inner hc hv)⟩

theorem not_extends {l l' : ListId} (hl : Lists sh s t l l')
    (hnum : getNumOfExplictFields sh l' ≠ some (sh.elements l).length) :
    ¬ Extends sh s t ∧ ∀ p, ¬ Compares sh s t p := by
  refine ⟨fun he => ?_, ?_⟩
  · cases he with
    | scalar hs _ => exact hs hl.kind
    | same _ _ hk hk' =>
      exact hl.ne (Option.some.inj ((hl.source.symm.trans hk).trans (hk'.symm.trans hl.target)))
    | record hk hlen _ =>
      obtain ⟨rfl, rfl⟩ := hl.unique hk
      exact hnum hlen
  · rintro p ⟨k, k', hk, hlen, -⟩
    obtain ⟨rfl, rfl⟩ := hl.unique hk
    exact hnum hlen

theorem called_record {l l' : ListId} (hl : Lists sh (sh.ty c) t l l')
    (hself : ¬ sh.HasField (sh.ty c) c)
    (hnum : ¬ (sh.kind (sh.ty c) = .int ∧ sh.kind t = .real))
    (hfields : getNumOfExplictFields sh l' = some (sh.elements l).length →
      Apart sh ((sh.elements l).zip (sh.elements l')) ∧
        ∀ p, Comes sh ((sh.elements l).zip (sh.elements l')) p → Called sh size p.1 (sh.ty p.2))
    (hr : Ready sh size c t h)
    (hcall : ∀ m, extendType (m + 1) h c t =
      match getNumOfExplictFields sh l' with
      | none => some (.error .wildPtr)
      | some k =>
        if (sh.elements l).length ≠ k then some (.ok (false, h))
        else extendFields (extendType m) ((sh.elements l).zip (sh.elements l')) h) :
    (Faulty sh (sh.ty c) t → Returns (fun n => extendType n h c t) (.error .wildPtr)) ∧
    (¬ Faulty sh (sh.ty c) t → ∃ b h', Returns (fun n => extendType n h c t)
        (.ok (b, h'.setTy c (if b then widen sh (sh.ty c) t else sh.ty c))) ∧
      (b = true ↔ Extends sh (sh.ty c) t) ∧ Effect sh size (Sized sh (sh.ty c) t) h h') := by
  have hty : h.ty c = sh.ty c := hr.source c (.inl rfl)
  have hkept (b : Bool) {h' : Heap} (hty : h'.ty c = sh.ty c) :
      h'.setTy c (if b then widen sh (sh.ty c) t else sh.ty c) = h' := by
    rw [show widen sh (sh.ty c) t = sh.ty c from if_neg hnum, ite_self, setTy_self hty]
  cases hk : getNumOfExplictFields sh l' with
  | none =>
    rw [hk] at hcall
    exact ⟨fun _ => returns_step hcall, absurd (.empty hl hk)⟩
  | some k =>
    rw [hk] at hcall
    dsimp only at hcall
    by_cases hlen : (sh.elements l).length = k
    · subst hlen
      obtain ⟨hapart, hcalls⟩ := hfields hk
      obtain ⟨hfault, hok⟩ := extendFields_called hcalls hapart (hr.fields hl hk)
      have hsucc {r : Except Fault (Bool × Heap)}
          (hret : Returns (fun n => extendFields (extendType n)
            ((sh.elements l).zip (sh.elements l')) h) r) :
          Returns (fun n => extendType n h c t) r := by
        obtain ⟨n, hn⟩ := hret
        refine ⟨n + 1, fun m hm => ?_⟩
        obtain ⟨k, rfl⟩ := Nat.exists_eq_add_of_le' hm
        exact ((hcall _).trans (if_neg (not_not.mpr rfl))).trans (hn _ (Nat.le_add_left n k))
      rw [faulty_iff hl hk]
      refine ⟨fun hf => hsucc (hfault hf), fun hf => ?_⟩
      obtain ⟨b, h', hret, hb, heff⟩ := hok hf
      replace heff : Effect sh size (Sized sh (sh.ty c) t) h h' :=
        heff.congr fun f g => sized_iff hl hk
      refine ⟨b, h', ?_, hb.trans (extends_record hl hk).symm, heff⟩
      rw [hkept b ((heff.rest c fun g hs => hself hs.has).1.trans hty)]
      exact hsucc hret
    · obtain ⟨hno, hnone⟩ := not_extends hl (by rw [hk]; simpa using Ne.symm hlen)
      refine ⟨fun hf => ?_, fun _ => ⟨false, h, returns_step fun m => ?_,
        ⟨fun hb => by simp at hb, fun he => absurd he hno⟩, .refl hr.moved fun f g hs => ?_⟩⟩
      · cases hf with
        | list _ _ ht =>
          rw [hl.target] at ht
          cases ht
        | empty hl' hnum =>
          obtain ⟨rfl, rfl⟩ := hl.unique hl'
          rw [hk] at hnum
          cases hnum
        | inner hc _ => exact absurd hc (hnone _)
      · rw [hcall, if_pos hlen, hkept _ hty]
      · obtain ⟨p, hp⟩ := hs.compares
        exact hnone p hp

theorem called_lists (hwf : sh.Wf) (hself : ¬ sh.HasField (sh.ty c) c)
    (hk : Accepts (sh.kind (sh.ty c)) (sh.kind t))
    (hnum : ¬ (sh.kind (sh.ty c) = .int ∧ sh.kind t = .real))
    (hfields : ∀ l l', Lists sh (sh.ty c) t l l' →
      getNumOfExplictFields sh l' = some (sh.elements l).length →
      Apart sh ((sh.elements l).zip (sh.elements l')) ∧
        ∀ p, Comes sh ((sh.elements l).zip (sh.elements l')) p → Called sh size p.1 (sh.ty p.2)) :
    Called sh size c t := by
  intro h hr
  have hty : h.ty c = sh.ty c := hr.source c (.inl rfl)
  have hwiden : widen sh (sh.ty c) t = sh.ty c := if_neg hnum
  have hkept (b : Bool) {h' : Heap} (hty : h'.ty c = sh.ty c) :
      h'.setTy c (if b then widen sh (sh.ty c) t else sh.ty c) = h' := by
    rw [hwiden, ite_self, setTy_self hty]
  have hcall (m : Nat) := (extendType_lists hr hk hnum m).trans (extendRecords_lists hr m)
  by_cases hks : sh.kind (sh.ty c) = .record
  · obtain ⟨l, hl⟩ := hwf _ hks
    rw [hl] at hcall
    simp only [if_pos hks] at hcall
    cases hl' : sh.record t with
    | none =>
      rw [hl'] at hcall
      exact ⟨fun _ => returns_step hcall, absurd (.list hks hk hl')⟩
    | some l' =>
      rw [hl'] at hcall
      dsimp only at hcall
      by_cases hne : l = l'
      · subst hne
        have hno : ∀ k k', ¬ Lists sh (sh.ty c) t k k' := fun k k' hkk =>
          hkk.ne (Option.some.inj ((hkk.source.symm.trans hl).trans (hl'.symm.trans hkk.target)))
        refine ⟨fun hf => absurd hf (Extends.same hks hk hl hl').not_faulty, fun _ => ⟨true, h,
          returns_step fun m => ?_, ⟨fun _ => .same hks hk hl hl', fun _ => rfl⟩,
          .refl hr.moved (not_sized hno)⟩⟩
        rw [hcall, if_neg (not_not.mpr rfl), hkept _ hty]
      · have hlists : Lists sh (sh.ty c) t l l' := ⟨hks, hk, hl, hl', hne⟩
        exact called_record hlists hself hnum (hfields l l' hlists) hr fun m =>
          (hcall m).trans (if_pos hne)
  · have hno : ∀ l l', ¬ Lists sh (sh.ty c) t l l' := fun l l' hl => hks hl.kind
    refine ⟨fun hf => absurd hf.accepts.1 hks, fun _ => ⟨true, h, returns_step fun m => ?_,
      ⟨fun _ => .scalar hks hk, fun _ => rfl⟩, .refl hr.moved (not_sized hno)⟩⟩
    rw [hcall, if_neg hks, hkept _ hty]

theorem apart_zip (hfin : sh.Finite s) (hd : Distinct sh s)
    (hapart : ∀ p, Visits sh s t p → ¬ sh.HasField s p.2) {l l' : ListId} (hl : Lists sh s t l l')
    (hlen : getNumOfExplictFields sh l' = some (sh.elements l).length) :
    Apart sh ((sh.elements l).zip (sh.elements l')) := by
  have hfs : sh.fields s = some (sh.elements l) :=
    Shape.fields_eq_some.mpr ⟨hl.kind, l, hl.source, rfl⟩
  obtain ⟨hpair, -⟩ := hd
  refine ⟨?_, fun p hp => not_has_self hfin hfs (List.of_mem_zip hp).1, fun p hp q hq => ?_⟩
  · have hleft := hpair _ hfs
    rw [← List.map_fst_zip (explicit_le hlen)] at hleft
    exact List.pairwise_map.mp hleft
  · have hc := (compares_iff hl hlen).mpr hp
    have hwithin {r : FieldId} (hw : Within sh q.1 r) : sh.HasField s r := by
      rcases hw with rfl | hr
      · exact ⟨s, _, .refl, hfs, (List.of_mem_zip hq).1⟩
      · exact hr.part (.field .refl hfs (List.of_mem_zip hq).1)
    exact ⟨fun hw => hapart p (.here hc) (hwithin hw),
      fun v hv hw => hapart v (.inner hc hv) (hwithin hw)⟩

theorem extendType_called (hp : sh.Program) (hfin : sh.Finite s) (hs : sh.ty c = s)
    (hself : ¬ sh.HasField s c) (hd : Distinct sh s)
    (hapart : ∀ p, Visits sh s t p → ¬ sh.HasField s p.2) : Called sh size c t := by
  induction hfin generalizing c t with
  | @intro s hbelow ih =>
    subst hs
    by_cases hk : Accepts (sh.kind (sh.ty c)) (sh.kind t)
    · by_cases hnum : sh.kind (sh.ty c) = .int ∧ sh.kind t = .real
      · exact called_number ((hp.single .real rfl _).mpr rfl) hnum.1 hnum.2
      · refine called_lists hp.wf hself hk hnum fun l l' hl hlen =>
          ⟨apart_zip (.intro hbelow) hd hapart hl hlen, fun p hm => ?_⟩
        have hfs : sh.fields (sh.ty c) = some (sh.elements l) :=
          Shape.fields_eq_some.mpr ⟨hl.kind, l, hl.source, rfl⟩
        have hc := (compares_iff hl hlen).mpr hm
        have hmem := (List.of_mem_zip hm.mem).1
        obtain ⟨-, hbelow'⟩ := hd
        refine ih _ hfs p.1 hmem rfl (not_has_self (.intro hbelow) hfs hmem)
          (hbelow' _ hfs p.1 hmem) fun v hv hhas => hapart v (.inner hc hv) ?_
        exact hhas.part (.field .refl hfs hmem)
    · exact called_refused hk

end Call

/-! ## Exactly the safe calls -/

section Safe

variable {h h' h₁ : Heap} {c f g : FieldId} {s t o : TyId} {sh : Shape} {b : Bool}

theorem Extends.widened (hreal : sh.kind (sh.single .real) = .real) (he : Extends sh s t)
    (hm : Moved sh h') (hsource : ∀ f g, Sized sh s t f g → h'.ty f = widen sh (sh.ty f) (sh.ty g))
    (htarget : ∀ p, Visits sh s t p → h'.ty p.2 = sh.ty p.2) :
    Extends h'.toShape (widen sh s t) t := by
  induction he with
  | @scalar s t hs hk =>
    rw [widen]
    split
    · next hnum =>
      refine .scalar ?_ (.inl ?_)
      · rw [hm.kind, hreal]
        decide
      · rw [hm.kind, hreal, hnum.2]
    · exact .scalar (by rwa [hm.kind]) (by rwa [hm.kind])
  | @same s t l hs hk hl hl' =>
    rw [widen, if_neg (by simp [hs])]
    exact .same (by rwa [hm.kind]) (by rwa [hm.kind]) (hm.record ▸ hl) (hm.record ▸ hl')
  | @record s t l l' hl hlen hall ih =>
    rw [widen, if_neg (by simp [hl.kind])]
    have hl' : Lists h'.toShape s t l l' :=
      ⟨by rw [hm.kind, hl.kind], by rw [hm.kind]; exact hl.accepts, hm.record ▸ hl.source,
        hm.record ▸ hl.target, hl.ne⟩
    refine .record hl' (by rw [hm.explicit, hm.elements, hlen]) fun p hp => ?_
    rw [hm.elements] at hp
    -- all pairs are come to
    have hc : Compares sh s t p := by
      obtain ⟨pre, post, hsplit⟩ := List.append_of_mem hp
      exact (compares_iff hl hlen).mpr ⟨pre, post, hsplit, fun q hq => hall q (by
        rw [hsplit]
        exact List.mem_append_left _ hq)⟩
    rw [hsource p.1 p.2 (.here hc (hall p hp)), htarget p (.here hc)]
    exact ih p hp (fun f g hs => hsource f g (.inner hc hs)) fun v hv => htarget v (.inner hc hv)

theorem Sized.mem (hs : Sized sh s t f g) : ∃ l, f ∈ sh.elements l := by
  obtain ⟨r, fs, -, hfs, hf⟩ := hs.has
  obtain ⟨-, l, -, rfl⟩ := Shape.fields_eq_some.mp hfs
  exact ⟨l, hf⟩

theorem Visits.mem {p : FieldId × FieldId} (hv : Visits sh s t p) : ∃ l, p.2 ∈ sh.elements l := by
  have hmem : ∀ {s t p}, Compares sh s t p → ∃ l, p.2 ∈ sh.elements l := by
    rintro s t p ⟨l, l', -, -, hc⟩
    exact ⟨l', (List.of_mem_zip hc.mem).2⟩
  induction hv with
  | here hc => exact hmem hc
  | inner _ _ ih => exact ih

theorem Effect.unchanged (he : Effect h.toShape h.size (Sized h.toShape s t) h h₁)
    (hno : ∀ g, Sized h.toShape s t f g → ¬ Changes h f g) :
    h₁.ty f = h.ty f ∧ h₁.size f = h.size f := by
  by_cases hs : ∃ g, Sized h.toShape s t f g
  · obtain ⟨g, hs⟩ := hs
    obtain ⟨hsize, hnum⟩ := not_or.mp (hno g hs)
    obtain ⟨hty, hsize'⟩ := he.done f g hs
    exact ⟨hty.trans (if_neg hnum), hsize'.trans (not_not.mp hsize).symm⟩
  · exact he.rest f fun g hs' => hs ⟨g, hs'⟩

theorem Effect.changed (hreal : h.kind (h.single .real) = .real)
    (he : Effect h.toShape h.size (Sized h.toShape s t) h h₁) (hs : Sized h.toShape s t f g)
    (hc : Changes h f g) : ¬ (h₁.ty f = h.ty f ∧ h₁.size f = h.size f) := by
  rintro ⟨hty, hsize⟩
  obtain ⟨hty', hsize'⟩ := he.done f g hs
  rcases hc with hne | ⟨hint, hreal'⟩
  · exact hne (hsize.symm.trans hsize')
  · rw [hty', widen, if_pos ⟨hint, hreal'⟩] at hty
    rw [← hty, hreal] at hint
    cases hint

theorem sameTy_moved (hplace : ∀ l, c ∉ h.elements l) (hm : Moved h.toShape h₁) {r : TyId}
    (hsame : ∀ f, h.HasField o f → h₁.ty f = h.ty f ∧ h₁.size f = h.size f) :
    SameTy h (h₁.setTy c r) o := by
  intro q hq
  refine ⟨congrFun hm.kind q, ?_, fun fs hfs f hf => ?_⟩
  · change h₁.toShape.fields q = h.toShape.fields q
    rw [Shape.fields, Shape.fields, hm.kind, hm.record, hm.elements]
  · have hne : f ≠ c := by
      rintro rfl
      obtain ⟨-, l, -, rfl⟩ := Shape.fields_eq_some.mp hfs
      exact hplace l hf
    obtain ⟨hty, hsize⟩ := hsame f ⟨q, fs, hq, hfs, hf⟩
    exact ⟨by simpa [Heap.setTy, hne] using hty, hsize⟩

theorem SameTy.field (hplace : ∀ l, c ∉ h.elements l) {r : TyId}
    (hsame : SameTy h (h₁.setTy c r) o) (hf : h.HasField o f) :
    h₁.ty f = h.ty f ∧ h₁.size f = h.size f := by
  obtain ⟨q, fs, hq, hfs, hf⟩ := hf
  obtain ⟨hty, hsize⟩ := (hsame q hq).2.2 fs hfs f hf
  have hne : f ≠ c := by
    rintro rfl
    obtain ⟨-, l, -, rfl⟩ := Shape.fields_eq_some.mp hfs
    exact hplace l hf
  exact ⟨by simpa [Heap.setTy, hne] using hty, hsize⟩

theorem Unshared.called (hu : Unshared h.toShape c t) (hp : h.Program) (hfin : h.Finite (h.ty c)) :
    (Faulty h.toShape (h.ty c) t → Returns (fun n => extendType n h c t) (.error .wildPtr)) ∧
    (¬ Faulty h.toShape (h.ty c) t → ∃ b h', Returns (fun n => extendType n h c t)
        (.ok (b, h'.setTy c (if b then widen h.toShape (h.ty c) t else h.ty c))) ∧
      (b = true ↔ Extends h.toShape (h.ty c) t) ∧
      Effect h.toShape h.size (Sized h.toShape (h.ty c) t) h h') := by
  have hself : ¬ h.HasField (h.ty c) c := by
    rintro ⟨r, fs, -, hfs, hf⟩
    obtain ⟨-, l, -, rfl⟩ := Shape.fields_eq_some.mp hfs
    exact hu.place l hf
  exact extendType_called hp hfin rfl hself hu.distinct hu.apart h
    ⟨rfl, fun _ _ => rfl, fun _ _ => ⟨rfl, rfl⟩⟩

theorem ExtendSafe.transactional (hp : h.Program) (hfin : h.Finite (h.ty c))
    (hu : Unshared h.toShape c t) (hs : ExtendSafe h c t) : ExtendTransactional h c t := by
  obtain ⟨b, h₁, hret, hb, heff⟩ := (hu.called hp hfin).2 hs.lists
  refine ⟨b, _, hret, fun htrue => ?_, fun hfalse => ?_⟩
  · have hfit := hb.mp htrue
    rw [if_pos htrue]
    constructor
    · have hreal : h.kind (h.single .real) = .real := (hp.single .real rfl _).mpr rfl
      have hkept {f : FieldId} (hf : ∃ l, f ∈ h.elements l) (r : TyId) :
          (h₁.setTy c r).ty f = h₁.ty f := by
        obtain ⟨l, hf⟩ := hf
        have hne : f ≠ c := by
          rintro rfl
          exact hu.place l hf
        simp [Heap.setTy, hne]
      have hext := hfit.widened hreal (heff.moved.setTy c (widen h.toShape (h.ty c) t))
        (fun f g hs => (hkept hs.mem _).trans (heff.done f g hs).1) fun p hv =>
          (hkept hv.mem _).trans (heff.rest p.2 fun g hs => hu.apart p hv hs.has).1
      simpa [Heap.setTy] using hext
    · intro o ho
      refine sameTy_moved hu.place heff.moved fun f hf => heff.unchanged fun g hsz hc => ?_
      rcases ho with ho | ⟨k, hk, rfl⟩
      · exact ho (hs.fit hfit f g hsz hc o hf)
      · obtain ⟨r, fs, hr, hfs, -⟩ := hf
        rw [(single_parts hp hk hr).2] at hfs
        cases hfs
  · have hfit : ¬ Extends h.toShape (h.ty c) t := fun hfit => by simp [hb.mpr hfit] at hfalse
    have hsame (o : TyId) : SameTy h (h₁.setTy c (if b then widen h.toShape (h.ty c) t else h.ty c)) o :=
      sameTy_moved hu.place heff.moved fun f _ => heff.unchanged (hs.unfit hfit f)
    exact ⟨by simp [Heap.setTy, hfalse], hsame _, hsame _⟩

theorem ExtendTransactional.safe (hp : h.Program) (hfin : h.Finite (h.ty c))
    (hu : Unshared h.toShape c t) (htr : ExtendTransactional h c t) : ExtendSafe h c t := by
  obtain ⟨b, h', hret, htrue, hfalse⟩ := htr
  obtain ⟨hfault, hok⟩ := hu.called hp hfin
  have hlists : ¬ Faulty h.toShape (h.ty c) t := fun hf => by
    have hne := hret.unique (hfault hf)
    cases hne
  obtain ⟨b', h₁, hret', hb, heff⟩ := hok hlists
  obtain ⟨rfl, rfl⟩ := Prod.mk.inj (Except.ok.inj (hret.unique hret'))
  have hreal : h.kind (h.single .real) = .real := (hp.single .real rfl _).mpr rfl
  refine ⟨hlists, fun hfit f g hs hc o ho => ?_, fun hfit f g hs hc => ?_⟩
  · by_contra hno
    exact heff.changed hreal hs hc (((htrue (hb.mpr hfit)).2 o (.inl hno)).field hu.place ho)
  · have hfail : b = false := by
      cases b with
      | true => exact absurd (hb.mp rfl) hfit
      | false => rfl
    exact heff.changed hreal hs hc ((hfalse hfail).2.1.field hu.place hs.has)

end Safe

/-- Exactly the safe calls leave the other types, and where they fail their arguments, as they were.
-/
theorem unification_transactional_iff (h : Heap) (hp : h.Program) :
    (∀ s t, h.Finite s → (Transactional h s t ↔ Safe h s t)) ∧
      ∀ c t, h.Finite (h.ty c) → Unshared h.toShape c t →
        (ExtendTransactional h c t ↔ ExtendSafe h c t) :=
  ⟨fun _ _ hfin => ⟨fun htr => htr.safe hp hfin, fun hs => hs.transactional hp hfin⟩,
    fun _ _ hfin hu => ⟨fun htr => htr.safe hp hfin hu, fun hs => hs.transactional hp hfin hu⟩⟩

/-- Two records of one `char` field, `f` of three characters and `g` of five; a place for the first
one is `2`. -/
def twoRecords : Heap where
  kind
    | 0 => .nil | 1 => .int | 2 => .real | 3 => .string | 4 => .void | 5 => .timestamp
    | 6 => .iext | 7 => .rext | 8 => .cext | 9 => .text | 10 => .record | 11 => .record
    | _ => .name
  record
    | 10 => some 0
    | 11 => some 1
    | _ => none
  elements
    | 0 => [0]
    | 1 => [1]
    | _ => []
  ty f := if f = 2 then 10 else 3
  implicit _ := false
  single
    | .nil => 0 | .int => 1 | .real => 2 | .string => 3 | .void => 4 | .timestamp => 5
    | .iext => 6 | .rext => 7 | .cext => 8 | .text => 9 | _ => 12
  size
    | 0 => 3
    | 1 => 5
    | _ => 0

theorem twoRecords_program : twoRecords.Program := by
  constructor
  · intro t hk
    unfold twoRecords at hk ⊢
    dsimp only at hk ⊢
    split at hk <;> first | exact ⟨_, rfl⟩ | cases hk
  · intro k hk t
    constructor
    · unfold twoRecords
      dsimp only
      split <;> rintro rfl <;> first | rfl | cases hk
    · rintro rfl
      cases k <;> first | rfl | cases hk

theorem twoRecords_fields {s : TyId} {fs : List FieldId} (hs : twoRecords.fields s = some fs) :
    (s = 10 ∧ fs = [0]) ∨ (s = 11 ∧ fs = [1]) := by
  obtain ⟨-, l, hl, rfl⟩ := Shape.fields_eq_some.mp hs
  unfold twoRecords at hl ⊢
  dsimp only at hl ⊢
  split at hl
  · obtain rfl := Option.some.inj hl
    exact .inl ⟨rfl, rfl⟩
  · obtain rfl := Option.some.inj hl
    exact .inr ⟨rfl, rfl⟩
  · cases hl

theorem twoRecords_finite (s : TyId) : twoRecords.Finite s := by
  have hscalar : twoRecords.Finite 3 := .intro fun fs hfs => by
    rcases twoRecords_fields hfs with ⟨h3, -⟩ | ⟨h3, -⟩ <;> exact absurd h3 (by decide)
  refine .intro fun fs hfs f hf => ?_
  rcases twoRecords_fields hfs with ⟨-, rfl⟩ | ⟨-, rfl⟩
  · obtain rfl := List.mem_singleton.mp hf
    exact hscalar
  · obtain rfl := List.mem_singleton.mp hf
    exact hscalar

theorem twoRecords_parts {o r : TyId} (hr : twoRecords.PartOf o r) : r = o ∨ r = 3 := by
  induction hr with
  | refl => exact .inl rfl
  | field _ hfs hf _ =>
    rcases twoRecords_fields hfs with ⟨-, rfl⟩ | ⟨-, rfl⟩
    · obtain rfl := List.mem_singleton.mp hf
      exact .inr rfl
    · obtain rfl := List.mem_singleton.mp hf
      exact .inr rfl

theorem twoRecords_has {o : TyId} {f : FieldId} (hf : twoRecords.HasField o f) :
    (o = 10 ∧ f = 0) ∨ (o = 11 ∧ f = 1) := by
  obtain ⟨r, fs, hr, hfs, hf⟩ := hf
  rcases twoRecords_fields hfs with ⟨rfl, rfl⟩ | ⟨rfl, rfl⟩
  · rcases twoRecords_parts hr with rfl | h3
    · exact .inl ⟨rfl, List.mem_singleton.mp hf⟩
    · exact absurd h3 (by decide)
  · rcases twoRecords_parts hr with rfl | h3
    · exact .inr ⟨rfl, List.mem_singleton.mp hf⟩
    · exact absurd h3 (by decide)

theorem twoRecords_private : Private twoRecords.toShape 10 0 := by
  intro o ho
  rcases twoRecords_has ho with ⟨rfl, -⟩ | ⟨-, h1⟩
  · exact .refl
  · exact absurd h1 (by decide)

theorem twoRecords_safe : Safe twoRecords 10 11 := by
  have hfit : Fits twoRecords.toShape 10 11 := .record rfl rfl rfl fun p hp => by
    obtain rfl := List.mem_singleton.mp hp
    exact .scalar (by decide) rfl
  refine ⟨fun hw => ?_, fun _ f g hr _ => ?_, absurd hfit⟩
  · obtain ⟨r, hr, hk⟩ := hw.part
    rcases twoRecords_parts hr with rfl | rfl <;> cases hk
  · rcases twoRecords_has hr.has.1 with ⟨-, rfl⟩ | ⟨h10, -⟩
    · exact twoRecords_private
    · exact absurd h10 (by decide)

theorem twoRecords_visits {p : FieldId × FieldId} (hv : Visits twoRecords.toShape 10 11 p) :
    p = (0, 1) := by
  have hpair {q : FieldId × FieldId} (hc : Compares twoRecords.toShape 10 11 q) : q = (0, 1) := by
    obtain ⟨l, l', hl, -, hc⟩ := hc
    obtain rfl : 0 = l := Option.some.inj hl.source
    obtain rfl : 1 = l' := Option.some.inj hl.target
    exact List.mem_singleton.mp hc.mem
  have hscalar {q : FieldId × FieldId} : ¬ Compares twoRecords.toShape 3 3 q := by
    rintro ⟨l, l', hl, -, -⟩
    exact absurd hl.kind (by decide)
  cases hv with
  | here hc => exact hpair hc
  | inner hc hv =>
    rw [hpair hc] at hv
    cases hv with
    | here hc => exact absurd hc hscalar
    | inner hc _ => exact absurd hc hscalar

theorem twoRecords_unshared : Unshared twoRecords.toShape 2 11 := by
  have hplace (l : ListId) : 2 ∉ twoRecords.elements l := by
    unfold twoRecords
    dsimp only
    split <;> decide
  have hscalar : Distinct twoRecords.toShape 3 := by
    constructor <;> intro fs hfs <;>
      rcases twoRecords_fields hfs with ⟨h3, -⟩ | ⟨h3, -⟩ <;> exact absurd h3 (by decide)
  refine ⟨hplace, ?_, fun p hv hf => ?_⟩
  · constructor
    · rintro _ ⟨⟩
      exact List.pairwise_singleton _ _
    · rintro _ ⟨⟩ f hf
      obtain rfl := List.mem_singleton.mp hf
      exact hscalar
  · obtain rfl := twoRecords_visits hv
    rcases twoRecords_has hf with ⟨-, h1⟩ | ⟨h10, -⟩
    · exact absurd h1 (by decide)
    · exact absurd h10 (by decide)

theorem twoRecords_extendSafe : ExtendSafe twoRecords 2 11 := by
  have hlists : Lists twoRecords.toShape 10 11 0 1 := ⟨rfl, .inl rfl, rfl, rfl, by decide⟩
  have hfit : Extends twoRecords.toShape 10 11 := .record hlists rfl fun p hp => by
    obtain rfl := List.mem_singleton.mp hp
    exact .scalar (by decide) (.inl rfl)
  refine ⟨hfit.not_faulty, fun _ f g hs _ => ?_, absurd hfit⟩
  obtain ⟨rfl, -⟩ := Prod.mk.inj (twoRecords_visits hs.visits)
  exact twoRecords_private

/-- Where the first record alone has `f`, both calls make room for five characters. -/
theorem unification_transactional_growing :
    Transactional twoRecords 10 11 ∧ ExtendTransactional twoRecords 2 11 := by
  obtain ⟨hmake, hextend⟩ := unification_transactional_iff twoRecords twoRecords_program
  exact ⟨(hmake 10 11 (twoRecords_finite _)).mpr twoRecords_safe,
    (hextend 2 11 (twoRecords_finite _) twoRecords_unshared).mpr twoRecords_extendSafe⟩

/-- `makeCompatibleType(Ty_Int(), Ty_Real())` makes every `int` of the program a `real`. -/
theorem unification_int_real :
    ¬ ∀ h : Heap, h.Program → ∀ s t, h.Finite s → Transactional h s t := by
  intro hall
  have hsafe := (hall twoRecords twoRecords_program 1 2 (twoRecords_finite 1)).safe
    twoRecords_program (twoRecords_finite 1)
  exact hsafe.narrow (.here rfl rfl)

end StreamMill.Types
