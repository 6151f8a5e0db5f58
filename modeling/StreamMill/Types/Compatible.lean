import StreamMill.Types.Heap
import StreamMill.Lib.While
import Mathlib.Data.List.Zip

/-!
# StreamMill.Types.Compatible

`Ty_compatible`. It means to test whether the first type is a record, but makes it one: the test is
the relation of the types on exactly those pairs that it looks at without writing (`Clean`).
-/

namespace StreamMill.Types

open Lib (Returns)

/-- The first test: the kinds are the same, or `int` and `real`. -/
def agree (k k' : Kind) : Bool :=
  k = k' || (k = .int && k' = .real) || (k = .real && k' = .int)

def compatibleFields (call : Shape → TyId → TyId → Option (Except Fault (Bool × Shape))) :
    List (FieldId × FieldId) → Shape → Option (Except Fault (Bool × Shape))
  | [], h => some (.ok (true, h))
  | (f, g) :: ps, h =>
    match call h (h.ty f) (h.ty g) with
    | some (.ok (true, h)) => compatibleFields call ps h
    | r => r

/-- `Ty_compatible`, which neither reads nor writes the sizes of fields; the fuel is the depth of
the recursion. -/
def tyCompatible : Nat → Shape → TyId → TyId → Option (Except Fault (Bool × Shape))
  | 0, _, _, _ => none
  | n + 1, h, ty1, ty2 =>
    if ¬ agree (h.kind ty1) (h.kind ty2) then some (.ok (false, h))
    else
      -- `if (ty1->kind = Ty_record)`
      let h := h.setKind ty1 .record
      match h.record ty1, h.record ty2 with
      | some list1, some list2 =>
        if (h.elements list1).length ≠ (h.elements list2).length then some (.ok (false, h))
        else compatibleFields (tyCompatible n) ((h.elements list1).zip (h.elements list2)) h
      | _, _ => some (.error .wildPtr)

/-- What the test is to say: scalars have kinds that agree, and records have as many fields of types
that are compatible one by one. -/
inductive Compatible (h : Shape) : TyId → TyId → Prop
  | scalar {s t : TyId} (hs : h.kind s ≠ .record) (hk : agree (h.kind s) (h.kind t)) :
    Compatible h s t
  | record {s t : TyId} {fs gs : List FieldId} (hs : h.fields s = some fs)
    (ht : h.fields t = some gs) (hlen : fs.length = gs.length)
    (hall : ∀ p ∈ fs.zip gs, Compatible h (h.ty p.1) (h.ty p.2)) : Compatible h s t

section Relation

variable {h : Shape} {s t : TyId} {k k' : Kind}

theorem agree_iff : agree k k' = true ↔
    k = k' ∨ (k = .int ∧ k' = .real) ∨ (k = .real ∧ k' = .int) := by
  simp [agree, or_assoc]

theorem agree_record (hk : agree k k' = true) : k = .record ↔ k' = .record := by
  rcases agree_iff.mp hk with rfl | ⟨rfl, rfl⟩ | ⟨rfl, rfl⟩ <;> simp

theorem agree_comm (k k' : Kind) : agree k k' = agree k' k := by
  cases k <;> cases k' <;> rfl

theorem Compatible.agree (hc : Compatible h s t) : agree (h.kind s) (h.kind t) = true := by
  cases hc with
  | scalar _ hk => exact hk
  | record hs ht _ _ =>
    rw [(Shape.fields_eq_some.mp hs).1, (Shape.fields_eq_some.mp ht).1]
    rfl

theorem compatible_record {fs gs : List FieldId} (hs : h.fields s = some fs)
    (ht : h.fields t = some gs) : Compatible h s t ↔
      fs.length = gs.length ∧ ∀ p ∈ fs.zip gs, Compatible h (h.ty p.1) (h.ty p.2) := by
  constructor
  · intro hc
    cases hc with
    | scalar hk _ => exact absurd (Shape.fields_eq_some.mp hs).1 hk
    | record hs' ht' hlen hall =>
      rw [hs, Option.some.injEq] at hs'
      rw [ht, Option.some.injEq] at ht'
      subst hs' ht'
      exact ⟨hlen, hall⟩
  · rintro ⟨hlen, hall⟩
    exact .record hs ht hlen hall

theorem zip_self (fs : List FieldId) : fs.zip fs = fs.map fun f => (f, f) := by
  induction fs with
  | nil => rfl
  | cons f fs ih => rw [List.zip_cons_cons, List.map_cons, ih]

theorem Compatible.refl (hwf : h.Wf) (hs : h.Finite s) : Compatible h s s := by
  induction hs with
  | @intro s _ ih =>
    by_cases hk : h.kind s = .record
    · obtain ⟨l, -, hfs⟩ := hwf.fields hk
      refine .record hfs hfs rfl fun p hp => ?_
      rw [zip_self] at hp
      obtain ⟨f, hf, rfl⟩ := List.mem_map.mp hp
      exact ih _ hfs f hf
    · exact .scalar hk (agree_iff.mpr (.inl rfl))

theorem Compatible.symm (hc : Compatible h s t) : Compatible h t s := by
  induction hc with
  | scalar hs hk =>
    refine .scalar (fun ht => hs ((agree_record hk).mpr ht)) ?_
    rw [agree_comm]
    exact hk
  | record hs ht hlen _ ih =>
    refine .record ht hs hlen.symm fun p hp => ?_
    refine ih p.swap ?_
    rw [← List.zip_swap]
    exact List.mem_map_of_mem hp

end Relation

def Faithful (h : Shape) (s t : TyId) : Prop :=
  ∃ b, Returns (fun n => tyCompatible n h s t) (.ok (b, h)) ∧ (b = true ↔ Compatible h s t)

/-- The pairs of types at which nothing is written: those of other kinds, and records in which the
pairs of fields up to the first one that is not compatible are clean themselves. -/
inductive Clean (h : Shape) : TyId → TyId → Prop
  | kind {s t : TyId} (hk : agree (h.kind s) (h.kind t) = false) : Clean h s t
  | length {s t : TyId} {fs gs : List FieldId} (hs : h.fields s = some fs)
    (ht : h.fields t = some gs) (hlen : fs.length ≠ gs.length) : Clean h s t
  | fields {s t : TyId} {fs gs : List FieldId} (hs : h.fields s = some fs)
    (ht : h.fields t = some gs) (hlen : fs.length = gs.length)
    (hall : ∀ pre p post, fs.zip gs = pre ++ p :: post →
      (∀ q ∈ pre, Compatible h (h.ty q.1) (h.ty q.2)) → Clean h (h.ty p.1) (h.ty p.2)) :
    Clean h s t

/-- All that a call can change are kinds, and only to `record`. -/
structure Grown (h h' : Shape) : Prop where
  rest : h' = { h with kind := h'.kind }
  kind : ∀ t, h'.kind t = h.kind t ∨ h'.kind t = .record

section Test

variable {h h' h'' : Shape} {s t : TyId} {n : Nat} {b : Bool}

theorem Grown.refl (h : Shape) : Grown h h := ⟨rfl, fun _ => .inl rfl⟩

theorem Grown.trans (h₁ : Grown h h') (h₂ : Grown h' h'') : Grown h h'' := by
  refine ⟨by rw [h₂.rest, h₁.rest], fun t => ?_⟩
  rcases h₂.kind t with hk | hk
  · rw [hk]
    exact h₁.kind t
  · exact .inr hk

/-- What has become a record stays one: a change is never taken back. -/
theorem Grown.unchanged (h₁ : Grown h h') (h₂ : Grown h' h) : h' = h := by
  have hkind : h'.kind = h.kind := by
    funext t
    rcases h₁.kind t with hk | hk
    · exact hk
    · rcases h₂.kind t with hk' | hk'
      · exact hk'.symm
      · rw [hk, hk']
  rw [h₁.rest, hkind]

theorem grown_setKind (h : Shape) (s : TyId) : Grown h (h.setKind s .record) := by
  refine ⟨rfl, fun t => ?_⟩
  rw [Shape.setKind]
  by_cases ht : t = s
  · subst ht
    simp
  · simp [ht]

variable {ps : List (FieldId × FieldId)}

theorem compatibleFields_grown {call : Shape → TyId → TyId → Option (Except Fault (Bool × Shape))}
    (hcall : ∀ h s t b h', call h s t = some (.ok (b, h')) → Grown h h')
    (hr : compatibleFields call ps h = some (.ok (b, h'))) :
    Grown h h' := by
  induction ps generalizing h with
  | nil =>
    obtain ⟨-, rfl⟩ := Prod.mk.inj (Except.ok.inj (Option.some.inj hr))
    exact .refl h
  | cons p ps ih =>
    rw [compatibleFields] at hr
    split at hr
    · next h₁ hc => exact (hcall _ _ _ _ _ hc).trans (ih hr)
    · exact hcall _ _ _ _ _ hr

theorem tyCompatible_cases (hr : tyCompatible (n + 1) h s t = some (.ok (b, h'))) :
    (agree (h.kind s) (h.kind t) = false ∧ b = false ∧ h' = h) ∨
      (agree (h.kind s) (h.kind t) = true ∧ ∃ l l', h.record s = some l ∧ h.record t = some l' ∧
        (((h.elements l).length ≠ (h.elements l').length ∧ b = false ∧
            h' = h.setKind s .record) ∨
          ((h.elements l).length = (h.elements l').length ∧
            compatibleFields (tyCompatible n) ((h.elements l).zip (h.elements l'))
              (h.setKind s .record) = some (.ok (b, h'))))) := by
  rw [tyCompatible] at hr
  dsimp only at hr
  split at hr
  · next hk =>
    obtain ⟨rfl, rfl⟩ := Prod.mk.inj (Except.ok.inj (Option.some.inj hr))
    exact .inl ⟨by simpa using hk, rfl, rfl⟩
  · next hk =>
    refine .inr ⟨by simpa using hk, ?_⟩
    split at hr
    · next l l' hl hl' =>
      refine ⟨l, l', hl, hl', ?_⟩
      split at hr
      · next hlen =>
        obtain ⟨rfl, rfl⟩ := Prod.mk.inj (Except.ok.inj (Option.some.inj hr))
        exact .inl ⟨hlen, rfl, rfl⟩
      · next hlen => exact .inr ⟨not_not.mp hlen, hr⟩
    · cases hr

theorem tyCompatible_grown (hr : tyCompatible n h s t = some (.ok (b, h'))) : Grown h h' := by
  induction n generalizing h s t b h' with
  | zero => cases hr
  | succ n ih =>
    rcases tyCompatible_cases hr with ⟨-, -, rfl⟩ | ⟨-, _, _, -, -, ⟨-, -, rfl⟩ | ⟨-, hfields⟩⟩
    · exact .refl _
    · exact grown_setKind h s
    · exact (grown_setKind h s).trans (compatibleFields_grown (fun _ _ _ _ _ hc => ih hc) hfields)

theorem compatibleFields_unchanged (hcall : ∀ s t b, tyCompatible n h s t = some (.ok (b, h)) →
      Clean h s t ∧ (b = true ↔ Compatible h s t))
    (hr : compatibleFields (tyCompatible n) ps h = some (.ok (b, h))) :
    (∀ pre p post, ps = pre ++ p :: post → (∀ q ∈ pre, Compatible h (h.ty q.1) (h.ty q.2)) →
        Clean h (h.ty p.1) (h.ty p.2)) ∧
      (b = true ↔ ∀ p ∈ ps, Compatible h (h.ty p.1) (h.ty p.2)) := by
  induction ps with
  | nil =>
    obtain ⟨rfl, -⟩ := Prod.mk.inj (Except.ok.inj (Option.some.inj hr))
    exact ⟨fun pre p post hps => by simp at hps, by simp⟩
  | cons p ps ih =>
    obtain ⟨f, g⟩ := p
    rw [compatibleFields] at hr
    split at hr
    · next h₁ hc =>
      have hrest := compatibleFields_grown (fun _ _ _ _ _ hc => tyCompatible_grown hc) hr
      obtain rfl := (tyCompatible_grown hc).unchanged hrest
      obtain ⟨hclean, hcomp⟩ := hcall _ _ _ hc
      have hfg := hcomp.mp rfl
      obtain ⟨hpre, hb⟩ := ih hr
      refine ⟨fun pre p post hps hall => ?_, ?_⟩
      · rcases List.cons_eq_append_iff.mp hps with ⟨rfl, hp⟩ | ⟨pre', rfl, hps'⟩
        · obtain ⟨rfl, -⟩ := List.cons.inj hp
          exact hclean
        · exact hpre pre' p post hps' fun q hq => hall q (List.mem_cons_of_mem _ hq)
      · rw [hb, List.forall_mem_cons]
        exact ⟨fun hps => ⟨hfg, hps⟩, And.right⟩
    · next hstop =>
      obtain ⟨hclean, hcomp⟩ := hcall _ _ _ hr
      have hb : b = false := by
        cases b with
        | true => exact absurd hr (hstop _)
        | false => rfl
      subst hb
      have hfg : ¬ Compatible h (h.ty f) (h.ty g) := fun hc => by simpa using hcomp.mpr hc
      refine ⟨fun pre p post hps hall => ?_, ?_⟩
      · rcases List.cons_eq_append_iff.mp hps with ⟨rfl, hp⟩ | ⟨pre', rfl, -⟩
        · obtain ⟨rfl, -⟩ := List.cons.inj hp
          exact hclean
        · exact absurd (hall _ List.mem_cons_self) hfg
      · exact ⟨fun hb => by simp at hb, fun hall => absurd (hall _ List.mem_cons_self) hfg⟩

theorem tyCompatible_unchanged (hr : tyCompatible n h s t = some (.ok (b, h))) :
    Clean h s t ∧ (b = true ↔ Compatible h s t) := by
  induction n generalizing s t b with
  | zero => cases hr
  | succ n ih =>
    rcases tyCompatible_cases hr with ⟨hk, rfl, -⟩ | ⟨hk, l, l', hl, hl', hrest⟩
    · refine ⟨.kind hk, fun hb => by simp at hb, fun hc => ?_⟩
      rw [hc.agree] at hk
      cases hk
    · have hset : h.setKind s .record = h := by
        rcases hrest with ⟨-, -, hset⟩ | ⟨-, hfields⟩
        · exact hset.symm
        · exact (grown_setKind h s).unchanged
            (compatibleFields_grown (fun _ _ _ _ _ hc => tyCompatible_grown hc) hfields)
      have hks : h.kind s = .record := by
        rw [← hset]
        simp [Shape.setKind]
      have hs := Shape.fields_eq_some.mpr ⟨hks, l, hl, rfl⟩
      have ht := Shape.fields_eq_some.mpr ⟨(agree_record hk).mp hks, l', hl', rfl⟩
      rcases hrest with ⟨hlen, rfl, -⟩ | ⟨hlen, hfields⟩
      · refine ⟨.length hs ht hlen, fun hb => by simp at hb, fun hc => ?_⟩
        exact absurd ((compatible_record hs ht).mp hc).1 hlen
      · rw [hset] at hfields
        obtain ⟨hall, hb⟩ := compatibleFields_unchanged (fun _ _ _ hc => ih hc) hfields
        refine ⟨.fields hs ht hlen hall, ?_⟩
        rw [hb, compatible_record hs ht]
        exact ⟨fun hps => ⟨hlen, hps⟩, And.right⟩

/-- The loop, where the calls are faithful up to the first pair that is not compatible. -/
theorem compatibleFields_faithful (hall : ∀ pre p post, ps = pre ++ p :: post →
      (∀ q ∈ pre, Compatible h (h.ty q.1) (h.ty q.2)) → Faithful h (h.ty p.1) (h.ty p.2)) :
    ∃ b, Returns (fun n => compatibleFields (tyCompatible n) ps h) (.ok (b, h)) ∧
      (b = true ↔ ∀ p ∈ ps, Compatible h (h.ty p.1) (h.ty p.2)) := by
  induction ps with
  | nil => exact ⟨true, ⟨0, fun _ _ => rfl⟩, by simp⟩
  | cons p ps ih =>
    obtain ⟨f, g⟩ := p
    obtain ⟨b, ⟨n, hn⟩, hb⟩ := hall [] _ ps rfl (by simp)
    replace hn (m : Nat) (hm : n ≤ m) : tyCompatible m h (h.ty f) (h.ty g) = some (.ok (b, h)) :=
      hn m hm
    cases b with
    | false =>
      have hfg : ¬ Compatible h (h.ty f) (h.ty g) := fun hc => by simpa using hb.mpr hc
      refine ⟨false, ⟨n, fun m hm => ?_⟩, fun hb => by simp at hb,
        fun hps => absurd (hps _ List.mem_cons_self) hfg⟩
      show compatibleFields (tyCompatible m) ((f, g) :: ps) h = _
      rw [compatibleFields, hn m hm]
    | true =>
      have hfg := hb.mp rfl
      obtain ⟨b', ⟨n', hn'⟩, hb'⟩ := ih fun pre p post hps hpre =>
        hall ((f, g) :: pre) p post (by rw [hps, List.cons_append])
          (List.forall_mem_cons.mpr ⟨hfg, hpre⟩)
      refine ⟨b', ⟨n + n', fun m hm => ?_⟩, ?_⟩
      · show compatibleFields (tyCompatible m) ((f, g) :: ps) h = _
        rw [compatibleFields, hn m (by omega)]
        exact hn' m (by omega)
      · rw [hb', List.forall_mem_cons]
        exact ⟨fun hps => ⟨hfg, hps⟩, And.right⟩

theorem Clean.faithful (hc : Clean h s t) : Faithful h s t := by
  induction hc with
  | @kind s t hk =>
    refine ⟨false, ⟨1, fun n hn => ?_⟩, fun hb => by simp at hb, fun hc => ?_⟩
    · obtain ⟨k, rfl⟩ := Nat.exists_eq_add_of_le' hn
      show tyCompatible (k + 1) h s t = _
      rw [tyCompatible, if_pos (by simp [hk])]
    · rw [hc.agree] at hk
      cases hk
  | @length s t fs gs hs ht hlen =>
    obtain ⟨hks, l, hl, rfl⟩ := Shape.fields_eq_some.mp hs
    obtain ⟨hkt, l', hl', rfl⟩ := Shape.fields_eq_some.mp ht
    refine ⟨false, ⟨1, fun n hn => ?_⟩, fun hb => by simp at hb,
      fun hc => absurd ((compatible_record hs ht).mp hc).1 hlen⟩
    obtain ⟨k, rfl⟩ := Nat.exists_eq_add_of_le' hn
    show tyCompatible (k + 1) h s t = _
    rw [tyCompatible, hks, hkt, if_neg (by decide), h.setKind_self hks]
    dsimp only
    rw [hl, hl']
    dsimp only
    rw [if_pos hlen]
  | @fields s t fs gs hs ht hlen _ ih =>
    obtain ⟨hks, l, hl, rfl⟩ := Shape.fields_eq_some.mp hs
    obtain ⟨hkt, l', hl', rfl⟩ := Shape.fields_eq_some.mp ht
    obtain ⟨b, ⟨n, hn⟩, hb⟩ := compatibleFields_faithful ih
    refine ⟨b, ⟨n + 1, fun m hm => ?_⟩, ?_⟩
    · obtain ⟨k, rfl⟩ := Nat.exists_eq_add_of_le' (Nat.le_of_add_left_le hm)
      show tyCompatible (k + 1) h s t = _
      rw [tyCompatible, hks, hkt, h.setKind_self hks]
      dsimp only
      rw [hl, hl']
      dsimp only
      rw [if_neg (not_not.mpr hlen)]
      exact hn k (by omega)
    · rw [hb, compatible_record hs ht]
      exact ⟨fun hps => ⟨hlen, hps⟩, And.right⟩

end Test

end StreamMill.Types
