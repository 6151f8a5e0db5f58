import Mathlib.Data.List.Basic
import Mathlib.Data.List.Nodup

/-!
# StreamMill.Lib.DList

Doubly linked lists in a store. Nodes `a : α` have links `nx a`, `pv a : β`; `ref a` is the link
value that points to `a`. `Seg nx pv ref p xs q` says that the nodes `xs` are linked in this order,
the first one back to `p` and the last one on to `q`. A circular list, a `Ring`, is a segment whose
ends are its own `last` and `first`.
-/

namespace StreamMill.Lib

universe u v

variable {α : Type u} {β : Type v} {nx pv nx' pv' : α → β} {ref : α → β}

/-- The link into `xs`, or `q` when there is none. -/
def first (ref : α → β) : List α → β → β
  | [], q => q
  | a :: _, _ => ref a

/-- The link to the last node of `xs`, or `p` when there is none. -/
def last (ref : α → β) : β → List α → β
  | p, [] => p
  | _, a :: xs => last ref (ref a) xs

def Seg (nx pv ref : α → β) : β → List α → β → Prop
  | _, [], _ => True
  | p, a :: xs, q => pv a = p ∧ nx a = first ref xs q ∧ Seg nx pv ref (ref a) xs q

@[simp] theorem first_nil (q : β) : first ref [] q = q := rfl
@[simp] theorem first_cons (a : α) (xs : List α) (q : β) : first ref (a :: xs) q = ref a := rfl
@[simp] theorem last_nil (p : β) : last ref p [] = p := rfl

@[simp] theorem last_cons (p : β) (a : α) (xs : List α) :
    last ref p (a :: xs) = last ref (ref a) xs := rfl

theorem first_append (xs ys : List α) (q : β) :
    first ref (xs ++ ys) q = first ref xs (first ref ys q) := by
  cases xs <;> rfl

theorem last_append (p : β) (xs ys : List α) :
    last ref p (xs ++ ys) = last ref (last ref p xs) ys := by
  induction xs generalizing p with
  | nil => rfl
  | cons a xs ih => exact ih (ref a)

@[simp] theorem last_concat (p : β) (xs : List α) (a : α) : last ref p (xs ++ [a]) = ref a := by
  rw [last_append]; rfl

variable {p q : β} {xs ys : List α} {a : α}

theorem seg_append :
    Seg nx pv ref p (xs ++ ys) q ↔
      Seg nx pv ref p xs (first ref ys q) ∧ Seg nx pv ref (last ref p xs) ys q := by
  induction xs generalizing p with
  | nil => simp [Seg]
  | cons a xs ih => simp [List.cons_append, Seg, ih, first_append, last_cons, and_assoc]

theorem first_eq_or_mem (xs : List α) (q : β) :
    first ref xs q = q ∨ ∃ a ∈ xs, first ref xs q = ref a := by
  cases xs with
  | nil => exact .inl rfl
  | cons a xs => exact .inr ⟨a, List.mem_cons_self, rfl⟩

theorem last_eq_or_mem (p : β) (xs : List α) :
    last ref p xs = p ∨ ∃ a ∈ xs, last ref p xs = ref a := by
  rcases List.eq_nil_or_concat xs with rfl | ⟨xs, a, rfl⟩
  · exact .inl rfl
  · rw [List.concat_eq_append, last_concat]
    exact .inr ⟨a, by simp, rfl⟩

theorem Seg.congr (h : Seg nx pv ref p xs q) (hnx : ∀ a ∈ xs, nx' a = nx a)
    (hpv : ∀ a ∈ xs, pv' a = pv a) :
    Seg nx' pv' ref p xs q := by
  induction xs generalizing p with
  | nil => trivial
  | cons a xs ih =>
    obtain ⟨h1, h2, h3⟩ := h
    refine ⟨?_, ?_, ih h3 ?_ ?_⟩
    · rw [hpv a List.mem_cons_self, h1]
    · rw [hnx a List.mem_cons_self, h2]
    · exact fun b hb => hnx b (List.mem_cons_of_mem _ hb)
    · exact fun b hb => hpv b (List.mem_cons_of_mem _ hb)

theorem Seg.setNext {q' : β} (h : Seg nx pv ref p (xs ++ [a]) q) (hnx : ∀ b ∈ xs, nx' b = nx b)
    (ha : nx' a = q') (hpv : ∀ b ∈ xs ++ [a], pv' b = pv b) :
    Seg nx' pv' ref p (xs ++ [a]) q' := by
  rw [seg_append] at h ⊢
  refine ⟨h.1.congr hnx fun b hb => hpv b (List.mem_append_left _ hb), ?_, ha, trivial⟩
  rw [hpv a (by simp)]
  exact h.2.1

theorem Seg.setPrev {p' : β} (h : Seg nx pv ref p (a :: xs) q) (hpv : ∀ b ∈ xs, pv' b = pv b)
    (ha : pv' a = p') (hnx : ∀ b ∈ a :: xs, nx' b = nx b) :
    Seg nx' pv' ref p' (a :: xs) q := by
  obtain ⟨-, h2, h3⟩ := h
  refine ⟨ha, ?_, h3.congr (fun b hb => hnx b (List.mem_cons_of_mem _ hb)) hpv⟩
  rw [hnx a List.mem_cons_self, h2]

theorem Seg.links (h : Seg nx pv ref p (xs ++ a :: ys) q) :
    pv a = last ref p xs ∧ nx a = first ref ys q := by
  obtain ⟨-, hpv, hnx, -⟩ := seg_append.mp h
  exact ⟨hpv, hnx⟩

theorem Seg.unlink (h : Seg nx pv ref p (xs ++ a :: ys) q) (hnd : (xs ++ a :: ys).Nodup)
    (hinj : Function.Injective ref) (hp : ∀ b ∈ xs ++ ys, ref b ≠ p)
    (hq : ∀ b ∈ xs ++ ys, ref b ≠ q) (hpva : ∀ b ∈ xs ++ ys, pv a = ref b → nx' b = nx a)
    (hnx : ∀ b ∈ xs ++ ys, pv a ≠ ref b → nx' b = nx b)
    (hnxa : ∀ b ∈ xs ++ ys, nx a = ref b → pv' b = pv a)
    (hpv : ∀ b ∈ xs ++ ys, nx a ≠ ref b → pv' b = pv b) :
    Seg nx' pv' ref p (xs ++ ys) q := by
  obtain ⟨hpa, hna⟩ := h.links
  obtain ⟨hxs, -, -, hys⟩ := seg_append.mp h
  obtain ⟨hndx, hndy, hdisj⟩ := List.nodup_append.mp hnd
  obtain ⟨-, hndy⟩ := List.nodup_cons.mp hndy
  refine seg_append.mpr ⟨?_, ?_⟩
  · have hprev : ∀ b ∈ xs, pv' b = pv b := by
      intro b hb
      refine hpv b (List.mem_append_left _ hb) fun he => ?_
      have hcases : first ref ys q = q ∨ ∃ c ∈ ys, first ref ys q = ref c := first_eq_or_mem ys q
      rcases hcases with hf | ⟨c, hc, hf⟩
      · exact hq b (List.mem_append_left _ hb) (by rw [← he, hna, hf])
      · have hbc : c = b := hinj (by rw [← he, hna, hf])
        exact hdisj b hb b (hbc ▸ List.mem_cons_of_mem _ hc) rfl
    rcases List.eq_nil_or_concat xs with rfl | ⟨l, c, rfl⟩
    · trivial
    · rw [List.concat_eq_append] at *
      rw [last_concat] at hpa
      refine hxs.setNext (fun b hb => ?_) ?_ hprev
      · refine hnx b (by simp [hb]) fun he => ?_
        obtain rfl := hinj (hpa.symm.trans he)
        exact (List.nodup_append.mp hndx).2.2 c hb c (by simp) rfl
      · rw [hpva c (by simp) hpa, hna]
  · have hnext : ∀ b ∈ ys, nx' b = nx b := by
      intro b hb
      refine hnx b (List.mem_append_right _ hb) fun he => ?_
      have hcases : last ref p xs = p ∨ ∃ c ∈ xs, last ref p xs = ref c := last_eq_or_mem p xs
      rcases hcases with hl | ⟨c, hc, hl⟩
      · exact hp b (List.mem_append_right _ hb) (by rw [← he, hpa, hl])
      · have hbc : c = b := hinj (by rw [← he, hpa, hl])
        exact hdisj b (hbc ▸ hc) b (List.mem_cons_of_mem _ hb) rfl
    cases ys with
    | nil => trivial
    | cons d ys =>
      refine hys.setPrev (fun b hb => ?_) ?_ hnext
      · refine hpv b (by simp [hb]) fun he => ?_
        obtain rfl := hinj (hna.symm.trans he)
        exact (List.nodup_cons.mp hndy).1 hb
      · rw [hnxa d (by simp) hna, hpa]

theorem Seg.next_iff_prev {b : α} (h : Seg nx pv ref p xs q) (hinj : Function.Injective ref)
    (hp : ref a ≠ p) (hq : ref b ≠ q) (ha : a ∈ xs) (hb : b ∈ xs) :
    nx a = ref b ↔ pv b = ref a := by
  constructor
  · intro hab
    obtain ⟨l, r, rfl⟩ := List.append_of_mem ha
    rw [h.links.2] at hab
    cases r with
    | nil => exact absurd hab.symm hq
    | cons c r =>
      obtain rfl : c = b := hinj hab
      rw [← List.singleton_append, ← List.append_assoc] at h
      rw [h.links.1, last_concat]
  · intro hba
    obtain ⟨l, r, rfl⟩ := List.append_of_mem hb
    rw [h.links.1] at hba
    rcases List.eq_nil_or_concat l with rfl | ⟨l, c, rfl⟩
    · exact absurd hba.symm hp
    · rw [List.concat_eq_append, last_concat] at hba
      obtain rfl : c = a := hinj hba
      rw [List.concat_eq_append, List.append_assoc, List.singleton_append] at h
      rw [h.links.2, first_cons]

theorem Seg.prev_eq_iff (h : Seg nx pv ref p xs q) (hinj : Function.Injective ref)
    (hp : ∀ b ∈ xs, ref b ≠ p) (ha : a ∈ xs) :
    pv a = p ↔ first ref xs q = ref a := by
  constructor
  · intro hpa
    obtain ⟨l, r, rfl⟩ := List.append_of_mem ha
    rw [h.links.1] at hpa
    rcases List.eq_nil_or_concat l with rfl | ⟨l, c, rfl⟩
    · rfl
    · rw [List.concat_eq_append, last_concat] at hpa
      exact absurd hpa (hp c (by simp))
  · intro hfirst
    cases xs with
    | nil => cases ha
    | cons b xs =>
      obtain rfl : b = a := hinj hfirst
      exact h.1

section Ring

variable {nx pv nx' pv' : α → α}

def Ring (nx pv : α → α) (xs : List α) : Prop :=
  ∀ d, Seg nx pv id (last id d xs) xs (first id xs d)

variable {xs ys : List α} {a : α}

theorem last_of_ne_nil (h : xs ≠ []) (p q : β) :
    last ref p xs = last ref q xs := by
  cases xs with
  | nil => exact absurd rfl h
  | cons a xs => rfl

theorem first_of_ne_nil (h : xs ≠ []) (p q : β) :
    first ref xs p = first ref xs q := by
  cases xs with
  | nil => exact absurd rfl h
  | cons a xs => rfl

theorem last_mem (d : α) (xs : List α) : last id d xs ∈ d :: xs := by
  induction xs generalizing d with
  | nil => exact List.mem_cons_self
  | cons a xs ih => exact List.mem_cons_of_mem _ (ih a)

theorem first_mem (d : α) (xs : List α) : first id xs d ∈ d :: xs := by
  cases xs with
  | nil => exact List.mem_cons_self
  | cons a xs => exact List.mem_cons_of_mem _ List.mem_cons_self

theorem Ring.rotate (h : Ring nx pv (xs ++ ys)) : Ring nx pv (ys ++ xs) := by
  by_cases hx : xs = []
  · subst hx
    rw [List.append_nil]
    exact h
  by_cases hy : ys = []
  · subst hy
    rw [List.append_nil] at h
    exact h
  intro d
  have hd := h d
  rw [seg_append, last_append, first_append] at hd
  rw [seg_append, last_append, first_append]
  refine ⟨?_, ?_⟩
  · rw [last_of_ne_nil hx _ (last id (last id d xs) ys), first_of_ne_nil hx _ (first id ys d)]
    exact hd.2
  · rw [last_of_ne_nil hy _ (last id d xs),
      first_of_ne_nil hy _ (first id xs (first id ys d))]
    exact hd.1

theorem Ring.congr (h : Ring nx pv xs) (hnx : ∀ a ∈ xs, nx' a = nx a) (hpv : ∀ a ∈ xs, pv' a = pv a) :
    Ring nx' pv' xs := fun d => (h d).congr hnx hpv

theorem ring_singleton (hnx : nx a = a) (hpv : pv a = a) : Ring nx pv [a] :=
  fun _ => ⟨hpv, hnx, trivial⟩

theorem Ring.ends (h : Ring nx pv (a :: xs)) :
    pv a = last id a xs ∧ nx a = first id xs a := by
  obtain ⟨h1, h2, -⟩ := h a
  exact ⟨h1, h2⟩

theorem Ring.neighbours (h : Ring nx pv (xs ++ a :: ys)) (hne : xs ++ ys ≠ []) :
    nx a ∈ xs ++ ys ∧ pv a ∈ xs ++ ys := by
  have hr : Ring nx pv (a :: (ys ++ xs)) := h.rotate
  obtain ⟨hpv, hnx⟩ := hr.ends
  have hmem : ∀ b, b ∈ ys ++ xs → b ∈ xs ++ ys := fun b hb => by
    rw [List.mem_append] at hb ⊢
    exact hb.symm
  cases hys : ys ++ xs with
  | nil => exact absurd (List.append_eq_nil_iff.mp hys) fun h => hne (by rw [h.1, h.2]; rfl)
  | cons b zs =>
    rw [hys] at hpv hnx hmem
    refine ⟨hmem _ ?_, hmem _ ?_⟩
    · rw [hnx]
      exact List.mem_cons_self
    · rw [hpv]
      exact last_mem b zs

theorem Ring.closed (h : Ring nx pv xs) (ha : a ∈ xs) :
    nx a ∈ xs ∧ pv a ∈ xs := by
  obtain ⟨ys, zs, rfl⟩ := List.append_of_mem ha
  obtain ⟨hpv, hnx⟩ := h.rotate.ends
  have hmem : ∀ b ∈ a :: (zs ++ ys), b ∈ ys ++ a :: zs := by
    intro b hb
    simp only [List.mem_cons, List.mem_append] at hb ⊢
    tauto
  refine ⟨hmem _ ?_, hmem _ ?_⟩
  · rw [hnx]
    exact first_mem a (zs ++ ys)
  · rw [hpv]
    exact last_mem a (zs ++ ys)

theorem Ring.concat {h z : α} (hr : Ring nx pv (h :: xs)) (hz : z = last id h xs)
    (hnd : (h :: xs).Nodup) (hnx : ∀ b ∈ h :: xs, b ≠ z → nx' b = nx b) (hnxz : nx' z = a)
    (hnxa : nx' a = h) (hpv : ∀ b ∈ xs, pv' b = pv b) (hpvh : pv' h = a) (hpva : pv' a = z) :
    Ring nx' pv' (h :: xs ++ [a]) := by
  intro d
  have hseg : Seg nx pv id (last id d (h :: xs)) (h :: xs) h := hr d
  have hseg : Seg nx pv' id a (h :: xs) h := hseg.setPrev hpv hpvh fun _ _ => rfl
  rw [last_concat, seg_append]
  refine ⟨?_, ?_, hnxa, trivial⟩
  · obtain ⟨ys, y, hys⟩ := List.eq_nil_or_concat (h :: xs) |>.resolve_left (by simp)
    rw [List.concat_eq_append] at hys
    have hy : z = y := by
      have hl : last id d (h :: xs) = y := by rw [hys, last_concat]; rfl
      rw [hz, ← hl]
      rfl
    rw [hys] at hseg hnx hnd ⊢
    subst hy
    refine hseg.setNext ?_ hnxz fun _ _ => rfl
    intro b hb
    refine hnx b (List.mem_append_left _ hb) ?_
    rintro rfl
    exact (List.nodup_append.mp hnd).2.2 b hb b (by simp) rfl
  · rw [hpva, hz]
    rfl

section Update

variable [DecidableEq α]

theorem Ring.concat_update {h : α} (hr : Ring nx pv (h :: xs)) (hnd : (h :: xs).Nodup)
    (ha : a ∉ h :: xs) :
    Ring (Function.update (Function.update nx (pv h) a) a h)
      (Function.update (Function.update pv a (pv h)) h a) (h :: xs ++ [a]) := by
  have hz : pv h = last id h xs := hr.ends.1
  have hmem : pv h ∈ h :: xs := by
    rw [hz]
    exact last_mem h xs
  have hne : ∀ b ∈ h :: xs, b ≠ a := fun b hb he => ha (he ▸ hb)
  refine hr.concat hz hnd ?_ ?_ (Function.update_self ..) ?_ (Function.update_self ..) ?_
  · intro b hb hbz
    rw [Function.update_of_ne (hne b hb), Function.update_of_ne hbz]
  · rw [Function.update_of_ne (hne _ hmem), Function.update_self]
  · intro b hb
    have hbh : b ≠ h := fun he => (List.nodup_cons.mp hnd).1 (he ▸ hb)
    rw [Function.update_of_ne hbh, Function.update_of_ne (hne b (List.mem_cons_of_mem _ hb))]
  · rw [Function.update_of_ne (hne h List.mem_cons_self).symm, Function.update_self]

end Update

theorem Ring.tail {a b : α} {xs : List α} (hr : Ring nx pv (a :: b :: xs))
    (hnd : (b :: xs).Nodup) (hnx : ∀ c ∈ b :: xs, c ≠ pv a → nx' c = nx c)
    (hnxz : nx' (pv a) = nx a) (hpv : ∀ c ∈ xs, pv' c = pv c) (hpvb : pv' (nx a) = pv a) :
    Ring nx' pv' (b :: xs) := by
  intro d
  obtain ⟨hpa, hna⟩ := hr.ends
  have hna : nx a = b := hna
  have hseg : Seg nx pv id a (b :: xs) a := (hr a).2.2
  have hseg : Seg nx pv' id (pv a) (b :: xs) a :=
    hseg.setPrev hpv (by rw [← hna, hpvb]) fun _ _ => rfl
  have hz : last id d (b :: xs) = pv a := by rw [hpa]; rfl
  rw [hz, first_cons]
  obtain ⟨ys, y, hys⟩ := List.eq_nil_or_concat (b :: xs) |>.resolve_left (by simp)
  rw [List.concat_eq_append] at hys
  have hy : pv a = y := by rw [← hz, hys, last_concat]; rfl
  rw [hys] at hseg hnx hnd ⊢
  refine hseg.setNext ?_ (by rw [← hy, hnxz, hna]; rfl) fun _ _ => rfl
  intro c hc
  refine hnx c (List.mem_append_left _ hc) ?_
  rw [hy]
  rintro rfl
  exact (List.nodup_append.mp hnd).2.2 c hc c (by simp) rfl

theorem Ring.remove (hr : Ring nx pv (xs ++ a :: ys)) (hnd : (xs ++ a :: ys).Nodup)
    (hne : xs ++ ys ≠ []) (hnx : ∀ c ∈ xs ++ ys, c ≠ pv a → nx' c = nx c) (hnxz : nx' (pv a) = nx a)
    (hpv : ∀ c ∈ xs ++ ys, c ≠ nx a → pv' c = pv c) (hpvb : pv' (nx a) = pv a) :
    Ring nx' pv' (xs ++ ys) := by
  have hr : Ring nx pv (a :: (ys ++ xs)) := hr.rotate
  have hnd : (a :: (ys ++ xs)).Nodup := by
    rw [← List.cons_append, List.nodup_append_comm]
    exact hnd
  have hmem : ∀ c, c ∈ ys ++ xs → c ∈ xs ++ ys := fun c hc => by
    rw [List.mem_append] at hc ⊢
    exact hc.symm
  suffices h : Ring nx' pv' (ys ++ xs) from h.rotate
  cases hys : ys ++ xs with
  | nil => exact absurd (List.append_eq_nil_iff.mp hys) fun h => hne (by rw [h.1, h.2]; rfl)
  | cons b zs =>
    rw [hys] at hr hnd hmem
    have hnd : (b :: zs).Nodup := hnd.of_cons
    refine hr.tail hnd (fun c hc => hnx c (hmem c hc)) hnxz ?_ hpvb
    intro c hc
    refine hpv c (hmem c (List.mem_cons_of_mem _ hc)) ?_
    rw [hr.ends.2]
    rintro rfl
    exact (List.nodup_cons.mp hnd).1 hc

end Ring

end StreamMill.Lib
