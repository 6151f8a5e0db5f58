import Mathlib.Data.List.Basic

/-!
# StreamMill.Lib.Scan

A loop over a list that stops behind the first element that is not as it should be, and the search
for the first element that gives something, where looking at an element can fail.
-/

namespace StreamMill.Lib

universe u v w

/-- A loop over `ps` that stops behind the first element that is not `ok` comes to `p`. -/
def ComesTo {α : Type u} (ok : α → Prop) (ps : List α) (p : α) : Prop :=
  ∃ pre post, ps = pre ++ p :: post ∧ ∀ q ∈ pre, ok q

section ComesTo

variable {α : Type u} {ok : α → Prop} {ps : List α} {p q : α}

theorem ComesTo.mem (hp : ComesTo ok ps p) : p ∈ ps := by
  obtain ⟨pre, post, rfl, -⟩ := hp
  simp

theorem comesTo_cons : ComesTo ok (p :: ps) q ↔ q = p ∨ (ok p ∧ ComesTo ok ps q) := by
  constructor
  · rintro ⟨pre, post, hsplit, hpre⟩
    rcases List.cons_eq_append_iff.mp hsplit with ⟨rfl, hq⟩ | ⟨pre', rfl, hps⟩
    · exact .inl (List.cons.inj hq).1
    · exact .inr ⟨hpre p List.mem_cons_self, pre', post, hps,
        fun q hq => hpre q (List.mem_cons_of_mem _ hq)⟩
  · rintro (rfl | ⟨hfit, pre, post, rfl, hpre⟩)
    · exact ⟨[], ps, rfl, by simp⟩
    · exact ⟨p :: pre, post, rfl, List.forall_mem_cons.mpr ⟨hfit, hpre⟩⟩

theorem exists_comesTo_cons {P : α → Prop} : (∃ q, ComesTo ok (p :: ps) q ∧ P q) ↔
    P p ∨ (ok p ∧ ∃ q, ComesTo ok ps q ∧ P q) := by
  constructor
  · rintro ⟨q, hq, hP⟩
    rcases comesTo_cons.mp hq with rfl | ⟨hp, hq⟩
    · exact .inl hP
    · exact .inr ⟨hp, q, hq, hP⟩
  · rintro (hP | ⟨hp, q, hq, hP⟩)
    · exact ⟨p, comesTo_cons.mpr (.inl rfl), hP⟩
    · exact ⟨q, comesTo_cons.mpr (.inr ⟨hp, hq⟩), hP⟩

theorem comesTo_at_cons {a : α} {R : α → Prop} :
    (∃ q, ComesTo ok (p :: ps) q ∧ ((q = a ∧ ok a) ∨ R q)) ↔
      R p ∨ (ok p ∧ (p = a ∨ ∃ q, ComesTo ok ps q ∧ ((q = a ∧ ok a) ∨ R q))) := by
  rw [exists_comesTo_cons]
  constructor
  · rintro ((⟨rfl, hp⟩ | hR) | ⟨hp, hq⟩)
    · exact .inr ⟨hp, .inl rfl⟩
    · exact .inl hR
    · exact .inr ⟨hp, .inr hq⟩
  · rintro (hR | ⟨hp, rfl | hq⟩)
    · exact .inl (.inr hR)
    · exact .inl (.inl ⟨rfl, hp⟩)
    · exact .inr ⟨hp, hq⟩

end ComesTo

/-- The first of the elements that `look` finds something in. -/
def scan {ε : Type u} {α : Type v} {β : Type w} (look : α → Except ε (Option β)) :
    List α → Except ε (Option β)
  | [] => .ok none
  | x :: xs =>
    match look x with
    | .ok none => scan look xs
    | r => r

section Scan

variable {ε : Type u} {α : Type v} {β : Type w} {look : α → Except ε (Option β)} {xs ys : List α}

theorem scan_append (xs ys : List α) : scan look (xs ++ ys) =
    match scan look xs with
    | .ok none => scan look ys
    | r => r := by
  induction xs with
  | nil => rfl
  | cons x xs ih =>
    rw [List.cons_append, scan, scan, ih]
    rcases look x with e | _ | b <;> rfl

/-- Where `Found` are the elements that something is found in, and `Bad` those that fail: the scan
finds something exactly if there is one to find, unless it comes to a bad one before. -/
theorem scan_iff {Found Bad : α → Prop}
    (hfound : ∀ x, Found x → ¬ Bad x → ∃ b, look x = .ok (some b))
    (hpass : ∀ x, ¬ Found x → ¬ Bad x → look x = .ok none)
    (hbad : ∀ x, Bad x → ∃ e, look x = .error e) (xs : List α) :
    (∃ r, scan look xs = .ok r) ↔ ∀ x, ComesTo (fun x => ¬ Found x) xs x → ¬ Bad x := by
  induction xs with
  | nil => exact ⟨fun _ x hx => absurd hx.mem (by simp), fun _ => ⟨none, rfl⟩⟩
  | cons x xs ih =>
    rw [scan]
    by_cases hx : Bad x
    · obtain ⟨e, he⟩ := hbad x hx
      rw [he]
      refine ⟨?_, fun hall => absurd hx (hall x (comesTo_cons.mpr (.inl rfl)))⟩
      rintro ⟨r, hr⟩
      cases hr
    · by_cases hf : Found x
      · obtain ⟨b, hb⟩ := hfound x hf hx
        rw [hb]
        refine ⟨fun _ y hy => ?_, fun _ => ⟨some b, rfl⟩⟩
        rcases comesTo_cons.mp hy with rfl | ⟨hno, -⟩
        · exact hx
        · exact absurd hf hno
      · rw [hpass x hf hx]
        rw [ih]
        refine ⟨fun hall y hy => ?_, fun hall y hy => hall y (comesTo_cons.mpr (.inr ⟨hf, hy⟩))⟩
        rcases comesTo_cons.mp hy with rfl | ⟨-, hy⟩
        · exact hx
        · exact hall y hy

theorem scan_isSome {Found Bad : α → Prop}
    (hfound : ∀ x, Found x → ¬ Bad x → ∃ b, look x = .ok (some b))
    (hpass : ∀ x, ¬ Found x → ¬ Bad x → look x = .ok none)
    (hbad : ∀ x, Bad x → ∃ e, look x = .error e) {r : Option β} (hr : scan look xs = .ok r) :
    r.isSome ↔ ∃ x ∈ xs, Found x := by
  induction xs with
  | nil =>
    obtain rfl := Except.ok.inj hr
    simp
  | cons x xs ih =>
    rw [scan] at hr
    by_cases hx : Bad x
    · obtain ⟨e, he⟩ := hbad x hx
      rw [he] at hr
      cases hr
    · rw [List.exists_mem_cons_iff]
      by_cases hf : Found x
      · obtain ⟨b, hb⟩ := hfound x hf hx
        rw [hb] at hr
        obtain rfl := Except.ok.inj hr
        exact ⟨fun _ => .inl hf, fun _ => rfl⟩
      · rw [hpass x hf hx] at hr
        rw [ih hr]
        exact ⟨.inr, fun hor => hor.resolve_left hf⟩

end Scan

end StreamMill.Lib
