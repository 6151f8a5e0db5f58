import StreamMill.ImDb.Runs

/-!
# StreamMill.ImDb.FreeList

The slots of a value relation, in runs whose cursors delete what they stand on, also when that is
no longer in the relation. A slot in use is linked, or on the free pages, or lost: deleted as the
only tuple of the relation, which `im_rel_cursor_del` does not give back.

`slots_safe_iff`: as long as the cursors delete linked and lost tuples only, no slot is given back
that is on the free pages, and no linked slot is given out.
-/

namespace StreamMill.ImDb

open Lib

variable {n : Nat} {δ : Type} {s s' : Rel n δ} {l : List (Entry n δ)}

/-- The list from the head on comes to `a`. -/
def Rel.Linked (s : Rel n δ) (a : Addr) : Prop :=
  ∃ head, s.head = some head ∧ ∃ k : Nat, s.next^[k] head = a

def Rel.Only (s : Rel n δ) (a : Addr) : Prop := s.head = some a ∧ s.next a = a

instance (s : Rel n δ) (a : Addr) : Decidable (s.Only a) := inferInstanceAs (Decidable (_ ∧ _))

/-- The slot that `im_rel_cursor_del` gives back to the buffer of a value relation. -/
def freedSlot (s : Rel n δ) (c : Cursor) : Option Addr :=
  match c.cur with
  | none => none
  | some a => if s.Only a then none else some a

def lostAfter (s : Rel n δ) (c : Cursor) (lost : Set Addr) : Set Addr :=
  match c.cur with
  | none => lost
  | some a => if s.Only a then insert a lost else lost \ {a}

/-- The cursor stands on no tuple, or on a linked or a lost one. -/
def Held (s : Rel n δ) (lost : Set Addr) (c : Cursor) : Prop :=
  ∀ a, c.cur = some a → s.Linked a ∨ a ∈ lost

/-- Runs of the puts, the gets and the deletes of the cursors of a value relation. Every delete
meets the condition `ok`; `lost` is the set of the lost slots. -/
inductive CallRun [DecidableEq δ] (ok : Rel n δ → Set Addr → Cursor → Prop)
    (mem : Addr → Tuple n δ) (indexed : Bool) : Sys n δ → Set Addr → Prop where
  | create : CallRun ok mem indexed ⟨imRelCreate mem false indexed, fun _ => imRelCursor⟩ ∅
  | cursor {s : Sys n δ} {lost : Set Addr} (i : Nat) (run : CallRun ok mem indexed s lost) :
      CallRun ok mem indexed { s with cursors := Function.update s.cursors i imRelCursor } lost
  | put {s : Sys n δ} {lost : Set Addr} (key : Key n) (data : δ) (flags : PutFlags)
      {r : Rel n δ} (run : CallRun ok mem indexed s lost)
      (hput : imRelPut s.rel key data flags = .ok r) :
      CallRun ok mem indexed { s with rel := r } lost
  | get {s : Sys n δ} {lost : Set Addr} (i : Nat) (key : Key n) (data : δ) (flags : GetFlags)
      {r : Rel n δ} {c : Cursor} {found : Option (Key n × δ × Addr)}
      (run : CallRun ok mem indexed s lost)
      (hget : imRelCursorGet s.rel (s.cursors i) key data flags = .ok (r, c, found)) :
      CallRun ok mem indexed { rel := r, cursors := Function.update s.cursors i c } lost
  | del {s : Sys n δ} {lost : Set Addr} (i : Nat) {r : Rel n δ} {c : Cursor} {found : Bool}
      (run : CallRun ok mem indexed s lost) (hok : ok s.rel lost (s.cursors i))
      (hdel : imRelCursorDel s.rel (s.cursors i) = .ok (r, c, found)) :
      CallRun ok mem indexed { rel := r, cursors := Function.update s.cursors i c }
        (lostAfter s.rel (s.cursors i) lost)

variable {a : Addr} {data : δ} {key : Key n} {c c' : Cursor} {lost : Set Addr}

theorem setNext_mem_ne (s : Rel n δ) {c : Addr} (b : Addr) (h : c ≠ a) :
    (s.setNext a b).mem c = s.mem c := modify_ne _ h

theorem setPrev_mem_ne (s : Rel n δ) {c : Addr} (b : Addr) (h : c ≠ a) :
    (s.setPrev a b).mem c = s.mem c := modify_ne _ h

theorem link_frame {cur : Addr} (hcur : a ≠ cur)
    (hlist : ∀ head, s.head = some head → a ≠ head ∧ a ≠ s.prev head) :
    (s.link cur).mem a = s.mem a := by
  rw [Rel.link]
  split
  · exact (setNext_mem_ne _ _ hcur).trans (setPrev_mem_ne _ _ hcur)
  · next head hhead =>
    obtain ⟨h1, h2⟩ := hlist head hhead
    rw [setPrev_mem_ne _ _ h1, setNext_mem_ne _ _ hcur, setNext_mem_ne _ _ h2,
      setPrev_mem_ne _ _ hcur]

theorem append_mem (h : s.Listed l) (key : Key n) (data : δ) (hnew : a ≠ newSlot s)
    (ha : a ∉ slots l) : (s.append key data).mem a = s.mem a := by
  rw [Rel.append]
  generalize hs₁ : ({ s with buffer := (allocateBuffer s.buffer).2 } : Rel n δ) = s₁
  have hfill : (s₁.fill (newSlot s) key data).mem a = s.mem a := by
    rw [fill_mem_ne key data hnew, ← hs₁]
  rw [link_frame hnew, hfill]
  intro head hhead
  have hhead' : (slots l).head? = some head := by
    rw [← h.head, ← hhead, ← hs₁]
    rfl
  have hmem : head ∈ slots l := List.mem_of_head? hhead'
  have hprev : (s₁.fill (newSlot s) key data).prev head = s.prev head := by
    rw [fill_prev, ← hs₁]
    rfl
  rw [hprev]
  exact ⟨fun hah => ha (hah ▸ hmem), fun hap => ha (hap ▸ (h.ring.closed hmem).2)⟩

theorem imRelPut_frame (h : s.Holds l) {flags : PutFlags}
    (hrun : imRelPut s key data flags = .ok s') :
    s'.buffer = (allocateBuffer s.buffer).2 ∧
      ∀ a, a ∉ slots (l ++ [⟨newSlot s, key, data, false⟩]) → s'.mem a = s.mem a := by
  obtain ⟨r, -, hrun⟩ := bind_eq_ok hrun
  cases r with
  | some a => cases hrun
  | none =>
    obtain ⟨s₁, hput, -, hre, hmem⟩ := putLast_holds h key data
    obtain rfl : s₁ = s' := Except.ok.inj (hput.symm.trans hrun)
    have hl : slots (l ++ [(⟨newSlot s, key, data, false⟩ : Entry n δ)]) =
        slots l ++ [newSlot s] := slots_append _ _
    rw [hl]
    refine ⟨hre.buffer.trans ?_, fun a ha => (hmem a ha).trans ?_⟩
    · rw [Rel.append, link_buffer]
      rfl
    · refine append_mem h.toListed key data (fun he => ha ?_) fun hm => ha ?_
      · simp [he]
      · exact List.mem_append_left _ hm

theorem unlink_buffer (s : Rel n δ) (c : Cursor) (a : Addr) :
    (s.unlink c a).1.buffer = if s.Only a then s.buffer else freeBuffer s.buffer a := by
  rw [Rel.unlink]
  by_cases hhead : s.head = some a
  · by_cases hnext : s.next a = a
    · rw [if_pos hhead, if_pos hnext, if_pos ⟨hhead, hnext⟩]
    · rw [if_pos hhead, if_neg hnext, if_neg fun h => hnext h.2]
  · rw [if_neg hhead, if_neg fun h => hhead h.1]

theorem unlink_frame {xs ys : List (Entry n δ)} {e : Entry n δ} (h : s.Listed (xs ++ e :: ys))
    (c : Cursor) (ha : a ∉ slots (xs ++ ys)) :
    (s.unlink c e.slot).1.mem a = s.mem a := by
  have hring := h.ring
  rw [slots_middle] at hring
  rw [slots_append] at ha
  have hbypass : slots xs ++ slots ys ≠ [] → (s.bypass e.slot).mem a = s.mem a := by
    intro hne
    obtain ⟨hnx, hpv⟩ := hring.neighbours hne
    have hne₁ : a ≠ s.next e.slot := fun he => ha (he ▸ hnx)
    have hne₂ : a ≠ s.prev e.slot := fun he => ha (he ▸ hpv)
    rw [Rel.bypass, setPrev_mem_ne _ _ hne₁, setNext_mem_ne _ _ hne₂]
  have hother : ¬s.Only e.slot → slots xs ++ slots ys ≠ [] := by
    intro honly hnil
    obtain ⟨hx, hy⟩ := List.append_eq_nil_iff.mp hnil
    have hhead := h.head
    rw [slots_middle, hx] at hhead
    rw [hx, hy] at hring
    exact honly ⟨hhead, hring.ends.2⟩
  rw [Rel.unlink]
  by_cases hhead : s.head = some e.slot
  · by_cases hnext : s.next e.slot = e.slot
    · rw [if_pos hhead, if_pos hnext]
    · rw [if_pos hhead, if_neg hnext]
      exact hbypass (hother fun ho => hnext ho.2)
  · rw [if_neg hhead]
    exact hbypass (hother fun ho => hhead ho.1)

/-- A delete of a tuple of the list changes only tuples that stay on it. -/
theorem imRelCursorDel_frame {xs ys : List (Entry n δ)} {e : Entry n δ}
    (h : s.Holds (xs ++ e :: ys)) (ho : s.oid = false) (hc : c.cur = some e.slot) {found : Bool}
    (hdel : imRelCursorDel s c = .ok (s', c', found)) :
    s'.Holds (xs ++ ys) ∧ s'.oid = false ∧ s'.hidx.isSome = s.hidx.isSome ∧
      c' = (s.unlink c e.slot).2 ∧
      s'.buffer = (if s.Only e.slot then s.buffer else freeBuffer s.buffer e.slot) ∧
      ∀ a, a ∉ slots (xs ++ ys) → s'.mem a = s.mem a := by
  have hmem : e.slot ∈ slots (xs ++ e :: ys) := by simp
  obtain ⟨s₁, c₁, hrun, hholds, hoid, hidx⟩ := imRelCursorDel_holds h hc hmem
  rw [hrun] at hdel
  cases hdel
  rw [ho] at hoid
  have hafter : afterDel false (xs ++ e :: ys) e.slot = xs ++ ys := filter_slot_ne h.nodup
  rw [ho, hafter] at hholds
  have hrel := unlink_relinked s c e.slot
  rw [imRelCursorDel, hc, ho] at hrun
  simp only [Bool.false_eq_true, if_false, hrel.hidx] at hrun
  rw [← unlink_buffer s c e.slot]
  split at hrun
  · cases hrun
    exact ⟨hholds, hoid, hidx, rfl, rfl, fun a ha => unlink_frame h.toListed c ha⟩
  · next ht hht =>
    have hindexed : Indexed (s.unlink c e.slot).1 ht (xs ++ e :: ys) :=
      (h.index ht hht).congr (fun a _ => hrel.key a) fun a _ => hrel.hchain a
    obtain ⟨s₂, ht', hrun', -, -, hre, hframe⟩ := unindex_ok hindexed h.nodup
      (fun e' he' => (hrel.key _).trans (h.stored e' he').1)
      (by rw [unlink_fuel]; exact h.length_le)
    rw [hrun'] at hrun
    cases hrun
    exact ⟨hholds, hoid, hidx, rfl, hre.buffer, fun a ha =>
      (hframe a ha).trans (unlink_frame h.toListed c ha)⟩

theorem seg_iterate {nx pv : Addr → Addr} {p q : Addr} {xs : List Addr} (h : Seg nx pv id p xs q)
    (ha : a ∈ xs) : ∃ k : Nat, nx^[k] (first id xs q) = a := by
  induction xs generalizing p with
  | nil => cases ha
  | cons b xs ih =>
    obtain ⟨-, hnx, h⟩ := h
    rcases List.mem_cons.mp ha with rfl | ha
    · exact ⟨0, rfl⟩
    · obtain ⟨k, hk⟩ := ih h ha
      refine ⟨k + 1, ?_⟩
      rw [Function.iterate_succ_apply, first_cons, id, hnx, hk]

theorem Rel.Holds.linked_iff (h : s.Holds l) : s.Linked a ↔ a ∈ slots l := by
  constructor
  · rintro ⟨head, hhead, k, rfl⟩
    have hmem : head ∈ slots l := by
      rw [h.head] at hhead
      exact List.mem_of_head? hhead
    induction k with
    | zero => exact hmem
    | succ k ih =>
      rw [Function.iterate_succ_apply']
      exact h.next_mem ih
  · intro ha
    cases hl : slots l with
    | nil =>
      rw [hl] at ha
      cases ha
    | cons head xs =>
      have hhead : s.head = some head := by rw [h.head, hl]; rfl
      have hseg := h.ring head
      rw [hl] at hseg ha
      exact ⟨head, hhead, seg_iterate hseg ha⟩

/-- A slot in use is on the list, on the free pages, or lost. -/
structure Slots (s : Rel n δ) (l : List (Entry n δ)) (lost : Set Addr) : Prop where
  holds : s.Holds l
  value : s.oid = false
  mem_lost : ∀ a, a ∈ lost ↔ a < s.fuel ∧ a ∉ s.buffer.free ∧ a ∉ slots l
  alone : ∀ a ∈ lost, s.next a = a ∧ s.prev a = a ∧ (s.hidx ≠ none → s.hchain a = none)
  pages : ∀ a < s.fuel, s.next a < s.fuel ∧ s.prev a < s.fuel ∧
    (s.hidx ≠ none → ∀ b, s.hchain a = some b → b < s.fuel)

structure Cursor.InPages (c : Cursor) (s : Rel n δ) : Prop where
  cur : ∀ a, c.cur = some a → a < s.fuel
  nextaccess : ∀ a, c.nextaccess = some a → a < s.fuel

theorem allocateBuffer_lt (p : Buffer) (ha : a < (allocateBuffer p).2.fresh)
    (hne : a ≠ (allocateBuffer p).1) : a < p.fresh := by
  obtain ⟨free, fresh⟩ := p
  cases free with
  | nil => exact lt_of_le_of_ne (Nat.lt_succ_iff.mp ha) hne
  | cons b free => exact ha

theorem allocateBuffer_free (p : Buffer) (a : Addr) :
    (a < (allocateBuffer p).2.fresh ∧ a ∉ (allocateBuffer p).2.free ∧ a ≠ (allocateBuffer p).1) ↔
      a < p.fresh ∧ a ∉ p.free := by
  obtain ⟨free, fresh⟩ := p
  cases free with
  | nil =>
    have h : (a < fresh + 1 ∧ a ≠ fresh) ↔ a < fresh := by
      constructor
      · rintro ⟨h1, h2⟩
        exact lt_of_le_of_ne (Nat.lt_succ_iff.mp h1) h2
      · intro h1
        exact ⟨Nat.lt_succ_of_lt h1, Nat.ne_of_lt h1⟩
    simpa [allocateBuffer] using h
  | cons b free => simp [allocateBuffer, and_comm]

theorem allocateBuffer_le (p : Buffer) : p.fresh ≤ (allocateBuffer p).2.fresh := by
  obtain ⟨free, fresh⟩ := p
  cases free <;> simp [allocateBuffer]

/-- What an operation keeps that changes only tuples of the new list `l'`. -/
theorem Slots.step {l' : List (Entry n δ)} {lost' : Set Addr} (h : Slots s l lost)
    (holds : s'.Holds l') (value : s'.oid = false) (hidx : s'.hidx.isSome = s.hidx.isSome)
    (hfuel : s.fuel ≤ s'.fuel) (hused : ∀ a < s'.fuel, a ∉ slots l' → a < s.fuel)
    (hframe : ∀ a, a ∉ slots l' → s'.mem a = s.mem a)
    (hlost : ∀ a, a ∈ lost' ↔ a < s'.fuel ∧ a ∉ s'.buffer.free ∧ a ∉ slots l')
    (halone : ∀ a ∈ lost', s.next a = a ∧ s.prev a = a ∧ (s.hidx ≠ none → s.hchain a = none)) :
    Slots s' l' lost' := by
  have hsome : s'.hidx ≠ none → s.hidx ≠ none := by
    intro h1 h2
    rw [h2] at hidx
    exact h1 (Option.not_isSome_iff_eq_none.mp (by simp [hidx]))
  refine ⟨holds, value, hlost, ?_, ?_⟩
  · intro a ha
    obtain ⟨h1, h2, h3⟩ := halone a ha
    have hmem := hframe a ((hlost a).mp ha).2.2
    rw [Rel.next, Rel.prev, Rel.hchain, hmem]
    exact ⟨h1, h2, fun hi => h3 (hsome hi)⟩
  · intro a ha
    by_cases hl : a ∈ slots l'
    · exact ⟨holds.alloc.used _ (holds.next_mem hl), holds.alloc.used _ (holds.prev_mem hl),
        fun hi b hb => holds.alloc.used _ (holds.hchain_mem hi hl hb)⟩
    · obtain ⟨h1, h2, h3⟩ := h.pages a (hused a ha hl)
      rw [Rel.next, Rel.prev, Rel.hchain, hframe a hl]
      exact ⟨h1.trans_le hfuel, h2.trans_le hfuel, fun hi b hb => (h3 (hsome hi) b hb).trans_le hfuel⟩

theorem Slots.put (h : Slots s l lost) {flags : PutFlags}
    (hrun : imRelPut s key data flags = .ok s') :
    Slots s' (l ++ [⟨newSlot s, key, data, false⟩]) lost ∧ s.fuel ≤ s'.fuel := by
  obtain ⟨holds, hoid, hidx⟩ := imRelPut_holds h.holds hrun
  obtain ⟨hbuf, hframe⟩ := imRelPut_frame h.holds hrun
  have hl : ∀ a, a ∉ slots (l ++ [(⟨newSlot s, key, data, false⟩ : Entry n δ)]) ↔
      a ∉ slots l ∧ a ≠ newSlot s := by
    simp [slots]
  have hfree := allocateBuffer_free s.buffer
  have hfuel : s.fuel ≤ s'.fuel := by
    rw [Rel.fuel, Rel.fuel, hbuf]
    exact allocateBuffer_le s.buffer
  have hlost : ∀ a, a ∈ lost ↔ a < s'.fuel ∧ a ∉ s'.buffer.free ∧
      a ∉ slots (l ++ [(⟨newSlot s, key, data, false⟩ : Entry n δ)]) := by
    intro a
    have := hfree a
    rw [h.mem_lost, hl, Rel.fuel, Rel.fuel, hbuf]
    tauto
  refine ⟨h.step holds (hoid.trans h.value) hidx hfuel ?_ hframe hlost h.alone, hfuel⟩
  intro a ha hnot
  rw [hl] at hnot
  rw [Rel.fuel, hbuf] at ha
  exact allocateBuffer_lt s.buffer ha hnot.2

theorem lostAfter_some (hc : c.cur = some a) (lost : Set Addr) :
    lostAfter s c lost = if s.Only a then insert a lost else lost \ {a} := by
  rw [lostAfter, hc]

theorem Slots.del {xs ys : List (Entry n δ)} {e : Entry n δ} {lost : Set Addr}
    (h : Slots s (xs ++ e :: ys) lost) {c c' : Cursor} (hc : c.cur = some e.slot) {found : Bool}
    (hdel : imRelCursorDel s c = .ok (s', c', found)) :
    Slots s' (xs ++ ys) (lostAfter s c lost) ∧ s'.fuel = s.fuel ∧ c' = (s.unlink c e.slot).2 := by
  obtain ⟨holds, hoid, hidx, hc', hbuf, hframe⟩ := imRelCursorDel_frame h.holds h.value hc hdel
  have hfuel : s'.fuel = s.fuel := by
    rw [Rel.fuel, hbuf]
    split <;> rfl
  have hnd := h.holds.nodup
  rw [slots_middle] at hnd
  have hnot : e.slot ∉ slots (xs ++ ys) := by
    rw [slots_append]
    exact (List.nodup_cons.mp (List.nodup_middle.mp hnd)).1
  have hl : ∀ a, a ∉ slots (xs ++ e :: ys) ↔ a ∉ slots (xs ++ ys) ∧ a ≠ e.slot := by
    rw [slots_middle, slots_append]
    simp only [List.mem_append, List.mem_cons]
    tauto
  have hused : e.slot ∈ slots (xs ++ e :: ys) := by simp
  have hlt : e.slot < s.fuel := h.holds.alloc.used _ hused
  have hfree : e.slot ∉ s.buffer.free := fun hf => (h.holds.alloc.free _ hf).2 hused
  have hlost : ∀ a, a ∈ lostAfter s c lost ↔
      a < s'.fuel ∧ a ∉ s'.buffer.free ∧ a ∉ slots (xs ++ ys) := by
    intro a
    rw [lostAfter_some hc, hfuel, hbuf]
    by_cases hae : a = e.slot
    · rw [hae]
      split
      · exact ⟨fun _ => ⟨hlt, hfree, hnot⟩, fun _ => Set.mem_insert _ _⟩
      · exact ⟨fun hm => absurd rfl hm.2, fun hm => absurd List.mem_cons_self hm.2.1⟩
    · have hmem := h.mem_lost a
      rw [hl] at hmem
      split
      · rw [Set.mem_insert_iff]
        tauto
      · have hcons : a ∉ (freeBuffer s.buffer e.slot).free ↔ a ∉ s.buffer.free := by
          simp [freeBuffer, hae]
        rw [Set.mem_sdiff]
        tauto
  refine ⟨h.step holds hoid hidx hfuel.ge (fun a ha _ => hfuel ▸ ha) hframe hlost ?_, hfuel, hc'⟩
  intro a ha
  rw [lostAfter_some hc] at ha
  split at ha
  · next honly =>
    rcases Set.mem_insert_iff.mp ha with rfl | ha
    · -- the only tuple, which is in no chain with others
      have hring := h.holds.ring
      have hhead := h.holds.head
      rw [slots_middle] at hring hhead
      have hxs : slots xs = [] := by
        cases hx : slots xs with
        | nil => rfl
        | cons b zs =>
          rw [hx] at hhead hnd
          rw [honly.1] at hhead
          exact absurd (Option.some.inj hhead).symm fun hb =>
            (List.nodup_cons.mp hnd).1 (by simp [hb])
      rw [hxs] at hring hnd
      have hys : slots ys = [] := (ring_next_eq_self hring hnd).mp honly.2
      rw [hys] at hring
      refine ⟨honly.2, hring.ends.1, fun hi => ?_⟩
      obtain ⟨ht, hht⟩ := Option.ne_none_iff_exists'.mp hi
      have hxs' : xs = [] := List.map_eq_nil_iff.mp hxs
      have hys' : ys = [] := List.map_eq_nil_iff.mp hys
      have hpath := (h.holds.index ht hht).chains e.key.val
      rw [hxs', hys'] at hpath
      have hchain : chainOf [e] e.key.val = [e.slot] := by simp [chainOf, slots]
      rw [List.nil_append, hchain] at hpath
      exact hpath.2
    · exact h.alone a ha
  · exact h.alone a ha.1

theorem Slots.not_only (h : Slots s l lost) (ha : a ∈ lost) :
    ¬s.Only a := by
  rintro ⟨hhead, -⟩
  rw [h.holds.head] at hhead
  exact ((h.mem_lost a).mp ha).2.2 (List.mem_of_head? hhead)

theorem modify_eq_self {f : Tuple n δ → Tuple n δ} (hf : f (s.mem a) = s.mem a) :
    s.modify a f = s := by
  rw [Rel.modify, hf, Function.update_eq_self]

theorem Slots.bypass_lost (h : Slots s l lost) (ha : a ∈ lost) :
    s.bypass a = s := by
  obtain ⟨hnx, hpv, -⟩ := h.alone a ha
  have hnext : s.setNext a a = s := by
    refine modify_eq_self ?_
    conv_rhs => rw [show s.mem a = { s.mem a with next := s.next a } from rfl, hnx]
  have hprev : s.setPrev a a = s := by
    refine modify_eq_self ?_
    conv_rhs => rw [show s.mem a = { s.mem a with prev := s.prev a } from rfl, hpv]
  rw [Rel.bypass, hnx, hpv, hnext, hprev]

theorem unindex_lost (h : s.Holds l) {ht : HashControl (KeyPtr n) Addr} (hht : s.hidx = some ht)
    (ha : a ∉ slots l) (hnone : s.hchain a = none) (hrun : s.unindex ht a = .ok s') :
    ∃ ht', s' = { s with hidx := some ht' } ∧ s'.Holds l := by
  have hindex := h.index ht hht
  obtain ⟨ht₁, hfind, hr₁⟩ := hashFind_ok hindex.table (.tuple a)
  have hholds : ({ s with hidx := some ht₁ } : Rel n δ).Holds l := by
    refine ⟨h.toListed.reindexed ⟨fun _ => rfl, fun _ => rfl, fun _ => rfl, rfl, rfl, rfl, rfl,
      rfl⟩, fun ht' hht' => ?_⟩
    cases hht'
    exact ⟨hr₁, hindex.chains⟩
  rw [Rel.unindex, hfind, ok_bind] at hrun
  cases hold : (indexOf l (bytes (keyMem s.mem) (.tuple a) n)).map Prod.snd with
  | none =>
    rw [hold] at hrun
    cases hrun
  | some old =>
    rw [hold] at hrun
    have hmem : old ∈ slots l := by
      obtain ⟨⟨p, v⟩, hv, rfl⟩ := Option.map_eq_some_iff.mp hold
      obtain ⟨-, t, ht⟩ := indexOf_eq_some.mp hv
      exact chainOf_sub (List.mem_of_head? (by rw [ht]; rfl))
    have hne : old ≠ a := fun he => ha (he ▸ hmem)
    simp only [if_neg hne] at hrun
    obtain ⟨r, hwalk, hrun⟩ := bind_eq_ok hrun
    cases r with
    | none => cases hrun
    | some b =>
      cases hrun
      -- the walk ends at the end of the chain
      have hb : b ∈ slots l := walk_inv (fun c hc => Option.some.inj hc ▸ hmem)
        (fun c d hc hd => h.hchain_mem (by simp [hht]) hc hd) hwalk
      have hend : s.hchain b = none := by
        have hskip := walk_stops hwalk
        cases hc : s.hchain b with
        | none => rfl
        | some d =>
          have hd : d ∈ slots l := h.hchain_mem (by simp [hht]) hb hc
          have hda : d ≠ a := fun he => ha (he ▸ hd)
          simp [hc, hda] at hskip
      have hself : s.setChain b (s.hchain a) = s := by
        refine modify_eq_self ?_
        rw [hnone]
        conv_rhs => rw [show s.mem b = { s.mem b with hchain := s.hchain b } from rfl, hend]
      refine ⟨ht₁, ?_, ?_⟩
      · rw [hself]
      · rw [hself]
        exact hholds

theorem Slots.del_lost (h : Slots s l lost) (ha : a ∈ lost) (hc : c.cur = some a) {found : Bool}
    (hdel : imRelCursorDel s c = .ok (s', c', found)) :
    Slots s' l (lostAfter s c lost) ∧ s'.fuel = s.fuel ∧ c' = c := by
  obtain ⟨hlt, hfree, hnot⟩ := (h.mem_lost a).mp ha
  have hhead : s.head ≠ some a := by
    intro hh
    rw [h.holds.head] at hh
    exact hnot (List.mem_of_head? hh)
  have hunlink : s.unlink c a = ({ s with buffer := freeBuffer s.buffer a }, c) := by
    rw [Rel.unlink, if_neg hhead, h.bypass_lost ha]
  generalize hs₁ : ({ s with buffer := freeBuffer s.buffer a } : Rel n δ) = s₁ at hunlink
  have hmem₁ : s₁.mem = s.mem := by rw [← hs₁]
  have hbuf₁ : s₁.buffer = freeBuffer s.buffer a := by rw [← hs₁]
  have hholds₁ : s₁.Holds l := by
    obtain ⟨⟨hnd, hhd, hring, hstored, halloc, hvalue⟩, hindex⟩ := h.holds
    rw [← hs₁]
    refine ⟨⟨hnd, hhd, hring, hstored, ⟨?_, ?_, halloc.used⟩, hvalue⟩, fun ht hht => ?_⟩
    · exact List.nodup_cons.mpr ⟨hfree, halloc.nodup⟩
    · intro b hb
      rcases List.mem_cons.mp hb with rfl | hb
      · exact ⟨hlt, hnot⟩
      · exact halloc.free b hb
    · exact ⟨(hindex ht hht).table, (hindex ht hht).chains⟩
  have hlost : ∀ b, b ∈ lostAfter s c lost ↔ b < s.fuel ∧ b ∉ s₁.buffer.free ∧ b ∉ slots l := by
    intro b
    rw [lostAfter_some hc, if_neg (h.not_only ha), Set.mem_sdiff, h.mem_lost, hbuf₁]
    simp only [freeBuffer, List.mem_cons, not_or]
    tauto
  have halone : ∀ b ∈ lostAfter s c lost,
      s.next b = b ∧ s.prev b = b ∧ (s.hidx ≠ none → s.hchain b = none) := by
    intro b hb
    rw [lostAfter_some hc, if_neg (h.not_only ha)] at hb
    exact h.alone b hb.1
  have hstep : ∀ hidx, hidx.isSome = s.hidx.isSome →
      ({ s₁ with hidx := hidx } : Rel n δ).Holds l →
      Slots ({ s₁ with hidx := hidx } : Rel n δ) l (lostAfter s c lost) ∧
        ({ s₁ with hidx := hidx } : Rel n δ).fuel = s.fuel := by
    intro hidx hsome hholds
    have hfuel : ({ s₁ with hidx := hidx } : Rel n δ).fuel = s.fuel := by
      rw [← hs₁]
      rfl
    refine ⟨h.step hholds ?_ hsome hfuel.ge (fun b hb _ => hfuel ▸ hb) (fun b _ => ?_) ?_ halone,
      hfuel⟩
    · rw [← hs₁]
      exact h.value
    · rw [← hs₁]
    · intro b
      rw [hfuel]
      exact hlost b
  rw [imRelCursorDel, hc, h.value] at hdel
  simp only [Bool.false_eq_true, if_false, hunlink] at hdel
  have hidx₁ : s₁.hidx = s.hidx := by rw [← hs₁]
  cases hht : s.hidx with
  | none =>
    rw [hidx₁, hht] at hdel
    cases hdel
    obtain ⟨h1, h2⟩ := hstep s'.hidx (by rw [hidx₁]) hholds₁
    exact ⟨h1, h2, rfl⟩
  | some ht =>
    rw [hidx₁, hht] at hdel
    obtain ⟨s₂, hun, hdel⟩ := bind_eq_ok hdel
    cases hdel
    have hnone : s₁.hchain a = none := by
      rw [Rel.hchain, hmem₁]
      exact (h.alone a ha).2.2 (by simp [hht])
    obtain ⟨ht', rfl, hholds⟩ := unindex_lost hholds₁ (hidx₁.trans hht) hnot hnone hun
    obtain ⟨h1, h2⟩ := hstep (some ht') (by rw [hht]; rfl) hholds
    exact ⟨h1, h2, rfl⟩

/-- A get leaves the cursor in the pages, also when it goes on from a tuple that has left the
list. -/
theorem cursorMove_inPages [DecidableEq δ] (h : Slots s l lost) (hc : c.InPages s) {head : Addr}
    (hhead : s.head = some head) {flags : GetFlags}
    (hrun : s.cursorMove c head key data flags = .ok (s', c')) :
    s'.buffer = s.buffer ∧ c'.InPages s := by
  have hh : head < s.fuel := by
    refine h.holds.alloc.used _ ?_
    have hhd := h.holds.head
    rw [hhead] at hhd
    exact List.mem_of_head? hhd.symm
  have hfrom : ∀ a, flags.from c = some a → a < s.fuel := by
    intro a ha
    cases flags with
    | next | current => exact hc.cur a ha
    | prev | nextDup => exact hc.nextaccess a ha
    | first | last | set | getBoth => cases ha
  have hfind : ∀ ht, s.hidx = some ht → ∃ ht' o, (∀ b, o = some b → b < s.fuel) ∧
      s.hashFind ht key = .ok ({ s with hidx := some ht' }, o) := fun ht hht =>
    have ⟨ht', hf, _⟩ := h.holds.hashFind hht key
    ⟨ht', _, fun b hb => h.holds.alloc.used _ (chainOf_sub (List.mem_of_head? hb)), hf⟩
  obtain ⟨hs', hmoved⟩ := cursorMove_inv (P := fun a => a < s.fuel) hh
    (fun a ha => (h.pages a ha).1) (fun a ha => (h.pages a ha).2.1)
    (fun hi a b ha => (h.pages a ha).2.2 hi b) hfind hrun
  refine ⟨?_, (hmoved hfrom).1, (hmoved hfrom).2.elim (fun heq => heq ▸ hc.nextaccess) id⟩
  rcases hs' with rfl | ⟨ht, o, hht, hf⟩
  · rfl
  · obtain ⟨ht', o', -, hf'⟩ := hfind ht hht
    rw [hf'] at hf
    cases hf
    rfl

theorem Slots.get [DecidableEq δ] (h : Slots s l lost) (hc : c.InPages s) {flags : GetFlags}
    {found : Option (Key n × δ × Addr)}
    (hrun : imRelCursorGet s c key data flags = .ok (s', c', found)) :
    Slots s' l lost ∧ s'.fuel = s.fuel ∧ c'.InPages s := by
  obtain ⟨holds, hmem, hoid, hidx, -⟩ := imRelCursorGet_moved h.holds hrun
  have hbuf : s'.buffer = s.buffer ∧ c'.InPages s := by
    rw [imRelCursorGet] at hrun
    split at hrun
    · cases hrun
      exact ⟨rfl, hc⟩
    · next head hhead =>
      obtain ⟨⟨s₁, c₁⟩, hmove, hrun⟩ := bind_eq_ok hrun
      cases hrun
      exact cursorMove_inPages h hc hhead hmove
  have hfuel : s'.fuel = s.fuel := by rw [Rel.fuel, hbuf.1, Rel.fuel]
  refine ⟨h.step holds (hoid.trans h.value) hidx hfuel.ge (fun a ha _ => hfuel ▸ ha)
    (fun a _ => by rw [hmem]) (fun a => ?_) h.alone, hfuel, hbuf.2⟩
  rw [hfuel, hbuf.1]
  exact h.mem_lost a

theorem create_slots (mem : Addr → Tuple n δ) (indexed : Bool) :
    Slots (imRelCreate mem false indexed) [] ∅ where
  holds := imRelCreate_holds mem false indexed
  value := rfl
  mem_lost := fun a => by simp [imRelCreate, Rel.fuel]
  alone := fun a ha => by cases ha
  pages := fun a ha => by cases ha

theorem Cursor.InPages.mono (h : c.InPages s) (hle : s.fuel ≤ s'.fuel) :
    c.InPages s' :=
  ⟨fun a ha => (h.cur a ha).trans_le hle, fun a ha => (h.nextaccess a ha).trans_le hle⟩

theorem inPages_update {cursors : Nat → Cursor} (h : ∀ i, (cursors i).InPages s) (hc : c.InPages s)
    (i : Nat) (j : Nat) : (Function.update cursors i c j).InPages s := by
  by_cases hij : j = i
  · subst hij
    rw [Function.update_self]
    exact hc
  · rw [Function.update_of_ne hij]
    exact h j

theorem callRun_slots [DecidableEq δ] {mem : Addr → Tuple n δ} {indexed : Bool} {s : Sys n δ}
    (run : CallRun Held mem indexed s lost) :
    ∃ l, Slots s.rel l lost ∧ ∀ i, (s.cursors i).InPages s.rel := by
  have hnone (r : Rel n δ) : imRelCursor.InPages r :=
    ⟨fun a ha => (by cases ha), fun a ha => (by cases ha)⟩
  induction run with
  | create => exact ⟨[], create_slots mem indexed, fun _ => hnone _⟩
  | cursor i _ ih =>
    obtain ⟨l, h, hc⟩ := ih
    exact ⟨l, h, inPages_update hc (hnone _) i⟩
  | put key data flags _ hput ih =>
    obtain ⟨l, h, hc⟩ := ih
    obtain ⟨h', hle⟩ := h.put hput
    exact ⟨_, h', fun j => (hc j).mono hle⟩
  | get i key data flags _ hget ih =>
    obtain ⟨l, h, hc⟩ := ih
    obtain ⟨h', hfuel, hc'⟩ := h.get (hc i) hget
    exact ⟨l, h', fun j => (inPages_update hc hc' i j).mono hfuel.ge⟩
  | @del s lost i r c found _ hok hdel ih =>
    obtain ⟨l, h, hc⟩ := ih
    cases hcur : (s.cursors i).cur with
    | none =>
      rw [imRelCursorDel, hcur] at hdel
      cases hdel
      rw [lostAfter, hcur]
      exact ⟨l, h, inPages_update hc (hc i) i⟩
    | some a =>
      rcases hok a hcur with hlinked | hlost
      · obtain ⟨e, he, rfl⟩ := mem_slots.mp (h.holds.linked_iff.mp hlinked)
        obtain ⟨xs, ys, rfl⟩ := List.append_of_mem he
        obtain ⟨h', hfuel, rfl⟩ := h.del hcur hdel
        refine ⟨xs ++ ys, h', fun j => (inPages_update hc ?_ i j).mono hfuel.ge⟩
        rw [Rel.unlink]
        split
        · split
          · exact hc i
          · exact ⟨fun b hb => (by cases hb), (hc i).nextaccess⟩
        · exact hc i
      · obtain ⟨h', hfuel, rfl⟩ := h.del_lost hlost hcur hdel
        exact ⟨l, h', fun j => (inPages_update hc (hc i) i j).mono hfuel.ge⟩

theorem mem_freedSlot :
    a ∈ freedSlot s c ↔ c.cur = some a ∧ ¬s.Only a := by
  rw [freedSlot]
  cases c.cur with
  | none => simp
  | some b =>
    by_cases hb : s.Only b
    · simp only [hb, if_true, Option.not_mem_none, Option.some.injEq, false_iff, not_and, not_not]
      rintro rfl
      exact hb
    · simp only [hb, if_false, Option.mem_some_iff, Option.some.injEq]
      exact ⟨fun he => ⟨he, he ▸ hb⟩, fun he => he.1⟩

theorem unindex_buffer {ht : HashControl (KeyPtr n) Addr} {cur : Addr}
    (hrun : s.unindex ht cur = .ok s') : s'.buffer = s.buffer := by
  obtain ⟨⟨ht₁, o⟩, -, hrun⟩ := bind_eq_ok hrun
  cases o with
  | none => cases hrun
  | some old =>
    simp only at hrun
    split at hrun
    · split at hrun
      · obtain ⟨⟨ht₂, v⟩, -, hrun⟩ := bind_eq_ok hrun
        cases hrun
        rfl
      · obtain ⟨⟨ht₂, v⟩, -, hrun⟩ := bind_eq_ok hrun
        cases v with
        | none => cases hrun
        | some v =>
          cases hrun
          rfl
    · obtain ⟨b, -, hrun⟩ := bind_eq_ok hrun
      cases b with
      | none => cases hrun
      | some b =>
        cases hrun
        rfl

theorem imRelCursorDel_free (ho : s.oid = false) {c c' : Cursor} {found : Bool}
    (hdel : imRelCursorDel s c = .ok (s', c', found)) :
    s'.buffer.free = (freedSlot s c).toList ++ s.buffer.free := by
  cases hcur : c.cur with
  | none =>
    rw [imRelCursorDel, hcur] at hdel
    cases hdel
    rw [freedSlot, hcur]
    rfl
  | some a =>
    rw [imRelCursorDel, hcur] at hdel
    simp only [ho, Bool.false_eq_true, if_false] at hdel
    have hbuf := unlink_buffer s c a
    have hs' : s'.buffer = (s.unlink c a).1.buffer := by
      cases hht : (s.unlink c a).1.hidx with
      | none =>
        rw [hht] at hdel
        cases hdel
        rfl
      | some ht =>
        rw [hht] at hdel
        obtain ⟨s₁, hun, hdel⟩ := bind_eq_ok hdel
        cases hdel
        exact unindex_buffer hun
    rw [freedSlot, hcur, hs', hbuf]
    by_cases honly : s.Only a
    · simp [if_pos honly, Option.toList_none, List.nil_append]
    · simp [if_neg honly, Option.toList_some, freeBuffer]

/-- In the runs whose deletes find linked or lost tuples, a put is given a slot that is not linked,
and a delete gives back no slot of the free pages exactly if it finds such a tuple. -/
theorem slots_safe_iff [DecidableEq δ] {mem : Addr → Tuple n δ} {indexed : Bool} {s : Sys n δ}
    {lost : Set Addr} (run : CallRun Held mem indexed s lost) :
    s.rel.buffer.free.Nodup ∧ (∀ a ∈ s.rel.buffer.free, ¬s.rel.Linked a) ∧
      ¬s.rel.Linked (newSlot s.rel) ∧
      ∀ i, (∀ a ∈ freedSlot s.rel (s.cursors i), a ∉ s.rel.buffer.free) ↔
        Held s.rel lost (s.cursors i) := by
  obtain ⟨l, h, hc⟩ := callRun_slots run
  have halloc := h.holds.alloc
  refine ⟨halloc.nodup, fun a ha => ?_, ?_, fun i => ⟨fun hfree a ha => ?_, fun hheld a ha => ?_⟩⟩
  · rw [h.holds.linked_iff]
    exact (halloc.free a ha).2
  · rw [h.holds.linked_iff]
    exact (allocateBuffer_holds halloc).1
  · by_cases honly : s.rel.Only a
    · exact .inl ⟨a, honly.1, 0, rfl⟩
    · have hnot := hfree a (mem_freedSlot.mpr ⟨ha, honly⟩)
      rw [h.holds.linked_iff]
      by_cases hl : a ∈ slots l
      · exact .inl hl
      · exact .inr ((h.mem_lost a).mpr ⟨(hc i).cur a ha, hnot, hl⟩)
  · obtain ⟨hcur, -⟩ := mem_freedSlot.mp ha
    rcases hheld a hcur with hlinked | hlost
    · exact fun hf => (halloc.free a hf).2 (h.holds.linked_iff.mp hlinked)
    · exact ((h.mem_lost a).mp hlost).2.1

/-- Two tuples, of which the last one is deleted. -/
theorem slots_safe_iff_lastDeleted : ∃ s lost, CallRun Held blankTuples false s lost ∧
    s.rel.buffer.free = [1] ∧ ¬s.rel.Linked (newSlot s.rel) := by
  have last : CallRun Held blankTuples false _ _ :=
    .get 0 keySeven 0 .last (.put keySeven 6 .append (.put keySeven 5 .append .create rfl) rfl) rfl
  have run := CallRun.del 0 last
    (fun a ha => .inl ⟨0, rfl, 1, Option.some.inj (show some 1 = some a from ha)⟩) rfl
  exact ⟨_, _, run, rfl, (slots_safe_iff run).2.2.1⟩

/-- Deleted once more, the last tuple is on the free pages twice, and its slot is given to two
tuples. -/
theorem secondDelete_freesAgain :
    (∃ s lost, CallRun (fun _ _ _ => True) blankTuples false s lost ∧
      ∃ a ∈ freedSlot s.rel (s.cursors 0), a ∈ s.rel.buffer.free) ∧
    ∃ s lost, CallRun (fun _ _ _ => True) blankTuples false s lost ∧
      s.rel.Linked (newSlot s.rel) := by
  have once : CallRun (fun _ _ _ => True) blankTuples false _ _ :=
    .del 0 (.get 0 keySeven 0 .last (.put keySeven 6 .append (.put keySeven 5 .append .create rfl)
      rfl) rfl) trivial rfl
  refine ⟨⟨_, _, once, 1, rfl, List.mem_cons_self⟩, ?_⟩
  exact ⟨_, _, .put keySeven 7 .append (.del 0 once trivial rfl) rfl, 0, rfl, 1, rfl⟩

end StreamMill.ImDb
