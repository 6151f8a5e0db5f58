import StreamMill.ImDb.RawLayout
import StreamMill.Lib.Loop

/-!
# StreamMill.ImDb.RawRun

Tuples do not disturb each other as long as every tuple fits the slots. `Placed`, that the tuples
are stored in slots of the buffer, is kept by a new tuple, by a store to links and by one to the
data of a tuple; `tuples_isolated` is about runs of puts and of overwrites through a cursor.
-/

namespace StreamMill.ImDb
namespace Raw

open Lib Lib.Memory
open Table (leBytes leNat leBytes_length leNat_leBytes)

variable {m m' : Memory Byte} {b : Buffer} {l : List Entry} {free : List Nat} {P : Nat → Prop}
variable {a : Nat} {e : Entry} {b : Buffer} {data : Dbt}

theorem mem_slots : a ∈ slots l ↔ ∃ e ∈ l, e.slot = a := List.mem_map

theorem slot_mem (h : e ∈ l) : e.slot ∈ slots l := List.mem_map_of_mem h

structure Placed (m : Memory Byte) (b : Buffer) (l : List Entry) (free : List Nat) : Prop where
  buffer : b.Holds m (slots l) free
  size : ∀ e ∈ l, e.size ≤ b.itemSize
  stored : ∀ e ∈ l, e.Stored m

theorem Placed.apart (h : Placed m b l free) {c : Nat} (ha : a ∈ slots l) (hc : c ∈ slots l)
    (hne : a ≠ c) : Apart a b.itemSize c b.itemSize :=
  (h.buffer.isSlot ha).apart h.buffer.toSized (h.buffer.isSlot hc) hne

theorem LinkOf.within (hs : b.Sized) {i : Nat} (h : LinkOf a i) : Within a b.itemSize i := by
  have hitem := hs.item
  simp only [sizeofTLL] at hitem
  exact h.sub (Nat.le_add_right _ _) (by simp only [prevAt]; omega)

theorem LinkOf.tuple {i : Nat} (h : LinkOf a i) (key data : List Byte) :
    Within a (tupleSize key data) i := by
  refine h.sub (Nat.le_add_right _ _) ?_
  simp only [prevAt, tupleSize, sizeofTLL, sizeofSizeT]
  omega

theorem Placed.links (h : Placed m b l free)
    (hc : Changes (fun i => ∃ a ∈ slots l, LinkOf a i) m m') : Placed m' b l free := by
  have hs := h.buffer.toSized
  refine ⟨h.buffer.changes hc ?_, h.size, ?_⟩
  · rintro q hq i hi ⟨a, ha, hlink⟩
    exact ((h.buffer.isSlot ha).apart_free hs hq).not_within (hlink.within hs) hi
  · intro e he
    refine (h.stored e he).changes hc ?_
    rintro i hi hcontrol ⟨a, ha, hlink⟩
    by_cases hae : a = e.slot
    · subst hae
      exact hcontrol hlink.control
    · refine (h.apart ha (slot_mem he) hae).not_within (hlink.within hs) ?_
      exact hi.sub (Nat.le_refl _) (Nat.add_le_add_left (h.size e he) _)

theorem Placed.others (h : Placed m b l free) (ha : b.IsSlot a)
    (hc : Changes (Within a b.itemSize) m m') :
    b.Holds m' (slots l) free ∧ ∀ e ∈ l, e.slot ≠ a → e.Stored m' := by
  have hs := h.buffer.toSized
  refine ⟨h.buffer.changes hc ?_, ?_⟩
  · intro q hq i hi hin
    exact (ha.apart_free hs hq).not_within hin hi
  · intro e he hne
    refine (h.stored e he).changes hc ?_
    intro i hi _ hin
    refine ((h.buffer.isSlot (slot_mem he)).apart hs ha hne).not_within ?_ hin
    exact hi.sub (Nat.le_refl _) (Nat.add_le_add_left (h.size e he) _)

theorem Placed.fill {s : Rel} (hb : b.Holds s.mem (slots l ++ [e.slot]) free)
    (hsize : ∀ c ∈ l, c.size ≤ b.itemSize) (hstored : ∀ c ∈ l, c.Stored s.mem)
    (hfit : e.size ≤ b.itemSize) (hfresh : e.slot ∉ slots l) :
    Placed (s.fill e.slot e.key e.data).mem b (l ++ [e]) free ∧
      Changes (Within e.slot e.size) s.mem (s.fill e.slot e.key e.data).mem := by
  have hs := hb.toSized
  have hslot : b.IsSlot e.slot := hb.isSlot (by simp)
  have hbound := (hslot.bound hs).2
  obtain ⟨hnew, hc⟩ := fill_stored s (e := e) (by omega)
  have hc' : Changes (Within e.slot b.itemSize) s.mem (s.fill e.slot e.key e.data).mem :=
    hc.mono fun i hi => hi.sub (Nat.le_refl _) (Nat.add_le_add_left hfit _)
  refine ⟨⟨?_, ?_, ?_⟩, hc⟩
  · rw [slots, List.map_append]
    refine hb.changes hc' ?_
    intro q hq i hi hin
    exact (hslot.apart_free hs hq).not_within hin hi
  · intro c hcm
    rcases List.mem_append.mp hcm with hcm | hcm
    · exact hsize c hcm
    · rw [List.mem_singleton.mp hcm]
      exact hfit
  · intro c hcm
    rcases List.mem_append.mp hcm with hcm | hcm
    · refine (hstored c hcm).changes hc' ?_
      intro i hi _ hin
      have hslotc : b.IsSlot c.slot := hb.isSlot (List.mem_append_left _ (slot_mem hcm))
      have hne : c.slot ≠ e.slot := fun he => hfresh (he ▸ slot_mem hcm)
      refine (hslotc.apart hs hslot hne).not_within ?_ hin
      exact hi.sub (Nat.le_refl _) (Nat.add_le_add_left (hsize c hcm) _)
    · rw [List.mem_singleton.mp hcm]
      exact hnew

def overwrite (a : Nat) (data : List Byte) (l : List Entry) : List Entry :=
  l.map fun e => if e.slot = a then { e with data } else e

theorem slots_overwrite (a : Nat) (data : List Byte) (l : List Entry) :
    slots (overwrite a data l) = slots l := by
  rw [slots, overwrite, List.map_map]
  apply List.map_congr_left
  intro e _
  simp only [Function.comp]
  split <;> rfl

theorem Placed.current (h : Placed m b l free) (he : e ∈ l) {data : List Byte}
    (hfit : tupleSize e.key data ≤ b.itemSize) :
    Placed (setBytes m (e.slot + dataAt) data) b (overwrite e.slot data l) free ∧
      Changes (Within (e.slot + sizeofTLL) (b.itemSize - sizeofTLL)) m
        (setBytes m (e.slot + dataAt) data) := by
  have hs := h.buffer.toSized
  have hslot := h.buffer.isSlot (slot_mem he)
  have hbound := hslot.bound hs
  have hold := h.stored e he
  simp only [tupleSize, sizeofTLL, sizeofSizeT] at hfit
  obtain ⟨hdata, hc⟩ := setBytes_field hold.data.ptr (by omega : data.length < 2 ^ 32)
    (Or.inl (by simp only [Entry.dataPtr, dataAt, sizeofTLL, sizeofSizeT]; omega))
  have hc' : Changes (Within (e.slot + sizeofTLL) (b.itemSize - sizeofTLL)) m
      (setBytes m (e.slot + dataAt) data) := by
    refine hc.mono fun i hi => hi.sub ?_ ?_ <;>
      simp only [Entry.dataPtr, sizeofTLL, sizeofSizeT] <;> omega
  obtain ⟨hbuf, hothers⟩ := h.others hslot (hc'.mono fun i hi =>
    hi.sub (Nat.le_add_right _ _) (by have := hs.item; omega))
  refine ⟨⟨?_, ?_, ?_⟩, hc'⟩
  · rw [slots_overwrite]
    exact hbuf
  · intro c hcm
    obtain ⟨d, hd, rfl⟩ := List.mem_map.mp hcm
    split
    · next hde =>
      have hkey : d = e := List.inj_on_of_nodup_map
        (List.nodup_append.mp h.buffer.nodup).1 hd he hde
      rw [hkey]
      exact hfit
    · exact h.size d hd
  · intro c hcm
    obtain ⟨d, hd, rfl⟩ := List.mem_map.mp hcm
    split
    · next hde =>
      have hkey : d = e := List.inj_on_of_nodup_map
        (List.nodup_append.mp h.buffer.nodup).1 hd he hde
      rw [hkey]
      refine ⟨hold.key.changes hc ?_ ?_, hdata⟩
      · rintro i ⟨-, h2⟩ ⟨h3, -⟩
        simp only [Entry.dataPtr, keyAt, sizeofTLL, sizeofSizeT] at h2 h3
        omega
      · rintro i ⟨-, h2⟩ ⟨h3, -⟩
        simp only [Entry.dataPtr, sizeofTLL, sizeofSizeT] at h2 h3
        omega
    · next hde => exact hothers d hd hde

/-- Tuples at different places are apart, and their addresses fit a pointer. -/
structure Spread (xs : List Nat) : Prop where
  apart : ∀ a ∈ xs, ∀ c ∈ xs, a ≠ c → Apart a sizeofTLL c sizeofTLL
  bound : ∀ a ∈ xs, a < 2 ^ 32

theorem Placed.spread (h : Placed m b l free) : Spread (slots l) := by
  have hs := h.buffer.toSized
  constructor
  · intro a ha c hc hne
    exact (h.apart ha hc hne).sub (Nat.le_refl _) (Nat.add_le_add_left hs.item _) (Nat.le_refl _)
      (Nat.add_le_add_left hs.item _)
  · intro a ha
    have hbound := ((h.buffer.isSlot ha).bound hs).2
    have hpos := hs.pos
    omega

section Links

variable {s : Rel} {xs : List Nat} {a c v : Nat}

section

variable (hs : Spread xs) (ha : a ∈ xs) (hc : c ∈ xs)
include hs ha hc

theorem field_other {o o' : Nat} (ho : o + 4 ≤ sizeofTLL) (ho' : o' + 4 ≤ sizeofTLL)
    (hne : a ≠ c ∨ o + 4 ≤ o' ∨ o' + 4 ≤ o) (m : Memory Byte) (v : Nat) :
    word (setWord m (a + o) v) (c + o') = word m (c + o') := by
  apply word_setWord_other
  by_cases hac : a = c
  · subst hac
    rcases hne with hne | hne | hne
    · exact absurd rfl hne
    · exact Or.inr (by omega)
    · exact Or.inl (by omega)
  · exact (hs.apart c hc a ha (fun h => hac h.symm)).sub (Nat.le_add_right _ _) (by omega)
      (Nat.le_add_right _ _) (by omega)

theorem setNext_next (hv : v < 2 ^ 32) :
    (s.setNext a v).next c = Function.update s.next a v c := by
  by_cases hca : c = a
  · subst hca
    rw [Function.update_self]
    exact word_setWord _ _ hv
  · rw [Function.update_of_ne hca]
    exact field_other hs ha hc (by decide) (by decide) (.inl fun h => hca h.symm) _ _

theorem setPrev_prev (hv : v < 2 ^ 32) :
    (s.setPrev a v).prev c = Function.update s.prev a v c := by
  by_cases hca : c = a
  · subst hca
    rw [Function.update_self]
    exact word_setWord _ _ hv
  · rw [Function.update_of_ne hca]
    exact field_other hs ha hc (by decide) (by decide) (.inl fun h => hca h.symm) _ _

theorem setNext_prev :
    (s.setNext a v).prev c = s.prev c :=
  field_other hs ha hc (by decide) (by decide) (.inr (.inr (by decide))) _ _

theorem setPrev_next :
    (s.setPrev a v).next c = s.next c :=
  field_other hs ha hc (by decide) (by decide) (.inr (.inl (by decide))) _ _

theorem setChain_links :
    (s.setChain a v).next c = s.next c ∧ (s.setChain a v).prev c = s.prev c :=
  ⟨field_other hs ha hc (by decide) (by decide) (.inr (.inr (by decide))) _ _,
    field_other hs ha hc (by decide) (by decide) (.inr (.inr (by decide))) _ _⟩

end

theorem changes_link (ha : a ∈ xs) {o : Nat} (ho : prevAt ≤ o) (ho' : o + 4 ≤ sizeofTLL)
    (m : Memory Byte) (v : Nat) :
    Changes (fun i => ∃ a ∈ xs, LinkOf a i) m (setWord m (a + o) v) := by
  simp only [prevAt, sizeofTLL] at ho ho'
  refine (changes_setWord m (a + o) v).mono fun i hi => ⟨a, ha, hi.sub ?_ ?_⟩ <;>
    simp only [prevAt] <;> omega

theorem link_ring {cur : Nat} (hs : Spread (xs ++ [cur])) (hhead : s.head = xs.head?)
    (hr : Ring s.next s.prev xs) (hnd : xs.Nodup) (hcur : cur ∉ xs) :
    (s.link cur).head = (xs ++ [cur]).head? ∧
      Ring (s.link cur).next (s.link cur).prev (xs ++ [cur]) ∧
      Changes (fun i => ∃ a ∈ xs ++ [cur], LinkOf a i) s.mem (s.link cur).mem := by
  have hlast : cur ∈ xs ++ [cur] := List.mem_append_right _ (List.mem_singleton_self _)
  have hnext : ∀ {m a v}, a ∈ xs ++ [cur] →
      Changes (fun i => ∃ a ∈ xs ++ [cur], LinkOf a i) m (setWord m (a + nextAt) v) :=
    fun ha => changes_link ha (by decide) (by decide) _ _
  have hprev : ∀ {m a v}, a ∈ xs ++ [cur] →
      Changes (fun i => ∃ a ∈ xs ++ [cur], LinkOf a i) m (setWord m (a + prevAt) v) :=
    fun ha => changes_link ha (by decide) (by decide) _ _
  have hbound := hs.bound cur hlast
  cases xs with
  | nil =>
    rw [Rel.link, hhead]
    refine ⟨rfl, ring_singleton ?_ ?_, (hprev hlast).trans (hnext hlast)⟩
    · exact (setNext_next hs hlast hlast hbound).trans (Function.update_self ..)
    · exact (setNext_prev hs hlast hlast).trans
        ((setPrev_prev hs hlast hlast hbound).trans (Function.update_self ..))
  | cons h xs =>
    have hz : s.prev h = last id h xs := hr.ends.1
    have hzmem : s.prev h ∈ h :: xs := by
      rw [hz]
      exact last_mem h xs
    have hh : h ∈ h :: xs ++ [cur] := List.mem_append_left _ List.mem_cons_self
    have hzin : s.prev h ∈ h :: xs ++ [cur] := List.mem_append_left _ hzmem
    have hlink : s.link cur =
        (((s.setPrev cur (s.prev h)).setNext (s.prev h) cur).setNext cur h).setPrev h cur := by
      rw [Rel.link, hhead]
      rfl
    have hnx : ∀ c ∈ h :: xs ++ [cur], (s.link cur).next c =
        Function.update (Function.update s.next (s.prev h) cur) cur h c := by
      intro c hc
      rw [hlink, setPrev_next hs hh hc, setNext_next hs hlast hc (hs.bound h hh)]
      by_cases hcc : c = cur
      · rw [hcc, Function.update_self, Function.update_self]
      · rw [Function.update_of_ne hcc, Function.update_of_ne hcc,
          setNext_next hs hzin hc hbound]
        by_cases hcz : c = s.prev h
        · rw [hcz, Function.update_self, Function.update_self]
        · rw [Function.update_of_ne hcz, Function.update_of_ne hcz, setPrev_next hs hlast hc]
    have hpv : ∀ c ∈ h :: xs ++ [cur], (s.link cur).prev c =
        Function.update (Function.update s.prev cur (s.prev h)) h cur c := by
      intro c hc
      rw [hlink, setPrev_prev hs hh hc hbound]
      by_cases hch : c = h
      · rw [hch, Function.update_self, Function.update_self]
      · rw [Function.update_of_ne hch, Function.update_of_ne hch, setNext_prev hs hlast hc,
          setNext_prev hs hzin hc, setPrev_prev hs hlast hc (hs.bound _ hzin)]
    refine ⟨?_, (hr.concat_update hnd hcur).congr hnx hpv, ?_⟩
    · rw [hlink]
      exact hhead
    · rw [hlink]
      exact (((hprev hlast).trans (hnext hzin)).trans (hnext hlast)).trans (hprev hh)

/-- What the index or the chain leaves of the relation. -/
structure Chained (s s' : Rel) (xs : List Nat) : Prop where
  head : s'.head = s.head
  buffer : s'.buffer = s.buffer
  links : ∀ c ∈ xs, s'.next c = s.next c ∧ s'.prev c = s.prev c
  changes : Changes (fun i => ∃ a ∈ xs, LinkOf a i) s.mem s'.mem

theorem setChain_chained (hs : Spread xs) (ha : a ∈ xs)
    (hidx : Option (HashControl KeyPtr Nat)) (v : Nat) :
    Chained s { s.setChain a v with hidx } xs :=
  ⟨rfl, rfl, fun _ hc => setChain_links hs ha hc, changes_link ha (by decide) (by decide) _ _⟩

theorem Chained.hidx (hidx : Option (HashControl KeyPtr Nat)) : Chained s { s with hidx } xs :=
  ⟨rfl, rfl, fun _ _ => ⟨rfl, rfl⟩, Changes.refl⟩

theorem index_chained (hs : Spread xs) (ha : a ∈ xs) {ht : HashControl KeyPtr Nat}
    {key : List Byte} {s' : Rel} (h : s.index ht a key = .ok s') : Chained s s' xs := by
  obtain ⟨⟨ht₁, old⟩, -, h⟩ := bind_eq_ok h
  cases old with
  | some old =>
    obtain ⟨⟨ht₂, _⟩, -, h⟩ := bind_eq_ok h
    cases h
    exact setChain_chained hs ha _ old
  | none =>
    obtain ⟨⟨ht₂, _⟩, -, h⟩ := bind_eq_ok h
    cases h
    exact Chained.hidx _

theorem chain_chained (hs : Spread xs) (ha : a ∈ xs) (hr : Ring s.next s.prev xs)
    {key : List Byte} {s' : Rel} (h : s.chain a key = .ok s') : Chained s s' xs := by
  have hid : Chained s s xs := ⟨rfl, rfl, fun _ _ => ⟨rfl, rfl⟩, Changes.refl⟩
  rw [Rel.chain] at h
  split at h
  · cases h
    exact hid
  · split at h
    · cases h
      exact hid
    · obtain ⟨p, hwalk, h⟩ := bind_eq_ok h
      cases p with
      | none =>
        cases h
        exact hid
      | some p =>
        cases h
        have hp : p ∈ xs := by
          refine walk_inv ?_ ?_ hwalk
          · intro c hc
            cases hc
            exact (hr.closed ha).2
          · intro c d hc hd
            rw [stepUntil] at hd
            split at hd
            · cases hd
            · cases hd
              exact (hr.closed hc).2
        exact setChain_chained hs hp s.hidx a

end Links

/-- The relation lists the tuples of `l`, and `free` are the slots on its free pages. -/
structure Rel.Holds (s : Rel) (l : List Entry) (free : List Nat) : Prop where
  head : s.head = (slots l).head?
  ring : Ring s.next s.prev (slots l)
  placed : ∀ b, s.buffer = some b → Placed s.mem b l free
  empty : s.buffer = none → l = [] ∧ free = []

def Rel.Room (s : Rel) (key data : List Byte) : Prop :=
  match s.buffer with
  | none => pageItems * tupleSize key data < 2 ^ 32
  | some b => tupleSize key data ≤ b.itemSize

variable {malloc : Malloc} {s s' : Rel}

theorem create_holds (mem : Memory Byte) (oid indexed : Bool) :
    (imRelCreate mem oid indexed).Holds [] [] where
  head := rfl
  ring := fun _ => trivial
  placed := fun _ hb => by cases hb
  empty := fun _ => ⟨rfl, rfl⟩

theorem Rel.Holds.allocate (hm : malloc.Sound (2 ^ 32)) (h : s.Holds l free)
    {key data : List Byte} (hroom : s.Room key data) {b b' : Buffer} {cur : Nat}
    (hbuf : s.theBuffer malloc key data = .ok b)
    (halloc : allocateBuffer malloc s.mem b = .ok (cur, b')) :
    b'.Holds s.mem (slots l ++ [cur]) free.tail ∧ cur ∉ slots l ∧
      (∀ e ∈ l, e.size ≤ b'.itemSize) ∧ (∀ e ∈ l, e.Stored s.mem) ∧
      tupleSize key data ≤ b'.itemSize := by
  rw [Rel.theBuffer] at hbuf
  rw [Rel.Room] at hroom
  cases hsb : s.buffer with
  | some b₀ =>
    rw [hsb] at hbuf hroom
    cases hbuf
    have hp := h.placed b hsb
    obtain ⟨hholds, hfresh, hitem⟩ := allocateBuffer_holds hm hp.buffer halloc
    exact ⟨hholds, hfresh, fun e he => hitem ▸ hp.size e he, hp.stored, hitem ▸ hroom⟩
  | none =>
    rw [hsb] at hbuf hroom
    obtain ⟨rfl, rfl⟩ := h.empty hsb
    obtain ⟨hnew, hsize⟩ := newBuffer_holds hm
      (by simp only [tupleSize, sizeofTLL]; omega) hroom hbuf
    obtain ⟨hholds, hfresh, hitem⟩ := allocateBuffer_holds hm hnew halloc
    refine ⟨hholds, hfresh, ?_, ?_, (hitem.trans hsize).ge⟩
    · intro e he
      cases he
    · intro e he
      cases he

theorem append_holds (h : s.Holds l free) (hb : b.Holds s.mem (slots l ++ [e.slot]) free.tail)
    (hfresh : e.slot ∉ slots l) (hsize : ∀ c ∈ l, c.size ≤ b.itemSize)
    (hstored : ∀ c ∈ l, c.Stored s.mem) (hfit : e.size ≤ b.itemSize) :
    (s.append b e.slot e.key e.data).Holds (l ++ [e]) free.tail ∧
      (s.append b e.slot e.key e.data).buffer = some b ∧
      Changes (fun i => Within e.slot e.size i ∨ ∃ a ∈ slots l, LinkOf a i) s.mem
        (s.append b e.slot e.key e.data).mem := by
  generalize hs₀ : ({ s with buffer := some b } : Rel).fill e.slot e.key e.data = s₀
  obtain ⟨hp, hc⟩ : Placed s₀.mem b (l ++ [e]) free.tail ∧
      Changes (Within e.slot e.size) s.mem s₀.mem := by
    rw [← hs₀]
    exact Placed.fill hb hsize hstored hfit hfresh
  have hslots : slots (l ++ [e]) = slots l ++ [e.slot] := List.map_append
  have hs := hb.toSized
  -- the fields of the old tuples are apart from the new one
  have hfield : ∀ c ∈ slots l, ∀ o, o + 4 ≤ sizeofTLL →
      word s₀.mem (c + o) = word s.mem (c + o) := by
    intro c hcl o ho
    apply word_changes hc
    intro i hi hin
    have hne : c ≠ e.slot := fun he => hfresh (he ▸ hcl)
    have hapart := hp.apart (hslots ▸ List.mem_append_left _ hcl)
      (hslots ▸ List.mem_append_right _ (List.mem_singleton_self _)) hne
    have hitem := hs.item
    exact hapart.not_within (hi.sub (Nat.le_add_right _ _) (by omega))
      (hin.sub (Nat.le_refl _) (Nat.add_le_add_left hfit _))
  have hspread := hp.spread
  rw [hslots] at hspread
  have hhead : s₀.head = (slots l).head? := by
    rw [← hs₀]
    exact h.head
  have hring : Ring s₀.next s₀.prev (slots l) :=
    h.ring.congr (fun c hcl => hfield c hcl _ (by decide)) fun c hcl => hfield c hcl _ (by decide)
  have hnd : (slots l).Nodup := (List.nodup_append.mp (List.nodup_append.mp hb.nodup).1).1
  obtain ⟨hhead', hring', hlinks⟩ := link_ring hspread hhead hring hnd hfresh
  have happend : s.append b e.slot e.key e.data = s₀.link e.slot := by
    rw [← hs₀]
    rfl
  have hbuf : (s₀.link e.slot).buffer = some b := by
    rw [Rel.link]
    split <;> rw [← hs₀] <;> rfl
  rw [happend]
  refine ⟨⟨hslots ▸ hhead', hslots ▸ hring', ?_, ?_⟩, hbuf, ?_⟩
  · intro b' hb'
    cases hbuf.symm.trans hb'
    exact hp.links (hslots ▸ hlinks)
  · intro hnone
    rw [hbuf] at hnone
    cases hnone
  · refine (hc.mono fun i hi => Or.inl hi).trans (hlinks.mono ?_)
    rintro i ⟨a, ha, hi⟩
    rcases List.mem_append.mp ha with ha | ha
    · exact Or.inr ⟨a, ha, hi⟩
    · rw [List.mem_singleton.mp ha] at hi
      exact Or.inl (hi.tuple e.key e.data)

theorem Rel.Holds.chained (h : s.Holds l free) (hb : s.buffer = some b)
    (hc : Chained s s' (slots l)) : s'.Holds l free where
  head := hc.head.trans h.head
  ring := h.ring.congr (fun c hcl => (hc.links c hcl).1) fun c hcl => (hc.links c hcl).2
  placed := by
    intro b' hb'
    rw [hc.buffer] at hb'
    exact (h.placed b' hb').links hc.changes
  empty := by
    intro hnone
    rw [hc.buffer, hb] at hnone
    cases hnone

theorem putLast_holds (hm : malloc.Sound (2 ^ 32)) (h : s.Holds l free) {key data : List Byte}
    (hroom : s.Room key data) (hput : s.putLast malloc key data = .ok s') :
    ∃ cur, s'.Holds (l ++ [⟨cur, key, data⟩]) free.tail ∧ cur ∉ slots l ∧
      Changes (fun i => Within cur (tupleSize key data) i ∨ ∃ a ∈ slots l, LinkOf a i)
        s.mem s'.mem := by
  obtain ⟨b, hbuf, hput⟩ := bind_eq_ok hput
  obtain ⟨⟨cur, b'⟩, halloc, hput⟩ := bind_eq_ok hput
  obtain ⟨hholds, hfresh, hsize, hstored, hfit⟩ := h.allocate hm hroom hbuf halloc
  obtain ⟨hnew, hb', hchanges⟩ := append_holds (e := ⟨cur, key, data⟩) h hholds hfresh hsize
    hstored hfit
  have hmem : cur ∈ slots (l ++ [⟨cur, key, data⟩]) :=
    slot_mem (List.mem_append_right _ (List.mem_singleton_self (Entry.mk cur key data)))
  have hspread := (hnew.placed b' hb').spread
  have hchained : Chained (s.append b' cur key data) s' (slots (l ++ [⟨cur, key, data⟩])) := by
    simp only at hput
    split at hput
    · exact index_chained hspread hmem hput
    · exact chain_chained hspread hmem hnew.ring hput
  refine ⟨cur, hnew.chained hb' hchained, hfresh, hchanges.trans (hchained.changes.mono ?_)⟩
  rintro i ⟨a, ha, hi⟩
  obtain ⟨e, he, rfl⟩ := mem_slots.mp ha
  rcases List.mem_append.mp he with he | he
  · exact Or.inr ⟨e.slot, slot_mem he, hi⟩
  · rw [List.mem_singleton.mp he] at hi
    exact Or.inl (hi.tuple key data)

theorem Rel.Holds.last {e : Entry} (h : s.Holds (l ++ [e]) free) : s.last = some e.slot := by
  have hhead := h.head
  have hring := h.ring
  rw [slots, List.map_append] at hhead hring
  rw [Rel.last, hhead]
  cases hl : l.map Entry.slot with
  | nil =>
    rw [hl] at hring
    exact congrArg some hring.ends.1
  | cons a xs =>
    rw [hl] at hring
    refine congrArg some (hring.ends.1.trans ?_)
    exact last_concat a xs e.slot

theorem put_holds (hm : malloc.Sound (2 ^ 32)) (h : s.Holds l free) {key : Dbt} {flags : PutFlags}
    (hroom : s.Room key.val data.val) (hput : imRelPut malloc s key data flags = .ok s')
    (ha : s'.last = some a) :
    s'.Holds (l ++ [⟨a, key.val, data.val⟩]) free.tail ∧ a ∉ slots l ∧
      Changes (fun i => Within a (tupleSize key.val data.val) i ∨ ∃ c ∈ slots l, LinkOf c i)
        s.mem s'.mem := by
  obtain ⟨found, -, hput⟩ := bind_eq_ok hput
  cases found with
  | some c => cases hput
  | none =>
    obtain ⟨cur, hholds, hfresh, hchanges⟩ := putLast_holds hm h hroom hput
    rw [hholds.last] at ha
    cases ha
    exact ⟨hholds, hfresh, hchanges⟩

theorem current_holds (h : s.Holds l free) (he : e ∈ l) (hb : s.buffer = some b)
    (hfit : tupleSize e.key data.val ≤ b.itemSize) :
    (imRelCursorPut s (some e.slot) data).1.Holds (overwrite e.slot data.val l) free ∧
      Changes (Within (e.slot + sizeofTLL) (b.itemSize - sizeofTLL)) s.mem
        (imRelCursorPut s (some e.slot) data).1.mem := by
  have hp := h.placed b hb
  have hs := hp.buffer.toSized
  obtain ⟨hp', hc⟩ := hp.current he hfit
  have hfield : ∀ c ∈ slots l, ∀ o, o + 4 ≤ sizeofTLL →
      word (imRelCursorPut s (some e.slot) data).1.mem (c + o) = word s.mem (c + o) := by
    intro c hcl o ho
    apply word_changes hc
    intro i hi hin
    have hitem := hs.item
    by_cases hce : c = e.slot
    · obtain ⟨-, h2⟩ := hi
      obtain ⟨h3, -⟩ := hin
      omega
    · exact (hp.apart hcl (slot_mem he) hce).not_within
        (hi.sub (Nat.le_add_right _ _) (by omega)) (hin.sub (Nat.le_add_right _ _) (by omega))
  refine ⟨⟨?_, ?_, ?_, ?_⟩, hc⟩
  · rw [slots_overwrite]
    exact h.head
  · rw [slots_overwrite]
    exact h.ring.congr (fun c hcl => hfield c hcl _ (by decide))
      fun c hcl => hfield c hcl _ (by decide)
  · intro b' hb'
    cases hb.symm.trans hb'
    exact hp'
  · intro hnone
    cases hb.symm.trans hnone

inductive Call where
  | put (key data : Dbt) (flags : PutFlags)
  /-- An overwrite with flags `DB_CURRENT`, through a cursor at `cur`. -/
  | current (cur : Option Nat) (data : Dbt)

def Rel.Fits (s : Rel) : Call → Prop
  | .put key data flags =>
    s.Room key.val data.val ∧ (flags = .overwrite → s.overwritten key.val = .ok none)
  | .current cur data => ∀ a ∈ cur, ∀ b ∈ s.buffer,
    sizeofTLL + word s.mem (word s.mem (a + keyAt)) + sizeofSizeT + data.val.length + sizeofSizeT ≤
      b.itemSize

/-- Puts and overwrites of a relation, of which every call meets `ok`. `l` are the tuples as they
were last written, `free` the slots that were freed before. -/
inductive Run (ok : Rel → Call → Prop) (malloc : Malloc) : Rel → List Entry → List Nat → Prop where
  | start {s : Rel} {l : List Entry} {free : List Nat} (h : s.Holds l free) :
    Run ok malloc s l free
  | put {s s' : Rel} {l : List Entry} {free : List Nat} {a : Nat} (key data : Dbt)
    (flags : PutFlags) (run : Run ok malloc s l free) (h : ok s (.put key data flags))
    (hput : imRelPut malloc s key data flags = .ok s') (ha : s'.last = some a) :
    Run ok malloc s' (l ++ [⟨a, key.val, data.val⟩]) free.tail
  | notFound {s : Rel} {l : List Entry} {free : List Nat} (data : Dbt)
    (run : Run ok malloc s l free) (h : ok s (.current none data)) :
    Run ok malloc (imRelCursorPut s none data).1 l free
  | current {s : Rel} {l : List Entry} {free : List Nat} {a : Nat} (data : Dbt)
    (run : Run ok malloc s l free) (h : ok s (.current (some a) data)) (ha : a ∈ slots l) :
    Run ok malloc (imRelCursorPut s (some a) data).1 (overwrite a data.val l) free

theorem Rel.Fits.tupleSize_le (h : s.Holds l free) (he : e ∈ l)
    (hfit : s.Fits (.current (some e.slot) data)) (hb : s.buffer = some b) :
    tupleSize e.key data.val ≤ b.itemSize := by
  have hkey := ((h.placed b hb).stored e he).key
  have hle := hfit e.slot rfl b hb
  rw [hkey.ptr, hkey.size] at hle
  exact hle

theorem Rel.Holds.has_buffer (h : s.Holds l free) (he : e ∈ l) :
    ∃ b, s.buffer = some b := by
  cases hb : s.buffer with
  | some b => exact ⟨b, rfl⟩
  | none =>
    obtain ⟨rfl, -⟩ := h.empty hb
    cases he

theorem Run.holds (hm : malloc.Sound (2 ^ 32)) (run : Run Rel.Fits malloc s l free) :
    s.Holds l free := by
  induction run with
  | start h => exact h
  | put key data flags _ hfit hput ha ih => exact (put_holds hm ih hfit.1 hput ha).1
  | notFound data _ _ ih => exact ih
  | current data _ hfit ha ih =>
    obtain ⟨e, he, rfl⟩ := mem_slots.mp ha
    obtain ⟨b, hb⟩ := ih.has_buffer he
    exact (current_holds ih he hb (hfit.tupleSize_le ih he hb)).1

def Rel.freeList (s : Rel) : List Nat :=
  match s.buffer with
  | none => []
  | some b => b.freeWords s.mem

theorem Rel.Holds.freeList (h : s.Holds l free) : s.freeList = free := by
  rw [Rel.freeList]
  cases hb : s.buffer with
  | none => exact (h.empty hb).2.symm
  | some b => exact (h.placed b hb).buffer.freeWords

/-- In a run of calls that stay in their slots, every tuple is read as it was last written, and the
next such call writes in its slot only, a put also to links. -/
theorem tuples_isolated (hm : malloc.Sound (2 ^ 32)) (run : Run Rel.Fits malloc s l free) :
    (∀ e ∈ l, e.key.length ≤ returnSize → e.data.length + 4 ≤ returnSize →
      ∀ out, readTuple s.mem out e.slot = some (e.key, e.data)) ∧
    s.head = (slots l).head? ∧ Ring s.next s.prev (slots l) ∧ s.freeList = free ∧
    (∀ key data flags s' a, s.Fits (.put key data flags) →
      imRelPut malloc s key data flags = .ok s' → s'.last = some a → a ∉ slots l ∧
        Changes (fun i => Within a (tupleSize key.val data.val) i ∨ ∃ c ∈ slots l, LinkOf c i)
          s.mem s'.mem) ∧
    ∀ a ∈ slots l, ∀ data b, s.Fits (.current (some a) data) → s.buffer = some b →
      Changes (Within (a + sizeofTLL) (b.itemSize - sizeofTLL)) s.mem
        (imRelCursorPut s (some a) data).1.mem := by
  have h := run.holds hm
  refine ⟨?_, h.head, h.ring, h.freeList, ?_, ?_⟩
  · intro e he hkey hdata out
    obtain ⟨b, hb⟩ := h.has_buffer he
    exact readTuple_stored ((h.placed b hb).stored e he) hkey hdata out
  · intro key data flags s' a hfit hput ha
    exact (put_holds hm h hfit.1 hput ha).2
  · intro a ha data b hfit hb
    obtain ⟨e, he, rfl⟩ := mem_slots.mp ha
    exact (current_holds h he hb (hfit.tupleSize_le h he hb)).2

def bumpMalloc : Malloc := fun bs n =>
  let p := (bs.map fun b => b.1 + b.2).foldr max 4096
  if p + n ≤ 2 ^ 32 then some p else none

theorem le_foldr_max (xs : List Nat) (z : Nat) :
    z ≤ xs.foldr max z ∧ ∀ x ∈ xs, x ≤ xs.foldr max z := by
  induction xs with
  | nil => exact ⟨Nat.le_refl _, fun x hx => by cases hx⟩
  | cons y xs ih =>
    refine ⟨ih.1.trans (Nat.le_max_right _ _), fun x hx => ?_⟩
    rcases List.mem_cons.mp hx with rfl | hx
    · exact Nat.le_max_left _ _
    · exact (ih.2 x hx).trans (Nat.le_max_right _ _)

theorem bumpMalloc_sound : bumpMalloc.Sound (2 ^ 32) := by
  intro bs n p h
  rw [bumpMalloc] at h
  split at h
  · next hle =>
    cases h
    obtain ⟨hpos, hall⟩ := le_foldr_max (bs.map fun b => b.1 + b.2) 4096
    refine ⟨Nat.lt_of_lt_of_le (by decide) hpos, hle, fun b hb => Or.inr ?_⟩
    exact hall _ (List.mem_map_of_mem hb)
  · cases h

def emptyRel : Rel := imRelCreate (fun _ => 0) false false

def keyOne : Dbt := ⟨[1], by decide⟩
def keyTwo : Dbt := ⟨[2], by decide⟩
def noData : Dbt := ⟨[], by decide⟩
def fourBytes : Dbt := ⟨[5, 6, 7, 8], by decide⟩
def twoBytes : Dbt := ⟨[9, 9], by decide⟩

def onePut : Except Fault (Option Nat × Nat × Option Nat) := do
  let s ← imRelPut bumpMalloc emptyRel keyOne fourBytes .append
  return (s.last, word s.mem (word s.mem (4096 + keyAt)), s.buffer.map Buffer.itemSize)

/-- A put, and an overwrite with fewer bytes. -/
theorem tuples_isolated_overwritten : ∃ s, Run Rel.Fits bumpMalloc s [⟨4096, [1], [9, 9]⟩] [] ∧
    ∀ out, readTuple s.mem out 4096 = some ([1], [9, 9]) := by
  have hrun : onePut = .ok (some 4096, 1, some 77) := by decide +kernel
  obtain ⟨s, hput, hout⟩ := bind_eq_ok hrun
  simp only [pure, Except.pure, Except.ok.injEq, Prod.mk.injEq] at hout
  obtain ⟨hlast, hkey, hitem⟩ := hout
  have run : Run Rel.Fits bumpMalloc s _ _ := .put keyOne fourBytes .append
    (.start (create_holds (fun _ => 0) false false))
    ⟨show pageItems * tupleSize [1] [5, 6, 7, 8] < 2 ^ 32 by decide, fun h => by cases h⟩ hput hlast
  have run := Run.current twoBytes run (by
    intro a ha b hb
    cases ha
    rw [hb] at hitem
    rw [hkey, Option.some.inj hitem]
    decide) (slot_mem List.mem_cons_self)
  refine ⟨_, run, fun out => ?_⟩
  exact (tuples_isolated bumpMalloc_sound run).1 ⟨4096, [1], [9, 9]⟩ List.mem_cons_self
    (by decide) (by decide) out

def threePuts : Except Fault (List (Option Nat) × Option (List Byte × List Byte)) := do
  let s₁ ← imRelPut bumpMalloc emptyRel keyOne noData .append
  let s₂ ← imRelPut bumpMalloc s₁ keyTwo fourBytes .append
  let s₃ ← imRelPut bumpMalloc s₂ keyOne noData .append
  return ([s₁.last, s₂.last, s₃.last], readTuple s₃.mem (fun _ => 0) 4169)

/-- The third tuple has overwritten the data of the second one. -/
theorem longTuple_overwritten : ∃ s l, Run (fun _ _ => True) bumpMalloc s l [] ∧
    ∃ e ∈ l, e.key.length ≤ returnSize ∧ e.data.length + 4 ≤ returnSize ∧
      readTuple s.mem (fun _ => 0) e.slot ≠ some (e.key, e.data) := by
  have hrun : threePuts =
      .ok ([some 4096, some 4169, some 4242], some ([2], [210, 16, 0, 0])) := by decide +kernel
  obtain ⟨s₁, hput₁, hrun⟩ := bind_eq_ok hrun
  obtain ⟨s₂, hput₂, hrun⟩ := bind_eq_ok hrun
  obtain ⟨s₃, hput₃, hout⟩ := bind_eq_ok hrun
  simp only [pure, Except.pure, Except.ok.injEq, Prod.mk.injEq, List.cons.injEq] at hout
  obtain ⟨⟨h₁, h₂, h₃, -⟩, hread⟩ := hout
  have run : Run (fun _ _ => True) bumpMalloc s₁ _ _ := .put keyOne noData .append
    (.start (create_holds (fun _ => 0) false false)) trivial hput₁ h₁
  have run := Run.put keyTwo fourBytes .append run trivial hput₂ h₂
  have run := Run.put keyOne noData .append run trivial hput₃ h₃
  refine ⟨s₃, _, run, ⟨4169, [2], [5, 6, 7, 8]⟩, by simp [keyTwo, fourBytes], by decide,
    by decide, ?_⟩
  rw [hread]
  decide

end Raw
end StreamMill.ImDb
