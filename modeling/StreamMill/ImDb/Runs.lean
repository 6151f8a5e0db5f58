import StreamMill.ImDb.CursorDel

/-!
# StreamMill.ImDb.Runs

Runs of a relation and its cursors. `Run` keeps, beside the state, the entries that were put and
not removed, in the order of their puts; `run_holds` says that the relation holds exactly these.
-/

namespace StreamMill.ImDb

open Lib

variable {n : Nat} {δ : Type} {s s' : Rel n δ} {l : List (Entry n δ)}

theorem Rel.Holds.hashFind (h : s.Holds l) {ht : HashControl (KeyPtr n) Addr}
    (hht : s.hidx = some ht) (key : Key n) :
    ∃ ht', s.hashFind ht key = .ok ({ s with hidx := some ht' }, (chainOf l key.val).head?) ∧
      ({ s with hidx := some ht' } : Rel n δ).Holds l := by
  have hindex := h.index ht hht
  obtain ⟨ht', hfind, hr⟩ := hashFind_ok hindex.table (.caller key)
  refine ⟨ht', ?_, ⟨h.toListed.reindexed ⟨fun _ => rfl, fun _ => rfl, fun _ => rfl, rfl, rfl, rfl,
    rfl, rfl⟩, ?_⟩⟩
  · rw [Rel.hashFind, hfind, bytes_caller]
    have hmap : (indexOf l key.val).map Prod.snd = (chainOf l key.val).head? := by
      rw [indexOf]
      cases (chainOf l key.val).head? <;> rfl
    rw [hmap]
    rfl
  · intro ht'' hht''
    cases hht''
    exact ⟨hr, hindex.chains⟩

theorem Rel.Holds.hchain_mem (h : s.Holds l) (hidx : s.hidx ≠ none) {a b : Addr}
    (ha : a ∈ slots l) (hb : s.hchain a = some b) : b ∈ slots l := by
  obtain ⟨ht, hht⟩ := Option.ne_none_iff_exists'.mp hidx
  obtain ⟨e, he, rfl⟩ := mem_slots.mp ha
  have hchain := (h.index ht hht).chains e.key.val
  exact chainOf_sub (hchain.step_mem (mem_chainOf.mpr ⟨e, he, rfl, rfl⟩) hb)

theorem stepBefore_of {nx : Addr → Addr} {head a b : Addr} {P : Addr → Prop}
    (hnx : P (nx a)) (h : stepBefore nx head a = some b) : P b := by
  rw [stepBefore] at h
  split at h
  · cases h
  · cases h
    exact hnx

def GetFlags.from (c : Cursor) : GetFlags → Option Addr
  | .next => c.cur
  | .current => c.cur
  | .prev => c.nextaccess
  | .nextDup => c.nextaccess
  | _ => none

structure Moved (s s' : Rel n δ) (l : List (Entry n δ)) (c' : Cursor) (ok : Prop) : Prop where
  holds : s'.Holds l
  mem : s'.mem = s.mem
  oid : s'.oid = s.oid
  hidx : s'.hidx.isSome = s.hidx.isSome
  listed : ok → ∀ a, c'.cur = some a → a ∈ slots l

theorem Rel.Holds.next_mem (h : s.Holds l) {a : Addr} (ha : a ∈ slots l) : s.next a ∈ slots l :=
  (h.ring.closed ha).1

theorem Rel.Holds.prev_mem (h : s.Holds l) {a : Addr} (ha : a ∈ slots l) : s.prev a ∈ slots l :=
  (h.ring.closed ha).2

/-- What a get does: it leaves the relation, but for the index, and when the links and the index
lead from addresses with `P` to such addresses it ends at one. -/
theorem cursorMove_inv [DecidableEq δ] {P : Addr → Prop} {c c' : Cursor} {head : Addr}
    {key : Key n} {data : δ} {flags : GetFlags} (hh : P head)
    (hnext : ∀ a, P a → P (s.next a)) (hprev : ∀ a, P a → P (s.prev a))
    (hchain : s.hidx ≠ none → ∀ a b, P a → s.hchain a = some b → P b)
    (hfind : ∀ ht, s.hidx = some ht → ∃ ht' o, (∀ b, o = some b → P b) ∧
      s.hashFind ht key = .ok ({ s with hidx := some ht' }, o))
    (hrun : s.cursorMove c head key data flags = .ok (s', c')) :
    (s' = s ∨ ∃ ht o, s.hidx = some ht ∧ s.hashFind ht key = .ok (s', o)) ∧
      ((∀ a, flags.from c = some a → P a) → (∀ a, c'.cur = some a → P a) ∧
        (c' = c ∨ ∀ a, c'.nextaccess = some a → P a)) := by
  have hlist : ∀ a b, P a → s.listNext head a = some b → P b :=
    fun a b ha hb => stepBefore_of (hnext a ha) hb
  have hback : ∀ a b, P a → stepBefore s.prev (s.prev head) a = some b → P b :=
    fun a b ha hb => stepBefore_of (hprev a ha) hb
  have haccess : ∀ a b, P a → s.prevAccess head a = some b → P b := by
    intro a b ha hb
    rw [Rel.prevAccess] at hb
    split at hb
    · cases hb
    · cases hb
      exact hprev a ha
  have hstart : ∀ b, some head = some b → P b := fun b hb => Option.some.inj hb ▸ hh
  -- a walk, and the step from where it ends
  have hends {skip : Addr → Bool} {step access : Addr → Option Addr} {fuel : Nat}
      {o cur : Option Addr} (hwalk : walk Fault.loop skip step fuel o = .ok cur)
      (hstep : ∀ a b, P a → step a = some b → P b)
      (hacc : ∀ a b, P a → access a = some b → P b) (ho : ∀ b, o = some b → P b) :
      (∀ a, cur = some a → P a) ∧ ((⟨cur, cur.bind access⟩ : Cursor) = c ∨
        ∀ a, cur.bind access = some a → P a) := by
    have hcur : ∀ a, cur = some a → P a := by
      rintro a rfl
      exact walk_inv ho hstep hwalk
    refine ⟨hcur, .inr fun a ha => ?_⟩
    obtain ⟨b, hb, hab⟩ := Option.bind_eq_some_iff.mp ha
    exact hacc b a (hcur b hb) hab
  have hseek {o cur : Option Addr} (hs : s.seekKey head key o = .ok cur)
      (ho : ∀ b, o = some b → P b) :
      (∀ a, cur = some a → P a) ∧ ((⟨cur, cur.bind (s.listNext head)⟩ : Cursor) = c ∨
        ∀ a, cur.bind (s.listNext head) = some a → P a) := by
    obtain ⟨r, hwalk, hs⟩ := bind_eq_ok hs
    cases r with
    | none => cases hs
    | some b =>
      cases hs
      exact hends hwalk hlist hlist ho
  cases flags with
  | first =>
    obtain ⟨cur, hwalk, hrun⟩ := bind_eq_ok hrun
    cases hrun
    exact ⟨.inl rfl, fun _ => hends hwalk hlist hlist hstart⟩
  | next =>
    obtain ⟨cur, hwalk, hrun⟩ := bind_eq_ok hrun
    cases hrun
    refine ⟨.inl rfl, fun hfrom => hends hwalk hlist hlist fun b hb => ?_⟩
    cases hc : c.cur with
    | none =>
      rw [hc] at hb
      exact hstart b hb
    | some d =>
      rw [hc] at hb
      exact hlist d b (hfrom d hc) hb
  | last =>
    obtain ⟨cur, hwalk, hrun⟩ := bind_eq_ok hrun
    cases hrun
    exact ⟨.inl rfl, fun _ => hends hwalk hback haccess
      fun b hb => Option.some.inj hb ▸ hprev head hh⟩
  | prev =>
    obtain ⟨cur, hwalk, hrun⟩ := bind_eq_ok hrun
    cases hrun
    exact ⟨.inl rfl, hends hwalk hback haccess⟩
  | current =>
    simp only [Rel.cursorMove] at hrun
    split at hrun
    · cases hrun
    · cases hrun
      exact ⟨.inl rfl, fun hfrom => ⟨hfrom, .inl rfl⟩⟩
  | set =>
    simp only [Rel.cursorMove] at hrun
    split at hrun
    · next ht hht =>
      have hlink := hchain (by simp [hht])
      obtain ⟨ht', o, ho, hf⟩ := hfind ht hht
      rw [hf, ok_bind] at hrun
      obtain ⟨cur, hwalk, hrun⟩ := bind_eq_ok hrun
      cases hrun
      exact ⟨.inr ⟨ht, o, hht, hf⟩, fun _ => hends hwalk hlink hlink ho⟩
    · obtain ⟨cur, hwalk, hrun⟩ := bind_eq_ok hrun
      cases hrun
      exact ⟨.inl rfl, fun _ => hseek hwalk hstart⟩
  | getBoth =>
    simp only [Rel.cursorMove] at hrun
    split at hrun
    · next ht hht =>
      have hlink := hchain (by simp [hht])
      obtain ⟨ht', o, ho, hf⟩ := hfind ht hht
      rw [hf, ok_bind] at hrun
      obtain ⟨cur, hwalk, hrun⟩ := bind_eq_ok hrun
      cases hrun
      exact ⟨.inr ⟨ht, o, hht, hf⟩, fun _ => hends hwalk hlink hlink ho⟩
    · obtain ⟨cur, hwalk, hrun⟩ := bind_eq_ok hrun
      cases hrun
      exact ⟨.inl rfl, fun _ => hends hwalk hlist hlist hstart⟩
  | nextDup =>
    simp only [Rel.cursorMove] at hrun
    split at hrun
    · next ht hht =>
      have hlink := hchain (by simp [hht])
      obtain ⟨cur, hwalk, hrun⟩ := bind_eq_ok hrun
      cases hrun
      exact ⟨.inl rfl, hends hwalk hlink hlink⟩
    · obtain ⟨cur, hwalk, hrun⟩ := bind_eq_ok hrun
      cases hrun
      exact ⟨.inl rfl, hseek hwalk⟩

theorem cursorMove_moved [DecidableEq δ] (h : s.Holds l) {c c' : Cursor} {head : Addr}
    (hhead : s.head = some head) {key : Key n} {data : δ} {flags : GetFlags}
    (hrun : s.cursorMove c head key data flags = .ok (s', c')) :
    Moved s s' l c' (∀ a, flags.from c = some a → a ∈ slots l) := by
  have hh : head ∈ slots l := by
    rw [h.head] at hhead
    exact List.mem_of_head? hhead
  have hfind : ∀ ht, s.hidx = some ht → ∃ ht' o, (∀ b, o = some b → b ∈ slots l) ∧
      s.hashFind ht key = .ok ({ s with hidx := some ht' }, o) := fun ht hht =>
    have ⟨ht', hf, _⟩ := h.hashFind hht key
    ⟨ht', _, fun b hb => chainOf_sub (List.mem_of_head? hb), hf⟩
  obtain ⟨hs', hmoved⟩ := cursorMove_inv hh (fun a => h.next_mem) (fun a => h.prev_mem)
    (fun hidx a b => h.hchain_mem hidx) hfind hrun
  rcases hs' with rfl | ⟨ht, o, hht, hf⟩
  · exact ⟨h, rfl, rfl, rfl, fun hfrom => (hmoved hfrom).1⟩
  · obtain ⟨ht', hfind, h'⟩ := h.hashFind hht key
    rw [hfind] at hf
    cases hf
    exact ⟨h', rfl, rfl, by rw [hht]; rfl, fun hfrom => (hmoved hfrom).1⟩

theorem imRelCursorGet_moved [DecidableEq δ] (h : s.Holds l) {c c' : Cursor} {key : Key n}
    {data : δ} {flags : GetFlags} {found : Option (Key n × δ × Addr)}
    (hrun : imRelCursorGet s c key data flags = .ok (s', c', found)) :
    s'.Holds l ∧ s'.mem = s.mem ∧ s'.oid = s.oid ∧ s'.hidx.isSome = s.hidx.isSome ∧
      ((∀ a, flags.from c = some a → a ∈ slots l) →
        ∀ r, found = some r → ∃ a ∈ slots l, c'.cur = some a) := by
  rw [imRelCursorGet] at hrun
  split at hrun
  · cases hrun
    exact ⟨h, rfl, rfl, rfl, fun _ r hr => by cases hr⟩
  · next head hhead =>
    obtain ⟨⟨s₁, c₁⟩, hmove, hrun⟩ := bind_eq_ok hrun
    cases hrun
    obtain ⟨h1, h2, h3, h4, h5⟩ := cursorMove_moved h hhead hmove
    refine ⟨h1, h2, h3, h4, fun hfrom r hr => ?_⟩
    obtain ⟨a, ha, -⟩ := Option.map_eq_some_iff.mp hr
    exact ⟨a, h5 hfrom a ha, ha⟩

/-- `im_rel_cursor_put` on the entries. -/
def afterPut (l : List (Entry n δ)) (cur : Option Addr) (data : δ) : List (Entry n δ) :=
  l.map fun e => if some e.slot = cur then { e with data } else e

theorem slots_afterPut (l : List (Entry n δ)) (cur : Option Addr) (data : δ) :
    slots (afterPut l cur data) = slots l := by
  rw [slots, afterPut, List.map_map]
  refine List.map_congr_left fun e _ => ?_
  simp only [Function.comp_apply]
  split <;> rfl

theorem chainOf_afterPut (l : List (Entry n δ)) (cur : Option Addr) (data : δ) (k : List Byte) :
    chainOf (afterPut l cur data) k = chainOf l k := by
  induction l with
  | nil => rfl
  | cons e l ih =>
    have hcons : afterPut (e :: l) cur data =
        (if some e.slot = cur then { e with data } else e) :: afterPut l cur data := rfl
    rw [hcons, chainOf_cons, chainOf_cons, ih]
    split <;> rfl

theorem imRelCursorPut_holds (h : s.Holds l) (c : Cursor) (data : δ) :
    (imRelCursorPut s c data).1.Holds (afterPut l c.cur data) := by
  rw [imRelCursorPut]
  cases hc : c.cur with
  | none =>
    have hl : afterPut l none data = l := by simp [afterPut]
    rw [hl]
    exact h
  | some a =>
    change (s.modify a fun t => { t with data := data }).Holds _
    generalize hs : s.modify a (fun t => { t with data := data }) = s'
    have hf {β : Type} (g : Tuple n δ → β) (hg : ∀ t, g { t with data } = g t) (c : Addr) :
        g (s'.mem c) = g (s.mem c) := by
      rw [← hs]
      exact modify_field g hg a c
    have hchain : chainOf (afterPut l (some a) data) = chainOf l :=
      funext (chainOf_afterPut l (some a) data)
    have hnx : s'.next = s.next := funext (hf Tuple.next fun _ => rfl)
    have hpv : s'.prev = s.prev := funext (hf Tuple.prev fun _ => rfl)
    refine ⟨⟨?_, ?_, ?_, ?_, ?_, ?_⟩, ?_⟩
    · rw [slots_afterPut]
      exact h.nodup
    · rw [slots_afterPut, ← hs]
      exact h.head
    · rw [slots_afterPut, hnx, hpv]
      exact h.ring
    · intro e' he'
      obtain ⟨e, he, rfl⟩ := List.mem_map.mp he'
      obtain ⟨h1, h2, h3⟩ := h.stored e he
      by_cases hea : e.slot = a
      · subst hea
        rw [if_pos rfl]
        refine ⟨(hf Tuple.key (fun _ => rfl) _).trans h1, ?_,
          (hf Tuple.deleted (fun _ => rfl) _).trans h3⟩
        rw [← hs, modify_self]
      · rw [if_neg (by simpa using hea)]
        refine ⟨(hf Tuple.key (fun _ => rfl) _).trans h1, ?_,
          (hf Tuple.deleted (fun _ => rfl) _).trans h3⟩
        rw [← hs, modify_ne _ hea, h2]
    · rw [slots_afterPut, ← hs]
      exact h.alloc
    · intro ho e' he'
      obtain ⟨e, he, rfl⟩ := List.mem_map.mp he'
      rw [← hs] at ho
      have hd := h.value ho e he
      split
      · exact hd
      · exact hd
    · intro ht hht
      rw [← hs] at hht
      have hindexed : Indexed s' ht l := (h.index ht hht).congr
        (fun b _ => hf _ (fun _ => rfl) b) fun b _ => hf Tuple.hchain (fun _ => rfl) b
      have hidx : indexOf (afterPut l (some a) data) = indexOf l := by
        funext k
        rw [indexOf, indexOf, hchain]
      refine ⟨?_, ?_⟩
      · rw [hidx]
        exact hindexed.table
      · rw [hchain]
        exact hindexed.chains

theorem Rel.Listed.live_iff (h : s.Listed l) {e : Entry n δ} (he : e ∈ l) :
    s.live e.slot = !e.deleted := by
  rw [Rel.live, (h.stored e he).2.2]
  cases ho : s.oid with
  | true => rfl
  | false => rw [h.value ho e he]; rfl

theorem Rel.Listed.keyIs_iff (h : s.Listed l) {e : Entry n δ} (he : e ∈ l) (key : Key n) :
    s.keyIs key e.slot = decide (e.key = key) := by
  rw [Rel.keyIs, (h.stored e he).1]

theorem overwritten_ok (h : s.Holds l) (key : Key n) :
    ∃ r, s.overwritten key = .ok r ∧
      ((∀ e ∈ l, e.deleted = false → e.key ≠ key) → r = none) := by
  rw [Rel.overwritten]
  cases hhead : s.head with
  | none => exact ⟨none, rfl, fun _ => rfl⟩
  | some head =>
    have hh := h.head
    rw [hhead] at hh
    have hne : slots l ≠ [] := fun he => by rw [he] at hh; cases hh
    obtain ⟨zs, z, hzs⟩ := List.eq_nil_or_concat (slots l) |>.resolve_left hne
    rw [List.concat_eq_append] at hzs
    have hlast : s.prev head = z := by
      cases hl : slots l with
      | nil => exact absurd hl hne
      | cons a xs =>
        rw [hl] at hh hzs
        cases hh
        have hring := h.ring
        rw [hl] at hring
        have hz : last id head (head :: xs) = z := by rw [hzs, last_concat]; rfl
        rw [hring.ends.1, ← hz]
        rfl
    have hring := h.ring head
    have hnd := h.nodup
    have hlen := h.length_le
    rw [hzs] at hring hnd hlen
    have hpath := hring.path_until fun hm => (List.nodup_append.mp hnd).2.2 z hm z (by simp) rfl
    have hwalk := walk_path Fault.loop (fun a => !(s.live a && s.keyIs key a))
      hpath hlen
    rw [← hzs, ← hh] at hwalk
    rw [← hlast] at hwalk
    refine ⟨_, hwalk, fun hno => ?_⟩
    rw [List.dropWhile_eq_nil_iff.mpr, List.head?_nil]
    intro a ha
    obtain ⟨e, he, rfl⟩ := mem_slots.mp ha
    rw [h.live_iff he, h.keyIs_iff he]
    cases hd : e.deleted with
    | true => rfl
    | false => simp [hno e he hd]

theorem imRelPut_holds (h : s.Holds l) {key : Key n} {data : δ} {flags : PutFlags}
    (hrun : imRelPut s key data flags = .ok s') :
    s'.Holds (l ++ [⟨newSlot s, key, data, false⟩]) ∧ s'.oid = s.oid ∧
      s'.hidx.isSome = s.hidx.isSome := by
  obtain ⟨r, -, hrun⟩ := bind_eq_ok hrun
  cases r with
  | some a => cases hrun
  | none =>
    obtain ⟨s₁, hput, hs₁, -⟩ := putLast_holds h key data
    rw [hput] at hrun
    cases hrun
    exact hs₁

theorem imRelPut_ok (h : s.Holds l) (key : Key n) (data : δ) (flags : PutFlags)
    (hflags : flags = .overwrite → ∀ e ∈ l, e.deleted = false → e.key ≠ key) :
    ∃ s', imRelPut s key data flags = .ok s' := by
  obtain ⟨s', hput, -⟩ := putLast_holds h key data
  refine ⟨s', ?_⟩
  cases flags with
  | append => exact hput
  | overwrite =>
    obtain ⟨r, hr, hnone⟩ := overwritten_ok h key
    rw [imRelPut, hr, hnone (hflags rfl)]
    exact hput

structure Sys (n : Nat) (δ : Type) where
  rel : Rel n δ
  cursors : Nat → Cursor

inductive Run [DecidableEq δ] (mem : Addr → Tuple n δ) (oid indexed : Bool) :
    Sys n δ → List (Entry n δ) → Prop where
  | create : Run mem oid indexed ⟨imRelCreate mem oid indexed, fun _ => imRelCursor⟩ []
  | put {s : Sys n δ} {l : List (Entry n δ)} (key : Key n) (data : δ) (flags : PutFlags)
      {r : Rel n δ} (run : Run mem oid indexed s l)
      (hput : imRelPut s.rel key data flags = .ok r) :
      Run mem oid indexed { s with rel := r } (l ++ [⟨newSlot s.rel, key, data, false⟩])
  | cursor {s : Sys n δ} {l : List (Entry n δ)} (i : Nat) (run : Run mem oid indexed s l) :
      Run mem oid indexed { s with cursors := Function.update s.cursors i imRelCursor } l
  | get {s : Sys n δ} {l : List (Entry n δ)} (i : Nat) (key : Key n) (data : δ)
      (flags : GetFlags) {r : Rel n δ} {c : Cursor} {found : Option (Key n × δ × Addr)}
      (run : Run mem oid indexed s l)
      (hget : imRelCursorGet s.rel (s.cursors i) key data flags = .ok (r, c, found)) :
      Run mem oid indexed { rel := r, cursors := Function.update s.cursors i c } l
  | cursorPut {s : Sys n δ} {l : List (Entry n δ)} (i : Nat) (data : δ)
      (run : Run mem oid indexed s l) :
      Run mem oid indexed { s with rel := (imRelCursorPut s.rel (s.cursors i) data).1 }
        (afterPut l (s.cursors i).cur data)
  | del {s : Sys n δ} {l : List (Entry n δ)} (i : Nat) {a : Addr} {r : Rel n δ} {c : Cursor}
      {found : Bool} (run : Run mem oid indexed s l) (hcur : (s.cursors i).cur = some a)
      (hlisted : a ∈ slots l) (hdel : imRelCursorDel s.rel (s.cursors i) = .ok (r, c, found)) :
      Run mem oid indexed { rel := r, cursors := Function.update s.cursors i c }
        (afterDel oid l a)

theorem run_kept [DecidableEq δ] {mem : Addr → Tuple n δ} {oid indexed : Bool}
    {s : Sys n δ} (run : Run mem oid indexed s l) :
    s.rel.Holds l ∧ s.rel.oid = oid ∧ s.rel.hidx.isSome = indexed := by
  induction run with
  | create =>
    refine ⟨imRelCreate_holds mem oid indexed, rfl, ?_⟩
    cases indexed <;> rfl
  | put key data flags run hput ih =>
    obtain ⟨h, ho, hi⟩ := ih
    obtain ⟨h', ho', hi'⟩ := imRelPut_holds h hput
    exact ⟨h', ho'.trans ho, hi'.trans hi⟩
  | cursor i run ih => exact ih
  | get i key data flags run hget ih =>
    obtain ⟨h, ho, hi⟩ := ih
    obtain ⟨h', -, ho', hi', -⟩ := imRelCursorGet_moved h hget
    exact ⟨h', ho'.trans ho, hi'.trans hi⟩
  | @cursorPut s l i data run ih =>
    obtain ⟨h, ho, hi⟩ := ih
    refine ⟨imRelCursorPut_holds h _ data, ?_⟩
    dsimp only [imRelCursorPut]
    cases (s.cursors i).cur with
    | none => exact ⟨ho, hi⟩
    | some a => exact ⟨ho, hi⟩
  | del i run hcur hlisted hdel ih =>
    obtain ⟨h, ho, hi⟩ := ih
    obtain ⟨s', c', hrun, h', ho', hi'⟩ := imRelCursorDel_holds h hcur hlisted
    rw [hrun] at hdel
    cases hdel
    rw [ho] at h'
    exact ⟨h', ho'.trans ho, hi'.trans hi⟩

/-- In every run the relation holds exactly the entries put and not removed, in the order of their
puts, and the index finds for each key its chain; and the operations return. -/
theorem run_holds [DecidableEq δ] {mem : Addr → Tuple n δ} {oid indexed : Bool} {s : Sys n δ}
    (run : Run mem oid indexed s l) :
    s.rel.Holds l ∧ s.rel.oid = oid ∧ s.rel.hidx.isSome = indexed ∧
      (∀ ht, s.rel.hidx = some ht → ∀ key, ∃ r,
        s.rel.hashFind ht key = .ok (r, (chainOf l key.val).head?)) ∧
      (∀ key data flags, (flags = .overwrite → ∀ e ∈ l, e.deleted = false → e.key ≠ key) →
        ∃ r, imRelPut s.rel key data flags = .ok r) ∧
      (∀ i a, (s.cursors i).cur = some a → a ∈ slots l →
        ∃ r c, imRelCursorDel s.rel (s.cursors i) = .ok (r, c, true)) ∧
      (∀ i key data flags r c e, imRelCursorGet s.rel (s.cursors i) key data flags =
        .ok (r, c, some e) → (∀ a, flags.from (s.cursors i) = some a → a ∈ slots l) →
        ∃ a ∈ slots l, c.cur = some a) := by
  obtain ⟨h, ho, hi⟩ := run_kept run
  refine ⟨h, ho, hi, ?_, ?_, ?_, ?_⟩
  · intro ht hht key
    obtain ⟨ht', hfind, -⟩ := h.hashFind hht key
    exact ⟨_, hfind⟩
  · exact fun key data flags hflags => imRelPut_ok h key data flags hflags
  · intro i a hcur ha
    obtain ⟨r, c, hdel, -⟩ := imRelCursorDel_holds h hcur ha
    exact ⟨r, c, hdel⟩
  · intro i key data flags r c e hget hfrom
    obtain ⟨-, -, -, -, hpos⟩ := imRelCursorGet_moved h hget
    exact hpos hfrom e rfl

def keySeven : Key 1 := ⟨[7], rfl⟩

def blankTuples : Addr → Tuple 1 Nat := fun _ => ⟨keySeven, 0, false, 0, 0, none⟩

theorem tombstoneRun : ∃ s, Run blankTuples true true s [⟨0, keySeven, 5, true⟩] :=
  ⟨_, .del 0 (a := 0) (.get 0 keySeven 0 .first (.put keySeven 5 .append .create rfl) rfl) rfl
    (by decide) rfl⟩

theorem run_holds_tombstone : ∃ s, Run blankTuples true true s [⟨0, keySeven, 5, true⟩] ∧
    s.rel.Holds [⟨0, keySeven, 5, true⟩] := by
  obtain ⟨s, run⟩ := tombstoneRun
  exact ⟨s, run, (run_holds run).1⟩

/-- The index still finds the key of a tuple with a tombstone, though no live tuple has it. -/
theorem tombstone_still_indexed : ∃ s l ht r, Run blankTuples true true s l ∧
    (∀ e ∈ l, e.deleted = true) ∧ s.rel.hidx = some ht ∧
    s.rel.hashFind ht keySeven = .ok (r, some 0) := by
  obtain ⟨s, run⟩ := tombstoneRun
  obtain ⟨h, -, hi⟩ := run_kept run
  obtain ⟨ht, hht⟩ := Option.isSome_iff_exists.mp hi
  obtain ⟨ht', hfind, -⟩ := h.hashFind hht keySeven
  exact ⟨s, _, ht, _, run, by decide, hht, hfind⟩

end StreamMill.ImDb
