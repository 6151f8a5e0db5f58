import StreamMill.ImDb.ScanDel

/-!
# StreamMill.ImDb.BackScan

The scan backwards: `DB_LAST`, then `DB_PREV` until `DB_NOTFOUND`. Both leave in `nextaccess` the
tuple that comes next, or `NULL` when the tuple behind the cursor is the last one of the list, where
it should be when the cursor is on the first one. So the scan stops at the last tuple but one, and
if that is deleted it does not stop at the first tuple but starts again (`scansBack_iff`).
-/

namespace StreamMill.ImDb

open Lib

variable {n : Nat} {δ : Type} {s : Rel n δ} {l ks rest pre post : List (Entry n δ)} {e : Entry n δ}
  {c : Cursor} {head : Addr}

def scanBack [DecidableEq δ] (key : Key n) (data : δ) :
    Nat → GetFlags → Rel n δ → Cursor → Except Fault (List (Key n × δ × Addr))
  | 0, _, _, _ => .error .loop
  | fuel + 1, flags, s, c => do
    let (s, c, found) ← imRelCursorGet s c key data flags
    match found with
    | none => return []
    | some t =>
      let ts ← scanBack key data fuel .prev s c
      return t :: ts

/-- The scan visits every live tuple once, from the last one put to the first, and ends. -/
def ScansBack [DecidableEq δ] (s : Rel n δ) (l : List (Entry n δ)) : Prop :=
  ∀ key data c, ∃ fuel, scanBack key data fuel .last s c =
    .ok ((liveEntries l).reverse.map Entry.found)

/-- Only the last two tuples may be live, or the first one and the last but one are deleted. -/
def BackSafe (l : List (Entry n δ)) : Prop :=
  liveEntries l.dropLast.dropLast = [] ∨
    (∀ e ∈ l.head?, e.deleted = true) ∧ ∀ e ∈ l.dropLast.getLast?, e.deleted = true

theorem liveEntries_reverse (l : List (Entry n δ)) :
    liveEntries l.reverse = (liveEntries l).reverse := List.filter_reverse

theorem slots_reverse (l : List (Entry n δ)) : slots l.reverse = (slots l).reverse :=
  List.map_reverse

theorem Rel.Listed.back_ring (h : s.Listed l) (hl : l.reverse = rest) :
    Ring s.prev s.next (slots rest) := by
  rw [← hl, slots_reverse]
  exact h.ring.reverse

theorem Rel.Listed.back_nodup (h : s.Listed l) (hl : l.reverse = rest) : (slots rest).Nodup := by
  rw [← hl, slots_reverse, List.nodup_reverse]
  exact h.nodup

theorem Rel.Listed.back_head (h : s.Listed l) (hl : l.reverse = rest) (hhead : s.head = some head) :
    (slots rest).head? = some (s.prev head) := by
  cases l with
  | nil =>
    rw [h.head] at hhead
    cases hhead
  | cons a l =>
    rw [h.head] at hhead
    cases hhead
    have hprev : s.prev a.slot = last id a.slot (slots l) := h.ring.ends.1
    rw [← hl, slots_reverse, slots_cons, List.reverse_cons]
    rw [hprev, ← first_reverse]
    cases (slots l).reverse <;> rfl

theorem Rel.Listed.back_path (h : s.Listed l) (hl : l.reverse = ks ++ rest)
    (hhead : s.head = some head) :
    Path (stepBefore s.prev (s.prev head)) (slots rest).head? (slots rest) := by
  cases rest with
  | nil => rfl
  | cons e rest =>
    have hring := h.back_ring hl
    have hnd := h.back_nodup hl
    have hh := h.back_head hl hhead
    rw [slots_middle] at hring hnd hh
    exact hring.path hnd hh

/-- `nextaccess` after a get: `NULL` on the last tuple but one and on the only one; behind the first
tuple, the last one again. -/
theorem Rel.Listed.prevAccess_eq (h : s.Listed l) (hl : l.reverse = pre ++ e :: post)
    (hhead : s.head = some head) :
    s.prevAccess head e.slot =
      if pre.length = 1 ∨ pre ++ post = [] then none else (slots (post ++ pre)).head? := by
  have hring := h.back_ring hl
  have hnd := h.back_nodup hl
  have hh := h.back_head hl hhead
  rw [slots_middle] at hring hnd hh
  have hrot : Ring s.prev s.next (e.slot :: (slots post ++ slots pre)) := hring.rotate
  obtain ⟨hnext, hprev⟩ := hrot.ends
  have hend : s.next e.slot = s.prev head ↔ pre.length = 1 ∨ pre ++ post = [] := by
    rw [hnext]
    cases pre with
    | nil =>
      have hh : e.slot = s.prev head := Option.some.inj hh
      rw [← hh]
      cases post with
      | nil => simp
      | cons x post =>
        have hne : e.slot ∉ slots (x :: post) := (List.nodup_cons.mp hnd).1
        have hlast : last id e.slot (slots (x :: post)) ∈ slots (x :: post) := by
          exact last_mem x.slot (slots post)
        simpa using fun heq : last id e.slot (slots (x :: post)) = e.slot => hne (heq ▸ hlast)
    | cons x pre =>
      have hh : x.slot = s.prev head := Option.some.inj hh
      rw [← hh, last_append]
      cases pre with
      | nil => simp
      | cons y pre =>
        have hne : x.slot ∉ slots (y :: pre) := fun hm =>
          (List.nodup_cons.mp hnd).1 (List.mem_append_left _ hm)
        have hlast : last id x.slot (slots (y :: pre)) ∈ slots (y :: pre) := by
          exact last_mem y.slot (slots pre)
        simpa using fun heq : last id x.slot (slots (y :: pre)) = x.slot => hne (heq ▸ hlast)
  rw [Rel.prevAccess, hprev]
  by_cases hstop : pre.length = 1 ∨ pre ++ post = []
  · rw [if_pos (hend.mpr hstop), if_pos hstop]
  · rw [if_neg fun heq => hstop (hend.mp heq), if_neg hstop, slots_append]
    cases hps : slots post ++ slots pre with
    | nil =>
      obtain ⟨hpost, hpre⟩ := List.append_eq_nil_iff.mp hps
      have hnil : pre ++ post = [] := by
        rw [List.map_eq_nil_iff.mp hpost, List.map_eq_nil_iff.mp hpre, List.append_nil]
      exact absurd (.inr hnil) hstop
    | cons x xs => rfl

section

variable [DecidableEq δ]

theorem prev_eq (h : s.Listed l) (hl : l.reverse = ks ++ rest)
    (hc : c.nextaccess = (slots rest).head?) (hhead : s.head = some head) (key : Key n) (data : δ) :
    imRelCursorGet s c key data .prev =
      .ok (s, { cur := (liveEntries rest).head?.map Entry.slot,
                nextaccess := ((liveEntries rest).head?.map Entry.slot).bind (s.prevAccess head) },
        (liveEntries rest).head?.map Entry.found) := by
  have hmem : ∀ e ∈ rest, e ∈ l := fun e he =>
    List.mem_reverse.mp (hl ▸ List.mem_append_right ks he)
  have hlen : (slots rest).length ≤ s.fuel := by
    have hle := h.length_le
    rw [← List.length_reverse, ← slots_reverse, hl, slots_append, List.length_append] at hle
    omega
  have hwalk := walk_path Fault.loop (fun a => !s.live a) (h.back_path hl hhead) hlen
  have hskip : ∀ e ∈ rest, (!s.live e.slot) = !(!e.deleted) := fun e he => by
    rw [h.live_iff (hmem e he)]
  rw [dropWhile_slots rest hskip, head?_slots rest, head?_slots, head?_dropWhile_deleted,
    ← head?_slots] at hwalk
  simp only [imRelCursorGet, hhead, Rel.cursorMove, Rel.skipDeleted, hc, hwalk, ok_bind]
  cases hlive : (liveEntries rest).head? with
  | none => rfl
  | some e =>
    have he : e ∈ rest := List.mem_of_mem_filter (List.mem_of_head? hlive : e ∈ liveEntries rest)
    have hs := h.stored e (hmem e he)
    simp only [Option.map_some, Entry.found, ← hs.1, ← hs.2.1]
    rfl

theorem scanBack_last (h : s.Listed l) (key : Key n) (data : δ) (fuel : Nat) (c : Cursor) :
    scanBack key data fuel .last s c =
      scanBack key data fuel .prev s { c with nextaccess := (slots l.reverse).head? } := by
  cases fuel with
  | zero => rfl
  | succ fuel =>
    rw [scanBack, scanBack]
    cases hhead : s.head with
    | none =>
      simp [imRelCursorGet, hhead, ok_bind]
    | some head =>
      simp [imRelCursorGet, hhead, Rel.cursorMove, h.back_head rfl hhead]

theorem scanBack_end (h : s.Listed l) (hl : l.reverse = ks ++ rest)
    (hc : c.nextaccess = (slots rest).head?) (hrest : liveEntries rest = []) (key : Key n)
    (data : δ) (fuel : Nat) : scanBack key data (fuel + 1) .prev s c = .ok [] := by
  rw [scanBack]
  cases hhead : s.head with
  | none =>
    simp only [imRelCursorGet, hhead, ok_bind]
    rfl
  | some head =>
    rw [prev_eq h hl hc hhead key data, hrest]
    rfl

theorem scanBack_visit (h : s.Listed l) (hl : l.reverse = (ks ++ pre) ++ e :: post)
    (hc : c.nextaccess = (slots (pre ++ e :: post)).head?) (hpre : liveEntries pre = [])
    (he : e.deleted = false) (key : Key n) (data : δ) (fuel : Nat) :
    scanBack key data (fuel + 1) .prev s c =
      (scanBack key data fuel .prev s ⟨some e.slot,
        if (ks ++ pre).length = 1 ∨ (ks ++ pre) ++ post = [] then none
        else (slots (post ++ (ks ++ pre))).head?⟩).map (e.found :: ·) := by
  obtain ⟨head, hhead⟩ := exists_head h (e := e) (List.mem_reverse.mp (by simp [hl]))
  have hlive : liveEntries (pre ++ e :: post) = e :: liveEntries post := by
    rw [liveEntries_append, hpre, liveEntries, List.filter_cons_of_pos (by simp [he])]
    rfl
  have hsplit : l.reverse = ks ++ (pre ++ e :: post) := by rw [hl, List.append_assoc]
  rw [scanBack, prev_eq h hsplit hc hhead key data, hlive, ← h.prevAccess_eq hl hhead]
  rfl

/-- After every live tuple the scan goes on as it should. -/
def GoesOn (r : List (Entry n δ)) : Prop :=
  ∀ pre e post, r = pre ++ e :: post → e.deleted = false →
    (pre.length = 1 → liveEntries post = []) ∧ (post = [] → pre.length ≤ 1)

theorem scanBack_right (h : s.Listed l) (hl : l.reverse = ks ++ rest)
    (hc : c.nextaccess = (slots rest).head?) (hon : GoesOn l.reverse) (key : Key n) (data : δ)
    {fuel : Nat} (hfuel : (liveEntries rest).length < fuel) :
    scanBack key data fuel .prev s c = .ok ((liveEntries rest).map Entry.found) := by
  induction fuel generalizing ks rest c with
  | zero => cases hfuel
  | succ fuel ih =>
    cases hrest : liveEntries rest with
    | nil => exact scanBack_end h hl hc hrest key data fuel
    | cons e es =>
      obtain ⟨pre, post, rfl, hpre, he, rfl⟩ := liveEntries_eq_cons.mp hrest
      have hsplit : l.reverse = (ks ++ pre) ++ e :: post := by simp [hl]
      obtain ⟨hstop, hfirst⟩ := hon _ e post hsplit he
      rw [hrest] at hfuel
      rw [scanBack_visit h hsplit hc hpre he key data fuel]
      by_cases hnull : (ks ++ pre).length = 1 ∨ (ks ++ pre) ++ post = []
      · have hpost : liveEntries post = [] := hnull.elim hstop fun hnil => by
          rw [(List.append_eq_nil_iff.mp hnil).2]
          rfl
        have hfuel' : 0 < fuel := Nat.zero_lt_of_lt (Nat.lt_of_succ_lt_succ hfuel)
        rw [if_pos hnull, ih (List.append_nil _).symm rfl hfuel', hpost]
        rfl
      · rw [if_neg hnull]
        cases post with
        | nil =>
          have hle := hfirst rfl
          rw [List.append_nil, ← List.length_eq_zero_iff] at hnull
          omega
        | cons x post =>
          rw [ih (by rw [hsplit, List.append_cons]) rfl (Nat.lt_of_succ_lt_succ hfuel)]
          rfl

theorem scanBack_stops (h : s.Listed l) {x : Entry n δ} (hl : l.reverse = x :: e :: rest)
    (he : e.deleted = false) {key : Key n} {data : δ} {fuel : Nat}
    {ts : List (Key n × δ × Addr)} (hrun : scanBack key data fuel .last s c = .ok ts) :
    ts = (liveEntries [x, e]).map Entry.found := by
  have hend (c' : Cursor) (hc' : c'.nextaccess = none) (fuel' : Nat) (ts' : List (Key n × δ × Addr))
      (hrun' : scanBack key data fuel' .prev s c' = .ok ts') : ts' = [] := by
    cases fuel' with
    | zero => cases hrun'
    | succ fuel' =>
      rw [scanBack_end h (List.append_nil _).symm hc' rfl] at hrun'
      exact (Except.ok.inj hrun').symm
  rw [scanBack_last h] at hrun
  cases fuel with
  | zero => cases hrun
  | succ fuel =>
    cases hx : x.deleted with
    | true =>
      have hlx : liveEntries [x] = [] := by simp [liveEntries, hx]
      have hlive : liveEntries [x, e] = [e] := by simp [liveEntries, hx, he]
      have hl' : l.reverse = ([] ++ [x]) ++ e :: rest := hl
      rw [scanBack_visit h hl' (by rw [hl]; rfl) hlx he] at hrun
      obtain ⟨ts', hrest, rfl⟩ := map_eq_ok hrun
      rw [hend _ rfl fuel ts' hrest, hlive]
      rfl
    | false =>
      have hlive : liveEntries [x, e] = [x, e] := by simp [liveEntries, hx, he]
      have hl' : l.reverse = ([] ++ []) ++ x :: e :: rest := hl
      rw [scanBack_visit h hl' (by rw [hl]; rfl) rfl hx] at hrun
      obtain ⟨ts', hrest, rfl⟩ := map_eq_ok hrun
      cases fuel with
      | zero => cases hrest
      | succ fuel =>
        have hl'' : l.reverse = ([x] ++ []) ++ e :: rest := hl
        rw [scanBack_visit h hl'' rfl rfl he] at hrest
        obtain ⟨ts'', hrest', rfl⟩ := map_eq_ok hrest
        rw [hend _ rfl fuel ts'' hrest', hlive]
        rfl

theorem scanBack_endless (h : s.Listed l) (hl : l.head? = some e) (he : e.deleted = false)
    (htwo : 2 ≤ l.length)
    (hsecond : ∀ pre x post, l.reverse = pre ++ x :: post → x.deleted = false → pre.length ≠ 1)
    (hks : l.reverse = ks ++ rest) (hrest : rest ≠ []) (hc : c.nextaccess = (slots rest).head?)
    (key : Key n) (data : δ) (fuel : Nat) (ts : List (Key n × δ × Addr)) :
    scanBack key data fuel .prev s c ≠ .ok ts := by
  intro hrun
  induction fuel generalizing ks rest c ts with
  | zero => cases hrun
  | succ fuel ih =>
    have hmem : e ∈ rest := by
      have hlast : (ks ++ rest).getLast? = some e := by rw [← hks, List.getLast?_reverse, hl]
      rw [List.getLast?_append_of_ne_nil ks hrest] at hlast
      exact List.mem_of_getLast? hlast
    have hlive : liveEntries rest ≠ [] :=
      List.ne_nil_of_mem (List.mem_filter.mpr ⟨hmem, by simp [he]⟩)
    obtain ⟨x, xs, hcons⟩ := List.exists_cons_of_ne_nil hlive
    obtain ⟨pre, post, rfl, hpre, hx, -⟩ := liveEntries_eq_cons.mp hcons
    have hsplit : l.reverse = (ks ++ pre) ++ x :: post := by simp [hks]
    have hlen := congrArg List.length hsplit
    rw [List.length_reverse, List.length_append, List.length_cons] at hlen
    have hne := hsecond _ x post hsplit hx
    rw [scanBack_visit h hsplit hc hpre hx] at hrun
    obtain ⟨ts', hrun, -⟩ := map_eq_ok hrun
    rw [if_neg] at hrun
    · cases post with
      | nil =>
        have hne' : l.reverse ≠ [] := by simp [hks]
        refine ih (List.nil_append l.reverse).symm hne' ?_ ts' hrun
        rw [hsplit]
        cases hkp : ks ++ pre with
        | nil =>
          rw [hkp] at hlen
          simp only [List.length_nil] at hlen
          omega
        | cons y ys => rfl
      | cons y ys =>
        have hks' : l.reverse = ((ks ++ pre) ++ [x]) ++ y :: ys := by rw [hsplit, List.append_cons]
        exact ih hks' (List.cons_ne_nil _ _) rfl ts' hrun
    · rw [List.append_eq_nil_iff, ← List.length_eq_zero_iff, ← List.length_eq_zero_iff]
      omega

omit [DecidableEq δ] in
theorem backSafe_iff {x y : Entry n δ} (hl : l.reverse = x :: y :: rest) :
    BackSafe l ↔ liveEntries rest = [] ∨ (∀ e ∈ l.head?, e.deleted = true) ∧ y.deleted = true := by
  have hl' : l = (rest.reverse ++ [y]) ++ [x] := by
    rw [← List.reverse_reverse l, hl]
    simp
  have hlast : l.dropLast.getLast? = some y := by
    rw [hl', List.dropLast_concat, List.getLast?_concat]
  have hfront : l.dropLast.dropLast = rest.reverse := by
    rw [hl', List.dropLast_concat, List.dropLast_concat]
  rw [BackSafe, hlast, hfront, liveEntries_reverse, List.reverse_eq_nil_iff]
  simp

omit [DecidableEq δ] in
theorem BackSafe.goesOn (h : BackSafe l) : GoesOn l.reverse := by
  intro pre e post hl he
  have hhead : post = [] → l.head? = some e := by
    rintro rfl
    rw [← List.getLast?_reverse, hl, List.getLast?_concat]
  rcases pre with _ | ⟨x, _ | ⟨y, pre⟩⟩
  · exact ⟨by simp, fun _ => Nat.zero_le 1⟩
  · refine ⟨fun _ => ?_, fun _ => le_rfl⟩
    obtain hpost | ⟨-, hdel⟩ := (backSafe_iff (x := x) (y := e) hl).mp h
    · exact hpost
    · rw [hdel] at he
      cases he
  · refine ⟨fun h0 => by simp at h0, fun hpost => ?_⟩
    obtain hnone | ⟨hfirst, -⟩ := 
      (backSafe_iff (show l.reverse = x :: y :: (pre ++ e :: post) from hl)).mp h
    · have hmem : e ∈ liveEntries (pre ++ e :: post) := List.mem_filter.mpr ⟨by simp, by simp [he]⟩
      rw [hnone] at hmem
      cases hmem
    · rw [hfirst e (hhead hpost)] at he
      cases he

/-- The scan backwards does what it is for exactly when only the last two tuples may be live, or the
first one and the last but one are deleted. -/
theorem scansBack_iff (h : s.Listed l) : ScansBack s l ↔ BackSafe l := by
  constructor
  · intro hright
    rcases hr : l.reverse with _ | ⟨x, _ | ⟨y, rest⟩⟩
    · rw [List.reverse_eq_nil_iff] at hr
      subst hr
      exact .inl rfl
    · rw [List.reverse_eq_cons_iff] at hr
      subst hr
      exact .inl rfl
    · rw [backSafe_iff hr, or_iff_not_imp_left]
      intro hrest
      obtain ⟨fuel, hrun⟩ := hright x.key x.data imRelCursor
      have hy : y.deleted = true := by
        by_contra hy
        rw [Bool.not_eq_true] at hy
        have hts := scanBack_stops h hr hy hrun
        rw [← liveEntries_reverse, hr] at hts
        have hsplit : liveEntries (x :: y :: rest) = liveEntries [x, y] ++ liveEntries rest :=
          liveEntries_append [x, y] rest
        rw [hsplit, List.map_append, List.append_right_eq_self] at hts
        exact hrest (List.map_eq_nil_iff.mp hts)
      refine ⟨fun e hhead => ?_, hy⟩
      by_contra he
      rw [Bool.not_eq_true] at he
      rw [scanBack_last h] at hrun
      refine scanBack_endless h hhead he ?_ ?_ (List.nil_append l.reverse).symm (by simp [hr]) rfl
        x.key x.data fuel _ hrun
      · rw [← List.length_reverse, hr]
        simp
      · intro pre z post hz hlive hone
        obtain ⟨w, rfl⟩ := List.length_eq_one_iff.mp hone
        rw [hr] at hz
        obtain ⟨-, rfl⟩ : x = w ∧ y = z := by simp_all
        rw [hy] at hlive
        cases hlive
  · intro hsafe key data c
    refine ⟨(liveEntries l).length + 1, ?_⟩
    have hlen : (liveEntries l.reverse).length < (liveEntries l).length + 1 := by
      rw [liveEntries_reverse, List.length_reverse]
      exact Nat.lt_succ_self _
    rw [scanBack_last h, ← liveEntries_reverse]
    exact scanBack_right h (List.nil_append _).symm rfl hsafe.goesOn key data hlen

/-- Two tuples. -/
theorem scansBack_iff_two : ∃ s,
    Run blankTuples true false s [⟨0, keySeven, 1, false⟩, ⟨1, keySeven, 2, false⟩] ∧
    ScansBack s.rel [⟨0, keySeven, 1, false⟩, ⟨1, keySeven, 2, false⟩] := by
  have run : Run blankTuples true false _ _ :=
    .put keySeven 2 .append (.put keySeven 1 .append .create rfl) rfl
  obtain ⟨h, -⟩ := run_kept run
  exact ⟨_, run, (scansBack_iff h.toListed).mpr (.inl rfl)⟩

/-- Of three tuples the first one is not returned. -/
theorem threeTuples_not_scansBack : ∃ s,
    Run blankTuples true false s
      [⟨0, keySeven, 1, false⟩, ⟨1, keySeven, 2, false⟩, ⟨2, keySeven, 3, false⟩] ∧
    ¬ScansBack s.rel
      [⟨0, keySeven, 1, false⟩, ⟨1, keySeven, 2, false⟩, ⟨2, keySeven, 3, false⟩] := by
  have run : Run blankTuples true false _ _ :=
    .put keySeven 3 .append (.put keySeven 2 .append (.put keySeven 1 .append .create rfl) rfl) rfl
  obtain ⟨h, -⟩ := run_kept run
  refine ⟨_, run, fun hright => ?_⟩
  obtain ⟨fuel, hrun⟩ := hright keySeven 0 imRelCursor
  have hts := scanBack_stops h.toListed (x := ⟨2, keySeven, 3, false⟩) rfl rfl hrun
  cases hts

end

end StreamMill.ImDb
