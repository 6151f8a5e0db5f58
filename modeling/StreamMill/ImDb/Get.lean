import StreamMill.ImDb.SetDup

/-!
# StreamMill.ImDb.Get

`im_rel_get` on an indexed and on an unindexed relation with the same history. The index leads to
the newest live tuple with the key, the list to the oldest (`get_indexed`, `get_unindexed`), so the
two agree when these have the same data (`getsAlike_iff`).
-/

namespace StreamMill.ImDb

open Lib

variable {n : Nat} {δ : Type} {s s' u : Rel n δ} {l l' : List (Entry n δ)} {e : Entry n δ}
  {key : Key n}

inductive HistOp (n : Nat) (δ : Type) where
  | put (key : Key n) (data : δ) (flags : PutFlags)
  /-- `c_del` at a place of the list. -/
  | del (i : Nat)
  /-- `im_rel_del`, in an OID relation. -/
  | delKey (key : Key n)

/-- The relation after a history, the last operation first, and its tuples. -/
inductive History (mem : Addr → Tuple n δ) (oid indexed : Bool) :
    List (HistOp n δ) → Rel n δ → List (Entry n δ) → Prop where
  | create : History mem oid indexed [] (imRelCreate mem oid indexed) []
  | put {ops : List (HistOp n δ)} {s s' : Rel n δ} {l : List (Entry n δ)} (key : Key n) (data : δ)
      (flags : PutFlags) (hist : History mem oid indexed ops s l)
      (hput : imRelPut s key data flags = .ok s') :
      History mem oid indexed (.put key data flags :: ops) s'
        (l ++ [⟨newSlot s, key, data, false⟩])
  | del {ops : List (HistOp n δ)} {s s' : Rel n δ} {l : List (Entry n δ)} (i : Nat)
      {e : Entry n δ} {c c' : Cursor} {found : Bool} (hist : History mem oid indexed ops s l)
      (hi : l[i]? = some e) (hc : c.cur = some e.slot)
      (hdel : imRelCursorDel s c = .ok (s', c', found)) :
      History mem oid indexed (.del i :: ops) s' (afterDel oid l e.slot)
  | delKey {ops : List (HistOp n δ)} {s s' : Rel n δ} {l : List (Entry n δ)} (key : Key n)
      {junk : Addr → Tuple n δ} {found : Bool} (hist : History mem oid indexed ops s l)
      (ho : oid = true) (hdel : imRelDel s junk key = .ok (s', found)) :
      History mem oid indexed (.delKey key :: ops) s'
        (l.map fun e => if e.key = key then { e with deleted := true } else e)

theorem history_holds {mem : Addr → Tuple n δ} {oid indexed : Bool} {ops : List (HistOp n δ)}
    (hist : History mem oid indexed ops s l) :
    s.Holds l ∧ s.oid = oid ∧ s.hidx.isSome = indexed := by
  induction hist with
  | create =>
    refine ⟨imRelCreate_holds mem oid indexed, rfl, ?_⟩
    cases indexed <;> rfl
  | put key data flags hist hput ih =>
    obtain ⟨h, ho, hi⟩ := ih
    obtain ⟨h', ho', hi'⟩ := imRelPut_holds h hput
    exact ⟨h', ho'.trans ho, hi'.trans hi⟩
  | @del ops s s' l i e c c' found hist hget hc hdel ih =>
    obtain ⟨h, ho, hi⟩ := ih
    obtain ⟨s₁, c₁, hrun, h', ho', hi'⟩ :=
      imRelCursorDel_holds h hc (slot_mem (List.mem_of_getElem? hget))
    rw [hrun] at hdel
    cases hdel
    rw [ho] at h'
    exact ⟨h', ho'.trans ho, hi'.trans hi⟩
  | @delKey ops s s' l key junk found hist htrue hdel ih =>
    obtain ⟨h, ho, hi⟩ := ih
    obtain ⟨s₁, found₁, p, hrun, -, h', hp, hidx', -, ho'⟩ :=
      imRelDel_oid h (ho.trans htrue) junk key
    rw [hrun] at hdel
    cases hdel
    have hl : markEntries p l =
        l.map fun e => if e.key = key then { e with deleted := true } else e := by
      refine List.map_congr_left fun e he => ?_
      rw [hp e he]
      simp [decide_eq_true_eq]
    exact ⟨hl ▸ h', ho'.trans ho, by rw [hidx', hi]⟩

def Entry.tuple (e : Entry n δ) : Key n × δ × Bool := (e.key, e.data, e.deleted)

theorem tuples_afterDel (oid : Bool) (hnd : (slots l).Nodup) {i : Nat} (hi : l[i]? = some e) :
    (afterDel oid l e.slot).map Entry.tuple =
      if oid then (l.map Entry.tuple).modify i fun t => (t.1, t.2.1, true)
      else (l.map Entry.tuple).eraseIdx i := by
  obtain ⟨hlt, rfl⟩ := List.getElem?_eq_some_iff.mp hi
  obtain ⟨xs, e, ys, hl, hlen⟩ : ∃ xs e ys, l = xs ++ e :: ys ∧ xs.length = i :=
    ⟨l.take i, l[i], l.drop (i + 1), by simp, by simp; omega⟩
  subst hl hlen
  rw [List.getElem_append_right le_rfl]
  simp only [Nat.sub_self, List.getElem_cons_zero]
  cases oid with
  | true =>
    rw [afterDel_middle hnd]
    simp [Entry.tuple, List.modify_eq_take_cons_drop, List.drop_append]
  | false =>
    have hafter : afterDel false (xs ++ e :: ys) e.slot = xs ++ ys := filter_slot_ne hnd
    rw [hafter]
    simp [List.eraseIdx_append_of_length_le]

theorem history_tuples {mem mem' : Addr → Tuple n δ} {oid indexed indexed' : Bool}
    {ops : List (HistOp n δ)} (hist : History mem oid indexed ops s l)
    (hist' : History mem' oid indexed' ops u l') : l.map Entry.tuple = l'.map Entry.tuple := by
  induction hist generalizing u l' with
  | create =>
    cases hist'
    rfl
  | put key data flags hist hput ih =>
    cases hist' with
    | put _ _ _ hist' hput' =>
      rw [List.map_append, List.map_append, ih hist']
      rfl
  | @del ops s s' l i e c c' found hist hget hc hdel ih =>
    cases hist' with
    | @del _ u u' m _ e' _ _ _ hist' hget' hc' hdel' =>
      rw [tuples_afterDel oid (history_holds hist).1.nodup hget,
        tuples_afterDel oid (history_holds hist').1.nodup hget', ih hist']
  | delKey key hist ho hdel ih =>
    cases hist' with
    | @delKey _ u u' m _ _ _ hist' ho' hdel' =>
      have hcomp (m : List (Entry n δ)) :
          (m.map fun e => if e.key = key then { e with deleted := true } else e).map Entry.tuple =
            (m.map Entry.tuple).map fun t => if t.1 = key then (t.1, t.2.1, true) else t := by
        rw [List.map_map, List.map_map]
        refine List.map_congr_left fun e _ => ?_
        by_cases hk : e.key = key <;> simp [Entry.tuple, hk]
      rw [hcomp, hcomp, ih hist']

theorem data_eq (h : s.Listed l) {es : List (Entry n δ)} (hes : es ⊆ l) :
    (es.head?.map Entry.slot).map (fun a => (s.mem a).data) = es.head?.map Entry.data := by
  cases es with
  | nil => rfl
  | cons e es => exact congrArg some (h.stored e (hes List.mem_cons_self)).2.1

theorem get_indexed (h : s.Holds l) (hidx : s.hidx ≠ none) (key : Key n) :
    ∃ s', imRelGet s key = .ok (s', (liveData l key).getLast?) := by
  cases hhead : s.head with
  | none =>
    obtain rfl := (head_eq_none h.toListed).mp hhead
    exact ⟨s, by rw [imRelGet, hhead]; rfl⟩
  | some head =>
    obtain ⟨ht, hht⟩ := Option.ne_none_iff_exists'.mp hidx
    obtain ⟨s', o, hfind, h', -, -, hfuel, hchain⟩ := hashFind_chain h hht key
    have hsub := chainEntries_sub l key
    obtain ⟨hle, hlen⟩ := chainEntries_length_le h.toListed key
    have hskip := skipDeleted_chain h' hsub hchain (by omega)
    have hdata := data_eq h'.toListed
      (fun e he => hsub (List.mem_of_mem_filter he) : liveEntries (chainEntries l key) ⊆ l)
    have hlast : (liveEntries (chainEntries l key)).head?.map Entry.data =
        (liveData l key).getLast? := by
      rw [liveEntries, chainEntries, List.filter_reverse, List.filter_filter, List.head?_reverse,
        liveData, List.getLast?_map]
    refine ⟨s', ?_⟩
    simp only [imRelGet, hhead, hht, hfind, hskip, ok_bind]
    rw [← hlast, ← hdata]
    rfl

theorem get_unindexed (h : s.Holds l) (hidx : s.hidx = none) (key : Key n) :
    imRelGet s key = .ok (s, (liveData l key).head?) := by
  cases hhead : s.head with
  | none =>
    obtain rfl := (head_eq_none h.toListed).mp hhead
    rw [imRelGet, hhead]
    rfl
  | some head =>
    have hpath := (h.at_head rfl : s.At imRelCursor l).path h.toListed.start hhead
    have hskip : ∀ e ∈ l, (!(s.live e.slot && s.keyIs key e.slot)) =
        !(!e.deleted && decide (e.key = key)) := fun e he => by
      rw [h.live_iff he, h.keyIs_iff he]
    have hwalk := walk_path Fault.loop (fun a => !(s.live a && s.keyIs key a)) hpath
      h.length_le
    rw [dropWhile_slots l hskip, head?_slots, ← List.find?_eq_head?_dropWhile_not,
      ← List.head?_filter] at hwalk
    have hdata := data_eq h.toListed
      (fun e he => List.mem_of_mem_filter he :
        (l.filter fun e => !e.deleted && decide (e.key = key)) ⊆ l)
    simp only [imRelGet, hhead, hidx]
    rw [show some head = s.nextFrom head imRelCursor.cur from rfl, hwalk, liveData,
      List.head?_map, ← hdata]
    rfl

theorem mem_liveData {d : δ} :
    d ∈ liveData l key ↔ ∃ e ∈ l, e.deleted = false ∧ e.key = key ∧ e.data = d := by
  simp [liveData, List.mem_map, List.mem_filter, Bool.and_eq_true,
    decide_eq_true_eq, and_assoc]

theorem liveData_eq_nil : liveData l key = [] ↔ ∀ e ∈ l, e.deleted = false → e.key ≠ key := by
  simp [liveData, List.filter_eq_nil_iff]

theorem liveData_congr (hl : l.map Entry.tuple = l'.map Entry.tuple) (key : Key n) :
    liveData l key = liveData l' key := by
  have hof (m : List (Entry n δ)) : liveData m key =
      ((m.map Entry.tuple).filter fun t => !t.2.2 && decide (t.1 = key)).map fun t => t.2.1 := by
    rw [List.filter_map, List.map_map]
    rfl
  rw [hof, hof, hl]

section

variable [DecidableEq δ]

theorem getBoth_unindexed (h : s.Holds l) (hidx : s.hidx = none) (key : Key n) (d : δ) :
    imRelGetBoth s key d = .ok (s, decide (d ∈ liveData l key)) := by
  cases hhead : s.head with
  | none =>
    obtain rfl := (head_eq_none h.toListed).mp hhead
    rw [imRelGetBoth, hhead]
    rfl
  | some head =>
    have hpath := (h.at_head rfl : s.At imRelCursor l).path h.toListed.start hhead
    have hskip : ∀ e ∈ l, (!(s.live e.slot && s.keyIs key e.slot && (s.mem e.slot).data = d)) =
        !(!e.deleted && decide (e.key = key) && decide (e.data = d)) := fun e he => by
      rw [h.live_iff he, h.keyIs_iff he, (h.stored e he).2.1]
    have hwalk := walk_path Fault.loop
      (fun a => !(s.live a && s.keyIs key a && (s.mem a).data = d)) hpath h.length_le
    rw [dropWhile_slots l hskip, head?_slots, ← List.find?_eq_head?_dropWhile_not] at hwalk
    simp only [imRelGetBoth, hhead, hidx]
    rw [show some head = s.nextFrom head imRelCursor.cur from rfl, hwalk, ok_bind]
    have hsome : (l.find? fun e => !e.deleted && decide (e.key = key) && decide (e.data = d)).isSome =
        decide (d ∈ liveData l key) := by
      rw [Bool.eq_iff_iff, decide_eq_true_iff, mem_liveData]
      simp [and_assoc]
    rw [← hsome, Option.isSome_map]
    rfl

/-- Both relations answer alike: the same data, and `DB_NOTFOUND` exactly when no live tuple has
the key. -/
def GetsAlike (s u : Rel n δ) (l : List (Entry n δ)) (key : Key n) : Prop :=
  (∃ s' u' r, imRelGet s key = .ok (s', r) ∧ imRelGet u key = .ok (u', r) ∧
    (r = none ↔ ∀ e ∈ l, e.deleted = false → e.key ≠ key)) ∧
  ∀ d, ∃ s' u' b, imRelGetBoth s key d = .ok (s', b) ∧ imRelGetBoth u key d = .ok (u', b) ∧
    (b = true ↔ ∃ e ∈ l, e.deleted = false ∧ e.key = key ∧ e.data = d)

/-- After the same history the relations answer alike exactly when the oldest and the newest live
tuple with the key have the same data. -/
theorem getsAlike_iff {mem mem' : Addr → Tuple n δ} {oid : Bool} {ops : List (HistOp n δ)}
    (hist : History mem oid true ops s l) (hist' : History mem' oid false ops u l') (key : Key n) :
    GetsAlike s u l key ↔ (liveData l key).head? = (liveData l key).getLast? := by
  obtain ⟨h, -, hi⟩ := history_holds hist
  obtain ⟨h', -, hi'⟩ := history_holds hist'
  have hidx : s.hidx ≠ none := Option.isSome_iff_ne_none.mp hi
  have hidx' : u.hidx = none := by simpa using hi'
  have hsame := liveData_congr (history_tuples hist hist') key
  obtain ⟨s', hget⟩ := get_indexed h hidx key
  have hget' := get_unindexed h' hidx' key
  rw [← hsame] at hget'
  have hboth := (finds_indexed h hidx key).getBoth
  constructor
  · rintro ⟨⟨s₁, u₁, r, hs, hu, -⟩, -⟩
    rw [hget] at hs
    rw [hget'] at hu
    cases hs
    exact (Prod.mk.inj (Except.ok.inj hu)).2
  · intro heq
    refine ⟨⟨s', u, _, hget, heq ▸ hget', ?_⟩, fun d => ?_⟩
    · rw [List.getLast?_eq_none_iff, liveData_eq_nil]
    · obtain ⟨s₁, hs₁⟩ := hboth d
      have hu := getBoth_unindexed h' hidx' key d
      rw [← hsame] at hu
      exact ⟨s₁, u, _, hs₁, hu, by rw [decide_eq_true_iff, mem_liveData]⟩

end

/-- One put into an indexed and into an unindexed relation. -/
theorem getsAlike_iff_onePut : ∃ s u,
    History blankTuples true true [.put keySeven 5 .append] s [⟨0, keySeven, 5, false⟩] ∧
    History blankTuples true false [.put keySeven 5 .append] u [⟨0, keySeven, 5, false⟩] ∧
    GetsAlike s u [⟨0, keySeven, 5, false⟩] keySeven := by
  have hist : History blankTuples true true _ _ _ := .put keySeven 5 .append .create rfl
  have hist' : History blankTuples true false _ _ _ := .put keySeven 5 .append .create rfl
  exact ⟨_, _, hist, hist', (getsAlike_iff hist hist' keySeven).mpr rfl⟩

/-- Two puts of one key: the index answers with the second, the list with the first. -/
theorem twoPuts_not_getsAlike : ∃ s u l,
    History blankTuples true true [.put keySeven 2 .append, .put keySeven 1 .append] s l ∧
    History blankTuples true false [.put keySeven 2 .append, .put keySeven 1 .append] u l ∧
    ¬ GetsAlike s u l keySeven := by
  have hist : History blankTuples true true _ _ _ :=
    .put keySeven 2 .append (.put keySeven 1 .append .create rfl) rfl
  have hist' : History blankTuples true false _ _ _ :=
    .put keySeven 2 .append (.put keySeven 1 .append .create rfl) rfl
  refine ⟨_, _, _, hist, hist', ?_⟩
  rintro ⟨⟨s₁, u₁, r, hs, hu, -⟩, -⟩
  obtain ⟨h, -, hi⟩ := history_holds hist
  obtain ⟨h', -, hi'⟩ := history_holds hist'
  obtain ⟨s', hget⟩ := get_indexed h (Option.isSome_iff_ne_none.mp hi) keySeven
  have hget' := get_unindexed h' (by simpa using hi') keySeven
  rw [hget] at hs
  rw [hget'] at hu
  cases hs
  exact absurd (Prod.mk.inj (Except.ok.inj hu)).2 (by decide)

end StreamMill.ImDb
