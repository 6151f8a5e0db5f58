import StreamMill.RTree.Tree

/-!
# StreamMill.RTree.Adjust

The walks of an insertion: down by least enlargement (`chooseLeafLoop_ok`), up with an enlarged
rectangle (`adjustTreeWithoutSplit_ok`) and up with a split (`adjustTreeWithSplit_ok`). The two
upward walks are inductions on the ancestor stack: `Above` describes the tree around the block that
has changed, and the step moves the block's parent from the context into the subtree.
-/

namespace StreamMill.RTree

open Lib

section Blocks

variable {s : State} {b : Nat} {n : Node}

theorem peekBlk_node (h : s.index b = .node n) : peekBlk s b = .ok n := by
  simp [peekBlk, h]

theorem readBlk_node (h : s.index b = .node n) : readBlk s b = .ok { s with buffer := n } := by
  simp only [readBlk, peekBlk_node h, ok_bind]
  rfl

theorem blockSz_pos : 0 < blockSz := by decide

theorem readBlkByPtr_node (h : s.index b = .node n) :
    readBlkByPtr s (b * blockSz) = .ok { s with buffer := n } := by
  rw [readBlkByPtr, if_pos (Nat.mul_mod_left b blockSz), Nat.mul_div_cancel b blockSz_pos,
    readBlk_node h]

@[simp] theorem Node.entries_length (n : Node) : n.entries.length = n.counter := by
  simp [Node.entries]

theorem slots_getElem? (k : Nat) (items : Nat → Item) (j : Nat) :
    (slots k items)[j]? = if j < k then some (items j) else none := by
  rw [slots, List.getElem?_map]
  split
  · next h => rw [List.getElem?_range h]; rfl
  · next h => rw [List.getElem?_eq_none (by simpa using h)]; rfl

theorem Node.entries_getElem? (n : Node) (j : Nat) :
    n.entries[j]? = if j < n.counter then some (n.items j) else none :=
  slots_getElem? n.counter n.items j

theorem Node.entries_getElem?_lt {n : Node} {j : Nat} (h : j < n.counter) :
    n.entries[j]? = some (n.items j) := by
  rw [n.entries_getElem?, if_pos h]

variable {as bs : List Item} {it : Item}

theorem Node.entries_middle (h : n.entries = as ++ it :: bs) :
    as.length < n.counter ∧ n.items as.length = it := by
  have hlen := congrArg List.length h
  simp only [Node.entries_length, List.length_append, List.length_cons] at hlen
  have hlt : as.length < n.counter := by omega
  have := n.entries_getElem?_lt hlt
  rw [h] at this
  simp at this
  exact ⟨hlt, this.symm⟩

theorem findPtr_middle (h : n.entries = as ++ it :: bs) (hne : ∀ a ∈ as, a.ptr ≠ it.ptr) :
    findPtr n it.ptr = some as.length := by
  obtain ⟨hlt, hit⟩ := Node.entries_middle h
  rw [findPtr, List.find?_range_eq_some]
  refine ⟨by simp [hit], List.mem_range.mpr hlt, fun j hj => ?_⟩
  have := n.entries_getElem?_lt (hj.trans hlt)
  rw [h, List.getElem?_append_left hj] at this
  simpa using hne _ (List.mem_of_getElem? this)

theorem slots_set (k : Nat) (items : Nat → Item) (i : Nat) (x : Item) :
    slots k (Function.update items i x) = (slots k items).set i x := by
  apply List.ext_getElem?
  intro j
  rw [List.getElem?_set, slots_getElem?, slots_getElem?]
  by_cases hij : i = j
  · subst hij
    simp [slots]
  · rw [if_neg hij, Function.update_of_ne (Ne.symm hij)]

theorem entries_update {n' : Node} (h : n.entries = as ++ it :: bs) (it' : Item)
    (hc : n'.counter = n.counter) (hi : n'.items = Function.update n.items as.length it') :
    n'.entries = as ++ it' :: bs := by
  rw [Node.entries_eq_slots, hc, hi, slots_set, ← Node.entries_eq_slots, h]
  simp

theorem insertTwo_entries (s : State) (h : n.entries = as ++ it :: bs) :
    ∃ it₀ it₁, (insertTwo s n as.length).entries = as ++ it₀ :: it₁ :: bs ∧
      it₀.key = (s.coverr0, s.blkno0 * blockSz) ∧ it₁.key = (s.coverr1, s.blkno1 * blockSz) := by
  obtain ⟨hlt, -⟩ := Node.entries_middle h
  have hget : ∀ j, (as ++ it :: bs)[j]? = if j < n.counter then some (n.items j) else none :=
    fun j => h ▸ n.entries_getElem? j
  let it₀ := (insertTwo s n as.length).items as.length
  let it₁ := (insertTwo s n as.length).items (as.length + 1)
  refine ⟨it₀, it₁, ?_, ?_, ?_⟩
  · apply List.ext_getElem?
    intro j
    rw [Node.entries_getElem?]
    show (if j < n.counter + 1 then _ else _) = _
    rcases Nat.lt_trichotomy j as.length with hj | rfl | hj
    · -- before the entry nothing moves
      have := hget j
      rw [List.getElem?_append_left hj, if_pos (by omega)] at this
      rw [List.getElem?_append_left hj, this, if_pos (by omega)]
      simp only [insertTwo]
      rw [Function.update_of_ne (by omega), Function.update_of_ne (by omega), if_neg (by omega)]
    · rw [if_pos (by omega), List.getElem?_append_right (Nat.le_refl _), Nat.sub_self]
      rfl
    · obtain ⟨d, rfl⟩ : ∃ d, j = as.length + 1 + d := ⟨j - (as.length + 1), by omega⟩
      rw [List.getElem?_append_right (by omega)]
      cases d with
      | zero => rw [if_pos (by omega)]; simp [it₁]
      | succ d =>
        have := hget (as.length + 1 + d)
        rw [List.getElem?_append_right (by omega)] at this
        rw [show as.length + 1 + d - as.length = d + 1 by omega, List.getElem?_cons_succ] at this
        rw [show as.length + 1 + (d + 1) - as.length = d + 2 by omega, List.getElem?_cons_succ,
          List.getElem?_cons_succ, this]
        by_cases hd : as.length + 1 + d < n.counter
        · rw [if_pos (by omega), if_pos hd]
          simp only [insertTwo]
          rw [Function.update_of_ne (by omega), Function.update_of_ne (by omega),
            if_pos (by omega)]
          rfl
        · rw [if_neg (by omega), if_neg hd]
  · simp [it₀, insertTwo, Item.key]
  · simp [it₁, insertTwo, Item.key]

end Blocks

theorem leastEnlargement_lt (mbr : Rect) (items : Nat → Item) {n : Nat} (hn : 0 < n) :
    ∃ e ind, leastEnlargement mbr items n = some (e, ind) ∧ ind < n := by
  have h := foldl_range_inv (leastStep mbr items)
    (fun k (acc : Option (Int × Nat)) =>
      (k = 0 ∧ acc = none) ∨ ∃ e i, acc = some (e, i) ∧ i < k) n (.inl ⟨rfl, rfl⟩) ?_
  · rcases h with ⟨rfl, -⟩ | h
    · cases hn
    · exact h
  · rintro k acc hk (⟨rfl, rfl⟩ | ⟨e, i, rfl, hi⟩)
    · exact .inr ⟨_, _, rfl, by omega⟩
    · right
      simp only [leastStep]
      split
      · exact ⟨_, _, rfl, by omega⟩
      · exact ⟨_, _, rfl, by omega⟩

variable {anc : List Nat} {h k : Nat} {s s' : State} {t t₀ t₁ : Contents} {junk : Multiset Nat}

theorem chooseLeafLoop_ok (mbr : Rect) {fuel c : Nat} {es : List Item}
    (hs : Subtree s.index k c es t) (ha : Above s.index h k c anc (es.map Item.rect) t₀)
    (hbuf : s.index c = .node s.buffer) (hfill : c ≠ 1 → 2 ≤ es.length) (hfuel : k < fuel) :
    ∃ buf b anc' es' t' t₀',
      chooseLeafLoop mbr fuel s c anc = .ok ({ s with buffer := buf }, b, anc') ∧
      s.index b = .node buf ∧ Subtree s.index 0 b es' t' ∧
      Above s.index h 0 b anc' (es'.map Item.rect) t₀' ∧ (b ≠ 1 → 2 ≤ es'.length) ∧
      t₀' + t' = t₀ + t := by
  induction k generalizing fuel c s anc es t t₀ with
  | zero =>
    obtain ⟨fuel, rfl⟩ : ∃ f, fuel = f + 1 := ⟨fuel - 1, by omega⟩
    obtain ⟨n, hn, hty, -⟩ := hs.1
    rw [hbuf] at hn
    cases hn
    refine ⟨s.buffer, c, anc, es, t, t₀, ?_, hbuf, hs, ha, hfill, rfl⟩
    simp [chooseLeafLoop, hty]
  | succ k ih =>
    obtain ⟨fuel, rfl⟩ : ∃ f, fuel = f + 1 := ⟨fuel - 1, by omega⟩
    obtain ⟨⟨n, hn, hty, hes⟩, h2, h3, t', hkids, rfl⟩ := hs
    rw [hbuf] at hn
    cases hn
    have hcount : s.buffer.counter = es.length := by rw [← hes, Node.entries_length]
    obtain ⟨e, ind, hle, hind⟩ := leastEnlargement_lt mbr s.buffer.items (n := s.buffer.counter)
      (by omega)
    -- the chosen entry and the subtree below it
    have hget := s.buffer.entries_getElem?_lt hind
    rw [hes] at hget
    obtain ⟨as, bs, rfl⟩ := List.append_of_mem (List.mem_of_getElem? hget)
    generalize hit : s.buffer.items ind = it at hget hes
    rw [hit] at hkids ha h2 h3 hfill
    rw [List.map_append] at hkids
    obtain ⟨u, v, ⟨c', ces, hptr, hc', hlen, hcov, hsub⟩, hrest, rfl⟩ := parts_middle.mp hkids
    obtain ⟨n', hn'⟩ : ∃ n', s.index c' = .node n' := by
      cases k with
      | zero => exact ⟨_, hsub.1.choose_spec.1⟩
      | succ k => exact ⟨_, hsub.1.choose_spec.1⟩
    have habove : Above s.index h k c' (c :: anc) (ces.map Item.rect) (({c}, 0, 0) + v + t₀) := by
      refine ⟨hc', as, it, bs, v, t₀, ⟨s.buffer, hbuf, hty, ?_⟩, h2, h3, hptr, ?_, ?_, ha, rfl⟩
      · exact hes
      · intro r hr
        obtain ⟨x, hx, rfl⟩ := List.mem_map.mp hr
        exact hcov x hx
      · rw [List.map_append]; exact hrest
    have hptr' : it.ptr = c' * blockSz := hptr
    obtain ⟨buf, b, anc', es', t'', t₀', hrun, hb, hsub', habove', hfill', hsum⟩ :=
      ih (s := { s with buffer := n' }) hsub habove hn' (fun _ => hlen) (Nat.lt_of_succ_lt_succ hfuel)
    refine ⟨buf, b, anc', es', t'', t₀', ?_, hb, hsub', habove', hfill', ?_⟩
    · simp only [chooseLeafLoop, hty, hle, hit, hptr', readBlkByPtr_node hn', ok_bind,
        Nat.mul_div_cancel c' blockSz_pos]
      exact hrun
    · rw [hsum]; abel

theorem adjustTreeWithoutSplit_ok {c : Nat} {mbr : Rect} {rs : List Rect} {es : List Item}
    (ha : Above s.index h k c anc rs t₀) (hs : Subtree s.index k c es t) (hnd : (t₀ + t).1.Nodup)
    (hfill : c ≠ 1 → 2 ≤ es.length) (hrs : ∀ it ∈ es, it.rect ∈ rs ∨ Covers mbr it.rect) :
    ∃ idx buf, adjustTreeWithoutSplit s c mbr anc = .ok { s with index := idx, buffer := buf } ∧
      (∀ b, b ∉ anc → idx b = s.index b) ∧ ∃ es', Subtree idx h 1 es' (t₀ + t) := by
  induction anc generalizing k c s mbr rs es t₀ t with
  | nil =>
    obtain ⟨rfl, rfl, rfl⟩ := ha
    exact ⟨s.index, s.buffer, rfl, fun _ _ => rfl, es, by rwa [zero_add]⟩
  | cons p anc ih =>
    obtain ⟨hc, as, it, bs, t₁, t₂, ⟨n, hn, hty, hent⟩, h2, h3, h4, h5, h6, h7, rfl⟩ := ha
    have hnd' : (p ::ₘ (t₁.1 + (t₂.1 + t.1))).Nodup := by
      convert hnd using 1
      simp [Prod.fst_add, Multiset.singleton_add, add_assoc]
    simp only [Multiset.nodup_cons, Multiset.nodup_add, Multiset.mem_add, not_or] at hnd'
    obtain ⟨⟨hp1, hp2, hp3⟩, hnd1, -, hdis⟩ := hnd'
    have hc1 : c ∉ t₁.1 := fun hmem =>
      Multiset.disjoint_left.mp hdis hmem (Multiset.mem_add.mpr (.inr hs.mem))
    have hne : ∀ a ∈ as, a.ptr ≠ it.ptr := fun a ha =>
      h4 ▸ Parts.ptr_ne h6 hc1 a (List.mem_append_left _ ha)
    have hfind := findPtr_middle hent hne
    rw [h4] at hfind
    simp only [adjustTreeWithoutSplit, if_neg hc, readBlk_node hn, ok_bind, hfind,
      (Node.entries_middle hent).2]
    by_cases hcov : containedIn (compose it.rect mbr) it.rect = 0
    · -- the entry covers the new rectangle already
      rw [if_pos hcov]
      refine ⟨s.index, n, rfl, fun _ _ => rfl, ?_⟩
      have habove : Above s.index h k c (p :: anc) (es.map Item.rect) (({p}, 0, 0) + t₁ + t₂) := by
        refine ⟨hc, as, it, bs, t₁, t₂, ⟨n, hn, hty, hent⟩, h2, h3, h4, ?_, h6, h7, rfl⟩
        intro r hr
        obtain ⟨x, hx, rfl⟩ := List.mem_map.mp hr
        rcases hrs x hx with hmem | hmbr
        · exact h5 _ hmem
        · rw [← containedIn_eq_zero.mp hcov]
          exact (compose_covers_right _ _).trans hmbr
      exact habove.plug hs (fun x hx => List.mem_map_of_mem hx) hfill
    · rw [if_neg hcov]
      let it' : Item := { it with rect := compose it.rect mbr }
      let n' : Node := { n with items := Function.update n.items as.length it' }
      have hent' : n'.entries = as ++ it' :: bs := entries_update hent it' rfl rfl
      have hsame : ∀ bs : Multiset Nat, p ∉ bs →
          SameOn s.index (Function.update s.index p (.node n')) bs := fun bs hp =>
        .of_eq fun b hb => Function.update_of_ne (fun e : b = p => hp (e ▸ hb)) _ _
      have hchild : Child (Subtree (Function.update s.index p (.node n')) k) it'.key t := by
        refine ⟨c, es, h4, hc, hfill hc, fun x hx => ?_, hs.congr (hsame _ hp3)⟩
        rcases hrs x hx with hmem | hmbr
        · exact (compose_covers_left _ _).trans (h5 _ hmem)
        · exact (compose_covers_right _ _).trans hmbr
      have hsub : Subtree (Function.update s.index p (.node n')) (k + 1) p (as ++ it' :: bs)
          (({p}, 0, 0) + (t + t₁)) := by
        refine ⟨⟨n', Function.update_self _ _ _, hty, hent'⟩, by simpa using h2,
          by simpa using h3, t + t₁, ?_, rfl⟩
        rw [List.map_append] at h6 ⊢
        exact parts_middle.mpr ⟨t, t₁, hchild, Parts.congr_child h6 (hsame _ hp1), rfl⟩
      have hsum : t₂ + (({p}, 0, 0) + (t + t₁)) = ({p}, 0, 0) + t₁ + t₂ + t := by abel
      have hcover : ∀ x ∈ as ++ it' :: bs, x.rect ∈ (as ++ it :: bs).map Item.rect ∨
          Covers (compose it.rect mbr) x.rect := by
        intro x hx
        rcases List.mem_append.mp hx with hx | hx
        · exact .inl (List.mem_map_of_mem (List.mem_append_left _ hx))
        · rcases List.mem_cons.mp hx with rfl | hx
          · exact .inr (.refl _)
          · exact .inl (List.mem_map_of_mem
              (List.mem_append_right _ (List.mem_cons_of_mem _ hx)))
      obtain ⟨idx, buf, hrun, hframe, es', hroot⟩ :=
        ih (s := writeBlk { s with buffer := n' } p n') (h7.congr (hsame _ hp2)) hsub
          (hsum ▸ hnd) (fun _ => by simpa using h2) hcover
      refine ⟨idx, buf, hrun, fun b hb => ?_, es', hsum ▸ hroot⟩
      rw [List.mem_cons, not_or] at hb
      rw [hframe b hb.2]
      exact Function.update_of_ne hb.1 _ _

theorem SplitOf.children {nd : Node} {mbr : Rect} {ptr : Nat} {used : Multiset Nat}
    (h : SplitOf s nd mbr ptr .inner used s') (hfull : nd.counter = maxEntries) (hroot : 1 ∈ used)
    (hkids : Parts (Child (Subtree s'.index k)) ((mbr, ptr) :: nd.entries.map Item.key) t) :
    ∃ u v, t = u + v ∧
      Child (Subtree s'.index (k + 1)) (s'.coverr0, s'.blkno0 * blockSz)
        (({s'.blkno0}, 0, 0) + u) ∧
      Child (Subtree s'.index (k + 1)) (s'.coverr1, s'.blkno1 * blockSz)
        (({s'.blkno1}, 0, 0) + v) := by
  obtain ⟨u, v, hu, hv, rfl⟩ := parts_append.mp (hkids.perm (h.keys hfull).symm)
  have hone : ∀ b, b ∉ used → b ≠ 1 := by rintro b hb rfl; exact hb hroot
  have h0 : s'.index s'.blkno0 = .node s'.split0 := by
    rw [h.index, Function.update_of_ne h.ne, Function.update_self]
  have h1 : s'.index s'.blkno1 = .node s'.split1 := by rw [h.index, Function.update_self]
  refine ⟨u, v, rfl, ?_, ?_⟩
  · exact ⟨_, _, rfl, hone _ h.fresh0, by simpa using h.fill0.1, h.cover0,
      ⟨_, h0, h.type0, rfl⟩, by simpa using h.fill0.1, by simpa using h.fill0.2, u, hu, rfl⟩
  · exact ⟨_, _, rfl, hone _ h.fresh1, by simpa using h.fill1.1, h.cover1,
      ⟨_, h1, h.type1, rfl⟩, by simpa using h.fill1.1, by simpa using h.fill1.2, v, hv, rfl⟩

theorem splitParent_ok {p : Nat} {n : Node} {as bs : List Item} {it : Item} {used : Multiset Nat}
    (hn : s.index p = .node n) (hent : n.entries = as ++ it :: bs) (hm : s.m = 2) (hp : p ∈ used)
    (ha : Alloc s used) :
    ∃ s₁ nd it' s', splitParent s p as.length = .ok s' ∧
      s₁ = writeBlk s p nd ∧ nd.entries = as ++ it' :: bs ∧ nd.counter = n.counter ∧
      it'.key = (s.coverr0, s.blkno0 * blockSz) ∧
      SplitOf s₁ nd s.coverr1 (s.blkno1 * blockSz) .inner used s' := by
  let it' : Item := { it with rect := s.coverr0, ptr := s.blkno0 * blockSz }
  let nd : Node := { n with items := Function.update n.items as.length it' }
  have hread : peekBlk (writeBlk s p nd) p = .ok nd :=
    peekBlk_node (Function.update_self _ _ _)
  obtain ⟨s', hs', hsp, -⟩ := splitNode_ok hread hm (ha.writeBlk hp nd) s.coverr1
    (s.blkno1 * blockSz) .inner (s.blkno0 * blockSz) (s.blkno1 * blockSz)
  refine ⟨writeBlk s p nd, nd, it', s', ?_, rfl, entries_update hent it' rfl rfl, rfl, rfl, hsp⟩
  have hupd : updateBlockEntry s p as.length s.coverr0 (s.blkno0 * blockSz) =
      .ok (writeBlk s p nd) := by
    simp only [updateBlockEntry, peekBlk_node hn, ok_bind, (Node.entries_middle hent).2]
    rfl
  rw [splitParent, hupd, ok_bind]
  exact hs'

/-- What a split leaves when it has been carried up to the root: a tree, of the same leaves and
entries, in which the blocks `junk` are still to be released. -/
structure Regrown (s : State) (t : Contents) (junk : Multiset Nat) (s' : State) (h : Nat)
    (t' : Contents) : Prop where
  tree : ∃ es, Subtree s'.index h 1 es t'
  same : t'.2 = t.2
  alloc : Alloc s' (t'.1 + junk)
  leaves : ∀ b ∈ t.2.1, s'.index b = s.index b
  m : s'.m = 2
  lptr : s'.lptr = s.lptr
  clears : (s'.itembuf 0).del = true → (s.itembuf 0).del = true

theorem Regrown.freeBlock {t' : Contents} {b : Nat} (hr : Regrown s t (b ::ₘ junk) s' h t')
    (hb : b ≠ 1) (hleaf : b ∉ t.2.1) :
    ∃ s'', freeBlock s' b 0 = .ok s'' ∧ Regrown s t junk s'' h t' := by
  have hal := hr.alloc
  rw [Multiset.add_cons] at hal
  have hnd := hal.nodup
  obtain ⟨n, hfree, hal'⟩ := hal.freeBlock hb
  refine ⟨_, hfree, ?_, hr.same, hal', fun c hc => ?_, hr.m, hr.lptr, hr.clears⟩
  · obtain ⟨es, hes⟩ := hr.tree
    refine ⟨es, hes.congr (.of_eq fun c hc => Function.update_of_ne ?_ _ _)⟩
    rintro rfl
    exact (Multiset.nodup_cons.mp hnd).1 (Multiset.mem_add.mpr (.inl hc))
  · show Function.update s'.index b _ c = _
    rw [Function.update_of_ne (fun e : c = b => hleaf (e ▸ hc)), hr.leaves c hc]

theorem Regrown.of_step {s₁ : State} {t' : Contents} (hr : Regrown s₁ t₁ junk s' h t')
    (ht : t₁.2 = t.2) (hleaf : ∀ b ∈ t.2.1, s₁.index b = s.index b) (hl : s₁.lptr = s.lptr)
    (hdel : (s₁.itembuf 0).del = true → (s.itembuf 0).del = true) :
    Regrown s t junk s' h t' := by
  refine ⟨hr.tree, hr.same.trans ht, hr.alloc, fun b hb => ?_, hr.m, hr.lptr.trans hl,
    fun h => hdel (hr.clears h)⟩
  rw [hr.leaves b (ht ▸ hb), hleaf b hb]

theorem newRoot_holds (s : State) :
    ((newRoot s).index 1).Holds .inner
      [⟨s.coverr0, s.blkno0 * blockSz, false⟩, ⟨s.coverr1, s.blkno1 * blockSz, false⟩] := by
  refine ⟨(newRoot s).buffer, by simp [newRoot, writeBlk], rfl, ?_⟩
  simp [Node.entries, newRoot, writeBlk, List.range_succ]

theorem newRoot_ok {t₂ : Contents} (hm : s.m = 2)
    (h0 : Child (Subtree s.index k) (s.coverr0, s.blkno0 * blockSz) t₁)
    (h1 : Child (Subtree s.index k) (s.coverr1, s.blkno1 * blockSz) t₂)
    (hal : Alloc s (1 ::ₘ ((t₁ + t₂).1 + junk))) (hleaf : ∀ b ∈ (t₁ + t₂).2.1, b ∈ (t₁ + t₂).1) :
    Regrown s (t₁ + t₂) junk (newRoot s) (k + 1) (({1}, 0, 0) + (t₁ + t₂)) := by
  have hnew : ∀ b, b ≠ 1 → (newRoot s).index b = s.index b := fun b hb =>
    Function.update_of_ne hb _ _
  have hnd := (Multiset.nodup_cons.mp hal.nodup).1
  simp only [Prod.fst_add, Multiset.mem_add, not_or] at hnd
  obtain ⟨⟨hn1, hn2⟩, -⟩ := hnd
  have hsame : ∀ bs : Multiset Nat, 1 ∉ bs → SameOn s.index (newRoot s).index bs :=
    fun bs h => .of_eq fun b hb => hnew b fun e => h (e ▸ hb)
  refine ⟨⟨_, newRoot_holds s, le_rfl, (by decide : 2 ≤ maxEntries), t₁ + t₂, ?_, rfl⟩,
    zero_add _, ?_, ?_, hm, rfl, id⟩
  · refine ⟨t₁, t₂, ?_, ⟨t₂, 0, ?_, rfl, (add_zero t₂).symm⟩, rfl⟩
    · obtain ⟨c, es, h2, h3, h4, h5, h6⟩ := h0
      exact ⟨c, es, h2, h3, h4, h5, h6.congr (hsame _ hn1)⟩
    · obtain ⟨c, es, h2, h3, h4, h5, h6⟩ := h1
      exact ⟨c, es, h2, h3, h4, h5, h6.congr (hsame _ hn2)⟩
  · have := hal.writeBlk (Multiset.mem_cons_self 1 _) (newRoot s).buffer
    rw [Prod.fst_add, add_assoc]
    exact this.congr rfl rfl fun _ _ => rfl
  · intro b hb
    refine hnew b ?_
    rintro rfl
    rcases Multiset.mem_add.mp (hleaf 1 hb) with h | h
    · exact hn1 h
    · exact hn2 h

theorem adjustTreeWithSplit_cons {cur p i : Nat} {n : Node} (hc : cur ≠ 1)
    (hn : s.index p = .node n) (hi : findPtr n (cur * blockSz) = some i) :
    adjustTreeWithSplit s cur (p :: anc) =
      (if n.counter = maxEntries then
        splitParent { s with buffer := n } p i >>= fun s' => adjustTreeWithSplit s' p anc
      else
        adjustTreeWithoutSplit (writeBlk { s with buffer := insertTwo s n i } p (insertTwo s n i)) p
          (compose s.coverr0 s.coverr1) anc) >>= fun s' => freeBlock s' cur 0 := by
  rw [adjustTreeWithSplit, if_neg hc, readBlk_node hn, ok_bind]
  simp only [hi]
  split
  · exact (bind_assoc _ _ _).symm
  · rfl

theorem adjustTreeWithSplit_ok {cur : Nat} {rs : List Rect} {t₂ : Contents} (hm : s.m = 2)
    (ha : Above s.index h k cur anc rs t₀)
    (h0 : Child (Subtree s.index k) (s.coverr0, s.blkno0 * blockSz) t₁)
    (h1 : Child (Subtree s.index k) (s.coverr1, s.blkno1 * blockSz) t₂)
    (hal : Alloc s (cur ::ₘ ((t₀ + t₁ + t₂).1 + junk))) :
    ∃ s' h' t', adjustTreeWithSplit s cur anc = .ok s' ∧
      Regrown s (t₀ + t₁ + t₂) junk s' h' t' := by
  induction anc generalizing k cur s rs t₀ t₁ t₂ junk with
  | nil =>
    obtain ⟨rfl, rfl, rfl⟩ := ha
    rw [zero_add] at hal ⊢
    refine ⟨_, _, _, rfl, newRoot_ok hm h0 h1 hal fun b hb => ?_⟩
    exact ((leavesIn_child h0).add (leavesIn_child h1)).mem hb
  | cons p anc ih =>
    have hT := (ha.leavesIn.add (leavesIn_child h0)).add (leavesIn_child h1)
    have hanc := fun b (hb : b ∈ p :: anc) => ha.anc_mem hb
    obtain ⟨hc, as, it, bs, tk, tc, ⟨n, hn, hty, hent⟩, h2, h3, h4, h5, h6, h7, rfl⟩ := ha
    generalize hTdef : ({p}, 0, 0) + tk + tc + t₁ + t₂ = T at hal hT ⊢
    have hTb : T.1 = p ::ₘ (tk.1 + (tc.1 + (t₁.1 + t₂.1))) := by
      rw [← hTdef]
      simp [Prod.fst_add, add_assoc, Multiset.singleton_add]
    have hancT : ∀ b ∈ p :: anc, b ∈ T.1 := fun b hb => by
      rw [← hTdef]
      exact Multiset.mem_add.mpr (.inl (Multiset.mem_add.mpr (.inl (hanc b hb).1)))
    have hnd := hal.nodup
    rw [hTb] at hnd
    simp only [Multiset.nodup_cons, Multiset.cons_add, Multiset.mem_cons, Multiset.mem_add,
      not_or] at hnd
    obtain ⟨⟨hcp, hck⟩, ⟨⟨hpk, hpc, hp1, hp2⟩, -⟩, -⟩ := hnd
    have hcT : cur ∉ T.2.1 := fun hmem => by
      have := hT.mem hmem
      rw [hTb] at this
      simp only [Multiset.mem_cons, Multiset.mem_add] at this
      tauto
    -- the parent's entry for the block that was split
    have hck' : cur ∉ tk.1 := hck.1.1
    have hfind := findPtr_middle hent fun a ha =>
      h4 ▸ Parts.ptr_ne h6 hck' a (List.mem_append_left _ ha)
    rw [h4] at hfind
    have hleafne : ∀ b ∈ T.2.1, b ∉ p :: anc := by
      intro b hb hmem
      obtain ⟨es, hes⟩ := hT.2 b hb
      obtain ⟨es', hes'⟩ := (hanc b hmem).2
      exact absurd (hes.ty_eq hes') (by simp)
    suffices hsuff : ∃ s' h' t', (if n.counter = maxEntries then
          splitParent { s with buffer := n } p as.length >>= fun s' =>
            adjustTreeWithSplit s' p anc
        else
          adjustTreeWithoutSplit
            (writeBlk { s with buffer := insertTwo s n as.length } p (insertTwo s n as.length)) p
            (compose s.coverr0 s.coverr1) anc) = .ok s' ∧
        Regrown s T (cur ::ₘ junk) s' h' t' by
      obtain ⟨s', h', t', hrun, hr⟩ := hsuff
      obtain ⟨s'', hfree, hr'⟩ := hr.freeBlock hc hcT
      refine ⟨s'', h', t', ?_, hr'⟩
      rw [adjustTreeWithSplit_cons hc hn hfind, hrun, ok_bind, hfree]
    have hal' : Alloc s (T.1 + (cur ::ₘ junk)) := by rwa [Multiset.add_cons]
    have hpT : p ∈ T.1 + (cur ::ₘ junk) := by rw [hTb]; simp
    split
    · next hfull =>
      obtain ⟨s₁, nd, it', s', hs', rfl, hent', hcnt, hkey, hsp⟩ :=
        splitParent_ok (s := { s with buffer := n }) hn hent hm hpT
          (hal'.congr rfl rfl fun _ _ => rfl)
      have hidx : ∀ b ∈ T.1, b ≠ p → s'.index b = s.index b := by
        intro b hb hbp
        have hbu : b ∈ T.1 + (cur ::ₘ junk) := Multiset.mem_add.mpr (.inl hb)
        have hb1 : b ≠ s'.blkno1 := fun e => hsp.fresh1 (e ▸ hbu)
        have hb0 : b ≠ s'.blkno0 := fun e => hsp.fresh0 (e ▸ hbu)
        rw [hsp.index, Function.update_of_ne hb1, Function.update_of_ne hb0]
        exact Function.update_of_ne hbp _ _
      have hsame : ∀ t : Contents, (∀ b ∈ t.1, b ∈ T.1) → p ∉ t.1 →
          SameOn s.index s'.index t.1 :=
        fun t ht hp => .of_eq fun b hb => hidx b (ht b hb) fun e : b = p => hp (e ▸ hb)
      have hkids : Parts (Child (Subtree s'.index k))
          ((s.coverr1, s.blkno1 * blockSz) :: nd.entries.map Item.key) (t₂ + (t₁ + tk)) := by
        refine ⟨t₂, t₁ + tk, h1.mono_on (hsame t₂ (fun b hb => ?_) hp2), ?_, rfl⟩
        · rw [hTb]; simp [hb]
        · rw [hent', List.map_append]
          rw [List.map_append] at h6
          refine parts_middle.mpr ⟨t₁, tk, ?_, Parts.congr_child h6 ?_, rfl⟩
          · exact hkey ▸ h0.mono_on (hsame t₁ (fun b hb => by rw [hTb]; simp [hb]) hp1)
          · exact hsame tk (fun b hb => by rw [hTb]; simp [hb]) hpk
      have hone : 1 ∈ T.1 + (cur ::ₘ junk) := by
        rw [hTb]
        have := h7.root_mem
        simp only [Multiset.mem_cons, Multiset.mem_add] at this ⊢
        tauto
      obtain ⟨u, v, huv, hc0, hc1⟩ := hsp.children (hcnt.trans hfull) hone hkids
      have hsum : tc + (({s'.blkno0}, 0, 0) + u) + (({s'.blkno1}, 0, 0) + v) =
          ({s'.blkno0}, 0, 0) + (({s'.blkno1}, 0, 0) + (tc + (t₂ + (t₁ + tk)))) := by
        rw [huv]; abel
      have hal'' : Alloc s' (p ::ₘ ((tc + (({s'.blkno0}, 0, 0) + u) +
          (({s'.blkno1}, 0, 0) + v)).1 + (cur ::ₘ junk))) := by
        convert hsp.alloc using 1
        rw [hsum, hTb]
        simp only [Prod.fst_add, ← Multiset.singleton_add]
        abel
      obtain ⟨s'', h', t', hrun, hr⟩ := ih (hsp.m.trans hm)
        (h7.congr (hsame tc (fun b hb => by rw [hTb]; simp [hb]) hpc)) hc0 hc1 hal''
      refine ⟨s'', h', t', ?_, hr.of_step ?_ ?_ hsp.lptr hsp.clears⟩
      · rw [hs', ok_bind, hrun]
      · rw [hsum, ← hTdef]
        simp only [Prod.snd_add]
        abel
      · exact fun b hb => hidx b (hT.mem hb) fun e => hleafne b hb (by simp [e])
    · next hroom =>
      obtain ⟨it₀, it₁, hent', hk0, hk1⟩ := insertTwo_entries s hent
      have hsame : ∀ bs : Multiset Nat, p ∉ bs →
          SameOn s.index (Function.update s.index p (.node (insertTwo s n as.length))) bs :=
        fun bs hp => .of_eq fun b hb => Function.update_of_ne (fun e : b = p => hp (e ▸ hb)) _ _
      have hlen : (as ++ it₀ :: it₁ :: bs).length ≤ maxEntries := by
        rw [← hent, Node.entries_length] at h3
        rw [← hent', Node.entries_length]
        show n.counter + 1 ≤ maxEntries
        omega
      have hsub : Subtree (Function.update s.index p (.node (insertTwo s n as.length))) (k + 1) p
          (as ++ it₀ :: it₁ :: bs) (({p}, 0, 0) + (t₁ + (t₂ + tk))) := by
        refine ⟨⟨_, Function.update_self _ _ _, hty, hent'⟩, ?_, hlen, _, ?_, rfl⟩
        · simp only [List.length_append, List.length_cons]
          omega
        · rw [List.map_append] at h6 ⊢
          refine parts_middle.mpr ⟨t₁, t₂ + tk, ?_, parts_middle.mpr ⟨t₂, tk, ?_, ?_, rfl⟩, rfl⟩
          · exact hk0 ▸ h0.mono_on (hsame _ hp1)
          · exact hk1 ▸ h1.mono_on (hsame _ hp2)
          · exact Parts.congr_child h6 (hsame _ hpk)
      have hcover : ∀ x ∈ as ++ it₀ :: it₁ :: bs, x.rect ∈ (as ++ it :: bs).map Item.rect ∨
          Covers (compose s.coverr0 s.coverr1) x.rect := by
        intro x hx
        simp only [List.mem_append, List.mem_cons] at hx
        rcases hx with hx | rfl | rfl | hx
        · exact .inl (List.mem_map_of_mem (List.mem_append_left _ hx))
        · have hr : x.rect = s.coverr0 := congrArg Prod.fst hk0
          exact .inr (hr ▸ compose_covers_left _ _)
        · have hr : x.rect = s.coverr1 := congrArg Prod.fst hk1
          exact .inr (hr ▸ compose_covers_right _ _)
        · exact .inl (List.mem_map_of_mem
            (List.mem_append_right _ (List.mem_cons_of_mem _ hx)))
      have hsum : tc + (({p}, 0, 0) + (t₁ + (t₂ + tk))) = T := by
        rw [← hTdef]; abel
      obtain ⟨idx, buf, hrun, hframe, es', hroot⟩ := adjustTreeWithoutSplit_ok
        (s := writeBlk { s with buffer := insertTwo s n as.length } p (insertTwo s n as.length))
        (h7.congr (hsame _ hpc)) hsub
        (hsum ▸ (Multiset.nodup_add.mp hal'.nodup).1) (fun _ => by simp; omega) hcover
      have hidx : ∀ b, b ∉ p :: anc → idx b = s.index b := by
        intro b hb
        rw [List.mem_cons, not_or] at hb
        rw [hframe b hb.2]
        exact Function.update_of_ne hb.1 _ _
      refine ⟨_, h, T, hrun, ⟨es', hsum ▸ hroot⟩, rfl, ?_, fun b hb => hidx b (hleafne b hb), hm,
        rfl, id⟩
      refine hal'.congr rfl rfl fun b hb => hidx b fun hmem => hb ?_
      exact Multiset.mem_add.mpr (.inl (hancT b hmem))

end StreamMill.RTree
