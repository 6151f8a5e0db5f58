import StreamMill.FPTree.Tree
import StreamMill.Lib.Weight

/-!
# StreamMill.FPTree.Represents

What a tree holds: `Represents tree ts` says that the nodes are the prefixes of the transactions
`ts` and that every node has the weight of those that go through it. On its way down the insertion
of a transaction represents the part of it that is done, so each step of its loops is the step from
`done` to `done ++ [c]`.
-/

namespace StreamMill.FPTree

open Lib

def weightOf (ts : List Trans) (p : List Nat → Bool) : Nat :=
  weight Trans.support ts fun t => p t.items

structure Represents (tree : Tree) (ts : List Trans) : Prop where
  mem : ∀ a, a ∈ tree.nodes ↔ a ≠ [] ∧ ∃ t ∈ ts, a <+: t.items
  nodup : tree.nodes.Nodup
  child : ∀ a c, c ∈ tree.children a ↔ a ++ [c] ∈ tree.nodes
  childNodup : ∀ a, (tree.children a).Nodup
  support : ∀ a, (tree.node a).support = weightOf ts fun l => a <+: l
  single : ∀ i, tree.singleSupport i = weightOf ts fun l => i ∈ l

variable {tree : Tree} {ts : List Trans} {s : Nat} {done : Adr} {c : Nat}

theorem newTree_represents (maxItems : Nat) : Represents (newTree maxItems) [] where
  mem := fun a => by simp [newTree]
  nodup := List.nodup_nil
  child := fun a c => by simp [newTree]
  childNodup := fun a => List.nodup_nil
  support := fun a => rfl
  single := fun i => rfl

theorem weightOf_concat (ts : List Trans) (t : Trans) (p : List Nat → Bool) :
    weightOf (ts ++ [t]) p = weightOf ts p + if p t.items then t.support else 0 :=
  weight_concat t

theorem prefix_concat_iff {a : Adr} : a <+: done ++ [c] ↔ a <+: done ∨ a = done ++ [c] := by
  rw [List.prefix_concat_iff]
  exact or_comm

theorem prefix_unique {l b c : Adr} {x : Nat} (hnd : l.Nodup) (hb : b ++ [x] <+: l)
    (hc : c ++ [x] <+: l) : b ++ [x] = c ++ [x] := by
  have hle : ∀ {b c : Adr}, c ++ [x] <+: l → b ++ [x] <+: c ++ [x] → b ++ [x] = c ++ [x] := by
    intro b c hc hp
    rcases prefix_concat_iff.mp hp with hp | heq
    · have hx : x ∈ c := hp.subset (by simp)
      have hnd' := hnd.sublist hc.sublist
      exact absurd rfl ((List.nodup_append.mp hnd').2.2 x hx x List.mem_cons_self)
    · exact heq
  rcases List.prefix_or_prefix_of_prefix hb hc with hp | hp
  · exact hle hc hp
  · exact (hle hb hp).symm

theorem support_next (ts : List Trans) (s : Nat) (done : Adr) (c : Nat) (a : Adr) :
    weightOf (ts ++ [⟨s, done ++ [c]⟩]) (fun l => a <+: l) =
      weightOf (ts ++ [⟨s, done⟩]) (fun l => a <+: l) + if a = done ++ [c] then s else 0 := by
  rw [weightOf_concat, weightOf_concat]
  by_cases h : a = done ++ [c]
  · have hnot : ¬ (done ++ [c]) <+: done := by
      intro hp
      have hle := hp.length_le
      simp only [List.length_append, List.length_singleton] at hle
      omega
    subst h
    simp [hnot]
  · simp [prefix_concat_iff, h, or_false]

theorem single_next (ts : List Trans) (s : Nat) (hc : c ∉ done) (i : Nat) :
    weightOf (ts ++ [⟨s, done ++ [c]⟩]) (fun l => i ∈ l) =
      weightOf (ts ++ [⟨s, done⟩]) (fun l => i ∈ l) + if i = c then s else 0 := by
  rw [weightOf_concat, weightOf_concat]
  by_cases h : i = c
  · subst h
    simp [hc]
  · simp [h]

theorem mem_next (ts : List Trans) (s : Nat) (done : Adr) (c : Nat) (a : Adr) :
    (∃ t ∈ ts ++ [⟨s, done ++ [c]⟩], a <+: t.items) ↔
      (∃ t ∈ ts ++ [⟨s, done⟩], a <+: t.items) ∨ a = done ++ [c] := by
  simp [List.mem_append, or_and_right, exists_or,
    prefix_concat_iff, or_assoc]

theorem Represents.visitRoot (h : Represents tree ts) (s : Nat) :
    Represents (tree.visit [] s) (ts ++ [⟨s, []⟩]) where
  mem := by
    intro a
    refine (h.mem a).trans (and_congr_right fun hne => ?_)
    simp [or_and_right, exists_or, hne]
  nodup := h.nodup
  child := h.child
  childNodup := h.childNodup
  support := by
    intro a
    rw [weightOf_concat, ← h.support]
    by_cases ha : a = []
    · subst ha
      simp [Tree.visit]
    · simp [Tree.visit, ha]
  single := by
    intro i
    rw [weightOf_concat, ← h.single]
    simp [Tree.visit]

theorem Represents.visitChild (h : Represents tree (ts ++ [⟨s, done⟩]))
    (hchild : c ∈ tree.children done) (hc : c ∉ done) :
    Represents ((tree.visit (done ++ [c]) s).addSingle c s) (ts ++ [⟨s, done ++ [c]⟩]) where
  mem := by
    intro a
    rw [mem_next]
    refine (h.mem a).trans ⟨fun ha => ⟨ha.1, .inl ha.2⟩, fun ha => ⟨ha.1, ?_⟩⟩
    rcases ha.2 with hex | rfl
    · exact hex
    · exact ((h.mem _).mp ((h.child done c).mp hchild)).2
  nodup := h.nodup
  child := h.child
  childNodup := h.childNodup
  support := by
    intro a
    rw [support_next, ← h.support]
    by_cases ha : a = done ++ [c]
    · subst ha
      simp [Tree.addSingle, Tree.visit]
    · simp [Tree.addSingle, Tree.visit, ha]
  single := by
    intro i
    rw [single_next ts s hc, ← h.single]
    by_cases hi : i = c
    · subst hi
      simp [Tree.addSingle, Tree.visit]
    · simp [Tree.addSingle, Tree.visit, hi]

theorem Represents.setReturn (h : Represents tree ts) (a : Adr) (r : Option Adr) :
    Represents (tree.setReturn a r) ts where
  mem := h.mem
  nodup := h.nodup
  child := h.child
  childNodup := h.childNodup
  support := by
    intro b
    rw [← h.support]
    by_cases hb : b = a
    · subst hb
      simp [Tree.setReturn]
    · simp [Tree.setReturn, Function.update_of_ne hb]
  single := h.single

theorem Represents.newNode (h : Represents tree (ts ++ [⟨s, done⟩]))
    (hchild : c ∉ tree.children done) (hc : c ∉ done) {siblings : List Nat}
    (hperm : siblings.Perm (c :: tree.children done)) :
    Represents (tree.newNode done c s siblings) (ts ++ [⟨s, done ++ [c]⟩]) := by
  have hnew : done ++ [c] ∉ tree.nodes := fun hm => hchild ((h.child done c).mpr hm)
  have hnone : ∀ t ∈ ts ++ [⟨s, done⟩], ¬ done ++ [c] <+: t.items :=
    fun t ht hp => hnew ((h.mem _).mpr ⟨by simp, t, ht, hp⟩)
  have hweight : weightOf (ts ++ [⟨s, done⟩]) (fun l => done ++ [c] <+: l) = 0 :=
    weight_zero fun t ht => decide_eq_false (hnone t ht)
  refine ⟨?_, List.nodup_cons.mpr ⟨hnew, h.nodup⟩, ?_, ?_, ?_, ?_⟩
  · intro a
    rw [mem_next]
    simp only [Tree.newNode, List.mem_cons, h.mem a]
    constructor
    · rintro (rfl | ⟨hne, hex⟩)
      · exact ⟨by simp, .inr rfl⟩
      · exact ⟨hne, .inl hex⟩
    · rintro ⟨hne, hex | rfl⟩
      · exact .inr ⟨hne, hex⟩
      · exact .inl rfl
  · intro a d
    simp only [Tree.newNode, List.mem_cons]
    by_cases ha : a = done
    · subst ha
      rw [Function.update_self, hperm.mem_iff, List.mem_cons, h.child]
      simp
    · rw [Function.update_of_ne ha]
      by_cases ha' : a = done ++ [c]
      · subst ha'
        rw [Function.update_self]
        have hno : done ++ [c] ++ [d] ∉ tree.nodes := by
          intro hm
          obtain ⟨-, t, ht, hp⟩ := (h.mem _).mp hm
          exact hnone t ht ((List.prefix_append _ _).trans hp)
        simp only [List.not_mem_nil, false_iff, not_or]
        exact ⟨by simp, hno⟩
      · rw [Function.update_of_ne ha', h.child]
        have hno : a ++ [d] ≠ done ++ [c] := fun he => ha (List.append_inj_left' he rfl)
        simp [hno]
  · intro a
    simp only [Tree.newNode]
    by_cases ha : a = done
    · subst ha
      rw [Function.update_self]
      exact hperm.nodup_iff.mpr (List.nodup_cons.mpr ⟨hchild, h.childNodup _⟩)
    · rw [Function.update_of_ne ha]
      by_cases ha' : a = done ++ [c]
      · subst ha'
        rw [Function.update_self]
        exact List.nodup_nil
      · rw [Function.update_of_ne ha']
        exact h.childNodup a
  · intro a
    rw [support_next]
    simp only [Tree.newNode]
    by_cases ha : a = done ++ [c]
    · subst ha
      simp [hweight]
    · simp [ha, h.support]
  · intro i
    rw [single_next ts s hc]
    simp only [Tree.newNode]
    by_cases hi : i = c
    · subst hi
      simp [h.single]
    · simp [hi, h.single]

theorem nodup_next {items : List Nat} (h : (done ++ c :: items).Nodup) :
    c ∉ done ∧ ((done ++ [c]) ++ items).Nodup := by
  refine ⟨fun hc => ?_, by simpa using h⟩
  exact (List.nodup_append.mp h).2.2 c hc c List.mem_cons_self rfl

theorem grow_represents {items : List Nat} {r : Option Adr}
    (h : Represents tree (ts ++ [⟨s, done⟩])) (hnd : (done ++ items).Nodup)
    (hno : ∀ c ∈ items.head?, c ∉ tree.children done) :
    Represents (grow s r tree done items) (ts ++ [⟨s, done ++ items⟩]) := by
  induction items generalizing tree done with
  | nil =>
    rw [List.append_nil]
    exact h
  | cons c items ih =>
    obtain ⟨hc, hnd'⟩ := nodup_next hnd
    have hnew := h.newNode (hno c rfl) hc (List.Perm.refl _)
    have hempty : (tree.newNode done c s (c :: tree.children done)).children (done ++ [c]) = [] := by
      rw [Tree.newNode]
      simp
    have hcons : done ++ c :: items = done ++ [c] ++ items := by simp
    rw [grow, hcons]
    split
    · refine ih (hnew.setReturn _ _) hnd' fun d _ => ?_
      rw [Tree.setReturn, hempty]
      exact List.not_mem_nil
    · refine ih hnew hnd' fun d _ => ?_
      rw [hempty]
      exact List.not_mem_nil

theorem descend_represents (items : List Nat) (r : Option Adr)
    (h : Represents tree (ts ++ [⟨s, done⟩])) (hnd : (done ++ items).Nodup) :
    ∃ tree' done' items', descend s r tree done items = (tree', done', items') ∧
      done' ++ items' = done ++ items ∧ Represents tree' (ts ++ [⟨s, done'⟩]) ∧
      (∀ c ∈ items'.head?, c ∉ tree'.children done') ∧ tree'.maxItems = tree.maxItems := by
  induction items generalizing tree done with
  | nil => exact ⟨tree, done, [], rfl, rfl, h, by simp, rfl⟩
  | cons c items ih =>
    obtain ⟨hc, hnd'⟩ := nodup_next hnd
    by_cases hchild : c ∈ tree.children done
    · have hvisit := h.visitChild hchild hc
      rw [descend, if_pos hchild]
      have hcons : done ++ c :: items = done ++ [c] ++ items := by simp
      rw [hcons]
      split
      · exact ih (hvisit.setReturn _ _) hnd'
      · exact ih hvisit hnd'
    · exact ⟨tree, done, c :: items, by rw [descend, if_neg hchild], rfl, h, by simpa using hchild,
        rfl⟩

theorem insertTransAdr_represents (h : Represents tree ts) {t : Trans} (ht : t.items.Nodup)
    (r : Option Adr) : Represents (insertTransAdr tree t r).1 (ts ++ [t]) := by
  obtain ⟨tree', done, items, hdescend, happ, h', hno, -⟩ :=
    descend_represents t.items r (h.visitRoot t.support) (by simpa using ht)
  rw [insertTransAdr, hdescend]
  have hgrow := grow_represents (r := r) h' (happ ▸ ht) hno
  rw [happ] at hgrow
  exact hgrow

theorem grow_maxItems (s : Nat) (r : Option Adr) (tree : Tree) (parent : Adr) (items : List Nat) :
    (grow s r tree parent items).maxItems = tree.maxItems := by
  induction items generalizing tree parent with
  | nil => rfl
  | cons c items ih =>
    rw [grow]
    split
    · rw [ih]
      rfl
    · rw [ih]
      rfl

theorem insertTransAdr_maxItems (h : Represents tree ts) {t : Trans} (ht : t.items.Nodup)
    (r : Option Adr) : (insertTransAdr tree t r).1.maxItems = tree.maxItems := by
  obtain ⟨tree', done, items, hdescend, -, -, -, hmax⟩ :=
    descend_represents t.items r (h.visitRoot t.support) (by simpa using ht)
  rw [insertTransAdr, hdescend]
  exact (grow_maxItems ..).trans hmax

def build (tree : Tree) (ts : List Trans) : Tree :=
  ts.foldl (fun tree t => (insertTrans tree t).1) tree

theorem build_represents {us : List Trans} (h : Represents tree us)
    (hts : ∀ t ∈ ts, t.items.Nodup) :
    Represents (build tree ts) (us ++ ts) ∧ (build tree ts).maxItems = tree.maxItems := by
  induction ts generalizing tree us with
  | nil =>
    rw [List.append_nil]
    exact ⟨h, rfl⟩
  | cons t ts ih =>
    obtain ⟨ht, hts⟩ := List.forall_mem_cons.mp hts
    obtain ⟨hrep, hmax⟩ := ih (insertTransAdr_represents h ht none) hts
    rw [List.append_assoc] at hrep
    exact ⟨hrep, hmax.trans (insertTransAdr_maxItems h ht none)⟩

theorem seek_cons (c i : Nat) (l : List Nat) : seek c (i :: l) =
    if i = c then some i
    else if i > c then none
    else
      match l with
      | [] => some i
      | j :: _ => if j ≤ c then seek c l else some i := by
  cases l <;> rfl

theorem seek_mem {c left : Nat} {l : List Nat} (h : seek c l = some left) : left ∈ l := by
  induction l with
  | nil => cases h
  | cons i l ih =>
    rw [seek_cons] at h
    split at h
    · cases h
      exact List.mem_cons_self
    · split at h
      · cases h
      · cases l with
        | nil =>
          cases h
          exact List.mem_cons_self
        | cons j l =>
          dsimp only at h
          split at h
          · exact List.mem_cons_of_mem _ (ih h)
          · cases h
            exact List.mem_cons_self

theorem seek_ne_none {c j : Nat} (l : List Nat) (h : j ≤ c) : seek c (j :: l) ≠ none := by
  induction l generalizing j with
  | nil =>
    intro hn
    rw [seek_cons] at hn
    split at hn
    · cases hn
    · rw [if_neg (by omega)] at hn
      cases hn
  | cons k l ih =>
    intro hn
    rw [seek_cons] at hn
    split at hn
    · cases hn
    · rw [if_neg (by omega)] at hn
      dsimp only at hn
      split at hn
      · next hk => exact ih hk hn
      · cases hn

theorem place_seek {l : List Nat} (h : l.Pairwise (· < ·)) (c : Nat) :
    (seek c l = some c ↔ c ∈ l) ∧
      (c ∉ l → place (seek c l) c l = l.orderedInsert (· ≤ ·) c) := by
  induction l with
  | nil => simp [seek, place]
  | cons i l ih =>
    obtain ⟨hi, hl⟩ := List.pairwise_cons.mp h
    obtain ⟨ihmem, ihplace⟩ := ih hl
    rw [seek_cons]
    by_cases hic : i = c
    · subst hic
      simp
    · rw [if_neg hic]
      by_cases hgt : i > c
      · have hno : c ∉ l := fun hm => by
          have := hi c hm
          omega
        rw [if_pos hgt]
        simp [Ne.symm hic, hno, place, Nat.le_of_lt hgt]
      · have hlt : i < c := by omega
        rw [if_neg hgt]
        cases l with
        | nil => simp [hic, Ne.symm hic, place, insertAfter, hlt]
        | cons j l =>
          dsimp only
          by_cases hjc : j ≤ c
          · rw [if_pos hjc]
            obtain ⟨left, hleft⟩ := Option.ne_none_iff_exists'.mp (seek_ne_none l hjc)
            have hne : i ≠ left := (hi left (seek_mem hleft)).ne
            rw [hleft] at ihmem ihplace ⊢
            refine ⟨ihmem.trans ?_, fun hno => ?_⟩
            · simp [Ne.symm hic]
            · have hrest := ihplace fun hm => hno (List.mem_cons_of_mem _ hm)
              rw [place] at hrest ⊢
              have hnle : ¬ c ≤ i := by omega
              rw [insertAfter, if_neg hne, hrest]
              exact (if_neg hnle).symm
          · rw [if_neg hjc]
            have hno : c ∉ j :: l := by
              intro hm
              rcases List.mem_cons.mp hm with rfl | hm
              · exact hjc le_rfl
              · have := (List.pairwise_cons.mp hl).1 c hm
                omega
            have hle : c ≤ j := by omega
            have hnle : ¬ c ≤ i := by omega
            refine ⟨?_, fun _ => ?_⟩
            · simp [hic, Ne.symm hic, hno]
            · simp [place, insertAfter, hnle, hle]

end StreamMill.FPTree
