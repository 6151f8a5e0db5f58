import StreamMill.Swim.Verify

/-!
# StreamMill.Swim.VerifyExact

The recursion of `Verify`. On entry to a node `u` of the pattern tree the marks of its own item are
right and there are none below (`Ready`); on exit the marks are the same, and the supports below `u`
are those of the patterns, down to where a pattern is not frequent (`Counted`).
-/

namespace StreamMill.Swim

open Lib
open FPTree (Trans Adr weightOf)

variable {fp pat : Tree} {T : FPTree.Tree} {addr paddr : Adr → Ptr} {ts : List Trans} {P : Shape}
  {F : Ptr → Flag} {C C' : Ptr → BitVec 32} {a b c : Adr} {x depth : Nat} {minsupp : Int}

structure Ready (T : FPTree.Tree) (addr : Adr → Ptr) (F : Ptr → Flag) (a : Adr) : Prop where
  own : ∀ b ∈ T.nodes, FPTree.itemNo b = FPTree.itemNo a → F (addr b) = markOf a b
  below : ∀ b ∈ T.nodes, FPTree.itemNo a < FPTree.itemNo b → F (addr b) = .nil

def Below (P : Shape) (a c : Adr) : Prop := c ∈ P.nodes ∧ a <+: c ∧ c ≠ a

/-- The support of a pattern, as an `int`. -/
def wanted (ts : List Trans) (c : Adr) : BitVec 32 :=
  BitVec.ofNat 32 (weightOf ts fun l => ∀ y ∈ c, y ∈ l)

/-- The supports below `a` are right, down to where a pattern is not frequent. -/
def Counted (P : Shape) (paddr : Adr → Ptr) (ts : List Trans) (minsupp : Int) (C : Ptr → BitVec 32)
    (a : Adr) : Prop :=
  ∀ c, Below P a c → (∀ d, Below P a d → d <+: c → d ≠ c → minsupp ≤ (C (paddr d)).toInt) →
    C (paddr c) = wanted ts c

def Elsewhere (paddr : Adr → Ptr) (nodes : Adr → Prop) (C C' : Ptr → BitVec 32) : Prop :=
  ∀ q, (∀ c, nodes c → q ≠ paddr c) → C' q = C q

variable {nodes : Adr → Prop} {ds : List Nat}

theorem Elsewhere.mono {nodes' : Adr → Prop} (h : Elsewhere paddr nodes C C')
    (hsub : ∀ c, nodes c → nodes' c) : Elsewhere paddr nodes' C C' :=
  fun q hq => h q fun c hc => hq c (hsub c hc)

theorem Elsewhere.trans {C'' : Ptr → BitVec 32} (h : Elsewhere paddr nodes C C')
    (h' : Elsewhere paddr nodes C' C'') :
    Elsewhere paddr nodes C C'' :=
  fun q hq => (h' q hq).trans (h q hq)

theorem Elsewhere.at (hlinks : Linked pat P paddr) (h : Elsewhere paddr nodes C C')
    (hnodes : ∀ d, nodes d → P.Has d) (hc : P.Has c) (hno : ¬ nodes c) :
    C' (paddr c) = C (paddr c) := by
  refine h _ fun d hd heq => hno ?_
  rw [hlinks.inj c d hc (hnodes d hd) heq]
  exact hd

theorem child_unique {x y : Nat} (h : a ++ [x] <+: c) (h' : a ++ [y] <+: c) : x = y := by
  obtain ⟨r, rfl⟩ := h
  obtain ⟨r', heq⟩ := h'
  simp only [List.append_assoc, List.append_cancel_left_eq, List.singleton_append,
    List.cons.injEq] at heq
  exact heq.1.symm

theorem Below.child (hok : P.Ok) (h : Below P a c) :
    ∃ x ∈ P.children a, a ++ [x] <+: c := by
  obtain ⟨hc, ⟨r, rfl⟩, hne⟩ := h
  cases r with
  | nil => exact absurd (List.append_nil a) hne
  | cons x r =>
    have hp : a ++ [x] <+: a ++ x :: r := ⟨r, by rw [List.append_assoc]; rfl⟩
    refine ⟨x, (hok.child a x).mpr ?_, hp⟩
    have hhas := hok.has_prefix (P.has_node hc) hp
    exact (List.mem_cons.mp hhas).resolve_left (by simp)

/-- The marks after the children `ds` of `a` were looked at. -/
def marksOf (T : FPTree.Tree) (addr : Adr → Ptr) (F : Ptr → Flag) (a : Adr) (ds : List Nat) :
    Ptr → Flag :=
  setAll addr F (ds.flatMap (shape T).header) (markOf a)

theorem marksOf_concat (ds : List Nat) (x : Nat) :
    setAll addr (marksOf T addr F a ds) ((shape T).header x) (markOf a) =
      marksOf T addr F a (ds ++ [x]) := by
  rw [marksOf, marksOf, ← setAll_append, List.flatMap_append, List.flatMap_singleton]

theorem mem_headers : b ∈ ds.flatMap (shape T).header ↔
    b ∈ T.nodes ∧ ∃ x ∈ ds, FPTree.itemNo b = x := by
  rw [List.mem_flatMap]
  constructor
  · rintro ⟨x, hx, hb⟩
    obtain ⟨hm, b, rfl⟩ := Shape.mem_header.mp hb
    exact ⟨hm, x, hx, itemNo_concat b x⟩
  · rintro ⟨hm, x, hx, heq⟩
    refine ⟨x, hx, Shape.mem_header.mpr ⟨hm, ?_⟩⟩
    rcases List.eq_nil_or_concat b with rfl | ⟨b, y, rfl⟩
    · have hneg : FPTree.itemNo [] = -1 := rfl
      omega
    · rw [List.concat_eq_append] at heq ⊢
      rw [itemNo_concat] at heq
      obtain rfl : y = x := Int.ofNat_inj.mp heq
      exact ⟨b, rfl⟩

theorem marksOf_eq (hlinks : Linked fp (shape T) addr) (hb : b ∈ T.nodes) :
    marksOf T addr F a ds (addr b) =
      if ∃ x ∈ ds, FPTree.itemNo b = x then markOf a b else F (addr b) := by
  have hhas : ∀ c, c ∈ ds.flatMap (shape T).header → (shape T).Has c :=
    fun c hc => (shape T).has_node (mem_headers.mp hc).1
  split
  · next hex =>
    exact setAll_of_mem (mem_headers.mpr ⟨hb, hex⟩) fun c hc heq =>
      hlinks.inj c b (hhas c hc) ((shape T).has_node hb) heq
  · next hno =>
    refine setAll_of_not_mem fun hm => hno ?_
    obtain ⟨c, hc, heq⟩ := List.mem_map.mp hm
    rw [hlinks.inj c b (hhas c hc) ((shape T).has_node hb) heq] at hc
    exact (mem_headers.mp hc).2

theorem Ready.marked (hF : Ready T addr F a) (hlinks : Linked fp (shape T) addr)
    (hds : ∀ x ∈ ds, FPTree.itemNo a < x) : Marked T addr (marksOf T addr F a ds) a := by
  refine ⟨fun b hb heq => ?_, fun b hb hlt => ?_⟩
  · rw [marksOf_eq hlinks hb, if_neg]
    · exact hF.own b hb heq
    · rintro ⟨x, hx, hbx⟩
      have hlt := hds x hx
      omega
  · rw [marksOf_eq hlinks hb]
    split
    · exact .inr rfl
    · exact .inl (hF.below b hb hlt)

theorem Ready.child (hF : Ready T addr F a) (hlinks : Linked fp (shape T) addr) {ds : List Nat}
    (hx : FPTree.itemNo a < x) (hds : ∀ y ∈ ds, y < x) :
    Ready T addr (marksOf T addr F a (ds ++ [x])) (a ++ [x]) := by
  refine ⟨fun b hb heq => ?_, fun b hb hlt => ?_⟩
  · rw [itemNo_concat] at heq
    rw [marksOf_eq hlinks hb, if_pos ⟨x, by simp, heq⟩, markOf, markOf]
    have hxb : x ∈ b := by
      have hne : b ≠ [] := by
        rintro rfl
        exact absurd hb hlinks.ok.root
      obtain ⟨y, hy, hbi⟩ := itemNo_mem hne
      rw [hbi] at heq
      obtain rfl : y = x := Int.ofNat_inj.mp heq
      exact hy
    have hiff : (∀ y ∈ a ++ [x], y ∈ b) ↔ ∀ y ∈ a, y ∈ b := by
      simp [List.mem_append, or_imp, forall_and, forall_eq, hxb, and_true]
    simp only [hiff]
  · rw [itemNo_concat] at hlt
    rw [marksOf_eq hlinks hb, if_neg]
    · exact hF.below b hb (by omega)
    · rintro ⟨y, hy, hbi⟩
      rcases List.mem_append.mp hy with hy | hy
      · have hyx := hds y hy
        omega
      · obtain rfl := List.mem_singleton.mp hy
        omega

theorem Counted.congr (h : Counted P paddr ts minsupp C a)
    (heq : ∀ c, Below P a c → C' (paddr c) = C (paddr c)) : Counted P paddr ts minsupp C' a := by
  intro c hc hfreq
  rw [heq c hc]
  refine h c hc fun d hd hp hne => ?_
  rw [← heq d hd]
  exact hfreq d hd hp hne

theorem Beside.chainAt_eq (h : Beside fp T addr ts pat P paddr) (hax : a ++ [x] ∈ P.nodes) :
    (fp.withFlags F).chainAt ((pat.withSupports C).node (paddr (a ++ [x]))).itemNo.toInt =
      .ok (((shape T).header x).map addr) := by
  have hitem : ((pat.withSupports C).node (paddr (a ++ [x]))).itemNo.toInt = x :=
    h.links.item_eq ((h.links.ok.child a x).mpr hax)
  have hmax : x < (fp.withFlags F).maxItems := h.table a x hax
  rw [Tree.chainAt, hitem, if_pos ⟨by omega, by omega⟩]
  exact h.refines.links.chain_eq x

theorem Beside.verifyChild_eq (h : Beside fp T addr ts pat P paddr) (minsupp : Int)
    (hax : a ++ [x] ∈ P.nodes) (hF : Marked T addr (marksOf T addr F a ds) a)
    (hzero : C (paddr (a ++ [x])) = 0#32) (rec : Ptr → Tree × Tree → Except Fault (Tree × Tree)) :
    let s := (fp.withFlags (marksOf T addr F a (ds ++ [x])),
      pat.withSupports (Function.update C (paddr (a ++ [x])) (wanted ts (a ++ [x]))))
    verifyChild minsupp rec (paddr a) (fp.withFlags (marksOf T addr F a ds), pat.withSupports C)
        (paddr (a ++ [x])) =
      if minsupp ≤ (wanted ts (a ++ [x])).toInt then rec (paddr (a ++ [x])) s else .ok s := by
  intro s
  have hmarks := h.marks_eq (C := C) hax hF (fun b hb => hb) (paddr (a ++ [x]))
  rw [hzero, BitVec.zero_add, h.count_eq (h.paths _ hax), marksOf_concat] at hmarks
  have hcount : ((s.2.node (paddr (a ++ [x]))).support) = wanted ts (a ++ [x]) :=
    Function.update_self ..
  rw [verifyChild]
  simp only [h.chainAt_eq hax]
  change ((((shape T).header x).map addr).foldlM (mark (paddr a) (paddr (a ++ [x])))
    (fp.withFlags (marksOf T addr F a ds), pat.withSupports C) >>= _) = _
  rw [hmarks]
  show (if minsupp ≤ ((s.2.node (paddr (a ++ [x]))).support).toInt then _ else _) = _
  rw [hcount]
  rfl

/-- What the recursive call does at a child of `a`. -/
def Verifies (fp pat : Tree) (T : FPTree.Tree) (addr paddr : Adr → Ptr) (ts : List Trans)
    (P : Shape) (minsupp : Int) (rec : Ptr → Tree × Tree → Except Fault (Tree × Tree)) (a : Adr) :
    Prop :=
  ∀ F C, Ready T addr F a → (∀ c, Below P a c → C (paddr c) = 0#32) →
    ∃ C', rec (paddr a) (fp.withFlags F, pat.withSupports C) =
        .ok (fp.withFlags F, pat.withSupports C') ∧
      Elsewhere paddr (Below P a) C C' ∧ Counted P paddr ts minsupp C' a

theorem Beside.item_lt (h : Beside fp T addr ts pat P paddr) (hx : x ∈ P.children a) :
    FPTree.itemNo a < x := by
  have hinc := h.paths _ ((h.links.ok.child a x).mp hx)
  by_cases ha : a = []
  · subst ha
    have hneg : FPTree.itemNo [] = -1 := rfl
    omega
  · obtain ⟨y, hy, heq⟩ := itemNo_mem ha
    have hlt := (List.pairwise_append.mp hinc).2.2 y hy x List.mem_cons_self
    omega

theorem Beside.children_loop (h : Beside fp T addr ts pat P paddr) (hF : Ready T addr F a)
    {rec : Ptr → Tree × Tree → Except Fault (Tree × Tree)}
    (hrec : ∀ x ∈ P.children a, Verifies fp pat T addr paddr ts P minsupp rec (a ++ [x]))
    {rest : List Nat} (hsplit : P.children a = ds ++ rest)
    (hzero : ∀ x ∈ rest, ∀ c, P.Has c → a ++ [x] <+: c → C (paddr c) = 0#32) :
    ∃ C', (rest.map fun x => paddr (a ++ [x])).foldlM (verifyChild minsupp rec (paddr a))
        (fp.withFlags (marksOf T addr F a ds), pat.withSupports C) =
          .ok (fp.withFlags (marksOf T addr F a (ds ++ rest)), pat.withSupports C') ∧
      Elsewhere paddr (fun c => P.Has c ∧ ∃ x ∈ rest, a ++ [x] <+: c) C C' ∧
      ∀ x ∈ rest, C' (paddr (a ++ [x])) = wanted ts (a ++ [x]) ∧
        (minsupp ≤ (wanted ts (a ++ [x])).toInt → Counted P paddr ts minsupp C' (a ++ [x])) := by
  have hlinks := h.links
  have hsorted := h.sorted a
  induction rest generalizing ds C with
  | nil =>
    refine ⟨C, ?_, fun q _ => rfl, by simp⟩
    rw [List.append_nil]
    rfl
  | cons x rest ih =>
    have hx : x ∈ P.children a := by simp [hsplit]
    have hax := (hlinks.ok.child a x).mp hx
    have hhas := hlinks.ok.has_child hx
    rw [hsplit] at hsorted
    obtain ⟨-, hxrest, hdsx⟩ := List.pairwise_append.mp hsorted
    have hdsx : ∀ y ∈ ds, y < x := fun y hy => hdsx y hy x List.mem_cons_self
    have hitem : ∀ y ∈ P.children a, FPTree.itemNo a < y := fun y => h.item_lt
    have hmarked : Marked T addr (marksOf T addr F a ds) a :=
      hF.marked h.refines.links fun y hy => hitem y (by simp [hsplit, hy])
    have hchild := h.verifyChild_eq minsupp hax hmarked
      (hzero x List.mem_cons_self _ hhas List.prefix_rfl) rec
    obtain ⟨C₁, hstep, hframe, hwant, hcounted⟩ : ∃ C₁, verifyChild minsupp rec (paddr a)
        (fp.withFlags (marksOf T addr F a ds), pat.withSupports C) (paddr (a ++ [x])) =
          .ok (fp.withFlags (marksOf T addr F a (ds ++ [x])), pat.withSupports C₁) ∧
        Elsewhere paddr (fun c => P.Has c ∧ a ++ [x] <+: c) C C₁ ∧
        C₁ (paddr (a ++ [x])) = wanted ts (a ++ [x]) ∧
        (minsupp ≤ (wanted ts (a ++ [x])).toInt → Counted P paddr ts minsupp C₁ (a ++ [x])) := by
      have hupdate : Elsewhere paddr (fun c => P.Has c ∧ a ++ [x] <+: c) C
          (Function.update C (paddr (a ++ [x])) (wanted ts (a ++ [x]))) := fun q hq =>
        Function.update_of_ne (hq _ ⟨hhas, List.prefix_rfl⟩) _ _
      by_cases hfreq : minsupp ≤ (wanted ts (a ++ [x])).toInt
      · obtain ⟨C₁, hrun, hframe, hcounted⟩ := hrec x hx _
          (Function.update C (paddr (a ++ [x])) (wanted ts (a ++ [x])))
          (hF.child h.refines.links (hitem x hx) hdsx) (by
            rintro c ⟨hc, hp, hne⟩
            rw [Function.update_of_ne fun he => hne (hlinks.inj _ _ (P.has_node hc) hhas he)]
            exact hzero x List.mem_cons_self c (P.has_node hc) hp)
        refine ⟨C₁, ?_, ?_, ?_, fun _ => hcounted⟩
        · rw [hchild, if_pos hfreq]
          exact hrun
        · exact hupdate.trans (hframe.mono fun c hc => ⟨P.has_node hc.1, hc.2.1⟩)
        · rw [hframe.at hlinks (fun d hd => P.has_node hd.1) hhas fun hb => hb.2.2 rfl,
            Function.update_self]
      · refine ⟨_, ?_, hupdate, Function.update_self .., fun hle => absurd hle hfreq⟩
        rw [hchild, if_neg hfreq]
    -- the nodes below the children that follow are others
    have hother : ∀ y ∈ rest, ∀ c, a ++ [y] <+: c → ¬ a ++ [x] <+: c := by
      intro y hy c hyc hxc
      have hlt := (List.pairwise_cons.mp hxrest).1 y hy
      rw [child_unique hxc hyc] at hlt
      omega
    obtain ⟨C', hrun, hframe', hrest⟩ := ih (C := C₁)
      (show P.children a = ds ++ [x] ++ rest by simp [hsplit]) fun y hy c hc hp => by
        rw [hframe.at hlinks (fun d hd => hd.1) hc fun hb => hother y hy c hp hb.2]
        exact hzero y (List.mem_cons_of_mem _ hy) c hc hp
    have hsame : ∀ c, P.Has c → a ++ [x] <+: c → C' (paddr c) = C₁ (paddr c) := fun c hc hp =>
      hframe'.at hlinks (fun d hd => hd.1) hc fun ⟨_, y, hy, hyc⟩ => hother y hy c hyc hp
    refine ⟨C', ?_, ?_, fun y hy => ?_⟩
    · rw [List.map_cons, List.foldlM_cons, hstep]
      refine hrun.trans ?_
      rw [List.append_assoc]
      rfl
    · exact (hframe.mono fun c hc => ⟨hc.1, x, List.mem_cons_self, hc.2⟩).trans
        (hframe'.mono fun c ⟨hc, y, hy, hyc⟩ => ⟨hc, y, List.mem_cons_of_mem _ hy, hyc⟩)
    · rcases List.mem_cons.mp hy with rfl | hy
      · refine ⟨(hsame _ hhas List.prefix_rfl).trans hwant, fun hfreq => ?_⟩
        exact (hcounted hfreq).congr fun c hc => hsame c (P.has_node hc.1) hc.2.1
      · exact hrest y hy

theorem Beside.unmark_loop (h : Beside fp T addr ts pat P paddr) {l : List Nat}
    (hl : ∀ x ∈ l, x ∈ P.children a) :
    (l.map fun x => paddr (a ++ [x])).foldlM (unmark (pat.withSupports C)) (fp.withFlags F) =
      .ok (fp.withFlags (setAll addr F (l.flatMap (shape T).header) fun _ => .nil)) := by
  induction l generalizing F with
  | nil => rfl
  | cons x l ih =>
    obtain ⟨hx, hl⟩ := List.forall_mem_cons.mp hl
    have hclear : ∀ (bs : List Adr) (F : Ptr → Flag), (bs.map addr).foldl
        (fun fptree node => fptree.setFlag node .nil) (fp.withFlags F) =
          fp.withFlags (setAll addr F bs fun _ => .nil) := by
      intro bs
      induction bs with
      | nil => exact fun F => rfl
      | cons b bs ihb =>
        intro F
        rw [List.map_cons, List.foldl_cons, setFlag_withFlags, ihb]
        rfl
    rw [List.map_cons, List.foldlM_cons, unmark, h.chainAt_eq ((h.links.ok.child a x).mp hx)]
    change (l.map fun x => paddr (a ++ [x])).foldlM (unmark (pat.withSupports C))
      ((((shape T).header x).map addr).foldl (fun fptree node => fptree.setFlag node .nil)
        (fp.withFlags F)) = _
    rw [hclear, ih hl, List.flatMap_cons, setAll_append]

theorem Ready.unmarked (hF : Ready T addr F a) (hlinks : Linked fp (shape T) addr)
    (hds : ∀ x ∈ ds, FPTree.itemNo a < x) :
    setAll addr (marksOf T addr F a ds) (ds.flatMap (shape T).header) (fun _ => .nil) = F := by
  funext p
  by_cases hp : p ∈ (ds.flatMap (shape T).header).map addr
  · obtain ⟨b, hb, rfl⟩ := List.mem_map.mp hp
    obtain ⟨hm, x, hx, hbx⟩ := mem_headers.mp hb
    have hlt := hds x hx
    rw [setAll_of_mem hb fun c hc heq => hlinks.inj c b
      ((shape T).has_node (mem_headers.mp hc).1) ((shape T).has_node hm) heq,
      hF.below b hm (by omega)]
  · rw [setAll_of_not_mem hp, marksOf, setAll_of_not_mem hp]

theorem Beside.verifyFrom_body (h : Beside fp T addr ts pat P paddr) (ha : P.Has a)
    (hF : Ready T addr F a)
    (hrec : ∀ x ∈ P.children a,
      Verifies fp pat T addr paddr ts P minsupp (verifyFrom minsupp depth) (a ++ [x]))
    (hzero : ∀ c, Below P a c → C (paddr c) = 0#32) {s : Tree × Tree}
    (henter : enter (paddr a) s = (fp.withFlags F, pat.withSupports C))
    (hsiblings : s.2.siblings (paddr a) = pat.siblings (paddr a)) :
    ∃ C', verifyFrom minsupp (depth + 1) (paddr a) s =
        .ok (fp.withFlags F, pat.withSupports C') ∧
      Elsewhere paddr (Below P a) C C' ∧ Counted P paddr ts minsupp C' a := by
  have hok := h.links.ok
  have hbelow : ∀ x ∈ P.children a, ∀ c, P.Has c → a ++ [x] <+: c → Below P a c := by
    intro x hx c hc hp
    have hne : c ≠ a := by
      rintro rfl
      exact not_concat_prefix c x hp
    refine ⟨(List.mem_cons.mp hc).resolve_left ?_, (List.prefix_append a [x]).trans hp, hne⟩
    rintro rfl
    simp at hp
  obtain ⟨C', hloop, hframe, hchildren⟩ := h.children_loop hF hrec
    (show P.children a = [] ++ P.children a from rfl) fun x hx c hc hp =>
      hzero c (hbelow x hx c hc hp)
  refine ⟨C', ?_, hframe.mono fun c ⟨hc, x, hx, hp⟩ => hbelow x hx c hc hp, ?_⟩
  · rw [verifyFrom, hsiblings, h.links.siblings_eq ha, henter]
    change (((P.children a).map fun x => paddr (a ++ [x])).foldlM
      (verifyChild minsupp (verifyFrom minsupp depth) (paddr a))
      (fp.withFlags (marksOf T addr F a []), pat.withSupports C) >>= _) = _
    rw [hloop]
    change (((P.children a).map fun x => paddr (a ++ [x])).foldlM (unmark (pat.withSupports C'))
      (fp.withFlags (marksOf T addr F a (P.children a))) >>= _) = _
    rw [h.unmark_loop fun x hx => hx, hF.unmarked h.refines.links fun x hx => h.item_lt hx]
    rfl
  · intro c hc hfreq
    obtain ⟨x, hx, hp⟩ := hc.child hok
    obtain ⟨hwant, hcounted⟩ := hchildren x hx
    by_cases hcx : c = a ++ [x]
    · rw [hcx, hwant]
    · have hax := hbelow x hx _ (hok.has_child hx) List.prefix_rfl
      have hle := hfreq _ hax hp (Ne.symm hcx)
      rw [hwant] at hle
      refine hcounted hle c ⟨hc.1, hp, hcx⟩ fun d hd hdp hdc => hfreq d ?_ hdp hdc
      exact hbelow x hx d (P.has_node hd.1) hd.2.1

theorem Beside.verifies (h : Beside fp T addr ts pat P paddr) (ha : a ∈ P.nodes)
    (hdepth : ∀ c, P.Has c → a <+: c → c.length < a.length + depth) :
    Verifies fp pat T addr paddr ts P minsupp (verifyFrom minsupp depth) a := by
  induction depth generalizing a with
  | zero => exact absurd (hdepth a (P.has_node ha) List.prefix_rfl) (Nat.lt_irrefl _)
  | succ depth ih =>
    intro F C hF hzero
    have hne : (pat.node (paddr a)).itemNo ≠ -1 := by
      intro heq
      have hitem := h.links.itemNo_eq (P.has_node ha)
      obtain ⟨m, -, hm⟩ := itemNo_mem fun hnil => h.links.ok.root (hnil ▸ ha)
      have hneg : (-1 : BitVec 16).toInt = -1 := rfl
      rw [heq] at hitem
      omega
    refine h.verifyFrom_body (P.has_node ha) hF (fun x hx => ?_) hzero (if_neg hne) rfl
    refine ih ((h.links.ok.child a x).mp hx) fun c hc hp => ?_
    have hlt := hdepth c hc ((List.prefix_append a [x]).trans hp)
    rw [List.length_append, List.length_singleton]
    omega

theorem Beside.verify_eq (h : Beside fp T addr ts pat P paddr)
    (hzero : ∀ a ∈ P.nodes, (pat.node (paddr a)).support = 0) (minsupp : Int) :
    ∃ C', verify fp pat minsupp = .ok (fp.setFlag root .fail, pat.withSupports C') ∧
      C' root = (fp.node root).support ∧ Counted P paddr ts minsupp C' [] := by
  have hroot : (pat.node root).itemNo = -1 := h.links.rootItem
  have hne : ∀ b ∈ T.nodes, addr b ≠ root := by
    intro b hb heq
    rw [← h.refines.links.root] at heq
    have hnil := h.refines.links.inj b [] ((shape T).has_node hb) (shape T).has_root heq
    exact h.refines.links.ok.root (hnil ▸ hb)
  have hpne : ∀ c, Below P [] c → paddr c ≠ root := by
    intro c hc heq
    rw [← h.links.root] at heq
    exact hc.2.2 (h.links.inj c [] (P.has_node hc.1) P.has_root heq)
  let F := Function.update (fun p => (fp.node p).flag) root .fail
  let C := Function.update (fun p => (pat.node p).support) root (fp.node root).support
  have hflags : fp.setFlag root .fail = fp.withFlags F := by
    have hset := setFlag_withFlags fp (fun p => (fp.node p).flag) root .fail
    rwa [withFlags_self] at hset
  have hF : Ready T addr F [] := by
    refine ⟨fun b hb heq => ?_, fun b hb _ => ?_⟩
    · have hbne : b ≠ [] := fun hnil => h.refines.links.ok.root (hnil ▸ hb)
      obtain ⟨m, -, hm⟩ := itemNo_mem hbne
      have hneg : FPTree.itemNo [] = -1 := rfl
      omega
    · exact (Function.update_of_ne (hne b hb) _ _).trans (h.refines.flag b ((shape T).has_node hb))
  have henter : enter (paddr []) (fp, pat) = (fp.withFlags F, pat.withSupports C) := by
    rw [h.links.root, enter, if_pos hroot]
    congr 1
    simp only [Tree.setNode, Tree.withSupports, Tree.mk.injEq, true_and, and_true]
    funext p
    by_cases hp : p = root
    · subst hp
      simp [C]
    · simp [C, hp]
  obtain ⟨depth, hdepth⟩ : ∃ k, pat.fresh = k + 1 :=
    Nat.exists_eq_succ_of_ne_zero (Nat.ne_of_gt (Nat.zero_lt_of_lt (h.links.fresh [] P.has_root)))
  have hrec : ∀ x ∈ P.children [],
      Verifies fp pat T addr paddr ts P minsupp (verifyFrom minsupp depth) ([] ++ [x]) := by
    refine fun x hx => h.verifies ((h.links.ok.child [] x).mp hx) fun c hc _ => ?_
    have hlt := h.links.depth hc
    rw [hdepth] at hlt
    rw [List.nil_append, List.length_singleton]
    omega
  obtain ⟨C', hrun, hframe, hcounted⟩ := h.verifyFrom_body P.has_root hF hrec
    (fun c hc => (Function.update_of_ne (hpne c hc) _ _).trans (hzero c hc.1)) henter rfl
  refine ⟨C', ?_, ?_, hcounted⟩
  · rw [verify, hdepth, hflags]
    rw [h.links.root] at hrun
    exact hrun
  · rw [hframe root fun c hc heq => hpne c hc heq.symm]
    exact Function.update_self ..

/-- A pattern tree, as `InsertPatternSortedly` builds it, with items below `maxItems` and all
supports zero. -/
def IsPatternTree (pat : Tree) (maxItems : Nat) : Prop :=
  ∃ P paddr, Linked pat P paddr ∧ (∀ a, (P.children a).Pairwise (· < ·)) ∧
    (∀ a ∈ P.nodes, a.Pairwise (· < ·)) ∧ (∀ a i, a ++ [i] ∈ P.nodes → i < maxItems) ∧
    ∀ a ∈ P.nodes, (pat.node (paddr a)).support = 0

def insertPatterns (tree : Tree) (ps : List (List Nat × BitVec 16)) : Except Fault Tree :=
  ps.foldlM (fun tree p => (insertPatternSortedly tree ⟨0, p.1⟩ p.2).map Prod.fst) tree

/-- After `Verify` of an FP-tree built by `InsertTrans` the support of every pattern whose proper
ancestors reached `minsupp` is that of the transactions that contain it. -/
theorem verify_exact {tree₀ : Tree} (h0 : Cleared tree₀)
    (hts : ∀ t ∈ ts, t.items.Pairwise (· < ·) ∧ ∀ i ∈ t.items, i < itemLimit)
    (hfit : totalSupport ts < 2 ^ 31) (hfp : insertAll tree₀ ts = .ok fp)
    (hpat : IsPatternTree pat fp.maxItems) (minsupp : Int) :
    ∃ fp' pat', verify fp pat minsupp = .ok (fp', pat') ∧ fp' = fp.setFlag root .fail ∧
      (∀ p, (fp'.node p).support = (fp.node p).support) ∧
      (∀ p, fp.IsNode p → (fp'.node p).flag = .nil) ∧
      ∀ p α, pat.At p α →
        (∀ q β, pat.At q β → q ≠ root → β <+: α → β ≠ α →
          minsupp ≤ (pat'.node q).support.toInt) →
        (pat'.node p).support.toInt = weightOf ts fun l => ∀ i ∈ α, i ∈ l.map Int.ofNat := by
  obtain ⟨P, paddr, hlinks, hsorted, hpaths, htable, hzero⟩ := hpat
  obtain ⟨fp₁, addr, hall, href⟩ := insertAll_refines h0.refines fun t ht => (hts t ht).2
  obtain rfl : fp₁ = fp := Except.ok.inj (hall.symm.trans hfp)
  have hnodup : ∀ t ∈ ts, t.items.Nodup := fun t ht => (hts t ht).1.imp fun h => h.ne
  obtain ⟨hrep, -⟩ := FPTree.build_represents (FPTree.newTree_represents tree₀.maxItems) hnodup
  have hbeside : Beside fp₁ _ addr ts pat P paddr :=
    ⟨href, hrep, fun t ht => (hts t ht).1, hlinks, hsorted, hpaths, htable⟩
  obtain ⟨C', hrun, hrootCount, hcounted⟩ := hbeside.verify_eq hzero minsupp
  have hroot : ∀ p, fp₁.IsNode p → p ≠ root := fun p hp => hp.1
  refine ⟨_, _, hrun, rfl, fun p => ?_, fun p hp => ?_, fun p α hat hfreq => ?_⟩
  · rw [Tree.setFlag, setNode_node, apply_ite Node.support, ite_self]
  · rw [Tree.setFlag, setNode_node, if_neg hp.1]
    obtain ⟨a, ha, rfl⟩ := href.links.isNode_iff.mp hp
    exact href.flag a (Shape.has_node _ ha)
  · obtain ⟨c, hc, rfl, rfl⟩ := hlinks.at_iff.mp hat
    have hsubset : (weightOf ts fun l => ∀ i ∈ c.map Int.ofNat, i ∈ l.map Int.ofNat) =
        weightOf ts fun l => ∀ y ∈ c, y ∈ l := by
      refine weight_congr fun t _ => decide_eq_decide.mpr ?_
      rw [List.forall_mem_map]
      exact forall₂_congr fun y _ => List.mem_map_of_injective Int.ofNat_injective
    have hcount : C' (paddr c) = wanted ts c := by
      rcases List.mem_cons.mp hc with rfl | hm
      · rw [hlinks.root, hrootCount, ← href.links.root, href.support [] (Shape.has_root _),
          hrep.support, wanted]
        rfl
      · have hne : c ≠ [] := fun hnil => hlinks.ok.root (hnil ▸ hm)
        refine hcounted c ⟨hm, List.nil_prefix, hne⟩ fun d hd hp hdc => ?_
        refine hfreq (paddr d) (d.map Int.ofNat)
          (hlinks.at_iff.mpr ⟨d, P.has_node hd.1, rfl, rfl⟩) (fun heq => ?_) (hp.map _)
          fun heq => ?_
        · rw [← hlinks.root] at heq
          exact hd.2.2 (hlinks.inj d [] (P.has_node hd.1) P.has_root heq)
        · exact hdc (List.map_injective_iff.mpr Int.ofNat_injective heq)
    have hsupport : ((pat.withSupports C').node (paddr c)).support = wanted ts c := hcount
    rw [hsubset, hsupport]
    exact toInt_weight (weightOf_le ts _) hfit

theorem insertPatterns_isPatternTree {ps : List (List Nat × BitVec 16)} {maxItems : Nat}
    (hps : ∀ p ∈ ps, p.1.Pairwise (· < ·) ∧ ∀ i ∈ p.1, i < maxItems ∧ i < itemLimit) :
    ∃ pat, insertPatterns (newTree maxItems) ps = .ok pat ∧ IsPatternTree pat maxItems := by
  have hrun : ∀ {tree : Tree} {S : Shape} {addr : Adr → Ptr} {ends : Adr → BitVec 16},
      Patterns tree S addr ends → (∀ q, (tree.node q).support = 0) →
      (∀ a ∈ S.nodes, a.Pairwise (· < ·) ∧ ∀ i ∈ a, i < maxItems) →
      ∃ pat, insertPatterns tree ps = .ok pat ∧ IsPatternTree pat maxItems := by
    induction ps with
    | nil =>
      intro tree S addr ends h hzero hnodes
      exact ⟨tree, rfl, S, addr, h.links, h.sorted, fun a ha => (hnodes a ha).1,
        fun a i hm => (hnodes _ hm).2 i (by simp), fun a _ => hzero _⟩
    | cons p ps ih =>
      intro tree S addr ends h hzero hnodes
      obtain ⟨hp, hps⟩ := List.forall_mem_cons.mp hps
      obtain ⟨tree', n, S', addr', hinsert, h', -, -, hmem⟩ :=
        h.insert (t := ⟨0, p.1⟩) (fun c hc => (hp.2 c hc).2) p.2
      have hzero' : ∀ q, (tree'.node q).support = 0 :=
        insertPatternSortedly_support (P := fun s => s = 0) rfl hzero hinsert
      obtain ⟨pat, hall, hpat⟩ := ih hps h' hzero' fun a ha => by
        rcases (hmem a).mp ha with ha | ⟨-, hpre⟩
        · exact hnodes a ha
        · exact ⟨hp.1.sublist hpre.sublist, fun i hi => (hp.2 i (hpre.subset hi)).1⟩
      refine ⟨pat, ?_, hpat⟩
      rw [insertPatterns, List.foldlM_cons, hinsert]
      exact hall
  have hnew : Cleared (newTree maxItems) := .inl ⟨maxItems, rfl⟩
  have hstart : Patterns (newTree maxItems) (shape (FPTree.newTree maxItems)) (fun _ => root)
      (fun _ => 0) :=
    ⟨hnew.refines.links, fun a => .nil, fun a ha => absurd ha List.not_mem_nil⟩
  exact hrun hstart (fun q => rfl) fun a ha => absurd ha List.not_mem_nil

theorem verify_exact_shared :
    ∃ fp pat fp' pat', insertAll (newTree 4) [⟨2, [0, 3]⟩, ⟨5, [0, 1]⟩] = .ok fp ∧
      insertPatterns (newTree 4) [([0, 1], 0), ([3], 0)] = .ok pat ∧
      verify fp pat 3 = .ok (fp', pat') ∧ fp' = fp.setFlag root .fail ∧
      ∀ p α, pat.At p α →
        (∀ q β, pat.At q β → q ≠ root → β <+: α → β ≠ α → 3 ≤ (pat'.node q).support.toInt) →
        (pat'.node p).support.toInt =
          weightOf [⟨2, [0, 3]⟩, ⟨5, [0, 1]⟩] fun l => ∀ i ∈ α, i ∈ l.map Int.ofNat := by
  have h0 : Cleared (newTree 4) := .inl ⟨4, rfl⟩
  obtain ⟨fp, -, hfp, -⟩ := insertAll_refines h0.refines
    (show ∀ t ∈ [(⟨2, [0, 3]⟩ : Trans), ⟨5, [0, 1]⟩], ∀ c ∈ t.items, c < itemLimit by decide)
  obtain ⟨pat, hall, hpat⟩ := insertPatterns_isPatternTree
    (show ∀ p ∈ [([0, 1], (0 : BitVec 16)), ([3], 0)], p.1.Pairwise (· < ·) ∧
      ∀ i ∈ p.1, i < 4 ∧ i < itemLimit by decide)
  have hmax : fp.maxItems = 4 := insertAll_maxItems hfp
  obtain ⟨fp', pat', hrun, hfp', -, -, hexact⟩ :=
    verify_exact h0 (by decide) (by decide) hfp (hmax ▸ hpat) 3
  exact ⟨fp, pat, fp', pat', hfp, hall, hrun, hfp', hexact⟩

/-- The FP-tree of `ts` and the tree of the patterns `ps` after `Verify`. -/
def verifyRun (maxItems : Nat) (ts : List Trans) (ps : List (List Nat)) (minsupp : Int) :
    Except Fault (Tree × Tree) := do
  let fp ← insertAll (newTree maxItems) ts
  let pat ← insertPatterns (newTree maxItems) (ps.map fun p => (p, 0))
  verify fp pat minsupp

/-- The mark at the root stays; the chain of an item that does not fit is not found; a support that
does not fit is counted wrong. -/
theorem verifyRun_inexact :
    (verifyRun 1 [⟨1, [0]⟩] [[0]] 0).map (fun s => (s.1.node root).flag) = .ok .fail ∧
      (verifyRun 40001 [⟨1, [40000]⟩] [[40000]] 0).map (fun s => s.1.totalNodes) = .error .outside ∧
      (verifyRun 1 [⟨2 ^ 30, [0]⟩, ⟨2 ^ 30, [0]⟩] [[0]] 0).map
        (fun s => (s.2.node 1).support.toInt) = .ok (-2 ^ 31) := by
  decide

end StreamMill.Swim
