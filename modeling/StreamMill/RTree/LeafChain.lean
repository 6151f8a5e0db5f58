import StreamMill.RTree.Adjust
import StreamMill.Lib.DList

/-!
# StreamMill.RTree.LeafChain

The doubly linked chain of the leaf blocks, from `lptr` to 0. When leaf `b` is split its two halves
take its place: `relinkPrev` and `relinkNext` are the two writes to its neighbours.
-/

namespace StreamMill.RTree

open Lib

def Page.nextlptr : Page → Nat
  | .node n => n.nextlptr
  | _ => 0

def Page.prevlptr : Page → Nat
  | .node n => n.prevlptr
  | _ => 0

def blkPtr (blkno : Nat) : Nat := blkno * blockSz

/-- The leaves `bs` are chained in this order, from the link `p` to the link `q`. -/
abbrev LeafSeg (index : Nat → Page) (p : Nat) (bs : List Nat) (q : Nat) : Prop :=
  Seg (fun b => (index b).nextlptr) (fun b => (index b).prevlptr) blkPtr p bs q

/-- The chain from `lptr` runs through the blocks `leaves`, each once. -/
def LeafChain (index : Nat → Page) (lptr : Nat) (leaves : Multiset Nat) : Prop :=
  ∃ bs : List Nat, (bs : Multiset Nat) = leaves ∧ lptr = first blkPtr bs 0 ∧ LeafSeg index 0 bs 0

variable {index index' : Nat → Page}
variable {b p q : Nat} {bs : List Nat}

theorem blkPtr_ne_zero (hb : b ≠ 0) : blkPtr b ≠ 0 :=
  Nat.mul_ne_zero hb (by decide)

theorem blkPtr_inj {c : Nat} (h : blkPtr b = blkPtr c) : b = c :=
  Nat.eq_of_mul_eq_mul_right blockSz_pos h

theorem LeafSeg.congr (h : LeafSeg index p bs q) (heq : ∀ b ∈ bs, index' b = index b) :
    LeafSeg index' p bs q := by
  refine Seg.congr h (fun b hb => ?_) (fun b hb => ?_)
  · simp [heq b hb]
  · simp [heq b hb]

theorem writeBlkByPtr_blkPtr (s : State) (b : Nat) (n : Node) :
    writeBlkByPtr s (blkPtr b) n = .ok (writeBlk s b n) := by
  rw [writeBlkByPtr, blkPtr, if_pos (Nat.mul_mod_left b blockSz), Nat.mul_div_cancel b blockSz_pos]

theorem sameOn_relink {n : Node} (n' : Node) (hn : index b = .node n)
    (hty : n'.nodetype = n.nodetype) (hes : n'.entries = n.entries) (bs : Multiset Nat) :
    SameOn index (Function.update index b (.node n')) bs := by
  rintro c - ty es ⟨m, hm, rfl, rfl⟩
  by_cases hc : c = b
  · subst hc
    rw [hn] at hm
    cases hm
    exact ⟨n', Function.update_self _ _ _, hty, hes⟩
  · exact ⟨m, by rwa [Function.update_of_ne hc], rfl, rfl⟩

theorem SameOn.trans {index'' : Nat → Page} {bs : Multiset Nat} (h : SameOn index index' bs)
    (h' : SameOn index' index'' bs) : SameOn index index'' bs :=
  fun b hb ty es hh => h' b hb ty es (h b hb ty es hh)

theorem relinkPrev_ok {s : State} (hp : p = last blkPtr 0 bs) (hseg : LeafSeg s.index 0 bs q)
    (hnd : bs.Nodup) (hnode : ∀ b ∈ bs, b ≠ 0 ∧ ∃ n, s.index b = .node n) :
    ∃ idx buf, relinkPrev s p = .ok { s with index := idx, buffer := buf } ∧
      LeafSeg idx 0 bs (blkPtr s.blkno0) ∧ (∀ b, b ∉ bs → idx b = s.index b) ∧
      ∀ cs, SameOn s.index idx cs := by
  rcases List.eq_nil_or_concat bs with rfl | ⟨bs, b, rfl⟩
  · refine ⟨s.index, s.buffer, ?_, trivial, fun _ _ => rfl, fun cs => .of_eq fun _ _ => rfl⟩
    rw [hp]
    rfl
  · rw [List.concat_eq_append] at *
    rw [last_concat] at hp
    obtain ⟨hb0, n, hn⟩ := hnode b (by simp)
    let n' : Node := { n with nextlptr := blkPtr s.blkno0 }
    have hbs : b ∉ bs := by
      rw [List.nodup_append] at hnd
      exact fun h => hnd.2.2 b h b (by simp) rfl
    refine ⟨Function.update s.index b (.node n'), n', ?_, ?_, fun c hc => ?_, fun cs => ?_⟩
    · rw [relinkPrev, hp, if_pos (blkPtr_ne_zero hb0), blkPtr, readBlkByPtr_node hn]
      exact writeBlkByPtr_blkPtr _ b n'
    · refine Seg.setNext hseg (fun c hc => ?_) ?_ (fun c hc => ?_)
      · simp [Function.update_of_ne (fun e : c = b => hbs (e ▸ hc))]
      · simp [Page.nextlptr, n']
      · by_cases hcb : c = b
        · simp [hcb, hn, Page.prevlptr, n']
        · simp [Function.update_of_ne hcb]
    · exact Function.update_of_ne (fun e => hc (by simp [e])) _ _
    · exact sameOn_relink n' hn rfl rfl cs

theorem relinkNext_ok {s : State} (hq : q = first blkPtr bs 0) (hseg : LeafSeg s.index p bs 0)
    (hnd : bs.Nodup) (hnode : ∀ b ∈ bs, b ≠ 0 ∧ ∃ n, s.index b = .node n) :
    ∃ idx buf, relinkNext s q = .ok { s with index := idx, buffer := buf } ∧
      LeafSeg idx (blkPtr s.blkno1) bs 0 ∧ (∀ b, b ∉ bs → idx b = s.index b) ∧
      ∀ cs, SameOn s.index idx cs := by
  cases bs with
  | nil =>
    refine ⟨s.index, s.buffer, ?_, trivial, fun _ _ => rfl, fun cs => .of_eq fun _ _ => rfl⟩
    rw [hq]
    rfl
  | cons b bs =>
    obtain ⟨hb0, n, hn⟩ := hnode b (by simp)
    rw [first_cons] at hq
    let n' : Node := { n with prevlptr := blkPtr s.blkno1 }
    have hbs : b ∉ bs := (List.nodup_cons.mp hnd).1
    refine ⟨Function.update s.index b (.node n'), n', ?_, ?_, fun c hc => ?_, fun cs => ?_⟩
    · rw [relinkNext, hq, if_pos (blkPtr_ne_zero hb0), blkPtr, readBlkByPtr_node hn]
      exact writeBlkByPtr_blkPtr _ b n'
    · refine Seg.setPrev hseg (fun c hc => ?_) ?_ (fun c hc => ?_)
      · simp [Function.update_of_ne (fun e : c = b => hbs (e ▸ hc))]
      · simp [Page.prevlptr, n']
      · by_cases hcb : c = b
        · simp [hcb, hn, Page.nextlptr, n']
        · simp [Function.update_of_ne hcb]
    · exact Function.update_of_ne (fun e => hc (by simp [e])) _ _
    · exact sameOn_relink n' hn rfl rfl cs

end StreamMill.RTree
