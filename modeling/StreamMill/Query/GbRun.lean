import StreamMill.ImDb.Get
import StreamMill.Lib.Routine
import StreamMill.Query.GbHash

/-!
# StreamMill.Query.GbRun

Runs of the calls on the group-by tables. A history is a list of calls, the last one first; from
it come the pairs that are live, what each of them holds and how far its iteration is, and the
table is compared with that. `handles_right`: the slots and the gets of a run. `iteration_right`:
the iterations of a run.
-/

namespace StreamMill.Query
namespace GbHash

open Lib
open ImDb (Byte Key Fault Addr Tuple Entry slots imRelCreate imRelGet imRelPut imRelCursor
  imRelCursorGet)

inductive Call (size : Int → Nat) where
  | handle (p : Pair)
  | put (p : Pair) (key : Key (size p.sid)) (data : Word)
  | get (p : Pair) (key : Key (size p.sid))
  | next (p : Pair)
  | delete (p : Pair)

inductive Answer where
  | slot (h : Nat)
  | data (found : Option Word)
  | entry (found : Option (List Byte × Word))
  | done

section

variable {size : Int → Nat}

def Call.pair : Call size → Pair
  | .handle p => p
  | .put p _ _ => p
  | .get p _ => p
  | .next p => p
  | .delete p => p

def Call.run (size : Int → Nat) (blank : ∀ n, Addr → Tuple n Word) (c : Call size) (t : GbTable) :
    Except GbFault (GbTable × Answer) :=
  match c with
  | .handle p => (gethashhandle size blank p t).map fun x => (x.2, .slot x.1)
  | .put p key data => (hashPut size blank p key data t).map fun t => (t, .done)
  | .get p key => (hashGet size blank p key t).map fun x => (x.1, .data x.2)
  | .next p => (hashGetNext size blank p t).map fun x => (x.1, .entry x.2)
  | .delete p => (hashgbDelete size blank p t).map fun t => (t, .done)

/-! ## What a history says -/

/-- A pair is live from its first call to its deletion. -/
def livePairs : List (Call size) → List Pair
  | [] => []
  | .delete p :: cs => (livePairs cs).filter (· ≠ p)
  | c :: cs => (livePairs cs).insert c.pair

def stored (p : Pair) (key : List Byte) : List (Call size) → Option Word
  | [] => none
  | .put q k data :: cs => if q = p ∧ k.val = key then some data else stored p key cs
  | .delete q :: cs => if q = p then none else stored p key cs
  | _ :: cs => stored p key cs

def store (l : List (List Byte × Word)) (key : List Byte) (data : Word) :
    List (List Byte × Word) :=
  if key ∈ l.map Prod.fst then l.map fun e => if e.1 = key then (key, data) else e
  else l ++ [(key, data)]

def contents (p : Pair) : List (Call size) → List (List Byte × Word)
  | [] => []
  | .put q key data :: cs =>
    if q = p then store (contents p cs) key.val data else contents p cs
  | .delete q :: cs => if q = p then [] else contents p cs
  | _ :: cs => contents p cs

def start : Option Nat → Nat
  | none => 0
  | some i => i + 1

def pos (p : Pair) : List (Call size) → Option Nat
  | [] => none
  | .next q :: cs =>
    if q = p then
      if start (pos p cs) < (contents p cs).length then some (start (pos p cs)) else none
    else pos p cs
  | .delete q :: cs => if q = p then none else pos p cs
  | _ :: cs => pos p cs

/-- `ok` restricts the calls. -/
inductive GbRun (size : Int → Nat) (blank : ∀ n, Addr → Tuple n Word)
    (ok : List (Call size) → GbTable → Call size → Prop) : List (Call size) → GbTable → Prop
  | init : GbRun size blank ok [] hashgbInit
  | step {cs : List (Call size)} {t t' : GbTable} {c : Call size} {a : Answer} :
      GbRun size blank ok cs t → ok cs t c → c.run size blank t = .ok (t', a) →
      GbRun size blank ok (c :: cs) t'

variable {p q : Pair} {cs : List (Call size)} {key : List Byte}

theorem store_keys (l : List (List Byte × Word)) (key : List Byte) (data : Word)
    (h : (l.map Prod.fst).Nodup) : ((store l key data).map Prod.fst).Nodup := by
  rw [store]
  split
  · have hsame : ((l.map fun e => if e.1 = key then (key, data) else e).map Prod.fst) =
        l.map Prod.fst := by
      rw [List.map_map]
      refine List.map_congr_left fun e _ => ?_
      by_cases hk : e.1 = key <;> simp [hk]
    rwa [hsame]
  · next hnew =>
    rw [List.map_append]
    refine List.nodup_append.mpr ⟨h, List.nodup_singleton _, fun a ha b hb hab => hnew ?_⟩
    rwa [hab, List.mem_singleton.mp hb] at ha

theorem contents_nodup (p : Pair) (cs : List (Call size)) :
    ((contents p cs).map Prod.fst).Nodup := by
  induction cs with
  | nil => exact List.nodup_nil
  | cons c cs ih =>
    cases c with
    | put q key data =>
      rw [contents]
      split
      · exact store_keys _ _ _ ih
      · exact ih
    | delete q =>
      rw [contents]
      split
      · exact List.nodup_nil
      · exact ih
    | handle q => exact ih
    | get q key => exact ih
    | next q => exact ih

theorem lookup_cons_eq (e : List Byte × Word) (l : List (List Byte × Word)) (key : List Byte) :
    (e :: l).lookup key = if key = e.1 then some e.2 else l.lookup key := by
  rw [List.lookup_cons]
  by_cases h : key = e.1 <;> simp [h, beq_false_of_ne]

theorem lookup_replaced {k key : List Byte} (hne : ¬key = k) (l : List (List Byte × Word))
    (data : Word) :
    (l.map fun e => if e.1 = k then (k, data) else e).lookup key = l.lookup key := by
  induction l with
  | nil => rfl
  | cons e l ih =>
    rw [List.map_cons, lookup_cons_eq, lookup_cons_eq, ih]
    by_cases he : e.1 = k <;> simp [he, hne]

theorem store_lookup (l : List (List Byte × Word)) (k key : List Byte) (data : Word) :
    (store l k data).lookup key = if k = key then some data else l.lookup key := by
  rw [store]
  split
  · next hk =>
    by_cases hkey : key = k
    · subst hkey
      rw [if_pos rfl]
      induction l with
      | nil => cases hk
      | cons e l ih =>
        rw [List.map_cons, lookup_cons_eq]
        by_cases he : e.1 = key
        · simp [he]
        · rw [if_neg he, if_neg (Ne.symm he)]
          exact ih ((List.mem_cons.mp hk).resolve_left (Ne.symm he))
    · rw [if_neg (Ne.symm hkey), lookup_replaced hkey]
  · next hk =>
    rw [List.lookup_append, lookup_cons_eq]
    by_cases hkey : key = k
    · subst hkey
      have hnone : l.lookup key = none := by
        rw [List.lookup_eq_none_iff]
        intro e he
        have hne : ¬key = e.1 := fun h => hk (List.mem_map.mpr ⟨e, he, h.symm⟩)
        simpa using hne
      simp [hnone]
    · simp [hkey, Ne.symm hkey]

theorem stored_eq (p : Pair) (key : List Byte) (cs : List (Call size)) :
    stored p key cs = (contents p cs).lookup key := by
  induction cs with
  | nil => rfl
  | cons c cs ih =>
    cases c with
    | put q k data =>
      rw [stored, contents]
      by_cases hq : q = p
      · rw [if_pos hq, store_lookup, ih]
        simp [hq]
      · simp [hq, ih]
    | delete q =>
      rw [stored, contents]
      split
      · rfl
      · exact ih
    | handle q => exact ih
    | get q k => exact ih
    | next q => exact ih

theorem mem_livePairs {c : Call size} (hc : ∀ q, c ≠ .delete q) :
    p ∈ livePairs (c :: cs) ↔ p = c.pair ∨ p ∈ livePairs cs := by
  cases c with
  | delete q => exact absurd rfl (hc q)
  | handle q => exact List.mem_insert_iff
  | put q key data => exact List.mem_insert_iff
  | get q key => exact List.mem_insert_iff
  | next q => exact List.mem_insert_iff

theorem mem_livePairs_delete : p ∈ livePairs (.delete q :: cs) ↔ p ≠ q ∧ p ∈ livePairs cs := by
  rw [livePairs, List.mem_filter, decide_eq_true_eq, and_comm]

theorem dead (h : p ∉ livePairs cs) : contents p cs = [] ∧ pos p cs = none := by
  induction cs with
  | nil => exact ⟨rfl, rfl⟩
  | cons c cs ih =>
    by_cases hdel : ∃ q, c = .delete q
    · obtain ⟨q, rfl⟩ := hdel
      rw [contents, pos]
      by_cases hq : q = p
      · simp [hq]
      · rw [if_neg hq, if_neg hq]
        exact ih fun hp => h (mem_livePairs_delete.mpr ⟨Ne.symm hq, hp⟩)
    · rw [mem_livePairs fun q hq => hdel ⟨q, hq⟩, not_or] at h
      have hq : ¬c.pair = p := fun heq => h.1 heq.symm
      have ih := ih h.2
      cases c with
      | delete q => exact absurd ⟨q, rfl⟩ hdel
      | handle q => exact ih
      | get q key => exact ih
      | put q key data =>
        rw [contents, if_neg (show ¬q = p from hq)]
        exact ih
      | next q =>
        rw [pos, if_neg (show ¬q = p from hq)]
        exact ih

/-! ## What the table holds -/

def pairs {n : Nat} (l : List (Entry n Word)) : List (List Byte × Word) :=
  l.map fun e => (e.key.val, e.data)

variable {t t' : GbTable} {n r h : Nat} {l : List (Entry n Word)} {ac : Option RelCursor}
  {i : Option Nat}

/-- Relation `r` is open and has the entries `l`. -/
def Stores (t : GbTable) (n : Nat) (r : RelId) (l : List (Entry n Word)) : Prop :=
  ∃ s : ImDb.Rel n Word, t.rels r = some ⟨n, s⟩ ∧ s.Holds l ∧ s.hidx = none ∧ s.oid = false

/-- The cursor of a slot, and the place of its iteration over the entries `l` of relation `r`. -/
inductive AtPos (t : GbTable) (r : RelId) (l : List (Entry n Word)) :
    Option RelCursor → Option Nat → Prop
  | idle : AtPos t r l none none
  | on {c : RelCursor} {i : Nat} {e : Entry n Word} (hrel : c.rel = r) (he : l[i]? = some e)
      (hcur : c.cursor.cur = some e.slot) : AtPos t r l (some c) (some i)
  | stale {c : RelCursor} (hlt : c.rel < t.relCount) (hclosed : t.rels c.rel = none) :
      AtPos t r l (some c) none

/-- Slot `h` has a relation with the pairs `C`, and an iteration at `i`. -/
def Group (t : GbTable) (n h : Nat) (C : List (List Byte × Word)) (i : Option Nat) : Prop :=
  ∃ r l, (t.slot h).db = some r ∧ r < t.relCount ∧ Stores t n r l ∧ pairs l = C ∧
    AtPos t r l (t.slot h).ac i

structure Vacant (t : GbTable) (h : Nat) : Prop where
  db : (t.slot h).db = none
  ac : ∀ c, (t.slot h).ac = some c → (t.slot h).sid = slotDeleted ∧ c.rel < t.relCount ∧
    t.rels c.rel = none

structure Kept (size : Int → Nat) (t : GbTable) (live : Pair → Prop)
    (C : Pair → List (List Byte × Word)) (P : Pair → Option Nat) : Prop where
  seats : Seats t live
  group : ∀ h < gbHashSize, live (t.pairAt h) →
    Group t (size (t.pairAt h).sid) h (C (t.pairAt h)) (P (t.pairAt h))
  vacant : ∀ h < gbHashSize, ¬live (t.pairAt h) → Vacant t h
  distinct : ∀ h < gbHashSize, ∀ h' < gbHashSize, ∀ r, (t.slot h).db = some r →
    (t.slot h').db = some r → h = h'

variable {live live' : Pair → Prop} {C C' : Pair → List (List Byte × Word)}
  {P P' : Pair → Option Nat}

theorem Stores.frame (hst : Stores t n r l) (hrel : t'.rels r = t.rels r) : Stores t' n r l := by
  obtain ⟨s, hs, hrest⟩ := hst
  exact ⟨s, hrel.trans hs, hrest⟩

theorem AtPos.frame (hat : AtPos t r l ac i) (hcount : t.relCount ≤ t'.relCount)
    (hclosed : ∀ r', r' < t.relCount → t.rels r' = none → t'.rels r' = none) :
    AtPos t' r l ac i := by
  cases hat with
  | idle => exact .idle
  | on hrel he hcur => exact .on hrel he hcur
  | stale hlt hnone => exact .stale (Nat.lt_of_lt_of_le hlt hcount) (hclosed _ hlt hnone)

/-- A group is kept by what leaves its slot and its relation alone and opens no closed one. -/
theorem Group.frame {D : List (List Byte × Word)} (hg : Group t n h D i)
    (hslot : t'.slot h = t.slot h) (hcount : t.relCount ≤ t'.relCount)
    (hrel : ∀ r, (t.slot h).db = some r → r < t.relCount → t'.rels r = t.rels r)
    (hclosed : ∀ r', r' < t.relCount → t.rels r' = none → t'.rels r' = none) :
    Group t' n h D i := by
  obtain ⟨r, l, hdb, hlt, hst, hl, hat⟩ := hg
  refine ⟨r, l, ?_, Nat.lt_of_lt_of_le hlt hcount, hst.frame (hrel r hdb hlt), hl, ?_⟩
  · rw [hslot, hdb]
  · rw [hslot]
    exact hat.frame hcount hclosed

theorem Vacant.frame (hv : Vacant t h) (hslot : t'.slot h = t.slot h)
    (hcount : t.relCount ≤ t'.relCount)
    (hclosed : ∀ r', r' < t.relCount → t.rels r' = none → t'.rels r' = none) : Vacant t' h where
  db := by rw [hslot, hv.db]
  ac c hc := by
    rw [hslot] at hc ⊢
    obtain ⟨hdel, hlt, hnone⟩ := hv.ac c hc
    exact ⟨hdel, Nat.lt_of_lt_of_le hlt hcount, hclosed _ hlt hnone⟩

theorem Kept.congr (hk : Kept size t live C P) (hlive : ∀ p, live' p ↔ live p)
    (hC : ∀ p, live p → C' p = C p) (hP : ∀ p, live p → P' p = P p) :
    Kept size t live' C' P' := by
  obtain rfl : live' = live := funext fun p => propext (hlive p)
  refine ⟨hk.seats, fun h hh hp => ?_, hk.vacant, hk.distinct⟩
  rw [hC _ hp, hP _ hp]
  exact hk.group h hh hp

theorem init_kept : Kept size hashgbInit (fun _ => False) (fun _ => []) fun _ => none where
  seats :=
    { used := fun h _ he _ => he rfl
      named := fun p hp => hp.elim
      seated := fun p hp => hp.elim
      unique := fun p hp => hp.elim }
  group := fun h _ hp => hp.elim
  vacant := fun h _ _ => ⟨rfl, fun c hc => by cases hc⟩
  distinct := fun h _ h' _ r hr => by cases hr

theorem pairAt_congr (hslot : t'.slot h = t.slot h) : t'.pairAt h = t.pairAt h := by
  rw [GbTable.pairAt, hslot, GbTable.pairAt]

theorem Kept.regroup (hk : Kept size t live C P) (hh : h < gbHashSize) (hp : live p)
    (ho : t.pairAt h = p) (hother : ∀ h' ≠ h, t'.slot h' = t.slot h')
    (hpair : t'.pairAt h = t.pairAt h) (hdb : (t'.slot h).db = (t.slot h).db)
    (hcount : t'.relCount = t.relCount)
    (hrels : ∀ r, (t.slot h).db ≠ some r → t'.rels r = t.rels r)
    (hC : ∀ q ≠ p, C' q = C q) (hP : ∀ q ≠ p, P' q = P q)
    (hg : Group t' (size p.sid) h (C' p) (P' p)) : Kept size t' live C' P' := by
  have hpairs : ∀ h', t'.pairAt h' = t.pairAt h' := by
    intro h'
    by_cases heq : h' = h
    · rw [heq, hpair]
    · exact pairAt_congr (hother h' heq)
  have hdbs : ∀ h', (t'.slot h').db = (t.slot h').db := by
    intro h'
    by_cases heq : h' = h
    · rw [heq, hdb]
    · rw [hother h' heq]
  have hgroup := ho ▸ hk.group h hh (ho.symm ▸ hp)
  have hclosed : ∀ r', r' < t.relCount → t.rels r' = none → t'.rels r' = none := by
    intro r' _ hnone
    obtain ⟨r, l, hr, -, ⟨s, hs, -⟩, -⟩ := hgroup
    rw [hrels r', hnone]
    intro heq
    rw [hr] at heq
    cases heq
    rw [hs] at hnone
    cases hnone
  refine ⟨hk.seats.congr hpairs, fun h' hh' hl => ?_, fun h' hh' hl => ?_,
    fun h₁ hh₁ h₂ hh₂ r hr₁ hr₂ => hk.distinct h₁ hh₁ h₂ hh₂ r ((hdbs h₁).symm.trans hr₁)
      ((hdbs h₂).symm.trans hr₂)⟩
  · rw [hpairs] at hl ⊢
    by_cases heq : h' = h
    · rw [heq, ho]
      exact hg
    · have hne : t.pairAt h' ≠ p := fun ho' => heq (hk.seats.unique p hp h' hh' h hh ho' ho)
      rw [hC _ hne, hP _ hne]
      refine (hk.group h' hh' hl).frame (hother h' heq) hcount.ge (fun r hr _ => hrels r ?_) hclosed
      exact fun hr' => heq (hk.distinct h' hh' h hh r hr hr')
  · rw [hpairs] at hl
    have hne : h' ≠ h := fun heq => hl (by rw [heq, ho]; exact hp)
    exact (hk.vacant h' hh' hl).frame (hother h' hne) hcount.ge hclosed

/-! ## The calls -/

theorem lt_relCount (hk : Kept size t live C P) (hh : h < gbHashSize)
    (hr : (t.slot h).db = some r) : r < t.relCount := by
  by_cases hl : live (t.pairAt h)
  · obtain ⟨r', -, hr', hlt, -⟩ := hk.group h hh hl
    rw [hr] at hr'
    cases hr'
    exact hlt
  · rw [(hk.vacant h hh hl).db] at hr
    cases hr

variable {blank : ∀ n, Addr → Tuple n Word}

theorem install_slot_ne (h' : Nat) (hne : h' ≠ h) :
    (t.install size blank h p).slot h' = t.slot h' := Function.update_of_ne hne ..

theorem install_slot : (t.install size blank h p).slot h =
    { t.slot h with sid := p.sid, rid := p.rid, db := some t.relCount } :=
  Function.update_self ..

theorem Kept.install (hk : Kept size t live C P) (hp : ¬live p) (hnamed : Named p)
    (hseat : Seat t p h) (hC : C p = []) (hP : P p = none) :
    Kept size (t.install size blank h p) (fun q => q = p ∨ live q) C P := by
  have hself : (t.install size blank h p).pairAt h = p := by
    rw [GbTable.pairAt, install_slot]
  have hpairs : ∀ h' ≠ h, (t.install size blank h p).pairAt h' = t.pairAt h' :=
    fun h' hne => pairAt_congr (install_slot_ne h' hne)
  have hcount : t.relCount ≤ (t.install size blank h p).relCount := Nat.le_succ _
  have hrels : ∀ r, r < t.relCount → (t.install size blank h p).rels r = t.rels r :=
    fun r hr => Function.update_of_ne (Nat.ne_of_lt hr) ..
  have hclosed : ∀ r', r' < t.relCount → t.rels r' = none →
      (t.install size blank h p).rels r' = none := fun r' hlt hnone => (hrels r' hlt).trans hnone
  have hold : ¬live (t.pairAt h) := fun hl => hseat.not_named (hk.seats.named _ hl)
  refine ⟨hk.seats.occupy hp hnamed hseat hself hpairs, fun h' hh' hl => ?_, fun h' hh' hl => ?_,
    fun h₁ hh₁ h₂ hh₂ r hr₁ hr₂ => ?_⟩
  · by_cases heq : h' = h
    · subst heq
      rw [hself, hC, hP]
      refine ⟨t.relCount, [], by rw [install_slot], Nat.lt_succ_self _,
        ⟨_, Function.update_self .., ImDb.imRelCreate_holds _ false false, rfl, rfl⟩, rfl, ?_⟩
      rw [install_slot]
      cases hac : (t.slot h').ac with
      | none => exact .idle
      | some c =>
        obtain ⟨-, hlt, hnone⟩ := (hk.vacant h' hh' hold).ac c hac
        exact .stale (Nat.lt_succ_of_lt hlt) (hclosed _ hlt hnone)
    · rw [hpairs h' heq] at hl ⊢
      have hne : t.pairAt h' ≠ p := fun ho =>
        hp (ho ▸ hk.seats.live_of_pairAt (ho.symm ▸ hnamed) hh' rfl)
      exact (hk.group h' hh' (hl.resolve_left hne)).frame (install_slot_ne h' heq) hcount
        (fun r _ hr => hrels r hr) hclosed
  · have hne : h' ≠ h := fun heq => hl (.inl (heq ▸ hself))
    rw [hpairs h' hne] at hl
    exact (hk.vacant h' hh' fun hl' => hl (.inr hl')).frame (install_slot_ne h' hne) hcount hclosed
  · have hnew : ∀ h' < gbHashSize, h' ≠ h →
        ((t.install size blank h p).slot h').db ≠ some t.relCount := by
      intro h' hh' hne hr
      rw [install_slot_ne h' hne] at hr
      exact Nat.lt_irrefl _ (lt_relCount hk hh' hr)
    by_cases hr : r = t.relCount
    · subst hr
      rw [not_imp_not.mp (hnew h₁ hh₁) hr₁, not_imp_not.mp (hnew h₂ hh₂) hr₂]
    · have hne : ∀ h', ((t.install size blank h p).slot h').db = some r → h' ≠ h := by
        intro h' hr' heq
        rw [heq, install_slot] at hr'
        exact hr (Option.some.inj hr').symm
      rw [install_slot_ne h₁ (hne h₁ hr₁)] at hr₁
      rw [install_slot_ne h₂ (hne h₂ hr₂)] at hr₂
      exact hk.distinct h₁ hh₁ h₂ hh₂ r hr₁ hr₂

variable (blank)

/-- What `gethashhandle` does: a live pair keeps its slot, another one gets a free one. -/
theorem gethashhandle_ok (hk : Kept size t live C P) (hfit : Fits t p)
    (hdead : ¬live p → C p = [] ∧ P p = none) :
    ∃ h t', gethashhandle size blank p t = .ok (h, t') ∧ h < gbHashSize ∧ t'.pairAt h = p ∧
      Kept size t' (fun q => q = p ∨ live q) C P ∧ (live p → t' = t) ∧
      (¬live p → Seat t p h ∧ (t'.slot h).ac = (t.slot h).ac) ∧
      ∀ h' ≠ h, t'.slot h' = t.slot h' := by
  have hhome : ¬home p < 0 := Int.not_lt.mpr hfit.1.home
  by_cases hp : live p
  · obtain ⟨h, hh, ho, hprobe⟩ := probe_own hk.seats hp
    refine ⟨h, t, ?_, hh, ho, hk.congr (fun q => ?_) (fun _ _ => rfl) fun _ _ => rfl, fun _ => rfl,
      absurd hp, fun _ _ => rfl⟩
    · rw [gethashhandle, if_neg hhome, hprobe]
    · exact or_iff_right_of_imp fun hq => hq ▸ hp
  · obtain ⟨h, hseat, hprobe⟩ := probe_new hk.seats hfit hp
    obtain ⟨hC, hP⟩ := hdead hp
    refine ⟨h, t.install size blank h p, ?_, hseat.lt, ?_, hk.install hp hfit.1 hseat hC hP,
      fun hn => absurd hn hp, fun _ => ⟨hseat, ?_⟩, install_slot_ne⟩
    · rw [gethashhandle, if_neg hhome, hprobe]
    · rw [GbTable.pairAt, install_slot]
    · rw [install_slot]

variable {s : ImDb.Rel n Word}

theorem rel_eq (hs : t.rels r = some ⟨n, s⟩) : t.rel n (some r) = .ok (r, s) := by
  simp [GbTable.rel, hs]

theorem setRel_self (hs : t.rels r = some ⟨n, s⟩) : t.setRel r n s = t := by
  rw [GbTable.setRel, ← hs, Function.update_eq_self]

theorem pairs_lookup {key : Key n} (hl : ∀ e ∈ l, e.deleted = false) :
    (pairs l).lookup key.val = (ImDb.liveData l key).head? := by
  induction l with
  | nil => rfl
  | cons e l ih =>
    have he := hl e List.mem_cons_self
    have ih := ih fun e he => hl e (List.mem_cons_of_mem _ he)
    rw [pairs, List.map_cons, lookup_cons_eq]
    by_cases hkey : e.key = key
    · simp [ImDb.liveData, he, hkey]
    · have hval : ¬key.val = e.key.val := fun h => hkey (Subtype.ext h.symm)
      rw [if_neg hval]
      exact ih.trans (by simp [ImDb.liveData, hkey])

theorem hashGet_ok (hk : Kept size t live C P) (hfit : Fits t p)
    (hdead : ¬live p → C p = [] ∧ P p = none) (key : Key (size p.sid)) :
    ∃ t', hashGet size blank p key t = .ok (t', (C p).lookup key.val) ∧
      Kept size t' (fun q => q = p ∨ live q) C P := by
  obtain ⟨h, t₁, hget, hh, ho, hk₁, -⟩ := gethashhandle_ok blank hk hfit hdead
  obtain ⟨r, l, hdb, -, ⟨s, hs, hl, hidx, hoid⟩, hpairs, -⟩ :=
    ho ▸ hk₁.group h hh (.inl ho)
  refine ⟨t₁, ?_, hk₁⟩
  have hdata := ImDb.get_unindexed hl hidx key
  rw [← hpairs, pairs_lookup (hl.value hoid)]
  simp only [hashGet, hget, ok_bind, hdb, rel_eq hs, hdata, lift, Except.mapError, setRel_self hs]
  rfl

theorem AtPos.put {l' : List (Entry n Word)} (hat : AtPos t r l ac i)
    (hcount : t'.relCount = t.relCount)
    (hclosed : ∀ r', t.rels r' = none → t'.rels r' = none) : AtPos t' r (l ++ l') ac i := by
  cases hat with
  | idle => exact .idle
  | on hrel he hcur =>
    have hlt := (List.getElem?_eq_some_iff.mp he).1
    exact .on hrel ((List.getElem?_append_left hlt).trans he) hcur
  | stale hlt hnone => exact .stale (hcount ▸ hlt) (hclosed _ hnone)

theorem hashPut_ok (hk : Kept size t live C P) (hfit : Fits t p)
    (hdead : ¬live p → C p = [] ∧ P p = none) (key : Key (size p.sid)) (data : Word)
    (hnew : (C p).lookup key.val = none) :
    ∃ t', hashPut size blank p key data t = .ok t' ∧
      Kept size t' (fun q => q = p ∨ live q)
        (Function.update C p (store (C p) key.val data)) P := by
  obtain ⟨h, t₁, hget, hh, ho, hk₁, -⟩ := gethashhandle_ok blank hk hfit hdead
  obtain ⟨r, l, hdb, hlt, ⟨s, hs, hl, hidx, hoid⟩, hpairs, hat⟩ :=
    ho ▸ hk₁.group h hh (.inl ho)
  have habsent : ∀ e ∈ l, e.key ≠ key := by
    intro e he heq
    rw [← hpairs, List.lookup_eq_none_iff] at hnew
    have := hnew (e.key.val, e.data) (List.mem_map.mpr ⟨e, he, rfl⟩)
    simp [heq] at this
  obtain ⟨s', hput⟩ := ImDb.imRelPut_ok hl key data .overwrite fun _ e he _ => habsent e he
  obtain ⟨hl', hoid', hidx'⟩ := ImDb.imRelPut_holds hl hput
  have hstore : store (C p) key.val data = C p ++ [(key.val, data)] := by
    rw [store, if_neg]
    intro hmem
    obtain ⟨e, he, hkey⟩ := List.mem_map.mp hmem
    rw [← hpairs] at he
    obtain ⟨e', he', rfl⟩ := List.mem_map.mp he
    exact habsent e' he' (Subtype.ext hkey)
  refine ⟨t₁.setRel r _ s', ?_, ?_⟩
  · simp only [hashPut, hget, ok_bind, hdb, rel_eq hs, hput]
    rfl
  · refine hk₁.regroup hh (.inl rfl) ho (fun _ _ => rfl) rfl rfl rfl (fun r' hr' => ?_)
      (fun q hq => Function.update_of_ne hq ..) (fun _ _ => rfl) ?_
    · exact Function.update_of_ne (fun heq => hr' (by rw [hdb, heq])) ..
    · rw [Function.update_self, hstore]
      refine ⟨r, _, hdb, hlt, ⟨s', Function.update_self .., hl', ?_, hoid'.trans hoid⟩, ?_,
        hat.put rfl fun r' hnone => ?_⟩
      · rw [hidx] at hidx'
        exact Option.not_isSome_iff_eq_none.mp (by simp [hidx'])
      · rw [pairs, List.map_append, ← hpairs]
        rfl
      · by_cases heq : r' = r
        · rw [heq, hs] at hnone
          cases hnone
        · exact (Function.update_of_ne heq ..).trans hnone

theorem Kept.close (hk : Kept size t live C P) (hh : h < gbHashSize) (hp : live p)
    (ho : t.pairAt h = p) (hdb : (t.slot h).db = some r)
    (hslot : t'.slot h = { t.slot h with sid := slotDeleted, db := none })
    (hother : ∀ h' ≠ h, t'.slot h' = t.slot h') (hcount : t'.relCount = t.relCount)
    (hnone : t'.rels r = none) (hrels : ∀ r' ≠ r, t'.rels r' = t.rels r') :
    Kept size t' (fun q => q ≠ p ∧ live q) C P := by
  have hself : (t'.pairAt h).sid = slotDeleted := by rw [GbTable.pairAt, hslot]
  have hpairs : ∀ h' ≠ h, t'.pairAt h' = t.pairAt h' := fun h' hne => pairAt_congr (hother h' hne)
  have hseats := hk.seats.vacate hp hh ho hself hpairs
  have hclosed : ∀ r', r' < t.relCount → t.rels r' = none → t'.rels r' = none := by
    intro r' _ hr'
    by_cases heq : r' = r
    · rw [heq, hnone]
    · rw [hrels r' heq, hr']
  refine ⟨hseats, fun h' hh' hl => ?_, fun h' hh' hl => ?_, fun h₁ hh₁ h₂ hh₂ r' hr₁ hr₂ => ?_⟩
  · have hne : h' ≠ h := fun heq => (hseats.named _ hl).notDeleted (heq ▸ hself)
    rw [hpairs h' hne] at hl ⊢
    refine (hk.group h' hh' hl.2).frame (hother h' hne) hcount.ge (fun r' hr' _ => hrels r' ?_)
      hclosed
    exact fun heq => hne (hk.distinct h' hh' h hh r (heq ▸ hr') hdb)
  · by_cases heq : h' = h
    · subst heq
      refine ⟨by rw [hslot], fun c hc => ?_⟩
      obtain ⟨r', l, hdb', hlt, -, -, hat⟩ := hk.group h' hh (ho.symm ▸ hp)
      rw [hdb] at hdb'
      cases hdb'
      rw [hslot] at hc ⊢
      rw [show (t.slot h').ac = some c from hc] at hat
      generalize P (t.pairAt h') = i at hat
      cases hat with
      | on hrel => exact ⟨rfl, by rw [hcount, hrel]; exact hlt, by rw [hrel, hnone]⟩
      | stale hlt' hstale => exact ⟨rfl, hcount ▸ hlt', hclosed _ hlt' hstale⟩
    · rw [hpairs h' heq] at hl
      have hdead : ¬live (t.pairAt h') := by
        intro hl'
        refine hl ⟨fun ho' => heq (hk.seats.unique p hp h' hh' h hh ho' ho), hl'⟩
      exact (hk.vacant h' hh' hdead).frame (hother h' heq) hcount.ge hclosed
  · have hne : ∀ h', (t'.slot h').db = some r' → h' ≠ h := by
      intro h' hr' heq
      rw [heq, hslot] at hr'
      cases hr'
    rw [hother h₁ (hne h₁ hr₁)] at hr₁
    rw [hother h₂ (hne h₂ hr₂)] at hr₂
    exact hk.distinct h₁ hh₁ h₂ hh₂ r' hr₁ hr₂

theorem hashgbDelete_ok (hk : Kept size t live C P) (hfit : Fits t p)
    (hdead : ¬live p → C p = [] ∧ P p = none) :
    ∃ t', hashgbDelete size blank p t = .ok t' ∧ Kept size t' (fun q => q ≠ p ∧ live q) C P := by
  obtain ⟨h, t₁, hget, hh, ho, hk₁, -⟩ := gethashhandle_ok blank hk hfit hdead
  obtain ⟨r, l, hdb, hlt, ⟨s, hs, -⟩, -, hat⟩ := ho ▸ hk₁.group h hh (.inl ho)
  refine ⟨{ t₁ with
    slot := Function.update t₁.slot h { t₁.slot h with sid := slotDeleted, db := none }
    rels := Function.update t₁.rels r none }, ?_, ?_⟩
  · simp only [hashgbDelete, hget, ok_bind, hdb, rel_eq hs]
    rfl
  · generalize ht' : ({ t₁ with
      slot := Function.update t₁.slot h { t₁.slot h with sid := slotDeleted, db := none }
      rels := Function.update t₁.rels r none } : GbTable) = t'
    have hslot : t'.slot h = { t₁.slot h with sid := slotDeleted, db := none } := by
      rw [← ht']
      exact Function.update_self ..
    have hother : ∀ h' ≠ h, t'.slot h' = t₁.slot h' := by
      intro h' hne
      rw [← ht']
      exact Function.update_of_ne hne ..
    have hcount : t'.relCount = t₁.relCount := by rw [← ht']
    have hnone : t'.rels r = none := by
      rw [← ht']
      exact Function.update_self ..
    have hrels : ∀ r' ≠ r, t'.rels r' = t₁.rels r' := by
      intro r' hne
      rw [← ht']
      exact Function.update_of_ne hne ..
    exact (hk₁.close hh (.inl rfl) ho hdb hslot hother hcount hnone hrels).congr
      (fun q => by simp +contextual) (fun _ _ => rfl) fun _ _ => rfl

theorem first_eq_next (s : ImDb.Rel n Word) (key : Key n) (data : Word) :
    imRelCursorGet s imRelCursor key data .first = imRelCursorGet s imRelCursor key data .next :=
  rfl

theorem iterate_step (hl : s.Holds l) (hoid : s.oid = false) (i : Option Nat) {c : ImDb.Cursor}
    (hat : s.At c (l.drop (start i))) (key : Key n) (data : Word) :
    ∃ c', imRelCursorGet s c key data .next =
        .ok (s, c', (l[start i]?).map Entry.found) ∧
      ∀ e, l[start i]? = some e → c'.cur = some e.slot := by
  have hl' : s.Listed (l.take (start i) ++ l.drop (start i)) := by
    rw [List.take_append_drop]
    exact hl.toListed
  have hhead : (l.drop (start i)).head? = l[start i]? := List.head?_drop
  cases hs : s.head with
  | none =>
    obtain rfl := (ImDb.head_eq_none hl.toListed).mp hs
    exact ⟨c, by rw [imRelCursorGet, hs]; rfl, fun e he => by cases he⟩
  | some head =>
    have hnext := ImDb.next_eq hl' hat hs key data
    have hlive : ImDb.liveEntries (l.drop (start i)) = l.drop (start i) :=
      List.filter_eq_self.mpr fun e he => by
        rw [hl.value hoid e (List.mem_of_mem_drop he)]
        rfl
    rw [hlive, hhead] at hnext
    exact ⟨_, hnext, fun e he => by simp [he]⟩

theorem AtPos.at (hl : s.Holds l) {c : RelCursor} {i : Nat} {e : Entry n Word} (he : l[i]? = some e)
    (hcur : c.cursor.cur = some e.slot) :
    s.At c.cursor (l.drop (start (some i))) := by
  obtain ⟨hi, hget⟩ := List.getElem?_eq_some_iff.mp he
  have hsplit : l = l.take i ++ e :: l.drop (i + 1) := by
    rw [← hget, List.getElem_cons_drop, List.take_append_drop]
  have hl' : s.Listed (l.take i ++ e :: l.drop (i + 1)) := by
    rw [← hsplit]
    exact hl.toListed
  exact hl'.at_after hcur

/-- The cursor in the slot that a call for the pair uses is of another relation. -/
def Stale (t : GbTable) (p : Pair) : Prop :=
  ∃ h < gbHashSize, (t.Owns h p ∨ h = (home p).toNat ∧ Reuses t p) ∧
    ∃ c, (t.slot h).ac = some c ∧ (t.slot h).db ≠ some c.rel

theorem cursorOf_ok (hdb : (t.slot h).db = some r) (hs : t.rels r = some ⟨n, s⟩) (hl : s.Holds l)
    (hat : AtPos t r l (t.slot h).ac i) (hclean : ∀ c, (t.slot h).ac = some c → c.rel = r)
    (key : Key n) (data : Word) :
    ∃ c flag, t.cursorOf n h = .ok (c, flag) ∧ c.rel = r ∧ s.At c.cursor (l.drop (start i)) ∧
      imRelCursorGet s c.cursor key data flag = imRelCursorGet s c.cursor key data .next := by
  generalize hac : (t.slot h).ac = ac at hat hclean
  cases hat with
  | idle =>
    refine ⟨⟨r, imRelCursor⟩, .first, ?_, rfl, hl.toListed.at_head rfl, first_eq_next s key data⟩
    simp only [GbTable.cursorOf, hac, hdb, rel_eq hs]
    rfl
  | on hrel he hcur =>
    refine ⟨_, .next, ?_, hrel, AtPos.at hl he hcur, rfl⟩
    simp [GbTable.cursorOf, hac]
  | stale hlt hnone =>
    rw [hclean _ rfl, hs] at hnone
    cases hnone

theorem clean_of_fresh {t₁ : GbTable} (hk : Kept size t live C P) (hfresh : ¬Stale t p)
    (hh : h < gbHashSize) (ho : t₁.pairAt h = p) (hdb : (t₁.slot h).db = some r)
    (hsame : live p → t₁ = t) (hnew : ¬live p → Seat t p h ∧ (t₁.slot h).ac = (t.slot h).ac) :
    ∀ c, (t₁.slot h).ac = some c → c.rel = r := by
  intro c hc
  by_contra hne
  by_cases hp : live p
  · obtain rfl := hsame hp
    refine hfresh ⟨h, hh, .inl (owns_iff.mpr ho), c, hc, ?_⟩
    rw [hdb]
    exact fun heq => hne (Option.some.inj heq).symm
  · obtain ⟨hseat, hac⟩ := hnew hp
    rw [hac] at hc
    have hv := hk.vacant h hh fun hl => hseat.not_named (hk.seats.named _ hl)
    rcases hseat.free with he | ⟨heq, hreuse⟩
    · have hdel := (hv.ac c hc).1
      rw [he] at hdel
      cases hdel
    · exact hfresh ⟨h, hh, .inr ⟨heq, hreuse⟩, c, hc, by rw [hv.db]; simp⟩

theorem not_stale (hk : Kept size t live C P) (hp : live p) (hh : h < gbHashSize)
    (ho : t.pairAt h = p) (hac : ∀ c, (t.slot h).ac = some c → (t.slot h).db = some c.rel) :
    ¬Stale t p := by
  rintro ⟨h', hh', howns | ⟨-, hreuse⟩, c, hc, hne⟩
  · obtain rfl := hk.seats.unique p hp h' hh' h hh (owns_iff.mp howns) ho
    exact hne (hac c hc)
  · exact (hreuse.full h hh).1 (owns_iff.mpr ho)

theorem hashGetNext_ok (hk : Kept size t live C P) (hfit : Fits t p)
    (hdead : ¬live p → C p = [] ∧ P p = none) (hfresh : ¬Stale t p) :
    ∃ t', hashGetNext size blank p t = .ok (t', (C p)[start (P p)]?) ∧
      Kept size t' (fun q => q = p ∨ live q) C (Function.update P p
        (if start (P p) < (C p).length then some (start (P p)) else none)) ∧
      Fits t' p ∧ ¬Stale t' p := by
  obtain ⟨h, t₁, hget, hh, ho, hk₁, hsame, hnew, -⟩ :=
    gethashhandle_ok blank hk hfit hdead
  obtain ⟨r, l, hdb, hlt, ⟨s, hs, hl, hidx, hoid⟩, hpairs, hat⟩ :=
    ho ▸ hk₁.group h hh (.inl ho)
  obtain ⟨c, flag, hcursor, hrel, hstand, hflag⟩ := cursorOf_ok hdb hs hl hat
    (clean_of_fresh hk hfresh hh ho hdb hsame hnew)
    ⟨List.replicate (size p.sid) 0, List.length_replicate⟩ 0
  obtain ⟨c', hstep, hcur⟩ := iterate_step hl hoid (P p) hstand
    ⟨List.replicate (size p.sid) 0, List.length_replicate⟩ 0
  rw [← hflag] at hstep
  have hother (ac : Option RelCursor) : ∀ h' ≠ h, (t₁.setAc h ac).slot h' = t₁.slot h' :=
    fun h' hne => Function.update_of_ne hne ..
  have hself (ac : Option RelCursor) : (t₁.setAc h ac).slot h = { t₁.slot h with ac } :=
    Function.update_self ..
  have hpair (ac : Option RelCursor) : (t₁.setAc h ac).pairAt h = p := by
    rw [GbTable.pairAt, hself]
    exact ho
  have hset (ac : Option RelCursor) (i : Option Nat) (hat' : AtPos t₁ r l ac i)
      (hac : ∀ c, ac = some c → c.rel = r) :
      Kept size (t₁.setAc h ac) (fun q => q = p ∨ live q) C (Function.update P p i) ∧
        Fits (t₁.setAc h ac) p ∧ ¬Stale (t₁.setAc h ac) p := by
    suffices hkept : Kept size (t₁.setAc h ac) (fun q => q = p ∨ live q) C
        (Function.update P p i) by
      refine ⟨hkept, ⟨hfit.1, .inl ⟨h, hh, owns_iff.mpr (hpair ac)⟩⟩,
        not_stale hkept (.inl rfl) hh (hpair ac) fun c hc => ?_⟩
      rw [hself] at hc ⊢
      rw [hac c hc]
      exact hdb
    refine hk₁.regroup hh (.inl rfl) ho (hother ac) ?_ ?_ rfl (fun _ _ => rfl)
      (fun _ _ => rfl) (fun q hq => Function.update_of_ne hq ..) ?_
    · rw [hpair, ho]
    · rw [hself]
    · rw [Function.update_self]
      refine ⟨r, l, by rw [hself, hdb], hlt, ⟨s, hs, hl, hidx, hoid⟩, hpairs, ?_⟩
      rw [hself]
      exact hat'.frame (Nat.le_refl _) fun _ _ h => h
  have hlen : (C p).length = l.length := by rw [← hpairs, pairs, List.length_map]
  cases he : l[start (P p)]? with
  | none =>
    have hge : l.length ≤ start (P p) := List.getElem?_eq_none_iff.mp he
    refine ⟨t₁.setAc h none, ?_, ?_⟩
    · simp only [hashGetNext, hget, ok_bind, hcursor, hrel, rel_eq hs, hstep, lift, Except.mapError,
        setRel_self hs]
      rw [← hpairs, pairs, List.getElem?_map, he]
      rfl
    · rw [if_neg (by omega)]
      exact hset none none .idle fun c hc => by cases hc
  | some e =>
    obtain ⟨hi, -⟩ := List.getElem?_eq_some_iff.mp he
    refine ⟨t₁.setAc h (some { c with cursor := c' }), ?_, ?_⟩
    · simp only [hashGetNext, hget, ok_bind, hcursor, hrel, rel_eq hs, hstep, lift, Except.mapError,
        setRel_self hs]
      rw [← hpairs, pairs, List.getElem?_map, he]
      rfl
    · rw [if_pos (by omega)]
      exact hset _ _ (.on hrel he (hcur e he)) fun c hc => by cases hc; exact hrel

end

end GbHash
end StreamMill.Query
