import StreamMill.RTree.Deleted
import StreamMill.RTree.Dfs
import StreamMill.Lib.Routine

/-!
# StreamMill.RTree.Cursor

Cursors of an R-tree (`interface.cc`): opening one, and `c_get` with all its flags, which returns
the tuple number of an entry. A cursor holds a copy of the block it stands in, and the stack of its
depth-first search. `scanRight_iff`: DB_SET with DB_NEXT_DUP, and DB_SET_RANGE with DB_NEXT_RANGE,
return every matching entry once exactly if the tree is not empty and a search that was abandoned
before has left nothing on the stack that leads to a matching entry.
-/

namespace StreamMill.RTree

open Lib

def uintMax : Nat := 2 ^ 32 - 1

structure Cursor where
  curnode : Page
  curBlkPtr : Nat
  curitem : Nat
  curtpl : Nat
  dfsStack : List Frame
  dfsType : SearchType

inductive Flag
  | first
  | next
  | set
  | nextDup
  | setRange
  | nextRange

inductive Rc
  | ok
  | notFound
  deriving DecidableEq

/-- A cursor as `calloc` returns it: the buffer is a block of zeros. -/
def Cursor.zero : Cursor where
  curnode := .free 0 zeroNode
  curBlkPtr := 0
  curitem := 0
  curtpl := 0
  dfsStack := []
  dfsType := .equality

/-- `rtree_cursor`. It sets `curBlkPtr` to a block number, not to a file offset. -/
def rtreeCursor (s : State) : Except Err Cursor :=
  if s.fbInd ≠ 1 then do
    let p ← peekBlkByPtr s s.lptr
    return { Cursor.zero with
      curnode := p
      curBlkPtr := s.lptr / blockSz
      curtpl := if 0 < p.counter then (p.item 0).ptr else 255 }
  else return { Cursor.zero with curtpl := uintMax, curBlkPtr := uintMax }

def Cursor.unset (c : Cursor) : Cursor :=
  { c with curBlkPtr := uintMax, curitem := uintMax, curtpl := uintMax }

/-- `rtree_cursor_next_item`: the deletion byte of the next item; `none` at the end. -/
def nextItem (s : State) (c : Cursor) : Except Err (Option Bool × Cursor) :=
  let curitem := (c.curitem + 1) % 2 ^ 32
  if c.curnode.counter ≤ curitem then
    let nextlptr := (c.curnode.contents zeroNode).nextlptr
    if nextlptr = 0 then return (none, c.unset)
    else do
      let p ← peekBlkByPtr s nextlptr
      return (some (p.item 0).del, { c with curnode := p, curBlkPtr := nextlptr, curitem := 0 })
  else return (some (c.curnode.item curitem).del, { c with curitem })

def moveToNextNonDel (s : State) : Nat → Cursor → Option (Except Err (Rc × Cursor))
  | 0, _ => none
  | fuel + 1, c =>
    match nextItem s c with
    | .error e => some (.error e)
    | .ok (none, c) => some (.ok (.notFound, c))
    | .ok (some true, c) => moveToNextNonDel s fuel c
    | .ok (some false, c) => some (.ok (.ok, c))

def readCuritem (key : Rect) : Rc × Cursor → Rc × Rect × Cursor
  | (.notFound, c) => (.notFound, key, c)
  | (.ok, c) =>
    let item := c.curnode.item c.curitem
    (.ok, item.rect, { c with curtpl := item.ptr })

/-- `DB_FIRST`. Its `rc` is not initialised and read if the first item is not deleted; it is taken
as 0. -/
def getFirst (s : State) (fuel : Nat) (c : Cursor) (key : Rect) :
    Option (Except Err (Rc × Rect × Cursor)) :=
  if s.fbInd = 1 then some (.ok (.notFound, key, c.unset))
  else
    match peekBlkByPtr s s.lptr with
    | .error e => some (.error e)
    | .ok p =>
      let c := { c with curnode := p, curBlkPtr := s.lptr, curitem := 0 }
      if p.counter = 0 then some (.ok (.notFound, key, c.unset))
      else if (p.item 0).del then (moveToNextNonDel s fuel c).map (Except.map (readCuritem key))
      else some (.ok (readCuritem key (.ok, c)))

/-- The search goes on with the stack of the cursor. -/
def dfsGet (s : State) (fuel : Nat) (c : Cursor) (key : Rect) :
    Option (Except Err (Rc × Rect × Cursor)) :=
  match rtreeDfs s c.dfsType fuel c.dfsStack key c.curnode with
  | none => none
  | some (.error e) => some (.error e)
  | some (.ok out) =>
    let c := { c with dfsStack := out.stack, curnode := out.temp }
    match out.curtpl, out.stack with
    | some tpl, f :: _ =>
      some (.ok (.ok, out.mbr,
        { c with curtpl := tpl, curBlkPtr := f.blkptr, curitem := f.ent - 1 }))
    | _, _ => some (.ok (.notFound, out.mbr, c.unset))

/-- `DB_SET` and `DB_SET_RANGE` push the root and leave what is on the stack. -/
def Cursor.pushRoot (c : Cursor) (type : SearchType) : Cursor :=
  { c with dfsStack := ⟨blockSz, 0⟩ :: c.dfsStack, dfsType := type }

def rtreeCursorGet (s : State) (fuel : Nat) (c : Cursor) (key : Rect) :
    Flag → Option (Except Err (Rc × Rect × Cursor))
  | .first => getFirst s fuel c key
  | .next => (moveToNextNonDel s fuel c).map (Except.map (readCuritem key))
  | .set => dfsGet s fuel (c.pushRoot .equality) key
  | .nextDup => dfsGet s fuel c key
  | .setRange => dfsGet s fuel (c.pushRoot .containment) key
  | .nextRange => dfsGet s fuel c key

def setFlag : SearchType → Flag
  | .equality => .set
  | .containment => .setRange

def nextFlag : SearchType → Flag
  | .equality => .nextDup
  | .containment => .nextRange

structure Place where
  blkptr : Nat
  ent : Nat
  tplno : Nat
  deriving DecidableEq

def Cursor.place (c : Cursor) : Place := ⟨c.curBlkPtr, c.curitem, c.curtpl⟩

def Entry.place (e : Entry) : Place := ⟨e.blkptr, e.ent, e.item.ptr⟩

/-- A get, with `none` for `DB_NOTFOUND`. The caller fills in the key before every call. -/
def getPlace (s : State) (fuel : Nat) (key : Rect) (flag : Flag) (c : Cursor) :
    Option (Option Place × Cursor) :=
  match rtreeCursorGet s fuel c key flag with
  | some (.ok (.ok, _, c)) => some (some c.place, c)
  | some (.ok (.notFound, _, c)) => some (none, c)
  | _ => none

/-- The first get of a scan and `n` more. -/
def scan (s : State) (fuel : Nat) (key : Rect) (type : SearchType) (n : Nat) (c : Cursor) :
    Option (List (Option Place) × Cursor) := do
  let (a, c) ← getPlace s fuel key (setFlag type) c
  let (as, c) ← calls (getPlace s fuel key (nextFlag type)) n c
  return (a :: as, c)

def Matches (type : SearchType) (key : Rect) (item : Item) : Prop :=
  item.del = false ∧
    match type with
    | .equality => item.rect = key
    | .containment => Covers key item.rect

/-- The scan returns every matching entry of the tree once, and then `DB_NOTFOUND`. -/
def ScanRight (s : State) (c : Cursor) (key : Rect) (type : SearchType) : Prop :=
  ∃ es : List Entry, es.Nodup ∧
    (∀ e, e ∈ es ↔ LeafEntry s e ∧ Matches type key e.item) ∧
    Returns (fun fuel => (scan s fuel key type es.length c).map Prod.fst)
      (es.map (fun e => some e.place) ++ [none])

/-- An R-tree and its file: a new R-tree has no block in its file. -/
def Stored (s : State) (items : Multiset Item) : Prop :=
  WellFormed s items ∧ (IsEmpty s → s.index 1 = .absent)

variable {s : State} {type : SearchType} {key : Rect} {c : Cursor}

theorem wanted_iff {item : Item} : wanted type key item = true ↔ Matches type key item := by
  unfold wanted Matches
  rw [Bool.and_eq_true, Bool.not_eq_true', and_comm]
  cases type with
  | equality =>
    rw [got, decide_eq_true_eq, containedIn_eq_zero]
    exact and_congr_right fun _ => eq_comm
  | containment => rw [got, decide_eq_true_eq, containedIn_nonneg]

theorem scan_eq (fuel n : Nat) :
    scan s fuel key type n c =
      calls (getPlace s fuel key (nextFlag type)) (n + 1) (c.pushRoot type) := by
  cases type <;> rfl

theorem getPlace_next (fuel : Nat) :
    getPlace s fuel key (nextFlag type) c =
      match dfsGet s fuel c key with
      | some (.ok (.ok, _, c)) => some (some c.place, c)
      | some (.ok (.notFound, _, c)) => some (none, c)
      | _ => none := by
  cases type <;> rfl

variable {es : List Entry} {h : Nat} {t : Contents}

theorem getPlace_notFound (htype : c.dfsType = type) (h : Pending s c.dfsStack es)
    (hes : ∀ e ∈ es, wanted type key e.item = false) :
    ∃ c', Returns (fun fuel => getPlace s fuel key (nextFlag type) c) (none, c') := by
  obtain ⟨temp, n, hn⟩ := dfs_notFound h hes c.curnode
  refine ⟨({ c with dfsStack := [], curnode := temp } : Cursor).unset, n, fun fuel hfuel => ?_⟩
  have hdfs := hn fuel hfuel
  simp [getPlace_next, dfsGet, htype, hdfs]

theorem getPlace_found {skipped rest : List Entry} {e : Entry} (htype : c.dfsType = type)
    (h : Pending s c.dfsStack es) (hes : es = skipped ++ e :: rest)
    (hskip : ∀ e ∈ skipped, wanted type key e.item = false) (he : wanted type key e.item = true) :
    ∃ c', Returns (fun fuel => getPlace s fuel key (nextFlag type) c) (some e.place, c') ∧
      c'.dfsType = type ∧ Pending s c'.dfsStack rest := by
  obtain ⟨stack, p, ⟨n, hn⟩, hrest, -⟩ := dfs_found h hes hskip he c.curnode
  let c' : Cursor := { c with
    dfsStack := ⟨e.blkptr, e.ent + 1⟩ :: stack, curnode := p, curtpl := e.item.ptr
    curBlkPtr := e.blkptr, curitem := e.ent }
  subst htype
  refine ⟨c', ⟨n, fun fuel hfuel => ?_⟩, rfl, hrest⟩
  have hdfs := hn fuel hfuel
  simp only [getPlace_next, dfsGet, hdfs]
  rfl

theorem calls_returns (key : Rect) (htype : c.dfsType = type) (h : Pending s c.dfsStack es) :
    ∃ c', Returns (fun fuel => calls (getPlace s fuel key (nextFlag type))
        ((es.filter fun e => wanted type key e.item).length + 1) c)
      ((es.filter fun e => wanted type key e.item).map (fun e => some e.place) ++ [none], c') := by
  generalize hw : (es.filter fun e => wanted type key e.item) = ws
  induction ws generalizing es c with
  | nil =>
    obtain ⟨c', n, hn⟩ := getPlace_notFound htype h (by simpa using hw)
    exact ⟨c', n, fun fuel hfuel => calls_succ (hn fuel hfuel) rfl⟩
  | cons e ws ih =>
    obtain ⟨skipped, rest, rfl, hskip, he, hrest⟩ := List.filter_eq_cons_iff.mp hw
    obtain ⟨c₁, ⟨n, hn⟩, htype₁, hpend⟩ := getPlace_found htype h rfl (by simpa using hskip) he
    obtain ⟨c', m, hm⟩ := ih htype₁ hpend hrest
    refine ⟨c', n + m, fun fuel hfuel => ?_⟩
    exact calls_succ (hn fuel (by omega)) (hm fuel (by omega))

theorem getPlace_explains {fuel : Nat} {a : Option Place} {c₁ : Cursor} (htype : c.dfsType = type)
    (h : getPlace s fuel key (nextFlag type) c = some (a, c₁)) :
    c₁.dfsType = type ∧
      match a with
      | none => ∃ es, Pending s c.dfsStack es ∧ ∀ e ∈ es, wanted type key e.item = false
      | some p => ∃ skipped e, p = Entry.place e ∧
          (∀ e ∈ skipped, wanted type key e.item = false) ∧ wanted type key e.item = true ∧
          ∀ es, Pending s c₁.dfsStack es → Pending s c.dfsStack (skipped ++ e :: es) := by
  subst htype
  rw [getPlace_next, dfsGet] at h
  cases hdfs : rtreeDfs s c.dfsType fuel c.dfsStack key c.curnode with
  | none => simp [hdfs] at h
  | some r =>
    cases r with
    | error e => simp [hdfs] at h
    | ok out =>
      have hex := dfs_explains fuel hdfs
      unfold DfsOut.Explains at hex
      simp only [hdfs] at h
      cases hc : out.curtpl with
      | none =>
        simp only [hc] at h hex
        cases h
        exact ⟨rfl, hex⟩
      | some tpl =>
        simp only [hc] at h hex
        obtain ⟨skipped, e, stack', rfl, hst, hskip, he, hes⟩ := hex
        simp only [hst] at h hes
        cases h
        exact ⟨rfl, skipped, e, rfl, hskip, he, hes⟩

theorem calls_explains {fuel : Nat} {ps : List Place} {c' : Cursor} (htype : c.dfsType = type)
    (h : calls (getPlace s fuel key (nextFlag type)) (ps.length + 1) c =
      some (ps.map some ++ [none], c')) :
    ∃ es, Pending s c.dfsStack es ∧
      (es.filter fun e => wanted type key e.item).map Entry.place = ps := by
  induction ps generalizing c with
  | nil =>
    obtain ⟨⟨a, c₁⟩, hget, h⟩ := Option.bind_eq_some_iff.mp h
    cases h
    obtain ⟨-, es, hes, hw⟩ := getPlace_explains htype hget
    exact ⟨es, hes, by simpa using hw⟩
  | cons p ps ih =>
    obtain ⟨⟨a, c₁⟩, hget, h⟩ := Option.bind_eq_some_iff.mp h
    obtain ⟨⟨as, c₂⟩, hrest, h⟩ := Option.bind_eq_some_iff.mp h
    cases h
    obtain ⟨htype₁, skipped, e, rfl, hskip, he, hes⟩ := getPlace_explains htype hget
    obtain ⟨es, hpend, hps⟩ := ih htype₁ hrest
    refine ⟨_, hes es hpend, ?_⟩
    rw [List.filter_append, List.filter_cons, if_pos he,
      List.filter_eq_nil_iff.mpr (by simpa using hskip), List.nil_append, List.map_cons, hps]

def NothingLeft (s : State) (c : Cursor) (key : Rect) (type : SearchType) : Prop :=
  ∃ rest, Pending s c.dfsStack rest ∧ ∀ e ∈ rest, ¬Matches type key e.item

theorem scan_right (hs : IsTree s h t) (hleft : NothingLeft s c key type) :
    ScanRight s c key type := by
  obtain ⟨ents, hnd, hmem, hlist⟩ := hs.lists
  obtain ⟨rest, hrest, hno⟩ := hleft
  have hpend : Pending s (c.pushRoot type).dfsStack (ents ++ rest) := hlist _ _ hrest
  have htype : (c.pushRoot type).dfsType = type := rfl
  obtain ⟨c', hcalls⟩ := calls_returns key htype hpend
  have hrest' : rest.filter (fun e => wanted type key e.item) = [] := by
    rw [List.filter_eq_nil_iff]
    exact fun e he => by simpa [wanted_iff] using hno e he
  rw [List.filter_append, hrest', List.append_nil] at hcalls
  refine ⟨ents.filter fun e => wanted type key e.item, hnd.filter _, fun e => ?_, ?_⟩
  · rw [List.mem_filter, hmem, wanted_iff]
  · obtain ⟨n, hn⟩ := hcalls
    refine ⟨n, fun fuel hfuel => ?_⟩
    have hrun := hn fuel hfuel
    simp only [scan_eq, hrun]
    rfl

theorem nothingLeft_of_right (hs : IsTree s h t) (hright : ScanRight s c key type) :
    NothingLeft s c key type := by
  obtain ⟨ents, hnd, hmem, hlist⟩ := hs.lists
  obtain ⟨es, hesnd, hesmem, n, hn⟩ := hright
  have hrun := hn n (Nat.le_refl n)
  simp only [scan_eq] at hrun
  obtain ⟨⟨as, c'⟩, hcalls, has⟩ := Option.map_eq_some_iff.mp hrun
  subst has
  have hlen : (es.map Entry.place).length = es.length := List.length_map _
  have hmap : es.map (fun e => some e.place) ++ [none] =
      (es.map Entry.place).map some ++ [none] := by rw [List.map_map]; rfl
  rw [hmap, ← hlen] at hcalls
  have htype : (c.pushRoot type).dfsType = type := rfl
  obtain ⟨all, hall, hplaces⟩ := calls_explains htype hcalls
  have hstack : (c.pushRoot type).dfsStack = [⟨blockSz, 0⟩] ++ c.dfsStack := rfl
  obtain ⟨rest, hrest⟩ := (hstack ▸ hall).tail
  obtain rfl := hall.unique (hlist _ _ hrest)
  refine ⟨rest, hrest, fun e he hmatch => ?_⟩
  -- as many entries come out as the tree has, so none of them is from the rest
  have hperm : es.Perm (ents.filter fun e => wanted type key e.item) := by
    rw [List.perm_ext_iff_of_nodup hesnd (hnd.filter _)]
    intro e
    rw [hesmem, List.mem_filter, hmem, wanted_iff]
  have hcount := congrArg List.length hplaces
  rw [List.length_map, List.length_map, List.filter_append, List.length_append,
    hperm.length_eq] at hcount
  have hnil : rest.filter (fun e => wanted type key e.item) = [] :=
    List.eq_nil_of_length_eq_zero (by omega)
  exact List.filter_eq_nil_iff.mp hnil e he (wanted_iff.mpr hmatch)

theorem IsTree.not_isEmpty (hs : IsTree s h t) : ¬IsEmpty s := by
  rintro ⟨-, -, htb, -⟩
  obtain ⟨es, hroot⟩ := hs.tree
  have := (hs.alloc.mem hroot.mem).2
  omega

theorem not_scanRight_of_empty (hroot : s.index 1 = .absent) : ¬ScanRight s c key type := by
  rintro ⟨es, -, -, n, hn⟩
  have hrun := hn n (Nat.le_refl n)
  simp only [scan_eq] at hrun
  obtain ⟨⟨as, c'⟩, hcalls, -⟩ := Option.map_eq_some_iff.mp hrun
  obtain ⟨⟨a, c₁⟩, hget, -⟩ := Option.bind_eq_some_iff.mp hcalls
  have hread : peekBlkByPtr s blockSz = .error .readBlk := by
    have hdiv : blockSz / blockSz = 1 := rfl
    simp [peekBlkByPtr, hdiv, hroot]
  rw [getPlace_next, dfsGet] at hget
  cases n with
  | zero => cases hget
  | succ n =>
    simp only [Cursor.pushRoot, rtreeDfs, hread] at hget
    cases hget

/-- A scan returns every matching entry once, and then nothing, exactly if the tree is not empty and
an abandoned search has left nothing on the stack that leads to a matching entry. -/
theorem scanRight_iff {items : Multiset Item} (hs : Stored s items) (c : Cursor) (key : Rect)
    (type : SearchType) :
    ScanRight s c key type ↔ ¬IsEmpty s ∧ NothingLeft s c key type := by
  obtain ⟨⟨hempty, -⟩ | ⟨h, t, htree, -⟩, habsent⟩ := hs
  · constructor
    · exact fun hright => absurd hright (not_scanRight_of_empty (habsent hempty))
    · exact fun hright => absurd hempty hright.1
  · constructor
    · exact fun hright => ⟨htree.not_isEmpty, nothingLeft_of_right htree hright⟩
    · exact fun hright => scan_right htree hright.2

def twoPoints : Node where
  nodetype := .leaf
  counter := 2
  nextlptr := 0
  prevlptr := 0
  items := fun i => ⟨⟨0, 0, 0, 0⟩, i, false⟩

theorem twoPoints_stored : Stored (leafRoot twoPoints) (twoPoints.entries : Multiset Item) := by
  refine ⟨leafRoot_wellFormed rfl (by decide) rfl rfl, ?_⟩
  rintro ⟨-, htb, -⟩
  cases htb

theorem scanRight_iff_twoPoints :
    ScanRight (leafRoot twoPoints) .zero ⟨0, 0, 0, 0⟩ .equality ↔
      ¬IsEmpty (leafRoot twoPoints) ∧
        NothingLeft (leafRoot twoPoints) .zero ⟨0, 0, 0, 0⟩ .equality :=
  scanRight_iff twoPoints_stored .zero ⟨0, 0, 0, 0⟩ .equality

/-- A cursor is opened and a scan abandoned after the first of two tuples. The next scan on the
cursor returns the second tuple twice. -/
theorem abandoned_scan_not_right :
    ∃ (s : State) (items : Multiset Item) (c₀ c : Cursor) (key : Rect), Stored s items ∧
      rtreeCursor s = .ok c₀ ∧ rtreeCursorGet s 1 c₀ key .set = some (.ok (.ok, key, c)) ∧
      ¬ScanRight s c key .equality := by
  refine ⟨leafRoot twoPoints, twoPoints.entries, _, _, ⟨0, 0, 0, 0⟩, twoPoints_stored, rfl, rfl,
    fun hright => ?_⟩
  obtain ⟨⟨he, -⟩ | ⟨h, t, htree, -⟩, -⟩ := twoPoints_stored
  · exact absurd he.2.1 (by simp [leafRoot])
  obtain ⟨rest, hrest, hno⟩ := nothingLeft_of_right htree hright
  have hnode : (leafRoot twoPoints).index 1 = .node twoPoints := rfl
  obtain rfl := hrest.unique (lists_leaf hnode rfl 1 1 rfl [] [] .nil)
  exact hno ⟨blkPtr 1, 1, twoPoints.items 1⟩ (by simp) ⟨rfl, rfl⟩

end StreamMill.RTree
