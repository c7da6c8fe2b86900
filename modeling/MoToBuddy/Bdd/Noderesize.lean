import MoToBuddy.Bdd.Plain

/-!
# `bdd_noderesize` for every setting

`bddNoderesizeWith` is the function with all that its callers can meet: both values of the rehash
flag, a `realloc` that fails, and sizes that an `int` cannot hold, for which nothing is defined.
With memory and small sizes it is the growth that `bdd_makenode` uses (`bddNoderesizeWith_eq`).

* `bddNoderesize_safe_iff`: what a failed or impossible growth leaves behind. The recorded size is
  not restored if `realloc` fails, and a table that gets no new slot loses its free list unless
  all lists are rebuilt.
-/

namespace MoToBuddy.Bdd

open Chained CountedLoop

variable {P : Type*}

/-! ## The source -/

/-- What `bdd_noderesize` returns, with the number of nodes that are allocated. -/
structure Resized (P : Type*) where
  code : ℤ
  allocated : ℕ
  state : BddState P

/-- The new slots of `bdd_noderesize`, in front of the free list. `HIGH` of a new slot is not
written, and not read before it is. -/
def BddState.appendSlots (s : BddState P) (doRehash : Bool) (size : ℕ) : BddState P :=
  let oldsize := s.bddnodesize
  let freepos := s.bddfreepos
  let s := { s with
    bddnodesize := size
    bddnodes := fun n =>
      if n < oldsize then (if doRehash then { s.bddnodes n with hash := 0 } else s.bddnodes n)
      else if n < size then ⟨none, 0, 0, 0, false, 0, n + 1⟩
      else s.bddnodes n }
  let s := s.setNode (size - 1) { s.bddnodes (size - 1) with next := freepos }
  { s with
    bddfreepos := oldsize
    bddfreenum := s.bddfreenum + (size - oldsize) }

/-- The sizes that `bdd_noderesize` computes fit into an `int`. -/
def BddState.SizesFit (s : BddState P) : Prop :=
  (s.bddnodesize : ℤ) * 2 ≤ intMax ∧ (s.bddnodesize + s.env.bddmaxnodeincrease : ℤ) ≤ intMax

instance (s : BddState P) : Decidable s.SizesFit := inferInstanceAs (Decidable (_ ∧ _))

/-- The table has as many nodes as `bdd_setmaxnodenum` allows. -/
def BddState.AtLimit (s : BddState P) : Prop :=
  s.bddnodesize ≥ s.env.bddmaxnodesize ∧ s.env.bddmaxnodesize > 0

instance (s : BddState P) : Decidable s.AtLimit := inferInstanceAs (Decidable (_ ∧ _))

/-- `bdd_noderesize`, for the outcome of `realloc`; nothing is defined for an `int` overflow. -/
def bddNoderesizeWith (D : MtbddDomain P) (isPrime : ℕ → Bool) (reallocOk doRehash : Bool)
    (s : BddState P) : Option (Resized P) :=
  if s.AtLimit then some ⟨-1, s.bddnodesize, s⟩
  else if ¬ s.SizesFit then none
  else
    let size := resizeTarget isPrime s
    if reallocOk then
      let s := s.appendSlots doRehash size
      let s := if doRehash then bddGbcRehash D s else s
      some ⟨0, size, { s with bddresized := true }⟩
    else some ⟨-1, s.bddnodesize, { s.error .memory with bddnodesize := size }⟩

variable {D : MtbddDomain P} {isPrime : ℕ → Bool} {s : BddState P}

/-! ## The growth of `bdd_makenode` -/

/-- A rebuild does not look at the old link of the slot that it comes to. -/
theorem rehashStep_relink (s : BddState P) (n next : ℕ) :
    rehashStep D n (s.setNode n { s.bddnodes n with next := next }) = rehashStep D n s := by
  have hself : (s.setNode n { s.bddnodes n with next := next }).bddnodes n =
      { s.bddnodes n with next := next } := Function.update_self ..
  have hbucket : (s.setNode n { s.bddnodes n with next := next }).bucket D n = s.bucket D n := by
    refine BddState.bucket_congr ?_ rfl fun _ _ => rfl
    unfold BddState.key
    rw [hself]
    rfl
  have hfree : (s.setNode n { s.bddnodes n with next := next }).isFree n = s.isFree n := by
    unfold BddState.isFree
    rw [hself]
  have hhash : ∀ b, ((s.setNode n { s.bddnodes n with next := next }).bddnodes b).hash =
      (s.bddnodes b).hash := by
    intro b
    unfold BddState.setNode
    dsimp only
    rw [Function.update_apply]
    split
    · rename_i hb
      rw [hb]
    · rfl
  unfold rehashStep
  rw [hfree, hbucket]
  split
  · unfold BddState.release
    rw [hself]
    unfold BddState.setNode
    dsimp only
    rw [Function.update_idem]
  · unfold BddState.chainIn
    rw [hself, hhash]
    unfold BddState.setNode
    dsimp only
    rw [Function.update_idem]

/-- So the link that `bdd_noderesize` writes into the last slot does not matter to a rebuild. -/
theorem bddGbcRehash_appendSlots {size : ℕ} (hsize : 2 < size) :
    bddGbcRehash D (s.appendSlots true size) = bddGbcRehash D (s.extend size) := by
  obtain ⟨k, hk⟩ : ∃ k, size - 2 = k + 1 := ⟨size - 3, by omega⟩
  have hlast : 2 + k = size - 1 := by omega
  let u : BddState P := { s.extend size with
    bddfreepos := 0
    bddfreenum := 0 }
  have hnodes : ∀ n, (s.appendSlots true size).bddnodes n =
      (u.setNode (2 + k) { u.bddnodes (2 + k) with next := s.bddfreepos }).bddnodes n := by
    intro n
    unfold BddState.appendSlots BddState.setNode
    dsimp only [u, BddState.extend]
    rw [hlast, Function.update_apply, Function.update_apply, if_pos rfl]
    by_cases hn : n = size - 1
    · rw [if_pos hn, if_pos hn]
      split
      · rfl
      · split <;> rfl
    · rw [if_neg hn, if_neg hn]
      split
      · rfl
      · split
        · rw [if_neg (by omega)]
        · rfl
  have hstate : ({ s.appendSlots true size with
      bddfreepos := 0
      bddfreenum := 0 } : BddState P) =
      u.setNode (2 + k) { u.bddnodes (2 + k) with next := s.bddfreepos } := by
    have hfun := funext hnodes
    show ({ s.appendSlots true size with
      bddfreepos := 0
      bddfreenum := 0
      bddnodes := (s.appendSlots true size).bddnodes } : BddState P) = _
    rw [hfun]
    rfl
  unfold bddGbcRehash
  dsimp only
  rw [hstate, show (s.appendSlots true size).bddnodesize = size from rfl,
    show (s.extend size).bddnodesize = size from rfl, hk, forDown, forDown, rehashStep_relink]
  rfl

/-- With memory and small sizes, the growth of `bdd_makenode`. -/
theorem bddNoderesizeWith_eq (hs : GoodSize isPrime s.bddnodesize) (hfit : s.SizesFit) :
    ∃ r, bddNoderesizeWith D isPrime true true s = some r ∧
      r.state = bddNoderesize D isPrime s := by
  unfold bddNoderesizeWith bddNoderesize
  by_cases hlimit : s.AtLimit
  · rw [if_pos hlimit, if_pos (show s.bddnodesize ≥ _ ∧ _ from hlimit)]
    exact ⟨_, rfl, rfl⟩
  · obtain ⟨hle, -⟩ := resizeTarget_spec ⟨hs.1.le, hs.2⟩ hlimit
    rw [if_neg hlimit, if_neg (not_not_intro hfit),
      if_neg (show ¬ (s.bddnodesize ≥ _ ∧ _) from hlimit), if_pos rfl]
    refine ⟨_, rfl, ?_⟩
    dsimp only
    rw [if_pos rfl, bddGbcRehash_appendSlots (Nat.lt_of_lt_of_le hs.1 hle)]

/-! ## What a growth should leave behind -/

/-- The indices on the free list are in the table and free, and as many as the counter says. -/
def FreeListOk (s : BddState P) : Prop :=
  ∃ l, IsChain s.links.next s.bddfreepos l ∧ l.length = s.bddfreenum ∧
    ∀ n ∈ l, n < s.bddnodesize ∧ s.isFree n = true

/-- The table is exactly as before. -/
structure TableSame (s s' : BddState P) : Prop where
  nodes : s'.bddnodes = s.bddnodes
  nodesize : s'.bddnodesize = s.bddnodesize
  freepos : s'.bddfreepos = s.bddfreepos
  freenum : s'.bddfreenum = s.bddfreenum

/-- The largest size that the limits allow. -/
def BddState.resizeBound (s : BddState P) : ℕ :=
  let size := min (s.bddnodesize * 2) (s.bddnodesize + s.env.bddmaxnodeincrease)
  if size > s.env.bddmaxnodesize ∧ s.env.bddmaxnodesize > 0 then s.env.bddmaxnodesize else size

/-- There is a larger size that the limits and the prime test allow. -/
def CanGrow (isPrime : ℕ → Bool) (s : BddState P) : Prop :=
  ¬ s.AtLimit ∧ ∃ p, s.bddnodesize < p ∧ p ≤ s.resizeBound ∧ p % 2 = 1 ∧ isPrime p = true

/-- The growth of a table is safe. -/
structure ResizeSafe (isPrime : ℕ → Bool) (s : BddState P) (reallocOk doRehash : Bool)
    (r : Resized P) : Prop where
  allocated : r.state.bddnodesize = r.allocated
  free : FreeListOk r.state
  links : doRehash = false → ∀ n < s.bddnodesize,
    (r.state.bddnodes n).hash = (s.bddnodes n).hash ∧
      (r.state.bddnodes n).next = (s.bddnodes n).next
  failed : ¬ CanGrow isPrime s ∨ reallocOk = false → TableSame s r.state

/-- The nodes of every bucket and the free slots are in ascending order on their lists. -/
def Rebuilt (D : MtbddDomain P) (s : BddState P) : Prop :=
  Ascending 2 s.bddnodesize s.live (s.bucket D) s.links

/-- When a growth is safe. -/
def ResizeFits (D : MtbddDomain P) (isPrime : ℕ → Bool) (s : BddState P)
    (reallocOk doRehash : Bool) : Prop :=
  s.AtLimit ∨ s.SizesFit ∧
    (CanGrow isPrime s ∧ reallocOk = true ∨
      ¬ CanGrow isPrime s ∧ (reallocOk = false ∨ doRehash = true ∧ Rebuilt D s))

theorem canGrow_iff (hs : GoodSize isPrime s.bddnodesize) (hlimit : ¬ s.AtLimit) :
    CanGrow isPrime s ↔ s.bddnodesize < resizeTarget isPrime s := by
  have htarget : resizeTarget isPrime s = bddPrimeLte isPrime s.resizeBound := rfl
  obtain ⟨-, hodd, hprime⟩ := resizeTarget_spec ⟨hs.1.le, hs.2⟩ hlimit
  constructor
  · rintro ⟨-, p, hlt, hle, hp⟩
    have h2 : 2 ≤ p := Nat.le_trans hs.1.le hlt.le
    have hmax := (bddPrimeLte_spec h2 hp.1 hp.2 hle).1
    rw [htarget]
    omega
  · intro hlt
    refine ⟨hlimit, _, hlt, ?_, hodd, hprime⟩
    rw [htarget]
    exact bddPrimeLte_le isPrime s.resizeBound

/-- A free list of the table, whatever else is on it. -/
theorem freeListOk_of_freeList (h : FreeList 2 s.bddnodesize (s.live · = true) s.links) :
    FreeListOk s := by
  obtain ⟨l, hc, -, hlen, hm⟩ := h
  refine ⟨l, hc, hlen, fun n hn => ?_⟩
  obtain ⟨hbound, hdead⟩ := (hm n).mp hn
  refine ⟨hbound.2, ?_⟩
  rw [isFree_eq hbound.1]
  simpa using hdead

/-! ## Growth with memory -/

section

variable {size : ℕ}

theorem appendSlots_old {n : ℕ} (hn : n < s.bddnodesize) (hlt : s.bddnodesize < size) :
    (s.appendSlots false size).bddnodes n = s.bddnodes n := by
  unfold BddState.appendSlots BddState.setNode
  dsimp only
  rw [Function.update_of_ne (by omega), if_pos hn, if_neg Bool.false_ne_true]

theorem appendSlots_new {n : ℕ} (hn : s.bddnodesize ≤ n) (hlt : n < size) :
    (s.appendSlots false size).bddnodes n =
      ⟨none, 0, 0, 0, false, 0, if n + 1 = size then s.bddfreepos else n + 1⟩ := by
  unfold BddState.appendSlots BddState.setNode
  dsimp only
  rw [Function.update_apply, if_neg (by omega : ¬ size - 1 < s.bddnodesize),
    if_pos (by omega : size - 1 < size), if_neg (by omega : ¬ n < s.bddnodesize), if_pos hlt]
  by_cases hn : n + 1 = size
  · rw [if_pos (by omega), if_pos hn]
  · rw [if_neg (by omega), if_neg hn]

/-- Without a rebuild, the new slots are put in front of the free list. -/
theorem appendSlots_freeList (hfree : FreeList 2 s.bddnodesize (s.live · = true) s.links)
    (hs : 2 < s.bddnodesize) (hlt : s.bddnodesize < size) :
    FreeList 2 size ((s.appendSlots false size).live · = true)
      (s.appendSlots false size).links := by
  refine hfree.extend hs.le hlt (by omega) (fun n h2 hn => ?_) (fun n hn hn1 => ?_) ?_
    (fun n _ hn => ?_) (fun n hn hns => ?_) _
  · show ((s.appendSlots false size).bddnodes n).next = _
    rw [appendSlots_old hn hlt]
    rfl
  · show ((s.appendSlots false size).bddnodes n).next = _
    rw [appendSlots_new hn (by omega), if_neg (by omega)]
  · show ((s.appendSlots false size).bddnodes (size - 1)).next = _
    rw [appendSlots_new (by omega) (by omega), if_pos (by omega)]
    rfl
  · have hkey : (s.appendSlots false size).key n = s.key n := by
      unfold BddState.key
      rw [appendSlots_old hn hlt]
    rw [BddState.live_congr hkey]
  · unfold BddState.live BddState.key
    rw [appendSlots_new hn hns]
    simp [BddNode.key]

theorem extend_hash (s : BddState P) (size : ℕ) :
    ∀ b < (s.extend size).bddnodesize, ((s.extend size).bddnodes b).hash = 0 := by
  intro b hb
  have hb' : b < size := hb
  unfold BddState.extend
  dsimp only
  split
  · rfl
  · rfl

/-- A rebuild threads the free slots. -/
theorem extend_freeListOk (hsize : 2 ≤ size) :
    FreeListOk (bddGbcRehash D (s.extend size)) := by
  obtain ⟨hrest, -, -, hbody, hthr⟩ :=
    bddGbcRehash_spec (D := D) (s := s.extend size) hsize (extend_hash s size)
  apply freeListOk_of_freeList
  rw [hrest.nodesize]
  exact hthr.free.congr fun n _ _ => by
    rw [BddState.live_congr (BddNode.key_of_body (hbody n))]

theorem bucket_lt (hsize : 2 ≤ s.bddnodesize) (n : ℕ) : s.bucket D n < s.bddnodesize := by
  unfold BddState.bucket
  dsimp only
  split_ifs <;> exact nodehash_lt (by omega) _ _ _

/-- What a rebuild without growth makes of the links. -/
theorem rebuild_links (hsize : 2 ≤ s.bddnodesize) :
    (∀ n, ((bddGbcRehash D (s.extend s.bddnodesize)).bddnodes n).body = (s.bddnodes n).body) ∧
      (bddGbcRehash D (s.extend s.bddnodesize)).bddnodesize = s.bddnodesize ∧
      Ascending 2 s.bddnodesize s.live (s.bucket D)
        (bddGbcRehash D (s.extend s.bddnodesize)).links ∧
      (∀ n, ¬ (2 ≤ n ∧ n < s.bddnodesize) →
        (bddGbcRehash D (s.extend s.bddnodesize)).links.next n = s.links.next n) ∧
      ∀ b, s.bddnodesize ≤ b →
        (bddGbcRehash D (s.extend s.bddnodesize)).links.head b = s.links.head b := by
  have hextend : ∀ n, ((s.extend s.bddnodesize).bddnodes n).body = (s.bddnodes n).body ∧
      (s.extend s.bddnodesize).links.next n = s.links.next n ∧
      (s.bddnodesize ≤ n → (s.extend s.bddnodesize).links.head n = s.links.head n) := by
    intro n
    unfold BddState.links BddState.extend
    dsimp only
    split
    · rename_i hlt
      exact ⟨rfl, rfl, fun hle => absurd hlt (not_lt.mpr hle)⟩
    · exact ⟨rfl, rfl, fun _ => rfl⟩
  have hkey : ∀ n, (s.extend s.bddnodesize).key n = s.key n := fun n =>
    BddNode.key_of_body (hextend n).1
  have hlive : (s.extend s.bddnodesize).live = s.live :=
    funext fun n => BddState.live_congr (hkey n)
  have hbucket : (s.extend s.bddnodesize).bucket D = s.bucket D :=
    funext fun n => BddState.bucket_congr (hkey n) rfl fun _ _ => rfl
  obtain ⟨hrest, -, -, hbody, hlinks⟩ := bddGbcRehash_links (D := D)
    (s := s.extend s.bddnodesize) (J := fun n L => Ascending n s.bddnodesize s.live (s.bucket D) L ∧
      (∀ m, ¬ (2 ≤ m ∧ m < s.bddnodesize) → L.next m = s.links.next m) ∧
      ∀ b, s.bddnodesize ≤ b → L.head b = s.links.head b) hsize
    ⟨.start (fun b hb => extend_hash s s.bddnodesize b hb) rfl rfl, fun m _ => (hextend m).2.1,
      fun b hb => (hextend b).2.2 hb⟩ fun n L hn hns h => by
    obtain ⟨hasc, hnext, hhead⟩ := h
    rw [hlive, hbucket]
    refine ⟨hasc.rebuildStep (by omega) hns, fun m hm => ?_, fun b hb => ?_⟩
    · have hne : m ≠ n := by
        rintro rfl
        exact hm ⟨hn, hns⟩
      unfold Links.rebuildStep
      split
      · exact (Function.update_of_ne hne _ _).trans (hnext m hm)
      · exact (Function.update_of_ne hne _ _).trans (hnext m hm)
    · unfold Links.rebuildStep
      split
      · have hne : b ≠ s.bucket D n := (Nat.lt_of_lt_of_le (bucket_lt hsize n) hb).ne'
        exact (Function.update_of_ne hne _ _).trans (hhead b hb)
      · exact hhead b hb
  exact ⟨fun n => (hbody n).trans (hextend n).1, hrest.nodesize, hlinks⟩

/-- A rebuild without growth changes nothing but the order of the lists. -/
theorem rebuild_same (hsize : 2 ≤ s.bddnodesize) :
    TableSame s (bddGbcRehash D (s.extend s.bddnodesize)) ↔ Rebuilt D s := by
  obtain ⟨hsame, hnodesize, hasc, hnext, hhead⟩ := rebuild_links (D := D) hsize
  unfold Rebuilt
  generalize bddGbcRehash D (s.extend s.bddnodesize) = u at hsame hnodesize hasc hnext hhead ⊢
  constructor
  · intro h
    have hlinks : u.links = s.links := by
      unfold BddState.links
      rw [h.nodes, h.freepos, h.freenum]
    exact hlinks ▸ hasc
  · intro h
    have hlinks : u.links = s.links :=
      h.unique hasc (fun n _ => bucket_lt hsize n) hnext hhead
    refine ⟨funext fun n => ?_, hnodesize, congrArg Links.free hlinks,
      congrArg Links.freenum hlinks⟩
    have hhash : (u.bddnodes n).hash = (s.bddnodes n).hash := congrFun (congrArg Links.head hlinks) n
    have hchain : (u.bddnodes n).next = (s.bddnodes n).next := congrFun (congrArg Links.next hlinks) n
    have hb := hsame n
    cases hu : u.bddnodes n
    cases hsn : s.bddnodes n
    rw [hu, hsn] at hb hhash hchain
    simp only [BddNode.body, BddNode.mk.injEq] at hb hhash hchain ⊢
    simp [hb, hhash, hchain]

end

/-! ## When a growth is safe -/

/-- A table that gets no new slot loses its free list if it is not rebuilt. -/
theorem not_freeListOk_appendSlots (hs : 2 < s.bddnodesize) :
    ¬ FreeListOk (s.appendSlots false s.bddnodesize) := by
  rintro ⟨l, hc, -, hm⟩
  have hpos : (s.appendSlots false s.bddnodesize).bddfreepos = s.bddnodesize := rfl
  rw [hpos] at hc
  cases l with
  | nil =>
    have h0 : s.bddnodesize = 0 := hc
    omega
  | cons a l =>
    obtain ⟨ha, -, -⟩ := hc
    have hlt : a < s.bddnodesize := (hm a List.mem_cons_self).1
    omega

/-- If the reallocation fails, the new size is recorded all the same. -/
theorem resizeSafe_failed (hfree : FreeListOk s) (hle : s.bddnodesize ≤ resizeTarget isPrime s)
    (hgrow : CanGrow isPrime s ↔ s.bddnodesize < resizeTarget isPrime s) (doRehash : Bool) :
    ResizeSafe isPrime s false doRehash
        ⟨-1, s.bddnodesize, { s.error .memory with bddnodesize := resizeTarget isPrime s }⟩ ↔
      ¬ CanGrow isPrime s := by
  rw [hgrow, Nat.not_lt]
  constructor
  · intro h
    exact Nat.le_of_eq h.allocated
  · intro hge
    have hsize : resizeTarget isPrime s = s.bddnodesize := Nat.le_antisymm hge hle
    refine ⟨hsize, ?_, fun _ _ _ => ⟨rfl, rfl⟩, fun _ => ⟨rfl, hsize, rfl, rfl⟩⟩
    rw [hsize]
    exact hfree

/-- Without a rebuild there must be a new slot. -/
theorem resizeSafe_append (hs : 2 < s.bddnodesize)
    (hfree : FreeList 2 s.bddnodesize (s.live · = true) s.links)
    (hle : s.bddnodesize ≤ resizeTarget isPrime s)
    (hgrow : CanGrow isPrime s ↔ s.bddnodesize < resizeTarget isPrime s) :
    ResizeSafe isPrime s true false ⟨0, resizeTarget isPrime s,
        { s.appendSlots false (resizeTarget isPrime s) with bddresized := true }⟩ ↔
      CanGrow isPrime s := by
  constructor
  · intro h
    rw [hgrow]
    by_contra hno
    have hsize : resizeTarget isPrime s = s.bddnodesize := Nat.le_antisymm (Nat.not_lt.mp hno) hle
    have hok := h.free
    rw [hsize] at hok
    exact not_freeListOk_appendSlots hs hok
  · intro hcan
    have hlt := hgrow.mp hcan
    refine ⟨rfl, ?_, fun _ n hn => ?_, ?_⟩
    · exact freeListOk_of_freeList (s := s.appendSlots false (resizeTarget isPrime s))
        (appendSlots_freeList hfree hs hlt)
    · show ((s.appendSlots false (resizeTarget isPrime s)).bddnodes n).hash = _ ∧
        ((s.appendSlots false (resizeTarget isPrime s)).bddnodes n).next = _
      rw [appendSlots_old hn hlt]
      exact ⟨rfl, rfl⟩
    · rintro (h | h)
      · exact absurd hcan h
      · exact absurd h Bool.false_ne_true.symm

/-- With a rebuild there must be a new slot, or the lists are as the rebuild makes them. -/
theorem resizeSafe_rehash (hs : 2 < s.bddnodesize) (hle : s.bddnodesize ≤ resizeTarget isPrime s)
    (hgrow : CanGrow isPrime s ↔ s.bddnodesize < resizeTarget isPrime s) :
    ResizeSafe isPrime s true true ⟨0, resizeTarget isPrime s,
        { bddGbcRehash D (s.appendSlots true (resizeTarget isPrime s)) with bddresized := true }⟩ ↔
      (¬ CanGrow isPrime s → Rebuilt D s) := by
  have h2 : 2 < resizeTarget isPrime s := Nat.lt_of_lt_of_le hs hle
  rw [bddGbcRehash_appendSlots h2]
  have hfree := extend_freeListOk (D := D) (s := s) h2.le
  have hsize : (bddGbcRehash D (s.extend (resizeTarget isPrime s))).bddnodesize =
      resizeTarget isPrime s :=
    (bddGbcRehash_spec (D := D) (s := s.extend (resizeTarget isPrime s)) h2.le
      (extend_hash s _)).1.nodesize
  have hstuck : ¬ CanGrow isPrime s → resizeTarget isPrime s = s.bddnodesize := fun hno =>
    Nat.le_antisymm (Nat.not_lt.mp fun hlt => hno (hgrow.mpr hlt)) hle
  constructor
  · intro h hno
    have hsame := h.failed (Or.inl hno)
    rw [hstuck hno] at hsame
    exact (rebuild_same hs.le).mp ⟨hsame.nodes, hsame.nodesize, hsame.freepos, hsame.freenum⟩
  · intro h
    refine ⟨hsize, hfree, fun hfalse => absurd hfalse.symm Bool.false_ne_true, ?_⟩
    rintro (hno | hfalse)
    · have hsame := (rebuild_same (D := D) hs.le).mpr (h hno)
      rw [hstuck hno]
      exact ⟨hsame.nodes, hsame.nodesize, hsame.freepos, hsame.freenum⟩
    · exact absurd hfalse.symm Bool.false_ne_true

/-- A growth is safe if and only if the table is at its limit, or all sizes fit into an `int` and
the reallocation succeeds where there is room and fails where there is none, but for a rebuild of
lists that are as a rebuild makes them. -/
theorem bddNoderesize_safe_iff (hs : GoodSize isPrime s.bddnodesize)
    (hfree : FreeList 2 s.bddnodesize (s.live · = true) s.links) (reallocOk doRehash : Bool) :
    (∃ r, bddNoderesizeWith D isPrime reallocOk doRehash s = some r ∧
      ResizeSafe isPrime s reallocOk doRehash r) ↔
        ResizeFits D isPrime s reallocOk doRehash := by
  have hfreeOk := freeListOk_of_freeList hfree
  unfold bddNoderesizeWith ResizeFits
  by_cases hlimit : s.AtLimit
  · rw [if_pos hlimit]
    exact ⟨fun _ => Or.inl hlimit,
      fun _ => ⟨_, rfl, rfl, hfreeOk, fun _ _ _ => ⟨rfl, rfl⟩, fun _ => ⟨rfl, rfl, rfl, rfl⟩⟩⟩
  rw [if_neg hlimit]
  by_cases hfit : s.SizesFit
  swap
  · rw [if_pos hfit]
    constructor
    · rintro ⟨r, hr, -⟩
      exact absurd hr.symm (Option.some_ne_none r)
    · rintro (h | ⟨h, -⟩)
      · exact absurd h hlimit
      · exact absurd h hfit
  rw [if_neg (not_not_intro hfit)]
  have hgrow := canGrow_iff hs hlimit
  obtain ⟨hle, -⟩ := resizeTarget_spec ⟨hs.1.le, hs.2⟩ hlimit
  have hone : ∀ (r : Resized P) (Q : Prop), (ResizeSafe isPrime s reallocOk doRehash r ↔ Q) →
      ((∃ r', some r = some r' ∧ ResizeSafe isPrime s reallocOk doRehash r') ↔ Q) := by
    intro r Q h
    rw [← h]
    constructor
    · rintro ⟨r', hr, hsafe⟩
      rwa [Option.some.inj hr]
    · exact fun hsafe => ⟨r, rfl, hsafe⟩
  dsimp only
  cases reallocOk with
  | false =>
    rw [if_neg Bool.false_ne_true, hone _ _ (resizeSafe_failed hfreeOk hle hgrow doRehash)]
    simp [hlimit, hfit]
  | true =>
    rw [if_pos rfl]
    cases doRehash with
    | false =>
      rw [if_neg Bool.false_ne_true, hone _ _ (resizeSafe_append hs.1 hfree hle hgrow)]
      simp [hlimit, hfit]
    | true =>
      rw [if_pos rfl, hone _ _ (resizeSafe_rehash hs.1 hle hgrow)]
      simp only [hlimit, hfit]
      by_cases hcan : CanGrow isPrime s
      · simp [hcan]
      · simp [hcan]

/-- The table after `bdd_init`, with increments of one node. -/
def smallSteps : BddState UInt32 := bddSetmaxincrease (bddInit 7 3) 1

theorem smallSteps_freeList :
    FreeList 2 smallSteps.bddnodesize (smallSteps.live · = true) smallSteps.links := by
  have hsize : GoodSize trialDivision 7 := ⟨by decide, by decide, by decide⟩
  have hinv : TableInv intDomain trialDivision [] (bddInit 7 3) := bddInit_tableInv hsize 3
  exact hinv.threaded.free

theorem bddNoderesize_safe_iff_smallSteps :
    (∃ r, bddNoderesizeWith intDomain trialDivision true false smallSteps = some r ∧
      ResizeSafe trialDivision smallSteps true false r) ↔
        ResizeFits intDomain trialDivision smallSteps true false :=
  bddNoderesize_safe_iff ⟨by decide, by decide, by decide⟩ smallSteps_freeList true false

/-- There is no prime between `7` and `8`, so reordering would take a node outside the table. -/
theorem smallSteps_unsafe :
    ¬ ∃ r, bddNoderesizeWith intDomain trialDivision true false smallSteps = some r ∧
      ResizeSafe trialDivision smallSteps true false r := by
  rintro ⟨r, hr, hsafe⟩
  have htarget : resizeTarget trialDivision smallSteps = smallSteps.bddnodesize := by
    decide
  have hlimit : ¬ smallSteps.AtLimit := by decide
  have hfit : smallSteps.SizesFit := by decide
  unfold bddNoderesizeWith at hr
  rw [if_neg hlimit, if_neg (not_not_intro hfit)] at hr
  dsimp only at hr
  rw [if_pos rfl, if_neg Bool.false_ne_true, htarget] at hr
  have hfree := hsafe.free
  rw [← Option.some.inj hr] at hfree
  exact not_freeListOk_appendSlots (s := smallSteps) (by decide) hfree

end MoToBuddy.Bdd
