import MoToBuddy.Bdd.Varset
import MoToBuddy.Tree.Addrange

/-!
# Variable blocks (`reorder.c`)

`bdd_addvarblock` and `bdd_intaddvarblock` on the forest of blocks. Reordering exchanges siblings,
so that a forest in use is nested and linked but not always sorted by variable.
-/

namespace MoToBuddy.Tree

open Bdd (BddEnv BddState errorCode)

variable {P : Type*}

/-- The globals of the blocks. The structs have the addresses below `heap`. -/
structure VarBlocks where
  vartree : BddTree
  blockid : ℤ
  heap : ℕ
  deriving DecidableEq, Repr

/-- `bdd_clrvarblocks`, at the start. -/
def VarBlocks.init : VarBlocks := { vartree := .null, blockid := 0, heap := 0 }

def blockIsAdjacent (var2level : ℕ → ℕ) (first last : ℤ) : Bool :=
  let level (n : ℤ) : ℤ := var2level n.toNat
  let (minlevel, maxlevel) := (vars (first + 1) last).foldl
    (fun (minlevel, maxlevel) n =>
      (if level n < minlevel then level n else minlevel,
        if level n > maxlevel then level n else maxlevel))
    (level first, level first)
  maxlevel - minlevel = last - first

/-- What both functions do with a range: the identifier of the block or an error code. -/
def addBlock (env : BddEnv) (v : VarBlocks) (first last fixed : ℤ) : ℤ × VarBlocks :=
  if !blockIsAdjacent env.bddvar2level first last then (errorCode .varblk, v)
  else match addrange env.bddvar2level v.heap first last fixed v.blockid v.vartree with
    | .null => (errorCode .varblk, v)
    | t => (v.blockid, { vartree := t, blockid := v.blockid + 1, heap := v.heap + 1 })

def bddIntaddvarblock (env : BddEnv) (v : VarBlocks) (first last fixed : ℤ) : ℤ × VarBlocks :=
  if first < 0 ∨ first ≥ env.bddvarnum ∨ last < 0 ∨ last ≥ env.bddvarnum then (errorCode .var, v)
  else addBlock env v first last fixed

/-- The least and the greatest of the variables. -/
def scanRange (w : ℕ) (v : List ℕ) : ℤ × ℤ :=
  (w :: v).foldl (fun (first, last) n =>
    (if n < first then n else first, if n > last then n else last)) ((w : ℤ), (w : ℤ))

def bddAddvarblock (s : BddState P) (v : VarBlocks) (b : ℕ) (fixed : ℤ) : Option (ℤ × VarBlocks) :=
  (Bdd.bddScanset b s).map fun ((n, vs), _) =>
    if n < 0 then (n, v)
    else match vs with
      | [] => (errorCode .varblk, v)
      | w :: vs => addBlock s.env v (scanRange w vs).1 (scanRange w vs).2 fixed

/-! ## Block forests -/

/-- The ranges of the blocks. -/
def ranges (t : BddTree) : List (ℤ × ℤ) := (blocks t).map fun b => (b.first, b.last)

/-- A forest of blocks, with the siblings in any order. -/
structure VarBlocks.Forest (env : BddEnv) (v : VarBlocks) : Prop where
  nested : Nested 0 (env.bddvarnum - 1) v.vartree
  linked : Linked none v.vartree
  distinct : (ranges v.vartree).Nodup
  addrs : ((blocks v.vartree).map Block.addr).Nodup
  heap : ∀ b ∈ blocks v.vartree, b.addr < v.heap

/-- The range passes the checks on variables and levels. -/
structure Accepted (env : BddEnv) (first last : ℤ) : Prop where
  nonneg : 0 ≤ first
  le : first ≤ last
  lt : last < env.bddvarnum
  adjacent : blockIsAdjacent env.bddvar2level first last = true

/-- The range overlaps a block in part. -/
def CrossesSome (v : VarBlocks) (first last : ℤ) : Prop :=
  ∃ b ∈ blocks v.vartree, Crosses first last b

/-- The blocks are there with all but their left siblings as before, the new one is there once,
and the forest is sorted. -/
structure Inserted (env : BddEnv) (v v' : VarBlocks) (first last : ℤ) : Prop where
  kept : ∀ b ∈ blocks v.vartree, ∃ b' ∈ blocks v'.vartree, b'.unlink = b.unlink
  once : (ranges v'.vartree).count (first, last) = 1
  sorted : Sorted v'.vartree
  forest : v'.Forest env

/-- The call fails and changes nothing, or it inserts the block. -/
def Atomic (env : BddEnv) (v : VarBlocks) (first last : ℤ) (call : ℤ × VarBlocks) : Prop :=
  (CrossesSome v first last → call = (errorCode .varblk, v)) ∧
    (¬ CrossesSome v first last → call.1 = v.blockid ∧ Inserted env v call.2 first last)

/-- A range that overlaps a block in part is rejected at the first root, and otherwise the
siblings are sorted. -/
def Seen (v : VarBlocks) (first last : ℤ) : Prop :=
  (CrossesSome v first last → Rejects first last v.vartree) ∧
    (¬ CrossesSome v first last → Sorted v.vartree)

section

variable {env : BddEnv} {v : VarBlocks} {first last : ℤ}

theorem addBlock_null {fixed : ℤ} (ha : Accepted env first last)
    (h : addrange env.bddvar2level v.heap first last fixed v.blockid v.vartree = .null) :
    addBlock env v first last fixed = (errorCode .varblk, v) := by
  simp [addBlock, ha.adjacent, h]

theorem addBlock_ne_null {fixed : ℤ} {t : BddTree} (ha : Accepted env first last)
    (h : addrange env.bddvar2level v.heap first last fixed v.blockid v.vartree = t)
    (ht : t ≠ .null) : addBlock env v first last fixed =
      (v.blockid, { vartree := t, blockid := v.blockid + 1, heap := v.heap + 1 }) := by
  cases t with
  | null => exact absurd rfl ht
  | node b nextlevel next => simp [addBlock, ha.adjacent, h]

theorem ranges_eq (t : BddTree) : ranges t = (keys t).map fun b => (b.first, b.last) := by
  rw [ranges, keys, List.map_map]
  rfl

theorem mem_ranges {t : BddTree} :
    (first, last) ∈ ranges t ↔ ∃ b ∈ blocks t, b.Is first last := by
  simp [ranges, Block.Is]

theorem addrs_eq (t : BddTree) : (blocks t).map Block.addr = (keys t).map Block.addr := by
  rw [keys, List.map_map]
  rfl

/-- Into a sorted forest a range that crosses no block is inserted. -/
theorem addBlock_inserted (hf : v.Forest env) (ha : Accepted env first last) (fixed : ℤ)
    (hs : Sorted v.vartree) (hc : ∀ b ∈ blocks v.vartree, ¬ Crosses first last b) :
    (addBlock env v first last fixed).1 = v.blockid ∧
      Inserted env v (addBlock env v first last fixed).2 first last := by
  have hle := ha.le
  have hlt := ha.lt
  have hplaced := hf.nested.placed hs
  have hins := addrangeRec_insert env.bddvar2level v.heap first last fixed v.blockid ha.nonneg hle
    v.vartree none
  set t := addrangeRec env.bddvar2level v.heap first last fixed v.blockid v.vartree none with ht
  have hcall := addBlock_ne_null ha ht.symm
    (mt (hins.eq_null_iff hf.nested).mp (not_rejects hf.nested hc))
  have hplaced' := hins.placed hle hplaced ha.nonneg (by omega)
  have hlinked' := hins.linked hf.linked
  rw [hcall]
  refine ⟨rfl, ?_⟩
  rcases hins.added hle hplaced hc with ⟨hsame, hmem⟩ | ⟨hnew, hperm⟩
  · -- the block is there already
    rw [hsame]
    refine ⟨fun b hb => ⟨b, hb, rfl⟩, ?_, hs, hf.nested, hf.linked, hf.distinct, hf.addrs,
      fun b hb => (hf.heap b hb).trans (Nat.lt_succ_self _)⟩
    exact List.count_eq_one_of_mem hf.distinct (mem_ranges.mpr hmem)
  · have hranges : (ranges t).Perm ((first, last) :: ranges v.vartree) := by
      rw [ranges_eq, ranges_eq]
      exact hperm.map _
    have haddrs : ((blocks t).map Block.addr).Perm
        (v.heap :: (blocks v.vartree).map Block.addr) := by
      rw [addrs_eq, addrs_eq]
      exact hperm.map _
    have hfresh : (first, last) ∉ ranges v.vartree := fun h => by
      obtain ⟨b, hb, his⟩ := mem_ranges.mp h
      exact hnew b hb his
    have hheap : ∀ a ∈ (blocks v.vartree).map Block.addr, a < v.heap := fun a h => by
      obtain ⟨b, hb, rfl⟩ := List.mem_map.mp h
      exact hf.heap b hb
    refine ⟨fun b hb => ?_, ?_, hplaced'.sorted, hplaced'.nested, hlinked', ?_, ?_, fun b hb => ?_⟩
    · have hkey : b.unlink ∈ keys t :=
        hperm.symm.subset (List.mem_cons_of_mem _ (List.mem_map_of_mem hb))
      exact List.mem_map.mp hkey
    · show (ranges t).count (first, last) = 1
      rw [hranges.count_eq, List.count_cons_self, List.count_eq_zero_of_not_mem hfresh]
    · exact hranges.nodup_iff.mpr (List.nodup_cons.mpr ⟨hfresh, hf.distinct⟩)
    · exact haddrs.nodup_iff.mpr
        (List.nodup_cons.mpr ⟨fun h => lt_irrefl _ (hheap _ h), hf.addrs⟩)
    · have hmem : b.addr ∈ v.heap :: (blocks v.vartree).map Block.addr :=
        haddrs.subset (List.mem_map_of_mem hb)
      show b.addr < v.heap + 1
      rcases List.mem_cons.mp hmem with h | h
      · omega
      · have := hheap _ h
        omega

/-- A forest stays one, and sorted, if blocks are lost. -/
theorem VarBlocks.Forest.sublist {t : BddTree} (hf : v.Forest env)
    (hsub : (keys t).Sublist (keys v.vartree)) (ht : Placed 0 (env.bddvarnum - 1) t)
    (hlinked : Linked none t) (blockid : ℤ) :
    VarBlocks.Forest env { vartree := t, blockid, heap := v.heap + 1 } := by
  refine ⟨ht.nested, hlinked, ?_, ?_, fun b hb => ?_⟩
  · have hranges := hsub.map fun b => (b.first, b.last)
    rw [← ranges_eq, ← ranges_eq] at hranges
    exact hranges.nodup hf.distinct
  · have haddrs := hsub.map Block.addr
    rw [← addrs_eq, ← addrs_eq] at haddrs
    exact haddrs.nodup hf.addrs
  · have hmem : b.addr ∈ (keys v.vartree).map Block.addr := by
      refine (hsub.map Block.addr).subset ?_
      rw [← addrs_eq]
      exact List.mem_map_of_mem hb
    rw [← addrs_eq] at hmem
    obtain ⟨b', hb', haddr⟩ := List.mem_map.mp hmem
    have := hf.heap b' hb'
    show b.addr < v.heap + 1
    omega

/-- A call keeps a sorted forest one, whatever it returns. -/
theorem addBlock_forest (hf : v.Forest env) (hs : Sorted v.vartree) (ha : Accepted env first last)
    (fixed : ℤ) : (addBlock env v first last fixed).2.Forest env ∧
      Sorted (addBlock env v first last fixed).2.vartree := by
  have hle := ha.le
  have hlt := ha.lt
  by_cases hc : CrossesSome v first last
  · have hplaced := hf.nested.placed hs
    have hins := addrangeRec_insert env.bddvar2level v.heap first last fixed v.blockid ha.nonneg
      hle v.vartree none
    set t := addrangeRec env.bddvar2level v.heap first last fixed v.blockid v.vartree none with ht
    have hplaced' := hins.placed hle hplaced ha.nonneg (by omega)
    by_cases hnull : t = .null
    · rw [addBlock_null ha (ht.symm.trans hnull)]
      exact ⟨hf, hs⟩
    · rw [addBlock_ne_null ha ht.symm hnull]
      exact ⟨hf.sublist (hins.crossing hle hplaced hc) hplaced' (hins.linked hf.linked) _,
        hplaced'.sorted⟩
  · have h := (addBlock_inserted hf ha fixed hs fun b hb hcross => hc ⟨b, hb, hcross⟩).2
    exact ⟨h.forest, h.sorted⟩

/-- The forests that calls build, before any reordering. -/
inductive Built (env : BddEnv) : VarBlocks → Prop
  | init : Built env .init
  | call {v : VarBlocks} (first last fixed : ℤ) (h : Built env v) :
    Built env (bddIntaddvarblock env v first last fixed).2

/-- `block_is_adjacent` rejects an empty range. -/
theorem le_of_adjacent {var2level : ℕ → ℕ} (h : blockIsAdjacent var2level first last = true) :
    first ≤ last := by
  by_contra hlt
  have hempty : vars (first + 1) last = [] := by
    simp only [vars, List.map_eq_nil_iff, List.range_eq_nil]
    omega
  simp [blockIsAdjacent, hempty] at h
  omega

/-- Along every sequence of calls the forest is nested, linked and sorted. -/
theorem Built.forest (h : Built env v) : v.Forest env ∧ Sorted v.vartree := by
  induction h with
  | init =>
    exact ⟨⟨trivial, trivial, List.nodup_nil, List.nodup_nil, fun b hb => nomatch hb⟩, trivial⟩
  | @call v first last fixed _ ih =>
    by_cases hvars : first < 0 ∨ first ≥ env.bddvarnum ∨ last < 0 ∨ last ≥ env.bddvarnum
    · rw [bddIntaddvarblock, if_pos hvars]
      exact ih
    · rw [bddIntaddvarblock, if_neg hvars]
      by_cases hadj : blockIsAdjacent env.bddvar2level first last = true
      · exact addBlock_forest ih.1 ih.2 ⟨by omega, le_of_adjacent hadj, by omega, hadj⟩ fixed
      · simpa [addBlock, hadj] using ih

theorem addBlock_atomic_iff (hf : v.Forest env) (ha : Accepted env first last) (fixed : ℤ) :
    Atomic env v first last (addBlock env v first last fixed) ↔ Seen v first last := by
  have hins := addrangeRec_insert env.bddvar2level v.heap first last fixed v.blockid ha.nonneg ha.le
    v.vartree none
  set t := addrangeRec env.bddvar2level v.heap first last fixed v.blockid v.vartree none with ht
  have hnull := hins.eq_null_iff hf.nested
  by_cases hc : CrossesSome v first last
  · simp only [Atomic, Seen, hc, forall_const, not_true_eq_false, false_implies, and_true]
    rw [← hnull]
    constructor
    · intro h
      by_contra hne
      have hid := congrArg VarBlocks.blockid (congrArg Prod.snd h)
      rw [addBlock_ne_null ha ht.symm hne] at hid
      simp at hid
    · intro h
      exact addBlock_null ha (ht.symm.trans h)
  · have hc' : ∀ b ∈ blocks v.vartree, ¬ Crosses first last b := fun b hb h => hc ⟨b, hb, h⟩
    simp only [Atomic, Seen, hc, false_implies, not_false_eq_true, forall_const, true_and]
    constructor
    · intro ⟨_, h⟩
      have hsorted := h.sorted
      rw [addBlock_ne_null ha ht.symm (mt hnull.mp (not_rejects hf.nested hc'))] at hsorted
      exact hins.sorted ha.le hf.nested hc' hsorted
    · exact fun hs => addBlock_inserted hf ha fixed hs hc'

/-- Blocks are inserted atomically if and only if a partial overlap is met at the first root and,
where there is none, the siblings are sorted by variable. -/
theorem varblock_atomic_iff {s : BddState P} (hf : v.Forest s.env) (ha : Accepted s.env first last)
    (fixed : ℤ) :
    (Atomic s.env v first last (bddIntaddvarblock s.env v first last fixed) ↔ Seen v first last) ∧
      ∀ b w vs s', Bdd.bddScanset b s = some ((0, w :: vs), s') → scanRange w vs = (first, last) →
        ∃ call, bddAddvarblock s v b fixed = some call ∧
          (Atomic s.env v first last call ↔ Seen v first last) := by
  have hadd := addBlock_atomic_iff hf ha fixed
  have hvars : ¬ (first < 0 ∨ first ≥ s.env.bddvarnum ∨ last < 0 ∨ last ≥ s.env.bddvarnum) := by
    have := ha.nonneg
    have := ha.le
    have := ha.lt
    omega
  constructor
  · rwa [bddIntaddvarblock, if_neg hvars]
  · intro b w vs s' hscan hrange
    exact ⟨addBlock s.env v first last fixed, by simp [bddAddvarblock, hscan, hrange], hadd⟩

end

/-! ## Fixed inputs -/

/-- Variables in the order of their numbers. -/
def orderedVars (bddvarnum : ℕ) : BddEnv :=
  { Bdd.twoVariables.env with
    bddvarnum
    bddvar2level := id }

def sixVariables : BddState UInt32 :=
  Bdd.bddSetvarnum Bdd.intDomain trialDivision (Bdd.bddInit 31 3) 6

/-- The set of variables `2` and `4`. -/
def varset : ℕ × BddState UInt32 :=
  (Bdd.bddMakeset Bdd.intDomain trialDivision [4, 2] sixVariables).getD (0, sixVariables)

/-- The block of the variables `0` to `3` with that of `1` and `2` in it. -/
def nestedBlocks : VarBlocks :=
  (bddIntaddvarblock varset.2.env (bddIntaddvarblock varset.2.env .init 0 3 0).2 1 2 0).2

/-- The range of the set crosses both blocks, variable `3` is in the outer one. -/
theorem nestedBlocks_atomic :
    CrossesSome nestedBlocks 2 4 ∧
      Atomic varset.2.env nestedBlocks 2 4 (bddIntaddvarblock varset.2.env nestedBlocks 2 4 0) ∧
      (∃ call, bddAddvarblock varset.2 nestedBlocks varset.1 0 = some call ∧
        Atomic varset.2.env nestedBlocks 2 4 call) ∧
      ¬ CrossesSome nestedBlocks 3 3 ∧
      Atomic varset.2.env nestedBlocks 3 3 (bddIntaddvarblock varset.2.env nestedBlocks 3 3 0) := by
  have hinit : Built varset.2.env .init := .init
  have hforest := (Built.call 1 2 0 (Built.call 0 3 0 hinit)).forest
  have hcross : CrossesSome nestedBlocks 2 4 := by
    unfold CrossesSome Crosses
    decide +kernel
  have hnot : ¬ CrossesSome nestedBlocks 3 3 := by
    unfold CrossesSome Crosses
    decide +kernel
  have hrejects : Rejects 2 4 nestedBlocks.vartree := by decide +kernel
  have hscan : (Bdd.bddScanset varset.1 varset.2).map Prod.fst = some (0, [2, 4]) := by
    decide +kernel
  obtain ⟨⟨out, s'⟩, hscan, hout⟩ := Option.map_eq_some_iff.mp hscan
  obtain rfl : out = (0, [2, 4]) := hout
  have hset : Accepted varset.2.env 2 4 :=
    ⟨by decide, by decide, by decide +kernel, by decide +kernel⟩
  have hvar : Accepted varset.2.env 3 3 :=
    ⟨by decide, by decide, by decide +kernel, by decide +kernel⟩
  obtain ⟨hint, hadd⟩ := varblock_atomic_iff hforest.1 hset 0
  have hseen : Seen nestedBlocks 2 4 := ⟨fun _ => hrejects, fun h => absurd hcross h⟩
  obtain ⟨call, hcall, hatomic⟩ := hadd varset.1 2 [4] s' hscan (by decide)
  have hinside := (varblock_atomic_iff hforest.1 hvar 0).1
  exact ⟨hcross, hint.mpr hseen, ⟨call, hcall, hatomic.mpr hseen⟩, hnot,
    hinside.mpr ⟨fun h => absurd h hnot, fun _ => hforest.2⟩⟩

/-- The blocks of variable `0` and of variables `2` and `3`. -/
def twoBlocks : VarBlocks :=
  (bddIntaddvarblock (orderedVars 4)
    (bddIntaddvarblock (orderedVars 4) .init 0 0 0).2 2 3 0).2

/-- The range of variables `1` and `2` crosses the second block. It is lost, and the call
returns an identifier. -/
theorem twoBlocks_notAtomic :
    ¬ ∀ (env : BddEnv) (v : VarBlocks) (first last fixed : ℤ), v.Forest env →
      Accepted env first last →
      Atomic env v first last (bddIntaddvarblock env v first last fixed) := by
  intro h
  have hforest : twoBlocks.Forest (orderedVars 4) :=
    (Built.call 2 3 0 (Built.call 0 0 0 .init)).forest.1
  have hcross : CrossesSome twoBlocks 1 2 := by
    refine ⟨(blocks twoBlocks.vartree).getD 1 (newBlock id 0 0 0 0 0 none), by decide, ?_⟩
    simp only [Crosses]
    decide
  have hcall := (h (orderedVars 4) twoBlocks 1 2 0 hforest
    ⟨by decide, by decide, by decide, by decide⟩).1 hcross
  revert hcall
  decide

end MoToBuddy.Tree
