import MoToBuddy.Bdd.Kernel
import MoToBuddy.Lib.Mark

/-!
# The node table: invariant, collection and growth

`TableInv` is the invariant of the node table and of the value store. `Held` nodes are those
reachable from a referenced node or from the reference stack; `bddGbc` frees exactly the other
ones and gives their value slots back (`bddGbc_spec`), and `bddNoderesize` frees none
(`bddNoderesize_spec`).
-/

namespace MoToBuddy.Bdd

open CountedLoop Chained Marking Slots

variable {P : Type*}

/-! ## Views of the state -/

/-- The fields of a node that its unique key is made of. -/
structure BddKey where
  low : Option ℕ
  high : ℕ
  level : ℕ
  deriving DecidableEq, Repr

def BddNode.key (node : BddNode) : BddKey := ⟨node.low, node.high, node.level⟩

/-- The domain keeps its values in the store. -/
def MtbddDomain.stored (D : MtbddDomain P) : Bool :=
  match D.domaintype with
  | .longval | .doubleval | .custom => true
  | _ => false

namespace BddState

variable (D : MtbddDomain P) (s : BddState P)

/-- The key stored in slot `n`. -/
def key (n : ℕ) : BddKey := (s.bddnodes n).key

/-- Slot `n` holds a node other than a constant. -/
def live (n : ℕ) : Bool := 2 ≤ n && (s.key n).low.isSome

/-- The children of the node in slot `n`. -/
def succ (n : ℕ) : List ℕ :=
  match (s.key n).low with
  | none => []
  | some low => if (s.key n).level = maxlevel then [] else [low, (s.key n).high]

/-- The chains and the free list. -/
def links : Links :=
  ⟨fun n => (s.bddnodes n).hash, fun n => (s.bddnodes n).next, s.bddfreepos, s.bddfreenum⟩

/-- The value slot of the terminal in slot `n`. -/
def slot (n : ℕ) : Option ℕ :=
  if s.live n ∧ (s.key n).level = maxlevel ∧ D.stored then some (s.key n).high else none

/-- `n` is a constant or a node of the table. -/
def IsNode (n : ℕ) : Prop := n < 2 ∨ s.live n = true

/-- A node that a collection starts from. -/
def Root (r : ℕ) : Prop := 0 < (s.bddnodes r).refcou ∨ r ∈ s.bddrefstack

/-- A node that a collection must keep. -/
def Held (n : ℕ) : Prop := ∃ r, s.Root r ∧ Reach s.live s.succ r n

variable {D s} {s' : BddState P} {n : ℕ}

theorem live_iff : s.live n = true ↔ 2 ≤ n ∧ ∃ low, (s.key n).low = some low := by
  simp [live, Option.isSome_iff_exists]

theorem live_congr (h : s'.key n = s.key n) : s'.live n = s.live n := by
  rw [live, live, h]

theorem succ_congr (h : s'.key n = s.key n) : s'.succ n = s.succ n := by
  rw [succ, succ, h]

theorem slot_congr (h : s'.key n = s.key n) : s'.slot D n = s.slot D n := by
  rw [slot, slot, live_congr h, h]

theorem slot_live {i : ℕ} (h : s.slot D n = some i) :
    s.live n = true ∧ (s.key n).level = maxlevel ∧ D.stored = true ∧ (s.key n).high = i := by
  unfold slot at h
  split at h
  · rename_i hc
    exact ⟨hc.1, hc.2.1, hc.2.2, Option.some.inj h⟩
  · exact absurd h.symm (Option.some_ne_none i)

theorem slot_eq (hl : s.live n = true) (hlevel : (s.key n).level = maxlevel)
    (hD : D.stored = true) : s.slot D n = some (s.key n).high := if_pos ⟨hl, hlevel, hD⟩

/-- The value of a terminal only depends on its slot. -/
theorem getvalue_congr {T : Terminals P} {high : ℕ}
    (h : D.stored = true → T.values high = s.terminals.values high) :
    mtbddGetvalue D { s with terminals := T } high = mtbddGetvalue D s high := by
  unfold mtbddGetvalue
  cases hd : D.domaintype <;> first
    | rfl
    | exact h (by unfold MtbddDomain.stored; rw [hd])

theorem bucket_congr (h : s'.key n = s.key n) (hsize : s'.bddnodesize = s.bddnodesize)
    (hval : (s.key n).level = maxlevel → D.stored = true →
      s'.terminals.values (s.key n).high = s.terminals.values (s.key n).high) :
    s'.bucket D n = s.bucket D n := by
  have hlow : (s'.bddnodes n).low = (s.bddnodes n).low := congrArg BddKey.low h
  have hhigh : (s'.bddnodes n).high = (s.bddnodes n).high := congrArg BddKey.high h
  have hlevel : (s'.bddnodes n).level = (s.bddnodes n).level := congrArg BddKey.level h
  unfold bucket
  simp only [hlow, hhigh, hlevel, hsize]
  split
  · rename_i hc
    have hv : mtbddGetvalue D s' (s.bddnodes n).high = mtbddGetvalue D s (s.bddnodes n).high :=
      getvalue_congr (s := s) (T := s'.terminals) fun hD => hval hc.1 hD
    rw [hv]
  · rfl

theorem Held.live (h : s.Held n) : s.live n = true := by
  obtain ⟨r, -, hr⟩ := h
  exact hr.live_right

theorem Held.child (h : s.Held n) {m : ℕ} (hm : m ∈ s.succ n) (hl : s.live m = true) :
    s.Held m := by
  obtain ⟨r, hr, hrn⟩ := h
  exact ⟨r, hr, hrn.step hm hl⟩

/-- Nodes stay held if their keys and roots stay. -/
theorem Held.congr (hkey : ∀ n, s.Held n → s'.key n = s.key n)
    (hroot : ∀ r, s.Root r → s.live r = true → s'.Held r) (h : s.Held n) : s'.Held n := by
  obtain ⟨r, hr, hrn⟩ := h
  obtain ⟨r', hr', hrr⟩ := hroot r hr hrn.live_left
  refine ⟨r', hr', hrr.trans (hrn.congr fun m hm => ?_)⟩
  have hk := hkey m ⟨r, hr, hm⟩
  exact ⟨(live_congr hk).trans hm.live_right, succ_congr hk⟩

end BddState

/-! ## The invariant -/

/-- The comparison of two values of one terminal type. -/
def MtbddDomain.same (D : MtbddDomain P) (type : ℕ) (v w : P) : Bool :=
  match D.domaintype with
  | .longval | .doubleval => D.equal v w
  | .custom =>
    match D.comparefun type with
    | some comparefun => comparefun v (some w)
    | none => false
  | _ => false

/-- Two values of which a lookup for one finds the other: they compare equal, in either order, and
have the same hash. -/
def MtbddDomain.twins (D : MtbddDomain P) (type : ℕ) (v w : P) : Bool :=
  D.same type v w && D.same type w v &&
    terminalWords D type (some v) = terminalWords D type (some w)

theorem MtbddDomain.twins_iff {D : MtbddDomain P} {type : ℕ} {v w : P} :
    D.twins type v w = true ↔ D.same type v w = true ∧ D.same type w v = true ∧
      terminalWords D type (some v) = terminalWords D type (some w) := by
  unfold MtbddDomain.twins
  rw [Bool.and_eq_true, Bool.and_eq_true, decide_eq_true_eq, and_assoc]

theorem MtbddDomain.twins_symm {D : MtbddDomain P} {type : ℕ} {v w : P} :
    D.twins type v w = D.twins type w v := by
  rw [Bool.eq_iff_iff, twins_iff, twins_iff]
  exact ⟨fun h => ⟨h.2.1, h.1, h.2.2.symm⟩, fun h => ⟨h.2.1, h.1, h.2.2.symm⟩⟩

/-- Every value compares equal to itself, and casts to a word lose nothing. -/
structure MtbddDomain.Lawful (D : MtbddDomain P) : Prop where
  ofWord : ∀ a b, D.ofWord a = D.ofWord b → a = b
  refl : D.stored = true → ∀ type v,
    (D.domaintype = .custom → (D.comparefun type).isSome) → D.same type v v = true

/-- The value store, for the slots that terminals own and those that are being filled. -/
structure TermInv (slot : ℕ → Option ℕ) (flight : List ℕ) (T : Terminals P) : Prop where
  inj : ∀ n m i, slot n = some i → slot m = some i → n = m
  apart : ∀ n i, slot n = some i → i ∉ flight
  value : ∀ i, (∃ n, slot n = some i) ∨ i ∈ flight → (T.values i).isSome
  pool : T.pool.Inv fun i => (∃ n, slot n = some i) ∨ i ∈ flight
  logOk : LogOk T.log
  filled : ∀ i, (∃ n, slot n = some i) ∨ i ∈ flight → holder T.log i = T.values i
  empty : ∀ i, (¬ ∃ n, slot n = some i) → i ∉ flight → holder T.log i = none
  owned : ∀ n, owned T.log n = (slot n).bind fun i => (T.values i).map fun v => (i, v)

/-- The invariant of the node table. `flight` are the value slots that are being filled. -/
structure TableInv (D : MtbddDomain P) (isPrime : ℕ → Bool) (flight : List ℕ)
    (s : BddState P) : Prop where
  size : 2 ≤ s.bddnodesize ∧ s.bddnodesize % 2 = 1 ∧ isPrime s.bddnodesize = true
  beyond : ∀ n, s.bddnodesize ≤ n → s.live n = false
  refcou : ∀ n, 0 < (s.bddnodes n).refcou → s.IsNode n
  mark : ∀ n, (s.bddnodes n).mark = false
  level : ∀ n, (s.key n).level < 2 ^ 21
  free : ∀ n, 2 ≤ n → s.live n = false → (s.key n).level ≠ maxlevel
  threaded : Threaded 2 s.bddnodesize (s.live · = true) (s.bucket D) s.links
  unique : ∀ n m, s.live n = true → s.live m = true →
    (s.key n).level ≠ maxlevel ∨ D.domaintype.notShort = false → s.key n = s.key m → n = m
  term : TermInv (s.slot D) flight s.terminals
  word : D.domaintype.notShort = false → ∀ n, s.live n = true → (s.key n).level = maxlevel →
    (s.key n).low = some 42 ∧ (s.key n).high < 2 ^ 32
  type : D.domaintype = .custom → ∀ n, s.live n = true → (s.key n).level = maxlevel →
    ∃ type < D.typeNumber, (s.key n).low = some type ∧ (D.comparefun type).isSome
  termUnique : ∀ n m i j v w, s.slot D n = some i → s.slot D m = some j →
    (s.key n).low = (s.key m).low → s.terminals.values i = some v →
    s.terminals.values j = some w → D.twins ((s.key n).low.getD 0) v w = true → n = m
  caches : ∀ k, (s.caches k).Inv

/-- Everything but the slots, the free list, the value store and the caches is as it was. -/
structure SameRest (s s' : BddState P) : Prop where
  nodesize : s'.bddnodesize = s.bddnodesize
  refstack : s'.bddrefstack = s.bddrefstack
  checkSameChildren : s'.checkSameChildren = s.checkSameChildren
  errorcond : s'.bdderrorcond = s.bdderrorcond
  env : s'.env = s.env
  errors : s'.errors = s.errors

/-! ## Linking -/

section Links

variable (s : BddState P)

/-- A node without its place in a list. -/
def BddNode.body (node : BddNode) : BddNode := { node with hash := 0, next := 0 }

theorem BddNode.key_of_body {a b : BddNode} (h : a.body = b.body) : a.key = b.key := by
  have h' := congrArg BddNode.key h
  exact h'

theorem body_chainIn (n b m : ℕ) :
    ((s.chainIn n b).bddnodes m).body = (s.bddnodes m).body := by
  simp only [BddState.chainIn, BddState.setNode, Function.update_apply]
  split
  · rename_i h
    subst h
    split <;> rename_i h
    · rw [h]; rfl
    · rfl
  · split <;> rename_i h
    · rw [h]; rfl
    · rfl

theorem links_chainIn (n b : ℕ) : (s.chainIn n b).links = s.links.insert b n := by
  ext m
  · simp only [BddState.links, Links.insert, BddState.chainIn, BddState.setNode,
      Function.update_apply]
    by_cases hb : m = b
    · rw [if_pos hb, if_pos hb]
    · rw [if_neg hb, if_neg hb]
      split <;> rename_i h
      · rw [h]
      · rfl
  · simp only [BddState.links, Links.insert, BddState.chainIn, BddState.setNode,
      Function.update_apply]
    by_cases hb : m = b
    · subst hb
      rw [if_pos rfl]
      split <;> rfl
    · rw [if_neg hb]
      split <;> rfl
  · rfl
  · rfl

/-- Rewriting the body of a node leaves the lists alone. -/
theorem links_setNode {n : ℕ} {node : BddNode} (hhash : node.hash = (s.bddnodes n).hash)
    (hnext : node.next = (s.bddnodes n).next) : (s.setNode n node).links = s.links := by
  ext m
  · simp only [BddState.links, BddState.setNode, Function.update_apply]
    split <;> rename_i h
    · rw [hhash, h]
    · rfl
  · simp only [BddState.links, BddState.setNode, Function.update_apply]
    split <;> rename_i h
    · rw [hnext, h]
    · rfl
  · rfl
  · rfl

theorem links_release {n : ℕ} {node : BddNode} (hhash : node.hash = (s.bddnodes n).hash) :
    (s.release n node).links = s.links.release n := by
  ext m
  · simp only [BddState.links, BddState.release, Links.release, BddState.setNode,
      Function.update_apply]
    split <;> rename_i h
    · rw [hhash, h]
    · rfl
  · simp only [BddState.links, BddState.release, Links.release, BddState.setNode,
      Function.update_apply]
    split <;> rfl
  · rfl
  · rfl

theorem body_release (n m : ℕ) (node : BddNode) :
    ((s.release n node).bddnodes m).body = if m = n then node.body else (s.bddnodes m).body := by
  simp only [BddState.release, BddState.setNode, Function.update_apply]
  split <;> rfl

end Links

/-! ## Marking -/

section Mark

variable (s : BddState P)

/-- The state with the marks of `M`. -/
def BddState.withMarks (M : ℕ → Bool) : BddState P :=
  { s with bddnodes := fun n => { s.bddnodes n with mark := M n } }

def BddState.marks : ℕ → Bool := fun n => (s.bddnodes n).mark

theorem withMarks_marks : s.withMarks s.marks = s := rfl

theorem withMarks_setMark (M : ℕ → Bool) (i : ℕ) :
    (s.withMarks M).setNode i { (s.withMarks M).bddnodes i with mark := true } =
      s.withMarks (Function.update M i true) := by
  simp only [BddState.withMarks, BddState.setNode]
  congr 1
  funext m
  simp only [Function.update_apply]
  split <;> rename_i h
  · rw [h]
  · rfl

/-- `bdd_mark` is the depth-first marker of the graph of live nodes. -/
theorem bddMark_eq (fuel i : ℕ) (M : ℕ → Bool) :
    bddMark fuel i (s.withMarks M) = s.withMarks (dfs s.live s.succ fuel i M) := by
  induction fuel generalizing i M with
  | zero => rfl
  | succ fuel ih =>
    rw [bddMark, dfs]
    by_cases hi : i < 2
    · have hl : s.live i = false := by
        simp [BddState.live, Nat.not_le.mpr hi]
      rw [if_pos hi, hl]
      rfl
    · rw [if_neg hi]
      have hmark : ((s.withMarks M).bddnodes i).mark = M i := rfl
      have hlow : ((s.withMarks M).bddnodes i).low = (s.key i).low := rfl
      rw [hmark, hlow]
      cases hM : M i with
      | true =>
        rw [Bool.or_true]
        rfl
      | false =>
        simp only [Bool.false_eq_true, if_false, Bool.or_false]
        cases hk : (s.key i).low with
        | none =>
          have hl : s.live i = false := by simp [BddState.live, hk]
          rw [hl]
          rfl
        | some low =>
          have hl : s.live i = true := by simp [BddState.live, hk, Nat.not_lt.mp hi]
          rw [hl]
          have hset := withMarks_setMark s M i
          simp only [hset, Bool.not_true, Bool.false_eq_true, if_false]
          have hlevel : ((s.withMarks (Function.update M i true)).bddnodes i).level =
              (s.key i).level := rfl
          rw [hlevel, BddState.succ, hk]
          by_cases hterm : (s.key i).level = maxlevel
          · simp only [hterm, if_true, List.foldl_nil]
          · simp only [hterm, if_false, List.foldl_cons, List.foldl_nil, ih]
            rfl

/-- Clear the buckets below `k`. -/
def BddState.clearBuckets (k : ℕ) : BddState P :=
  { s with bddnodes := fun n =>
      if n < k then { s.bddnodes n with hash := 0 } else s.bddnodes n }

theorem clearBuckets_succ (k : ℕ) :
    (s.clearBuckets k).setNode k { (s.clearBuckets k).bddnodes k with hash := 0 } =
      s.clearBuckets (k + 1) := by
  simp only [BddState.clearBuckets, BddState.setNode]
  congr 1
  funext m
  simp only [Function.update_apply]
  by_cases hm : m = k
  · simp [hm]
  · have : m < k + 1 ↔ m < k := by omega
    simp [hm, this]

theorem clearBuckets_key (k n : ℕ) : (s.clearBuckets k).key n = s.key n := by
  simp only [BddState.key, BddState.clearBuckets]
  split <;> rfl

theorem clearBuckets_live (k : ℕ) : (s.clearBuckets k).live = s.live :=
  funext fun n => BddState.live_congr (clearBuckets_key s k n)

theorem clearBuckets_succs (k : ℕ) : (s.clearBuckets k).succ = s.succ :=
  funext fun n => BddState.succ_congr (clearBuckets_key s k n)

/-- The referenced nodes below `k`. -/
def BddState.refRoots (k : ℕ) : List ℕ :=
  (List.range k).filter fun n => (s.bddnodes n).refcou > 0

theorem refRoots_succ (n : ℕ) : s.refRoots (n + 1) =
    s.refRoots n ++ (if (s.bddnodes n).refcou > 0 then [n] else []) := by
  unfold BddState.refRoots
  rw [List.range_succ, List.filter_append]
  congr 1
  by_cases h : (s.bddnodes n).refcou > 0 <;> simp [h]

/-- The first loop of `bdd_gbc` over the slots. -/
theorem gbcMark_eq (fuel : ℕ) (M : ℕ → Bool) :
    forUp 0 s.bddnodesize (gbcMarkStep fuel) (s.withMarks M) =
      (s.clearBuckets s.bddnodesize).withMarks
        (markAll s.live s.succ fuel (s.refRoots s.bddnodesize) M) := by
  have hloop := forUp_induct (a := 0) (k := s.bddnodesize) (f := gbcMarkStep fuel)
    (s := s.withMarks M)
    (fun k t => t = (s.clearBuckets k).withMarks
      (markAll s.live s.succ fuel (s.refRoots k) M))
    rfl ?_
  · rwa [Nat.zero_add] at hloop
  · intro n t _ _ ht
    subst ht
    set M' := markAll s.live s.succ fuel (s.refRoots n) M with hM'
    have hmarked : (if (((s.clearBuckets n).withMarks M').bddnodes n).refcou > 0 then
        bddMark fuel n ((s.clearBuckets n).withMarks M') else (s.clearBuckets n).withMarks M') =
        (s.clearBuckets n).withMarks (markAll s.live s.succ fuel (s.refRoots (n + 1)) M) := by
      have hr : (((s.clearBuckets n).withMarks M').bddnodes n).refcou =
          (s.bddnodes n).refcou := by
        simp only [BddState.withMarks, BddState.clearBuckets, Nat.lt_irrefl, if_false]
      rw [hr, refRoots_succ, markAll, List.foldl_append]
      by_cases h : (s.bddnodes n).refcou > 0
      · rw [if_pos h, if_pos h, bddMark_eq, clearBuckets_live, clearBuckets_succs]
        rfl
      · rw [if_neg h, if_neg h]
        rfl
    rw [gbcMarkStep, hmarked, ← clearBuckets_succ]
    simp only [BddState.withMarks, BddState.setNode]
    congr 1
    funext m
    simp only [Function.update_apply]
    split <;> rename_i h
    · rw [h]
    · rfl

theorem stackMark_eq (fuel : ℕ) (l : List ℕ) (M : ℕ → Bool) :
    l.foldl (fun s i => bddMark fuel i s) (s.withMarks M) =
      s.withMarks (markAll s.live s.succ fuel l M) := by
  induction l generalizing M with
  | nil => rfl
  | cons i l ih =>
    rw [List.foldl_cons, bddMark_eq, ih]
    rfl

/-- The set of nodes `bdd_gbc` marks. -/
def gbcMarks : ℕ → Bool :=
  markAll s.live s.succ (s.bddnodesize + 1)
    (s.bddrefstack.reverse ++ s.refRoots s.bddnodesize) s.marks

variable {s} {D : MtbddDomain P} {isPrime : ℕ → Bool} {flight : List ℕ}

theorem TableInv.live_lt (h : TableInv D isPrime flight s) {n : ℕ} (hn : s.live n = true) :
    n < s.bddnodesize := by
  by_contra hge
  rw [h.beyond n (by omega)] at hn
  exact Bool.false_ne_true hn

/-- Exactly the held nodes are marked. -/
theorem gbcMarks_iff (h : TableInv D isPrime flight s) (n : ℕ) :
    gbcMarks s n = true ↔ s.Held n := by
  have hmarks : Marks s.live s.succ (s.bddrefstack.reverse ++ s.refRoots s.bddnodesize)
      s.marks (gbcMarks s) :=
    markAll_marks (fun n hn => h.live_lt hn) _ _ (Nat.lt_succ_of_le (unmarked_le _ _))
  rw [hmarks.iff_reach h.mark n]
  constructor
  · intro hex
    obtain ⟨r, hr, hrn⟩ := hex
    refine ⟨r, ?_, hrn⟩
    rcases List.mem_append.mp hr with hr | hr
    · exact Or.inr (List.mem_reverse.mp hr)
    · left
      simpa using (List.mem_filter.mp hr).2
  · intro hheld
    obtain ⟨r, hr, hrn⟩ := hheld
    refine ⟨r, List.mem_append.mpr ?_, hrn⟩
    rcases hr with hr | hr
    · right
      exact List.mem_filter.mpr ⟨List.mem_range.mpr (h.live_lt hrn.live_left), by simpa using hr⟩
    · exact Or.inl (List.mem_reverse.mpr hr)

end Mark

/-! ## Giving value slots back -/

section Swept

variable {s : BddState P} {D : MtbddDomain P} {isPrime : ℕ → Bool} {flight : List ℕ}

/-- What the sweep does to the value store at slot `n`. -/
def sweptStep (D : MtbddDomain P) (s : BddState P) (n : ℕ) (T : Terminals P) : Terminals P :=
  if gbcMarks s n = true ∨ (s.key n).level ≠ maxlevel then T
  else mtbddDeleteTerminal D T n ((s.key n).low.getD 0xFFFFFFFF) (s.key n).high

/-- The value store after the sweep of the slots from `n` on. -/
def sweptTerminals (D : MtbddDomain P) (s : BddState P) (n : ℕ) : Terminals P :=
  forDown n (s.bddnodesize - n) (sweptStep D s) s.terminals

/-- The slots that terminals still own then. -/
def sweptSlot (D : MtbddDomain P) (s : BddState P) (n m : ℕ) : Option ℕ :=
  if n ≤ m ∧ gbcMarks s m = false then none else s.slot D m

/-- The store without slot `i`. -/
theorem TermInv.delete {slot slot' : ℕ → Option ℕ} {T : Terminals P} (h : TermInv slot flight T)
    {n i : ℕ} (hi : slot n = some i) (hn : slot' n = none) (hother : ∀ m, m ≠ n → slot' m = slot m)
    {values : ℕ → Option P} (hvalues : ∀ j, j ≠ i → values j = T.values j) :
    TermInv slot' flight { T.giveBack n i with values := values } := by
  have hsub : ∀ m j, slot' m = some j → m ≠ n ∧ slot m = some j := by
    intro m j hm
    have hmn : m ≠ n := fun he => by
      rw [he, hn] at hm
      exact Option.some_ne_none j hm.symm
    rw [hother m hmn] at hm
    exact ⟨hmn, hm⟩
  have hne : ∀ j, (∃ m, slot' m = some j) ∨ j ∈ flight → j ≠ i := by
    intro j hj he
    rw [he] at hj
    rcases hj with ⟨m, hm⟩ | hj
    · obtain ⟨hmn, hm⟩ := hsub m i hm
      exact hmn (h.inj m n i hm hi)
    · exact h.apart n i hi hj
  have hused : ∀ j, (∃ m, slot' m = some j) ∨ j ∈ flight → (∃ m, slot m = some j) ∨ j ∈ flight :=
    fun j hj => hj.imp_left fun ⟨m, hm⟩ => ⟨m, (hsub m j hm).2⟩
  refine ⟨fun m m' j hm hm' => h.inj m m' j (hsub m j hm).2 (hsub m' j hm').2,
    fun m j hm => h.apart m j (hsub m j hm).2, fun j hj => ?_, ?_, ?_, fun j hj => ?_,
    fun j hm hj => ?_, fun m => ?_⟩
  · show (values j).isSome
    rw [hvalues j (hne j hj)]
    exact h.value j (hused j hj)
  rotate_left
  · obtain ⟨v, hv⟩ := Option.isSome_iff_exists.mp (h.value i (Or.inl ⟨n, hi⟩))
    refine ⟨⟨v, hv, ?_, (h.filled i (Or.inl ⟨n, hi⟩)).trans hv⟩, h.logOk⟩
    rw [h.owned n, hi, Option.bind_some, hv, Option.map_some]
  · show (if i = j then none else holder T.log j) = values j
    rw [if_neg (hne j hj).symm, hvalues j (hne j hj)]
    exact h.filled j (hused j hj)
  · show (if i = j then none else holder T.log j) = none
    split
    · rfl
    · rename_i hij
      refine h.empty j (fun ⟨m, hm'⟩ => hm ⟨m, ?_⟩) hj
      have hmn : m ≠ n := fun he => by
        rw [he, hi] at hm'
        exact hij (Option.some.inj hm')
      exact (hother m hmn).trans hm'
  · show (if n = m then none else Bdd.owned T.log m) = _
    by_cases hmn : n = m
    · rw [if_pos hmn, ← hmn, hn, Option.bind_none]
    · rw [if_neg hmn, h.owned m, ← hother m (Ne.symm hmn)]
      cases hm : slot' m with
      | none => rfl
      | some j =>
        show (T.values j).map _ = (values j).map _
        rw [hvalues j (hne j (Or.inl ⟨m, hm⟩))]
  · refine h.pool.give (Or.inl ⟨n, hi⟩) fun j => ⟨fun hj => ⟨hused j hj, hne j hj⟩, fun hj => ?_⟩
    obtain ⟨⟨m, hm⟩ | hj, hji⟩ := hj
    · left
      have hmn : m ≠ n := fun he => by
        rw [he, hi] at hm
        exact hji (Option.some.inj hm).symm
      exact ⟨m, (hother m hmn).trans hm⟩
    · exact Or.inr hj

/-- The sweep gives back the slots of the terminals that are not marked, and no other. -/
theorem sweptTerminals_spec (h : TableInv D isPrime flight s) {n : ℕ} (hn : 2 ≤ n)
    (hns : n ≤ s.bddnodesize) :
    TermInv (sweptSlot D s n) flight (sweptTerminals D s n) ∧
    ∀ i, (∃ m, sweptSlot D s n m = some i) ∨ i ∈ flight →
      (sweptTerminals D s n).values i = s.terminals.values i := by
  have hloop := forDown_induct (a := n) (k := s.bddnodesize - n) (f := sweptStep D s)
    (s := s.terminals) (fun m T => TermInv (sweptSlot D s m) flight T ∧
      ∀ i, (∃ m', sweptSlot D s m m' = some i) ∨ i ∈ flight →
        T.values i = s.terminals.values i) ?_ ?_
  · exact hloop
  · have heq : sweptSlot D s (n + (s.bddnodesize - n)) = s.slot D := by
      funext m
      unfold sweptSlot
      split
      · rename_i hm
        unfold BddState.slot
        rw [h.beyond m (by omega)]
        rfl
      · rfl
    rw [heq]
    exact ⟨h.term, fun _ _ => rfl⟩
  · intro m T hm hms ⟨hT, hval⟩
    -- slots other than `m` are owned as before
    have hother : ∀ m', m' ≠ m → sweptSlot D s m m' = sweptSlot D s (m + 1) m' := by
      intro m' hm'
      unfold sweptSlot
      have hiff : m ≤ m' ↔ m + 1 ≤ m' := by omega
      simp only [hiff]
    have hkeep : sweptSlot D s m m = s.slot D m →
        TermInv (sweptSlot D s m) flight T ∧
          ∀ i, (∃ m', sweptSlot D s m m' = some i) ∨ i ∈ flight →
            T.values i = s.terminals.values i := by
      intro hslot
      have heq : sweptSlot D s m = sweptSlot D s (m + 1) := by
        funext m'
        by_cases hm' : m' = m
        · rw [hm', hslot]
          unfold sweptSlot
          rw [if_neg (by omega)]
        · exact hother m' hm'
      rw [heq]
      exact ⟨hT, hval⟩
    unfold sweptStep
    by_cases hc : gbcMarks s m = true ∨ (s.key m).level ≠ maxlevel
    · rw [if_pos hc]
      apply hkeep
      unfold sweptSlot
      rcases hc with hc | hc
      · rw [if_neg (by simp [hc])]
      · have hnone : s.slot D m = none := by
          unfold BddState.slot
          rw [if_neg (fun hs => hc hs.2.1)]
        rw [hnone]
        split <;> rfl
    · rw [if_neg hc]
      obtain ⟨hmark, hlevel⟩ : gbcMarks s m = false ∧ (s.key m).level = maxlevel := by
        simpa using hc
      have hlive : s.live m = true := by
        by_contra hl
        exact h.free m (by omega) (by simpa using hl) hlevel
      have hnone : sweptSlot D s m m = none := if_pos ⟨Nat.le_refl m, hmark⟩
      cases hD : D.stored with
      | false =>
        have hdel : mtbddDeleteTerminal D T m ((s.key m).low.getD 0xFFFFFFFF) (s.key m).high = T := by
          unfold MtbddDomain.stored at hD
          unfold mtbddDeleteTerminal
          cases hd : D.domaintype <;> rw [hd] at hD <;> first | rfl | simp at hD
        rw [hdel]
        apply hkeep
        rw [hnone]
        unfold BddState.slot
        rw [if_neg (by simp [hD])]
      | true =>
        have hslot : sweptSlot D s (m + 1) m = some (s.key m).high := by
          unfold sweptSlot
          rw [if_neg (by omega)]
          exact BddState.slot_eq hlive hlevel hD
        have hroom : (s.key m).high < T.mtbddmaxTerminalSize :=
          hT.pool.lt_room (Or.inl ⟨m, hslot⟩)
        obtain ⟨v, hv⟩ := Option.isSome_iff_exists.mp (hT.value _ (Or.inl ⟨m, hslot⟩))
        obtain ⟨values, hvalues, hdel⟩ : ∃ values : ℕ → Option P,
            (∀ j, j ≠ (s.key m).high → values j = T.values j) ∧
            mtbddDeleteTerminal D T m ((s.key m).low.getD 0xFFFFFFFF) (s.key m).high =
              { T.giveBack m (s.key m).high with values := values } := by
          unfold MtbddDomain.stored at hD
          unfold mtbddDeleteTerminal
          cases hd : D.domaintype <;> rw [hd] at hD <;> simp only [Bool.false_eq_true] at hD
          case longval | doubleval =>
            exact ⟨T.values, fun _ _ => rfl, if_neg (by omega)⟩
          case custom =>
            obtain ⟨type, htype, hlow, -⟩ := h.type hd m hlive hlevel
            refine ⟨Function.update T.values (s.key m).high none,
              fun j hj => Function.update_of_ne hj _ _, ?_⟩
            simp only [hlow, Option.getD_some]
            rw [if_neg (by omega), if_neg (by omega), hv]
            rfl
        rw [hdel]
        refine ⟨hT.delete hslot hnone hother hvalues, fun i hi => ?_⟩
        have hi' : (∃ m', sweptSlot D s (m + 1) m' = some i) ∨ i ∈ flight := by
          refine hi.imp_left fun ⟨m', hm'⟩ => ⟨m', ?_⟩
          rw [← hother m' ?_]
          · exact hm'
          · intro he
            rw [he, hnone] at hm'
            exact Option.some_ne_none i hm'.symm
        have hne : i ≠ (s.key m).high := by
          intro he
          rw [he] at hi
          rcases hi with ⟨m', hm'⟩ | hi
          · have hmm : m' ≠ m := fun h' => by
              rw [h', hnone] at hm'
              exact Option.some_ne_none _ hm'.symm
            rw [hother m' hmm] at hm'
            exact hmm (hT.inj m' m _ hm' hslot)
          · exact hT.apart m _ hslot hi
        show values i = s.terminals.values i
        rw [hvalues i hne, hval i hi']

end Swept

/-! ## Collection -/

section Collection

variable {s : BddState P} {D : MtbddDomain P} {isPrime : ℕ → Bool} {flight : List ℕ}

/-- The body `bdd_gbc` leaves in slot `m`. -/
def sweptBody (s : BddState P) (m : ℕ) : BddNode :=
  if 2 ≤ m ∧ m < s.bddnodesize ∧ gbcMarks s m = false then
    { (s.bddnodes m).body with
      low := none
      level := 0
      refcou := 0 }
  else (s.bddnodes m).body

/-- The state between the marking and the sweeping loops of `bdd_gbc`. -/
def gbcMarked (s : BddState P) : BddState P :=
  { (s.clearBuckets s.bddnodesize).withMarks (gbcMarks s) with
    bddfreepos := 0
    bddfreenum := 0 }

theorem bddGbc_eq (D : MtbddDomain P) (s : BddState P) :
    bddGbc D s = { forDown 2 (s.bddnodesize - 2) (gbcSweepStep D) (gbcMarked s) with
      caches := s.caches.reset } := by
  have hstack := stackMark_eq s (s.bddnodesize + 1) s.bddrefstack.reverse s.marks
  rw [withMarks_marks] at hstack
  have hmarks := gbcMark_eq s (s.bddnodesize + 1)
    (markAll s.live s.succ (s.bddnodesize + 1) s.bddrefstack.reverse s.marks)
  have hmark : gbcMarks s = markAll s.live s.succ (s.bddnodesize + 1) (s.refRoots s.bddnodesize)
      (markAll s.live s.succ (s.bddnodesize + 1) s.bddrefstack.reverse s.marks) := by
    rw [gbcMarks, markAll, markAll, markAll, List.foldl_append]
  have hloop : ∀ t : BddState P, t.caches = s.caches →
      (forDown 2 (s.bddnodesize - 2) (gbcSweepStep D) t).caches = s.caches := by
    intro t ht
    refine forDown_induct (fun _ (t : BddState P) => t.caches = s.caches) ht fun n t _ _ ht => ?_
    unfold gbcSweepStep
    dsimp only
    split
    · exact ht
    · split <;> exact ht
  unfold bddGbc
  dsimp only
  rw [hstack]
  have hsize : (s.withMarks (markAll s.live s.succ (s.bddnodesize + 1) s.bddrefstack.reverse
      s.marks)).bddnodesize = s.bddnodesize := rfl
  rw [hsize, hmarks, ← hmark]
  show _ = ({ forDown 2 (s.bddnodesize - 2) (gbcSweepStep D) (gbcMarked s) with
    caches := s.caches.reset } : BddState P)
  have hc := hloop (gbcMarked s) rfl
  rw [← hc]
  rfl

/-- The sweep: its effect on the slots and on the value store, and the lists it builds. -/
theorem gbcSweep_spec (h : TableInv D isPrime flight s) :
    let t := forDown 2 (s.bddnodesize - 2) (gbcSweepStep D) (gbcMarked s)
    SameRest s t ∧ t.bddresized = s.bddresized ∧
    t.terminals = sweptTerminals D s 2 ∧
    (∀ m, (t.bddnodes m).body = sweptBody s m) ∧
    Threaded 2 s.bddnodesize (gbcMarks s · = true) (s.bucket D) t.links := by
  have hlive : ∀ m, gbcMarks s m = true → s.live m = true := fun m hm =>
    ((gbcMarks_iff h m).mp hm).live
  have hsize := h.size.1
  have hbody : ∀ m, gbcMarks s m = false →
      { (s.bddnodes m).body with mark := gbcMarks s m } = (s.bddnodes m).body := by
    intro m hm
    rw [hm, ← h.mark m]
    rfl
  have hloop := forDown_induct (a := 2) (k := s.bddnodesize - 2) (f := gbcSweepStep D)
    (s := gbcMarked s)
    (fun n t => SameRest s t ∧ t.bddresized = s.bddresized ∧
      t.terminals = sweptTerminals D s n ∧
      (∀ m, (t.bddnodes m).body = if n ≤ m ∧ m < s.bddnodesize then sweptBody s m
        else { (s.bddnodes m).body with mark := gbcMarks s m }) ∧
      Threaded n s.bddnodesize (gbcMarks s · = true) (s.bucket D) t.links) ?_ ?_
  · obtain ⟨hrest, hres, hterm, hb, ht⟩ := hloop
    refine ⟨hrest, hres, hterm, fun m => ?_, ht⟩
    rw [hb m]
    split
    · rfl
    · rename_i hm
      have hnot : gbcMarks s m = false := by
        by_contra hc
        have hl := hlive m (by simpa using hc)
        have := h.live_lt hl
        have := (BddState.live_iff.mp hl).1
        omega
      rw [hbody m hnot, sweptBody, if_neg (by omega)]
  · have heq : 2 + (s.bddnodesize - 2) = s.bddnodesize := by omega
    rw [heq]
    refine ⟨⟨rfl, rfl, rfl, rfl, rfl, rfl⟩, rfl, ?_, fun m => ?_,
      Threaded.rebuild_start (fun b hb => ?_) rfl rfl⟩
    · unfold sweptTerminals
      rw [Nat.sub_self]
      rfl
    · rw [if_neg (by omega)]
      simp only [gbcMarked, BddState.withMarks, BddState.clearBuckets]
      split <;> rfl
    · show (if b < s.bddnodesize then { s.bddnodes b with hash := 0 } else s.bddnodes b).hash = 0
      rw [if_pos hb]
  · intro n t hn hns ⟨hrest, hres, hterm, hb, ht⟩
    have hns' : n < s.bddnodesize := by omega
    have hbn : (t.bddnodes n).body = { (s.bddnodes n).body with mark := gbcMarks s n } := by
      rw [hb n, if_neg (by omega)]
    have hmark : (t.bddnodes n).mark = gbcMarks s n := congrArg BddNode.mark hbn
    have hkey : t.key n = s.key n := by
      have := congrArg BddNode.key hbn
      exact this
    have hlow : (t.bddnodes n).low = (s.key n).low := congrArg BddKey.low hkey
    have hlevel : (t.bddnodes n).level = (s.key n).level := congrArg BddKey.level hkey
    have hhigh : (t.bddnodes n).high = (s.key n).high := congrArg BddKey.high hkey
    have hother : ∀ m, m ≠ n →
        (if n ≤ m ∧ m < s.bddnodesize then sweptBody s m
          else { (s.bddnodes m).body with mark := gbcMarks s m }) =
        (if n + 1 ≤ m ∧ m < s.bddnodesize then sweptBody s m
          else { (s.bddnodes m).body with mark := gbcMarks s m }) := by
      intro m hm
      have hiff : (n ≤ m ∧ m < s.bddnodesize) ↔ (n + 1 ≤ m ∧ m < s.bddnodesize) := by omega
      simp only [hiff]
    have hswept : sweptTerminals D s n = sweptStep D s n (sweptTerminals D s (n + 1)) := by
      unfold sweptTerminals
      obtain ⟨k, hk⟩ : ∃ k, s.bddnodesize - n = k + 1 := ⟨s.bddnodesize - n - 1, by omega⟩
      rw [hk, forDown_succ, show s.bddnodesize - (n + 1) = k by omega]
    have hstep := ht.rebuildStep (by omega) hns'
    unfold gbcSweepStep
    dsimp only
    cases hM : gbcMarks s n with
    | true =>
      obtain ⟨-, low, hlow'⟩ := BddState.live_iff.mp (hlive n hM)
      have hc : ((t.bddnodes n).mark && (t.bddnodes n).low.isSome) = true := by
        rw [hmark, hM, hlow, hlow']
        rfl
      rw [if_pos hc]
      set t' := t.setNode n { t.bddnodes n with mark := false } with ht'
      have hlinks : t'.links = t.links := links_setNode t rfl rfl
      have hkey' : t'.key n = s.key n := by
        rw [← hkey]
        simp [ht', BddState.key, BddState.setNode, BddNode.key]
      have hbucket : t'.bucket D n = s.bucket D n := by
        refine BddState.bucket_congr hkey' hrest.nodesize fun hlev hD => ?_
        show t.terminals.values _ = _
        rw [hterm]
        refine (sweptTerminals_spec h (by omega) (by omega)).2 _ (Or.inl ⟨n, ?_⟩)
        unfold sweptSlot
        rw [if_neg (by omega)]
        exact BddState.slot_eq (hlive n hM) hlev hD
      rw [hbucket]
      refine ⟨{ hrest with }, hres, ?_, fun m => ?_, ?_⟩
      · rw [hswept, sweptStep, if_pos (Or.inl hM)]
        exact hterm
      · rw [body_chainIn]
        by_cases hm : m = n
        · subst hm
          rw [if_pos ⟨Nat.le_refl m, hns'⟩, sweptBody, if_neg (by simp [hM])]
          have hm0 := h.mark m
          simp only [ht', BddState.setNode, Function.update_self]
          have : ({ t.bddnodes m with mark := false } : BddNode).body =
              { (t.bddnodes m).body with mark := false } := rfl
          rw [this, hbn, ← hm0]
          rfl
        · rw [hother m hm, ← hb m]
          simp [ht', BddState.setNode, hm]
      · rw [links_chainIn, hlinks]
        rw [Links.rebuildStep, if_pos hM] at hstep
        exact hstep
    | false =>
      have hc : ¬ ((t.bddnodes n).mark && (t.bddnodes n).low.isSome) = true := by
        rw [hmark, hM]
        exact Bool.false_ne_true
      rw [if_neg hc]
      -- only the value store differs between a terminal and another slot
      have htype : (t.bddnodes n).low.getD 0xFFFFFFFF = (s.key n).low.getD 0xFFFFFFFF := by
        rw [hlow]
      generalize (t.bddnodes n).low.getD 0xFFFFFFFF = type at htype ⊢
      obtain ⟨T, hT, hTeq⟩ : ∃ T, (if (t.bddnodes n).level = maxlevel then
          { t with terminals := mtbddDeleteTerminal D t.terminals n type (t.bddnodes n).high }
          else t) =
          { t with terminals := T } ∧ T = sweptTerminals D s n := by
        rw [hswept, sweptStep, hlevel, htype, hhigh, hterm]
        by_cases hl : (s.key n).level = maxlevel
        · rw [if_pos hl, if_neg (by simp [hM, hl])]
          exact ⟨_, rfl, rfl⟩
        · rw [if_neg hl, if_pos (Or.inr hl), ← hterm]
          exact ⟨_, rfl, rfl⟩
      rw [hT]
      refine ⟨{ hrest with }, hres, hTeq, fun m => ?_, ?_⟩
      · rw [body_release]
        by_cases hm : m = n
        · subst hm
          rw [if_pos rfl, if_pos ⟨Nat.le_refl m, hns'⟩, sweptBody, if_pos ⟨hn, hns', hM⟩]
          have hbn' := hbn
          rw [hbody m hM] at hbn'
          show ({ (t.bddnodes m).body with low := none, level := 0, refcou := 0 } : BddNode) = _
          rw [hbn']
        · rw [if_neg hm, hother m hm]
          exact hb m
      · rw [links_release]
        · rw [Links.rebuildStep, if_neg (by simp [hM])] at hstep
          exact hstep
        · rfl

/-- What `bdd_gbc` does: the held nodes stay as they are with their values, all other slots are
free, and the caches are flushed. -/
structure Collected (D : MtbddDomain P) (flight : List ℕ) (s s' : BddState P) : Prop where
  rest : SameRest s s'
  resized : s'.bddresized = s.bddresized
  live : ∀ n, s'.live n = true ↔ s.Held n
  key : ∀ n, s.Held n → s'.key n = s.key n
  const : ∀ n, n < 2 → s'.key n = s.key n
  refcou : ∀ n, (s'.bddnodes n).refcou = (s.bddnodes n).refcou
  terminals : s'.terminals = sweptTerminals D s 2
  values : ∀ i, (∃ n, s'.slot D n = some i) ∨ i ∈ flight →
    s'.terminals.values i = s.terminals.values i
  cache : ∀ k i, (s'.caches k).isValid i = false

theorem sweptBody_keep {n : ℕ} (hn : n < 2 ∨ gbcMarks s n = true) :
    sweptBody s n = (s.bddnodes n).body := by
  unfold sweptBody
  rw [if_neg]
  rcases hn with hn | hn
  · omega
  · simp [hn]

theorem bddGbc_spec (h : TableInv D isPrime flight s) :
    TableInv D isPrime flight (bddGbc D s) ∧ Collected D flight s (bddGbc D s) := by
  obtain ⟨hrest, hres, hterm, hbody, hthr⟩ := gbcSweep_spec h
  set t := forDown 2 (s.bddnodesize - 2) (gbcSweepStep D) (gbcMarked s) with ht
  have hs' : bddGbc D s = { t with caches := s.caches.reset } := bddGbc_eq D s
  set s' := bddGbc D s
  have hbody' : ∀ n, (s'.bddnodes n).body = sweptBody s n := by
    rw [hs']
    exact hbody
  have hsize' : s'.bddnodesize = s.bddnodesize := by
    rw [hs']
    exact hrest.nodesize
  have hterm' : s'.terminals = sweptTerminals D s 2 := by
    rw [hs']
    exact hterm
  have hlinks : s'.links = t.links := by
    rw [hs']
    rfl
  have hkeep : ∀ n, n < 2 ∨ s.Held n → s'.key n = s.key n := fun n hn =>
    BddNode.key_of_body ((hbody' n).trans (sweptBody_keep (hn.imp_right (gbcMarks_iff h n).mpr)))
  have hfreed : ∀ n, 2 ≤ n → n < s.bddnodesize → ¬ s.Held n →
      (s'.key n).low = none ∧ (s'.key n).level = 0 ∧ (s'.bddnodes n).refcou = 0 := by
    intro n hn hns hheld
    have hmark : gbcMarks s n = false := by
      rw [← Bool.not_eq_true, gbcMarks_iff h]
      exact hheld
    have hb := hbody' n
    rw [sweptBody, if_pos ⟨hn, hns, hmark⟩] at hb
    exact ⟨congrArg BddNode.low hb, congrArg BddNode.level hb, congrArg BddNode.refcou hb⟩
  have hfar : ∀ n, s.bddnodesize ≤ n → s'.key n = s.key n := by
    intro n hn
    have hb := hbody' n
    rw [sweptBody, if_neg (by omega)] at hb
    exact BddNode.key_of_body hb
  have hlive : ∀ n, s'.live n = true ↔ s.Held n := by
    intro n
    constructor
    · intro hn
      by_contra hheld
      obtain ⟨hn2, low, hlow⟩ := BddState.live_iff.mp hn
      by_cases hns : n < s.bddnodesize
      · rw [(hfreed n hn2 hns hheld).1] at hlow
        exact Option.some_ne_none _ hlow.symm
      · rw [BddState.live_congr (hfar n (by omega)), h.beyond n (by omega)] at hn
        exact Bool.false_ne_true hn
    · intro hn
      rw [BddState.live_congr (hkeep n (Or.inr hn))]
      exact hn.live
  have hrefcou : ∀ n, (s'.bddnodes n).refcou = (s.bddnodes n).refcou := by
    intro n
    by_cases hn : 2 ≤ n ∧ n < s.bddnodesize ∧ ¬ s.Held n
    · rw [(hfreed n hn.1 hn.2.1 hn.2.2).2.2]
      by_contra hne
      have hpos : 0 < (s.bddnodes n).refcou := by omega
      have hl := (h.refcou n hpos).resolve_left (by omega)
      exact hn.2.2 ⟨n, Or.inl hpos, .refl hl⟩
    · have hb := hbody' n
      have hkeep' : sweptBody s n = (s.bddnodes n).body := by
        unfold sweptBody
        rw [if_neg]
        intro hc
        refine hn ⟨hc.1, hc.2.1, fun hheld => ?_⟩
        rw [(gbcMarks_iff h n).mpr hheld] at hc
        exact Bool.false_ne_true hc.2.2.symm
      rw [hkeep'] at hb
      have hr := congrArg BddNode.refcou hb
      exact hr
  have hslot : s'.slot D = sweptSlot D s 2 := by
    funext n
    unfold sweptSlot
    split
    · rename_i hc
      have hnot : ¬ s'.live n = true := by
        rw [hlive n, ← gbcMarks_iff h n, hc.2]
        exact Bool.false_ne_true
      unfold BddState.slot
      rw [if_neg (fun hs => hnot hs.1)]
    · rename_i hc
      by_cases hheld : s.Held n
      · exact BddState.slot_congr (hkeep n (Or.inr hheld))
      · have hmark : gbcMarks s n = false := by
          rw [← Bool.not_eq_true, gbcMarks_iff h]
          exact hheld
        exact BddState.slot_congr (hkeep n (Or.inl (by
          by_contra h2
          exact hc ⟨by omega, hmark⟩)))
  obtain ⟨hTinv, hTval⟩ := sweptTerminals_spec h (Nat.le_refl 2) h.size.1
  rw [← hslot, ← hterm'] at hTinv
  rw [← hslot, ← hterm'] at hTval
  have hbucket : ∀ n, s.Held n → s'.bucket D n = s.bucket D n := by
    intro n hn
    refine BddState.bucket_congr (hkeep n (Or.inr hn)) hsize' fun hlev hD => ?_
    refine hTval _ (Or.inl ⟨n, ?_⟩)
    rw [BddState.slot_congr (hkeep n (Or.inr hn))]
    exact BddState.slot_eq hn.live hlev hD
  refine ⟨?_, ⟨?_, ?_, hlive, fun n hn => hkeep n (Or.inr hn), fun n hn => hkeep n (Or.inl hn),
    hrefcou, hterm', hTval, ?_⟩⟩
  · refine
      { size := ?_, beyond := fun n hn => ?_, refcou := fun n hn => ?_, mark := fun n => ?_,
        level := fun n => ?_, free := fun n hn hl => ?_, threaded := ?_,
        unique := fun n m hn hm hp hnm => ?_, term := hTinv, word := fun hD n hn hlev => ?_,
        type := fun hD n hn hlev => ?_,
        termUnique := fun n m i j v w hi hj hlow hv hw hsame => ?_, caches := fun k => ?_ }
    · rw [hsize']
      exact h.size
    · rw [hsize'] at hn
      rw [← Bool.not_eq_true, hlive]
      intro hheld
      have := h.live_lt hheld.live
      omega
    · rw [hrefcou] at hn
      refine (h.refcou n hn).imp_right fun hl => ?_
      exact (hlive n).mpr ⟨n, Or.inl hn, .refl hl⟩
    · have hb := congrArg BddNode.mark (hbody' n)
      unfold sweptBody at hb
      split at hb
      · exact hb.trans (h.mark n)
      · exact hb.trans (h.mark n)
    · have hb := congrArg BddNode.level (hbody' n)
      unfold sweptBody at hb
      show (s'.bddnodes n).level < 2 ^ 21
      rw [show (s'.bddnodes n).level = _ from hb]
      split
      · exact Nat.two_pow_pos 21
      · exact h.level n
    · have hheld : ¬ s.Held n := by
        rw [← hlive n, hl]
        exact Bool.false_ne_true
      by_cases hns : n < s.bddnodesize
      · rw [(hfreed n hn hns hheld).2.1]
        decide
      · rw [hfar n (by omega)]
        exact h.free n hn (h.beyond n (by omega))
    · rw [hsize', hlinks]
      refine hthr.congr (fun n _ _ => (hlive n).trans (gbcMarks_iff h n).symm) fun n _ _ hn => ?_
      exact hbucket n ((gbcMarks_iff h n).mp hn)
    · have hn' := (hlive n).mp hn
      have hm' := (hlive m).mp hm
      rw [hkeep n (Or.inr hn')] at hp hnm
      rw [hkeep m (Or.inr hm')] at hnm
      exact h.unique n m hn'.live hm'.live hp hnm
    · have hn' := (hlive n).mp hn
      rw [hkeep n (Or.inr hn')] at hlev ⊢
      exact h.word hD n hn'.live hlev
    · have hn' := (hlive n).mp hn
      rw [hkeep n (Or.inr hn')] at hlev ⊢
      exact h.type hD n hn'.live hlev
    · have hn' := (hlive n).mp (BddState.slot_live hi).1
      have hm' := (hlive m).mp (BddState.slot_live hj).1
      rw [hTval i (Or.inl ⟨n, hi⟩)] at hv
      rw [hTval j (Or.inl ⟨m, hj⟩)] at hw
      rw [BddState.slot_congr (hkeep n (Or.inr hn'))] at hi
      rw [BddState.slot_congr (hkeep m (Or.inr hm'))] at hj
      rw [hkeep n (Or.inr hn')] at hlow hsame
      rw [hkeep m (Or.inr hm')] at hlow
      exact h.termUnique n m i j v w hi hj hlow hv hw hsame
    · rw [hs']
      exact (h.caches k).reset
  · rw [hs']
    exact { hrest with }
  · rw [hs']
    exact hres
  · intro k i
    rw [hs']
    exact (h.caches k).reset_isValid i

end Collection

/-! ## Growth -/

section Growth

variable {s : BddState P} {D : MtbddDomain P} {isPrime : ℕ → Bool} {flight : List ℕ}

theorem isFree_eq {n : ℕ} (hn : 2 ≤ n) : s.isFree n = !s.live n := by
  cases h : (s.bddnodes n).low <;> simp [BddState.isFree, BddState.live, BddState.key,
    BddNode.key, h, hn]

/-- `bdd_gbc_rehash` only changes links, and by steps of a rebuild. -/
theorem bddGbcRehash_links {J : ℕ → Links → Prop} (hsize : 2 ≤ s.bddnodesize)
    (hstart : J s.bddnodesize { s.links with free := 0, freenum := 0 })
    (hstep : ∀ n L, 2 ≤ n → n < s.bddnodesize → J (n + 1) L →
      J n (L.rebuildStep s.live (s.bucket D) n)) :
    SameRest s (bddGbcRehash D s) ∧ (bddGbcRehash D s).terminals = s.terminals ∧
    (bddGbcRehash D s).caches = s.caches ∧
    (∀ m, ((bddGbcRehash D s).bddnodes m).body = (s.bddnodes m).body) ∧
    J 2 (bddGbcRehash D s).links := by
  have heq : 2 + (s.bddnodesize - 2) = s.bddnodesize := by omega
  unfold bddGbcRehash
  have hloop := forDown_induct (a := 2) (k := s.bddnodesize - 2) (f := rehashStep D)
    (s := { s with bddfreepos := 0, bddfreenum := 0 })
    (fun n t => SameRest s t ∧ t.terminals = s.terminals ∧ t.caches = s.caches ∧
      (∀ m, (t.bddnodes m).body = (s.bddnodes m).body) ∧ J n t.links) ?_ ?_
  · exact hloop
  · rw [heq]
    exact ⟨⟨rfl, rfl, rfl, rfl, rfl, rfl⟩, rfl, rfl, fun _ => rfl, hstart⟩
  · intro n t hn hns ⟨hrest, hterm, hcache, hbody, hlinks⟩
    have hkey : t.key n = s.key n := BddNode.key_of_body (hbody n)
    have hnext := hstep n _ hn (heq ▸ hns) hlinks
    unfold rehashStep
    rw [isFree_eq hn, BddState.live_congr hkey]
    cases hl : s.live n with
    | true =>
      rw [Links.rebuildStep, if_pos hl] at hnext
      have hbucket : t.bucket D n = s.bucket D n :=
        BddState.bucket_congr hkey hrest.nodesize fun _ _ => by rw [hterm]
      rw [Bool.not_true, if_neg Bool.false_ne_true, hbucket]
      refine ⟨{ hrest with }, hterm, hcache, fun m => ?_, ?_⟩
      · rw [body_chainIn, hbody m]
      · rw [links_chainIn]
        exact hnext
    | false =>
      rw [Links.rebuildStep, if_neg (by simp [hl])] at hnext
      rw [Bool.not_false, if_pos rfl]
      refine ⟨{ hrest with }, hterm, hcache, fun m => ?_, ?_⟩
      · rw [body_release]
        split
        · rename_i hm
          rw [hm, hbody n]
        · exact hbody m
      · rw [links_release]
        · exact hnext
        · rfl

/-- `bdd_gbc_rehash` rebuilds all lists, from empty buckets. -/
theorem bddGbcRehash_spec (hsize : 2 ≤ s.bddnodesize)
    (hhash : ∀ b < s.bddnodesize, (s.bddnodes b).hash = 0) :
    SameRest s (bddGbcRehash D s) ∧ (bddGbcRehash D s).terminals = s.terminals ∧
    (bddGbcRehash D s).caches = s.caches ∧
    (∀ m, ((bddGbcRehash D s).bddnodes m).body = (s.bddnodes m).body) ∧
    Threaded 2 s.bddnodesize (s.live · = true) (s.bucket D) (bddGbcRehash D s).links :=
  bddGbcRehash_links (J := fun n L => Threaded n s.bddnodesize (s.live · = true) (s.bucket D) L)
    hsize (Threaded.rebuild_start hhash rfl rfl) fun _ _ hn hns h => h.rebuildStep (by omega) hns

/-- What `bdd_noderesize` does: the nodes stay, the table may get more slots. -/
structure Grown (s s' : BddState P) : Prop where
  nodesize : s.bddnodesize ≤ s'.bddnodesize
  refstack : s'.bddrefstack = s.bddrefstack
  checkSameChildren : s'.checkSameChildren = s.checkSameChildren
  errorcond : s'.bdderrorcond = s.bdderrorcond
  env : s'.env = s.env
  errors : s'.errors = s.errors
  terminals : s'.terminals = s.terminals
  caches : s'.caches = s.caches
  live : ∀ n, s'.live n = s.live n
  key : ∀ n, s.IsNode n → s'.key n = s.key n
  refcou : ∀ n, (s'.bddnodes n).refcou = (s.bddnodes n).refcou

/-- The new size is an accepted number and not below the old one. -/
theorem resizeTarget_spec
    (h : 2 ≤ s.bddnodesize ∧ s.bddnodesize % 2 = 1 ∧ isPrime s.bddnodesize = true)
    (hmax : ¬ (s.bddnodesize ≥ s.env.bddmaxnodesize ∧ s.env.bddmaxnodesize > 0)) :
    s.bddnodesize ≤ resizeTarget isPrime s ∧ resizeTarget isPrime s % 2 = 1 ∧
      isPrime (resizeTarget isPrime s) = true := by
  obtain ⟨hsize, hodd, hprime⟩ := h
  unfold resizeTarget
  apply bddPrimeLte_spec hsize hodd hprime
  split <;> omega

theorem bddNoderesize_spec (h : TableInv D isPrime flight s) :
    TableInv D isPrime flight (bddNoderesize D isPrime s) ∧
      Grown s (bddNoderesize D isPrime s) := by
  have hrefl : Grown s s :=
    ⟨Nat.le_refl _, rfl, rfl, rfl, rfl, rfl, rfl, rfl, fun _ => rfl, fun _ _ => rfl,
      fun _ => rfl⟩
  unfold bddNoderesize
  split
  · exact ⟨h, hrefl⟩
  rename_i hmax
  obtain ⟨hle, hodd, hprime⟩ := resizeTarget_spec h.size hmax
  have hs2 := h.size.1
  set size := resizeTarget isPrime s
  set t := s.extend size with ht
  have htn : ∀ n, t.bddnodes n = if n < s.bddnodesize then { s.bddnodes n with hash := 0 }
      else if n < size then
        ⟨none, 0, 0, 0, false, 0, if n + 1 = size then s.bddfreepos else n + 1⟩
      else s.bddnodes n := fun _ => rfl
  have hkeylt : ∀ n, n < s.bddnodesize ∨ size ≤ n → t.key n = s.key n := by
    intro n hn
    unfold BddState.key
    rw [htn]
    split
    · rfl
    · rw [if_neg (by omega)]
  have hkeynew : ∀ n, s.bddnodesize ≤ n → n < size → t.key n = ⟨none, 0, 0⟩ := by
    intro n h1 h2
    unfold BddState.key
    rw [htn, if_neg (by omega), if_pos h2]
    rfl
  have htlive : ∀ n, t.live n = s.live n := by
    intro n
    by_cases hn : n < s.bddnodesize ∨ size ≤ n
    · exact BddState.live_congr (hkeylt n hn)
    · rw [h.beyond n (by omega)]
      unfold BddState.live
      rw [hkeynew n (by omega) (by omega)]
      simp
  have htref : ∀ n, (t.bddnodes n).refcou = (s.bddnodes n).refcou := by
    intro n
    rw [htn]
    split
    · rfl
    · split
      · rename_i h1 h2
        by_contra hne
        have hpos : 0 < (s.bddnodes n).refcou := Nat.pos_of_ne_zero (Ne.symm hne)
        have hl := (h.refcou n hpos).resolve_left (by omega)
        rw [h.beyond n (by omega)] at hl
        exact Bool.false_ne_true hl
      · rfl
  have htmark : ∀ n, (t.bddnodes n).mark = false := by
    intro n
    rw [htn]
    split
    · exact h.mark n
    · split
      · rfl
      · exact h.mark n
  have hthash : ∀ b < t.bddnodesize, (t.bddnodes b).hash = 0 := by
    intro b hb
    have hb' : b < size := hb
    rw [htn]
    by_cases hlt : b < s.bddnodesize
    · rw [if_pos hlt]
    · rw [if_neg hlt, if_pos hb']
  have htsize : 2 ≤ t.bddnodesize := Nat.le_trans hs2 hle
  obtain ⟨hrest, hterm, hcache, hbody, hthr⟩ := bddGbcRehash_spec (D := D) htsize hthash
  set u := bddGbcRehash D t
  have hukey : ∀ n, u.key n = t.key n := fun n => BddNode.key_of_body (hbody n)
  have husize : u.bddnodesize = size := hrest.nodesize
  have hulive : ∀ n, u.live n = s.live n := fun n =>
    (BddState.live_congr (hukey n)).trans (htlive n)
  have huold : ∀ n, s.IsNode n → u.key n = s.key n := by
    intro n hn
    rw [hukey]
    apply hkeylt
    left
    rcases hn with hn | hn
    · omega
    · exact h.live_lt hn
  have huref : ∀ n, (u.bddnodes n).refcou = (s.bddnodes n).refcou := by
    intro n
    have hr := congrArg BddNode.refcou (hbody n)
    exact Eq.trans hr (htref n)
  have huslot : u.slot D = s.slot D := by
    funext n
    by_cases hn : s.live n = true
    · exact BddState.slot_congr (huold n (Or.inr hn))
    · unfold BddState.slot
      rw [if_neg (fun hc => hn (by rw [← hulive n]; exact hc.1)), if_neg (fun hc => hn hc.1)]
  refine ⟨?_, ⟨?_, hrest.refstack, hrest.checkSameChildren, hrest.errorcond, hrest.env,
    hrest.errors, hterm, hcache, hulive, huold, huref⟩⟩
  · refine
      { size := ?_, beyond := fun n hn => ?_, refcou := fun n hn => ?_, mark := fun n => ?_,
        level := fun n => ?_, free := fun n hn hl => ?_, threaded := ?_,
        unique := fun n m hn hm hp hnm => ?_, term := ?_, word := fun hD n hn hlev => ?_,
        type := fun hD n hn hlev => ?_,
        termUnique := fun n m i j v w hi hj hlow hv hw hsame => ?_, caches := fun k => ?_ }
    · show 2 ≤ u.bddnodesize ∧ u.bddnodesize % 2 = 1 ∧ isPrime u.bddnodesize = true
      rw [husize]
      exact ⟨Nat.le_trans hs2 hle, hodd, hprime⟩
    · have hn' : u.bddnodesize ≤ n := hn
      rw [husize] at hn'
      show u.live n = false
      rw [hulive]
      exact h.beyond n (by omega)
    · have hn' : 0 < (u.bddnodes n).refcou := hn
      rw [huref] at hn'
      refine (h.refcou n hn').imp_right fun hl => ?_
      show u.live n = true
      rw [hulive]
      exact hl
    · have hm := congrArg BddNode.mark (hbody n)
      exact Eq.trans hm (htmark n)
    · show (u.key n).level < 2 ^ 21
      rw [hukey]
      by_cases hn : n < s.bddnodesize ∨ size ≤ n
      · rw [hkeylt n hn]
        exact h.level n
      · rw [hkeynew n (by omega) (by omega)]
        exact Nat.two_pow_pos 21
    · show (u.key n).level ≠ maxlevel
      have hl' : u.live n = false := hl
      rw [hulive] at hl'
      rw [hukey]
      by_cases hn' : n < s.bddnodesize ∨ size ≤ n
      · rw [hkeylt n hn']
        exact h.free n hn hl'
      · rw [hkeynew n (by omega) (by omega)]
        decide
    · show Threaded 2 u.bddnodesize (u.live · = true) (u.bucket D) u.links
      rw [husize]
      refine hthr.congr (fun n _ _ => ?_) fun n _ _ _ => ?_
      · rw [hulive, htlive]
      · exact BddState.bucket_congr (hukey n) hrest.nodesize fun _ _ => by rw [hterm]
    · have hn' : s.live n = true := by rw [← hulive]; exact hn
      have hm' : s.live m = true := by rw [← hulive]; exact hm
      have hk : u.key n = u.key m := hnm
      have hp' : (u.key n).level ≠ maxlevel ∨ D.domaintype.notShort = false := hp
      rw [huold n (Or.inr hn')] at hk hp'
      rw [huold m (Or.inr hm')] at hk
      exact h.unique n m hn' hm' hp' hk
    · show TermInv (u.slot D) flight u.terminals
      rw [huslot, hterm]
      exact h.term
    · have hn' : s.live n = true := by rw [← hulive]; exact hn
      have hlev' : (u.key n).level = maxlevel := hlev
      show (u.key n).low = some 42 ∧ (u.key n).high < 2 ^ 32
      rw [huold n (Or.inr hn')] at hlev' ⊢
      exact h.word hD n hn' hlev'
    · have hn' : s.live n = true := by rw [← hulive]; exact hn
      have hlev' : (u.key n).level = maxlevel := hlev
      show ∃ type < D.typeNumber, (u.key n).low = some type ∧ (D.comparefun type).isSome
      rw [huold n (Or.inr hn')] at hlev' ⊢
      exact h.type hD n hn' hlev'
    · have hi' : u.slot D n = some i := hi
      have hj' : u.slot D m = some j := hj
      rw [huslot] at hi' hj'
      have hv' : u.terminals.values i = some v := hv
      have hw' : u.terminals.values j = some w := hw
      rw [hterm] at hv' hw'
      have hlow' : (u.key n).low = (u.key m).low := hlow
      have hsame' : D.twins ((u.key n).low.getD 0) v w = true := hsame
      rw [huold n (Or.inr (BddState.slot_live hi').1)] at hlow' hsame'
      rw [huold m (Or.inr (BddState.slot_live hj').1)] at hlow'
      exact h.termUnique n m i j v w hi' hj' hlow' hv' hw' hsame'
    · show (u.caches k).Inv
      rw [hcache]
      exact h.caches k
  · show s.bddnodesize ≤ u.bddnodesize
    rw [husize]
    exact hle

end Growth

end MoToBuddy.Bdd
