import MoToBuddy.Evdd.Kernel
import MoToBuddy.Lib.Mark

/-!
# The node table: invariant, collection and growth

`TableInv` is the invariant of the node table. `Held` nodes are those reachable from a
referenced node or from the reference stack; `evdd_gbc` frees exactly the other ones
(`evddGbc_spec`), and `evdd_noderesize` frees none (`evddNoderesize_spec`).
-/

namespace MoToBuddy.Evdd

open CountedLoop Chained Marking

variable {P : Type*}

/-! ## Views of the state -/

/-- The fields of a node that its unique key is made of. -/
structure EvddKey where
  low : Option ℕ
  high : ℕ
  wLow : ValueId
  wHigh : ValueId
  level : ℕ
  deriving DecidableEq, Repr

def EvddNode.key (node : EvddNode) : EvddKey :=
  ⟨node.low, node.high, node.wLow, node.wHigh, node.level⟩

/-- The key of a free slot. -/
def EvddKey.free : EvddKey := ⟨none, 0, evddValueZero, evddValueZero, 0⟩

/-- The key of the terminal. -/
def EvddKey.terminal : EvddKey := ⟨some 0, 0, evddValueZero, evddValueZero, evddMaxlevel⟩

namespace EvddState

variable (s : EvddState P)

/-- The key stored in slot `n`. -/
def key (n : ℕ) : EvddKey := (s.evddnodes n).key

/-- Slot `n` holds a node other than the terminal. -/
def live (n : ℕ) : Bool := n ≠ evddTrueNode && (s.key n).low.isSome

/-- The children of the node in slot `n`. -/
def succ (n : ℕ) : List ℕ :=
  match (s.key n).low with
  | none => []
  | some low => [low, (s.key n).high]

/-- The chains and the free list. -/
def links : Links :=
  ⟨fun n => (s.evddnodes n).hash, fun n => (s.evddnodes n).next, s.evddfreepos, s.evddfreenum⟩

/-- `n` is the terminal or a node of the table. -/
def IsNode (n : ℕ) : Prop := n = 0 ∨ s.live n = true

/-- A node that a collection starts from. -/
def Root (r : ℕ) : Prop := 0 < (s.evddnodes r).refcou ∨ r ∈ s.evddrefstack

/-- A node that a collection must keep. -/
def Held (n : ℕ) : Prop := ∃ r, s.Root r ∧ Reach s.live s.succ r n

variable {s} {s' : EvddState P} {n : ℕ}

theorem live_iff : s.live n = true ↔ n ≠ 0 ∧ ∃ low, (s.key n).low = some low := by
  simp [live, Option.isSome_iff_exists]

theorem live_congr (h : s'.key n = s.key n) : s'.live n = s.live n := by
  rw [live, live, h]

theorem succ_congr (h : s'.key n = s.key n) : s'.succ n = s.succ n := by
  rw [succ, succ, h]

theorem bucket_eq {key : EvddKey} (h : s.key n = key) :
    s.bucket n = evddNodehash s.evddnodesize key.level (key.low.getD 0) key.high key.wLow
      key.wHigh := by
  rw [← h]
  rfl

theorem bucket_congr (h : s'.key n = s.key n) (hsize : s'.evddnodesize = s.evddnodesize) :
    s'.bucket n = s.bucket n := by
  rw [bucket_eq h, bucket_eq rfl, hsize]

theorem Held.live (h : s.Held n) : s.live n = true := by
  obtain ⟨r, -, hr⟩ := h
  exact hr.live_right

theorem Held.child (h : s.Held n) {m : ℕ} (hm : m ∈ s.succ n) (hl : s.live m = true) :
    s.Held m := by
  obtain ⟨r, hr, hrn⟩ := h
  exact ⟨r, hr, hrn.step hm hl⟩

/-- Nodes stay held if their keys and roots stay. -/
theorem Held.congr (hkey : ∀ n, s.Held n → s'.key n = s.key n)
    (hroot : ∀ r, s.Root r → s.live r = true → s'.Held r) (h : s.Held n) : s'.Held n := by
  obtain ⟨r, hr, hrn⟩ := h
  obtain ⟨r', hr', hrr⟩ := hroot r hr hrn.live_left
  refine ⟨r', hr', hrr.trans (hrn.congr fun m hm => ?_)⟩
  have hk := hkey m ⟨r, hr, hm⟩
  exact ⟨(live_congr hk).trans hm.live_right, succ_congr hk⟩

end EvddState

/-- Everything but the slots, the free list and the operator cache is as it was. -/
structure SameRest (s s' : EvddState P) : Prop where
  running : s'.evddrunning = s.evddrunning
  nodesize : s'.evddnodesize = s.evddnodesize
  maxnodesize : s'.evddmaxnodesize = s.evddmaxnodesize
  produced : s'.evddproduced = s.evddproduced
  refstack : s'.evddrefstack = s.evddrefstack
  opRunning : s'.evddOpRunning = s.evddOpRunning
  values : s'.values = s.values
  errors : s'.errors = s.errors

/-! ## The invariant -/

/-- The invariant of the node table. A node's bucket and its uniqueness are only promised
under `q`, for callers whose levels fit into their field. -/
structure TableInv (q : Prop) (s : EvddState P) : Prop where
  running : s.evddrunning = true ∧ s.evddOpRunning = true
  size : 2 ≤ s.evddnodesize
  terminal : s.key evddTrueNode = .terminal
  beyond : ∀ n, s.evddnodesize ≤ n → s.live n = false
  refcou : ∀ n, 0 < (s.evddnodes n).refcou → n = 0 ∨ s.live n = true
  mark : ∀ n, (s.evddnodes n).mark = false
  level : ∀ n, (s.key n).level < 2 ^ 21
  table : ∃ bucket, Threaded 1 s.evddnodesize (s.live · = true) bucket s.links ∧
    (q → ∀ n, s.live n = true → bucket n = s.bucket n)
  unique : q → ∀ n m, s.live n = true → s.live m = true → s.key n = s.key m → n = m
  cacheSize : 0 < s.evddApplycache.tablesize
  cacheGen : s.evddApplycache.currentGeneration ≠ 0 ∧
    ∀ i, (s.evddApplycache.table i).generation ≤ s.evddApplycache.currentGeneration

/-- The nodes form a graph without dangling edges or cycles, and whatever is on the
reference stack or in the operator cache is a node. Unlike `TableInv` it depends on the
callers passing in nodes that exist. -/
structure GraphInv (s : EvddState P) : Prop where
  child : ∀ n, s.live n = true → ∀ m ∈ s.succ n, s.IsNode m
  rank : ∃ rank : ℕ → ℕ, rank 0 = 0 ∧ ∀ n, s.live n = true → rank n ≤ s.evddproduced ∧
    ∀ m ∈ s.succ n, rank m < rank n
  stack : ∀ n ∈ s.evddrefstack, s.IsNode n
  cacheLive : ∀ i, s.evddApplycache.isValid i = true →
    ∀ n ∈ [(s.evddApplycache.table i).aNode, (s.evddApplycache.table i).bNode,
      (s.evddApplycache.table i).resNode], s.IsNode n

/-! ## Linking -/

section Links

variable (s : EvddState P)

/-- A node without its place in a list. -/
def EvddNode.body (node : EvddNode) : EvddNode := { node with hash := 0, next := 0 }

theorem EvddNode.key_of_body {a b : EvddNode} (h : a.body = b.body) : a.key = b.key := by
  have h' := congrArg EvddNode.key h
  exact h'

theorem body_chainIn (n b m : ℕ) :
    ((s.chainIn n b).evddnodes m).body = (s.evddnodes m).body := by
  simp only [EvddState.chainIn, EvddState.setNode, Function.update_apply]
  split
  · rename_i h
    subst h
    split <;> rename_i h
    · rw [h]; rfl
    · rfl
  · split <;> rename_i h
    · rw [h]; rfl
    · rfl

theorem links_chainIn (n b : ℕ) : (s.chainIn n b).links = s.links.insert b n := by
  ext m
  · simp only [EvddState.links, Links.insert, EvddState.chainIn, EvddState.setNode,
      Function.update_apply]
    by_cases hb : m = b
    · rw [if_pos hb, if_pos hb]
    · rw [if_neg hb, if_neg hb]
      split <;> rename_i h
      · rw [h]
      · rfl
  · simp only [EvddState.links, Links.insert, EvddState.chainIn, EvddState.setNode,
      Function.update_apply]
    by_cases hb : m = b
    · subst hb
      rw [if_pos rfl]
      split <;> rfl
    · rw [if_neg hb]
      split <;> rfl
  · rfl
  · rfl

/-- Rewriting the body of a node leaves the lists alone. -/
theorem links_setNode {n : ℕ} {node : EvddNode} (hhash : node.hash = (s.evddnodes n).hash)
    (hnext : node.next = (s.evddnodes n).next) : (s.setNode n node).links = s.links := by
  ext m
  · simp only [EvddState.links, EvddState.setNode, Function.update_apply]
    split <;> rename_i h
    · rw [hhash, h]
    · rfl
  · simp only [EvddState.links, EvddState.setNode, Function.update_apply]
    split <;> rename_i h
    · rw [hnext, h]
    · rfl
  · rfl
  · rfl

end Links

/-! ## Marking -/

section Mark

variable (s : EvddState P)

/-- The state with the marks of `M`. -/
def EvddState.withMarks (M : ℕ → Bool) : EvddState P :=
  { s with evddnodes := fun n => { s.evddnodes n with mark := M n } }

def EvddState.marks : ℕ → Bool := fun n => (s.evddnodes n).mark

theorem withMarks_marks : s.withMarks s.marks = s := rfl

/-- `evdd_mark` is the depth-first marker of the graph of live nodes. -/
theorem evddMark_eq (fuel i : ℕ) (M : ℕ → Bool) :
    evddMark fuel i (s.withMarks M) = s.withMarks (dfs s.live s.succ fuel i M) := by
  induction fuel generalizing i M with
  | zero => rfl
  | succ fuel ih =>
    rw [evddMark, dfs]
    by_cases hi : i = evddTrueNode
    · have hl : s.live i = false := by simp [EvddState.live, hi]
      rw [if_pos hi, hl]
      rfl
    · rw [if_neg hi]
      have hlow : ((s.withMarks M).evddnodes i).low = (s.key i).low := rfl
      rw [hlow]
      cases hk : (s.key i).low with
      | none =>
        have hl : s.live i = false := by simp [EvddState.live, hk]
        rw [hl]
        rfl
      | some low =>
        have hl : s.live i = true := by simp [EvddState.live, hk, hi]
        have hsucc : s.succ i = [low, (s.key i).high] := by rw [EvddState.succ, hk]
        simp only [hl, Bool.not_true, Bool.false_or, hsucc, List.foldl_cons, List.foldl_nil]
        have hmark : ((s.withMarks M).evddnodes i).mark = M i := rfl
        rw [hmark]
        cases hM : M i with
        | true => rfl
        | false =>
          have hset : (s.withMarks M).setNode i
              { (s.withMarks M).evddnodes i with mark := true } =
              s.withMarks (Function.update M i true) := by
            simp only [EvddState.withMarks, EvddState.setNode]
            congr 1
            funext m
            simp only [Function.update_apply]
            split <;> rename_i h
            · rw [h]
            · rfl
          simp only [Bool.false_eq_true, if_false, hset, ih]
          rfl

/-- Clear the buckets below `k`. -/
def EvddState.clearBuckets (k : ℕ) : EvddState P :=
  { s with evddnodes := fun n =>
      if n < k then { s.evddnodes n with hash := 0 } else s.evddnodes n }

theorem clearBuckets_succ (k : ℕ) :
    (s.clearBuckets k).setNode k { (s.clearBuckets k).evddnodes k with hash := 0 } =
      s.clearBuckets (k + 1) := by
  simp only [EvddState.clearBuckets, EvddState.setNode]
  congr 1
  funext m
  simp only [Function.update_apply]
  by_cases hm : m = k
  · simp [hm]
  · have : m < k + 1 ↔ m < k := by omega
    simp [hm, this]

theorem clearBuckets_key (k n : ℕ) : (s.clearBuckets k).key n = s.key n := by
  simp only [EvddState.key, EvddState.clearBuckets]
  split <;> rfl

theorem clearBuckets_live (k : ℕ) : (s.clearBuckets k).live = s.live :=
  funext fun n => EvddState.live_congr (clearBuckets_key s k n)

theorem clearBuckets_succs (k : ℕ) : (s.clearBuckets k).succ = s.succ :=
  funext fun n => EvddState.succ_congr (clearBuckets_key s k n)

/-- The referenced nodes below `k`. -/
def EvddState.refRoots (k : ℕ) : List ℕ :=
  (List.range k).filter fun n => (s.evddnodes n).refcou > 0

/-- The first two loops of `evdd_gbc`. -/
theorem gbcMark_eq (fuel : ℕ) (M : ℕ → Bool) :
    forUp 0 s.evddnodesize (gbcMarkStep fuel) (s.withMarks M) =
      (s.clearBuckets s.evddnodesize).withMarks
        (markAll s.live s.succ fuel (s.refRoots s.evddnodesize) M) := by
  have hloop := forUp_induct (a := 0) (k := s.evddnodesize) (f := gbcMarkStep fuel)
    (s := s.withMarks M)
    (fun k t => t = (s.clearBuckets k).withMarks
      (markAll s.live s.succ fuel (s.refRoots k) M))
    rfl ?_
  · rwa [Nat.zero_add] at hloop
  · rintro n t - - rfl
    set M' := markAll s.live s.succ fuel (s.refRoots n) M with hM'
    have hroots : s.refRoots (n + 1) = s.refRoots n ++
        (if (s.evddnodes n).refcou > 0 then [n] else []) := by
      rw [EvddState.refRoots, List.range_succ, List.filter_append, EvddState.refRoots]
      congr 1
      by_cases h : (s.evddnodes n).refcou > 0 <;> simp [h]
    have hmarked : (if (((s.clearBuckets n).withMarks M').evddnodes n).refcou > 0 then
        evddMark fuel n ((s.clearBuckets n).withMarks M') else (s.clearBuckets n).withMarks M') =
        (s.clearBuckets n).withMarks (markAll s.live s.succ fuel (s.refRoots (n + 1)) M) := by
      have hr : (((s.clearBuckets n).withMarks M').evddnodes n).refcou =
          (s.evddnodes n).refcou := by
        simp only [EvddState.withMarks, EvddState.clearBuckets, lt_irrefl, if_false]
      rw [hr, hroots, markAll, List.foldl_append]
      by_cases h : (s.evddnodes n).refcou > 0
      · rw [if_pos h, if_pos h, evddMark_eq, clearBuckets_live, clearBuckets_succs]
        rfl
      · rw [if_neg h, if_neg h]
        rfl
    rw [gbcMarkStep, hmarked, ← clearBuckets_succ]
    simp only [EvddState.withMarks, EvddState.setNode]
    congr 1
    funext m
    simp only [Function.update_apply]
    split <;> rename_i h
    · rw [h]
    · rfl

theorem stackMark_eq (fuel : ℕ) (l : List ℕ) (M : ℕ → Bool) :
    l.foldl (fun s i => evddMark fuel i s) (s.withMarks M) =
      s.withMarks (markAll s.live s.succ fuel l M) := by
  induction l generalizing M with
  | nil => rfl
  | cons i l ih =>
    rw [List.foldl_cons, evddMark_eq, ih]
    rfl

/-- The set of nodes `evdd_gbc` marks. -/
def gbcMarks : ℕ → Bool :=
  markAll s.live s.succ (s.evddnodesize + 1)
    (s.refRoots s.evddnodesize ++ s.evddrefstack.reverse) s.marks

variable {s} {q : Prop}

theorem TableInv.live_lt (h : TableInv q s) {n : ℕ} (hn : s.live n = true) :
    n < s.evddnodesize := by
  by_contra hge
  rw [h.beyond n (by omega)] at hn
  exact Bool.false_ne_true hn

/-- Exactly the held nodes are marked. -/
theorem gbcMarks_iff (h : TableInv q s) (n : ℕ) : gbcMarks s n = true ↔ s.Held n := by
  have hmarks : Marks s.live s.succ (s.refRoots s.evddnodesize ++ s.evddrefstack.reverse)
      s.marks (gbcMarks s) :=
    markAll_marks (fun n hn => h.live_lt hn) _ _ (Nat.lt_succ_of_le (unmarked_le _ _))
  rw [hmarks.iff_reach h.mark n]
  constructor
  · rintro ⟨r, hr, hrn⟩
    refine ⟨r, ?_, hrn⟩
    rcases List.mem_append.mp hr with hr | hr
    · left
      simpa using (List.mem_filter.mp hr).2
    · exact Or.inr (List.mem_reverse.mp hr)
  · rintro ⟨r, hr, hrn⟩
    refine ⟨r, List.mem_append.mpr ?_, hrn⟩
    rcases hr with hr | hr
    · left
      exact List.mem_filter.mpr ⟨List.mem_range.mpr (h.live_lt hrn.live_left), by simpa using hr⟩
    · exact Or.inr (List.mem_reverse.mpr hr)

end Mark

/-! ## Collection -/

section Collection

variable {s : EvddState P} {q : Prop}

/-- The body `evdd_gbc` leaves in slot `m`. -/
def sweptBody (s : EvddState P) (m : ℕ) : EvddNode :=
  if 1 ≤ m ∧ m < s.evddnodesize ∧ gbcMarks s m = false then .free 0 0 else (s.evddnodes m).body

/-- The state between the marking and the sweeping loops of `evdd_gbc`. -/
def gbcMarked (s : EvddState P) : EvddState P :=
  { (s.clearBuckets s.evddnodesize).withMarks (gbcMarks s) with
    evddfreepos := 0
    evddfreenum := 0 }

theorem evddGbc_eq (hrun : s.evddrunning = true) :
    evddGbc s = evddOperatorReset
      (forDown 1 (s.evddnodesize - 1) gbcSweepStep (gbcMarked s)) := by
  have hmarks := gbcMark_eq s (s.evddnodesize + 1) s.marks
  rw [withMarks_marks] at hmarks
  rw [evddGbc, hrun]
  simp only [Bool.not_true, Bool.false_eq_true, if_false, hmarks]
  have hstack := stackMark_eq (s.clearBuckets s.evddnodesize) (s.evddnodesize + 1)
    s.evddrefstack.reverse (markAll s.live s.succ (s.evddnodesize + 1)
      (s.refRoots s.evddnodesize) s.marks)
  rw [clearBuckets_live, clearBuckets_succs] at hstack
  have hmark : gbcMarks s = markAll s.live s.succ (s.evddnodesize + 1) s.evddrefstack.reverse
      (markAll s.live s.succ (s.evddnodesize + 1) (s.refRoots s.evddnodesize) s.marks) := by
    rw [gbcMarks, markAll, markAll, markAll, List.foldl_append]
  have hrefs : ((s.clearBuckets s.evddnodesize).withMarks (markAll s.live s.succ
      (s.evddnodesize + 1) (s.refRoots s.evddnodesize) s.marks)).evddrefstack =
      s.evddrefstack := rfl
  rw [hrefs, hstack, gbcMarked, hmark]
  rfl

/-- The sweep: its effect on the slots, and the lists it builds. -/
theorem gbcSweep_spec (h : TableInv q s) :
    let t := forDown 1 (s.evddnodesize - 1) gbcSweepStep (gbcMarked s)
    SameRest s t ∧ t.evddApplycache = s.evddApplycache ∧
    (∀ m, (t.evddnodes m).body = sweptBody s m) ∧
    Threaded 1 s.evddnodesize (gbcMarks s · = true) s.bucket t.links := by
  have hlive : ∀ m, gbcMarks s m = true → s.live m = true := fun m hm =>
    ((gbcMarks_iff h m).mp hm).live
  have hsize := h.size
  have hbody : ∀ m, gbcMarks s m = false →
      { (s.evddnodes m).body with mark := gbcMarks s m } = (s.evddnodes m).body := by
    intro m hm
    rw [hm, ← h.mark m]
    rfl
  have hloop := forDown_induct (a := 1) (k := s.evddnodesize - 1) (f := gbcSweepStep)
    (s := gbcMarked s)
    (fun n t => SameRest s t ∧ t.evddApplycache = s.evddApplycache ∧
      (∀ m, (t.evddnodes m).body = if n ≤ m ∧ m < s.evddnodesize then sweptBody s m
        else { (s.evddnodes m).body with mark := gbcMarks s m }) ∧
      Threaded n s.evddnodesize (gbcMarks s · = true) s.bucket t.links) ?_ ?_
  · obtain ⟨hrest, hcache, hb, ht⟩ := hloop
    refine ⟨hrest, hcache, fun m => ?_, ht⟩
    rw [hb m]
    split
    · rfl
    · rename_i hm
      have hnot : gbcMarks s m = false := by
        by_contra hc
        have hl := hlive m (by simpa using hc)
        have := h.live_lt hl
        have := (EvddState.live_iff.mp hl).1
        omega
      rw [hbody m hnot, sweptBody, if_neg (by omega)]
  · have heq : 1 + (s.evddnodesize - 1) = s.evddnodesize := by omega
    rw [heq]
    refine ⟨⟨rfl, rfl, rfl, rfl, rfl, rfl, rfl, rfl⟩, rfl, fun m => ?_,
      Threaded.rebuild_start (fun b hb => ?_) rfl rfl⟩
    · rw [if_neg (by omega)]
      simp only [gbcMarked, EvddState.withMarks, EvddState.clearBuckets]
      split <;> rfl
    · change (if b < s.evddnodesize then { s.evddnodes b with hash := 0 }
        else s.evddnodes b).hash = 0
      rw [if_pos hb]
  · rintro n t hn hns ⟨hrest, hcache, hb, ht⟩
    have hns' : n < s.evddnodesize := by omega
    have hbn : (t.evddnodes n).body = { (s.evddnodes n).body with mark := gbcMarks s n } := by
      rw [hb n, if_neg (by omega)]
    have hmark : (t.evddnodes n).mark = gbcMarks s n := congrArg EvddNode.mark hbn
    have hkey : t.key n = s.key n := by
      have := congrArg EvddNode.key hbn
      exact this
    have hlow : (t.evddnodes n).low = (s.key n).low := congrArg EvddKey.low hkey
    have hother : ∀ m, m ≠ n →
        (if n ≤ m ∧ m < s.evddnodesize then sweptBody s m
          else { (s.evddnodes m).body with mark := gbcMarks s m }) =
        (if n + 1 ≤ m ∧ m < s.evddnodesize then sweptBody s m
          else { (s.evddnodes m).body with mark := gbcMarks s m }) := by
      intro m hm
      have hiff : (n ≤ m ∧ m < s.evddnodesize) ↔ (n + 1 ≤ m ∧ m < s.evddnodesize) := by omega
      simp only [hiff]
    have hstep := ht.rebuildStep (by omega) hns'
    simp only [gbcSweepStep]
    cases hM : gbcMarks s n with
    | true =>
      obtain ⟨low, hlow'⟩ := (EvddState.live_iff.mp (hlive n hM)).2
      have hc : ((t.evddnodes n).mark && (t.evddnodes n).low.isSome) = true := by
        rw [hmark, hM, hlow, hlow']
        rfl
      rw [if_pos hc]
      set t' := t.setNode n { t.evddnodes n with mark := false } with ht'
      have hlinks : t'.links = t.links := links_setNode t rfl rfl
      have hkey' : t'.key n = s.key n := by
        rw [← hkey]
        simp [ht', EvddState.key, EvddState.setNode, EvddNode.key]
      rw [EvddState.bucket_congr hkey' hrest.nodesize]
      refine ⟨{ hrest with }, hcache, fun m => ?_, ?_⟩
      · rw [body_chainIn]
        by_cases hm : m = n
        · subst hm
          rw [if_pos ⟨le_rfl, hns'⟩, sweptBody, if_neg (by simp [hM])]
          have hm0 := h.mark m
          simp only [ht', EvddState.setNode, Function.update_self]
          have : ({ t.evddnodes m with mark := false } : EvddNode).body =
              { (t.evddnodes m).body with mark := false } := rfl
          rw [this, hbn, ← hm0]
          rfl
        · rw [hother m hm, ← hb m]
          simp [ht', EvddState.setNode, hm]
      · rw [links_chainIn, hlinks]
        rw [Links.rebuildStep, if_pos hM] at hstep
        exact hstep
    | false =>
      have hc : ¬ ((t.evddnodes n).mark && (t.evddnodes n).low.isSome) = true := by
        rw [hmark, hM]
        exact Bool.false_ne_true
      rw [if_neg hc]
      refine ⟨{ hrest with }, hcache, fun m => ?_, ?_⟩
      · simp only [EvddState.setNode, Function.update_apply]
        by_cases hm : m = n
        · subst hm
          rw [if_pos rfl, if_pos ⟨le_rfl, hns'⟩, sweptBody, if_pos ⟨hn, hns', hM⟩]
          rfl
        · rw [if_neg hm, hother m hm, hb m]
      · rw [Links.rebuildStep, if_neg (by simp [hM])] at hstep
        refine cast ?_ hstep
        congr 1
        ext m
        · simp only [EvddState.links, Links.release, EvddState.setNode, Function.update_apply]
          split <;> rename_i hm
          · rw [hm]; rfl
          · rfl
        · simp only [EvddState.links, Links.release, EvddState.setNode, Function.update_apply]
          split <;> rfl
        · rfl
        · rfl

/-- `EvddCache_reset` leaves no valid entry, also when the generation wraps. -/
theorem EvddCache.reset_spec {c : EvddCache}
    (hgen : ∀ i, (c.table i).generation ≤ c.currentGeneration) :
    c.reset.tablesize = c.tablesize ∧ c.reset.currentGeneration ≠ 0 ∧
    (∀ i, (c.reset.table i).generation ≤ c.reset.currentGeneration) ∧
    ∀ i, c.reset.isValid i = false := by
  rw [EvddCache.reset]
  by_cases h0 : c.currentGeneration + 1 = 0
  · rw [if_pos h0]
    exact ⟨rfl, (by decide : (1 : UInt32) ≠ 0), fun _ => (by decide : (0 : UInt32) ≤ 1),
      fun _ => (by decide : decide ((0 : UInt32) = 1) = false)⟩
  · rw [if_neg h0]
    have hlt : c.currentGeneration < c.currentGeneration + 1 := by
      rw [UInt32.lt_iff_toNat_lt, UInt32.toNat_add]
      have hb := c.currentGeneration.toNat_lt
      have hne : (c.currentGeneration.toNat + 1) % 2 ^ 32 ≠ 0 := fun he => h0 (by
        apply UInt32.toNat_inj.mp
        rw [UInt32.toNat_add]
        exact he)
      have h1 : (1 : UInt32).toNat = 1 := rfl
      rw [h1]
      omega
    have hle : ∀ i, (c.table i).generation < c.currentGeneration + 1 := fun i =>
      UInt32.lt_of_le_of_lt (hgen i) hlt
    refine ⟨rfl, h0, fun i => UInt32.le_of_lt (hle i), fun i => ?_⟩
    simpa [EvddCache.isValid] using UInt32.ne_of_lt (hle i)

/-- What `evdd_gbc` does: the held nodes stay as they are, all other slots are free, and the
operator cache is flushed. -/
structure Collected (s s' : EvddState P) : Prop where
  rest : SameRest s s'
  live : ∀ n, s'.live n = true ↔ s.Held n
  key : ∀ n, s.Held n → s'.key n = s.key n
  other : ∀ n, s'.key n = s.key n ∨ s'.key n = .free
  refcou : ∀ n, (s'.evddnodes n).refcou = (s.evddnodes n).refcou
  cache : ∀ i, s'.evddApplycache.isValid i = false

theorem sweptBody_held (h : TableInv q s) {n : ℕ} (hn : s.Held n) :
    sweptBody s n = (s.evddnodes n).body := by
  rw [sweptBody, if_neg]
  rw [(gbcMarks_iff h n).mpr hn]
  simp

theorem evddGbc_spec (h : TableInv q s) :
    TableInv q (evddGbc s) ∧ Collected s (evddGbc s) := by
  obtain ⟨hrest, hcache, hbody, hthr⟩ := gbcSweep_spec h
  set t := forDown 1 (s.evddnodesize - 1) gbcSweepStep (gbcMarked s) with ht
  obtain ⟨hcsize, hcgen, hcle, hcinv⟩ := EvddCache.reset_spec h.cacheGen.2
  have hs' : evddGbc s = { t with evddApplycache := s.evddApplycache.reset } := by
    rw [evddGbc_eq h.running.1, ← ht, evddOperatorReset, hrest.opRunning, h.running.2, hcache]
    rfl
  set s' := evddGbc s
  have hbody' : ∀ n, (s'.evddnodes n).body = sweptBody s n := by
    rw [hs']
    exact hbody
  have hsize' : s'.evddnodesize = s.evddnodesize := by
    rw [hs']
    exact hrest.nodesize
  have hkey : ∀ n, s.Held n → s'.key n = s.key n := fun n hn =>
    EvddNode.key_of_body ((hbody' n).trans (sweptBody_held h hn))
  have hother : ∀ n, s'.key n = s.key n ∨ s'.key n = .free := by
    intro n
    have hb := hbody' n
    rw [sweptBody] at hb
    split at hb
    · have hk := congrArg EvddNode.key hb
      exact Or.inr hk
    · exact Or.inl (EvddNode.key_of_body hb)
  have hlive : ∀ n, s'.live n = true ↔ s.Held n := by
    intro n
    constructor
    · intro hn
      by_contra hheld
      have hmark : gbcMarks s n = false := by
        rw [← Bool.not_eq_true, gbcMarks_iff h]
        exact hheld
      obtain ⟨hn0, low, hlow⟩ := EvddState.live_iff.mp hn
      by_cases hns : n < s.evddnodesize
      · have hb := hbody' n
        rw [sweptBody, if_pos ⟨by omega, hns, hmark⟩] at hb
        have : (s'.key n).low = none := congrArg EvddNode.low hb
        rw [hlow] at this
        exact Option.some_ne_none _ this
      · have hb := hbody' n
        rw [sweptBody, if_neg (by omega)] at hb
        rw [EvddState.live_congr (EvddNode.key_of_body hb), h.beyond n (by omega)] at hn
        exact Bool.false_ne_true hn
    · intro hn
      rw [EvddState.live_congr (hkey n hn)]
      exact hn.live
  have hrefcou : ∀ n, (s'.evddnodes n).refcou = (s.evddnodes n).refcou := by
    intro n
    have hb := hbody' n
    rw [sweptBody] at hb
    split at hb
    · rename_i hc
      have h0 : (s'.evddnodes n).refcou = 0 := congrArg EvddNode.refcou hb
      rw [h0]
      by_contra hne
      have hpos : 0 < (s.evddnodes n).refcou := by omega
      have hl := (h.refcou n hpos).resolve_left (by omega)
      have := (gbcMarks_iff h n).mpr ⟨n, Or.inl hpos, .refl hl⟩
      rw [hc.2.2] at this
      exact Bool.false_ne_true this
    · have hr := congrArg EvddNode.refcou hb
      exact hr
  refine ⟨?_, ⟨?_, hlive, hkey, hother, hrefcou, by rw [hs']; exact hcinv⟩⟩
  · refine
      { running := ?_, size := ?_, terminal := ?_, beyond := ?_, refcou := ?_, mark := ?_,
        level := ?_, table := ?_, unique := ?_, cacheSize := ?_, cacheGen := ?_ }
    · rw [hs']
      exact ⟨hrest.running.trans h.running.1, hrest.opRunning.trans h.running.2⟩
    · rw [hsize']
      exact h.size
    · have hb := hbody' evddTrueNode
      rw [sweptBody, if_neg (by simp)] at hb
      rw [show s'.key evddTrueNode = s.key evddTrueNode from EvddNode.key_of_body hb]
      exact h.terminal
    · intro n hn
      rw [hsize'] at hn
      rw [← Bool.not_eq_true, hlive]
      intro hheld
      have := h.live_lt hheld.live
      omega
    · intro n hn
      rw [hrefcou] at hn
      refine (h.refcou n hn).imp id fun hl => ?_
      exact (hlive n).mpr ⟨n, Or.inl hn, .refl hl⟩
    · intro n
      have hb := congrArg EvddNode.mark (hbody' n)
      rw [sweptBody] at hb
      split at hb
      · exact hb
      · exact hb.trans (h.mark n)
    · intro n
      rcases hother n with hk | hk <;> rw [hk]
      · exact h.level n
      · exact Nat.two_pow_pos 21
    · refine ⟨s'.bucket, ?_, fun _ _ _ => rfl⟩
      rw [hsize', hs']
      rw [hs'] at hkey hlive hsize'
      refine hthr.congr (fun n _ _ => (hlive n).trans (gbcMarks_iff h n).symm) fun n _ _ hn => ?_
      exact EvddState.bucket_congr (hkey n ((gbcMarks_iff h n).mp hn)) hsize'
    · intro hq n m hn hm hnm
      have hn' := (hlive n).mp hn
      have hm' := (hlive m).mp hm
      rw [hkey n hn', hkey m hm'] at hnm
      exact h.unique hq n m hn'.live hm'.live hnm
    · rw [hs']
      exact hcsize ▸ h.cacheSize
    · rw [hs']
      exact ⟨hcgen, hcle⟩
  · rw [hs']
    exact { hrest with }

theorem GraphInv.collected {s' : EvddState P} (hg : GraphInv s) (hc : Collected s s') :
    GraphInv s' := by
  have hsucc : ∀ n, s.Held n → s'.succ n = s.succ n := fun n hn =>
    EvddState.succ_congr (hc.key n hn)
  refine ⟨fun n hn m hm => ?_, ?_, fun n hn => ?_, fun i hi => ?_⟩
  · have hheld := (hc.live n).mp hn
    rw [hsucc n hheld] at hm
    exact (hg.child n hheld.live m hm).imp id fun hl => (hc.live m).mpr (hheld.child hm hl)
  · obtain ⟨rank, hr0, hr⟩ := hg.rank
    refine ⟨rank, hr0, fun n hn => ?_⟩
    have hheld := (hc.live n).mp hn
    rw [hc.rest.produced, hsucc n hheld]
    exact hr n hheld.live
  · rw [hc.rest.refstack] at hn
    exact (hg.stack n hn).imp id fun hl => (hc.live n).mpr ⟨n, Or.inr hn, .refl hl⟩
  · rw [hc.cache i] at hi
    exact absurd hi Bool.false_ne_true

end Collection

/-! ## Growth -/

section Growth

variable {s : EvddState P} {q : Prop}

theorem isFree_eq {n : ℕ} (hn : n ≠ 0) : s.isFree n = !s.live n := by
  cases h : (s.evddnodes n).low <;> simp [EvddState.isFree, EvddState.live, EvddState.key,
    EvddNode.key, h, hn]

/-- `evdd_rehash` builds the chains of the live nodes and leaves the free list alone. -/
theorem evddRehash_spec (hsize : 2 ≤ s.evddnodesize)
    (hfree : FreeList 1 s.evddnodesize (s.live · = true) s.links) :
    SameRest s (evddRehash s) ∧ (evddRehash s).evddApplycache = s.evddApplycache ∧
    (∀ m, ((evddRehash s).evddnodes m).body = (s.evddnodes m).body) ∧
    Threaded 1 s.evddnodesize (s.live · = true) s.bucket (evddRehash s).links := by
  have hclear : forUp 0 s.evddnodesize
      (fun n s => s.setNode n { s.evddnodes n with hash := 0 }) s =
      s.clearBuckets s.evddnodesize := by
    have hloop := forUp_induct (a := 0) (k := s.evddnodesize)
      (f := fun n (s : EvddState P) => s.setNode n { s.evddnodes n with hash := 0 }) (s := s)
      (fun k t => t = s.clearBuckets k) ?_ ?_
    · rwa [Nat.zero_add] at hloop
    · simp [EvddState.clearBuckets]
    · rintro n t - - rfl
      exact clearBuckets_succ s n
  rw [evddRehash, hclear]
  have hloop := forDown_induct (a := 1) (k := s.evddnodesize - 1) (f := evddRehashStep)
    (s := s.clearBuckets s.evddnodesize)
    (fun n t => SameRest s t ∧ t.evddApplycache = s.evddApplycache ∧
      (∀ m, (t.evddnodes m).body = (s.evddnodes m).body) ∧
      Chains n s.evddnodesize (s.live · = true) s.bucket t.links ∧
      FreeList 1 s.evddnodesize (s.live · = true) t.links) ?_ ?_
  · obtain ⟨hrest, hcache, hbody, hch, hfr⟩ := hloop
    exact ⟨hrest, hcache, hbody, hch, hfr⟩
  · have heq : 1 + (s.evddnodesize - 1) = s.evddnodesize := by omega
    rw [heq]
    refine ⟨⟨rfl, rfl, rfl, rfl, rfl, rfl, rfl, rfl⟩, rfl, fun m => ?_, fun b hb => ?_, ?_⟩
    · simp only [EvddState.clearBuckets]
      split <;> rfl
    · refine ⟨[], ?_, List.nodup_nil, fun n => ?_⟩
      · simp [EvddState.links, EvddState.clearBuckets, hb]
      · have : ¬ (s.evddnodesize ≤ n ∧ n < s.evddnodesize) := by omega
        simp [this]
    · obtain ⟨l, hc, hrest⟩ := hfree
      refine ⟨l, hc.congr fun n _ => ?_, hrest⟩
      simp only [EvddState.links, EvddState.clearBuckets]
      split <;> rfl
  · rintro n t hn hns ⟨hrest, hcache, hbody, hch, hfr⟩
    have hkey : ∀ m, t.key m = s.key m := fun m => EvddNode.key_of_body (hbody m)
    have hlive : t.live n = s.live n := EvddState.live_congr (hkey n)
    have hstep := hch.rehashStep (by omega) (by omega)
    rw [evddRehashStep, isFree_eq (by omega), hlive]
    cases hl : s.live n with
    | false =>
      rw [hl, if_neg Bool.false_ne_true] at hstep
      exact ⟨hrest, hcache, hbody, hstep, hfr⟩
    | true =>
      rw [hl, if_pos rfl] at hstep
      simp only [Bool.not_true, Bool.false_eq_true, if_false]
      rw [EvddState.bucket_congr (hkey n) hrest.nodesize]
      refine ⟨{ hrest with }, hcache, fun m => ?_, ?_, ?_⟩
      · rw [body_chainIn, hbody m]
      · rw [links_chainIn]
        exact hstep
      · rw [links_chainIn]
        exact hfr.insert (by simp [hl])

/-- What `evdd_noderesize` does: the nodes stay, the table may get more free slots. -/
structure Grown (s s' : EvddState P) : Prop where
  running : s'.evddrunning = s.evddrunning
  opRunning : s'.evddOpRunning = s.evddOpRunning
  nodesize : s.evddnodesize ≤ s'.evddnodesize
  maxnodesize : s'.evddmaxnodesize = s.evddmaxnodesize
  produced : s'.evddproduced = s.evddproduced
  refstack : s'.evddrefstack = s.evddrefstack
  applycache : s'.evddApplycache = s.evddApplycache
  values : s'.values = s.values
  errors : s'.errors = s.errors ∨ s'.errors = .memory :: s.errors
  live : ∀ n, s'.live n = s.live n
  key : ∀ n, s.live n = true → s'.key n = s.key n
  other : ∀ n, s'.key n = s.key n ∨ s'.key n = .free
  refcou : ∀ n, (s'.evddnodes n).refcou = (s.evddnodes n).refcou

/-- A state that shares slots, lists and sizes satisfies the invariant, too. -/
theorem TableInv.congr {s' : EvddState P} (h : TableInv q s)
    (hnodes : s'.evddnodes = s.evddnodes) (hsize : s'.evddnodesize = s.evddnodesize)
    (hrun : s'.evddrunning = s.evddrunning ∧ s'.evddOpRunning = s.evddOpRunning)
    (hfree : s'.evddfreepos = s.evddfreepos ∧ s'.evddfreenum = s.evddfreenum)
    (hcache : s'.evddApplycache = s.evddApplycache) : TableInv q s' := by
  have hkey : ∀ n, s'.key n = s.key n := fun n => by rw [EvddState.key, hnodes]; rfl
  have hlive : s'.live = s.live := funext fun n => EvddState.live_congr (hkey n)
  have hbucket : s'.bucket = s.bucket := funext fun n => EvddState.bucket_congr (hkey n) hsize
  have hlinks : s'.links = s.links := by
    rw [EvddState.links, EvddState.links, hnodes, hfree.1, hfree.2]
  constructor
  · exact ⟨hrun.1.trans h.running.1, hrun.2.trans h.running.2⟩
  · exact hsize ▸ h.size
  · rw [hkey]
    exact h.terminal
  · rw [hsize, hlive]
    exact h.beyond
  · rw [hnodes, hlive]
    exact h.refcou
  · rw [hnodes]
    exact h.mark
  · simp only [hkey]
    exact h.level
  · rw [hsize, hlive, hlinks, hbucket]
    exact h.table
  · simp only [hlive, hkey]
    exact h.unique
  · rw [hcache]
    exact h.cacheSize
  · rw [hcache]
    exact h.cacheGen

theorem evddNoderesize_spec (E : Policy P) (h : TableInv q s) :
    TableInv q (evddNoderesize E s) ∧ Grown s (evddNoderesize E s) := by
  have hrefl : Grown s s :=
    ⟨rfl, rfl, le_rfl, rfl, rfl, rfl, rfl, rfl, Or.inl rfl, fun _ => rfl, fun _ _ => rfl,
      fun _ => Or.inl rfl, fun _ => rfl⟩
  rw [evddNoderesize]
  split
  · exact ⟨h, hrefl⟩
  split
  · exact ⟨h, hrefl⟩
  rename_i hgt
  split
  · exact ⟨h.congr rfl rfl ⟨rfl, rfl⟩ ⟨rfl, rfl⟩ rfl,
      { hrefl with errors := Or.inr rfl }⟩
  set size := evddResizeTarget E s
  have hlt : s.evddnodesize < size := by omega
  set t := evddExtend s size with ht
  have hold : ∀ n, n < s.evddnodesize → t.evddnodes n = { s.evddnodes n with hash := 0 } :=
    fun n hn => if_pos hn
  have hnew : ∀ n, s.evddnodesize ≤ n → n < size →
      t.evddnodes n = .free 0 (if n + 1 = size then s.evddfreepos else n + 1) := by
    intro n h1 h2
    have : t.evddnodes n = if n < s.evddnodesize then { s.evddnodes n with hash := 0 }
      else if n < size then .free 0 (if n + 1 = size then s.evddfreepos else n + 1)
      else s.evddnodes n := rfl
    rw [this, if_neg (by omega), if_pos h2]
  have hfar : ∀ n, size ≤ n → t.evddnodes n = s.evddnodes n := by
    intro n h1
    have : t.evddnodes n = if n < s.evddnodesize then { s.evddnodes n with hash := 0 }
      else if n < size then .free 0 (if n + 1 = size then s.evddfreepos else n + 1)
      else s.evddnodes n := rfl
    rw [this, if_neg (by omega), if_neg (by omega)]
  have hkeylt : ∀ n, n < s.evddnodesize → t.key n = s.key n := by
    intro n hn
    rw [EvddState.key, hold n hn]
    rfl
  have htlive : ∀ n, t.live n = s.live n := by
    intro n
    by_cases hn : n < s.evddnodesize
    · exact EvddState.live_congr (hkeylt n hn)
    · rw [h.beyond n (by omega)]
      by_cases hn' : n < size
      · simp [EvddState.live, EvddState.key, EvddNode.key, hnew n (by omega) hn', EvddNode.free]
      · rw [EvddState.live_congr (s := s)
          (by rw [EvddState.key, hfar n (by omega), EvddState.key]), h.beyond n (by omega)]
  have htref : ∀ n, (t.evddnodes n).refcou = (s.evddnodes n).refcou := by
    intro n
    by_cases hn : n < s.evddnodesize
    · rw [hold n hn]
    · by_cases hn' : n < size
      · rw [hnew n (by omega) hn']
        by_contra hne
        have hpos : 0 < (s.evddnodes n).refcou := by
          have : (EvddNode.free 0 (if n + 1 = size then s.evddfreepos else n + 1)).refcou = 0 :=
            rfl
          omega
        have hsz := h.size
        have := (h.refcou n hpos).resolve_left (by omega)
        rw [h.beyond n (by omega)] at this
        exact Bool.false_ne_true this
      · rw [hfar n (by omega)]
  have htmark : ∀ n, (t.evddnodes n).mark = false := by
    intro n
    by_cases hn : n < s.evddnodesize
    · rw [hold n hn]
      exact h.mark n
    · by_cases hn' : n < size
      · rw [hnew n (by omega) hn']
        rfl
      · rw [hfar n (by omega)]
        exact h.mark n
  obtain ⟨bucket, hthr, -⟩ := h.table
  have htfree : FreeList 1 t.evddnodesize (t.live · = true) t.links := by
    have hlinks : t.links = ⟨fun n => (t.evddnodes n).hash, fun n => (t.evddnodes n).next,
        s.evddnodesize, s.links.freenum + (size - s.evddnodesize)⟩ := rfl
    rw [hlinks]
    refine hthr.free.extend (by have := h.size; omega) hlt (by have := h.size; omega) (fun n _ hn => ?_)
      (fun n hn hn' => ?_) ?_ (fun n _ _ => ?_) (fun n hn _ => ?_) fun n => (t.evddnodes n).hash
    · simp only [hold n hn]
      rfl
    · simp only [hnew n hn (by omega), EvddNode.free]
      rw [if_neg (by omega)]
    · simp only [hnew (size - 1) (by omega) (by omega), EvddNode.free]
      rw [if_pos (by omega)]
      rfl
    · rw [htlive]
    · rw [htlive, h.beyond n hn]
      exact Bool.false_ne_true
  have htsize : t.evddnodesize = size := rfl
  obtain ⟨hrest, hcache, hbody, hthr'⟩ := evddRehash_spec (s := t)
    (by have := h.size; omega) htfree
  have hkey : ∀ n, (evddRehash t).key n = t.key n := fun n => EvddNode.key_of_body (hbody n)
  have hlive : ∀ n, (evddRehash t).live n = s.live n := fun n =>
    (EvddState.live_congr (hkey n)).trans (htlive n)
  have hkey' : ∀ n, s.live n = true → (evddRehash t).key n = s.key n := fun n hn =>
    (hkey n).trans (hkeylt n (h.live_lt hn))
  have hother : ∀ n, (evddRehash t).key n = s.key n ∨ (evddRehash t).key n = .free := by
    intro n
    rw [hkey n]
    by_cases hn : n < s.evddnodesize
    · exact Or.inl (hkeylt n hn)
    · by_cases hn' : n < size
      · right
        rw [EvddState.key, hnew n (by omega) hn']
        rfl
      · left
        rw [EvddState.key, hfar n (by omega)]
        rfl
  have hrefcou : ∀ n, ((evddRehash t).evddnodes n).refcou = (s.evddnodes n).refcou := by
    intro n
    have hr := congrArg EvddNode.refcou (hbody n)
    exact Eq.trans hr (htref n)
  refine ⟨?_, ⟨hrest.running, hrest.opRunning, ?_, hrest.maxnodesize, hrest.produced,
    hrest.refstack, hcache, hrest.values, Or.inl hrest.errors, hlive, hkey', hother, hrefcou⟩⟩
  · refine
      { running := ⟨hrest.running.trans h.running.1, hrest.opRunning.trans h.running.2⟩
        size := ?_, terminal := ?_, beyond := fun n hn => ?_, refcou := fun n hn => ?_,
        mark := fun n => ?_, level := fun n => ?_, table := ?_,
        unique := fun hq n m hn hm hnm => ?_, cacheSize := ?_, cacheGen := ?_ }
    · rw [hrest.nodesize]
      have := h.size
      omega
    · rw [hkey, hkeylt evddTrueNode (by have := h.size; simp only [evddTrueNode]; omega)]
      exact h.terminal
    · rw [hrest.nodesize] at hn
      rw [hlive]
      exact h.beyond n (by omega)
    · rw [hrefcou] at hn
      rw [hlive]
      exact h.refcou n hn
    · have hm := congrArg EvddNode.mark (hbody n)
      exact Eq.trans hm (htmark n)
    · rcases hother n with hk | hk <;> rw [hk]
      · exact h.level n
      · exact Nat.two_pow_pos 21
    · refine ⟨(evddRehash t).bucket, ?_, fun _ _ _ => rfl⟩
      rw [hrest.nodesize]
      refine hthr'.congr (fun n _ _ => ?_) fun n _ _ _ =>
        EvddState.bucket_congr (hkey n) hrest.nodesize
      rw [hlive, htlive]
    · rw [hlive] at hn hm
      rw [hkey' n hn, hkey' m hm] at hnm
      exact h.unique hq n m hn hm hnm
    · rw [hcache]
      exact h.cacheSize
    · rw [hcache]
      exact h.cacheGen
  · rw [hrest.nodesize]
    omega

theorem GraphInv.grown {s' : EvddState P} (hg : GraphInv s) (hgr : Grown s s') :
    GraphInv s' := by
  have hsucc : ∀ n, s.live n = true → s'.succ n = s.succ n := fun n hn =>
    EvddState.succ_congr (hgr.key n hn)
  have hnode : ∀ n, s.IsNode n → s'.IsNode n := fun n hn => by
    rw [EvddState.IsNode, hgr.live]
    exact hn
  refine ⟨fun n hn m hm => ?_, ?_, fun n hn => ?_, fun i hi => ?_⟩
  · rw [hgr.live] at hn
    rw [hsucc n hn] at hm
    exact hnode m (hg.child n hn m hm)
  · obtain ⟨rank, hr0, hr⟩ := hg.rank
    refine ⟨rank, hr0, fun n hn => ?_⟩
    rw [hgr.live] at hn
    rw [hsucc n hn, hgr.produced]
    exact hr n hn
  · rw [hgr.refstack] at hn
    exact hnode n (hg.stack n hn)
  · rw [hgr.applycache] at hi ⊢
    exact fun n hn => hnode n (hg.cacheLive i hi n hn)

end Growth

end MoToBuddy.Evdd
