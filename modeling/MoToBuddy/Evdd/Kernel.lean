import MoToBuddy.Evdd.Value
import MoToBuddy.Lib.Chain
import MoToBuddy.Lib.Loop

/-!
# The EVDD kernel (`evdd_kernel.c`)

The node table of the edge-valued diagrams: unique table, free list, reference stack,
`evdd_makenode` and `evdd_makenode_raw`, `evdd_normalize`, the collectors and the growth of
the table. A node is a slot of `evddnodes`, slot `0` being the 1-terminal; a free slot has
`low = -1`, here `none`.

* `evdd_gbc` and `evdd_noderesize` run inside `evdd_makenode_raw`. When they run, whether
  `realloc` succeeds and which numbers pass the randomised primality test is up to a
  `Policy`; `Policy.onDemand` is what the code does.
* The recursions take a round counter, for which `evddproduced` is enough: a node is
  produced after its children. They return `none` when it is used up or when they read a
  slot that is free, whose `low` is no index.
* Sizes and counters are unbounded; the 21 bits of `level` and the 10 bits of `refcou` are
  not.
-/

namespace MoToBuddy.Evdd

open CountedLoop

/-- `EVDD_TRUE_NODE`: the sole sink. -/
abbrev evddTrueNode : ℕ := 0

/-- `EVDD_MAXLEVEL`. -/
abbrev evddMaxlevel : ℕ := 0x1FFFFF

/-- `EVDD_MAXREF`. -/
abbrev evddMaxref : ℕ := 0x3FF

/-- `EvddNode`. `hash` is the head of the bucket with the slot's number. -/
structure EvddNode where
  low : Option ℕ
  high : ℕ
  wLow : ValueId
  wHigh : ValueId
  refcou : ℕ
  level : ℕ
  mark : Bool
  hash : ℕ
  next : ℕ
  deriving DecidableEq, Repr

/-- `EVDD`: an edge, the node it points to and its weight. -/
structure EVDD where
  node : ℕ
  w : ValueId
  deriving DecidableEq, Repr

/-- `EvddCacheData`. -/
structure EvddCacheData where
  aNode : ℕ
  aW : ValueId
  bNode : ℕ
  bW : ValueId
  op : ℕ
  resNode : ℕ
  resW : ValueId
  generation : UInt32
  deriving DecidableEq, Repr

/-- An entry as `calloc` and `memset` leave it. -/
def EvddCacheData.zero : EvddCacheData := ⟨0, 0, 0, 0, 0, 0, 0, 0⟩

/-- `EvddCache`. -/
structure EvddCache where
  table : ℕ → EvddCacheData
  tablesize : ℕ
  currentGeneration : UInt32

/-- The globals of the EVDD package. `evddrefstack` has its top first. -/
structure EvddState (P : Type*) where
  evddrunning : Bool
  evddnodes : ℕ → EvddNode
  evddnodesize : ℕ
  evddmaxnodesize : ℕ
  evddfreepos : ℕ
  evddfreenum : ℕ
  evddproduced : ℕ
  evddrefstack : List ℕ
  evddOpRunning : Bool
  evddApplycache : EvddCache
  values : ValueTable P
  errors : List BddError

/-- What happens at a miss of the unique table, as a function of the state there. -/
structure Policy (P : Type*) where
  /-- `evdd_gbc` runs. -/
  collect : EvddState P → Bool
  /-- `evdd_noderesize` runs after that. -/
  grow : EvddState P → Bool
  /-- `realloc` succeeds. -/
  realloc : EvddState P → Bool
  /-- The randomised test of `prime.c` takes the number for a prime. -/
  isPrime : EvddState P → ℕ → Bool

/-- `evdd_const`. -/
def evddConst (w : ValueId) : EVDD := ⟨evddTrueNode, w⟩

/-- `evdd_false`. -/
def evddFalse : EVDD := evddConst evddValueZero

/-- A slot of the free list. -/
def EvddNode.free (hash next : ℕ) : EvddNode :=
  ⟨none, 0, evddValueZero, evddValueZero, 0, 0, false, hash, next⟩

section

variable {P : Type*}

/-- The code: collect when no slot is free, grow if that freed none. -/
def Policy.onDemand (realloc : EvddState P → Bool) (isPrime : EvddState P → ℕ → Bool) : Policy P :=
  ⟨fun s => s.evddfreepos = 0, fun s => s.evddfreepos = 0, realloc, isPrime⟩

/-- A table that grows when no slot is free and never collects. -/
def Policy.neverCollect (realloc : EvddState P → Bool) (isPrime : EvddState P → ℕ → Bool) : Policy P :=
  ⟨fun _ => false, fun s => s.evddfreepos = 0, realloc, isPrime⟩

/-! ## State updates -/

/-- `bdd_error`: the handler is told and the caller goes on. -/
def EvddState.error (s : EvddState P) (e : BddError) : EvddState P := { s with errors := e :: s.errors }

/-- Write slot `n`. -/
def EvddState.setNode (s : EvddState P) (n : ℕ) (node : EvddNode) : EvddState P :=
  { s with evddnodes := Function.update s.evddnodes n node }

/-- `EVDD_PUSHREF`. -/
def EvddState.pushref (s : EvddState P) (n : ℕ) : EvddState P :=
  { s with evddrefstack := n :: s.evddrefstack }

/-- `EVDD_POPREF`. -/
def EvddState.popref (s : EvddState P) (k : ℕ) : EvddState P :=
  { s with evddrefstack := s.evddrefstack.drop k }

/-- Run an operation of the value table. -/
def EvddState.withValues {α : Type*} (s : EvddState P) (f : ValueTable P → α × ValueTable P) :
    α × EvddState P :=
  ((f s.values).1, { s with values := (f s.values).2 })

/-- `EVDD_NODEHASH`, with the words of `EVDD_HASHNODE`. -/
@[irreducible] def evddNodehash (size level low high wLow wHigh : ℕ) : ℕ :=
  hashrange (hashFold
    ((hashW2 (.ofNat low) (.ofNat high) ^^^ (UInt32.ofNat level).toUInt64 * hashK1) * hashK0 +
      hashW2 (.ofNat wLow) (.ofNat wHigh) * hashK2)) size

/-- The bucket the key stored in slot `n` hashes to. -/
def EvddState.bucket (s : EvddState P) (n : ℕ) : ℕ :=
  let node := s.evddnodes n
  evddNodehash s.evddnodesize node.level (node.low.getD 0) node.high node.wLow node.wHigh

/-- Put node `n` in front of the chain of bucket `b`. -/
def EvddState.chainIn (s : EvddState P) (n b : ℕ) : EvddState P :=
  let s := s.setNode n { s.evddnodes n with next := (s.evddnodes b).hash }
  s.setNode b { s.evddnodes b with hash := n }

/-- `EVDDISFREE`. -/
def EvddState.isFree (s : EvddState P) (n : ℕ) : Bool := (s.evddnodes n).low.isNone

/-! ## `evdd_init` -/

/-- The state after `evdd_init`, with `size` from `bdd_prime_gte` for the node table and
`cachesize` for the operator cache, over a value table that exists already. -/
def evddInit (size maxsize cachesize : ℕ) (values : ValueTable P) : EvddState P where
  evddrunning := true
  evddnodes n :=
    if n = evddTrueNode then ⟨some 0, 0, evddValueZero, evddValueZero, evddMaxref,
      evddMaxlevel, false, 0, 0⟩
    else .free 0 (if n + 1 = size then 0 else n + 1)
  evddnodesize := size
  evddmaxnodesize := maxsize
  evddfreepos := 1
  evddfreenum := size - 1
  evddproduced := 0
  evddrefstack := []
  evddOpRunning := true
  evddApplycache := ⟨fun _ => .zero, cachesize, 1⟩
  values := values
  errors := []

/-! ## The operator cache -/

/-- `EvddCache_lookup`: the entry's index. -/
def EvddCache.lookup (c : EvddCache) (hash : UInt32) : ℕ := hashrange hash c.tablesize

/-- `EvddCache_is_valid`. -/
def EvddCache.isValid (c : EvddCache) (i : ℕ) : Bool :=
  (c.table i).generation = c.currentGeneration

/-- `EvddCache_store`. -/
def EvddCache.store (c : EvddCache) (i : ℕ) (a b : EVDD) (op : ℕ) (res : EVDD) : EvddCache :=
  { c with
    table := Function.update c.table i
      ⟨a.node, a.w, b.node, b.w, op, res.node, res.w, c.currentGeneration⟩ }

/-- `EvddCache_reset`; the generation is an `int` that wraps. -/
def EvddCache.reset (c : EvddCache) : EvddCache :=
  let generation := c.currentGeneration + 1
  if generation = 0 then
    { c with
      table := fun _ => .zero
      currentGeneration := 1 }
  else { c with currentGeneration := generation }

/-- `evdd_operator_reset`. -/
def evddOperatorReset (s : EvddState P) : EvddState P :=
  if s.evddOpRunning then { s with evddApplycache := s.evddApplycache.reset } else s

/-! ## Collection -/

/-- `evdd_mark`. -/
def evddMark : ℕ → ℕ → EvddState P → EvddState P
  | 0, _, s => s
  | fuel + 1, i, s =>
    if i = evddTrueNode then s
    else match (s.evddnodes i).low with
      | none => s
      | some low =>
        if (s.evddnodes i).mark then s
        else
          let s := s.setNode i { s.evddnodes i with mark := true }
          let s := evddMark fuel low s
          evddMark fuel (s.evddnodes i).high s

/-- The first loop of `evdd_gbc` at slot `n`: mark from a referenced node, clear the
bucket. -/
def gbcMarkStep (fuel n : ℕ) (s : EvddState P) : EvddState P :=
  let s := if (s.evddnodes n).refcou > 0 then evddMark fuel n s else s
  s.setNode n { s.evddnodes n with hash := 0 }

/-- The last loop of `evdd_gbc` at slot `n`: keep a marked node, free any other slot. -/
def gbcSweepStep (n : ℕ) (s : EvddState P) : EvddState P :=
  let node := s.evddnodes n
  if node.mark && node.low.isSome then
    let s := s.setNode n { node with mark := false }
    s.chainIn n (s.bucket n)
  else
    { s.setNode n (.free node.hash s.evddfreepos) with
      evddfreepos := n
      evddfreenum := s.evddfreenum + 1 }

/-- `evdd_gbc`. -/
def evddGbc (s : EvddState P) : EvddState P :=
  if !s.evddrunning then s
  else
    let fuel := s.evddnodesize + 1
    let s := forUp 0 s.evddnodesize (gbcMarkStep fuel) s
    let s := s.evddrefstack.reverse.foldl (fun s i => evddMark fuel i s) s
    let s := { s with evddfreepos := 0, evddfreenum := 0 }
    evddOperatorReset (forDown 1 (s.evddnodesize - 1) gbcSweepStep s)

/-! ## Growth -/

/-- `evdd_rehash` at slot `n`. -/
def evddRehashStep (n : ℕ) (s : EvddState P) : EvddState P :=
  if s.isFree n then s
  else s.chainIn n (s.bucket n)

/-- `evdd_rehash`. -/
def evddRehash (s : EvddState P) : EvddState P :=
  let s := forUp 0 s.evddnodesize
    (fun n s => s.setNode n { s.evddnodes n with hash := 0 }) s
  forDown 1 (s.evddnodesize - 1) evddRehashStep s

/-- The size `evdd_noderesize` aims at. -/
def evddResizeTarget (E : Policy P) (s : EvddState P) : ℕ :=
  let size := min (s.evddnodesize * 2) (s.evddnodesize + 50000)
  bddPrimeLte (E.isPrime s)
    (if size > s.evddmaxnodesize ∧ s.evddmaxnodesize > 0 then s.evddmaxnodesize else size)

/-- The table after `realloc`, with the new slots in front of the free list. -/
def evddExtend (s : EvddState P) (size : ℕ) : EvddState P :=
  { s with
    evddnodes := fun n =>
      if n < s.evddnodesize then { s.evddnodes n with hash := 0 }
      else if n < size then .free 0 (if n + 1 = size then s.evddfreepos else n + 1)
      else s.evddnodes n
    evddnodesize := size
    evddfreepos := s.evddnodesize
    evddfreenum := s.evddfreenum + (size - s.evddnodesize) }

/-- `evdd_noderesize`. -/
def evddNoderesize (E : Policy P) (s : EvddState P) : EvddState P :=
  if s.evddnodesize ≥ s.evddmaxnodesize ∧ s.evddmaxnodesize > 0 then s
  else if evddResizeTarget E s ≤ s.evddnodesize then s
  else if !E.realloc s then s.error .memory
  else evddRehash (evddExtend s (evddResizeTarget E s))

/-! ## `evdd_makenode` -/

variable [DecidableEq P] (T : ValueTypes P) (E : Policy P)

/-- The test of the unique-table lookup. -/
def keyMatches (s : EvddState P) (level : ℕ) (low high : EVDD) (res : ℕ) : Bool :=
  let node := s.evddnodes res
  node.level = level && node.low = some low.node && node.high = high.node &&
    node.wLow = low.w && node.wHigh = high.w

/-- `evdd_makenode_raw` when the lookup missed and a slot is free. -/
def evddInsert (s : EvddState P) (level : ℕ) (low high : EVDD) : ℕ × EvddState P :=
  let res := s.evddfreepos
  let hash := evddNodehash s.evddnodesize level low.node high.node low.w high.w
  let node := s.evddnodes res
  let s := { s with
    evddfreepos := node.next
    evddfreenum := s.evddfreenum - 1
    evddproduced := s.evddproduced + 1 }
  let s := s.setNode res ⟨some low.node, high.node, low.w, high.w, 0, level % 2 ^ 21, false,
    node.hash, node.next⟩
  (res, s.chainIn res hash)

/-- What `evdd_makenode_raw` does about the free list after a miss. -/
def makeRoom (s : EvddState P) : EvddState P :=
  let s := if E.collect s then evddGbc s else s
  if E.grow s then evddNoderesize E s else s

/-- `evdd_makenode_raw`. -/
def evddMakenodeRaw (s : EvddState P) (level : ℕ) (low high : EVDD) : EVDD × EvddState P :=
  if !s.evddrunning then (evddFalse, s.error .running)
  else if low.node = high.node ∧ low.w = high.w then (⟨low.node, low.w⟩, s)
  else
    let hash := evddNodehash s.evddnodesize level low.node high.node low.w high.w
    let res := Chained.search (keyMatches s level low high) (fun n => (s.evddnodes n).next)
      (s.evddnodesize + 1) (s.evddnodes hash).hash
    if res ≠ 0 then
      let (w, s) := s.withValues (evddValueUnitFromPair T · low.w high.w)
      (⟨res, w⟩, s)
    else
      let s := makeRoom E s
      if s.evddfreepos = 0 then (evddFalse, s.error .nodenum)
      else
        let (res, s) := evddInsert s level low high
        let (w, s) := s.withValues (evddValueUnitFromPair T · low.w high.w)
        (⟨res, w⟩, s)

/-- `evdd_makenode`. -/
def evddMakenode (s : EvddState P) (level : ℕ) (low high : EVDD) : EVDD × EvddState P :=
  if !s.evddrunning then (evddFalse, s.error .running)
  else
    let s := (s.pushref low.node).pushref high.node
    let (normalized, s) := s.withValues (evddValueNormalize T · low.w high.w)
    if evddValueIsZero T s.values normalized.incoming then (evddFalse, s.popref 2)
    else
      let (newnode, s) := evddMakenodeRaw T E s level ⟨low.node, normalized.wLow⟩
        ⟨high.node, normalized.wHigh⟩
      let (w, s) := s.withValues (evddValueMul T · normalized.incoming newnode.w)
      (⟨newnode.node, w⟩, s.popref 2)

/-! ## `evdd_normalize` -/

/-- `EvddNormMemo`, one slot for each node. -/
abbrev EvddNormMemo := ℕ → Option EVDD

/-- The two branches of `evdd_normalize_node` for one child: an edge to the terminal is taken
over, any other one gets the weight of the normalised child multiplied in. -/
def normalizeEdge
    (normalizeNode : ℕ → EvddNormMemo × EvddState P → Option (EVDD × EvddNormMemo × EvddState P))
    (child : ℕ) (w : EvddState P → ValueId) (memo : EvddNormMemo) (s : EvddState P) :
    Option (EVDD × EvddNormMemo × EvddState P) :=
  if child = evddTrueNode then some (⟨child, w s⟩, memo, s)
  else do
    let (e, memo, s) ← normalizeNode child (memo, s)
    let (we, s) := s.withValues (evddValueMul T · (w s) e.w)
    some (⟨e.node, we⟩, memo, s)

/-- `evdd_normalize_node`. -/
def evddNormalizeNode : ℕ → ℕ → EvddNormMemo × EvddState P →
    Option (EVDD × EvddNormMemo × EvddState P)
  | 0, _, _ => none
  | fuel + 1, node, (memo, s) =>
    if node = evddTrueNode then some (⟨node, evddValueZero⟩, memo, s)
    else match memo node with
    | some e => some (e, memo, s)
    | none =>
      match (s.evddnodes node).low with
      | none => none
      | some lowN => do
        let highN := (s.evddnodes node).high
        let (lowE, memo, s) ← normalizeEdge T (evddNormalizeNode fuel) lowN
          (fun s => (s.evddnodes node).wLow) memo s
        let s := s.pushref lowE.node
        let (highE, memo, s) ← normalizeEdge T (evddNormalizeNode fuel) highN
          (fun s => (s.evddnodes node).wHigh) memo s
        let s := s.pushref highE.node
        let (out, s) := evddMakenode T E s (s.evddnodes node).level lowE highE
        let s := (s.popref 2).pushref out.node
        some (out, Function.update memo node (some out), s)

/-- `evdd_normalize`. -/
def evddNormalize (s : EvddState P) (root : EVDD) : Option (EVDD × EvddState P) :=
  if !s.evddrunning then some (evddFalse, s.error .running)
  else if root.node ≥ s.evddnodesize ∨ root.node ≠ evddTrueNode ∧ s.isFree root.node then
    some (evddFalse, s.error .illbdd)
  else if root.node = evddTrueNode then some (root, s)
  else do
    let saved := s.evddrefstack
    let (out, _, s) ← evddNormalizeNode T E (s.evddproduced + 1) root.node
      (fun _ => none, s.pushref root.node)
    let (w, s) := s.withValues (evddValueMul T · root.w out.w)
    some (⟨out.node, w⟩, { s with evddrefstack := saved })

/-! ## References -/

/-- `EVDDINCREF`. -/
def evddIncref (s : EvddState P) (n : ℕ) : EvddState P :=
  let node := s.evddnodes n
  if node.refcou < evddMaxref then s.setNode n { node with refcou := node.refcou + 1 } else s

/-- `EVDDDECREF`. -/
def evddDecref (s : EvddState P) (n : ℕ) : EvddState P :=
  let node := s.evddnodes n
  if node.refcou ≠ evddMaxref ∧ node.refcou > 0 then
    s.setNode n { node with refcou := node.refcou - 1 }
  else s

/-- `evdd_addref` and `evdd_delref`, which differ in what they do to the node's and to the
value's count. -/
def evddChangeref (count : EvddState P → ℕ → EvddState P)
    (value : ValueTable P → ValueId → ValueTable P) (s : EvddState P) (root : EVDD) :
    EVDD × EvddState P :=
  if root.node = evddTrueNode ∨ !s.evddrunning then
    (root, { s with values := value s.values root.w })
  else if root.node ≥ s.evddnodesize then (evddFalse, s.error .illbdd)
  else if s.isFree root.node then (evddFalse, s.error .illbdd)
  else
    let s := count s root.node
    (root, { s with values := value s.values root.w })

/-- `evdd_addref`. -/
def evddAddref (s : EvddState P) (root : EVDD) : EVDD × EvddState P :=
  evddChangeref evddIncref evddValueAddref s root

/-- `evdd_delref`. -/
def evddDelref (s : EvddState P) (root : EVDD) : EVDD × EvddState P :=
  evddChangeref evddDecref evddValueDelref s root

/-! ## `evdd_value_gbc` -/

/-- The marking loop of `evdd_value_gbc` at slot `n`. -/
def valueMarkStep (n : ℕ) (s : EvddState P) : EvddState P :=
  if s.isFree n then s
  else { s with values :=
    evddValueMark (evddValueMark s.values (s.evddnodes n).wLow) (s.evddnodes n).wHigh }

/-- `evdd_value_gbc`, with the number of freed rows or the error it returns. -/
def evddValueGbc (s : EvddState P) : Except BddError ℕ × EvddState P :=
  if s.evddrefstack.length > 0 then (.error .op, s.error .op)
  else
    let s := if s.evddrunning then
        let s := evddGbc s
        forUp 1 (s.evddnodesize - 1) valueMarkStep s
      else s
    let (freed, s) := s.withValues (evddValueSweep T)
    (.ok freed, s)

end

end MoToBuddy.Evdd
