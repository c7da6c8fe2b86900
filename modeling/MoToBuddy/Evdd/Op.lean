import MoToBuddy.Evdd.Kernel

/-!
# `evdd_apply` (`evdd_op.c`)

The Shannon recursion over two edges: incoming weights are pushed down, the smaller level
is split, terminals are combined by the operation, and results are kept in the operator
cache under both edges and the low word of the address of the operation.
-/

namespace MoToBuddy.Evdd

variable {P : Type*} [DecidableEq P] (T : ValueTypes P) (E : Policy P)

/-- The operations passed to `evdd_apply`, by their address. -/
abbrev EvddApplyOps (P : Type*) :=
  ℕ → ValueTable P → ValueId → ValueId → ValueId × ValueTable P

/-- `evdd_const_value`. -/
def evddConstValue (s : EvddState P) (e : EVDD) : ValueId :=
  if evddValueIsZero T s.values e.w then evddValueZero else e.w

/-- `evdd_edge_low` and `evdd_edge_high`, for the child and the weight of `e.node`. -/
def evddEdge (s : EvddState P) (e : EVDD) (child : ℕ) (w : ValueId) : EVDD × EvddState P :=
  let (w, s) := s.withValues (evddValueMul T · e.w w)
  (⟨child, w⟩, s)

/-- The low cofactor of an edge whose node has level `la`, for a split on `level`. -/
def evddEdgeLow (s : EvddState P) (e : EVDD) (split : Bool) : Option (EVDD × EvddState P) :=
  if split then
    match (s.evddnodes e.node).low with
    | none => none
    | some low => some (evddEdge T s e low (s.evddnodes e.node).wLow)
  else some (e, s)

/-- The high cofactor of an edge, for a split on `level`. -/
def evddEdgeHigh (s : EvddState P) (e : EVDD) (split : Bool) : Option (EVDD × EvddState P) :=
  if split then
    if s.isFree e.node then none
    else some (evddEdge T s e (s.evddnodes e.node).high (s.evddnodes e.node).wHigh)
  else some (e, s)

/-- `evdd_apply_hash`. -/
def evddApplyHash (a b : EVDD) (op : ℕ) : UInt32 :=
  hash5 (.ofNat a.node) (.ofNat b.node) (.ofNat op) (.ofNat a.w) (.ofNat b.w)

/-- The level `evdd_apply_rec` compares. -/
def evddSplitLevel (s : EvddState P) (e : EVDD) : ℕ :=
  if e.node = evddTrueNode then evddMaxlevel else (s.evddnodes e.node).level

/-- `opc` of `evdd_apply_rec`: what an `int` keeps of the address of the operation. -/
def evddOpc (op : ℕ) : ℕ := op % 2 ^ 32

/-- The cache can tell the operations apart. -/
def EvddApplyOps.Apart (ops : EvddApplyOps P) : Prop :=
  ∀ op op', evddOpc op = evddOpc op' → ops op = ops op'

/-- The hit test of `evdd_apply_rec` on entry `i`. -/
def cacheHit (c : EvddCache) (i : ℕ) (a b : EVDD) (op : ℕ) : Bool :=
  c.isValid i && (c.table i).aNode = a.node && (c.table i).aW = a.w &&
    (c.table i).bNode = b.node && (c.table i).bW = b.w && (c.table i).op = evddOpc op

/-- `EvddCache_store` into the apply cache. -/
def EvddState.store (s : EvddState P) (i : ℕ) (a b : EVDD) (op : ℕ) (res : EVDD) : EvddState P :=
  { s with evddApplycache := s.evddApplycache.store i a b op res }

/-- `evdd_apply_rec`. The C compiler is free to evaluate the two cofactors of a call in
either order; here the one of `a` comes first. -/
def evddApplyRec (ops : EvddApplyOps P) (op : ℕ) : ℕ → EVDD → EVDD → EvddState P →
    Option (EVDD × EvddState P)
  | 0, _, _, _ => none
  | fuel + 1, a, b, s =>
    let entry := s.evddApplycache.lookup (evddApplyHash a b op)
    if cacheHit s.evddApplycache entry a b op then
      some (⟨(s.evddApplycache.table entry).resNode, (s.evddApplycache.table entry).resW⟩, s)
    else if a.node = evddTrueNode ∧ b.node = evddTrueNode then
      let (vw, s) := s.withValues (ops op · (evddConstValue T s a) (evddConstValue T s b))
      let res := if evddValueIsZero T s.values vw then evddFalse else ⟨evddTrueNode, vw⟩
      some (res, s.store entry a b (evddOpc op) res)
    else do
      let la := evddSplitLevel s a
      let lb := evddSplitLevel s b
      let (a0, s) ← evddEdgeLow T s a (la ≤ lb)
      let (b0, s) ← evddEdgeLow T s b (lb ≤ la)
      let (r0, s) ← evddApplyRec ops op fuel a0 b0 s
      let s := s.pushref r0.node
      let (a1, s) ← evddEdgeHigh T s a (la ≤ lb)
      let (b1, s) ← evddEdgeHigh T s b (lb ≤ la)
      let (r1, s) ← evddApplyRec ops op fuel a1 b1 s
      let s := s.pushref r1.node
      let (res, s) := evddMakenode T E s (min la lb) r0 r1
      let s := s.popref 2
      some (res, s.store entry a b (evddOpc op) res)

/-- `evdd_apply`; address `0` is `NULL`. -/
def evddApply (ops : EvddApplyOps P) (s : EvddState P) (a b : EVDD) (op : ℕ) :
    Option (EVDD × EvddState P) :=
  if !s.evddrunning then some (evddFalse, s.error .running)
  else if !s.evddOpRunning then some (evddFalse, s.error .running)
  else if op = 0 then some (evddFalse, s.error .op)
  else if a.node ≥ s.evddnodesize ∨ (a.node ≠ evddTrueNode ∧ s.isFree a.node) ∨
      b.node ≥ s.evddnodesize ∨ (b.node ≠ evddTrueNode ∧ s.isFree b.node) then
    some (evddFalse, s.error .illbdd)
  else do
    let saved := s.evddrefstack
    let (res, s) ← evddApplyRec T E ops op (2 * s.evddproduced + 1) a b
      ((s.pushref a.node).pushref b.node)
    some (res, { s with evddrefstack := saved })

end MoToBuddy.Evdd
