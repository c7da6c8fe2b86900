import MoToBuddy.Bdd.Ite
import MoToBuddy.Bdd.Restart

/-!
# The MTBDD functions as programs (`mtbdd.c`, `mtbddop.cxx`)

None of these functions saves an environment. Callbacks are programs of the user: the guards of the
guarded functions, the operations of `mtbdd_operation`, the actions of the traversals.

`mtbdd_operation` and the traversals fill a skipped level with a node that has the same child
twice. They switch the check of `bdd_makenode` off for it (`virtualNode`).
-/

namespace MoToBuddy.Bdd

open Jumping

variable {P : Type} (D : MtbddDomain P) (isPrime : ℕ → Bool)

namespace Code

/-- A node for a skipped level. -/
def virtualNode (level n : ℕ) : Code P ℕ := do
  update fun s => { s with checkSameChildren := false }
  let res ← makenode D isPrime level n n
  update fun s => { s with checkSameChildren := true }
  pure res

/-! ## Terminals -/

def newTerminal (value : P) (type : ℕ) (words : ℕ × ℕ) : Code P ℕ := do
  let valIndex ← look fun g => (mtbddInsertvalue g.kernel.terminals value).1
  update fun s => { s with terminals := (mtbddInsertvalue s.terminals value).2 }
  let res ← makenode D isPrime maxlevel words.1 words.2
  update fun s =>
    let s := s.setNode res { s.bddnodes res with
      high := valIndex
      low := some type }
    { s with terminals := s.terminals.logMade res valIndex value }
  pure res

def mtbddMaketerminal (value : P) (type : ℕ) : Code P ℕ := do
  let words := terminalWords D type (some value)
  let found (g : Globals P) : ℕ :=
    mtbddFindterminal D g.kernel value (nodehash g.kernel.bddnodesize maxlevel words.1 words.2) type
  match D.domaintype with
  | .intval | .floatval | .unsignedval => makenode D isPrime maxlevel 42 (D.word value).toNat
  | .longval | .doubleval =>
    let found ← look found
    if found ≠ 0 then
      return found
    newTerminal D isPrime value type words
  | .custom =>
    if (D.comparefun type).isNone then
      error .op
      update fun s => { s with terminals := s.terminals.releaseTemp value }
      return 0
    let found ← look found
    if found ≠ 0 then
      update fun s => { s with terminals := s.terminals.releaseTemp value }
      return found
    let res ← newTerminal D isPrime value type words
    update fun s => s.setNode res { s.bddnodes res with refcou := 0 }
    return res
  | _ => .stuck

/-- `mtbdd_leaf_result`. -/
def mtbddLeafResult (value : Option P) (type l : ℕ) (valueL : Option P)
    (right : Option (ℕ × Option P)) : Code P (ℕ × Bool) :=
  match value with
  | none => pure (0, false)
  | some value => do
    let release : Code P Unit :=
      update fun s => { s with terminals := s.terminals.releaseTemp value }
    if D.domaintype ≠ .custom then
      return (← mtbddMaketerminal D isPrime value type, false)
    match if type < D.typeNumber then D.comparefun type else none with
    | none => do
      error .op
      release
      return (0, false)
    | some cmp => do
      if cmp value valueL then
        release
        return (l, true)
      match right with
      | none => return (← mtbddMaketerminal D isPrime value type, false)
      | some (r, valueR) => do
        if cmp value valueR then
          release
          return (r, true)
        return (← mtbddMaketerminal D isPrime value type, false)

/-! ## The apply functions -/

def memoUnless (k : CacheId) (key : CacheKey) (body : Code P (ℕ × Bool)) : Code P ℕ := do
  let i ← look fun g => (g.kernel.caches k).lookup key.hash
  let found ← look fun g => if (g.kernel.caches k).isValid i && key.hit (g.kernel.entry k i) then
      some (g.kernel.entry k i).res else none
  match found with
  | some res => pure res
  | none => do
    let (res, reused) ← body
    if reused then
      return res
    update fun s => s.store k i (key.fill (s.entry k i) res)
    return res

/-- The callback of a guarded function: whether its result is valid, and the result. -/
abbrev Guard (P : Type) := ℕ → ℕ → Code P (Bool × ℕ)

def applyLeaf (op : Option P → Option P → Option P) (l r : ℕ) : Code P (ℕ × Bool) := do
  let s ← look (·.kernel)
  let terminalValueL := mtbddGetTerminalValue D s l
  let terminalValueR := mtbddGetTerminalValue D s r
  let decidingTerminalType := mtbddGetTerminalType s (if l < 2 then r else l)
  mtbddLeafResult D isPrime (op terminalValueL terminalValueR) decidingTerminalType l terminalValueL
    (some (r, terminalValueR))

/-- The recursions of the binary functions: with a guard the callback is called before the cache is
looked up. -/
def binaryRec (key : ℕ → ℕ → CacheKey) (guard : ℕ → ℕ → Code P (Option ℕ))
    (leaf : ℕ → ℕ → Code P (ℕ × Bool)) : ℕ → ℕ → ℕ → Code P ℕ
  | 0, _, _ => .stuck
  | fuel + 1, l, r => do
    if let some res ← guard l r then
      return res
    memoUnless .mtbddApply (key l r) do
      if ← look fun g => g.kernel.isMtbddLeaf l && g.kernel.isMtbddLeaf r then
        leaf l r
      else
        return (← splitTwo D isPrime (binaryRec key guard leaf fuel) l r, false)

def unaryRec (key : ℕ → CacheKey) (visit : ℕ → Code P (Option (ℕ × Bool))) : ℕ → ℕ → Code P ℕ
  | 0, _ => .stuck
  | fuel + 1, l =>
    memoUnless .mtbddApply (key l) do
      if let some res ← visit l then
        return res
      let rec' := unaryRec key visit fuel
      return (← branch (do rec' (← lowOf l)) (do rec' (← highOf l)) (nodeAt D isPrime l), false)

def unguarded (_ _ : ℕ) : Code P (Option ℕ) := pure none

def guardOf (op : Guard P) (l r : ℕ) : Code P (Option ℕ) := do
  let (valid, res) ← op l r
  return if valid then some res else none

def guardedLeaf (op : Guard P) (l r : ℕ) : Code P (ℕ × Bool) := do
  let (_, res) ← op l r
  return (res, false)

def unaryLeaf (op : Option P → Option P) (l : ℕ) : Code P (Option (ℕ × Bool)) := do
  let s ← look (·.kernel)
  if s.isMtbddLeaf l then
    let terminalValue := mtbddGetTerminalValue D s l
    return some (← mtbddLeafResult D isPrime (op terminalValue) (mtbddGetTerminalType s l) l
      terminalValue none)
  else
    return none

def guardedUnary (op : ℕ → Code P (Bool × ℕ)) (l : ℕ) : Code P (Option (ℕ × Bool)) := do
  let (valid, res) ← op l
  if valid then
    return some (res, false)
  if ← look (·.kernel.isMtbddLeaf l) then
    return some (res, true)
  return none

/-- A `NULL` operation is an error. -/
def withOp {F : Type*} (op : Option F) (body : F → Code P ℕ) : Code P ℕ :=
  match op with
  | none => do
    error .op
    pure 0
  | some op => body op

def mtbddApply (l r : ℕ) (op : Option (Callback (Option P → Option P → Option P))) : Code P ℕ :=
  checka l <| checka r <| withOp op fun op =>
    binaryRec D isPrime (binaryKey op.word) unguarded (applyLeaf D isPrime op.call) depth l r

def mtbddApplyParam (l r : ℕ) (op : Option (Callback (Option P → Option P → UInt64 → Option P)))
    (param : UInt64) : Code P ℕ :=
  checka l <| checka r <| withOp op fun op =>
    binaryRec D isPrime (binaryParamKey op.word param) unguarded
      (applyLeaf D isPrime fun l r => op.call l r param) depth l r

def mtbddApplyGuarded (l r : ℕ) (op : Option (UInt32 × Guard P)) : Code P ℕ :=
  checka l <| checka r <| withOp op fun (word, op) =>
    binaryRec D isPrime (binaryKey word) (guardOf op) (guardedLeaf op) depth l r

def mtbddApplyGuardedParam (l r : ℕ) (op : Option (UInt32 × (UInt64 → Guard P)))
    (param : UInt64) : Code P ℕ :=
  checka l <| checka r <| withOp op fun (word, op) =>
    binaryRec D isPrime (binaryParamKey word param) (guardOf (op param)) (guardedLeaf (op param))
      depth l r

def mtbddApplyUnary (l : ℕ) (op : Option (Callback (Option P → Option P))) : Code P ℕ :=
  checka l <| withOp op fun op =>
    unaryRec D isPrime (unaryKey op.word) (unaryLeaf D isPrime op.call) depth l

def mtbddApplyUnaryParam (l : ℕ) (op : Option (Callback (Option P → UInt64 → Option P)))
    (param : UInt64) : Code P ℕ :=
  checka l <| withOp op fun op =>
    unaryRec D isPrime (unaryParamKey op.word param) (unaryLeaf D isPrime fun l => op.call l param)
      depth l

def mtbddApplyUnaryGuarded (l : ℕ) (op : Option (UInt32 × (UInt64 → ℕ → Code P (Bool × ℕ))))
    (arg : UInt64) : Code P ℕ :=
  checka l <| withOp op fun (word, op) =>
    unaryRec D isPrime (unaryParamKey word arg) (guardedUnary (op arg)) depth l

/-! ## `mtbdd_ite` -/

def mtbddIteRec : ℕ → ℕ → ℕ → ℕ → Code P ℕ
  | 0, _, _, _ => .stuck
  | fuel + 1, f, g, h =>
    if f = 0 then pure h
    else if f = 1 then pure g
    else if g = h then pure g
    else do
      if ← look fun s => s.kernel.isTerminal g && s.kernel.isTerminal h then
        nodeAt D isPrime f g h
      else
        memo .mtbddIte (hash3 (.ofNat f) (.ofNat g) (.ofNat h))
          (fun e => e.a = f && e.b = g && e.c = h)
          (fun e res => { e with
            a := f
            b := g
            c := h
            d := minusOne
            res := res })
          (splitThree D isPrime (mtbddIteRec fuel) f g h)

def mtbddIte (f g h : ℕ) : Code P ℕ :=
  checka f <| checka g <| checka h <| mtbddIteRec D isPrime depth f g h

/-! ## `mtbdd_operation` -/

/-- `PAIR` on words. -/
def pair (a b : UInt32) : UInt32 := (a + b) * (a + b + 1) / 2 + a

/-- `mtbdd_controls_cachekey`, for the control at hand and those after it, the last of which is the
target. -/
def controlsCachekey (control : ℕ) (controls : List ℕ) : UInt32 :=
  (control :: controls).foldl (fun key c => pair key (.ofNat c)) (.ofNat controls.length)

/-- The level of a node is skipped below the one that is looked for. -/
def skips (control n : ℕ) : Code P Bool :=
  look fun g => g.kernel.level n > control || g.kernel.isTerminal n || n < 2

/-- The node for the skipped level of the control, with the operand on the stack meanwhile. -/
def virtualTarget (control operand : ℕ) : Code P ℕ := do
  if ← skips control operand then
    update fun s => { s with checkSameChildren := false }
    pushref operand
    let child ← readref 1
    let target ← makenode D isPrime control child child
    update fun s => { s with checkSameChildren := true }
    popref 1
    return target
  else
    return operand

/-- The two children of a node, on the stack while the operation runs. -/
def atTarget (op : ℕ → ℕ → Code P ℕ) (target : ℕ) : Code P ℕ := do
  pushref (← lowOf target)
  pushref (← highOf target)
  let low ← readref 2
  let high ← readref 1
  let res ← op low high
  popref 2
  pure res

/-- `mtbdd_operation_rec` and `mtbdd_operation_param_rec`. -/
def operationRec (key : ℕ → UInt32 → CacheKey) (op : ℕ → ℕ → ℕ → Code P ℕ) :
    ℕ → ℕ → ℕ → List ℕ → Code P ℕ
  | 0, _, _, _ => .stuck
  | fuel + 1, operand, control, controls => checka operand do
    if operand = 0 then
      return 0
    memoUnless .mtbddOperation (key operand (controlsCachekey control controls)) do
      let target ← virtualTarget D isPrime control operand
      let level ← look (·.kernel.level target)
      if level = control then
        match controls with
        | [] => return (← atTarget (op control) target, false)
        | next :: rest =>
          pushref (← lowOf target)
          let high ← operationRec key op fuel (← highOf target) next rest
          pushref high
          let low ← readref 2
          let high ← readref 1
          let res ← makenode D isPrime control low high
          popref 2
          return (res, false)
      else if level < control then
        let oldLow ← lowOf target
        let oldHigh ← highOf target
        let low ← operationRec key op fuel oldLow control controls
        pushref low
        let high ← operationRec key op fuel (← highOf target) control controls
        pushref high
        let low ← readref 2
        let high ← readref 1
        let res ← if low = oldLow ∧ high = oldHigh then pure target
          else do makenode D isPrime (← look (·.kernel.level target)) low high
        popref 2
        return (res, false)
      else
        return (target, false)

/-- The keys of `mtbdd_cache_operation`. -/
def operationKey (op : UInt32) (operand : ℕ) (controlsKey : UInt32) : CacheKey :=
  binaryKey op operand controlsKey.toNat

def operationParamKey (op : UInt32) (param : UInt64) (operand : ℕ) (controlsKey : UInt32) :
    CacheKey :=
  binaryParamKey op param operand controlsKey.toNat

/-- `mtbdd_operation`. A missing operation is only reported for an operand other than `0`. -/
def mtbddOperation (operand control : ℕ) (controls : List ℕ)
    (op : Option (UInt32 × (ℕ → ℕ → ℕ → Code P ℕ))) : Code P ℕ :=
  checka operand <| if operand = 0 then pure 0 else withOp op fun (word, op) =>
    operationRec D isPrime (operationKey word) op depth operand control controls

def mtbddOperationParam (operand control : ℕ) (controls : List ℕ)
    (op : Option (UInt32 × (ℕ → ℕ → ℕ → UInt64 → Code P ℕ))) (param : UInt64) : Code P ℕ :=
  checka operand <| if operand = 0 then pure 0 else withOp op fun (word, op) =>
    operationRec D isPrime (operationParamKey word param) (fun c l h => op c l h param) depth
      operand control controls

/-- `mtbdd_operation_guarded`: the guard is called first, and once more at the target. -/
def operationGuardedRec (word : UInt32) (op : ℕ → ℕ → Code P (Bool × ℕ)) :
    ℕ → ℕ → ℕ → List ℕ → Code P ℕ
  | 0, _, _, _ => .stuck
  | fuel + 1, operand, control, controls => checka operand do
    if operand = 0 then
      return 0
    let (valid, res) ← op control operand
    if valid then
      return res
    memoUnless .mtbddOperation (operationKey word operand (controlsCachekey control controls)) do
      let target ← virtualTarget D isPrime control operand
      let level ← look (·.kernel.level target)
      if level = control then
        match controls with
        | [] =>
          pushref target
          let child ← readref 1
          let (_, res) ← op control child
          popref 1
          let s ← look (·.kernel)
          -- a redundant decision collapses
          if 2 ≤ res ∧ !s.isTerminal res ∧ s.high res = s.low res then
            return (s.low res, false)
          return (res, false)
        | next :: rest =>
          pushref (← lowOf target)
          let high ← operationGuardedRec word op fuel (← highOf target) next rest
          update (bddAddref · high)
          pushref high
          let low ← readref 2
          let child ← readref 1
          let res ← makenode D isPrime control low child
          popref 2
          update (bddDelref · high)
          return (res, false)
      else if level < control then
        let oldLow ← lowOf target
        let oldHigh ← highOf target
        let low ← operationGuardedRec word op fuel oldLow control controls
        update (bddAddref · low)
        let high ← operationGuardedRec word op fuel (← highOf target) control controls
        update (bddAddref · high)
        let res ← if low = oldLow ∧ high = oldHigh then pure target
          else do makenode D isPrime (← look (·.kernel.level target)) low high
        update (bddDelref · low)
        update (bddDelref · high)
        return (res, false)
      else
        return (target, false)

def mtbddOperationGuarded (operand control : ℕ) (controls : List ℕ)
    (op : Option (UInt32 × (ℕ → ℕ → Code P (Bool × ℕ)))) : Code P ℕ :=
  checka operand <| if operand = 0 then pure 0 else withOp op fun (word, op) =>
    operationGuardedRec D isPrime word op depth operand control controls

/-- `mtbdd_cube2`: `i` counts down from `width`. -/
def mtbddCube2 (value : ℕ) (vars : ℕ → ℕ) (leaf1 leaf0 : ℕ) : ℕ → ℕ → Code P ℕ
  | 0, result => pure result
  | i + 1, result => do
    let level ← look (·.kernel.level (vars i))
    pushref result
    let child ← readref 1
    let result ← if value.testBit i then makenode D isPrime level leaf0 child
      else makenode D isPrime level child leaf0
    popref 1
    mtbddCube2 value vars leaf1 leaf0 i result

/-! ## Traversals -/

inductive Branch
  | L | R | LR | RL | ITSELF
  deriving DecidableEq

/-- The level of the node for a skipped level: with a descent into one child the next level, but
none past the target. -/
def virtualLevel (targetLevel : ℕ) (pref : Branch) (parentLevel : ℤ) : ℕ :=
  if pref = .LR ∨ pref = .RL ∨ parentLevel + 1 > targetLevel then targetLevel
  else (parentLevel + 1).toNat

/-- The node lies below the target level. -/
def below (targetLevel n : ℕ) : Code P Bool :=
  look fun g => g.kernel.level n > targetLevel || n < 2

/-- The level above a root. -/
def aboveRoot (root : ℕ) : Code P ℤ := do
  let s ← look (·.kernel)
  let level : ℕ := if s.isTerminal root || root < 2 then s.env.bddvarnum else s.level root
  return level - 1

def levelOf (n : ℕ) : Code P ℕ := look (·.kernel.level n)

/-- The node of the two topmost entries of the stack, at the level of `n`. -/
def nodeOfTop (n : ℕ) (lowFirst : Bool) : Code P ℕ := do
  let first ← readref 2
  let second ← readref 1
  let level ← levelOf n
  let res ← if lowFirst then makenode D isPrime level first second
    else makenode D isPrime level second first
  popref 2
  pure res

/-- Keep one child of a node and replace the other one by the result of a call. -/
def replaceLow (n : ℕ) (call : Code P ℕ) : Code P ℕ := do
  pushref (← highOf n)
  pushref (← call)
  nodeOfTop D isPrime n false

def replaceHigh (n : ℕ) (call : Code P ℕ) : Code P ℕ := do
  pushref (← lowOf n)
  pushref (← call)
  nodeOfTop D isPrime n true

/-- What `traverse` does at a node that is not above the level it works on. -/
def visit (targetLevel : ℕ) (action : ℕ → Code P ℕ) (pref actionOn : Branch)
    (self : ℕ → ℤ → Code P ℕ) (n : ℕ) : Code P ℕ := do
  let low : Code P ℕ := do self (← lowOf n) (← levelOf n)
  let high : Code P ℕ := do self (← highOf n) (← levelOf n)
  if (← levelOf n) = targetLevel then
    match actionOn with
    | .L => replaceLow D isPrime n (do action (← lowOf n))
    | .R => replaceHigh D isPrime n (do action (← highOf n))
    | _ => action n
  else
    match pref with
    | .R => replaceHigh D isPrime n high
    | .L => replaceLow D isPrime n low
    | .RL =>
      pushref (← high)
      pushref (← low)
      nodeOfTop D isPrime n false
    | _ =>
      pushref (← low)
      pushref (← high)
      nodeOfTop D isPrime n true

/-- The `traverse` of `mtbdd_with_traverse_to`. -/
def traverse (targetLevel : ℕ) (action : ℕ → Code P ℕ) (pref actionOn : Branch) :
    ℕ → ℕ → ℤ → Code P ℕ
  | 0, _, _ => .stuck
  | fuel + 1, node, parentLevel => do
    let visit := visit D isPrime targetLevel action pref actionOn
      (traverse targetLevel action pref actionOn fuel)
    if ← below targetLevel node then
      let workingNode ← virtualNode D isPrime (virtualLevel targetLevel pref parentLevel) node
      pushref workingNode
      let res ← visit workingNode
      pushref res
      if node ≠ workingNode then
        let kept ← readref 1
        popref 2
        pushref kept
        popref 1
        return kept
      popref 1
      return res
    else
      let res ← visit node
      pushref res
      popref 1
      return res

def mtbddWithTraverseTo (targetLevel : ℕ) (action : ℕ → Code P ℕ) (pref actionOn : Branch)
    (fuel root : ℕ) : Code P ℕ := do
  traverse D isPrime targetLevel action pref actionOn fuel root (← aboveRoot root)

/-- `virt_node` where it is needed. -/
def virtNode (targetLevel : ℕ) (pref : Branch) (n : ℕ) (parentLevel : ℤ) : Code P ℕ := do
  if ← below targetLevel n then
    virtualNode D isPrime (virtualLevel targetLevel pref parentLevel) n
  else
    return n

/-- Push the node if the flag is set. -/
def pushIf (flag : Bool) (n : ℕ) : Code P Unit := if flag then pushref n else pure ()
def popIf (flag : Bool) : Code P Unit := if flag then popref 1 else pure ()

/-- The side of a node at the target that the action gets. -/
def actionSide (actionOn : Branch) (n : ℕ) : Code P ℕ :=
  match actionOn with
  | .L => lowOf n
  | .R => highOf n
  | _ => pure n

/-- The node with the result of the action, which is second on the stack, in the place of the side
that the action got. -/
def putBack (targetLevel : ℕ) (actionOn : Branch) (n : ℕ) : Code P ℕ :=
  match actionOn with
  | .L => do
    let new ← readref 2
    makenode D isPrime targetLevel new (← highOf n)
  | .R => do
    let new ← readref 2
    makenode D isPrime targetLevel (← lowOf n) new
  | _ => pure n

/-- The children that a descent visits, a node itself for the side that is not taken. -/
def descendLow (pref : Branch) (n : ℕ) : Code P ℕ := if pref = .R then pure n else lowOf n
def descendHigh (pref : Branch) (n : ℕ) : Code P ℕ := if pref = .L then pure n else highOf n

/-- Both descents of the lockstep, and the two nodes of their results. -/
def lockstepBoth (low high : Code P (ℕ × ℕ)) (level : ℕ) : Code P (ℕ × ℕ) := do
  let lo ← low
  pushref lo.1
  pushref lo.2
  let hi ← high
  pushref hi.1
  pushref hi.2
  let low ← readref 4
  let high ← readref 2
  let outL ← makenode D isPrime level low high
  pushref outL
  let low ← readref 4
  let high ← readref 2
  let outR ← makenode D isPrime level low high
  let outL ← readref 1
  popref 5
  return (outL, outR)

/-- The `lockstep` of `mtbdd_with_lockstep_to`. -/
def lockstep (targetLevel : ℕ) (action : ℕ → ℕ → Code P (ℕ × ℕ))
    (prefL actionOnL prefR actionOnR : Branch) : ℕ → ℕ → ℕ → ℤ → ℤ → Code P (ℕ × ℕ)
  | 0, _, _, _, _ => .stuck
  | fuel + 1, L, R, parentL, parentR => do
    let self := lockstep targetLevel action prefL actionOnL prefR actionOnR fuel
    let wL ← virtNode D isPrime targetLevel prefL L parentL
    pushIf (wL ≠ L) wL
    let wR ← virtNode D isPrime targetLevel prefR R parentR
    pushIf (wR ≠ R) wR
    let levelL ← look (·.kernel.level wL)
    let levelR ← look (·.kernel.level wR)
    let res ←
      if levelL = targetLevel ∧ levelR = targetLevel then
        if actionOnL = .ITSELF ∧ actionOnR = .ITSELF then action wL wR
        else do
          let out ← action (← actionSide actionOnL wL) (← actionSide actionOnR wR)
          pushref out.1
          pushref out.2
          let newL ← putBack D isPrime targetLevel actionOnL wL
          pushref newL
          let newR ← putBack D isPrime targetLevel actionOnR wR
          pushref newR
          let newL ← readref 2
          let newR ← readref 1
          popref 4
          pure (newL, newR)
      else if levelL = levelR then
        let loL ← descendLow prefL wL
        let hiL ← descendHigh prefL wL
        let loR ← descendLow prefR wR
        let hiR ← descendHigh prefR wR
        lockstepBoth D isPrime (self loL loR levelL levelL) (self hiL hiR levelL levelL) levelL
      else if levelL < levelR then
        let loL ← descendLow prefL wL
        let hiL ← descendHigh prefL wL
        lockstepBoth D isPrime (self loL R levelL parentR) (self hiL R levelL parentR) levelL
      else
        let loR ← descendLow prefR wR
        let hiR ← descendHigh prefR wR
        lockstepBoth D isPrime (self L loR parentL levelR) (self L hiR parentL levelR) levelR
    pushref res.1
    pushref res.2
    let r1 ← readref 2
    let r2 ← readref 1
    popref 2
    popIf (wR ≠ R)
    popIf (wL ≠ L)
    pushref r1
    pushref r2
    popref 2
    return (r1, r2)

def mtbddWithLockstepTo (targetLevel : ℕ) (action : ℕ → ℕ → Code P (ℕ × ℕ))
    (prefL actionOnL prefR actionOnR : Branch) (fuel L R : ℕ) : Code P (ℕ × ℕ) := do
  lockstep D isPrime targetLevel action prefL actionOnL prefR actionOnR fuel L R (← aboveRoot L)
    (← aboveRoot R)

/-! ## Swaps -/

structure SwapParam (P : Type) where
  putUp : ℕ → Code P ℕ
  putIn : ℕ → ℕ → Code P ℕ

/-- The `mtbdd_make_swap` of two nodes. -/
def mtbddMakeSwap (paramL paramR : SwapParam P) (L R : ℕ) : Code P (ℕ × ℕ) := do
  let offerL ← paramL.putUp L
  let offerR ← paramR.putUp R
  pushref offerL
  pushref offerR
  let newL ← paramL.putIn L offerR
  pushref newL
  let newR ← paramR.putIn R offerL
  pushref newR
  let newL ← readref 2
  let newR ← readref 1
  popref 4
  return (newL, newR)

/-- The `mtbdd_make_swap` of the children of a node. -/
def mtbddMakeSwapChildren (node : ℕ) : Code P ℕ := do
  pushref (← highOf node)
  pushref (← lowOf node)
  let low ← readref 2
  let high ← readref 1
  let res ← makenode D isPrime (← look (·.kernel.level node)) low high
  popref 2
  pure res

end Code

end MoToBuddy.Bdd
