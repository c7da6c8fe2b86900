import MoToBuddy.Bdd.Restart

/-!
# The functions that disable reordering (`kernel.c`, `bddop.c`)

`bdd_setvarnum`, `bdd_support` and the three functions for satisfying assignments turn automatic
reordering off around the part that makes nodes. None of them saves what it found.
-/

namespace MoToBuddy.Bdd

open Jumping Code

variable {P : Type} (D : MtbddDomain P) (isPrime : ℕ → Bool)

namespace Code

/-- Report an error and return its number. -/
def bddError (e : BddError) : Code P ℤ := do
  error e
  pure (errorCode e)

/-! ## The number of variables -/

def addVars (bdv : ℕ) : ℕ → Code P Bool
  | 0 => pure true
  | k + 1 => do
    let v ← look (·.kernel.env.bddvarnum)
    let pos ← makenode D isPrime v 0 1
    pushref pos
    let neg ← makenode D isPrime v 1 0
    popref 1
    if ← look (·.kernel.bdderrorcond) then
      update fun s => { s with env := { s.env with
        bddvarnum := bdv
        bddvarset := Function.update (Function.update s.env.bddvarset (2 * v) pos) (2 * v + 1)
          neg } }
      return false
    update (·.addVar pos neg)
    addVars bdv k

def bddSetvarnum (num : ℤ) (memory : Allocation) : Code P ℤ := do
  if !(← look (·.bddrunning)) then
    return ← bddError .running
  disableReorder
  let bdv ← look (·.kernel.env.bddvarnum)
  if num < 1 ∨ num ≥ maxvar then
    error .range
    return 0
  if num < bdv then
    return ← bddError .decvnum
  if num = bdv then
    return 0
  if !memory.arrays then
    return ← bddError .memory
  -- the old stack is freed before there is a new one
  initref
  if !memory.refstack then
    return ← bddError .memory
  if ← addVars D isPrime bdv (num.toNat - bdv) then
    update (·.finishVars num.toNat)
    enableReorder
    return 0
  return errorCode .nodenum

def bddExtvarnum (num : ℤ) (memory : Allocation) : Code P ℤ := do
  let start ← look (·.kernel.env.bddvarnum)
  if num < 0 ∨ num > 0x3FFFFFFF then
    return ← bddError .range
  let num := start + num
  .call (.setvarnum num memory) (bddSetvarnum D isPrime num memory) fun _ => .ret (start : ℤ)

/-! ## The support -/

/-- `support_rec`: the state with the marks, the levels that were found and the largest of them. -/
def supportRec : ℕ → ℕ → BddState P × (ℕ → Bool) × ℕ → BddState P × (ℕ → Bool) × ℕ
  | 0, _, acc => acc
  | fuel + 1, r, (s, support, supportMax) =>
    let node := s.bddnodes r
    if r < 2 then (s, support, supportMax)
    else if node.mark || node.low.isNone then (s, support, supportMax)
    else
      let acc := (s.setNode r { node with mark := true }, Function.update support node.level true,
        max supportMax node.level)
      let acc := supportRec fuel (node.low.getD 0) acc
      supportRec fuel node.high acc

/-- The call of `support_rec` for a root. -/
def supportFrom (r supportMin : ℕ) (s : BddState P) : BddState P × (ℕ → Bool) × ℕ :=
  supportRec (s.bddnodesize + 1) r (s, fun _ => false, supportMin)

def bddUnmark : ℕ → ℕ → BddState P → BddState P
  | 0, _, s => s
  | fuel + 1, i, s =>
    let node := s.bddnodes i
    if i < 2 then s
    else if !node.mark || node.low.isNone then s
    else
      let s := s.setNode i { node with mark := false }
      let s := bddUnmark fuel (node.low.getD 0) s
      bddUnmark fuel node.high s

/-- The loop over the levels from `supportMin + k - 1` down to `supportMin`. -/
def supportNodes (support : ℕ → Bool) (supportMin : ℕ) : ℕ → ℕ → Code P ℕ
  | 0, res => pure res
  | k + 1, res => do
    if support (supportMin + k) then
      update (bddAddref · res)
      let tmp ← makenode D isPrime (supportMin + k) 0 res
      update (bddDelref · res)
      supportNodes support supportMin k tmp
    else
      supportNodes support supportMin k res

def bddSupport (r : ℕ) (memory : Bool) : Code P ℕ := checka r do
  if r < 2 then
    return 0
  if ← look fun g => decide (g.supportSize < g.kernel.env.bddvarnum) then
    if !memory then
      error .memory
      return 0
    setGlobals fun g => { g with supportSize := g.kernel.env.bddvarnum }
  let supportMin ← look (·.kernel.level r)
  let (support, supportMax) ← look fun g => (supportFrom r supportMin g.kernel).2
  update fun s => (supportFrom r supportMin s).1
  update fun s => bddUnmark (s.bddnodesize + 1) r s
  disableReorder
  let res ← supportNodes D isPrime support supportMin (supportMax + 1 - supportMin) 1
  enableReorder
  return res

/-- `bdd_support` with its array at hand: the last part of it, for the proofs to share. -/
def supportWalk (r : ℕ) : Code P ℕ := do
  let supportMin ← look (·.kernel.level r)
  let (support, supportMax) ← look fun g => (supportFrom r supportMin g.kernel).2
  update fun s => (supportFrom r supportMin s).1
  update fun s => bddUnmark (s.bddnodesize + 1) r s
  disableReorder
  let res ← supportNodes D isPrime support supportMin (supportMax + 1 - supportMin) 1
  enableReorder
  return res

/-! ## Satisfying assignments -/

/-- Make a node and leave it on the stack. -/
def makePushed (level low high : ℕ) : Code P ℕ := do
  let res ← makenode D isPrime level low high
  pushref res
  pure res

def satoneRec : ℕ → ℕ → Code P ℕ
  | 0, _ => .stuck
  | fuel + 1, r => do
    if r < 2 then
      return r
    if (← look (·.kernel.low r)) = 0 then
      let res ← satoneRec fuel (← look (·.kernel.high r))
      makePushed D isPrime (← look (·.kernel.level r)) 0 res
    else
      let res ← satoneRec fuel (← look (·.kernel.low r))
      makePushed D isPrime (← look (·.kernel.level r)) res 0

def satonesetRec (satPolarity : ℕ) : ℕ → ℕ → ℕ → Code P ℕ
  | 0, _, _ => .stuck
  | fuel + 1, r, var => do
    if r < 2 ∧ var < 2 then
      return r
    let s ← look (·.kernel)
    if s.level r < s.level var then
      if s.low r = 0 then
        let res ← satonesetRec satPolarity fuel (s.high r) var
        makePushed D isPrime (← look (·.kernel.level r)) 0 res
      else
        let res ← satonesetRec satPolarity fuel (s.low r) var
        makePushed D isPrime (← look (·.kernel.level r)) res 0
    else if s.level var < s.level r then
      let res ← satonesetRec satPolarity fuel r (s.high var)
      if satPolarity = 1 then
        makePushed D isPrime (← look (·.kernel.level var)) 0 res
      else
        makePushed D isPrime (← look (·.kernel.level var)) res 0
    else
      if s.low r = 0 then
        let res ← satonesetRec satPolarity fuel (s.high r) (s.high var)
        makePushed D isPrime (← look (·.kernel.level r)) 0 res
      else
        let res ← satonesetRec satPolarity fuel (s.low r) (s.high var)
        makePushed D isPrime (← look (·.kernel.level r)) res 0

/-- The negative literals of the levels from `first + k - 1` down to `first`. -/
def negateLevels (first : ℕ) : ℕ → ℕ → Code P ℕ
  | 0, res => pure res
  | k + 1, res => do
    let res ← makePushed D isPrime (first + k) res 0
    negateLevels first k res

def fullsatoneRec : ℕ → ℕ → Code P ℕ
  | 0, _ => .stuck
  | fuel + 1, r => do
    if r < 2 then
      return r
    if (← look (·.kernel.low r)) ≠ 0 then
      let res ← fullsatoneRec fuel (← look (·.kernel.low r))
      let s ← look (·.kernel)
      let res ← negateLevels D isPrime (s.level r + 1) (s.level (s.low r) - (s.level r + 1)) res
      makePushed D isPrime (← look (·.kernel.level r)) res 0
    else
      let res ← fullsatoneRec fuel (← look (·.kernel.high r))
      let s ← look (·.kernel)
      let res ← negateLevels D isPrime (s.level r + 1) (s.level (s.high r) - (s.level r + 1)) res
      makePushed D isPrime (← look (·.kernel.level r)) 0 res

/-- The part of the three functions that runs with reordering disabled. -/
def uninterrupted (body : Code P ℕ) : Code P ℕ := do
  disableReorder
  initref
  let res ← body
  enableReorder
  update (checkresize isPrime)
  pure res

def bddSatone (r : ℕ) : Code P ℕ := checka r do
  if r < 2 then
    return r
  uninterrupted isPrime (satoneRec D isPrime depth r)

def bddSatoneset (r var pol : ℕ) : Code P ℕ := checka r do
  if r = 0 then
    return r
  if 2 ≤ pol then
    error .illbdd
    return 0
  uninterrupted isPrime (satonesetRec D isPrime pol depth r var)

def bddFullsatone (r : ℕ) : Code P ℕ := checka r do
  if r = 0 then
    return 0
  uninterrupted isPrime do
    let res ← fullsatoneRec D isPrime depth r
    let level ← look (·.kernel.level r)
    negateLevels D isPrime 0 level res

end Code

end MoToBuddy.Bdd
