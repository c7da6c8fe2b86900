import MoToBuddy.Bdd.Setup
import MoToBuddy.Bdd.Mtbdd
import MoToBuddy.Bdd.Stack
import MoToBuddy.Lib.Jump

/-!
# The globals of the restart (`kernel.c`, `reorder.c`, `bddop.c`)

`bdd_makenode` leaves by `longjmp` when a collection ends with more nodes in use than
`usednodes_nextreorder` and automatic reordering is ready. The operators save the environment with
`setjmp`, reorder after a jump and start again with reordering disabled.

Here the functions of the library are programs over its globals, so that the calls that are running
and the environment that was saved last are part of a run. Without a jump `bdd_makenode` is the one
of `Bdd.Kernel`.
-/

namespace MoToBuddy.Bdd

open Jumping

/-- The globals: the state of the kernel, and what decides about automatic reordering. -/
structure Globals (P : Type) where
  kernel : BddState P
  bddrunning : Bool
  reorderdisabled : Bool
  /-- `0` is `BDD_REORDER_NONE`. -/
  bddreordermethod : ℕ
  /-- There is a tree of variable blocks. -/
  vartree : Bool
  bddreordertimes : ℤ
  usednodesNextreorder : ℤ
  /-- What `bdd_reorder_gain` returns. -/
  gain : ℤ
  supportSize : ℕ

/-- Which allocations of `bdd_setvarnum` succeed: those of the arrays over the variables, and that
of the reference stack. -/
structure Allocation where
  arrays : Bool
  refstack : Bool

/-- The functions of the interface, with what decides how they leave. The operators are those that
save the environment; `leaves` says whether the call returns before it does. -/
inductive Entry (P : Type)
  | disableReorder
  | enableReorder
  | setvarnum (num : ℤ) (memory : Allocation)
  | extvarnum (num : ℤ)
  | support (r : ℕ) (memory : Bool)
  | satone (r : ℕ)
  | satoneset (r var pol : ℕ)
  | fullsatone (r : ℕ)
  | operator (leaves : Globals P → Bool)
  | reorder
  /-- A function of `mtbdd.c` or `mtbddop.cxx`. -/
  | mtbdd
  /-- Another function, which makes no node. -/
  | kernel

inductive Command
  | kernel
  | gbc
  | reorder
  | makenode (level low high : ℕ)

abbrev Code (P : Type) : Type → Type 1 := Prog (Globals P) (Entry P) Command

abbrev Process (P : Type) : Type := Machine (Globals P) (Entry P) Command

/-- Reordering the variables by a method, and the gain. It works on the table: neither the
reference stack nor the check of the children is its concern. -/
structure Reordering (P : Type) (isPrime : ℕ → Bool) where
  run : ℕ → BddState P → BddState P
  gain : ℕ → BddState P → ℤ
  refstack : ∀ method s, (run method s).bddrefstack = s.bddrefstack
  checkSameChildren : ∀ method s, (run method s).checkSameChildren = s.checkSameChildren
  nodesize : ∀ method s, PrimeSize isPrime s.bddnodesize →
    PrimeSize isPrime (run method s).bddnodesize

/-- The globals after `bdd_init`. -/
def Globals.init {P : Type} (s : BddState P) : Globals P where
  kernel := s
  bddrunning := true
  reorderdisabled := false
  bddreordermethod := 0
  vartree := false
  bddreordertimes := 0
  usednodesNextreorder := s.bddnodesize
  gain := 0
  supportSize := 0

/-- A session in which nothing has been called yet. -/
def Globals.start {P : Type} (g : Globals P) : Process P where
  globals := g
  target := 0
  calls := 0
  active := []
  history := []

variable {P : Type} (D : MtbddDomain P) {isPrime : ℕ → Bool} (R : Reordering P isPrime)

/-! ## Reordering -/

namespace Globals

variable (g : Globals P)

def bddReorderReady : Bool :=
  !(g.bddreordermethod = 0 || !g.vartree || g.bddreordertimes = 0 || g.reorderdisabled)

/-- `bdd_reorder`. -/
def bddReorder (method : ℕ) : Globals P :=
  { g with
    kernel := R.run method g.kernel
    gain := R.gain method g.kernel }

def bddReorderAuto : Globals P :=
  if g.bddReorderReady then
    { g.bddReorder R g.bddreordermethod with bddreordertimes := g.bddreordertimes - 1 }
  else g

def bddCheckreorder : Globals P :=
  let g := g.bddReorderAuto R
  let next : ℤ := 2 * (g.kernel.bddnodesize - g.kernel.bddfreenum)
  { g with usednodesNextreorder :=
      if g.gain < 20 then next + (next * (20 - g.gain)).tdiv 20 else next }

/-- `CHECKa`: the error about an argument that is no node. -/
def check (r : ℕ) : Option BddError :=
  if !g.bddrunning then some .running
  else if r ≥ g.kernel.bddnodesize then some .illbdd
  else if 2 ≤ r ∧ g.kernel.isFree r then some .illbdd
  else none

end Globals

/-! ## `bdd_makenode` with its jump -/

/-- `bdd_makenode` gets to its garbage collection. -/
def BddState.collects (s : BddState P) (level low high : ℕ) : Bool :=
  let lookup : Bool := level ≠ maxlevel || !D.domaintype.notShort
  let res := if lookup then
      Chained.search (keyMatches s level low high) (fun n => (s.bddnodes n).next)
        (s.bddnodesize + 1) (s.bddnodes (nodehash s.bddnodesize level low high)).hash
    else 0
  !(lookup && s.checkSameChildren && level ≠ maxlevel && low = high) && res = 0 &&
    s.bddfreepos = 0 && !s.bdderrorcond

/-- The collection leaves so many nodes that the variables are reordered. -/
def Globals.interrupts (g : Globals P) (level low high : ℕ) : Bool :=
  g.kernel.collects D level low high &&
    (bddGbc D g.kernel).bddnodesize - (bddGbc D g.kernel).bddfreenum ≥ g.usednodesNextreorder &&
    g.bddReorderReady

variable (isPrime)

def makenodeStep (level low high : ℕ) (g : Globals P) : Outcome (Globals P) ℕ :=
  if g.interrupts D level low high then .jump { g with kernel := bddGbc D g.kernel }
  else
    let (res, s) := bddMakenode D isPrime g.kernel level low high
    .done res { g with kernel := s }

/-! ## Programs -/

namespace Code

variable {α : Type}

def look (h : Globals P → α) : Code P α := .step .kernel (fun g => .done (h g) g) .ret

/-- `bdd_gbc` as a call of the user. -/
def gbc : Code P Unit :=
  .step .gbc (fun g => .done () { g with kernel := bddGbc D g.kernel }) .ret

/-- `bdd_checkreorder`. -/
def checkreorder {isPrime : ℕ → Bool} (R : Reordering P isPrime) : Code P Unit :=
  .step .reorder (fun g => .done () (g.bddCheckreorder R)) .ret

def bddReorder {isPrime : ℕ → Bool} (R : Reordering P isPrime) (method : ℕ) : Code P Unit :=
  .step .reorder (fun g => .done () (g.bddReorder R method)) .ret

def setGlobals (h : Globals P → Globals P) : Code P Unit :=
  .step .kernel (fun g => .done () (h g)) .ret

def update (h : BddState P → BddState P) : Code P Unit :=
  setGlobals fun g => { g with kernel := h g.kernel }

def makenode (level low high : ℕ) : Code P ℕ :=
  .step (.makenode level low high) (makenodeStep D isPrime level low high) .ret

def pushref (n : ℕ) : Code P Unit := update (·.pushref n)
def popref (k : ℕ) : Code P Unit := update (·.popref k)
def readref (k : ℕ) : Code P ℕ := look (·.kernel.readref k)
def initref : Code P Unit := update (·.initref)

/-- The functions that `bdd_disable_reorder` and `bdd_enable_reorder` name, as the library calls
them itself. -/
def disableReorder : Code P Unit := setGlobals fun g => { g with reorderdisabled := true }
def enableReorder : Code P Unit := setGlobals fun g => { g with reorderdisabled := false }

def error (e : BddError) : Code P Unit := update (·.error e)

/-- `CHECKa`. -/
def checka (r : ℕ) (body : Code P ℕ) : Code P ℕ := do
  match ← look (·.check r) with
  | some e => do
    error e
    pure 0
  | none => body

/-! ## Recursions -/

/-- `memo` as a program. -/
def memo (k : CacheId) (hash : UInt32) (hit : BddCacheData → Bool)
    (fill : BddCacheData → ℕ → BddCacheData) (body : Code P ℕ) : Code P ℕ := do
  let i ← look fun g => (g.kernel.caches k).lookup hash
  let found ← look fun g => if (g.kernel.caches k).isValid i && hit (g.kernel.entry k i) then
      some (g.kernel.entry k i).res else none
  match found with
  | some res => pure res
  | none => do
    let res ← body
    update fun s => s.store k i (fill (s.entry k i) res)
    pure res

/-- `branch` as a program. -/
def branch (lowCall highCall : Code P ℕ) (combine : ℕ → ℕ → Code P ℕ) : Code P ℕ := do
  let r0 ← lowCall
  pushref r0
  let r1 ← highCall
  pushref r1
  let low ← readref 2
  let high ← readref 1
  let res ← combine low high
  popref 2
  pure res

def nodeAt (n low high : ℕ) : Code P ℕ := do
  let level ← look (·.kernel.level n)
  makenode D isPrime level low high

def lowOf (n : ℕ) : Code P ℕ := look (·.kernel.low n)
def highOf (n : ℕ) : Code P ℕ := look (·.kernel.high n)

def notRec : ℕ → ℕ → Code P ℕ
  | 0, _ => .stuck
  | fuel + 1, r =>
    if r = 0 then pure 1
    else if r = 1 then pure 0
    else memo .apply (hash1 (.ofNat r)) (fun e => e.a = r && e.c = bddopNot)
      (fun e res => { e with
        a := r
        c := bddopNot
        res := res })
      (branch (do notRec fuel (← lowOf r)) (do notRec fuel (← highOf r)) (nodeAt D isPrime r))

/-- Split the operands of a binary recursion at the higher of their levels. -/
def splitTwo (rec' : ℕ → ℕ → Code P ℕ) (l r : ℕ) : Code P ℕ := do
  let s ← look (·.kernel)
  if s.level l = s.level r then
    branch (do rec' (← lowOf l) (← lowOf r)) (do rec' (← highOf l) (← highOf r)) (nodeAt D isPrime l)
  else if s.level l < s.level r then
    branch (do rec' (← lowOf l) r) (do rec' (← highOf l) r) (nodeAt D isPrime l)
  else
    branch (do rec' l (← lowOf r)) (do rec' l (← highOf r)) (nodeAt D isPrime r)

/-- Split the operands for which the flag is set; `top` is one of them. -/
def splitAt (rec' : ℕ → ℕ → ℕ → Code P ℕ) (f g h top : ℕ) (sf sg sh : Bool) : Code P ℕ :=
  let low (split : Bool) (n : ℕ) : Code P ℕ := if split then lowOf n else pure n
  let high (split : Bool) (n : ℕ) : Code P ℕ := if split then highOf n else pure n
  branch (do rec' (← low sf f) (← low sg g) (← low sh h))
    (do rec' (← high sf f) (← high sg g) (← high sh h)) (nodeAt D isPrime top)

/-- Split the operands of an if-then-else at the highest of their levels. -/
def splitThree (rec' : ℕ → ℕ → ℕ → Code P ℕ) (f g h : ℕ) : Code P ℕ := do
  let s ← look (·.kernel)
  let split := splitAt D isPrime rec' f g h
  if s.level f = s.level g then
    if s.level f = s.level h then split f true true true
    else if s.level f < s.level h then split f true true false
    else split h false false true
  else if s.level f < s.level g then
    if s.level f = s.level h then split f true false true
    else if s.level f < s.level h then split f true false false
    else split h false false true
  else
    if s.level g = s.level h then split g false true true
    else if s.level g < s.level h then split g false true false
    else split h false false true

def applyRec (applyop : BddOp) : ℕ → ℕ → ℕ → Code P ℕ
  | 0, _, _ => .stuck
  | fuel + 1, l, r =>
    match applyShortcut applyop l r with
    | some res => pure res
    | none =>
      if l < 2 ∧ r < 2 then pure ((oprres applyop).getD (l <<< 1 ||| r) 0)
      else memo .apply (hash3 (.ofNat l) (.ofNat r) (.ofNat applyop.code))
        (fun e => e.a = l && e.b = r && e.c = applyop.code)
        (fun e res => { e with
          a := l
          b := r
          c := applyop.code
          res := res })
        (splitTwo D isPrime (applyRec applyop fuel) l r)

def iteRec : ℕ → ℕ → ℕ → ℕ → Code P ℕ
  | 0, _, _, _ => .stuck
  | fuel + 1, f, g, h =>
    if f = 1 then pure g
    else if f = 0 then pure h
    else if g = h then pure g
    else if g = 1 ∧ h = 0 then pure f
    else if g = 0 ∧ h = 1 then notRec D isPrime depth f
    else memo .ite (hash3 (.ofNat f) (.ofNat g) (.ofNat h))
      (fun e => e.a = f && e.b = g && e.c = h)
      (fun e res => { e with
        a := f
        b := g
        c := h
        res := res })
      (splitThree D isPrime (iteRec fuel) f g h)

def quantAt (applyop : BddOp) (n low high : ℕ) : Code P ℕ := do
  if ← look fun g => g.kernel.invarset (g.kernel.level n) then
    applyRec D isPrime applyop depth low high
  else
    nodeAt D isPrime n low high

def quantRec (applyop : BddOp) (quantid : UInt32) (quantlast : ℕ) : ℕ → ℕ → Code P ℕ
  | 0, _ => .stuck
  | fuel + 1, r => do
    if ← look fun g => decide (r < 2 ∨ g.kernel.level r > quantlast) then
      return r
    memo .quant (hash1 (.ofNat r)) (fun e => e.a = r && e.c = quantid.toNat)
      (fun e res => { e with
        a := r
        c := quantid.toNat
        res := res })
      (branch (do quantRec applyop quantid quantlast fuel (← lowOf r))
        (do quantRec applyop quantid quantlast fuel (← highOf r))
        (quantAt D isPrime applyop r))

end Code

end MoToBuddy.Bdd
