import MoToBuddy.Bdd.Kernel
import MoToBuddy.Bdd.Tag

/-!
# The recursive operations (`bddop.c`)

Every recursion looks into its cache, calls itself on both cofactors, keeping the results on the
reference stack, and puts a node on top. The statics that an operation sets before it starts its
recursion (`applyop`, `quantid`, ...) are arguments here.

* A recursion descends one level at a time, so that `depth` steps are enough; `none` stands for
  running out of them.
* The reference stack is unbounded: the recursions put two entries on it for each level, and
  `bdd_setvarnum` makes room for more.
* Automatic reordering is off, so that no operation starts over.
-/

namespace MoToBuddy.Bdd

/-! ## Operators -/

/-- `bddop_*`, as far as `bdd_apply` takes them. -/
inductive BddOp
  | and | xor | or | nand | nor | imp | biimp | diff | less | invimp
  deriving DecidableEq, Repr

/-- The code of an operator. -/
def BddOp.code : BddOp → ℕ
  | .and => 0
  | .xor => 1
  | .or => 2
  | .nand => 3
  | .nor => 4
  | .imp => 5
  | .biimp => 6
  | .diff => 7
  | .less => 8
  | .invimp => 9

/-- The operator with a code. -/
def BddOp.ofCode : ℕ → Option BddOp
  | 0 => some .and
  | 1 => some .xor
  | 2 => some .or
  | 3 => some .nand
  | 4 => some .nor
  | 5 => some .imp
  | 6 => some .biimp
  | 7 => some .diff
  | 8 => some .less
  | 9 => some .invimp
  | _ => none

/-- `bddop_not`. -/
abbrev bddopNot : ℕ := 10

/-- `oprres`, indexed by `left << 1 | right`. -/
def oprres : BddOp → List ℕ
  | .and => [0, 0, 0, 1]
  | .xor => [0, 1, 1, 0]
  | .or => [0, 1, 1, 1]
  | .nand => [1, 1, 1, 0]
  | .nor => [1, 0, 0, 0]
  | .imp => [1, 1, 0, 1]
  | .biimp => [1, 0, 0, 1]
  | .diff => [0, 0, 1, 0]
  | .less => [0, 1, 0, 0]
  | .invimp => [1, 0, 1, 1]

section

variable {P : Type*} (D : MtbddDomain P) (isPrime : ℕ → Bool)

/-- More steps than there are levels. -/
abbrev depth : ℕ := maxlevel + 1

/-- Look into a cache, and store the result of `body` if it is not there. -/
def memo (k : CacheId) (hash : UInt32) (hit : BddCacheData → Bool)
    (fill : BddCacheData → ℕ → BddCacheData) (body : BddState P → Option (ℕ × BddState P))
    (s : BddState P) : Option (ℕ × BddState P) :=
  let i := (s.caches k).lookup hash
  if (s.caches k).isValid i && hit (s.entry k i) then some ((s.entry k i).res, s)
  else do
    let (res, s) ← body s
    some (res, s.store k i (fill (s.entry k i) res))

/-- Call `lowCall` and `highCall`, with the results on the reference stack, and combine them. -/
def branch (lowCall highCall : BddState P → Option (ℕ × BddState P))
    (combine : ℕ → ℕ → BddState P → Option (ℕ × BddState P)) (s : BddState P) :
    Option (ℕ × BddState P) := do
  let (r0, s) ← lowCall s
  let s := s.pushref r0
  let (r1, s) ← highCall s
  let s := s.pushref r1
  let (res, s) ← combine (s.readref 2) (s.readref 1) s
  some (res, s.popref 2)

/-- A node at the level of `n` on top of the two results. -/
def nodeAt (n low high : ℕ) (s : BddState P) : Option (ℕ × BddState P) :=
  some (bddMakenode D isPrime s (s.level n) low high)

/-! ## `bdd_not` -/

/-- `not_rec`. -/
def notRec : ℕ → ℕ → BddState P → Option (ℕ × BddState P)
  | 0, _, _ => none
  | fuel + 1, r, s =>
    if r = 0 then some (1, s)
    else if r = 1 then some (0, s)
    else memo .apply (hash1 (.ofNat r)) (fun e => e.a = r && e.c = bddopNot)
      (fun e res => { e with
        a := r
        c := bddopNot
        res := res })
      (branch (fun s => notRec fuel (s.low r) s) (fun s => notRec fuel (s.high r) s)
        (nodeAt D isPrime r)) s

/-! ## `bdd_apply` -/

/-- The `switch` at the start of `apply_rec`. -/
def applyShortcut (op : BddOp) (l r : ℕ) : Option ℕ :=
  match op with
  | .and =>
    if l = r then some l
    else if l = 0 ∨ r = 0 then some 0
    else if l = 1 then some r
    else if r = 1 then some l
    else none
  | .or =>
    if l = r then some l
    else if l = 1 ∨ r = 1 then some 1
    else if l = 0 then some r
    else if r = 0 then some l
    else none
  | .xor =>
    if l = r then some 0
    else if l = 0 then some r
    else if r = 0 then some l
    else none
  | .nand => if l = 0 ∨ r = 0 then some 1 else none
  | .nor => if l = 1 ∨ r = 1 then some 0 else none
  | .imp =>
    if l = 0 then some 1
    else if l = 1 then some r
    else if r = 1 then some 1
    else none
  | _ => none

/-- `apply_rec`. -/
def applyRec (applyop : BddOp) : ℕ → ℕ → ℕ → BddState P → Option (ℕ × BddState P)
  | 0, _, _, _ => none
  | fuel + 1, l, r, s =>
    match applyShortcut applyop l r with
    | some res => some (res, s)
    | none =>
      if l < 2 ∧ r < 2 then some ((oprres applyop).getD (l <<< 1 ||| r) 0, s)
      else memo .apply (hash3 (.ofNat l) (.ofNat r) (.ofNat applyop.code))
        (fun e => e.a = l && e.b = r && e.c = applyop.code)
        (fun e res => { e with
          a := l
          b := r
          c := applyop.code
          res := res })
        (fun s =>
          if s.level l = s.level r then
            branch (fun s => applyRec applyop fuel (s.low l) (s.low r) s)
              (fun s => applyRec applyop fuel (s.high l) (s.high r) s) (nodeAt D isPrime l) s
          else if s.level l < s.level r then
            branch (fun s => applyRec applyop fuel (s.low l) r s)
              (fun s => applyRec applyop fuel (s.high l) r s) (nodeAt D isPrime l) s
          else
            branch (fun s => applyRec applyop fuel l (s.low r) s)
              (fun s => applyRec applyop fuel l (s.high r) s) (nodeAt D isPrime r) s) s

/-! ## `bdd_ite` -/

/-- `ite_rec`. -/
def iteRec : ℕ → ℕ → ℕ → ℕ → BddState P → Option (ℕ × BddState P)
  | 0, _, _, _, _ => none
  | fuel + 1, f, g, h, s =>
    if f = 1 then some (g, s)
    else if f = 0 then some (h, s)
    else if g = h then some (g, s)
    else if g = 1 ∧ h = 0 then some (f, s)
    else if g = 0 ∧ h = 1 then notRec D isPrime depth f s
    else memo .ite (hash3 (.ofNat f) (.ofNat g) (.ofNat h))
      (fun e => e.a = f && e.b = g && e.c = h)
      (fun e res => { e with
        a := f
        b := g
        c := h
        res := res })
      (fun s =>
        if s.level f = s.level g then
          if s.level f = s.level h then
            branch (fun s => iteRec fuel (s.low f) (s.low g) (s.low h) s)
              (fun s => iteRec fuel (s.high f) (s.high g) (s.high h) s) (nodeAt D isPrime f) s
          else if s.level f < s.level h then
            branch (fun s => iteRec fuel (s.low f) (s.low g) h s)
              (fun s => iteRec fuel (s.high f) (s.high g) h s) (nodeAt D isPrime f) s
          else
            branch (fun s => iteRec fuel f g (s.low h) s)
              (fun s => iteRec fuel f g (s.high h) s) (nodeAt D isPrime h) s
        else if s.level f < s.level g then
          if s.level f = s.level h then
            branch (fun s => iteRec fuel (s.low f) g (s.low h) s)
              (fun s => iteRec fuel (s.high f) g (s.high h) s) (nodeAt D isPrime f) s
          else if s.level f < s.level h then
            branch (fun s => iteRec fuel (s.low f) g h s)
              (fun s => iteRec fuel (s.high f) g h s) (nodeAt D isPrime f) s
          else
            branch (fun s => iteRec fuel f g (s.low h) s)
              (fun s => iteRec fuel f g (s.high h) s) (nodeAt D isPrime h) s
        else
          if s.level g = s.level h then
            branch (fun s => iteRec fuel f (s.low g) (s.low h) s)
              (fun s => iteRec fuel f (s.high g) (s.high h) s) (nodeAt D isPrime g) s
          else if s.level g < s.level h then
            branch (fun s => iteRec fuel f (s.low g) h s)
              (fun s => iteRec fuel f (s.high g) h s) (nodeAt D isPrime g) s
          else
            branch (fun s => iteRec fuel f g (s.low h) s)
              (fun s => iteRec fuel f g (s.high h) s) (nodeAt D isPrime h) s) s

/-! ## Quantification -/

/-- The loop of `varset2vartable` over the set, from `n` on: the marks and `quantlast`. -/
def varsetLoop (s : BddState P) (id : ℤ) : ℕ → ℕ → (ℕ → ℤ) → ℕ → Option ((ℕ → ℤ) × ℕ)
  | 0, _, _, _ => none
  | fuel + 1, n, marks, quantlast =>
    if n > 1 then varsetLoop s id fuel (s.high n) (Function.update marks (s.level n) id) (s.level n)
    else some (marks, quantlast)

/-- `varset2vartable`, for a set that is not empty: `quantlast` and the state with the marks. -/
def varset2vartable (s : BddState P) (r : ℕ) : Option (ℕ × BddState P) :=
  let id := s.env.quantvarsetID + 1
  let (id, marks) := if id = intMax then
      (1, fun level => if level < s.env.bddvarnum then 0 else s.env.quantvarset level)
    else (id, s.env.quantvarset)
  (varsetLoop s id depth r marks 0).map fun (marks, quantlast) =>
    (quantlast, { s with env := { s.env with
      quantvarset := marks
      quantvarsetID := id } })

/-- `INVARSET`. -/
def BddState.invarset (s : BddState P) (level : ℕ) : Bool :=
  s.env.quantvarset level = s.env.quantvarsetID

/-- The operator that a quantifier combines the cofactors with. -/
def Quantifier.applyop : Quantifier → BddOp
  | .exist => .or
  | .forall_ => .and
  | .unique => .xor

/-- Quantify at the level of `n` if it is in the set, else put a node on top. -/
def quantAt (applyop : BddOp) (n low high : ℕ) (s : BddState P) : Option (ℕ × BddState P) :=
  if s.invarset (s.level n) then applyRec D isPrime applyop depth low high s
  else nodeAt D isPrime n low high s

/-- `quant_rec`. -/
def quantRec (applyop : BddOp) (quantid : UInt32) (quantlast : ℕ) :
    ℕ → ℕ → BddState P → Option (ℕ × BddState P)
  | 0, _, _ => none
  | fuel + 1, r, s =>
    if r < 2 ∨ s.level r > quantlast then some (r, s)
    else memo .quant (hash1 (.ofNat r)) (fun e => e.a = r && e.c = quantid.toNat)
      (fun e res => { e with
        a := r
        c := quantid.toNat
        res := res })
      (branch (fun s => quantRec applyop quantid quantlast fuel (s.low r) s)
        (fun s => quantRec applyop quantid quantlast fuel (s.high r) s)
        (quantAt D isPrime applyop r)) s

/-- The end of a shortcut of `appquant_rec`: a constant, or an operand to be quantified. -/
inductive AppquantShortcut
  | const (n : ℕ)
  | quant (n : ℕ)

/-- The `switch` at the start of `appquant_rec`. -/
def appquantShortcut (appexop : BddOp) (l r : ℕ) : Option AppquantShortcut :=
  match appexop with
  | .and =>
    if l = 0 ∨ r = 0 then some (.const 0)
    else if l = r then some (.quant l)
    else if l = 1 then some (.quant r)
    else if r = 1 then some (.quant l)
    else none
  | .or =>
    if l = 1 ∨ r = 1 then some (.const 1)
    else if l = r then some (.quant l)
    else if l = 0 then some (.quant r)
    else if r = 0 then some (.quant l)
    else none
  | .xor =>
    if l = r then some (.const 0)
    else if l = 0 then some (.quant r)
    else if r = 0 then some (.quant l)
    else none
  | .nand => if l = 0 ∨ r = 0 then some (.const 1) else none
  | .nor => if l = 1 ∨ r = 1 then some (.const 0) else none
  | _ => none

/-- `appquant_rec`. -/
def appquantRec (applyop appexop : BddOp) (appexid quantid : UInt32) (quantlast : ℕ) :
    ℕ → ℕ → ℕ → BddState P → Option (ℕ × BddState P)
  | 0, _, _, _ => none
  | fuel + 1, l, r, s =>
    match appquantShortcut appexop l r with
    | some (.const n) => some (n, s)
    | some (.quant n) => quantRec D isPrime applyop quantid quantlast depth n s
    | none =>
      if l < 2 ∧ r < 2 then some ((oprres appexop).getD (l <<< 1 ||| r) 0, s)
      else if s.level l > quantlast ∧ s.level r > quantlast then
        applyRec D isPrime appexop depth l r s
      else memo .appex (hash2 (.ofNat l) (.ofNat r))
        (fun e => e.a = l && e.b = r && e.c = appexid.toNat)
        (fun e res => { e with
          a := l
          b := r
          c := appexid.toNat
          res := res })
        (fun s =>
          let rec' := appquantRec applyop appexop appexid quantid quantlast fuel
          if s.level l = s.level r then
            branch (fun s => rec' (s.low l) (s.low r) s) (fun s => rec' (s.high l) (s.high r) s)
              (quantAt D isPrime applyop l) s
          else if s.level l < s.level r then
            branch (fun s => rec' (s.low l) r s) (fun s => rec' (s.high l) r s)
              (quantAt D isPrime applyop l) s
          else
            branch (fun s => rec' l (s.low r) s) (fun s => rec' l (s.high r) s)
              (quantAt D isPrime applyop r) s) s

/-! ## Entry points -/

/-- The search of `bdd_prime_gte` from an odd number upwards. There is a prime below twice any
number, so that `n` steps are enough. -/
def primeUp : ℕ → ℕ → ℕ
  | 0, n => n
  | steps + 1, n => if isPrime n then n else primeUp steps (n + 2)

/-- `bdd_prime_gte`. -/
def bddPrimeGte (src : ℕ) : ℕ := primeUp isPrime src (if src % 2 = 0 then src + 1 else src)

/-- `bdd_operator_noderesize`, for the caches of the plain and of the terminal operations. -/
def operatorNoderesize (s : BddState P) : BddState P :=
  if s.env.cacheratio > 0 then
    { s with caches := fun k =>
        (s.caches k).resize (bddPrimeGte isPrime (s.bddnodesize / s.env.cacheratio)) }
  else s

/-- `checkresize`. -/
def checkresize (s : BddState P) : BddState P :=
  { (if s.bddresized then operatorNoderesize isPrime s else s) with bddresized := false }

/-- `CHECKa`, which returns `bddfalse` for an id that is not a node. -/
def checka (r : ℕ) (body : BddState P → Option (ℕ × BddState P)) (s : BddState P) :
    Option (ℕ × BddState P) :=
  if r ≥ s.bddnodesize then some (0, s.error .illbdd)
  else if 2 ≤ r ∧ s.isFree r then some (0, s.error .illbdd)
  else body s

/-- `INITREF`, the recursion, and the end of an operation. -/
def operation (rec : BddState P → Option (ℕ × BddState P)) (s : BddState P) :
    Option (ℕ × BddState P) := do
  let (res, s) ← rec s.initref
  some (res, checkresize isPrime s)

/-- `bdd_not`. -/
def bddNot (r : ℕ) : BddState P → Option (ℕ × BddState P) :=
  checka r (operation isPrime (notRec D isPrime depth r))

/-- `bdd_apply`. -/
def bddApply (l r op : ℕ) : BddState P → Option (ℕ × BddState P) :=
  checka l (checka r fun s =>
    match BddOp.ofCode op with
    | none => some (0, s.error .op)
    | some op => operation isPrime (applyRec D isPrime op depth l r) s)

/-- `bdd_ite`. -/
def bddIte (f g h : ℕ) : BddState P → Option (ℕ × BddState P) :=
  checka f (checka g (checka h (operation isPrime (iteRec D isPrime depth f g h))))

/-- `bdd_exist`, `bdd_forall` and `bdd_unique`, which differ in the operator and in the tag. -/
def bddQuant (q : Quantifier) (r var : ℕ) : BddState P → Option (ℕ × BddState P) :=
  checka r (checka var fun s =>
    if var < 2 then some (r, s)
    else do
      let (quantlast, s) ← varset2vartable s var
      operation isPrime
        (quantRec D isPrime q.applyop (quantid var q.cacheid) quantlast depth r) s)

/-- `bdd_exist`. -/
def bddExist (r var : ℕ) : BddState P → Option (ℕ × BddState P) :=
  bddQuant D isPrime .exist r var

/-- `bdd_forall`. -/
def bddForall (r var : ℕ) : BddState P → Option (ℕ × BddState P) :=
  bddQuant D isPrime .forall_ r var

/-- `bdd_appex`, `bdd_appall` and `bdd_appuni`, which differ in the operator and in the tags. -/
def bddAppquant (q : Quantifier) (l r opr var : ℕ) : BddState P → Option (ℕ × BddState P) :=
  checka l (checka r (checka var fun s =>
    match BddOp.ofCode opr with
    | none => some (0, s.error .op)
    | some op =>
      if var < 2 then bddApply D isPrime l r opr s
      else do
        let (quantlast, s) ← varset2vartable s var
        operation isPrime
          (appquantRec D isPrime q.applyop op (appexid var opr q.appKind)
            (appexQuantid var opr q.appKind q.appCacheid) quantlast depth l r) s))

/-- `bdd_appex`. -/
def bddAppex (l r opr var : ℕ) : BddState P → Option (ℕ × BddState P) :=
  bddAppquant D isPrime .exist l r opr var

/-- `bdd_appall`. -/
def bddAppall (l r opr var : ℕ) : BddState P → Option (ℕ × BddState P) :=
  bddAppquant D isPrime .forall_ l r opr var

end

end MoToBuddy.Bdd
