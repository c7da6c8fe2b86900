import MoToBuddy.Bvec.Holds

/-!
# Vectors of nodes (`bvec.c`)

A vector is the list of its bits, the least significant first. The functions that build one return
it with references to its bits, those that test one return a node without a reference. Each has a
rule that says what it computes: the arithmetic of `Bits` on the functions of the nodes.
-/

namespace MoToBuddy.Bvec

open Bdd BoolFun Exiting Package

variable {P : Type}

/-! ## The functions -/

/-- `bvec_build`. -/
def bvecBuild (bitnum : ℕ) (isTrue : Bool) : List ℕ := List.replicate bitnum isTrue.toNat

/-- `bvec_con`, for a value that is not negative. -/
def bvecCon : ℕ → ℕ → List ℕ
  | 0, _ => []
  | bitnum + 1, val => (if val % 2 = 1 then 1 else 0) :: bvecCon bitnum (val >>> 1)

/-- `bvec_addref`. -/
def bvecAddref : List ℕ → Prog (BddState P) (List ℕ)
  | [] => return []
  | n :: v => do
    let n ← bddAddref n
    let v ← bvecAddref v
    return n :: v

/-- `bvec_delref`. -/
def bvecDelref : List ℕ → Prog (BddState P) Unit
  | [] => return ()
  | n :: v => do
    bddDelref n
    bvecDelref v

/-- `bvec_free`; the memory of the array is not followed. -/
def bvecFree (v : List ℕ) : Prog (BddState P) Unit := bvecDelref v

/-- `bvec_copy`. -/
def bvecCopy (src : List ℕ) : Prog (BddState P) (List ℕ) := bvecAddref src

/-- `bvec_coerce`. -/
def bvecCoerce (bitnum : ℕ) (v : List ℕ) : Prog (BddState P) (List ℕ) := do
  let low ← bvecAddref (v.take bitnum)
  return low ++ bvecBuild (bitnum - v.length) false

/-- `bvec_shlfixed`. -/
def bvecShlfixed (e : List ℕ) (pos : ℤ) (c : ℕ) : Prog (BddState P) (List ℕ) := do
  if pos < 0 then bddError .bvecShift
  else if e.length = 0 then return []
  else
    let minnum := min e.length pos.toNat
    let low ← bvecAddref (List.replicate minnum c)
    let high ← bvecAddref (e.take (e.length - minnum))
    return low ++ high

/-- `bvec_shrfixed`. -/
def bvecShrfixed (e : List ℕ) (pos : ℤ) (c : ℕ) : Prog (BddState P) (List ℕ) := do
  if pos < 0 then bddError .bvecShift
  else if e.length = 0 then return []
  else
    let high ← bvecAddref (List.replicate (min e.length pos.toNat) c)
    let low ← bvecAddref (e.drop pos.toNat)
    return low ++ high

section

variable (D : MtbddDomain P) (isPrime : ℕ → Bool)

/-- The loop of `bvec_add`, from the carry `c`, which is given back. -/
def addLoop : List ℕ → List ℕ → ℕ → Prog (BddState P) (List ℕ)
  | l :: ls, r :: rs, c => do
    let tmp1 ← bddAddref (← bddApply D isPrime l r .xor)
    let bit ← bddAddref (← bddApply D isPrime tmp1 c .xor)
    bddDelref tmp1
    let tmp1 ← bddAddref (← bddApply D isPrime l r .or)
    let tmp2 ← bddAddref (← bddApply D isPrime c tmp1 .and)
    bddDelref tmp1
    let tmp1 ← bddAddref (← bddApply D isPrime l r .and)
    let tmp3 ← bddAddref (← bddApply D isPrime tmp1 tmp2 .or)
    bddDelref tmp1
    bddDelref tmp2
    bddDelref c
    let res ← addLoop ls rs tmp3
    return bit :: res
  | _, _, c => do
    bddDelref c
    return []

/-- `bvec_add`. -/
def bvecAdd (l r : List ℕ) : Prog (BddState P) (List ℕ) := do
  if l.length = 0 ∨ r.length = 0 then return []
  else if l.length ≠ r.length then bddError .bvecSize
  else addLoop D isPrime l r 0

/-- The loop of `bvec_sub`, from the borrow `c`, which is given back. -/
def subLoop : List ℕ → List ℕ → ℕ → Prog (BddState P) (List ℕ)
  | l :: ls, r :: rs, c => do
    let tmp1 ← bddAddref (← bddApply D isPrime l r .xor)
    let bit ← bddAddref (← bddApply D isPrime tmp1 c .xor)
    bddDelref tmp1
    let tmp1 ← bddAddref (← bddApply D isPrime r c .or)
    let tmp2 ← bddAddref (← bddApply D isPrime l tmp1 .less)
    bddDelref tmp1
    let tmp1 ← bddAddref (← bddApply D isPrime l r .and)
    let tmp3 ← bddAddref (← bddApply D isPrime tmp1 c .and)
    bddDelref tmp1
    let tmp1 ← bddAddref (← bddApply D isPrime tmp3 tmp2 .or)
    bddDelref tmp2
    bddDelref tmp3
    bddDelref c
    let res ← subLoop ls rs tmp1
    return bit :: res
  | _, _, c => do
    bddDelref c
    return []

/-- `bvec_sub`. -/
def bvecSub (l r : List ℕ) : Prog (BddState P) (List ℕ) := do
  if l.length = 0 ∨ r.length = 0 then return []
  else if l.length ≠ r.length then bddError .bvecSize
  else subLoop D isPrime l r 0

/-- The loop of `bvec_lth` and `bvec_lte`, from `p`. -/
def lessLoop : List ℕ → List ℕ → ℕ → Prog (BddState P) ℕ
  | l :: ls, r :: rs, p => do
    let tmp1 ← bddAddref (← bddApply D isPrime l r .less)
    let tmp2 ← bddAddref (← bddApply D isPrime l r .biimp)
    let tmp3 ← bddAddref (← bddApply D isPrime tmp2 p .and)
    let tmp4 ← bddAddref (← bddApply D isPrime tmp1 tmp3 .or)
    bddDelref tmp1
    bddDelref tmp2
    bddDelref tmp3
    bddDelref p
    lessLoop ls rs tmp4
  | _, _, p => do
    bddDelref p
    return p

/-- `bvec_lth`. -/
def bvecLth (l r : List ℕ) : Prog (BddState P) ℕ := do
  if l.length = 0 ∨ r.length = 0 then return 0
  else if l.length ≠ r.length then bddError .bvecSize
  else lessLoop D isPrime l r 0

/-- `bvec_lte`. -/
def bvecLte (l r : List ℕ) : Prog (BddState P) ℕ := do
  if l.length = 0 ∨ r.length = 0 then return 0
  else if l.length ≠ r.length then bddError .bvecSize
  else lessLoop D isPrime l r 1

/-- The loop of `bvec_equ`, from `p`. -/
def equLoop : List ℕ → List ℕ → ℕ → Prog (BddState P) ℕ
  | l :: ls, r :: rs, p => do
    let tmp1 ← bddAddref (← bddApply D isPrime l r .biimp)
    let tmp2 ← bddAddref (← bddApply D isPrime tmp1 p .and)
    bddDelref tmp1
    bddDelref p
    equLoop ls rs tmp2
  | _, _, p => do
    bddDelref p
    return p

/-- `bvec_equ`. -/
def bvecEqu (l r : List ℕ) : Prog (BddState P) ℕ := do
  if l.length = 0 ∨ r.length = 0 then return 0
  else if l.length ≠ r.length then bddError .bvecSize
  else equLoop D isPrime l r 1

/-- The negation of a test, in `bvec_gth`, `bvec_gte` and `bvec_neq`. -/
def negated (test : Prog (BddState P) ℕ) : Prog (BddState P) ℕ := do
  let tmp ← bddAddref (← test)
  let p ← bddNot D isPrime tmp
  bddDelref tmp
  return p

/-- `bvec_gth`. -/
def bvecGth (l r : List ℕ) : Prog (BddState P) ℕ := negated D isPrime (bvecLte D isPrime l r)

/-- `bvec_gte`. -/
def bvecGte (l r : List ℕ) : Prog (BddState P) ℕ := negated D isPrime (bvecLth D isPrime l r)

/-- `bvec_neq`. -/
def bvecNeq (l r : List ℕ) : Prog (BddState P) ℕ := negated D isPrime (bvecEqu D isPrime l r)

/-- The loop in `bvec_mul` and `bvec_div` that puts `bdd_ite` of a bit and `added` in place of
`res`. -/
def replaceLoop (bit : ℕ) : List ℕ → List ℕ → Prog (BddState P) (List ℕ)
  | a :: added, r :: res => do
    let tmp ← bddAddref (← bddIte D isPrime bit a r)
    bddDelref r
    let res ← replaceLoop bit added res
    return tmp :: res
  | _, _ => return []

end

end MoToBuddy.Bvec
