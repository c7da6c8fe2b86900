import MoToBuddy.Bdd.Globals

/-!
# Saving the environment and starting again (`bddop.c`)

All operators have the same frame: they check their arguments, save the environment and run their
recursion. After a jump the variables are reordered, and the recursion runs once more with
reordering disabled.

While reordering is not ready there is no jump, and the recursions are those of `Bdd.Operators`.
-/

namespace MoToBuddy.Bdd

open Jumping Code

variable {P : Type} (D : MtbddDomain P) (isPrime : ℕ → Bool) (R : Reordering P isPrime) {α β : Type}

/-! ## The operators -/

/-- The frame of the operators after their checks. -/
def restart (rec : Code P ℕ) : Code P ℕ :=
  .save
    (do
      initref
      rec)
    (do
      checkreorder R
      .save
        (do
          initref
          disableReorder
          let res ← rec
          enableReorder
          pure res)
        (do
          checkreorder R
          pure 0)
        .ret)
    (fun res => do
      update (checkresize isPrime)
      pure res)

/-- An operator: the result of a call that returns early, the preparation of the variable set, and
the recursion, which depends on the state before the preparation. -/
structure Operator (P : Type) where
  early : Globals P → Option (ℕ × BddState P)
  prepare : BddState P → BddState P
  recursion : BddState P → Code P ℕ

/-- The call returns before it saves the environment. -/
def Operator.leaves (op : Operator P) (g : Globals P) : Bool := (op.early g).isSome

def Operator.body (op : Operator P) : Code P ℕ := do
  match ← look op.early with
  | some (res, s) => do
    update fun _ => s
    pure res
  | none => do
    let s ← look (·.kernel)
    update op.prepare
    restart isPrime R (op.recursion s)

/-- The first error about the arguments. -/
def checkAll (args : List ℕ) (g : Globals P) : Option (ℕ × BddState P) :=
  (args.findSome? g.check).map fun e => (0, g.kernel.error e)

namespace Code

def bddNot (r : ℕ) : Operator P where
  early := checkAll [r]
  prepare := id
  recursion _ := notRec D isPrime depth r

def bddIte (f g h : ℕ) : Operator P where
  early := checkAll [f, g, h]
  prepare := id
  recursion _ := iteRec D isPrime depth f g h

def bddApply (l r op : ℕ) : Operator P where
  early g := (checkAll [l, r] g).or <|
    if (BddOp.ofCode op).isNone then some (0, g.kernel.error .op) else none
  prepare := id
  recursion _ := match BddOp.ofCode op with
    | some op => applyRec D isPrime op depth l r
    | none => .stuck

/-- `bdd_exist`, `bdd_forall` and `bdd_unique`. -/
def bddQuant (q : Quantifier) (r var : ℕ) : Operator P where
  early g := (checkAll [r, var] g).or <| if var < 2 then some (r, g.kernel) else none
  prepare s := ((varset2vartable s var).map Prod.snd).getD s
  recursion s := match varset2vartable s var with
    | some (quantlast, _) => quantRec D isPrime q.applyop (quantid var q.cacheid) quantlast depth r
    | none => .stuck

end Code

end MoToBuddy.Bdd
