import MoToBuddy.Bdd.Full

/-!
# Pairs of variables (`pairs.c`)

A `Package` is the diagrams with the pairs in use. A pair has an entry for each level, which moves
with its variable when levels are swapped, and an id under which results are cached. Whenever a
pair is changed it gets a new id.

* Pointers are numbers; `0` is `NULL`, the only pointer without a pair that a function may be given.
* `malloc` and `realloc` succeed.
* `bdd_setpairs` and `bdd_setbddpairs` are loops of `bdd_setpair` and `bdd_setbddpair`.
-/

namespace MoToBuddy.Bdd

/-- The diagrams and the pairs in use. -/
structure Package (P : Type*) where
  bdd : BddState P
  pairs : List (ℕ × BddPair)
  pairsid : ℕ

/-- Swap the entries for two levels next to each other. -/
def swapAt (level : ℕ) (f : ℕ → ℕ) : ℕ → ℕ :=
  Function.update (Function.update f level (f (level + 1))) (level + 1) (f level)

/-- `INT_MAX >> 2`. -/
abbrev maxPairsid : ℕ := 2 ^ 29 - 1

/-- Write to the pair at an address. -/
def modifyAt (pair : ℕ) (f : BddPair → BddPair) (p : ℕ × BddPair) : ℕ × BddPair :=
  if p.1 = pair then (p.1, f p.2) else p

namespace Package

variable {P : Type*} (D : MtbddDomain P) (isPrime : ℕ → Bool) (w : Package P)

/-- `bdd_error`. -/
def error (e : BddError) : Package P := { w with bdd := w.bdd.error e }

/-- Write to the pair that is pointed to. -/
def modify (pair : ℕ) (f : BddPair → BddPair) : Package P :=
  { w with pairs := w.pairs.map (modifyAt pair f) }

/-- The pairs with the numbers of their places as ids. -/
def renumber (pairs : List (ℕ × BddPair)) : List (ℕ × BddPair) :=
  pairs.mapIdx fun n p => (p.1, { p.2 with id := n })

/-- `update_pairsid`: the new id, for the pair that is about to get it. -/
def updatePairsid : ℕ × Package P :=
  let pairsid := w.pairsid + 1
  if pairsid = maxPairsid then
    (w.pairs.length,
      { bdd := { w.bdd with caches := w.bdd.caches.reset }
        pairs := renumber w.pairs
        pairsid := w.pairs.length })
  else (pairsid, { w with pairsid := pairsid })

/-- Give a pair a new id. -/
def refresh (pair : ℕ) : Package P :=
  let (id, w) := w.updatePairsid
  w.modify pair fun p => { p with id := id }

/-- `bdd_newpair`, at the address `pair`. -/
def newpair (pair : ℕ) : Package P :=
  let result := fun n => (bddIthvar w.bdd (w.bdd.env.bddlevel2var n)).1
  let (id, w) := w.updatePairsid
  { w with pairs := (pair, ⟨result, -1, id⟩) :: w.pairs }

/-- The end of `bdd_setpair` and `bdd_setbddpair`: the entry, the id and the last level. -/
def setEntry (pair level new : ℕ) : Package P :=
  let w := w.modify pair fun p => { p with result := Function.update p.result level new }
  let w := w.refresh pair
  w.modify pair fun p => { p with last := if (level : ℤ) > p.last then level else p.last }

/-- `bdd_setpair`. -/
def setpair (pair : ℕ) (oldvar newvar : ℤ) : ℤ × Package P :=
  match w.pairs.lookup pair with
  | none => (0, w)
  | some p =>
    if oldvar < 0 ∨ oldvar > w.bdd.env.bddvarnum - 1 then (errorCode .var, w.error .var)
    else if newvar < 0 ∨ newvar > w.bdd.env.bddvarnum - 1 then (errorCode .var, w.error .var)
    else
      let level := w.bdd.env.bddvar2level oldvar.toNat
      let s := bddDelref w.bdd (p.result level)
      let (new, s) := bddIthvar s newvar.toNat
      (0, { w with bdd := s }.setEntry pair level new)

/-- `bdd_setbddpair`. -/
def setbddpair (pair : ℕ) (oldvar : ℤ) (newvar : ℕ) : ℤ × Package P :=
  match w.pairs.lookup pair with
  | none => (0, w)
  | some p =>
    if newvar ≥ w.bdd.bddnodesize then (errorCode .illbdd, w.error .illbdd)
    else if 2 ≤ newvar ∧ w.bdd.isFree newvar then (errorCode .illbdd, w.error .illbdd)
    else if oldvar < 0 ∨ oldvar ≥ w.bdd.env.bddvarnum then (errorCode .var, w.error .var)
    else
      let oldlevel := w.bdd.env.bddvar2level oldvar.toNat
      let s := bddDelref w.bdd (p.result oldlevel)
      let s := bddAddref s newvar
      (0, { w with bdd := s }.setEntry pair oldlevel newvar)

/-- `bdd_resetpair`. -/
def resetpair (pair : ℕ) : Package P :=
  let w := w.modify pair fun p => { p with
    result := fun n => if n < w.bdd.env.bddvarnum then (bddIthvar w.bdd n).1 else p.result n
    last := 0 }
  w.refresh pair

/-- `bdd_freepair`. -/
def freepair (pair : ℕ) : Package P :=
  match w.pairs.lookup pair with
  | none => w
  | some p =>
    { w with
      bdd := CountedLoop.forUp 0 w.bdd.env.bddvarnum (fun n s => bddDelref s (p.result n)) w.bdd
      pairs := w.pairs.filter fun q => q.1 ≠ pair }

/-- `bdd_pairs_vardown`. -/
def pairsVardown (level : ℕ) : Package P :=
  { w with pairs := w.pairs.map fun p => (p.1, { p.2 with
      result := swapAt level p.2.result
      last := if p.2.last = level then p.2.last + 1 else p.2.last }) }

/-- `bdd_pairs_resize`. -/
def pairsResize (oldsize newsize : ℕ) : Package P :=
  { w with pairs := w.pairs.map fun p => (p.1, { p.2 with
      result := fun n =>
        if oldsize ≤ n ∧ n < newsize then (bddIthvar w.bdd (w.bdd.env.bddlevel2var n)).1
        else p.2.result n }) }

/-- `bdd_setvarnum`. If it fails the number of variables stays, and no pair is resized. -/
def setvarnum (num : ℕ) : Package P :=
  let s := bddSetvarnum D isPrime w.bdd num
  { w with bdd := s }.pairsResize w.bdd.env.bddvarnum s.env.bddvarnum

end Package

end MoToBuddy.Bdd
