import MoToBuddy.Reorder.Blockdown
import Mathlib.Algebra.Ring.Int.Defs

/-!
# Sifting (`reorder.c`)

`reorder_sift_bestpos` moves one block through the list of its siblings, `reorder_sift` does so with
each of them, and `reorder_siftite` repeats that. The number of nodes is a function of the order.
-/

namespace MoToBuddy.Reorder

open Bdd (BddEnv)
open CountedLoop Interleaving

/-- The variables of `reorder_sift_bestpos`. `tried` has the orders that the block has been through,
which the source does not record. -/
structure Walk where
  s : Blocks
  best : ℕ
  maxAllowed : ℤ
  bestpos : ℤ
  first : Bool
  tried : List (List ℕ)

/-- How many nodes may be in use before the walk turns around. -/
def maxAllowed (env : BddEnv) (best : ℕ) : ℤ :=
  if env.bddmaxnodesize > 0 then
    min (best / 5 + best : ℕ) (env.bddmaxnodesize - env.bddmaxnodeincrease - 2)
  else (best / 5 + best : ℕ)

variable (nodenum : List ℕ → ℕ)

/-- `reorder_nodenum`. -/
def reorderNodenum (s : Blocks) : ℕ := nodenum (order s.env)

/-- The test of the walk in one direction. -/
def walkOn (blk : ℕ) (dirIsUp : Bool) (w : Walk) : Bool :=
  (if dirIsUp then (w.s.tree blk).prev else (w.s.tree blk).next).isSome &&
    (decide (reorderNodenum nodenum w.s ≤ w.maxAllowed) || w.first)

/-- A step of the walk in one direction. -/
def walkStep (fuel blk : ℕ) (dirIsUp : Bool) (w : Walk) : Option Walk := do
  let left ← (if dirIsUp then (w.s.tree blk).prev else some blk : Option ℕ)
  let s ← blockdown fuel left w.s
  let bestpos := if dirIsUp then w.bestpos - 1 else w.bestpos + 1
  let tried := order s.env :: w.tried
  if reorderNodenum nodenum s < w.best then
    let best := reorderNodenum nodenum s
    return { s, best, maxAllowed := maxAllowed s.env best, bestpos := 0, first := false, tried }
  else
    return { w with s, bestpos, first := false, tried }

/-- A walk in one direction. -/
def walk (fuel blk : ℕ) (dirIsUp : Bool) (w : Walk) : Option Walk :=
  whileDo (walkOn nodenum blk dirIsUp) (walkStep nodenum fuel blk dirIsUp) fuel
    { w with first := true }

/-- A step down to the best position. -/
def moveDown (fuel blk : ℕ) (w : Walk) : Option Walk := do
  let s ← blockdown fuel blk w.s
  return { w with s, bestpos := w.bestpos + 1 }

/-- A step up to the best position. -/
def moveUp (fuel blk : ℕ) (w : Walk) : Option Walk := do
  let prev ← (w.s.tree blk).prev
  let s ← blockdown fuel prev w.s
  return { w with s, bestpos := w.bestpos - 1 }

/-- "Move to best pos". -/
def toBestpos (fuel blk : ℕ) (w : Walk) : Option Walk := do
  let w ← whileDo (fun w => w.bestpos < 0) (moveDown fuel blk) fuel w
  whileDo (fun w => w.bestpos > 0) (moveUp fuel blk) fuel w

def reorderSiftBestpos (fuel blk : ℕ) (middlePos : ℤ) (s : Blocks) : Option Walk := do
  let best := reorderNodenum nodenum s
  let dirIsUp := ¬ (s.tree blk).pos > middlePos
  let start : Walk :=
    { s, best, maxAllowed := maxAllowed s.env best, bestpos := 0, first := true,
      tried := [order s.env] }
  let w ← walk nodenum fuel blk dirIsUp start
  let w ← walk nodenum fuel blk (!dirIsUp) w
  toBestpos fuel blk w

/-- `reorder_sift_seq`. -/
def reorderSiftSeq (fuel t : ℕ) (seq : List ℕ) (s : Blocks) : Option (ℕ × Blocks) := do
  let s ← seq.foldlM (fun s blk => do
    let w ← reorderSiftBestpos nodenum fuel blk ((seq.length / 2 : ℕ) : ℤ) s
    return w.s) s
  let first ← whileDo (fun this => (s.tree this).prev.isSome) (fun this => (s.tree this).prev) fuel t
  return (first, s)

/-- The loop along `next`. -/
def siblingsFrom (tree : ℕ → BddTree) : ℕ → Option ℕ → Option (List ℕ)
  | 0, _ => none
  | _ + 1, none => some []
  | fuel + 1, some this => (siblingsFrom tree fuel (tree this).next).map (this :: ·)

/-- The positions before sifting. -/
def numbered (bs : List ℕ) (tree : ℕ → BddTree) : ℕ → BddTree :=
  bs.zipIdx.foldl (fun tree b => modify tree b.1 fun t => { t with pos := b.2 }) tree

/-- `reorder_sift`, with `levels[v].nodenum` as a function of the order and with the sorting function
of the C library. -/
def reorderSift (levelnum : List ℕ → ℕ → ℕ) (qsort : List (ℤ × ℕ) → List (ℤ × ℕ)) (fuel t : ℕ)
    (s : Blocks) : Option (ℕ × Blocks) := do
  let bs ← siblingsFrom s.tree fuel (some t)
  let s := { s with tree := numbered bs s.tree }
  let p := bs.map fun b => (-((List.range' (s.tree b).first
    ((s.tree b).last - (s.tree b).first + 1)).map fun v => (levelnum (order s.env) v : ℤ)).sum, b)
  reorderSiftSeq nodenum fuel t ((qsort p).map Prod.snd) s

/-- `reorder_siftite`, for at most `rounds` rounds. -/
def reorderSiftite (levelnum : List ℕ → ℕ → ℕ) (qsort : List (ℤ × ℕ) → List (ℤ × ℕ)) (fuel : ℕ) :
    ℕ → ℕ → Blocks → Option (ℕ × Blocks)
  | 0, _, _ => none
  | rounds + 1, first, s => do
    let lastsize := reorderNodenum nodenum s
    let (first, s) ← reorderSift nodenum levelnum qsort fuel first s
    if reorderNodenum nodenum s ≠ lastsize then
      reorderSiftite levelnum qsort fuel rounds first s
    else
      return (first, s)

/-! ## More fuel -/

section Fuel

variable {nodenum} {m n : ℕ} (h : m ≤ n)
include h

end Fuel

end MoToBuddy.Reorder
