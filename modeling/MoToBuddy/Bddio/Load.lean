import MoToBuddy.Bdd.PackageRun
import MoToBuddy.Bddio.Loadhash
import MoToBuddy.Bddio.Save
import MoToBuddy.Lib.Deferred

/-!
# Loading a diagram (`bddio.c`)

`bdd_load` reads a header and then lines of nodes. A node is built with `bdd_ite` as soon as both
children have been; a line that comes too early is put into the array `un_nodes`, which
`resolve_nodes` goes through whenever a node was built (`Deferred.feed`, `Deferred.sweep`).

* A file is its text, without NUL characters, and numbers in it fit into an `int`. `fopen` succeeds.
* `malloc` fails for the hash only. `loadvar2level` is not kept, since nothing reads it.
* `BDD_FORMAT` is in the code that is returned only.
* Flags and `vnum` that are not set when they are read have the values in `junk`.
-/

namespace MoToBuddy.Bddio

open Bdd Scanning Deferred CountedLoop

variable {P : Type*} (D : MtbddDomain P) (isPrime : ℕ → Bool) (malloc : ℕ → Bool)

/-- `BDD_FORMAT`. -/
abbrev formatCode : ℤ := -7

/-! ## The header -/

/-- `parseInt`: the number that a word is, or `-1`. -/
def parseInt (token : List Char) : ℤ :=
  let t := (scanInt token).getD (0, token)
  if t.2 = [] ∨ t.2.head? = some '\n' then t.1 else -1

/-- What the header has told so far. -/
structure Header where
  started : Bool
  nameR : Bool
  typeR : Bool
  varsR : Bool
  rootR : Bool
  orderR : Bool
  vnum : ℤ
  lhNodenum : ℤ
  root : ℤ

/-- The number in the next word. -/
def nextNumber (text : List Char) : Option ℤ := (strtok text).map fun t => parseInt t.1

/-- The loop over the order: `n` words that are no negative numbers. -/
def readOrder : ℕ → List Char → Bool
  | 0, _ => true
  | n + 1, text =>
    match strtok text with
    | none => false
    | some t => 0 ≤ parseInt t.1 && readOrder n t.2

/-- A line of the header that starts with the word `token`, and whether it is well formed. -/
def headerWord (token text : List Char) (h : Header) : Bool × Header :=
  if token = "%Name".toList then ((strtok text).isSome, { h with nameR := true })
  else if token = "%Vars".toList then
    match nextNumber text with
    | none => (false, { h with varsR := true })
    | some n => (0 ≤ n, { h with varsR := true, vnum := n })
  else if token = "%Nodes".toList then
    match nextNumber text with
    | none => (false, h)
    | some n => (0 ≤ n, { h with lhNodenum := n })
  else if token = "%Root".toList then
    match nextNumber text with
    | none => (false, { h with rootR := true })
    | some n => (0 ≤ n, { h with rootR := true, root := n, orderR := h.orderR || n < 2 })
  else if token = "%Ordering".toList then
    (readOrder h.vnum.toNat text, { h with orderR := true })
  else (false, h)

/-- A line before the nodes. -/
def headerLine (line : List Char) (h : Header) : Bool × Header :=
  if line.head? = some '@' then (true, { h with started := true, typeR := true })
  else if h.started = false ∨ line.head? ≠ some '%' then (true, h)
  else
    match strtok line with
    | none => (false, h)
    | some t => headerWord t.1 t.2 h

/-- The loop over the header: whether it was well formed, and the lines after it. -/
def readHeader (h : Header) : List (List Char) → Bool × Header × List (List Char)
  | [] => (h.orderR, h, [])
  | line :: lines =>
    if h.orderR then (true, h, line :: lines)
    else if (headerLine line h).1 then readHeader (headerLine line h).2 lines
    else (false, (headerLine line h).2, lines)

/-! ## The nodes -/

/-- `sscanf(line, "%d[%d] %d %d")`. -/
def scanNodeLine (line : List Char) : Option NodeLine := do
  let (key, text) ← scanInt line
  let text ← scanChar '[' text
  let (var, text) ← scanInt text
  let text ← scanChar ']' text
  let (low, text) ← scanInt text
  let (high, _) ← scanInt text
  return ⟨key, var, low, high⟩

/-- What the loader has made: the hash, and the node that was built last. -/
structure Loading (P : Type*) where
  bdd : BddState P
  table : Loader
  root : ℕ

/-- `lowH` or `highH`: the node of a child, or `-1`. -/
def childNode (table : Loader) (child : ℤ) : Option ℤ :=
  if child ≥ 2 then loadhashGet (table.nodenum + 2) child table else some child

/-- `lowH` and `highH`. -/
def childNodes (table : Loader) (x : NodeLine) : Option (ℤ × ℤ) := do
  let lowH ← childNode table x.low
  let highH ← childNode table x.high
  return (lowH, highH)

/-- A node is built of its children. -/
def buildNode (x : NodeLine) (lowH highH : ℤ) (l : Loading P) : Option (Loading P) :=
  let v := bddIthvar l.bdd x.var.toNat
  (bddIte D isPrime v.1 highH.toNat lowH.toNat v.2).bind fun root =>
    (loadhashAdd malloc (l.table.nodenum + 2) l.table (x.key, root.1)).map fun table =>
      ⟨bddAddref root.2 root.1, table, root.1⟩

/-- The same if its children have been built. -/
def resolveNode (x : NodeLine) (l : Loading P) : Option (Option (Loading P)) :=
  (childNodes l.table x).bind fun c =>
    if c.2 < 0 ∨ c.1 < 0 then some none
    else (buildNode D isPrime malloc x c.1 c.2 l).map some

/-- The loop of `bdd_loaddata`: whether all lines were well formed, with the nodes that wait. -/
def loadLines : List (List Char) → List NodeLine × Loading P →
    Option (Bool × List NodeLine × Loading P)
  | [], t => some (true, t)
  | line :: lines, t =>
    if line.head? = some '#' then loadLines lines t
    else
      match scanNodeLine line with
      | none => some (false, t)
      | some x => (childNodes t.2.table x).bind fun _ =>
        if x.var < 0 then some (false, t)
        else (feed (resolveNode D isPrime malloc) t x).bind fun t => loadLines lines t

/-- `bdd_loaddata`: a code or the root. -/
def bddLoaddata (lines : List (List Char)) (l : Loading P) : Option (ℤ × Loading P) :=
  (loadLines D isPrime malloc lines ([], l)).bind fun t =>
    if t.1 then
      (settle (resolveNode D isPrime malloc) (t.2.1.length + 1) t.2).map fun t =>
        (if t.1.length ≠ 0 then formatCode else t.2.root, t.2)
    else some (formatCode, t.2.2)

/-- What `bdd_load` returns: the code, `*root`, and the package. -/
structure Loaded (P : Type*) where
  code : ℤ
  root : ℤ
  package : Package P

/-- `LH_INIT_VALUE`. -/
abbrev lhInitValue : ℤ := 1000

/-- The call of `bdd_setvarnum`. -/
def withVars (vnum : ℤ) (w : Package P) : Package P :=
  if vnum > w.bdd.env.bddvarnum then w.setvarnum D isPrime vnum.toNat else w

/-- `bdd_load`. -/
def bddLoad (junk : Header) (text : List Char) (w : Package P) : Option (Loaded P) :=
  let (ok, h, lines) := readHeader
    { junk with started := false, orderR := false, lhNodenum := lhInitValue, root := 0 }
    (textLines text)
  if !ok || !(h.typeR && h.nameR && h.rootR && h.varsR && h.orderR) then
    some ⟨formatCode, h.root, w⟩
  else if h.root = 0 ∨ h.root = 1 then some ⟨0, h.root, w⟩
  else
    let w := withVars D isPrime h.vnum w
    (bddLoaddata D isPrime malloc lines
        ⟨w.bdd, freshLoader (max h.lhNodenum 1).toNat, 0⟩).map fun t =>
      let s := forUp 0 t.2.table.nodenum (fun n s => bddDelref s (t.2.table.table n).data.toNat)
        t.2.bdd
      ⟨if t.1 < 0 then t.1 else 0, if t.1 < 0 then 0 else t.1, { w with bdd := s }⟩

/-- `bdd_fnload`. -/
def bddFnload (junk : Header) (text : List Char) (w : Package P) : Option (Loaded P) :=
  bddLoad D isPrime malloc junk text w

end MoToBuddy.Bddio
