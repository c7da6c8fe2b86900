import MoToBuddy.Bdd.Cache
import MoToBuddy.Bdd.Terminal
import MoToBuddy.Lib.Chain
import MoToBuddy.Lib.Loop

/-!
# The node table (`kernel.c`)

One array holds the decision nodes and the terminals; slots `0` and `1` are the constants. A
free slot has `low = -1`, here `none`. A terminal lives at `MAXLEVEL`: `low` is its type, and
`high` is its value in the short domains and the index of the value's slot in the others.

* `bddGbc` and `bddNoderesize` run inside `bddMakenode` when no slot is free. Automatic
  reordering is off, and `realloc` succeeds.
* `isPrime` is the randomised test of `prime.c`; a number that passes it once is taken to pass
  it always.
* Sizes and counters are unbounded; the 21 bits of `level` and the 10 bits of `refcou` are not.
-/

namespace MoToBuddy.Bdd

open CountedLoop

/-- `MAXREF`. -/
abbrev maxref : ℕ := 0x3FF

/-- `INT_MAX`. -/
abbrev intMax : ℤ := 2 ^ 31 - 1

/-- The numbers of the errors. -/
def errorCode : BddError → ℤ
  | .memory => -1
  | .var => -2
  | .range => -3
  | .running => -5
  | .break => -9
  | .nodes => -11
  | .op => -12
  | .varblk => -14
  | .decvnum => -15
  | .replace => -16
  | .nodenum => -17
  | .illbdd => -18
  | .size => -19
  | .bvecSize => -20
  | .bvecShift => -21
  | .bvecDivzero => -22

/-- `BddNode`. `hash` is the head of the bucket with the slot's number. -/
structure BddNode where
  low : Option ℕ
  high : ℕ
  refcou : ℕ
  level : ℕ
  mark : Bool
  hash : ℕ
  next : ℕ
  deriving DecidableEq, Repr

/-- The globals that the node functions only read: limits, the number and the order of the
variables, their nodes (the positive one of variable `v` in slot `2 * v`), and the marks of the
last variable set. -/
structure BddEnv where
  bddmaxnodesize : ℕ
  bddmaxnodeincrease : ℕ
  minfreenodes : ℕ
  cacheratio : ℕ
  bddvarnum : ℕ
  bddvarset : ℕ → ℕ
  bddvar2level : ℕ → ℕ
  bddlevel2var : ℕ → ℕ
  quantvarset : ℕ → ℤ
  quantvarsetID : ℤ

/-- The globals of the package. `bddrefstack` has its top first. -/
structure BddState (P : Type*) where
  bddnodes : ℕ → BddNode
  bddnodesize : ℕ
  bddfreepos : ℕ
  bddfreenum : ℕ
  bddrefstack : List ℕ
  checkSameChildren : Bool
  bddresized : Bool
  bdderrorcond : Bool
  terminals : Terminals P
  caches : Caches
  env : BddEnv
  errors : List BddError

section

variable {P : Type*}

namespace BddState

variable (s : BddState P)

/-! ## State updates -/

/-- `bdd_error`: the handler is told and the caller goes on. -/
def error (e : BddError) : BddState P := { s with errors := e :: s.errors }

/-- The errors that were told, without those that a recursion goes on after: a replacement that
`bdd_correctify` refuses and a terminal that cannot be compared. -/
def told : List BddError := s.errors.filter fun e => e ≠ .replace ∧ e ≠ .op

/-- Write slot `n`. -/
def setNode (n : ℕ) (node : BddNode) : BddState P :=
  { s with bddnodes := Function.update s.bddnodes n node }

/-- `PUSHREF`. -/
def pushref (n : ℕ) : BddState P := { s with bddrefstack := n :: s.bddrefstack }

/-- `POPREF`. -/
def popref (k : ℕ) : BddState P := { s with bddrefstack := s.bddrefstack.drop k }

/-- `READREF`. -/
def readref (k : ℕ) : ℕ := (s.bddrefstack.drop (k - 1)).headD 0

/-- `INITREF`. -/
def initref : BddState P := { s with bddrefstack := [] }

/-- Put node `n` in front of the chain of bucket `b`. -/
def chainIn (n b : ℕ) : BddState P :=
  let s := s.setNode n { s.bddnodes n with next := (s.bddnodes b).hash }
  s.setNode b { s.bddnodes b with hash := n }

/-- `LOW(n) == -1`. -/
def isFree (n : ℕ) : Bool := (s.bddnodes n).low.isNone

/-- `LEVEL`. -/
def level (n : ℕ) : ℕ := (s.bddnodes n).level

/-- `LOW`, for a slot that is not free. -/
def low (n : ℕ) : ℕ := (s.bddnodes n).low.getD 0

/-- `HIGH`. -/
def high (n : ℕ) : ℕ := (s.bddnodes n).high

/-- An entry of a cache. -/
def entry (k : CacheId) (i : ℕ) : BddCacheData := (s.caches k).table i

/-- Store a result in a cache. -/
def store (k : CacheId) (i : ℕ) (e : BddCacheData) : BddState P :=
  { s with caches := s.caches.write k i e }

end BddState

variable (D : MtbddDomain P)

/-- The value that `mtbdd_getvaluep` points to, for the index or the word in the node. -/
def mtbddGetvalue (s : BddState P) (high : ℕ) : Option P :=
  match D.domaintype with
  | .intval | .floatval | .unsignedval => some (D.ofWord (.ofNat high))
  | .longval | .doubleval | .custom => s.terminals.values high
  | _ => none

/-- The bucket that a collection puts slot `n` into. -/
def BddState.bucket (s : BddState P) (n : ℕ) : ℕ :=
  let node := s.bddnodes n
  if node.level = maxlevel ∧ D.domaintype.notShort then
    mtbddTerminalHashGbc D s.bddnodesize (node.low.getD 0) (mtbddGetvalue D s node.high)
  else nodehash s.bddnodesize node.level (node.low.getD 0) node.high

/-! ## Collection -/

/-- `bdd_mark`. -/
def bddMark : ℕ → ℕ → BddState P → BddState P
  | 0, _, s => s
  | fuel + 1, i, s =>
    if i < 2 then s
    else if (s.bddnodes i).mark then s
    else match (s.bddnodes i).low with
      | none => s
      | some low =>
        let s := s.setNode i { s.bddnodes i with mark := true }
        if (s.bddnodes i).level = maxlevel then s
        else
          let s := bddMark fuel low s
          bddMark fuel (s.bddnodes i).high s

/-- The first loop of `bdd_gbc` over the slots, at slot `n`: mark from a referenced node, clear
the bucket. -/
def gbcMarkStep (fuel n : ℕ) (s : BddState P) : BddState P :=
  let s := if (s.bddnodes n).refcou > 0 then bddMark fuel n s else s
  s.setNode n { s.bddnodes n with hash := 0 }

/-- Put slot `n` on the free list. -/
def BddState.release (s : BddState P) (n : ℕ) (node : BddNode) : BddState P :=
  { s.setNode n { node with next := s.bddfreepos } with
    bddfreepos := n
    bddfreenum := s.bddfreenum + 1 }

/-- The last loop of `bdd_gbc`, at slot `n`: keep a marked node, free any other slot. -/
def gbcSweepStep (n : ℕ) (s : BddState P) : BddState P :=
  let node := s.bddnodes n
  if node.mark && node.low.isSome then
    let s := s.setNode n { node with mark := false }
    s.chainIn n (s.bucket D n)
  else
    let s := if node.level = maxlevel then
        { s with terminals :=
          mtbddDeleteTerminal D s.terminals n (node.low.getD 0xFFFFFFFF) node.high }
      else s
    s.release n { node with
      low := none
      level := 0
      refcou := 0 }

/-- `bdd_gbc`. -/
def bddGbc (s : BddState P) : BddState P :=
  let fuel := s.bddnodesize + 1
  let s := s.bddrefstack.reverse.foldl (fun s i => bddMark fuel i s) s
  let s := forUp 0 s.bddnodesize (gbcMarkStep fuel) s
  let s := { s with
    bddfreepos := 0
    bddfreenum := 0 }
  let s := forDown 2 (s.bddnodesize - 2) (gbcSweepStep D) s
  { s with caches := s.caches.reset }

/-! ## Growth -/

/-- `bdd_gbc_rehash`, at slot `n`. -/
def rehashStep (n : ℕ) (s : BddState P) : BddState P :=
  if s.isFree n then s.release n (s.bddnodes n) else s.chainIn n (s.bucket D n)

/-- `bdd_gbc_rehash`. -/
def bddGbcRehash (s : BddState P) : BddState P :=
  let s := { s with
    bddfreepos := 0
    bddfreenum := 0 }
  forDown 2 (s.bddnodesize - 2) (rehashStep D) s

variable (isPrime : ℕ → Bool)

/-- The size that `bdd_noderesize` gives the table. -/
def resizeTarget (s : BddState P) : ℕ :=
  let size := min (s.bddnodesize * 2) (s.bddnodesize + s.env.bddmaxnodeincrease)
  bddPrimeLte isPrime
    (if size > s.env.bddmaxnodesize ∧ s.env.bddmaxnodesize > 0 then s.env.bddmaxnodesize else size)

/-- The table after `realloc`, all buckets cleared and the new slots free. -/
def BddState.extend (s : BddState P) (size : ℕ) : BddState P :=
  { s with
    bddnodes := fun n =>
      if n < s.bddnodesize then { s.bddnodes n with hash := 0 }
      else if n < size then ⟨none, 0, 0, 0, false, 0, if n + 1 = size then s.bddfreepos else n + 1⟩
      else s.bddnodes n
    bddnodesize := size }

/-- `bdd_noderesize(1)`. -/
def bddNoderesize (s : BddState P) : BddState P :=
  if s.bddnodesize ≥ s.env.bddmaxnodesize ∧ s.env.bddmaxnodesize > 0 then s
  else { bddGbcRehash D (s.extend (resizeTarget isPrime s)) with bddresized := true }

/-! ## `bdd_makenode` -/

/-- The test of the unique-table lookup. -/
def keyMatches (s : BddState P) (level low high res : ℕ) : Bool :=
  let node := s.bddnodes res
  node.level = level && node.low = some low && node.high = high

/-- Turn the first free slot into a node with the given contents, in bucket `b`. -/
def BddState.fill (s : BddState P) (level low high b : ℕ) : BddState P :=
  let res := s.bddfreepos
  let node := s.bddnodes res
  let s := { s with
    bddfreepos := node.next
    bddfreenum := s.bddfreenum - 1 }
  let s := s.setNode res ⟨some low, high, 0, level, false, node.hash, node.next⟩
  s.chainIn res b

/-- The end of `bdd_makenode`, where a slot is free. -/
def bddInsert (s : BddState P) (level low high : ℕ) : ℕ × BddState P :=
  (s.bddfreepos, s.fill (level % 2 ^ 21) low high (nodehash s.bddnodesize level low high))

/-- What `bdd_makenode` does when no slot is free. -/
def makeRoom (s : BddState P) : BddState P :=
  let s := bddGbc D s
  if s.bddfreenum * 100 / s.bddnodesize ≤ s.env.minfreenodes then bddNoderesize D isPrime s else s

/-- `bdd_makenode`. -/
def bddMakenode (s : BddState P) (level low high : ℕ) : ℕ × BddState P :=
  let lookup : Bool := level ≠ maxlevel || !D.domaintype.notShort
  if lookup ∧ s.checkSameChildren ∧ level ≠ maxlevel ∧ low = high then (low, s)
  else
    let hash := nodehash s.bddnodesize level low high
    let res := if lookup then
        Chained.search (keyMatches s level low high) (fun n => (s.bddnodes n).next)
          (s.bddnodesize + 1) (s.bddnodes hash).hash
      else 0
    if res ≠ 0 then (res, s)
    else if s.bddfreepos ≠ 0 then bddInsert s level low high
    else if s.bdderrorcond then (0, s)
    else
      let s := makeRoom D isPrime s
      if s.bddfreepos = 0 then (0, { s.error .nodenum with bdderrorcond := true })
      else bddInsert s level low high

/-! ## `mtbdd_maketerminal` -/

/-- The test of `mtbdd_findterminal` on a node of the bucket. -/
def terminalMatches (s : BddState P) (value : P) (type res : ℕ) : Bool :=
  let node := s.bddnodes res
  node.level = maxlevel && node.high < s.terminals.mtbddmaxTerminalSize &&
    sameTerminal D s.terminals value type (node.low.getD 0) node.high

/-- `mtbdd_findterminal`, with `0` for its `-1`. -/
def mtbddFindterminal (s : BddState P) (value : P) (hash type : ℕ) : ℕ :=
  Chained.search (terminalMatches D s value type) (fun n => (s.bddnodes n).next)
    (s.bddnodesize + 1) (s.bddnodes hash).hash

/-- A new terminal whose value has the given hash words: the value gets a slot, the node is
made, then its index and its type are written. -/
def newTerminal (s : BddState P) (value : P) (type : ℕ) (words : ℕ × ℕ) : ℕ × BddState P :=
  let (valIndex, T) := mtbddInsertvalue s.terminals value
  let (res, s) := bddMakenode D isPrime { s with terminals := T } maxlevel words.1 words.2
  let s := s.setNode res { s.bddnodes res with
    high := valIndex
    low := some type }
  (res, { s with terminals := s.terminals.logMade res valIndex value })

/-- `mtbdd_maketerminal`, for a value that is not `NULL`. Its `-1` for a domain that is not
supported is `none`. -/
def mtbddMaketerminal (s : BddState P) (value : P) (type : ℕ) : Option (ℕ × BddState P) :=
  match D.domaintype with
  | .intval | .floatval | .unsignedval =>
    some (bddMakenode D isPrime s maxlevel 42 (D.word value).toNat)
  | .longval | .doubleval =>
    let words := terminalWords D type (some value)
    let found := mtbddFindterminal D s value (nodehash s.bddnodesize maxlevel words.1 words.2) type
    if found ≠ 0 then some (found, s) else some (newTerminal D isPrime s value type words)
  | .custom =>
    if (D.comparefun type).isNone then
      -- without a compare function `mtbdd_findterminal` reports an error and returns `bddfalse`
      let s := s.error .op
      some (0, { s with terminals := s.terminals.releaseTemp value })
    else
      let words := terminalWords D type (some value)
      let found := mtbddFindterminal D s value (nodehash s.bddnodesize maxlevel words.1 words.2) type
      if found ≠ 0 then some (found, { s with terminals := s.terminals.releaseTemp value })
      else
        let (res, s) := newTerminal D isPrime s value type words
        some (res, s.setNode res { s.bddnodes res with refcou := 0 })
  | _ => none

/-! ## References -/

/-- `INCREF`. -/
def incref (s : BddState P) (n : ℕ) : BddState P :=
  let node := s.bddnodes n
  if node.refcou < maxref then s.setNode n { node with refcou := node.refcou + 1 } else s

/-- `DECREF`. -/
def decref (s : BddState P) (n : ℕ) : BddState P :=
  let node := s.bddnodes n
  if node.refcou ≠ maxref ∧ node.refcou > 0 then
    s.setNode n { node with refcou := node.refcou - 1 }
  else s

/-- `bdd_addref` and `bdd_delref`, which differ in what they do to the count. -/
def changeref (count : BddState P → ℕ → BddState P) (s : BddState P) (root : ℕ) : BddState P :=
  if root < 2 then s
  else if root ≥ s.bddnodesize then s.error .illbdd
  else if s.isFree root then s.error .illbdd
  else count s root

/-- `bdd_addref`. -/
def bddAddref (s : BddState P) (root : ℕ) : BddState P := changeref incref s root

/-- `bdd_delref`, which reports a node without a reference. -/
def bddDelref (s : BddState P) (root : ℕ) : BddState P :=
  changeref (fun s n => decref (if (s.bddnodes n).refcou = 0 then s.error .break else s) n) s root

/-! ## Limits -/

/-- `bdd_setmaxnodenum`. -/
def bddSetmaxnodenum (s : BddState P) (size : ℤ) : BddState P :=
  if size > s.bddnodesize ∨ size = 0 then { s with env := { s.env with
    bddmaxnodesize := size.toNat } }
  else s.error .nodes

/-- `bdd_setmaxincrease`. -/
def bddSetmaxincrease (s : BddState P) (size : ℤ) : BddState P :=
  if size < 0 then s.error .size else { s with env := { s.env with
    bddmaxnodeincrease := size.toNat } }

/-- `bdd_setminfreenodes`. -/
def bddSetminfreenodes (s : BddState P) (mf : ℤ) : BddState P :=
  if mf < 0 ∨ mf > 100 then s.error .range else { s with env := { s.env with
    minfreenodes := mf.toNat } }

/-- `bdd_clear_error`, with `bdd_operator_reset`. -/
def bddClearError (s : BddState P) : BddState P :=
  { s with
    bdderrorcond := false
    caches := s.caches.reset }

end

end MoToBuddy.Bdd
