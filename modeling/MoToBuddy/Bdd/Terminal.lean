import MoToBuddy.Basic
import MoToBuddy.Lib.Pool

/-!
# Terminal values (`mtbdd.c`, `terminal.c`)

What the domain of the terminals provides, and the store of the values that do not fit into a
node: an array of slots with a stack of the slots that collections gave back.

`malloc` and `realloc` succeed. The log records which value a slot was filled with, which terminal
was made for it, with which terminal it was given back, and which temporary values were released
without ever getting a slot.
-/

namespace MoToBuddy.Bdd

open Slots

/-- `MAXLEVEL`. -/
abbrev maxlevel : ℕ := 0x1FFFFF

/-- `domainTypes`; `unset` is the initial `-1`. -/
inductive DomainTypes
  | intval | floatval | charval | unsignedval | doubleval | ldoubleval | longval | ulongval
  | custom | unset
  deriving DecidableEq, Repr

/-- `DOMAIN_NOT_SHORT`. -/
def DomainTypes.notShort : DomainTypes → Bool
  | .intval | .floatval | .unsignedval => false
  | _ => true

/-- The values of the terminals: `word` and `ofWord` are the casts of the domains that keep the
value in the node, `halves` the low and the high word of a `long` or of the bits of a `double`,
`equal` is `==` on these. The other fields are the table of terminal types. -/
structure MtbddDomain (P : Type*) where
  domaintype : DomainTypes
  word : P → UInt32
  ofWord : UInt32 → P
  halves : P → UInt32 × UInt32
  equal : P → P → Bool
  typeNumber : ℕ
  hashfun : ℕ → Option (P → UInt32)
  comparefun : ℕ → Option (P → Option P → Bool)

/-- What happens to a value: it gets a slot and a terminal, the slot is given back with the terminal
in a node, it is released at once. -/
inductive SlotEvent (P : Type*)
  | insert (slot : ℕ) (value : P)
  | made (node slot : ℕ) (value : P)
  | delete (node slot : ℕ) (value : Option P)
  | temp (value : P)
  deriving DecidableEq, Repr

/-- The value that the log leaves in a slot. -/
def holder {P : Type*} : List (SlotEvent P) → ℕ → Option P
  | [], _ => none
  | .insert slot value :: log, i => if slot = i then some value else holder log i
  | .delete _ slot _ :: log, i => if slot = i then none else holder log i
  | .made _ _ _ :: log, i => holder log i
  | .temp _ :: log, i => holder log i

/-- The slot and the value of the terminal that the log leaves in a node. -/
def owned {P : Type*} : List (SlotEvent P) → ℕ → Option (ℕ × P)
  | [], _ => none
  | .made node slot value :: log, n => if node = n then some (slot, value) else owned log n
  | .delete node _ _ :: log, n => if node = n then none else owned log n
  | .insert _ _ :: log, n => owned log n
  | .temp _ :: log, n => owned log n

/-- A slot is filled when it is empty only, a terminal is made in a node without one, for a slot
that no other terminal owns and that holds the terminal's value, and a slot is given back with the
terminal that owns it, and with its value. -/
def LogOk {P : Type*} : List (SlotEvent P) → Prop
  | [] => True
  | .insert slot _ :: log => holder log slot = none ∧ LogOk log
  | .made node slot value :: log => owned log node = none ∧ holder log slot = some value ∧
      (∀ m w, owned log m ≠ some (slot, w)) ∧ LogOk log
  | .delete node slot value :: log => (∃ v, value = some v ∧ owned log node = some (slot, v) ∧
      holder log slot = some v) ∧ LogOk log
  | .temp _ :: log => LogOk log

/-- The globals of the value store, `NULL` and unwritten slots being `none`. -/
structure Terminals (P : Type*) where
  mtbddTerminalUsed : ℕ
  mtbddmaxTerminalSize : ℕ
  mtbddLastValueIndex : ℕ
  top : List ℕ
  values : ℕ → Option P
  log : List (SlotEvent P)

section

variable {P : Type*}

/-- The store before the first value. -/
def Terminals.init : Terminals P := ⟨0, 0, 0, [], fun _ => none, []⟩

/-- The counters of the store. -/
def Terminals.pool (T : Terminals P) : Pool :=
  ⟨T.mtbddTerminalUsed, T.mtbddmaxTerminalSize, T.mtbddLastValueIndex, T.top⟩

/-- `INITIAL_TERMINAL_SIZE`. -/
abbrev initialTerminalSize : ℕ := 10000

/-- The growth of the arrays in `mtbdd_insertvalue`. -/
def Terminals.grow (T : Terminals P) : Terminals P :=
  let T := if T.mtbddmaxTerminalSize = 0 then
      { T with
        mtbddLastValueIndex := 0
        top := []
        mtbddmaxTerminalSize := initialTerminalSize }
    else T
  if T.mtbddTerminalUsed = T.mtbddmaxTerminalSize then
    { T with mtbddmaxTerminalSize := T.mtbddmaxTerminalSize * 2 }
  else T

/-- `mtbdd_IndexStackPop`, with the fresh index where the stack is empty. -/
def Terminals.takeIndex (T : Terminals P) : ℕ × Terminals P :=
  match T.top with
  | [] => (T.mtbddLastValueIndex, { T with mtbddLastValueIndex := T.mtbddLastValueIndex + 1 })
  | index :: rest => (index, { T with top := rest })

/-- `mtbdd_insertvalue` in the domains that keep their values in the store. -/
def mtbddInsertvalue (T : Terminals P) (value : P) : ℕ × Terminals P :=
  let (index, T) := T.grow.takeIndex
  (index, { T with
    values := Function.update T.values index (some value)
    mtbddTerminalUsed := T.mtbddTerminalUsed + 1
    log := .insert index value :: T.log })

/-- `mtbdd_IndexStackPush` and the count, for the slot of a terminal. -/
def Terminals.giveBack (T : Terminals P) (node index : ℕ) : Terminals P :=
  { T with
    top := index :: T.top
    mtbddTerminalUsed := T.mtbddTerminalUsed - 1
    log := .delete node index (T.values index) :: T.log }

/-- `mtbdd_release_temp_value`. -/
def Terminals.releaseTemp (T : Terminals P) (value : P) : Terminals P :=
  { T with log := .temp value :: T.log }

/-- The log after a terminal was made, if there was a node for it. -/
def Terminals.logMade (T : Terminals P) (node slot : ℕ) (value : P) : Terminals P :=
  if node = 0 then T else { T with log := .made node slot value :: T.log }

variable (D : MtbddDomain P)

/-- `mtbdd_delete_terminal`, for the type and the index in a node. -/
def mtbddDeleteTerminal (T : Terminals P) (node type index : ℕ) : Terminals P :=
  match D.domaintype with
  | .longval | .doubleval =>
    if index ≥ T.mtbddmaxTerminalSize then T else T.giveBack node index
  | .custom =>
    if type ≥ D.typeNumber then T
    else if index ≥ T.mtbddmaxTerminalSize then T
    else match T.values index with
      | none => T
      | some _ =>
        let T := T.giveBack node index
        { T with values := Function.update T.values index none }
  | _ => T

/-- `NODEHASH`. -/
@[irreducible] def nodehash (size level low high : ℕ) : ℕ :=
  hashrange (hashnode (.ofNat level) (.ofNat low) (.ofNat high)) size

theorem nodehash_lt {size : ℕ} (hsize : 0 < size) (level low high : ℕ) :
    nodehash size level low high < size := by
  unfold nodehash
  exact hashrange_lt _ hsize

/-- The words that the hash of a value is made of, `42` where the domain has none. -/
def terminalWords (type : ℕ) (value : Option P) : ℕ × ℕ :=
  match D.domaintype with
  | .longval | .doubleval =>
    match value with
    | some v => ((D.halves v).1.toNat, (D.halves v).2.toNat)
    | none => (0, 0)
  | .custom =>
    match D.hashfun type, value with
    | some hashfun, some v => ((hashfun v).toNat, 42)
    | _, _ => (42, 42)
  | _ => (42, 42)

/-- `mtbdd_terminal_hash_gbc`. -/
def mtbddTerminalHashGbc (size type : ℕ) (value : Option P) : ℕ :=
  nodehash size maxlevel (terminalWords D type value).1 (terminalWords D type value).2

/-- The comparison of `mtbdd_findterminal` with the value in a slot. -/
def sameTerminal (T : Terminals P) (value : P) (type nodetype index : ℕ) : Bool :=
  match D.domaintype with
  | .longval | .doubleval =>
    match T.values index with
    | some v => D.equal value v
    | none => false
  | .custom =>
    match D.comparefun type with
    | some comparefun => type = nodetype && comparefun value (T.values index)
    | none => false
  | _ => false

end

end MoToBuddy.Bdd
