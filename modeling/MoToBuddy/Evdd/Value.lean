import MoToBuddy.Basic
import MoToBuddy.Lib.Probe

/-!
# Interned edge values (`evdd_value.c`)

Weights of EVDD edges are ids into a table of payloads, `0` being the bare zero. A payload
of a type is interned by an open-addressing index over the hash (or over cell ids) of its
type, or by a linear scan when the type has neither; `evdd_value_sweep` frees rows, their
slots are reused, and the index is rebuilt.

The callbacks registered for a type are a parameter: registration is refused once the type
has a row. Payloads are values of a type `P`; a `void *` that may be `NULL` is an
`Option P`. Allocations succeed.
-/

namespace MoToBuddy.Evdd

open CountedLoop

/-- `evdd_value_id`: index into the intern table. -/
abbrev ValueId := ℕ

/-- `EVDD_VALUE_ZERO`: the bare zero. -/
abbrev evddValueZero : ValueId := 0

/-- `EvddValueRow`; a row without payload is free. -/
structure EvddValueRow (P : Type*) where
  payload : Option P
  type : ℕ
  hash : UInt32
  refcou : ℕ
  mark : Bool

/-- A row as `calloc` and `memset` leave it. -/
def EvddValueRow.zero {P : Type*} : EvddValueRow P := ⟨none, 0, 0, 0, false⟩

/-- The intern table, its free list of ids (last freed first) and its index. A table that
was never allocated has `evddmaxValueSize = 0`. -/
structure ValueTable (P : Type*) where
  evddValues : ℕ → EvddValueRow P
  evddValueUsed : ℕ
  evddmaxValueSize : ℕ
  evddLastValueIndex : ℕ
  freelist : List ℕ
  idx : ℕ → ℕ
  idxCap : ℕ
  idxCnt : ℕ
  errors : List BddError

/-- `evddNormResult`. -/
structure EvddNormResult where
  wLow : ValueId
  wHigh : ValueId
  incoming : ValueId
  deriving DecidableEq, Repr

/-- What `normalizefun` may be: a built-in strategy or a user callback. -/
inductive EvddNormalize (P : Type*)
  | firstNonzero
  | low
  | maxMagnitude
  | l2
  | custom (f : ValueTable P → ValueId → ValueId → EvddNormResult × ValueTable P)

/-- `evdd_value_functions`: the callbacks of one type that the table and the algebra call. -/
structure EvddValueFunctions (P : Type*) where
  hashfun : Option (P → UInt32)
  cellfun : Option (P → List ℤ)
  naxes : ℕ
  comparefun : Option (P → P → Bool)
  mulfun : Option (Option P → Option P → Option P)
  divfun : Option (Option P → Option P → Option P)
  addfun : Option (Option P → Option P → Option P)
  subfun : Option (Option P → Option P → Option P)
  iszerofun : Option (P → Bool)
  isonefun : Option (P → Bool)
  abscmpfun : Option (Option P → Option P → ℤ)
  absqfun : Option (Option P → Option P)
  sqrtfun : Option (Option P → Option P)
  normalizefun : Option (EvddNormalize P)

/-- `evdd_value_functions_list` and `evdd_value_type_number`. -/
structure ValueTypes (P : Type*) where
  typeNumber : ℕ
  fns : ℕ → EvddValueFunctions P

section

variable {P : Type*} [DecidableEq P] (T : ValueTypes P)

/-- `bdd_error`: the handler is told and the caller goes on. -/
def ValueTable.error (V : ValueTable P) (e : BddError) : ValueTable P :=
  { V with errors := e :: V.errors }

/-- Write row `i`. -/
def ValueTable.setRow (V : ValueTable P) (i : ℕ) (row : EvddValueRow P) : ValueTable P :=
  { V with evddValues := Function.update V.evddValues i row }

/-- The table of a fresh session. -/
def ValueTable.empty : ValueTable P :=
  ⟨fun _ => .zero, 0, 0, 0, [], fun _ => 0, 0, 0, []⟩

/-! ## Reading rows -/

/-- `evdd_value_type_of`; `none` is `EVDD_VALUE_UNTYPED`. -/
def evddValueTypeOf (V : ValueTable P) (id : ValueId) : Option ℕ :=
  if id = evddValueZero then none
  else if V.evddmaxValueSize = 0 ∨ id ≥ V.evddLastValueIndex ∨
      (V.evddValues id).payload.isNone then none
  else some (V.evddValues id).type

/-- `evdd_value_get`. -/
def evddValueGet (V : ValueTable P) (id : ValueId) : Option P :=
  if id = evddValueZero ∨ V.evddmaxValueSize = 0 ∨ id ≥ V.evddLastValueIndex then none
  else (V.evddValues id).payload

/-- `evdd_value_live`. -/
def evddValueLive (V : ValueTable P) (id : ValueId) : Bool :=
  id ≠ evddValueZero && V.evddmaxValueSize ≠ 0 && id < V.evddLastValueIndex &&
    (V.evddValues id).payload.isSome

/-- The equality test of a type; without `comparefun`, pointer identity. -/
def compareOf (type : ℕ) : P → P → Bool :=
  match (T.fns type).comparefun with
  | some cmp => cmp
  | none => fun a b => a = b

/-! ## The index -/

/-- `evdd_value_idx_key`. -/
def evddValueIdxKey (h type : UInt32) : UInt32 :=
  let k := h ^^^ (type * 0x9E3779B9)
  let k := k ^^^ (k >>> 16)
  let k := k * 0x85EBCA6B
  k ^^^ (k >>> 13)

/-- The home slot for a stored hash; the capacity is a power of two, so `& (cap - 1u)` is
the remainder. -/
def idxHome (h : UInt32) (type cap : ℕ) : ℕ :=
  (evddValueIdxKey h (UInt32.ofNat type)).toNat % cap

/-- The home slot of a row. -/
def rowHome (V : ValueTable P) (cap id : ℕ) : ℕ :=
  idxHome (V.evddValues id).hash (V.evddValues id).type cap

/-- The growing half of `evdd_value_idx_put`: every entry moves to a table of twice the
capacity. -/
def evddValueIdxGrow (V : ValueTable P) : ValueTable P :=
  let newCap := if V.idxCap = 0 then 1024 else V.idxCap * 2
  { V with
    idx := forUp 0 V.idxCap (fun j grown =>
      if V.idx j = 0 then grown
      else Probing.insert newCap grown (rowHome V newCap (V.idx j)) (V.idx j)) fun _ => 0
    idxCap := newCap }

/-- The inserting half of `evdd_value_idx_put`. -/
def evddValueIdxInsert (V : ValueTable P) (id : ℕ) : ValueTable P :=
  { V with
    idx := Probing.insert V.idxCap V.idx (rowHome V V.idxCap id) id
    idxCnt := V.idxCnt + 1 }

/-- `evdd_value_idx_put`. -/
def evddValueIdxPut (V : ValueTable P) (id : ℕ) : ValueTable P :=
  evddValueIdxInsert (if 2 * (V.idxCnt + 1) > V.idxCap then evddValueIdxGrow V else V) id

/-- The test of `evdd_value_idx_lookup` on one entry of the index. -/
def idxMatches (V : ValueTable P) (h : UInt32) (type : ℕ) (value : P) (j : ℕ) : Bool :=
  match (V.evddValues j).payload with
  | none => false
  | some u => (V.evddValues j).type = type && (V.evddValues j).hash = h &&
      compareOf T type value u

/-- `evdd_value_idx_lookup`; `0` is a miss. -/
def evddValueIdxLookup (V : ValueTable P) (h : UInt32) (type : ℕ) (value : P) : ValueId :=
  if V.evddmaxValueSize = 0 ∨ V.idxCap = 0 then 0
  else Probing.lookup V.idxCap V.idx (idxMatches T V h type value) V.idxCap
    (idxHome h type V.idxCap)

/-! ## Cells -/

/-- The low and the high word of a cell id taken as `unsigned long long`. -/
def cellWords (c : ℤ) : UInt32 × UInt32 :=
  let u := (c % 2 ^ 64).toNat
  (UInt32.ofNat u, UInt32.ofNat (u / 2 ^ 32))

/-- `evdd_value_cell_hash`. -/
def evddValueCellHash (cell : List ℤ) (type : ℕ) : UInt32 :=
  let mix (k w : UInt32) : UInt32 := 
    k ^^^ (w + (0x9E3779B9 : UInt32) + (k <<< 6) + (k >>> 2))
  let k := cell.foldl (fun k c => mix (mix k (cellWords c).1) (cellWords c).2)
    (UInt32.ofNat type * 0x9E3779B9)
  let k := k ^^^ (k >>> 16)
  let k := k * 0x85EBCA6B
  k ^^^ (k >>> 13)

/-- `evdd_value_cell_shift`, clamped to `LLONG_MIN .. LLONG_MAX`. -/
def evddValueCellShift (base delta : ℤ) : ℤ :=
  max (-2 ^ 63) (min (2 ^ 63 - 1) (base + delta))

/-- The offsets of the odometer, axis 0 running fastest. -/
def cellOffsets : ℕ → List (List ℤ)
  | 0 => [[]]
  | n + 1 => (cellOffsets n).flatMap fun rest => [-1, 0, 1].map (· :: rest)

/-- `evdd_value_cell_lookup`: the first hit among the neighbours of `base`. -/
def evddValueCellLookup (V : ValueTable P) (value : P) (type : ℕ) (base : List ℤ) : ValueId :=
  (cellOffsets (T.fns type).naxes).foldl (fun found ofs =>
    if found ≠ 0 then found
    else evddValueIdxLookup T V
      (evddValueCellHash (List.zipWith evddValueCellShift base ofs) type) type value) 0

/-! ## Interning -/

/-- `evdd_value_ensure_table`. -/
def evddValueEnsureTable (V : ValueTable P) : ValueTable P :=
  if V.evddmaxValueSize = 0 then
    { V with evddValues := fun _ => .zero, evddmaxValueSize := 16, evddLastValueIndex := 1 }
  else if V.evddLastValueIndex ≥ V.evddmaxValueSize then
    { V with
      evddValues := fun i =>
        if V.evddmaxValueSize ≤ i ∧ i < V.evddmaxValueSize * 2 then .zero else V.evddValues i
      evddmaxValueSize := V.evddmaxValueSize * 2 }
  else V

/-- The slot for a new row: the last one freed, or the next fresh one. -/
def takeSlot (V : ValueTable P) : ℕ × ValueTable P :=
  match V.freelist with
  | i :: rest => (i, { V with freelist := rest })
  | [] =>
    let V := evddValueEnsureTable V
    (V.evddLastValueIndex, { V with evddLastValueIndex := V.evddLastValueIndex + 1 })

/-- Write the row of a new value. -/
def storeRow (V : ValueTable P) (i : ℕ) (value : P) (type : ℕ) (h : UInt32) : ValueTable P :=
  { V.setRow i ⟨some value, type, h, 0, false⟩ with evddValueUsed := V.evddValueUsed + 1 }

/-- The linear search for a type with neither hash nor cell callback. -/
def linearSearch (V : ValueTable P) (value : P) (type : ℕ) : ValueId :=
  forUp 1 (V.evddLastValueIndex - 1) (fun i found =>
    if found ≠ 0 then found
    else match (V.evddValues i).payload with
      | none => 0
      | some u =>
        if (V.evddValues i).type = type && compareOf T type value u then i else 0) 0

/-- The lookup of `evdd_value_intern` and, for an indexed type, the hash to store. -/
def findValue (V : ValueTable P) (value : P) (type : ℕ) : ValueId × Option UInt32 :=
  match (T.fns type).cellfun with
  | some cellfun =>
    (evddValueCellLookup T V value type (cellfun value),
      some (evddValueCellHash (cellfun value) type))
  | none =>
    match (T.fns type).hashfun with
    | some hashfun =>
      (evddValueIdxLookup T V (hashfun value) type value, some (hashfun value))
    | none => (if V.evddmaxValueSize = 0 then 0 else linearSearch T V value type, none)

/-- The storing half of `evdd_value_intern`. -/
def storeValue (V : ValueTable P) (value : P) (type : ℕ) (h : Option UInt32) :
    ValueId × ValueTable P :=
  let (i, V) := takeSlot V
  let V := storeRow V i value type (h.getD 0)
  (i, if h.isSome then evddValueIdxPut V i else V)

/-- Whether a payload is zero for its type. -/
def isZeroPayload (type : ℕ) (value : P) : Bool :=
  match (T.fns type).iszerofun with
  | some pred => pred value
  | none => false

/-- `evdd_value_intern`. -/
def evddValueIntern (V : ValueTable P) (value : Option P) (type : ℕ) :
    ValueId × ValueTable P :=
  match value with
  | none => (evddValueZero, V)
  | some value =>
    if type ≥ T.typeNumber then (evddValueZero, V.error .op)
    else if isZeroPayload T type value then (evddValueZero, V)
    else
      let (found, h) := findValue T V value type
      if found ≠ 0 then (found, V) else storeValue V value type h

/-! ## References and collection -/

/-- Change the count of a live row. -/
def setRefcou (V : ValueTable P) (id : ValueId) (f : ℕ → ℕ) : ValueTable P :=
  V.setRow id { V.evddValues id with refcou := f (V.evddValues id).refcou }

/-- `evdd_value_addref`. -/
def evddValueAddref (V : ValueTable P) (id : ValueId) : ValueTable P :=
  if id = evddValueZero then V
  else if evddValueLive V id then setRefcou V id (· + 1) else V.error .illbdd

/-- `evdd_value_delref`. -/
def evddValueDelref (V : ValueTable P) (id : ValueId) : ValueTable P :=
  if id = evddValueZero then V
  else if evddValueLive V id then setRefcou V id (· - 1) else V.error .illbdd

/-- `evdd_value_mark`. -/
def evddValueMark (V : ValueTable P) (id : ValueId) : ValueTable P :=
  if evddValueLive V id then V.setRow id { V.evddValues id with mark := true } else V

/-- `evdd_value_idx_rebuild`: every live row of an indexed type into a fresh index. -/
def evddValueIdxRebuild (V : ValueTable P) : ValueTable P :=
  if V.idxCap = 0 then V
  else forUp 1 (V.evddLastValueIndex - 1) (fun i V =>
    if (V.evddValues i).payload.isNone then V
    else if (T.fns (V.evddValues i).type).cellfun.isNone &&
        (T.fns (V.evddValues i).type).hashfun.isNone then V
    else evddValueIdxPut V i) { V with idx := fun _ => 0, idxCnt := 0 }

/-- One row of `evdd_value_sweep`, with the number of rows freed so far. -/
def sweepRow (i : ℕ) (s : ℕ × ValueTable P) : ℕ × ValueTable P :=
  let (freed, V) := s
  let row := V.evddValues i
  if row.payload.isNone then s
  else if row.mark || row.refcou > 0 then
    (freed, V.setRow i { row with mark := false })
  else
    let V := V.setRow i { row with payload := none, type := 0, hash := 0 }
    (freed + 1,
      { V with freelist := i :: V.freelist, evddValueUsed := V.evddValueUsed - 1 })

/-- `evdd_value_sweep`, with the number of freed rows it returns. -/
def evddValueSweep (V : ValueTable P) : ℕ × ValueTable P :=
  if V.evddmaxValueSize = 0 then (0, V)
  else
    let (freed, V) := forUp 1 (V.evddLastValueIndex - 1) sweepRow (0, V)
    (freed, if freed > 0 then evddValueIdxRebuild T V else V)

/-! ## Algebra on interned ids -/

/-- `evdd_value_resolve_type`: the common type of two ids; `none` when they are mixed. -/
def evddValueResolveType (V : ValueTable P) (a b : ValueId) :
    Option (Option ℕ) × ValueTable P :=
  match evddValueTypeOf V a, evddValueTypeOf V b with
  | some ta, some tb => if ta ≠ tb then (none, V.error .op) else (some (some ta), V)
  | some ta, none => (some (some ta), V)
  | none, tb => (some tb, V)

/-- The predicates `evdd_value_is_zero` and `evdd_value_is_one` on a typed id. -/
def evddValuePred (V : ValueTable P) (pred : EvddValueFunctions P → Option (P → Bool))
    (id : ValueId) : Bool :=
  match evddValueTypeOf V id, evddValueGet V id with
  | some t, some u => match pred (T.fns t) with
    | some p => p u
    | none => false
  | _, _ => false

/-- `evdd_value_is_zero`. -/
def evddValueIsZero (V : ValueTable P) (id : ValueId) : Bool :=
  id = evddValueZero || evddValuePred T V EvddValueFunctions.iszerofun id

/-- `evdd_value_is_one`. -/
def evddValueIsOne (V : ValueTable P) (id : ValueId) : Bool :=
  id ≠ evddValueZero && evddValuePred T V EvddValueFunctions.isonefun id

/-- `evdd_value_apply_binary`. -/
def evddValueApplyBinary (V : ValueTable P) (a b : ValueId)
    (f : Option (Option P → Option P → Option P)) (type : ℕ) : ValueId × ValueTable P :=
  match f with
  | none => (evddValueZero, V.error .op)
  | some f => evddValueIntern T V (f (evddValueGet V a) (evddValueGet V b)) type

/-- The tail of the four operations: resolve the type and call its callback. -/
def evddValueCall (V : ValueTable P) (a b : ValueId)
    (f : EvddValueFunctions P → Option (Option P → Option P → Option P)) :
    ValueId × ValueTable P :=
  match evddValueResolveType V a b with
  | (some (some t), V) => evddValueApplyBinary T V a b (f (T.fns t)) t
  | (_, V) => (evddValueZero, V)

/-- `evdd_value_mul`. -/
def evddValueMul (V : ValueTable P) (a b : ValueId) : ValueId × ValueTable P :=
  if evddValueIsZero T V a || evddValueIsZero T V b then (evddValueZero, V)
  else if evddValueIsOne T V a then (b, V)
  else if evddValueIsOne T V b then (a, V)
  else evddValueCall T V a b EvddValueFunctions.mulfun

/-- `evdd_value_div`. -/
def evddValueDiv (V : ValueTable P) (a b : ValueId) : ValueId × ValueTable P :=
  if evddValueIsZero T V b then (evddValueZero, V.error .op)
  else if evddValueIsZero T V a then (evddValueZero, V)
  else if evddValueIsOne T V b then (a, V)
  else evddValueCall T V a b EvddValueFunctions.divfun

/-- `evdd_value_add`. -/
def evddValueAdd (V : ValueTable P) (a b : ValueId) : ValueId × ValueTable P :=
  if evddValueIsZero T V a then (b, V)
  else if evddValueIsZero T V b then (a, V)
  else evddValueCall T V a b EvddValueFunctions.addfun

/-- `evdd_value_unit`. -/
def evddValueUnit (V : ValueTable P) (w : ValueId) : ValueId × ValueTable P :=
  if evddValueIsZero T V w then (evddValueZero, V) else evddValueDiv T V w w

/-- `evdd_value_unit_from_pair`. -/
def evddValueUnitFromPair (V : ValueTable P) (a b : ValueId) : ValueId × ValueTable P :=
  if !evddValueIsZero T V a then evddValueUnit T V a
  else if !evddValueIsZero T V b then evddValueUnit T V b
  else (evddValueZero, V)

/-! ## Built-in normalisation -/

/-- `evdd_norm_zeros`. -/
def evddNormZeros : EvddNormResult := ⟨evddValueZero, evddValueZero, evddValueZero⟩

/-- `evdd_norm_first_nonzero`. -/
def evddNormFirstNonzero (V : ValueTable P) (wLow wHigh : ValueId) :
    EvddNormResult × ValueTable P :=
  if evddValueIsZero T V wLow && evddValueIsZero T V wHigh then (evddNormZeros, V)
  else if !evddValueIsZero T V wLow then
    let (l, V) := evddValueUnit T V wLow
    let (h, V) := evddValueDiv T V wHigh wLow
    (⟨l, h, wLow⟩, V)
  else
    let (h, V) := evddValueUnit T V wHigh
    (⟨evddValueZero, h, wHigh⟩, V)

/-- `evdd_norm_low`. -/
def evddNormLow (V : ValueTable P) (wLow wHigh : ValueId) : EvddNormResult × ValueTable P :=
  if evddValueIsZero T V wLow && evddValueIsZero T V wHigh then (evddNormZeros, V)
  else if evddValueIsZero T V wLow then
    let (u, V) := evddValueUnit T V wHigh
    (⟨evddValueZero, wHigh, u⟩, V)
  else
    let (l, V) := evddValueUnit T V wLow
    let (h, V) := evddValueDiv T V wHigh wLow
    (⟨l, h, wLow⟩, V)

/-- The factor `evdd_norm_max_magnitude` divides by. -/
def maxMagnitudeFactor (V : ValueTable P) (wLow wHigh : ValueId) : ValueId × ValueTable P :=
  if evddValueIsZero T V wLow then (wHigh, V)
  else if evddValueIsZero T V wHigh then (wLow, V)
  else match evddValueResolveType V wLow wHigh with
    | (some (some t), V) =>
      match (T.fns t).abscmpfun with
      | none => (wLow, V)
      | some abscmp =>
        (if abscmp (evddValueGet V wLow) (evddValueGet V wHigh) ≥ 0 then wLow else wHigh, V)
    | (_, V) => (wLow, V)

/-- `evdd_norm_max_magnitude`. -/
def evddNormMaxMagnitude (V : ValueTable P) (wLow wHigh : ValueId) :
    EvddNormResult × ValueTable P :=
  if evddValueIsZero T V wLow && evddValueIsZero T V wHigh then (evddNormZeros, V)
  else
    let (factor, V) := maxMagnitudeFactor T V wLow wHigh
    let (l, V) := evddValueDiv T V wLow factor
    let (h, V) := evddValueDiv T V wHigh factor
    (⟨l, h, factor⟩, V)

/-- The interned image of a payload under a unary callback. -/
def internUnary (V : ValueTable P) (f : Option (Option P → Option P)) (w : ValueId)
    (type : ℕ) : ValueId × ValueTable P :=
  match f with
  | none => (evddValueZero, V)
  | some f => evddValueIntern T V (f (evddValueGet V w)) type

/-- `evdd_norm_l2`. The callbacks were checked when the strategy was set. -/
def evddNormL2 (V : ValueTable P) (wLow wHigh : ValueId) : EvddNormResult × ValueTable P :=
  if evddValueIsZero T V wLow && evddValueIsZero T V wHigh then (evddNormZeros, V)
  else match evddValueResolveType V wLow wHigh with
    | (some (some t), V) =>
      let (sq0, V) := if evddValueIsZero T V wLow then (evddValueZero, V)
        else internUnary T V (T.fns t).absqfun wLow t
      let (sq1, V) := if evddValueIsZero T V wHigh then (evddValueZero, V)
        else internUnary T V (T.fns t).absqfun wHigh t
      let (sum, V) := evddValueAdd T V sq0 sq1
      let (n, V) := internUnary T V (T.fns t).sqrtfun sum t
      let (l, V) := evddValueDiv T V wLow n
      let (h, V) := evddValueDiv T V wHigh n
      (⟨l, h, n⟩, V)
    | (_, V) =>
      let (u, V) := evddValueUnitFromPair T V wLow wHigh
      (⟨wLow, wHigh, u⟩, V)

/-- `evdd_value_normalize`. -/
def evddValueNormalize (V : ValueTable P) (wLow wHigh : ValueId) :
    EvddNormResult × ValueTable P :=
  if evddValueIsZero T V wLow && evddValueIsZero T V wHigh then (evddNormZeros, V)
  else
    let (u, V) := evddValueUnitFromPair T V wLow wHigh
    match evddValueResolveType V wLow wHigh with
    | (some (some t), V) =>
      match (T.fns t).normalizefun with
      | none => (⟨wLow, wHigh, u⟩, V.error .op)
      | some .firstNonzero => evddNormFirstNonzero T V wLow wHigh
      | some .low => evddNormLow T V wLow wHigh
      | some .maxMagnitude => evddNormMaxMagnitude T V wLow wHigh
      | some .l2 => evddNormL2 T V wLow wHigh
      | some (.custom f) => f V wLow wHigh
    | (_, V) => (⟨wLow, wHigh, u⟩, V)

end

end MoToBuddy.Evdd
