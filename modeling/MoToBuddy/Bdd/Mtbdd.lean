import MoToBuddy.Bdd.Operators

/-!
# Operations of the caller on terminals (`mtbdd.c`)

`mtbdd_apply` and its variants take a function of the caller. There are three kinds: functions of
the values at the leaves, functions with a parameter, and guarded functions, which work on the
package and may end the recursion early. All of them share one cache, where an operation is known
by the low word of its address.

* A value that a function of the values returns is a fresh one; `none` is `NULL`.
* A guarded function returns a node, and `true` if it left the flag of
  `mtbdd_apply_invalid_value_flag` at valid.
* There is no result in a domain that `mtbdd_maketerminal` does not support.
-/

namespace MoToBuddy.Bdd

/-- A function of the caller, with its address. -/
structure Callback (F : Type*) where
  address : UInt64
  call : F

/-- `(int)(size_t)op`. -/
def Callback.word {F : Type*} (op : Callback F) : UInt32 := op.address.toUInt32

/-- `CACHE_SIZE_T_LO`. -/
def cacheSizeTLo (p : UInt64) : UInt32 := p.toUInt32

/-- `CACHE_SIZE_T_HI`. -/
def cacheSizeTHi (p : UInt64) : UInt32 := ((p >>> 16) >>> 16).toUInt32

/-! ## Keys of the cache -/

/-- Where an operation looks for a result, how it knows the entry, and what it writes there. -/
structure CacheKey where
  hash : UInt32
  hit : BddCacheData → Bool
  fill : BddCacheData → ℕ → BddCacheData

/-- `HASH3` and `BddCache_store`. -/
def binaryKey (op : UInt32) (l r : ℕ) : CacheKey where
  hash := hash3 (.ofNat l) (.ofNat r) op
  hit e := e.a = l && e.b = r && e.c = op.toNat
  fill e res := { e with
    a := l
    b := r
    c := op.toNat
    d := minusOne
    res := res }

/-- `HASH5` and `BddCache_store4_sizet`. -/
def binaryParamKey (op : UInt32) (param : UInt64) (l r : ℕ) : CacheKey where
  hash := hash5 (.ofNat l) (.ofNat r) op (cacheSizeTLo param) (cacheSizeTHi param)
  hit e := e.a = l && e.b = r && e.c = op.toNat && e.d = (cacheSizeTLo param).toNat &&
    e.r2 = (cacheSizeTHi param).toNat
  fill e res := { e with
    a := l
    b := r
    c := op.toNat
    d := (cacheSizeTLo param).toNat
    r2 := (cacheSizeTHi param).toNat
    res := res }

/-- `HASH2` and `BddCache_store`. -/
def unaryKey (op : UInt32) (l : ℕ) : CacheKey where
  hash := hash2 (.ofNat l) op
  hit e := e.a = l && e.b = minusOne && e.c = op.toNat
  fill e res := { e with
    a := l
    b := minusOne
    c := op.toNat
    d := minusOne
    res := res }

/-- `HASH4` and `BddCache_store_sizet_b`. -/
def unaryParamKey (op : UInt32) (param : UInt64) (l : ℕ) : CacheKey where
  hash := hash4 (.ofNat l) op (cacheSizeTLo param) (cacheSizeTHi param)
  hit e := e.a = l && e.b = (cacheSizeTLo param).toNat && e.c = op.toNat &&
    e.r2 = (cacheSizeTHi param).toNat
  fill e res := { e with
    a := l
    b := (cacheSizeTLo param).toNat
    c := op.toNat
    d := minusOne
    r2 := (cacheSizeTHi param).toNat
    res := res }

section

variable {P : Type*} (D : MtbddDomain P) (isPrime : ℕ → Bool)

/-- Look into the cache; the result of `body` comes with `true` if it is not to be stored. -/
def memoUnless (k : CacheId) (key : CacheKey)
    (body : BddState P → Option ((ℕ × Bool) × BddState P)) (s : BddState P) :
    Option (ℕ × BddState P) :=
  let i := (s.caches k).lookup key.hash
  if (s.caches k).isValid i && key.hit (s.entry k i) then some ((s.entry k i).res, s)
  else do
    let ((res, reused), s) ← body s
    if reused then some (res, s) else some (res, s.store k i (key.fill (s.entry k i) res))

/-- A result that is to be stored. -/
def stored (o : Option (ℕ × BddState P)) : Option ((ℕ × Bool) × BddState P) :=
  o.map fun (res, s) => ((res, false), s)

/-! ## Leaves -/

/-- `ISMTBDDLEAF`. -/
def BddState.isMtbddLeaf (s : BddState P) (n : ℕ) : Bool :=
  s.level n = maxlevel && !s.isFree n || n < 2

/-- `mtbdd_getTerminalValue`, for a leaf. -/
def mtbddGetTerminalValue (s : BddState P) (n : ℕ) : Option P :=
  if n < 2 then none else mtbddGetvalue D s (s.high n)

/-- `mtbdd_get_terminal_type`. -/
def mtbddGetTerminalType (s : BddState P) (n : ℕ) : ℕ := s.low n

/-- `mtbdd_leaf_result`: the node for the value of a callback, and `true` if it is the node of an
operand. There is no second operand in a unary operation. -/
def mtbddLeafResult (value : Option P) (type l : ℕ) (valueL : Option P)
    (right : Option (ℕ × Option P)) (s : BddState P) : Option ((ℕ × Bool) × BddState P) :=
  match value with
  | none => some ((0, false), s)
  | some value =>
    let released (s : BddState P) := { s with terminals := s.terminals.releaseTemp value }
    if D.domaintype ≠ .custom then stored (mtbddMaketerminal D isPrime s value type)
    else match if type < D.typeNumber then D.comparefun type else none with
      | none => some ((0, false), released (s.error .op))
      | some cmp =>
        if cmp value valueL then some ((l, true), released s)
        else match right with
          | none => stored (mtbddMaketerminal D isPrime s value type)
          | some (r, valueR) =>
            if cmp value valueR then some ((r, true), released s)
            else stored (mtbddMaketerminal D isPrime s value type)

/-- The result of a binary operation for two leaves. Operands of different types are reported on
the console only. -/
def applyLeaf (op : Option P → Option P → Option P) (l r : ℕ) (s : BddState P) :
    Option ((ℕ × Bool) × BddState P) :=
  let terminalValueL := mtbddGetTerminalValue D s l
  let terminalValueR := mtbddGetTerminalValue D s r
  let decidingTerminalType := mtbddGetTerminalType s (if l < 2 then r else l)
  mtbddLeafResult D isPrime (op terminalValueL terminalValueR) decidingTerminalType l terminalValueL
    (some (r, terminalValueR)) s

/-- The result of a unary operation for a leaf, or nothing for a decision. -/
def unaryLeaf (op : Option P → Option P) (l : ℕ) (s : BddState P) :
    Option (Option (ℕ × Bool) × BddState P) :=
  if s.isMtbddLeaf l then
    let terminalValue := mtbddGetTerminalValue D s l
    (mtbddLeafResult D isPrime (op terminalValue) (mtbddGetTerminalType s l) l terminalValue none
      s).map fun (res, s) => (some res, s)
  else some (none, s)

/-! ## Guards -/

/-- A guarded operation of two nodes. -/
abbrev GuardedOp (P : Type*) := ℕ → ℕ → BddState P → (Bool × ℕ) × BddState P

/-- A guarded operation of one node. -/
abbrev GuardedUnaryOp (P : Type*) := ℕ → BddState P → (Bool × ℕ) × BddState P

/-- The operation without a guard. -/
def unguarded (_ _ : ℕ) (s : BddState P) : Option ℕ × BddState P := (none, s)

/-- The result of a guarded operation, if it is valid. -/
def guardOf (op : GuardedOp P) (l r : ℕ) (s : BddState P) : Option ℕ × BddState P :=
  match op l r s with
  | ((valid, res), s) => (if valid then some res else none, s)

/-- The result of a guarded operation for two leaves, valid or not. -/
def guardedLeaf (op : GuardedOp P) (l r : ℕ) (s : BddState P) :
    Option ((ℕ × Bool) × BddState P) :=
  match op l r s with
  | ((_, res), s) => some ((res, false), s)

/-- The result of a guarded unary operation if it is valid, or at a leaf, where it is not stored. -/
def guardedUnary (op : GuardedUnaryOp P) (l : ℕ) (s : BddState P) :
    Option (Option (ℕ × Bool) × BddState P) :=
  match op l s with
  | ((valid, res), s) =>
    if valid then some (some (res, false), s)
    else if s.isMtbddLeaf l then some (some (res, true), s)
    else some (none, s)

/-! ## The recursions -/

/-- The binary recursion. The guard comes before the cache. -/
def binaryRec (key : ℕ → ℕ → CacheKey) (guard : ℕ → ℕ → BddState P → Option ℕ × BddState P)
    (leaf : ℕ → ℕ → BddState P → Option ((ℕ × Bool) × BddState P)) :
    ℕ → ℕ → ℕ → BddState P → Option (ℕ × BddState P)
  | 0, _, _, _ => none
  | fuel + 1, l, r, s =>
    match guard l r s with
    | (some res, s) => some (res, s)
    | (none, s) =>
      memoUnless .mtbddApply (key l r) (fun s =>
        if s.isMtbddLeaf l && s.isMtbddLeaf r then leaf l r s
        else
          let rec' := binaryRec key guard leaf fuel
          stored (if s.level l = s.level r then
              branch (fun s => rec' (s.low l) (s.low r) s) (fun s => rec' (s.high l) (s.high r) s)
                (nodeAt D isPrime l) s
            else if s.level l < s.level r then
              branch (fun s => rec' (s.low l) r s) (fun s => rec' (s.high l) r s)
                (nodeAt D isPrime l) s
            else
              branch (fun s => rec' l (s.low r) s) (fun s => rec' l (s.high r) s)
                (nodeAt D isPrime r) s)) s

/-- The unary recursion. The cache comes first. -/
def unaryRec (key : ℕ → CacheKey)
    (visit : ℕ → BddState P → Option (Option (ℕ × Bool) × BddState P)) :
    ℕ → ℕ → BddState P → Option (ℕ × BddState P)
  | 0, _, _ => none
  | fuel + 1, l, s =>
    memoUnless .mtbddApply (key l) (fun s => do
      match ← visit l s with
      | (some res, s) => some (res, s)
      | (none, s) =>
        stored (branch (fun s => unaryRec key visit fuel (s.low l) s)
          (fun s => unaryRec key visit fuel (s.high l) s) (nodeAt D isPrime l) s)) s

/-- `mtbdd_apply_rec`. -/
def mtbddApplyRec (op : Callback (Option P → Option P → Option P)) :
    ℕ → ℕ → ℕ → BddState P → Option (ℕ × BddState P) :=
  binaryRec D isPrime (binaryKey op.word) unguarded (applyLeaf D isPrime op.call)

/-- `mtbdd_apply_param_rec`. -/
def mtbddApplyParamRec (op : Callback (Option P → Option P → UInt64 → Option P))
    (param : UInt64) : ℕ → ℕ → ℕ → BddState P → Option (ℕ × BddState P) :=
  binaryRec D isPrime (binaryParamKey op.word param) unguarded
    (applyLeaf D isPrime fun l r => op.call l r param)

/-- `mtbdd_apply_guarded_rec`. -/
def mtbddApplyGuardedRec (op : Callback (GuardedOp P)) :
    ℕ → ℕ → ℕ → BddState P → Option (ℕ × BddState P) :=
  binaryRec D isPrime (binaryKey op.word) (guardOf op.call) (guardedLeaf op.call)

/-- `mtbdd_apply_guarded_param_rec`. -/
def mtbddApplyGuardedParamRec (op : Callback (UInt64 → GuardedOp P)) (param : UInt64) :
    ℕ → ℕ → ℕ → BddState P → Option (ℕ × BddState P) :=
  binaryRec D isPrime (binaryParamKey op.word param) (guardOf (op.call param))
    (guardedLeaf (op.call param))

/-- `mtbdd_apply_unary_rec`. -/
def mtbddApplyUnaryRec (op : Callback (Option P → Option P)) :
    ℕ → ℕ → BddState P → Option (ℕ × BddState P) :=
  unaryRec D isPrime (unaryKey op.word) (unaryLeaf D isPrime op.call)

/-- `mtbdd_apply_unary_param_rec`. -/
def mtbddApplyUnaryParamRec (op : Callback (Option P → UInt64 → Option P)) (param : UInt64) :
    ℕ → ℕ → BddState P → Option (ℕ × BddState P) :=
  unaryRec D isPrime (unaryParamKey op.word param) (unaryLeaf D isPrime fun l => op.call l param)

/-- `mtbdd_apply_unary_guarded_rec`. -/
def mtbddApplyUnaryGuardedRec (op : Callback (UInt64 → GuardedUnaryOp P)) (arg : UInt64) :
    ℕ → ℕ → BddState P → Option (ℕ × BddState P) :=
  unaryRec D isPrime (unaryParamKey op.word arg) (guardedUnary (op.call arg))

/-! ## Entry points -/

/-- The test for `NULL` of the entry points. -/
def withOp {F : Type*} (op : Option F) (body : F → BddState P → Option (ℕ × BddState P))
    (s : BddState P) : Option (ℕ × BddState P) :=
  match op with
  | none => some (0, s.error .op)
  | some op => body op s

/-- `mtbdd_apply`. -/
def mtbddApply (l r : ℕ) (op : Option (Callback (Option P → Option P → Option P))) :
    BddState P → Option (ℕ × BddState P) :=
  checka l (checka r (withOp op fun op => mtbddApplyRec D isPrime op depth l r))

/-- `mtbdd_apply_param`. -/
def mtbddApplyParam (l r : ℕ) (op : Option (Callback (Option P → Option P → UInt64 → Option P)))
    (param : UInt64) : BddState P → Option (ℕ × BddState P) :=
  checka l (checka r (withOp op fun op => mtbddApplyParamRec D isPrime op param depth l r))

/-- `mtbdd_apply_guarded`. -/
def mtbddApplyGuarded (l r : ℕ) (op : Option (Callback (GuardedOp P))) :
    BddState P → Option (ℕ × BddState P) :=
  checka l (checka r (withOp op fun op => mtbddApplyGuardedRec D isPrime op depth l r))

/-- `mtbdd_apply_guarded_param`. -/
def mtbddApplyGuardedParam (l r : ℕ) (op : Option (Callback (UInt64 → GuardedOp P)))
    (param : UInt64) : BddState P → Option (ℕ × BddState P) :=
  checka l (checka r (withOp op fun op => mtbddApplyGuardedParamRec D isPrime op param depth l r))

/-- `mtbdd_apply_unary`. -/
def mtbddApplyUnary (l : ℕ) (op : Option (Callback (Option P → Option P))) :
    BddState P → Option (ℕ × BddState P) :=
  checka l (withOp op fun op => mtbddApplyUnaryRec D isPrime op depth l)

/-- `mtbdd_apply_unary_param`. -/
def mtbddApplyUnaryParam (l : ℕ) (op : Option (Callback (Option P → UInt64 → Option P)))
    (param : UInt64) : BddState P → Option (ℕ × BddState P) :=
  checka l (withOp op fun op => mtbddApplyUnaryParamRec D isPrime op param depth l)

/-- `mtbdd_apply_unary_guarded`. -/
def mtbddApplyUnaryGuarded (l : ℕ) (op : Option (Callback (UInt64 → GuardedUnaryOp P)))
    (arg : UInt64) : BddState P → Option (ℕ × BddState P) :=
  checka l (withOp op fun op => mtbddApplyUnaryGuardedRec D isPrime op arg depth l)

end

end MoToBuddy.Bdd
