import MoToBuddy.Bdd.MtbddCode

/-!
# The MOSF parser (`mosf_parser.h`)

The parser makes operations of JSON values. The `std::function`s that it returns are closures of a
few kinds, and they are kept as such (`NodeOp`, `BinaryNodeOp`, `PutInOp`).

* A JSON object keeps its fields in the order of their keys. Numbers are integers.
* A function that the source calls on a field is called on a smaller value (`Json.field?`).
* What throws returns an error: the text of a `std::runtime_error`, an exception of the JSON
  library, or that of `unordered_map::at`.
* The operations of the registry are in `X`, the binary ones in `Y`; the parser only keeps them.
* A parameter of a swap may be a name that is left open (`SwapParam.named`). The definitions of the
  source have no such parameters: there the names are in `Empty`.
-/

namespace MoToBuddy.Mosf

open Bdd.Code (Branch)

/-! ## JSON -/

inductive Json
  | null
  | bool (b : Bool)
  | number (n : ℤ)
  | string (s : String)
  | array (elems : List Json)
  | object (fields : List (String × Json))

inductive ParseError
  | runtime (what : String)
  | json
  | outOfRange
  deriving DecidableEq

namespace Json

/-- A value inside of another one. -/
abbrev Inside (j : Json) : Type := {v : Json // sizeOf v < sizeOf j}

theorem inside_lt {j : Json} (v : j.Inside) : sizeOf v.1 < sizeOf j := v.2

theorem double_lt {j : Json} (v : j.Inside) : 2 * sizeOf v.1 + 1 < 2 * sizeOf j := by
  have := v.2
  omega

def find (key : String) : (fields : List (String × Json)) →
    Option {v : Json // sizeOf v < sizeOf fields}
  | [] => none
  | (k, v) :: rest =>
    if k = key then some ⟨v, by simp; omega⟩
    else (find key rest).map fun v => ⟨v.1, by have := v.2; simp; omega⟩

def field? (key : String) : (j : Json) → Option j.Inside
  | .object fields => (find key fields).map fun v => ⟨v.1, by have := v.2; simp; omega⟩
  | _ => none

/-- `contains`. -/
def contains (j : Json) (key : String) : Bool := (j.field? key).isSome

/-- `at`, and `[]` for a key that is there. -/
def at' (j : Json) (key : String) : Except ParseError j.Inside :=
  match j.field? key with
  | some v => pure v
  | none => throw .json

/-- `get<std::string>`. -/
def getString : Json → Except ParseError String
  | .string s => pure s
  | _ => throw .json

/-- `get<int>`: a 64-bit number is cast. -/
def getInt : Json → Except ParseError ℤ
  | .number n => pure (n.bmod (2 ^ 32))
  | .bool b => pure b.toNat
  | _ => throw .json

/-- The type of an operation. -/
def type (j : Json) : Except ParseError String := do (← j.at' "type").1.getString

end Json

/-! ## Operations -/

variable (X Y V : Type)

inductive PutInOp
  | received
  | getSide (left : Bool)
  | makenode (low high : PutInOp)
  | extension (inner : X)
  deriving DecidableEq

mutual

inductive NodeOp : Type
  | getSide (left : Bool)
  | makenode (low high : Child)
  | makeSwap
  | traverseTo (target : ℤ) (action : NodeOp) (pref actionOn : Branch)
  /-- The closure `wrapped` of a binary action. -/
  | rebuild (bin : BinaryNodeOp)
  | extension (op : X)

inductive BinaryNodeOp : Type
  | makeSwap (paramL paramR : SwapParam)
  | lockstepTo (target : ℤ) (action : BinaryNodeOp) (prefL actionOnL prefR actionOnR : Branch)
  | extension (op : Y)

/-- A child of `makenode`: of a binary operation only the first result is used. -/
inductive Child : Type
  | node (op : NodeOp)
  | binary (op : BinaryNodeOp)

inductive SwapParam : Type
  | param (putUp : NodeOp) (putIn : PutInOp X)
  | named (name : V)

end

deriving instance DecidableEq for NodeOp, BinaryNodeOp, Child, SwapParam

/-- `ExtensionRegistry`. -/
structure ExtensionRegistry where
  nodeOps : String → Option (Json → Except ParseError X)
  binaryOps : String → Option (Json → Except ParseError Y)

/-- `DefMap`. -/
abbrev DefMap := String → Option (SwapParam X Y V)

/-- `VarMap`. -/
abbrev VarMap := String → Option ℤ

variable {X Y V}

/-- `unordered_map::at`. -/
def atMap {α : Type*} (map : String → Option α) (key : String) : Except ParseError α :=
  match map key with
  | some a => pure a
  | none => throw .outOfRange

/-! ## The parser -/

def parseBranch (s : String) : Except ParseError Branch :=
  if s = "L" then pure .L
  else if s = "R" then pure .R
  else if s = "LR" then pure .LR
  else if s = "RL" then pure .RL
  else if s = "ITSELF" then pure .ITSELF
  else throw (.runtime ("Unknown Branch value: " ++ s))

def resolveTarget (vars : VarMap) (j : Json) : Except ParseError ℤ :=
  if j.contains "level" then do (← j.at' "level").1.getInt
  else if j.contains "var" then do atMap vars (← (← j.at' "var").1.getString)
  else throw (.runtime "Target must have \"level\" or \"var\"")

/-- A branch that is optional in an operation. -/
def branchOr (j : Json) (key : String) (default : Branch) : Except ParseError Branch :=
  if j.contains key then do parseBranch (← (← j.at' key).1.getString) else pure default

/-- The side of `get_side`: all but "L" is the right one. -/
def isLeft (j : Json) : Except ParseError Bool := do
  return (← (← j.at' "side").1.getString) == "L"

def parsePutInOp (reg : ExtensionRegistry X Y) (j : Json) : Except ParseError (PutInOp X) := do
  let type ← j.type
  if type = "received" then
    return .received
  else if type = "get_side" then
    return .getSide (← isLeft j)
  else if type = "makenode" then
    let low ← parsePutInOp reg (← j.at' "low").1
    let high ← parsePutInOp reg (← j.at' "high").1
    return .makenode low high
  else match reg.nodeOps type with
    | some factory => return .extension (← factory j)
    | none => throw (.runtime ("Unsupported op inside put_in: " ++ type))
termination_by sizeOf j
decreasing_by all_goals exact Json.inside_lt _

def isBinary (reg : ExtensionRegistry X Y) (j : Json) : Except ParseError Bool := do
  let type ← j.type
  return type == "lockstep_to" || type == "swap" && j.contains "paramL" ||
    (reg.binaryOps type).isSome

mutual

def parseSwapParam (reg : ExtensionRegistry X Y) (vars : VarMap) (defs : DefMap X Y V) (j : Json) :
    Except ParseError (SwapParam X Y V) :=
  if j.contains "$ref" then do
    atMap defs (← (← j.at' "$ref").1.getString)
  else do
    let putUp ← parseNodeOp reg vars defs (← j.at' "put_up").1
    let putIn ← parsePutInOp reg (← j.at' "put_in").1
    return .param putUp putIn
termination_by 2 * sizeOf j
decreasing_by
  all_goals first | exact Json.double_lt _ | exact Nat.lt_of_succ_lt (Json.double_lt _)

/-- Either child of `makenode`, as `is_binary` says. -/
def parseChild (reg : ExtensionRegistry X Y) (vars : VarMap) (defs : DefMap X Y V) (j : Json) :
    Except ParseError (Child X Y V) := do
  if ← isBinary reg j then
    return .binary (← parseBinaryOp reg vars defs j)
  else
    return .node (← parseNodeOp reg vars defs j)
termination_by 2 * sizeOf j + 1
decreasing_by all_goals exact Nat.lt_succ_self _

def parseNodeOp (reg : ExtensionRegistry X Y) (vars : VarMap) (defs : DefMap X Y V) (j : Json) :
    Except ParseError (NodeOp X Y V) := do
  let type ← j.type
  if type = "group" then
    throw (.runtime "\"group\" is a sequencing construct and cannot appear as an Op")
  else if type = "get_side" then
    return .getSide (← isLeft j)
  else if type = "makenode" then
    let lowJ ← j.at' "low"
    let highJ ← j.at' "high"
    let low ← parseChild reg vars defs lowJ.1
    let high ← parseChild reg vars defs highJ.1
    return .makenode low high
  else if type = "swap" ∧ j.contains "paramL" = false then
    return .makeSwap
  else if type = "traverse_to" then
    let target ← resolveTarget vars (← j.at' "target").1
    let pref ← branchOr j "pref" .LR
    let actionOn ← branchOr j "action_on" .ITSELF
    let actionJ ← j.at' "action"
    if ← isBinary reg actionJ.1 then
      let bin ← parseBinaryOp reg vars defs actionJ.1
      return .traverseTo target (.rebuild bin) pref actionOn
    else
      let action ← parseNodeOp reg vars defs actionJ.1
      return .traverseTo target action pref actionOn
  else match reg.nodeOps type with
    | some factory => return .extension (← factory j)
    | none => throw (.runtime ("Unknown NodeOp type: " ++ type))
termination_by 2 * sizeOf j
decreasing_by
  all_goals first | exact Json.double_lt _ | exact Nat.lt_of_succ_lt (Json.double_lt _)

def parseBinaryOp (reg : ExtensionRegistry X Y) (vars : VarMap) (defs : DefMap X Y V) (j : Json) :
    Except ParseError (BinaryNodeOp X Y V) := do
  let type ← j.type
  if type = "swap" then
    let paramL ← parseSwapParam reg vars defs (← j.at' "paramL").1
    let paramR ← parseSwapParam reg vars defs (← j.at' "paramR").1
    return .makeSwap paramL paramR
  else if type = "lockstep_to" then
    let target ← resolveTarget vars (← j.at' "target").1
    let prefL ← branchOr j "pref_L" .LR
    let actionOnL ← branchOr j "action_on_L" .ITSELF
    let prefR ← branchOr j "pref_R" .LR
    let actionOnR ← branchOr j "action_on_R" .ITSELF
    let action ← parseBinaryOp reg vars defs (← j.at' "action").1
    return .lockstepTo target action prefL actionOnL prefR actionOnR
  else match reg.binaryOps type with
    | some factory => return .extension (← factory j)
    | none => throw (.runtime ("Unknown BinaryNodeOp type: " ++ type))
termination_by 2 * sizeOf j
decreasing_by
  all_goals first | exact Json.double_lt _ | exact Nat.lt_of_succ_lt (Json.double_lt _)

end

/-! ## The blocks of a file -/

/-- The loop of `parse_defs` over the fields of the block. -/
def parseDefsLoop (reg : ExtensionRegistry X Y) (vars : VarMap) (fields : List (String × Json))
    (defs : DefMap X Y V) : Except ParseError (DefMap X Y V) :=
  match fields with
  | [] => pure defs
  | (name, val) :: rest => do
    let param ← parseSwapParam reg vars defs val
    parseDefsLoop reg vars rest (Function.update defs name (some param))

/-- `items`: a value that is no object or array has none, the keys of an array are its indices. -/
def Json.items : Json → List (String × Json)
  | .object fields => fields
  | .array elems => elems.mapIdx fun i v => (toString i, v)
  | .null => []
  | v => [("", v)]

def parseDefs (reg : ExtensionRegistry X Y) (vars : VarMap) (j : Json) :
    Except ParseError (DefMap X Y V) :=
  match j.field? "defs" with
  | none => pure fun _ => none
  | some block => parseDefsLoop reg vars block.1.items fun _ => none

/-- A definition that sends the LOW child. -/
example : (parseSwapParam (V := Empty) (⟨fun _ => none, fun _ => none⟩ : ExtensionRegistry Empty Empty)
    (fun _ => none) (fun _ => none) (.object [
      ("put_in", .object [("type", .string "received")]),
      ("put_up", .object [("side", .string "L"), ("type", .string "get_side")])])) =
    .ok (.param (.getSide true) .received) := by
  decide +kernel

end MoToBuddy.Mosf
