import MoToBuddy.Mosf.Parser
import Mathlib.Data.String.Basic
import Mathlib.Logic.Relation
import Mathlib.Order.WellFounded
import Mathlib.Data.Set.Finite.List
import Mathlib.Order.WellFoundedSet

/-!
# Definitions and their references (`parse_defs`)

A definition is read with its references left open (`symbolic`). The parser with definitions then
puts them in the places of the names, and fails if one is missing (`parseNodeOp_resolved`).

The definitions of a block are parsed in the order of their names, each with those before it
(`parseDefsLoop_ok`, `mem_of_parseDefsLoop`). So a block parses if and only if every definition
refers to smaller names only (`parseDefs_resolves_iff`).
-/

namespace MoToBuddy.Mosf

variable {X Y V W : Type}

/-! ## Names -/

mutual

/-- The names that are left open. -/
def NodeOp.names : NodeOp X Y V → List V
  | .getSide _ | .makeSwap | .extension _ => []
  | .makenode low high => low.names ++ high.names
  | .traverseTo _ action _ _ => action.names
  | .rebuild bin => bin.names

def BinaryNodeOp.names : BinaryNodeOp X Y V → List V
  | .makeSwap paramL paramR => paramL.names ++ paramR.names
  | .lockstepTo _ action _ _ _ _ => action.names
  | .extension _ => []

def Child.names : Child X Y V → List V
  | .node op => op.names
  | .binary op => op.names

def SwapParam.names : SwapParam X Y V → List V
  | .param putUp _ => putUp.names
  | .named name => [name]

end

mutual

/-- Parameters in the places of the names. -/
def NodeOp.bind (f : V → SwapParam X Y W) : NodeOp X Y V → NodeOp X Y W
  | .getSide left => .getSide left
  | .makenode low high => .makenode (low.bind f) (high.bind f)
  | .makeSwap => .makeSwap
  | .traverseTo target action pref actionOn => .traverseTo target (action.bind f) pref actionOn
  | .rebuild bin => .rebuild (bin.bind f)
  | .extension op => .extension op

def BinaryNodeOp.bind (f : V → SwapParam X Y W) : BinaryNodeOp X Y V → BinaryNodeOp X Y W
  | .makeSwap paramL paramR => .makeSwap (paramL.bind f) (paramR.bind f)
  | .lockstepTo target action prefL onL prefR onR =>
    .lockstepTo target (action.bind f) prefL onL prefR onR
  | .extension op => .extension op

def Child.bind (f : V → SwapParam X Y W) : Child X Y V → Child X Y W
  | .node op => .node (op.bind f)
  | .binary op => .binary (op.bind f)

def SwapParam.bind (f : V → SwapParam X Y W) : SwapParam X Y V → SwapParam X Y W
  | .param putUp putIn => .param (putUp.bind f) putIn
  | .named name => f name

end

/-- The references under other names. -/
def SwapParam.rename (ρ : V → W) (a : SwapParam X Y V) : SwapParam X Y W :=
  a.bind fun v => .named (ρ v)

def NodeOp.rename (ρ : V → W) (a : NodeOp X Y V) : NodeOp X Y W := a.bind fun v => .named (ρ v)

section Bind

variable {f g : V → SwapParam X Y W}

mutual

theorem NodeOp.bind_congr :
    ∀ a : NodeOp X Y V, (∀ v ∈ a.names, f v = g v) → a.bind f = a.bind g
  | .getSide _, _ | .makeSwap, _ | .extension _, _ => rfl
  | .makenode low high, h => by
    have hl := low.bind_congr fun v hv => h v (List.mem_append_left _ hv)
    have hh := high.bind_congr fun v hv => h v (List.mem_append_right _ hv)
    rw [NodeOp.bind, hl, hh, NodeOp.bind]
  | .traverseTo _ action _ _, h => by
    rw [NodeOp.bind, action.bind_congr h, NodeOp.bind]
  | .rebuild bin, h => by
    rw [NodeOp.bind, bin.bind_congr h, NodeOp.bind]

theorem BinaryNodeOp.bind_congr :
    ∀ a : BinaryNodeOp X Y V, (∀ v ∈ a.names, f v = g v) → a.bind f = a.bind g
  | .makeSwap paramL paramR, h => by
    have hL := paramL.bind_congr fun v hv => h v (List.mem_append_left _ hv)
    have hR := paramR.bind_congr fun v hv => h v (List.mem_append_right _ hv)
    rw [BinaryNodeOp.bind, hL, hR, BinaryNodeOp.bind]
  | .lockstepTo _ action _ _ _ _, h => by
    rw [BinaryNodeOp.bind, action.bind_congr h, BinaryNodeOp.bind]
  | .extension _, _ => rfl

theorem Child.bind_congr :
    ∀ a : Child X Y V, (∀ v ∈ a.names, f v = g v) → a.bind f = a.bind g
  | .node op, h => congrArg Child.node (op.bind_congr h)
  | .binary op, h => congrArg Child.binary (op.bind_congr h)

theorem SwapParam.bind_congr :
    ∀ a : SwapParam X Y V, (∀ v ∈ a.names, f v = g v) → a.bind f = a.bind g
  | .param putUp putIn, h => congrArg (SwapParam.param · putIn) (putUp.bind_congr h)
  | .named name, h => h name (List.mem_singleton_self name)

end

variable {U : Type} {ρ : V → U} {h : U → SwapParam X Y W}

mutual

theorem NodeOp.bind_rename : ∀ a : NodeOp X Y V, (a.rename ρ).bind h = a.bind (h ∘ ρ)
  | .getSide _ | .makeSwap | .extension _ => rfl
  | .makenode low high => congrArg₂ NodeOp.makenode low.bind_rename high.bind_rename
  | .traverseTo target action pref on =>
    congrArg (NodeOp.traverseTo target · pref on) action.bind_rename
  | .rebuild bin => congrArg NodeOp.rebuild bin.bind_rename

theorem BinaryNodeOp.bind_rename :
    ∀ a : BinaryNodeOp X Y V, (a.bind fun v => .named (ρ v)).bind h = a.bind (h ∘ ρ)
  | .makeSwap paramL paramR =>
    congrArg₂ BinaryNodeOp.makeSwap paramL.bind_rename paramR.bind_rename
  | .lockstepTo target action prefL onL prefR onR =>
    congrArg (BinaryNodeOp.lockstepTo target · prefL onL prefR onR) action.bind_rename
  | .extension _ => rfl

theorem Child.bind_rename :
    ∀ a : Child X Y V, (a.bind fun v => .named (ρ v)).bind h = a.bind (h ∘ ρ)
  | .node op => congrArg Child.node op.bind_rename
  | .binary op => congrArg Child.binary op.bind_rename

theorem SwapParam.bind_rename : ∀ a : SwapParam X Y V, (a.rename ρ).bind h = a.bind (h ∘ ρ)
  | .param putUp putIn => congrArg (SwapParam.param · putIn) putUp.bind_rename
  | .named _ => rfl

end

mutual

theorem NodeOp.names_rename : ∀ a : NodeOp X Y V, (a.rename ρ).names = a.names.map ρ
  | .getSide _ | .makeSwap | .extension _ => rfl
  | .makenode low high => by
    have hmap : (low.names ++ high.names).map ρ = low.names.map ρ ++ high.names.map ρ :=
      List.map_append
    rw [← low.names_rename, ← high.names_rename] at hmap
    exact hmap.symm
  | .traverseTo _ action _ _ => action.names_rename
  | .rebuild bin => bin.names_rename

theorem BinaryNodeOp.names_rename :
    ∀ a : BinaryNodeOp X Y V,
      (a.bind fun v => SwapParam.named (X := X) (Y := Y) (ρ v)).names = a.names.map ρ
  | .makeSwap paramL paramR => by
    have hmap : (paramL.names ++ paramR.names).map ρ =
        paramL.names.map ρ ++ paramR.names.map ρ := List.map_append
    rw [← paramL.names_rename, ← paramR.names_rename] at hmap
    exact hmap.symm
  | .lockstepTo _ action _ _ _ _ => action.names_rename
  | .extension _ => rfl

theorem Child.names_rename :
    ∀ a : Child X Y V,
      (a.bind fun v => SwapParam.named (X := X) (Y := Y) (ρ v)).names = a.names.map ρ
  | .node op => op.names_rename
  | .binary op => op.names_rename

theorem SwapParam.names_rename : ∀ a : SwapParam X Y V, (a.rename ρ).names = a.names.map ρ
  | .param putUp _ => putUp.names_rename
  | .named _ => rfl

end

end Bind

/-! ## Parsing with definitions -/

/-- Every reference is left open. -/
def symbolic : DefMap X Y String := fun name => some (.named name)

section Results

variable {ε α β : Type} {x : Except ε α} {f : α → Except ε β} {b : β}

theorem except_bind_ok (h : x >>= f = .ok b) : ∃ a, x = .ok a ∧ f a = .ok b := by
  cases x with
  | error e => exact nomatch h
  | ok a => exact ⟨a, rfl, h⟩

/-- An error. -/
def Fails (x : Except ε α) : Prop := ∃ e, x = .error e

theorem Fails.bind (h : Fails x) (f : α → Except ε β) : Fails (x >>= f) := by
  obtain ⟨e, rfl⟩ := h
  exact ⟨e, rfl⟩

theorem Fails.after (h : ∀ a, Fails (f a)) : Fails (x >>= f) := by
  cases x with
  | error e => exact ⟨e, rfl⟩
  | ok a => exact h a

theorem not_fails_ok (a : α) : ¬ Fails (.ok a : Except ε α) := fun ⟨_, h⟩ => nomatch h

end Results

section Parser

variable {reg : ExtensionRegistry X Y} {vars : VarMap} {defs : DefMap X Y V}

/-- What parsing with definitions makes of something that was read with its references open: they
are put in, or one of them is missing. -/
structure Resolved {B : Type} (defs : DefMap X Y V) (names : List String)
    (bind : (String → SwapParam X Y V) → B) (y : Except ParseError B) : Prop where
  ok : ∀ env, (∀ r ∈ names, defs r = some (env r)) → y = .ok (bind env)
  fails : ∀ r ∈ names, defs r = none → Fails y

/-- Nothing was left open. -/
theorem Resolved.closed {B : Type} (b : B) :
    Resolved defs [] (fun _ => b) (pure b : Except ParseError B) :=
  ⟨fun _ _ => rfl, fun _ hr => absurd hr (List.not_mem_nil)⟩

theorem Resolved.map {B C : Type} {names : List String} {bind : (String → SwapParam X Y V) → B}
    {y : Except ParseError B} (h : Resolved defs names bind y) (c : B → C) :
    Resolved defs names (fun env => c (bind env)) (y >>= fun b => pure (c b)) :=
  ⟨fun env henv => by rw [h.ok env henv]; rfl, fun r hr hnone => (h.fails r hr hnone).bind _⟩

theorem Resolved.map₂ {B B' C : Type} {names names' : List String}
    {bind : (String → SwapParam X Y V) → B} {bind' : (String → SwapParam X Y V) → B'}
    {y : Except ParseError B} {y' : Except ParseError B'} (h : Resolved defs names bind y)
    (h' : Resolved defs names' bind' y') (c : B → B' → C) :
    Resolved defs (names ++ names') (fun env => c (bind env) (bind' env))
      (y >>= fun b => y' >>= fun b' => pure (c b b')) := by
  constructor
  · intro env henv
    rw [h.ok env fun r hr => henv r (List.mem_append_left _ hr),
      h'.ok env fun r hr => henv r (List.mem_append_right _ hr)]
    rfl
  · intro r hr hnone
    rcases List.mem_append.mp hr with hr | hr
    · exact (h.fails r hr hnone).bind _
    · exact Fails.after fun b => (h'.fails r hr hnone).bind _

theorem ok_bind {α β : Type} (a : α) (f : α → Except ParseError β) : (.ok a >>= f) = f a :=
  rfl

mutual

theorem parseSwapParam_resolved (j : Json) (a : SwapParam X Y String)
    (h : parseSwapParam reg vars symbolic j = .ok a) :
    Resolved defs a.names (fun env => a.bind env) (parseSwapParam reg vars defs j) := by
  rw [parseSwapParam] at h ⊢
  split at h
  · rename_i href
    rw [if_pos href]
    obtain ⟨v, hv, h⟩ := except_bind_ok h
    obtain ⟨name, hname, h⟩ := except_bind_ok h
    obtain rfl := Except.ok.inj h
    simp only [hv, hname, ok_bind]
    unfold atMap
    constructor
    · intro env henv
      rw [henv name (List.mem_singleton_self name)]
      rfl
    · intro r hr hnone
      obtain rfl := List.mem_singleton.mp hr
      rw [hnone]
      exact ⟨_, rfl⟩
  · rename_i href
    rw [if_neg href]
    obtain ⟨v, hv, h⟩ := except_bind_ok h
    obtain ⟨putUp, hup, h⟩ := except_bind_ok h
    obtain ⟨w, hw, h⟩ := except_bind_ok h
    obtain ⟨putIn, hin, h⟩ := except_bind_ok h
    obtain rfl := Except.ok.inj h
    have hlt := v.2
    simp only [hv, hw, hin, ok_bind]
    exact (parseNodeOp_resolved v.1 putUp hup).map (SwapParam.param · putIn)
termination_by 2 * sizeOf j

theorem parseChild_resolved (j : Json) (a : Child X Y String)
    (h : parseChild reg vars symbolic j = .ok a) :
    Resolved defs a.names (fun env => a.bind env) (parseChild reg vars defs j) := by
  rw [parseChild] at h ⊢
  obtain ⟨binary, hb, h⟩ := except_bind_ok h
  simp only [hb, ok_bind]
  cases binary with
  | true =>
    obtain ⟨op, hop, h⟩ := except_bind_ok h
    obtain rfl := Except.ok.inj h
    exact (parseBinaryOp_resolved j op hop).map Child.binary
  | false =>
    obtain ⟨op, hop, h⟩ := except_bind_ok h
    obtain rfl := Except.ok.inj h
    exact (parseNodeOp_resolved j op hop).map Child.node
termination_by 2 * sizeOf j + 1

theorem parseNodeOp_resolved (j : Json) (a : NodeOp X Y String)
    (h : parseNodeOp reg vars symbolic j = .ok a) :
    Resolved defs a.names (fun env => a.bind env) (parseNodeOp reg vars defs j) := by
  rw [parseNodeOp] at h ⊢
  obtain ⟨type, htype, h⟩ := except_bind_ok h
  simp only [htype, ok_bind]
  split_ifs at h ⊢ with hgroup hside hnode hswap htraverse
  · obtain ⟨left, hleft, h⟩ := except_bind_ok h
    obtain rfl := Except.ok.inj h
    rw [hleft]
    exact .closed _
  · obtain ⟨lowJ, hlowJ, h⟩ := except_bind_ok h
    obtain ⟨highJ, hhighJ, h⟩ := except_bind_ok h
    obtain ⟨low, hlow, h⟩ := except_bind_ok h
    obtain ⟨high, hhigh, h⟩ := except_bind_ok h
    obtain rfl := Except.ok.inj h
    have hltL := lowJ.2
    have hltH := highJ.2
    simp only [hlowJ, hhighJ, ok_bind]
    exact (parseChild_resolved lowJ.1 low hlow).map₂ (parseChild_resolved highJ.1 high hhigh)
      NodeOp.makenode
  · obtain rfl := Except.ok.inj h
    exact .closed _
  · obtain ⟨targetJ, htargetJ, h⟩ := except_bind_ok h
    obtain ⟨target, htarget, h⟩ := except_bind_ok h
    obtain ⟨pref, hpref, h⟩ := except_bind_ok h
    obtain ⟨actionOn, hon, h⟩ := except_bind_ok h
    obtain ⟨actionJ, hactionJ, h⟩ := except_bind_ok h
    obtain ⟨binary, hb, h⟩ := except_bind_ok h
    have hlt := actionJ.2
    simp only [htargetJ, htarget, hpref, hon, hactionJ, hb, ok_bind]
    cases binary with
    | true =>
      obtain ⟨bin, hbin, h⟩ := except_bind_ok h
      obtain rfl := Except.ok.inj h
      exact (parseBinaryOp_resolved actionJ.1 bin hbin).map fun bin =>
        NodeOp.traverseTo target (.rebuild bin) pref actionOn
    | false =>
      obtain ⟨action, haction, h⟩ := except_bind_ok h
      obtain rfl := Except.ok.inj h
      exact (parseNodeOp_resolved actionJ.1 action haction).map
        (NodeOp.traverseTo target · pref actionOn)
  · cases hreg : reg.nodeOps type with
    | none => simp [hreg] at h
    | some factory =>
      rw [hreg] at h
      obtain ⟨op, hop, h⟩ := except_bind_ok h
      obtain rfl := Except.ok.inj h
      simp only [hop, ok_bind]
      exact .closed _
termination_by 2 * sizeOf j

theorem parseBinaryOp_resolved (j : Json) (a : BinaryNodeOp X Y String)
    (h : parseBinaryOp reg vars symbolic j = .ok a) :
    Resolved defs a.names (fun env => a.bind env) (parseBinaryOp reg vars defs j) := by
  rw [parseBinaryOp] at h ⊢
  obtain ⟨type, htype, h⟩ := except_bind_ok h
  simp only [htype, ok_bind]
  split_ifs at h ⊢ with hswap hlockstep
  · obtain ⟨v, hv, h⟩ := except_bind_ok h
    obtain ⟨paramL, hL, h⟩ := except_bind_ok h
    obtain ⟨w, hw, h⟩ := except_bind_ok h
    obtain ⟨paramR, hR, h⟩ := except_bind_ok h
    obtain rfl := Except.ok.inj h
    have hltL := v.2
    have hltR := w.2
    simp only [hv, hw, ok_bind]
    exact (parseSwapParam_resolved v.1 paramL hL).map₂ (parseSwapParam_resolved w.1 paramR hR)
      BinaryNodeOp.makeSwap
  · obtain ⟨targetJ, htargetJ, h⟩ := except_bind_ok h
    obtain ⟨target, htarget, h⟩ := except_bind_ok h
    obtain ⟨prefL, hprefL, h⟩ := except_bind_ok h
    obtain ⟨onL, honL, h⟩ := except_bind_ok h
    obtain ⟨prefR, hprefR, h⟩ := except_bind_ok h
    obtain ⟨onR, honR, h⟩ := except_bind_ok h
    obtain ⟨v, hv, h⟩ := except_bind_ok h
    obtain ⟨action, haction, h⟩ := except_bind_ok h
    obtain rfl := Except.ok.inj h
    have hlt := v.2
    simp only [htargetJ, htarget, hprefL, honL, hprefR, honR, hv, ok_bind]
    exact (parseBinaryOp_resolved v.1 action haction).map
      (BinaryNodeOp.lockstepTo target · prefL onL prefR onR)
  · cases hreg : reg.binaryOps type with
    | none => simp [hreg] at h
    | some factory =>
      rw [hreg] at h
      obtain ⟨op, hop, h⟩ := except_bind_ok h
      obtain rfl := Except.ok.inj h
      simp only [hop, ok_bind]
      exact .closed _
termination_by 2 * sizeOf j

end

end Parser

/-! ## Blocks of definitions -/

section Loop

variable {reg : ExtensionRegistry X Y} {vars : VarMap} {env : String → SwapParam X Y V}
  {fields : List (String × Json)} {entries : List (String × SwapParam X Y String)}

/-- A block reads as entries that have their references open. -/
def Reads (reg : ExtensionRegistry X Y) (vars : VarMap) (fields : List (String × Json))
    (entries : List (String × SwapParam X Y String)) : Prop :=
  List.Forall₂ (fun f d => f.1 = d.1 ∧ parseSwapParam reg vars symbolic f.2 = .ok d.2)
    fields entries

/-- Every entry means what its references mean. -/
def Means (entries : List (String × SwapParam X Y String)) (env : String → SwapParam X Y V) :
    Prop :=
  ∀ d ∈ entries, env d.1 = d.2.bind env

/-- The loop succeeds if every reference is to a definition that came before. -/
theorem parseDefsLoop_ok (hreads : Reads reg vars fields entries) (hmeans : Means entries env)
    {defs : DefMap X Y V} {seen : List String} (hdefs : ∀ n ∈ seen, defs n = some (env n))
    (hbefore : ∀ l d l', entries = l ++ d :: l' →
      ∀ r ∈ d.2.names, r ∈ seen ++ l.map Prod.fst) :
    ∃ map, parseDefsLoop reg vars fields defs = .ok map ∧
      ∀ n ∈ seen ++ entries.map Prod.fst, map n = some (env n) := by
  induction hreads generalizing defs seen with
  | nil => exact ⟨defs, rfl, by simpa using hdefs⟩
  | @cons f d fields entries hf _ ih =>
    obtain ⟨hname, hparam⟩ := hf
    have hnames : ∀ r ∈ d.2.names, r ∈ seen := fun r hr => by
      simpa using hbefore [] d entries rfl r hr
    have hresolved : Resolved defs d.2.names (fun env => d.2.bind env)
        (parseSwapParam reg vars defs f.2) := parseSwapParam_resolved f.2 d.2 hparam
    have hok := hresolved.ok env fun r hr => hdefs r (hnames r hr)
    have henv := hmeans d List.mem_cons_self
    unfold parseDefsLoop
    rw [hok, ok_bind, ← henv, hname]
    have hdefs' : ∀ n ∈ seen ++ [d.1],
        Function.update defs d.1 (some (env d.1)) n = some (env n) := by
      intro n hn
      by_cases hnd : n = d.1
      · rw [hnd, Function.update_self]
      · rw [Function.update_of_ne hnd]
        exact hdefs n ((List.mem_append.mp hn).resolve_right (by simpa using hnd))
    obtain ⟨map, hmap, hall⟩ := ih (fun e he => hmeans e (List.mem_cons_of_mem d he)) hdefs'
      fun l e l' heq r hr => by simpa using hbefore (d :: l) e l' (by rw [heq]; rfl) r hr
    exact ⟨map, hmap, fun n hn => hall n (by simpa using hn)⟩

/-- In a run of the loop every reference is to a definition that came before. -/
theorem mem_of_parseDefsLoop (hreads : Reads reg vars fields entries) {defs map : DefMap X Y V}
    {seen : List String} (hdefs : ∀ n, n ∉ seen → defs n = none)
    (hok : parseDefsLoop reg vars fields defs = .ok map)
    {l l' : List (String × SwapParam X Y String)} {d : String × SwapParam X Y String}
    (heq : entries = l ++ d :: l') {r : String} (hr : r ∈ d.2.names) : r ∈ seen ++ l.map Prod.fst := by
  induction hreads generalizing defs seen l with
  | nil => exact absurd heq (by simp)
  | @cons f e fields entries hf _ ih =>
    obtain ⟨hname, hparam⟩ := hf
    unfold parseDefsLoop at hok
    obtain ⟨param, hp, hok⟩ := except_bind_ok hok
    have hseen : ∀ r ∈ e.2.names, r ∈ seen := by
      intro r hr
      by_contra hnot
      have hresolved : Resolved defs e.2.names (fun env => e.2.bind env)
          (parseSwapParam reg vars defs f.2) := parseSwapParam_resolved f.2 e.2 hparam
      have hfails := hresolved.fails r hr (hdefs r hnot)
      rw [hp] at hfails
      exact not_fails_ok _ hfails
    cases l with
    | nil =>
      obtain ⟨rfl, -⟩ := List.cons.inj heq
      simpa using hseen r hr
    | cons e' l =>
      have htail : entries = l ++ d :: l' := (List.cons.inj heq).2
      obtain rfl : e = e' := (List.cons.inj heq).1
      have hdefs' : ∀ n, n ∉ seen ++ [e.1] →
          Function.update defs f.1 (some param) n = none := by
        intro n hn
        rw [List.mem_append, List.mem_singleton, not_or] at hn
        rw [hname, Function.update_of_ne hn.2]
        exact hdefs n hn.1
      simpa using ih hdefs' hok htail

/-- The fields of an object are in the order of their keys. -/
def KeyOrder {α : Type*} (l : List (String × α)) : Prop := l.Pairwise fun a b => a.1 < b.1

theorem Reads.names_eq (h : Reads reg vars fields entries) :
    fields.map Prod.fst = entries.map Prod.fst := by
  induction h with
  | nil => rfl
  | cons hf _ ih => rw [List.map_cons, List.map_cons, hf.1, ih]

/-- A block parses if and only if every definition refers to smaller names only. -/
theorem parseDefsLoop_iff (hreads : Reads reg vars fields entries) (hmeans : Means entries env)
    (hkeys : KeyOrder fields)
    (hclosed : ∀ d ∈ entries, ∀ r ∈ d.2.names, r ∈ entries.map Prod.fst) :
    (∃ map, parseDefsLoop reg vars fields (fun _ => none) = .ok map ∧
      ∀ n ∈ entries.map Prod.fst, map n = some (env n)) ↔
      ∀ d ∈ entries, ∀ r ∈ d.2.names, r < d.1 := by
  have hsorted : (entries.map Prod.fst).Pairwise (· < ·) := by
    rw [← hreads.names_eq]
    exact List.pairwise_map.mpr hkeys
  constructor
  · rintro ⟨map, hmap, -⟩ d hd r hr
    obtain ⟨l, l', rfl⟩ := List.append_of_mem hd
    have hl : r ∈ [] ++ l.map Prod.fst :=
      mem_of_parseDefsLoop hreads (fun _ _ => rfl) hmap rfl hr
    rw [List.map_append, List.map_cons, List.pairwise_append] at hsorted
    exact hsorted.2.2 r (by simpa using hl) d.1 List.mem_cons_self
  · intro hlt
    have hnone : ∀ n ∈ ([] : List String), (none : Option (SwapParam X Y V)) = some (env n) :=
      fun n hn => absurd hn List.not_mem_nil
    obtain ⟨map, hmap, hall⟩ := parseDefsLoop_ok hreads hmeans hnone fun l d l' heq r hr => by
        subst heq
        have hmem := hclosed d (by simp) r hr
        have hrd := hlt d (by simp) r hr
        rw [List.map_append, List.map_cons, List.pairwise_append, List.pairwise_cons] at hsorted
        rw [List.map_append, List.map_cons, List.mem_append, List.mem_cons] at hmem
        rcases hmem with hmem | rfl | hmem
        · simpa using hmem
        · exact absurd hrd (lt_irrefl _)
        · exact absurd hrd (lt_asymm (hsorted.2.1.1 r hmem))
    exact ⟨map, hmap, by simpa using hall⟩

end Loop

/-- The definitions of a block with their references left open: the names differ, every reference
is to one of them, and none is in a circle. -/
structure Definitions (X Y : Type) where
  entries : List (String × SwapParam X Y String)
  nodup : (entries.map Prod.fst).Nodup
  closed : ∀ d ∈ entries, ∀ r ∈ d.2.names, r ∈ entries.map Prod.fst
  acyclic : ∀ n, ¬ Relation.TransGen (fun r n => ∃ d ∈ entries, d.1 = n ∧ r ∈ d.2.names) n n

/-- There is no circle if all references are to smaller names. -/
theorem acyclic_of_lt {entries : List (String × SwapParam X Y String)}
    (h : ∀ d ∈ entries, ∀ r ∈ d.2.names, r < d.1) (n : String) :
    ¬ Relation.TransGen (fun r n => ∃ d ∈ entries, d.1 = n ∧ r ∈ d.2.names) n n := by
  intro hcircle
  apply lt_irrefl n
  have hlt : ∀ r m,
      Relation.TransGen (fun r n => ∃ d ∈ entries, d.1 = n ∧ r ∈ d.2.names) r m →
      r < m := by
    intro r m hpath
    induction hpath with
    | single hstep =>
      obtain ⟨d, hd, rfl, hr⟩ := hstep
      exact h d hd r hr
    | tail _ hstep ih =>
      obtain ⟨d, hd, rfl, hr⟩ := hstep
      exact ih.trans (h d hd _ hr)
  exact hlt n n hcircle

namespace Definitions

variable (D : Definitions X Y)

/-- A definition refers to a name. -/
def RefersTo (r n : String) : Prop := ∃ d ∈ D.entries, d.1 = n ∧ r ∈ d.2.names

theorem refersTo_wellFounded : WellFounded D.RefersTo := by
  have hstrict : IsStrictOrder String (Relation.TransGen D.RefersTo) :=
    { irrefl := D.acyclic, trans := fun _ _ _ => Relation.TransGen.trans }
  have hon := (D.entries.map Prod.fst).toFinset.wellFoundedOn (r := Relation.TransGen D.RefersTo)
  apply Subrelation.wf _ (Set.wellFoundedOn_iff.mp hon)
  rintro r n ⟨d, hd, rfl, hr⟩
  refine ⟨.single ⟨d, hd, rfl, hr⟩, ?_, ?_⟩
  · exact List.mem_toFinset.mpr (D.closed d hd r hr)
  · exact List.mem_toFinset.mpr (List.mem_map_of_mem hd)

theorem lookup_eq {d : String × SwapParam X Y String} (hd : d ∈ D.entries) :
    D.entries.lookup d.1 = some d.2 := by
  obtain ⟨l, l', heq⟩ := List.append_of_mem hd
  refine List.lookup_eq_some_iff.mpr ⟨l, l', heq, fun p hp => ?_⟩
  have hnodup := D.nodup
  rw [heq, List.map_append, List.map_cons, List.nodup_append] at hnodup
  exact bne_iff_ne.mpr (hnodup.2.2 p.1 (List.mem_map_of_mem hp) d.1 List.mem_cons_self).symm

/-- Acyclic definitions have a meaning: a reference is the parameter of the definition. -/
theorem exists_means : ∃ env : String → SwapParam X Y Empty, Means D.entries env := by
  classical
  let F : (n : String) → ((r : String) → D.RefersTo r n → SwapParam X Y Empty) →
      SwapParam X Y Empty := fun n rec =>
    ((D.entries.lookup n).map fun a =>
      a.bind fun r => if h : D.RefersTo r n then rec r h else .param .makeSwap .received).getD
        (.param .makeSwap .received)
  refine ⟨D.refersTo_wellFounded.fix F, fun d hd => ?_⟩
  rw [D.refersTo_wellFounded.fix_eq]
  unfold F
  rw [D.lookup_eq hd]
  exact d.2.bind_congr fun r hr => dif_pos ⟨d, hd, rfl, hr⟩

/-- The block of the definitions under other names, which are in the order of the new names. -/
structure Renamed (reg : ExtensionRegistry X Y) (vars : VarMap) (ρ : String → String)
    (fields : List (String × Json)) : Prop where
  keys : KeyOrder fields
  injOn : ∀ a ∈ D.entries, ∀ b ∈ D.entries, ρ a.1 = ρ b.1 → a.1 = b.1
  reads : ∃ entries, Reads reg vars fields entries ∧
    entries.Perm (D.entries.map fun d => (ρ d.1, d.2.rename ρ))

/-- The meaning under the new names. -/
theorem exists_renamed (env : String → SwapParam X Y Empty) {ρ : String → String}
    (hinj : ∀ a ∈ D.entries, ∀ b ∈ D.entries, ρ a.1 = ρ b.1 → a.1 = b.1) :
    ∃ env' : String → SwapParam X Y Empty, ∀ r ∈ D.entries.map Prod.fst, env' (ρ r) = env r := by
  classical
  refine ⟨fun m => if h : ∃ d ∈ D.entries, ρ d.1 = m then env h.choose.1 else .param .makeSwap
    .received, fun r hr => ?_⟩
  obtain ⟨d, hd, rfl⟩ := List.mem_map.mp hr
  have h : ∃ d' ∈ D.entries, ρ d'.1 = ρ d.1 := ⟨d, hd, rfl⟩
  refine (dif_pos h).trans (congrArg env ?_)
  exact hinj _ h.choose_spec.1 d hd h.choose_spec.2

end Definitions

/-- A file with acyclic definitions parses if and only if, in the order of the names, every
definition only refers to those before it. Then every reference is the parameter of the definition
that it names, and operations are the same whatever the definitions are called. -/
theorem parseDefs_resolves_iff (reg : ExtensionRegistry X Y) (vars : VarMap)
    (D : Definitions X Y) :
    ∃ env : String → SwapParam X Y Empty, Means D.entries env ∧
      ∀ (ρ : String → String) (j : Json) (block : j.Inside), j.field? "defs" = some block →
        D.Renamed reg vars ρ block.1.items →
        ((∃ defs, parseDefs reg vars j = .ok defs ∧
            (∀ d ∈ D.entries, defs (ρ d.1) = some (env d.1)) ∧
            ∀ (op : Json) (a : NodeOp X Y String), (∀ r ∈ a.names, r ∈ D.entries.map Prod.fst) →
              parseNodeOp reg vars symbolic op = .ok (a.rename ρ) →
              parseNodeOp reg vars defs op = .ok (a.bind env)) ↔
          ∀ d ∈ D.entries, ∀ r ∈ d.2.names, ρ r < ρ d.1) := by
  obtain ⟨env, hmeans⟩ := D.exists_means
  refine ⟨env, hmeans, fun ρ j block hblock hrenamed => ?_⟩
  obtain ⟨hkeys, hinj, entries, hreads, hperm⟩ := hrenamed
  obtain ⟨env', henv'⟩ := D.exists_renamed env hinj
  have hmem : ∀ e, e ∈ entries ↔ ∃ d ∈ D.entries, (ρ d.1, d.2.rename ρ) = e := fun e =>
    hperm.mem_iff.trans List.mem_map
  have hnames : ∀ d ∈ D.entries, ρ d.1 ∈ entries.map Prod.fst := fun d hd =>
    List.mem_map.mpr ⟨_, (hmem _).mpr ⟨d, hd, rfl⟩, rfl⟩
  have hmeans' : Means entries env' := by
    intro e he
    obtain ⟨d, hd, rfl⟩ := (hmem e).mp he
    rw [SwapParam.bind_rename, henv' d.1 (List.mem_map_of_mem hd), hmeans d hd]
    exact d.2.bind_congr fun r hr => (henv' r (D.closed d hd r hr)).symm
  have hclosed : ∀ e ∈ entries, ∀ r ∈ e.2.names, r ∈ entries.map Prod.fst := by
    intro e he r hr
    obtain ⟨d, hd, rfl⟩ := (hmem e).mp he
    rw [SwapParam.names_rename] at hr
    obtain ⟨r₀, hr₀, rfl⟩ := List.mem_map.mp hr
    obtain ⟨d', hd', rfl⟩ := List.mem_map.mp (D.closed d hd r₀ hr₀)
    exact hnames d' hd'
  have hloop := parseDefsLoop_iff hreads hmeans' hkeys hclosed
  have hparse : parseDefs reg vars j =
      parseDefsLoop reg vars block.1.items (fun _ => none : DefMap X Y Empty) := by
    unfold parseDefs
    rw [hblock]
  rw [hparse]
  constructor
  · rintro ⟨defs, hdefs, hall, -⟩ d hd r hr
    refine hloop.mp ⟨defs, hdefs, fun n hn => ?_⟩ _ ((hmem _).mpr ⟨d, hd, rfl⟩) (ρ r) ?_
    · obtain ⟨e, he, rfl⟩ := List.mem_map.mp hn
      obtain ⟨d, hd, rfl⟩ := (hmem e).mp he
      rw [hall d hd, henv' d.1 (List.mem_map_of_mem hd)]
    · rw [SwapParam.names_rename]
      exact List.mem_map_of_mem hr
  · intro hlt
    obtain ⟨defs, hdefs, hall⟩ := hloop.mpr fun e he r hr => by
      obtain ⟨d, hd, rfl⟩ := (hmem e).mp he
      rw [SwapParam.names_rename] at hr
      obtain ⟨r₀, hr₀, rfl⟩ := List.mem_map.mp hr
      exact hlt d hd r₀ hr₀
    have hsome : ∀ r ∈ D.entries.map Prod.fst, defs (ρ r) = some (env r) := by
      intro r hr
      obtain ⟨d, hd, rfl⟩ := List.mem_map.mp hr
      rw [hall _ (hnames d hd), henv' d.1 hr]
    refine ⟨defs, hdefs, fun d hd => hsome d.1 (List.mem_map_of_mem hd), fun op a ha hop => ?_⟩
    have hresolved : Resolved defs (a.rename ρ).names (fun env => (a.rename ρ).bind env)
        (parseNodeOp reg vars defs op) := parseNodeOp_resolved op (a.rename ρ) hop
    have hok := hresolved.ok env' fun r hr => by
      rw [NodeOp.names_rename] at hr
      obtain ⟨r₀, hr₀, rfl⟩ := List.mem_map.mp hr
      rw [hsome r₀ (ha r₀ hr₀), henv' r₀ (ha r₀ hr₀)]
    rw [hok, NodeOp.bind_rename]
    exact congrArg Except.ok (a.bind_congr fun r hr => henv' r (ha r hr))

/-! ## Two definitions -/

/-- The LOW child is sent, and replaced by what is received. -/
def sending : Json := .object [
  ("put_in", .object [("type", .string "received")]),
  ("put_up", .object [("side", .string "L"), ("type", .string "get_side")])]

/-- At level `1` the children are swapped, with the same parameter on both sides. -/
def forwarding (name : String) : Json := .object [
  ("put_in", .object [("type", .string "received")]),
  ("put_up", .object [
    ("action", .object [("paramL", .object [("$ref", .string name)]),
      ("paramR", .object [("$ref", .string name)]), ("type", .string "swap")]),
    ("target", .object [("level", .number 1)]), ("type", .string "traverse_to")])]

def noExtensions : ExtensionRegistry Empty Empty := ⟨fun _ => none, fun _ => none⟩

/-- A parameter that swaps at level `1`. -/
def atLevelOne {V : Type} (param : SwapParam Empty Empty V) : SwapParam Empty Empty V :=
  .param (.traverseTo 1 (.rebuild (.makeSwap param param)) .LR .ITSELF) .received

/-- The definition `outer` refers to `base`. -/
def twoDefinitions : Definitions Empty Empty where
  entries := [("base", .param (.getSide true) .received), ("outer", atLevelOne (.named "base"))]
  nodup := by decide
  closed := by decide
  acyclic := acyclic_of_lt (by decide +kernel)

/-- A file with the definitions in the order of their keys, and its operation. -/
def circuit (defs : List (String × Json)) : Json := .object [("defs", .object defs)]

/-- Other names in the same order. -/
def inOrder (name : String) : String := if name = "base" then "left" else "right"

/-- Names in the other order. -/
def backwards (name : String) : String := if name = "base" then "right" else "left"

theorem inOrder_renamed : twoDefinitions.Renamed noExtensions (fun _ => none) inOrder
    [("left", sending), ("right", forwarding "left")] where
  keys := by
    unfold KeyOrder
    decide +kernel
  injOn := by decide +kernel
  reads := by
    refine ⟨_, .cons ⟨rfl, ?_⟩ (.cons ⟨rfl, ?_⟩ .nil), .refl _⟩
    · decide +kernel
    · decide +kernel

theorem backwards_renamed : twoDefinitions.Renamed noExtensions (fun _ => none) backwards
    [("left", forwarding "right"), ("right", sending)] where
  keys := by
    unfold KeyOrder
    decide +kernel
  injOn := by decide +kernel
  reads := by
    refine ⟨_, .cons ⟨rfl, ?_⟩ (.cons ⟨rfl, ?_⟩ .nil), .swap _ _ _⟩
    · decide +kernel
    · decide +kernel

/-- The operation that swaps at level `0` with `outer` on the left and `base` on the right. -/
def swapOperation (outer base : String) : Json := .object [
  ("action", .object [("paramL", .object [("$ref", .string outer)]),
    ("paramR", .object [("$ref", .string base)]), ("type", .string "swap")]),
  ("target", .object [("level", .number 0)]), ("type", .string "traverse_to")]

/-- The parameter of `outer` has that of `base` in it, and the operation has both. -/
theorem twoDefinitions_resolve : ∃ env : String → SwapParam Empty Empty Empty,
    Means twoDefinitions.entries env ∧ ∃ defs,
      parseDefs noExtensions (fun _ => none)
        (circuit [("left", sending), ("right", forwarding "left")]) = .ok defs ∧
      defs "left" = some (env "base") ∧ defs "right" = some (env "outer") ∧
      parseNodeOp noExtensions (fun _ => none) defs (swapOperation "right" "left") =
        .ok (.traverseTo 0 (.rebuild (.makeSwap (env "outer") (env "base"))) .LR .ITSELF) := by
  obtain ⟨env, hmeans, hiff⟩ := parseDefs_resolves_iff noExtensions (fun _ => none) twoDefinitions
  obtain ⟨defs, hdefs, hnames, hops⟩ := (hiff inOrder (circuit [("left", sending),
    ("right", forwarding "left")]) _ rfl inOrder_renamed).mpr (by decide +kernel)
  refine ⟨env, hmeans, defs, hdefs, hnames _ (.head _), hnames _ (.tail _ (.head _)), ?_⟩
  exact hops (swapOperation "right" "left")
    (.traverseTo 0 (.rebuild (.makeSwap (.named "outer") (.named "base"))) .LR .ITSELF)
    (by decide) (by decide +kernel)

/-- A reference to a definition that comes later is not found. -/
theorem backwards_outOfRange : ∃ block,
    (circuit [("left", forwarding "right"), ("right", sending)]).field? "defs" = some block ∧
    twoDefinitions.Renamed noExtensions (fun _ => none) backwards block.1.items ∧
    (parseDefs (V := Empty) noExtensions (fun _ => none)
      (circuit [("left", forwarding "right"), ("right", sending)])).isOk = false :=
  ⟨_, rfl, backwards_renamed, by decide +kernel⟩

end MoToBuddy.Mosf
