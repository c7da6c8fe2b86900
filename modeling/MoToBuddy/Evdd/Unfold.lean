import MoToBuddy.Evdd.Collect
import MoToBuddy.Lib.WTree

/-!
# The diagram below a node

`Unfolds` relates a node to the weighted tree that it represents. The labels of the tree are
whatever a reader makes of the ids on the edges; an id that is not live has no label, so
only diagrams without dangling nodes or weights have an unfolding.
-/

namespace MoToBuddy.Evdd

open Chained Marking Weighted

variable {P : Type*} {W : Type*} {s s' : EvddState P} {lab lab' : ValueId → Option W}

/-- Node `n` represents the tree. -/
inductive EvddState.Unfolds (s : EvddState P) (lab : ValueId → Option W) : ℕ → WTree W → Prop
  | leaf : s.Unfolds lab evddTrueNode .leaf
  | node {n low high level : ℕ} {wLow wHigh : ValueId} {l h : W} {tl th : WTree W}
      (inner : n ≠ evddTrueNode) (key : s.key n = ⟨some low, high, wLow, wHigh, level⟩)
      (labLow : lab wLow = some l) (labHigh : lab wHigh = some h)
      (below : s.Unfolds lab low tl) (above : s.Unfolds lab high th) :
      s.Unfolds lab n (.node level l tl h th)

/-- An edge represents a weight and a tree. -/
def EvddState.Edge (s : EvddState P) (lab : ValueId → Option W) (e : EVDD) (c : W)
    (τ : WTree W) : Prop :=
  lab e.w = some c ∧ s.Unfolds lab e.node τ

namespace EvddState.Unfolds

theorem isNode {n : ℕ} {τ : WTree W} (h : s.Unfolds lab n τ) : s.IsNode n := by
  cases h with
  | leaf => exact Or.inl rfl
  | node inner key _ _ _ _ =>
    exact Or.inr (EvddState.live_iff.mpr ⟨inner, _, congrArg EvddKey.low key⟩)

/-- A node represents one tree only. -/
theorem unique {n : ℕ} {τ τ' : WTree W} (h : s.Unfolds lab n τ) (h' : s.Unfolds lab n τ') :
    τ = τ' := by
  induction h generalizing τ' with
  | leaf =>
    cases h' with
    | leaf => rfl
    | node inner => exact absurd rfl inner
  | node inner key hl hh _ _ ihl ihh =>
    cases h' with
    | leaf => exact absurd rfl inner
    | node _ key' hl' hh' below above =>
      rw [key] at key'
      obtain ⟨hlow, rfl, rfl, rfl, rfl⟩ := EvddKey.mk.inj key'
      obtain rfl := Option.some.inj hlow
      rw [hl] at hl'
      rw [hh] at hh'
      obtain rfl := Option.some.inj hl'
      obtain rfl := Option.some.inj hh'
      rw [ihl below, ihh above]

/-- The tree only depends on the nodes below and on their weights. -/
theorem congr {n : ℕ} {τ : WTree W} (h : s.Unfolds lab n τ)
    (hkey : ∀ m, Reach s.live s.succ n m → s'.key m = s.key m)
    (hlab : ∀ m, Reach s.live s.succ n m → ∀ id, id = (s.key m).wLow ∨ id = (s.key m).wHigh →
      ∀ w, lab id = some w → lab' id = some w) : s'.Unfolds lab' n τ := by
  induction h with
  | leaf => exact .leaf
  | @node n low high level wLow wHigh l h tl th inner key hl hh below above ihl ihh =>
    have hlive : s.live n = true :=
      EvddState.live_iff.mpr ⟨inner, low, congrArg EvddKey.low key⟩
    have hsucc : s.succ n = [low, high] := by
      rw [EvddState.succ, key]
    have hstep : ∀ c ∈ s.succ n, ∀ m, Reach s.live s.succ c m → Reach s.live s.succ n m :=
      fun c hc m hm => Reach.child hlive hc hm
    refine .node inner ((hkey n (.refl hlive)).trans key) ?_ ?_ ?_ ?_
    · exact hlab n (.refl hlive) wLow (Or.inl (by rw [key])) l hl
    · exact hlab n (.refl hlive) wHigh (Or.inr (by rw [key])) h hh
    · exact ihl (fun m hm => hkey m (hstep low (by simp [hsucc]) m hm))
        fun m hm => hlab m (hstep low (by simp [hsucc]) m hm)
    · exact ihh (fun m hm => hkey m (hstep high (by simp [hsucc]) m hm))
        fun m hm => hlab m (hstep high (by simp [hsucc]) m hm)

end EvddState.Unfolds

/-! ## Ids read as their rows -/

variable {V V' : ValueTable P}

/-- What an id stands for: nothing if it is not live, else the bare zero or a payload with
its type. -/
def ValueTable.read (V : ValueTable P) (id : ValueId) : Option (Option (P × ℕ)) :=
  if id = evddValueZero then some none
  else (V.evddValues id).payload.map fun u => some (u, (V.evddValues id).type)

theorem ValueTable.read_of_row {id : ValueId}
    (hpay : (V'.evddValues id).payload = (V.evddValues id).payload)
    (htype : (V'.evddValues id).type = (V.evddValues id).type) : V'.read id = V.read id := by
  rw [ValueTable.read, ValueTable.read, hpay, htype]

theorem ValueTable.read_some {id : ValueId} {w : Option (P × ℕ)} (h : V.read id = some w) :
    id = evddValueZero ∨ (V.evddValues id).payload.isSome = true := by
  rw [ValueTable.read] at h
  split at h
  · rename_i h0
    exact Or.inl h0
  · right
    cases hp : (V.evddValues id).payload with
    | none => simp [hp] at h
    | some u => rfl

end MoToBuddy.Evdd
