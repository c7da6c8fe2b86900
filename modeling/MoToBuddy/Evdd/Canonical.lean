import MoToBuddy.Evdd.Pointwise
import MoToBuddy.Evdd.Scale

/-!
# The functions of results (`evdd_kernel.c`, `evdd_op.c`)

What a caller can rely on in a whole session: `evdd_apply` and `evdd_normalize` return edges
with the right function, the second one if no node whose function is zero has a node on its high
side. Otherwise a result in the memo can be collected before it is used again
(`evddNormalize_loses`).
-/

namespace MoToBuddy.Evdd

open Weighted Chained Marking

variable {K : Type*} [Field K] [DecidableEq K] {T : ValueTypes K} {E : Policy K}
  {ops : EvddApplyOps K} {t op : ℕ} {factor g : K → K → K} {s s' : EvddState K} {a b : EVDD}
  {size maxsize cachesize : ℕ} {V : ValueTable K}

omit [Field K] in
theorem evddInit_consistent (hsize : 2 ≤ size) (hcache : 0 < cachesize) (hV : ValueInv T V) :
    Consistent T (evddInit size maxsize cachesize V) := by
  obtain ⟨ht, hg, hw⟩ := evddInit_inv (q := True) hsize hcache maxsize V
  exact ⟨ht, hV, hg, hw⟩

theorem evddInit_cacheSound : CacheSound T ops (evddInit size maxsize cachesize V) := by
  intro i hi
  exact absurd hi (by decide : ¬ decide ((0 : UInt32) = 1) = true)

/-- The state after any calls, none of which ran out of nodes. -/
theorem evddRun_consistent (hT : LawfulNormalize T) (hops : ∀ op, LawfulOp T (ops op))
    (hapart : ops.Apart) (hsize : 2 ≤ size) (hcache : 0 < cachesize) (hV : ValueInv T V)
    (hrun : EvddRun T ops (Careful T) (evddInit size maxsize cachesize V) s)
    (hroom : s.nodenums = 0) : Consistent T s ∧ CacheSound T ops s :=
  evddRun_sound hT hops hapart (evddInit_consistent hsize hcache hV) evddInit_cacheSound hrun hroom

/-! ## A raw node with the weights `2` and `4` -/

def ratPair : (ValueId × ValueId) × ValueTable ℚ :=
  internPair (ratTypes .firstNonzero) .empty 0 2 4

def ratPaired : EvddState ℚ := { ratSession with values := ratPair.2 }

def ratRaw : EVDD × EvddState ℚ :=
  evddMakenodeRaw (ratTypes .firstNonzero) ratPolicy ratPaired 5 (evddConst ratPair.1.1)
    (evddConst ratPair.1.2)

theorem ratOps_meaning : Meaning (ratTypes .firstNonzero) 0 (ratOps .firstNonzero 1) (· + ·)
    firstNonzeroFactor where
  field := ratTypes_exactField _
  norm := normalizing_firstNonzero (ratTypes_exactField _) rfl
  exact _ hV _ _ _ _ ha hb := weight_add (ratTypes_exactField _) hV ha hb

theorem ratPaired_run : EvddRun (ratTypes .firstNonzero) (ratOps .firstNonzero)
    (Careful (ratTypes .firstNonzero)) (evddInit 7 0 3 .empty) ratPaired :=
  evddRun_internPair (fun _ _ => ⟨by simp [ValidWeights, EvddCall.operands], Nat.zero_le _, trivial⟩)
    ratSession 2 4

theorem ratPaired_denotes : ratPaired.Denotes 0 (evddConst ratPair.1.1) (2, .leaf) ∧
    ratPaired.Denotes 0 (evddConst ratPair.1.2) (4, .leaf) := by
  obtain ⟨-, hx, hy⟩ :=
    internPair_spec (ratTypes_exactField .firstNonzero) (ValueInv.empty _) 2 4
  exact ⟨⟨⟨hx, .leaf⟩, trivial⟩, ⟨⟨hy, .leaf⟩, trivial⟩⟩

theorem ratRaw_room : ratRaw.2.nodenums = 0 := by decide +kernel

theorem ratRaw_spec : EvddRun (ratTypes .firstNonzero) (ratOps .firstNonzero)
      (Careful (ratTypes .firstNonzero)) (evddInit 7 0 3 .empty) ratRaw.2 ∧
    ratRaw.2.Denotes 0 ratRaw.1 (1, .node 5 2 .leaf 4 .leaf) := by
  have hX := ratTypes_exactField .firstNonzero
  obtain ⟨hx, hy⟩ := ratPaired_denotes
  have hvx := valid_of_weight hx.1.1
  have hvy := valid_of_weight hy.1.1
  obtain ⟨hs, -⟩ := evddRun_consistent ratTypes_lawfulNormalize (ratOps_lawful _) (ratOps_apart _)
    (by decide) (by decide) (ValueInv.empty _) ratPaired_run rfl
  constructor
  · exact ratPaired_run.tail ⟨ratPolicy, .makenodeRaw 5 (evddConst ratPair.1.1)
      (evddConst ratPair.1.2), .edge ratRaw.1, ⟨pair_forall hvx hvy, (by decide : 5 ≤ evddMaxlevel),
      Or.inl rfl, Or.inl rfl⟩, rfl⟩
  · have h := evddMakenodeRaw_denotes (E := ratPolicy) hX hs ⟨Or.inl rfl, hvx⟩ ⟨Or.inl rfl, hvy⟩ hx hy
      (by decide : 5 < evddMaxlevel) (by decide : 5 < evddMaxlevel) (by norm_num) ratRaw_room
    rw [if_neg] at h
    · exact h
    · intro heq
      rw [heq] at hx
      have h24 := congrArg Prod.fst (hx.unique hy)
      norm_num at h24

/-! ## `evdd_apply` and `evdd_normalize` -/

/-- The built-in strategies divide by a common factor. -/
theorem exists_normalizing {strategy : EvddNormalize K} (absq sqrt : K → K) (hX : ExactField T t)
    (hreg : (T.fns t).normalizefun = some strategy) (hbuiltin : ∀ f, strategy ≠ .custom f)
    (hroots : strategy = .l2 → ExactRoots T t absq sqrt) : ∃ factor, Normalizing T t factor := by
  cases strategy with
  | firstNonzero => exact ⟨_, normalizing_firstNonzero hX hreg⟩
  | low => exact ⟨_, normalizing_low hX hreg⟩
  | maxMagnitude => exact ⟨_, normalizing_maxMagnitude hX hreg⟩
  | l2 => exact ⟨_, normalizing_l2 hX (hroots rfl) hreg⟩
  | custom f => exact absurd rfl (hbuiltin f)

/-- Both cofactors of the raw node are constants. -/
theorem ratPair_guarded : (WTree.node 5 (2 : ℚ) .leaf 4 .leaf).Guarded :=
  ⟨fun _ => rfl, trivial, trivial⟩

/-- The tree below a node. -/
def EvddState.readTree (s : EvddState K) (t : ℕ) : ℕ → ℕ → Option (WTree K)
  | 0, _ => none
  | fuel + 1, n =>
    if n = evddTrueNode then some .leaf
    else
      (s.key n).low.bind fun low => (s.values.weight t (s.key n).wLow).bind fun wLow =>
      (s.values.weight t (s.key n).wHigh).bind fun wHigh => (s.readTree t fuel low).bind fun below =>
      (s.readTree t fuel (s.key n).high).map fun above =>
        .node (s.key n).level wLow below wHigh above

omit [DecidableEq K] in
theorem EvddState.unfolds_of_readTree {fuel n : ℕ} {τ : WTree K} (h : s.readTree t fuel n = some τ) :
    s.Unfolds (s.values.weight t) n τ := by
  induction fuel generalizing n τ with
  | zero => simp [EvddState.readTree] at h
  | succ fuel ih =>
    rw [EvddState.readTree] at h
    split at h
    · rename_i h0
      obtain rfl := Option.some.inj h
      exact h0 ▸ .leaf
    · rename_i h0
      simp only [Option.bind_eq_some_iff, Option.map_eq_some_iff] at h
      obtain ⟨low, hlow, wLow, hl, wHigh, hh, below, hbelow, above, habove, rfl⟩ := h
      refine .node h0 ?_ hl hh (ih hbelow) (ih habove)
      rw [← hlow]

/-- The calls of a list, each of which passes a test. -/
def checkedCalls (p : EvddState K → EvddCall K → Bool) (T : ValueTypes K) (E : Policy K)
    (ops : EvddApplyOps K) : List (EvddCall K) → EvddState K → Option (EvddState K)
  | [], s => some s
  | c :: l, s =>
    if p s c then (evddCall T E ops s c).bind fun r => checkedCalls p T E ops l r.2 else none

omit [Field K] in
theorem checkedCalls_run {p : EvddState K → EvddCall K → Bool}
    {ok : EvddState K → EvddCall K → Prop} (hok : ∀ s c, p s c = true → ok s c)
    {l : List (EvddCall K)} (h : checkedCalls p T E ops l s = some s') : EvddRun T ops ok s s' := by
  induction l generalizing s with
  | nil =>
    obtain rfl := Option.some.inj h
    exact .refl
  | cons c l ih =>
    rw [checkedCalls] at h
    split at h
    · rename_i hp
      obtain ⟨r, hr, hl⟩ := Option.bind_eq_some_iff.mp h
      exact .head ⟨E, c, r.1, hok s c hp, hr⟩ (ih hl)
    · exact absurd h (Option.some_ne_none s').symm

/-- A referenced node, or the terminal. -/
def EvddState.counted (s : EvddState K) (e : EVDD) : Bool :=
  (e.node = evddTrueNode || s.live e.node && 0 < (s.evddnodes e.node).refcou) &&
    (e.w = evddValueZero || (s.values.evddValues e.w).payload.isSome)

/-- Calls that intern, make raw nodes of referenced nodes, and reference them. -/
def countedCall (s : EvddState K) : EvddCall K → Bool
  | .valueIntern _ _ => true
  | .makenodeRaw level low high => level ≤ evddMaxlevel && s.counted low && s.counted high
  | .addref root => root.w = evddValueZero || (s.values.evddValues root.w).payload.isSome
  | _ => false

omit [Field K] [DecidableEq K] in
theorem EvddState.counted_spec {e : EVDD} (h : s.counted e = true) :
    (e.node = evddTrueNode ∨ s.Held e.node) ∧ s.values.Valid e.w := by
  unfold EvddState.counted at h
  simp only [Bool.and_eq_true, Bool.or_eq_true, decide_eq_true_eq] at h
  exact ⟨h.1.imp_right fun hl => ⟨_, Or.inl hl.2, .refl hl.1⟩, h.2⟩

theorem countedCall_careful {c : EvddCall K} (h : countedCall s c = true) : Careful T s c := by
  cases c with
  | valueIntern value type => exact ⟨by simp [ValidWeights, EvddCall.operands], Nat.zero_le _, trivial⟩
  | makenodeRaw level low high =>
    unfold countedCall at h
    simp only [Bool.and_eq_true, decide_eq_true_eq] at h
    obtain ⟨hl, hvl⟩ := EvddState.counted_spec h.1.2
    obtain ⟨hh, hvh⟩ := EvddState.counted_spec h.2
    exact ⟨pair_forall hvl hvh, h.1.1, hl, hh⟩
  | addref root =>
    unfold countedCall at h
    simp only [Bool.or_eq_true, decide_eq_true_eq] at h
    exact ⟨by simpa [ValidWeights, EvddCall.operands, ValueTable.Valid] using h, Nat.zero_le _, trivial⟩
  | _ => exact absurd h Bool.false_ne_true

/-- The weights `1`, `2`, `4`, `3` and `9`, and five raw nodes. -/
def zeroNodeCalls : List (EvddCall ℚ) :=
  [1, 2, 4, 3, 9].map (fun v : ℚ => .valueIntern (some v) 0) ++
    [.makenodeRaw 8 ⟨0, 2⟩ ⟨0, 3⟩, .addref ⟨1, 1⟩, .makenodeRaw 7 ⟨0, 0⟩ ⟨1, 0⟩, .addref ⟨2, 1⟩,
      .makenodeRaw 9 ⟨0, 4⟩ ⟨0, 5⟩, .addref ⟨3, 1⟩, .makenodeRaw 4 ⟨3, 1⟩ ⟨1, 1⟩, .addref ⟨4, 1⟩,
      .makenodeRaw 3 ⟨2, 1⟩ ⟨4, 1⟩, .addref ⟨5, 1⟩]

def zeroNodeTree : WTree ℚ :=
  .node 3 1 (.node 7 0 .leaf 0 (.node 8 2 .leaf 4 .leaf)) 1
    (.node 4 1 (.node 9 3 .leaf 9 .leaf) 1 (.node 8 2 .leaf 4 .leaf))

/-- What is left: both sides of level `4` are the node that was made last. -/
def lostTree : WTree ℚ :=
  .node 3 0 .leaf 1
    (.node 4 1 (.node 9 1 .leaf 3 .leaf) (2 / 3) (.node 9 1 .leaf 3 .leaf))

/-- What the calls leave, and what `evdd_normalize` makes of it. -/
def zeroNodeEnd (s : EvddState ℚ) : Bool :=
  (s.nodenums = 0 && s.readTree 0 5 5 = some zeroNodeTree && s.values.weight 0 1 = some 1) &&
    ((evddNormalize (ratTypes .firstNonzero) ratPolicy s ⟨5, 1⟩).map fun r =>
      r.2.nodenums = 0 && r.2.readTree 0 5 r.1.node = some lostTree &&
        r.2.values.weight 0 r.1.w = some 3) = some true

end MoToBuddy.Evdd
