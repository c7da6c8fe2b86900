import MoToBuddy.Bdd.Session
import MoToBuddy.Lib.Parity

/-!
# `bdd_unique` and `bdd_appuni`

Unique quantification shares its recursions with the other two quantifiers, with the exclusive-or
as its operator: the recursions apply it at the decisions of the set (`DTree.xorPaths`). The fused
recursion does so on the diagram that it walks, which need not be reduced (`joint`): where one of
its shortcuts applies it goes on with an operand or stops.
-/

namespace MoToBuddy.Bdd

open Decision BoolFun

variable {P : Type*} {D : MtbddDomain P} {isPrime : ℕ → Bool} {T : Theory P} {S : Setting P}
  {s s' : BddState P}

/-- `bdd_unique`. -/
def bddUnique (D : MtbddDomain P) (isPrime : ℕ → Bool) (r var : ℕ) :
    BddState P → Option (ℕ × BddState P) := bddQuant D isPrime .unique r var

/-- `bdd_appuni`. -/
def bddAppuni (D : MtbddDomain P) (isPrime : ℕ → Bool) (l r opr var : ℕ) :
    BddState P → Option (ℕ × BddState P) := bddAppquant D isPrime .unique l r opr var

/-! ## The diagram that the fused recursion walks -/

/-- A number for the root of the left operand: the constants have their own. -/
def leftId : DTree Bool → ℕ
  | .leaf b => b.toNat
  | .node _ _ _ => 2

/-- A number for the root of the right operand, which is that of the left one for equal trees. -/
def rightId (tl : DTree Bool) : DTree Bool → ℕ
  | .leaf b => b.toNat
  | .node level low high => if tl = .node level low high then 2 else 3

/-- The shortcuts of `appquant_rec`, on trees. -/
def jointShortcut (op : BddOp) (tl tr : DTree Bool) : Option (DTree Bool) :=
  (appquantShortcut op (leftId tl) (rightId tl tr)).map fun
    | .const n => .leaf (n = 1)
    | .quant n => if n = leftId tl then tl else tr

/-- The diagram that `appquant_rec` walks. -/
def joint (op : BddOp) (tl tr : DTree Bool) : DTree Bool :=
  match jointShortcut op tl tr with
  | some u => u
  | none =>
    match tl, tr with
    | .leaf a, .leaf b => .leaf (op.fn a b)
    | .node level low high, .leaf b =>
      .node level (joint op low (.leaf b)) (joint op high (.leaf b))
    | .leaf a, .node level low high =>
      .node level (joint op (.leaf a) low) (joint op (.leaf a) high)
    | .node level low high, .node level' low' high' =>
      if level = level' then .node level (joint op low low') (joint op high high')
      else if level < level' then
        .node level (joint op low (.node level' low' high'))
          (joint op high (.node level' low' high'))
      else
        .node level' (joint op (.node level low high) low') (joint op (.node level low high) high')
termination_by sizeOf tl + sizeOf tr

/-- The numbers only matter for equality with each other and with the constants. -/
theorem appquantShortcut_congr (op : BddOp) {l r l' r' : ℕ} (hl0 : l = 0 ↔ l' = 0)
    (hl1 : l = 1 ↔ l' = 1) (hr0 : r = 0 ↔ r' = 0) (hr1 : r = 1 ↔ r' = 1) (h : l = r ↔ l' = r') :
    appquantShortcut op l' r' = (appquantShortcut op l r).map fun
      | .const n => .const n
      | .quant n => .quant (if n = l then l' else r') := by
  unfold appquantShortcut
  cases op with
  | and | or | xor =>
    simp only [← hl0, ← hl1, ← hr0, ← hr1, ← h]
    split_ifs <;> simp_all
  | nand | nor =>
    simp only [← hl0, ← hl1, ← hr0, ← hr1]
    split_ifs <;> simp_all
  | imp | biimp | diff | less | invimp => rfl

section

variable {op : BddOp} {tl tr : DTree Bool} {k M : ℕ}

theorem leftId_eq_iff {b : Bool} : leftId tl = b.toNat ↔ tl = .leaf b := by
  cases tl with
  | leaf c => cases b <;> cases c <;> simp [leftId]
  | node level low high => cases b <;> simp [leftId]

theorem rightId_eq_iff {b : Bool} : rightId tl tr = b.toNat ↔ tr = .leaf b := by
  cases tr with
  | leaf c => cases b <;> cases c <;> simp [rightId]
  | node level low high =>
    simp only [rightId, reduceCtorEq, iff_false]
    split <;> cases b <;> simp

/-- Equal numbers stand for equal trees. -/
theorem leftId_eq_rightId : leftId tl = rightId tl tr ↔ tl = tr := by
  cases tl with
  | leaf b =>
    have h : leftId (.leaf b) = b.toNat := rfl
    rw [h, eq_comm, rightId_eq_iff, eq_comm]
  | node level low high =>
    cases tr with
    | leaf b =>
      have h : rightId (.node level low high) (.leaf b) = b.toNat := rfl
      rw [h, leftId_eq_iff]
    | node level' low' high' =>
      simp only [leftId, rightId]
      split
      · rename_i h
        simp [h]
      · rename_i h
        simp [h]

theorem jointShortcut_spec {u : DTree Bool} (h : jointShortcut op tl tr = some u) :
    ((∃ b, u = .leaf b) ∨ u = tl ∨ u = tr) ∧ ∀ x, u.eval x = op.fn (tl.eval x) (tr.eval x) := by
  unfold jointShortcut at h
  obtain ⟨c, hc, hu⟩ := Option.map_eq_some_iff.mp h
  have hright := appquantShortcut_right (f := tl.eval) (g := tr.eval)
    (fun h => by rw [leftId_eq_iff (b := false) |>.mp h]; exact fun _ => rfl)
    (fun h => by rw [leftId_eq_iff (b := true) |>.mp h]; exact fun _ => rfl)
    (fun h => by rw [rightId_eq_iff (b := false) |>.mp h]; exact fun _ => rfl)
    (fun h => by rw [rightId_eq_iff (b := true) |>.mp h]; exact fun _ => rfl)
    (fun h => congrArg DTree.eval (leftId_eq_rightId.mp h)) hc
  cases c with
  | const n =>
    obtain ⟨b, rfl, hf⟩ := hright
    have hb : u = .leaf b := by rw [← hu]; cases b <;> rfl
    exact ⟨Or.inl ⟨b, hb⟩, fun x => by rw [hb, hf]; rfl⟩
  | quant n =>
    dsimp only at hu
    rcases hright with ⟨rfl, hf⟩ | ⟨rfl, hf⟩
    · rw [if_pos rfl] at hu
      exact ⟨Or.inr (Or.inl hu.symm), fun x => by rw [← hu, hf]⟩
    · by_cases heq : rightId tl tr = leftId tl
      · have htree := leftId_eq_rightId.mp heq.symm
        rw [if_pos heq] at hu
        exact ⟨Or.inr (Or.inl hu.symm), fun x => by rw [← hu, hf, htree]⟩
      · rw [if_neg heq] at hu
        exact ⟨Or.inr (Or.inr hu.symm), fun x => by rw [← hu, hf]⟩

theorem joint_of_shortcut {u : DTree Bool} (h : jointShortcut op tl tr = some u) :
    joint op tl tr = u := by
  unfold joint
  rw [h]

theorem joint_leaf (a b : Bool) (h : jointShortcut op (.leaf a) (.leaf b) = none) :
    joint op (.leaf a) (.leaf b) = .leaf (op.fn a b) := by
  unfold joint
  rw [h]

/-- Without a shortcut the first level of the two trees is decided. -/
theorem joint_split (h : jointShortcut op tl tr = none) (hl : tl.Above k) (hr : tr.Above k)
    (hroot : ∃ a c, DTree.node k a c ∈ [tl, tr]) :
    joint op tl tr = .node k (joint op (tl.cof k false) (tr.cof k false))
      (joint op (tl.cof k true) (tr.cof k true)) := by
  obtain ⟨a, c, hmem⟩ := hroot
  rw [joint.eq_def, h]
  dsimp only
  cases tl with
  | leaf b =>
    rcases List.mem_pair.mp hmem with hno | rfl
    · exact absurd hno (by simp)
    · rw [DTree.cof_node, DTree.cof_node]
      rfl
  | node level low high =>
    cases tr with
    | leaf b =>
      rcases List.mem_pair.mp hmem with heq | hno
      · rw [← heq, DTree.cof_node, DTree.cof_node]
        obtain ⟨rfl, rfl, rfl⟩ := DTree.node.inj heq
        rfl
      · exact absurd hno (by simp)
    | node level' low' high' =>
      have hl' : k ≤ level := hl
      have hr' : k ≤ level' := hr
      have hk : k = level ∨ k = level' := by
        rcases List.mem_pair.mp hmem with heq | heq
        · exact Or.inl (DTree.node.inj heq).1
        · exact Or.inr (DTree.node.inj heq).1
      dsimp only
      by_cases heq : level = level'
      · have hkl : k = level := by omega
        subst hkl heq
        rw [if_pos rfl, DTree.cof_node, DTree.cof_node, DTree.cof_node, DTree.cof_node]
        rfl
      rw [if_neg heq]
      by_cases hlt : level < level'
      · have hkl : k = level := by omega
        subst hkl
        have hself : (DTree.node level' low' high').Above (k + 1) := hlt
        rw [if_pos hlt, DTree.cof_node, DTree.cof_node, DTree.cof_of_above hself,
          DTree.cof_of_above hself]
        rfl
      · have hkl : k = level' := by omega
        subst hkl
        have hself : (DTree.node level low high).Above (k + 1) := by
          show k + 1 ≤ level
          omega
        rw [if_neg hlt, DTree.cof_node, DTree.cof_node, DTree.cof_of_above hself,
          DTree.cof_of_above hself]
        rfl

/-- One of two trees that are not both leaves starts at the first level of both. -/
theorem exists_root (hno : ¬ ∃ a b, tl = .leaf a ∧ tr = .leaf b) (hl : tl.Above k)
    (hr : tr.Above k) : ∃ j, k ≤ j ∧ tl.Above j ∧ tr.Above j ∧
      ∃ a c, DTree.node j a c ∈ [tl, tr] := by
  cases tl with
  | leaf a =>
    cases tr with
    | leaf b => exact absurd ⟨a, b, rfl, rfl⟩ hno
    | node level low high => exact ⟨level, hr, trivial, Nat.le_refl _, low, high, by simp⟩
  | node level low high =>
    cases tr with
    | leaf b => exact ⟨level, hl, Nat.le_refl _, trivial, low, high, by simp⟩
    | node level' low' high' =>
      rcases Nat.le_total level level' with h | h
      · exact ⟨level, hl, Nat.le_refl _, h, low, high, by simp⟩
      · exact ⟨level', hr, h, Nat.le_refl _, low', high', by simp⟩

/-- The joint diagram is one of the operator's result. -/
theorem joint_spec (op : BddOp) (hl : tl.Sorted M) (hr : tr.Sorted M) (hal : tl.Above k) (har : tr.Above k) :
    (joint op tl tr).Sorted M ∧ (joint op tl tr).Above k ∧
      ∀ x, (joint op tl tr).eval x = op.fn (tl.eval x) (tr.eval x) := by
  obtain ⟨n, hn⟩ : ∃ n, M - k < n := ⟨_, Nat.lt_succ_self _⟩
  induction n generalizing k tl tr with
  | zero => omega
  | succ n ih =>
    cases hshort : jointShortcut op tl tr with
    | some u =>
      rw [joint_of_shortcut hshort]
      obtain ⟨⟨b, rfl⟩ | rfl | rfl, heval⟩ := jointShortcut_spec hshort
      · exact ⟨trivial, trivial, heval⟩
      · exact ⟨hl, hal, heval⟩
      · exact ⟨hr, har, heval⟩
    | none =>
      by_cases hleaf : ∃ a b, tl = .leaf a ∧ tr = .leaf b
      · obtain ⟨a, b, rfl, rfl⟩ := hleaf
        rw [joint_leaf a b hshort]
        exact ⟨trivial, trivial, fun _ => rfl⟩
      obtain ⟨j, hkj, hlj, hrj, hroot⟩ := exists_root hleaf hal har
      have hjM : j < M := by
        obtain ⟨a, c, hmem⟩ := hroot
        rcases List.mem_pair.mp hmem with rfl | rfl
        · exact hl.1
        · exact hr.1
      have hrec := fun b => ih (hl.cof j b) (hr.cof j b) (hlj.cof hl b) (hrj.cof hr b) (by omega)
      obtain ⟨hs0, ha0, he0⟩ := hrec false
      obtain ⟨hs1, ha1, he1⟩ := hrec true
      rw [joint_split hshort hlj hrj hroot]
      refine ⟨⟨hjM, ha0, ha1, hs0, hs1⟩, hkj, fun x => ?_⟩
      rw [DTree.eval_node, he0, he1, ← DTree.eval_cof tl j x, ← DTree.eval_cof tr j x]
      cases x j <;> rfl

end

/-! ## The recursions -/

/-- What the recursion makes of the tree of its operand. -/
def uniqueFn (tv t : DTree (Leaf P)) : (ℕ → Bool) → Bool := (boolTree t).xorPaths tv.highPath

/-- What the fused recursion makes of the trees of its operands. -/
def appuniFn (op : BddOp) (tv tl tr : DTree (Leaf P)) : (ℕ → Bool) → Bool :=
  (joint op (boolTree tl) (boolTree tr)).xorPaths tv.highPath

theorem unique_quantifies {tv : DTree (Leaf P)} {quantlast : ℕ}
    (hlast : ∀ k ∈ tv.highPath, k ≤ quantlast) :
    Quantifies S .xor tv quantlast (uniqueFn tv) := by
  refine ⟨fun t hs ha x => ?_, fun level tl th hs hin x => ?_, fun level tl th hs hout x => ?_⟩
  · rw [← eval_boolTree]
    exact DTree.xorPaths_eq_eval (sorted_boolTree.mpr hs) (above_boolTree.mpr ha)
      (fun l hl => Nat.lt_succ_of_le (hlast l hl)) x
  · unfold uniqueFn
    rw [boolTree_node, DTree.xorPaths_node, if_pos hin]
    rfl
  · unfold uniqueFn
    rw [boolTree_node, DTree.xorPaths_node, if_neg hout]

section

variable {l r : ℕ} {tl tr tv : DTree (Leaf P)} {op : BddOp}

theorem Operand.eq_toNat_iff {n : ℕ} {t : DTree (Leaf P)} (h : Operand S s n t) (hb : IsBool t)
    (b : Bool) : n = b.toNat ↔ boolTree t = .leaf b := by
  constructor
  · intro hn
    rw [h.const hn]
    rfl
  · intro ht
    have hleaf : t = .leaf (.const b) := boolTree_inj hb trivial ht
    have hr := h.reads
    rw [hleaf] at hr
    cases hr with
    | const c => rfl

/-- The shortcuts for the nodes are those for their trees. -/
theorem jointShortcut_eq (op : BddOp) (hs : Inv S s) (hl : Operand S s l tl) (hr : Operand S s r tr)
    (hbl : IsBool tl) (hbr : IsBool tr) :
    jointShortcut op (boolTree tl) (boolTree tr) = (appquantShortcut op l r).map fun
      | .const n => .leaf (n = 1)
      | .quant n => if n = l then boolTree tl else boolTree tr := by
  obtain ⟨flight, hi, -⟩ := hs.table
  have heq : l = r ↔ leftId (boolTree tl) = rightId (boolTree tl) (boolTree tr) := by
    rw [leftId_eq_rightId]
    constructor
    · rintro rfl
      rw [hl.unique hr.reads]
    · intro h
      have htree := boolTree_inj hbl hbr h
      exact hl.reads.inj hi (Or.inr hbl) (htree ▸ hr.reads)
  have hcongr := appquantShortcut_congr op
    (((hl.eq_toNat_iff hbl false).trans leftId_eq_iff.symm : l = 0 ↔ _ = 0))
    (((hl.eq_toNat_iff hbl true).trans leftId_eq_iff.symm : l = 1 ↔ _ = 1))
    (((hr.eq_toNat_iff hbr false).trans rightId_eq_iff.symm : r = 0 ↔ _ = 0))
    (((hr.eq_toNat_iff hbr true).trans rightId_eq_iff.symm : r = 1 ↔ _ = 1)) heq
  unfold jointShortcut
  rw [hcongr, Option.map_map]
  congr 1
  funext c
  cases c with
  | const n => rfl
  | quant n =>
    show (if (if n = l then _ else _) = _ then _ else _) = if n = l then _ else _
    by_cases hn : n = l
    · rw [if_pos hn, if_pos rfl, if_pos hn]
    rw [if_neg hn, if_neg hn]
    split
    · rename_i h
      rw [leftId_eq_rightId.mp h.symm]
    · rfl

theorem appuni_fuses {quantlast : ℕ} (hlast : ∀ k ∈ tv.highPath, k ≤ quantlast) (hs : Inv S s)
    (hl : Operand S s l tl) (hr : Operand S s r tr) (hbl : IsBool tl) (hbr : IsBool tr) :
    Fuses S .xor op tv quantlast (uniqueFn tv) (appuniFn op tv) s l r tl tr := by
  have hshort := jointShortcut_eq op hs hl hr hbl hbr
  have hsl := sorted_boolTree.mpr hl.sorted
  have hsr := sorted_boolTree.mpr hr.sorted
  have hnone : appquantShortcut op l r = none →
      jointShortcut op (boolTree tl) (boolTree tr) = none := fun h => by rw [hshort, h]; rfl
  refine ⟨fun n h => ?_, fun n h => ?_, fun h a c hta htc x => ?_, fun h hal har x => ?_,
    fun h level hal har hroot x => ?_⟩
  · obtain ⟨b, hb, -⟩ := appquantShortcut_spec hl hr hbl hbr h
    refine ⟨b, hb, fun x => ?_⟩
    rw [h] at hshort
    unfold appuniFn
    rw [joint_of_shortcut hshort, hb]
    cases b <;> rfl
  · rw [h] at hshort
    unfold appuniFn
    rw [joint_of_shortcut hshort]
    obtain ⟨u, hu, ho, hb, -⟩ := appquantShortcut_spec hl hr hbl hbr h
    refine ⟨u, hu, ho, hb, fun x => ?_⟩
    dsimp only
    split
    · rename_i hn
      rw [ho.unique (hn ▸ hl.reads)]
      rfl
    · rename_i hn
      rcases List.mem_pair.mp hu with rfl | rfl
      · obtain ⟨flight, hi, -⟩ := hs.table
        exact absurd (ho.reads.inj hi (Or.inr hbl) hl.reads) hn
      · rfl
  · subst hta htc
    unfold appuniFn
    rw [boolTree_const, boolTree_const, joint_leaf a c (hnone h)]
    rfl
  · obtain ⟨hsj, haj, hev⟩ := joint_spec op hsl hsr (above_boolTree.mpr hal)
      (above_boolTree.mpr har)
    unfold appuniFn
    rw [DTree.xorPaths_eq_eval hsj haj (fun l hl => Nat.lt_succ_of_le (hlast l hl)), hev,
      eval_boolTree, eval_boolTree]
  · have hroot' : ∃ a c, DTree.node level a c ∈ [boolTree tl, boolTree tr] := by
      obtain ⟨a, c, hmem⟩ := hroot
      refine ⟨boolTree a, boolTree c, ?_⟩
      rcases List.mem_pair.mp hmem with h | h
      · exact List.mem_pair.mpr (Or.inl (congrArg boolTree h))
      · exact List.mem_pair.mpr (Or.inr (congrArg boolTree h))
    unfold appuniFn
    rw [joint_split (hnone h) (above_boolTree.mpr hal) (above_boolTree.mpr har) hroot',
      DTree.xorPaths_node]
    simp only [boolTree_cof]
    rfl

end

/-! ## Tags and entries -/

/-- A tag of a unique quantification over the set `var`, by itself or fused with an operator. -/
def UniqueTag (var tag : ℕ) : Prop :=
  tag = (quantid var Quantifier.unique.cacheid).toNat ∨ ∃ op : BddOp, tag =
    (appexQuantid var op.code Quantifier.unique.appKind Quantifier.unique.appCacheid).toNat

/-- The tag of an operator fused with a unique quantification over the set `var`. -/
def AppuniTag (var : ℕ) (op : BddOp) (tag : ℕ) : Prop :=
  tag = (appexid var op.code Quantifier.unique.appKind).toNat

theorem UniqueTag.decode {var tag : ℕ} (h : UniqueTag var tag) (hvar : var < 2 ^ 22) :
    tag = 8 * var + 2 ∨ ∃ c ≤ 9, tag = 512 * var + 8 * (4 * c + 2) + 5 := by
  rcases h with rfl | ⟨op, rfl⟩
  · left
    rw [show Quantifier.unique.cacheid = .ofNat 2 from rfl, quantid_toNat var (by decide),
      Nat.mod_eq_of_lt (by omega)]
  · right
    refine ⟨op.code, op.code_le, ?_⟩
    rw [show Quantifier.unique.appKind = .ofNat 2 from rfl,
      show Quantifier.unique.appCacheid = .ofNat 5 from rfl,
      appexQuantid_toNat var op.code_le (by decide) (by decide), Nat.mod_eq_of_lt (by omega)]
    omega

theorem AppuniTag.decode {var tag : ℕ} {op : BddOp} (h : AppuniTag var op tag)
    (hvar : var < 2 ^ 22) : tag = 64 * var + (4 * op.code + 2) := by
  have hle := op.code_le
  rw [h, show Quantifier.unique.appKind = .ofNat 2 from rfl,
    appexid_toNat var op.code_le (by decide), Nat.mod_eq_of_lt (by omega)]

theorem UniqueTag.inj {var var' tag : ℕ} (h : UniqueTag var tag) (h' : UniqueTag var' tag)
    (hvar : var < 2 ^ 22) (hvar' : var' < 2 ^ 22) : var = var' := by
  rcases h.decode hvar with h | ⟨c, hc, h⟩ <;> rcases h'.decode hvar' with h' | ⟨c', hc', h'⟩ <;>
    omega

theorem AppuniTag.inj {var var' tag : ℕ} {op op' : BddOp} (h : AppuniTag var op tag)
    (h' : AppuniTag var' op' tag) (hvar : var < 2 ^ 22) (hvar' : var' < 2 ^ 22) :
    var = var' ∧ op = op' := by
  have h := h.decode hvar
  have h' := h'.decode hvar'
  have hle := op.code_le
  have hle' := op'.code_le
  exact ⟨by omega, BddOp.code_inj (by omega)⟩

/-- The tags of the other quantifiers are different. -/
theorem UniqueTag.not_quantTag {b : Bool} {var var' tag : ℕ} (h : UniqueTag var tag)
    (h' : QuantTag b var' tag) (hvar : var < 2 ^ 22) (hvar' : var' < 2 ^ 22) : False := by
  rcases h.decode hvar with h | ⟨c, hc, h⟩ <;> rcases h'.decode hvar' with h' | ⟨c', hc', h'⟩ <;>
    cases b <;> simp only [cond_true, cond_false] at h' <;> omega

theorem AppuniTag.not_appexTag {b : Bool} {var var' tag : ℕ} {op op' : BddOp}
    (h : AppuniTag var op tag) (h' : AppexTag b var' op' tag) (hvar : var < 2 ^ 22)
    (hvar' : var' < 2 ^ 22) : False := by
  have h := h.decode hvar
  have h' := h'.decode hvar'
  have hle := op.code_le
  have hle' := op'.code_le
  cases b <;> simp only [cond_true, cond_false] at h' <;> omega

/-- An entry of the quantification cache is right about unique quantifications. -/
def UniqueEntry (D : MtbddDomain P) : BddState P → BddCacheData → Prop :=
  TaggedEntry D (fun var t => var < 2 ^ 22 ∧ UniqueTag var t) (fun s var tv => s.Reads D var tv)
    (fun a _ => [a]) fun _ tv ts => Computes ts (onTree (uniqueFn tv) ts)

/-- An entry of the cache of the fused operations is right about unique quantifications. -/
def AppuniEntry (D : MtbddDomain P) : BddState P → BddCacheData → Prop :=
  TaggedEntry D (fun i t => i.1 < 2 ^ 22 ∧ AppuniTag i.1 i.2 t)
    (fun s (i : ℕ × BddOp) tv => s.Reads D i.1 tv)
    (fun a b => [a, b]) fun i tv ts => Computes ts (onTrees (appuniFn i.2 tv) ts)

/-- What the recursions need of their caches for unique quantifications. -/
structure Setting.Uniques (S : Setting P) : Prop extends S.Operators where
  unique : ∀ s e, S.cache s .quant e → UniqueEntry S.D s e
  uniqueFill : ∀ s e var, var < 2 ^ 22 ∧ UniqueTag var e.c → UniqueEntry S.D s e →
    S.cache s .quant e
  appuni : ∀ s e, S.cache s .appex e → AppuniEntry S.D s e
  appuniFill : ∀ s e (i : ℕ × BddOp), i.1 < 2 ^ 22 ∧ AppuniTag i.1 i.2 e.c →
    AppuniEntry S.D s e → S.cache s .appex e

section

variable {var quantlast : ℕ} {tv : DTree (Leaf P)}

theorem Setting.Uniques.remembers (hS : S.Uniques) (hsmall : var < 2 ^ 22) {tag : ℕ}
    (htag : UniqueTag var tag) :
    Remembers S .quant tag var tv (fun a _ => [a]) (onTree (uniqueFn tv)) :=
  TaggedEntry.memoizes hS.unique hS.uniqueFill
    (fun _ _ _ h h' => h.2.inj h'.2 h.1 h'.1) (fun _ _ _ _ h h' => h.unique h') ⟨hsmall, htag⟩ tv

theorem Setting.Uniques.remembers_fused (hS : S.Uniques) (hsmall : var < 2 ^ 22) {tag : ℕ}
    {op : BddOp} (htag : AppuniTag var op tag) :
    Remembers S .appex tag var tv (fun a b => [a, b]) (onTrees (appuniFn op tv)) :=
  TaggedEntry.memoizes hS.appuni hS.appuniFill
    (fun _ _ _ h h' => Prod.ext_iff.mpr (h.2.inj h'.2 h.1 h'.1)) (fun _ _ _ _ h h' => h.unique h')
    (i := (var, op)) ⟨hsmall, htag⟩ tv

end

/-! ## Sets of variables -/

/-- The levels of the variables of a set. -/
def BddState.levelsOf (s : BddState P) (V : List ℕ) : List ℕ :=
  (List.range s.env.bddvarnum).filter fun k => s.env.bddlevel2var k ∈ V

theorem nodup_levelsOf (s : BddState P) (V : List ℕ) : (s.levelsOf V).Nodup :=
  List.nodup_range.filter _

theorem mem_levelsOf {V : List ℕ} {k : ℕ} :
    k ∈ s.levelsOf V ↔ k < s.env.bddvarnum ∧ s.env.bddlevel2var k ∈ V := by
  simp [BddState.levelsOf]

/-- Exclusive-or over levels is exclusive-or over their variables. -/
theorem OrderInv.xorOut (h : OrderInv s) {L : List ℕ} (hL : ∀ l ∈ L, l < s.env.bddvarnum)
    {F f : (ℕ → Bool) → Bool} (hf : ∀ a, F (s.assign a) = f a)
    (hF : ∀ x y : ℕ → Bool, (∀ l < s.env.bddvarnum, x l = y l) → F x = F y) (a : ℕ → Bool) :
    BoolFun.xorOut L F (s.assign a) = BoolFun.xorOut (L.map s.env.bddlevel2var) f a := by
  induction L generalizing F f with
  | nil => exact hf a
  | cons l L ih =>
    rw [List.map_cons, xorOut_cons, xorOut_cons]
    refine ih (fun k hk => hL k (List.mem_cons_of_mem _ hk)) (fun a => ?_) fun x y hxy => ?_
    · have hupd : ∀ b, F (Function.update (s.assign a) l b) =
          f (Function.update a (s.env.bddlevel2var l) b) := by
        intro b
        rw [← hf]
        refine hF _ _ fun k hk => ?_
        show _ = Function.update a (s.env.bddlevel2var l) b (s.env.bddlevel2var k)
        by_cases hkl : k = l
        · rw [hkl, Function.update_self, Function.update_self]
        · have hne : s.env.bddlevel2var k ≠ s.env.bddlevel2var l := fun he => hkl (by
            rw [← (h.var k hk).2, he, (h.var l (hL l List.mem_cons_self)).2])
          rw [Function.update_of_ne hkl, Function.update_of_ne hne]
          rfl
      unfold xorAt
      rw [hupd, hupd]
    · have hupd : ∀ b, F (Function.update x l b) = F (Function.update y l b) := fun b =>
        hF _ _ fun k hk => by
          simp only [Function.update_apply, hxy k hk]
      unfold xorAt
      rw [hupd, hupd]

/-- The levels of a set are those of its variables, each of them once. -/
theorem OrderInv.map_levelsOf (h : OrderInv s) {V : List ℕ} (hV : ∀ v ∈ V, v < s.env.bddvarnum) :
    ((s.levelsOf V).map s.env.bddlevel2var).Perm V.dedup := by
  have hnodup : ((s.levelsOf V).map s.env.bddlevel2var).Nodup := by
    refine (nodup_levelsOf s V).map_on fun l hl k hk heq => ?_
    rw [← (h.var l (mem_levelsOf.mp hl).1).2, heq, (h.var k (mem_levelsOf.mp hk).1).2]
  refine (List.perm_ext_iff_of_nodup hnodup V.nodup_dedup).mpr fun v => ?_
  rw [List.mem_map, List.mem_dedup]
  constructor
  · rintro ⟨l, hl, rfl⟩
    exact (mem_levelsOf.mp hl).2
  · intro hv
    obtain ⟨hl, hinv⟩ := h.level v (hV v hv)
    exact ⟨_, mem_levelsOf.mpr ⟨hl, hinv.symm ▸ hv⟩, hinv⟩

/-! ## The operations -/

section

variable {f g : (ℕ → Bool) → Bool} {l r var : ℕ} {V : List ℕ} {t u : DTree (Leaf P)}

/-- A set's levels are those on the path of its diagram. -/
theorem xorPaths_levelsOf {tv : DTree (Leaf P)}
    (hlevels : ∀ k < s.env.bddvarnum, k ∈ tv.highPath ↔ s.env.bddlevel2var k ∈ V)
    {w : DTree Bool} (hw : w.Sorted s.env.bddvarnum) (x : ℕ → Bool) :
    w.xorPaths tv.highPath x = w.xorPaths (s.levelsOf V) x :=
  DTree.xorPaths_congr hw w.above_zero
    (fun k _ hk => by rw [hlevels k hk, mem_levelsOf, and_iff_right hk]) x

theorem levelsOf_nil (s : BddState P) : s.levelsOf [] = [] :=
  List.filter_eq_nil_iff.mpr fun _ _ => by simp

theorem Theory.Operates.unique_called (hT : T.Operates)
    (hU : ∀ top htop, (T.setting top htop).Uniques) (hs : Good T s) (hr : s.Usable T.D r f)
    (hvar : s.Usable T.D var fun a => V.all a) (hsmall : var < 2 ^ 22) (ht : s.Reads T.D r t) :
    ∃ res, bddUnique T.D T.isPrime r var s = some res ∧
      Called T s (fun a => (boolTree t).xorPaths (s.levelsOf V) (s.assign a)) res := by
  obtain ⟨href, t', hreads, hb, hf⟩ := hr
  obtain rfl := ht.unique hreads
  have hsorted := (hs.operand_keeps (.refl s) href hreads).sorted
  unfold bddUnique bddQuant
  rw [checka_node hs hreads.isNode, checka_node hs hvar.isNode]
  dsimp only
  by_cases hconst : var < 2
  · rw [if_pos hconst, hvar.varset_nil hconst, levelsOf_nil]
    refine ⟨_, rfl, hs, .refl s, fun _ => ⟨t, hreads, hb, fun a => ?_⟩⟩
    show evalBool t (s.assign a) = (boolTree t).xorPaths [] (s.assign a)
    rw [DTree.xorPaths_eq_eval (sorted_boolTree.mpr hsorted) (boolTree t).above_zero
      (fun l hl => absurd hl List.not_mem_nil), eval_boolTree]
  · rw [if_neg hconst]
    obtain ⟨p, res, hp, hres, hcalled⟩ := hT.set_called hs hvar hsmall
      (fun quantlast => quantRec T.D T.isPrime Quantifier.unique.applyop
        (quantid var Quantifier.unique.cacheid) quantlast depth r)
      (fun s' quantlast tv hs' hk hset =>
        quantRec_computes (hU _ _).toOperators (unique_quantifies hset.last)
          ((hU _ _).remembers hsmall (Or.inl rfl)) hs'.initref hset
          (hs'.operand_keeps hk href hreads) hb t.above_zero (Setting.depth_bound _ 0))
      fun tv _ hlevels a => xorPaths_levelsOf hlevels (sorted_boolTree.mpr hsorted) (s.assign a)
    rw [hp]
    exact ⟨res, hres, hcalled⟩

theorem Theory.Operates.appuni_called (hT : T.Operates)
    (hU : ∀ top htop, (T.setting top htop).Uniques) (hs : Good T s) (op : BddOp)
    (hl : s.Usable T.D l f) (hr : s.Usable T.D r g) (hvar : s.Usable T.D var fun a => V.all a)
    (hsmall : var < 2 ^ 22) (ht : s.Reads T.D l t) (hu : s.Reads T.D r u) :
    ∃ res, bddAppuni T.D T.isPrime l r op.code var s = some res ∧
      Called T s (fun a => (joint op (boolTree t) (boolTree u)).xorPaths (s.levelsOf V)
        (s.assign a)) res := by
  obtain ⟨hrefl, t', hreadsl, hbl, hfl⟩ := hl
  obtain rfl := ht.unique hreadsl
  obtain ⟨hrefr, u', hreadsr, hbr, hfr⟩ := hr
  obtain rfl := hu.unique hreadsr
  have hsl := sorted_boolTree.mpr (hs.operand_keeps (.refl s) hrefl hreadsl).sorted
  have hsr := sorted_boolTree.mpr (hs.operand_keeps (.refl s) hrefr hreadsr).sorted
  obtain ⟨hsj, -, hev⟩ := joint_spec op hsl hsr (boolTree t).above_zero
    (boolTree u).above_zero
  unfold bddAppuni bddAppquant
  rw [checka_node hs hreadsl.isNode, checka_node hs hreadsr.isNode, checka_node hs hvar.isNode,
    op.ofCode_code]
  dsimp only
  by_cases hconst : var < 2
  · rw [if_pos hconst, hvar.varset_nil hconst, levelsOf_nil]
    obtain ⟨res, hres, hc⟩ := hT.apply_called hs op ⟨hrefl, t, hreadsl, hbl, hfl⟩
      ⟨hrefr, u, hreadsr, hbr, hfr⟩
    refine ⟨res, hres, ?_⟩
    have hfun : (fun a => (joint op (boolTree t) (boolTree u)).xorPaths [] (s.assign a)) =
        fun a => op.fn (f a) (g a) := funext fun a => by
      rw [DTree.xorPaths_eq_eval hsj (DTree.above_zero _) (fun l hl => absurd hl List.not_mem_nil),
        hev, eval_boolTree, eval_boolTree, hfl, hfr]
    rw [hfun]
    exact hc
  · rw [if_neg hconst]
    obtain ⟨p, res, hp, hres, hcalled⟩ := hT.set_called hs hvar hsmall
      (fun quantlast => appquantRec T.D T.isPrime Quantifier.unique.applyop op
        (appexid var op.code Quantifier.unique.appKind)
        (appexQuantid var op.code Quantifier.unique.appKind Quantifier.unique.appCacheid) quantlast
        depth l r)
      (fun s' quantlast tv hs' hk hset =>
        appquantRec_computes (hU _ _).toOperators (unique_quantifies hset.last)
          ((hU _ _).remembers hsmall (Or.inr ⟨op, rfl⟩))
          (fun s l r tl tr hs hl hr hbl hbr => appuni_fuses hset.last hs hl hr hbl hbr)
          ((hU _ _).remembers_fused hsmall rfl) hs'.initref hset
          (hs'.operand_keeps hk hrefl hreadsl) (hs'.operand_keeps hk hrefr hreadsr) hbl hbr
          t.above_zero u.above_zero (Setting.depth_bound _ 0))
      fun tv _ hlevels a => xorPaths_levelsOf hlevels hsj (s.assign a)
    rw [hp]
    exact ⟨res, hres, hcalled⟩

end

end MoToBuddy.Bdd
