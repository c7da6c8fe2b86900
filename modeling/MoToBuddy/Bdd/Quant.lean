import MoToBuddy.Bdd.Memo
import MoToBuddy.Bdd.Setup
import MoToBuddy.Lib.Quantify

/-!
# `bdd_exist`, `bdd_forall`, `bdd_appex` and `bdd_appall`

The recursions return the disjunction or the conjunction of all cofactors over the set
(`quantRec_returns`), and the fused ones that of the operator's result (`appquantRec_returns`).
The set is given by a node: it consists of the levels on the path of its high children. Its id is
part of the tags, which the bound `2 ^ 22` keeps apart.
-/

namespace MoToBuddy.Bdd

open Decision BoolFun

variable {P : Type*} {D : MtbddDomain P} {S : Setting P} {s s' : BddState P}

/-! ## Tags -/

/-- The quantifier that looks for a value. -/
def quantifier (b : Bool) : Quantifier := cond b .exist .forall_

theorem applyop_fn (b p q : Bool) : (quantifier b).applyop.fn p q = comb b p q := by
  cases b <;> cases p <;> cases q <;> rfl

/-- A tag of a quantification over the set `var`, by itself or fused with an operator. -/
def QuantTag (b : Bool) (var tag : ℕ) : Prop :=
  tag = (quantid var (quantifier b).cacheid).toNat ∨ ∃ op : BddOp,
    tag = (appexQuantid var op.code (quantifier b).appKind (quantifier b).appCacheid).toNat

/-- The tag of an operator fused with a quantification over the set `var`. -/
def AppexTag (b : Bool) (var : ℕ) (op : BddOp) (tag : ℕ) : Prop :=
  tag = (appexid var op.code (quantifier b).appKind).toNat

theorem BddOp.code_le (op : BddOp) : op.code ≤ 9 := by cases op <;> decide

/-- What a tag says about the quantifier and the set. -/
theorem QuantTag.decode {b : Bool} {var tag : ℕ} (h : QuantTag b var tag) (hvar : var < 2 ^ 22) :
    tag = 8 * var + cond b 0 1 ∨ ∃ c ≤ 9,
      tag = 512 * var + 8 * (4 * c + cond b 0 1) + cond b 3 4 := by
  rcases h with rfl | ⟨op, rfl⟩
  · left
    have hk : (quantid var (quantifier b).cacheid) = quantid var (.ofNat (cond b 0 1)) := by
      cases b <;> rfl
    rw [hk, quantid_toNat var (by cases b <;> decide), Nat.mod_eq_of_lt (by omega)]
  · right
    refine ⟨op.code, op.code_le, ?_⟩
    have hk : appexQuantid var op.code (quantifier b).appKind (quantifier b).appCacheid =
        appexQuantid var op.code (.ofNat (cond b 0 1)) (.ofNat (cond b 3 4)) := by
      cases b <;> rfl
    rw [hk, appexQuantid_toNat var op.code_le (by cases b <;> decide) (by cases b <;> decide),
      Nat.mod_eq_of_lt (by omega)]
    omega

theorem QuantTag.inj {b b' : Bool} {var var' tag : ℕ} (h : QuantTag b var tag)
    (h' : QuantTag b' var' tag) (hvar : var < 2 ^ 22) (hvar' : var' < 2 ^ 22) :
    b = b' ∧ var = var' := by
  -- the low three bits tell the four kinds of tags apart
  rcases h.decode hvar with h | ⟨c, hc, h⟩ <;> rcases h'.decode hvar' with h' | ⟨c', hc', h'⟩ <;>
    cases b <;> cases b' <;> simp only [cond_true, cond_false] at h h' <;> first
    | exact ⟨rfl, by omega⟩
    | omega

theorem AppexTag.decode {b : Bool} {var tag : ℕ} {op : BddOp} (h : AppexTag b var op tag)
    (hvar : var < 2 ^ 22) : tag = 64 * var + (4 * op.code + cond b 0 1) := by
  have hk : appexid var op.code (quantifier b).appKind =
      appexid var op.code (.ofNat (cond b 0 1)) := by cases b <;> rfl
  rw [AppexTag, hk] at h
  rw [h, appexid_toNat var op.code_le (by cases b <;> decide), Nat.mod_eq_of_lt (by omega)]

theorem AppexTag.inj {b b' : Bool} {var var' tag : ℕ} {op op' : BddOp}
    (h : AppexTag b var op tag) (h' : AppexTag b' var' op' tag) (hvar : var < 2 ^ 22)
    (hvar' : var' < 2 ^ 22) : b = b' ∧ var = var' ∧ op = op' := by
  have h := h.decode hvar
  have h' := h'.decode hvar'
  have hle := op.code_le
  have hle' := op'.code_le
  cases b <;> cases b' <;> simp only [cond_true, cond_false] at h h' <;> first
    | exact ⟨rfl, by omega, BddOp.code_inj (by omega)⟩
    | omega

/-! ## Entries -/

/-- The quantification of a function over a set. -/
noncomputable def quantFn (b : Bool) (tv : DTree (Leaf P)) :
    List ((ℕ → Bool) → Bool) → (ℕ → Bool) → Bool
  | [f] => quantify (· ∈ tv.highPath) b f
  | _ => fun _ => false

/-- The quantification of an operator's result over a set. -/
noncomputable def appquantFn (b : Bool) (op : BddOp) (tv : DTree (Leaf P)) :
    List ((ℕ → Bool) → Bool) → (ℕ → Bool) → Bool
  | [f, g] => quantify (· ∈ tv.highPath) b fun x => op.fn (f x) (g x)
  | _ => fun _ => false

/-- An entry of the quantification cache is right. -/
def QuantEntry (D : MtbddDomain P) (s : BddState P) (e : BddCacheData) : Prop :=
  ∀ b var, var < 2 ^ 22 → QuantTag b var e.c →
    ∃ tv, s.Reads D var tv ∧ EntryFor D s [e.a] (quantFn b tv) e.res

/-- An entry of the cache of the fused operations is right. -/
def AppexEntry (D : MtbddDomain P) (s : BddState P) (e : BddCacheData) : Prop :=
  ∀ b var op, var < 2 ^ 22 → AppexTag b var op e.c →
    ∃ tv, s.Reads D var tv ∧ EntryFor D s [e.a, e.b] (appquantFn b op tv) e.res

theorem QuantEntry.stable {e : BddCacheData} (h : QuantEntry D s e)
    (hsame : ∀ n, s.live n = true → SameNode D s s' n) (he : s'.Ok → s.Ok) :
    QuantEntry D s' e := by
  intro b var hvar htag
  obtain ⟨tv, hr, hentry⟩ := h b var hvar htag
  exact ⟨tv, hr.stable hsame, hentry.stable hsame he⟩

theorem AppexEntry.stable {e : BddCacheData} (h : AppexEntry D s e)
    (hsame : ∀ n, s.live n = true → SameNode D s s' n) (he : s'.Ok → s.Ok) :
    AppexEntry D s' e := by
  intro b var op hvar htag
  obtain ⟨tv, hr, hentry⟩ := h b var op hvar htag
  exact ⟨tv, hr.stable hsame, hentry.stable hsame he⟩

/-- The caches of the plain operations hold results of these operations. -/
structure Setting.PlainQuant (S : Setting P) : Prop extends S.Plain where
  quant : ∀ s e, S.cache s .quant e ↔ QuantEntry S.D s e
  appex : ∀ s e, S.cache s .appex e ↔ AppexEntry S.D s e

/-- What the recursions over sets need of these caches. -/
structure Setting.Quantifiers (S : Setting P) : Prop extends S.Operators where
  quant : ∀ s e, S.cache s .quant e → QuantEntry S.D s e
  quantFill : ∀ s e b var, var < 2 ^ 22 → QuantTag b var e.c → QuantEntry S.D s e →
    S.cache s .quant e
  appex : ∀ s e, S.cache s .appex e → AppexEntry S.D s e
  appexFill : ∀ s e b var op, var < 2 ^ 22 → AppexTag b var op e.c → AppexEntry S.D s e →
    S.cache s .appex e

theorem Setting.PlainQuant.quantifiers (h : S.PlainQuant) : S.Quantifiers :=
  ⟨h.operators, fun s e => (h.quant s e).mp, fun s e _ _ _ _ => (h.quant s e).mpr,
    fun s e => (h.appex s e).mp, fun s e _ _ _ _ _ => (h.appex s e).mpr⟩

/-! ## The set -/

/-- The set `var`, with its marks and its last level. -/
structure VarSet (S : Setting P) (s : BddState P) (var : ℕ) (tv : DTree (Leaf P))
    (quantlast : ℕ) : Prop where
  operand : Operand S s var tv
  small : var < 2 ^ 22
  marked : ∀ k < S.top, s.env.quantvarset k = s.env.quantvarsetID ↔ k ∈ tv.highPath
  last : ∀ k ∈ tv.highPath, k ≤ quantlast

theorem VarSet.evo {var quantlast : ℕ} {tv : DTree (Leaf P)} (h : VarSet S s var tv quantlast)
    (he : Evo S.D s s') : VarSet S s' var tv quantlast :=
  ⟨h.operand.evo he, h.small, fun k hk => by rw [he.env]; exact h.marked k hk, h.last⟩

theorem VarSet.invarset {var quantlast k : ℕ} {tv : DTree (Leaf P)}
    (h : VarSet S s var tv quantlast) (hk : k < S.top) :
    s.invarset k = true ↔ k ∈ tv.highPath := by
  unfold BddState.invarset
  rw [decide_eq_true_eq]
  exact h.marked k hk

/-- The state with other marks. -/
def BddState.setMarks (s : BddState P) (marks : ℕ → ℤ) (id : ℤ) : BddState P :=
  { s with env := { s.env with
      quantvarset := marks
      quantvarsetID := id } }

/-- No mark of a variable set is the negation of a later id. -/
def BddState.Signed (s : BddState P) : Prop :=
  ∀ k < s.env.bddvarnum, -s.env.quantvarsetID ≤ s.env.quantvarset k

theorem varsetLoop_spec {id : ℤ} {fuel k n last : ℕ} {marks : ℕ → ℤ} {t : DTree (Leaf P)}
    (hn : Operand S s n t) (hb : IsBool t) (ha : t.Above k) (hlast : last ≤ k)
    (hfuel : S.top - k < fuel) :
    ∃ marks' last', varsetLoop s id fuel n marks last = some (marks', last') ∧
      (∀ j, marks' j = if j ∈ t.highPath then id else marks j) ∧
      last ≤ last' ∧ ∀ j ∈ t.highPath, j ≤ last' := by
  induction fuel generalizing k n last marks t with
  | zero => omega
  | succ fuel ih =>
    unfold varsetLoop
    by_cases h1 : n > 1
    · rw [if_pos h1]
      have hlt := hn.level_lt hb (by omega)
      have hk := hn.le_level ha hlt
      obtain ⟨tl, th, rfl⟩ := hn.node_of_level hlt
      have hhigh : Operand S s (s.high n) th := by
        have hc := hn.cofactors rfl hlt s (.refl s) true
        rw [DTree.cof_node, if_pos rfl] at hc
        exact hc
      obtain ⟨marks', last', hloop, hmarks, hle, hall⟩ :=
        @ih (s.level n + 1) (s.high n) (s.level n) (Function.update marks (s.level n) id) th hhigh
          hb.2 hn.sorted.2.2.1 (by omega) (by omega)
      refine ⟨marks', last', hloop, fun j => ?_, by omega, fun j hj => ?_⟩
      · rw [hmarks, Function.update_apply]
        by_cases hj : j = s.level n
        · simp [hj, DTree.highPath]
        · simp [hj, DTree.highPath]
      · rcases List.mem_cons.mp hj with rfl | hj
        · exact hle
        · exact hall j hj
    · rw [if_neg h1]
      have hleaf : t.highPath = [] := by
        obtain ⟨b, -, rfl⟩ := hn.eq_toNat (by omega)
        rfl
      rw [hleaf]
      exact ⟨marks, last, rfl, fun j => (if_neg List.not_mem_nil).symm, Nat.le_refl _,
        fun j hj => absurd hj List.not_mem_nil⟩

/-- The marks that `varset2vartable` leaves are those of the set. -/
theorem varset2vartable_spec {var : ℕ} {tv : DTree (Leaf P)} (hv : Operand S s var tv)
    (hb : IsBool tv) (hm : MarksInv s S.top)
    (hnum : s.env.bddvarnum = S.top) :
    ∃ quantlast marks id, varset2vartable s var = some (quantlast, s.setMarks marks id) ∧
      MarksInv (s.setMarks marks id) S.top ∧
      (∀ k < S.top, marks k = id ↔ k ∈ tv.highPath) ∧ (∀ k ∈ tv.highPath, k ≤ quantlast) ∧
      (s.Signed → (s.setMarks marks id).Signed) := by
  obtain ⟨hpos, hlt, hle⟩ := hm
  have hfuel := S.depth_bound 0
  unfold varset2vartable
  dsimp only
  by_cases hid : s.env.quantvarsetID + 1 = intMax
  · rw [if_pos hid]
    dsimp only
    obtain ⟨marks, last, hloop, hmarks, -, hlast⟩ := @varsetLoop_spec P S s 1 depth 0 var 0
      (fun level => if level < s.env.bddvarnum then 0 else s.env.quantvarset level) tv hv hb
      tv.above_zero (Nat.le_refl 0) hfuel
    rw [hloop]
    refine ⟨last, marks, 1, rfl, ⟨Int.one_nonneg, show (1 : ℤ) < intMax by decide, fun k hk => ?_⟩,
      fun k hk => ?_, hlast, fun _ k hk => ?_⟩
    · show marks k ≤ 1
      rw [hmarks, hnum, if_pos hk]
      split <;> decide
    · rw [hmarks, hnum, if_pos hk]
      split <;> simp_all
    · show -1 ≤ marks k
      rw [hmarks, if_pos (show k < s.env.bddvarnum from hk)]
      split <;> decide
  · rw [if_neg hid]
    dsimp only
    obtain ⟨marks, last, hloop, hmarks, -, hlast⟩ := @varsetLoop_spec P S s
      (s.env.quantvarsetID + 1) depth 0 var 0 s.env.quantvarset tv hv hb tv.above_zero
      (Nat.le_refl 0) hfuel
    rw [hloop]
    refine ⟨last, marks, _, rfl, ⟨?_, ?_, fun k hk => ?_⟩, fun k hk => ?_, hlast,
      fun hsigned k hk => ?_⟩
    · show 0 ≤ s.env.quantvarsetID + 1
      omega
    · show s.env.quantvarsetID + 1 < intMax
      omega
    · have hk := hle k hk
      show marks k ≤ s.env.quantvarsetID + 1
      rw [hmarks]
      split <;> omega
    · have hk := hle k hk
      rw [hmarks]
      split
      · rename_i hmem
        exact ⟨fun _ => hmem, fun _ => rfl⟩
      · rename_i hmem
        exact ⟨fun heq => by omega, fun h => absurd h hmem⟩
    · have hk := hsigned k hk
      show -(s.env.quantvarsetID + 1) ≤ marks k
      rw [hmarks]
      split <;> omega

/-! ## The recursions -/

section

variable {b : Bool} {var quantlast : ℕ} {tv : DTree (Leaf P)} {ops : List (DTree (Leaf P))}
  {f fl fh : (ℕ → Bool) → Bool}

/-- Quantify at a level of the set, or put a node on top. -/
theorem quantAt_computes (hS : S.Operators) (op : BddOp) {level n low high : ℕ} (hs : Inv S s)
    (hv : VarSet S s var tv quantlast) (hlevel : level < S.top) (hn : s.level n = level)
    (hops : ∀ u ∈ ops, u.Sorted S.top ∧ u.Above level)
    (hroot : ∃ a b, DTree.node level a b ∈ ops)
    (hlow : Pushed S s (Computes (ops.map (·.cof level false)) fl) low)
    (hhigh : Pushed S s (Computes (ops.map (·.cof level true)) fh) high)
    (hmem : level ∈ tv.highPath → ∀ x, f x = op.fn (fl x) (fh x))
    (hnot : level ∉ tv.highPath → ∀ x, f x = if x level then fh x else fl x) :
    Returns S s (Computes ops f) (quantAt S.D S.isPrime op n low high s) := by
  unfold quantAt
  rw [hn]
  by_cases hin : level ∈ tv.highPath
  · rw [if_pos ((hv.invarset hlevel).mpr hin)]
    obtain ⟨tl, hol, hcl⟩ := hlow
    obtain ⟨th, hoh, hch⟩ := hhigh
    obtain ⟨r, hr, hp⟩ := applyRec_computes hS op hs hol hoh hcl.isBool
      hch.isBool tl.above_zero th.above_zero (S.depth_bound 0)
    refine ⟨r, hr, hp.inv, hp.evo, hp.refstack, ?_⟩
    obtain ⟨t, hreads, hc⟩ := hp.result
    refine ⟨t, hreads, hc.isBool, fun k hk => ?_, fun hok x => ?_⟩
    · obtain ⟨c, d, hmem'⟩ := hroot
      have hle : k ≤ level := hk _ hmem'
      refine (hc.above (level + 1) fun u hu => ?_).mono (Nat.le_succ_of_le hle)
      rcases List.mem_pair.mp hu with rfl | rfl
      · exact hcl.below hops
      · exact hch.below hops
    · rw [hc.eval hok, hmem hin, hcl.eval (hp.evo.ok hok), hch.eval (hp.evo.ok hok)]
  · rw [if_neg (fun h => hin ((hv.invarset hlevel).mp h))]
    exact nodeAt_computes hs hlevel hn hops hroot hlow hhigh (hnot hin)

/-- A diagram below the last level of the set is its own quantification. -/
theorem quantify_of_above {t : DTree (Leaf P)} {M : ℕ} (h : t.Sorted M)
    (ha : t.Above (quantlast + 1)) (hlast : ∀ k ∈ tv.highPath, k ≤ quantlast) (x : ℕ → Bool) :
    quantify (· ∈ tv.highPath) b (evalBool t) x = evalBool t x := by
  refine quantify_eq_self fun y hy => ?_
  unfold evalBool
  rw [DTree.eval_congr h ha fun j hj _ => hy j fun hmem => ?_]
  have := hlast j hmem
  omega

/-- Fixing the variable of the root's level gives the branches. -/
theorem evalBool_update {t : DTree (Leaf P)} {M level : ℕ} (h : t.Sorted M) (ha : t.Above level)
    (c : Bool) (x : ℕ → Bool) :
    evalBool t (Function.update x level c) = evalBool (t.cof level c) x := by
  unfold evalBool
  rw [DTree.eval_cof_eq h ha]

/-- What a recursion over a set makes of the tree of its operand: `op` joins what it makes of the
branches at the levels of the set. -/
structure Quantifies (S : Setting P) (op : BddOp) (tv : DTree (Leaf P)) (quantlast : ℕ)
    (F : DTree (Leaf P) → (ℕ → Bool) → Bool) : Prop where
  below : ∀ t, t.Sorted S.top → t.Above (quantlast + 1) → ∀ x, F t x = evalBool t x
  mem : ∀ level tl th, (DTree.node level tl th).Sorted S.top → level ∈ tv.highPath →
    ∀ x, F (.node level tl th) x = op.fn (F tl x) (F th x)
  not_mem : ∀ level tl th, (DTree.node level tl th).Sorted S.top → level ∉ tv.highPath →
    ∀ x, F (.node level tl th) x = if x level then F th x else F tl x

/-- Entries of a cache under a tag of the set are results of `F`, and such results can be stored
there. -/
abbrev Remembers (S : Setting P) (k : CacheId) (tag : ℕ) (var : ℕ) (tv : DTree (Leaf P))
    (args : ℕ → ℕ → List ℕ) (F : List (DTree (Leaf P)) → (ℕ → Bool) → Bool) : Prop :=
  Memoizes S k (fun s => s.Reads S.D var tv) tag args fun ts => Computes ts (F ts)

/-- The function of the tree of the one operand. -/
def onTree (F : DTree (Leaf P) → (ℕ → Bool) → Bool) : List (DTree (Leaf P)) → (ℕ → Bool) → Bool
  | [t] => F t
  | _ => fun _ => false

/-- The function of the trees of the two operands. -/
def onTrees (F : DTree (Leaf P) → DTree (Leaf P) → (ℕ → Bool) → Bool) :
    List (DTree (Leaf P)) → (ℕ → Bool) → Bool
  | [tl, tr] => F tl tr
  | _ => fun _ => false

theorem quantRec_computes (hS : S.Operators) {op : BddOp} {tag : UInt32}
    {F : DTree (Leaf P) → (ℕ → Bool) → Bool} (hF : Quantifies S op tv quantlast F)
    (hcache : Remembers S .quant tag.toNat var tv (fun a _ => [a]) (onTree F))
    {fuel k r : ℕ} {t : DTree (Leaf P)} (hs : Inv S s) (hv : VarSet S s var tv quantlast)
    (hr : Operand S s r t) (hb : IsBool t) (ha : t.Above k) (hfuel : S.top - k < fuel) :
    Returns S s (Computes [t] (F t)) (quantRec S.D S.isPrime op tag quantlast fuel r s) := by
  induction fuel generalizing k s r t with
  | zero => omega
  | succ fuel ih =>
    unfold quantRec
    by_cases hdone : r < 2 ∨ s.level r > quantlast
    · rw [if_pos hdone]
      refine (Post.operand hs hr (.operand List.mem_cons_self hb fun x => ?_)).returns
      refine hF.below t hr.sorted ?_ x
      rcases hdone with h2 | hgt
      · obtain ⟨c, -, rfl⟩ := hr.eq_toNat h2
        trivial
      · exact hr.above.mono hgt
    rw [if_neg hdone]
    have hlt := hr.level_lt hb (fun h => hdone (Or.inl h))
    have hk := hr.le_level ha hlt
    have hcof := hr.cofactors rfl hlt
    have hrec : ∀ (c : Bool) (s' : BddState P), Inv S s' → Evo S.D s s' →
        Returns S s' (Computes ([t].map (·.cof (s.level r) c)) (F (t.cof (s.level r) c)))
          (quantRec S.D S.isPrime op tag quantlast fuel (childOf r c s') s') :=
      fun c s' hi he => ih hi (hv.evo he) (hcof s' he c) (hb.cof _ c)
        (hr.above.cof hr.sorted c) (by omega)
    refine hcache.returns hs (fun s' he => (hv.evo he).operand.reads)
      (fun s' he => .cons (hr.evo he).reads .nil) (fun e hhit => ?_) (fun _ _ => ⟨rfl, rfl, rfl⟩) ?_
    · rw [Bool.and_eq_true, decide_eq_true_eq, decide_eq_true_eq] at hhit
      exact ⟨hhit.2, congrArg (fun a => [a]) hhit.1⟩
    · refine branch_returns (Computes.lasting _ _) (hrec false s hs (.refl s)) (hrec true)
        fun s' low high hi he h0 h1 => ?_
      obtain ⟨tl, th, ht⟩ := hr.node_of_level hlt
      have hsorted := ht ▸ hr.sorted
      refine quantAt_computes hS op hi (hv.evo he) hlt (hr.level_evo hlt he) (fun u hu => ?_)
        (hr.root hlt List.mem_cons_self) h0 h1 (fun hin x => ?_) fun hout x => ?_
      · rw [List.mem_singleton.mp hu]
        exact ⟨hr.sorted, hr.above⟩
      · rw [ht, DTree.cof_node, DTree.cof_node]
        exact hF.mem _ tl th hsorted hin x
      · rw [ht, DTree.cof_node, DTree.cof_node]
        exact hF.not_mem _ tl th hsorted hout x

/-- The disjunction and the conjunction over a set. -/
theorem quantify_quantifies (b : Bool) (hlast : ∀ k ∈ tv.highPath, k ≤ quantlast) :
    Quantifies S (quantifier b).applyop tv quantlast
      fun t => quantify (· ∈ tv.highPath) b (evalBool t) := by
  have hfix : ∀ level tl th, (DTree.node level tl th).Sorted S.top → ∀ c : Bool,
      (fun y => evalBool (.node level tl th : DTree (Leaf P)) (Function.update y level c)) =
        evalBool (if c then th else tl) := by
    intro level tl th hs c
    funext y
    rw [evalBool_update hs (Nat.le_refl level) c y, DTree.cof_node]
  refine ⟨fun t hs ha => quantify_of_above hs ha hlast, fun level tl th hs hin x => ?_,
    fun level tl th hs hout x => ?_⟩
  · rw [quantify_of_mem hin, hfix level tl th hs, hfix level tl th hs, applyop_fn]
    rfl
  · rw [quantify_of_not_mem hout, hfix level tl th hs, hfix level tl th hs]
    rfl

theorem QuantEntry.remembers (hit : ∀ s e, S.cache s .quant e → QuantEntry S.D s e) {tag : ℕ}
    (fill : ∀ s e, e.c = tag → QuantEntry S.D s e → S.cache s .quant e) {b : Bool}
    (htag : QuantTag b var tag) (hsmall : var < 2 ^ 22) :
    Remembers S .quant tag var tv (fun a _ => [a])
      (onTree fun t => quantify (· ∈ tv.highPath) b (evalBool t)) := by
  have hfun : ∀ ts : List (DTree (Leaf P)), quantFn b tv (ts.map evalBool) =
      onTree (fun t => quantify (· ∈ tv.highPath) b (evalBool t)) ts := by
    intro ts
    match ts with
    | [] => rfl
    | [_] => rfl
    | _ :: _ :: _ => rfl
  refine ⟨fun s e hv he hc => ?_, fun s e hv hc hentry => ?_⟩
  · obtain ⟨tv', hreads, ts, t, hts, ht, hcomp⟩ := hit s e he b var hsmall (hc ▸ htag)
    rw [← hv.unique hreads] at hcomp
    exact ⟨ts, t, hts, ht, by simpa only [hfun ts] using hcomp⟩
  · obtain ⟨ts, t, hts, hres, hcomp⟩ := hentry
    refine fill s e hc fun b' var' hvar' htag' => ?_
    obtain ⟨rfl, rfl⟩ := htag.inj (hc ▸ htag') hsmall hvar'
    exact ⟨tv, hv, ts, t, hts, hres, (hfun ts).symm ▸ hcomp⟩

theorem quantRec_quantify (hS : S.Quantifiers) {tag : UInt32} (htag : QuantTag b var tag.toNat)
    {fuel k r : ℕ} {t : DTree (Leaf P)} (hs : Inv S s) (hv : VarSet S s var tv quantlast)
    (hr : Operand S s r t) (hb : IsBool t) (ha : t.Above k) (hfuel : S.top - k < fuel) :
    Returns S s (Computes [t] (quantify (· ∈ tv.highPath) b (evalBool t)))
      (quantRec S.D S.isPrime (quantifier b).applyop tag quantlast fuel r s) :=
  quantRec_computes hS.toOperators (quantify_quantifies b hv.last)
    (QuantEntry.remembers hS.quant (fun s e hc => hS.quantFill s e b var hv.small (hc ▸ htag)) htag
      hv.small) hs hv hr hb ha hfuel

theorem quantRec_returns (hS : S.PlainQuant) {tag : UInt32} (htag : QuantTag b var tag.toNat)
    {fuel k r : ℕ} {t : DTree (Leaf P)} (hs : Inv S s) (hv : VarSet S s var tv quantlast)
    (hr : Operand S s r t) (hb : IsBool t) (ha : t.Above k) (hfuel : S.top - k < fuel) :
    Returns S s (Computes [t] (quantify (· ∈ tv.highPath) b (evalBool t)))
      (quantRec S.D S.isPrime (quantifier b).applyop tag quantlast fuel r s) :=
  quantRec_quantify hS.quantifiers htag hs hv hr hb ha hfuel

/-! ## The fused recursion -/

/-- What a shortcut of `appquant_rec` says about the operands' functions. -/
def AppquantShortcut.Right (op : BddOp) (l r : ℕ) (f g : (ℕ → Bool) → Bool) :
    AppquantShortcut → Prop
  | .const n => ∃ c : Bool, n = c.toNat ∧ ∀ x, op.fn (f x) (g x) = c
  | .quant n => n = l ∧ (∀ x, op.fn (f x) (g x) = f x) ∨ n = r ∧ ∀ x, op.fn (f x) (g x) = g x

/-- The shortcuts are right if the numbers tell constants and equal operands. -/
theorem appquantShortcut_right {op : BddOp} {l r : ℕ} {f g : (ℕ → Bool) → Bool}
    (hl0 : l = 0 → ∀ x, f x = false) (hl1 : l = 1 → ∀ x, f x = true)
    (hr0 : r = 0 → ∀ x, g x = false) (hr1 : r = 1 → ∀ x, g x = true) (heq : l = r → f = g)
    {c : AppquantShortcut} (h : appquantShortcut op l r = some c) : c.Right op l r f g := by
  -- the three results of a shortcut
  have hleft : (∀ x, op.fn (f x) (g x) = f x) → .quant l = c → c.Right op l r f g := fun hf hc =>
    hc ▸ Or.inl ⟨rfl, hf⟩
  have hright : (∀ x, op.fn (f x) (g x) = g x) → .quant r = c → c.Right op l r f g := fun hf hc =>
    hc ▸ Or.inr ⟨rfl, hf⟩
  have hconst : ∀ d : Bool, (∀ x, op.fn (f x) (g x) = d) → .const d.toNat = c →
      c.Right op l r f g := fun d hf hc => hc ▸ ⟨d, rfl, hf⟩
  unfold appquantShortcut at h
  cases op with
  | and =>
    dsimp only at h
    split at h
    · rename_i hc
      refine hconst false (fun x => ?_) (Option.some.inj h)
      rcases hc with hc | hc
      · simp [BddOp.fn, hl0 hc]
      · simp [BddOp.fn, hr0 hc]
    split at h
    · rename_i hc
      exact hleft (fun x => by simp [BddOp.fn, heq hc]) (Option.some.inj h)
    split at h
    · rename_i hc
      exact hright (fun x => by simp [BddOp.fn, hl1 hc]) (Option.some.inj h)
    split at h
    · rename_i hc
      exact hleft (fun x => by simp [BddOp.fn, hr1 hc]) (Option.some.inj h)
    · exact absurd h.symm (Option.some_ne_none c)
  | or =>
    dsimp only at h
    split at h
    · rename_i hc
      refine hconst true (fun x => ?_) (Option.some.inj h)
      rcases hc with hc | hc
      · simp [BddOp.fn, hl1 hc]
      · simp [BddOp.fn, hr1 hc]
    split at h
    · rename_i hc
      exact hleft (fun x => by simp [BddOp.fn, heq hc]) (Option.some.inj h)
    split at h
    · rename_i hc
      exact hright (fun x => by simp [BddOp.fn, hl0 hc]) (Option.some.inj h)
    split at h
    · rename_i hc
      exact hleft (fun x => by simp [BddOp.fn, hr0 hc]) (Option.some.inj h)
    · exact absurd h.symm (Option.some_ne_none c)
  | xor =>
    dsimp only at h
    split at h
    · rename_i hc
      exact hconst false (fun x => by simp [BddOp.fn, heq hc]) (Option.some.inj h)
    split at h
    · rename_i hc
      exact hright (fun x => by simp [BddOp.fn, hl0 hc]) (Option.some.inj h)
    split at h
    · rename_i hc
      exact hleft (fun x => by simp [BddOp.fn, hr0 hc]) (Option.some.inj h)
    · exact absurd h.symm (Option.some_ne_none c)
  | nand =>
    dsimp only at h
    split at h
    · rename_i hc
      refine hconst true (fun x => ?_) (Option.some.inj h)
      rcases hc with hc | hc
      · simp [BddOp.fn, hl0 hc]
      · simp [BddOp.fn, hr0 hc]
    · exact absurd h.symm (Option.some_ne_none c)
  | nor =>
    dsimp only at h
    split at h
    · rename_i hc
      refine hconst false (fun x => ?_) (Option.some.inj h)
      rcases hc with hc | hc
      · simp [BddOp.fn, hl1 hc]
      · simp [BddOp.fn, hr1 hc]
    · exact absurd h.symm (Option.some_ne_none c)
  | imp | biimp | diff | less | invimp => exact absurd h.symm (Option.some_ne_none c)

/-- What a shortcut of `appquant_rec` stands for. -/
def AppquantShortcut.Means (S : Setting P) (s : BddState P) (tl tr : DTree (Leaf P))
    (f : (ℕ → Bool) → Bool) : AppquantShortcut → Prop
  | .const n => ∃ c : Bool, n = c.toNat ∧ ∀ x, f x = c
  | .quant n => ∃ u ∈ [tl, tr], Operand S s n u ∧ IsBool u ∧ ∀ x, f x = evalBool u x

theorem appquantShortcut_spec {op : BddOp} {l r : ℕ} {tl tr : DTree (Leaf P)}
    {c : AppquantShortcut} (hl : Operand S s l tl) (hr : Operand S s r tr) (hbl : IsBool tl)
    (hbr : IsBool tr) (h : appquantShortcut op l r = some c) :
    c.Means S s tl tr fun x => op.fn (evalBool tl x) (evalBool tr x) := by
  have hright := appquantShortcut_right (f := evalBool tl) (g := evalBool tr)
    (fun h => hl.evalBool_const (b := false) h) (fun h => hl.evalBool_const (b := true) h)
    (fun h => hr.evalBool_const (b := false) h) (fun h => hr.evalBool_const (b := true) h)
    (fun h => congrArg evalBool (hl.unique (h ▸ hr.reads))) h
  cases c with
  | const n => exact hright
  | quant n =>
    rcases hright with ⟨rfl, hf⟩ | ⟨rfl, hf⟩
    · exact ⟨tl, List.mem_cons_self, hl, hbl, hf⟩
    · exact ⟨tr, by simp, hr, hbr, hf⟩

/-- What the fused recursion makes of the trees of two operands that no shortcut applies to: it
splits them at the levels of the set and at the others. `F` is what it makes of one operand. -/
structure Fuses (S : Setting P) (op appexop : BddOp) (tv : DTree (Leaf P)) (quantlast : ℕ)
    (F : DTree (Leaf P) → (ℕ → Bool) → Bool)
    (F₂ : DTree (Leaf P) → DTree (Leaf P) → (ℕ → Bool) → Bool) (s : BddState P) (l r : ℕ)
    (tl tr : DTree (Leaf P)) : Prop where
  const : ∀ n, appquantShortcut appexop l r = some (.const n) →
    ∃ c : Bool, n = c.toNat ∧ ∀ x, F₂ tl tr x = c
  quant : ∀ n, appquantShortcut appexop l r = some (.quant n) →
    ∃ u ∈ [tl, tr], Operand S s n u ∧ IsBool u ∧ ∀ x, F₂ tl tr x = F u x
  leaves : appquantShortcut appexop l r = none → ∀ a c : Bool, tl = .leaf (.const a) →
    tr = .leaf (.const c) → ∀ x, F₂ tl tr x = appexop.fn a c
  below : appquantShortcut appexop l r = none → tl.Above (quantlast + 1) →
    tr.Above (quantlast + 1) → ∀ x, F₂ tl tr x = appexop.fn (evalBool tl x) (evalBool tr x)
  split : appquantShortcut appexop l r = none → ∀ level, tl.Above level → tr.Above level →
    (∃ a c, DTree.node level a c ∈ [tl, tr]) → ∀ x, F₂ tl tr x =
      if level ∈ tv.highPath then
        op.fn (F₂ (tl.cof level false) (tr.cof level false) x)
          (F₂ (tl.cof level true) (tr.cof level true) x)
      else if x level then F₂ (tl.cof level true) (tr.cof level true) x
        else F₂ (tl.cof level false) (tr.cof level false) x

theorem appquantRec_computes (hS : S.Operators) {op appexop : BddOp} {tag quanttag : UInt32}
    {F : DTree (Leaf P) → (ℕ → Bool) → Bool}
    {F₂ : DTree (Leaf P) → DTree (Leaf P) → (ℕ → Bool) → Bool}
    (hF : Quantifies S op tv quantlast F)
    (hquant : Remembers S .quant quanttag.toNat var tv (fun a _ => [a]) (onTree F))
    (hF₂ : ∀ s l r tl tr, Inv S s → Operand S s l tl → Operand S s r tr → IsBool tl → IsBool tr →
      Fuses S op appexop tv quantlast F F₂ s l r tl tr)
    (hcache : Remembers S .appex tag.toNat var tv (fun a b => [a, b]) (onTrees F₂))
    {fuel k l r : ℕ} {tl tr : DTree (Leaf P)} (hs : Inv S s) (hv : VarSet S s var tv quantlast)
    (hl : Operand S s l tl) (hr : Operand S s r tr) (hbl : IsBool tl) (hbr : IsBool tr)
    (hal : tl.Above k) (har : tr.Above k) (hfuel : S.top - k < fuel) :
    Returns S s (Computes [tl, tr] (F₂ tl tr))
      (appquantRec S.D S.isPrime op appexop tag quanttag quantlast fuel l r s) := by
  induction fuel generalizing k s l r tl tr with
  | zero => omega
  | succ fuel ih =>
    have hfuse := hF₂ s l r tl tr hs hl hr hbl hbr
    unfold appquantRec
    cases hshort : appquantShortcut appexop l r with
    | some c =>
      cases c with
      | const n =>
        obtain ⟨d, rfl, hf⟩ := hfuse.const n hshort
        exact (Post.const hs d (.const d hf)).returns
      | quant n =>
        obtain ⟨u, hu, ho, hb, hf⟩ := hfuse.quant n hshort
        rw [funext hf]
        refine (quantRec_computes hS hF hquant hs hv ho hb u.above_zero (S.depth_bound 0)).mono
          fun ok t hc => ⟨hc.isBool, fun k hk => hc.above k fun v hv => ?_, hc.eval⟩
        rw [List.mem_singleton.mp hv]
        exact hk u hu
    | none =>
      dsimp only
      by_cases hconst : l < 2 ∧ r < 2
      · rw [if_pos hconst]
        obtain ⟨a, rfl, rfl⟩ := hl.eq_toNat hconst.1
        obtain ⟨c, rfl, rfl⟩ := hr.eq_toNat hconst.2
        rw [oprres_eq]
        exact (Post.const hs _ (.const _ (hfuse.leaves hshort a c rfl rfl))).returns
      rw [if_neg hconst]
      by_cases hbelow : s.level l > quantlast ∧ s.level r > quantlast
      · rw [if_pos hbelow]
        rw [funext (hfuse.below hshort (hl.above.mono hbelow.1) (hr.above.mono hbelow.2))]
        exact applyRec_computes hS appexop hs hl hr hbl hbr tl.above_zero tr.above_zero
          (S.depth_bound 0)
      rw [if_neg hbelow]
      refine hcache.returns hs (fun s' he => (hv.evo he).operand.reads)
        (fun s' he => .cons (hl.evo he).reads (.cons (hr.evo he).reads .nil)) (fun e hhit => ?_)
        (fun _ _ => ⟨rfl, rfl, rfl⟩) ?_
      · simp only [Bool.and_eq_true, decide_eq_true_eq] at hhit
        exact ⟨hhit.2, by rw [hhit.1.1, hhit.1.2]⟩
      · have hlt : s.level l < S.top ∨ s.level r < S.top := by
          by_cases hl2 : l < 2
          · exact Or.inr (hr.level_lt hbr fun hr2 => hconst ⟨hl2, hr2⟩)
          · exact Or.inl (hl.level_lt hbl hl2)
        let B : ℕ → (Bool → BddState P → ℕ) → (Bool → BddState P → ℕ) →
            Option (ℕ × BddState P) := fun n pl pr =>
          branch
            (fun s => appquantRec S.D S.isPrime op appexop tag quanttag
              quantlast fuel (pl false s) (pr false s) s)
            (fun s => appquantRec S.D S.isPrime op appexop tag quanttag
              quantlast fuel (pl true s) (pr true s) s)
            (quantAt S.D S.isPrime op n) s
        refine split_two (B := B) hl hr hal har hlt fun n level pl pr hsplit => ?_
        have hpl := hsplit.cofactors (tl, pl) List.mem_cons_self
        have hpr := hsplit.cofactors (tr, pr) (by simp)
        have hl' := (hsplit.sorted tl List.mem_cons_self).2
        have hr' := (hsplit.sorted tr (by simp)).2
        have hle := hsplit.le
        have hltop := hsplit.lt
        have hrec : ∀ (c : Bool) (s' : BddState P), Inv S s' → Evo S.D s s' →
            Returns S s' (Computes ([tl, tr].map (·.cof level c))
                (F₂ (tl.cof level c) (tr.cof level c)))
              (appquantRec S.D S.isPrime op appexop tag quanttag quantlast
                fuel (pl c s') (pr c s') s') := fun c s' hi he =>
          ih hi (hv.evo he) (hpl s' he c) (hpr s' he c) (hbl.cof _ c) (hbr.cof _ c)
            (hl'.cof hl.sorted c) (hr'.cof hr.sorted c) (by omega)
        have hsp := hfuse.split hshort level hl' hr' hsplit.root
        refine branch_returns (Computes.lasting _ _) (hrec false s hs (.refl s)) (hrec true)
          fun s' low high hi he h0 h1 => ?_
        refine quantAt_computes hS op hi (hv.evo he) hltop (hsplit.level_eq s' he) hsplit.sorted
          hsplit.root h0 h1 (fun hin x => ?_) fun hout x => ?_
        · exact (hsp x).trans (if_pos hin)
        · exact (hsp x).trans (if_neg hout)

/-- The disjunction and the conjunction of an operator's result over a set. -/
theorem quantify_fuses {appexop : BddOp} (hlast : ∀ k ∈ tv.highPath, k ≤ quantlast) {l r : ℕ}
    {tl tr : DTree (Leaf P)} (hl : Operand S s l tl) (hr : Operand S s r tr) (hbl : IsBool tl)
    (hbr : IsBool tr) :
    Fuses S (quantifier b).applyop appexop tv quantlast
      (fun t => quantify (· ∈ tv.highPath) b (evalBool t))
      (fun tl tr => quantify (· ∈ tv.highPath) b
        fun x => appexop.fn (evalBool tl x) (evalBool tr x)) s l r tl tr := by
  refine ⟨fun n hshort => ?_, fun n hshort => ?_, fun _ a c hta htc x => ?_,
    fun _ hbelowl hbelowr x => ?_, fun _ level hl' hr' _ x => ?_⟩
  · obtain ⟨d, hd, hf⟩ := appquantShortcut_spec hl hr hbl hbr hshort
    exact ⟨d, hd, fun x => by rw [funext hf, quantify_const]⟩
  · obtain ⟨u, hu, ho, hb, hf⟩ := appquantShortcut_spec hl hr hbl hbr hshort
    exact ⟨u, hu, ho, hb, fun x => by rw [funext hf]⟩
  · subst hta htc
    show quantify _ b (fun _ => appexop.fn a c) x = _
    exact quantify_const _
  · apply quantify_eq_self
    intro y hy
    have hagree : ∀ j, quantlast + 1 ≤ j → j < S.top → y j = x j := fun j hj _ =>
      hy j fun hmem => by
        have := hlast j hmem
        omega
    unfold evalBool
    rw [DTree.eval_congr hl.sorted hbelowl hagree, DTree.eval_congr hr.sorted hbelowr hagree]
  · have hfix : ∀ c, (fun y => appexop.fn (evalBool tl (Function.update y level c))
          (evalBool tr (Function.update y level c))) =
        fun y => appexop.fn (evalBool (tl.cof level c) y) (evalBool (tr.cof level c) y) :=
      fun c => funext fun y => by
        rw [evalBool_update hl.sorted hl' c y, evalBool_update hr.sorted hr' c y]
    split
    · rename_i hin
      rw [quantify_of_mem hin, hfix, hfix, applyop_fn]
    · rename_i hout
      rw [quantify_of_not_mem hout, hfix, hfix]

theorem AppexEntry.remembers (hit : ∀ s e, S.cache s .appex e → AppexEntry S.D s e) {tag : ℕ}
    (fill : ∀ s e, e.c = tag → AppexEntry S.D s e → S.cache s .appex e) {appexop : BddOp}
    (htag : AppexTag b var appexop tag) (hsmall : var < 2 ^ 22) :
    Remembers S .appex tag var tv (fun a b => [a, b])
      (onTrees fun tl tr => quantify (· ∈ tv.highPath) b
        fun x => appexop.fn (evalBool tl x) (evalBool tr x)) := by
  have hfun : ∀ ts : List (DTree (Leaf P)), appquantFn b appexop tv (ts.map evalBool) =
      onTrees (fun tl tr => quantify (· ∈ tv.highPath) b
        fun x => appexop.fn (evalBool tl x) (evalBool tr x)) ts := by
    intro ts
    match ts with
    | [] => rfl
    | [_] => rfl
    | [_, _] => rfl
    | _ :: _ :: _ :: _ => rfl
  refine ⟨fun s e hv he hc => ?_, fun s e hv hc hentry => ?_⟩
  · obtain ⟨tv', hreads, ts, t, hts, ht, hcomp⟩ := hit s e he b var appexop hsmall (hc ▸ htag)
    rw [← hv.unique hreads] at hcomp
    exact ⟨ts, t, hts, ht, by simpa only [hfun ts] using hcomp⟩
  · obtain ⟨ts, t, hts, hres, hcomp⟩ := hentry
    refine fill s e hc fun b' var' op' hvar' htag' => ?_
    obtain ⟨rfl, rfl, rfl⟩ := htag.inj (hc ▸ htag') hsmall hvar'
    exact ⟨tv, hv, ts, t, hts, hres, (hfun ts).symm ▸ hcomp⟩

theorem appquantRec_quantify (hS : S.Quantifiers) {appexop : BddOp} {tag quanttag : UInt32}
    (htag : AppexTag b var appexop tag.toNat) (hquant : QuantTag b var quanttag.toNat)
    {fuel k l r : ℕ} {tl tr : DTree (Leaf P)} (hs : Inv S s) (hv : VarSet S s var tv quantlast)
    (hl : Operand S s l tl) (hr : Operand S s r tr) (hbl : IsBool tl) (hbr : IsBool tr)
    (hal : tl.Above k) (har : tr.Above k) (hfuel : S.top - k < fuel) :
    Returns S s (Computes [tl, tr] (quantify (· ∈ tv.highPath) b
        fun x => appexop.fn (evalBool tl x) (evalBool tr x)))
      (appquantRec S.D S.isPrime (quantifier b).applyop appexop tag quanttag quantlast fuel l r
        s) :=
  appquantRec_computes hS.toOperators (quantify_quantifies b hv.last)
    (QuantEntry.remembers hS.quant (fun s e hc => hS.quantFill s e b var hv.small (hc ▸ hquant))
      hquant hv.small)
    (fun _ _ _ _ _ _ hl hr hbl hbr => quantify_fuses hv.last hl hr hbl hbr)
    (AppexEntry.remembers hS.appex
      (fun s e hc => hS.appexFill s e b var appexop hv.small (hc ▸ htag)) htag hv.small)
    hs hv hl hr hbl hbr hal har hfuel

theorem appquantRec_returns (hS : S.PlainQuant) {appexop : BddOp} {tag quanttag : UInt32}
    (htag : AppexTag b var appexop tag.toNat) (hquant : QuantTag b var quanttag.toNat)
    {fuel k l r : ℕ} {tl tr : DTree (Leaf P)} (hs : Inv S s) (hv : VarSet S s var tv quantlast)
    (hl : Operand S s l tl) (hr : Operand S s r tr) (hbl : IsBool tl) (hbr : IsBool tr)
    (hal : tl.Above k) (har : tr.Above k) (hfuel : S.top - k < fuel) :
    Returns S s (Computes [tl, tr] (quantify (· ∈ tv.highPath) b
        fun x => appexop.fn (evalBool tl x) (evalBool tr x)))
      (appquantRec S.D S.isPrime (quantifier b).applyop appexop tag quanttag quantlast fuel l r
        s) :=
  appquantRec_quantify hS.quantifiers htag hquant hs hv hl hr hbl hbr hal har hfuel

end

end MoToBuddy.Bdd
