import MoToBuddy.Bdd.CofactorLaws

/-!
# The exclusive-or quantification

`bdd_unique` takes the exclusive-or of the branches at the decisions on variables of the set that it
meets; a variable of the set that a path skips is left alone. `bdd_appuni` does so at the decisions
of either operand. `bddUnique_paths` says this of both, and when it is the exclusive-or over all
variables of the set, respectively the result of `bdd_unique` after `bdd_apply`.
-/

namespace MoToBuddy.Bdd

open Decision BoolFun Package

variable {P : Type*} {D : MtbddDomain P} {isPrime : ℕ → Bool} {T : Theory P} {σ : PairTable P}
  {s s' : BddState P} {w : Package P}

/-! ## Functions of nodes -/

/-- A node has one function. -/
theorem BddState.Represents.unique {n : ℕ} {f g : (ℕ → Bool) → Bool} (h : s.Represents D n f)
    (h' : s.Represents D n g) : f = g := by
  obtain ⟨t, hr, -, hf⟩ := h
  obtain ⟨t', hr', -, hg⟩ := h'
  obtain rfl := hr.unique hr'
  exact funext fun a => (hf a).symm.trans (hg a)

/-- A node is the canonical one for a function if that is its function. -/
theorem Called.canonical_iff {f g : (ℕ → Bool) → Bool} {r : ℕ × BddState P} (hred : T.reduced)
    (h : Called T s f r) (hok : r.2.Ok) : r.2.Canonical T.D r.1 g ↔ f = g := by
  constructor
  · exact fun hg => (h.result hok).unique hg.1
  · rintro rfl
    exact h.only hred hok

section

variable {f : (ℕ → Bool) → Bool} {n : ℕ} {V : List ℕ} {t : DTree (Leaf P)}

/-- The variables of a set that a node stands for are variables of the session. -/
theorem Good.varset_lt (hs : Good T s) (hV : s.Represents T.D n fun a => V.all a) {v : ℕ}
    (hv : v ∈ V) : v < s.env.bddvarnum := by
  by_contra hno
  obtain ⟨t, hr, -, hf⟩ := hV
  -- all variables, and all but `v`
  have heq := evalBool_congr (hs.inv.graph.sorted hr).1 (x := s.assign fun _ => true)
    (y := s.assign (Function.update (fun _ => true) v false)) fun l hl => by
      have hlt := (hs.order.var l hl).1
      have hne : s.env.bddlevel2var l ≠ v := by omega
      exact (Function.update_of_ne hne false fun _ => true).symm
  rw [hf, hf] at heq
  dsimp only at heq
  rw [List.all_eq_true.mpr fun _ _ => rfl] at heq
  have := List.all_eq_true.mp heq.symm v hv
  rw [Function.update_self] at this
  exact Bool.false_ne_true this

/-- The exclusive-or over the variables of a set is that over their levels. -/
theorem Good.xorOut_eq (hs : Good T s) (hV : ∀ v ∈ V, v < s.env.bddvarnum)
    (hr : s.Reads T.D n t) (hf : ∀ a, evalBool t (s.assign a) = f a) (a : ℕ → Bool) :
    xorOut V.dedup f a = xorOut (s.levelsOf V) (boolTree t).eval (s.assign a) := by
  have hsorted := sorted_boolTree.mpr (hs.inv.graph.sorted hr).1
  rw [← xorOut_perm (hs.order.map_levelsOf hV)]
  refine (hs.order.xorOut (fun l hl => (mem_levelsOf.mp hl).1) (fun a => ?_)
    (fun x y hxy => DTree.eval_congr hsorted (boolTree t).above_zero fun j _ => hxy j) a).symm
  rw [eval_boolTree, hf]

end

theorem Keeps.levelsOf (h : Keeps D s s') (V : List ℕ) : s'.levelsOf V = s.levelsOf V := by
  unfold BddState.levelsOf
  rw [h.varnum, h.order.1]

theorem Keeps.assign (h : Keeps D s s') : s'.assign = s.assign := by
  unfold BddState.assign
  rw [h.order.1]

/-! ## The calls -/

/-- `bdd_unique` returns the only node of the function `paths`, which is the exclusive-or over the
variables of the set in the case `good`, and only then. -/
def UniqueExact (D : MtbddDomain P) (isPrime : ℕ → Bool) (r var : ℕ) (V : List ℕ)
    (f paths : (ℕ → Bool) → Bool) (good : Prop) (s : BddState P) : Prop :=
  ∃ res s', bddUnique D isPrime r var s = some (res, s') ∧
    (s'.Ok → s'.Canonical D res paths ∧ (s'.Canonical D res (xorOut V.dedup f) ↔ good))

/-- `bdd_appuni` returns the only node of the function `paths`, which is the node that `bdd_unique`
returns for the result of `bdd_apply` in the case `good`, and only then. -/
def UniqueFused (D : MtbddDomain P) (isPrime : ℕ → Bool) (op : BddOp) (l r var : ℕ)
    (paths : (ℕ → Bool) → Bool) (good : Prop) (s : BddState P) : Prop :=
  ∃ a s₁, bddApply D isPrime l r op.code s = some (a, s₁) ∧ (s₁.Ok →
    ∃ e s₂, bddUnique D isPrime a var (bddAddref s₁ a) = some (e, s₂) ∧ (s₂.Ok →
      ∃ x s₃, bddAppuni D isPrime l r op.code var (bddAddref s₂ e) = some (x, s₃) ∧
        (s₃.Ok → s₃.Canonical D x paths ∧ (x = e ↔ good))))

/-- The exclusive-or of the branches at the decisions of a tree on variables of the set. -/
def BddState.uniquePaths (s : BddState P) (V : List ℕ) (t : DTree Bool) (a : ℕ → Bool) : Bool :=
  t.xorPaths (s.levelsOf V) (s.assign a)

/-- On each assignment an even number of paths of the tree skips a level of the set. -/
def EvenlySkipped (s : BddState P) (V : List ℕ) (t : DTree Bool) : Prop :=
  ∀ a, Even (t.skipping (s.levelsOf V) (s.assign a))

/-- As many paths of the tree skip a level of the set as of the reduced tree of its function, up to
an even number. -/
def SkippedAlike (s : BddState P) (V : List ℕ) (t : DTree Bool) : Prop :=
  ∀ q : DTree Bool, q.Sorted s.env.bddvarnum → q.Reduced → (∀ x, q.eval x = t.eval x) →
    ∀ a, t.skipping (s.levelsOf V) (s.assign a) % 2 = q.skipping (s.levelsOf V) (s.assign a) % 2

section

variable {f g : (ℕ → Bool) → Bool} {l r var : ℕ} {V : List ℕ} {t u : DTree (Leaf P)}

/-- The tree of a node at an assignment of the levels. -/
theorem Good.evalBool_eq (hs : Good T s) (h : s.Represents T.D r f) (ht : s.Reads T.D r t)
    (y : ℕ → Bool) : evalBool t y = f fun v => y (s.env.bddvar2level v) := by
  obtain ⟨t', hr, -, hf⟩ := h
  obtain rfl := ht.unique hr
  rw [← hf]
  exact evalBool_congr (hs.inv.graph.sorted ht).1 fun l hl => (hs.order.assign_level y hl).symm

theorem Good.uniqueExact (hT : T.Operates) (hU : ∀ top htop, (T.setting top htop).Uniques)
    (hs : Good T s) (hr : s.Usable T.D r f) (hvar : s.Usable T.D var fun a => V.all a)
    (hsmall : var < 2 ^ 22) (ht : s.Reads T.D r t) :
    UniqueExact T.D T.isPrime r var V f (s.uniquePaths V (boolTree t))
      (EvenlySkipped s V (boolTree t)) s := by
  obtain ⟨⟨res, s'⟩, hres, hc⟩ := hT.unique_called hU hs hr hvar hsmall ht
  refine ⟨res, s', hres, fun hok => ⟨hc.only hT.reduced hok,
    (hc.canonical_iff hT.reduced hok).trans ?_⟩⟩
  obtain ⟨-, t', hreads, hb, hf⟩ := hr
  obtain rfl := ht.unique hreads
  have hsorted := sorted_boolTree.mpr (hs.inv.graph.sorted ht).1
  have hiff : ∀ a, (boolTree t).xorPaths (s.levelsOf V) (s.assign a) = xorOut V.dedup f a ↔
      Even ((boolTree t).skipping (s.levelsOf V) (s.assign a)) := fun a => by
    rw [hs.xorOut_eq (fun _ hv => hs.varset_lt hvar.2 hv) ht hf]
    exact DTree.xorPaths_eq_iff hsorted (nodup_levelsOf s V) _
  exact ⟨fun h a => (hiff a).mp (congrFun h a), fun h => funext fun a => (hiff a).mpr (h a)⟩

theorem Good.uniqueFused (hT : T.Operates) (hU : ∀ top htop, (T.setting top htop).Uniques)
    (hs : Good T s) (op : BddOp) (hl : s.Usable T.D l f) (hr : s.Usable T.D r g)
    (hvar : s.Usable T.D var fun a => V.all a) (hsmall : var < 2 ^ 22) (ht : s.Reads T.D l t)
    (hu : s.Reads T.D r u) :
    UniqueFused T.D T.isPrime op l r var (s.uniquePaths V (joint op (boolTree t) (boolTree u)))
      (SkippedAlike s V (joint op (boolTree t) (boolTree u))) s := by
  obtain ⟨⟨a, s₁⟩, h₁, hc₁⟩ := hT.apply_called hs op hl hr
  refine ⟨a, s₁, h₁, fun hok₁ => ?_⟩
  obtain ⟨hs₁, hk₁, ha⟩ := hc₁.addref hok₁
  obtain ⟨-, v, hv, hbv, hfv⟩ := id ha
  obtain ⟨⟨e, s₂⟩, h₂, hc₂⟩ := hT.unique_called hU hs₁ ha (hk₁.usable hvar) hsmall hv
  refine ⟨e, s₂, h₂, fun hok₂ => ?_⟩
  obtain ⟨hs₂, hk₂, he⟩ := hc₂.addref hok₂
  have hk := hk₁.trans hk₂
  obtain ⟨⟨x, s₃⟩, h₃, hc₃⟩ := hT.appuni_called hU hs₂ op (hk.usable hl) (hk.usable hr)
    (hk.usable hvar) hsmall (hk.reads l t hl.1 ht) (hk.reads r u hr.1 hu)
  refine ⟨x, s₃, h₃, fun hok₃ => ?_⟩
  -- the trees of the two results
  obtain ⟨hst, hsu⟩ := And.intro (sorted_boolTree.mpr (hs.inv.graph.sorted ht).1)
    (sorted_boolTree.mpr (hs.inv.graph.sorted hu).1)
  obtain ⟨hsj, -, hev⟩ := joint_spec op hst hsu (boolTree t).above_zero (boolTree u).above_zero
  obtain ⟨flight, hi, -⟩ := hs₁.inv.table
  have hsv : (boolTree v).Sorted s.env.bddvarnum :=
    hk₁.varnum ▸ sorted_boolTree.mpr (hs₁.inv.graph.sorted hv).1
  have hrv := reduced_boolTree (hs₁.inv.graph.reduced_reads hT.reduced hi hv hbv) hbv
  have heval : ∀ y, (joint op (boolTree t) (boolTree u)).eval y = (boolTree v).eval y := by
    intro y
    rw [hev, eval_boolTree, eval_boolTree, eval_boolTree, hs.evalBool_eq hl.2 ht,
      hs.evalBool_eq hr.2 hu, hs₁.evalBool_eq ha.2 hv, hk₁.order.2.1]
  have hx := hc₃.only hT.reduced hok₃
  have he' := (hc₃.keeps.usable he).2
  rw [hk.levelsOf, hk.assign] at hx
  rw [hk₁.levelsOf, hk₁.assign] at he'
  have hiff : ∀ a, (joint op (boolTree t) (boolTree u)).xorPaths (s.levelsOf V) (s.assign a) =
      (boolTree v).xorPaths (s.levelsOf V) (s.assign a) ↔
      (joint op (boolTree t) (boolTree u)).skipping (s.levelsOf V) (s.assign a) % 2 =
        (boolTree v).skipping (s.levelsOf V) (s.assign a) % 2 := fun a =>
    DTree.xorPaths_eq_xorPaths_iff hsj hsv heval (nodup_levelsOf s V) _
  refine ⟨hx, ?_⟩
  constructor
  · rintro rfl q hsq hrq hq a
    have hqv : q = boolTree v := DTree.ext hsq hrq hsv hrv fun y => (hq y).trans (heval y)
    rw [hqv]
    exact (hiff a).mp (congrFun (hx.1.unique he') a)
  · intro hsame
    have hfun := funext fun a => (hiff a).mpr (hsame _ hsv hrv (fun y => (heval y).symm) a)
    exact hc₃.good.only hT.reduced he' (hfun ▸ hx.1)

end

/-! ## Main result -/

/-- `bdd_unique` and `bdd_appuni` return the exclusive-or at the decisions that they meet. It is the
one over all variables of the set if and only if the paths that skip one of them are even in
number, and the two agree if and only if as many of them are in the tree that the operands span as
in that of the result, up to an even number. -/
theorem bddUnique_paths {reset : BddState P → Prop} (hw : w.Reached D isPrime reset)
    {f g : (ℕ → Bool) → Bool} {l r n : ℕ} {V : List ℕ} {t u : DTree (Leaf P)}
    (hl : w.bdd.Usable D l f) (hr : w.bdd.Usable D r g)
    (hn : w.bdd.Usable D n fun a => V.all a) (hsmall : n < 2 ^ 22) (ht : w.bdd.Reads D l t)
    (hu : w.bdd.Reads D r u) :
    UniqueExact D isPrime r n V g (w.bdd.uniquePaths V (boolTree u))
        (EvenlySkipped w.bdd V (boolTree u)) w.bdd ∧
      ∀ op, UniqueFused D isPrime op l r n
        (w.bdd.uniquePaths V (joint op (boolTree t) (boolTree u)))
        (SkippedAlike w.bdd V (joint op (boolTree t) (boolTree u))) w.bdd := by
  obtain ⟨⟨σ, h⟩, -⟩ := hw.healthy
  have hT := full_operates D isPrime σ w.bdd.env.bddvarnum
  have hU : ∀ top htop, ((full D isPrime σ w.bdd.env.bddvarnum).setting top htop).Uniques :=
    fun _ _ => full_uniques
  have hunique := h.good.uniqueExact hT hU hr hn hsmall hu
  have hfused := fun op => h.good.uniqueFused hT hU op hl hr hn hsmall ht hu
  exact ⟨hunique, hfused⟩

theorem twoVariables_reads :
    Bdd.twoVariables.Reads intDomain 2 (selfTree 0) ∧
      Bdd.twoVariables.Reads intDomain 4 (selfTree 1) := by
  obtain ⟨⟨σ, h⟩, -⟩ := (twoVariables_reached fun _ => True).healthy
  have hgood : Good (full intDomain trialDivision σ _) Bdd.twoVariables := h.good
  have hnum : Bdd.twoVariables.env.bddvarnum = 2 := twoVariables_varnum
  obtain ⟨-, h0, -⟩ := hgood.ithvar (v := 0) (by rw [hnum]; decide)
  obtain ⟨-, h1, -⟩ := hgood.ithvar (v := 1) (by rw [hnum]; decide)
  have hn0 : Bdd.twoVariables.env.bddvarset (2 * 0) = 2 := twoVariables_varset 0 (by decide)
  have hn1 : Bdd.twoVariables.env.bddvarset (2 * 1) = 4 := twoVariables_varset 2 (by decide)
  have hl0 : Bdd.twoVariables.env.bddvar2level 0 = 0 := twoVariables_level (by decide)
  have hl1 : Bdd.twoVariables.env.bddvar2level 1 = 1 := twoVariables_level (by decide)
  rw [hn0, hl0] at h0
  rw [hn1, hl1] at h1
  exact ⟨h0, h1⟩

theorem bddUnique_paths_two :
    UniqueExact intDomain trialDivision 4 2 [0] (fun a => a 1)
        (Bdd.twoVariables.uniquePaths [0] (boolTree (P := UInt32) (selfTree 1)))
        (EvenlySkipped Bdd.twoVariables [0] (boolTree (P := UInt32) (selfTree 1))) Bdd.twoVariables ∧
      ∀ op, UniqueFused intDomain trialDivision op 2 4 2
        (Bdd.twoVariables.uniquePaths [0] (joint op (boolTree (P := UInt32) (selfTree 0))
          (boolTree (P := UInt32) (selfTree 1))))
        (SkippedAlike Bdd.twoVariables [0] (joint op (boolTree (P := UInt32) (selfTree 0))
          (boolTree (P := UInt32) (selfTree 1)))) Bdd.twoVariables :=
  bddUnique_paths (twoVariables_reached fun _ => True) twoVariables_usable.1
    twoVariables_usable.2.1 twoVariables_usable.2.2 (by decide) twoVariables_reads.1
    twoVariables_reads.2

/-- The exclusive-or of variable `1` over variable `0` is false, and node `4` is returned. -/
theorem bddUnique_skipped :
    Bdd.twoVariables.Usable intDomain 4 (fun a => a 1) ∧
      Bdd.twoVariables.Usable intDomain 2 (fun a => [0].all a) ∧
      ¬ ∃ res s', bddUnique intDomain trialDivision 4 2 Bdd.twoVariables = some (res, s') ∧
        (s'.Ok → s'.Canonical intDomain res (xorOut [0].dedup fun a => a 1)) := by
  refine ⟨twoVariables_usable.2.1, twoVariables_usable.2.2, ?_⟩
  rintro ⟨res, s', heq, hres⟩
  obtain ⟨⟨σ, h⟩, -⟩ := (twoVariables_reached fun _ => True).healthy
  obtain ⟨res', s'', heq', hiff⟩ := h.good.uniqueExact
    (full_operates intDomain trialDivision σ _) (fun _ _ => full_uniques) twoVariables_usable.2.1
    twoVariables_usable.2.2 (by decide) twoVariables_reads.2
  have hsame := Option.some.inj (heq.symm.trans heq')
  rw [Prod.mk.injEq] at hsame
  obtain ⟨rfl, rfl⟩ := hsame
  have hok : s'.Ok := by
    have hrun : (bddUnique intDomain trialDivision 4 2 Bdd.twoVariables).map
        (fun r => r.2.bdderrorcond) = some false := by decide +kernel
    rw [heq] at hrun
    exact Option.some.inj hrun
  have heven := (hiff hok).2.mp (hres hok) fun _ => true
  have hlevels : Bdd.twoVariables.levelsOf [0] = [0] := by decide +kernel
  have heven : Even ((boolTree (P := UInt32) (selfTree 1)).skipping
    (Bdd.twoVariables.levelsOf [0]) fun _ => true) := heven
  rw [hlevels] at heven
  revert heven
  decide

end MoToBuddy.Bdd
