import MoToBuddy.Bdd.PackageRun

/-!
# What the counts count

`bdd_satcount` counts the assignments of all variables, and `bdd_satcountset` those of the
variables in a set, in any session (`bddSatcount_models`). The tree of a diagram counts assignments
of levels; a level and its variable take each other's place (`Base.models_levels`).
-/

namespace MoToBuddy.Bdd

open Decision BoolFun Package

variable {P : Type*} {D : MtbddDomain P} {isPrime : ℕ → Bool} {T : Theory P} {σ : PairTable P}
  {s : BddState P} {w : Package P} {f : (ℕ → Bool) → Bool} {n r : ℕ} {V : List ℕ}

/-! ## Levels and variables -/

theorem OrderInv.chosen_image (h : OrderInv s) {A : Finset ℕ}
    (hA : A ⊆ Finset.range s.env.bddvarnum) {l : ℕ} (hl : l < s.env.bddvarnum) :
    s.assign (chosen A) l = chosen (A.image s.env.bddvar2level) l := by
  show decide (s.env.bddlevel2var l ∈ A) = decide (l ∈ A.image s.env.bddvar2level)
  rw [decide_eq_decide, Finset.mem_image]
  constructor
  · exact fun hmem => ⟨_, hmem, (h.var l hl).2⟩
  · rintro ⟨v, hv, rfl⟩
    rwa [(h.level v (Finset.mem_range.mp (hA hv))).2]

/-- The assignments of the variables are as many as those of the levels. -/
theorem Good.models_levels (h : Good T s) {t : DTree (Leaf P)} (hr : s.Reads T.D n t)
    (hf : ∀ a, evalBool t (s.assign a) = f a) :
    models (Finset.range s.env.bddvarnum) f =
      models (Finset.range s.env.bddvarnum) (boolTree t).eval := by
  have ⟨hs, _⟩ := h.inv.graph.sorted hr
  refine models_rename (ρ := s.env.bddlevel2var) (τ := s.env.bddvar2level) h.order.var h.order.level
    fun A hA => ?_
  rw [eval_boolTree, ← hf]
  exact evalBool_congr hs fun l hl => h.order.chosen_image hA hl

/-- Only the variables matter. -/
theorem Good.function_congr (h : Good T s) (hr : s.Represents T.D n f) {a b : ℕ → Bool}
    (hab : ∀ v < s.env.bddvarnum, a v = b v) : f a = f b := by
  obtain ⟨t, hreads, -, hf⟩ := hr
  have ⟨hs, _⟩ := h.inv.graph.sorted hreads
  rw [← hf, ← hf]
  exact evalBool_congr hs fun l hl => hab _ (h.order.var l hl).1

/-- Only the constant false has no satisfying assignment. -/
theorem Good.models_pos (h : Good T s) (hred : T.reduced) (hr : s.Represents T.D n f)
    (hn : n ≠ 0) : 0 < models (Finset.range s.env.bddvarnum) f := by
  have hex : ∃ a, f a = true := by
    by_contra hno
    have hfalse : f = fun _ => false := funext fun a => by
      simpa using fun ha => hno ⟨a, ha⟩
    have hzero : s.Represents T.D 0 f :=
      ⟨_, .const false, trivial, fun a => by rw [hfalse]; rfl⟩
    exact hn (h.only hred hzero hr)
  obtain ⟨a, ha⟩ := hex
  rw [models_eq_card, Finset.card_pos]
  refine ⟨(Finset.range s.env.bddvarnum).filter fun v => a v = true, ?_⟩
  rw [Finset.mem_filter, Finset.mem_powerset]
  refine ⟨Finset.filter_subset _ _, ?_⟩
  rw [h.function_congr hr (b := a) fun v hv => by simp [chosen, hv], ha]

/-! ## Sets -/

/-- A set with a variable is not a constant. -/
theorem BddState.Represents.inner (h : s.Represents D n fun a => V.all a) (hV : V ≠ []) :
    2 ≤ n := by
  obtain ⟨t, hr, hb, hf⟩ := h
  cases hr with
  | const b =>
    obtain ⟨v, hv⟩ := List.exists_mem_of_ne_nil V hV
    have htrue : b = true := (hf fun _ => true).trans (List.all_eq_true.mpr fun _ _ => rfl)
    have hfalse : b = false := (hf fun _ => false).trans (List.all_eq_false.mpr ⟨v, hv, by simp⟩)
    exact absurd (htrue.symm.trans hfalse) (by decide)
  | terminal _ _ _ _ => exact hb.elim
  | node inner _ _ _ _ => exact inner

/-- The walk along the high branches. -/
theorem setSize_eq {M k fuel : ℕ} {t : DTree (Leaf P)} (hr : s.Reads D n t) (hb : IsBool t)
    (hs : t.Sorted M) (ha : t.Above k) (hfuel : M - k < fuel) :
    setSize fuel n s = some t.highPath.length := by
  induction fuel generalizing n t k with
  | zero => omega
  | succ fuel ih =>
    unfold setSize
    cases hr with
    | const b => rw [if_pos (BddState.Reads.toNat_lt b)]; rfl
    | terminal _ _ _ _ => exact hb.elim
    | @node _ low high level tl th inner key _ _ above =>
      obtain ⟨hlt, -, hah, -, hsh⟩ := hs
      have hle : k ≤ level := ha
      have hhigh : s.high n = high := congrArg BddKey.high key
      rw [if_neg (by omega), hhigh, ih above hb.2 hsh hah (by omega)]
      rfl

/-- The levels of a set are those of its variables, one for each. -/
theorem Good.highPath_length (h : Good T s) (hred : T.reduced) {t : DTree (Leaf P)}
    (hr : s.Reads T.D n t) (hb : IsBool t) (hf : ∀ a, evalBool t (s.assign a) = V.all a) :
    t.highPath.length = V.toFinset.card := by
  have ⟨hs, _⟩ := h.inv.graph.sorted hr
  have hbound : ∀ l ∈ t.highPath, l < s.env.bddvarnum := fun l hl =>
    (DTree.highPath_bound hs t.above_zero hl).2
  have hmem := h.varset hred hr hb hf
  have hnodup : t.highPath.Nodup := (DTree.highPath_pairwise hs).imp fun h => Nat.ne_of_lt h
  rw [← List.toFinset_card_of_nodup hnodup]
  refine Finset.card_bij (fun l _ => s.env.bddlevel2var l) (fun l hl => ?_) ?_ fun v hv => ?_
  · have hl := List.mem_toFinset.mp hl
    exact List.mem_toFinset.mpr ((hmem l (hbound l hl)).mp hl)
  · intro l hl l' hl' heq
    have hl := hbound l (List.mem_toFinset.mp hl)
    have hl' := hbound l' (List.mem_toFinset.mp hl')
    rw [← (h.order.var l hl).2, heq, (h.order.var l' hl').2]
  · have hv := List.mem_toFinset.mp hv
    obtain ⟨hlevel, hback⟩ := h.order.level v (h.order.set_lt hs hf v hv)
    refine ⟨s.env.bddvar2level v, List.mem_toFinset.mpr ?_, hback⟩
    rw [hmem _ hlevel, hback]
    exact hv

/-- The count for a set that has the support, from the count for all variables. -/
theorem models_set {N : ℕ} (hV : ∀ v ∈ V, v < N) (hsupport : ∀ v < N, v ∉ V → Ignores f v) :
    models (Finset.range N) f = 2 ^ (N - V.toFinset.card) * models V.toFinset f := by
  have hsub : V.toFinset ⊆ Finset.range N := fun v hv =>
    Finset.mem_range.mpr (hV v (List.mem_toFinset.mp hv))
  have hcard := Finset.card_sdiff_of_subset hsub
  rw [Finset.card_range] at hcard
  rw [← hcard, ← models_union Finset.sdiff_disjoint fun v hv => ?_, Finset.sdiff_union_of_subset hsub]
  obtain ⟨hv, hno⟩ := Finset.mem_sdiff.mp hv
  exact hsupport v (Finset.mem_range.mp hv) fun h => hno (List.mem_toFinset.mpr h)

/-! ## Main result -/

theorem Base.satcount (h : Base D isPrime σ s) (hnum : 0 < s.env.bddvarnum)
    (hr : s.Represents D r f) :
    ∃ s', bddSatcount r s = some (models (Finset.range s.env.bddvarnum) f, s') := by
  obtain ⟨t, hreads, hb, hf⟩ := hr
  obtain ⟨⟨count, s'⟩, hcall, -, -, hcount⟩ := bddSatcount_counted
    (T := full D isPrime σ s.env.bddvarnum) (fun _ => full_counting _) h.good h.leveled hreads hb
  have hlevels := h.good.models_levels hreads hf
  have hcount : count = _ := hcount hnum
  exact ⟨s', by rw [hcall, hcount, hlevels]⟩

/-- Once variables have been declared, and whatever calls came before, `bdd_satcount` returns the
number of assignments of all variables that satisfy the operand, and `bdd_satcountset` with a
non-empty set that has the support the number of assignments of the variables of the set. -/
theorem bddSatcount_models {reset : BddState P → Prop} (hw : w.Reached D isPrime reset)
    (hnum : 0 < w.bdd.env.bddvarnum) (hr : w.bdd.Represents D r f) :
    (∃ s', bddSatcount r w.bdd = some (models (Finset.range w.bdd.env.bddvarnum) f, s')) ∧
    ∀ (V : List ℕ) (varset : ℕ), V ≠ [] → w.bdd.Represents D varset (fun a => V.all a) →
      (∀ v < w.bdd.env.bddvarnum, v ∉ V → Ignores f v) →
      ∃ s', bddSatcountset r varset w.bdd = some ((models V.toFinset f : ℚ), s') := by
  obtain ⟨⟨σ, h⟩, -⟩ := hw.healthy
  refine ⟨h.toBase.satcount hnum hr, fun V varset hne hset hsupport => ?_⟩
  have hred : (full D isPrime σ w.bdd.env.bddvarnum).reduced := trivial
  obtain ⟨tv, hreads, hb, hfv⟩ := id hset
  obtain ⟨hs, -⟩ := h.good.inv.graph.sorted hreads
  have hV := h.good.order.set_lt hs hfv
  have hinner := hset.inner hne
  unfold bddSatcountset
  by_cases hz : r = 0
  · -- the constant false has no satisfying assignment
    subst hz
    rw [if_pos (Or.inr rfl)]
    have hzero : ∀ a, f a = false := fun a => by
      obtain ⟨t, ht, -, hft⟩ := hr
      rw [← hft, ht.unique (.const false)]
      rfl
    have hmodels : models V.toFinset f = 0 := Finset.sum_eq_zero fun A _ => by rw [hzero]; rfl
    exact ⟨w.bdd, by rw [hmodels, Nat.cast_zero]⟩
  · obtain ⟨s', hcount⟩ := h.toBase.satcount hnum hr
    have hsize := setSize_eq hreads hb hs tv.above_zero
      (Setting.depth_bound ((full D isPrime σ w.bdd.env.bddvarnum).setting _ h.good.num) 0)
    rw [h.good.highPath_length hred hreads hb hfv] at hsize
    rw [if_neg (by omega), hsize, hcount]
    have hpos := h.good.models_pos hred hr hz
    have hall := models_set hV hsupport
    have hcard : V.toFinset.card ≤ w.bdd.env.bddvarnum := by
      rw [← Finset.card_range w.bdd.env.bddvarnum]
      exact Finset.card_le_card fun v hv => Finset.mem_range.mpr (hV v (List.mem_toFinset.mp hv))
    have hmodels : 0 < models V.toFinset f := by
      rw [hall] at hpos
      exact Nat.pos_of_mul_pos_left hpos
    refine ⟨s', ?_⟩
    have hpow : (2 : ℚ) ^ ((w.bdd.env.bddvarnum : ℤ) - (V.toFinset.card : ℤ)) =
        2 ^ (w.bdd.env.bddvarnum - V.toFinset.card) := by
      rw [← Nat.cast_sub hcard, zpow_natCast]
    have hquot : ((models (Finset.range w.bdd.env.bddvarnum) f : ℕ) : ℚ) /
        2 ^ ((w.bdd.env.bddvarnum : ℤ) - (V.toFinset.card : ℤ)) = models V.toFinset f := by
      rw [hall, hpow, Nat.cast_mul, Nat.cast_pow, Nat.cast_ofNat]
      exact mul_div_cancel_left₀ _ (pow_ne_zero _ two_ne_zero)
    have hone : (1 : ℚ) ≤ models V.toFinset f := by exact_mod_cast hmodels
    simp only [Option.bind_some, Option.map_some]
    rw [hquot, max_eq_left hone]

theorem bddSatcount_models_two :
    (∃ s', bddSatcount 2 Bdd.twoVariables = some (models (Finset.range 2) fun a => a 0, s')) ∧
      ∃ s', bddSatcountset 2 2 Bdd.twoVariables =
        some ((models [0].toFinset (fun a => a 0) : ℚ), s') := by
  have hnum : Bdd.twoVariables.env.bddvarnum = 2 := twoVariables_varnum
  have h := bddSatcount_models (twoVariables_reached fun _ => True)
    (by show 0 < Bdd.twoVariables.env.bddvarnum; rw [hnum]; decide) twoVariables_usable.1.2
  refine ⟨hnum ▸ h.1, h.2 [0] 2 (by decide) twoVariables_usable.2.2.2 fun v _ hv x b => ?_⟩
  have hv : v ≠ 0 := fun h0 => hv (h0 ▸ List.mem_cons_self)
  exact Function.update_of_ne hv.symm b x

end MoToBuddy.Bdd
