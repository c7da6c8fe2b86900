import MoToBuddy.Bdd.Held

/-!
# Variable sets (`kernel.c`)

`bdd_makeset` conjoins the variables of a list, and `bdd_scanset` walks along the high branches of
the result. The list that comes back has each variable of the set once, in the order of the levels;
it is ascending exactly when the levels of the set are in the order of its variables
(`bddScanset_ascending_iff`).
-/

namespace MoToBuddy.Bdd

open Decision BoolFun Package

variable {P : Type*} {D : MtbddDomain P} {isPrime : ℕ → Bool} {T : Theory P} {σ : PairTable P}
  {s s' : BddState P} {w : Package P} {f : (ℕ → Bool) → Bool} {n r : ℕ} {V : List ℕ}

section

variable (D isPrime)

/-- `bdd_makeset`; the loop starts with the last variable. -/
def bddMakeset : List ℕ → BddState P → Option (ℕ × BddState P)
  | [], s => some (1, s)
  | v :: varset, s => do
    let (res, s) ← bddMakeset varset s
    let s := bddAddref s res
    let (var, s) := bddIthvar s v
    let (tmp, s) ← bddApply D isPrime res var BddOp.and.code s
    some (tmp, bddDelref s res)

end

/-- The loop of `bdd_scanset` that writes the variables. -/
def scansetLoop (s : BddState P) : ℕ → ℕ → Option (List ℕ)
  | 0, _ => none
  | fuel + 1, n =>
    if n > 1 then
      (scansetLoop s fuel (s.high n)).map (s.env.bddlevel2var (s.level n) :: ·)
    else some []

/-- `bdd_scanset`: the code that is returned, and the variables. -/
def bddScanset (r : ℕ) (s : BddState P) : Option ((ℤ × List ℕ) × BddState P) :=
  if r ≥ s.bddnodesize then some ((errorCode .illbdd, []), s.error .illbdd)
  else if 2 ≤ r ∧ s.isFree r then some ((errorCode .illbdd, []), s.error .illbdd)
  else if r < 2 then some ((0, []), s)
  else (scansetLoop s depth r).map fun varset => ((0, varset), s)

/-! ## Making a set -/

theorem bddMakeset_built (hT : T.Operates) (hs : Good T s) (hV : ∀ v ∈ V, v < s.env.bddvarnum)
    {L : List ℕ} (hL : s.Covers L) :
    ∃ r, bddMakeset T.D T.isPrime V s = some r ∧ Built T s L (fun a => V.all a) r := by
  induction V with
  | nil => exact ⟨_, rfl, .refl hs, hL, denotes_one s⟩
  | cons v V ih =>
    obtain ⟨⟨res, s₁⟩, hmake, hbuilt⟩ := ih fun u hu => hV u (List.mem_cons_of_mem v hu)
    -- the reference keeps what was made so far during the next operation
    have hheld := hbuilt.addref
    have hs₂ := hheld.proceeds.good
    dsimp only at hheld hs₂
    have hv : v < (bddAddref s₁ res).env.bddvarnum := by
      rw [hheld.proceeds.varnum]
      exact hV v List.mem_cons_self
    obtain ⟨hith, -⟩ := hs₂.ithvar hv
    have hvar := hs₂.ithvar_usable hv
    obtain ⟨⟨tmp, s₃⟩, happly, hbuilt₃, -⟩ := apply_built hT hs₂ .and hheld.result
      (hheld.covers.referenced List.mem_cons_self hheld.result.isNode) ⟨_, hvar.2, fun _ => rfl⟩
      hvar.1 hheld.covers
    have hstep := Built.trans hheld.proceeds hbuilt₃.delref
    refine ⟨(tmp, bddDelref s₃ res), ?_, hstep.proceeds, hstep.covers,
      hstep.result.congr fun a => ?_⟩
    · unfold bddMakeset
      rw [hmake]
      dsimp only [Option.bind_eq_bind, Option.bind_some]
      rw [hith]
      dsimp only
      rw [happly]
      rfl
    · show (V.all a && a v) = (a v && V.all a)
      exact Bool.and_comm _ _

/-- What `bdd_makeset` keeps, whatever the package was used for before. -/
theorem Package.Healthy.makeset (hw : w.Healthy D isPrime) (hV : ∀ v ∈ V, v < w.bdd.env.bddvarnum)
    (h : bddMakeset D isPrime V w.bdd = some (r, s')) (hok : s'.Ok) :
    Package.Healthy D isPrime { w with bdd := s' } := by
  obtain ⟨⟨σ, hc⟩, ho⟩ := hw
  have hT := full_operates D isPrime σ w.bdd.env.bddvarnum
  induction V generalizing r s' with
  | nil =>
    obtain ⟨-, rfl⟩ := Prod.mk.inj (Option.some.inj h)
    exact ⟨⟨σ, hc⟩, ho⟩
  | cons v V ih =>
    have htail : ∀ u ∈ V, u < w.bdd.env.bddvarnum := fun u hu => hV u (List.mem_cons_of_mem v hu)
    obtain ⟨⟨res, s₁⟩, hmake, hbuilt⟩ := bddMakeset_built hT hc.good htail (L := w.entries) ho
    have hheld := hbuilt.addref
    have hs₂ := hheld.proceeds.good
    dsimp only at hheld hs₂
    have hv : v < (bddAddref s₁ res).env.bddvarnum := by
      rw [hheld.proceeds.varnum]
      exact hV v List.mem_cons_self
    obtain ⟨hith, -⟩ := hs₂.ithvar hv
    have hvar := hs₂.ithvar_usable hv
    have href := hheld.covers.referenced List.mem_cons_self hheld.result.isNode
    obtain ⟨⟨tmp, s₃⟩, happly, hbuilt₃, hk₃⟩ := apply_built hT hs₂ .and hheld.result href
      ⟨_, hvar.2, fun _ => rfl⟩ hvar.1 hheld.covers
    have heq : bddMakeset D isPrime (v :: V) w.bdd = some (tmp, bddDelref s₃ res) := by
      unfold bddMakeset
      rw [show bddMakeset D isPrime V w.bdd = some (res, s₁) from hmake]
      dsimp only [Option.bind_eq_bind, Option.bind_some]
      rw [hith]
      dsimp only
      rw [show bddApply D isPrime res _ BddOp.and.code (bddAddref s₁ res) = some (tmp, s₃)
        from happly]
      rfl
    obtain ⟨-, rfl⟩ := Prod.mk.inj (Option.some.inj (heq.symm.trans h))
    -- a call and a change of a count at a time
    have hok₃ : s₃.Ok := (bddDelref_ok s₃ res).mp hok
    have hok₂ : (bddAddref s₁ res).Ok := hk₃.ok hok₃
    have h₁ := ih htail hmake ((bddAddref_ok s₁ res).mp hok₂)
    have h₂ := h₁.act (.addref res hbuilt.result.isNode) hok₂
    obtain ⟨F, hF, -⟩ := hheld.result
    have h₃ := h₂.act (.apply res _ _ tmp s₃ (fun _ => ⟨F, href, hF⟩) (fun _ => ⟨_, hvar⟩) happly)
      hok₃
    refine Healthy.delref (w := { w with bdd := s₃ }) h₃ fun hnode => ?_
    by_cases h2 : res < 2
    · exact Or.inl h2
    · have hentries : Package.entries { w with bdd := s₃ } = w.entries :=
        entries_congr (hk₃.varnum.trans hheld.proceeds.varnum) rfl
      have hcount := hbuilt₃.covers res (by omega)
      rw [List.count_cons_self] at hcount
      rw [hentries]
      exact Or.inr (hcount.imp_right fun hle => hle)

/-! ## Scanning a set -/

theorem scansetLoop_eq {M k fuel : ℕ} {t : DTree (Leaf P)} (hr : s.Reads D n t) (hb : IsBool t)
    (hs : t.Sorted M) (ha : t.Above k) (hfuel : M - k < fuel) :
    scansetLoop s fuel n = some (t.highPath.map s.env.bddlevel2var) := by
  induction fuel generalizing n t k with
  | zero => omega
  | succ fuel ih =>
    unfold scansetLoop
    cases hr with
    | const b =>
      have := BddState.Reads.toNat_lt b
      rw [if_neg (by omega)]
      rfl
    | terminal _ _ _ _ => exact hb.elim
    | @node _ low high level tl th inner key _ _ above =>
      obtain ⟨hlt, -, hah, -, hsh⟩ := hs
      have hle : k ≤ level := ha
      have hhigh : s.high n = high := congrArg BddKey.high key
      have hlevel : s.level n = level := congrArg BddKey.level key
      rw [if_pos (by omega), hhigh, hlevel, ih above hb.2 hsh hah (by omega)]
      rfl

/-- A list in ascending order is in the order of a relation when all its elements are. -/
theorem pairwise_iff_of_sorted {l : List ℕ} (hl : l.Pairwise (· < ·)) (R : ℕ → ℕ → Prop) :
    l.Pairwise R ↔ ∀ a ∈ l, ∀ b ∈ l, a < b → R a b := by
  induction l with
  | nil => simp
  | cons c l ih =>
    obtain ⟨hc, hl⟩ := List.pairwise_cons.mp hl
    rw [List.pairwise_cons, ih hl]
    constructor
    · rintro ⟨hhead, htail⟩ a ha b hb hab
      rcases List.mem_cons.mp ha with rfl | ha' <;> rcases List.mem_cons.mp hb with rfl | hb'
      · omega
      · exact hhead b hb'
      · have := hc a ha'
        omega
      · exact htail a ha' b hb' hab
    · intro h
      refine ⟨fun b hb => ?_, fun a ha b hb => ?_⟩
      · exact h c List.mem_cons_self b (List.mem_cons_of_mem c hb) (hc b hb)
      · exact h a (List.mem_cons_of_mem c ha) b (List.mem_cons_of_mem c hb)

/-- What is scanned: each variable of the set once, in the order of the levels. -/
theorem Good.scanset (h : Good T s) (hred : T.reduced)
    (hr : s.Represents T.D r fun a => V.all a) : ∃ L, bddScanset r s = some ((0, L), s) ∧
      L.Nodup ∧ (∀ v, v ∈ L ↔ v ∈ V) ∧ (L.Pairwise (· < ·) ↔
        ∀ u ∈ V, ∀ v ∈ V, u < v → s.env.bddvar2level u < s.env.bddvar2level v) := by
  obtain ⟨t, hreads, hb, hf⟩ := hr
  have ⟨hs, _⟩ := h.inv.graph.sorted hreads
  have hV := h.order.set_lt hs hf
  have hbound : ∀ l ∈ t.highPath, l < s.env.bddvarnum := fun l hl =>
    (DTree.highPath_bound hs t.above_zero hl).2
  have hmem := h.varset hred hreads hb hf
  have hsorted := DTree.highPath_pairwise hs
  have hlevel : ∀ v ∈ V, s.env.bddvar2level v ∈ t.highPath := fun v hv => by
    obtain ⟨hl, hback⟩ := h.order.level v (hV v hv)
    rw [hmem _ hl, hback]
    exact hv
  have hscan : bddScanset r s = some ((0, t.highPath.map s.env.bddlevel2var), s) := by
    obtain ⟨hsize, hfree⟩ := h.checked hreads.isNode
    unfold bddScanset
    rw [if_neg hsize, if_neg hfree]
    by_cases h2 : r < 2
    · rw [if_pos h2]
      cases hreads with
      | const b => rfl
      | terminal _ _ _ _ => exact hb.elim
      | node inner _ _ _ _ => omega
    · rw [if_neg h2, scansetLoop_eq hreads hb hs t.above_zero (Setting.depth_bound
        (T.setting s.env.bddvarnum h.num) 0)]
      rfl
  refine ⟨_, hscan, ?_, fun v => ?_, ?_⟩
  · refine List.pairwise_map.mpr ((pairwise_iff_of_sorted hsorted _).mpr fun a ha b hb hab heq => ?_)
    have h1 := (h.order.var a (hbound a ha)).2
    have h2 := (h.order.var b (hbound b hb)).2
    rw [heq, h2] at h1
    omega
  · rw [List.mem_map]
    constructor
    · rintro ⟨l, hl, rfl⟩
      exact (hmem l (hbound l hl)).mp hl
    · exact fun hv => ⟨_, hlevel v hv, (h.order.level v (hV v hv)).2⟩
  · rw [List.pairwise_map, pairwise_iff_of_sorted hsorted]
    constructor
    · intro hasc u hu v hv huv
      by_contra hle
      -- the levels of two variables differ
      have hne : s.env.bddvar2level v ≠ s.env.bddvar2level u := fun heq => by
        have h1 := (h.order.level u (hV u hu)).2
        have h2 := (h.order.level v (hV v hv)).2
        rw [heq, h1] at h2
        omega
      have hback := hasc _ (hlevel v hv) _ (hlevel u hu) (by omega)
      rw [(h.order.level v (hV v hv)).2, (h.order.level u (hV u hu)).2] at hback
      omega
    · intro hasc a ha b hb hab
      by_contra hle
      have hne : s.env.bddlevel2var b ≠ s.env.bddlevel2var a := fun heq => by
        have h1 := (h.order.var a (hbound a ha)).2
        have h2 := (h.order.var b (hbound b hb)).2
        rw [heq, h1] at h2
        omega
      have hback := hasc _ ((hmem b (hbound b hb)).mp hb) _ ((hmem a (hbound a ha)).mp ha)
        (by omega)
      rw [(h.order.var a (hbound a ha)).2, (h.order.var b (hbound b hb)).2] at hback
      omega

/-! ## Main result -/

/-- Whatever calls came before, the set that `bdd_makeset` makes of variables is scanned as those
variables, each once; they come in ascending order exactly when their levels do. -/
theorem bddScanset_ascending_iff {reset : BddState P → Prop} (hw : w.Reached D isPrime reset)
    (hV : ∀ v ∈ V, v < w.bdd.env.bddvarnum) :
    ∃ res s', bddMakeset D isPrime V w.bdd = some (res, s') ∧ (s'.Ok →
      ∃ L, bddScanset res s' = some ((0, L), s') ∧ L.Nodup ∧ (∀ v, v ∈ L ↔ v ∈ V) ∧
        (L.Pairwise (· < ·) ↔
          ∀ u ∈ V, ∀ v ∈ V, u < v → w.bdd.env.bddvar2level u < w.bdd.env.bddvar2level v)) := by
  obtain ⟨⟨σ, h⟩, -⟩ := hw.healthy
  have hT := full_operates D isPrime σ w.bdd.env.bddvarnum
  obtain ⟨⟨res, s'⟩, hmake, hbuilt⟩ := bddMakeset_built hT h.good hV (L := [])
    fun n _ => Or.inr (Nat.zero_le _)
  refine ⟨res, s', hmake, fun hok => ?_⟩
  obtain ⟨F, hF, hFV⟩ := hbuilt.result
  rw [hFV hok] at hF
  have hscan := hbuilt.proceeds.good.scanset hT.reduced hF
  have horder : s'.env.bddvar2level = w.bdd.env.bddvar2level := hbuilt.proceeds.var2level
  dsimp only at hscan
  rw [horder] at hscan
  exact hscan

theorem bddScanset_ascending_iff_two :
    ∃ res s', bddMakeset intDomain trialDivision [1, 0, 1] Bdd.twoVariables = some (res, s') ∧
      (s'.Ok → ∃ L, bddScanset res s' = some ((0, L), s') ∧ L.Nodup ∧
        (∀ v, v ∈ L ↔ v ∈ [1, 0, 1]) ∧ (L.Pairwise (· < ·) ↔
          ∀ u ∈ [1, 0, 1], ∀ v ∈ [1, 0, 1], u < v →
            Bdd.twoVariables.env.bddvar2level u < Bdd.twoVariables.env.bddvar2level v)) :=
  bddScanset_ascending_iff (twoVariables_reached fun _ => True) (by simp [Package.twoVariables])

/-- Two variables after their levels were exchanged. -/
def reversedVariables : Package UInt32 :=
  reordered { Package.twoVariables with bdd := twoReversed } [0]

/-- Variable `1` is above variable `0`, and it is scanned first. -/
theorem bddScanset_descending :
    reversedVariables.Reached intDomain trialDivision (fun _ => True) ∧
      ((bddMakeset intDomain trialDivision [0, 1] reversedVariables.bdd).bind fun r =>
        (bddScanset r.1 r.2).map fun o => (o.1, r.2.bdderrorcond)) =
          some ((0, [1, 0]), false) ∧
      ¬ [1, 0].Pairwise (· < ·) := by
  refine ⟨(twoVariables_reached _).step (.reorder [0] twoReversed twoReversed_rearranged)
    twoReversed_ok, ?_, by decide⟩
  decide +kernel

end MoToBuddy.Bdd
