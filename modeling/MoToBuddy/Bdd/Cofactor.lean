import MoToBuddy.Bdd.Memo
import MoToBuddy.Bdd.Session

/-!
# `bdd_restrict`, `bdd_constrain` and `bdd_simplify` (`bddop.c`)

The three recursions make a diagram smaller that only matters on a set. `restrictRec_computes` and
`constrainRec_computes` say which function they return: the operand after its literals were fixed,
and the operand after `DTree.nearest`. All that is promised of `bdd_simplify` is that the result
agrees with the operand on the set (`simplifyRec_agrees`).
-/

namespace MoToBuddy.Bdd

open Decision

/-! ## `bdd_restrict` -/

/-- `bddop_simplify`. -/
abbrev bddopSimplify : ℕ := 11

section

variable {P : Type*} (D : MtbddDomain P) (isPrime : ℕ → Bool)

/-- The loop of `varset2svartable` over the set, from `n` on: the marks and `quantlast`. -/
def svarsetLoop (s : BddState P) (id : ℤ) : ℕ → ℕ → (ℕ → ℤ) → ℕ → Option ((ℕ → ℤ) × ℕ)
  | 0, _, _, _ => none
  | fuel + 1, n, marks, quantlast =>
    if n < 2 then some (marks, quantlast)
    else if s.low n = 0 then
      svarsetLoop s id fuel (s.high n) (Function.update marks (s.level n) id) (s.level (s.high n))
    else
      svarsetLoop s id fuel (s.low n) (Function.update marks (s.level n) (-id)) (s.level (s.low n))

/-- `varset2svartable`, for a set that is not empty: `quantlast` and the state with the marks. -/
def varset2svartable (s : BddState P) (r : ℕ) : Option (ℕ × BddState P) :=
  let id := s.env.quantvarsetID + 1
  let (id, marks) := if id = intMax / 2 then
      (1, fun level => if level < s.env.bddvarnum then 0 else s.env.quantvarset level)
    else (id, s.env.quantvarset)
  (svarsetLoop s id depth r marks 0).map fun (marks, quantlast) => (quantlast, s.setMarks marks id)

/-- `INSVARSET`. -/
def BddState.insvarset (s : BddState P) (level : ℕ) : Bool :=
  ((s.env.quantvarset level).natAbs : ℤ) = s.env.quantvarsetID

/-- `restrict_rec`. -/
def restrictRec (miscid : UInt32) (quantlast : ℕ) : ℕ → ℕ → BddState P → Option (ℕ × BddState P)
  | 0, _, _ => none
  | fuel + 1, r, s =>
    if r < 2 ∨ s.level r > quantlast then some (r, s)
    else memo .misc (hash2 (.ofNat r) miscid) (fun e => e.a = r && e.c = miscid.toNat)
      (fun e res => { e with
        a := r
        c := miscid.toNat
        res := res })
      (fun s =>
        if s.insvarset (s.level r) then
          if s.env.quantvarset (s.level r) > 0 then restrictRec miscid quantlast fuel (s.high r) s
          else restrictRec miscid quantlast fuel (s.low r) s
        else
          branch (fun s => restrictRec miscid quantlast fuel (s.low r) s)
            (fun s => restrictRec miscid quantlast fuel (s.high r) s) (nodeAt D isPrime r) s) s

/-- `bdd_restrict`. -/
def bddRestrict (r var : ℕ) : BddState P → Option (ℕ × BddState P) :=
  checka r (checka var fun s =>
    if var < 2 then some (r, s)
    else do
      let (quantlast, s) ← varset2svartable s var
      operation isPrime (restrictRec D isPrime (restrictId var) quantlast depth r) s)

/-! ## `bdd_constrain` -/

/-- `constrain_rec`. -/
def constrainRec : ℕ → ℕ → ℕ → BddState P → Option (ℕ × BddState P)
  | 0, _, _, _ => none
  | fuel + 1, f, c, s =>
    if c = 1 then some (f, s)
    else if f < 2 then some (f, s)
    else if c = f then some (1, s)
    else if c = 0 then some (0, s)
    else memo .misc (hash2 (.ofNat f) (.ofNat c))
      (fun e => e.a = f && e.b = c && e.c = cacheidConstrain.toNat)
      (fun e res => { e with
        a := f
        b := c
        c := cacheidConstrain.toNat
        res := res })
      (fun s =>
        if s.level f = s.level c then
          if s.low c = 0 then constrainRec fuel (s.high f) (s.high c) s
          else if s.high c = 0 then constrainRec fuel (s.low f) (s.low c) s
          else
            branch (fun s => constrainRec fuel (s.low f) (s.low c) s)
              (fun s => constrainRec fuel (s.high f) (s.high c) s) (nodeAt D isPrime f) s
        else if s.level f < s.level c then
          branch (fun s => constrainRec fuel (s.low f) c s)
            (fun s => constrainRec fuel (s.high f) c s) (nodeAt D isPrime f) s
        else
          if s.low c = 0 then constrainRec fuel f (s.high c) s
          else if s.high c = 0 then constrainRec fuel f (s.low c) s
          else
            branch (fun s => constrainRec fuel f (s.low c) s)
              (fun s => constrainRec fuel f (s.high c) s) (nodeAt D isPrime c) s) s

/-- `bdd_constrain`. -/
def bddConstrain (f c : ℕ) : BddState P → Option (ℕ × BddState P) :=
  checka f (checka c (operation isPrime (constrainRec D isPrime depth f c)))

/-! ## `bdd_simplify` -/

/-- `simplify_rec`. -/
def simplifyRec : ℕ → ℕ → ℕ → BddState P → Option (ℕ × BddState P)
  | 0, _, _, _ => none
  | fuel + 1, f, d, s =>
    if d = 1 ∨ f < 2 then some (f, s)
    else if d = f then some (1, s)
    else if d = 0 then some (0, s)
    else memo .apply (hash3 (.ofNat f) (.ofNat d) (.ofNat bddopSimplify))
      (fun e => e.a = f && e.b = d && e.c = bddopSimplify)
      (fun e res => { e with
        a := f
        b := d
        c := bddopSimplify
        res := res })
      (fun s =>
        if s.level f = s.level d then
          if s.low d = 0 then simplifyRec fuel (s.high f) (s.high d) s
          else if s.high d = 0 then simplifyRec fuel (s.low f) (s.low d) s
          else
            branch (fun s => simplifyRec fuel (s.low f) (s.low d) s)
              (fun s => simplifyRec fuel (s.high f) (s.high d) s) (nodeAt D isPrime f) s
        else if s.level f < s.level d then
          branch (fun s => simplifyRec fuel (s.low f) d s)
            (fun s => simplifyRec fuel (s.high f) d s) (nodeAt D isPrime f) s
        else
          pushed (applyRec D isPrime .or depth (s.low d) (s.high d)) (simplifyRec fuel f) s) s

/-- `bdd_simplify`. -/
def bddSimplify (f d : ℕ) : BddState P → Option (ℕ × BddState P) :=
  checka f (checka d (operation isPrime (simplifyRec D isPrime depth f d)))

end

variable {P : Type*} {D : MtbddDomain P} {T : Theory P} {S : Setting P} {s s' : BddState P}

/-! ## One branch -/

section

variable {ops : List (DTree (Leaf P))} {f f' : (ℕ → Bool) → Bool} {ok : Prop} {t : DTree (Leaf P)}
  {level M : ℕ} {b : Bool}

/-- The result for one side of the operands, if the function is that of this side. -/
theorem Computes.side (h : Computes (ops.map (·.cof level b)) f' ok t)
    (hops : ∀ u ∈ ops, u.Sorted M ∧ u.Above level) (hroot : ∃ c d, DTree.node level c d ∈ ops)
    (hf : ∀ x, f x = f' x) : Computes ops f ok t := by
  obtain ⟨c, d, hmem⟩ := hroot
  refine ⟨h.isBool, fun k hk => ?_, fun hok x => (h.eval hok x).trans (hf x).symm⟩
  have hle : k ≤ level := hk _ hmem
  exact (h.below hops).mono (by omega)

end

/-! ## `bdd_constrain` -/

/-- What `bdd_constrain` makes of the trees of its operands. -/
def constrainFn (tf tc : DTree (Leaf P)) (x : ℕ → Bool) : Bool :=
  evalBool tf ((boolTree tc).nearest x)

/-- The function splits at a level that both trees start at or skip. -/
theorem constrainFn_split {tf tc : DTree (Leaf P)} {M k : ℕ} (hf : tf.Sorted M) (haf : tf.Above k)
    (hc : tc.Sorted M) (hac : tc.Above k) (hz : (boolTree tc).isZero = false) (x : ℕ → Bool) :
    constrainFn tf tc x = constrainFn (tf.cof k (((boolTree tc).forced k).getD (x k)))
      (tc.cof k (((boolTree tc).forced k).getD (x k))) x := by
  have h := DTree.nearest_split (t := boolTree tf) (c := boolTree tc) (M := M) (k := k)
    (sorted_boolTree.mpr hf) (above_boolTree.mpr haf) (sorted_boolTree.mpr hc)
    (above_boolTree.mpr hac) hz x
  simpa only [constrainFn, ← boolTree_cof, eval_boolTree] using h

section

variable {k f c : ℕ} {tf tc : DTree (Leaf P)}

/-- `p` reads `0` at a side of an operand where the operand's tree is `false`. -/
theorem Cofactors.eq_zero_iff {level : ℕ} {p : Bool → BddState P → ℕ}
    (h : Cofactors S s level tc p) (hb : IsBool tc) (b : Bool) :
    p b s = 0 ↔ ((boolTree tc).cof level b).isZero = true := by
  rw [← boolTree_cof]
  exact (h s (.refl s) b).eq_zero_iff (hb.cof level b)

/-- The recursion stops at once at the empty set. -/
theorem constrainRec_zero (D : MtbddDomain P) (isPrime : ℕ → Bool) (fuel f : ℕ) (s : BddState P) :
    ∃ b : Bool, constrainRec D isPrime (fuel + 1) f 0 s = some (b.toNat, s) := by
  unfold constrainRec
  rw [if_neg (by decide)]
  match f with
  | 0 => exact ⟨false, rfl⟩
  | 1 => exact ⟨true, rfl⟩
  | f + 2 => exact ⟨false, by rw [if_neg (by omega), if_neg (by omega), if_pos rfl]; rfl⟩

theorem constrainRec_computes (hred : S.reduced)
    (hcache : Memoizes S .misc (fun _ => True) cacheidConstrain.toNat (fun a b => [a, b])
      fun ts => Computes ts (onTrees constrainFn ts)) {fuel : ℕ} (hs : Inv S s)
    (hf : Operand S s f tf) (hc : Operand S s c tc) (hbf : IsBool tf) (hbc : IsBool tc)
    (hz : c ≠ 0) (haf : tf.Above k) (hac : tc.Above k) (hfuel : S.top - k < fuel) :
    Returns S s (Computes [tf, tc] (constrainFn tf tc))
      (constrainRec S.D S.isPrime fuel f c s) := by
  induction fuel generalizing k s f c tf tc with
  | zero => omega
  | succ fuel ih =>
    unfold constrainRec
    by_cases h1 : c = 1
    · rw [if_pos h1]
      refine (Post.operand hs hf (.operand List.mem_cons_self hbf fun x => ?_)).returns
      unfold constrainFn
      rw [hc.const (b := true) h1]
      rfl
    rw [if_neg h1]
    by_cases h2 : f < 2
    · rw [if_pos h2]
      refine (Post.operand hs hf (.operand List.mem_cons_self hbf fun x => ?_)).returns
      obtain ⟨b, -, rfl⟩ := hf.eq_toNat h2
      rfl
    rw [if_neg h2]
    have hzero : (boolTree tc).isZero = false := by
      rw [← Bool.not_eq_true, ← hc.eq_zero_iff hbc]
      exact hz
    by_cases heq : c = f
    · rw [if_pos heq]
      refine (Post.const hs true (.const true fun x => ?_)).returns
      subst heq
      unfold constrainFn
      rw [hf.unique hc.reads, ← eval_boolTree]
      exact DTree.eval_nearest (sorted_boolTree.mpr hc.sorted)
        (reduced_boolTree (hs.reduced hred hc hbc) hbc) hzero x
    rw [if_neg heq, if_neg hz]
    refine hcache.returns hs (fun _ _ => trivial)
      (fun s' he => .cons (hf.evo he).reads (.cons (hc.evo he).reads .nil)) (fun e hhit => ?_)
      (fun _ _ => ⟨rfl, rfl, rfl⟩) ?_
    · simp only [Bool.and_eq_true, decide_eq_true_eq] at hhit
      exact ⟨hhit.2, by rw [hhit.1.1, hhit.1.2]⟩
    -- the three ways to split the operands have one shape
    let B : ℕ → (Bool → BddState P → ℕ) → (Bool → BddState P → ℕ) →
        Option (ℕ × BddState P) := fun n pf pc =>
      if pc false s = 0 then constrainRec S.D S.isPrime fuel (pf true s) (pc true s) s
      else if pc true s = 0 then constrainRec S.D S.isPrime fuel (pf false s) (pc false s) s
      else branch (fun s => constrainRec S.D S.isPrime fuel (pf false s) (pc false s) s)
        (fun s => constrainRec S.D S.isPrime fuel (pf true s) (pc true s) s)
        (nodeAt S.D S.isPrime n) s
    have hmid : branch (fun s => constrainRec S.D S.isPrime fuel (s.low f) c s)
        (fun s => constrainRec S.D S.isPrime fuel (s.high f) c s) (nodeAt S.D S.isPrime f) s =
        B f (childOf f) fun _ _ => c := by
      simp only [B, if_neg hz]
      rfl
    rw [hmid]
    refine split_two (B := B) hf hc haf hac (Or.inl (hf.level_lt hbf h2))
      fun n level pf pc hsplit => ?_
    have hpf := hsplit.cofactors (tf, pf) List.mem_cons_self
    have hpc := hsplit.cofactors (tc, pc) (by simp)
    have hf' := (hsplit.sorted tf List.mem_cons_self).2
    have hc' := (hsplit.sorted tc (by simp)).2
    have hle := hsplit.le
    have hltop := hsplit.lt
    have hF := constrainFn_split hf.sorted hf' hc.sorted hc' hzero
    have hrec : ∀ (b : Bool) (s' : BddState P), Inv S s' → Evo S.D s s' → pc b s' ≠ 0 →
        Returns S s' (Computes ([tf, tc].map (·.cof level b))
          (constrainFn (tf.cof level b) (tc.cof level b)))
          (constrainRec S.D S.isPrime fuel (pf b s') (pc b s') s') := fun b s' hi he hb =>
      ih hi (hpf s' he b) (hpc s' he b) (hbf.cof _ b) (hbc.cof _ b) hb (hf'.cof hf.sorted b)
        (hc'.cof hc.sorted b) (by omega)
    have hside : ∀ b, (boolTree tc).forced level = some b → pc b s ≠ 0 →
        Returns S s (Computes [tf, tc] (constrainFn tf tc))
          (constrainRec S.D S.isPrime fuel (pf b s) (pc b s) s) := fun b hb hne =>
      (hrec b s hs (.refl s) hne).mono fun ok t h =>
        h.side hsplit.sorted hsplit.root fun x => by rw [hF, hb, Option.getD_some]
    have hlow := hpc.eq_zero_iff hbc false
    have hhigh := hpc.eq_zero_iff hbc true
    have hboth : pc false s = 0 → pc true s ≠ 0 := by
      intro hl hh
      have hno := (reduced_boolTree (hs.reduced hred hc hbc) hbc).isZero_cof hzero (hlow.mp hl)
      exact Bool.false_ne_true (hno.symm.trans (hhigh.mp hh))
    show Returns S s _ (B n pf pc)
    simp only [B]
    by_cases hl : pc false s = 0
    · rw [if_pos hl]
      refine hside true ?_ (hboth hl)
      unfold DTree.forced
      rw [if_pos (hlow.mp hl)]
    rw [if_neg hl]
    by_cases hh : pc true s = 0
    · rw [if_pos hh]
      refine hside false ?_ hl
      unfold DTree.forced
      rw [if_neg (fun h => hl (hlow.mpr h)), if_pos (hhigh.mp hh)]
    rw [if_neg hh]
    have hnone : (boolTree tc).forced level = none := by
      unfold DTree.forced
      rw [if_neg (fun h => hl (hlow.mpr h)), if_neg (fun h => hh (hhigh.mpr h))]
    have hkeep : ∀ b s', Evo S.D s s' → pc b s ≠ 0 → pc b s' ≠ 0 := by
      intro b s' he hne h0
      apply hne
      rw [hpc.eq_zero_iff hbc b, ← boolTree_cof]
      exact ((hpc s' he b).eq_zero_iff (hbc.cof level b)).mp h0
    refine branch_computes hltop hsplit.level_eq hsplit.sorted hsplit.root
      (hrec false s hs (.refl s) hl) (fun s' hi he => hrec true s' hi he (hkeep true s' he hh))
      fun x => ?_
    refine (hF x).trans ?_
    rw [hnone, Option.getD_none]
    cases x level <;> rfl

end

/-! ## `bdd_restrict` -/

/-- The mark that `varset2svartable` gives a level. -/
def literalMark (id old : ℤ) : Option Bool → ℤ
  | some true => id
  | some false => -id
  | none => old

/-- What `bdd_restrict` makes of the tree of its operand. -/
def restrictFn (tv t : DTree (Leaf P)) (x : ℕ → Bool) : Bool := evalBool t ((boolTree tv).fixed x)

/-- The cube `var`, with its marks. -/
structure Cube (S : Setting P) (s : BddState P) (var : ℕ) (tv : DTree (Leaf P))
    (quantlast : ℕ) : Prop where
  operand : Operand S s var tv
  marked : ∀ k < S.top, (boolTree tv).literal k =
    if s.insvarset k then some (decide (s.env.quantvarset k > 0)) else none
  last : S.top ≤ quantlast

theorem Cube.evo {var quantlast : ℕ} {tv : DTree (Leaf P)} (h : Cube S s var tv quantlast)
    (he : Evo S.D s s') : Cube S s' var tv quantlast := by
  refine ⟨h.operand.evo he, fun k hk => ?_, h.last⟩
  unfold BddState.insvarset
  rw [he.env]
  exact h.marked k hk

theorem svarsetLoop_spec {id : ℤ} {fuel k n last : ℕ} {marks : ℕ → ℤ} {t : DTree (Leaf P)}
    (hn : Operand S s n t) (hb : IsBool t) (ha : t.Above k) (hlast : 2 ≤ n ∨ S.top ≤ last)
    (hfuel : S.top - k < fuel) :
    ∃ marks' last', svarsetLoop s id fuel n marks last = some (marks', last') ∧
      (∀ j, marks' j = literalMark id (marks j) ((boolTree t).literal j)) ∧ S.top ≤ last' := by
  induction fuel generalizing k n last marks t with
  | zero => omega
  | succ fuel ih =>
    unfold svarsetLoop
    by_cases h2 : n < 2
    · rw [if_pos h2]
      obtain ⟨b, -, rfl⟩ := hn.eq_toNat h2
      exact ⟨marks, last, rfl, fun _ => rfl, hlast.resolve_left (by omega)⟩
    rw [if_neg h2]
    have hlt := hn.level_lt hb h2
    have hk := hn.le_level ha hlt
    have hcof := hn.cofactors rfl hlt s (.refl s)
    obtain ⟨tl, th, ht⟩ := hn.node_of_level hlt
    have hsorted := ht ▸ hn.sorted
    have hbool := ht ▸ hb
    rw [ht, boolTree_node, DTree.literal_node]
    have hlow : Operand S s (s.low n) tl := by
      have := hcof false
      rw [ht, DTree.cof_node] at this
      exact this
    have hhigh : Operand S s (s.high n) th := by
      have := hcof true
      rw [ht, DTree.cof_node] at this
      exact this
    have hchild : ∀ m, 2 ≤ m ∨ S.top ≤ s.level m := fun m => by
      by_cases hm : m < 2
      · exact Or.inr (hn.top m hm)
      · exact Or.inl (by omega)
    -- the mark at the node's level is not written again
    have hmark : ∀ (u : DTree (Leaf P)) (b : Bool), u.Sorted S.top → u.Above (s.level n + 1) →
        ∀ j, literalMark id (Function.update marks (s.level n) (literalMark id 0 (some b)) j)
            ((boolTree u).literal j) =
          literalMark id (marks j) (Function.update (boolTree u).literal (s.level n) (some b) j) := by
      intro u b hsu hau j
      by_cases hj : j = s.level n
      · subst hj
        rw [Function.update_self, Function.update_self,
          DTree.literal_of_above (sorted_boolTree.mpr hsu) (above_boolTree.mpr hau)]
        cases b <;> rfl
      · rw [Function.update_of_ne hj, Function.update_of_ne hj]
    by_cases hz : s.low n = 0
    · rw [if_pos hz, if_pos ((hlow.eq_zero_iff hbool.1).mp hz)]
      obtain ⟨marks', last', hloop, hmarks, hle⟩ := @ih (s.level n + 1) (s.high n)
        (s.level (s.high n)) (Function.update marks (s.level n) id) th hhigh hbool.2 hsorted.2.2.1
        (hchild _) (by omega)
      exact ⟨marks', last', hloop,
        fun j => (hmarks j).trans (hmark th true hhigh.sorted hsorted.2.2.1 j), hle⟩
    · rw [if_neg hz, if_neg (fun h => hz ((hlow.eq_zero_iff hbool.1).mpr h))]
      obtain ⟨marks', last', hloop, hmarks, hle⟩ := @ih (s.level n + 1) (s.low n)
        (s.level (s.low n)) (Function.update marks (s.level n) (-id)) tl hlow hbool.1 hsorted.2.1
        (hchild _) (by omega)
      exact ⟨marks', last', hloop,
        fun j => (hmarks j).trans (hmark tl false hlow.sorted hsorted.2.1 j), hle⟩

/-- The marks tell the literals. -/
theorem literalMark_spec {id old : ℤ} (hid : 0 < id) (hle : old < id) (hge : -id < old)
    (l : Option Bool) :
    l = if ((literalMark id old l).natAbs : ℤ) = id then some (decide (literalMark id old l > 0))
      else none := by
  match l with
  | some true =>
    have habs : ((literalMark id old (some true)).natAbs : ℤ) = id := by
      show (id.natAbs : ℤ) = id
      omega
    rw [if_pos habs]
    exact congrArg some (decide_eq_true hid).symm
  | some false =>
    have habs : ((literalMark id old (some false)).natAbs : ℤ) = id := by
      show ((-id).natAbs : ℤ) = id
      omega
    rw [if_pos habs]
    have hneg : ¬ -id > 0 := by omega
    exact congrArg some (decide_eq_false hneg).symm
  | none =>
    have hne : ¬ ((literalMark id old none).natAbs : ℤ) = id := by
      show ¬ (old.natAbs : ℤ) = id
      omega
    rw [if_neg hne]

/-- The marks that `varset2svartable` leaves are those of the literals. -/
theorem varset2svartable_spec {var : ℕ} {tv : DTree (Leaf P)} (hv : Operand S s var tv)
    (hb : IsBool tv) (h2 : 2 ≤ var) (hm : MarksInv s S.top) (hsigned : s.Signed)
    (hnum : s.env.bddvarnum = S.top) :
    ∃ quantlast marks id, varset2svartable s var = some (quantlast, s.setMarks marks id) ∧
      (∀ k < S.top, (boolTree tv).literal k =
        if (s.setMarks marks id).insvarset k then some (decide (marks k > 0)) else none) ∧
      S.top ≤ quantlast ∧
      (s.env.quantvarsetID + 1 < intMax → MarksInv (s.setMarks marks id) S.top) ∧
      (s.setMarks marks id).Signed := by
  obtain ⟨hpos, hlt, hle⟩ := hm
  have hfuel := S.depth_bound 0
  -- `marks₀` are the marks before the loop
  have main : ∀ (id : ℤ) (marks₀ : ℕ → ℤ), 0 < id → (s.env.quantvarsetID + 1 < intMax → id < intMax) →
      (∀ k < S.top, marks₀ k < id ∧ -id < marks₀ k) →
      ∃ quantlast marks, svarsetLoop s id depth var marks₀ 0 = some (marks, quantlast) ∧
        (∀ k < S.top, (boolTree tv).literal k =
          if (s.setMarks marks id).insvarset k then some (decide (marks k > 0)) else none) ∧
        S.top ≤ quantlast ∧
        (s.env.quantvarsetID + 1 < intMax → MarksInv (s.setMarks marks id) S.top) ∧
        (s.setMarks marks id).Signed := by
    intro id marks₀ hid hmax hold
    obtain ⟨marks, last, hloop, hmarks, hlast⟩ := @svarsetLoop_spec P S s id depth 0 var 0 marks₀ tv
      hv hb tv.above_zero (Or.inl h2) hfuel
    have hrange : ∀ k < S.top, marks k ≤ id ∧ -id ≤ marks k := by
      intro k hk
      have := hold k hk
      rw [hmarks]
      match (boolTree tv).literal k with
      | some true => exact ⟨Int.le_refl id, by show -id ≤ id; omega⟩
      | some false => exact ⟨by show -id ≤ id; omega, Int.le_refl (-id)⟩
      | none => exact ⟨by show marks₀ k ≤ id; omega, by show -id ≤ marks₀ k; omega⟩
    refine ⟨last, marks, hloop, fun k hk => ?_, hlast, fun h => ⟨hid.le, hmax h, fun k hk =>
      (hrange k hk).1⟩, fun k hk => (hrange k (hnum ▸ hk)).2⟩
    have hspec := literalMark_spec hid (hold k hk).1 (hold k hk).2 ((boolTree tv).literal k)
    rw [← hmarks] at hspec
    unfold BddState.insvarset
    simp only [decide_eq_true_eq]
    exact hspec
  unfold varset2svartable
  dsimp only
  by_cases hid : s.env.quantvarsetID + 1 = intMax / 2
  · rw [if_pos hid]
    dsimp only
    obtain ⟨last, marks, hloop, hrest⟩ := main 1
      (fun level => if level < s.env.bddvarnum then 0 else s.env.quantvarset level) Int.one_pos
      (fun _ => by decide) fun k hk => by
        rw [hnum, if_pos hk]
        decide
    rw [hloop]
    exact ⟨last, marks, 1, rfl, hrest⟩
  · rw [if_neg hid]
    dsimp only
    obtain ⟨last, marks, hloop, hrest⟩ := main (s.env.quantvarsetID + 1) s.env.quantvarset
      (by omega) id fun k hk => by
        have h1 := hle k hk
        have h2 := hsigned k (hnum.symm ▸ hk)
        omega
    rw [hloop]
    exact ⟨last, marks, _, rfl, hrest⟩

section

variable {var quantlast : ℕ} {tv : DTree (Leaf P)}

theorem restrictRec_computes {miscid : UInt32}
    (hcache : Memoizes S .misc (fun s => s.Reads S.D var tv) miscid.toNat (fun a _ => [a])
      fun ts => Computes ts (onTree (restrictFn tv) ts)) {fuel k r : ℕ} {t : DTree (Leaf P)}
    (hs : Inv S s) (hv : Cube S s var tv quantlast) (hr : Operand S s r t) (hb : IsBool t)
    (ha : t.Above k) (hfuel : S.top - k < fuel) :
    Returns S s (Computes [t] (restrictFn tv t))
      (restrictRec S.D S.isPrime miscid quantlast fuel r s) := by
  induction fuel generalizing k s r t with
  | zero => omega
  | succ fuel ih =>
    unfold restrictRec
    by_cases hdone : r < 2 ∨ s.level r > quantlast
    · rw [if_pos hdone]
      refine (Post.operand hs hr (.operand List.mem_cons_self hb fun x => ?_)).returns
      obtain ⟨b, rfl⟩ : ∃ b, t = .leaf (.const b) := by
        by_cases h2 : r < 2
        · obtain ⟨b, -, hb⟩ := hr.eq_toNat h2
          exact ⟨b, hb⟩
        · have hlt := hr.level_lt hb h2
          have hlast := hv.last
          have hgt := hdone.resolve_left h2
          omega
      rfl
    rw [if_neg hdone]
    have hlt := hr.level_lt hb (fun h => hdone (Or.inl h))
    have hk := hr.le_level ha hlt
    have hcof := hr.cofactors rfl hlt
    have hmem : ∀ u ∈ [t], u.Sorted S.top ∧ u.Above (s.level r) := fun u hu => by
      rw [List.mem_singleton.mp hu]
      exact ⟨hr.sorted, hr.above⟩
    have hroot := hr.root hlt (List.mem_singleton_self t)
    have hrec : ∀ (c : Bool) (s' : BddState P), Inv S s' → Evo S.D s s' →
        Returns S s' (Computes ([t].map (·.cof (s.level r) c))
          (restrictFn tv (t.cof (s.level r) c)))
          (restrictRec S.D S.isPrime miscid quantlast fuel (childOf r c s') s') :=
      fun c s' hi he => ih hi (hv.evo he) (hcof s' he c) (hb.cof _ c)
        (hr.above.cof hr.sorted c) (by omega)
    have hF : ∀ x, restrictFn tv t x = restrictFn tv
        (t.cof (s.level r) (((boolTree tv).literal (s.level r)).getD (x (s.level r)))) x := fun x => by
      have h := DTree.eval_fixed (boolTree t) (s.level r) (boolTree tv) x
      rw [← boolTree_cof, eval_boolTree, eval_boolTree] at h
      exact h
    refine hcache.returns hs (fun s' he => (hv.evo he).operand.reads)
      (fun s' he => .cons (hr.evo he).reads .nil) (fun e hhit => ?_) (fun _ _ => ⟨rfl, rfl, rfl⟩) ?_
    · rw [Bool.and_eq_true, decide_eq_true_eq, decide_eq_true_eq] at hhit
      exact ⟨hhit.2, congrArg (fun a => [a]) hhit.1⟩
    have hmarked := hv.marked (s.level r) hlt
    by_cases hin : s.insvarset (s.level r) = true
    · rw [if_pos hin]
      rw [if_pos hin] at hmarked
      by_cases hpos : s.env.quantvarset (s.level r) > 0
      · rw [if_pos hpos]
        rw [decide_eq_true hpos] at hmarked
        refine (hrec true s hs (.refl s)).mono fun ok u h => h.side hmem hroot fun x => ?_
        exact (hF x).trans (by rw [hmarked, Option.getD_some])
      · rw [if_neg hpos]
        rw [decide_eq_false hpos] at hmarked
        refine (hrec false s hs (.refl s)).mono fun ok u h => h.side hmem hroot fun x => ?_
        exact (hF x).trans (by rw [hmarked, Option.getD_some])
    · rw [if_neg hin]
      rw [if_neg hin] at hmarked
      refine branch_computes hlt (fun s' he => hr.level_evo hlt he) hmem hroot
        (hrec false s hs (.refl s)) (hrec true) fun x => (hF x).trans ?_
      rw [hmarked, Option.getD_none]
      cases x (s.level r) <;> rfl

end

/-! ## `bdd_simplify` -/

/-- A plain tree at the levels of `u` that agrees with it where `d` holds. -/
structure Agrees (u d : DTree (Leaf P)) (ok : Prop) (t : DTree (Leaf P)) : Prop where
  isBool : IsBool t
  above : ∀ k, u.Above k → t.Above k
  eval : ok → ∀ x, evalBool d x = true → evalBool t x = evalBool u x

/-- What `bdd_simplify` promises, for the trees of its operands. -/
def agreesWhere : List (DTree (Leaf P)) → Prop → DTree (Leaf P) → Prop
  | [u, d] => Agrees u d
  | _ => fun _ _ => False

theorem Agrees.lasting (u d : DTree (Leaf P)) : Lasting (Agrees u d) :=
  fun _ _ _ hok h => ⟨h.isBool, h.above, fun h' => h.eval (hok h')⟩

theorem agreesWhere_lasting (ts : List (DTree (Leaf P))) : Lasting (agreesWhere ts) := by
  match ts with
  | [u, d] => exact Agrees.lasting u d
  | [] | [_] | _ :: _ :: _ :: _ => exact fun _ _ _ _ h => h

section

variable {u d : DTree (Leaf P)} {M k level : ℕ}

theorem Agrees.self (hb : IsBool u) (ok : Prop) : Agrees u d ok u :=
  ⟨hb, fun _ h => h, fun _ _ _ => rfl⟩

theorem Agrees.const (b : Bool) (ok : Prop) (h : ∀ x, evalBool d x = true → evalBool u x = b) :
    Agrees u d ok (.leaf (.const b)) := ⟨trivial, fun _ _ => trivial, fun _ x hx => (h x hx).symm⟩

/-- The result for one side, if the other side of `d` is `false`. -/
theorem Agrees.side {b : Bool} {ok : Prop} {t : DTree (Leaf P)} (hs : u.Sorted M)
    (hu : ∃ low high, u = .node level low high)
    (hz : ((boolTree d).cof level !b).isZero = true)
    (h : Agrees (u.cof level b) (d.cof level b) ok t) : Agrees u d ok t := by
  obtain ⟨low, high, rfl⟩ := hu
  refine ⟨h.isBool, fun k hk => ?_, fun hok x hx => ?_⟩
  · have hle : k ≤ level := hk
    exact (h.above _ (DTree.Above.cof hs (Nat.le_refl level) b)).mono (by omega)
  · have hxb : x level = b := by
      by_contra hne
      have hnot : x level = !b := Bool.eq_not.mpr hne
      rw [← eval_boolTree, ← DTree.eval_cof _ level, hnot, DTree.isZero_iff.mp hz] at hx
      exact Bool.false_ne_true hx
    rw [← evalBool_cof d level, hxb] at hx
    rw [h.eval hok x hx, ← evalBool_cof (.node level low high) level x, hxb]

/-- A node on top of the results for both sides. -/
theorem Agrees.join {check : Bool} {ok : Prop} {tl th t : DTree (Leaf P)} (hs : u.Sorted M)
    (hu : ∃ low high, u = .node level low high)
    (hl : Agrees (u.cof level false) (d.cof level false) ok tl)
    (hh : Agrees (u.cof level true) (d.cof level true) ok th) (hj : Join D check level tl th t) :
    Agrees u d ok t := by
  obtain ⟨low, high, rfl⟩ := hu
  have hal := hl.above _ (DTree.Above.cof hs (Nat.le_refl level) false)
  refine ⟨hj.isBool hl.isBool hh.isBool, fun k hk => (hj.above hal).mono hk, fun hok x hx => ?_⟩
  rw [← evalBool_cof d level] at hx
  rw [hj.evalBool, ← evalBool_cof (.node level low high) level x]
  cases hxl : x level
  · rw [hxl] at hx
    exact hl.eval hok x hx
  · rw [hxl] at hx
    exact hh.eval hok x hx

end

section

variable {k f d : ℕ} {tf td : DTree (Leaf P)}

theorem simplifyRec_agrees (hS : S.Operators)
    (hcache : Memoizes S .apply (fun _ => True) bddopSimplify (fun a b => [a, b]) agreesWhere)
    {fuel : ℕ} (hs : Inv S s) (hf : Operand S s f tf) (hd : Operand S s d td) (hbf : IsBool tf)
    (hbd : IsBool td) (haf : tf.Above k) (had : td.Above k) (hfuel : S.top - k < fuel) :
    Returns S s (Agrees tf td) (simplifyRec S.D S.isPrime fuel f d s) := by
  induction fuel generalizing k s f d tf td with
  | zero => omega
  | succ fuel ih =>
    unfold simplifyRec
    by_cases h1 : d = 1 ∨ f < 2
    · rw [if_pos h1]
      exact (Post.operand hs hf (.self hbf _)).returns
    rw [if_neg h1]
    have hf2 : ¬ f < 2 := fun h => h1 (Or.inr h)
    by_cases heq : d = f
    · rw [if_pos heq]
      subst heq
      exact (Post.const hs true (.const true _ fun x hx => hf.unique hd.reads ▸ hx)).returns
    rw [if_neg heq]
    by_cases hz : d = 0
    · rw [if_pos hz]
      refine (Post.const hs false (.const false _ fun x hx => ?_)).returns
      rw [hd.evalBool_const (b := false) hz] at hx
      exact absurd hx Bool.false_ne_true
    rw [if_neg hz]
    show Returns S s (agreesWhere [tf, td]) _
    refine hcache.returns hs (fun _ _ => trivial)
      (fun s' he => .cons (hf.evo he).reads (.cons (hd.evo he).reads .nil)) (fun e hhit => ?_)
      (fun _ _ => ⟨rfl, rfl, rfl⟩) ?_
    · simp only [Bool.and_eq_true, decide_eq_true_eq] at hhit
      exact ⟨hhit.2, by rw [hhit.1.1, hhit.1.2]⟩
    have hltf := hf.level_lt hbf hf2
    have hltd := hd.level_lt hbd (by omega)
    have hkf := hf.le_level haf hltf
    have hkd := hd.le_level had hltd
    have hpf := hf.cofactors rfl hltf
    obtain ⟨tl, th, htf⟩ := hf.node_of_level hltf
    have hroot : ∃ low high, tf = .node (s.level f) low high := ⟨tl, th, htf⟩
    -- at the level of `f`, where `d` is split if it starts there
    have hsplit : ∀ pd : Bool → BddState P → ℕ, Cofactors S s (s.level f) td pd →
        td.Above (s.level f) → ∀ (b : Bool) (s' : BddState P), Inv S s' → Evo S.D s s' →
        Returns S s' (Agrees (tf.cof (s.level f) b) (td.cof (s.level f) b))
          (simplifyRec S.D S.isPrime fuel (childOf f b s') (pd b s') s') :=
      fun pd hpd had' b s' hi he => ih hi (hpf s' he b) (hpd s' he b) (hbf.cof _ b) (hbd.cof _ b)
        (hf.above.cof hf.sorted b) (had'.cof hd.sorted b) (by omega)
    have hnode : ∀ pd : Bool → BddState P → ℕ, Cofactors S s (s.level f) td pd →
        td.Above (s.level f) → Returns S s (Agrees tf td)
          (branch (fun s => simplifyRec S.D S.isPrime fuel (childOf f false s) (pd false s) s)
            (fun s => simplifyRec S.D S.isPrime fuel (childOf f true s) (pd true s) s)
            (nodeAt S.D S.isPrime f) s) := fun pd hpd had' =>
      branch_node hltf (fun s' he => hf.level_evo hltf he) (Agrees.lasting _ _)
        (Agrees.lasting _ _) (fun _ _ h => h.above _ (hf.above.cof hf.sorted false))
        (fun _ _ h => h.above _ (hf.above.cof hf.sorted true))
        (hsplit pd hpd had' false s hs (.refl s)) (hsplit pd hpd had' true)
        (fun _ _ _ _ _ hl hh hj => hl.join hf.sorted hroot hh hj) fun ok hok =>
          ⟨trivial, fun _ _ => trivial, fun h => absurd h hok⟩
    by_cases hlevel : s.level f = s.level d
    · rw [if_pos hlevel]
      have hpd := hd.cofactors hlevel.symm (hlevel ▸ hltd)
      have had' : td.Above (s.level f) := hlevel ▸ hd.above
      have hside : ∀ b, childOf d (!b) s = 0 →
          Returns S s (Agrees tf td) (simplifyRec S.D S.isPrime fuel (childOf f b s)
            (childOf d b s) s) := fun b hb =>
        (hsplit _ hpd had' b s hs (.refl s)).mono fun ok t h =>
          h.side hf.sorted hroot ((hpd.eq_zero_iff hbd !b).mp hb)
      by_cases hl : s.low d = 0
      · rw [if_pos hl]
        exact hside true hl
      rw [if_neg hl]
      by_cases hh : s.high d = 0
      · rw [if_pos hh]
        exact hside false hh
      · rw [if_neg hh]
        exact hnode _ hpd had'
    rw [if_neg hlevel]
    by_cases hless : s.level f < s.level d
    · rw [if_pos hless]
      exact hnode _ (hd.cofactors_self hless) (hd.above.mono hless.le)
    rw [if_neg hless]
    -- the root of `d` is quantified away
    have hpd := hd.cofactors rfl hltd
    have hor := applyRec_computes hS .or hs (hpd s (.refl s) false) (hpd s (.refl s) true)
      (hbd.cof _ false) (hbd.cof _ true) (DTree.above_zero _) (DTree.above_zero _)
      (S.depth_bound 0)
    refine pushed_returns hor fun s' n hi he hn => ?_
    obtain ⟨t, ho, hc⟩ := hn
    have hat : t.Above (s.level d + 1) := hc.above _ fun v hv => by
      rcases List.mem_pair.mp hv with rfl | rfl
      · exact hd.above.cof hd.sorted false
      · exact hd.above.cof hd.sorted true
    obtain ⟨r, hr, hp⟩ := ih hi (hf.evo he) ho hbf hc.isBool (hf.above.mono (by omega)) hat
      (by omega)
    obtain ⟨u, hu, h⟩ := hp.result
    refine ⟨r, hr, hp.inv, hp.evo, hp.refstack, u, hu, h.isBool, h.above, fun hok x hx =>
      h.eval hok x ?_⟩
    rw [hc.eval (hp.evo.ok hok)]
    rw [← evalBool_cof td (s.level d)] at hx
    cases hxd : x (s.level d)
    · rw [hxd] at hx
      simp [BddOp.fn, hx]
    · rw [hxd] at hx
      simp [BddOp.fn, hx]

end

/-! ## Tags and entries -/

/-- A tag of `bdd_restrict` by the cube `var`. -/
def RestrictTag (var tag : ℕ) : Prop := var < 2 ^ 28 ∧ tag = (restrictId var).toNat

theorem RestrictTag.decode {var tag : ℕ} (h : RestrictTag var tag) : tag = 8 * var + 1 := by
  obtain ⟨hvar, rfl⟩ := h
  rw [show restrictId var = quantid var (.ofNat 1) from rfl, quantid_toNat var (by decide),
    Nat.mod_eq_of_lt (by omega)]

/-- An entry of the miscellaneous cache is right about `bdd_restrict`. -/
def RestrictEntry (D : MtbddDomain P) : BddState P → BddCacheData → Prop :=
  TaggedEntry D RestrictTag (fun s var tv => s.Reads D var tv) (fun a _ => [a])
    fun _ tv ts => Computes ts (onTree (restrictFn tv) ts)

/-- An entry of the miscellaneous cache is right about `bdd_constrain`. -/
def ConstrainEntry (D : MtbddDomain P) : BddState P → BddCacheData → Prop :=
  TaggedEntry D (fun (_ : Unit) tag => tag = cacheidConstrain.toNat)
    (fun _ _ (_ : Unit) => True) (fun a b => [a, b])
    fun _ _ ts => Computes ts (onTrees constrainFn ts)

/-- An entry of the apply cache is right about `bdd_simplify`. -/
def SimplifyEntry (D : MtbddDomain P) : BddState P → BddCacheData → Prop :=
  TaggedEntry D (fun (_ : Unit) tag => tag = bddopSimplify) (fun _ _ (_ : Unit) => True)
    (fun a b => [a, b]) fun _ _ => agreesWhere

/-- What the recursions need of their caches for the generalised cofactors. -/
structure Setting.Cofactoring (S : Setting P) : Prop extends S.Operators where
  restrict : ∀ s e, S.cache s .misc e → RestrictEntry S.D s e
  restrictFill : ∀ s e var, RestrictTag var e.c → RestrictEntry S.D s e → S.cache s .misc e
  constrain : ∀ s e, S.cache s .misc e → ConstrainEntry S.D s e
  constrainFill : ∀ s e (_ : Unit), e.c = cacheidConstrain.toNat → ConstrainEntry S.D s e →
    S.cache s .misc e
  simplify : ∀ s e, S.cache s .apply e → SimplifyEntry S.D s e
  simplifyFill : ∀ s e (_ : Unit), e.c = bddopSimplify → SimplifyEntry S.D s e →
    S.cache s .apply e

section

variable {var : ℕ} {tv : DTree (Leaf P)}

theorem Setting.Cofactoring.remembers_restrict (hS : S.Cofactoring) (hvar : var < 2 ^ 28) :
    Memoizes S .misc (fun s => s.Reads S.D var tv) (restrictId var).toNat (fun a _ => [a])
      fun ts => Computes ts (onTree (restrictFn tv) ts) :=
  TaggedEntry.memoizes hS.restrict hS.restrictFill
    (fun _ _ _ h h' => by
      have := h.decode
      have := h'.decode
      omega) (fun _ _ _ _ h h' => h.unique h') ⟨hvar, rfl⟩ tv

theorem Setting.Cofactoring.remembers_constrain (hS : S.Cofactoring) :
    Memoizes S .misc (fun _ => True) cacheidConstrain.toNat (fun a b => [a, b])
      fun ts => Computes ts (onTrees constrainFn ts) :=
  TaggedEntry.memoizes hS.constrain hS.constrainFill (fun _ _ _ _ _ => rfl)
    (fun _ _ _ _ _ _ => rfl) (i := ()) rfl ()

theorem Setting.Cofactoring.remembers_simplify (hS : S.Cofactoring) :
    Memoizes S .apply (fun _ => True) bddopSimplify (fun a b => [a, b]) agreesWhere :=
  TaggedEntry.memoizes hS.simplify hS.simplifyFill (fun _ _ _ _ _ => rfl)
    (fun _ _ _ _ _ _ => rfl) (i := ()) rfl ()

end

/-! ## Cubes -/

/-- The literals of a cube, each variable once. -/
def Literals (C : List (ℕ × Bool)) (a : ℕ → Bool) : Bool := C.all fun p => a p.1 == p.2

/-- An assignment with the literals of a cube fixed. -/
def fixing (C : List (ℕ × Bool)) (a : ℕ → Bool) (v : ℕ) : Bool := (C.lookup v).getD (a v)

section

variable {C : List (ℕ × Bool)} {v : ℕ} {b : Bool} {a : ℕ → Bool}

theorem lookup_iff (hC : (C.map Prod.fst).Nodup) : C.lookup v = some b ↔ (v, b) ∈ C := by
  induction C with
  | nil => simp
  | cons p C ih =>
    obtain ⟨w, c⟩ := p
    obtain ⟨hw, hrest⟩ := List.nodup_cons.mp hC
    rw [List.lookup_cons, List.mem_cons, Prod.mk.injEq]
    by_cases hv : v = w
    · subst hv
      have hno : (v, b) ∉ C := fun h => hw (List.mem_map.mpr ⟨(v, b), h, rfl⟩)
      simp [hno, eq_comm]
    · simp [hv, beq_eq_false_iff_ne.mpr hv, ih hrest]

theorem literals_iff (hC : (C.map Prod.fst).Nodup) :
    Literals C a = true ↔ ∀ v b, C.lookup v = some b → a v = b := by
  unfold Literals
  rw [List.all_eq_true]
  constructor
  · intro h v b hv
    exact beq_iff_eq.mp (h (v, b) ((lookup_iff hC).mp hv))
  · rintro h ⟨v, b⟩ hp
    exact beq_iff_eq.mpr (h v b ((lookup_iff hC).mpr hp))

theorem literals_fixing (hC : (C.map Prod.fst).Nodup) (a : ℕ → Bool) :
    Literals C (fixing C a) = true := (literals_iff hC).mpr fun v b h => by
  unfold fixing
  rw [h]
  rfl

/-- The variables of a cube that a node stands for are variables of the session. -/
theorem OrderInv.literal_lt (h : OrderInv s) (hC : (C.map Prod.fst).Nodup)
    {tv : DTree (Leaf P)} (hs : tv.Sorted s.env.bddvarnum)
    (hf : ∀ a, evalBool tv (s.assign a) = Literals C a) (hv : C.lookup v = some b) :
    v < s.env.bddvarnum := by
  by_contra hno
  -- an assignment that satisfies the cube, and the same with `v` turned over
  have heq := evalBool_congr hs (x := s.assign (fixing C fun _ => false))
    (y := s.assign (Function.update (fixing C fun _ => false) v !b)) fun l hl => by
      have hlt := (h.var l hl).1
      have hne : s.env.bddlevel2var l ≠ v := by omega
      exact (Function.update_of_ne hne _ _).symm
  rw [hf, hf, literals_fixing hC] at heq
  have := (literals_iff hC).mp heq.symm v b hv
  simp at this

/-- The literals of the tree of a cube are those of the cube. -/
theorem Sane.literal (hred : T.reduced) (h : Sane T s) {var l : ℕ}
    (hC : (C.map Prod.fst).Nodup) {tv : DTree (Leaf P)} (hr : s.Reads T.D var tv)
    (hb : IsBool tv) (hf : ∀ a, evalBool tv (s.assign a) = Literals C a)
    (hl : l < s.env.bddvarnum) :
    (boolTree tv).literal l = C.lookup (s.env.bddlevel2var l) := by
  obtain ⟨flight, hi, -⟩ := h.inv.table
  obtain ⟨hs, -⟩ := h.inv.graph.sorted hr
  have hreduced := reduced_boolTree (h.inv.graph.reduced_reads hred hi hr hb) hb
  have hliteral := DTree.literal_eq (sorted_boolTree.mpr hs) hreduced
    (L := fun k => if k < s.env.bddvarnum then C.lookup (s.env.bddlevel2var k) else none)
    fun x => ?_
  · rw [hliteral]
    exact if_pos hl
  rw [eval_boolTree, evalBool_congr hs (y := s.assign fun v => x (s.env.bddvar2level v))
    fun k hk => (h.order.assign_level x hk).symm, hf, literals_iff hC]
  constructor
  · intro hx k b hk
    split at hk
    · rename_i hlt
      have := hx _ b hk
      rwa [(h.order.var k hlt).2] at this
    · exact absurd hk.symm (Option.some_ne_none b)
  · intro hx v b hv
    have hlt := h.order.literal_lt hC hs hf hv
    obtain ⟨hk, hinv⟩ := h.order.level v hlt
    exact hx _ b (by rw [if_pos hk, hinv]; exact hv)

end

/-! ## The operations -/

/-- A call whose effect on the marks is not known: what it keeps, and its result. -/
structure Answered (T : Theory P) (s : BddState P) (f : (ℕ → Bool) → Bool)
    (r : ℕ × BddState P) : Prop where
  sane : Sane T r.2
  keeps : Keeps T.D s r.2
  result : r.2.Ok → r.2.Represents T.D r.1 f

/-- Marking the levels of a set, whatever the marks are. -/
theorem Sane.setMarks (h : Sane T s) (marks : ℕ → ℤ) (id : ℤ) : Sane T (s.setMarks marks id) :=
  ⟨h.num, ⟨h.inv.toCore.alike (h.inv.toCore.alike_rest _ s.errors), h.inv.top⟩,
    h.order.congr rfl rfl rfl rfl fun hp => ⟨hp.live, hp.key, hp.refcou⟩⟩

section

variable {f g : (ℕ → Bool) → Bool} {r c d var : ℕ} {C : List (ℕ × Bool)} {tc : DTree (Leaf P)}

/-- A constant among the cubes is the empty one. -/
theorem BddState.Usable.literals_nil (h : s.Usable D var (Literals C))
    (hC : (C.map Prod.fst).Nodup) (hvar : var < 2) : C = [] := by
  obtain ⟨-, t, hr, -, hf⟩ := h
  obtain ⟨b, rfl⟩ : ∃ b : Bool, var = b.toNat := by
    match var, hvar with
    | 0, _ => exact ⟨false, rfl⟩
    | 1, _ => exact ⟨true, rfl⟩
  have ht : t = .leaf (.const b) := hr.unique (.const b)
  rw [ht] at hf
  have htrue : b = true := (hf (fixing C fun _ => false)).trans (literals_fixing hC _)
  cases C with
  | nil => rfl
  | cons p C =>
    have hfalse : Literals (p :: C) (fun _ => !p.2) = false := by
      simp [Literals]
    have hb : b = false := (hf fun _ => !p.2).trans hfalse
    exact absurd (htrue.symm.trans hb).symm Bool.false_ne_true

/-- `bdd_restrict` fixes the literals of the cube. -/
theorem Theory.Operates.restrict_called (hT : T.Operates)
    (hS : ∀ top htop, (T.setting top htop).Cofactoring) (hs : Good T s) (hsigned : s.Signed)
    (hr : s.Usable T.D r f) (hC : (C.map Prod.fst).Nodup) (hvar : s.Usable T.D var (Literals C))
    (hsmall : var < 2 ^ 28) :
    ∃ res, bddRestrict T.D T.isPrime r var s = some res ∧
      Answered T s (fun a => f (fixing C a)) res ∧
      (s.env.quantvarsetID + 1 < intMax → Good T res.2) := by
  unfold bddRestrict
  rw [checka_node hs hr.isNode, checka_node hs hvar.isNode]
  dsimp only
  by_cases hconst : var < 2
  · rw [if_pos hconst, hvar.literals_nil hC hconst]
    exact ⟨_, rfl, ⟨hs.sane, .refl s, fun _ => hr.2⟩, fun _ => hs⟩
  rw [if_neg hconst]
  obtain ⟨href, t, hreads, hb, hf⟩ := hr
  obtain ⟨hrefv, tv, hreadsv, hbv, hfv⟩ := hvar
  have hov := hs.inv.operand_of_reads hrefv.held hreadsv
  obtain ⟨quantlast, marks, id, heq, hmarked, hlast, hm, hsigned'⟩ :=
    varset2svartable_spec hov hbv (by omega) hs.marks hsigned rfl
  have hsane := hs.sane.setMarks marks id
  have hkeeps : Keeps T.D s (s.setMarks marks id) := keeps_setMarks fun _ => hsigned'
  have hreads' : ∀ {n : ℕ} {u : DTree (Leaf P)}, s.Reads T.D n u →
      (s.setMarks marks id).Reads T.D n u := fun h => h.congr fun m _ => ⟨rfl, fun _ _ => rfl⟩
  have hcube : Cube (T.setting s.env.bddvarnum hsane.num) (s.setMarks marks id).initref var tv
      quantlast := ⟨hsane.operand_keeps hkeeps hrefv hreadsv, hmarked, hlast⟩
  have ho := hsane.operand_keeps hkeeps href hreads
  obtain ⟨res, hres, hfin⟩ := operation_finished hsane
    (restrictRec_computes ((hS _ _).remembers_restrict hsmall) hsane.initref hcube ho hb
      t.above_zero (Setting.depth_bound _ 0))
  have hfin' := hfin.mono fun ok u hc =>
    (⟨hc.isBool, hc.above, fun hok => hc.eval hok.1⟩ : Computes [t] _ (ok ∧ True) u)
  rw [heq]
  refine ⟨res, hres, ⟨hfin.sane, hkeeps.trans hfin.keeps, fun hok => ?_⟩, fun hid =>
    hfin.good (hm hid)⟩
  refine hfin'.represents hok trivial fun a => ?_
  show evalBool t ((boolTree tv).fixed (s.assign a)) = f (fixing C a)
  rw [← hf]
  refine evalBool_congr ho.sorted fun l hl => ?_
  show ((boolTree tv).literal l).getD _ = _
  rw [hs.sane.literal hT.reduced hC hreadsv hbv hfv hl]
  rfl

/-- The assignment of the variables that is nearest to the given one in a set. -/
def BddState.nearest (s : BddState P) (tc : DTree (Leaf P)) (a : ℕ → Bool) (v : ℕ) : Bool :=
  (boolTree tc).nearest (s.assign a) (s.env.bddvar2level v)

theorem OrderInv.assign_nearest (h : OrderInv s) (a : ℕ → Bool) {l : ℕ}
    (hl : l < s.env.bddvarnum) :
    s.assign (s.nearest tc a) l = (boolTree tc).nearest (s.assign a) l :=
  h.assign_level _ hl

/-- `bdd_constrain` moves the assignment into the set. -/
theorem Theory.Operates.constrain_called (hT : T.Operates)
    (hS : ∀ top htop, (T.setting top htop).Cofactoring) (hs : Good T s) (hf : s.Usable T.D r f)
    (hc : s.Referenced c) (hreads : s.Reads T.D c tc) (hbc : IsBool tc) (hz : c ≠ 0) :
    ∃ res, bddConstrain T.D T.isPrime r c s = some res ∧
      Called T s (fun a => f (s.nearest tc a)) res := by
  unfold bddConstrain
  rw [checka_node hs hf.isNode, checka_node hs hreads.isNode]
  obtain ⟨t, ho, hb, hft⟩ := hs.operand hf
  have hoc := hs.operand_keeps (.refl s) hc hreads
  refine operation_called hs (constrainRec_computes hT.reduced (hS _ _).remembers_constrain
    hs.initref ho hoc hb hbc hz t.above_zero tc.above_zero (Setting.depth_bound _ 0)) fun a => ?_
  show evalBool t ((boolTree tc).nearest (s.assign a)) = _
  rw [← hft]
  exact evalBool_congr ho.sorted fun l hl => (hs.order.assign_nearest a hl).symm

/-- Nothing moves inside of the set. -/
theorem Good.nearest_eq (hs : Good T s) (hf : s.Represents T.D r f)
    (hg : ∀ a, evalBool tc (s.assign a) = g a) {a : ℕ → Bool} (ha : g a = true) :
    f (s.nearest tc a) = f a := by
  obtain ⟨t, hreads, hb, hft⟩ := hf
  obtain ⟨hsorted, -⟩ := hs.inv.graph.sorted hreads
  rw [← hft, ← hft]
  refine evalBool_congr hsorted fun l hl => ?_
  rw [hs.order.assign_nearest a hl, DTree.nearest_eq_self]
  rw [eval_boolTree, hg, ha]

/-- `bdd_simplify` agrees with its operand on the set. -/
theorem bddSimplify_called (hS : ∀ top htop, (T.setting top htop).Cofactoring)
    (hs : Good T s) (hf : s.Usable T.D r f) (hd : s.Usable T.D d g) :
    ∃ res h, bddSimplify T.D T.isPrime r d s = some res ∧ Called T s h res ∧
      (res.2.Ok → ∀ a, g a = true → h a = f a) := by
  unfold bddSimplify
  rw [checka_node hs hf.isNode, checka_node hs hd.isNode]
  obtain ⟨t, ho, hb, hft⟩ := hs.operand hf
  obtain ⟨td, hod, hbd, hgt⟩ := hs.operand hd
  obtain ⟨res, hres, hfin⟩ := operation_finished hs.sane (simplifyRec_agrees (hS _ _).toOperators
    (hS _ _).remembers_simplify hs.initref ho hod hb hbd t.above_zero td.above_zero
    (Setting.depth_bound _ 0))
  obtain ⟨u, hu, hagree⟩ := hfin.result
  have hassign : res.2.assign = s.assign := by
    unfold BddState.assign
    rw [hfin.env]
  refine ⟨res, fun a => evalBool u (s.assign a), hres, ⟨hfin.good hs.marks, hfin.keeps,
    fun _ => ⟨u, hu, hagree.isBool, fun a => by rw [hassign]⟩⟩, fun hok a ha => ?_⟩
  rw [← hft]
  exact hagree.eval hok _ (by rw [hgt, ha])

end

end MoToBuddy.Bdd
