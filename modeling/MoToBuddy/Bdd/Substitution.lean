import Mathlib.Tactic.IntervalCases
import MoToBuddy.Bdd.UniqueLaws

/-!
# What pairs stand for

`bdd_replace` and `bdd_veccompose` with a pair of a session return the trees of `Renames` and
`Substitutes` (`Package.Healthy.replace`, `Package.Healthy.veccompose`). A pair whose entries are
the decisions at their levels leaves a diagram alone. `bdd_newpair` makes such a pair, and
`bdd_resetpair` does as long as the first level is that of variable `0` (`resetpair_identity_iff`).
-/

namespace MoToBuddy.Bdd

open Decision BoolFun Package

variable {P : Type*} {D : MtbddDomain P} {isPrime : ℕ → Bool} {T : Theory P} {σ : PairTable P}
  {s s' : BddState P} {w : Package P} {p : ℕ × BddPair} {θ : ℕ → DTree (Leaf P)}
  {t u : DTree (Leaf P)} {F : (ℕ → Bool) → Bool} {r : ℕ}

/-! ## Results -/

theorem Linked.unique {q : BddPair} {θ' : ℕ → DTree (Leaf P)} (h : Linked D s q θ)
    (h' : Linked D s q θ') : θ = θ' := funext fun l => by
  by_cases hl : l < s.env.bddvarnum ∧ (l : ℤ) ≤ q.last
  · exact (h.entry l hl.1 hl.2).1.unique (h'.entry l hl.1 hl.2).1
  · rw [h.rest l (by omega), h'.rest l (by omega)]

/-- `bdd_replace` with a pair of the session. -/
theorem Package.Consistent.replace (h : w.Consistent D isPrime σ) (ho : w.Owned) (hp : p ∈ w.pairs)
    (hθ : Linked D w.bdd p.2 θ) (href : w.bdd.Referenced r) (hr : w.bdd.Reads D r t)
    (hb : IsBool t) : ∃ res, bddReplace D isPrime r p.2 w.bdd = some res ∧
      Finished (full D isPrime σ w.bdd.env.bddvarnum) w.bdd (Renames θ t) res := by
  obtain ⟨θ', hσ, hθ', hpair⟩ := h.pairReads ho hp
  rw [hθ'.unique hθ] at hσ hpair
  exact bddReplace_finished (T := full D isPrime σ w.bdd.env.bddvarnum) trivial
    (fun _ _ => full_substituting) h.good hpair (pairsid_lt (h.issued p hp) h.bound) hσ href hr hb

/-- `bdd_veccompose` with a pair of the session. -/
theorem Package.Consistent.veccompose (h : w.Consistent D isPrime σ) (ho : w.Owned)
    (hp : p ∈ w.pairs) (hθ : Linked D w.bdd p.2 θ) (href : w.bdd.Referenced r)
    (hr : w.bdd.Reads D r t) (hb : IsBool t) :
    ∃ res, bddVeccompose D isPrime r p.2 w.bdd = some res ∧
      Finished (full D isPrime σ w.bdd.env.bddvarnum) w.bdd (Substitutes θ t) res := by
  obtain ⟨θ', hσ, hθ', hpair⟩ := h.pairReads ho hp
  rw [hθ'.unique hθ] at hσ hpair
  exact bddVeccompose_finished (T := full D isPrime σ w.bdd.env.bddvarnum)
    (fun _ _ => full_substituting) h.good hpair (pairsid_lt (h.issued p hp) h.bound) hσ href hr hb

/-! ## Pairs that leave a diagram alone -/

/-- Renaming leaves a tree alone if it leaves its levels alone. -/
theorem Renames.eq_self {M : ℕ} {ok : Prop} (h : Renames θ t ok u) (hs : t.Sorted M)
    (hself : ∀ l, t.Mentions l → θ l = selfTree l) (hok : ok) (x : ℕ → Bool) :
    evalBool u x = evalBool t x := by
  have hroots : ∀ l, t.Mentions l → roots θ l = some l := fun l hl => by
    unfold roots
    rw [hself l hl]
    rfl
  have hno : ¬ t.Collides (roots θ) := DTree.not_collides hs
    (fun l hl => by rw [hroots l hl]; rfl)
    fun l l' hl hl' heq => by rwa [hroots l hl, hroots l' hl', Option.some.injEq] at heq
  rw [h.eval hok hno]
  unfold evalBool
  rw [DTree.eval_eq_of_mentions fun l hl => along_some (hroots l hl) x]

theorem Substitutes.eq_self {ok : Prop} (h : Substitutes θ t ok u)
    (hself : ∀ l, t.Mentions l → θ l = selfTree l) (hok : ok) (x : ℕ → Bool) :
    evalBool u x = evalBool t x := by
  rw [h.eval hok]
  unfold evalBool
  rw [DTree.eval_eq_of_mentions (y := x) fun l hl => ?_]
  rw [hself l hl]
  exact evalBool_selfTree l x

/-- A result with the values of the operand is the operand. -/
theorem Finished.eq_operand {Q : Prop → DTree (Leaf P) → Prop} {res : ℕ × BddState P}
    (h : Finished T s Q res) (hred : T.reduced) (href : s.Referenced r) (hr : s.Reads T.D r t)
    (hb : IsBool t) (hQ : ∀ u, Q res.2.Ok u → IsBool u ∧ ∀ x, evalBool u x = evalBool t x) :
    res.1 = r := by
  obtain ⟨u, hu, hq⟩ := h.result
  obtain ⟨hbu, heval⟩ := hQ u hq
  exact h.sane.only hred ⟨t, h.keeps.reads r t href hr, hb, fun a => rfl⟩
    ⟨u, hu, hbu, fun a => heval _⟩

/-- A result with another tree is another node. -/
theorem Finished.ne_operand {Q : Prop → DTree (Leaf P) → Prop} {res : ℕ × BddState P}
    (h : Finished T s Q res) (href : s.Referenced r) (hr : s.Reads T.D r t)
    (hQ : ∀ u, Q res.2.Ok u → u ≠ t) : res.1 ≠ r := by
  obtain ⟨u, hu, hq⟩ := h.result
  intro heq
  exact hQ u hq (hu.unique (heq ▸ h.keeps.reads r t href hr))

/-- A pair that leaves a diagram alone: both operations return it. -/
def ReturnsOperand (D : MtbddDomain P) (isPrime : ℕ → Bool) (r : ℕ) (q : BddPair) (same : Prop)
    (s : BddState P) : Prop :=
  (∃ res s', bddReplace D isPrime r q s = some (res, s') ∧ (s'.Ok → (res = r ↔ same))) ∧
    ∃ res s', bddVeccompose D isPrime r q s = some (res, s') ∧ (s'.Ok → (res = r ↔ same))

/-- The entries of the pair for the levels of a diagram are the decisions themselves. -/
theorem Package.Consistent.returnsOperand (h : w.Consistent D isPrime σ) (ho : w.Owned)
    (hp : p ∈ w.pairs) (hθ : Linked D w.bdd p.2 θ) (href : w.bdd.Referenced r)
    (hr : w.bdd.Reads D r t) (hb : IsBool t) (hself : ∀ l, t.Mentions l → θ l = selfTree l) :
    ReturnsOperand D isPrime r p.2 True w.bdd := by
  have hsorted := (h.good.inv.graph.sorted hr).1
  obtain ⟨⟨res, s'⟩, hres, hfin⟩ := h.replace ho hp hθ href hr hb
  obtain ⟨⟨vec, s''⟩, hvec, hfin'⟩ := h.veccompose ho hp hθ href hr hb
  refine ⟨⟨res, s', hres, fun hok => iff_true_intro ?_⟩,
    ⟨vec, s'', hvec, fun hok => iff_true_intro ?_⟩⟩
  · exact hfin.eq_operand trivial href hr hb fun u hu => ⟨hu.isBool, hu.eq_self hsorted hself hok⟩
  · exact hfin'.eq_operand trivial href hr hb fun u hu => ⟨hu.isBool, hu.eq_self hself hok⟩

/-- The root of a diagram is moved to another level. -/
theorem Package.Consistent.changesOperand (h : w.Consistent D isPrime σ) (ho : w.Owned)
    (hp : p ∈ w.pairs) (hθ : Linked D w.bdd p.2 θ) (href : w.bdd.Referenced r)
    (hr : w.bdd.Reads D r t) (hb : IsBool t) {m : ℕ} (hm : 0 < m) (h0 : t.Mentions 0)
    (hθ0 : θ 0 = selfTree m) (hself : ∀ l, 0 < l → θ l = selfTree l) :
    ReturnsOperand D isPrime r p.2 False w.bdd := by
  have hsorted := (h.good.inv.graph.sorted hr).1
  obtain ⟨⟨res, s'⟩, hres, hfin⟩ := h.replace ho hp hθ href hr hb
  obtain ⟨⟨vec, s''⟩, hvec, hfin'⟩ := h.veccompose ho hp hθ href hr hb
  refine ⟨⟨res, s', hres, fun hok => iff_false_intro ?_⟩,
    ⟨vec, s'', hvec, fun hok => iff_false_intro ?_⟩⟩
  · refine hfin.ne_operand href hr fun u hu heq => ?_
    -- all levels of the result are after the first
    have habove : t.Above 1 := heq ▸ hu.above 1 fun l m' _ hl => by
      unfold roots at hl
      by_cases hl0 : l = 0
      · rw [hl0, hθ0] at hl
        obtain rfl : m = m' := Option.some.inj hl
        exact hm
      · rw [hself l (by omega)] at hl
        obtain rfl : l = m' := Option.some.inj hl
        omega
    have := (DTree.mentions_bound hsorted habove h0).1
    omega
  · refine hfin'.ne_operand href hr fun u hu heq => ?_
    -- the result does not depend on the first level
    obtain ⟨flight, hi, -⟩ := h.good.inv.table
    have hreduced := h.good.inv.graph.reduced_reads trivial hi hr hb
    obtain ⟨x, b, hne⟩ := (DTree.mentions_iff hsorted hreduced).mp h0
    refine hne ?_
    have heval : ∀ y, evalBool t y = evalBool t fun l => if l = 0 then y m else y l := by
      intro y
      conv_lhs => rw [← heq]
      rw [hu.eval hok]
      refine congrArg (evalBool t) (funext fun l => ?_)
      by_cases hl0 : l = 0
      · rw [hl0, hθ0, if_pos rfl, evalBool_selfTree]
      · rw [if_neg hl0, hself l (by omega), evalBool_selfTree]
    have hsame : evalBool t (Function.update x 0 b) = evalBool t x := by
      rw [heval, heval x]
      refine congrArg (evalBool t) (funext fun l => ?_)
      by_cases hl0 : l = 0
      · rw [if_pos hl0, if_pos hl0, Function.update_of_ne (by omega)]
      · rw [if_neg hl0, if_neg hl0, Function.update_of_ne hl0]
    rw [eval_of_isBool hb, eval_of_isBool hb, hsame]

/-! ## New pairs and reset pairs -/

section

variable {q : BddPair} {pair : ℕ}

/-- What `bdd_resetpair` makes of a pair. -/
theorem mem_resetpair (hq : (pair, q) ∈ (w.resetpair pair).pairs) : q.last = 0 ∧
    ∀ l < w.bdd.env.bddvarnum, q.result l = w.bdd.env.bddvarset (2 * l) := by
  rw [resetpair_eq, refresh_modify w pair (fun _ _ => rfl)] at hq
  obtain ⟨x, -, hx⟩ := List.mem_map.mp hq
  unfold modifyAt at hx
  split at hx
  · obtain rfl := (Prod.ext_iff.mp hx).2
    refine ⟨rfl, fun l hl => (if_pos hl).trans ?_⟩
    unfold bddIthvar
    rw [if_neg (Nat.not_le.mpr hl)]
  · rename_i hne
    exact absurd (Prod.ext_iff.mp hx).1 hne

/-- What `bdd_newpair` makes. -/
theorem mem_newpair (hnew : ∀ p ∈ w.pairs, p.1 ≠ pair) (hq : (pair, q) ∈ (w.newpair pair).pairs) :
    q.last = -1 := by
  rcases List.mem_cons.mp hq with heq | hmem
  · exact congrArg BddPair.last (Prod.ext_iff.mp heq).2
  · exact absurd rfl (forall_updatePairsid (p := fun a _ _ => a ≠ pair) hnew (pair, q) hmem)

theorem resetpair_bdd (w : Package P) (pair : ℕ) :
    ∃ C : Caches, (w.resetpair pair).bdd = { w.bdd with caches := C } := by
  obtain ⟨C, hC⟩ := updatePairsid_bdd (w.modify pair (resetEntries w.bdd))
  exact ⟨C, hC⟩

/-- The trees of a pair that was reset: only the first level counts. -/
theorem Package.Consistent.reset_linked (h : w.Consistent D isPrime σ) (hlast : q.last = 0)
    (hentry : ∀ l < w.bdd.env.bddvarnum, q.result l = w.bdd.env.bddvarset (2 * l))
    (hpos : 0 < w.bdd.env.bddvarnum) :
    Linked D w.bdd q fun l => selfTree (if l = 0 then w.bdd.env.bddvar2level 0 else l) := by
  refine ⟨fun l hl hle => ?_, fun l hl => ?_⟩
  · obtain rfl : l = 0 := by omega
    obtain ⟨-, hr, -⟩ := h.good.ithvar hpos
    rw [hentry 0 hpos, if_pos rfl]
    exact ⟨hr, trivial, trivial⟩
  · rw [if_neg (by omega)]

end

/-- The caches do not matter to what a node stands for. -/
theorem BddState.Usable.recache (h : s.Usable D r F) (C : Caches) :
    ({ s with caches := C } : BddState P).Usable D r F := by
  obtain ⟨href, t, hr, hb, hf⟩ := h
  refine ⟨href.imp_right fun hh => ?_, t, hr.congr fun _ _ => ⟨rfl, fun _ _ => rfl⟩, hb, hf⟩
  exact @BddState.Held.keep P s.initref ({ s with caches := C } : BddState P).initref
    (fun _ _ => rfl) (fun _ _ => rfl) (List.Subset.refl _) r hh

/-- The first level is mentioned in a diagram if it is that of its root. -/
theorem Base.level_eq_zero (h : Base D isPrime σ s) (hr : s.Reads D r t) (hb : IsBool t) :
    s.level r = 0 ↔ t.Mentions 0 := by
  obtain ⟨hsorted, -⟩ := h.good.inv.graph.sorted hr
  cases hr with
  | const b =>
    have hmax : maxlevel = 0x1FFFFF := rfl
    rw [h.leveled _ (BddState.Reads.toNat_lt b)]
    refine iff_of_false (fun he => ?_) id
    split_ifs at he
    omega
  | terminal _ _ _ _ => exact hb.elim
  | @node _ low high level tl th _ key _ _ _ =>
    have hlevel : s.level r = level := congrArg BddKey.level key
    obtain ⟨-, hal, hah, hsl, hsh⟩ := hsorted
    rw [hlevel]
    constructor
    · rintro rfl
      exact Or.inl rfl
    · rintro (h0 | h0 | h0)
      · exact h0.symm
      · have := (DTree.mentions_bound hsl hal h0).1
        omega
      · have := (DTree.mentions_bound hsh hah h0).1
        omega

/-- A pair that was reset leaves a diagram alone if the diagram does not start with the first level,
or that is the level of variable `0`. -/
theorem Package.Healthy.reset_returns (hw : w.Healthy D isPrime) {q : BddPair} (hp : p ∈ w.pairs)
    (hq : p.2 = q) (hlast : q.last = 0)
    (hentry : ∀ l < w.bdd.env.bddvarnum, q.result l = w.bdd.env.bddvarset (2 * l))
    (hr : w.bdd.Usable D r F) :
    ReturnsOperand D isPrime r q (w.bdd.level r = 0 → w.bdd.env.bddlevel2var 0 = 0) w.bdd := by
  subst hq
  obtain ⟨⟨σ, h⟩, ho⟩ := hw
  obtain ⟨href, t, hreads, hb, -⟩ := hr
  rw [h.toBase.level_eq_zero hreads hb]
  have hsame : ∀ {A B : Prop}, ReturnsOperand D isPrime r p.2 A w.bdd → (A ↔ B) →
      ReturnsOperand D isPrime r p.2 B w.bdd := fun h he => propext he ▸ h
  rcases Nat.eq_zero_or_pos w.bdd.env.bddvarnum with h0 | hpos
  · -- there are no variables
    obtain ⟨θ, -, hθ⟩ := h.linked p hp
    have hno : ∀ l, ¬ t.Mentions l := fun l hl => by
      have := (DTree.mentions_bound (h.good.inv.graph.sorted hreads).1 t.above_zero hl).2
      have htop : ((full D isPrime σ w.bdd.env.bddvarnum).setting w.bdd.env.bddvarnum
        h.good.num).top = w.bdd.env.bddvarnum := rfl
      omega
    exact hsame (h.returnsOperand ho hp hθ href hreads hb fun l hl => absurd hl (hno l))
      (iff_of_true trivial fun hm => absurd hm (hno 0))
  have hθ := h.reset_linked hlast hentry hpos
  have hback := h.good.order.var 0 hpos
  by_cases hm : t.Mentions 0
  · by_cases hvar : w.bdd.env.bddlevel2var 0 = 0
    · have hlevel : w.bdd.env.bddvar2level 0 = 0 := by rw [← hvar, hback.2, hvar]
      refine hsame (h.returnsOperand ho hp hθ href hreads hb fun l _ => ?_)
        (iff_of_true trivial fun _ => hvar)
      split_ifs with hl
      · rw [hl, hlevel]
      · rfl
    · have hlevel : 0 < w.bdd.env.bddvar2level 0 := by
        refine Nat.pos_of_ne_zero fun he => hvar ?_
        rw [← he, (h.good.order.level 0 hpos).2]
        exact he.symm
      refine hsame (h.changesOperand ho hp hθ href hreads hb hlevel hm (by rw [if_pos rfl])
        fun l hl => by rw [if_neg (by omega)]) (iff_of_false id fun hno => hvar (hno hm))
  · refine hsame (h.returnsOperand ho hp hθ href hreads hb fun l hl => ?_)
      (iff_of_true trivial fun h' => absurd h' hm)
    rw [if_neg fun he : l = 0 => hm (he ▸ hl)]

/-- A pair that was reset leaves a diagram alone if and only if the diagram does not start with the
first level, or that is the level of variable `0`. A new pair always does. -/
theorem resetpair_identity_iff {reset : BddState P → Prop} (hw : w.Reached D isPrime reset) :
    (∀ p ∈ w.pairs, ∀ q, (p.1, q) ∈ (w.resetpair p.1).pairs → ∀ r F, w.bdd.Usable D r F →
      ReturnsOperand D isPrime r q (w.bdd.level r = 0 → w.bdd.env.bddlevel2var 0 = 0)
        (w.resetpair p.1).bdd) ∧
    ∀ pair q, (∀ p ∈ w.pairs, p.1 ≠ pair) → w.pairs.length + 1 < maxPairsid →
      (pair, q) ∈ (w.newpair pair).pairs → ∀ r F, w.bdd.Usable D r F →
        ReturnsOperand D isPrime r q True (w.newpair pair).bdd := by
  refine ⟨fun p hp q hq r F hr => ?_, fun pair q hnew hroom hq r F hr => ?_⟩
  · obtain ⟨C, hC⟩ := resetpair_bdd w p.1
    obtain ⟨hlast, hentry⟩ := mem_resetpair hq
    have hreturns := (hw.healthy.resetpair hp).reset_returns hq rfl hlast
      (by rw [hC]; exact hentry) (by rw [hC]; exact hr.recache C)
    rw [hC] at hreturns ⊢
    exact hreturns
  · obtain ⟨C, hC⟩ := updatePairsid_bdd w
    have hbdd : (w.newpair pair).bdd = { w.bdd with caches := C } := hC
    obtain ⟨⟨σ, h⟩, ho⟩ := hw.healthy.newpair hnew hroom
    obtain ⟨θ, -, hθ⟩ := h.linked (pair, q) hq
    have hlast := mem_newpair hnew hq
    have hr' : (w.newpair pair).bdd.Usable D r F := by
      rw [hbdd]
      exact hr.recache C
    obtain ⟨href, t, hreads, hb, -⟩ := hr'
    exact h.returnsOperand ho hq hθ href hreads hb fun l _ => hθ.rest l (Or.inl (by
      show q.last < l
      omega))

/-! ## A session with two variables in the other order -/

/-- The nodes of a variable and its negation, at a level. -/
def varNodes (s : BddState UInt32) (level : ℕ) : BddState UInt32 :=
  let r := bddMakenode intDomain trialDivision s level 0 1
  let s := r.2.saturate r.1
  let r := bddMakenode intDomain trialDivision s level 1 0
  r.2.saturate r.1

/-- Variable `1` is before variable `0`: the nodes of the variables are as in `twoVariables`, at the
other levels. -/
def reversedVars : BddState UInt32 :=
  let s := varNodes (varNodes (bddInit 11 3) 1) 0
  { s with env := { s.env with
    bddvarnum := 2
    bddvarset := Bdd.twoVariables.env.bddvarset
    bddvar2level := swapAt 0 Bdd.twoVariables.env.bddvar2level
    bddlevel2var := swapAt 0 Bdd.twoVariables.env.bddlevel2var } }

/-- The same when the reordering is done. -/
def twoReversed : BddState UInt32 :=
  let s := reversedVars.finishVars 2
  { s with caches := s.caches.reset }

/-- The setting of a session with two variables. -/
abbrev twoSetting : Setting UInt32 :=
  (full intDomain trialDivision (fun _ => none) 2).setting 2 (by decide)

/-- What is computed of the two states. -/
theorem reversed_data :
    (∀ p ∈ [(bddInit 11 3, 1), (varNodes (bddInit 11 3) 1, 0)],
      (bddMakenode intDomain trialDivision p.1 p.2 0 1).2.bdderrorcond = false ∧
        (varNodes p.1 p.2).bdderrorcond = false) ∧
    OrderInv reversedVars ∧ twoReversed.bdderrorcond = false ∧ twoReversed.env.bddvarnum = 2 ∧
    (∀ i < 4, twoReversed.env.bddvarset i = i + 2) ∧
    (∀ n < 2, twoReversed.level n = Bdd.twoVariables.level n) ∧
    ∀ n < 6, maxref ≤ (twoReversed.bddnodes n).refcou ∧ (2 ≤ n → twoReversed.live n = true) := by
  decide +kernel

theorem twoReversed_ok : twoReversed.Ok := reversed_data.2.2.1

/-- A decision on top of the constants is made and kept. -/
theorem saturate_core {s : BddState UInt32} (hs : Core twoSetting s) {level a b : ℕ}
    (hl : level < 2) (ha : a < 2) (hb : b < 2) (hab : a ≠ b)
    (hok : (bddMakenode intDomain trialDivision s level a b).2.Ok) :
    Core twoSetting ((bddMakenode intDomain trialDivision s level a b).2.saturate
      (bddMakenode intDomain trialDivision s level a b).1) := by
  obtain ⟨hc, -, -, hpos⟩ := makenode_const (S := twoSetting) hs hl ha hb hab
  exact hc.saturate (Or.inr (hpos hok).1)

theorem varNodes_core {s : BddState UInt32} (hs : Core twoSetting s) {level : ℕ} (hl : level < 2)
    (hok : (bddMakenode intDomain trialDivision s level 0 1).2.bdderrorcond = false ∧
      (varNodes s level).bdderrorcond = false) : Core twoSetting (varNodes s level) := by
  have hpos := saturate_core hs hl (by decide) (by decide) (by decide : 0 ≠ 1) hok.1
  exact saturate_core hpos hl (by decide) (by decide) (by decide : 1 ≠ 0) hok.2

theorem twoReversed_good :
    Good (full intDomain trialDivision (fun _ => none) 2) twoReversed ∧
      ∀ k i, (twoReversed.caches k).isValid i = false := by
  obtain ⟨hok, horder, -⟩ := reversed_data
  have hinit : Core twoSetting (bddInit 11 3) := (bddInit_good (T := full intDomain trialDivision
    (fun _ => none) 2) 3 ⟨by decide, by decide, by decide⟩).inv.toCore.mono (by decide) (by decide)
  have hsecond := varNodes_core hinit (by decide) (hok _ (List.mem_cons_self))
  have hcore := varNodes_core hsecond (by decide) (hok _ (List.mem_cons_of_mem _ List.mem_cons_self))
  have hvars : Core twoSetting reversedVars := hcore.withEnv _
  obtain ⟨hcore', horder', hconst⟩ := finishVars_spec hvars horder rfl (by decide)
  have hgood : Good (full intDomain trialDivision (fun _ => none) 2) (reversedVars.finishVars 2) :=
    ⟨by decide, ⟨hcore', fun n hn => (hconst n hn).ge⟩,
      ⟨Int.le_refl 0, by decide, fun _ _ => Int.le_refl 0⟩, horder'⟩
  exact hgood.reset

/-- The node of a negated variable. -/
theorem Good.nithvar_represents (hs : Good T s) {v : ℕ} (hv : v < s.env.bddvarnum) :
    s.Represents T.D (s.env.bddvarset (2 * v + 1)) fun a => !a v := by
  have hpin := hs.order.neg v hv
  have hlevel := hs.order.level v hv
  have hdec : s.env.bddvar2level v ≠ maxlevel := by
    have := hs.num
    omega
  refine ⟨_, .node (BddState.live_iff.mp hpin.live).1 hpin.key hdec (.const true) (.const false),
    ⟨trivial, trivial⟩, fun a => ?_⟩
  rw [evalBool_node]
  show (if a (s.env.bddlevel2var (s.env.bddvar2level v)) then false else true) = !a v
  rw [hlevel.2]
  cases a v <;> rfl

/-- The variables are node `2` and `4`, their negations node `3` and `5`. -/
theorem Good.twoNodes {s : BddState UInt32}
    (hs : Good (full intDomain trialDivision (fun _ => none) 2) s)
    (hnum : s.env.bddvarnum = 2) (hset : ∀ i < 4, s.env.bddvarset i = i + 2) :
    (s.Represents intDomain 2 fun a => a 0) ∧ (s.Represents intDomain 4 fun a => a 1) ∧
      (s.Represents intDomain 3 fun a => !a 0) ∧ s.Represents intDomain 5 fun a => !a 1 := by
  have h0 := hs.ithvar_represents (v := 0) (by rw [hnum]; decide)
  have h1 := hs.ithvar_represents (v := 1) (by rw [hnum]; decide)
  have h2 := hs.nithvar_represents (v := 0) (by rw [hnum]; decide)
  have h3 := hs.nithvar_represents (v := 1) (by rw [hnum]; decide)
  rw [hset _ (by decide)] at h0 h1 h2 h3
  exact ⟨h0, h1, h2, h3⟩

theorem twoReversed_rearranged :
    Rearranged intDomain trialDivision [0] Bdd.twoVariables twoReversed := by
  have hnum : Bdd.twoVariables.env.bddvarnum = 2 := twoVariables_varnum
  have hok : Bdd.twoVariables.Ok := twoVariables_ok
  have hspec : SetvarnumSpec (full intDomain trialDivision (fun _ => none) 2) (bddInit 11 3)
      Bdd.twoVariables := bddSetvarnum_spec (bddInit_good 3 ⟨by decide, by decide, by decide⟩) 2 hok
  obtain ⟨flight, hi, -⟩ := hspec.good.inv.table
  have hsize : Bdd.twoVariables.bddnodesize = 11 := twoVariables_data.2.1
  have hnodes : ∀ n, Bdd.twoVariables.IsNode n → n < 6 := fun n hn => by
    rcases hn with h2 | hl
    · omega
    · exact twoVariables_live n (hsize ▸ hi.live_lt hl) hl
  obtain ⟨-, -, -, hnum', hset', hlevel, hpinned⟩ := reversed_data
  refine ⟨⟨fun _ => hok, hnum ▸ twoReversed_good.1, twoReversed_good.2, hnum'.trans hnum.symm, ?_⟩,
    by rw [hnum]; decide, ?_, ?_, hlevel, ?_⟩
  · rintro n f ⟨-, hf⟩
    obtain ⟨t, hr, hb, hft⟩ := id hf
    have hn := hnodes n hr.isNode
    refine ⟨?_, ?_⟩
    · by_cases h2 : n < 2
      · exact Or.inl h2
      · refine Or.inr ⟨n, Or.inl ?_, .refl ((hpinned n hn).2 (by omega))⟩
        show 0 < (twoReversed.bddnodes n).refcou
        exact Nat.lt_of_lt_of_le (by decide) (hpinned n hn).1
    · obtain ⟨h2, h4, h3, h5⟩ := hspec.good.twoNodes hnum twoVariables_varset
      obtain ⟨h2', h4', h3', h5'⟩ := twoReversed_good.1.twoNodes hnum' hset'
      have hconst : ∀ b : Bool, ∀ s : BddState UInt32,
          s.Represents intDomain b.toNat fun _ => b := fun b s =>
        ⟨_, .const b, trivial, fun _ => rfl⟩
      have hf : Bdd.twoVariables.Represents intDomain n f := hf
      show twoReversed.Represents intDomain n f
      interval_cases n
      · exact hf.unique (hconst false _) ▸ hconst false _
      · exact hf.unique (hconst true _) ▸ hconst true _
      · exact hf.unique h2 ▸ h2'
      · exact hf.unique h3 ▸ h3'
      · exact hf.unique h4 ▸ h4'
      · exact hf.unique h5 ▸ h5'
  · have hself : swapAt 0 Bdd.twoVariables.env.bddlevel2var 2 = 2 := by
      simp [swapAt, twoVariables_var]
    show Function.update (swapAt 0 Bdd.twoVariables.env.bddlevel2var) 2 2 = _
    refine funext fun l => ?_
    rw [Function.update_apply]
    split_ifs with hl
    · rw [hl]
      exact hself.symm
    · rfl
  · intro n hn
    by_cases h6 : n < 6
    · exact Or.inl (hpinned n h6).1
    · have hzero : (Bdd.twoVariables.bddnodes n).refcou = 0 :=
        Nat.eq_zero_of_not_pos fun hpos => h6 (hnodes n (hi.refcou n hpos))
      exact Or.inr (by omega)
  · rcases hspec.cases with ⟨henv, -⟩ | ⟨-, -, hset, hid, -⟩
    · have hzero : (bddInit (P := UInt32) 11 3).env.bddvarnum = 0 := rfl
      rw [← congrArg BddEnv.bddvarnum henv, hnum] at hzero
      exact absurd hzero (by decide)
    · exact ⟨hset.symm, hid.symm⟩

/-- A pair is made. -/
def onePair : Package UInt32 := Package.twoVariables.newpair 1

/-- The variables are put into the other order. -/
def reversedPair : Package UInt32 := reordered { onePair with bdd := twoReversed } [0]

theorem onePair_reached (reset : BddState UInt32 → Prop) :
    onePair.Reached intDomain trialDivision reset :=
  (twoVariables_reached reset).step (.newpair 1 (by decide)
    (fun p hp => absurd hp List.not_mem_nil) (by decide)) twoVariables_ok

theorem reversedPair_reached (reset : BddState UInt32 → Prop) :
    reversedPair.Reached intDomain trialDivision reset :=
  (onePair_reached reset).step (.reorder [0] twoReversed twoReversed_rearranged) twoReversed_ok

theorem twoReversed_usable : twoReversed.Usable intDomain 4 fun a => a 1 :=
  twoReversed_rearranged.usable 4 _ twoVariables_usable.2.1

theorem resetpair_identity_iff_two : ∃ q, (1, q) ∈ (onePair.resetpair 1).pairs ∧
    ReturnsOperand intDomain trialDivision 2 q
      (onePair.bdd.level 2 = 0 → onePair.bdd.env.bddlevel2var 0 = 0) (onePair.resetpair 1).bdd :=
  ⟨_, List.mem_cons_self, (resetpair_identity_iff (onePair_reached fun _ => True)).1 _
    List.mem_cons_self _ List.mem_cons_self 2 (fun a => a 0) twoVariables_usable.1⟩

/-- The pair after it was reset. -/
def resetReversed : BddPair :=
  ((reversedPair.resetpair 1).pairs.lookup 1).getD ⟨fun _ => 0, 0, 0⟩

/-- With variable `1` at the first level, a pair that was reset turns it into variable `0`. -/
theorem resetpair_renames : reversedPair.Reached intDomain trialDivision (fun _ => True) ∧
    reversedPair.bdd.Usable intDomain 4 (fun a => a 1) ∧
    (1, resetReversed) ∈ (reversedPair.resetpair 1).pairs ∧
      ¬ ∃ res s', bddReplace intDomain trialDivision 4 resetReversed
        (reversedPair.resetpair 1).bdd = some (res, s') ∧ (s'.Ok → res = 4) := by
  refine ⟨reversedPair_reached _, twoReversed_usable, List.mem_cons_self, ?_⟩
  rintro ⟨res, s', heq, hres⟩
  have hrun : (bddReplace intDomain trialDivision 4 resetReversed
      (reversedPair.resetpair 1).bdd).map (fun r => (r.1, r.2.bdderrorcond)) = some (2, false) := by
    decide +kernel
  rw [heq, Option.map_some, Option.some.injEq, Prod.mk.injEq] at hrun
  obtain ⟨rfl, hok⟩ := hrun
  exact absurd (hres hok) (by decide)

end MoToBuddy.Bdd
