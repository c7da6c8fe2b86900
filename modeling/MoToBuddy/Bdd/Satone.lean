import MoToBuddy.Bdd.Allsat

/-!
# `bdd_satone`, `bdd_satoneset` and `bdd_fullsatone` (`bddop.c`)

The recursions follow one path to the constant true, and build the tree of its decisions from below
(`Stacks.make`). `bdd_satoneset` adds a decision at each level of the set that the path skips, and
`bdd_fullsatone` at every level that it skips: both are `fill`.
-/

namespace MoToBuddy.Bdd

open Decision BoolFun CountedLoop Package

variable {P : Type*} {D : MtbddDomain P} {isPrime : ℕ → Bool} {T : Theory P} {σ : PairTable P}
  {S : Setting P} {s s' : BddState P} {w : Package P}

section

variable (D isPrime)

/-- `PUSHREF(bdd_makenode(level, low, high))`. -/
def pushMakenode (s : BddState P) (level low high : ℕ) : ℕ × BddState P :=
  let r := bddMakenode D isPrime s level low high
  (r.1, r.2.pushref r.1)

/-- `satone_rec`. -/
def satoneRec : ℕ → ℕ → BddState P → Option (ℕ × BddState P)
  | 0, _, _ => none
  | fuel + 1, r, s =>
    if r < 2 then some (r, s)
    else if s.low r = 0 then
      (satoneRec fuel (s.high r) s).map fun (res, s) =>
        pushMakenode D isPrime s (s.level r) 0 res
    else
      (satoneRec fuel (s.low r) s).map fun (res, s) =>
        pushMakenode D isPrime s (s.level r) res 0

/-- `bdd_satone`. -/
def bddSatone (r : ℕ) : BddState P → Option (ℕ × BddState P) :=
  checka r fun s =>
    if r < 2 then some (r, s) else operation isPrime (satoneRec D isPrime depth r) s

/-- `satoneset_rec`. -/
def satonesetRec (satPolarity : ℕ) : ℕ → ℕ → ℕ → BddState P → Option (ℕ × BddState P)
  | 0, _, _, _ => none
  | fuel + 1, r, var, s =>
    if r < 2 ∧ var < 2 then some (r, s)
    else if s.level r < s.level var then
      if s.low r = 0 then
        (satonesetRec satPolarity fuel (s.high r) var s).map fun (res, s) =>
          pushMakenode D isPrime s (s.level r) 0 res
      else
        (satonesetRec satPolarity fuel (s.low r) var s).map fun (res, s) =>
          pushMakenode D isPrime s (s.level r) res 0
    else if s.level var < s.level r then
      (satonesetRec satPolarity fuel r (s.high var) s).map fun (res, s) =>
        if satPolarity = 1 then pushMakenode D isPrime s (s.level var) 0 res
        else pushMakenode D isPrime s (s.level var) res 0
    else
      if s.low r = 0 then
        (satonesetRec satPolarity fuel (s.high r) (s.high var) s).map fun (res, s) =>
          pushMakenode D isPrime s (s.level r) 0 res
      else
        (satonesetRec satPolarity fuel (s.low r) (s.high var) s).map fun (res, s) =>
          pushMakenode D isPrime s (s.level r) res 0

/-- `bdd_satoneset`. -/
def bddSatoneset (r var pol : ℕ) : BddState P → Option (ℕ × BddState P) :=
  checka r fun s =>
    if r = 0 then some (r, s)
    else if pol ≥ 2 then some (0, s.error .illbdd)
    else operation isPrime (satonesetRec D isPrime pol depth r var) s

/-- `for (v = top - 1; v >= bottom; v--) res = PUSHREF(bdd_makenode(v, res, 0))`. -/
def lowChain (bottom top : ℕ) : ℕ × BddState P → ℕ × BddState P :=
  forDown bottom (top - bottom) fun v r => pushMakenode D isPrime r.2 v r.1 0

/-- `fullsatone_rec`. -/
def fullsatoneRec : ℕ → ℕ → BddState P → Option (ℕ × BddState P)
  | 0, _, _ => none
  | fuel + 1, r, s =>
    if r < 2 then some (r, s)
    else if s.low r ≠ 0 then
      (fullsatoneRec fuel (s.low r) s).map fun (res, s) =>
        let (res, s) := lowChain D isPrime (s.level r + 1) (s.level (s.low r)) (res, s)
        pushMakenode D isPrime s (s.level r) res 0
    else
      (fullsatoneRec fuel (s.high r) s).map fun (res, s) =>
        let (res, s) := lowChain D isPrime (s.level r + 1) (s.level (s.high r)) (res, s)
        pushMakenode D isPrime s (s.level r) 0 res

/-- The recursion of `bdd_fullsatone`, and the loop over the levels above its operand. -/
def fullsatoneAll (r : ℕ) (s : BddState P) : Option (ℕ × BddState P) :=
  (fullsatoneRec D isPrime depth r s).map fun (res, s) =>
    lowChain D isPrime 0 (s.level r) (res, s)

/-- `bdd_fullsatone`. -/
def bddFullsatone (r : ℕ) : BddState P → Option (ℕ × BddState P) :=
  checka r fun s =>
    if r = 0 then some (0, s) else operation isPrime (fullsatoneAll D isPrime r) s

end

/-! ## Results on the stack -/

/-- The contract of a recursion that leaves its results on the stack. -/
structure Stacked (S : Setting P) (s : BddState P) (Q : Prop → DTree (Leaf P) → Prop)
    (r : ℕ × BddState P) : Prop where
  inv : Inv S r.2
  evo : Evo S.D s r.2
  pushed : Pushed S r.2 Q r.1

def Stacks (S : Setting P) (s : BddState P) (Q : Prop → DTree (Leaf P) → Prop)
    (o : Option (ℕ × BddState P)) : Prop := ∃ r, o = some r ∧ Stacked S s Q r

/-- The tree of a path, unless an exhaustion was reported. -/
def CubeAt (k : ℕ) (π : List (ℕ × Bool)) (ok : Prop) (t : DTree (Leaf P)) : Prop :=
  IsBool t ∧ t.Above k ∧ (ok → boolTree t = cube π)

theorem CubeAt.lasting (k : ℕ) (π : List (ℕ × Bool)) : Lasting (CubeAt (P := P) k π) :=
  fun _ _ _ hok h => ⟨h.1, h.2.1, fun ok => h.2.2 (hok ok)⟩

theorem CubeAt.mono {j k : ℕ} {π : List (ℕ × Bool)} {ok : Prop} {t : DTree (Leaf P)}
    (h : CubeAt k π ok t) (hj : j ≤ k) : CubeAt j π ok t := ⟨h.1, h.2.1.mono hj, h.2.2⟩

section

variable {k level : ℕ} {π : List (ℕ × Bool)} {r : ℕ × BddState P}

theorem Stacked.mono {j : ℕ} (h : Stacked S s (CubeAt k π) r) (hj : j ≤ k) :
    Stacked S s (CubeAt j π) r :=
  ⟨h.inv, h.evo, h.pushed.mono fun _ _ ht => ht.mono hj⟩

/-- A decision on top of a result. -/
theorem Stacked.make (h : Stacked S s (CubeAt (level + 1) π) r) (hlevel : level < S.top) (b : Bool) :
    Stacked S s (CubeAt level ((level, b) :: π)) (pushMakenode S.D S.isPrime r.2 level
      (if b then 0 else r.1) (if b then r.1 else 0)) := by
  let Q : Bool → Prop → DTree (Leaf P) → Prop := fun c ok t =>
    if b = c then CubeAt (level + 1) π ok t else t = .leaf (.const false)
  have hQ : ∀ c, Lasting (Q c) := fun c ok ok' t hok ht => by
    show if b = c then _ else _
    have ht : if b = c then CubeAt (level + 1) π ok t else t = .leaf (.const false) := ht
    split_ifs at ht ⊢
    · exact CubeAt.lasting _ _ ok ok' t hok ht
    · exact ht
  have hzero : Operand S r.2 0 (.leaf (.const false)) :=
    ⟨Or.inl (by decide), .const false, trivial, h.inv.top⟩
  have hchild : ∀ c, Pushed S r.2 (fun ok t => t.Above (level + 1) ∧ Q c ok t)
      (if b = c then r.1 else 0) := fun c => by
    by_cases hc : b = c
    · rw [if_pos hc]
      exact h.pushed.mono fun ok t ht => ⟨ht.2.1, show if b = c then _ else _ by rwa [if_pos hc]⟩
    · rw [if_neg hc]
      exact ⟨_, hzero, trivial, show if b = c then _ else _ by rw [if_neg hc]⟩
  have hlow : (if b = false then r.1 else 0) = if b then 0 else r.1 := by cases b <;> rfl
  have hhigh : (if b = true then r.1 else 0) = if b then r.1 else 0 := rfl
  have hpost := (makenode_post h.inv hlevel (hQ false) (hQ true) (hchild false) (hchild true)).mono
    fun ok t ht => (?_ : CubeAt level ((level, b) :: π) ok t)
  · rw [hlow, hhigh] at hpost
    obtain ⟨hinv, hevo, -, hpushed⟩ := hpost.pushref
    exact ⟨hinv, h.evo.trans hevo, hpushed⟩
  rcases ht with ⟨tl, th, hl, hh, hal, hah, hj⟩ | ⟨hno, rfl⟩
  · have hl : if b = false then CubeAt (level + 1) π ok tl else tl = .leaf (.const false) := hl
    have hh : if b = true then CubeAt (level + 1) π ok th else th = .leaf (.const false) := hh
    have hbool : IsBool tl ∧ IsBool th := by
      cases b <;> simp at hl hh
      · exact ⟨hl.1, hh ▸ trivial⟩
      · exact ⟨hl ▸ trivial, hh.1⟩
    rcases hj with ⟨rfl, -⟩ | ⟨-, heq, rfl⟩
    · refine ⟨hbool, Nat.le_refl level, fun hok => ?_⟩
      rw [boolTree_node, cube_cons]
      cases b <;> simp at hl hh
      · rw [hl.2.2 hok, hh]
        rfl
      · rw [hh.2.2 hok, hl]
        rfl
    · -- one child would be the constant false, and the other a cube
      refine ⟨hbool.1, hal.mono (Nat.le_succ level), fun hok => ?_⟩
      cases b <;> simp at hl hh
      · have := hl.2.2 hok
        rw [heq, hh] at this
        exact absurd this.symm (cube_ne_false π)
      · have := hh.2.2 hok
        rw [← heq, hl] at this
        exact absurd this.symm (cube_ne_false π)
  · exact ⟨trivial, trivial, fun hok => absurd hok hno⟩

theorem Stacks.mono {j : ℕ} {o : Option (ℕ × BddState P)} (h : Stacks S s (CubeAt k π) o)
    (hj : j ≤ k) : Stacks S s (CubeAt j π) o := by
  obtain ⟨r, hr, hst⟩ := h
  exact ⟨r, hr, hst.mono hj⟩

/-- A recursion that makes a decision out of what it returned for the rest. -/
theorem Stacks.make {o : Option (ℕ × BddState P)} {f : ℕ × BddState P → ℕ × BddState P}
    (h : Stacks S s (CubeAt (level + 1) π) o) (hlevel : level < S.top) (b : Bool)
    (hf : ∀ r : ℕ × BddState P, Evo S.D s r.2 → f r = pushMakenode S.D S.isPrime r.2 level
      (if b then 0 else r.1) (if b then r.1 else 0)) :
    Stacks S s (CubeAt level ((level, b) :: π)) (o.map f) := by
  obtain ⟨r, rfl, hst⟩ := h
  exact ⟨_, rfl, hf r hst.evo ▸ hst.make hlevel b⟩

end

/-! ## The path -/

section

variable {n r k fuel : ℕ} {t : DTree (Leaf P)}

/-- An operand that is not a constant is a decision between two operands. -/
theorem Operand.decision (h : Operand S s n t) (hb : IsBool t) (hn : ¬ n < 2) :
    s.level n < S.top ∧ ∃ tl th, t = .node (s.level n) tl th ∧
      Operand S s (s.low n) tl ∧ Operand S s (s.high n) th := by
  have hlt := h.level_lt hb hn
  obtain ⟨tl, th, rfl⟩ := h.node_of_level hlt
  obtain ⟨-, -, -, low, high, hlow, hhigh, hol, hoh⟩ := h.child
  have hlow' : s.low n = low := by
    unfold BddState.low
    rw [hlow]
    rfl
  have hhigh' : s.high n = high := hhigh
  exact ⟨hlt, tl, th, rfl, hlow' ▸ hol, hhigh' ▸ hoh⟩

theorem Operand.eq_zero_iff' (h : Operand S s n t) (hb : IsBool t) :
    n = 0 ↔ boolTree t = .leaf false := by
  constructor
  · intro hn
    rw [h.const (b := false) hn]
    rfl
  · intro ht
    have hr := h.reads
    cases hr with
    | const b =>
      have hb : b = false := DTree.leaf.inj ht
      rw [hb]
      rfl
    | terminal _ _ _ _ => exact hb.elim
    | node _ _ _ _ _ => cases ht

/-- A constant that is returned. -/
theorem Stacks.const (hs : Inv S s) (hr : Operand S s r t) (h2 : r < 2) (hz : r ≠ 0) (k : ℕ) :
    boolTree t = .leaf true ∧ Stacks S s (CubeAt k []) (some (r, s)) := by
  have hone : r = true.toNat := by
    show r = 1
    omega
  have ht := hr.const hone
  subst ht
  exact ⟨rfl, _, rfl, hs, .refl s, _, hr, trivial, trivial, fun _ => rfl⟩

/-- The branch that is followed: the low one, unless it is the constant false. -/
theorem Operand.first (hr : Operand S s r t) (hb : IsBool t) (hred : t.Reduced) (h2 : ¬ r < 2) :
    s.level r < S.top ∧ ∃ m u b, (s.low r = 0 ∧ m = s.high r ∧ b = true ∨
        s.low r ≠ 0 ∧ m = s.low r ∧ b = false) ∧ Operand S s m u ∧ IsBool u ∧ u.Reduced ∧ m ≠ 0 ∧
      u.Above (s.level r + 1) ∧ (boolTree t).first = (s.level r, b) :: (boolTree u).first := by
  obtain ⟨hlt, tl, th, ht, hol, hoh⟩ := hr.decision hb h2
  refine ⟨hlt, ?_⟩
  generalize s.level r = level at ht
  subst ht
  obtain ⟨-, hal, hah, -, -⟩ := hr.sorted
  rw [boolTree_node, DTree.first_node]
  by_cases hlow : s.low r = 0
  · -- the children of a node differ
    have hne : s.high r ≠ 0 := fun hhigh =>
      hred.1 (boolTree_inj hb.1 hb.2 (((hol.eq_zero_iff' hb.1).mp hlow).trans
        ((hoh.eq_zero_iff' hb.2).mp hhigh).symm))
    rw [if_pos ((hol.eq_zero_iff' hb.1).mp hlow)]
    exact ⟨_, th, true, Or.inl ⟨hlow, rfl, rfl⟩, hoh, hb.2, hred.2.2, hne, hah, rfl⟩
  · rw [if_neg fun h => hlow ((hol.eq_zero_iff' hb.1).mpr h)]
    exact ⟨_, tl, false, Or.inr ⟨hlow, rfl, rfl⟩, hol, hb.1, hred.2.1, hlow, hal, rfl⟩

/-- The levels of the path are those from the root's on. -/
theorem Operand.first_above (hr : Operand S s r t) (hb : IsBool t) (hred : t.Reduced) (hz : r ≠ 0) :
    ∀ d ∈ (boolTree t).first, s.level r ≤ d.1 := fun d hd =>
  ((DTree.paths_levels (sorted_boolTree.mpr hr.sorted) (above_boolTree.mpr hr.above)
    (DTree.first_mem_paths (reduced_boolTree hred hb) fun h =>
      hz ((hr.eq_zero_iff' hb).mpr h))).2 d hd).1

theorem satoneRec_stacks (hs : Inv S s) (hr : Operand S s r t) (hb : IsBool t) (hred : t.Reduced)
    (hz : r ≠ 0) (ha : t.Above k) (hfuel : S.top - k < fuel) :
    Stacks S s (CubeAt k (boolTree t).first) (satoneRec S.D S.isPrime fuel r s) := by
  induction fuel generalizing k r t with
  | zero => omega
  | succ fuel ih =>
    unfold satoneRec
    by_cases h2 : r < 2
    · rw [if_pos h2]
      obtain ⟨ht, hst⟩ := Stacks.const hs hr h2 hz k
      rw [ht]
      exact hst
    rw [if_neg h2]
    obtain ⟨hlt, m, u, b, hm, hu, hbu, hredu, hzu, hau, hfirst⟩ := hr.first hb hred h2
    have hk := hr.le_level ha hlt
    have hrest := ih hu hbu hredu hzu hau (by omega)
    rw [hfirst]
    rcases hm with ⟨hlow, rfl, rfl⟩ | ⟨hlow, rfl, rfl⟩
    · rw [if_pos hlow]
      exact (hrest.make hlt true fun r' he => by rw [← hr.level_evo hlt he]; rfl).mono hk
    · rw [if_neg hlow]
      exact (hrest.make hlt false fun r' he => by rw [← hr.level_evo hlt he]; rfl).mono hk

/-! ## With the levels of a set -/

variable {var : ℕ} {tv : DTree (Leaf P)}

/-- The rest of a set. -/
theorem Operand.set_high (hv : Operand S s var tv) (hb : IsBool tv) (h2 : ¬ var < 2) :
    s.level var < S.top ∧ ∃ u, Operand S s (s.high var) u ∧ IsBool u ∧
      u.Above (s.level var + 1) ∧ tv.highPath = s.level var :: u.highPath := by
  obtain ⟨hlt, tl, th, ht, -, hoh⟩ := hv.decision hb h2
  generalize s.level var = level at ht hlt
  subst ht
  exact ⟨hlt, th, hoh, hb.2, hv.sorted.2.2.1, rfl⟩

theorem satonesetRec_stacks (satPolarity : ℕ) (hs : Inv S s) (hr : Operand S s r t) (hb : IsBool t)
    (hred : t.Reduced) (hz : r ≠ 0) (hv : Operand S s var tv) (hbv : IsBool tv) (ha : t.Above k)
    (hav : tv.Above k) (hfuel : S.top - k < fuel) :
    Stacks S s (CubeAt k (fill (decide (satPolarity = 1)) tv.highPath (boolTree t).first))
      (satonesetRec S.D S.isPrime satPolarity fuel r var s) := by
  induction fuel generalizing k r t var tv with
  | zero => omega
  | succ fuel ih =>
    unfold satonesetRec
    by_cases hconst : r < 2 ∧ var < 2
    · rw [if_pos hconst]
      obtain ⟨ht, hst⟩ := Stacks.const hs hr hconst.1 hz k
      obtain ⟨b, -, rfl⟩ := hv.eq_toNat hconst.2
      rw [ht, show DTree.highPath (DTree.leaf (Leaf.const b : Leaf P)) = [] from rfl, fill_nil]
      exact hst
    rw [if_neg hconst]
    -- a constant is below all decisions
    have hdecision : ∀ {n : ℕ} {u : DTree (Leaf P)}, Operand S s n u → IsBool u → 2 ≤ n →
        s.level n < S.top := fun h hu hn => h.level_lt hu (by omega)
    have htop := hr.top
    by_cases hlt : s.level r < s.level var
    · rw [if_pos hlt]
      have h2 : ¬ r < 2 := fun h2 => by
        have := htop r h2
        have := hdecision hv hbv (by omega)
        omega
      obtain ⟨hlevel, m, u, b, hm, hu, hbu, hredu, hzu, hau, hfirst⟩ := hr.first hb hred h2
      have hk := hr.le_level ha hlevel
      have hrest := ih hu hbu hredu hzu hv hbv hau (hv.above.mono (by omega)) (by omega)
      rw [hfirst, fill_left fun j hj => by
        have := (DTree.highPath_bound hv.sorted hv.above hj).1
        omega]
      rcases hm with ⟨hlow, rfl, rfl⟩ | ⟨hlow, rfl, rfl⟩
      · rw [if_pos hlow]
        exact (hrest.make hlevel true fun r' he => by rw [← hr.level_evo hlevel he]; rfl).mono hk
      · rw [if_neg hlow]
        exact (hrest.make hlevel false fun r' he => by rw [← hr.level_evo hlevel he]; rfl).mono hk
    rw [if_neg hlt]
    by_cases hgt : s.level var < s.level r
    · rw [if_pos hgt]
      have h2 : ¬ var < 2 := fun h2 => by
        have := htop var h2
        have := hdecision hr hb (by omega)
        omega
      obtain ⟨hlevel, u, hu, hbu, hau, hpath⟩ := hv.set_high hbv h2
      have hk := hv.le_level hav hlevel
      have hrest := ih hr hb hred hz hu hbu (hr.above.mono hgt) hau (by omega)
      rw [hpath, fill_right fun d hd => Nat.lt_of_lt_of_le hgt (hr.first_above hb hred hz d hd)]
      refine (hrest.make hlevel (decide (satPolarity = 1)) fun r' he => ?_).mono hk
      dsimp only
      rw [hv.level_evo hlevel he]
      by_cases hpol : satPolarity = 1
      · rw [if_pos hpol, decide_eq_true hpol]
        rfl
      · rw [if_neg hpol, decide_eq_false hpol]
        rfl
    · rw [if_neg hgt]
      have heq : s.level r = s.level var := by omega
      have h2 : ¬ r < 2 := fun h2 => by
        have := htop r h2
        have := hdecision hv hbv (by omega)
        omega
      have h2v : ¬ var < 2 := fun h2v => by
        have := htop var h2v
        have := hdecision hr hb (by omega)
        omega
      obtain ⟨hlevel, m, u, b, hm, hu, hbu, hredu, hzu, hau, hfirst⟩ := hr.first hb hred h2
      obtain ⟨-, v, hv', hbv', hav', hpath⟩ := hv.set_high hbv h2v
      have hk := hr.le_level ha hlevel
      rw [← heq] at hpath hav'
      have hrest := ih hu hbu hredu hzu hv' hbv' hau hav' (by omega)
      rw [hpath, hfirst, fill_both]
      rcases hm with ⟨hlow, rfl, rfl⟩ | ⟨hlow, rfl, rfl⟩
      · rw [if_pos hlow]
        exact (hrest.make hlevel true fun r' he => by rw [← hr.level_evo hlevel he]; rfl).mono hk
      · rw [if_neg hlow]
        exact (hrest.make hlevel false fun r' he => by rw [← hr.level_evo hlevel he]; rfl).mono hk

/-! ## With all levels -/

theorem Operand.level_same (h : Operand S s r t) (hb : IsBool t) (he : Evo S.D s s') :
    s'.level r = s.level r := by
  by_cases h2 : r < 2
  · exact he.const r h2
  · exact h.level_evo (h.level_lt hb h2) he

theorem Operand.key_same (h : Operand S s r t) (h2 : ¬ r < 2) (he : Evo S.D s s') :
    s'.low r = s.low r ∧ s'.high r = s.high r := by
  have hkey := (he.same r (h.held.resolve_left h2)).key
  exact ⟨congrArg (·.low.getD 0) hkey, congrArg BddKey.high hkey⟩

theorem range'_split {a b c : ℕ} (hab : a ≤ b) (hbc : b ≤ c) :
    List.range' a (c - a) = List.range' a (b - a) ++ List.range' b (c - b) := by
  have happend := @List.range'_append a (b - a) (c - b) 1
  rw [show a + 1 * (b - a) = b by omega, show b - a + (c - b) = c - a by omega] at happend
  exact happend.symm

/-- The decisions at the levels that an edge skips. -/
theorem Stacked.lowChain {π : List (ℕ × Bool)} {bottom top : ℕ} {p : ℕ × BddState P}
    (h : Stacked S s (CubeAt top π) p) (hle : bottom ≤ top) (htop : top ≤ S.top) :
    Stacked S s (CubeAt bottom ((List.range' bottom (top - bottom)).map (·, false) ++ π))
      (lowChain S.D S.isPrime bottom top p) := by
  have hloop := forDown_induct (a := bottom) (k := top - bottom)
    (f := fun v (r : ℕ × BddState P) => pushMakenode S.D S.isPrime r.2 v r.1 0) (s := p)
    (fun n q => Stacked S s (CubeAt n ((List.range' n (top - n)).map (·, false) ++ π)) q) ?_ ?_
  · exact hloop
  · rw [show bottom + (top - bottom) = top by omega, Nat.sub_self]
    exact h
  · intro n q hn hk hq
    have hsucc : List.range' n (top - n) = n :: List.range' (n + 1) (top - (n + 1)) := by
      rw [show top - n = top - (n + 1) + 1 by omega, List.range'_succ]
    rw [hsucc]
    exact hq.make (by omega) false

theorem fullsatoneRec_stacks (hs : Inv S s) (hconst : ∀ n, n < 2 → s.level n = S.top)
    (hr : Operand S s r t) (hb : IsBool t) (hred : t.Reduced) (hz : r ≠ 0)
    (hfuel : S.top - s.level r < fuel) :
    Stacks S s (CubeAt (s.level r)
        (fill false (List.range' (s.level r) (S.top - s.level r)) (boolTree t).first))
      (fullsatoneRec S.D S.isPrime fuel r s) := by
  induction fuel generalizing r t with
  | zero => omega
  | succ fuel ih =>
    unfold fullsatoneRec
    by_cases h2 : r < 2
    · rw [if_pos h2]
      obtain ⟨ht, hst⟩ := Stacks.const hs hr h2 hz (s.level r)
      rw [ht, hconst r h2, Nat.sub_self, List.range'_zero, fill_nil]
      rw [hconst r h2] at hst
      exact hst
    rw [if_neg h2]
    obtain ⟨hlt, m, u, b, hm, hu, hbu, hredu, hzu, hau, hfirst⟩ := hr.first hb hred h2
    -- the child is a decision below, or the constant true
    have hle : s.level m ≤ S.top := by
      by_cases hm2 : m < 2
      · exact (hconst m hm2).le
      · exact (hu.level_lt hbu hm2).le
    have hgt : s.level r < s.level m := by
      by_cases hm2 : m < 2
      · rw [hconst m hm2]
        exact hlt
      · exact hu.le_level hau (hu.level_lt hbu hm2)
    have hrest := ih hu hbu hredu hzu (by omega)
    have hpath : fill false (List.range' (s.level r) (S.top - s.level r)) (boolTree t).first =
        (s.level r, b) :: ((List.range' (s.level r + 1) (s.level m - (s.level r + 1))).map (·, false)
          ++ fill false (List.range' (s.level m) (S.top - s.level m)) (boolTree u).first) := by
      rw [hfirst, show S.top - s.level r = S.top - (s.level r + 1) + 1 by omega, List.range'_succ,
        fill_both, range'_split (b := s.level m) (by omega) hle, fill_append fun j hj d hd => ?_]
      have hd := hu.first_above hbu hredu hzu d hd
      have hj := List.mem_range'_1.mp hj
      omega
    rw [hpath]
    obtain ⟨p, hp, hst⟩ := hrest
    have hchain := hst.lowChain (show s.level r + 1 ≤ _ by omega) hle
    have hmake := hchain.make hlt b
    have hlevel := hr.level_evo hlt hst.evo
    have hlevel' := hr.level_evo hlt hchain.evo
    have hlevelm := hu.level_same hbu hst.evo
    obtain ⟨hlow', hhigh'⟩ := hr.key_same h2 hst.evo
    rcases hm with ⟨hlow, rfl, rfl⟩ | ⟨hlow, rfl, rfl⟩
    · rw [if_neg (by simp [hlow]), hp]
      refine ⟨_, rfl, ?_⟩
      dsimp only
      rw [hlevel, hhigh', hlevelm]
      rw [hlevel']
      exact hmake
    · rw [if_pos hlow, hp]
      refine ⟨_, rfl, ?_⟩
      dsimp only
      rw [hlevel, hlow', hlevelm]
      rw [hlevel']
      exact hmake

end

/-! ## The calls -/

theorem checkresize_restack (isPrime : ℕ → Bool) (s : BddState P) (l : List ℕ) :
    checkresize isPrime { s with bddrefstack := l } =
      { checkresize isPrime s with bddrefstack := l } := by
  unfold checkresize operatorNoderesize
  dsimp only
  split_ifs <;> rfl

/-- The end of an operation whose recursion leaves its results on the stack. -/
theorem operation_stacks (h : Good T s) {rec : BddState P → Option (ℕ × BddState P)}
    {Q : Prop → DTree (Leaf P) → Prop}
    (hrec : Stacks (T.setting s.env.bddvarnum h.num) s.initref Q (rec s.initref)) :
    ∃ res, operation T.isPrime rec s = some res ∧ Good T res.2 ∧ Keeps T.D s res.2 ∧
      ∃ t, res.2.Reads T.D res.1 t ∧ Q res.2.Ok t := by
  obtain ⟨r, hr, hst⟩ := hrec
  obtain ⟨t, ht, hQ⟩ := hst.pushed
  -- the state with the stack as it was at the start
  let rec' : BddState P → Option (ℕ × BddState P) := fun s =>
    (rec s).map fun r => (r.1, { r.2 with bddrefstack := [] })
  have hpost : Post (T.setting s.env.bddvarnum h.num) s.initref Q
      (r.1, { r.2 with bddrefstack := [] }) :=
    ⟨hst.inv.restack fun n hn => absurd hn List.not_mem_nil,
      hst.evo.restack (List.nil_subset _), rfl,
      t, ht.reads.congr fun m _ => ⟨rfl, fun _ _ => rfl⟩, hQ⟩
  have hret : Returns (T.setting s.env.bddvarnum h.num) s.initref Q (rec' s.initref) :=
    ⟨_, congrArg (Option.map _) hr, hpost⟩
  obtain ⟨res, hres, hfin⟩ := operation_finished h.sane hret
  have hres' : res = (r.1, { checkresize T.isPrime r.2 with bddrefstack := [] }) := by
    refine Option.some.inj (hres.symm.trans ?_)
    unfold operation
    show Option.bind ((rec s.initref).map _) _ = _
    rw [hr, ← checkresize_restack]
    rfl
  subst hres'
  have hgood : Good T { checkresize T.isPrime r.2 with bddrefstack := [] } := hfin.good h.marks
  -- only the stack is not as it was
  have hback : ∀ n ∈ r.2.bddrefstack,
      BddState.IsNode { checkresize T.isPrime r.2 with bddrefstack := [] } n := fun n hn =>
    (hst.inv.graph.stack n hn).imp_right fun hl => by
      obtain ⟨C, hC⟩ := checkresize_eq T.isPrime r.2
      rw [hC]
      exact hl
  have hpres := hgood.preserved_stack hback
  have hsame : { { checkresize T.isPrime r.2 with bddrefstack := [] } with
      bddrefstack := r.2.bddrefstack } = checkresize T.isPrime r.2 := by
    obtain ⟨C, hC⟩ := checkresize_eq T.isPrime r.2
    rw [hC]
  rw [hsame] at hpres
  obtain ⟨u, hu, hQu⟩ := hfin.result
  refine ⟨(r.1, checkresize T.isPrime r.2), ?_, hpres.good, hfin.keeps.trans hpres.keeps, u,
    hu.congr fun m _ => ⟨rfl, fun _ _ => rfl⟩, hQu⟩
  unfold operation
  rw [hr]
  rfl

/-! ## Cubes of variables -/

/-- A path, by variable. -/
def BddState.named (s : BddState P) (π : List (ℕ × Bool)) : List (ℕ × Bool) :=
  π.map fun d => (s.env.bddlevel2var d.1, d.2)

section

variable {π : List (ℕ × Bool)} {a : ℕ → Bool} {v : ℕ} {b : Bool}

theorem literals_named : Literals (s.named π) a = true ↔ Takes (s.assign a) π := by
  simp only [Literals, BddState.named, List.all_map, List.all_eq_true, Function.comp_apply,
    beq_iff_eq]
  exact Iff.rfl

theorem OrderInv.named_nodup (h : OrderInv s) (hπ : (π.map Prod.fst).Pairwise (· < ·))
    (hbound : ∀ d ∈ π, d.1 < s.env.bddvarnum) : ((s.named π).map Prod.fst).Nodup := by
  unfold BddState.named
  rw [List.map_map]
  refine List.pairwise_map.mpr ((List.pairwise_map.mp hπ).imp_of_mem fun hd he hlt heq => ?_)
  have h1 := (h.var _ (hbound _ hd)).2
  have h2 := (h.var _ (hbound _ he)).2
  have heq : s.env.bddlevel2var _ = s.env.bddlevel2var _ := heq
  rw [heq, h2] at h1
  omega

theorem OrderInv.mem_named (h : OrderInv s) (hbound : ∀ d ∈ π, d.1 < s.env.bddvarnum)
    (hv : v < s.env.bddvarnum) : (v, b) ∈ s.named π ↔ (s.env.bddvar2level v, b) ∈ π := by
  unfold BddState.named
  rw [List.mem_map]
  constructor
  · rintro ⟨d, hd, heq⟩
    obtain ⟨rfl, rfl⟩ := Prod.mk.inj heq
    rw [(h.var d.1 (hbound d hd)).2]
    exact hd
  · exact fun hd => ⟨_, hd, by rw [(h.level v hv).2]⟩

end

/-- A node is a cube that implies a function. -/
structure Implicant (D : MtbddDomain P) (s : BddState P) (n : ℕ) (f : (ℕ → Bool) → Bool)
    (C : List (ℕ × Bool)) : Prop where
  nodup : (C.map Prod.fst).Nodup
  represents : s.Represents D n (Literals C)
  implies : ∀ a, Literals C a = true → f a = true

section

variable {f : (ℕ → Bool) → Bool} {r : ℕ} {t : DTree (Leaf P)} {π : List (ℕ × Bool)}

/-- A recursion that builds the tree of a path whose assignments satisfy the operand. -/
theorem Good.implicant (h : Good T s) (hf : ∀ a, evalBool t (s.assign a) = f a)
    (hπ : (π.map Prod.fst).Pairwise (· < ·)) (hbound : ∀ d ∈ π, d.1 < s.env.bddvarnum)
    (htakes : ∀ x, Takes x π → evalBool t x = true)
    {rec : BddState P → Option (ℕ × BddState P)}
    (hrec : Stacks (T.setting s.env.bddvarnum h.num) s.initref (CubeAt 0 π) (rec s.initref)) :
    ∃ res s', operation T.isPrime rec s = some (res, s') ∧
      (s'.Ok → res ≠ 0 ∧ Implicant T.D s' res f (s.named π)) := by
  obtain ⟨⟨res, s'⟩, hres, -, hkeeps, u, hu, hbu, -, hcube⟩ := operation_stacks h hrec
  refine ⟨res, s', hres, fun hok => ⟨fun hz => ?_, h.order.named_nodup hπ hbound, ?_, fun a ha => ?_⟩⟩
  · have hzero : u = .leaf (.const false) := by
      rw [hz] at hu
      exact hu.unique (BddState.Reads.const false)
    rw [hzero] at hcube
    exact cube_ne_false π (hcube hok).symm
  · refine ⟨u, hu, hbu, fun a => ?_⟩
    have hassign : s'.assign a = s.assign a := by
      unfold BddState.assign
      rw [hkeeps.level2var]
    rw [Bool.eq_iff_iff, ← eval_boolTree, hcube hok, eval_cube, literals_named, hassign]
  · rw [← hf]
    exact htakes _ (literals_named.mp ha)

/-- What is known of the operand and of the path that is followed. -/
theorem Good.first_path (h : Good T s) (hred : T.reduced) (hr : s.Usable T.D r f) (hz : r ≠ 0) :
    ∃ t, Operand (T.setting s.env.bddvarnum h.num) s.initref r t ∧ IsBool t ∧ t.Reduced ∧
      (∀ a, evalBool t (s.assign a) = f a) ∧ s.Path r (boolTree t).first ∧
      ((boolTree t).first.map Prod.fst).Pairwise (· < ·) ∧
      (∀ d ∈ (boolTree t).first, d.1 < s.env.bddvarnum) ∧
      ∀ x, Takes x (boolTree t).first → evalBool t x = true := by
  obtain ⟨t, ho, hb, hf⟩ := h.operand hr
  have hredt := h.initref.reduced hred ho hb
  have hmem := DTree.first_mem_paths (reduced_boolTree hredt hb) fun ht =>
    hz ((ho.eq_zero_iff' hb).mpr ht)
  have hlevels := DTree.paths_levels (sorted_boolTree.mpr ho.sorted) (DTree.above_zero _) hmem
  have hreads : s.Reads T.D r t := ho.reads.congr fun m _ => ⟨rfl, fun _ _ => rfl⟩
  refine ⟨t, ho, hb, hredt, hf, hreads.path hb hmem, hlevels.1, fun d hd => (hlevels.2 d hd).2,
    fun x hx => ?_⟩
  rw [← eval_boolTree]
  exact DTree.eval_eq_true_iff.mpr ⟨_, hmem, hx⟩

theorem Good.satone (h : Good T s) (hred : T.reduced) (hr : s.Usable T.D r f) :
    ∃ res s', bddSatone T.D T.isPrime r s = some (res, s') ∧ (s'.Ok → (res = 0 ↔ r = 0) ∧
      (r ≠ 0 → ∃ π, s.Path r π ∧ Implicant T.D s' res f (s.named π))) := by
  unfold bddSatone
  rw [checka_node h hr.isNode]
  by_cases h2 : r < 2
  · -- a constant is returned as it is
    rw [if_pos h2]
    refine ⟨r, s, rfl, fun _ => ⟨Iff.rfl, fun hz => ?_⟩⟩
    obtain rfl : r = 1 := by omega
    obtain ⟨-, t, ht, -, hf⟩ := hr
    have htrue : ∀ a, f a = true := fun a => by
      rw [← hf, ht.unique (.const true)]
      rfl
    exact ⟨[], .one, .nil, ⟨_, .const true, trivial, fun _ => rfl⟩, fun a _ => htrue a⟩
  · rw [if_neg h2]
    have hz : r ≠ 0 := by omega
    obtain ⟨t, ho, hb, hredt, hf, hpath, hlevels, hbound, htakes⟩ := h.first_path hred hr hz
    obtain ⟨res, s', hres, himp⟩ := h.implicant hf hlevels hbound htakes
      (satoneRec_stacks h.initref ho hb hredt hz t.above_zero (Setting.depth_bound _ 0))
    exact ⟨res, s', hres, fun hok => ⟨iff_of_false (himp hok).1 hz, fun _ =>
      ⟨_, hpath, (himp hok).2⟩⟩⟩

variable {var pol : ℕ} {V : List ℕ}

theorem Good.satoneset (V : List ℕ) (var pol : ℕ) (h : Good T s) (hred : T.reduced) (hr : s.Usable T.D r f)
    (hvar : s.Usable T.D var fun a => V.all a) (hpol : pol < 2) :
    ∃ res s', bddSatoneset T.D T.isPrime r var pol s = some (res, s') ∧ (s'.Ok →
      (res = 0 ↔ r = 0) ∧ (r ≠ 0 → ∃ π C, s.Path r π ∧ Implicant T.D s' res f C ∧
        s.named π ⊆ C ∧ (∀ v ∈ V, v ∈ C.map Prod.fst) ∧
        ∀ v ∈ V, (∀ b, (s.env.bddvar2level v, b) ∉ π) → (v, decide (pol = 1)) ∈ C)) := by
  unfold bddSatoneset
  rw [checka_node h hr.isNode]
  by_cases hz : r = 0
  · rw [if_pos hz]
    exact ⟨r, s, rfl, fun _ => ⟨Iff.rfl, fun hne => absurd hz hne⟩⟩
  rw [if_neg hz, if_neg (by omega)]
  obtain ⟨t, ho, hb, hredt, hf, hpath, hlevels, hbound, htakes⟩ := h.first_path hred hr hz
  obtain ⟨tv, hov, hbv, hfv⟩ := h.operand hvar
  have hreadsv : s.Reads T.D var tv := hov.reads.congr fun m _ => ⟨rfl, fun _ _ => rfl⟩
  have hlevelsv := DTree.highPath_pairwise hov.sorted
  have hmem := h.varset hred hreadsv hbv hfv
  have hV := h.order.set_lt hov.sorted hfv
  have hfill : ∀ d, d ∈ fill (decide (pol = 1)) _ _ ↔ _ := fun d => mem_fill hlevelsv hlevels
  have hboundf : ∀ d ∈ fill (decide (pol = 1)) tv.highPath (boolTree t).first,
      d.1 < s.env.bddvarnum := fun d hd => by
    rcases (hfill d).mp hd with hd | hd
    · exact hbound d hd
    · exact (DTree.highPath_bound hov.sorted tv.above_zero hd.1).2
  obtain ⟨res, s', hres, himp⟩ := h.implicant hf (fill_pairwise hlevelsv hlevels) hboundf
    (fun x hx => htakes x fun d hd => hx d ((hfill d).mpr (Or.inl hd)))
    (satonesetRec_stacks pol h.initref ho hb hredt hz hov hbv t.above_zero tv.above_zero
      (Setting.depth_bound _ 0))
  refine ⟨res, s', hres, fun hok => ⟨iff_of_false (himp hok).1 hz, fun _ => ⟨_, _, hpath,
    (himp hok).2, fun d hd => ?_, fun v hv => ?_, fun v hv hfree => ?_⟩⟩⟩
  · obtain ⟨e, he, rfl⟩ := List.mem_map.mp hd
    exact List.mem_map.mpr ⟨e, (hfill e).mpr (Or.inl he), rfl⟩
  · -- the path decides the variable, or it is filled in
    have hlt := hV v hv
    obtain ⟨hl, hback⟩ := h.order.level v hlt
    by_cases hon : ∃ b, (s.env.bddvar2level v, b) ∈ (boolTree t).first
    · obtain ⟨b, hb⟩ := hon
      exact List.mem_map_of_mem (f := Prod.fst)
        ((h.order.mem_named hboundf hlt).mpr ((hfill _).mpr (Or.inl hb)))
    · refine List.mem_map_of_mem (f := Prod.fst) ((h.order.mem_named (b := decide (pol = 1)) hboundf
        hlt).mpr ((hfill _).mpr (Or.inr ⟨(hmem _ hl).mpr (hback.symm ▸ hv), fun e he heq => ?_, rfl⟩)))
      have heq : e.1 = s.env.bddvar2level v := heq
      exact hon ⟨e.2, heq ▸ he⟩
  · have hlt := hV v hv
    obtain ⟨hl, hback⟩ := h.order.level v hlt
    refine (h.order.mem_named hboundf hlt).mpr ((hfill _).mpr (Or.inr
      ⟨(hmem _ hl).mpr (hback.symm ▸ hv), fun e he heq => ?_, rfl⟩))
    have heq : e.1 = s.env.bddvar2level v := heq
    exact hfree e.2 (heq ▸ he)

theorem Good.fullsatone (h : Good T s) (hred : T.reduced) (hlev : s.Leveled)
    (hnum : 0 < s.env.bddvarnum) (hr : s.Usable T.D r f) :
    ∃ res s', bddFullsatone T.D T.isPrime r s = some (res, s') ∧ (s'.Ok →
      (res = 0 ↔ r = 0) ∧ (r ≠ 0 → ∃ C, Implicant T.D s' res f C ∧
        ∀ v < s.env.bddvarnum, v ∈ C.map Prod.fst)) := by
  unfold bddFullsatone
  rw [checka_node h hr.isNode]
  by_cases hz : r = 0
  · rw [if_pos hz]
    exact ⟨0, s, rfl, fun _ => ⟨iff_of_true rfl hz, fun hne => absurd hz hne⟩⟩
  rw [if_neg hz]
  obtain ⟨t, ho, hb, hredt, hf, hpath, hlevels, hbound, htakes⟩ := h.first_path hred hr hz
  have hconst : ∀ n, n < 2 → s.initref.level n = s.env.bddvarnum := fun n hn =>
    (hlev n hn).trans (if_neg (by omega))
  have hle : s.initref.level r ≤ s.env.bddvarnum := by
    by_cases h2 : r < 2
    · exact (hconst r h2).le
    · exact (ho.level_lt hb h2).le
  have hfuel : s.env.bddvarnum - s.initref.level r < depth :=
    Setting.depth_bound (T.setting s.env.bddvarnum h.num) _
  obtain ⟨p, hp, hst⟩ := fullsatoneRec_stacks h.initref hconst ho hb hredt hz hfuel
  -- the levels above the root are filled in at the end
  have hchain := hst.lowChain (Nat.zero_le _) hle
  have hall : (List.range' 0 (s.initref.level r - 0)).map (·, false) ++
      fill false (List.range' (s.initref.level r) (s.env.bddvarnum - s.initref.level r))
        (boolTree t).first = fill false (List.range' 0 s.env.bddvarnum) (boolTree t).first := by
    have hsplit := range'_split (Nat.zero_le _) hle
    rw [Nat.sub_zero] at hsplit
    rw [hsplit, fill_append fun j hj d hd => ?_]
    have hd := ho.first_above hb hredt hz d hd
    have hj := List.mem_range'_1.mp hj
    omega
  have hchain' : Stacked (T.setting s.env.bddvarnum h.num) s.initref
      (CubeAt 0 (fill false (List.range' 0 s.env.bddvarnum) (boolTree t).first))
      (lowChain T.D T.isPrime 0 (s.initref.level r) p) := hall ▸ hchain
  have hrange : (List.range' 0 s.env.bddvarnum).Pairwise (· < ·) := List.pairwise_lt_range'
  have hfill : ∀ d, d ∈ fill false _ _ ↔ _ := fun d => mem_fill hrange hlevels
  have hboundf : ∀ d ∈ fill false (List.range' 0 s.env.bddvarnum) (boolTree t).first,
      d.1 < s.env.bddvarnum := fun d hd => by
    rcases (hfill d).mp hd with hd | hd
    · exact hbound d hd
    · have := List.mem_range'_1.mp hd.1
      omega
  have hrun : fullsatoneAll T.D T.isPrime r s.initref =
      some (lowChain T.D T.isPrime 0 (s.initref.level r) p) := by
    have hp' : fullsatoneRec T.D T.isPrime depth r s.initref = some p := hp
    have hlevel := ho.level_same hb hst.evo
    unfold fullsatoneAll
    rw [hp', Option.map_some]
    show some (lowChain T.D T.isPrime 0 (p.2.level r) p) = _
    rw [hlevel]
  obtain ⟨res, s', hres, himp⟩ := h.implicant hf (fill_pairwise hrange hlevels) hboundf
    (fun x hx => htakes x fun d hd => hx d ((hfill d).mpr (Or.inl hd)))
    ⟨_, hrun, hchain'⟩
  refine ⟨res, s', hres, fun hok => ⟨iff_of_false (himp hok).1 hz, fun _ => ⟨_, (himp hok).2,
    fun v hv => ?_⟩⟩⟩
  obtain ⟨hl, -⟩ := h.order.level v hv
  have hmem : ∃ b, (s.env.bddvar2level v, b) ∈
      fill false (List.range' 0 s.env.bddvarnum) (boolTree t).first := by
    by_cases hon : ∃ b, (s.env.bddvar2level v, b) ∈ (boolTree t).first
    · exact hon.imp fun b hb => (hfill _).mpr (Or.inl hb)
    · refine ⟨false, (hfill _).mpr (Or.inr ⟨List.mem_range'_1.mpr (by omega), fun e he heq => ?_,
        rfl⟩)⟩
      have heq : e.1 = s.env.bddvar2level v := heq
      exact hon ⟨e.2, heq ▸ he⟩
  obtain ⟨b, hb⟩ := hmem
  exact List.mem_map_of_mem (f := Prod.fst) ((h.order.mem_named hboundf hv).mpr hb)

end

/-! ## Main result -/

/-- In any session, unless an exhaustion was reported: the three functions return the constant false
for the constant false only, and otherwise a cube that implies the operand. `bdd_satone` returns the
decisions of a path to the constant true; `bdd_satoneset` adds all variables of the set, in the
given polarity when the path leaves them free; `bdd_fullsatone`, once variables have been declared,
has a literal for each of them. -/
theorem bddSatone_implicants {reset : BddState P → Prop} {f : (ℕ → Bool) → Bool} {r : ℕ}
    (hw : w.Reached D isPrime reset) (hr : w.bdd.Usable D r f) :
    (∃ res s', bddSatone D isPrime r w.bdd = some (res, s') ∧ (s'.Ok → (res = 0 ↔ r = 0) ∧
      (r ≠ 0 → ∃ π, w.bdd.Path r π ∧ Implicant D s' res f (w.bdd.named π)))) ∧
    (∀ (V : List ℕ) (var pol : ℕ), w.bdd.Usable D var (fun a => V.all a) → pol < 2 →
      ∃ res s', bddSatoneset D isPrime r var pol w.bdd = some (res, s') ∧ (s'.Ok →
        (res = 0 ↔ r = 0) ∧ (r ≠ 0 → ∃ π C, w.bdd.Path r π ∧ Implicant D s' res f C ∧
          w.bdd.named π ⊆ C ∧ (∀ v ∈ V, v ∈ C.map Prod.fst) ∧
          ∀ v ∈ V, (∀ b, (w.bdd.env.bddvar2level v, b) ∉ π) → (v, decide (pol = 1)) ∈ C))) ∧
    (0 < w.bdd.env.bddvarnum →
      ∃ res s', bddFullsatone D isPrime r w.bdd = some (res, s') ∧ (s'.Ok →
        (res = 0 ↔ r = 0) ∧ (r ≠ 0 → ∃ C, Implicant D s' res f C ∧
          ∀ v < w.bdd.env.bddvarnum, v ∈ C.map Prod.fst))) := by
  obtain ⟨⟨σ, h⟩, -⟩ := hw.healthy
  have hred : (full D isPrime σ w.bdd.env.bddvarnum).reduced := trivial
  have hone := h.good.satone hred hr
  have hset := fun V var pol => h.good.satoneset V var pol hred hr
  have hfull := fun hnum => h.good.fullsatone hred h.leveled hnum hr
  exact ⟨hone, hset, hfull⟩

theorem ok_of_run {x : Option (ℕ × BddState P)} {res : ℕ} {s' : BddState P}
    (h : x.map (·.2.bdderrorcond) = some false) (hx : x = some (res, s')) : s'.Ok := by
  rw [hx] at h
  exact Option.some.inj h

/-- The first of two variables, and the set of the second one. -/
theorem bddSatone_implicants_two :
    (∃ res s', bddSatone intDomain trialDivision 2 Bdd.twoVariables = some (res, s') ∧ res ≠ 0 ∧
      ∃ π, Bdd.twoVariables.Path 2 π ∧
        Implicant intDomain s' res (fun a => a 0) (Bdd.twoVariables.named π)) ∧
    (∃ res s', bddSatoneset intDomain trialDivision 2 4 1 Bdd.twoVariables = some (res, s') ∧
      res ≠ 0 ∧ ∃ C, Implicant intDomain s' res (fun a => a 0) C ∧ 1 ∈ C.map Prod.fst) ∧
    ∃ res s', bddFullsatone intDomain trialDivision 2 Bdd.twoVariables = some (res, s') ∧ res ≠ 0 ∧
      ∃ C, Implicant intDomain s' res (fun a => a 0) C ∧ ∀ v < 2, v ∈ C.map Prod.fst := by
  have hvarset : Bdd.twoVariables.Usable intDomain 4 (fun a => [1].all a) := by
    simpa using twoVariables_usable.2.1
  have hnum : Package.twoVariables.bdd.env.bddvarnum = 2 := twoVariables_varnum
  obtain ⟨hone, hset, hfull⟩ :=
    bddSatone_implicants (twoVariables_reached fun _ => True) twoVariables_usable.1
  refine ⟨?_, ?_, ?_⟩
  · obtain ⟨res, s', hrun, himp⟩ := hone
    obtain ⟨hzero, hpath⟩ := himp (ok_of_run (by decide +kernel) hrun)
    exact ⟨res, s', hrun, mt hzero.mp two_ne_zero, hpath two_ne_zero⟩
  · obtain ⟨res, s', hrun, himp⟩ := hset [1] 4 1 hvarset one_lt_two
    obtain ⟨hzero, hcube⟩ := himp (ok_of_run (by decide +kernel) hrun)
    obtain ⟨π, C, -, hC, -, hmem, -⟩ := hcube two_ne_zero
    exact ⟨res, s', hrun, mt hzero.mp two_ne_zero, C, hC, hmem 1 List.mem_cons_self⟩
  · obtain ⟨res, s', hrun, himp⟩ := hfull (hnum ▸ two_pos)
    obtain ⟨hzero, hcube⟩ := himp (ok_of_run (by decide +kernel) hrun)
    obtain ⟨C, hC, hmem⟩ := hcube two_ne_zero
    exact ⟨res, s', hrun, mt hzero.mp two_ne_zero, C, hC, hnum ▸ hmem⟩

end MoToBuddy.Bdd
