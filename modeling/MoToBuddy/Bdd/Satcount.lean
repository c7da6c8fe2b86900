import MoToBuddy.Bdd.Memo
import MoToBuddy.Bdd.Steps
import MoToBuddy.Lib.Models

/-!
# `bdd_satcount` (`bddop.c`)

The count of a node is for the levels from its own on: every branch is scaled by the levels that
its edge skips, and the root by the levels above it. Counts are cached by node, so that they depend
on the number of levels at that time. A `double` is a rational number; the counts are whole, and
take the place of the cached `double`.
-/

namespace MoToBuddy.Bdd

open Decision BoolFun

section

variable {P : Type*}

/-- `satcount_rec`, with `miscid` set to `CACHEID_SATCOU`. -/
def satcountRec : ℕ → ℕ → BddState P → Option (ℕ × BddState P)
  | 0, _, _ => none
  | fuel + 1, root, s =>
    if root < 2 then some (root, s)
    else memo .misc (hash1 (.ofNat root)) (fun e => e.a = root && e.c = cacheidSatcou.toNat)
      (fun e res => { e with
        a := root
        c := cacheidSatcou.toNat
        res := res })
      (fun s => do
        let scale := 2 ^ (s.level (s.low root) - s.level root - 1)
        let (low, s) ← satcountRec fuel (s.low root) s
        let size := scale * low
        let scale := 2 ^ (s.level (s.high root) - s.level root - 1)
        let (high, s) ← satcountRec fuel (s.high root) s
        some (size + scale * high, s)) s

/-- `bdd_satcount`. -/
def bddSatcount (r : ℕ) : BddState P → Option (ℕ × BddState P) :=
  checka r fun s => do
    let size := 2 ^ s.level r
    let (count, s) ← satcountRec depth r s
    some (size * count, s)

/-- The loop of `bdd_satcountset` that counts the variables of a set. -/
def setSize : ℕ → ℕ → BddState P → Option ℕ
  | 0, _, _ => none
  | fuel + 1, n, s => if n < 2 then some 0 else (setSize fuel (s.high n) s).map (· + 1)

/-- `bdd_satcountset`. -/
def bddSatcountset (r varset : ℕ) (s : BddState P) : Option (ℚ × BddState P) :=
  if varset < 2 ∨ r = 0 then some (0, s)
  else (setSize depth varset s).bind fun size =>
    let unused : ℤ := s.env.bddvarnum - size
    (bddSatcount r s).map fun (count, s) => (max ((count : ℚ) / 2 ^ unused) 1, s)

end

variable {P : Type*} {D : MtbddDomain P} {S : Setting P} {s s' : BddState P}

/-! ## Entries -/

/-- An entry of the miscellaneous cache is right about `bdd_satcount`, for `M` levels. -/
def SatcouEntry (D : MtbddDomain P) (M : ℕ) (s : BddState P) (e : BddCacheData) : Prop :=
  e.c = cacheidSatcou.toNat → ∃ t, s.Reads D e.a t ∧ IsBool t ∧ e.res = (boolTree t).countBelow M

theorem SatcouEntry.stable {M : ℕ} {e : BddCacheData} (h : SatcouEntry D M s e)
    (hsame : ∀ n, s.live n = true → SameNode D s s' n) : SatcouEntry D M s' e := by
  intro hc
  obtain ⟨t, hr, hb, hres⟩ := h hc
  exact ⟨t, hr.stable hsame, hb, hres⟩

/-- What the recursion needs of its cache. -/
structure Setting.Counting (S : Setting P) : Prop where
  hit : ∀ s e, S.cache s .misc e → SatcouEntry S.D S.top s e
  fill : ∀ s e, e.c = cacheidSatcou.toNat → SatcouEntry S.D S.top s e → S.cache s .misc e

/-! ## The recursion -/

/-- The constants are at the level after the last. -/
def BddState.Leveled (s : BddState P) : Prop :=
  ∀ n, n < 2 → s.level n = if s.env.bddvarnum = 0 then maxlevel else s.env.bddvarnum

/-- What a count leaves alone is everything but the caches. -/
structure Counted (S : Setting P) (s : BddState P) (count : ℕ) (r : ℕ × BddState P) : Prop where
  inv : Inv S r.2
  caches : ∃ C : Caches, r.2 = { s with caches := C }
  result : r.1 = count

theorem Counted.reads {count n : ℕ} {r : ℕ × BddState P} {t : DTree (Leaf P)}
    (h : Counted S s count r) (hn : s.Reads S.D n t) : r.2.Reads S.D n t := by
  obtain ⟨C, hC⟩ := h.caches
  rw [hC]
  exact hn.congr fun _ _ => ⟨rfl, fun _ _ => rfl⟩

theorem Counted.level {count : ℕ} {r : ℕ × BddState P} (h : Counted S s count r) (n : ℕ) :
    r.2.level n = s.level n ∧ r.2.low n = s.low n ∧ r.2.high n = s.high n := by
  obtain ⟨C, hC⟩ := h.caches
  rw [hC]
  exact ⟨rfl, rfl, rfl⟩

theorem Counted.trans {a b : ℕ} {r r' : ℕ × BddState P} (h : Counted S s a r)
    (h' : Counted S r.2 b r') : ∃ C : Caches, r'.2 = { s with caches := C } := by
  obtain ⟨C, hC⟩ := h.caches
  obtain ⟨C', hC'⟩ := h'.caches
  exact ⟨C', by rw [hC', hC]⟩

/-- Another entry. -/
theorem Inv.store (hs : Inv S s) {k : CacheId} (i : ℕ) {e : BddCacheData}
    (he : ∀ g, S.cache s k { e with generation := g }) : Inv S (s.store k i e) := by
  have hpost : Post S s (fun _ _ => True) (0, s) := .const hs false trivial
  exact (hpost.store k i he).inv

/-- The level of a node is that of its tree's root. -/
theorem rootLevel_eq {M : ℕ} (hconst : ∀ n, n < 2 → s.level n = M) {n : ℕ}
    {t : DTree (Leaf P)} (hr : s.Reads D n t) (hb : IsBool t) :
    s.level n = (boolTree t).rootLevel M := by
  cases hr with
  | const b => exact hconst _ (BddState.Reads.toNat_lt b)
  | terminal _ _ _ _ => exact hb.elim
  | node _ key _ _ _ => exact congrArg BddKey.level key

theorem satcountRec_counted (hS : S.Counting) (hconst : ∀ n, n < 2 → s.level n = S.top)
    {fuel n k : ℕ} {t : DTree (Leaf P)} (hs : Inv S s) (hr : s.Reads S.D n t) (hb : IsBool t)
    (ha : t.Above k) (hfuel : S.top - k < fuel) :
    ∃ r, satcountRec fuel n s = some r ∧ Counted S s ((boolTree t).countBelow S.top) r := by
  induction fuel generalizing k s n t with
  | zero => omega
  | succ fuel ih =>
    unfold satcountRec
    cases hr with
    | const b =>
      rw [if_pos (BddState.Reads.toNat_lt b)]
      exact ⟨_, rfl, hs, ⟨s.caches, rfl⟩, rfl⟩
    | terminal _ _ _ _ => exact hb.elim
    | @node _ low high level tl th inner key decision below above =>
      have hr := BddState.Reads.node inner key decision below above
      rw [if_neg (by omega)]
      unfold memo
      dsimp only
      split
      · rename_i hhit
        simp only [Bool.and_eq_true, decide_eq_true_eq] at hhit
        obtain ⟨hvalid, ha', hc⟩ := hhit
        obtain ⟨t', hr', -, hres⟩ := hS.hit s _ (hs.cache .misc _ hvalid) hc
        refine ⟨_, rfl, hs, ⟨s.caches, rfl⟩, ?_⟩
        have htree : t' = .node level tl th := hr'.unique (ha'.symm ▸ hr)
        rw [← htree]
        exact hres
      · obtain ⟨hsort, -⟩ := hs.graph.sorted hr
        obtain ⟨hlt, hal, hah, -, -⟩ := hsort
        have hk : k ≤ level := ha
        have hlow : s.low n = low := congrArg (·.low.getD 0) key
        have hhigh : s.high n = high := congrArg BddKey.high key
        have hlevel : s.level n = level := congrArg BddKey.level key
        obtain ⟨⟨cl, s₁⟩, hl, hcl⟩ := ih hconst hs below hb.1 hal (by omega)
        have hconst₁ : ∀ m, m < 2 → s₁.level m = S.top := fun m hm =>
          ((hcl.level m).1).trans (hconst m hm)
        obtain ⟨⟨ch, s₂⟩, hh, hch⟩ := ih hconst₁ hcl.inv (hcl.reads above) hb.2 hah (by omega)
        have hhigh₁ : s₁.high n = high := ((hcl.level n).2.2).trans hhigh
        have hscale : s₁.level high - s₁.level n - 1 = s.level high - s.level n - 1 := by
          rw [(hcl.level high).1, (hcl.level n).1]
        have hsum : 2 ^ (s.level low - s.level n - 1) * cl +
            2 ^ (s.level high - s.level n - 1) * ch =
            (boolTree (.node level tl th)).countBelow S.top := by
          have hresl : cl = _ := hcl.result
          have hresh : ch = _ := hch.result
          rw [rootLevel_eq hconst below hb.1, rootLevel_eq hconst above hb.2, hlevel, hresl, hresh]
          rfl
        rw [hlow, hl]
        dsimp only [Option.bind_eq_bind, Option.bind_some]
        rw [hhigh₁, hh]
        dsimp only [Option.bind_some]
        rw [hscale, hsum]
        refine ⟨_, rfl, hch.inv.store _ fun g => hS.fill _ _ rfl fun _ => ?_, ?_, rfl⟩
        · exact ⟨_, hch.reads (hcl.reads hr), hb, rfl⟩
        · obtain ⟨C, hC⟩ := hcl.trans hch
          dsimp only at hC ⊢
          exact ⟨_, by rw [hC]; rfl⟩

/-! ## The call -/

section

variable {T : Theory P} {n : ℕ} {t : DTree (Leaf P)}

/-- Without variables there are only the constants. -/
theorem Good.isConst (hs : Good T s) (h0 : s.env.bddvarnum = 0) (hr : s.Reads T.D n t)
    (hb : IsBool t) : n < 2 := by
  obtain ⟨hsort, -⟩ := hs.inv.graph.sorted hr
  cases hr with
  | const b => exact BddState.Reads.toNat_lt b
  | terminal _ _ _ _ => exact hb.elim
  | node _ _ _ _ _ =>
    have hlt := hsort.1
    have htop : (T.setting s.env.bddvarnum hs.num).top = s.env.bddvarnum := rfl
    omega

/-- Entries are added, and the count is that of the assignments of the levels. -/
theorem bddSatcount_counted (hS : ∀ htop, (T.setting s.env.bddvarnum htop).Counting)
    (hs : Good T s) (hlev : s.Leveled) (hr : s.Reads T.D n t) (hb : IsBool t) :
    ∃ r, bddSatcount n s = some r ∧ Good T r.2 ∧ (∃ C : Caches, r.2 = { s with caches := C }) ∧
      (0 < s.env.bddvarnum →
        r.1 = models (Finset.range s.env.bddvarnum) (boolTree t).eval) := by
  unfold bddSatcount
  rw [checka_node hs hr.isNode]
  by_cases h0 : s.env.bddvarnum = 0
  · have h2 := hs.isConst h0 hr hb
    have hrec : satcountRec depth n s = some (n, s) := if_pos h2
    dsimp only
    rw [hrec]
    exact ⟨_, rfl, hs, ⟨s.caches, rfl⟩, fun hpos => absurd h0 hpos.ne'⟩
  · have hconst : ∀ m, m < 2 → s.level m = s.env.bddvarnum := fun m hm => by
      rw [hlev m hm, if_neg h0]
    obtain ⟨⟨count, s'⟩, hrec, hc⟩ := satcountRec_counted (hS hs.num) hconst hs.inv hr hb
      t.above_zero (Setting.depth_bound _ 0)
    dsimp only
    rw [hrec]
    obtain ⟨C, hC⟩ := hc.caches
    have hcount : count = _ := hc.result
    dsimp only at hC
    refine ⟨_, rfl, ?_, ⟨C, hC⟩, fun _ => ?_⟩
    · exact hs.same_diagram hc.inv.toCore (by rw [hC]) (by rw [hC])
    · obtain ⟨hsort, -⟩ := hs.inv.graph.sorted hr
      dsimp only
      rw [hcount, rootLevel_eq hconst hr hb]
      exact DTree.countBelow_models (sorted_boolTree.mpr hsort)

end

end MoToBuddy.Bdd
