import MoToBuddy.Bdd.PackageRun

/-!
# Laws of the operators and the cofactors

In any session with pairs `bdd_apply`, `bdd_not` and `bdd_ite` return the only node with their
function (`bddOperations_canonical`), whatever the calls before left in the caches.

What `bdd_restrict`, `bdd_constrain` and `bdd_simplify` return
(`bddCofactors_exact`) is the cofactor at the literals of a cube, and diagrams that agree with the
operand on a set. The one that `bdd_constrain` returns is the operand after an assignment was moved
into the set, so that it commutes with the operators (`ConstrainApply`, `ConstrainNot`).
-/

namespace MoToBuddy.Bdd

open Decision Package

variable {P : Type*} {D : MtbddDomain P} {isPrime : ℕ → Bool} {T : Theory P} {σ : PairTable P}
  {s s' : BddState P} {w : Package P}

/-! ## Results -/

/-- The result of a call is the only node with its function. -/
theorem Called.only {f : (ℕ → Bool) → Bool} {r : ℕ × BddState P} (hred : T.reduced)
    (h : Called T s f r) (hok : r.2.Ok) : r.2.Canonical T.D r.1 f :=
  ⟨h.result hok, fun _ hm => h.good.only hred (h.result hok) hm⟩

theorem Answered.only {f : (ℕ → Bool) → Bool} {r : ℕ × BddState P} (hred : T.reduced)
    (h : Answered T s f r) (hok : r.2.Ok) : r.2.Canonical T.D r.1 f :=
  ⟨h.result hok, fun _ hm => h.sane.only hred (h.result hok) hm⟩

/-- What is moved into a set does not change while the order stays. -/
theorem Keeps.nearest (h : Keeps D s s') (tc : DTree (Leaf P)) : s'.nearest tc = s.nearest tc := by
  unfold BddState.nearest BddState.assign
  rw [h.order.1, h.order.2.1]

/-! ## The operators -/

/-- `bdd_apply`, `bdd_not` and `bdd_ite` return the canonical node of their function, whatever the
calls before left in the caches and wherever collections and growth strike. -/
theorem bddOperations_canonical {reset : BddState P → Prop} (hw : w.Reached D isPrime reset)
    {l r n : ℕ} {f g h : (ℕ → Bool) → Bool} (hl : w.bdd.Usable D l f) (hr : w.bdd.Usable D r g)
    (hn : w.bdd.Usable D n h) :
    (∀ op : BddOp, ∃ res s', bddApply D isPrime l r op.code w.bdd = some (res, s') ∧
      (s'.Ok → s'.Canonical D res fun a => op.fn (f a) (g a))) ∧
    (∃ res s', bddNot D isPrime r w.bdd = some (res, s') ∧
      (s'.Ok → s'.Canonical D res fun a => !g a)) ∧
    ∃ res s', bddIte D isPrime l r n w.bdd = some (res, s') ∧
      (s'.Ok → s'.Canonical D res fun a => if f a then g a else h a) := by
  obtain ⟨⟨σ, hc⟩, -⟩ := hw.healthy
  have hT := full_operates D isPrime σ w.bdd.env.bddvarnum
  refine ⟨fun op => ?_, ?_, ?_⟩
  · obtain ⟨⟨res, s'⟩, heq, hcall⟩ := hT.apply_called hc.good op hl hr
    exact ⟨res, s', heq, hcall.only hT.reduced⟩
  · obtain ⟨⟨res, s'⟩, heq, hcall⟩ := hT.not_called hc.good hr
    exact ⟨res, s', heq, hcall.only hT.reduced⟩
  · obtain ⟨⟨res, s'⟩, heq, hcall⟩ := hT.ite_called hc.good hl hr hn
    exact ⟨res, s', heq, hcall.only hT.reduced⟩

/-- `bdd_simplify` has left an entry in the cache of the operators. -/
def twoSimplified : BddState UInt32 :=
  ((bddSimplify intDomain trialDivision 2 4 Bdd.twoVariables).getD (0, Bdd.twoVariables)).2

theorem twoSimplified_data :
    twoSimplified.bdderrorcond = false ∧ (twoSimplified.caches .apply).isValid 1 = true := by
  decide +kernel

theorem twoSimplified_reached (reset : BddState UInt32 → Prop) :
    Reached intDomain trialDivision reset ⟨twoSimplified, [], 0⟩ ∧
      twoSimplified.Usable intDomain 2 (fun a => a 0) ∧
      twoSimplified.Usable intDomain 4 fun a => a 1 := by
  have hw := twoVariables_reached reset
  obtain ⟨⟨σ, h⟩, -⟩ := hw.healthy
  obtain ⟨h0, h1, -⟩ := twoVariables_usable
  obtain ⟨⟨res, s'⟩, F', heq, hcall, -⟩ := bddSimplify_called
    (T := full intDomain trialDivision σ Bdd.twoVariables.env.bddvarnum)
    (fun _ _ => full_cofactoring) h.good h0 h1
  have hs' : twoSimplified = s' := by
    unfold twoSimplified
    rw [show bddSimplify intDomain trialDivision 2 4 Bdd.twoVariables = some (res, s') from heq]
    rfl
  rw [hs']
  refine ⟨.step hw (.act s' (.simplify 2 4 res s' (fun _ => ⟨_, h0⟩) (fun _ => ⟨_, h1⟩) heq)) ?_,
    hcall.keeps.usable h0, hcall.keeps.usable h1⟩
  rw [← hs']
  exact twoSimplified_data.1

theorem bddOperations_canonical_two :
    (∀ op : BddOp, ∃ res s', bddApply intDomain trialDivision 2 4 op.code twoSimplified =
        some (res, s') ∧ (s'.Ok → s'.Canonical intDomain res fun a => op.fn (a 0) (a 1))) ∧
      (∃ res s', bddNot intDomain trialDivision 4 twoSimplified = some (res, s') ∧
        (s'.Ok → s'.Canonical intDomain res fun a => !a 1)) ∧
      ∃ res s', bddIte intDomain trialDivision 2 4 2 twoSimplified = some (res, s') ∧
        (s'.Ok → s'.Canonical intDomain res fun a => if a 0 then a 1 else a 0) := by
  obtain ⟨hw, h0, h1⟩ := twoSimplified_reached fun _ => True
  exact bddOperations_canonical hw h0 h1 h0

/-! ## Homomorphisms -/

/-- `bdd_constrain` of the result of an operator is the operator on the results of `bdd_constrain`,
with a reference to each result. -/
def ConstrainApply (D : MtbddDomain P) (isPrime : ℕ → Bool) (op : BddOp) (f g c : ℕ)
    (s : BddState P) : Prop :=
  ∃ a s₁, bddApply D isPrime f g op.code s = some (a, s₁) ∧ (s₁.Ok →
    ∃ x s₂, bddConstrain D isPrime a c (bddAddref s₁ a) = some (x, s₂) ∧ (s₂.Ok →
      ∃ p s₃, bddConstrain D isPrime f c (bddAddref s₂ x) = some (p, s₃) ∧ (s₃.Ok →
        ∃ q s₄, bddConstrain D isPrime g c (bddAddref s₃ p) = some (q, s₄) ∧ (s₄.Ok →
          ∃ y s₅, bddApply D isPrime p q op.code (bddAddref s₄ q) = some (y, s₅) ∧
            (s₅.Ok → y = x)))))

/-- The same for the negation. -/
def ConstrainNot (D : MtbddDomain P) (isPrime : ℕ → Bool) (f c : ℕ) (s : BddState P) : Prop :=
  ∃ a s₁, bddNot D isPrime f s = some (a, s₁) ∧ (s₁.Ok →
    ∃ x s₂, bddConstrain D isPrime a c (bddAddref s₁ a) = some (x, s₂) ∧ (s₂.Ok →
      ∃ p s₃, bddConstrain D isPrime f c (bddAddref s₂ x) = some (p, s₃) ∧ (s₃.Ok →
        ∃ y s₄, bddNot D isPrime p (bddAddref s₃ p) = some (y, s₄) ∧ (s₄.Ok → y = x))))

section

variable {F G H : (ℕ → Bool) → Bool} {f g c d : ℕ} {tc : DTree (Leaf P)}

/-- A call of `bdd_constrain` after other calls. -/
theorem bddConstrain_later (hT : T.Operates)
    (hS : ∀ top htop, (T.setting top htop).Cofactoring) (hs' : Good T s') (hk : Keeps T.D s s')
    (hf : s'.Usable T.D f F) (hc : s.Referenced c) (hreads : s.Reads T.D c tc) (hb : IsBool tc)
    (hz : c ≠ 0) : ∃ res, bddConstrain T.D T.isPrime f c s' = some res ∧
      Called T s' (fun a => F (s.nearest tc a)) res := by
  have h := hT.constrain_called hS hs' hf (hk.referenced c hc) (hk.reads c tc hc hreads) hb hz
  rw [hk.nearest tc] at h
  exact h

theorem Good.constrainApply (hT : T.Operates)
    (hS : ∀ top htop, (T.setting top htop).Cofactoring) (hs : Good T s) (op : BddOp)
    (hf : s.Usable T.D f F) (hg : s.Usable T.D g G) (hc : s.Referenced c)
    (hreads : s.Reads T.D c tc) (hb : IsBool tc) (hz : c ≠ 0) :
    ConstrainApply T.D T.isPrime op f g c s := by
  obtain ⟨⟨a, s₁⟩, h₁, hc₁⟩ := hT.apply_called hs op hf hg
  refine ⟨a, s₁, h₁, fun hok₁ => ?_⟩
  obtain ⟨hs₁, hk₁, ha⟩ := hc₁.addref hok₁
  obtain ⟨⟨x, s₂⟩, h₂, hc₂⟩ := bddConstrain_later hT hS hs₁ hk₁ ha hc hreads hb hz
  refine ⟨x, s₂, h₂, fun hok₂ => ?_⟩
  obtain ⟨hs₂, hk₂, hx⟩ := hc₂.addref hok₂
  have hk₂' := hk₁.trans hk₂
  obtain ⟨⟨p, s₃⟩, h₃, hc₃⟩ := bddConstrain_later hT hS hs₂ hk₂' (hk₂'.usable hf) hc hreads hb hz
  refine ⟨p, s₃, h₃, fun hok₃ => ?_⟩
  obtain ⟨hs₃, hk₃, hp⟩ := hc₃.addref hok₃
  have hk₃' := hk₂'.trans hk₃
  obtain ⟨⟨q, s₄⟩, h₄, hc₄⟩ := bddConstrain_later hT hS hs₃ hk₃' (hk₃'.usable hg) hc hreads hb hz
  refine ⟨q, s₄, h₄, fun hok₄ => ?_⟩
  obtain ⟨hs₄, hk₄, hq⟩ := hc₄.addref hok₄
  obtain ⟨⟨y, s₅⟩, h₅, hc₅⟩ := hT.apply_called hs₄ op (hk₄.usable hp) hq
  refine ⟨y, s₅, h₅, fun hok₅ => ?_⟩
  -- both are the node of one function
  have hx' := hc₅.keeps.usable (hk₄.usable (hk₃.usable hx))
  exact hc₅.good.only hT.reduced hx'.2 (hc₅.result hok₅)

theorem Good.constrainNot (hT : T.Operates)
    (hS : ∀ top htop, (T.setting top htop).Cofactoring) (hs : Good T s)
    (hf : s.Usable T.D f F) (hc : s.Referenced c)
    (hreads : s.Reads T.D c tc) (hb : IsBool tc) (hz : c ≠ 0) :
    ConstrainNot T.D T.isPrime f c s := by
  obtain ⟨⟨a, s₁⟩, h₁, hc₁⟩ := hT.not_called hs hf
  refine ⟨a, s₁, h₁, fun hok₁ => ?_⟩
  obtain ⟨hs₁, hk₁, ha⟩ := hc₁.addref hok₁
  obtain ⟨⟨x, s₂⟩, h₂, hc₂⟩ := bddConstrain_later hT hS hs₁ hk₁ ha hc hreads hb hz
  refine ⟨x, s₂, h₂, fun hok₂ => ?_⟩
  obtain ⟨hs₂, hk₂, hx⟩ := hc₂.addref hok₂
  have hk₂' := hk₁.trans hk₂
  obtain ⟨⟨p, s₃⟩, h₃, hc₃⟩ := bddConstrain_later hT hS hs₂ hk₂' (hk₂'.usable hf) hc hreads hb hz
  refine ⟨p, s₃, h₃, fun hok₃ => ?_⟩
  obtain ⟨hs₃, hk₃, hp⟩ := hc₃.addref hok₃
  obtain ⟨⟨y, s₄⟩, h₄, hc₄⟩ := hT.not_called hs₃ hp
  refine ⟨y, s₄, h₄, fun hok₄ => ?_⟩
  have hx' := hc₄.keeps.usable (hk₃.usable hx)
  exact hc₄.good.only hT.reduced hx'.2 (hc₄.result hok₄)

end

/-! ## The cofactors -/

/-- A result that agrees with a function wherever the other is true. -/
def AgreesOn (D : MtbddDomain P) (F H : (ℕ → Bool) → Bool) (res : ℕ) (s : BddState P) : Prop :=
  ∃ F', s.Represents D res F' ∧ ∀ a, H a = true → F' a = F a

section

variable {reset : BddState P → Prop} {F G H : (ℕ → Bool) → Bool} {f g c n : ℕ}
  {C : List (ℕ × Bool)}

/-- `bdd_restrict` returns the cofactor at the literals of the cube, `bdd_constrain` and
`bdd_simplify` agree with their operand on the set, and `bdd_constrain` commutes with the
operators, whatever calls came before. -/
theorem bddCofactors_exact (hw : w.Reached D isPrime reset) (hf : w.bdd.Usable D f F)
    (hg : w.bdd.Usable D g G) (hc : w.bdd.Usable D c H) :
    ((C.map Prod.fst).Nodup → w.bdd.Usable D n (Literals C) → n < 2 ^ 28 →
      ∃ res s', bddRestrict D isPrime f n w.bdd = some (res, s') ∧
        (s'.Ok → s'.Canonical D res fun a => F (fixing C a))) ∧
    (c ≠ 0 → (∃ res s', bddConstrain D isPrime f c w.bdd = some (res, s') ∧
        (s'.Ok → AgreesOn D F H res s')) ∧
      (∃ res s', bddSimplify D isPrime f c w.bdd = some (res, s') ∧
        (s'.Ok → AgreesOn D F H res s')) ∧
      (∀ op, ConstrainApply D isPrime op f g c w.bdd) ∧ ConstrainNot D isPrime f c w.bdd) := by
  obtain ⟨⟨σ, h⟩, -⟩ := hw.healthy
  have hT := full_operates D isPrime σ w.bdd.env.bddvarnum
  have hS : ∀ top htop, ((full D isPrime σ w.bdd.env.bddvarnum).setting top htop).Cofactoring :=
    fun _ _ => full_cofactoring
  refine ⟨fun hC hvar hsmall => ?_, fun hz => ?_⟩
  · obtain ⟨⟨res, s'⟩, hres, hans, -⟩ := hT.restrict_called hS h.good h.signed hf hC hvar hsmall
    exact ⟨res, s', hres, hans.only hT.reduced⟩
  obtain ⟨href, tc, hreads, hb, hfc⟩ := hc
  have hnot := h.good.constrainNot hT hS hf href hreads hb hz
  have happly := fun op => h.good.constrainApply hT hS op hf hg href hreads hb hz
  refine ⟨?_, ?_, happly, hnot⟩
  · obtain ⟨⟨res, s'⟩, hres, hcall⟩ := hT.constrain_called hS h.good hf href hreads hb hz
    exact ⟨res, s', hres, fun hok => ⟨_, hcall.result hok, fun a ha =>
      h.good.nearest_eq hf.2 hfc ha⟩⟩
  · obtain ⟨⟨res, s'⟩, F', hres, hcall, hagree⟩ := bddSimplify_called hS h.good hf
      ⟨href, tc, hreads, hb, hfc⟩
    exact ⟨res, s', hres, fun hok => ⟨F', hcall.result hok, hagree hok⟩⟩

end

theorem bddCofactors_exact_two :
    (∃ res s', bddRestrict intDomain trialDivision 2 2 Bdd.twoVariables = some (res, s') ∧
      (s'.Ok → s'.Canonical intDomain res fun a => fixing [(0, true)] a 0)) ∧
    (∃ res s', bddConstrain intDomain trialDivision 2 4 Bdd.twoVariables = some (res, s') ∧
      (s'.Ok → AgreesOn intDomain (fun a => a 0) (fun a => a 1) res s')) ∧
    (∃ res s', bddSimplify intDomain trialDivision 2 4 Bdd.twoVariables = some (res, s') ∧
      (s'.Ok → AgreesOn intDomain (fun a => a 0) (fun a => a 1) res s')) ∧
    (∀ op, ConstrainApply intDomain trialDivision op 2 4 4 Bdd.twoVariables) ∧
    ConstrainNot intDomain trialDivision 2 4 Bdd.twoVariables := by
  have hcube : (fun a : ℕ → Bool => a 0) = Literals [(0, true)] :=
    funext fun a => by simp [Literals]
  have h := bddCofactors_exact (C := [(0, true)]) (n := 2)
    (twoVariables_reached fun _ => True) twoVariables_usable.1 twoVariables_usable.2.1
    twoVariables_usable.2.1
  exact ⟨h.1 (by decide) (hcube ▸ twoVariables_usable.1) (by decide), h.2 (by decide)⟩

end MoToBuddy.Bdd
