import Mathlib.Data.List.Forall2
import MoToBuddy.Bdd.Recursion

/-!
# `bdd_not`, `bdd_apply` and `bdd_ite`

The recursions return the pointwise function of their operands (`notRec_returns`,
`applyRec_returns`, `iteRec_returns`), for caches whose entries are right: an entry of the apply
cache is one of `bdd_not` or of an operator, which its tag tells.
-/

namespace MoToBuddy.Bdd

open Decision

variable {P : Type*} {D : MtbddDomain P} {S : Setting P} {s s' : BddState P}

/-! ## Operators -/

/-- The operator as a function. -/
def BddOp.fn : BddOp → Bool → Bool → Bool
  | .and, a, b => a && b
  | .xor, a, b => a != b
  | .or, a, b => a || b
  | .nand, a, b => !(a && b)
  | .nor, a, b => !(a || b)
  | .imp, a, b => !a || b
  | .biimp, a, b => a == b
  | .diff, a, b => a && !b
  | .less, a, b => !a && b
  | .invimp, a, b => a || !b

theorem oprres_eq (op : BddOp) (a b : Bool) :
    (oprres op).getD (a.toNat <<< 1 ||| b.toNat) 0 = (op.fn a b).toNat := by
  cases op <;> cases a <;> cases b <;> rfl

theorem BddOp.ofCode_code (op : BddOp) : BddOp.ofCode op.code = some op := by cases op <;> rfl

theorem BddOp.code_inj {op op' : BddOp} (h : op.code = op'.code) : op = op' :=
  Option.some.inj (by rw [← op.ofCode_code, ← op'.ofCode_code, h])

theorem BddOp.code_lt (op : BddOp) : op.code < bddopNot := by cases op <;> decide

/-! ## Entries -/

/-- The result `res` is right for the nodes `args`. -/
def EntryFor (D : MtbddDomain P) (s : BddState P) (args : List ℕ)
    (f : List ((ℕ → Bool) → Bool) → (ℕ → Bool) → Bool) (res : ℕ) : Prop :=
  ∃ ts t, List.Forall₂ (s.Reads D) args ts ∧ s.Reads D res t ∧
    Computes ts (f (ts.map evalBool)) s.Ok t

/-- A function of the operands' values. -/
def pointwise (f : List Bool → Bool) (fs : List ((ℕ → Bool) → Bool)) (x : ℕ → Bool) : Bool :=
  f (fs.map (· x))

/-- Nodes that stay keep what they represent. -/
theorem BddState.Reads.stable {n : ℕ} {t : DTree (Leaf P)} (h : s.Reads D n t)
    (hsame : ∀ n, s.live n = true → SameNode D s s' n) : s'.Reads D n t :=
  h.congr fun m hm => hsame m hm.live_right

theorem EntryFor.stable {args : List ℕ} {f : List ((ℕ → Bool) → Bool) → (ℕ → Bool) → Bool}
    {res : ℕ} (h : EntryFor D s args f res)
    (hsame : ∀ n, s.live n = true → SameNode D s s' n) (he : s'.Ok → s.Ok) :
    EntryFor D s' args f res := by
  obtain ⟨ts, t, hargs, hres, hc⟩ := h
  exact ⟨ts, t, hargs.imp fun _ _ hr => hr.stable hsame, hres.stable hsame,
    Computes.lasting _ _ _ _ _ he hc⟩

/-- The result of a hit. -/
theorem EntryFor.hit {args : List ℕ} {f : List ((ℕ → Bool) → Bool) → (ℕ → Bool) → Bool} {res : ℕ}
    (h : EntryFor D s args f res) {ts : List (DTree (Leaf P))}
    (hargs : List.Forall₂ (s.Reads D) args ts) :
    ∃ t, s.Reads D res t ∧ Computes ts (f (ts.map evalBool)) s.Ok t := by
  obtain ⟨ts', t, hargs', hres, hc⟩ := h
  have huniq : Relator.RightUnique (s.Reads D) := fun _ _ _ h h' => h.unique h'
  have hts : ts = ts' := List.right_unique_forall₂' huniq hargs hargs'
  exact ⟨t, hres, hts ▸ hc⟩

/-- `!`, `op` and the conditional, for a list of their operands' values. -/
def notFn : List Bool → Bool
  | [a] => !a
  | _ => false

def applyFn (op : BddOp) : List Bool → Bool
  | [a, b] => op.fn a b
  | _ => false

def iteFn : List Bool → Bool
  | [a, b, c] => if a then b else c
  | _ => false

/-- An entry of the apply cache is right. -/
def ApplyEntry (D : MtbddDomain P) (s : BddState P) (e : BddCacheData) : Prop :=
  (e.c = bddopNot → EntryFor D s [e.a] (pointwise notFn) e.res) ∧
    ∀ op : BddOp, e.c = op.code → EntryFor D s [e.a, e.b] (pointwise (applyFn op)) e.res

/-- An entry of the ite cache is right. -/
def IteEntry (D : MtbddDomain P) (s : BddState P) (e : BddCacheData) : Prop :=
  EntryFor D s [e.a, e.b, e.c] (pointwise iteFn) e.res

/-- The caches of the operators hold results of the operators. -/
structure Setting.Plain (S : Setting P) : Prop where
  apply : ∀ s e, S.cache s .apply e ↔ ApplyEntry S.D s e
  ite : ∀ s e, S.cache s .ite e ↔ IteEntry S.D s e

/-- What the recursions need of these caches: what they find is right, and what is right can be
stored. Entries with tags of other operations may mean something else. -/
structure Setting.Operators (S : Setting P) : Prop where
  apply : ∀ s e, S.cache s .apply e → ApplyEntry S.D s e
  fill : ∀ s e, e.c ≤ bddopNot → ApplyEntry S.D s e → S.cache s .apply e
  ite : ∀ s e, S.cache s .ite e ↔ IteEntry S.D s e

theorem Setting.Plain.operators (h : S.Plain) : S.Operators :=
  ⟨fun s e => (h.apply s e).mp, fun s e _ => (h.apply s e).mpr, h.ite⟩

theorem ApplyEntry.stable {e : BddCacheData} (h : ApplyEntry D s e)
    (hsame : ∀ n, s.live n = true → SameNode D s s' n) (he : s'.Ok → s.Ok) :
    ApplyEntry D s' e :=
  ⟨fun hc => (h.1 hc).stable hsame he, fun op hc => (h.2 op hc).stable hsame he⟩

/-! ## `bdd_not` -/

theorem notRec_computes (hS : S.Operators) {fuel k : ℕ} {r : ℕ} {t : DTree (Leaf P)}
    (hs : Inv S s) (hr : Operand S s r t) (hb : IsBool t) (ha : t.Above k) (hfuel : S.top - k < fuel) :
    Returns S s (Computes [t] fun x => !evalBool t x) (notRec S.D S.isPrime fuel r s) := by
  induction fuel generalizing k s r t with
  | zero => omega
  | succ fuel ih =>
    unfold notRec
    by_cases h0 : r = 0
    · rw [if_pos h0, hr.const (b := false) h0]
      exact (Post.const hs true (.const true fun _ => rfl)).returns
    rw [if_neg h0]
    by_cases h1 : r = 1
    · rw [if_pos h1, hr.const (b := true) h1]
      exact (Post.const hs false (.const false fun _ => rfl)).returns
    rw [if_neg h1]
    have hlt := hr.level_lt hb (by omega)
    have hk := hr.le_level ha hlt
    have hcof := hr.cofactors rfl hlt
    have hmem : ∀ u ∈ [t], u.Sorted S.top ∧ u.Above (s.level r) := fun u hu => by
      rw [List.mem_singleton.mp hu]
      exact ⟨hr.sorted, hr.above⟩
    have hrec : ∀ (b : Bool) (s' : BddState P), Inv S s' → Evo S.D s s' →
        Returns S s' (Computes ([t].map (·.cof (s.level r) b))
          fun x => !evalBool (t.cof (s.level r) b) x)
          (notRec S.D S.isPrime fuel (childOf r b s') s') := fun b s' hi he =>
      ih hi (hcof s' he b) (hb.cof _ b) (hr.above.cof hr.sorted b) (by omega)
    refine memo_returns hs (fun e he hhit => ?_) ?_ fun s' e res u g he hres hc => ?_
    · rw [Bool.and_eq_true, decide_eq_true_eq, decide_eq_true_eq] at hhit
      have hentry := (hS.apply s e he).1 hhit.2
      rw [hhit.1] at hentry
      exact hentry.hit (.cons hr.reads .nil)
    · obtain ⟨a, b, rfl⟩ := hr.node_of_level hlt
      refine branch_computes hlt (fun s' he => (hr.evo he).child.2.1) hmem
        ⟨a, b, List.mem_singleton_self _⟩ (hrec false s hs (.refl s)) (hrec true) fun x => ?_
      rw [evalBool_node, DTree.cof_node, DTree.cof_node]
      split <;> rfl
    · refine hS.fill _ _ (Nat.le_refl _)
        ⟨fun _ => ⟨[t], u, .cons (hr.evo he).reads .nil, hres, hc⟩, fun op hop => ?_⟩
      have hlt := op.code_lt
      rw [← hop] at hlt
      exact absurd hlt (Nat.lt_irrefl _)

theorem notRec_returns (hS : S.Plain) {fuel k : ℕ} {r : ℕ} {t : DTree (Leaf P)} (hs : Inv S s)
    (hr : Operand S s r t) (hb : IsBool t) (ha : t.Above k) (hfuel : S.top - k < fuel) :
    Returns S s (Computes [t] fun x => !evalBool t x) (notRec S.D S.isPrime fuel r s) :=
  notRec_computes hS.operators hs hr hb ha hfuel

/-! ## `bdd_apply` -/

section Apply

variable {l r : ℕ} {tl tr : DTree (Leaf P)}

/-- What a constant operand evaluates to. -/
theorem Operand.evalBool_const {b : Bool} (h : Operand S s l tl) (hl : l = b.toNat)
    (x : ℕ → Bool) : evalBool tl x = b := by
  rw [h.const hl]
  rfl

theorem applyShortcut_spec {op : BddOp} {n : ℕ} (hl : Operand S s l tl) (hr : Operand S s r tr)
    (hbl : IsBool tl) (hbr : IsBool tr) (h : applyShortcut op l r = some n) :
    ∃ t, s.Reads S.D n t ∧
      Computes [tl, tr] (fun x => op.fn (evalBool tl x) (evalBool tr x)) s.Ok t := by
  have hl0 : l = 0 → ∀ x, evalBool tl x = false := fun h => hl.evalBool_const (b := false) h
  have hl1 : l = 1 → ∀ x, evalBool tl x = true := fun h => hl.evalBool_const (b := true) h
  have hr0 : r = 0 → ∀ x, evalBool tr x = false := fun h => hr.evalBool_const (b := false) h
  have hr1 : r = 1 → ∀ x, evalBool tr x = true := fun h => hr.evalBool_const (b := true) h
  have heq : l = r → tl = tr := fun h => hl.unique (h ▸ hr.reads)
  -- the four results of a shortcut
  have hleft : (∀ x, op.fn (evalBool tl x) (evalBool tr x) = evalBool tl x) → n = l →
      ∃ t, s.Reads S.D n t ∧
        Computes [tl, tr] (fun x => op.fn (evalBool tl x) (evalBool tr x)) s.Ok t := fun hf hn =>
    ⟨tl, hn ▸ hl.reads, .operand List.mem_cons_self hbl hf⟩
  have hright : (∀ x, op.fn (evalBool tl x) (evalBool tr x) = evalBool tr x) → n = r →
      ∃ t, s.Reads S.D n t ∧
        Computes [tl, tr] (fun x => op.fn (evalBool tl x) (evalBool tr x)) s.Ok t := fun hf hn =>
    ⟨tr, hn ▸ hr.reads, .operand (by simp) hbr hf⟩
  have hconst : ∀ b : Bool, (∀ x, op.fn (evalBool tl x) (evalBool tr x) = b) → n = b.toNat →
      ∃ t, s.Reads S.D n t ∧
        Computes [tl, tr] (fun x => op.fn (evalBool tl x) (evalBool tr x)) s.Ok t := fun b hf hn =>
    ⟨_, hn ▸ .const b, .const b hf⟩
  unfold applyShortcut at h
  cases op with
  | and =>
    dsimp only at h
    split at h
    · rename_i hc
      exact hleft (fun x => by simp [BddOp.fn, heq hc]) (Option.some.inj h).symm
    split at h
    · rename_i hc
      refine hconst false (fun x => ?_) (Option.some.inj h).symm
      rcases hc with hc | hc
      · simp [BddOp.fn, hl0 hc]
      · simp [BddOp.fn, hr0 hc]
    split at h
    · rename_i hc
      exact hright (fun x => by simp [BddOp.fn, hl1 hc]) (Option.some.inj h).symm
    split at h
    · rename_i hc
      exact hleft (fun x => by simp [BddOp.fn, hr1 hc]) (Option.some.inj h).symm
    · exact absurd h.symm (Option.some_ne_none n)
  | or =>
    dsimp only at h
    split at h
    · rename_i hc
      exact hleft (fun x => by simp [BddOp.fn, heq hc]) (Option.some.inj h).symm
    split at h
    · rename_i hc
      refine hconst true (fun x => ?_) (Option.some.inj h).symm
      rcases hc with hc | hc
      · simp [BddOp.fn, hl1 hc]
      · simp [BddOp.fn, hr1 hc]
    split at h
    · rename_i hc
      exact hright (fun x => by simp [BddOp.fn, hl0 hc]) (Option.some.inj h).symm
    split at h
    · rename_i hc
      exact hleft (fun x => by simp [BddOp.fn, hr0 hc]) (Option.some.inj h).symm
    · exact absurd h.symm (Option.some_ne_none n)
  | xor =>
    dsimp only at h
    split at h
    · rename_i hc
      exact hconst false (fun x => by simp [BddOp.fn, heq hc]) (Option.some.inj h).symm
    split at h
    · rename_i hc
      exact hright (fun x => by simp [BddOp.fn, hl0 hc]) (Option.some.inj h).symm
    split at h
    · rename_i hc
      exact hleft (fun x => by simp [BddOp.fn, hr0 hc]) (Option.some.inj h).symm
    · exact absurd h.symm (Option.some_ne_none n)
  | nand =>
    dsimp only at h
    split at h
    · rename_i hc
      refine hconst true (fun x => ?_) (Option.some.inj h).symm
      rcases hc with hc | hc
      · simp [BddOp.fn, hl0 hc]
      · simp [BddOp.fn, hr0 hc]
    · exact absurd h.symm (Option.some_ne_none n)
  | nor =>
    dsimp only at h
    split at h
    · rename_i hc
      refine hconst false (fun x => ?_) (Option.some.inj h).symm
      rcases hc with hc | hc
      · simp [BddOp.fn, hl1 hc]
      · simp [BddOp.fn, hr1 hc]
    · exact absurd h.symm (Option.some_ne_none n)
  | imp =>
    dsimp only at h
    split at h
    · rename_i hc
      exact hconst true (fun x => by simp [BddOp.fn, hl0 hc]) (Option.some.inj h).symm
    split at h
    · rename_i hc
      exact hright (fun x => by simp [BddOp.fn, hl1 hc]) (Option.some.inj h).symm
    split at h
    · rename_i hc
      exact hconst true (fun x => by simp [BddOp.fn, hr1 hc]) (Option.some.inj h).symm
    · exact absurd h.symm (Option.some_ne_none n)
  | biimp | diff | less | invimp => exact absurd h.symm (Option.some_ne_none n)

/-- A constant operand is the number of its value. -/
theorem Operand.eq_toNat (h : Operand S s l tl) (hl : l < 2) :
    ∃ b : Bool, l = b.toNat ∧ tl = .leaf (.const b) := by
  obtain ⟨b, hb⟩ : ∃ b : Bool, l = b.toNat := by
    match l, hl with
    | 0, _ => exact ⟨false, rfl⟩
    | 1, _ => exact ⟨true, rfl⟩
  exact ⟨b, hb, h.const hb⟩

end Apply

theorem applyRec_computes (hS : S.Operators) (op : BddOp) {fuel k l r : ℕ}
    {tl tr : DTree (Leaf P)} (hs : Inv S s) (hl : Operand S s l tl) (hr : Operand S s r tr) (hbl : IsBool tl)
    (hbr : IsBool tr) (hal : tl.Above k) (har : tr.Above k) (hfuel : S.top - k < fuel) :
    Returns S s (Computes [tl, tr] fun x => op.fn (evalBool tl x) (evalBool tr x))
      (applyRec S.D S.isPrime op fuel l r s) := by
  induction fuel generalizing k s l r tl tr with
  | zero => omega
  | succ fuel ih =>
    unfold applyRec
    cases hshort : applyShortcut op l r with
    | some res =>
      exact (Post.pure hs (applyShortcut_spec hl hr hbl hbr hshort)).returns
    | none =>
      dsimp only
      by_cases hconst : l < 2 ∧ r < 2
      · rw [if_pos hconst]
        obtain ⟨a, rfl, rfl⟩ := hl.eq_toNat hconst.1
        obtain ⟨b, rfl, rfl⟩ := hr.eq_toNat hconst.2
        rw [oprres_eq]
        exact (Post.const hs _ (.const _ fun _ => rfl)).returns
      rw [if_neg hconst]
      refine memo_returns hs (fun e he hhit => ?_) ?_ fun s' e res u g he hres hc => ?_
      · simp only [Bool.and_eq_true, decide_eq_true_eq] at hhit
        have hentry := (hS.apply s e he).2 op hhit.2
        rw [hhit.1.1, hhit.1.2] at hentry
        exact hentry.hit (.cons hl.reads (.cons hr.reads .nil))
      · have hlt : s.level l < S.top ∨ s.level r < S.top := by
          by_cases hl2 : l < 2
          · exact Or.inr (hr.level_lt hbr fun hr2 => hconst ⟨hl2, hr2⟩)
          · exact Or.inl (hl.level_lt hbl hl2)
        let B : ℕ → (Bool → BddState P → ℕ) → (Bool → BddState P → ℕ) →
            Option (ℕ × BddState P) := fun n pl pr =>
          branch (fun s => applyRec S.D S.isPrime op fuel (pl false s) (pr false s) s)
            (fun s => applyRec S.D S.isPrime op fuel (pl true s) (pr true s) s)
            (nodeAt S.D S.isPrime n) s
        refine split_two (B := B) hl hr hal har hlt fun n level pl pr hsplit => ?_
        have hpl := hsplit.cofactors (tl, pl) List.mem_cons_self
        have hpr := hsplit.cofactors (tr, pr) (by simp)
        have hl' := (hsplit.sorted tl List.mem_cons_self).2
        have hr' := (hsplit.sorted tr (by simp)).2
        have hle := hsplit.le
        have hltop := hsplit.lt
        have hrec : ∀ (b : Bool) (s' : BddState P), Inv S s' → Evo S.D s s' →
            Returns S s' (Computes ([tl, tr].map (·.cof level b))
              fun x => op.fn (evalBool (tl.cof level b) x) (evalBool (tr.cof level b) x))
              (applyRec S.D S.isPrime op fuel (pl b s') (pr b s') s') := fun b s' hi he =>
          ih hi (hpl s' he b) (hpr s' he b) (hbl.cof _ b) (hbr.cof _ b) (hl'.cof hl.sorted b)
            (hr'.cof hr.sorted b) (by omega)
        refine branch_computes hltop hsplit.level_eq hsplit.sorted hsplit.root
          (hrec false s hs (.refl s)) (hrec true) fun x => ?_
        rw [← evalBool_cof tl level x, ← evalBool_cof tr level x]
        cases x level <;> rfl
      · refine hS.fill _ _ op.code_lt.le ⟨fun hc => ?_, fun op' hop => ?_⟩
        · have hlt := op.code_lt
          have hc' : op.code = bddopNot := hc
          rw [hc'] at hlt
          exact absurd hlt (Nat.lt_irrefl _)
        · obtain rfl := BddOp.code_inj hop
          exact ⟨[tl, tr], u, .cons (hl.evo he).reads (.cons (hr.evo he).reads .nil), hres, hc⟩

theorem applyRec_returns (hS : S.Plain) (op : BddOp) {fuel k l r : ℕ} {tl tr : DTree (Leaf P)}
    (hs : Inv S s) (hl : Operand S s l tl) (hr : Operand S s r tr) (hbl : IsBool tl)
    (hbr : IsBool tr) (hal : tl.Above k) (har : tr.Above k) (hfuel : S.top - k < fuel) :
    Returns S s (Computes [tl, tr] fun x => op.fn (evalBool tl x) (evalBool tr x))
      (applyRec S.D S.isPrime op fuel l r s) :=
  applyRec_computes hS.operators op hs hl hr hbl hbr hal har hfuel

/-! ## `bdd_ite` -/

theorem iteRec_computes (hS : S.Operators) {fuel k f g h : ℕ} {tf tg th : DTree (Leaf P)}
    (hs : Inv S s) (hf : Operand S s f tf) (hg : Operand S s g tg) (hh : Operand S s h th)
    (hbf : IsBool tf) (hbg : IsBool tg) (hbh : IsBool th) (haf : tf.Above k) (hag : tg.Above k)
    (hah : th.Above k) (hfuel : S.top - k < fuel) :
    Returns S s (Computes [tf, tg, th]
        fun x => if evalBool tf x then evalBool tg x else evalBool th x)
      (iteRec S.D S.isPrime fuel f g h s) := by
  induction fuel generalizing k s f g h tf tg th with
  | zero => omega
  | succ fuel ih =>
    unfold iteRec
    by_cases hf1 : f = 1
    · rw [if_pos hf1, hf.const (b := true) hf1]
      exact (Post.operand hs hg (.operand (by simp) hbg fun _ => rfl)).returns
    rw [if_neg hf1]
    by_cases hf0 : f = 0
    · rw [if_pos hf0, hf.const (b := false) hf0]
      exact (Post.operand hs hh (.operand (by simp) hbh fun _ => rfl)).returns
    rw [if_neg hf0]
    by_cases hgh : g = h
    · rw [if_pos hgh, hh.unique (hgh ▸ hg.reads)]
      exact (Post.operand hs hg (.operand (by simp) hbg fun x => ite_self _)).returns
    rw [if_neg hgh]
    by_cases h10 : g = 1 ∧ h = 0
    · rw [if_pos h10, hg.const (b := true) h10.1, hh.const (b := false) h10.2]
      refine (Post.operand hs hf (.operand (by simp) hbf fun x => ?_)).returns
      cases evalBool tf x <;> rfl
    rw [if_neg h10]
    by_cases h01 : g = 0 ∧ h = 1
    · rw [if_pos h01, hg.const (b := false) h01.1, hh.const (b := true) h01.2]
      have hnot : Returns S s _ (notRec S.D S.isPrime depth f s) :=
        notRec_computes hS hs hf hbf haf (S.depth_bound k)
      refine hnot.mono fun ok t ht => ⟨ht.isBool, fun k hk => ?_, fun hok x => ?_⟩
      · exact ht.above k fun u hu => hk u (by simp [List.mem_singleton.mp hu])
      · rw [ht.eval hok]
        cases evalBool tf x <;> rfl
    rw [if_neg h01]
    refine memo_returns hs (fun e he hhit => ?_) ?_ fun s' e res u g he hres hc => ?_
    · simp only [Bool.and_eq_true, decide_eq_true_eq] at hhit
      have hentry : IteEntry S.D s e := (hS.ite s e).mp he
      unfold IteEntry at hentry
      rw [hhit.1.1, hhit.1.2, hhit.2] at hentry
      exact hentry.hit (.cons hf.reads (.cons hg.reads (.cons hh.reads .nil)))
    · let B : ℕ → (Bool → BddState P → ℕ) → (Bool → BddState P → ℕ) →
          (Bool → BddState P → ℕ) → Option (ℕ × BddState P) := fun n pf pg ph =>
        branch (fun s => iteRec S.D S.isPrime fuel (pf false s) (pg false s) (ph false s) s)
          (fun s => iteRec S.D S.isPrime fuel (pf true s) (pg true s) (ph true s) s)
          (nodeAt S.D S.isPrime n) s
      refine split_three (B := B) hf hg hh haf hag hah (hf.level_lt hbf (by omega))
        fun n level pf pg ph hsplit => ?_
      have hpf := hsplit.cofactors (tf, pf) List.mem_cons_self
      have hpg := hsplit.cofactors (tg, pg) (by simp)
      have hph := hsplit.cofactors (th, ph) (by simp)
      have hf' := (hsplit.sorted tf List.mem_cons_self).2
      have hg' := (hsplit.sorted tg (by simp)).2
      have hh' := (hsplit.sorted th (by simp)).2
      have hle := hsplit.le
      have hltop := hsplit.lt
      have hrec : ∀ (b : Bool) (s' : BddState P), Inv S s' → Evo S.D s s' →
          Returns S s' (Computes ([tf, tg, th].map (·.cof level b))
            fun x => if evalBool (tf.cof level b) x then evalBool (tg.cof level b) x
              else evalBool (th.cof level b) x)
            (iteRec S.D S.isPrime fuel (pf b s') (pg b s') (ph b s') s') := fun b s' hi he =>
        ih hi (hpf s' he b) (hpg s' he b) (hph s' he b) (hbf.cof _ b) (hbg.cof _ b)
          (hbh.cof _ b) (hf'.cof hf.sorted b) (hg'.cof hg.sorted b) (hh'.cof hh.sorted b)
          (by omega)
      refine branch_computes hltop hsplit.level_eq hsplit.sorted hsplit.root
        (hrec false s hs (.refl s)) (hrec true) fun x => ?_
      rw [← evalBool_cof tf level x, ← evalBool_cof tg level x, ← evalBool_cof th level x]
      cases x level <;> rfl
    · rw [hS.ite]
      exact ⟨[tf, tg, th], u, .cons (hf.evo he).reads (.cons (hg.evo he).reads
        (.cons (hh.evo he).reads .nil)), hres, hc⟩

theorem iteRec_returns (hS : S.Plain) {fuel k f g h : ℕ} {tf tg th : DTree (Leaf P)}
    (hs : Inv S s) (hf : Operand S s f tf) (hg : Operand S s g tg) (hh : Operand S s h th)
    (hbf : IsBool tf) (hbg : IsBool tg) (hbh : IsBool th) (haf : tf.Above k) (hag : tg.Above k)
    (hah : th.Above k) (hfuel : S.top - k < fuel) :
    Returns S s (Computes [tf, tg, th]
        fun x => if evalBool tf x then evalBool tg x else evalBool th x)
      (iteRec S.D S.isPrime fuel f g h s) :=
  iteRec_computes hS.operators hs hf hg hh hbf hbg hbh haf hag hah hfuel

end MoToBuddy.Bdd
