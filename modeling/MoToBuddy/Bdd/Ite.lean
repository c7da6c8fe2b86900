import MoToBuddy.Bdd.Steps

/-!
# `mtbdd_ite`

`mtbdd_ite` takes a plain diagram `f` and two diagrams with terminals. Where both of these have
come down to terminals, it does not descend `f` any further: it makes a node at the root of what is
left of `f`, with the branch for `1` as the low child.

* `iteLeaf`: the leaf that the function selects, for any three diagrams (`mtbddIteRec_returns`).
* `mtbddIte_selects_iff`: it is the right one exactly if what is left of `f` is a constant or a
  negated variable, wherever two terminals meet.
-/

namespace MoToBuddy.Bdd

open Decision

variable {P : Type*}

/-! ## The source -/

section

variable (D : MtbddDomain P) (isPrime : ℕ → Bool)

/-- `ISTERMINAL`. -/
def BddState.isTerminal (s : BddState P) (n : ℕ) : Bool := s.level n = maxlevel && !s.isFree n

/-- `mtbdd_ite_rec`. -/
def mtbddIteRec : ℕ → ℕ → ℕ → ℕ → BddState P → Option (ℕ × BddState P)
  | 0, _, _, _, _ => none
  | fuel + 1, f, g, h, s =>
    if f = 0 then some (h, s)
    else if f = 1 then some (g, s)
    else if g = h then some (g, s)
    else if s.isTerminal g && s.isTerminal h then nodeAt D isPrime f g h s
    else memo .mtbddIte (hash3 (.ofNat f) (.ofNat g) (.ofNat h))
      (fun e => e.a = f && e.b = g && e.c = h)
      (fun e res => { e with
        a := f
        b := g
        c := h
        d := minusOne
        res := res })
      (fun s =>
        let rec' := mtbddIteRec fuel
        if s.level f = s.level g then
          if s.level f = s.level h then
            branch (fun s => rec' (s.low f) (s.low g) (s.low h) s)
              (fun s => rec' (s.high f) (s.high g) (s.high h) s) (nodeAt D isPrime f) s
          else if s.level f < s.level h then
            branch (fun s => rec' (s.low f) (s.low g) h s)
              (fun s => rec' (s.high f) (s.high g) h s) (nodeAt D isPrime f) s
          else
            branch (fun s => rec' f g (s.low h) s)
              (fun s => rec' f g (s.high h) s) (nodeAt D isPrime h) s
        else if s.level f < s.level g then
          if s.level f = s.level h then
            branch (fun s => rec' (s.low f) g (s.low h) s)
              (fun s => rec' (s.high f) g (s.high h) s) (nodeAt D isPrime f) s
          else if s.level f < s.level h then
            branch (fun s => rec' (s.low f) g h s)
              (fun s => rec' (s.high f) g h s) (nodeAt D isPrime f) s
          else
            branch (fun s => rec' f g (s.low h) s)
              (fun s => rec' f g (s.high h) s) (nodeAt D isPrime h) s
        else
          if s.level g = s.level h then
            branch (fun s => rec' f (s.low g) (s.low h) s)
              (fun s => rec' f (s.high g) (s.high h) s) (nodeAt D isPrime g) s
          else if s.level g < s.level h then
            branch (fun s => rec' f (s.low g) h s)
              (fun s => rec' f (s.high g) h s) (nodeAt D isPrime g) s
          else
            branch (fun s => rec' f g (s.low h) s)
              (fun s => rec' f g (s.high h) s) (nodeAt D isPrime h) s) s

/-- `mtbdd_ite`. -/
def mtbddIte (f g h : ℕ) : BddState P → Option (ℕ × BddState P) :=
  checka f (checka g (checka h (mtbddIteRec D isPrime depth f g h)))

end

variable {D : MtbddDomain P} {isPrime : ℕ → Bool} {S : Setting P} {s s' : BddState P}
  {tf tg th t : DTree (Leaf P)}

/-! ## What the function selects -/

/-- A leaf with a value is a terminal. -/
def Leaf.IsValue : Leaf P → Prop
  | .const _ => False
  | .value _ _ => True

instance : DecidablePred (Leaf.IsValue (P := P)) := fun l =>
  match l with
  | .const _ => inferInstanceAs (Decidable False)
  | .value _ _ => inferInstanceAs (Decidable True)

/-- The choice that a diagram makes at its root if the branch for `1` is the low child. -/
def rootChoice : DTree (Leaf P) → (ℕ → Bool) → Bool
  | .leaf (.const b), _ => b
  | .leaf (.value _ _), _ => false
  | .node level _ _, x => !x level

/-- What is left of `f` where both branches have come down to a leaf. -/
def iteRest (tf tg th : DTree (Leaf P)) (x : ℕ → Bool) : DTree (Leaf P) :=
  tf.after (max (tg.pathEnd x) (th.pathEnd x)) x

/-- The choice that `mtbdd_ite` makes at an assignment. -/
def iteChoice (tf tg th : DTree (Leaf P)) (x : ℕ → Bool) : Bool :=
  if (tg.eval x).IsValue ∧ (th.eval x).IsValue then rootChoice (iteRest tf tg th x) x
  else evalBool tf x

/-- The leaf that `mtbdd_ite` selects at an assignment. -/
def iteLeaf (tf tg th : DTree (Leaf P)) (x : ℕ → Bool) : Leaf P :=
  if iteChoice tf tg th x then tg.eval x else th.eval x

/-- The branches of the diagrams at a level, up to where the branches both are terminals. -/
theorem iteLeaf_cof {level : ℕ} {x : ℕ → Bool} (hf : tf.Sorted S.top) (haf : tf.Above level)
    (hag : tg.Above level) (hah : th.Above level)
    (hroot : ∀ l m, tg = .leaf l → th = .leaf m → ¬ (l.IsValue ∧ m.IsValue)) :
    iteLeaf (tf.cof level (x level)) (tg.cof level (x level)) (th.cof level (x level)) x =
      iteLeaf tf tg th x := by
  have hchoice : iteChoice (tf.cof level (x level)) (tg.cof level (x level))
      (th.cof level (x level)) x = iteChoice tf tg th x := by
    unfold iteChoice
    rw [DTree.eval_cof, DTree.eval_cof, evalBool_cof]
    split
    · rename_i hvalue
      -- one of the paths goes on at the level or below it
      have hend : level < max (tg.pathEnd x) (th.pathEnd x) := by
        cases tg with
        | node k a b => exact Nat.lt_of_lt_of_le (DTree.lt_pathEnd hag x) (Nat.le_max_left _ _)
        | leaf l =>
          cases th with
          | node k a b => exact Nat.lt_of_lt_of_le (DTree.lt_pathEnd hah x) (Nat.le_max_right _ _)
          | leaf m => exact absurd hvalue (hroot l m rfl rfl)
      have hpath : max (level + 1) (max ((tg.cof level (x level)).pathEnd x)
          ((th.cof level (x level)).pathEnd x)) = max (tg.pathEnd x) (th.pathEnd x) := by
        have hg := DTree.pathEnd_cof tg level x
        have hh := DTree.pathEnd_cof th level x
        omega
      have hrest : iteRest (tf.cof level (x level)) (tg.cof level (x level))
          (th.cof level (x level)) x = iteRest tf tg th x := by
        unfold iteRest
        rw [← DTree.after_max (haf.cof hf (x level)), hpath, DTree.after_cof hend]
      rw [hrest]
    · rfl
  unfold iteLeaf
  rw [hchoice, DTree.eval_cof, DTree.eval_cof]

/-- The result of `mtbdd_ite`: it starts where the operands start, and if nothing was reported it
selects as told. -/
structure Selects (tf tg th : DTree (Leaf P)) (ok : Prop) (t : DTree (Leaf P)) : Prop where
  above : ∀ k, tf.Above k → tg.Above k → th.Above k → t.Above k
  eval : ok → ∀ x, t.eval x = iteLeaf tf tg th x

theorem Selects.lasting (tf tg th : DTree (Leaf P)) : Lasting (Selects tf tg th) :=
  fun _ _ _ hok h => ⟨h.above, fun h' => h.eval (hok h')⟩

/-- What stands for a node that could not be made. -/
theorem Selects.full {ok : Prop} (hok : ¬ ok) : Selects tf tg th ok (.leaf (.const false)) :=
  ⟨fun _ _ _ _ => trivial, fun h => absurd h hok⟩

theorem Selects.const {b : Bool} {ok : Prop} :
    Selects (.leaf (.const b)) tg th ok (if b then tg else th) := by
  refine ⟨fun k _ hg hh => ?_, fun _ x => ?_⟩
  · cases b
    · exact hh
    · exact hg
  · have hchoice : iteChoice (.leaf (.const b)) tg th x = b := by
      unfold iteChoice
      split <;> rfl
    unfold iteLeaf
    rw [hchoice]
    cases b <;> rfl

theorem Selects.same {ok : Prop} : Selects tf tg tg ok tg := by
  refine ⟨fun k _ hg _ => hg, fun _ x => ?_⟩
  unfold iteLeaf
  rw [ite_self]

/-- The node for two terminals. -/
theorem Selects.terminals {check : Bool} {level : ℕ} {a b : DTree (Leaf P)} {l m : Leaf P}
    {ok : Prop} (hl : l.IsValue) (hm : m.IsValue)
    (hj : Join D check level (.leaf l) (.leaf m) t) :
    Selects (.node level a b) (.leaf l) (.leaf m) ok t := by
  refine ⟨fun k hk _ _ => ?_, fun _ x => ?_⟩
  · have hle : k ≤ level := hk
    exact (hj.above trivial).mono hle
  · have hchoice : iteChoice (.node level a b) (.leaf l) (.leaf m) x = !x level := by
      unfold iteChoice
      rw [if_pos ⟨hl, hm⟩]
      rfl
    rw [hj.eval]
    unfold iteLeaf
    rw [hchoice]
    cases x level <;> rfl

/-- The results for the branches, joined. -/
theorem Selects.join {check : Bool} {level : ℕ} {tl tr : DTree (Leaf P)} {ok : Prop}
    (hl : Selects (tf.cof level false) (tg.cof level false) (th.cof level false) ok tl)
    (hr : Selects (tf.cof level true) (tg.cof level true) (th.cof level true) ok tr)
    (hops : ∀ u ∈ [tf, tg, th], u.Sorted S.top ∧ u.Above level)
    (hnode : ∃ a b, DTree.node level a b ∈ [tf, tg, th])
    (hroot : ∀ l m, tg = .leaf l → th = .leaf m → ¬ (l.IsValue ∧ m.IsValue))
    (hj : Join D check level tl tr t) : Selects tf tg th ok t := by
  obtain ⟨hsf, haf⟩ := hops tf List.mem_cons_self
  obtain ⟨hsg, hag⟩ := hops tg (by simp)
  obtain ⟨hsh, hah⟩ := hops th (by simp)
  have hal : tl.Above (level + 1) :=
    hl.above _ (haf.cof hsf false) (hag.cof hsg false) (hah.cof hsh false)
  refine ⟨fun k hkf hkg hkh => ?_, fun hok x => ?_⟩
  · obtain ⟨a, b, hmem⟩ := hnode
    have hk : (DTree.node level a b).Above k := by
      simp only [List.mem_cons, List.not_mem_nil, or_false] at hmem
      rcases hmem with h | h | h
      · exact h ▸ hkf
      · exact h ▸ hkg
      · exact h ▸ hkh
    exact (hj.above hal).mono hk
  · rw [hj.eval, ← iteLeaf_cof hsf haf hag hah hroot]
    cases hx : x level
    · rw [if_neg Bool.false_ne_true]
      exact hl.eval hok x
    · rw [if_pos rfl]
      exact hr.eval hok x

/-- Results for the branches at a level are below it. -/
theorem Selects.below {level : ℕ} {ok : Prop} {c : Bool}
    (h : Selects (tf.cof level c) (tg.cof level c) (th.cof level c) ok t)
    (hops : ∀ u ∈ [tf, tg, th], u.Sorted S.top ∧ u.Above level) : t.Above (level + 1) := by
  obtain ⟨hsf, haf⟩ := hops tf List.mem_cons_self
  obtain ⟨hsg, hag⟩ := hops tg (by simp)
  obtain ⟨hsh, hah⟩ := hops th (by simp)
  exact h.above _ (haf.cof hsf c) (hag.cof hsg c) (hah.cof hsh c)

/-! ## The recursion -/

/-- An entry of the cache holds a result. -/
def MtbddIteEntry (D : MtbddDomain P) (s : BddState P) (e : BddCacheData) : Prop :=
  ∃ tf tg th t, s.Reads D e.a tf ∧ s.Reads D e.b tg ∧ s.Reads D e.c th ∧ s.Reads D e.res t ∧
    Selects tf tg th s.Ok t

theorem MtbddIteEntry.stable {e : BddCacheData} (h : MtbddIteEntry D s e)
    (hsame : ∀ n, s.live n = true → SameNode D s s' n) (he : s'.Ok → s.Ok) :
    MtbddIteEntry D s' e := by
  obtain ⟨tf, tg, th, t, hf, hg, hh, ht, hsel⟩ := h
  exact ⟨tf, tg, th, t, hf.stable hsame, hg.stable hsame, hh.stable hsame, ht.stable hsame,
    Selects.lasting tf tg th _ _ t he hsel⟩

/-- The theory of `mtbdd_ite`. -/
def iteTheory (D : MtbddDomain P) (isPrime : ℕ → Bool) : Theory P where
  D := D
  isPrime := isPrime
  cache s k e := k = .mtbddIte → MtbddIteEntry D s e
  stable _ _ _ _ hsame hok h hk := (h hk).stable hsame hok
  reduced := False

/-- The cache of `mtbdd_ite` holds its results. -/
def Setting.Ites (S : Setting P) : Prop := ∀ s e, S.cache s .mtbddIte e ↔ MtbddIteEntry S.D s e

theorem iteTheory_ites {top : ℕ} (htop : top ≤ maxlevel) :
    ((iteTheory D isPrime).setting top htop).Ites :=
  fun _ _ => ⟨fun h => h rfl, fun h _ => h⟩

/-- The macro tells terminals from constants and decisions. -/
theorem Operand.isTerminal_iff {n : ℕ} (h : Operand S s n t)
    (hconst : ∀ n, n < 2 → s.level n < maxlevel) :
    s.isTerminal n = true ↔ ∃ l, t = .leaf l ∧ l.IsValue := by
  have hr := h.reads
  unfold BddState.isTerminal
  rw [Bool.and_eq_true, decide_eq_true_eq, Bool.not_eq_true']
  cases hr with
  | const b =>
    have hlt := hconst _ (BddState.Reads.toNat_lt b)
    constructor
    · intro hc
      omega
    · rintro ⟨l, heq, hl⟩
      rw [← DTree.leaf.inj heq] at hl
      exact hl.elim
  | terminal live level low value =>
    refine ⟨fun _ => ⟨_, rfl, trivial⟩, fun _ => ⟨level, ?_⟩⟩
    rw [isFree_eq (BddState.live_iff.mp live).1, live]
    rfl
  | node inner key decision below above =>
    constructor
    · rintro ⟨hlevel, -⟩
      have hkey : s.level n = _ := congrArg BddKey.level key
      exact absurd (hkey.symm.trans hlevel) decision
    · rintro ⟨l, heq, -⟩
      exact absurd heq (by simp)

theorem mtbddIteRec_returns (hS : S.Ites) {fuel k f g h : ℕ} (hs : Inv S s)
    (hconst : 0 < S.top → ∀ n, n < 2 → s.level n < maxlevel) (hf : Operand S s f tf)
    (hg : Operand S s g tg) (hh : Operand S s h th) (hbf : IsBool tf) (haf : tf.Above k) (hag : tg.Above k)
    (hah : th.Above k) (hfuel : S.top - k < fuel) :
    Returns S s (Selects tf tg th) (mtbddIteRec S.D S.isPrime fuel f g h s) := by
  induction fuel generalizing k s f g h tf tg th with
  | zero => omega
  | succ fuel ih =>
    unfold mtbddIteRec
    by_cases hf0 : f = 0
    · rw [if_pos hf0, hf.const (b := false) hf0]
      exact (Post.operand hs hh (.const (b := false))).returns
    rw [if_neg hf0]
    by_cases hf1 : f = 1
    · rw [if_pos hf1, hf.const (b := true) hf1]
      exact (Post.operand hs hg (.const (b := true))).returns
    rw [if_neg hf1]
    by_cases hgh : g = h
    · rw [if_pos hgh, hh.unique (hgh ▸ hg.reads)]
      exact (Post.operand hs hg .same).returns
    rw [if_neg hgh]
    have hltf : s.level f < S.top := hf.level_lt hbf (by omega)
    replace hconst := hconst (Nat.lt_of_le_of_lt (Nat.zero_le _) hltf)
    have hterm : (s.isTerminal g && s.isTerminal h) = true ↔
        ∃ l m, tg = .leaf l ∧ th = .leaf m ∧ l.IsValue ∧ m.IsValue := by
      rw [Bool.and_eq_true, hg.isTerminal_iff hconst, hh.isTerminal_iff hconst]
      constructor
      · rintro ⟨⟨l, hl, hvl⟩, m, hm, hvm⟩
        exact ⟨l, m, hl, hm, hvl, hvm⟩
      · rintro ⟨l, m, hl, hm, hvl, hvm⟩
        exact ⟨⟨l, hl, hvl⟩, m, hm, hvm⟩
    by_cases hleaf : (s.isTerminal g && s.isTerminal h) = true
    · -- the node at the root of what is left of `f`
      rw [if_pos hleaf]
      obtain ⟨l, m, rfl, rfl, hl, hm⟩ := hterm.mp hleaf
      obtain ⟨a, b, rfl⟩ := hf.node_of_level hltf
      have hgl : Pushed S s (fun _ t => t = .leaf l) g := ⟨_, hg, rfl⟩
      have hhl : Pushed S s (fun _ t => t = .leaf m) h := ⟨_, hh, rfl⟩
      refine nodeAt_returns hs hltf rfl (fun _ _ _ _ h => h) (fun _ _ _ _ h => h) ?_ ?_ hgl hhl
        (fun _ _ _ _ h1 h2 hj => .terminals hl hm (h1 ▸ h2 ▸ hj)) fun _ => .full
      · intro _ t h
        rw [h]
        trivial
      · intro _ t h
        rw [h]
        trivial
    rw [if_neg hleaf]
    have hroot : ∀ l m, tg = .leaf l → th = .leaf m → ¬ (l.IsValue ∧ m.IsValue) :=
      fun l m hl hm hv => hleaf (hterm.mpr ⟨l, m, hl, hm, hv.1, hv.2⟩)
    refine memo_returns hs (fun e he hhit => ?_) ?_ fun s' e res u gen he hres hc => ?_
    · simp only [Bool.and_eq_true, decide_eq_true_eq] at hhit
      obtain ⟨tf', tg', th', u, hrf, hrg, hrh, hres, hsel⟩ := (hS s e).mp he
      rw [hhit.1.1] at hrf
      rw [hhit.1.2] at hrg
      rw [hhit.2] at hrh
      rw [← hf.unique hrf, ← hg.unique hrg, ← hh.unique hrh] at hsel
      exact ⟨u, hres, hsel⟩
    · let B : ℕ → (Bool → BddState P → ℕ) → (Bool → BddState P → ℕ) →
          (Bool → BddState P → ℕ) → Option (ℕ × BddState P) := fun n pf pg ph =>
        branch (fun s => mtbddIteRec S.D S.isPrime fuel (pf false s) (pg false s) (ph false s) s)
          (fun s => mtbddIteRec S.D S.isPrime fuel (pf true s) (pg true s) (ph true s) s)
          (nodeAt S.D S.isPrime n) s
      refine split_three (B := B) hf hg hh haf hag hah hltf fun n level pf pg ph hsplit => ?_
      have hpf := hsplit.cofactors (tf, pf) List.mem_cons_self
      have hpg := hsplit.cofactors (tg, pg) (by simp)
      have hph := hsplit.cofactors (th, ph) (by simp)
      have hf' := (hsplit.sorted tf List.mem_cons_self).2
      have hg' := (hsplit.sorted tg (by simp)).2
      have hh' := (hsplit.sorted th (by simp)).2
      have hle := hsplit.le
      have hltop := hsplit.lt
      have hrec : ∀ (b : Bool) (s' : BddState P), Inv S s' → Evo S.D s s' →
          Returns S s' (Selects (tf.cof level b) (tg.cof level b) (th.cof level b))
            (mtbddIteRec S.D S.isPrime fuel (pf b s') (pg b s') (ph b s') s') :=
        fun b s' hi he => ih hi
          (fun _ n hn => Nat.lt_of_le_of_lt (Nat.le_of_eq (he.const n hn)) (hconst n hn))
          (hpf s' he b) (hpg s' he b) (hph s' he b) (hbf.cof _ b) (hf'.cof hf.sorted b)
          (hg'.cof hg.sorted b) (hh'.cof hh.sorted b) (by omega)
      exact branch_node hltop hsplit.level_eq (Selects.lasting _ _ _) (Selects.lasting _ _ _)
        (fun _ _ h => h.below hsplit.sorted) (fun _ _ h => h.below hsplit.sorted)
        (hrec false s hs (.refl s)) (hrec true)
        (fun _ _ _ _ _ hl hr hj => hl.join hr hsplit.sorted hsplit.root hroot hj) fun _ => .full
    · rw [hS]
      exact ⟨tf, tg, th, u, (hf.evo he).reads, (hg.evo he).reads, (hh.evo he).reads, hres, hc⟩

/-! ## When the selection is right -/

/-- Wherever two different terminals meet, what is left of `f` is a constant or the negation of
its first variable. -/
def Separable (tf tg th : DTree (Leaf P)) : Prop :=
  ∀ x, tg.eval x ≠ th.eval x → (tg.eval x).IsValue → (th.eval x).IsValue →
    ∀ level a b, iteRest tf tg th x = .node level a b →
      ∀ y, evalBool (.node level a b) y = !y level

/-- The leaf of `g` or of `h`, as `f` tells. -/
def pointwiseIte (tf tg th : DTree (Leaf P)) (x : ℕ → Bool) : Leaf P :=
  if evalBool tf x then tg.eval x else th.eval x

theorem evalBool_after (t : DTree (Leaf P)) (k : ℕ) (x : ℕ → Bool) :
    evalBool (t.after k x) x = evalBool t x := by
  unfold evalBool
  rw [DTree.eval_after]

/-- The choice is right where the rest is a constant or a negated variable. -/
theorem Separable.iteLeaf_eq (h : Separable tf tg th) (x : ℕ → Bool) :
    iteLeaf tf tg th x = pointwiseIte tf tg th x := by
  unfold iteLeaf pointwiseIte
  by_cases heq : tg.eval x = th.eval x
  · rw [heq, ite_self, ite_self]
  · have hchoice : iteChoice tf tg th x = evalBool tf x := by
      unfold iteChoice
      split
      · rename_i hvalue
        have hrest : evalBool (iteRest tf tg th x) x = evalBool tf x := evalBool_after tf _ x
        cases hr : iteRest tf tg th x with
        | leaf l =>
          rw [hr] at hrest
          rw [← hrest]
          cases l <;> rfl
        | node level a b =>
          rw [hr] at hrest
          rw [← hrest, h x heq hvalue.1 hvalue.2 level a b hr x]
          rfl
      · rfl
    rw [hchoice]

/-- If the choice is right everywhere, it is so for all assignments that lead to one rest. -/
theorem separable_of_eq {M : ℕ} (hs : tf.Sorted M)
    (h : ∀ x, iteLeaf tf tg th x = pointwiseIte tf tg th x) : Separable tf tg th := by
  intro x hne hvg hvh level a b hrest y
  let k := max (tg.pathEnd x) (th.pathEnd x)
  let z : ℕ → Bool := fun j => if j < k then x j else y j
  have hxz : ∀ j < k, x j = z j := fun j hj => (if_pos hj).symm
  have hzy : ∀ j, k ≤ j → z j = y j := fun j hj => if_neg (Nat.not_lt.mpr hj)
  obtain ⟨hgz, hpg⟩ := DTree.path_congr (Nat.le_max_left _ _) hxz
  obtain ⟨hhz, hph⟩ := DTree.path_congr (Nat.le_max_right _ _) hxz
  have hrestz : iteRest tf tg th z = .node level a b := by
    unfold iteRest
    rw [hpg, hph, ← hrest]
    exact (DTree.after_congr hxz tf).symm
  have habove : (DTree.node level a b).Above k := hrest ▸ DTree.Above.after hs k x
  have hsorted : (DTree.node level a b).Sorted M := hrest ▸ hs.after k x
  have hchoice : iteChoice tf tg th z = !y level := by
    unfold iteChoice
    rw [hgz, hhz, if_pos ⟨hvg, hvh⟩, hrestz, ← hzy level habove]
    rfl
  have hz := h z
  unfold iteLeaf pointwiseIte at hz
  rw [hchoice, hgz, hhz] at hz
  have hy : evalBool (.node level a b) y = evalBool tf z := by
    rw [← evalBool_after tf k z, ← DTree.after_congr hxz tf, show tf.after k x = _ from hrest]
    unfold evalBool
    rw [DTree.eval_congr hsorted habove fun j hj _ => hzy j hj]
  rw [hy]
  -- the two leaves differ, so the choices agree
  cases hyl : y level <;> cases hfz : evalBool tf z <;> rw [hyl, hfz] at hz <;> first
    | rfl
    | exact absurd hz hne
    | exact absurd hz.symm hne

/-! ## Sessions -/

/-- A step of the kernel, or a call of `mtbdd_ite` with nodes that are held. -/
inductive IteCall (D : MtbddDomain P) (isPrime : ℕ → Bool) (s : BddState P) : BddState P → Prop
  | step {s' : BddState P} (h : Step (iteTheory D isPrime) s s') : IteCall D isPrime s s'
  | ite (f g h res : ℕ) (s' : BddState P) (hf : s.IsNode f → s.InUse D f)
      (hg : s.IsNode g → g < 2 ∨ s.Held g) (hh : s.IsNode h → h < 2 ∨ s.Held h)
      (heq : mtbddIte D isPrime f g h s = some (res, s')) : IteCall D isPrime s s'

theorem mtbddIte_returns (hs : Regular (iteTheory D isPrime) s) {f g h : ℕ} (hf : s.InUse D f)
    (hg : g < 2 ∨ s.Held g) (hh : h < 2 ∨ s.Held h) (hrf : s.Reads D f tf)
    (hrg : s.Reads D g tg) (hrh : s.Reads D h th) :
    Returns ((iteTheory D isPrime).setting s.env.bddvarnum hs.num) s (Selects tf tg th)
      (mtbddIte D isPrime f g h s) := by
  obtain ⟨hheld, t, hr, hb⟩ := hf
  rw [hr.unique hrf] at hb
  unfold mtbddIte
  rw [checka_node hs.toGood hrf.isNode, checka_node hs.toGood hrg.isNode,
    checka_node hs.toGood hrh.isNode]
  exact mtbddIteRec_returns (iteTheory_ites hs.num) hs.inv hs.const
    (hs.inv.operand_of_reads hheld hrf) (hs.inv.operand_of_reads hg hrg)
    (hs.inv.operand_of_reads hh hrh) hb tf.above_zero tg.above_zero th.above_zero
    (Setting.depth_bound _ 0)

/-- A call with an id that is no node reports an error. -/
theorem checka_regular {T : Theory P} (h : Regular T s) {n res : ℕ}
    {body : BddState P → Option (ℕ × BddState P)}
    (hbody : s.IsNode n → body s = some (res, s') → Regular T s')
    (hc : checka n body s = some (res, s')) : Regular T s' := by
  by_cases hn : s.IsNode n
  · rw [checka_node h.toGood hn] at hc
    exact hbody hn hc
  · rw [checka_not_node hn] at hc
    have heq : s.error .illbdd = s' := congrArg Prod.snd (Option.some.inj hc)
    exact heq ▸ h.sameLevels (h.toGood.error .illbdd) ⟨rfl, fun _ => rfl⟩

theorem IteCall.regular (hs : Regular (iteTheory D isPrime) s) (hok : s'.Ok)
    (hc : IteCall D isPrime s s') : Regular (iteTheory D isPrime) s' := by
  cases hc with
  | step h => exact h.regular hs hok
  | ite f g h res _ hf hg hh heq =>
    refine checka_regular hs (fun hnf => checka_regular hs fun hng => checka_regular hs
      fun hnh _ => ?_) heq
    obtain ⟨tf, hrf, -⟩ := hs.inv.graph.exists_reads hnf
    obtain ⟨tg, hrg, -⟩ := hs.inv.graph.exists_reads hng
    obtain ⟨th, hrh, -⟩ := hs.inv.graph.exists_reads hnh
    obtain ⟨r, hr, hp⟩ := mtbddIte_returns hs (hf hnf) (hg hng) (hh hnh) hrf hrg hrh
    have hres : r = (res, s') := Option.some.inj (hr.symm.trans heq)
    rw [hres] at hp
    exact hs.evo hp.inv.toCore hp.evo

/-- Every assignment of the levels agrees with one of the variables. -/
theorem Good.exists_assign {T : Theory P} (h : Good T s) (x : ℕ → Bool) :
    ∃ a, ∀ l < s.env.bddvarnum, s.assign a l = x l :=
  ⟨fun v => x (s.env.bddvar2level v), fun _ hl => h.assign_level x hl⟩

/-- Diagrams agree at all assignments of the variables if and only if they do at all assignments of
the levels. -/
theorem Good.forall_assign {T : Theory P} (h : Good T s) {top : ℕ}
    (htop : top = s.env.bddvarnum) (ht : t.Sorted top) (hf : tf.Sorted top) (hg : tg.Sorted top)
    (hh : th.Sorted top) :
    (∀ a, t.eval (s.assign a) = pointwiseIte tf tg th (s.assign a)) ↔
      ∀ x, t.eval x = pointwiseIte tf tg th x := by
  refine ⟨fun ha x => ?_, fun hx a => hx _⟩
  obtain ⟨a, hax⟩ := h.exists_assign x
  have hcongr : ∀ u : DTree (Leaf P), u.Sorted top → u.eval (s.assign a) = u.eval x :=
    fun u hu => DTree.eval_congr hu u.above_zero fun j _ hj => hax j (htop ▸ hj)
  have hax := ha a
  unfold pointwiseIte evalBool at hax ⊢
  rw [hcongr t ht, hcongr tf hf, hcongr tg hg, hcongr th hh] at hax
  exact hax

/-- The result of a call, and when it is right. -/
theorem Regular.mtbddIte (hs : Regular (iteTheory D isPrime) s) {f g h : ℕ} (hf : s.InUse D f)
    (hg : g < 2 ∨ s.Held g) (hh : h < 2 ∨ s.Held h) (hrf : s.Reads D f tf)
    (hrg : s.Reads D g tg) (hrh : s.Reads D h th) :
    ∃ res s', Bdd.mtbddIte D isPrime f g h s = some (res, s') ∧ (s'.Ok → ∃ t,
      s'.Reads D res t ∧ ((∀ a, t.eval (s'.assign a) = pointwiseIte tf tg th (s'.assign a)) ↔
        Separable tf tg th)) := by
  obtain ⟨⟨res, s'⟩, hr, hp⟩ := mtbddIte_returns hs hf hg hh hrf hrg hrh
  refine ⟨res, s', hr, fun hok => ?_⟩
  obtain ⟨t, hrt, hsel⟩ := hp.result
  have hgood : Good (iteTheory D isPrime) s' := hs.toGood.evo hp.inv.toCore hp.evo
  have hnum : s.env.bddvarnum = s'.env.bddvarnum := by
    have henv : s'.env = s.env := hp.evo.env
    rw [henv]
  have hgraph := hs.inv.graph
  have hsf := (hgraph.sorted hrf).1
  refine ⟨t, hrt, ?_⟩
  rw [hgood.forall_assign hnum (hp.inv.graph.sorted hrt).1 hsf (hgraph.sorted hrg).1
    (hgraph.sorted hrh).1]
  constructor
  · exact fun hright => separable_of_eq hsf fun x => (hsel.eval hok x).symm.trans (hright x)
  · exact fun hsep x => (hsel.eval hok x).trans (hsep.iteLeaf_eq x)

theorem iteRun_regular (hs : Run isPrime (IteCall D isPrime) s) :
    Regular (iteTheory D isPrime) s :=
  Run.regular (T := iteTheory D isPrime) hs fun _ _ => IteCall.regular

/-! ## A session with two terminals -/

/-- The state after a terminal was made and pushed. -/
def withTerminal (s : BddState UInt32) (value : UInt32) : BddState UInt32 :=
  match mtbddMaketerminal intDomain trialDivision s value 0 with
  | none => s
  | some (res, s) => s.pushref res

theorem withTerminal_run {s : BddState UInt32}
    (hs : Run trialDivision (IteCall intDomain trialDivision) s) (value : UInt32)
    (hok : (withTerminal s value).Ok) :
    Run trialDivision (IteCall intDomain trialDivision) (withTerminal s value) := by
  have htype : intDomain.domaintype = .custom → 0 < intDomain.typeNumber := by
    intro h
    exact absurd h (by decide)
  obtain ⟨r, flight, hr, -, hspec⟩ := mtbddMaketerminal_core (iteRun_regular hs).inv.toCore
    (Or.inr rfl) value htype
  have hnode : r.2.IsNode r.1 := by
    rcases hspec.result with hfor | ⟨h0, -⟩
    · exact Or.inr hfor.1
    · left
      omega
  have hr' : mtbddMaketerminal intDomain trialDivision s value 0 = some r := hr
  unfold withTerminal at hok ⊢
  rw [hr'] at hok ⊢
  exact .step (.step hs (.step (.maketerminal value 0 r.1 r.2 htype hr)) hok)
    (.step (.pushref r.1 hnode)) hok

/-- Two variables, and the terminals `10` and `20`, which are nodes `6` and `7`. -/
def twoTerminals : BddState UInt32 := withTerminal (withTerminal twoVariables 10) 20

theorem twoTerminals_run : Run trialDivision (IteCall intDomain trialDivision) twoTerminals := by
  have hsize : GoodSize trialDivision 11 := ⟨by decide, by decide, by decide⟩
  have hvars : Run trialDivision (IteCall intDomain trialDivision) twoVariables :=
    .step (.init 11 3 hsize) (.step (.setvarnum 2)) twoVariables_ok
  refine withTerminal_run (withTerminal_run hvars 10 ?_) 20 ?_
  · show (withTerminal twoVariables 10).bdderrorcond = false
    decide +kernel
  · show twoTerminals.bdderrorcond = false
    decide +kernel

/-- The first variable. -/
def firstVariable : DTree (Leaf UInt32) := .node 0 (.leaf (.const false)) (.leaf (.const true))

theorem twoTerminals_reads :
    twoTerminals.InUse intDomain 2 ∧ twoTerminals.Held 6 ∧ twoTerminals.Held 7 ∧
      twoTerminals.Reads intDomain 2 firstVariable ∧
      twoTerminals.Reads intDomain 6 (.leaf (.value 42 10)) ∧
      twoTerminals.Reads intDomain 7 (.leaf (.value 42 20)) := by
  have hlive : twoTerminals.live 2 = true ∧ twoTerminals.live 6 = true ∧
      twoTerminals.live 7 = true := by decide +kernel
  have hvar : twoTerminals.Reads intDomain 2 firstVariable := by
    refine .node (by decide) ?_ (by decide) (.const false) (.const true)
    decide +kernel
  refine ⟨⟨Or.inr ⟨2, Or.inl ?_, .refl hlive.1⟩, firstVariable, hvar, trivial, trivial⟩,
    ⟨6, Or.inr ?_, .refl hlive.2.1⟩, ⟨7, Or.inr ?_, .refl hlive.2.2⟩, hvar,
    .terminal hlive.2.1 ?_ ?_ ?_, .terminal hlive.2.2 ?_ ?_ ?_⟩
  all_goals decide +kernel

theorem not_separable : ¬ Separable firstVariable (.leaf (.value 42 10) : DTree (Leaf UInt32))
    (.leaf (.value 42 20)) := by
  intro h
  have hne : (Leaf.value 42 10 : Leaf UInt32) ≠ .value 42 20 := by decide
  have hy := h (fun _ => true) hne trivial trivial 0 _ _ rfl fun _ => true
  exact absurd hy (by decide)

/-! ## Main result -/

/-- `mtbdd_ite` selects the leaf of `g` where `f` is `1` and that of `h` where it is `0` if and
only if the diagrams are separable, whatever calls came before. -/
theorem mtbddIte_selects_iff (hs : Run isPrime (IteCall D isPrime) s) {f g h : ℕ}
    (hf : s.InUse D f) (hg : g < 2 ∨ s.Held g) (hh : h < 2 ∨ s.Held h) (hrf : s.Reads D f tf)
    (hrg : s.Reads D g tg) (hrh : s.Reads D h th) :
    ∃ res s', mtbddIte D isPrime f g h s = some (res, s') ∧ (s'.Ok → ∃ t,
      s'.Reads D res t ∧ ((∀ a, t.eval (s'.assign a) = pointwiseIte tf tg th (s'.assign a)) ↔
        Separable tf tg th)) :=
  (iteRun_regular hs).mtbddIte hf hg hh hrf hrg hrh

theorem mtbddIte_selects_iff_variable :
    ∃ res s', mtbddIte intDomain trialDivision 2 6 7 twoTerminals = some (res, s') ∧
      (s'.Ok → ∃ t, s'.Reads intDomain res t ∧
        ((∀ a, t.eval (s'.assign a) = pointwiseIte firstVariable (.leaf (.value 42 10))
            (.leaf (.value 42 20)) (s'.assign a)) ↔
          Separable firstVariable (.leaf (.value 42 10)) (.leaf (.value 42 20)))) :=
  mtbddIte_selects_iff twoTerminals_run twoTerminals_reads.1 (Or.inr twoTerminals_reads.2.1)
    (Or.inr twoTerminals_reads.2.2.1) twoTerminals_reads.2.2.2.1 twoTerminals_reads.2.2.2.2.1
    twoTerminals_reads.2.2.2.2.2

/-- For a variable and two terminals the branches are exchanged. -/
theorem mtbddIte_exchanged :
    ∃ res s' t, mtbddIte intDomain trialDivision 2 6 7 twoTerminals = some (res, s') ∧ s'.Ok ∧
      s'.Reads intDomain res t ∧
      ¬ ∀ a, t.eval (s'.assign a) = pointwiseIte firstVariable (.leaf (.value 42 10))
        (.leaf (.value 42 20)) (s'.assign a) := by
  obtain ⟨hf, hg, hh, hrf, hrg, hrh⟩ := twoTerminals_reads
  obtain ⟨res, s', heq, hres⟩ := (iteRun_regular twoTerminals_run).mtbddIte hf (Or.inr hg)
    (Or.inr hh) hrf hrg hrh
  have hno : ((mtbddIte intDomain trialDivision 2 6 7 twoTerminals).map
      fun r => r.2.bdderrorcond) = some false := by decide +kernel
  rw [heq] at hno
  have hok : s'.Ok := Option.some.inj hno
  obtain ⟨t, ht, hiff⟩ := hres hok
  exact ⟨res, s', t, heq, hok, ht, fun hright => not_separable (hiff.mp hright)⟩

end MoToBuddy.Bdd
