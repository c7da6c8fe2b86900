import MoToBuddy.Bdd.Memo
import MoToBuddy.Bdd.Session
import MoToBuddy.Lib.Rename

/-!
# `bdd_replace`, `bdd_compose` and `bdd_veccompose` (`bddop.c`)

A pair gives the levels up to its last one a diagram each; the others stand for themselves. For
`bdd_replace` only the root of such a diagram matters: the level goes to that of the root
(`roots`), and `bdd_correctify` puts the renamed decision where it belongs. Where the new level
occurs in a branch that is an error, and what is returned then does not mean anything
(`replaceRec_renames`). The other two substitute with `ite_rec`, which works for any diagrams.
-/

namespace MoToBuddy.Bdd

open Decision BoolFun

/-- A `bddPair`. -/
structure BddPair where
  result : ℕ → ℕ
  last : ℤ
  id : ℕ

section

variable {P : Type*} (D : MtbddDomain P) (isPrime : ℕ → Bool)

/-! ## `bdd_replace` -/

/-- `bdd_correctify`. -/
def bddCorrectify (level : ℕ) : ℕ → ℕ → ℕ → BddState P → Option (ℕ × BddState P)
  | 0, _, _, _ => none
  | fuel + 1, l, r, s =>
    if level < s.level l ∧ level < s.level r then some (bddMakenode D isPrime s level l r)
    else if level = s.level l ∨ level = s.level r then some (0, s.error .replace)
    else if s.level l = s.level r then
      branch (fun s => bddCorrectify level fuel (s.low l) (s.low r) s)
        (fun s => bddCorrectify level fuel (s.high l) (s.high r) s) (nodeAt D isPrime l) s
    else if s.level l < s.level r then
      branch (fun s => bddCorrectify level fuel (s.low l) r s)
        (fun s => bddCorrectify level fuel (s.high l) r s) (nodeAt D isPrime l) s
    else
      branch (fun s => bddCorrectify level fuel l (s.low r) s)
        (fun s => bddCorrectify level fuel l (s.high r) s) (nodeAt D isPrime r) s

/-- `replace_rec`. -/
def replaceRec (replacepair : ℕ → ℕ) (replacelast : ℤ) (id : UInt32) :
    ℕ → ℕ → BddState P → Option (ℕ × BddState P)
  | 0, _, _ => none
  | fuel + 1, r, s =>
    if r < 2 ∨ (s.level r : ℤ) > replacelast then some (r, s)
    else memo .replace (hash1 (.ofNat r)) (fun e => e.a = r && e.c = id.toNat)
      (fun e res => { e with
        a := r
        c := id.toNat
        res := res })
      (branch (fun s => replaceRec replacepair replacelast id fuel (s.low r) s)
        (fun s => replaceRec replacepair replacelast id fuel (s.high r) s)
        fun low high s =>
          bddCorrectify D isPrime (s.level (replacepair (s.level r))) depth low high s) s

/-- `bdd_replace`. -/
def bddReplace (r : ℕ) (pair : BddPair) : BddState P → Option (ℕ × BddState P) :=
  checka r (operation isPrime
    (replaceRec D isPrime pair.result pair.last (replaceid pair.id cacheidReplace) depth r))

/-! ## `bdd_compose` -/

/-- `compose_rec`. -/
def composeRec (composelevel : ℕ) (id : UInt32) :
    ℕ → ℕ → ℕ → BddState P → Option (ℕ × BddState P)
  | 0, _, _, _ => none
  | fuel + 1, f, g, s =>
    if s.level f > composelevel then some (f, s)
    else memo .replace (hash2 (.ofNat f) (.ofNat g))
      (fun e => e.a = f && e.b = g && e.c = id.toNat)
      (fun e res => { e with
        a := f
        b := g
        c := id.toNat
        res := res })
      (fun s =>
        if s.level f < composelevel then
          if s.level f = s.level g then
            branch (fun s => composeRec composelevel id fuel (s.low f) (s.low g) s)
              (fun s => composeRec composelevel id fuel (s.high f) (s.high g) s)
              (nodeAt D isPrime f) s
          else if s.level f < s.level g then
            branch (fun s => composeRec composelevel id fuel (s.low f) g s)
              (fun s => composeRec composelevel id fuel (s.high f) g s) (nodeAt D isPrime f) s
          else
            branch (fun s => composeRec composelevel id fuel f (s.low g) s)
              (fun s => composeRec composelevel id fuel f (s.high g) s) (nodeAt D isPrime g) s
        else iteRec D isPrime depth g (s.high f) (s.low f) s) s

/-- `bdd_compose`. -/
def bddCompose (f g : ℕ) (var : ℤ) : BddState P → Option (ℕ × BddState P) :=
  checka f (checka g fun s =>
    if var < 0 ∨ var ≥ s.env.bddvarnum then some (0, s.error .var)
    else
      let composelevel := s.env.bddvar2level var.toNat
      operation isPrime
        (composeRec D isPrime composelevel (replaceid composelevel cacheidCompose) depth f g) s)

/-! ## `bdd_veccompose` -/

/-- `veccompose_rec`. -/
def veccomposeRec (replacepair : ℕ → ℕ) (replacelast : ℤ) (id : UInt32) :
    ℕ → ℕ → BddState P → Option (ℕ × BddState P)
  | 0, _, _ => none
  | fuel + 1, f, s =>
    if (s.level f : ℤ) > replacelast then some (f, s)
    else memo .replace (hash1 (.ofNat f)) (fun e => e.a = f && e.c = id.toNat)
      (fun e res => { e with
        a := f
        c := id.toNat
        res := res })
      (branch (fun s => veccomposeRec replacepair replacelast id fuel (s.low f) s)
        (fun s => veccomposeRec replacepair replacelast id fuel (s.high f) s)
        fun low high s => iteRec D isPrime depth (replacepair (s.level f)) high low s) s

/-- `bdd_veccompose`. -/
def bddVeccompose (f : ℕ) (pair : BddPair) : BddState P → Option (ℕ × BddState P) :=
  checka f (operation isPrime
    (veccomposeRec D isPrime pair.result pair.last (replaceid pair.id cacheidVeccompose) depth f))

end

variable {P : Type*} {D : MtbddDomain P} {T : Theory P} {S : Setting P} {s s' : BddState P}

/-! ## `bdd_correctify` -/

/-- Telling an error keeps the diagram. -/
theorem Inv.error (hs : Inv S s) (e : BddError) : Inv S (s.error e) :=
  ⟨hs.toCore.alike (hs.toCore.alike_rest s.env (e :: s.errors)), hs.top⟩

/-- A replacement is refused. -/
theorem Evo.error (s : BddState P) : Evo D s (s.error .replace) :=
  ⟨id, fun _ hn => @BddState.Held.keep P s (s.error .replace) (fun _ _ => rfl) (fun _ _ => rfl)
    (List.Subset.refl _) _ hn, fun _ _ => ⟨rfl, fun _ _ => rfl⟩, fun _ _ => rfl, fun _ _ => rfl,
    rfl, rfl, fun _ _ _ => rfl, fun _ => rfl⟩

/-- The constant `0`, with a refused replacement. -/
theorem Post.error (hs : Inv S s) {Q : Prop → DTree (Leaf P) → Prop}
    (hQ : Q s.Ok (.leaf (.const false))) : Post S s Q (0, s.error .replace) :=
  ⟨hs.error .replace, .error s, rfl, _, .const false, hQ⟩

/-- A decision at level `m` for the branches `tl` and `th`, wherever it has to go: it is right if
the branches do not mention the level. -/
structure Joined (M m : ℕ) (tl th : DTree (Leaf P)) (ok : Prop) (t : DTree (Leaf P)) : Prop where
  isBool : IsBool t
  above : ∀ k, (m < M → k ≤ m) → tl.Above k → th.Above k → t.Above k
  eval : ok → m < M → ¬ tl.Mentions m → ¬ th.Mentions m →
    ∀ x, evalBool t x = if x m then evalBool th x else evalBool tl x

theorem Joined.lasting (M m : ℕ) (tl th : DTree (Leaf P)) : Lasting (Joined M m tl th) :=
  fun _ _ _ hok h => ⟨h.isBool, h.above, fun h' => h.eval (hok h')⟩

section

variable {M m k level : ℕ} {tl th ul uh t : DTree (Leaf P)} {ok : Prop} {check : Bool}

/-- A node on top of the decisions for the branches. -/
theorem Joined.join (hl : Joined M m (tl.cof level false) (th.cof level false) ok ul)
    (hh : Joined M m (tl.cof level true) (th.cof level true) ok uh) (hsl : tl.Sorted M)
    (hal : tl.Above level) (hsh : th.Sorted M) (hah : th.Above level)
    (hroot : ∃ a b, DTree.node level a b ∈ [tl, th]) (hm : m < M → level < m)
    (hj : Join D check level ul uh t) : Joined M m tl th ok t := by
  have hbelow : ul.Above (level + 1) := hl.above _ (fun h => hm h) (hal.cof hsl false)
    (hah.cof hsh false)
  refine ⟨hj.isBool hl.isBool hh.isBool, fun k _ hkl hkh => ?_, fun hok hmM hnl hnh x => ?_⟩
  · obtain ⟨a, b, hmem⟩ := hroot
    refine (hj.above hbelow).mono ?_
    rcases List.mem_pair.mp hmem with rfl | rfl
    · exact hkl
    · exact hkh
  · have hno : ∀ b, ¬ (tl.cof level b).Mentions m ∧ ¬ (th.cof level b).Mentions m := fun b =>
      ⟨fun h => hnl (DTree.mentions_of_cof h), fun h => hnh (DTree.mentions_of_cof h)⟩
    rw [hj.evalBool, hl.eval hok hmM (hno false).1 (hno false).2,
      hh.eval hok hmM (hno true).1 (hno true).2, ← evalBool_cof tl level, ← evalBool_cof th level]
    cases x level <;> rfl

end

section

variable {m k l r : ℕ} {tl tr : DTree (Leaf P)}

theorem bddCorrectify_joined {fuel : ℕ} (hs : Inv S s) (hl : Operand S s l tl)
    (hr : Operand S s r tr) (hbl : IsBool tl) (hbr : IsBool tr)
    (hm : m < S.top ∨ ∀ n, n < 2 → s.level n = m) (hal : tl.Above k) (har : tr.Above k)
    (hfuel : S.top - k < fuel) :
    Returns S s (Joined S.top m tl tr) (bddCorrectify S.D S.isPrime m fuel l r s) := by
  induction fuel generalizing k s l r tl tr with
  | zero => omega
  | succ fuel ih =>
    -- a node that is not below the new level is a decision above it
    have hlt : ∀ {n : ℕ} {t : DTree (Leaf P)}, Operand S s n t → IsBool t → s.level n ≤ m →
        m ≠ s.level n → s.level n < S.top := by
      intro n t ho hb hle hne
      rcases hm with hm | hm
      · omega
      · exact ho.level_lt hb fun h2 => hne (hm n h2).symm
    unfold bddCorrectify
    by_cases hbelow : m < s.level l ∧ m < s.level r
    · rw [if_pos hbelow]
      have hmtop : m < S.top := by
        rcases hm with hm | hm
        · exact hm
        · have h2 : ¬ l < 2 := fun h2 => by
            have := hm l h2
            omega
          have := hl.level_lt hbl h2
          omega
      have hq : ∀ {n : ℕ} {t : DTree (Leaf P)}, Operand S s n t → m < s.level n →
          Pushed S s (fun _ u => u.Above (m + 1) ∧ u = t) n := fun ho hlt =>
        ⟨_, ho, ho.above.mono hlt, rfl⟩
      refine (Post.mono (makenode_post hs hmtop (fun _ _ _ _ h => h) (fun _ _ _ _ h => h)
        (hq hl hbelow.1) (hq hr hbelow.2)) fun ok t ht => ?_).returns
      rcases ht with ⟨_, _, rfl, rfl, hl', hr', hj⟩ | ⟨hok, rfl⟩
      · exact ⟨hj.isBool hbl hbr, fun k hk _ _ => (hj.above hl').mono (hk hmtop),
          fun _ _ _ _ x => hj.evalBool x⟩
      · exact ⟨trivial, fun _ _ _ _ => trivial, fun h => absurd h hok⟩
    rw [if_neg hbelow]
    by_cases hcollide : m = s.level l ∨ m = s.level r
    · rw [if_pos hcollide]
      refine (Post.error hs
        ⟨trivial, fun _ _ _ _ => trivial, fun _ hmtop hnl hnr => ?_⟩).returns
      have hmention : ∀ {n : ℕ} {t : DTree (Leaf P)}, Operand S s n t → m = s.level n →
          t.Mentions m := by
        intro n t ho heq
        obtain ⟨a, b, rfl⟩ := ho.node_of_level (heq ▸ hmtop)
        exact Or.inl heq
      rcases hcollide with h | h
      · exact absurd (hmention hl h) hnl
      · exact absurd (hmention hr h) hnr
    rw [if_neg hcollide]
    have htop : s.level l < S.top ∨ s.level r < S.top := by
      by_cases h : s.level l ≤ m
      · exact Or.inl (hlt hl hbl h fun he => hcollide (Or.inl he))
      · exact Or.inr (hlt hr hbr (by omega) fun he => hcollide (Or.inr he))
    let B : ℕ → (Bool → BddState P → ℕ) → (Bool → BddState P → ℕ) →
        Option (ℕ × BddState P) := fun n pl pr =>
      branch (fun s => bddCorrectify S.D S.isPrime m fuel (pl false s) (pr false s) s)
        (fun s => bddCorrectify S.D S.isPrime m fuel (pl true s) (pr true s) s)
        (nodeAt S.D S.isPrime n) s
    refine split_two (B := B) hl hr hal har htop fun n level pl pr hsplit => ?_
    have hpl := hsplit.cofactors (tl, pl) List.mem_cons_self
    have hpr := hsplit.cofactors (tr, pr) (by simp)
    have hl' := (hsplit.sorted tl List.mem_cons_self).2
    have hr' := (hsplit.sorted tr (by simp)).2
    have hle := hsplit.le
    have hltop := hsplit.lt
    have hlevel : level < m := by
      by_cases h : s.level l ≤ m
      · have := hl.le_level hl' (hlt hl hbl h fun he => hcollide (Or.inl he))
        have hne : m ≠ s.level l := fun he => hcollide (Or.inl he)
        omega
      · have hne : m ≠ s.level r := fun he => hcollide (Or.inr he)
        have := hr.le_level hr' (hlt hr hbr (by omega) hne)
        omega
    have hrec : ∀ (b : Bool) (s' : BddState P), Inv S s' → Evo S.D s s' →
        Returns S s' (Joined S.top m (tl.cof level b) (tr.cof level b))
          (bddCorrectify S.D S.isPrime m fuel (pl b s') (pr b s') s') := fun b s' hi he =>
      ih hi (hpl s' he b) (hpr s' he b) (hbl.cof _ b) (hbr.cof _ b)
        (hm.imp_right fun h n hn => (he.const n hn).trans (h n hn)) (hl'.cof hl.sorted b)
        (hr'.cof hr.sorted b) (by omega)
    exact branch_node hltop hsplit.level_eq (Joined.lasting _ _ _ _) (Joined.lasting _ _ _ _)
      (fun _ _ h => h.above _ (fun _ => hlevel) (hl'.cof hl.sorted false) (hr'.cof hr.sorted false))
      (fun _ _ h => h.above _ (fun _ => hlevel) (hl'.cof hl.sorted true) (hr'.cof hr.sorted true))
      (hrec false s hs (.refl s)) (hrec true)
      (fun _ _ _ _ _ h0 h1 hj => h0.join h1 hl.sorted hl' hr.sorted hr' hsplit.root
        (fun _ => hlevel) hj)
      fun ok hok => ⟨trivial, fun _ _ _ _ => trivial, fun h => absurd h hok⟩

end

/-! ## `bdd_replace` -/

/-- The levels of the roots that a pair has. -/
def roots (θ : ℕ → DTree (Leaf P)) (l : ℕ) : Option ℕ := (θ l).root

/-- A decision that stands for its own level. -/
abbrev selfTree (l : ℕ) : DTree (Leaf P) := .node l (.leaf (.const false)) (.leaf (.const true))

/-- The diagrams `result` of a pair, with their trees: those of the levels after `last` do not
count. -/
structure PairTrees (S : Setting P) (s : BddState P) (result : ℕ → ℕ) (last : ℤ)
    (θ : ℕ → DTree (Leaf P)) : Prop where
  entry : ∀ l < S.top, (l : ℤ) ≤ last → Operand S s (result l) (θ l) ∧ IsBool (θ l)
  rest : ∀ l : ℕ, last < l → θ l = selfTree l
  level : s.level 0 = s.level 1

theorem PairTrees.evo {result : ℕ → ℕ} {last : ℤ} {θ : ℕ → DTree (Leaf P)}
    (h : PairTrees S s result last θ) (he : Evo S.D s s') : PairTrees S s' result last θ :=
  ⟨fun l hl hle => ⟨(h.entry l hl hle).1.evo he, (h.entry l hl hle).2⟩, h.rest,
    (he.const 0 (by decide)).trans (h.level.trans (he.const 1 (by decide)).symm)⟩

/-- The tree `t`, renamed by the roots of a pair: it is right unless the renaming collides. -/
structure Renames (θ : ℕ → DTree (Leaf P)) (t : DTree (Leaf P)) (ok : Prop)
    (u : DTree (Leaf P)) : Prop where
  isBool : IsBool u
  above : ∀ k, (∀ l m, t.Mentions l → roots θ l = some m → k ≤ m) → u.Above k
  eval : ok → ¬ t.Collides (roots θ) → ∀ x, evalBool u x = evalBool t (along (roots θ) x)

/-- What `bdd_replace` promises, for the tree of its operand. -/
def renamesWith (θ : ℕ → DTree (Leaf P)) : List (DTree (Leaf P)) → Prop → DTree (Leaf P) → Prop
  | [t] => Renames θ t
  | _ => fun _ _ => False

theorem Renames.lasting (θ : ℕ → DTree (Leaf P)) (t : DTree (Leaf P)) : Lasting (Renames θ t) :=
  fun _ _ _ hok h => ⟨h.isBool, h.above, fun h' => h.eval (hok h')⟩

theorem renamesWith_lasting (θ : ℕ → DTree (Leaf P)) (ts : List (DTree (Leaf P))) :
    Lasting (renamesWith θ ts) := by
  match ts with
  | [t] => exact Renames.lasting θ t
  | [] | _ :: _ :: _ => exact fun _ _ _ _ h => h

section

variable {θ : ℕ → DTree (Leaf P)} {last : ℤ} {t u tl th ul uh : DTree (Leaf P)} {ok : Prop}
  {k M m : ℕ}

/-- Renaming leaves a tree below the last level alone. -/
theorem Renames.self (hrest : ∀ l : ℕ, last < l → θ l = selfTree l) (hb : IsBool t)
    (hlast : ∀ l, t.Mentions l → last < l) : Renames θ t ok t := by
  have hself : ∀ l, t.Mentions l → roots θ l = some l := fun l hl => by
    unfold roots
    rw [hrest l (hlast l hl)]
    rfl
  refine ⟨hb, fun k hk => ?_, fun _ _ x => ?_⟩
  · cases t with
    | leaf l => trivial
    | node level low high => exact hk level level (Or.inl rfl) (hself level (Or.inl rfl))
  · unfold evalBool
    rw [DTree.eval_eq_of_mentions fun l hl => (along_some (hself l hl) x).symm]

/-- The levels in a renamed tree are those that the renamed function depends on. -/
theorem Renames.mentions (h : Renames θ t ok u) (hok : ok) (hno : ¬ t.Collides (roots θ))
    (hs : u.Sorted M) (hr : u.Reduced) (hm : u.Mentions m) :
    DependsOn (fun x => t.eval (along (roots θ) x)) m := by
  obtain ⟨x, b, hne⟩ := (DTree.mentions_iff hs hr).mp hm
  refine ⟨x, b, fun heq => hne ?_⟩
  have heq : t.eval (along (roots θ) (Function.update x m b)) = t.eval (along (roots θ) x) := heq
  have heq' : evalBool t (along (roots θ) (Function.update x m b)) =
      evalBool t (along (roots θ) x) := by
    unfold evalBool
    rw [heq]
  rw [eval_of_isBool h.isBool, eval_of_isBool h.isBool, h.eval hok hno, h.eval hok hno, heq']

/-- The renamed branches with the renamed decision on top. -/
theorem Renames.join (hl : Renames θ tl ok ul) (hh : Renames θ th ok uh) (hsl : ul.Sorted M)
    (hrl : ul.Reduced) (hsh : uh.Sorted M) (hrh : uh.Reduced)
    (hm : ∀ m', roots θ k = some m' → m = m' ∧ m < M) (hleaf : roots θ k = none → M ≤ m)
    (h : Joined M m ul uh ok u) : Renames θ (.node k tl th) ok u := by
  refine ⟨h.isBool, fun j hj => ?_, fun hok hno x => ?_⟩
  · refine h.above j (fun hmM => ?_) (hl.above j fun l m hl => hj l m (Or.inr (Or.inl hl)))
      (hh.above j fun l m hl => hj l m (Or.inr (Or.inr hl)))
    cases hroot : roots θ k with
    | none =>
      have := hleaf hroot
      omega
    | some m' => exact (hm m' hroot).1 ▸ hj k m' (Or.inl rfl) hroot
  · obtain ⟨hnl, hnh, m', hroot, hdl, hdh⟩ := DTree.not_collides_node hno
    obtain ⟨rfl, hmM⟩ := hm m' hroot
    rw [h.eval hok hmM (fun hmen => hdl (hl.mentions hok hnl hsl hrl hmen))
      (fun hmen => hdh (hh.mentions hok hnh hsh hrh hmen)), hl.eval hok hnl, hh.eval hok hnh,
      evalBool_node, along_some hroot]

end

section

variable {θ : ℕ → DTree (Leaf P)} {result : ℕ → ℕ} {last : ℤ} {t : DTree (Leaf P)} {k r : ℕ}

theorem replaceRec_renames (hred : S.reduced) {id : UInt32}
    (hcache : Memoizes S .replace (fun _ => True) id.toNat (fun a _ => [a]) (renamesWith θ))
    {fuel : ℕ} (hs : Inv S s) (hp : PairTrees S s result last θ) (hr : Operand S s r t)
    (hb : IsBool t) (ha : t.Above k) (hfuel : S.top - k < fuel) :
    Returns S s (Renames θ t) (replaceRec S.D S.isPrime result last id fuel r s) := by
  induction fuel generalizing k s r t with
  | zero => omega
  | succ fuel ih =>
    unfold replaceRec
    by_cases hdone : r < 2 ∨ (s.level r : ℤ) > last
    · rw [if_pos hdone]
      refine (Post.operand hs hr (.self hp.rest hb fun l hl => ?_)).returns
      by_cases h2 : r < 2
      · obtain ⟨b, -, rfl⟩ := hr.eq_toNat h2
        exact hl.elim
      · have := (DTree.mentions_bound hr.sorted hr.above hl).1
        have := hdone.resolve_left h2
        omega
    rw [if_neg hdone]
    have hlt := hr.level_lt hb (fun h => hdone (Or.inl h))
    have hle : (s.level r : ℤ) ≤ last := by omega
    have hk := hr.le_level ha hlt
    have hcof := hr.cofactors rfl hlt
    have hrec : ∀ (c : Bool) (s' : BddState P), Inv S s' → Evo S.D s s' →
        Returns S s' (Renames θ (t.cof (s.level r) c))
          (replaceRec S.D S.isPrime result last id fuel (childOf r c s') s') :=
      fun c s' hi he => ih hi (hp.evo he) (hcof s' he c) (hb.cof _ c) (hr.above.cof hr.sorted c)
        (by omega)
    show Returns S s (renamesWith θ [t]) _
    refine hcache.returns hs (fun _ _ => trivial) (fun s' he => .cons (hr.evo he).reads .nil)
      (fun e hhit => ?_) (fun _ _ => ⟨rfl, rfl, rfl⟩) ?_
    · rw [Bool.and_eq_true, decide_eq_true_eq, decide_eq_true_eq] at hhit
      exact ⟨hhit.2, congrArg (fun a => [a]) hhit.1⟩
    refine branch_returns (Renames.lasting _ _) (hrec false s hs (.refl s)) (hrec true)
      fun s' low high hi he hlow hhigh => ?_
    obtain ⟨ul, hol, hul⟩ := hlow
    obtain ⟨uh, hoh, huh⟩ := hhigh
    rw [hr.level_evo hlt he]
    obtain ⟨hentry, hbe⟩ := (hp.evo he).entry _ hlt hle
    -- the level of the entry is that of its root, or that of the constants
    have hroot : ∀ m, roots θ (s.level r) = some m →
        s'.level (result (s.level r)) = m ∧ s'.level (result (s.level r)) < S.top := by
      intro m hm
      unfold roots at hm
      cases hθ : θ (s.level r) with
      | leaf l =>
        rw [hθ] at hm
        exact absurd hm (by simp [DTree.root])
      | node level a b =>
        rw [hθ] at hm hentry
        obtain rfl : level = m := Option.some.inj hm
        obtain ⟨-, hlevel, hltop, -⟩ := hentry.child
        exact ⟨hlevel, hlevel ▸ hltop⟩
    have hleaf : roots θ (s.level r) = none → S.top ≤ s'.level (result (s.level r)) := by
      intro hm
      unfold roots at hm
      cases hθ : θ (s.level r) with
      | leaf l =>
        rw [hθ] at hentry
        exact hentry.leaf_level
      | node level a b =>
        rw [hθ] at hm
        exact absurd hm (by simp [DTree.root])
    have hm : s'.level (result (s.level r)) < S.top ∨
        ∀ n, n < 2 → s'.level n = s'.level (result (s.level r)) := by
      by_cases h2 : result (s.level r) < 2
      · right
        have hconst := (hp.evo he).level
        have hcases : ∀ n, n < 2 → s'.level n = s'.level 0 := fun n hn => by
          match n, hn with
          | 0, _ => rfl
          | 1, _ => exact hconst.symm
        exact fun n hn => (hcases n hn).trans (hcases _ h2).symm
      · exact Or.inl (hentry.level_lt hbe h2)
    have hcorrect := bddCorrectify_joined hi hol hoh hul.isBool huh.isBool hm ul.above_zero
      uh.above_zero (S.depth_bound 0)
    obtain ⟨res, hres, hpost⟩ := hcorrect
    obtain ⟨u, hu, hj⟩ := hpost.result
    refine ⟨res, hres, hpost.inv, hpost.evo, hpost.refstack, u, hu, ?_⟩
    have hok := hpost.evo.ok
    obtain ⟨a, b, rfl⟩ := hr.node_of_level hlt
    rw [DTree.cof_node] at hul huh
    exact Renames.join (Renames.lasting _ _ _ _ _ hok hul) (Renames.lasting _ _ _ _ _ hok huh)
      hol.sorted (hi.reduced hred hol hul.isBool) hoh.sorted (hi.reduced hred hoh huh.isBool)
      hroot hleaf hj

end

/-! ## `bdd_compose` -/

/-- What `bdd_compose` makes of the trees of its operands. -/
def composeFn (composelevel : ℕ) (tf tg : DTree (Leaf P)) (x : ℕ → Bool) : Bool :=
  evalBool tf (Function.update x composelevel (evalBool tg x))

section

variable {composelevel k f g : ℕ} {tf tg : DTree (Leaf P)}

/-- The function splits at a level before the substituted one. -/
theorem composeFn_split {level : ℕ} (hlt : level < composelevel) (x : ℕ → Bool) :
    composeFn composelevel tf tg x =
      composeFn composelevel (tf.cof level (x level)) (tg.cof level (x level)) x := by
  unfold composeFn
  rw [evalBool_cof tg]
  conv_lhs => rw [← evalBool_cof tf level]
  rw [Function.update_of_ne (by omega)]

theorem composeRec_computes (hS : S.Operators) {id : UInt32}
    (hcache : Memoizes S .replace (fun _ => True) id.toNat (fun a b => [a, b])
      fun ts => Computes ts (onTrees (composeFn composelevel) ts)) {fuel : ℕ}
    (hlevel : composelevel < S.top) (hs : Inv S s) (hf : Operand S s f tf)
    (hg : Operand S s g tg) (hbf : IsBool tf) (hbg : IsBool tg) (haf : tf.Above k)
    (hag : tg.Above k) (hfuel : S.top - k < fuel) :
    Returns S s (Computes [tf, tg] (composeFn composelevel tf tg))
      (composeRec S.D S.isPrime composelevel id fuel f g s) := by
  induction fuel generalizing k s f g tf tg with
  | zero => omega
  | succ fuel ih =>
    unfold composeRec
    by_cases hdone : s.level f > composelevel
    · rw [if_pos hdone]
      refine (Post.operand hs hf (.operand List.mem_cons_self hbf fun x => ?_)).returns
      unfold composeFn evalBool
      rw [DTree.eval_update hf.sorted (hf.above.mono hdone)]
    rw [if_neg hdone]
    have hltf : s.level f < S.top := by omega
    refine hcache.returns hs (fun _ _ => trivial)
      (fun s' he => .cons (hf.evo he).reads (.cons (hg.evo he).reads .nil)) (fun e hhit => ?_)
      (fun _ _ => ⟨rfl, rfl, rfl⟩) ?_
    · simp only [Bool.and_eq_true, decide_eq_true_eq] at hhit
      exact ⟨hhit.2, by rw [hhit.1.1, hhit.1.2]⟩
    by_cases hless : s.level f < composelevel
    · rw [if_pos hless]
      let B : ℕ → (Bool → BddState P → ℕ) → (Bool → BddState P → ℕ) →
          Option (ℕ × BddState P) := fun n pf pg =>
        branch (fun s => composeRec S.D S.isPrime composelevel id fuel (pf false s) (pg false s) s)
          (fun s => composeRec S.D S.isPrime composelevel id fuel (pf true s) (pg true s) s)
          (nodeAt S.D S.isPrime n) s
      refine split_two (B := B) hf hg haf hag (Or.inl hltf) fun n level pf pg hsplit => ?_
      have hpf := hsplit.cofactors (tf, pf) List.mem_cons_self
      have hpg := hsplit.cofactors (tg, pg) (by simp)
      have hf' := (hsplit.sorted tf List.mem_cons_self).2
      have hg' := (hsplit.sorted tg (by simp)).2
      have hle := hsplit.le
      have hltop := hsplit.lt
      have hlevelf := hf.le_level hf' hltf
      have hlc : level < composelevel := by omega
      have hrec : ∀ (b : Bool) (s' : BddState P), Inv S s' → Evo S.D s s' →
          Returns S s' (Computes ([tf, tg].map (·.cof level b))
            (composeFn composelevel (tf.cof level b) (tg.cof level b)))
            (composeRec S.D S.isPrime composelevel id fuel (pf b s') (pg b s') s') :=
        fun b s' hi he => ih hi (hpf s' he b) (hpg s' he b) (hbf.cof _ b) (hbg.cof _ b)
          (hf'.cof hf.sorted b) (hg'.cof hg.sorted b) (by omega)
      refine branch_computes hltop hsplit.level_eq hsplit.sorted hsplit.root
        (hrec false s hs (.refl s)) (hrec true) fun x => ?_
      refine (composeFn_split hlc x).trans ?_
      cases x level <;> rfl
    · rw [if_neg hless]
      have heq : s.level f = composelevel := by omega
      have hpf := hf.cofactors heq hlevel
      refine (iteRec_computes hS hs hg (hpf s (.refl s) true) (hpf s (.refl s) false) hbg
        (hbf.cof _ _) (hbf.cof _ _) tg.above_zero (DTree.above_zero _) (DTree.above_zero _)
        (S.depth_bound 0)).mono fun ok t hc => ⟨hc.isBool, fun j hj => ?_, fun hok x => ?_⟩
      · refine hc.above j fun u hu => ?_
        have hjf : j ≤ composelevel := heq ▸ hf.le_level (hj tf List.mem_cons_self) hltf
        have habove := heq ▸ hf.above
        simp only [List.mem_cons, List.not_mem_nil, or_false] at hu
        rcases hu with rfl | rfl | rfl
        · exact hj u (by simp)
        · exact (habove.cof hf.sorted true).mono (by omega)
        · exact (habove.cof hf.sorted false).mono (by omega)
      · rw [hc.eval hok]
        show _ = evalBool tf (Function.update x composelevel (evalBool tg x))
        rw [evalBool_update hf.sorted (heq ▸ hf.above)]
        cases evalBool tg x <;> rfl

end

/-! ## `bdd_veccompose` -/

/-- The tree `t` with the diagrams of a pair for its levels. -/
structure Substitutes (θ : ℕ → DTree (Leaf P)) (t : DTree (Leaf P)) (ok : Prop)
    (u : DTree (Leaf P)) : Prop where
  isBool : IsBool u
  eval : ok → ∀ x, evalBool u x = evalBool t fun l => evalBool (θ l) x

/-- What `bdd_veccompose` promises, for the tree of its operand. -/
def substitutesWith (θ : ℕ → DTree (Leaf P)) :
    List (DTree (Leaf P)) → Prop → DTree (Leaf P) → Prop
  | [t] => Substitutes θ t
  | _ => fun _ _ => False

theorem Substitutes.lasting (θ : ℕ → DTree (Leaf P)) (t : DTree (Leaf P)) :
    Lasting (Substitutes θ t) :=
  fun _ _ _ hok h => ⟨h.isBool, fun h' => h.eval (hok h')⟩

theorem substitutesWith_lasting (θ : ℕ → DTree (Leaf P)) (ts : List (DTree (Leaf P))) :
    Lasting (substitutesWith θ ts) := by
  match ts with
  | [t] => exact Substitutes.lasting θ t
  | [] | _ :: _ :: _ => exact fun _ _ _ _ h => h

section

variable {θ : ℕ → DTree (Leaf P)} {result : ℕ → ℕ} {last : ℤ} {t : DTree (Leaf P)} {k f : ℕ}

/-- Below the last level every level stands for itself. -/
theorem Substitutes.self {ok : Prop} (hrest : ∀ l : ℕ, last < l → θ l = selfTree l) (hb : IsBool t)
    (hlast : ∀ l, t.Mentions l → last < l) : Substitutes θ t ok t := by
  refine ⟨hb, fun _ x => ?_⟩
  unfold evalBool
  rw [DTree.eval_eq_of_mentions (y := fun l => evalBool (θ l) x) fun l hl => ?_]
  · rfl
  · rw [hrest l (hlast l hl), evalBool_node]
    cases x l <;> rfl

theorem veccomposeRec_substitutes (hS : S.Operators) {id : UInt32}
    (hcache : Memoizes S .replace (fun _ => True) id.toNat (fun a _ => [a]) (substitutesWith θ))
    {fuel : ℕ} (hlast : ∀ n, n < 2 → last < s.level n) (hs : Inv S s)
    (hp : PairTrees S s result last θ) (hf : Operand S s f t) (hb : IsBool t) (ha : t.Above k)
    (hfuel : S.top - k < fuel) :
    Returns S s (Substitutes θ t) (veccomposeRec S.D S.isPrime result last id fuel f s) := by
  induction fuel generalizing k s f t with
  | zero => omega
  | succ fuel ih =>
    unfold veccomposeRec
    by_cases hdone : (s.level f : ℤ) > last
    · rw [if_pos hdone]
      refine (Post.operand hs hf (.self hp.rest hb fun l hl => ?_)).returns
      have := (DTree.mentions_bound hf.sorted hf.above hl).1
      omega
    rw [if_neg hdone]
    have hlt : s.level f < S.top := hf.level_lt hb fun h2 => hdone (hlast f h2)
    have hk := hf.le_level ha hlt
    have hcof := hf.cofactors rfl hlt
    have hrec : ∀ (c : Bool) (s' : BddState P), Inv S s' → Evo S.D s s' →
        Returns S s' (Substitutes θ (t.cof (s.level f) c))
          (veccomposeRec S.D S.isPrime result last id fuel (childOf f c s') s') :=
      fun c s' hi he => ih (fun n hn => (hlast n hn).trans_eq (congrArg _ (he.const n hn).symm)) hi (hp.evo he)
        (hcof s' he c) (hb.cof _ c) (hf.above.cof hf.sorted c) (by omega)
    show Returns S s (substitutesWith θ [t]) _
    refine hcache.returns hs (fun _ _ => trivial) (fun s' he => .cons (hf.evo he).reads .nil)
      (fun e hhit => ?_) (fun _ _ => ⟨rfl, rfl, rfl⟩) ?_
    · rw [Bool.and_eq_true, decide_eq_true_eq, decide_eq_true_eq] at hhit
      exact ⟨hhit.2, congrArg (fun a => [a]) hhit.1⟩
    refine branch_returns (Substitutes.lasting _ _) (hrec false s hs (.refl s)) (hrec true)
      fun s' low high hi he hlow hhigh => ?_
    obtain ⟨ul, hol, hul⟩ := hlow
    obtain ⟨uh, hoh, huh⟩ := hhigh
    rw [hf.level_evo hlt he]
    obtain ⟨hentry, hbe⟩ := (hp.evo he).entry _ hlt (by omega)
    obtain ⟨res, hres, hpost⟩ := iteRec_computes hS hi hentry hoh hol hbe huh.isBool hul.isBool
      (DTree.above_zero _) uh.above_zero ul.above_zero (S.depth_bound 0)
    obtain ⟨u, hu, hc⟩ := hpost.result
    refine ⟨res, hres, hpost.inv, hpost.evo, hpost.refstack, u, hu, hc.isBool, fun hok x => ?_⟩
    have hok' := hpost.evo.ok hok
    rw [hc.eval hok, hul.eval hok', huh.eval hok', ← evalBool_cof t (s.level f)]
    cases evalBool (θ (s.level f)) x <;> rfl

end

/-! ## Tags and entries -/

/-- A tag under the id of a pair, or under a level. -/
def PairTag (cacheid : UInt32) (id tag : ℕ) : Prop :=
  id < 2 ^ 29 ∧ tag = (replaceid id cacheid).toNat

theorem PairTag.decode {k id tag : ℕ} (hk : k < 4) (h : PairTag (.ofNat k) id tag) :
    tag = 4 * id + k := by
  obtain ⟨hid, rfl⟩ := h
  rw [replaceid_toNat id hk, Nat.mod_eq_of_lt (by omega)]

theorem PairTag.inj {k id id' tag : ℕ} (hk : k < 4) (h : PairTag (.ofNat k) id tag)
    (h' : PairTag (.ofNat k) id' tag) : id = id' := by
  have := h.decode hk
  have := h'.decode hk
  omega

/-- The trees of the pairs that results may be cached for, by their ids. -/
abbrev PairTable (P : Type*) := ℕ → Option (ℕ → DTree (Leaf P))

/-- An entry of the replace cache is right about `bdd_replace`. -/
def ReplaceEntry (D : MtbddDomain P) (σ : PairTable P) : BddState P → BddCacheData → Prop :=
  TaggedEntry D (PairTag cacheidReplace) (fun _ id θ => σ id = some θ) (fun a _ => [a])
    fun _ θ => renamesWith θ

/-- An entry of the replace cache is right about `bdd_compose`. -/
def ComposeEntry (D : MtbddDomain P) : BddState P → BddCacheData → Prop :=
  TaggedEntry D (PairTag cacheidCompose) (fun _ _ (_ : Unit) => True) (fun a b => [a, b])
    fun level _ ts => Computes ts (onTrees (composeFn level) ts)

/-- An entry of the replace cache is right about `bdd_veccompose`. -/
def VeccomposeEntry (D : MtbddDomain P) (σ : PairTable P) : BddState P → BddCacheData → Prop :=
  TaggedEntry D (PairTag cacheidVeccompose) (fun _ id θ => σ id = some θ) (fun a _ => [a])
    fun _ θ => substitutesWith θ

/-- What the recursions need of their cache for the substitutions. -/
structure Setting.Substituting (S : Setting P) (σ : PairTable P) : Prop extends S.Operators where
  replace : ∀ s e, S.cache s .replace e → ReplaceEntry S.D σ s e
  replaceFill : ∀ s e id, PairTag cacheidReplace id e.c → ReplaceEntry S.D σ s e →
    S.cache s .replace e
  compose : ∀ s e, S.cache s .replace e → ComposeEntry S.D s e
  composeFill : ∀ s e level, PairTag cacheidCompose level e.c → ComposeEntry S.D s e →
    S.cache s .replace e
  veccompose : ∀ s e, S.cache s .replace e → VeccomposeEntry S.D σ s e
  veccomposeFill : ∀ s e id, PairTag cacheidVeccompose id e.c → VeccomposeEntry S.D σ s e →
    S.cache s .replace e

section

variable {σ : PairTable P} {θ : ℕ → DTree (Leaf P)} {id : ℕ}

theorem Setting.Substituting.remembers_replace (hS : S.Substituting σ) (hid : id < 2 ^ 29)
    (hθ : σ id = some θ) : Memoizes S .replace (fun _ => True)
      (replaceid id cacheidReplace).toNat (fun a _ => [a]) (renamesWith θ) := by
  have h := TaggedEntry.memoizes hS.replace hS.replaceFill
    (fun _ _ _ h h' => PairTag.inj (k := 0) (by decide) h h')
    (fun _ _ _ _ h h' => Option.some.inj (h.symm.trans h')) ⟨hid, rfl⟩ θ
  exact ⟨fun s e _ => h.hit s e hθ, fun s e _ => h.fill s e hθ⟩

theorem Setting.Substituting.remembers_compose (hS : S.Substituting σ) {level : ℕ}
    (hlevel : level < 2 ^ 29) : Memoizes S .replace (fun _ => True)
      (replaceid level cacheidCompose).toNat (fun a b => [a, b])
      fun ts => Computes ts (onTrees (composeFn level) ts) :=
  TaggedEntry.memoizes hS.compose hS.composeFill
    (fun _ _ _ h h' => PairTag.inj (k := 1) (by decide) h h') (fun _ _ _ _ _ _ => rfl)
    ⟨hlevel, rfl⟩ ()

theorem Setting.Substituting.remembers_veccompose (hS : S.Substituting σ) (hid : id < 2 ^ 29)
    (hθ : σ id = some θ) : Memoizes S .replace (fun _ => True)
      (replaceid id cacheidVeccompose).toNat (fun a _ => [a]) (substitutesWith θ) := by
  have h := TaggedEntry.memoizes hS.veccompose hS.veccomposeFill
    (fun _ _ _ h h' => PairTag.inj (k := 2) (by decide) h h')
    (fun _ _ _ _ h h' => Option.some.inj (h.symm.trans h')) ⟨hid, rfl⟩ θ
  exact ⟨fun s e _ => h.hit s e hθ, fun s e _ => h.fill s e hθ⟩

end

/-! ## The operations -/

/-- The diagrams of a pair that count, with their trees. -/
structure PairReads (D : MtbddDomain P) (s : BddState P) (pair : BddPair)
    (θ : ℕ → DTree (Leaf P)) : Prop where
  entry : ∀ l < s.env.bddvarnum, (l : ℤ) ≤ pair.last →
    s.Referenced (pair.result l) ∧ s.Reads D (pair.result l) (θ l) ∧ IsBool (θ l)
  rest : ∀ l : ℕ, pair.last < l → θ l = selfTree l
  level : s.level 0 = s.level 1
  last : ∀ n, n < 2 → pair.last < s.level n

section

variable {θ : ℕ → DTree (Leaf P)} {σ : PairTable P} {pair : BddPair} {r g : ℕ}
  {t tg : DTree (Leaf P)}

theorem PairReads.trees (h : PairReads T.D s pair θ) (hs : Good T s) :
    PairTrees (T.setting s.env.bddvarnum hs.num) s.initref pair.result pair.last θ := by
  refine ⟨fun l hl hle => ?_, h.rest, h.level⟩
  obtain ⟨href, hr, hb⟩ := h.entry l hl hle
  exact ⟨hs.operand_keeps (.refl s) href hr, hb⟩

theorem bddReplace_finished (hred : T.reduced)
    (hS : ∀ top htop, (T.setting top htop).Substituting σ) (hs : Good T s)
    (hp : PairReads T.D s pair θ) (hid : pair.id < 2 ^ 29) (hθ : σ pair.id = some θ)
    (href : s.Referenced r) (hr : s.Reads T.D r t) (hb : IsBool t) :
    ∃ res, bddReplace T.D T.isPrime r pair s = some res ∧
      Finished T s (Renames θ t) res := by
  unfold bddReplace
  rw [checka_node hs hr.isNode]
  exact operation_finished hs.sane (replaceRec_renames hred
    ((hS _ _).remembers_replace hid hθ) hs.initref (hp.trees hs)
    (hs.operand_keeps (.refl s) href hr) hb t.above_zero (Setting.depth_bound _ 0))

theorem bddVeccompose_finished
    (hS : ∀ top htop, (T.setting top htop).Substituting σ) (hs : Good T s)
    (hp : PairReads T.D s pair θ) (hid : pair.id < 2 ^ 29) (hθ : σ pair.id = some θ)
    (href : s.Referenced r) (hr : s.Reads T.D r t) (hb : IsBool t) :
    ∃ res, bddVeccompose T.D T.isPrime r pair s = some res ∧
      Finished T s (Substitutes θ t) res := by
  unfold bddVeccompose
  rw [checka_node hs hr.isNode]
  exact operation_finished hs.sane (veccomposeRec_substitutes (hS _ _).toOperators
    ((hS _ _).remembers_veccompose hid hθ) hp.last hs.initref (hp.trees hs)
    (hs.operand_keeps (.refl s) href hr) hb t.above_zero (Setting.depth_bound _ 0))

theorem bddCompose_called (hS : ∀ top htop, (T.setting top htop).Substituting σ)
    (hs : Good T s) {f h : (ℕ → Bool) → Bool} (hf : s.Usable T.D r f) (hg : s.Usable T.D g h)
    {var : ℕ} (hvar : var < s.env.bddvarnum) :
    ∃ res, bddCompose T.D T.isPrime r g var s = some res ∧
      Called T s (fun a => f (Function.update a var (h a))) res := by
  unfold bddCompose
  rw [checka_node hs hf.isNode, checka_node hs hg.isNode]
  dsimp only
  rw [if_neg (by omega), Int.toNat_natCast]
  obtain ⟨t, ho, hb, hft⟩ := hs.operand hf
  obtain ⟨u, hou, hbu, hgu⟩ := hs.operand hg
  obtain ⟨hlevel, hinv⟩ := hs.order.level var hvar
  have hle := hs.num
  have hmax : maxlevel < 2 ^ 29 := by decide
  refine operation_called hs (composeRec_computes (hS _ _).toOperators
    ((hS _ _).remembers_compose (by omega)) hlevel hs.initref ho hou hb hbu t.above_zero
    u.above_zero (Setting.depth_bound _ 0)) fun a => ?_
  show evalBool t (Function.update (s.assign a) _ (evalBool u (s.assign a))) = _
  rw [← hft, hgu]
  refine evalBool_congr ho.sorted fun l hl => ?_
  show _ = Function.update a var (h a) (s.env.bddlevel2var l)
  by_cases hl' : l = s.env.bddvar2level var
  · rw [hl', Function.update_self, hinv, Function.update_self]
  · have hne : s.env.bddlevel2var l ≠ var := fun he => hl' (by
      rw [← (hs.order.var l hl).2, he])
    rw [Function.update_of_ne hl', Function.update_of_ne hne]
    rfl

end

end MoToBuddy.Bdd
