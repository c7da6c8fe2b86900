import MoToBuddy.Bdd.Held
import MoToBuddy.Bdd.Substitution

/-!
# Substitution laws

A pair of a session stands for one function for each variable (`BddState.Stands`). With these
functions `bdd_veccompose` is the simultaneous substitution, and `bdd_replace` is it too where the
entries are variables and no two variables of the diagram become one. `bdd_compose` is the
substitution of one variable (`bddSubstitutions_exact`).
-/

namespace MoToBuddy.Bdd

open Decision BoolFun Package

variable {P : Type*} {D : MtbddDomain P} {isPrime : ℕ → Bool} {T : Theory P} {σ : PairTable P}
  {s s' : BddState P} {w : Package P} {p : ℕ × BddPair} {q : BddPair} {θ : ℕ → DTree (Leaf P)}
  {t u : DTree (Leaf P)} {F H : (ℕ → Bool) → Bool} {G : ℕ → (ℕ → Bool) → Bool} {f g : ℕ}

/-- The functions that a pair has for the variables: its entries up to the last level, and after
that the variables themselves. -/
structure BddState.Stands (D : MtbddDomain P) (s : BddState P) (q : BddPair)
    (G : ℕ → (ℕ → Bool) → Bool) : Prop where
  entry : ∀ v < s.env.bddvarnum, (s.env.bddvar2level v : ℤ) ≤ q.last →
    s.Represents D (q.result (s.env.bddvar2level v)) (G v)
  rest : ∀ v < s.env.bddvarnum, q.last < s.env.bddvar2level v → G v = fun a => a v

/-- The tree of a pair at a level has the function of the variable there. -/
theorem Linked.eval (h : Linked D s q θ) (hG : s.Stands D q G) (ho : OrderInv s) {l : ℕ}
    (hl : l < s.env.bddvarnum) (a : ℕ → Bool) :
    evalBool (θ l) (s.assign a) = G (s.env.bddlevel2var l) a := by
  obtain ⟨hv, hlevel⟩ := ho.var l hl
  by_cases hle : (l : ℤ) ≤ q.last
  · obtain ⟨t, hr, -, heval⟩ := hG.entry _ hv (by rwa [hlevel])
    rw [hlevel] at hr
    rw [(h.entry l hl hle).1.unique hr, heval]
  · rw [h.rest l (by omega), evalBool_selfTree, hG.rest _ hv (by omega)]
    rfl

/-- A tree depends on the levels of the variables that its function depends on. -/
theorem Good.dependsOn (hs : Good T s) (hred : T.reduced) (hr : s.Reads T.D f t) (hb : IsBool t)
    (hF : ∀ a, evalBool t (s.assign a) = F a) {l : ℕ} (hl : t.Mentions l) :
    l < s.env.bddvarnum ∧ BoolFun.DependsOn F (s.env.bddlevel2var l) := by
  obtain ⟨flight, hi, -⟩ := hs.inv.table
  obtain ⟨hsorted, -⟩ := hs.inv.graph.sorted hr
  have hreduced := hs.inv.graph.reduced_reads hred hi hr hb
  have hlt := (DTree.mentions_bound hsorted t.above_zero hl).2
  obtain ⟨x, b, hne⟩ := (DTree.mentions_iff hsorted hreduced).mp hl
  refine ⟨hlt, fun v => x (s.env.bddvar2level v), b, fun heq => hne ?_⟩
  rw [← hF, ← hF] at heq
  have hx := evalBool_congr hsorted fun l hl => hs.order.assign_level x hl
  have hxb := evalBool_congr hsorted (x := s.assign (Function.update
    (fun v => x (s.env.bddvar2level v)) (s.env.bddlevel2var l) b)) (y := Function.update x l b) ?_
  · rw [eval_of_isBool hb, eval_of_isBool hb, ← hx, ← hxb, heq]
  intro l' hl'
  show Function.update (fun v => x (s.env.bddvar2level v)) (s.env.bddlevel2var l) b
    (s.env.bddlevel2var l') = _
  by_cases h : l' = l
  · rw [h, Function.update_self, Function.update_self]
  · have hne' : s.env.bddlevel2var l' ≠ s.env.bddlevel2var l := fun he => h (by
      rw [← (hs.order.var l' hl').2, he, (hs.order.var l hlt).2])
    rw [Function.update_of_ne h, Function.update_of_ne hne', (hs.order.var l' hl').2]

/-- The entry of a pair for a variable that it renames. -/
theorem Linked.renamed (h : Linked D s q θ) (hs : Good T s) (hred : T.reduced) (hD : T.D = D)
    (hG : s.Stands D q G) {l v : ℕ} (hl : l < s.env.bddvarnum)
    (hv : G (s.env.bddlevel2var l) = fun a => a v) :
    v < s.env.bddvarnum ∧ roots θ l = some (s.env.bddvar2level v) := by
  subst hD
  obtain ⟨hw, hlevel⟩ := hs.order.var l hl
  by_cases hle : (l : ℤ) ≤ q.last
  · -- the entry is the node of the variable
    obtain ⟨hr, hb⟩ := h.entry l hl hle
    have heval : ∀ a, evalBool (θ l) (s.assign a) = a v := fun a => by
      rw [h.eval hG hs.order hl, hv]
    have hlt : v < s.env.bddvarnum := hs.varset_lt (V := [v])
      ⟨θ l, hr, hb, fun a => by simp [heval]⟩
      List.mem_cons_self
    obtain ⟨-, hself, -⟩ := hs.ithvar hlt
    have htree := hs.sane.tree_unique hred hself ⟨trivial, trivial⟩ (fun a => ?_) hr hb heval
    · refine ⟨hlt, ?_⟩
      unfold roots
      rw [htree]
      rfl
    · rw [evalBool_selfTree]
      exact congrArg a (hs.order.level v hlt).2
  · -- the level stands for itself
    have hsame : s.env.bddlevel2var l = v := by
      have heq := hG.rest _ hw (by omega)
      rw [hv] at heq
      by_contra hne
      have := congrFun heq (Function.update (fun _ => false) v true)
      rw [Function.update_self, Function.update_of_ne hne] at this
      exact Bool.noConfusion this
    subst hsame
    refine ⟨hw, ?_⟩
    unfold roots
    rw [h.rest l (by omega), hlevel]
    rfl

/-! ## The laws -/

/-- Two calls with a pair, and the substitution of one variable. -/
theorem bddSubstitutions_exact {reset : BddState P → Prop} (hw : w.Reached D isPrime reset)
    (hp : p ∈ w.pairs) (hG : w.bdd.Stands D p.2 G) (hf : w.bdd.Usable D f F)
    (hg : w.bdd.Usable D g H) :
    (∃ res s', bddVeccompose D isPrime f p.2 w.bdd = some (res, s') ∧
      (s'.Ok → s'.Canonical D res fun a => F fun v => G v a)) ∧
    (∀ ρ : ℕ → ℕ, (∀ v, BoolFun.DependsOn F v → G v = fun a => a (ρ v)) →
      Set.InjOn ρ {v | BoolFun.DependsOn F v} →
      ∃ res s', bddReplace D isPrime f p.2 w.bdd = some (res, s') ∧
        (s'.Ok → s'.Canonical D res fun a => F fun v => a (ρ v))) ∧
    ∀ v < w.bdd.env.bddvarnum, ∃ res s', bddCompose D isPrime f g v w.bdd = some (res, s') ∧
      (s'.Ok → s'.Canonical D res fun a => F (Function.update a v (H a))) := by
  obtain ⟨⟨σ, h⟩, ho⟩ := hw.healthy
  obtain ⟨θ, -, hθ⟩ := h.linked p hp
  obtain ⟨href, t, hr, hb, hF⟩ := id hf
  have hsorted := (h.good.inv.graph.sorted hr).1
  have hfinish : ∀ {Q : Prop → DTree (Leaf P) → Prop} {res : ℕ × BddState P}
      {F' : (ℕ → Bool) → Bool}, Finished (full D isPrime σ w.bdd.env.bddvarnum) w.bdd Q res →
      (∀ u, Q res.2.Ok u → IsBool u ∧ ∀ a, evalBool u (w.bdd.assign a) = F' a) →
      res.2.Canonical D res.1 F' := by
    intro Q res F' hfin hQ
    obtain ⟨u, hu, hq⟩ := hfin.result
    obtain ⟨hbu, heval⟩ := hQ u hq
    have hrep : res.2.Represents D res.1 F' := ⟨u, hu, hbu, fun a => by
      unfold BddState.assign
      rw [hfin.env]
      exact heval a⟩
    exact ⟨hrep, fun m hm => hfin.sane.only trivial hrep hm⟩
  refine ⟨?_, fun ρ hρ hinj => ?_, fun v hv => ?_⟩
  · obtain ⟨⟨res, s'⟩, hres, hfin⟩ := h.veccompose ho hp hθ href hr hb
    refine ⟨res, s', hres, fun hok => hfinish hfin fun u hu => ⟨hu.isBool, fun a => ?_⟩⟩
    rw [hu.eval hok, ← hF]
    exact evalBool_congr hsorted fun l hl => hθ.eval hG h.good.order hl a
  · obtain ⟨⟨res, s'⟩, hres, hfin⟩ := h.replace ho hp hθ href hr hb
    refine ⟨res, s', hres, fun hok => hfinish hfin fun u hu => ⟨hu.isBool, fun a => ?_⟩⟩
    have hroot : ∀ l, t.Mentions l → l < w.bdd.env.bddvarnum ∧
        BoolFun.DependsOn F (w.bdd.env.bddlevel2var l) ∧ ρ (w.bdd.env.bddlevel2var l) < w.bdd.env.bddvarnum ∧
        roots θ l = some (w.bdd.env.bddvar2level (ρ (w.bdd.env.bddlevel2var l))) := by
      intro l hl
      obtain ⟨hlt, hdep⟩ := h.good.dependsOn trivial hr hb hF hl
      exact ⟨hlt, hdep, hθ.renamed h.good trivial rfl hG hlt (hρ _ hdep)⟩
    have hno : ¬ t.Collides (roots θ) := by
      refine DTree.not_collides hsorted (fun l hl => by rw [(hroot l hl).2.2.2]; rfl) ?_
      intro l l' hl hl' heq
      obtain ⟨hlt, hdep, hnum, hroots⟩ := hroot l hl
      obtain ⟨hlt', hdep', hnum', hroots'⟩ := hroot l' hl'
      rw [hroots, hroots', Option.some.injEq] at heq
      have hρeq := congrArg w.bdd.env.bddlevel2var heq
      rw [(h.good.order.level _ hnum).2, (h.good.order.level _ hnum').2] at hρeq
      have := congrArg w.bdd.env.bddvar2level (hinj hdep hdep' hρeq)
      rwa [(h.good.order.var l hlt).2, (h.good.order.var l' hlt').2] at this
    rw [hu.eval hok hno, ← hF]
    unfold evalBool
    rw [DTree.eval_eq_of_mentions fun l hl => ?_]
    obtain ⟨hlt, hdep, hnum, hroots⟩ := hroot l hl
    rw [along_some hroots]
    show a _ = a _
    rw [(h.good.order.level _ hnum).2]
  · obtain ⟨⟨res, s'⟩, hres, hcall⟩ := bddCompose_called
      (T := full D isPrime σ w.bdd.env.bddvarnum) (fun _ _ => full_substituting) h.good hf hg hv
    exact ⟨res, s', hres, hcall.only trivial⟩

/-- The pair of the session with two variables, with variable `1` for variable `0`. -/
def renamingPair : Package UInt32 := (onePair.setpair 1 0 1).2

def onVariableOne : BddPair := (renamingPair.pairs.lookup 1).getD ⟨fun _ => 0, 0, 0⟩

theorem renamingPair_reached (reset : BddState UInt32 → Prop) :
    renamingPair.Reached intDomain trialDivision reset :=
  (onePair_reached reset).step (.setpair 1 0 1 (Or.inr ⟨_, List.mem_cons_self, rfl⟩) trivial)
    (show renamingPair.bdd.bdderrorcond = false by decide +kernel)

theorem mem_renamingPair : (1, onVariableOne) ∈ renamingPair.pairs := by
  have hsome : (renamingPair.pairs.lookup 1).isSome = true := by decide +kernel
  obtain ⟨q, hq⟩ := Option.isSome_iff_exists.mp hsome
  have heq : onVariableOne = q := by
    unfold onVariableOne
    rw [hq]
    rfl
  exact heq ▸ lookup_mem hq

theorem bddSubstitutions_exact_two : ∃ n res s', 2 ≤ n ∧
    renamingPair.bdd.Usable intDomain n (fun a => a 0) ∧
    bddReplace intDomain trialDivision n onVariableOne renamingPair.bdd = some (res, s') ∧
      (s'.Ok → s'.Canonical intDomain res fun a => a 1) := by
  have hw := renamingPair_reached fun _ => True
  obtain ⟨⟨σ, h⟩, -⟩ := hw.healthy
  have hdata : renamingPair.bdd.env.bddvarnum = 2 ∧ onVariableOne.last = 0 ∧
      renamingPair.bdd.env.bddvar2level 0 = 0 ∧ renamingPair.bdd.env.bddvar2level 1 = 1 ∧
      onVariableOne.result 0 = renamingPair.bdd.env.bddvarset 2 := by decide +kernel
  obtain ⟨hnum, hlast, hl0, hl1, hresult⟩ := hdata
  have hG : renamingPair.bdd.Stands intDomain onVariableOne fun _ a => a 1 := by
    refine ⟨fun v hv hle => ?_, fun v hv hlt => ?_⟩
    · obtain rfl | rfl : v = 0 ∨ v = 1 := by omega
      · rw [hl0, hresult]
        exact h.good.ithvar_represents (v := 1) (by omega)
      · omega
    · obtain rfl | rfl : v = 0 ∨ v = 1 := by omega
      · omega
      · rfl
  have honly : ∀ v, BoolFun.DependsOn (fun a : ℕ → Bool => a 0) v → v = 0 := by
    rintro v ⟨x, b, hne⟩
    by_contra h0
    exact hne (Function.update_of_ne (Ne.symm h0) b x)
  obtain ⟨-, hreplace, -⟩ := bddSubstitutions_exact hw mem_renamingPair hG
    (h.good.ithvar_usable (v := 0) (by omega)) (h.good.ithvar_usable (v := 1) (by omega))
  obtain ⟨res, s', hres, hcanonical⟩ := hreplace (fun _ => 1) (fun _ _ => rfl)
    fun v hv v' hv' _ => (honly v hv).trans (honly v' hv').symm
  exact ⟨_, res, s', (h.good.ithvar (v := 0) (by omega)).2.2.2, h.good.ithvar_usable (by omega),
    hres, hcanonical⟩

end MoToBuddy.Bdd
