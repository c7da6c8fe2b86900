import MoToBuddy.Bdd.Plain
import MoToBuddy.Bdd.Maketerminal

/-!
# Sessions with terminals

`Step` lists the calls of the kernel and the parts that the operations consist of, for any theory
of what the caches hold. `Regular` is what each of them keeps, as long as nothing is reported
(`Step.regular`). `Run` are the states that the steps of a group of operations lead to; an
operation that keeps `Regular` is added to the steps of the kernel (`Run.regular`).
-/

namespace MoToBuddy.Bdd

open Chained Marking Decision

variable {P : Type*} {T : Theory P} {S : Setting P} {s s' : BddState P}

/-! ## `mtbdd_maketerminal` in a diagram -/

/-- A terminal is a node of a diagram. -/
theorem NodeInv.terminal {n : ℕ} {v : P} (hlevel : s.level n = maxlevel)
    (hv : mtbddGetvalue S.D s (s.key n).high = some v) : NodeInv S s n := by
  have hsucc : s.succ n = [] := by
    unfold BddState.succ
    cases (s.key n).low with
    | none => rfl
    | some low => exact if_pos hlevel
  refine ⟨fun m hm => ?_, fun hdec => absurd hlevel hdec, fun _ => ⟨v, hv⟩,
    fun _ hdec => absurd hlevel hdec⟩
  rw [hsucc] at hm
  exact absurd hm List.not_mem_nil

theorem TerminalSpec.graphInv {flight : List ℕ} {value : P} {type : ℕ} {r : ℕ × BddState P}
    (h : TerminalSpec S.D S.isPrime flight s value type r) (hg : GraphInv S s) :
    GraphInv S r.2 := by
  refine .of_nodes (fun n hn => ?_)
    (fun hred => h.evo.checkSameChildren.trans (hg.reduced hred).1)
    (h.evo.stack h.refstack hg.stack)
  rcases h.back n hn with hk | ⟨-, hlevel, v, hv, -⟩
  · exact hk.nodeInv hg
  · exact .terminal hlevel hv

/-- A terminal is made in a supported domain, and the diagram is kept. -/
theorem mtbddMaketerminal_core (hs : Core S s) (hsupp : S.D.Supported) (value : P) {type : ℕ}
    (htype : S.D.domaintype = .custom → type < S.D.typeNumber) :
    ∃ r flight, mtbddMaketerminal S.D S.isPrime s value type = some r ∧ Core S r.2 ∧
      TerminalSpec S.D S.isPrime flight s value type r := by
  obtain ⟨flight, hi, hf⟩ := hs.table
  obtain ⟨r, hr, hspec⟩ := mtbddMaketerminal_spec hi hsupp value htype
  refine ⟨r, flight, hr, ⟨?_, hspec.graphInv hs.graph,
    hspec.cache.cacheSound hspec.evo.ok hs.cache⟩, hspec⟩
  obtain ⟨flight', hi', hf'⟩ := hspec.inv
  exact ⟨flight', hi', fun hok => (hf' hok).trans (hf (hspec.evo.ok hok))⟩

/-- There are no terminals in the other domains. -/
theorem mtbddMaketerminal_none {D : MtbddDomain P} {isPrime : ℕ → Bool} (hD : ¬ D.Supported)
    (s : BddState P) (value : P) (type : ℕ) : mtbddMaketerminal D isPrime s value type = none := by
  unfold MtbddDomain.Supported MtbddDomain.stored at hD
  unfold mtbddMaketerminal
  cases hd : D.domaintype <;> rw [hd] at hD <;> first
    | rfl
    | exact absurd (Or.inl rfl) hD
    | exact absurd (Or.inr rfl) hD

/-! ## Steps -/

/-- An entry that a theory says nothing about. -/
def Theory.Foreign (T : Theory P) (k : CacheId) (e : BddCacheData) : Prop :=
  ∀ s g, T.cache s k { e with generation := g }

/-- A call of the kernel, or a part of an operation. -/
inductive Step (T : Theory P) (s : BddState P) : BddState P → Prop
  | setvarnum (num : ℕ) : Step T s (bddSetvarnum T.D T.isPrime s num)
  | limits (maxnodesize maxnodeincrease minfreenodes : ℕ) :
      Step T s { s with env := { s.env with
        bddmaxnodesize := maxnodesize
        bddmaxnodeincrease := maxnodeincrease
        minfreenodes := minfreenodes } }
  | cacheratio (ratio : ℕ) : Step T s
      (operatorNoderesize T.isPrime { s with env := { s.env with cacheratio := ratio } })
  | addref (n : ℕ) : Step T s (bddAddref s n)
  | delref (n : ℕ) : Step T s (bddDelref s n)
  | gbc : Step T s (bddGbc T.D s)
  | reorder (s' : BddState P) (h : Reordered T s s') (hconst : ∀ n, n < 2 → s'.level n = s.level n) :
      Step T s s'
  | initref : Step T s s.initref
  | pushref (n : ℕ) (hn : s.IsNode n) : Step T s (s.pushref n)
  | popref (k : ℕ) : Step T s (s.popref k)
  | makenode (level low high : ℕ) (hlevel : level < s.env.bddvarnum)
      (hchild : ∀ m ∈ [low, high], (m < 2 ∨ s.Held m) ∧ (m < 2 ∨ level < s.level m)) :
      Step T s (bddMakenode T.D T.isPrime s level low high).2
  | maketerminal (value : P) (type res : ℕ) (s' : BddState P)
      (htype : T.D.domaintype = .custom → type < T.D.typeNumber)
      (h : mtbddMaketerminal T.D T.isPrime s value type = some (res, s')) : Step T s s'
  | releaseTemp (value : P) : Step T s { s with terminals := s.terminals.releaseTemp value }
  | sameChildren (check : Bool) (h : ¬ T.reduced) : Step T s { s with checkSameChildren := check }
  | store (k : CacheId) (i : ℕ) (e : BddCacheData) (he : T.Foreign k e) :
      Step T s (s.store k i e)
  | checkresize : Step T s (checkresize T.isPrime s)
  | error (e : BddError) : Step T s (s.error e)

/-- A session is well formed, and once there are variables the constants are not at the level of
the terminals. -/
structure Regular (T : Theory P) (s : BddState P) : Prop extends Good T s where
  const : 0 < s.env.bddvarnum → ∀ n, n < 2 → s.level n < maxlevel

/-- Another state with the same constants. -/
theorem Regular.of_good (h : Regular T s) (hg : Good T s')
    (hnum : s'.env.bddvarnum = s.env.bddvarnum) (hconst : ∀ n, n < 2 → s'.level n = s.level n) :
    Regular T s' := by
  refine ⟨hg, fun hpos n hn => ?_⟩
  rw [hconst n hn]
  exact h.const (hnum ▸ hpos) n hn

theorem Regular.evo (h : Regular T s) (hc : Core (T.setting s.env.bddvarnum h.num) s')
    (he : Evo T.D s s') : Regular T s' :=
  h.of_good (h.toGood.evo hc he) (by rw [he.env]) he.const

theorem bddInit_regular (cachesize : ℕ) {size : ℕ} (hsize : GoodSize T.isPrime size) :
    Regular T (bddInit size cachesize) :=
  ⟨bddInit_good cachesize hsize, fun hpos => absurd hpos (Nat.lt_irrefl 0)⟩

/-- The loop of `bdd_setvarnum` only stops early for an error. -/
theorem addVars_stopped {D : MtbddDomain P} {isPrime : ℕ → Bool} {bdv k : ℕ}
    (h : (addVars D isPrime bdv k s).1 = false) : ¬ (addVars D isPrime bdv k s).2.Ok := by
  induction k generalizing s with
  | zero => exact absurd h.symm Bool.false_ne_true
  | succ k ih =>
    unfold addVars at h ⊢
    dsimp only at h ⊢
    split at h
    · rename_i herr
      rw [if_pos herr]
      exact fun hok => Bool.false_ne_true (hok.symm.trans herr)
    · rename_i herr
      rw [if_neg herr]
      exact ih h

/-- `bdd_setvarnum` moves the constants below the variables, or it changes no variable. -/
theorem bddSetvarnum_regular (h : Regular T s) (num : ℕ)
    (hok : (bddSetvarnum T.D T.isPrime s num).Ok) :
    Regular T (bddSetvarnum T.D T.isPrime s num) := by
  have hgood := (bddSetvarnum_good h.toGood num hok).2
  unfold bddSetvarnum at hok hgood ⊢
  by_cases hrange : num < 1 ∨ num ≥ maxvar
  · rw [if_pos hrange] at hgood ⊢
    exact h.of_good hgood rfl fun _ _ => rfl
  rw [if_neg hrange] at hok hgood ⊢
  by_cases hless : num < s.env.bddvarnum
  · rw [if_pos hless] at hgood ⊢
    exact h.of_good hgood rfl fun _ _ => rfl
  rw [if_neg hless] at hok hgood ⊢
  by_cases heq : num = s.env.bddvarnum
  · rw [if_pos heq] at hgood ⊢
    exact h
  rw [if_neg heq] at hok hgood ⊢
  dsimp only at hok hgood ⊢
  have hstop := @addVars_stopped P s.initref T.D T.isPrime s.initref.env.bddvarnum
    (num - s.initref.env.bddvarnum)
  generalize addVars T.D T.isPrime s.initref.env.bddvarnum (num - s.initref.env.bddvarnum)
    s.initref = r at hok hgood hstop ⊢
  obtain ⟨done, t⟩ := r
  cases done with
  | false => exact absurd hok (hstop rfl)
  | true =>
    refine ⟨hgood, fun _ n hn => ?_⟩
    dsimp only
    rw [finishVars_level hn]
    have hmax : maxvar = maxlevel := rfl
    omega

/-! ## What the steps keep -/

theorem Regular.setEnv (h : Regular T s) (maxnodesize maxnodeincrease minfreenodes ratio : ℕ) :
    Regular T { s with env := { s.env with
      bddmaxnodesize := maxnodesize
      bddmaxnodeincrease := maxnodeincrease
      minfreenodes := minfreenodes
      cacheratio := ratio } } :=
  h.of_good (h.toGood.limits maxnodesize maxnodeincrease minfreenodes ratio) rfl fun _ _ => rfl

/-- The variables and the levels are as before. -/
structure SameLevels (s s' : BddState P) : Prop where
  env : s'.env = s.env
  level : ∀ n, s'.level n = s.level n

theorem SameLevels.refl (s : BddState P) : SameLevels s s := ⟨rfl, fun _ => rfl⟩

theorem Regular.sameLevels (h : Regular T s) (hg : Good T s') (hl : SameLevels s s') :
    Regular T s' := h.of_good hg (by rw [hl.env]) fun n _ => hl.level n

theorem sameLevels_refcou (s : BddState P) (n c : ℕ) :
    SameLevels s (s.setNode n { s.bddnodes n with refcou := c }) := by
  refine ⟨rfl, fun m => ?_⟩
  unfold BddState.level BddState.setNode
  dsimp only
  rw [Function.update_apply]
  split
  · rename_i hm
    rw [hm]
  · rfl

theorem sameLevels_incref (s : BddState P) (n : ℕ) : SameLevels s (incref s n) := by
  unfold incref
  dsimp only
  split
  · exact sameLevels_refcou s n _
  · exact .refl s

theorem sameLevels_decref (s : BddState P) (n : ℕ) : SameLevels s (decref s n) := by
  unfold decref
  dsimp only
  split
  · exact sameLevels_refcou s n _
  · exact .refl s

theorem sameLevels_changeref {count : BddState P → ℕ → BddState P}
    (hcount : ∀ n, SameLevels s (count s n)) (root : ℕ) :
    SameLevels s (changeref count s root) := by
  unfold changeref
  split
  · exact .refl s
  · split
    · exact ⟨rfl, fun _ => rfl⟩
    · split
      · exact ⟨rfl, fun _ => rfl⟩
      · exact hcount root

theorem sameLevels_delref (s : BddState P) (n : ℕ) : SameLevels s (bddDelref s n) := by
  apply sameLevels_changeref
  intro m
  split
  · have h := sameLevels_decref (s.error .break) m
    exact ⟨h.env, h.level⟩
  · exact sameLevels_decref s m

theorem sameLevels_noderesize (isPrime : ℕ → Bool) (s : BddState P) :
    SameLevels s (operatorNoderesize isPrime s) := by
  unfold operatorNoderesize
  split
  · exact ⟨rfl, fun _ => rfl⟩
  · exact .refl s

theorem sameLevels_checkresize (isPrime : ℕ → Bool) (s : BddState P) :
    SameLevels s (checkresize isPrime s) := by
  obtain ⟨C, hC⟩ := checkresize_eq isPrime s
  rw [hC]
  exact ⟨rfl, fun _ => rfl⟩

/-- What is not part of the diagram changes. -/
theorem Good.same_diagram (h : Good T s) (hc : Core (T.setting s.env.bddvarnum h.num) s')
    (henv : s'.env = s.env) (hnodes : s'.bddnodes = s.bddnodes) : Good T s' := by
  have hnum : s'.env.bddvarnum = s.env.bddvarnum := by rw [henv]
  have hle : s'.env.bddvarnum ≤ maxlevel := hnum ▸ h.num
  have hkey : ∀ n, s'.key n = s.key n := fun n => congrArg (fun f => (f n).key) hnodes
  refine ⟨hle, ⟨hc.mono (Nat.le_of_eq hnum.symm) hle, fun n hn => ?_⟩, ?_, ?_⟩
  · have hlevel : s'.level n = s.level n := congrArg BddKey.level (hkey n)
    rw [hlevel]
    exact Nat.le_trans (Nat.le_of_eq hnum) (h.inv.top n hn)
  · have hm := h.marks
    unfold MarksInv at hm ⊢
    rw [henv]
    exact hm
  · refine h.order.congr (by rw [henv]) (by rw [henv]) (by rw [henv]) (by rw [henv]) fun hp =>
      ⟨(BddState.live_congr (hkey _)).trans hp.live, (hkey _).trans hp.key, ?_⟩
    rw [hnodes]
    exact hp.refcou

/-- The log of the terminals is not part of the diagram. -/
theorem Good.releaseTemp (h : Good T s) (value : P) :
    Good T { s with terminals := s.terminals.releaseTemp value } := by
  obtain ⟨flight, hi, hf⟩ := h.inv.table
  have hg := h.inv.graph
  have hsame : ∀ n, SameNode T.D s { s with terminals := s.terminals.releaseTemp value } n :=
    fun n => ⟨rfl, fun _ _ => rfl⟩
  have hi' : TableInv T.D T.isPrime flight s := hi
  refine h.same_diagram ⟨⟨flight, hi'.releaseTemp value, hf⟩,
    ⟨hg.child, hg.order, hg.value, hg.reduced, hg.stack⟩, fun k i hv => ?_⟩ rfl rfl
  exact T.stable s _ k _ (fun n _ => hsame n) id (h.inv.cache k i hv)

/-- Diagrams that may have redundant nodes do not depend on the check. -/
theorem Good.sameChildren (h : Good T s) (hred : ¬ T.reduced) (check : Bool) :
    Good T { s with checkSameChildren := check } := by
  obtain ⟨flight, hi, hf⟩ := h.inv.table
  have hg := h.inv.graph
  have hi' : TableInv T.D T.isPrime flight s := hi
  refine h.same_diagram ⟨⟨flight, { hi' with }, hf⟩,
    ⟨hg.child, hg.order, hg.value, fun hr => absurd hr hred, hg.stack⟩, fun k i hv => ?_⟩ rfl rfl
  exact T.stable s _ k _ (fun n _ => ⟨rfl, fun _ _ => rfl⟩) id (h.inv.cache k i hv)

theorem Good.storeForeign (h : Good T s) {k : CacheId} {e : BddCacheData} (he : T.Foreign k e)
    (i : ℕ) : Good T (s.store k i e) := by
  have hpost : Post (T.setting s.env.bddvarnum h.num) s (fun _ _ => True) (0, s) :=
    .const h.inv false trivial
  have hstore := hpost.store k i (e := e) fun g => he s g
  exact h.evo hstore.inv.toCore hstore.evo

theorem Good.popref (h : Good T s) (k : ℕ) : Good T (s.popref k) :=
  h.restack fun n hn => h.inv.graph.stack n (List.mem_of_mem_drop hn)

theorem Good.pushref (h : Good T s) {n : ℕ} (hn : s.IsNode n) : Good T (s.pushref n) := by
  refine h.restack fun m hm => ?_
  rcases List.mem_cons.mp hm with rfl | hm
  · exact hn
  · exact h.inv.graph.stack m hm

/-- A step keeps the session well formed, as long as nothing was reported. -/
theorem Step.regular (h : Regular T s) (hstep : Step T s s') (hok : s'.Ok) : Regular T s' := by
  cases hstep with
  | setvarnum num => exact bddSetvarnum_regular h num hok
  | limits a b c => exact h.setEnv a b c s.env.cacheratio
  | cacheratio ratio =>
    have h1 := h.setEnv s.env.bddmaxnodesize s.env.bddmaxnodeincrease s.env.minfreenodes ratio
    exact h1.sameLevels h1.toGood.noderesize (sameLevels_noderesize T.isPrime _)
  | addref n =>
    exact h.sameLevels (h.toGood.addref n) (sameLevels_changeref (sameLevels_incref s) n)
  | delref n => exact h.sameLevels (h.toGood.delref n) (sameLevels_delref s n)
  | gbc =>
    obtain ⟨hc, he⟩ := bddGbc_core h.inv.toCore
    exact h.evo hc he
  | reorder _ hr hconst => exact h.of_good hr.good hr.varnum hconst
  | initref => exact h.sameLevels h.toGood.initref_good ⟨rfl, fun _ => rfl⟩
  | pushref n hn => exact h.sameLevels (h.toGood.pushref hn) ⟨rfl, fun _ => rfl⟩
  | popref k => exact h.sameLevels (h.toGood.popref k) ⟨rfl, fun _ => rfl⟩
  | makenode level low high hlevel hchild =>
    obtain ⟨hcore, flight, hm⟩ := bddMakenode_core h.inv.toCore hlevel hchild
    exact h.evo hcore hm.evo
  | maketerminal value type res _ htype heq =>
    by_cases hsupp : T.D.Supported
    · obtain ⟨r, flight, hr, hcore, hspec⟩ :=
        mtbddMaketerminal_core h.inv.toCore hsupp value htype
      have hres : r = (res, s') := Option.some.inj (hr.symm.trans heq)
      rw [hres] at hcore hspec
      exact h.evo hcore hspec.evo
    · rw [mtbddMaketerminal_none hsupp] at heq
      exact absurd heq.symm (Option.some_ne_none _)
  | releaseTemp value => exact h.sameLevels (h.toGood.releaseTemp value) ⟨rfl, fun _ => rfl⟩
  | sameChildren check hred =>
    exact h.sameLevels (h.toGood.sameChildren hred check) ⟨rfl, fun _ => rfl⟩
  | store k i e he => exact h.sameLevels (h.toGood.storeForeign he i) ⟨rfl, fun _ => rfl⟩
  | checkresize =>
    exact h.sameLevels h.toGood.checkresize (sameLevels_checkresize T.isPrime s)
  | error e => exact h.sameLevels (h.toGood.error e) ⟨rfl, fun _ => rfl⟩

/-! ## Runs -/

/-- The states that steps lead to from the start while nothing is reported. -/
inductive Run (isPrime : ℕ → Bool) (step : BddState P → BddState P → Prop) : BddState P → Prop
  | init (size cachesize : ℕ) (h : GoodSize isPrime size) :
      Run isPrime step (bddInit size cachesize)
  | step {s s' : BddState P} (before : Run isPrime step s) (h : step s s') (hok : s'.Ok) :
      Run isPrime step s'

theorem Run.regular {step : BddState P → BddState P → Prop} (h : Run T.isPrime step s)
    (hstep : ∀ s s', Regular T s → s'.Ok → step s s' → Regular T s') : Regular T s := by
  induction h with
  | init size cachesize hsize => exact bddInit_regular cachesize hsize
  | step _ h hok ih => exact hstep _ _ ih hok h

end MoToBuddy.Bdd
