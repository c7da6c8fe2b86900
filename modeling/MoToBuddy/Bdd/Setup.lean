import MoToBuddy.Bdd.Contract

/-!
# Starting a session (`kernel.c`)

`bdd_init` sets up an empty table, `bdd_setvarnum` makes the two nodes of every variable. They
have a saturated reference count, so that no collection frees them.

`OrderInv` is the invariant of the variables: `bddvar2level` and `bddlevel2var` are inverse to
each other, and the nodes of a variable are where `bddvarset` says.
-/

namespace MoToBuddy.Bdd

open Chained Decision Slots

/-- `MAXVAR`. -/
abbrev maxvar : ℕ := 0x1FFFFF

section

variable {P : Type*} (D : MtbddDomain P) (isPrime : ℕ → Bool)

/-- The state after `bdd_init`, with `size` from `bdd_prime_gte` for the table and `cachesize` for
the caches. -/
def bddInit (size cachesize : ℕ) : BddState P where
  bddnodes n :=
    if n = 0 then ⟨some 0, 0, maxref, maxlevel, false, 0, 1⟩
    else if n = 1 then ⟨some 1, 1, maxref, maxlevel, false, 0, 2⟩
    else ⟨none, 0, 0, 0, false, 0, if n + 1 = size then 0 else n + 1⟩
  bddnodesize := size
  bddfreepos := 2
  bddfreenum := size - 2
  bddrefstack := []
  checkSameChildren := true
  bddresized := false
  bdderrorcond := false
  terminals := .init
  caches _ := .init cachesize
  env :=
    { bddmaxnodesize := 0
      bddmaxnodeincrease := 50000
      minfreenodes := 20
      cacheratio := 0
      bddvarnum := 0
      bddvarset _ := 0
      bddvar2level _ := 0
      bddlevel2var _ := 0
      quantvarset _ := 0
      quantvarsetID := 0 }
  errors := []

/-- Give a node a saturated reference count. -/
def BddState.saturate (s : BddState P) (n : ℕ) : BddState P :=
  s.setNode n { s.bddnodes n with refcou := maxref }

/-- Enter the next variable, with its two nodes. -/
def BddState.addVar (s : BddState P) (pos neg : ℕ) : BddState P :=
  let v := s.env.bddvarnum
  let s := (s.saturate pos).saturate neg
  { s with env := { s.env with
      bddvarnum := v + 1
      bddvarset := Function.update (Function.update s.env.bddvarset (2 * v) pos) (2 * v + 1) neg
      bddvar2level := Function.update s.env.bddvar2level v v
      bddlevel2var := Function.update s.env.bddlevel2var v v } }

/-- The loop of `bdd_setvarnum`, for the next `k` variables; a failure leaves `bdv` variables. -/
def addVars (bdv : ℕ) : ℕ → BddState P → Bool × BddState P
  | 0, s => (true, s)
  | k + 1, s =>
    let v := s.env.bddvarnum
    let (pos, s) := bddMakenode D isPrime s v 0 1
    let s := s.pushref pos
    let (neg, s) := bddMakenode D isPrime s v 1 0
    let s := s.popref 1
    if s.bdderrorcond then
      (false, { s with env := { s.env with
        bddvarnum := bdv
        bddvarset := Function.update (Function.update s.env.bddvarset (2 * v) pos) (2 * v + 1)
          neg } })
    else addVars bdv k (s.addVar pos neg)

/-- The end of `bdd_setvarnum`: the level of the constants and `bdd_operator_varresize`. -/
def BddState.finishVars (s : BddState P) (num : ℕ) : BddState P :=
  let s := s.setNode 0 { s.bddnodes 0 with level := num }
  let s := s.setNode 1 { s.bddnodes 1 with level := num }
  { s with
    caches := Function.update s.caches .misc (s.caches .misc).reset
    env := { s.env with
      bddvar2level := Function.update s.env.bddvar2level num num
      bddlevel2var := Function.update s.env.bddlevel2var num num
      quantvarset := fun _ => 0
      quantvarsetID := 0 } }

/-- `bdd_setvarnum`. -/
def bddSetvarnum (s : BddState P) (num : ℕ) : BddState P :=
  if num < 1 ∨ num ≥ maxvar then s.error .range
  else if num < s.env.bddvarnum then s.error .decvnum
  else if num = s.env.bddvarnum then s
  else
    let s := s.initref
    match addVars D isPrime s.env.bddvarnum (num - s.env.bddvarnum) s with
    | (false, s) => s
    | (true, s) => s.finishVars num

/-- `bdd_ithvar`. -/
def bddIthvar (s : BddState P) (var : ℕ) : ℕ × BddState P :=
  if var ≥ s.env.bddvarnum then (0, s.error .var) else (s.env.bddvarset (2 * var), s)

end

variable {P : Type*} {D : MtbddDomain P} {isPrime : ℕ → Bool} {S : Setting P}
  {s s' : BddState P}

/-! ## `bdd_init` -/

/-- `isPrime` accepts the odd size that `bdd_prime_gte` found. -/
def GoodSize (isPrime : ℕ → Bool) (size : ℕ) : Prop :=
  2 < size ∧ size % 2 = 1 ∧ isPrime size = true

theorem bddInit_live (size cachesize n : ℕ) :
    (bddInit size cachesize : BddState P).live n = false := by
  by_cases h : 2 ≤ n
  · have h0 : n ≠ 0 := by omega
    have h1 : n ≠ 1 := by omega
    simp [BddState.live, BddState.key, bddInit, h0, h1, BddNode.key]
  · simp [BddState.live, h]

theorem bddInit_tableInv {size : ℕ} (hsize : GoodSize isPrime size) (cachesize : ℕ) :
    TableInv D isPrime [] (bddInit size cachesize : BddState P) := by
  have hlive := fun n => bddInit_live (P := P) size cachesize n
  have hdead : ∀ n, (bddInit size cachesize : BddState P).live n ≠ true := fun n => by
    rw [hlive n]
    exact Bool.false_ne_true
  have hslot : ∀ n, (bddInit size cachesize : BddState P).slot D n = none := fun n =>
    if_neg fun h => hdead n h.1
  have hnode : ∀ n, 2 ≤ n → (bddInit size cachesize : BddState P).bddnodes n =
      ⟨none, 0, 0, 0, false, 0, if n + 1 = size then 0 else n + 1⟩ := by
    intro n hn
    have h0 : n ≠ 0 := by omega
    have h1 : n ≠ 1 := by omega
    simp [bddInit, h0, h1]
  obtain ⟨h2, hodd, hprime⟩ := hsize
  refine
    { size := ⟨h2.le, hodd, hprime⟩, beyond := fun n _ => hlive n, refcou := fun n hn => ?_,
      mark := fun n => ?_, level := fun n => ?_, free := fun n hn _ => ?_,
      threaded := ⟨fun b _ => ⟨[], ?_, List.nodup_nil, fun n => ?_⟩, ?_⟩,
      unique := fun n m hn => absurd hn (hdead n), term := ?_,
      word := fun _ n hn => absurd hn (hdead n), type := fun _ n hn => absurd hn (hdead n),
      termUnique := fun n m i j v w hi => ?_, caches := fun _ => BddCache.inv_init _ }
  · left
    by_contra hn2
    rw [hnode n (by omega)] at hn
    exact absurd hn (Nat.lt_irrefl 0)
  · unfold bddInit
    dsimp only
    split
    · rfl
    · split <;> rfl
  · unfold BddState.key bddInit BddNode.key
    dsimp only
    split
    · decide
    · split
      · decide
      · show 0 < 2 ^ 21
        decide
  · unfold BddState.key
    rw [hnode n hn]
    show 0 ≠ maxlevel
    decide
  · show ((bddInit size cachesize : BddState P).bddnodes b).hash = 0
    unfold bddInit
    dsimp only
    split
    · rfl
    · split <;> rfl
  · simp only [List.not_mem_nil, false_iff]
    exact fun h => hdead n h.2.1
  · -- the free list is the one of two slots, extended
    have hempty : FreeList 2 2 ((bddInit size cachesize : BddState P).live · = true)
        ⟨fun _ => 0, fun _ => 0, 0, 0⟩ :=
      ⟨[], rfl, List.nodup_nil, rfl, fun n => by
        simp only [List.not_mem_nil, false_iff]
        omega⟩
    have hlinks : (bddInit size cachesize : BddState P).links =
        ⟨fun n => ((bddInit size cachesize : BddState P).bddnodes n).hash,
          fun n => ((bddInit size cachesize : BddState P).bddnodes n).next, 2, 0 + (size - 2)⟩ := by
      rw [Nat.zero_add]
      rfl
    rw [hlinks]
    have hsz : (bddInit size cachesize : BddState P).bddnodesize = size := rfl
    rw [hsz]
    refine hempty.extend (Nat.le_refl 2) h2 (by decide) (fun n h1 h2 => by omega)
      (fun n h1 h2 => ?_) ?_ (fun n h1 h2 => by omega) (fun n _ _ => hdead n) _
    · rw [hnode n h1]
      exact if_neg (by omega)
    · rw [hnode (size - 1) (by omega)]
      exact if_pos (by omega)
  · have hnone : ∀ i, ¬ ∃ n, (bddInit size cachesize : BddState P).slot D n = some i := by
      rintro i ⟨n, hn⟩
      rw [hslot n] at hn
      exact absurd hn.symm (Option.some_ne_none i)
    refine ⟨fun n m i hn => absurd ⟨n, hn⟩ (hnone i), fun n i hn => absurd ⟨n, hn⟩ (hnone i),
      fun i hi => absurd hi (by simp [hslot]), ?_, trivial, fun i hi => absurd hi (by simp [hslot]),
      fun _ _ _ => rfl, fun n => by rw [hslot n]; rfl⟩
    refine ⟨List.nodup_nil, fun i hi => absurd hi List.not_mem_nil, fun i => ?_, rfl, Nat.le_refl 0⟩
    constructor
    · rintro (h | h)
      · exact absurd h (hnone i)
      · exact absurd h List.not_mem_nil
    · exact fun h => absurd h.1 (Nat.not_lt_zero i)
  · rw [hslot n] at hi
    exact absurd hi.symm (Option.some_ne_none i)

/-! ## Steps that leave the diagram alone -/

/-- The nodes are the same, but for the constants and for the counts. -/
structure SameTable (s s' : BddState P) : Prop where
  key : ∀ n, 2 ≤ n → s'.key n = s.key n
  const : ∀ n, n < 2 → (s'.key n).level < 2 ^ 21
  refcou : ∀ n, 0 < (s'.bddnodes n).refcou → s.IsNode n
  mark : ∀ n, (s'.bddnodes n).mark = (s.bddnodes n).mark
  links : s'.links = s.links
  nodesize : s'.bddnodesize = s.bddnodesize
  terminals : s'.terminals = s.terminals
  caches : ∀ k, (s'.caches k).Inv

/-- In addition, no cache entry is new, and nodes are on the stack. -/
structure Alike (s s' : BddState P) : Prop extends SameTable s s' where
  checkSameChildren : s'.checkSameChildren = s.checkSameChildren
  ok : s'.Ok → s.Ok
  valid : ∀ k i, (s'.caches k).isValid i = true →
    (s.caches k).isValid i = true ∧ (s'.caches k).table i = (s.caches k).table i
  stack : ∀ n ∈ s'.bddrefstack, s.IsNode n

theorem SameTable.live (h : SameTable s s') (n : ℕ) : s'.live n = s.live n := by
  by_cases hn : 2 ≤ n
  · exact BddState.live_congr (h.key n hn)
  · simp [BddState.live, hn]

theorem SameTable.same (h : SameTable s s') {n : ℕ} (hn : s.live n = true) : SameNode D s s' n :=
  ⟨h.key n (BddState.live_iff.mp hn).1, fun _ _ => by rw [h.terminals]⟩

theorem SameTable.isNode (h : SameTable s s') {n : ℕ} (hn : s.IsNode n) : s'.IsNode n :=
  hn.imp_right fun hl => (h.live n).trans hl

theorem SameTable.slot (h : SameTable s s') : s'.slot D = s.slot D := by
  funext n
  by_cases hn : 2 ≤ n
  · exact BddState.slot_congr (h.key n hn)
  · have hdead : ∀ t : BddState P, ¬ t.live n = true := fun t ht =>
      hn (BddState.live_iff.mp ht).1
    unfold BddState.slot
    rw [if_neg fun hc => hdead s' hc.1, if_neg fun hc => hdead s hc.1]

theorem TableInv.alike {flight : List ℕ} (h : TableInv D isPrime flight s) (ha : SameTable s s') :
    TableInv D isPrime flight s' := by
  have hkey : ∀ n, s'.live n = true → s'.key n = s.key n := fun n hn =>
    ha.key n (BddState.live_iff.mp hn).1
  have hlive : ∀ n, s'.live n = true → s.live n = true := fun n hn => (ha.live n).symm.trans hn
  refine
    { size := by rw [ha.nodesize]; exact h.size, beyond := fun n hn => ?_,
      refcou := fun n hn => ha.isNode (ha.refcou n hn),
      mark := fun n => (ha.mark n).trans (h.mark n), level := fun n => ?_,
      free := fun n hn hl => ?_, threaded := ?_, unique := fun n m hn hm hp hnm => ?_,
      term := by rw [ha.slot, ha.terminals]; exact h.term,
      word := fun hD n hn hlev => ?_, type := fun hD n hn hlev => ?_,
      termUnique := fun n m i j v w hi hj hlow hv hw hsame => ?_, caches := ha.caches }
  · rw [ha.live]
    exact h.beyond n (ha.nodesize ▸ hn)
  · by_cases hn : 2 ≤ n
    · rw [ha.key n hn]
      exact h.level n
    · exact ha.const n (by omega)
  · rw [ha.key n hn]
    exact h.free n hn ((ha.live n).symm.trans hl)
  · rw [ha.links, ha.nodesize]
    refine h.threaded.congr (fun n _ _ => by rw [ha.live]) fun n hn _ _ => ?_
    exact BddState.bucket_congr (ha.key n hn) ha.nodesize fun _ _ => by rw [ha.terminals]
  · rw [hkey n hn] at hp hnm
    rw [hkey m hm] at hnm
    exact h.unique n m (hlive n hn) (hlive m hm) hp hnm
  · rw [hkey n hn] at hlev ⊢
    exact h.word hD n (hlive n hn) hlev
  · rw [hkey n hn] at hlev ⊢
    exact h.type hD n (hlive n hn) hlev
  · rw [ha.slot] at hi hj
    have hln := (BddState.slot_live hi).1
    have hlm := (BddState.slot_live hj).1
    rw [ha.key n (BddState.live_iff.mp hln).1] at hlow hsame
    rw [ha.key m (BddState.live_iff.mp hlm).1] at hlow
    rw [ha.terminals] at hv hw
    exact h.termUnique n m i j v w hi hj hlow hv hw hsame

theorem Core.alike (h : Core S s) (ha : Alike s s') : Core S s' := by
  obtain ⟨flight, hi, hf⟩ := h.table
  have hg := h.graph
  have hkey : ∀ n, s'.live n = true → s'.key n = s.key n := fun n hn =>
    ha.key n (BddState.live_iff.mp hn).1
  have hlevel : ∀ n, 2 ≤ n → s'.level n = s.level n := fun n hn =>
    congrArg BddKey.level (ha.key n hn)
  have hlive : ∀ n, s'.live n = true → s.live n = true := fun n hn => (ha.live n).symm.trans hn
  refine ⟨⟨flight, hi.alike ha.toSameTable, fun he => hf (ha.ok he)⟩, ?_, fun k i hv => ?_⟩
  · refine ⟨fun n hn m hm => ?_, fun n hn hdec => ?_, fun n hn hterm => ?_, fun hred => ?_,
      fun n hn => ha.isNode (ha.stack n hn)⟩
    · rw [BddState.succ_congr (hkey n hn)] at hm
      exact ha.isNode (hg.child n (hlive n hn) m hm)
    · rw [hlevel n (BddState.live_iff.mp hn).1] at hdec ⊢
      rw [BddState.succ_congr (hkey n hn)]
      obtain ⟨hlt, hord⟩ := hg.order n (hlive n hn) hdec
      refine ⟨hlt, fun m hm => ?_⟩
      by_cases hm2 : m < 2
      · exact Or.inl hm2
      · rw [hlevel m (by omega)]
        exact hord m hm
    · rw [hlevel n (BddState.live_iff.mp hn).1] at hterm
      obtain ⟨v, hv⟩ := hg.value n (hlive n hn) hterm
      refine ⟨v, ?_⟩
      rw [hkey n hn, ← hv]
      exact BddState.getvalue_congr (s := s) (T := s'.terminals) fun _ => by rw [ha.terminals]
    · obtain ⟨hcheck, hdiff⟩ := hg.reduced hred
      refine ⟨ha.checkSameChildren.trans hcheck, fun n hn hdec => ?_⟩
      rw [hlevel n (BddState.live_iff.mp hn).1] at hdec
      rw [hkey n hn]
      exact hdiff n (hlive n hn) hdec
  · obtain ⟨hv', ht⟩ := ha.valid k i hv
    rw [ht]
    exact S.stable s s' k _ (fun n hn => ha.same hn) ha.ok (h.cache k i hv')

/-- A change of a node's reference count, for a node that is there. -/
theorem sameTable_refcou {flight : List ℕ} (h : TableInv D isPrime flight s) {n c : ℕ}
    (hn : s.IsNode n) : SameTable s (s.setNode n { s.bddnodes n with refcou := c }) := by
  have hbody : ∀ m, ((s.setNode n { s.bddnodes n with refcou := c }).bddnodes m) =
      if m = n then { s.bddnodes n with refcou := c } else s.bddnodes m := fun m =>
    Function.update_apply ..
  have hkey : ∀ m, (s.setNode n { s.bddnodes n with refcou := c }).key m = s.key m := by
    intro m
    unfold BddState.key
    rw [hbody]
    split
    · rename_i hm
      rw [hm]
      rfl
    · rfl
  refine ⟨fun m _ => hkey m, fun m _ => ?_, fun m hm => ?_, fun m => ?_, links_setNode s rfl rfl,
    rfl, rfl, h.caches⟩
  · rw [hkey m]
    exact h.level m
  · by_cases hmn : m = n
    · rw [hmn]
      exact hn
    · rw [hbody, if_neg hmn] at hm
      exact h.refcou m hm
  · rw [hbody]
    split
    · rename_i hm
      rw [hm]
    · rfl

theorem alike_refcou {flight : List ℕ} (h : TableInv D isPrime flight s)
    (hg : ∀ n ∈ s.bddrefstack, s.IsNode n) {n c : ℕ} (hn : s.IsNode n) :
    Alike s (s.setNode n { s.bddnodes n with refcou := c }) :=
  ⟨sameTable_refcou h hn, rfl, id, fun _ _ hv => ⟨hv, rfl⟩, hg⟩

/-! ## The variables -/

/-- A decision node that is never freed. -/
structure Pinned (s : BddState P) (n level low high : ℕ) : Prop where
  live : s.live n = true
  key : s.key n = ⟨some low, high, level⟩
  refcou : (s.bddnodes n).refcou = maxref

/-- The order of the variables, and their nodes. -/
structure OrderInv (s : BddState P) : Prop where
  level : ∀ v < s.env.bddvarnum, s.env.bddvar2level v < s.env.bddvarnum ∧
    s.env.bddlevel2var (s.env.bddvar2level v) = v
  var : ∀ l < s.env.bddvarnum, s.env.bddlevel2var l < s.env.bddvarnum ∧
    s.env.bddvar2level (s.env.bddlevel2var l) = l
  pos : ∀ v < s.env.bddvarnum, Pinned s (s.env.bddvarset (2 * v)) (s.env.bddvar2level v) 0 1
  neg : ∀ v < s.env.bddvarnum, Pinned s (s.env.bddvarset (2 * v + 1)) (s.env.bddvar2level v) 1 0

instance (s : BddState P) (n level low high : ℕ) : Decidable (Pinned s n level low high) :=
  decidable_of_iff (s.live n = true ∧ s.key n = ⟨some low, high, level⟩ ∧
    (s.bddnodes n).refcou = maxref)
    ⟨fun h => ⟨h.1, h.2.1, h.2.2⟩, fun h => ⟨h.live, h.key, h.refcou⟩⟩

instance (s : BddState P) : Decidable (OrderInv s) :=
  decidable_of_iff ((∀ v < s.env.bddvarnum, s.env.bddvar2level v < s.env.bddvarnum ∧
      s.env.bddlevel2var (s.env.bddvar2level v) = v) ∧
    (∀ l < s.env.bddvarnum, s.env.bddlevel2var l < s.env.bddvarnum ∧
      s.env.bddvar2level (s.env.bddlevel2var l) = l) ∧
    (∀ v < s.env.bddvarnum, Pinned s (s.env.bddvarset (2 * v)) (s.env.bddvar2level v) 0 1) ∧
    ∀ v < s.env.bddvarnum, Pinned s (s.env.bddvarset (2 * v + 1)) (s.env.bddvar2level v) 1 0)
    ⟨fun h => ⟨h.1, h.2.1, h.2.2.1, h.2.2.2⟩, fun h => ⟨h.level, h.var, h.pos, h.neg⟩⟩

theorem Pinned.held {n level low high : ℕ} (h : Pinned s n level low high) : s.Held n :=
  ⟨n, Or.inl (by rw [h.refcou]; decide), .refl h.live⟩

theorem Pinned.evo {n level low high : ℕ} (h : Pinned s n level low high) (he : Evo D s s') :
    Pinned s' n level low high := by
  have hsame := he.same n h.held
  exact ⟨hsame.live h.live, hsame.key.trans h.key,
    (he.refcou n (BddState.live_iff.mp h.live).1).trans h.refcou⟩

theorem OrderInv.evo (h : OrderInv s) (he : Evo D s s') : OrderInv s' := by
  constructor
  · rw [he.env]
    exact h.level
  · rw [he.env]
    exact h.var
  · rw [he.env]
    exact fun v hv => (h.pos v hv).evo he
  · rw [he.env]
    exact fun v hv => (h.neg v hv).evo he

/-- The order only depends on the nodes of the variables. -/
theorem OrderInv.congr (h : OrderInv s) (hnum : s'.env.bddvarnum = s.env.bddvarnum)
    (hset : s'.env.bddvarset = s.env.bddvarset)
    (hlevel : s'.env.bddvar2level = s.env.bddvar2level)
    (hvar : s'.env.bddlevel2var = s.env.bddlevel2var)
    (hpin : ∀ {n level low high}, Pinned s n level low high → Pinned s' n level low high) :
    OrderInv s' := by
  constructor
  · rw [hnum, hlevel, hvar]
    exact h.level
  · rw [hnum, hlevel, hvar]
    exact h.var
  · rw [hnum, hset, hlevel]
    exact fun v hv => hpin (h.pos v hv)
  · rw [hnum, hset, hlevel]
    exact fun v hv => hpin (h.neg v hv)

/-! ## `bdd_setvarnum` -/

/-- Saturating a count keeps the nodes. -/
theorem saturate_pinned {n m level low high : ℕ} (h : Pinned s n level low high) :
    Pinned (s.saturate m) n level low high := by
  have hkey : ∀ k, (s.saturate m).key k = s.key k := by
    intro k
    unfold BddState.key BddState.saturate BddState.setNode
    dsimp only
    rw [Function.update_apply]
    split
    · rename_i hk
      rw [hk]
      rfl
    · rfl
  refine ⟨(BddState.live_congr (hkey n)).trans h.live, (hkey n).trans h.key, ?_⟩
  unfold BddState.saturate BddState.setNode
  dsimp only
  rw [Function.update_apply]
  split
  · rfl
  · exact h.refcou

theorem saturate_self {n level low high : ℕ} (hl : s.live n = true)
    (hkey : s.key n = ⟨some low, high, level⟩) : Pinned (s.saturate n) n level low high := by
  have hself : (s.saturate n).bddnodes n = { s.bddnodes n with refcou := maxref } :=
    Function.update_self ..
  have hk : (s.saturate n).key n = s.key n := by
    unfold BddState.key
    rw [hself]
    rfl
  refine ⟨(BddState.live_congr hk).trans hl, hk.trans hkey, ?_⟩
  rw [hself]

theorem Core.saturate (h : Core S s) {n : ℕ} (hn : s.IsNode n) : Core S (s.saturate n) := by
  obtain ⟨flight, hi, -⟩ := h.table
  exact h.alike (alike_refcou hi h.graph.stack hn)

/-- Changing the environment or telling errors leaves the diagram alone. -/
theorem Core.alike_rest (h : Core S s) (env : BddEnv) (errors : List BddError) :
    Alike s { s with
      env := env
      errors := errors } := by
  obtain ⟨flight, hi, -⟩ := h.table
  exact ⟨⟨fun _ _ => rfl, fun n _ => hi.level n, hi.refcou, fun _ => rfl, rfl, rfl, rfl,
    hi.caches⟩, rfl, id, fun _ _ hv => ⟨hv, rfl⟩, h.graph.stack⟩

theorem Core.withEnv (h : Core S s) (env : BddEnv) : Core S { s with env := env } :=
  h.alike (h.alike_rest env s.errors)

/-- A decision on top of the constants. -/
theorem makenode_const (hs : Core S s) {v a b : ℕ} (hv : v < S.top) (ha : a < 2) (hb : b < 2)
    (hab : a ≠ b) :
    Core S (bddMakenode S.D S.isPrime s v a b).2 ∧
      Evo S.D s (bddMakenode S.D S.isPrime s v a b).2 ∧
      (bddMakenode S.D S.isPrime s v a b).2.bddrefstack = s.bddrefstack ∧
      ((bddMakenode S.D S.isPrime s v a b).2.Ok →
        (bddMakenode S.D S.isPrime s v a b).2.live (bddMakenode S.D S.isPrime s v a b).1 = true ∧
        (bddMakenode S.D S.isPrime s v a b).2.key (bddMakenode S.D S.isPrime s v a b).1 =
          ⟨some a, b, v⟩) := by
  obtain ⟨hcore, flight, hm⟩ := bddMakenode_core hs hv fun m hmem => by
    rcases List.mem_pair.mp hmem with rfl | rfl
    · exact ⟨Or.inl ha, Or.inl ha⟩
    · exact ⟨Or.inl hb, Or.inl hb⟩
  generalize bddMakenode S.D S.isPrime s v a b = r at hcore hm ⊢
  refine ⟨hcore, hm.evo, hm.refstack, fun hok => ?_⟩
  cases hm.outcome with
  | skip _ _ same _ _ => exact absurd same hab
  | full _ errorcond =>
    rw [show r.2.bdderrorcond = false from hok] at errorcond
    exact absurd errorcond Bool.false_ne_true
  | node _ live key _ _ => exact ⟨live, key⟩

/-- The next variable is entered at the next level. -/
theorem addVar_spec (hs : Core S s) (ho : OrderInv s) {pos neg : ℕ} (hlp : s.live pos = true)
    (hkp : s.key pos = ⟨some 0, 1, s.env.bddvarnum⟩) (hln : s.live neg = true)
    (hkn : s.key neg = ⟨some 1, 0, s.env.bddvarnum⟩) :
    Core S (s.addVar pos neg) ∧ OrderInv (s.addVar pos neg) := by
  have hp : Pinned ((s.saturate pos).saturate neg) pos s.env.bddvarnum 0 1 :=
    saturate_pinned (saturate_self hlp hkp)
  have hc1 : Core S (s.saturate pos) := hs.saturate (Or.inr hlp)
  have hsame := alike_refcou hs.table.choose_spec.1 hs.graph.stack (c := maxref)
    (show s.IsNode pos from Or.inr hlp)
  have hln' : (s.saturate pos).live neg = true := (hsame.live neg).trans hln
  have hkn' : (s.saturate pos).key neg = ⟨some 1, 0, s.env.bddvarnum⟩ :=
    (hsame.key neg (BddState.live_iff.mp hln).1).trans hkn
  have hn : Pinned ((s.saturate pos).saturate neg) neg s.env.bddvarnum 1 0 :=
    saturate_self hln' hkn'
  refine ⟨(hc1.saturate (Or.inr hln')).withEnv _, ?_⟩
  have hpin : ∀ {n level low high}, Pinned s n level low high →
      Pinned (s.addVar pos neg) n level low high := fun h =>
    have h' := saturate_pinned (m := neg) (saturate_pinned (m := pos) h)
    ⟨h'.live, h'.key, h'.refcou⟩
  have hset : ∀ i, (s.addVar pos neg).env.bddvarset i =
      if i = 2 * s.env.bddvarnum + 1 then neg else if i = 2 * s.env.bddvarnum then pos
      else s.env.bddvarset i := fun i => by
    show Function.update (Function.update _ _ _) _ _ i = _
    rw [Function.update_apply, Function.update_apply]
    rfl
  have hlevel : ∀ v, (s.addVar pos neg).env.bddvar2level v =
      if v = s.env.bddvarnum then s.env.bddvarnum else s.env.bddvar2level v := fun v =>
    Function.update_apply ..
  have hvar : ∀ l, (s.addVar pos neg).env.bddlevel2var l =
      if l = s.env.bddvarnum then s.env.bddvarnum else s.env.bddlevel2var l := fun l =>
    Function.update_apply ..
  have hnum : (s.addVar pos neg).env.bddvarnum = s.env.bddvarnum + 1 := rfl
  constructor
  · intro v hv
    rw [hnum] at hv ⊢
    rw [hlevel]
    by_cases hvn : v = s.env.bddvarnum
    · rw [if_pos hvn, hvar, if_pos rfl]
      exact ⟨Nat.lt_succ_self _, hvn.symm⟩
    · obtain ⟨hlt, hinv⟩ := ho.level v (by omega)
      rw [if_neg hvn, hvar, if_neg (Nat.ne_of_lt hlt)]
      exact ⟨Nat.lt_succ_of_lt hlt, hinv⟩
  · intro l hl
    rw [hnum] at hl ⊢
    rw [hvar]
    by_cases hln : l = s.env.bddvarnum
    · rw [if_pos hln, hlevel, if_pos rfl]
      exact ⟨Nat.lt_succ_self _, hln.symm⟩
    · obtain ⟨hlt, hinv⟩ := ho.var l (by omega)
      rw [if_neg hln, hlevel, if_neg (Nat.ne_of_lt hlt)]
      exact ⟨Nat.lt_succ_of_lt hlt, hinv⟩
  · intro v hv
    rw [hnum] at hv
    rw [hset, hlevel, if_neg (by omega)]
    by_cases hvn : v = s.env.bddvarnum
    · rw [if_pos (by omega), if_pos hvn]
      exact ⟨hp.live, hp.key, hp.refcou⟩
    · rw [if_neg (by omega), if_neg hvn]
      exact hpin (ho.pos v (by omega))
  · intro v hv
    rw [hnum] at hv
    rw [hset, hlevel]
    by_cases hvn : v = s.env.bddvarnum
    · rw [if_pos (by omega), if_pos hvn]
      exact ⟨hn.live, hn.key, hn.refcou⟩
    · rw [if_neg (by omega), if_neg (by omega), if_neg hvn]
      exact hpin (ho.neg v (by omega))

/-- What adding variables leaves alone: held nodes with their references, and the variables that
there were. -/
structure Grows (D : MtbddDomain P) (s s' : BddState P) : Prop where
  held : ∀ n, s.Held n → s'.Held n
  same : ∀ n, s.Held n → SameNode D s s' n
  refcou : ∀ n, 2 ≤ n → maxref ≤ (s'.bddnodes n).refcou ∨
    (s.bddnodes n).refcou ≤ (s'.bddnodes n).refcou
  varnum : s.env.bddvarnum ≤ s'.env.bddvarnum
  old : ∀ k < s.env.bddvarnum, s'.env.bddlevel2var k = s.env.bddlevel2var k ∧
    s'.env.bddvar2level k = s.env.bddvar2level k
  new : ∀ l, s.env.bddvarnum ≤ l → l < s'.env.bddvarnum → s'.env.bddlevel2var l = l

theorem Grows.refl (s : BddState P) : Grows D s s :=
  ⟨fun _ h => h, fun n _ => .refl s n, fun _ _ => Or.inr (Nat.le_refl _), Nat.le_refl _,
    fun _ _ => ⟨rfl, rfl⟩, fun _ hl hl' => absurd hl' (Nat.not_lt.mpr hl)⟩

theorem Grows.trans {s'' : BddState P} (h : Grows D s s') (h' : Grows D s' s'') :
    Grows D s s'' := by
  refine ⟨fun n hn => h'.held n (h.held n hn), fun n hn => (h.same n hn).trans
    (h'.same n (h.held n hn)), fun n hn => ?_, h.varnum.trans h'.varnum, fun k hk => ?_,
    fun l hl hl'' => ?_⟩
  · rcases h'.refcou n hn with h2 | h2
    · exact Or.inl h2
    · rcases h.refcou n hn with h1 | h1
      · exact Or.inl (h1.trans h2)
      · exact Or.inr (h1.trans h2)
  · obtain ⟨h1, h2⟩ := h.old k hk
    obtain ⟨h1', h2'⟩ := h'.old k (Nat.lt_of_lt_of_le hk h.varnum)
    exact ⟨h1'.trans h1, h2'.trans h2⟩
  · by_cases hl' : l < s'.env.bddvarnum
    · rw [(h'.old l hl').1, h.new l hl hl']
    · exact h'.new l (Nat.not_lt.mp hl') hl''

theorem Evo.grows (h : Evo D s s') : Grows D s s' := by
  refine ⟨h.held, h.same, fun n hn => Or.inr (h.refcou n hn).ge, by rw [h.env],
    fun k _ => by rw [h.env]; exact ⟨rfl, rfl⟩, fun l hl hl' => ?_⟩
  rw [h.env] at hl'
  exact absurd hl' (Nat.not_lt.mpr hl)

theorem grows_saturate (s : BddState P) (n : ℕ) : Grows D s (s.saturate n) := by
  have hnode : ∀ m, (s.saturate n).bddnodes m =
      if m = n then { s.bddnodes n with refcou := maxref } else s.bddnodes m := fun m =>
    Function.update_apply ..
  have hkey : ∀ m, (s.saturate n).key m = s.key m := by
    intro m
    unfold BddState.key
    rw [hnode]
    split
    · rename_i hm
      rw [hm]
      rfl
    · rfl
  refine ⟨fun m hm => BddState.Held.congr (fun k _ => hkey k) (fun r hr hl => ⟨r, ?_, .refl ?_⟩) hm,
    fun m _ => ⟨hkey m, fun _ _ => rfl⟩, fun m _ => ?_, Nat.le_refl _, fun _ _ => ⟨rfl, rfl⟩,
    fun l hl hl' => absurd hl' (Nat.not_lt.mpr hl)⟩
  · rcases hr with hr | hr
    · left
      rw [hnode]
      split
      · exact Nat.succ_pos _
      · exact hr
    · exact Or.inr hr
  · exact (BddState.live_congr (hkey r)).trans hl
  · rw [hnode]
    split
    · exact Or.inl (Nat.le_refl _)
    · exact Or.inr (Nat.le_refl _)

/-- The next variable is at the next level. -/
theorem grows_addVar (s : BddState P) (pos neg : ℕ) : Grows D s (s.addVar pos neg) := by
  have h := (grows_saturate s pos).trans (grows_saturate (D := D) (s.saturate pos) neg)
  refine ⟨fun n hn => ?_, fun n hn => ⟨(h.same n hn).key, (h.same n hn).value⟩, h.refcou,
    Nat.le_succ _, fun k hk => ?_, fun l hl hl' => ?_⟩
  · exact @BddState.Held.keep P ((s.saturate pos).saturate neg) (s.addVar pos neg)
      (fun _ _ => rfl) (fun _ _ => rfl) (List.Subset.refl _) n (h.held n hn)
  · exact ⟨Function.update_of_ne (Nat.ne_of_lt hk) _ _, Function.update_of_ne (Nat.ne_of_lt hk) _ _⟩
  · have heq : l = s.env.bddvarnum := Nat.le_antisymm (Nat.le_of_lt_succ hl') hl
    rw [heq]
    exact Function.update_self ..

/-- The loop of `bdd_setvarnum` keeps the diagram, and enters variables in the order of their
numbers. -/
theorem addVars_spec {bdv k : ℕ} (hs : Core S s) (ho : OrderInv s) (hst : s.bddrefstack = [])
    (hk : s.env.bddvarnum + k ≤ S.top)
    (hok : (addVars S.D S.isPrime bdv k s).2.Ok) :
    (addVars S.D S.isPrime bdv k s).1 = true ∧ Core S (addVars S.D S.isPrime bdv k s).2 ∧
      OrderInv (addVars S.D S.isPrime bdv k s).2 ∧ s.Ok ∧
      (addVars S.D S.isPrime bdv k s).2.env.bddvarnum = s.env.bddvarnum + k ∧
      (addVars S.D S.isPrime bdv k s).2.bddrefstack = [] ∧
      Grows S.D s (addVars S.D S.isPrime bdv k s).2 := by
  induction k generalizing s with
  | zero => exact ⟨rfl, hs, ho, hok, rfl, hst, .refl s⟩
  | succ k ih =>
    have hv : s.env.bddvarnum < S.top := by omega
    unfold addVars at hok ⊢
    dsimp only at hok ⊢
    obtain ⟨hc1, he1, hst1, hpos⟩ := makenode_const hs hv (by decide : 0 < 2) (by decide : 1 < 2)
      (by decide)
    generalize bddMakenode S.D S.isPrime s s.env.bddvarnum 0 1 = r1 at hok hc1 he1 hst1 hpos ⊢
    obtain ⟨pos, s1⟩ := r1
    dsimp only at hok hc1 he1 hst1 hpos ⊢
    -- nothing was reported before the second node if nothing was reported after it
    have hback : (bddMakenode S.D S.isPrime (s1.pushref pos) s.env.bddvarnum 1 0).2.Ok →
        s1.Ok := by
      obtain ⟨flight, hi, -⟩ := hc1.table
      have hmax : maxlevel < 2 ^ 21 := by decide
      have htop := S.top_le
      exact (bddMakenode_spec (hi.restack (pos :: s1.bddrefstack)) (by omega)
        (Or.inl (by omega)) (fun h => absurd h (by omega))).evo.ok
    by_cases herr : (bddMakenode S.D S.isPrime (s1.pushref pos) s.env.bddvarnum 1 0).2.Ok
    · have hok1 := hback herr
      obtain ⟨hlp, hkp⟩ := hpos hok1
      have hc1' : Core S (s1.pushref pos) := hc1.restack fun m hm => by
        rcases List.mem_cons.mp hm with rfl | hm
        · exact Or.inr hlp
        · exact hc1.graph.stack m hm
      obtain ⟨hc2, he2, hst2, hneg⟩ := makenode_const hc1' hv (by decide : 1 < 2)
        (by decide : 0 < 2) (by decide)
      generalize bddMakenode S.D S.isPrime (s1.pushref pos) s.env.bddvarnum 1 0 = r2
        at hok herr hc2 he2 hst2 hneg ⊢
      obtain ⟨neg, s2⟩ := r2
      dsimp only at hok herr hc2 he2 hst2 hneg ⊢
      obtain ⟨hln, hkn⟩ := hneg herr
      have hstack : s2.bddrefstack = [pos] := by
        rw [hst2]
        show pos :: s1.bddrefstack = [pos]
        rw [hst1, hst]
      have hheld : (s1.pushref pos).Held pos := ⟨pos, Or.inr List.mem_cons_self, .refl hlp⟩
      have hsame := he2.same pos hheld
      have henv : s2.env = s.env := he2.env.trans he1.env
      have hpop : s2.popref 1 = { s2 with bddrefstack := [] } := by
        unfold BddState.popref
        rw [hstack]
        rfl
      rw [hpop] at hok ⊢
      have hno : ({ s2 with bddrefstack := [] } : BddState P).bdderrorcond = false := herr
      rw [if_neg (by rw [hno]; exact Bool.false_ne_true)] at hok ⊢
      have hc3 : Core S { s2 with bddrefstack := [] } :=
        hc2.restack fun m hm => absurd hm List.not_mem_nil
      have ho3 : OrderInv ({ s2 with bddrefstack := [] } : BddState P) :=
        (ho.evo (he1.trans ((Evo.pushref s1 pos).trans he2))).congr rfl rfl rfl rfl
          fun h => ⟨h.live, h.key, h.refcou⟩
      obtain ⟨hc4, ho4⟩ := addVar_spec hc3 ho3 (hsame.live hlp)
        (by rw [henv]; exact hsame.key.trans hkp) hln (by rw [henv]; exact hkn)
      have hnum : (({ s2 with bddrefstack := [] } : BddState P).addVar pos neg).env.bddvarnum =
          s.env.bddvarnum + 1 := by
        show s2.env.bddvarnum + 1 = _
        rw [henv]
      obtain ⟨h1, h2, h3, -, h5, h6, h7⟩ := ih hc4 ho4 rfl (by rw [hnum]; omega) hok
      have hevo : Evo S.D s { s2 with bddrefstack := [] } :=
        (he1.trans ((Evo.pushref s1 pos).trans he2)).restack (by rw [hst]; exact List.Subset.refl _)
      exact ⟨h1, h2, h3, he1.ok hok1, by rw [h5, hnum]; omega, h6,
        hevo.grows.trans ((grows_addVar _ pos neg).trans h7)⟩
    · generalize bddMakenode S.D S.isPrime (s1.pushref pos) s.env.bddvarnum 1 0 = r2
        at hok herr
      obtain ⟨neg, s2⟩ := r2
      dsimp only at hok herr
      have hcond : (s2.popref 1).bdderrorcond = true := by
        have hne : ¬ s2.bdderrorcond = false := herr
        rw [Bool.not_eq_false] at hne
        exact hne
      rw [if_pos hcond] at hok
      exact absurd (hcond.symm.trans hok) Bool.false_ne_true.symm

/-- More levels do not matter to the nodes there are. -/
theorem Core.mono {T : Theory P} {a b : ℕ} {ha : a ≤ maxlevel} (h : Core (T.setting a ha) s)
    (hab : a ≤ b) (hb : b ≤ maxlevel) : Core (T.setting b hb) s := by
  have hg := h.graph
  refine ⟨h.table, ⟨hg.child, fun n hn hdec => ?_, hg.value, hg.reduced, hg.stack⟩, h.cache⟩
  obtain ⟨hlt, hord⟩ := hg.order n hn hdec
  exact ⟨Nat.lt_of_lt_of_le hlt hab, hord⟩

/-- The nodes after `bdd_setvarnum` set the level of the constants. -/
theorem finishVars_bddnodes (s : BddState P) (num n : ℕ) : (s.finishVars num).bddnodes n =
    if n < 2 then { s.bddnodes n with level := num } else s.bddnodes n := by
  show Function.update (Function.update s.bddnodes 0 _) 1 _ n = _
  rw [Function.update_apply, Function.update_apply]
  by_cases h1 : n = 1
  · rw [if_pos h1, if_pos (by omega), h1]
    rfl
  · by_cases h0 : n = 0
    · rw [if_neg h1, if_pos h0, if_pos (by omega), h0]
    · rw [if_neg h1, if_neg h0, if_neg (by omega)]

theorem finishVars_level {num n : ℕ} (hn : n < 2) : (s.finishVars num).level n = num := by
  unfold BddState.level
  rw [finishVars_bddnodes, if_pos hn]

theorem finishVars_key {num n : ℕ} (hn : 2 ≤ n) : (s.finishVars num).key n = s.key n := by
  unfold BddState.key
  rw [finishVars_bddnodes, if_neg (by omega)]

theorem finishVars_sameTable {flight : List ℕ} (h : TableInv D isPrime flight s) {num : ℕ}
    (hnum : num < 2 ^ 21) : SameTable s (s.finishVars num) := by
  have hlinks : (s.finishVars num).links = s.links := by
    let s1 : BddState P := s.setNode 0 { s.bddnodes 0 with level := num }
    have h1 : s1.links = s.links := links_setNode s rfl rfl
    have h2 : (s1.setNode 1 { s1.bddnodes 1 with level := num }).links = s1.links :=
      links_setNode s1 rfl rfl
    exact h2.trans h1
  refine ⟨fun n hn => finishVars_key hn, fun n hn => ?_, fun n hn => ?_, fun n => ?_, hlinks, rfl,
    rfl, fun k => ?_⟩
  · show (s.finishVars num).level n < 2 ^ 21
    rw [finishVars_level hn]
    exact hnum
  · rw [finishVars_bddnodes] at hn
    by_cases h2 : n < 2
    · exact Or.inl h2
    · rw [if_neg h2] at hn
      exact h.refcou n hn
  · rw [finishVars_bddnodes]
    split <;> rfl
  · show (Function.update s.caches .misc (s.caches .misc).reset k).Inv
    rw [Function.update_apply]
    split
    · exact (h.caches .misc).reset
    · exact h.caches k

theorem finishVars_spec {num : ℕ} (hs : Core S s) (ho : OrderInv s)
    (hnum : s.env.bddvarnum = num) (hle : num ≤ maxlevel) :
    Core S (s.finishVars num) ∧ OrderInv (s.finishVars num) ∧
      ∀ n, n < 2 → (s.finishVars num).level n = num := by
  obtain ⟨flight, hi, -⟩ := hs.table
  have hmax : maxlevel < 2 ^ 21 := by decide
  have halike : Alike s (s.finishVars num) := by
    refine ⟨finishVars_sameTable hi (by omega), rfl, id, fun k i hv => ?_, hs.graph.stack⟩
    have hcache : (s.finishVars num).caches k =
        if k = .misc then (s.caches .misc).reset else s.caches k := Function.update_apply ..
    rw [hcache] at hv ⊢
    split at hv
    · rw [(hi.caches .misc).reset_isValid i] at hv
      exact absurd hv Bool.false_ne_true
    · rename_i hk
      rw [if_neg hk]
      exact ⟨hv, rfl⟩
  have hpin : ∀ {n level low high}, Pinned s n level low high →
      Pinned (s.finishVars num) n level low high := by
    intro n level low high h
    have h2 := (BddState.live_iff.mp h.live).1
    refine ⟨(halike.live n).trans h.live, (finishVars_key h2).trans h.key, ?_⟩
    rw [finishVars_bddnodes, if_neg (by omega)]
    exact h.refcou
  refine ⟨hs.alike halike, ⟨fun v hv => ?_, fun l hl => ?_, fun v hv => ?_, fun v hv => ?_⟩,
    fun n hn => finishVars_level hn⟩
  · have hv' : v < s.env.bddvarnum := hv
    obtain ⟨hlt, hinv⟩ := ho.level v hv'
    have hlev : (s.finishVars num).env.bddvar2level v = s.env.bddvar2level v :=
      Function.update_of_ne (by omega) _ _
    have hvar : (s.finishVars num).env.bddlevel2var (s.env.bddvar2level v) =
        s.env.bddlevel2var (s.env.bddvar2level v) := Function.update_of_ne (by omega) _ _
    rw [hlev, hvar]
    exact ⟨hlt, hinv⟩
  · have hl' : l < s.env.bddvarnum := hl
    obtain ⟨hlt, hinv⟩ := ho.var l hl'
    have hvar : (s.finishVars num).env.bddlevel2var l = s.env.bddlevel2var l :=
      Function.update_of_ne (by omega) _ _
    have hlev : (s.finishVars num).env.bddvar2level (s.env.bddlevel2var l) =
        s.env.bddvar2level (s.env.bddlevel2var l) := Function.update_of_ne (by omega) _ _
    rw [hvar, hlev]
    exact ⟨hlt, hinv⟩
  · have hv' : v < s.env.bddvarnum := hv
    have hlev : (s.finishVars num).env.bddvar2level v = s.env.bddvar2level v :=
      Function.update_of_ne (by omega) _ _
    rw [hlev]
    exact hpin (ho.pos v hv')
  · have hv' : v < s.env.bddvarnum := hv
    have hlev : (s.finishVars num).env.bddvar2level v = s.env.bddvar2level v :=
      Function.update_of_ne (by omega) _ _
    rw [hlev]
    exact hpin (ho.neg v hv')

/-! ## Well-formed sessions -/

/-- No mark of a variable set is from a later call. -/
def MarksInv (s : BddState P) (top : ℕ) : Prop :=
  0 ≤ s.env.quantvarsetID ∧ s.env.quantvarsetID < intMax ∧
    ∀ k < top, s.env.quantvarset k ≤ s.env.quantvarsetID

/-- What holds between any two calls, as long as nothing was reported. -/
structure Good (T : Theory P) (s : BddState P) : Prop where
  num : s.env.bddvarnum ≤ maxlevel
  inv : Inv (T.setting s.env.bddvarnum num) s
  marks : MarksInv s s.env.bddvarnum
  order : OrderInv s

theorem bddInit_good {T : Theory P} (cachesize : ℕ) {size : ℕ} (hsize : GoodSize T.isPrime size) :
    Good T (bddInit size cachesize) := by
  have hlive := fun n => bddInit_live (P := P) size cachesize n
  have hdead : ∀ n, (bddInit size cachesize : BddState P).live n ≠ true := fun n => by
    rw [hlive n]
    exact Bool.false_ne_true
  refine ⟨Nat.zero_le _, ⟨⟨⟨[], bddInit_tableInv hsize cachesize, fun _ => rfl⟩,
    ⟨fun n hn => absurd hn (hdead n), fun n hn => absurd hn (hdead n),
      fun n hn => absurd hn (hdead n), fun _ => ⟨rfl, fun n hn => absurd hn (hdead n)⟩,
      fun n hn => absurd hn List.not_mem_nil⟩,
    fun k i hv => absurd hv Bool.false_ne_true⟩, fun n _ => Nat.zero_le _⟩,
    ⟨Int.le_refl 0, show (0 : ℤ) < intMax by decide, fun _ _ => Int.le_refl 0⟩,
    fun v hv => absurd hv (Nat.not_lt_zero v), fun v hv => absurd hv (Nat.not_lt_zero v),
    fun v hv => absurd hv (Nat.not_lt_zero v), fun v hv => absurd hv (Nat.not_lt_zero v)⟩

/-- A change that leaves the nodes, the levels of the constants and the variables alone. -/
theorem Good.alike {T : Theory P} (h : Good T s) (ha : Alike s s')
    (hnum : s'.env.bddvarnum = s.env.bddvarnum) (hconst : ∀ n, n < 2 → s'.level n = s.level n)
    (hmarks : MarksInv s' s.env.bddvarnum) (horder : OrderInv s') : Good T s' := by
  have hle : s'.env.bddvarnum ≤ maxlevel := hnum ▸ h.num
  refine ⟨hle, ⟨(h.inv.toCore.alike ha).mono (Nat.le_of_eq hnum.symm) hle, fun n hn => ?_⟩,
    by rw [hnum]; exact hmarks, horder⟩
  rw [hconst n hn]
  exact Nat.le_trans (Nat.le_of_eq hnum) (h.inv.top n hn)

/-- What operations leave alone keeps sessions well formed. -/
theorem Good.evo {T : Theory P} (h : Good T s)
    (hc : Core (T.setting s.env.bddvarnum h.num) s') (he : Evo T.D s s') : Good T s' := by
  have hnum : s'.env.bddvarnum = s.env.bddvarnum := by rw [he.env]
  have hle : s'.env.bddvarnum ≤ maxlevel := hnum ▸ h.num
  refine ⟨hle, ⟨hc.mono (Nat.le_of_eq hnum.symm) hle, fun n hn => ?_⟩, ?_, h.order.evo he⟩
  · exact Nat.le_trans (Nat.le_of_eq hnum) (he.top h.inv.top n hn)
  · have hm := h.marks
    unfold MarksInv at hm ⊢
    rw [he.env]
    exact hm

/-- Any nodes may be on the reference stack. -/
theorem Good.restack {T : Theory P} (h : Good T s) {l : List ℕ} (hl : ∀ n ∈ l, s.IsNode n) :
    Good T { s with bddrefstack := l } :=
  ⟨h.num, h.inv.restack hl, h.marks,
    h.order.congr rfl rfl rfl rfl fun hp => ⟨hp.live, hp.key, hp.refcou⟩⟩

/-- Telling an error changes nothing else. -/
theorem Good.error {T : Theory P} (h : Good T s) (e : BddError) : Good T (s.error e) := by
  refine h.alike (h.inv.toCore.alike_rest s.env (e :: s.errors)) rfl (fun _ _ => rfl) h.marks ?_
  exact h.order.congr rfl rfl rfl rfl fun hp => ⟨hp.live, hp.key, hp.refcou⟩

/-- The end of `bdd_setvarnum` changes nothing else. -/
theorem grows_finishVars {num : ℕ} (hnum : s.env.bddvarnum = num) :
    Grows D s (s.finishVars num) := by
  have hsame : ∀ n, s.Held n → SameNode D s (s.finishVars num) n := fun n hn =>
    ⟨finishVars_key (BddState.live_iff.mp hn.live).1, fun _ _ => rfl⟩
  have hrefcou : ∀ n, ((s.finishVars num).bddnodes n).refcou = (s.bddnodes n).refcou := by
    intro n
    rw [finishVars_bddnodes]
    split <;> rfl
  refine ⟨fun n hn => BddState.Held.keep (fun m hm => (hsame m hm).key) (fun m _ => hrefcou m)
    (List.Subset.refl _) hn, hsame, fun n _ => Or.inr (hrefcou n).ge, Nat.le_refl _,
    fun k hk => ?_, fun l hl hl' => absurd hl' (Nat.not_lt.mpr hl)⟩
  have hne : k ≠ num := by omega
  exact ⟨Function.update_of_ne hne _ _, Function.update_of_ne hne _ _⟩

theorem grows_error (s : BddState P) (e : BddError) : Grows D s.initref (s.error e).initref :=
  ⟨fun n hn => @BddState.Held.keep P s.initref (s.error e).initref (fun _ _ => rfl)
    (fun _ _ => rfl) (List.Subset.refl _) n hn, fun _ _ => ⟨rfl, fun _ _ => rfl⟩,
    fun _ _ => Or.inr (Nat.le_refl _), Nat.le_refl _, fun _ _ => ⟨rfl, rfl⟩,
    fun _ hl hl' => absurd hl' (Nat.not_lt.mpr hl)⟩

/-- What `bdd_setvarnum` does if nothing is reported: the session stays well formed, and either it
only told an error, or there are new variables with the constants below them. -/
structure SetvarnumSpec (T : Theory P) (s s' : BddState P) : Prop where
  ok : s.Ok
  good : Good T s'
  grows : Grows T.D s.initref s'.initref
  cases : s'.env = s.env ∧ (∀ n, n < 2 → s'.level n = s.level n) ∨
    s.env.bddvarnum < s'.env.bddvarnum ∧ (∀ n, n < 2 → s'.level n = s'.env.bddvarnum) ∧
      s'.env.quantvarset = (fun _ => 0) ∧ s'.env.quantvarsetID = 0 ∧
      ∀ i, (s'.caches .misc).isValid i = false

theorem bddSetvarnum_spec {T : Theory P} (h : Good T s) (num : ℕ)
    (hok : (bddSetvarnum T.D T.isPrime s num).Ok) :
    SetvarnumSpec T s (bddSetvarnum T.D T.isPrime s num) := by
  unfold bddSetvarnum at hok ⊢
  by_cases hrange : num < 1 ∨ num ≥ maxvar
  · rw [if_pos hrange] at hok ⊢
    exact ⟨hok, h.error _, grows_error s _, Or.inl ⟨rfl, fun _ _ => rfl⟩⟩
  rw [if_neg hrange] at hok ⊢
  by_cases hless : num < s.env.bddvarnum
  · rw [if_pos hless] at hok ⊢
    exact ⟨hok, h.error _, grows_error s _, Or.inl ⟨rfl, fun _ _ => rfl⟩⟩
  rw [if_neg hless] at hok ⊢
  by_cases heq : num = s.env.bddvarnum
  · rw [if_pos heq] at hok ⊢
    exact ⟨hok, h, .refl _, Or.inl ⟨rfl, fun _ _ => rfl⟩⟩
  rw [if_neg heq] at hok ⊢
  dsimp only at hok ⊢
  rw [show s.initref.env = s.env from rfl] at hok ⊢
  have hle : num ≤ maxlevel := by
    have hmax : maxvar = maxlevel := rfl
    omega
  have hcore : Core (T.setting num hle) s.initref :=
    (h.inv.toCore.mono (by omega) hle).restack fun n hn => absurd hn List.not_mem_nil
  have horder : OrderInv s.initref :=
    h.order.congr rfl rfl rfl rfl fun hp => ⟨hp.live, hp.key, hp.refcou⟩
  have hspec := @addVars_spec P (T.setting num hle) s.initref s.env.bddvarnum
    (num - s.env.bddvarnum) hcore horder rfl (by
      show s.env.bddvarnum + _ ≤ num
      omega)
  have hT : addVars (T.setting num hle).D (T.setting num hle).isPrime s.env.bddvarnum
      (num - s.env.bddvarnum) s.initref =
      addVars T.D T.isPrime s.env.bddvarnum (num - s.env.bddvarnum) s.initref := rfl
  rw [hT] at hspec
  generalize addVars T.D T.isPrime s.env.bddvarnum (num - s.env.bddvarnum) s.initref = r
    at hok hspec ⊢
  obtain ⟨done, t⟩ := r
  cases done with
  | false =>
    dsimp only at hok hspec ⊢
    exact absurd (hspec hok).1 Bool.false_ne_true
  | true =>
    dsimp only at hok hspec ⊢
    have hokt : t.Ok := hok
    obtain ⟨-, hc, ho, hoks, hnum, hst, hgrows⟩ := hspec hokt
    have hnum' : t.env.bddvarnum = num := by
      rw [hnum]
      show s.env.bddvarnum + _ = num
      omega
    obtain ⟨hcf, hof, hlevel⟩ := finishVars_spec hc ho hnum' hle
    have hnumf : (t.finishVars num).env.bddvarnum = num := hnum'
    have hinit : (t.finishVars num).initref = t.finishVars num := by
      have hstf : (t.finishVars num).bddrefstack = [] := hst
      unfold BddState.initref
      rw [← hstf]
    refine ⟨hoks, ⟨hnumf ▸ hle, ⟨?_, fun n hn => ?_⟩, ?_, hof⟩, ?_, Or.inr ⟨?_, ?_, rfl, rfl, fun i => ?_⟩⟩
    · exact hcf.mono (Nat.le_of_eq hnumf.symm) (hnumf ▸ hle)
    · rw [hlevel n hn]
      exact Nat.le_of_eq hnumf
    · exact ⟨Int.le_refl 0, show (0 : ℤ) < intMax by decide, fun _ _ => Int.le_refl 0⟩
    · rw [hinit]
      exact hgrows.trans (grows_finishVars hnum')
    · rw [hnumf]
      omega
    · rw [hnumf]
      exact hlevel
    · have hmisc : (t.finishVars num).caches .misc = (t.caches .misc).reset := by
        show Function.update t.caches .misc _ .misc = _
        rw [Function.update_self]
        rfl
      rw [hmisc]
      obtain ⟨flight, hi, -⟩ := hc.table
      exact (hi.caches .misc).reset_isValid i

/-- There are as many variables as were asked for. -/
theorem bddSetvarnum_varnum {T : Theory P} (h : Good T s) {num : ℕ} (hnum : s.env.bddvarnum < num)
    (hmax : num < maxvar) (hok : (bddSetvarnum T.D T.isPrime s num).Ok) :
    (bddSetvarnum T.D T.isPrime s num).env.bddvarnum = num := by
  unfold bddSetvarnum at hok ⊢
  rw [if_neg (by omega), if_neg (by omega), if_neg (by omega)] at hok ⊢
  have hle : num ≤ maxlevel := hmax.le
  have hspec := @addVars_spec P (T.setting num hle) s.initref s.env.bddvarnum
    (num - s.env.bddvarnum) ((h.inv.toCore.mono hnum.le hle).restack fun n hn =>
      absurd hn List.not_mem_nil) (h.order.congr rfl rfl rfl rfl fun hp => ⟨hp.live, hp.key, hp.refcou⟩)
    rfl (show s.env.bddvarnum + _ ≤ num by omega)
  dsimp only at hok ⊢
  rw [show s.initref.env = s.env from rfl] at hok ⊢
  have hT : addVars (T.setting num hle).D (T.setting num hle).isPrime s.env.bddvarnum
      (num - s.env.bddvarnum) s.initref =
      addVars T.D T.isPrime s.env.bddvarnum (num - s.env.bddvarnum) s.initref := rfl
  rw [hT] at hspec
  generalize addVars T.D T.isPrime s.env.bddvarnum (num - s.env.bddvarnum) s.initref = r
    at hok hspec ⊢
  obtain ⟨done, t⟩ := r
  cases done with
  | false => exact absurd (hspec hok).1 Bool.false_ne_true
  | true =>
    have hsum : t.env.bddvarnum = s.env.bddvarnum + (num - s.env.bddvarnum) :=
      (hspec hok).2.2.2.2.1
    show t.env.bddvarnum = num
    omega

theorem bddSetvarnum_good {T : Theory P} (h : Good T s) (num : ℕ)
    (hok : (bddSetvarnum T.D T.isPrime s num).Ok) :
    s.Ok ∧ Good T (bddSetvarnum T.D T.isPrime s num) :=
  ⟨(bddSetvarnum_spec h num hok).ok, (bddSetvarnum_spec h num hok).good⟩

end MoToBuddy.Bdd
