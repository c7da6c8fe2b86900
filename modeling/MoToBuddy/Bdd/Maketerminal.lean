import MoToBuddy.Bdd.Setup

/-!
# `mtbdd_maketerminal`

A new terminal gets a slot for its value before it gets a node, so that a collection strikes while
the slot is held by neither. `TerminalSpec` is the contract: the table stays well formed, what the
caller holds is left alone, and the result is a terminal with the value.

If no node is to be had the slot is lost, and the index and the type are written into the node of
the constant `0`, where nothing reads them.
-/

namespace MoToBuddy.Bdd

open Chained Marking Decision Slots

variable {P : Type*} {D : MtbddDomain P} {isPrime : ℕ → Bool} {flight : List ℕ}
  {s s' : BddState P}

/-! ## Slots -/

section Slots

variable {slot : ℕ → Option ℕ} {T : Terminals P}

/-- Growing keeps the slots, and leaves one that is free. -/
theorem TermInv.grow (h : TermInv slot flight T) : TermInv slot flight T.grow ∧
    T.grow.mtbddTerminalUsed < T.grow.mtbddmaxTerminalSize ∧ T.grow.values = T.values ∧
      T.grow.log = T.log := by
  have hcount := h.pool.count
  have hroom := h.pool.room
  simp only [Terminals.pool] at hcount hroom
  -- an empty store has no returned slots
  have hempty : T.mtbddmaxTerminalSize = 0 → T.mtbddTerminalUsed = 0 ∧
      T.mtbddLastValueIndex = 0 ∧ T.top = [] := fun h0 =>
    ⟨by omega, by omega, List.length_eq_zero_iff.mp (by omega)⟩
  have hsame : ∃ room, T.mtbddmaxTerminalSize ≤ room ∧ T.mtbddTerminalUsed < room ∧
      T.grow = { T with mtbddmaxTerminalSize := room } := by
    unfold Terminals.grow
    by_cases h0 : T.mtbddmaxTerminalSize = 0
    · obtain ⟨hu, hl, ht⟩ := hempty h0
      refine ⟨initialTerminalSize, by omega, by rw [hu]; decide, ?_⟩
      rw [if_pos h0]
      dsimp only
      rw [if_neg (by rw [hu]; decide), ← hl, ← ht]
    · rw [if_neg h0]
      dsimp only
      by_cases hfull : T.mtbddTerminalUsed = T.mtbddmaxTerminalSize
      · rw [if_pos hfull]
        exact ⟨_, by omega, by omega, rfl⟩
      · rw [if_neg hfull]
        exact ⟨_, Nat.le_refl _, by omega, rfl⟩
  obtain ⟨room, hle, hlt, heq⟩ := hsame
  rw [heq]
  exact ⟨⟨h.inj, h.apart, h.value, h.pool.grow hle, h.logOk, h.filled, h.empty, h.owned⟩, hlt, rfl,
    rfl⟩

/-- `mtbdd_insertvalue` in terms of the pool. -/
theorem mtbddInsertvalue_eq (T : Terminals P) (value : P) :
    (mtbddInsertvalue T value).1 = T.grow.pool.next ∧
      (mtbddInsertvalue T value).2.pool = T.grow.pool.take ∧
      (mtbddInsertvalue T value).2.values =
        Function.update T.grow.values T.grow.pool.next (some value) ∧
      (mtbddInsertvalue T value).2.log = .insert T.grow.pool.next value :: T.grow.log := by
  unfold mtbddInsertvalue Terminals.takeIndex Pool.take Pool.next Terminals.pool
  cases htop : T.grow.top with
  | nil => exact ⟨rfl, rfl, rfl, rfl⟩
  | cons index rest => exact ⟨rfl, rfl, rfl, rfl⟩

/-- The new slot was held by nothing, and it holds the value until its node is made. -/
theorem TermInv.insertvalue (h : TermInv slot flight T) (value : P) :
    TermInv slot ((mtbddInsertvalue T value).1 :: flight) (mtbddInsertvalue T value).2 ∧
      (mtbddInsertvalue T value).1 ∉ flight ∧ (∀ n, slot n ≠ some (mtbddInsertvalue T value).1) ∧
      (mtbddInsertvalue T value).2.values =
        Function.update T.values (mtbddInsertvalue T value).1 (some value) := by
  obtain ⟨hg, hroom, hvals, hlog⟩ := h.grow
  obtain ⟨hi, hpool, hvalues, hnew⟩ := mtbddInsertvalue_eq T value
  generalize mtbddInsertvalue T value = r at hi hpool hvalues hnew ⊢
  rw [hvals] at hvalues
  rw [hlog] at hnew
  rw [← hi] at hvalues hnew
  obtain ⟨hfresh, -⟩ := hg.pool.next hroom
  rw [← hi] at hfresh
  have hnot : r.1 ∉ flight := fun hm => hfresh (Or.inr hm)
  have hslot : ∀ n, slot n ≠ some r.1 := fun n hn => hfresh (Or.inl ⟨n, hn⟩)
  have hne : ∀ i, (∃ n, slot n = some i) ∨ i ∈ flight → i ≠ r.1 := by
    rintro i hi rfl
    exact hfresh hi
  have hcases : ∀ i, ((∃ n, slot n = some i) ∨ i ∈ r.1 :: flight) ↔
      ((∃ n, slot n = some i) ∨ i ∈ flight) ∨ i = r.1 := by
    intro i
    rw [List.mem_cons]
    tauto
  refine ⟨⟨h.inj, fun n i hn => ?_, fun i hi => ?_, ?_, ?_, fun i hi => ?_, fun i hi hf => ?_,
    fun n => ?_⟩, hnot, hslot, hvalues⟩
  · rw [List.mem_cons, not_or]
    exact ⟨fun he => hslot n (he ▸ hn), h.apart n i hn⟩
  · rw [hvalues, Function.update_apply]
    split
    · rfl
    · rename_i hir
      exact h.value i (((hcases i).mp hi).resolve_right hir)
  · rw [hpool]
    exact hg.pool.take hroom fun i => by rw [hcases i, hi]
  · rw [hnew]
    exact ⟨h.empty r.1 (fun ⟨n, hn⟩ => hslot n hn) hnot, h.logOk⟩
  · rw [hnew, hvalues, Function.update_apply]
    show (if r.1 = i then some value else holder T.log i) = _
    by_cases hir : i = r.1
    · rw [if_pos hir.symm, if_pos hir]
    · rw [if_neg (Ne.symm hir), if_neg hir]
      exact h.filled i (((hcases i).mp hi).resolve_right hir)
  · rw [List.mem_cons, not_or] at hf
    rw [hnew]
    show (if r.1 = i then some value else holder T.log i) = none
    rw [if_neg (Ne.symm hf.1)]
    exact h.empty i hi hf.2
  · rw [hnew]
    show Bdd.owned T.log n = _
    rw [h.owned n]
    cases hn : slot n with
    | none => rfl
    | some i =>
      show (T.values i).map _ = (r.2.values i).map _
      rw [hvalues, Function.update_of_ne (hne i (Or.inl ⟨n, hn⟩))]

/-- The node that is made takes over the slot. -/
theorem TermInv.land {i n : ℕ} {value : P} (h : TermInv slot (i :: flight) T) (hi : i ∉ flight)
    (hslot : ∀ m, slot m ≠ some i) (hn : slot n = none) (hn0 : n ≠ 0)
    (hv : T.values i = some value) :
    TermInv (Function.update slot n (some i)) flight (T.logMade n i value) := by
  have hlog : T.logMade n i value = { T with log := .made n i value :: T.log } := if_neg hn0
  have hcases : ∀ m j, Function.update slot n (some i) m = some j →
      m = n ∧ j = i ∨ m ≠ n ∧ slot m = some j := by
    intro m j hm
    rw [Function.update_apply] at hm
    by_cases hmn : m = n
    · rw [if_pos hmn] at hm
      exact Or.inl ⟨hmn, (Option.some.inj hm).symm⟩
    · rw [if_neg hmn] at hm
      exact Or.inr ⟨hmn, hm⟩
  have hused : ∀ j, ((∃ m, Function.update slot n (some i) m = some j) ∨ j ∈ flight) ↔
      (∃ m, slot m = some j) ∨ j ∈ i :: flight := by
    intro j
    rw [List.mem_cons]
    constructor
    · rintro (⟨m, hm⟩ | hf)
      · rcases hcases m j hm with ⟨-, hj⟩ | ⟨-, hm⟩
        · exact Or.inr (Or.inl hj)
        · exact Or.inl ⟨m, hm⟩
      · exact Or.inr (Or.inr hf)
    · rintro (⟨m, hm⟩ | rfl | hf)
      · have hmn : m ≠ n := fun he => by
          rw [he, hn] at hm
          exact Option.some_ne_none j hm.symm
        exact Or.inl ⟨m, by rw [Function.update_of_ne hmn]; exact hm⟩
      · exact Or.inl ⟨n, Function.update_self ..⟩
      · exact Or.inr hf
  rw [hlog]
  refine ⟨fun m k j hm hk => ?_, fun m j hm => ?_, fun j hj => h.value j ((hused j).mp hj),
    h.pool.congr hused, ⟨?_, ?_, fun m w hm => ?_, h.logOk⟩,
    fun j hj => h.filled j ((hused j).mp hj), fun j hj hf => ?_, fun m => ?_⟩
  · rcases hcases m j hm with ⟨hmn, hji⟩ | ⟨-, hm⟩ <;> rcases hcases k j hk with ⟨hkn, hji'⟩ | ⟨-, hk⟩
    · rw [hmn, hkn]
    · exact absurd (hji ▸ hk) (hslot k)
    · exact absurd (hji' ▸ hm) (hslot m)
    · exact h.inj m k j hm hk
  · rcases hcases m j hm with ⟨-, rfl⟩ | ⟨-, hm⟩
    · exact hi
    · exact fun hf => h.apart m j hm (List.mem_cons_of_mem i hf)
  · rw [h.owned n, hn]
    rfl
  · exact (h.filled i (Or.inr List.mem_cons_self)).trans hv
  · rw [h.owned m] at hm
    cases hm' : slot m with
    | none =>
      rw [hm'] at hm
      exact Option.some_ne_none _ hm.symm
    | some j =>
      rw [hm', Option.bind_some, Option.map_eq_some_iff] at hm
      obtain ⟨v, -, heq⟩ := hm
      exact hslot m (hm'.trans (congrArg some (congrArg Prod.fst heq)))
  · have hno : ¬ ((∃ m, slot m = some j) ∨ j ∈ i :: flight) := fun hin =>
      ((hused j).mpr hin).elim hj hf
    rw [not_or] at hno
    exact h.empty j hno.1 hno.2
  · show (if n = m then some (i, value) else Bdd.owned T.log m) = _
    rw [Function.update_apply]
    by_cases hmn : m = n
    · rw [if_pos hmn.symm, if_pos hmn, Option.bind_some, hv, Option.map_some]
    · rw [if_neg (Ne.symm hmn), if_neg hmn]
      exact h.owned m

end Slots

/-! ## Nodes -/

/-- Changing the store keeps the table if it keeps the values that are in use. -/
theorem TableInv.withTerminals (h : TableInv D isPrime flight s) {flight' : List ℕ}
    {T : Terminals P} (hT : TermInv (s.slot D) flight' T)
    (hvalues : ∀ n i, s.slot D n = some i → T.values i = s.terminals.values i) :
    TableInv D isPrime flight' { s with terminals := T } := by
  refine
    { size := h.size, beyond := h.beyond, refcou := h.refcou, mark := h.mark, level := h.level,
      free := h.free, threaded := ?_, unique := h.unique, term := hT, word := h.word,
      type := h.type, termUnique := fun n m i j v w hi hj hlow hv hw => ?_,
      caches := h.caches }
  · refine h.threaded.congr (fun _ _ _ => Iff.rfl) fun n _ _ hn => ?_
    exact @BddState.bucket_congr P D s { s with terminals := T } n rfl rfl fun hlev hD =>
      hvalues n _ (BddState.slot_eq hn hlev hD)
  · have hv' : s.terminals.values i = some v := (hvalues n i hi).symm.trans hv
    have hw' : s.terminals.values j = some w := (hvalues m j hj).symm.trans hw
    exact h.termUnique n m i j v w hi hj hlow hv' hw'

/-! ## The search for a terminal -/

theorem stored_notShort (h : D.stored = true) : D.domaintype.notShort = true := by
  cases hn : D.domaintype.notShort with
  | true => rfl
  | false =>
    rw [stored_of_notShort_false hn] at h
    exact absurd h Bool.false_ne_true

/-- The comparison with a slot that holds a value. -/
theorem sameTerminal_iff (hD : D.stored = true) {T : Terminals P} {value v : P}
    {type nodetype index : ℕ} (hv : T.values index = some v) :
    sameTerminal D T value type nodetype index = true ↔
      (D.domaintype = .custom → type = nodetype) ∧ D.same type value v = true := by
  unfold MtbddDomain.stored at hD
  unfold sameTerminal MtbddDomain.same
  cases hd : D.domaintype with
  | longval | doubleval => simp [hv]
  | custom =>
    cases hc : D.comparefun type with
    | none => simp
    | some comparefun => simp [hv]
  | intval | floatval | charval | unsignedval | ldoubleval | ulongval | unset =>
    rw [hd] at hD
    exact absurd hD Bool.false_ne_true

/-- Only custom values are hashed by their type. -/
theorem terminalWords_congr {type type' : ℕ} (h : D.domaintype = .custom → type = type')
    (v : Option P) : terminalWords D type v = terminalWords D type' v := by
  unfold terminalWords
  cases hd : D.domaintype with
  | custom => rw [h hd]
  | _ => rfl

/-- The domains of the store look values up there. -/
theorem getvalue_stored (hD : D.stored = true) (high : ℕ) :
    mtbddGetvalue D s high = s.terminals.values high := by
  unfold MtbddDomain.stored at hD
  unfold mtbddGetvalue
  cases hd : D.domaintype with
  | longval | doubleval | custom => rfl
  | intval | floatval | charval | unsignedval | ldoubleval | ulongval | unset =>
    rw [hd] at hD
    exact absurd hD Bool.false_ne_true

/-- The value of a live terminal. -/
theorem TableInv.value_of_slot (h : TableInv D isPrime flight s) {n i : ℕ}
    (hn : s.slot D n = some i) : ∃ v, s.terminals.values i = some v ∧
      mtbddGetvalue D s (s.key n).high = some v := by
  obtain ⟨-, -, hD, hi⟩ := BddState.slot_live hn
  obtain ⟨v, hv⟩ := Option.isSome_iff_exists.mp (h.term.value i (Or.inl ⟨n, hn⟩))
  refine ⟨v, hv, ?_⟩
  rw [getvalue_stored hD, hi]
  exact hv

/-- A terminal is in the bucket of its value. -/
theorem bucket_terminal {n i type : ℕ} {v : P} (hn : s.slot D n = some i)
    (hv : mtbddGetvalue D s (s.key n).high = some v)
    (htype : D.domaintype = .custom → (s.key n).low = some type) :
    s.bucket D n = nodehash s.bddnodesize maxlevel (terminalWords D type (some v)).1
      (terminalWords D type (some v)).2 := by
  obtain ⟨hl, hlevel, hD, -⟩ := BddState.slot_live hn
  have hnot := stored_notShort hD
  have hv' : mtbddGetvalue D s (s.bddnodes n).high = some v := hv
  have hwords : terminalWords D ((s.bddnodes n).low.getD 0) (some v) =
      terminalWords D type (some v) :=
    terminalWords_congr (fun hc => by
      have hlow : (s.bddnodes n).low = some type := htype hc
      rw [hlow]
      rfl) _
  unfold BddState.bucket
  dsimp only
  rw [if_pos ⟨hlevel, hnot⟩, hv']
  unfold mtbddTerminalHashGbc
  rw [hwords]

/-- What `mtbdd_findterminal` finds is a terminal with the value; it finds one if there is one. -/
theorem mtbddFindterminal_spec (h : TableInv D isPrime flight s) (hD : D.stored = true)
    (value : P) (type : ℕ) :
    let res := mtbddFindterminal D s value (nodehash s.bddnodesize maxlevel
      (terminalWords D type (some value)).1 (terminalWords D type (some value)).2) type
    (res = 0 ∧ ∀ n i v, s.slot D n = some i → s.terminals.values i = some v →
        (D.domaintype = .custom → (s.key n).low = some type) →
        terminalWords D type (some value) = terminalWords D type (some v) →
        D.same type value v = false) ∨
      res ≠ 0 ∧ ∃ i v, s.slot D res = some i ∧ s.terminals.values i = some v ∧
        D.same type value v = true ∧ (D.domaintype = .custom → (s.key res).low = some type) := by
  intro res
  set b := nodehash s.bddnodesize maxlevel (terminalWords D type (some value)).1
    (terminalWords D type (some value)).2 with hb
  have hsearch : (res = 0 ∧ ∀ n, 2 ≤ n → n < s.bddnodesize → s.live n = true →
        s.bucket D n = b → terminalMatches D s value type n = false) ∨
      (res ≠ 0 ∧ 2 ≤ res ∧ res < s.bddnodesize ∧ s.live res = true ∧ s.bucket D res = b ∧
        terminalMatches D s value type res = true) :=
    h.threaded.search_spec (nodehash_lt (by have := h.size.1; omega) maxlevel _ _) _
  clear_value res
  have hmatch : ∀ n i v, s.slot D n = some i → s.terminals.values i = some v →
      (terminalMatches D s value type n = true ↔
        (D.domaintype = .custom → type = (s.bddnodes n).low.getD 0) ∧
          D.same type value v = true) := by
    intro n i v hn hv
    obtain ⟨hl, hlevel, -, hi⟩ := BddState.slot_live hn
    have hhigh : (s.bddnodes n).high = i := hi
    have hlev : (s.bddnodes n).level = maxlevel := hlevel
    have hroom : i < s.terminals.mtbddmaxTerminalSize := h.term.pool.lt_room (Or.inl ⟨n, hn⟩)
    unfold terminalMatches
    dsimp only
    rw [hhigh, hlev, decide_eq_true rfl, decide_eq_true hroom, Bool.true_and, Bool.true_and]
    exact sameTerminal_iff hD hv
  rcases hsearch with ⟨h0, hmiss⟩ | ⟨hres, -, -, hlive, -, hfound⟩
  · refine Or.inl ⟨h0, fun n i v hn hv htype hwords => ?_⟩
    obtain ⟨hl, -, -, -⟩ := BddState.slot_live hn
    obtain ⟨v', hv', hget⟩ := h.value_of_slot hn
    obtain rfl : v' = v := Option.some.inj (hv'.symm.trans hv)
    have hbucket := bucket_terminal hn hget htype
    rw [← hwords, ← hb] at hbucket
    have hno := hmiss n (BddState.live_iff.mp hl).1 (h.live_lt hl) hl hbucket
    by_contra hsame
    have htypes : D.domaintype = .custom → type = (s.bddnodes n).low.getD 0 := fun hc => by
      have hlow : (s.bddnodes n).low = some type := htype hc
      rw [hlow]
      rfl
    rw [(hmatch n i v' hn hv).mpr ⟨htypes, Bool.not_eq_false _ ▸ hsame⟩] at hno
    exact Bool.false_ne_true hno.symm
  · right
    have hlevel : (s.key res).level = maxlevel := by
      unfold terminalMatches at hfound
      simp only [Bool.and_eq_true, decide_eq_true_eq] at hfound
      exact hfound.1.1
    have hslot := BddState.slot_eq hlive hlevel hD
    obtain ⟨v, hv, -⟩ := h.value_of_slot hslot
    obtain ⟨htypes, hsame⟩ := (hmatch res _ v hslot hv).mp hfound
    refine ⟨hres, _, v, hslot, hv, hsame, fun hc => ?_⟩
    obtain ⟨-, low, hlow⟩ := BddState.live_iff.mp hlive
    have hlow' : (s.bddnodes res).low = some low := hlow
    have heq := htypes hc
    rw [hlow'] at heq
    rw [hlow, heq]
    rfl

/-! ## New terminals -/

/-- A value stands for another one as far as the domain tells. -/
def MtbddDomain.Stands (D : MtbddDomain P) (type : ℕ) (value v : P) : Prop :=
  match D.domaintype with
  | .intval | .floatval | .unsignedval => v = D.ofWord (D.word value)
  | _ => v = value ∨ D.same type value v = true

/-- Node `n` is a terminal for a value. -/
def TerminalFor (D : MtbddDomain P) (s : BddState P) (value : P) (type n : ℕ) : Prop :=
  s.live n = true ∧ (s.key n).level = maxlevel ∧ ∃ nodetype v, (s.key n).low = some nodetype ∧
    mtbddGetvalue D s (s.key n).high = some v ∧ D.Stands type value v ∧
      (D.domaintype = .custom → nodetype = type)

/-- The contract of a call that makes a terminal. -/
structure TerminalSpec (D : MtbddDomain P) (isPrime : ℕ → Bool) (flight : List ℕ)
    (s : BddState P) (value : P) (type : ℕ) (r : ℕ × BddState P) : Prop where
  inv : ∃ flight', TableInv D isPrime flight' r.2 ∧ (r.2.Ok → flight' = flight)
  evo : Evo D s r.2
  cache : CacheStable D s r.2
  refstack : r.2.bddrefstack = s.bddrefstack
  back : ∀ n, r.2.live n = true → Kept D s r.2 n ∨
    n = r.1 ∧ (r.2.key n).level = maxlevel ∧
      ∃ v, mtbddGetvalue D r.2 (r.2.key n).high = some v ∧ (D.stored = true → v = value)
  result : TerminalFor D r.2 value type r.1 ∨
    r.1 = 0 ∧ (¬ r.2.Ok ∨ D.domaintype = .custom ∧ (D.comparefun type).isNone)

/-- In the other domains terminals are not looked up by `bdd_makenode`. -/
theorem bddMakenode_terminal (hD : D.domaintype.notShort = true) (s : BddState P) (low high : ℕ) :
    bddMakenode D isPrime s maxlevel low high =
      if s.bddfreepos ≠ 0 then bddInsert s maxlevel low high
      else if s.bdderrorcond then (0, s)
      else
        let s := makeRoom D isPrime s
        if s.bddfreepos = 0 then (0, { s.error .nodenum with bdderrorcond := true })
        else bddInsert s maxlevel low high := by
  unfold bddMakenode
  simp [hD]

/-- Writing the contents of a new node afterwards. -/
theorem fill_setNode (s : BddState P) (level low high b low' high' : ℕ) :
    (s.fill level low high b).setNode s.bddfreepos
        { (s.fill level low high b).bddnodes s.bddfreepos with
          high := high'
          low := some low' } = s.fill level low' high' b := by
  have hnodes : ∀ m, ((s.fill level low high b).setNode s.bddfreepos
      { (s.fill level low high b).bddnodes s.bddfreepos with
        high := high'
        low := some low' }).bddnodes m = (s.fill level low' high' b).bddnodes m := by
    intro m
    unfold BddState.fill BddState.chainIn BddState.setNode
    dsimp only
    by_cases hm : m = s.bddfreepos <;> by_cases hb : m = b <;>
      by_cases hbf : b = s.bddfreepos <;> simp_all [Function.update_apply]
  unfold BddState.setNode at hnodes ⊢
  dsimp only at hnodes
  rw [funext hnodes]
  rfl

/-- The node of a value whose slot was filled already. -/
theorem fill_terminal {i type : ℕ} {value : P} (h : TableInv D isPrime (i :: flight) s)
    (hD : D.stored = true) (hfree : s.bddfreepos ≠ 0) (hi : i ∉ flight)
    (hslot : ∀ m, s.slot D m ≠ some i) (hv : s.terminals.values i = some value)
    (htype : D.domaintype = .custom → type < D.typeNumber ∧ (D.comparefun type).isSome)
    (hnew : ∀ n j v, s.slot D n = some j → s.terminals.values j = some v →
      (s.key n).low = some type → D.twins type value v = false) {b : ℕ}
    (hb : b = nodehash s.bddnodesize maxlevel (terminalWords D type (some value)).1
      (terminalWords D type (some value)).2) :
    let u : BddState P := { s.fill maxlevel type i b with
      terminals := s.terminals.logMade s.bddfreepos i value }
    TableInv D isPrime flight u ∧ Inserted s ⟨some type, i, maxlevel⟩ s.bddfreepos u ∧
      u.slot D s.bddfreepos = some i := by
  intro u
  have hT : (s.terminals.logMade s.bddfreepos i value).values = s.terminals.values := by
    unfold Terminals.logMade
    rw [if_neg hfree]
  have hins : Inserted s ⟨some type, i, maxlevel⟩ s.bddfreepos u :=
    fill_inserted h hfree maxlevel type i b hT
  have hspec := fun hlevel hb =>
    @fill_spec P D isPrime (i :: flight) s h hfree maxlevel type i b flight _ hT hlevel hb
  have hu : ({ s.fill maxlevel type i b with
      terminals := s.terminals.logMade s.bddfreepos i value } : BddState P) = u := rfl
  rw [hu] at hspec
  clear_value u
  have hnot := stored_notShort hD
  have hlive : u.live s.bddfreepos = true := (hins.live_iff rfl _).mpr (Or.inr rfl)
  have hself : u.slot D s.bddfreepos = some i := by
    rw [BddState.slot_eq hlive (congrArg BddKey.level hins.key) hD, hins.key]
  have hslots : u.slot D = Function.update (s.slot D) s.bddfreepos (some i) := by
    funext m
    rw [Function.update_apply]
    split
    · rename_i hm
      rw [hm, hself]
    · rename_i hm
      exact BddState.slot_congr (hins.other m hm)
  have hnone : s.slot D s.bddfreepos = none := by
    unfold BddState.slot
    rw [hins.fresh, if_neg fun hc => Bool.false_ne_true hc.1]
  refine ⟨hspec (by decide) ?_ (fun hp => ?_) ?_ (fun hs => ?_) (fun hc _ => htype hc)
    fun _ _ n j v w hn hlow hjv hw => ?_, hins, hself⟩
  · have hget : mtbddGetvalue D u (u.key s.bddfreepos).high = some value := by
      rw [getvalue_stored hD, hins.key, hins.values]
      exact hv
    rw [bucket_terminal hself hget fun _ => by rw [hins.key], hins.nodesize]
    exact hb
  · rcases hp with hp | hp
    · exact absurd rfl hp
    · rw [hnot] at hp
      exact absurd hp.symm Bool.false_ne_true
  · rw [hslots]
    exact h.term.land hi hslot hnone hfree hv
  · rw [hnot] at hs
    exact absurd hs.symm Bool.false_ne_true
  · obtain rfl : w = value := Option.some.inj (hw.symm.trans hv)
    exact hnew n j v hn hjv hlow

/-- Writing to a constant leaves all nodes alone. -/
theorem setNode_const (h : TableInv D isPrime flight s) {n : ℕ} {node : BddNode} (hn : n < 2)
    (hkey' : s.bdderrorcond = false → node.key = s.key n)
    (hlevel : node.level = (s.bddnodes n).level) (hmark : node.mark = (s.bddnodes n).mark)
    (hhash : node.hash = (s.bddnodes n).hash) (hnext : node.next = (s.bddnodes n).next) :
    TableInv D isPrime flight (s.setNode n node) ∧ Evo D s (s.setNode n node) ∧
      CacheStable D s (s.setNode n node) := by
  have hnode : ∀ m, (s.setNode n node).bddnodes m = if m = n then node else s.bddnodes m :=
    fun m => Function.update_apply ..
  have hother : ∀ m, 2 ≤ m → (s.setNode n node).bddnodes m = s.bddnodes m := fun m hm => by
    rw [hnode, if_neg (by omega)]
  have hkey : ∀ m, 2 ≤ m → (s.setNode n node).key m = s.key m := fun m hm =>
    congrArg BddNode.key (hother m hm)
  have hlevels : ∀ m, ((s.setNode n node).key m).level = (s.key m).level := by
    intro m
    by_cases hm : m = n
    · have hself : (s.setNode n node).bddnodes m = node := by rw [hnode, if_pos hm]
      show ((s.setNode n node).bddnodes m).level = _
      rw [hself, hlevel, hm]
      rfl
    · show ((s.setNode n node).bddnodes m).level = _
      rw [hnode, if_neg hm]
      rfl
  have hsame : ∀ m, s.live m = true → SameNode D s (s.setNode n node) m := fun m hm =>
    ⟨hkey m (BddState.live_iff.mp hm).1, fun _ _ => rfl⟩
  refine ⟨h.alike ⟨hkey, fun m _ => (hlevels m).symm ▸ h.level m, fun m hm => ?_, fun m => ?_,
    links_setNode s hhash hnext, rfl, rfl, h.caches⟩,
    ⟨id, fun m hm => ?_, fun m hm => hsame m hm.live, fun m _ => hlevels m,
      fun m hm => congrArg BddNode.refcou (hother m hm), rfl, rfl, fun he m _ => ?_, fun _ => rfl⟩,
    Or.inr ⟨rfl, hsame⟩⟩
  · by_cases hm2 : m < 2
    · exact Or.inl hm2
    · rw [hother m (by omega)] at hm
      exact h.refcou m hm
  · rw [hnode]
    split
    · rename_i hm
      rw [hmark, hm]
    · rfl
  · exact hm.keep (fun k hk => hkey k (BddState.live_iff.mp hk.live).1)
      (fun k hk => congrArg BddNode.refcou (hother k hk)) (List.Subset.refl _)
  · show ((s.setNode n node).bddnodes m).key = _
    rw [hnode]
    split
    · rename_i hm
      rw [hkey' he, hm]
    · rfl

/-- Changing the store leaves the nodes alone. -/
theorem sameNode_withTerminals {T : Terminals P} {n : ℕ}
    (hvalues : ∀ i, s.slot D n = some i → T.values i = s.terminals.values i) :
    SameNode D s { s with terminals := T } n := ⟨rfl, hvalues⟩

theorem evo_withTerminals {T : Terminals P}
    (hvalues : ∀ n i, s.slot D n = some i → T.values i = s.terminals.values i) :
    Evo D s { s with terminals := T } ∧ CacheStable D s { s with terminals := T } :=
  ⟨⟨id, fun _ hn => hn.keep (fun _ _ => rfl) (fun _ _ => rfl) (List.Subset.refl _),
    fun n _ => ⟨rfl, hvalues n⟩, fun _ _ => rfl, fun _ _ => rfl, rfl, rfl, fun _ _ _ => rfl,
    fun _ => rfl⟩, Or.inr ⟨rfl, fun n _ => ⟨rfl, hvalues n⟩⟩⟩

theorem Kept.trans {s'' : BddState P} {n : ℕ} (h : Kept D s s' n) (h' : Kept D s' s'' n) :
    Kept D s s'' n := by
  refine ⟨h.same.trans h'.same, h.live, fun m hm hl => ?_⟩
  have hm' : m ∈ s'.succ n := by
    rw [BddState.succ_congr h.same.key]
    exact hm
  exact (h.child m hm hl).trans (h'.child m hm' ((h.child m hm hl).live hl))

/-- A state in which slot `i` holds a value, and no node holds the slot. -/
structure Ready (D : MtbddDomain P) (isPrime : ℕ → Bool) (flight : List ℕ) (s : BddState P)
    (i : ℕ) (value : P) (t : BddState P) : Prop where
  inv : TableInv D isPrime (i :: flight) t
  evo : Evo D s t
  cache : CacheStable D s t
  refstack : t.bddrefstack = s.bddrefstack
  kept : ∀ n, t.live n = true → Kept D s t n
  value : t.terminals.values i = some value
  fresh : i ∉ flight
  slot : ∀ m, t.slot D m ≠ some i

/-- The state after `mtbdd_insertvalue`. -/
theorem ready_insertvalue (h : TableInv D isPrime flight s) (value : P) :
    Ready D isPrime flight s (mtbddInsertvalue s.terminals value).1 value
      { s with terminals := (mtbddInsertvalue s.terminals value).2 } := by
  obtain ⟨hT, hfresh, hslot, hvalues⟩ := h.term.insertvalue value
  generalize mtbddInsertvalue s.terminals value = r at hT hfresh hslot hvalues ⊢
  have hold : ∀ n i, s.slot D n = some i → r.2.values i = s.terminals.values i := by
    intro n i hn
    have hne : i ≠ r.1 := fun he => hslot n (he ▸ hn)
    rw [hvalues, Function.update_of_ne hne]
  obtain ⟨hevo, hcache⟩ := evo_withTerminals hold
  refine ⟨h.withTerminals hT hold, hevo, hcache, rfl, fun n hn => ?_, ?_, hfresh, hslot⟩
  · exact ⟨sameNode_withTerminals (hold n), hn, fun m _ _ => sameNode_withTerminals (hold m)⟩
  · show r.2.values r.1 = some value
    rw [hvalues, Function.update_self]

/-- Making room keeps the slot. -/
theorem Ready.makeRoom {i : ℕ} {value : P} {t : BddState P}
    (h : Ready D isPrime flight s i value t) :
    Ready D isPrime flight s i value (makeRoom D isPrime t) ∧
      (makeRoom D isPrime t).bdderrorcond = t.bdderrorcond := by
  obtain ⟨hi, hr⟩ := makeRoom_spec h.inv
  generalize Bdd.makeRoom D isPrime t = u at hi hr ⊢
  have hkept : ∀ n, u.live n = true → Kept D t u n := fun n hn =>
    have hheld := (hr.live n).mp hn
    ⟨hr.evo.same n hheld, hheld.live, fun m hm hl => hr.evo.same m (hheld.child hm hl)⟩
  refine ⟨⟨hi, h.evo.trans hr.evo, h.cache.trans (Or.inl hr.cache), hr.refstack.trans h.refstack,
    fun n hn => ?_, ?_, h.fresh, fun m hm => ?_⟩, hr.errorcond⟩
  · have hk := hkept n hn
    exact (h.kept n hk.live).trans hk
  · rw [hr.values i (Or.inr List.mem_cons_self)]
    exact h.value
  · have hk := hkept m (BddState.slot_live hm).1
    refine h.slot m ?_
    rw [← BddState.slot_congr hk.same.key]
    exact hm

/-- If a slot is free the terminal is made in it. -/
theorem Ready.insert {i type : ℕ} {value : P} {t : BddState P}
    (h : Ready D isPrime flight s i value t) (hD : D.stored = true) (hfree : t.bddfreepos ≠ 0)
    (htype : D.domaintype = .custom → type < D.typeNumber ∧ (D.comparefun type).isSome)
    (hnew : ∀ n j v, s.slot D n = some j → s.terminals.values j = some v →
      (s.key n).low = some type → D.twins type value v = false) {b : ℕ}
    (hb : b = nodehash t.bddnodesize maxlevel (terminalWords D type (some value)).1
      (terminalWords D type (some value)).2) :
    TerminalSpec D isPrime flight s value type (t.bddfreepos,
      { t.fill maxlevel type i b with
        terminals := t.terminals.logMade t.bddfreepos i value }) ∧
      ((t.fill maxlevel type i b).bddnodes t.bddfreepos).refcou = 0 := by
  have hfresh : t.live t.bddfreepos = false := by
    have hno : t.live t.bddfreepos ≠ true := (h.inv.threaded.free.head (L := t.links) hfree).2.2
    simpa using hno
  obtain ⟨hinv, hins, hself⟩ := fill_terminal h.inv hD hfree h.fresh h.slot h.value htype
    (fun n j v hn hv hlow => by
      have hk := h.kept n (BddState.slot_live hn).1
      have hn' : s.slot D n = some j := by
        rw [← BddState.slot_congr hk.same.key]
        exact hn
      refine hnew n j v hn' ?_ ?_
      · rw [← hk.same.value j hn']
        exact hv
      · rw [← hk.same.key]
        exact hlow) hb
  generalize hu : ({ t.fill maxlevel type i b with
    terminals := t.terminals.logMade t.bddfreepos i value } : BddState P) = u at hinv hins hself ⊢
  have hlive := hins.live_iff rfl
  have hget : mtbddGetvalue D u (u.key t.bddfreepos).high = some value := by
    rw [getvalue_stored hD, hins.key, hins.values]
    exact h.value
  refine ⟨⟨⟨flight, hinv, fun _ => rfl⟩, h.evo.trans hins.evo, h.cache.trans hins.cacheStable,
    hins.refstack.trans h.refstack, fun n hn => ?_,
    Or.inl ⟨(hlive _).mpr (Or.inr rfl), congrArg BddKey.level hins.key, type, value,
      congrArg BddKey.low hins.key, hget, ?_, fun _ => rfl⟩⟩, ?_⟩
  · rcases (hlive n).mp hn with hn | hn
    · left
      have hk : Kept D t u n := ⟨hins.same hn, hn, fun m _ hl => hins.same hl⟩
      exact (h.kept n hn).trans hk
    · right
      rw [hn]
      exact ⟨rfl, congrArg BddKey.level hins.key, value, hget, fun _ => rfl⟩
  · unfold MtbddDomain.Stands
    unfold MtbddDomain.stored at hD
    cases hd : D.domaintype <;> rw [hd] at hD <;> first
      | exact Or.inl rfl
      | exact absurd hD Bool.false_ne_true
  · have hrc := hins.refcou t.bddfreepos
    rw [← hu] at hrc
    have hzero : (t.bddnodes t.bddfreepos).refcou = 0 := by
      by_contra hne
      have hf2 : 2 ≤ t.bddfreepos := (h.inv.threaded.free.head (L := t.links) hfree).1
      have hl := (h.inv.refcou t.bddfreepos (Nat.pos_of_ne_zero hne)).resolve_left (by omega)
      rw [hfresh] at hl
      exact Bool.false_ne_true hl
    exact hrc.trans hzero

/-- A contract that is kept by what changes no node and no value. -/
theorem TerminalSpec.trans {value : P} {type n : ℕ} {t u : BddState P}
    (h : TerminalSpec D isPrime flight s value type (n, t))
    (hi : ∀ flight, TableInv D isPrime flight t → TableInv D isPrime flight u)
    (he : Evo D t u) (hc : CacheStable D t u) (hst : u.bddrefstack = t.bddrefstack)
    (hsame : ∀ n, 2 ≤ n → u.key n = t.key n) (hvalues : u.terminals.values = t.terminals.values) :
    TerminalSpec D isPrime flight s value type (n, u) := by
  obtain ⟨flight', hinv, hf⟩ := h.inv
  have hlive : ∀ n, u.live n = t.live n := by
    intro n
    by_cases hn : 2 ≤ n
    · exact BddState.live_congr (hsame n hn)
    · simp [BddState.live, hn]
  have hkey : ∀ n, t.live n = true → u.key n = t.key n := fun n hn =>
    hsame n (BddState.live_iff.mp hn).1
  have hget : ∀ high, mtbddGetvalue D u high = mtbddGetvalue D t high := fun high =>
    BddState.getvalue_congr (s := t) (T := u.terminals) fun _ => by rw [hvalues]
  refine ⟨⟨flight', hi flight' hinv, fun hok => hf (he.errorcond hok)⟩, h.evo.trans he,
    h.cache.trans hc, hst.trans h.refstack, fun m hm => ?_, ?_⟩
  · have hm' : t.live m = true := (hlive m).symm.trans hm
    rcases h.back m hm' with hk | ⟨hmn, hlevel, v, hv, hval⟩
    · left
      have hsn : ∀ k, t.live k = true → SameNode D t u k := fun k hk =>
        ⟨hkey k hk, fun _ _ => by rw [hvalues]⟩
      exact hk.trans ⟨hsn m hm', hm', fun k _ hl => hsn k hl⟩
    · right
      rw [hkey m hm']
      exact ⟨hmn, hlevel, v, (hget _).trans hv, hval⟩
  · rcases h.result with ⟨hl, hlevel, nodetype, v, hlow, hv, hrest⟩ | ⟨h0, herr⟩
    · left
      have hl' : u.live n = true := (hlive n).trans hl
      refine ⟨hl', ?_, nodetype, v, ?_, ?_, hrest⟩
      · rw [hkey n hl]
        exact hlevel
      · rw [hkey n hl]
        exact hlow
      · rw [hkey n hl, hget]
        exact hv
    · exact Or.inr ⟨h0, herr.imp_left fun hno hok => hno (he.errorcond hok)⟩

/-- If exhaustion is reported the slot is lost, and a constant is overwritten. -/
theorem Ready.full {i : ℕ} {value : P} {t : BddState P}
    (h : Ready D isPrime flight s i value t)
    (herr : ¬ t.Ok) (type : ℕ) :
    TerminalSpec D isPrime flight s value type (0,
      { t.setNode 0 { t.bddnodes 0 with
          high := i
          low := some type } with terminals := t.terminals.logMade 0 i value }) ∧
      TableInv D isPrime (i :: flight) { t.setNode 0 { t.bddnodes 0 with
          high := i
          low := some type } with terminals := t.terminals.logMade 0 i value } := by
  have hlog : t.terminals.logMade 0 i value = t.terminals := if_pos rfl
  rw [hlog]
  obtain ⟨hi, he, hc⟩ := @setNode_const P D isPrime (i :: flight) t h.inv 0 { t.bddnodes 0 with
    high := i
    low := some type } (by decide) (fun hok => absurd hok herr) rfl rfl rfl rfl
  refine ⟨⟨⟨_, hi, fun hok => absurd hok herr⟩, h.evo.trans he, h.cache.trans hc, h.refstack,
    fun n hn => Or.inl ?_, Or.inr ⟨rfl, Or.inl herr⟩⟩, hi⟩
  have hkey : ∀ m, 2 ≤ m → (t.setNode 0 { t.bddnodes 0 with
      high := i
      low := some type } : BddState P).key m = t.key m := fun m hm =>
    congrArg BddNode.key (Function.update_of_ne (by omega) _ _)
  have hn2 : 2 ≤ n := (BddState.live_iff.mp hn).1
  have hl : t.live n = true := (BddState.live_congr (hkey n hn2)).symm.trans hn
  have hk : Kept D t (t.setNode 0 { t.bddnodes 0 with
      high := i
      low := some type }) n :=
    ⟨⟨hkey n hn2, fun _ _ => rfl⟩, hl, fun m _ hlm =>
      ⟨hkey m (BddState.live_iff.mp hlm).1, fun _ _ => rfl⟩⟩
  exact (h.kept n hl).trans hk

/-- Reporting exhaustion leaves the slot alone. -/
theorem Ready.report {i : ℕ} {value : P} {t : BddState P}
    (h : Ready D isPrime flight s i value t) :
    Ready D isPrime flight s i value { t.error .nodenum with bdderrorcond := true } :=
  ⟨{ h.inv with }, ⟨fun he => absurd he.symm Bool.false_ne_true, h.evo.held,
    fun n hn => ⟨(h.evo.same n hn).key, (h.evo.same n hn).value⟩, h.evo.const, h.evo.refcou,
    h.evo.env, h.evo.checkSameChildren, fun he => absurd he.symm Bool.false_ne_true,
    fun he => absurd he.symm Bool.false_ne_true⟩,
    h.cache.imp id fun hc => ⟨hc.1, fun n hn => ⟨(hc.2 n hn).key, (hc.2 n hn).value⟩⟩,
    h.refstack, fun n hn =>
      have hk := h.kept n hn
      ⟨⟨hk.same.key, hk.same.value⟩, hk.live, fun m hm hl =>
        ⟨(hk.child m hm hl).key, (hk.child m hm hl).value⟩⟩,
    h.value, h.fresh, h.slot⟩

/-- A new terminal is made, or exhaustion is reported; its count is not touched. -/
theorem newTerminal_spec (h : TableInv D isPrime flight s) (hD : D.stored = true)
    {value : P} {type : ℕ}
    (htype : D.domaintype = .custom → type < D.typeNumber ∧ (D.comparefun type).isSome)
    (hnew : ∀ n j v, s.slot D n = some j → s.terminals.values j = some v →
      (s.key n).low = some type → D.twins type value v = false) :
    TerminalSpec D isPrime flight s value type
        (newTerminal D isPrime s value type (terminalWords D type (some value))) ∧
      (((newTerminal D isPrime s value type (terminalWords D type (some value))).2.bddnodes
          (newTerminal D isPrime s value type (terminalWords D type (some value))).1).refcou = 0 ∨
        (newTerminal D isPrime s value type (terminalWords D type (some value))).1 = 0) := by
  have hready := ready_insertvalue h value
  unfold newTerminal
  dsimp only
  generalize mtbddInsertvalue s.terminals value = p at hready ⊢
  obtain ⟨i, T⟩ := p
  dsimp only at hready ⊢
  generalize ({ s with terminals := T } : BddState P) = t at hready ⊢
  rw [bddMakenode_terminal (stored_notShort hD)]
  -- what is done with the node that `bdd_makenode` returns
  have hinsert : ∀ u : BddState P, Ready D isPrime flight s i value u → u.bddfreepos ≠ 0 →
      let r := bddInsert u maxlevel (terminalWords D type (some value)).1
        (terminalWords D type (some value)).2
      let v := r.2.setNode r.1 { r.2.bddnodes r.1 with
        high := i
        low := some type }
      TerminalSpec D isPrime flight s value type
          (r.1, { v with terminals := v.terminals.logMade r.1 i value }) ∧
        ((v.bddnodes r.1).refcou = 0 ∨ r.1 = 0) := by
    intro u hu hfree
    obtain ⟨hspec, hzero⟩ := hu.insert hD hfree htype hnew rfl
    unfold bddInsert
    dsimp only
    rw [show maxlevel % 2 ^ 21 = maxlevel by decide, fill_setNode]
    exact ⟨hspec, Or.inl hzero⟩
  have hfull : ∀ u : BddState P, Ready D isPrime flight s i value u → ¬ u.Ok →
      TerminalSpec D isPrime flight s value type (0,
          { u.setNode 0 { u.bddnodes 0 with
              high := i
              low := some type } with terminals := u.terminals.logMade 0 i value }) := fun u hu herr =>
    (hu.full herr type).1
  by_cases hfree : t.bddfreepos ≠ 0
  · rw [if_pos hfree]
    exact hinsert t hready hfree
  rw [if_neg hfree]
  by_cases herr : t.bdderrorcond = true
  · rw [if_pos herr]
    exact ⟨hfull t hready fun hok => Bool.false_ne_true (hok.symm.trans herr), Or.inr rfl⟩
  rw [if_neg herr]
  obtain ⟨hready', -⟩ := hready.makeRoom
  generalize makeRoom D isPrime t = u at hready' ⊢
  dsimp only
  by_cases hfree' : u.bddfreepos = 0
  · rw [if_pos hfree']
    exact ⟨hfull _ hready'.report fun hok => Bool.false_ne_true hok.symm, Or.inr rfl⟩
  · rw [if_neg hfree']
    exact hinsert u hready' hfree'

/-- A terminal that was there before. -/
theorem terminalSpec_found (h : TableInv D isPrime flight s) {value : P} {type n : ℕ}
    (hn : TerminalFor D s value type n) : TerminalSpec D isPrime flight s value type (n, s) :=
  ⟨⟨flight, h, fun _ => rfl⟩, .refl s, .refl s, rfl, fun _ hm => Or.inl (.refl hm), Or.inl hn⟩

theorem stands_of_same (hD : D.stored = true) {type : ℕ} {value v : P}
    (h : D.same type value v = true) : D.Stands type value v := by
  unfold MtbddDomain.Stands
  unfold MtbddDomain.stored at hD
  cases hd : D.domaintype <;> rw [hd] at hD <;> first
    | exact Or.inr h
    | exact absurd hD Bool.false_ne_true

theorem terminalFor_found (hD : D.stored = true) {value v : P} {type n i : ℕ}
    (hn : s.slot D n = some i) (hv : s.terminals.values i = some v)
    (hsame : D.same type value v = true)
    (htype : D.domaintype = .custom → (s.key n).low = some type) :
    TerminalFor D s value type n := by
  obtain ⟨hl, hlevel, -, hi⟩ := BddState.slot_live hn
  obtain ⟨-, low, hlow⟩ := BddState.live_iff.mp hl
  refine ⟨hl, hlevel, low, v, hlow, ?_, stands_of_same hD hsame, fun hc => ?_⟩
  · rw [getvalue_stored hD, hi]
    exact hv
  · exact Option.some.inj (hlow.symm.trans (htype hc))

theorem TableInv.releaseTemp (h : TableInv D isPrime flight s) (v : P) :
    TableInv D isPrime flight { s with terminals := s.terminals.releaseTemp v } := by
  refine h.withTerminals ?_ fun _ _ _ => rfl
  have hT := h.term
  exact ⟨hT.inj, hT.apart, hT.value, hT.pool, hT.logOk, hT.filled, hT.empty, hT.owned⟩

/-- `mtbdd_release_temp_value` only leaves a log entry. -/
theorem TerminalSpec.releaseTemp {value v : P} {type n : ℕ} {t : BddState P}
    (h : TerminalSpec D isPrime flight s value type (n, t)) :
    TerminalSpec D isPrime flight s value type
      (n, { t with terminals := t.terminals.releaseTemp v }) := by
  obtain ⟨he, hc⟩ := evo_withTerminals (D := D) (s := t) (T := t.terminals.releaseTemp v)
    fun _ _ _ => rfl
  exact h.trans (fun flight' hi => hi.releaseTemp v) he hc rfl (fun _ _ => rfl) rfl

/-- Setting the count of a node to what it is changes nothing. -/
theorem setNode_refcou {n : ℕ} (h : (s.bddnodes n).refcou = 0) :
    s.setNode n { s.bddnodes n with refcou := 0 } = s := by
  have hnode : ({ s.bddnodes n with refcou := 0 } : BddNode) = s.bddnodes n := by rw [← h]
  unfold BddState.setNode
  rw [hnode, Function.update_eq_self]

/-- The domains that `mtbdd_maketerminal` supports. -/
def MtbddDomain.Supported (D : MtbddDomain P) : Prop :=
  D.stored = true ∨ D.domaintype.notShort = false

/-- The contract of `mtbdd_maketerminal`. -/
theorem mtbddMaketerminal_spec (h : TableInv D isPrime flight s) (hsupp : D.Supported)
    (value : P) {type : ℕ}
    (htype : D.domaintype = .custom → type < D.typeNumber) :
    ∃ r, mtbddMaketerminal D isPrime s value type = some r ∧
      TerminalSpec D isPrime flight s value type r := by
  -- the domains that keep values in the node
  have hshort : D.domaintype.notShort = false → ∃ r,
      some (bddMakenode D isPrime s maxlevel 42 (D.word value).toNat) = some r ∧
        TerminalSpec D isPrime flight s value type r := by
    intro hD
    refine ⟨_, rfl, ?_⟩
    have hm := @bddMakenode_spec P D isPrime flight s h maxlevel 42 (D.word value).toNat
      (by decide) (Or.inr hD) fun _ => ⟨rfl, (D.word value).toNat_lt⟩
    generalize bddMakenode D isPrime s maxlevel 42 (D.word value).toNat = r at hm ⊢
    have hget : mtbddGetvalue D r.2 (D.word value).toNat = some (D.ofWord (D.word value)) := by
      have hword : UInt32.ofNat (D.word value).toNat = D.word value := UInt32.ofNat_toNat
      unfold mtbddGetvalue
      unfold DomainTypes.notShort at hD
      cases hd : D.domaintype <;> rw [hd] at hD <;> first
        | exact congrArg (fun w => some (D.ofWord w)) hword
        | exact absurd hD.symm Bool.false_ne_true
    refine ⟨⟨flight, hm.inv, fun _ => rfl⟩, hm.evo, hm.cache, hm.refstack, fun n hn => ?_, ?_⟩
    · rcases hm.back n hn with hk | ⟨hn, hkey⟩
      · exact Or.inl hk
      · rw [hkey]
        refine Or.inr ⟨hn, rfl, _, hget, fun hst => ?_⟩
        rw [stored_of_notShort_false hD] at hst
        exact absurd hst Bool.false_ne_true
    · cases hm.outcome with
      | skip _ decision _ _ _ => exact absurd rfl decision
      | full node errorcond =>
        exact Or.inr ⟨node, Or.inl fun hok => Bool.false_ne_true (hok.symm.trans errorcond)⟩
      | node _ live key _ _ =>
        left
        refine ⟨live, congrArg BddKey.level key, 42, D.ofWord (D.word value),
          congrArg BddKey.low key, ?_, ?_, ?_⟩
        · rw [key]
          exact hget
        · unfold MtbddDomain.Stands
          unfold DomainTypes.notShort at hD
          cases hd : D.domaintype <;> rw [hd] at hD <;> first
            | rfl
            | exact absurd hD.symm Bool.false_ne_true
        · intro hc
          rw [hc] at hD
          exact absurd hD.symm Bool.false_ne_true
  -- the others look for the value first
  have hfind : D.stored = true → ∀ found, found = mtbddFindterminal D s value
        (nodehash s.bddnodesize maxlevel (terminalWords D type (some value)).1
          (terminalWords D type (some value)).2) type →
      (found ≠ 0 → TerminalSpec D isPrime flight s value type (found, s)) ∧
      (found = 0 → ∀ n j v, s.slot D n = some j → s.terminals.values j = some v →
        (s.key n).low = some type → D.twins type value v = false) := by
    intro hD found hf
    have hspec := mtbddFindterminal_spec h hD value type
    dsimp only at hspec
    rw [← hf] at hspec
    refine ⟨fun hne => ?_, fun h0 n j v hn hv hlow => ?_⟩
    · obtain ⟨-, i, v, hn, hv, hsame, hlow⟩ := hspec.resolve_left fun hc => hne hc.1
      exact terminalSpec_found h (terminalFor_found hD hn hv hsame hlow)
    · obtain ⟨-, hmiss⟩ := hspec.resolve_right fun hc => hc.1 h0
      by_contra htwins
      obtain ⟨hsame, -, hwords⟩ := MtbddDomain.twins_iff.mp (Bool.not_eq_false _ ▸ htwins)
      rw [hmiss n j v hn hv (fun _ => hlow) hwords] at hsame
      exact Bool.false_ne_true hsame
  unfold mtbddMaketerminal
  cases hd : D.domaintype with
  | intval | floatval | unsignedval => exact hshort (by rw [hd]; rfl)
  | longval | doubleval =>
    have hD : D.stored = true := by
      unfold MtbddDomain.stored
      rw [hd]
    obtain ⟨hfound, hmiss⟩ := hfind hD _ rfl
    dsimp only
    by_cases h0 : mtbddFindterminal D s value (nodehash s.bddnodesize maxlevel
        (terminalWords D type (some value)).1 (terminalWords D type (some value)).2) type ≠ 0
    · rw [if_pos h0]
      exact ⟨_, rfl, hfound h0⟩
    · rw [if_neg h0]
      refine ⟨_, rfl, (newTerminal_spec h hD (fun hc => ?_) (hmiss (not_not.mp h0))).1⟩
      rw [hd] at hc
      exact absurd hc (by decide)
  | custom =>
    have hD : D.stored = true := by
      unfold MtbddDomain.stored
      rw [hd]
    obtain ⟨hfound, hmiss⟩ := hfind hD _ rfl
    dsimp only
    by_cases hcmp : (D.comparefun type).isNone = true
    · rw [if_pos hcmp]
      refine ⟨_, rfl, ?_⟩
      have herr : TerminalSpec D isPrime flight s value type (0, s.error .op) :=
        ⟨⟨flight, { h with }, fun _ => rfl⟩,
          ⟨id, fun _ hn => hn.keep (fun _ _ => rfl) (fun _ _ => rfl) (List.Subset.refl _),
            fun _ _ => ⟨rfl, fun _ _ => rfl⟩, fun _ _ => rfl, fun _ _ => rfl, rfl, rfl,
            fun _ _ _ => rfl, fun _ => rfl⟩,
          Or.inr ⟨rfl, fun _ _ => ⟨rfl, fun _ _ => rfl⟩⟩, rfl,
          fun n hn => Or.inl ⟨⟨rfl, fun _ _ => rfl⟩, hn, fun _ _ _ => ⟨rfl, fun _ _ => rfl⟩⟩,
          Or.inr ⟨rfl, Or.inr ⟨hd, hcmp⟩⟩⟩
      exact herr.releaseTemp
    rw [if_neg hcmp]
    by_cases h0 : mtbddFindterminal D s value (nodehash s.bddnodesize maxlevel
        (terminalWords D type (some value)).1 (terminalWords D type (some value)).2) type ≠ 0
    · rw [if_pos h0]
      exact ⟨_, rfl, (hfound h0).releaseTemp⟩
    · rw [if_neg h0]
      have hsome : (D.comparefun type).isSome := by
        cases hc : D.comparefun type with
        | none =>
          rw [hc] at hcmp
          exact absurd rfl hcmp
        | some _ => rfl
      obtain ⟨hspec, hcount⟩ := @newTerminal_spec P D isPrime flight s h hD value type
        (fun _ => ⟨htype hd, hsome⟩) (hmiss (not_not.mp h0))
      refine ⟨_, rfl, ?_⟩
      generalize newTerminal D isPrime s value type (terminalWords D type (some value)) = r
        at hspec hcount ⊢
      obtain ⟨n, t⟩ := r
      dsimp only at hspec hcount ⊢
      rcases hcount with hcount | rfl
      · rw [setNode_refcou hcount]
        exact hspec
      · obtain ⟨flight', hi, -⟩ := hspec.inv
        have hconst : ∀ flight, TableInv D isPrime flight t →
            TableInv D isPrime flight (t.setNode 0 { t.bddnodes 0 with refcou := 0 }) ∧
            Evo D t (t.setNode 0 { t.bddnodes 0 with refcou := 0 }) ∧
            CacheStable D t (t.setNode 0 { t.bddnodes 0 with refcou := 0 }) := fun flight hi =>
          setNode_const hi (by decide) (fun _ => rfl) rfl rfl rfl rfl
        obtain ⟨-, he, hc⟩ := hconst flight' hi
        refine hspec.trans (fun f hf => (hconst f hf).1) he hc rfl (fun m hm => ?_) rfl
        exact congrArg BddNode.key (Function.update_of_ne (by omega) _ _)
  | charval | ldoubleval | ulongval | unset =>
    unfold MtbddDomain.Supported MtbddDomain.stored at hsupp
    rw [hd] at hsupp
    exact hsupp.elim (fun hc => absurd hc Bool.false_ne_true)
      fun hc => absurd hc.symm Bool.false_ne_true

end MoToBuddy.Bdd
