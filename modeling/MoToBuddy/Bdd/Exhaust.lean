import MoToBuddy.Bdd.Unique

/-!
# Running out of nodes in `mtbdd_maketerminal`

The slot of a value is taken before the node, and the fields of the node are written whatever
`bdd_makenode` returned. If it returned `0` nothing gives the slot back, so that the counters of
the store no longer account for the live terminals.
-/

namespace MoToBuddy.Bdd

open Slots

variable {P : Type*} {D : MtbddDomain P} {isPrime : ℕ → Bool} {flight : List ℕ}
  {s s' : BddState P}

/-- `mtbdd_maketerminal` does not find the value, and gets no node for it. -/
def NoNode (D : MtbddDomain P) (isPrime : ℕ → Bool) (s : BddState P) (value : P) (type : ℕ) :
    Prop :=
  let words := terminalWords D type (some value)
  (D.domaintype = .custom → (D.comparefun type).isSome) ∧
    mtbddFindterminal D s value (nodehash s.bddnodesize maxlevel words.1 words.2) type = 0 ∧
    (bddMakenode D isPrime { s with terminals := (mtbddInsertvalue s.terminals value).2 } maxlevel
      words.1 words.2).1 = 0

/-- What a call that fails should leave behind: the constants and the live nodes as they were, a
store with the values of the live terminals and no others, and a table in which terminals are found
and made, once the error is cleared. -/
structure Atomic (D : MtbddDomain P) (isPrime : ℕ → Bool) (s s' : BddState P) : Prop where
  node : ∀ n, n < 2 ∨ s'.live n = true → s'.key n = s.key n ∧
    (s'.bddnodes n).refcou = (s.bddnodes n).refcou ∧ (s'.bddnodes n).mark = (s.bddnodes n).mark
  slots : s'.terminals.pool.Inv fun i => ∃ n, s'.slot D n = some i
  later : ∀ value type, (D.domaintype = .custom → type < D.typeNumber) →
    ∃ r, mtbddMaketerminal D isPrime (bddClearError s') value type = some r ∧
      (TerminalFor D r.2 value type r.1 ∨
        r.1 = 0 ∧ (¬ r.2.Ok ∨ D.domaintype = .custom ∧ (D.comparefun type).isNone))

/-- A slot that no terminal has is missing in the account. -/
theorem not_pool_inv {i : ℕ} (h : TableInv D isPrime (i :: flight) s) :
    ¬ s.terminals.pool.Inv fun i => ∃ n, s.slot D n = some i := by
  intro hpool
  have hin := (h.term.pool.inUse i).mp (Or.inr List.mem_cons_self)
  obtain ⟨n, hn⟩ := (hpool.inUse i).mpr hin
  exact h.term.apart n i hn List.mem_cons_self

/-- Without a node the slot is lost. -/
theorem newTerminal_noNode (h : TableInv D isPrime flight s) (hD : D.stored = true) (value : P)
    (type : ℕ)
    (hfull : (bddMakenode D isPrime
      { s with terminals := (mtbddInsertvalue s.terminals value).2 } maxlevel
      (terminalWords D type (some value)).1 (terminalWords D type (some value)).2).1 = 0) :
    let r := newTerminal D isPrime s value type (terminalWords D type (some value))
    r.1 = 0 ∧ ∃ i, TableInv D isPrime (i :: flight) r.2 := by
  have hready := ready_insertvalue h value
  unfold newTerminal
  dsimp only
  generalize mtbddInsertvalue s.terminals value = p at hready hfull ⊢
  obtain ⟨i, T⟩ := p
  dsimp only at hready hfull ⊢
  generalize ({ s with terminals := T } : BddState P) = t at hready hfull ⊢
  rw [bddMakenode_terminal (stored_notShort hD)] at hfull ⊢
  by_cases hfree : t.bddfreepos ≠ 0
  · rw [if_pos hfree] at hfull
    exact absurd hfull hfree
  rw [if_neg hfree] at hfull ⊢
  by_cases herr : t.bdderrorcond = true
  · rw [if_pos herr]
    refine ⟨rfl, i, (hready.full (fun hok => ?_) type).2⟩
    exact Bool.false_ne_true (hok.symm.trans herr)
  rw [if_neg herr] at hfull ⊢
  obtain ⟨hready', -⟩ := hready.makeRoom
  generalize makeRoom D isPrime t = u at hready' hfull ⊢
  dsimp only at hfull ⊢
  by_cases hfree' : u.bddfreepos = 0
  · rw [if_pos hfree']
    refine ⟨rfl, i, (hready'.report.full (fun hok => ?_) type).2⟩
    exact Bool.false_ne_true hok.symm
  · rw [if_neg hfree'] at hfull
    exact absurd hfull hfree'

/-- Whenever there is no node for a new terminal, the call fails half-way. -/
theorem mtbddMaketerminal_notAtomic (h : TableInv D isPrime flight s) (hD : D.stored = true)
    {value : P} {type : ℕ} (hfull : NoNode D isPrime s value type) :
    ∃ s', mtbddMaketerminal D isPrime s value type = some (0, s') ∧ ¬ Atomic D isPrime s s' := by
  obtain ⟨hcompare, hfind, hnone⟩ := hfull
  obtain ⟨h0, i, hi⟩ := newTerminal_noNode h hD value type hnone
  generalize hr : newTerminal D isPrime s value type (terminalWords D type (some value)) = r
    at h0 hi
  obtain ⟨n, t⟩ := r
  dsimp only at h0 hi
  subst h0
  have hnot : ¬ Atomic D isPrime s t := fun ha => not_pool_inv hi ha.slots
  unfold MtbddDomain.stored at hD
  unfold mtbddMaketerminal
  cases hd : D.domaintype with
  | longval | doubleval =>
    dsimp only
    rw [if_neg (not_not.mpr hfind), hr]
    exact ⟨t, rfl, hnot⟩
  | custom =>
    have hsome : ¬ (D.comparefun type).isNone = true := by
      have hc := hcompare hd
      cases hcmp : D.comparefun type with
      | none =>
        rw [hcmp] at hc
        exact absurd hc Bool.false_ne_true
      | some _ => exact Bool.false_ne_true
    dsimp only
    rw [if_neg hsome, if_neg (not_not.mpr hfind), hr]
    -- the count of the constant is cleared, too
    obtain ⟨hi', -, -⟩ := @setNode_const P D isPrime (i :: flight) t hi 0
      { t.bddnodes 0 with refcou := 0 } (by decide) (fun _ => rfl) rfl rfl rfl rfl
    exact ⟨_, rfl, fun ha => not_pool_inv hi' ha.slots⟩
  | intval | floatval | charval | unsignedval | ldoubleval | ulongval | unset =>
    rw [hd] at hD
    exact absurd hD Bool.false_ne_true

/-! ## A table with seven nodes -/

/-- Terminals of the domain `LONG`. -/
def longDomain : MtbddDomain UInt64 where
  domaintype := .longval
  word v := v.toUInt32
  ofWord := UInt32.toUInt64
  halves v := (v.toUInt32, (v >>> 32).toUInt32)
  equal v w := v == w
  typeNumber := 0
  hashfun _ := none
  comparefun _ := none

/-- The calls that fill the table: two variables and the terminal `10`. -/
def fillTable : List (TableCall UInt64) :=
  [.setvarnum 2, .maketerminal 10 0, .addref 6, .setmaxnodenum 8]

def fullTable : BddState UInt64 :=
  fillTable.foldl (TableCall.apply longDomain trialDivision) (bddInit 7 3)

theorem foldl_sound {calls : List (TableCall P)} (h : Sound D isPrime s)
    (hvalid : ∀ a ∈ calls, a.Valid D) :
    Sound D isPrime (calls.foldl (TableCall.apply D isPrime) s) := by
  induction calls generalizing s with
  | nil => exact h
  | cons a calls ih =>
    rw [List.foldl_cons]
    apply ih
    · exact TableCall.apply_sound h (hvalid a List.mem_cons_self)
    · intro b hb
      exact hvalid b (List.mem_cons_of_mem a hb)

theorem fullTable_sound : Sound longDomain trialDivision fullTable := by
  apply foldl_sound (bddInit_sound 3 ⟨by decide, by decide, by decide⟩)
  simp [fillTable, TableCall.Valid, longDomain]

/-- There is no node for the terminal `20`. -/
theorem fullTable_noNode : NoNode longDomain trialDivision fullTable 20 0 :=
  ⟨fun hc => absurd hc (by decide), by decide +kernel, by decide +kernel⟩

theorem mtbddMaketerminal_notAtomic_full :
    ∃ s', mtbddMaketerminal longDomain trialDivision fullTable 20 0 = some (0, s') ∧
      ¬ Atomic longDomain trialDivision fullTable s' := by
  obtain ⟨flight, hi⟩ := fullTable_sound.table
  exact mtbddMaketerminal_notAtomic hi rfl fullTable_noNode

/-- The constant `0` is overwritten with the index of the slot. -/
theorem fullTable_const_changed :
    Sound longDomain trialDivision fullTable ∧ NoNode longDomain trialDivision fullTable 20 0 ∧
      ∃ s', mtbddMaketerminal longDomain trialDivision fullTable 20 0 = some (0, s') ∧
        ¬ Atomic longDomain trialDivision fullTable s' := by
  have hrun : (mtbddMaketerminal longDomain trialDivision fullTable 20 0).map
      (fun r => (r.1, (r.2.key 0).high, (fullTable.key 0).high)) = some (0, 1, 0) := by
    decide +kernel
  obtain ⟨⟨n, s'⟩, hr, heq⟩ := Option.map_eq_some_iff.mp hrun
  dsimp only at heq
  obtain ⟨rfl, hkeys⟩ := Prod.mk.inj heq
  obtain ⟨hnew, hold⟩ := Prod.mk.inj hkeys
  refine ⟨fullTable_sound, fullTable_noNode, s', hr, fun ha => ?_⟩
  have hkey := congrArg BddKey.high (ha.node 0 (Or.inl (by decide))).1
  rw [hnew, hold] at hkey
  exact absurd hkey (by decide)

end MoToBuddy.Bdd
