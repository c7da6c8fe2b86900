import MoToBuddy.Bdd.Pairs
import MoToBuddy.Bdd.Survive

/-!
# Well-formed pairs

`Package.Consistent` is the invariant of the diagrams together with the pairs in use: the entries
of a pair are plain diagrams, pairs have ids of their own, and what is cached under the id of a pair
was computed for the trees that it has now (`Linked`). `Package.Owned` says that the references are
enough for the entries. What changes a pair gives it a new id, for which nothing is cached
(`Package.Consistent.updatePairsid`, `Package.Consistent.modify`).
-/

namespace MoToBuddy.Bdd

open Decision

variable {P : Type*} {D : MtbddDomain P} {isPrime : ℕ → Bool} {T : Theory P} {σ : PairTable P}
  {s s' : BddState P} {w : Package P}

/-! ## The nodes of the variables -/

/-- The node of a variable is a decision at its level, and no collection frees it. -/
theorem Good.ithvar (hs : Good T s) {v : ℕ} (hv : v < s.env.bddvarnum) :
    bddIthvar s v = (s.env.bddvarset (2 * v), s) ∧
      s.Reads T.D (s.env.bddvarset (2 * v)) (selfTree (s.env.bddvar2level v)) ∧
      (s.bddnodes (s.env.bddvarset (2 * v))).refcou = maxref ∧
      2 ≤ s.env.bddvarset (2 * v) := by
  have hpin := hs.order.pos v hv
  have hlevel := hs.order.level v hv
  have hdec : s.env.bddvar2level v ≠ maxlevel := by
    have := hs.num
    omega
  have h2 := (BddState.live_iff.mp hpin.live).1
  refine ⟨?_, .node h2 hpin.key hdec (.const false) (.const true), hpin.refcou, h2⟩
  unfold bddIthvar
  rw [if_neg (Nat.not_le.mpr hv)]

theorem evalBool_selfTree (l : ℕ) (x : ℕ → Bool) : evalBool (P := P) (selfTree l) x = x l := by
  rw [evalBool_node]
  cases x l <;> rfl

theorem Good.ithvar_represents (hs : Good T s) {v : ℕ} (hv : v < s.env.bddvarnum) :
    s.Represents T.D (s.env.bddvarset (2 * v)) fun a => a v := by
  obtain ⟨-, hr, -⟩ := hs.ithvar hv
  refine ⟨_, hr, ⟨trivial, trivial⟩, fun a => ?_⟩
  rw [evalBool_selfTree]
  exact congrArg a (hs.order.level v hv).2

/-! ## The invariant -/

/-- The diagrams are well formed, with the constants at the level after the last. -/
structure Base (D : MtbddDomain P) (isPrime : ℕ → Bool) (σ : PairTable P) (s : BddState P) :
    Prop where
  good : Good (full D isPrime σ s.env.bddvarnum) s
  signed : s.Signed
  leveled : s.Leveled

/-- A pair has a plain diagram for each level. -/
structure Shaped (D : MtbddDomain P) (s : BddState P) (q : BddPair) : Prop where
  entry : ∀ l < s.env.bddvarnum, ∃ f, s.Represents D (q.result l) f
  last : q.last ≤ 0 ∨ q.last < s.env.bddvarnum

/-- The trees of a pair: those of its entries up to the last level, and the decisions for the other
levels themselves. -/
structure Linked (D : MtbddDomain P) (s : BddState P) (q : BddPair) (θ : ℕ → DTree (Leaf P)) :
    Prop where
  entry : ∀ l < s.env.bddvarnum, (l : ℤ) ≤ q.last → s.Reads D (q.result l) (θ l) ∧ IsBool (θ l)
  rest : ∀ l : ℕ, q.last < l ∨ s.env.bddvarnum ≤ l → θ l = selfTree l

namespace Package

/-- The pairs are at addresses of their own, with ids of their own. -/
structure Arranged (D : MtbddDomain P) (w : Package P) : Prop where
  apart : w.pairs.Pairwise fun p q => p.1 ≠ q.1 ∧ p.2.id ≠ q.2.id
  issued : ∀ p ∈ w.pairs, p.2.id ≤ w.pairsid
  bound : w.pairsid < maxPairsid
  room : w.pairs.length < maxPairsid
  shaped : ∀ p ∈ w.pairs, Shaped D w.bdd p.2

/-- The diagrams and the pairs are well formed. -/
structure Consistent (D : MtbddDomain P) (isPrime : ℕ → Bool) (σ : PairTable P) (w : Package P) :
    Prop extends Base D isPrime σ w.bdd, Arranged D w where
  fresh : ∀ id, w.pairsid < id → σ id = none
  linked : ∀ p ∈ w.pairs, ∃ θ, σ p.2.id = some θ ∧ Linked D w.bdd p.2 θ

/-- The entries of the pairs in use. -/
def entries (w : Package P) : List ℕ :=
  w.pairs.flatMap fun p => (List.range w.bdd.env.bddvarnum).map p.2.result

/-- The pairs hold a reference to each of their entries. -/
def Owned (w : Package P) : Prop := w.bdd.Covers w.entries

end Package

open Package

/-! ## Trees -/

/-- A pair with a plain diagram for each level has trees. -/
theorem Shaped.exists_linked {q : BddPair} (h : Shaped D s q) : ∃ θ, Linked D s q θ := by
  have hentry : ∀ l, ∃ t, (l < s.env.bddvarnum → (l : ℤ) ≤ q.last →
      s.Reads D (q.result l) t ∧ IsBool t) ∧
      (q.last < l ∨ s.env.bddvarnum ≤ l → t = selfTree l) := by
    intro l
    by_cases hl : l < s.env.bddvarnum ∧ (l : ℤ) ≤ q.last
    · obtain ⟨f, t, hr, hb, -⟩ := h.entry l hl.1
      exact ⟨t, fun _ _ => ⟨hr, hb⟩, fun _ => by omega⟩
    · exact ⟨selfTree l, fun _ _ => by omega, fun _ => rfl⟩
  choose θ hθ using hentry
  exact ⟨θ, fun l hl hle => (hθ l).1 hl hle, fun l hl => (hθ l).2 hl⟩

theorem Linked.reads {q : BddPair} {θ : ℕ → DTree (Leaf P)} (h : Linked D s q θ)
    (hlev : s.Leveled) (hlast : q.last ≤ 0 ∨ q.last < s.env.bddvarnum)
    (href : ∀ l < s.env.bddvarnum, s.Referenced (q.result l)) : PairReads D s q θ := by
  refine ⟨fun l hl hle => ⟨href l hl, h.entry l hl hle⟩, fun l hl => h.rest l (Or.inl hl),
    by rw [hlev 0 (by decide), hlev 1 (by decide)], fun n hn => ?_⟩
  rw [hlev n hn]
  have hmax : maxlevel = 0x1FFFFF := rfl
  split_ifs <;> omega

theorem Shaped.reads {q : BddPair} (h : Shaped D s q)
    (hnum : s'.env.bddvarnum = s.env.bddvarnum)
    (hrep : ∀ l < s.env.bddvarnum, ∀ f, s.Represents D (q.result l) f →
      s'.Represents D (q.result l) f) : Shaped D s' q := by
  constructor
  · rw [hnum]
    exact fun l hl => (h.entry l hl).imp fun f hf => hrep l hl f hf
  · rw [hnum]
    exact h.last

/-! ## References -/

section

variable {L L' : List ℕ}

/-- Nodes whose counts are saturated need no references. -/
theorem BddState.Covers.saturated (h : s.Covers L) (L' : List ℕ)
    (hsat : ∀ n ∈ L', (s.bddnodes n).refcou = maxref) : s.Covers (L' ++ L) := by
  intro n hn
  by_cases hmem : n ∈ L'
  · exact Or.inl (hsat n hmem).ge
  · rw [List.count_append, List.count_eq_zero.mpr hmem, Nat.zero_add]
    exact h n hn

end

namespace Package

theorem mem_entries {n : ℕ} : n ∈ w.entries ↔
    ∃ p ∈ w.pairs, ∃ l < w.bdd.env.bddvarnum, p.2.result l = n := by
  simp [entries]

/-- The entries are referenced. -/
theorem Owned.referenced (h : w.Owned) {p : ℕ × BddPair} (hp : p ∈ w.pairs)
    (hs : Shaped D w.bdd p.2) {l : ℕ} (hl : l < w.bdd.env.bddvarnum) :
    w.bdd.Referenced (p.2.result l) := by
  obtain ⟨f, t, hr, -⟩ := hs.entry l hl
  exact BddState.Covers.referenced h (mem_entries.mpr ⟨p, hp, l, hl, rfl⟩) hr.isNode

/-- Other diagrams, in which the entries still are what they were. -/
theorem Consistent.rebase (h : w.Consistent D isPrime σ) (hb : Base D isPrime σ s')
    (hnum : s'.env.bddvarnum = w.bdd.env.bddvarnum)
    (horder : s'.env.bddlevel2var = w.bdd.env.bddlevel2var)
    (hreads : ∀ p ∈ w.pairs, ∀ l < w.bdd.env.bddvarnum, ∀ t,
      w.bdd.Reads D (p.2.result l) t → s'.Reads D (p.2.result l) t) :
    Consistent D isPrime σ { w with bdd := s' } := by
  have hassign : s'.assign = w.bdd.assign := by
    unfold BddState.assign
    rw [horder]
  refine { hb with
    apart := h.apart
    issued := h.issued
    bound := h.bound
    room := h.room
    fresh := h.fresh
    shaped := fun p hp => (h.shaped p hp).reads hnum fun l hl f hf => ?_
    linked := fun p hp => ?_ }
  · obtain ⟨t, hr, hbt, hft⟩ := hf
    exact ⟨t, hreads p hp l hl t hr, hbt, fun a => by rw [hassign]; exact hft a⟩
  · obtain ⟨θ, hσ, hθ⟩ := h.linked p hp
    refine ⟨θ, hσ, fun l hl hle => ?_, fun l hl => hθ.rest l ?_⟩
    · rw [show (Package.mk s' w.pairs w.pairsid).bdd.env.bddvarnum = _ from hnum] at hl
      exact (hθ.entry l hl hle).imp_left (hreads p hp l hl _)
    · rw [show (Package.mk s' w.pairs w.pairsid).bdd.env.bddvarnum = _ from hnum] at hl
      exact hl

theorem Owned.rebase (h : w.Owned) (hnum : s'.env.bddvarnum = w.bdd.env.bddvarnum)
    (hle : ∀ n, 2 ≤ n →
      maxref ≤ (s'.bddnodes n).refcou ∨ (w.bdd.bddnodes n).refcou ≤ (s'.bddnodes n).refcou) :
    Owned { w with bdd := s' } := by
  have hentries : entries { w with bdd := s' } = w.entries := by
    unfold entries
    rw [show (Package.mk s' w.pairs w.pairsid).bdd.env.bddvarnum = _ from hnum]
  unfold Owned
  rw [hentries]
  exact BddState.Covers.of_le h hle

/-! ## Changes of a pair -/

@[simp] theorem modify_bdd (w : Package P) (pair : ℕ) (f : BddPair → BddPair) :
    (w.modify pair f).bdd = w.bdd := rfl

@[simp] theorem modify_pairsid (w : Package P) (pair : ℕ) (f : BddPair → BddPair) :
    (w.modify pair f).pairsid = w.pairsid := rfl

theorem modify_modify (w : Package P) (pair : ℕ) (f g : BddPair → BddPair) :
    (w.modify pair f).modify pair g = w.modify pair (g ∘ f) := by
  unfold modify
  rw [List.map_map]
  refine congrArg (Package.mk w.bdd · w.pairsid) (List.map_congr_left fun p _ => ?_)
  by_cases h : p.1 = pair <;> simp [modifyAt, h]

@[simp] theorem length_renumber (pairs : List (ℕ × BddPair)) :
    (renumber pairs).length = pairs.length := List.length_mapIdx

theorem mem_renumber {pairs : List (ℕ × BddPair)} {p : ℕ × BddPair} :
    p ∈ renumber pairs ↔ ∃ q, pairs[p.2.id]? = some q ∧ p = (q.1, { q.2 with id := p.2.id }) := by
  unfold renumber
  rw [List.mem_iff_getElem?]
  constructor
  · rintro ⟨i, hi⟩
    rw [List.getElem?_mapIdx, Option.map_eq_some_iff] at hi
    obtain ⟨q, hq, rfl⟩ := hi
    exact ⟨q, hq, rfl⟩
  · rintro ⟨q, hq, hp⟩
    exact ⟨p.2.id, by rw [List.getElem?_mapIdx, hq, hp]; rfl⟩

theorem renumber_map (pairs : List (ℕ × BddPair)) {f : ℕ × BddPair → ℕ × BddPair}
    (hf : ∀ p id, f (p.1, { p.2 with id := id }) = ((f p).1, { (f p).2 with id := id })) :
    renumber (pairs.map f) = (renumber pairs).map f := by
  refine List.ext_getElem (by simp) fun n _ _ => ?_
  simp only [renumber, List.getElem_mapIdx, List.getElem_map]
  exact (hf _ n).symm

theorem updatePairsid_fst (w : Package P) : w.updatePairsid.1 = w.updatePairsid.2.pairsid := by
  unfold updatePairsid
  dsimp only
  split <;> rfl

/-- A new id does not depend on what the pairs are. -/
theorem updatePairsid_modify (w : Package P) (pair : ℕ) {f : BddPair → BddPair}
    (hf : ∀ p id, f { p with id := id } = { f p with id := id }) :
    (w.modify pair f).updatePairsid =
      (w.updatePairsid.1, w.updatePairsid.2.modify pair f) := by
  have hrenumber := renumber_map w.pairs (f := modifyAt pair f) fun p id => by
    unfold modifyAt
    by_cases h : p.1 = pair
    · rw [if_pos h, if_pos h, hf]
    · rw [if_neg h, if_neg h]
  unfold updatePairsid
  dsimp only [modify_pairsid]
  split
  · unfold modify
    dsimp only
    rw [hrenumber, List.length_map]
  · rfl

/-- A changed pair with a new id. -/
theorem refresh_modify (w : Package P) (pair : ℕ) {f : BddPair → BddPair}
    (hf : ∀ p id, f { p with id := id } = { f p with id := id }) :
    (w.modify pair f).refresh pair = w.updatePairsid.2.modify pair fun p =>
      { f p with id := w.updatePairsid.2.pairsid } := by
  unfold refresh
  rw [updatePairsid_modify w pair hf]
  dsimp only
  rw [modify_modify, updatePairsid_fst]
  rfl

/-- The addresses and the contents of the pairs are as before. -/
theorem updatePairsid_pairs (w : Package P) :
    w.updatePairsid.2.pairs.map (fun p => (p.1, p.2.result, p.2.last)) =
      w.pairs.map fun p => (p.1, p.2.result, p.2.last) := by
  unfold updatePairsid
  dsimp only
  split
  · exact List.ext_getElem (by simp) fun n _ _ => by simp [renumber]
  · rfl

/-- What holds of the addresses and the contents of the pairs still holds after a new id. -/
theorem forall_updatePairsid {p : ℕ → (ℕ → ℕ) → ℤ → Prop}
    (h : ∀ q ∈ w.pairs, p q.1 q.2.result q.2.last) :
    ∀ q ∈ w.updatePairsid.2.pairs, p q.1 q.2.result q.2.last := by
  intro q hq
  have hmem : (q.1, q.2.result, q.2.last) ∈
      w.updatePairsid.2.pairs.map fun p => (p.1, p.2.result, p.2.last) :=
    List.mem_map_of_mem hq
  rw [updatePairsid_pairs, List.mem_map] at hmem
  obtain ⟨r, hr, heq⟩ := hmem
  simp only [Prod.mk.injEq] at heq
  obtain ⟨h1, h2, h3⟩ := heq
  exact h1 ▸ h2 ▸ h3 ▸ h r hr

theorem updatePairsid_bdd (w : Package P) :
    ∃ C : Caches, w.updatePairsid.2.bdd = { w.bdd with caches := C } := by
  unfold updatePairsid
  dsimp only
  split <;> exact ⟨_, rfl⟩

end Package

/-- Flushing the caches. -/
theorem Good.reset (h : Good T s) : Good T { s with caches := s.caches.reset } ∧
    ∀ k i, (s.caches.reset k).isValid i = false := by
  obtain ⟨flight, hi, -⟩ := h.inv.table
  have hflush : ∀ k i, (s.caches.reset k).isValid i = false := fun k i =>
    (hi.caches k).reset_isValid i
  have halike : Alike s { s with caches := s.caches.reset } :=
    ⟨⟨fun _ _ => rfl, fun n _ => hi.level n, hi.refcou, fun _ => rfl, rfl, rfl, rfl,
      fun k => (hi.caches k).reset⟩, rfl, id, fun k i hv => ?_, h.inv.graph.stack⟩
  · exact ⟨h.recache halike, hflush⟩
  exact absurd ((hflush k i).symm.trans hv) Bool.false_ne_true

theorem Base.reset (h : Base D isPrime σ s) (σ' : PairTable P) :
    Base D isPrime σ' { s with caches := s.caches.reset } :=
  ⟨h.good.reset.1.flushed h.good.reset.2 σ' s.env.bddvarnum, h.signed, h.leveled⟩

namespace Package

/-- A table for the pairs. -/
theorem Arranged.exists_table (h : Arranged D w) : ∃ σ : PairTable P,
    (∀ p ∈ w.pairs, ∃ θ, σ p.2.id = some θ ∧ Linked D w.bdd p.2 θ) ∧
    ∀ id, w.pairsid < id → σ id = none := by
  have hsymm : Std.Symm fun p q : ℕ × BddPair => p.1 ≠ q.1 ∧ p.2.id ≠ q.2.id :=
    ⟨fun _ _ h => ⟨h.1.symm, h.2.symm⟩⟩
  have hid : ∀ id, ∃ o : Option (ℕ → DTree (Leaf P)),
      (∀ p ∈ w.pairs, p.2.id = id → ∃ θ, o = some θ ∧ Linked D w.bdd p.2 θ) ∧
      (w.pairsid < id → o = none) := by
    intro id
    by_cases hex : ∃ p ∈ w.pairs, p.2.id = id
    · obtain ⟨p, hp, rfl⟩ := hex
      obtain ⟨θ, hθ⟩ := (h.shaped p hp).exists_linked
      refine ⟨some θ, fun q hq heq => ⟨θ, rfl, ?_⟩, fun hlt => ?_⟩
      · have hqp : q = p := by
          by_contra hne
          exact (h.apart.forall hq hp hne).2 heq
        rw [hqp]
        exact hθ
      · exact absurd (h.issued p hp) (Nat.not_le.mpr hlt)
    · exact ⟨none, fun p hp heq => absurd ⟨p, hp, heq⟩ hex, fun _ => rfl⟩
  choose σ hσ using hid
  exact ⟨σ, fun p hp => (hσ p.2.id).1 p hp rfl, fun id => (hσ id).2⟩

/-- Pairs without cached results. -/
theorem Arranged.consistent (h : Arranged D w) (hb : ∀ σ, Base D isPrime σ w.bdd) :
    ∃ σ, w.Consistent D isPrime σ := by
  obtain ⟨σ, hlinked, hfresh⟩ := h.exists_table
  exact ⟨σ, { hb σ, h with fresh := hfresh, linked := hlinked }⟩

theorem apart_renumber {pairs : List (ℕ × BddPair)}
    (h : pairs.Pairwise fun p q => p.1 ≠ q.1 ∧ p.2.id ≠ q.2.id) :
    (renumber pairs).Pairwise fun p q => p.1 ≠ q.1 ∧ p.2.id ≠ q.2.id := by
  rw [List.pairwise_iff_getElem] at h ⊢
  intro i j hi hj hij
  rw [length_renumber] at hi hj
  simp only [renumber, List.getElem_mapIdx]
  exact ⟨(h i j hi hj hij).1, hij.ne⟩

/-- The next id is one that no pair has, and that nothing is cached for. -/
theorem Consistent.updatePairsid (h : w.Consistent D isPrime σ) : ∃ σ',
    w.updatePairsid.2.Consistent D isPrime σ' ∧
      (∀ p ∈ w.updatePairsid.2.pairs, p.2.id < w.updatePairsid.2.pairsid) ∧
      σ' w.updatePairsid.2.pairsid = none := by
  have hbound := h.bound
  have hroom := h.room
  unfold Package.updatePairsid
  dsimp only
  split
  · have hlt : ∀ p ∈ renumber w.pairs, p.2.id < w.pairs.length := fun p hp => by
      obtain ⟨q, hq, -⟩ := mem_renumber.mp hp
      exact (List.getElem?_eq_some_iff.mp hq).1
    have harranged : Arranged D (Package.mk { w.bdd with caches := w.bdd.caches.reset }
        (renumber w.pairs) w.pairs.length) := {
      apart := apart_renumber h.apart
      issued := fun p hp => (hlt p hp).le
      bound := hroom
      room := by
        show (renumber w.pairs).length < maxPairsid
        rw [length_renumber]
        exact hroom
      shaped := fun p hp => by
        obtain ⟨q, hq, hpq⟩ := mem_renumber.mp hp
        have hs := h.shaped q (List.mem_of_getElem? hq)
        rw [hpq]
        exact ⟨fun l hl => (hs.entry l hl).imp fun f hf => hf.imp fun t ht =>
          ⟨ht.1.congr fun _ _ => ⟨rfl, fun _ _ => rfl⟩, ht.2⟩, hs.last⟩ }
    obtain ⟨σ', hlinked, hfresh⟩ := harranged.exists_table
    -- the next id is for the pair that gets it
    refine ⟨fun id => if id < w.pairs.length then σ' id else none, {
      h.toBase.reset _, harranged with
      fresh := fun id hid => if_neg (Nat.not_lt.mpr hid.le)
      linked := fun p hp => ?_ }, hlt, if_neg (lt_irrefl _)⟩
    rw [if_pos (hlt p hp)]
    exact hlinked p hp
  · rename_i hne
    refine ⟨σ, { h.toBase with
      apart := h.apart
      issued := fun p hp => (h.issued p hp).trans (Nat.le_succ _)
      bound := by
        show w.pairsid + 1 < maxPairsid
        omega
      room := hroom
      shaped := h.shaped
      fresh := fun id hid => h.fresh id (Nat.lt_of_succ_lt hid)
      linked := h.linked }, fun p hp => Nat.lt_succ_of_le (h.issued p hp),
      h.fresh _ (Nat.lt_succ_self _)⟩

section

variable {pairs : List (ℕ × BddPair)} {pair : ℕ} {p r : ℕ × BddPair}

/-- Pairs at one address are the same. -/
theorem Consistent.eq_of_fst (h : w.Consistent D isPrime σ) (hp : p ∈ w.pairs) (hr : r ∈ w.pairs)
    (heq : p.1 = r.1) : p = r := by
  by_contra hne
  have hsymm : Std.Symm fun p q : ℕ × BddPair => p.1 ≠ q.1 ∧ p.2.id ≠ q.2.id :=
    ⟨fun _ _ h => ⟨h.1.symm, h.2.symm⟩⟩
  exact (h.apart.forall hp hr hne).1 heq

/-- Some of the pairs, and one with the new id. -/
theorem Consistent.renew (h : w.Consistent D isPrime σ) (hid : ∀ p ∈ w.pairs, p.2.id < w.pairsid)
    (hnone : σ w.pairsid = none) (hr : Shaped D w.bdd r.2) (hrid : r.2.id = w.pairsid)
    (hmem : ∀ p ∈ pairs, p = r ∨ p ∈ w.pairs)
    (hapart : pairs.Pairwise fun p q => p.1 ≠ q.1 ∧ p.2.id ≠ q.2.id)
    (hroom : pairs.length < maxPairsid) :
    ∃ σ', Consistent D isPrime σ' { w with pairs := pairs } := by
  obtain ⟨θ, hθ⟩ := hr.exists_linked
  have hne : ∀ id θ', σ id = some θ' → id ≠ w.pairsid := fun id θ' hσ he => by
    rw [he, hnone] at hσ
    exact absurd hσ (by simp)
  refine ⟨Function.update σ w.pairsid (some θ), {
    good := h.good.extend fun id θ' hσ => by
      rw [Function.update_of_ne (hne id θ' hσ)]
      exact hσ
    signed := h.signed
    leveled := h.leveled
    apart := hapart
    issued := fun p hp => ?_
    bound := h.bound
    room := hroom
    shaped := fun p hp => ?_
    fresh := fun id (hlt : w.pairsid < id) => ?_
    linked := fun p hp => ?_ }⟩
  · rcases hmem p hp with rfl | hp
    · exact hrid.le
    · exact h.issued p hp
  · rcases hmem p hp with rfl | hp
    · exact hr
    · exact h.shaped p hp
  · rw [Function.update_of_ne hlt.ne']
    exact h.fresh id hlt
  · rcases hmem p hp with rfl | hp
    · exact ⟨θ, by rw [hrid, Function.update_self], hθ⟩
    · obtain ⟨θ', hσ, hθ'⟩ := h.linked p hp
      exact ⟨θ', by rw [Function.update_of_ne (hid p hp).ne]; exact hσ, hθ'⟩

/-- Some of the pairs. -/
theorem Consistent.sublist (h : w.Consistent D isPrime σ) (hsub : pairs.Sublist w.pairs) :
    Consistent D isPrime σ { w with pairs := pairs } :=
  { h.toBase with
    apart := h.apart.sublist hsub
    issued := fun p hp => h.issued p (hsub.subset hp)
    bound := h.bound
    room := hsub.length_le.trans_lt h.room
    shaped := fun p hp => h.shaped p (hsub.subset hp)
    fresh := h.fresh
    linked := fun p hp => h.linked p (hsub.subset hp) }

/-- A changed pair gets a new id. -/
theorem Consistent.refresh (h : w.Consistent D isPrime σ) {f : BddPair → BddPair}
    (hf : ∀ p id, f { p with id := id } = { f p with id := id }) (hp : p ∈ w.pairs)
    (hshaped : Shaped D w.bdd (f p.2)) :
    ∃ σ', Consistent D isPrime σ' ((w.modify p.1 f).refresh p.1) := by
  obtain ⟨σ', h', hid, hnone⟩ := h.updatePairsid
  rw [refresh_modify w p.1 hf]
  obtain ⟨C, hC⟩ := updatePairsid_bdd w
  -- what the pair at the address is by then
  have hat : ∀ q ∈ w.updatePairsid.2.pairs, q.1 = p.1 →
      (⟨q.2.result, q.2.last, 0⟩ : BddPair) = ⟨p.2.result, p.2.last, 0⟩ :=
    forall_updatePairsid (p := fun a r l => a = p.1 →
      (⟨r, l, 0⟩ : BddPair) = ⟨p.2.result, p.2.last, 0⟩) fun q hq heq => by
      rw [h.eq_of_fst hq hp heq]
  have hnew : ∀ q ∈ w.updatePairsid.2.pairs, q.1 = p.1 → ∀ id,
      { f q.2 with id := id } = { f p.2 with id := id } := by
    intro q hq heq id
    have hq' : ({ f q.2 with id := 0 } : BddPair) = { f p.2 with id := 0 } := by
      rw [← hf q.2 0, ← hf p.2 0, hat q hq heq]
    exact congrArg (fun q : BddPair => { q with id := id }) hq'
  refine h'.renew (r := (p.1, { f p.2 with id := w.updatePairsid.2.pairsid })) hid hnone ?_ rfl
    (fun q hq => ?_) ?_ ?_
  · rw [hC]
    exact ⟨fun l hl => (hshaped.entry l hl).imp fun g hg => hg.imp fun t ht =>
      ⟨ht.1.congr fun _ _ => ⟨rfl, fun _ _ => rfl⟩, ht.2⟩, hshaped.last⟩
  · obtain ⟨q', hq', rfl⟩ := List.mem_map.mp hq
    unfold modifyAt
    split
    · rename_i heq
      exact Or.inl (Prod.ext heq (hnew q' hq' heq _))
    · exact Or.inr hq'
  · refine List.pairwise_map.mpr (h'.apart.imp_of_mem fun {q r} hq hr hqr => ?_)
    have := hid q hq
    have := hid r hr
    unfold modifyAt
    split_ifs with hq1 hr1 hr1
    · exact absurd (hq1.trans hr1.symm) hqr.1
    · exact ⟨hqr.1, by dsimp only; omega⟩
    · exact ⟨hqr.1, by dsimp only; omega⟩
    · exact hqr
  · rw [List.length_map]
    exact h'.room

end

/-! ## Entries -/

theorem lookup_mem {pairs : List (ℕ × BddPair)} {pair : ℕ} {p : BddPair}
    (h : pairs.lookup pair = some p) : (pair, p) ∈ pairs := by
  obtain ⟨l₁, l₂, rfl, -⟩ := List.lookup_eq_some_iff.mp h
  simp

theorem entries_congr {w' : Package P} (hnum : w'.bdd.env.bddvarnum = w.bdd.env.bddvarnum)
    (h : w'.pairs.map (fun p => p.2.result) = w.pairs.map fun p => p.2.result) :
    w'.entries = w.entries := by
  have hmap : ∀ u : Package P, u.entries = (u.pairs.map fun p => p.2.result).flatMap fun r =>
      (List.range u.bdd.env.bddvarnum).map r := fun u => by
    rw [List.flatMap_map]
    rfl
  rw [hmap, hmap, h, hnum]

theorem entries_refresh (w : Package P) (pair : ℕ) : (w.refresh pair).entries = w.entries := by
  obtain ⟨C, hC⟩ := updatePairsid_bdd w
  refine entries_congr (congrArg (·.env.bddvarnum) hC) ?_
  have hpairs := congrArg (List.map fun x : ℕ × (ℕ → ℕ) × ℤ => x.2.1) (updatePairsid_pairs w)
  rw [List.map_map, List.map_map] at hpairs
  refine Eq.trans ?_ hpairs
  show (w.updatePairsid.2.pairs.map _).map _ = _
  rw [List.map_map]
  refine List.map_congr_left fun p _ => ?_
  show (modifyAt pair _ p).2.result = p.2.result
  unfold modifyAt
  split <;> rfl

/-- Only the entries of the pair that is written to change. -/
theorem Consistent.entries_modify (h : w.Consistent D isPrime σ) {p : ℕ × BddPair}
    (hp : p ∈ w.pairs) (f : BddPair → BddPair) : ∃ A B,
      w.entries = A ++ (List.range w.bdd.env.bddvarnum).map p.2.result ++ B ∧
      (w.modify p.1 f).entries =
        A ++ (List.range w.bdd.env.bddvarnum).map (f p.2).result ++ B := by
  obtain ⟨l₁, l₂, hl⟩ := List.append_of_mem hp
  have hapart := h.apart
  rw [hl, List.pairwise_append, List.pairwise_cons] at hapart
  obtain ⟨-, ⟨h₂, -⟩, h₁⟩ := hapart
  have hsame : ∀ l : List (ℕ × BddPair), (∀ q ∈ l, q.1 ≠ p.1) → l.map (modifyAt p.1 f) = l := by
    intro l hne
    conv_rhs => rw [← List.map_id l]
    exact List.map_congr_left fun q hq => if_neg (hne q hq)
  refine ⟨l₁.flatMap fun p => (List.range w.bdd.env.bddvarnum).map p.2.result,
    l₂.flatMap fun p => (List.range w.bdd.env.bddvarnum).map p.2.result, ?_, ?_⟩
  · unfold entries
    rw [hl]
    simp
  · unfold entries modify
    dsimp only
    rw [hl, List.map_append, List.map_cons, hsame l₁ fun q hq => (h₁ q hq p List.mem_cons_self).1,
      hsame l₂ fun q hq => (h₂ q hq).1.symm]
    simp [modifyAt]

/-- One entry of a pair is another. -/
theorem Consistent.entries_update (h : w.Consistent D isPrime σ) {p : ℕ × BddPair}
    (hp : p ∈ w.pairs) {f : BddPair → BddPair} {level new : ℕ} (hl : level < w.bdd.env.bddvarnum)
    (hf : (f p.2).result = Function.update p.2.result level new) : ∃ L,
      w.entries.Perm (p.2.result level :: L) ∧ (w.modify p.1 f).entries.Perm (new :: L) := by
  obtain ⟨A, B, hA, hB⟩ := h.entries_modify hp f
  have herase := List.perm_cons_erase (List.mem_range.mpr hl)
  refine ⟨A ++ ((List.range w.bdd.env.bddvarnum).erase level).map p.2.result ++ B, ?_, ?_⟩
  · rw [hA]
    refine (((herase.map p.2.result).append_left A).append_right B).trans ?_
    rw [List.map_cons, List.append_assoc, List.append_assoc]
    exact List.perm_middle
  · have hmap : ((List.range w.bdd.env.bddvarnum).erase level).map
        (Function.update p.2.result level new) =
        ((List.range w.bdd.env.bddvarnum).erase level).map p.2.result :=
      List.map_congr_left fun l hl' => Function.update_of_ne
        ((List.nodup_range.mem_erase_iff).mp hl').1 _ _
    rw [hB, hf]
    refine (((herase.map _).append_left A).append_right B).trans ?_
    rw [List.map_cons, Function.update_self, hmap, List.append_assoc, List.append_assoc]
    exact List.perm_middle

end Package

end MoToBuddy.Bdd
