import MoToBuddy.Evdd.ValueIndex

/-!
# The intern table: invariant, interning and collection

`ValueInv` is the invariant of the intern table: rows and free list partition the slots,
the index finds every row of an indexed type, no row is a zero or a duplicate, no mark is
set. `evdd_value_intern` keeps it and every row (`evddValueIntern_spec`), and
`evdd_value_sweep` frees exactly the rows that are neither marked nor referenced
(`evddValueSweep_spec`).
-/

namespace MoToBuddy.Evdd

open CountedLoop Probing

variable {P : Type*} [DecidableEq P]

/-- The contract of a type whose values are told apart exactly: the comparison is an
equivalence, and values it calls equal have one hash if the type has a hash at all. -/
structure LawfulCompare (T : ValueTypes P) (type : ℕ) : Prop where
  nocell : (T.fns type).cellfun = none
  refl : ∀ a, compareOf T type a a = true
  symm : ∀ a b, compareOf T type a b = true → compareOf T type b a = true
  trans : ∀ a b c, compareOf T type a b = true → compareOf T type b c = true →
    compareOf T type a c = true
  hash : ∀ hashfun, (T.fns type).hashfun = some hashfun → ∀ a b,
    compareOf T type a b = true → hashfun a = hashfun b

/-- The hash `evdd_value_intern` stores with a payload, if its type is indexed. -/
def storedHash (T : ValueTypes P) (type : ℕ) (u : P) : Option UInt32 :=
  match (T.fns type).cellfun with
  | some cellfun => some (evddValueCellHash (cellfun u) type)
  | none => (T.fns type).hashfun.map (· u)

/-- The invariant of the intern table. -/
structure ValueInv (T : ValueTypes P) (V : ValueTable P) : Prop where
  fresh : V.evddmaxValueSize = 0 → V.evddLastValueIndex = 0
  bounds : V.evddmaxValueSize ≠ 0 →
    1 ≤ V.evddLastValueIndex ∧ V.evddLastValueIndex ≤ V.evddmaxValueSize
  row : ∀ i, (V.evddValues i).payload.isSome → 0 < i ∧ i < V.evddLastValueIndex
  free_nodup : V.freelist.Nodup
  free_mem : ∀ i, i ∈ V.freelist ↔
    (0 < i ∧ i < V.evddLastValueIndex) ∧ (V.evddValues i).payload = none
  idx : IdxInv V (Indexed T V)
  typed : ∀ i u, (V.evddValues i).payload = some u →
    (V.evddValues i).type < T.typeNumber ∧
    isZeroPayload T (V.evddValues i).type u = false ∧
    (V.evddValues i).hash = (storedHash T (V.evddValues i).type u).getD 0
  unmarked : ∀ i, (V.evddValues i).mark = false
  unique : ∀ i j u v, (V.evddValues i).payload = some u → (V.evddValues j).payload = some v →
    (V.evddValues i).type = (V.evddValues j).type →
    LawfulCompare T (V.evddValues i).type →
    compareOf T (V.evddValues i).type u v = true → i = j

/-- `V'` has every row of `V`, unchanged. -/
def ValueTable.Ext (V V' : ValueTable P) : Prop :=
  ∀ i, (V.evddValues i).payload.isSome → V'.evddValues i = V.evddValues i

omit [DecidableEq P] in
theorem ValueTable.Ext.refl (V : ValueTable P) : V.Ext V := fun _ _ => rfl

omit [DecidableEq P] in
theorem ValueTable.Ext.trans {V V' V'' : ValueTable P} (h : V.Ext V') (h' : V'.Ext V'') :
    V.Ext V'' := fun i hi => by
  rw [h' i (by rw [h i hi]; exact hi), h i hi]

theorem ValueInv.empty (T : ValueTypes P) : ValueInv T (ValueTable.empty : ValueTable P) := by
  refine ⟨fun _ => rfl, fun h => absurd rfl h, ?_, List.nodup_nil, ?_, ⟨?_, ?_, ?_⟩, ?_, ?_, ?_⟩
  all_goals simp [ValueTable.empty, EvddValueRow.zero, occupied, Indexed]

/-! ## Live rows -/

variable {T : ValueTypes P} {V : ValueTable P}

theorem ValueInv.max_ne_zero (hV : ValueInv T V) {i : ℕ}
    (hi : (V.evddValues i).payload.isSome) : V.evddmaxValueSize ≠ 0 := fun h0 => by
  have := hV.row i hi
  have := hV.fresh h0
  omega

/-- A row with payload is live, and reads see its payload and type. -/
theorem ValueInv.read (hV : ValueInv T V) {i : ℕ} {u : P}
    (hi : (V.evddValues i).payload = some u) :
    i ≠ 0 ∧ evddValueLive V i = true ∧ evddValueTypeOf V i = some (V.evddValues i).type ∧
      evddValueGet V i = some u := by
  have hs : (V.evddValues i).payload.isSome := by simp [hi]
  have hr := hV.row i hs
  have hm := hV.max_ne_zero hs
  have h0 : i ≠ 0 := by omega
  refine ⟨h0, ?_, ?_, ?_⟩
  · simp [evddValueLive, h0, hm, hr.2, hi]
  · simp [evddValueTypeOf, h0, hm, hr.2, hi]
  · simp [evddValueGet, h0, hm, hr.2, hi]

theorem evddValueLive_iff (hV : ValueInv T V) (i : ℕ) :
    evddValueLive V i = true ↔ (V.evddValues i).payload.isSome = true := by
  refine ⟨fun h => by simp only [evddValueLive, Bool.and_eq_true] at h; exact h.2, fun h => ?_⟩
  obtain ⟨u, hu⟩ := Option.isSome_iff_exists.mp h
  exact (hV.read hu).2.1

/-! ## Looking a payload up -/

/-- Row `i` holds a value of the type that compares equal to `value`. -/
def RowMatches (T : ValueTypes P) (V : ValueTable P) (type : ℕ) (value : P) (i : ℕ) : Prop :=
  ∃ u, (V.evddValues i).payload = some u ∧ (V.evddValues i).type = type ∧
    compareOf T type value u = true

theorem idxMatches_iff {h : UInt32} {type : ℕ} {value : P} {j : ℕ} :
    idxMatches T V h type value j = true ↔
      RowMatches T V type value j ∧ (V.evddValues j).hash = h := by
  rw [idxMatches, RowMatches]
  cases (V.evddValues j).payload with
  | none => simp
  | some u =>
    simp only [Bool.and_eq_true, decide_eq_true_eq, Option.some.injEq, exists_eq_left']
    tauto

theorem evddValueIdxLookup_sound {h : UInt32} {type : ℕ} {value : P}
    (hne : evddValueIdxLookup T V h type value ≠ 0) :
    RowMatches T V type value (evddValueIdxLookup T V h type value) := by
  rw [evddValueIdxLookup] at hne ⊢
  split at hne
  · exact absurd rfl hne
  · rename_i hc
    rw [if_neg hc]
    have hhome : idxHome h type V.idxCap < V.idxCap := Nat.mod_lt _ (by omega)
    exact (idxMatches_iff.mp (lookup_sound hhome hne).1).1

theorem evddValueCellLookup_sound {type : ℕ} {value : P} {base : List ℤ}
    (hne : evddValueCellLookup T V value type base ≠ 0) :
    RowMatches T V type value (evddValueCellLookup T V value type base) := by
  rw [evddValueCellLookup] at hne ⊢
  generalize cellOffsets (T.fns type).naxes = l at hne ⊢
  revert hne
  refine List.foldlRecOn (motive := fun found => found ≠ 0 → RowMatches T V type value found)
    l _ (fun h => absurd rfl h) ?_
  intro found ih ofs _ hne
  by_cases hf : found ≠ 0
  · rw [if_pos hf] at hne ⊢
    exact ih hf
  · rw [if_neg hf] at hne ⊢
    exact evddValueIdxLookup_sound hne

/-- What the linear search finds in one row. -/
def rowHit (T : ValueTypes P) (V : ValueTable P) (type : ℕ) (value : P) (i : ℕ) : ℕ :=
  match (V.evddValues i).payload with
  | none => 0
  | some u => if (V.evddValues i).type = type && compareOf T type value u then i else 0

/-- The linear search returns a match if there is one. -/
theorem linearSearch_spec (type : ℕ) (value : P) :
    (linearSearch T V value type ≠ 0 →
      RowMatches T V type value (linearSearch T V value type)) ∧
    (linearSearch T V value type = 0 →
      ∀ i, 1 ≤ i → i < V.evddLastValueIndex → ¬ RowMatches T V type value i) := by
  have hstep : ∀ i, rowHit T V type value i = 0 ∧ (0 < i → ¬ RowMatches T V type value i) ∨
      rowHit T V type value i = i ∧ RowMatches T V type value i := by
    intro i
    simp only [rowHit, RowMatches]
    cases (V.evddValues i).payload with
    | none => simp
    | some u =>
      by_cases hc : (V.evddValues i).type = type ∧ compareOf T type value u = true
      · right; simp [hc]
      · left
        refine ⟨by simp [hc], fun _ => ?_⟩
        rintro ⟨v, hv, ht⟩
        obtain rfl : u = v := by simpa using hv
        exact hc ht
  have hloop := forUp_induct (a := 1) (k := V.evddLastValueIndex - 1) (s := 0)
    (f := fun i found => if found ≠ 0 then found else rowHit T V type value i)
    (fun n found => (found ≠ 0 → RowMatches T V type value found) ∧
      (found = 0 → ∀ i, 1 ≤ i → i < n → ¬ RowMatches T V type value i))
    ⟨fun h => absurd rfl h, fun _ i h1 h2 => by omega⟩ ?_
  · refine ⟨hloop.1, fun h0 i h1 hi => hloop.2 h0 i h1 (by omega)⟩
  · rintro n found h1 - ⟨hs, hn⟩
    by_cases hf : found = 0
    · subst hf
      rw [if_neg (by simp)]
      rcases hstep n with ⟨he, hno⟩ | ⟨he, hyes⟩ <;> rw [he]
      · refine ⟨fun h => absurd rfl h, fun _ i hi hin => ?_⟩
        by_cases hi' : i = n
        · rw [hi']; exact hno (by omega)
        · exact hn rfl i hi (by omega)
      · exact ⟨fun _ => hyes, fun h => by omega⟩
    · rw [if_pos hf]
      exact ⟨hs, fun h => absurd h hf⟩

/-- What the lookup of `evdd_value_intern` finds is a match. -/
theorem findValue_sound {type : ℕ} {value : P} (hne : (findValue T V value type).1 ≠ 0) :
    RowMatches T V type value (findValue T V value type).1 := by
  rw [findValue] at hne ⊢
  split at hne
  · exact evddValueCellLookup_sound hne
  · split at hne
    · exact evddValueIdxLookup_sound hne
    · rename_i h
      by_cases h0 : V.evddmaxValueSize = 0
      · simp [h0] at hne
      · simp only [h0, if_false] at hne ⊢
        exact (linearSearch_spec type value).1 hne

/-- For a type with an exact comparison the lookup misses no match. -/
theorem findValue_complete (hV : ValueInv T V) {type : ℕ} (hT : LawfulCompare T type)
    {value : P} {i : ℕ} (hm : RowMatches T V type value i) :
    (findValue T V value type).1 ≠ 0 := by
  obtain ⟨u, hu, ht, hc⟩ := hm
  have hs : (V.evddValues i).payload.isSome := by simp [hu]
  have hmax := hV.max_ne_zero hs
  have hrow := hV.row i hs
  rw [findValue, hT.nocell]
  cases hh : (T.fns type).hashfun with
  | none =>
    simp only [hmax, if_false]
    intro h0
    exact (linearSearch_spec type value).2 h0 i hrow.1 hrow.2 ⟨u, hu, ht, hc⟩
  | some hashfun =>
    have hidx : Indexed T V i := ⟨hs, by rw [ht, hh]; simp⟩
    obtain ⟨hi0, hpl⟩ := hV.idx.placed i hidx
    have hcap : 0 < V.idxCap := by
      obtain ⟨d, hd, -⟩ := hpl
      omega
    have hhash : (V.evddValues i).hash = hashfun value := by
      rw [(hV.typed i u hu).2.2, ht, storedHash, hT.nocell, hh]
      exact (hT.hash hashfun hh value u hc).symm
    have hhome : rowHome V V.idxCap i = idxHome (hashfun value) type V.idxCap := by
      rw [rowHome, hhash, ht]
    simp only [evddValueIdxLookup, hmax, hcap.ne', or_self, if_false]
    rw [hhome] at hpl
    exact hpl.lookup_ne_zero (Nat.mod_lt _ hcap) hi0
      (idxMatches_iff.mpr ⟨⟨u, hu, ht, hc⟩, hhash⟩)

/-- The lookup of such a type finds the one row that matches. -/
theorem findValue_eq (hV : ValueInv T V) {type : ℕ} (hT : LawfulCompare T type) {value : P}
    {i : ℕ} (hm : RowMatches T V type value i) : (findValue T V value type).1 = i := by
  obtain ⟨u', hu', ht', hc'⟩ := findValue_sound (findValue_complete hV hT hm)
  obtain ⟨u, hu, ht, hc⟩ := hm
  have hcomp := hT.trans _ _ _ (hT.symm _ _ hc') hc
  exact hV.unique _ i u' u hu' hu (ht'.trans ht.symm) (by rw [ht']; exact hT)
    (by rw [ht']; exact hcomp)

/-- For a type with a hash, so does the index. -/
theorem evddValueIdxLookup_eq (hV : ValueInv T V) {type : ℕ} (hT : LawfulCompare T type)
    {hashfun : P → UInt32} (hh : (T.fns type).hashfun = some hashfun) {value : P} {i : ℕ}
    (hm : RowMatches T V type value i) :
    evddValueIdxLookup T V (hashfun value) type value = i := by
  have h := findValue_eq hV hT hm
  rw [findValue, hT.nocell] at h
  simpa only [hh] using h

theorem findValue_hash (value : P) (type : ℕ) :
    (findValue T V value type).2 = storedHash T type value := by
  rw [findValue, storedHash]
  cases (T.fns type).cellfun with
  | some c => rfl
  | none => cases (T.fns type).hashfun <;> rfl

/-! ## Storing a new row -/

/-- What `takeSlot` leaves: a free slot below the bound, all rows as they were. -/
theorem takeSlot_spec (hV : ValueInv T V) :
    let i := (takeSlot V).1
    let W := (takeSlot V).2
    i ≠ 0 ∧ (V.evddValues i).payload = none ∧ (∀ j, (W.evddValues j).mark = false) ∧
    (∀ j, (V.evddValues j).payload.isSome → W.evddValues j = V.evddValues j) ∧
    (∀ j, (W.evddValues j).payload.isSome → (V.evddValues j).payload.isSome) ∧
    W.evddmaxValueSize ≠ 0 ∧ i < W.evddLastValueIndex ∧
    W.evddLastValueIndex ≤ W.evddmaxValueSize ∧ V.evddLastValueIndex ≤ W.evddLastValueIndex ∧
    W.freelist.Nodup ∧
    (∀ j, j ∈ W.freelist ↔ (0 < j ∧ j < W.evddLastValueIndex) ∧ j ≠ i ∧
      (V.evddValues j).payload = none) ∧
    W.idx = V.idx ∧ W.idxCap = V.idxCap ∧ W.idxCnt = V.idxCnt ∧ W.errors = V.errors := by
  cases hfree : V.freelist with
  | cons i rest =>
    have hmem := fun j => hV.free_mem j
    have hnd := hV.free_nodup
    rw [hfree] at hnd
    simp only [hfree, List.mem_cons] at hmem
    have hi := (hmem i).mp (Or.inl rfl)
    have hmax : V.evddmaxValueSize ≠ 0 := fun h => by
      have := hV.fresh h
      omega
    have heq : takeSlot V = (i, { V with freelist := rest }) := by simp [takeSlot, hfree]
    rw [heq]
    refine ⟨by simp only []; omega, hi.2, hV.unmarked, fun _ _ => rfl, fun _ h => h, hmax,
      hi.1.2, (hV.bounds hmax).2, le_rfl, (List.nodup_cons.mp hnd).2, fun j => ?_, rfl, rfl, rfl,
      rfl⟩
    constructor
    · intro hj
      have hji : j ≠ i := ne_of_mem_of_not_mem hj (List.nodup_cons.mp hnd).1
      have := (hmem j).mp (Or.inr hj)
      exact ⟨this.1, hji, this.2⟩
    · rintro ⟨hb, hji, hp⟩
      exact ((hmem j).mpr ⟨hb, hp⟩).resolve_left hji
  | nil =>
    have hmem := fun j => hV.free_mem j
    simp only [hfree, List.not_mem_nil, false_iff, not_and] at hmem
    have hrow := hV.row
    have hfreshrow : ∀ j, V.evddLastValueIndex ≤ j → (V.evddValues j).payload = none := by
      intro j hj
      by_contra hp
      have := hrow j (Option.isSome_iff_ne_none.mpr hp)
      omega
    simp only [takeSlot, hfree, evddValueEnsureTable]
    by_cases hmax : V.evddmaxValueSize = 0
    · have hlast := hV.fresh hmax
      rw [if_pos hmax]
      have hnone : ∀ j, (V.evddValues j).payload = none := fun j => hfreshrow j (by omega)
      simp only [EvddValueRow.zero, List.nodup_nil, List.not_mem_nil, false_iff, hnone]
      refine ⟨by omega, trivial, by simp, by simp, by simp, by omega, by omega, by omega, by omega, trivial,
        fun j => ?_, trivial, trivial, trivial, trivial⟩
      omega
    · have hb := hV.bounds hmax
      rw [if_neg hmax]
      have hfreej : ∀ j, 0 < j → j < V.evddLastValueIndex → (V.evddValues j).payload ≠ none :=
        fun j h1 h2 => hmem j ⟨h1, h2⟩
      split
      · rename_i hge
        refine ⟨by simp only []; omega, hfreshrow _ le_rfl, fun j => ?_, fun j hj => ?_,
          fun j hj => ?_, by simp only []; omega, by simp, by simp only []; omega, by simp,
          by simp, fun j => ?_, rfl, rfl, rfl, rfl⟩
        · simp only []
          split
          · rfl
          · exact hV.unmarked j
        · have := hrow j hj
          exact if_neg (by omega)
        · simp only [] at hj
          split at hj
          · simp [EvddValueRow.zero] at hj
          · exact hj
        · simp only [List.not_mem_nil, false_iff]
          rintro ⟨⟨h1, h2⟩, h3, h4⟩
          exact hfreej j h1 (by omega) h4
      · refine ⟨by omega, hfreshrow _ le_rfl, hV.unmarked, fun _ _ => rfl, fun _ h => h, hmax,
          by omega, by omega, by omega, hfree ▸ List.nodup_nil, fun j => ?_, rfl, rfl, rfl, rfl⟩
        refine iff_of_false (hfree ▸ List.not_mem_nil) ?_
        rintro ⟨⟨h1, h2⟩, h3, h4⟩
        exact hfreej j h1 (by omega) h4

/-- Storing a payload that no row of its type equals keeps the invariant and all rows, and
puts the payload into a slot that was free. -/
theorem storeValue_spec (hV : ValueInv T V) {value : P} {type : ℕ}
    (htype : type < T.typeNumber) (hzero : isZeroPayload T type value = false)
    (hnew : LawfulCompare T type → ∀ i, ¬ RowMatches T V type value i) :
    let r := storeValue V value type (storedHash T type value)
    ValueInv T r.2 ∧ V.Ext r.2 ∧ r.2.errors = V.errors ∧ r.1 ≠ 0 ∧
    (V.evddValues r.1).payload = none ∧
    r.2.evddValues r.1 = ⟨some value, type, (storedHash T type value).getD 0, 0, false⟩ ∧
    (∀ j, j ≠ r.1 → (r.2.evddValues j).payload.isSome → (V.evddValues j).payload.isSome) := by
  obtain ⟨hi0, hfree, hmark, hkeep, hback, hmax, hlt, hle, hmono, hnd, hfm, hidx, hcap, hcnt,
    herr⟩ := takeSlot_spec hV
  simp only [storeValue]
  set i := (takeSlot V).1 with hi
  set W := (takeSlot V).2 with hW
  set row : EvddValueRow P := ⟨some value, type, (storedHash T type value).getD 0, 0, false⟩
    with hrow
  set S := storeRow W i value type ((storedHash T type value).getD 0) with hS
  have hSrow : ∀ j, S.evddValues j = if j = i then row else W.evddValues j := by
    intro j
    simp only [hS, storeRow, ValueTable.setRow, Function.update_apply]
    rfl
  have hSi : S.evddValues i = row := by rw [hSrow, if_pos rfl]
  have hSne : ∀ j, j ≠ i → S.evddValues j = W.evddValues j := fun j hj => by
    rw [hSrow, if_neg hj]
  have hlive : ∀ j, (S.evddValues j).payload.isSome → j ≠ i →
      (V.evddValues j).payload.isSome ∧ S.evddValues j = V.evddValues j := by
    intro j hj hji
    rw [hSne j hji] at hj
    exact ⟨hback j hj, by rw [hSne j hji, hkeep j (hback j hj)]⟩
  -- the index of `S` still finds the old rows; the new row is added if its type is indexed
  have hidxS : IdxInv S (Indexed T V) := by
    refine hV.idx.congr hidx hcap hcnt fun j hj => ?_
    have hji : j ≠ i := fun he => by
      rw [he] at hj
      simp [Indexed, hfree] at hj
    rw [hSne j hji, hkeep j hj.1]
    exact ⟨hj, rfl, rfl⟩
  set R := if (storedHash T type value).isSome then evddValueIdxPut S i else S with hR
  have hRframe : R.evddValues = S.evddValues ∧ R.evddmaxValueSize = S.evddmaxValueSize ∧
      R.evddLastValueIndex = S.evddLastValueIndex ∧ R.freelist = S.freelist ∧
      R.errors = S.errors := by
    rw [hR]
    split
    · exact evddValueIdxPut_frame S i
    · exact ⟨rfl, rfl, rfl, rfl, rfl⟩
  obtain ⟨hRv, hRm, hRl, hRf, hRe⟩ := hRframe
  have hidxR : IdxInv R (Indexed T R) := by
    have hold : ∀ j, j ≠ i → Indexed T R j → Indexed T V j := by
      intro j hji hj
      rw [Indexed, hRv] at hj
      obtain ⟨hv, he⟩ := hlive j hj.1 hji
      rw [he] at hj
      exact hj
    rw [hR]
    split
    · refine (evddValueIdxPut_inv hidxS hi0).congr rfl rfl rfl fun j hj => ⟨?_, rfl, rfl⟩
      by_cases hji : j = i
      · exact Or.inr hji
      · refine Or.inl (hold j hji ?_)
        rw [Indexed, hRv]
        rw [Indexed, (evddValueIdxPut_frame S i).1] at hj
        exact hj
    · rename_i hnone
      refine hidxS.congr rfl rfl rfl fun j hj => ⟨?_, rfl, rfl⟩
      by_cases hji : j = i
      · rw [hji, Indexed, hSi] at hj
        simp only [hrow, storedHash] at hj hnone
        cases hc : (T.fns type).cellfun with
        | some c => simp [hc] at hnone
        | none => cases hh : (T.fns type).hashfun <;> simp [hc, hh] at hnone hj
      · refine hold j hji ?_
        rw [Indexed, hRv]
        exact hj
  have hRi : R.evddValues i = row := by rw [hRv, hSi]
  have hliveR : ∀ j, (R.evddValues j).payload.isSome → j ≠ i →
      (V.evddValues j).payload.isSome ∧ R.evddValues j = V.evddValues j := by
    rw [hRv]
    exact hlive
  have hext : V.Ext R := by
    intro j hj
    have hji : j ≠ i := fun he => by
      rw [he, hfree] at hj
      simp at hj
    rw [hRv, hSne j hji, hkeep j hj]
  have hlast : R.evddLastValueIndex = W.evddLastValueIndex := hRl
  refine ⟨⟨fun h => ?_, fun _ => ?_, fun j hj => ?_, ?_, fun j => ?_, hidxR, fun j u hu => ?_,
    fun j => ?_, ?_⟩, hext, hRe.trans herr, hi0, hfree, hRi, fun j hji hj => (hliveR j hj hji).1⟩
  · exact absurd (hRm.symm.trans h) hmax
  · rw [hRm, hlast]
    exact ⟨by omega, hle⟩
  · rw [hlast]
    by_cases hji : j = i
    · omega
    · have := hV.row j (hliveR j hj hji).1
      omega
  · rw [hRf]
    exact hnd
  · rw [hRf, hlast]
    refine (hfm j).trans (and_congr_right fun _ => ?_)
    by_cases hji : j = i
    · rw [hji, hRi]
      simp [hrow]
    · simp only [hji, ne_eq, not_false_eq_true, true_and]
      constructor
      · intro hn
        by_contra hne
        have := (hliveR j (Option.isSome_iff_ne_none.mpr hne) hji).1
        simp [hn] at this
      · intro hn
        by_contra hne
        have := hext j (Option.isSome_iff_ne_none.mpr hne)
        rw [this] at hn
        exact hne hn
  · by_cases hji : j = i
    · rw [hji, hRi] at hu ⊢
      obtain rfl : value = u := by simpa [hrow] using hu
      exact ⟨htype, hzero, rfl⟩
    · have := hliveR j (by simp [hu]) hji
      rw [this.2] at hu ⊢
      exact hV.typed j u hu
  · rw [hRv, hSrow]
    split
    · rfl
    · exact hmark j
  · intro j k u v hj hk ht hl hc
    by_cases hji : j = i <;> by_cases hki : k = i
    · rw [hji, hki]
    · obtain ⟨hk1, hk2⟩ := hliveR k (by simp [hk]) hki
      rw [hji, hRi] at hj ht hl hc
      rw [hk2] at hk ht
      obtain rfl : value = u := by simpa [hrow] using hj
      exact absurd ⟨v, hk, ht.symm, hc⟩ (hnew hl k)
    · obtain ⟨hj1, hj2⟩ := hliveR j (by simp [hj]) hji
      rw [hki, hRi] at hk ht
      rw [hj2] at hj ht hl hc
      obtain rfl : value = v := by simpa [hrow] using hk
      have ht' : (V.evddValues j).type = type := ht
      rw [ht'] at hl hc
      exact absurd ⟨u, hj, ht', hl.symm _ _ hc⟩ (hnew hl j)
    · obtain ⟨-, hj2⟩ := hliveR j (by simp [hj]) hji
      obtain ⟨-, hk2⟩ := hliveR k (by simp [hk]) hki
      rw [hj2] at hj ht hl hc
      rw [hk2] at hk ht
      exact hV.unique j k u v hj hk ht hl hc

/-! ## Interning -/

/-- What one `evdd_value_intern` returns: the bare zero for `NULL`, an unknown type or a
zero payload; else the id of a live row of the type that holds the payload itself if it is
new and an equal one if not. -/
structure InternResult (T : ValueTypes P) (V : ValueTable P) (value : Option P) (type : ℕ)
    (r : ValueId × ValueTable P) : Prop where
  inv : ValueInv T r.2
  ext : V.Ext r.2
  zero : r.1 = 0 ↔ ∀ v, value = some v → T.typeNumber ≤ type ∨ isZeroPayload T type v = true
  errors : type < T.typeNumber → r.2.errors = V.errors
  row : r.1 ≠ 0 → ∃ v u, value = some v ∧ (r.2.evddValues r.1).payload = some u ∧
    (r.2.evddValues r.1).type = type ∧
    ((u = v ∧ (V.evddValues r.1).payload = none ∧ (r.2.evddValues r.1).refcou = 0) ∨
      (r.2 = V ∧ compareOf T type v u = true))
  back : ∀ j, j ≠ r.1 → (r.2.evddValues j).payload.isSome → (V.evddValues j).payload.isSome

theorem ValueTable.error_inv (hV : ValueInv T V) (e : BddError) : ValueInv T (V.error e) :=
  ⟨hV.fresh, hV.bounds, hV.row, hV.free_nodup, hV.free_mem,
    hV.idx.congr rfl rfl rfl fun _ h => ⟨h, rfl, rfl⟩, hV.typed, hV.unmarked, hV.unique⟩

theorem evddValueIntern_spec (hV : ValueInv T V) (value : Option P) (type : ℕ) :
    InternResult T V value type (evddValueIntern T V value type) := by
  cases value with
  | none =>
    exact ⟨hV, .refl V, by simp [evddValueIntern], fun _ => rfl,
      fun h => absurd rfl h, fun _ _ h => h⟩
  | some v =>
    rw [evddValueIntern]
    split
    · rename_i hge
      refine ⟨ValueTable.error_inv hV _, .refl V, ?_, fun h => by omega,
        fun h => absurd rfl h, fun _ _ h => h⟩
      simp only [true_iff, Option.some.injEq]
      exact fun _ _ => Or.inl hge
    rename_i hlt
    split
    · rename_i hz
      refine ⟨hV, .refl V, ?_, fun _ => rfl, fun h => absurd rfl h, fun _ _ h => h⟩
      simp only [true_iff, Option.some.injEq]
      rintro w rfl
      exact Or.inr hz
    rename_i hz
    have hnz : ∀ {id : ℕ}, id ≠ 0 → (id = 0 ↔ ∀ w, some v = some w →
        T.typeNumber ≤ type ∨ isZeroPayload T type w = true) := by
      intro id hid
      refine ⟨fun h => absurd h hid, fun h => ?_⟩
      rcases h v rfl with h | h
      · omega
      · exact absurd h hz
    change InternResult T V (some v) type
      (if (findValue T V v type).1 ≠ 0 then ((findValue T V v type).1, V)
        else storeValue V v type (findValue T V v type).2)
    split
    · rename_i hf
      obtain ⟨u, hu, ht, hc⟩ := findValue_sound hf
      exact ⟨hV, .refl V, hnz hf, fun _ => rfl,
        fun _ => ⟨v, u, rfl, hu, ht, Or.inr ⟨rfl, hc⟩⟩, fun _ _ h => h⟩
    · rename_i hf
      have hf0 : (findValue T V v type).1 = 0 := by simpa using hf
      rw [findValue_hash]
      obtain ⟨hinv, hext, herr, hid, hfree, hrow, hback⟩ := storeValue_spec hV
        (Nat.lt_of_not_ge hlt) (by simpa using hz)
        fun hT i hm => findValue_complete hV hT hm hf0
      exact ⟨hinv, hext, hnz hid, fun _ => herr,
        fun _ => ⟨v, v, rfl, by rw [hrow], by rw [hrow],
          Or.inl ⟨rfl, hfree, by rw [hrow]⟩⟩, hback⟩

/-- For a type with an exact comparison, interning returns a live id if and only if that
holds an equal value of the type. -/
theorem evddValueIntern_eq_iff (hV : ValueInv T V) {type : ℕ} (hT : LawfulCompare T type)
    (value : P) {i : ℕ} {u : P} (hi : (V.evddValues i).payload = some u) :
    (evddValueIntern T V (some value) type).1 = i ↔ isZeroPayload T type value = false ∧
      (V.evddValues i).type = type ∧ compareOf T type value u = true := by
  have hi0 : i ≠ 0 := (hV.read hi).1
  constructor
  · intro h
    have hspec := evddValueIntern_spec hV (some value) type
    rw [← h] at hi hi0 ⊢
    obtain ⟨v, u', hv, hu', ht, hcase⟩ := hspec.row hi0
    obtain rfl := Option.some.inj hv
    have hrow := hspec.ext (evddValueIntern T V (some value) type).1 (by simp [hi])
    rw [hrow, hi] at hu'
    obtain rfl := Option.some.inj hu'
    rw [hrow] at ht
    refine ⟨?_, ht, ?_⟩
    · by_contra hz
      refine hi0 (hspec.zero.mpr fun v hv => Or.inr ?_)
      obtain rfl := Option.some.inj hv
      simpa using hz
    · rcases hcase with ⟨-, hnone, -⟩ | ⟨-, hc⟩
      · rw [hi] at hnone
        exact absurd hnone (Option.some_ne_none _)
      · exact hc
  · rintro ⟨hz, ht, hc⟩
    have hfind := findValue_eq hV hT ⟨u, hi, ht, hc⟩
    have hlt : ¬ type ≥ T.typeNumber := by
      have := (hV.typed i u hi).1
      omega
    rw [evddValueIntern]
    simp only [hlt, hz, hfind, hi0, if_false, Bool.false_eq_true, ne_eq, not_false_eq_true,
      if_true]

/-! ## Collection -/

/-- The row `evdd_value_sweep` leaves in place of `row`. -/
def sweptRow (row : EvddValueRow P) : EvddValueRow P :=
  if row.payload.isNone then row
  else if row.mark || row.refcou > 0 then { row with mark := false }
  else { row with payload := none, type := 0, hash := 0 }

omit [DecidableEq P] in
/-- A row survives a sweep if it is marked or referenced. -/
theorem sweptRow_payload (row : EvddValueRow P) :
    (sweptRow row).payload =
      if row.mark = true ∨ 0 < row.refcou then row.payload else none := by
  rw [sweptRow]
  cases hp : row.payload with
  | none => simp [hp]
  | some u => by_cases hm : row.mark = true ∨ 0 < row.refcou <;> simp [hm]

omit [DecidableEq P] in
theorem sweptRow_kept {row : EvddValueRow P} (h : (sweptRow row).payload.isSome) :
    sweptRow row = { row with mark := false } := by
  rw [sweptRow_payload] at h
  split at h
  · rename_i hm
    obtain ⟨u, hu⟩ := Option.isSome_iff_exists.mp h
    simp [sweptRow, hu, hm]
  · simp at h

/-- `evdd_value_sweep` over a table whose invariant holds but for the marks. -/
theorem evddValueSweep_spec {V₀ : ValueTable P} (hV : ValueInv T V₀)
    (hsame : ∀ i, V.evddValues i = { V₀.evddValues i with mark := (V.evddValues i).mark })
    (hmarks : ∀ i, (V.evddValues i).mark = true → (V.evddValues i).payload.isSome)
    (hrest : V.evddmaxValueSize = V₀.evddmaxValueSize ∧
      V.evddLastValueIndex = V₀.evddLastValueIndex ∧ V.freelist = V₀.freelist ∧
      V.idx = V₀.idx ∧ V.idxCap = V₀.idxCap ∧ V.idxCnt = V₀.idxCnt) :
    ValueInv T (evddValueSweep T V).2 ∧
    (∀ i, (evddValueSweep T V).2.evddValues i = sweptRow (V.evddValues i)) ∧
    (evddValueSweep T V).2.errors = V.errors := by
  obtain ⟨hmax, hlast, hfree, hidx, hcap, hcnt⟩ := hrest
  have hpay : ∀ i, (V.evddValues i).payload = (V₀.evddValues i).payload := fun i => by
    rw [hsame i]
  have htype : ∀ i, (V.evddValues i).type = (V₀.evddValues i).type := fun i => by rw [hsame i]
  have hhash : ∀ i, (V.evddValues i).hash = (V₀.evddValues i).hash := fun i => by rw [hsame i]
  have hrow : ∀ i, (V.evddValues i).payload.isSome → 0 < i ∧ i < V.evddLastValueIndex := by
    intro i hi
    rw [hlast]
    exact hV.row i (by rw [← hpay]; exact hi)
  -- a slot outside the swept range has neither payload nor mark
  have hout : ∀ i, ¬ (0 < i ∧ i < V.evddLastValueIndex) →
      sweptRow (V.evddValues i) = V.evddValues i := by
    intro i hi
    have hn : (V.evddValues i).payload = none := by
      by_contra hne
      exact hi (hrow i (Option.isSome_iff_ne_none.mpr hne))
    simp [sweptRow, hn]
  have hloop := forUp_induct (a := 1) (k := V.evddLastValueIndex - 1) (f := sweepRow)
    (s := (0, V))
    (fun n s => (∀ i, s.2.evddValues i =
        if 0 < i ∧ i < n then sweptRow (V.evddValues i) else V.evddValues i) ∧
      s.2.freelist.Nodup ∧
      (∀ i, i ∈ s.2.freelist ↔ (0 < i ∧ i < V.evddLastValueIndex) ∧
        (s.2.evddValues i).payload = none) ∧
      (s.1 = 0 → ∀ i, (s.2.evddValues i).payload = (V.evddValues i).payload ∧
        (s.2.evddValues i).type = (V.evddValues i).type ∧
        (s.2.evddValues i).hash = (V.evddValues i).hash) ∧
      s.2.evddmaxValueSize = V.evddmaxValueSize ∧
      s.2.evddLastValueIndex = V.evddLastValueIndex ∧ s.2.idx = V.idx ∧
      s.2.idxCap = V.idxCap ∧ s.2.idxCnt = V.idxCnt ∧ s.2.errors = V.errors) ?_ ?_
  · by_cases h0 : V.evddmaxValueSize = 0
    · have hl0 := hV.fresh (hmax.symm.trans h0)
      have heq : evddValueSweep T V = (0, V) := by rw [evddValueSweep, if_pos h0]
      rw [heq]
      have hall : ∀ i, sweptRow (V.evddValues i) = V.evddValues i := fun i =>
        hout i (by omega)
      refine ⟨⟨fun h => hlast.trans (hV.fresh (hmax.symm.trans h)), fun h => absurd h0 h,
        hrow, by rw [hfree]; exact hV.free_nodup, fun i => ?_, ?_, fun i u hu => ?_,
        fun i => ?_, ?_⟩, fun i => (hall i).symm, rfl⟩
      · rw [hfree, hlast, hpay]
        exact hV.free_mem i
      · refine hV.idx.congr hidx hcap hcnt fun i hi => ⟨?_, hhash i, htype i⟩
        rw [Indexed, hpay, htype] at hi
        exact hi
      · rw [htype, hhash]
        exact hV.typed i u (by rw [← hpay]; exact hu)
      · by_contra hm
        have := hrow i (hmarks i (by simpa using hm))
        omega
      · intro i j u v hi hj ht hl hc
        rw [htype] at hl hc
        rw [htype, htype] at ht
        exact hV.unique i j u v (by rw [← hpay]; exact hi) (by rw [← hpay]; exact hj) ht hl hc
    · set s := forUp 1 (V.evddLastValueIndex - 1) sweepRow (0, V) with hs
      obtain ⟨hvals, hnd, hfm, hzero, hm', hl', hi', hc', hn', he'⟩ := hloop
      have hb := hV.bounds (hmax ▸ h0)
      have hvals' : ∀ i, s.2.evddValues i = sweptRow (V.evddValues i) := by
        intro i
        rw [hvals i]
        split
        · rfl
        · rename_i hi
          exact (hout i (by omega)).symm
      have hkept : ∀ i, (s.2.evddValues i).payload.isSome →
          s.2.evddValues i = { V₀.evddValues i with mark := false } ∧
          (V₀.evddValues i).payload.isSome := by
        intro i hi
        rw [hvals'] at hi ⊢
        rw [sweptRow_kept hi, hsame i]
        refine ⟨rfl, ?_⟩
        rw [sweptRow_payload] at hi
        split at hi
        · rwa [hpay] at hi
        · simp at hi
      -- the index: rebuilt if a row was freed, else as it was
      set R := if s.1 > 0 then evddValueIdxRebuild T s.2 else s.2 with hR
      have hsrow : ∀ i, (s.2.evddValues i).payload.isSome →
          0 < i ∧ i < s.2.evddLastValueIndex := by
        intro i hi
        rw [hl', hlast]
        exact hV.row i (hkept i hi).2
      have hIdx : ∀ i, Indexed T s.2 i → Indexed T V₀ i ∧
          (s.2.evddValues i).hash = (V₀.evddValues i).hash ∧
          (s.2.evddValues i).type = (V₀.evddValues i).type := by
        intro i hi
        have hk := hkept i hi.1
        rw [Indexed, hk.1] at hi
        rw [hk.1]
        exact ⟨hi, rfl, rfl⟩
      have hidxs : IdxInv s.2 (Indexed T s.2) :=
        hV.idx.congr (hi'.trans hidx) (hc'.trans hcap) (hn'.trans hcnt) hIdx
      have hRspec : IdxInv R (Indexed T R) ∧ R.evddValues = s.2.evddValues ∧
          R.evddmaxValueSize = s.2.evddmaxValueSize ∧
          R.evddLastValueIndex = s.2.evddLastValueIndex ∧ R.freelist = s.2.freelist ∧
          R.errors = s.2.errors := by
        rw [hR]
        split
        · obtain ⟨h1, h2, h3, h4, h5, h6⟩ := evddValueIdxRebuild_spec T hsrow fun _ => hidxs
          refine ⟨h1.congr rfl rfl rfl fun i hi => ⟨?_, rfl, rfl⟩, h2, h3, h4, h5, h6⟩
          rw [Indexed, h2] at hi
          exact hi
        · exact ⟨hidxs, rfl, rfl, rfl, rfl, rfl⟩
      obtain ⟨hRi, hRv, hRm, hRl, hRf, hRe⟩ := hRspec
      have heq : (evddValueSweep T V).2 = R := by rw [evddValueSweep, if_neg h0]
      rw [heq]
      refine ⟨⟨fun h => ?_, fun _ => ?_, ?_, ?_, fun i => ?_, hRi, fun i u hu => ?_,
        fun i => ?_, ?_⟩, fun i => by rw [hRv, hvals'], hRe.trans he'⟩
      · exact absurd (hm'.symm.trans (hRm.symm.trans h)) h0
      · rw [hRm, hRl, hm', hl', hlast, hmax]
        exact hb
      · rw [hRv, hRl]
        exact hsrow
      · rw [hRf]
        exact hnd
      · rw [hRf, hRl, hRv, hl']
        exact hfm i
      · rw [hRv] at hu ⊢
        have hk := (hkept i (by simp [hu])).1
        rw [hk] at hu ⊢
        exact hV.typed i u hu
      · rw [hRv]
        by_cases hp : (s.2.evddValues i).payload.isSome
        · rw [(hkept i hp).1]
        · rw [hvals', sweptRow] at hp ⊢
          by_cases hn : (V.evddValues i).payload = none
          · rw [if_pos (by simp [hn])]
            by_contra hm
            have := hmarks i (by simpa using hm)
            simp [hn] at this
          · rw [if_neg (by simpa using hn)] at hp ⊢
            split
            · rfl
            · rename_i hmm
              simp only [Bool.or_eq_true, not_or, Bool.not_eq_true] at hmm
              exact hmm.1
      · intro i j u v hi hj ht hl hc
        rw [hRv] at hi hj ht hl hc
        have hki := (hkept i (by simp [hi])).1
        have hkj := (hkept j (by simp [hj])).1
        rw [hki] at hi ht hl hc
        rw [hkj] at hj ht
        exact hV.unique i j u v hi hj ht hl hc
  · refine ⟨fun i => (if_neg (by omega)).symm, by rw [hfree]; exact hV.free_nodup, fun i => ?_,
      fun _ i => ⟨rfl, rfl, rfl⟩, rfl, rfl, rfl, rfl, rfl, rfl⟩
    rw [hfree, hlast, hpay]
    exact hV.free_mem i
  · rintro n ⟨freed, W⟩ hn1 hnk ⟨hvals, hnd, hfm, hzero, hm', hl', hi', hc', hn', he'⟩
    simp only at hvals hnd hfm hzero hm' hl' hi' hc' hn' he'
    have hWn : W.evddValues n = V.evddValues n := by rw [hvals, if_neg (by omega)]
    have hset : ∀ row : EvddValueRow P, row = sweptRow (V.evddValues n) → ∀ i,
        Function.update W.evddValues n row i =
          if 0 < i ∧ i < n + 1 then sweptRow (V.evddValues i) else V.evddValues i := by
      intro row hr i
      by_cases hin : i = n
      · subst hin
        rw [Function.update_self, if_pos (by omega), hr]
      · rw [Function.update_of_ne hin, hvals i]
        by_cases hlt : 0 < i ∧ i < n
        · rw [if_pos hlt, if_pos (by omega)]
        · rw [if_neg hlt, if_neg (by omega)]
    have hinl : 0 < n ∧ n < V.evddLastValueIndex := by omega
    cases hp : (V.evddValues n).payload with
    | none =>
      have heq : sweepRow n (freed, W) = (freed, W) := by simp [sweepRow, hWn, hp]
      rw [heq]
      refine ⟨fun i => ?_, hnd, hfm, hzero, hm', hl', hi', hc', hn', he'⟩
      have hs := hset (V.evddValues n) (by simp [sweptRow, hp]) i
      rwa [← hWn, Function.update_eq_self] at hs
    | some u =>
      by_cases hk : (V.evddValues n).mark = true ∨ 0 < (V.evddValues n).refcou
      · have heq : sweepRow n (freed, W) =
            (freed, W.setRow n { V.evddValues n with mark := false }) := by
          simp [sweepRow, hWn, hp, hk]
        have hrown : ∀ i, (W.setRow n { V.evddValues n with mark := false }).evddValues i =
            if i = n then { V.evddValues n with mark := false } else W.evddValues i :=
          fun i => Function.update_apply ..
        rw [heq]
        refine ⟨hset _ (by simp [sweptRow, hp, hk]), hnd, fun i => ?_, fun hz i => ?_, hm', hl',
          hi', hc', hn', he'⟩
        · refine (hfm i).trans (and_congr_right fun _ => ?_)
          rw [hrown]
          by_cases hin : i = n
          · rw [hin, if_pos rfl, hWn]
          · rw [if_neg hin]
        · rw [hrown]
          by_cases hin : i = n
          · rw [hin, if_pos rfl]
            exact ⟨rfl, rfl, rfl⟩
          · rw [if_neg hin]
            exact hzero hz i
      · have heq : sweepRow n (freed, W) = (freed + 1,
            { W.setRow n { V.evddValues n with payload := none, type := 0, hash := 0 } with
              freelist := n :: W.freelist, evddValueUsed := W.evddValueUsed - 1 }) := by
          simp [sweepRow, hWn, hp, hk, ValueTable.setRow]
        have hrown : ∀ i, (Function.update W.evddValues n
            { V.evddValues n with payload := none, type := 0, hash := 0 } i) =
            if i = n then { V.evddValues n with payload := none, type := 0, hash := 0 }
            else W.evddValues i := fun i => Function.update_apply ..
        have hnotin : n ∉ W.freelist := fun hmem => by
          have := ((hfm n).mp hmem).2
          rw [hWn, hp] at this
          simp at this
        rw [heq]
        refine ⟨hset _ (by simp [sweptRow, hp, hk]), List.nodup_cons.mpr ⟨hnotin, hnd⟩,
          fun i => ?_, fun hz => by simp at hz, hm', hl', hi', hc', hn', he'⟩
        simp only [ValueTable.setRow, List.mem_cons]
        rw [hrown]
        by_cases hin : i = n
        · simp [hin, hinl]
        · simpa [hin] using hfm i

end MoToBuddy.Evdd
