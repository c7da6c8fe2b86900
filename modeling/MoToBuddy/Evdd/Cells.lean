import MoToBuddy.Evdd.Session

/-!
# The cell index (`evdd_value.c`)

A type with a cell function is indexed by cells: a row is stored under the hash of its own cell,
and a lookup tries the cells around the cell of the value, each axis at `-1`, `0` and `+1`, before
it gives up. If values that compare equal are never further apart than that, the lookup misses no
row that the linear search would find (`evddRun_cellIndex`).
-/

namespace MoToBuddy.Evdd

/-- `EVDD_VALUE_MAX_AXES`. -/
abbrev evddValueMaxAxes : ℕ := 4

/-! ## Neighbours -/

/-- The odometer runs through all combinations of steps. -/
theorem mem_cellOffsets {n : ℕ} {ofs : List ℤ} :
    ofs ∈ cellOffsets n ↔ ofs.length = n ∧ ∀ d ∈ ofs, d = -1 ∨ d = 0 ∨ d = 1 := by
  induction n generalizing ofs with
  | zero =>
    simp only [cellOffsets, List.mem_singleton, List.length_eq_zero_iff]
    exact ⟨fun h => ⟨h, by simp [h]⟩, fun h => h.1⟩
  | succ n ih =>
    simp only [cellOffsets, List.mem_flatMap, List.mem_map, ih]
    constructor
    · intro ⟨rest, ⟨hlen, hrest⟩, d, hd, heq⟩
      subst heq
      simp only [List.mem_cons, List.not_mem_nil, or_false] at hd
      exact ⟨by simp [hlen], by simpa [hd] using hrest⟩
    · intro ⟨hlen, hall⟩
      cases ofs with
      | nil => simp at hlen
      | cons d rest =>
        have hd := hall d (by simp)
        exact ⟨rest, ⟨by simpa using hlen, fun e he => hall e (by simp [he])⟩, d, by simpa using hd,
          rfl⟩

/-- A cell id in the range of `long long`. -/
def IsCellId (c : ℤ) : Prop := -2 ^ 63 ≤ c ∧ c < 2 ^ 63

/-- Ids that differ by at most one. -/
def Near (c d : ℤ) : Prop := d - c = -1 ∨ d - c = 0 ∨ d - c = 1

/-- The clamping does not get in the way of an id in range. -/
theorem evddValueCellShift_sub {c d : ℤ} (hd : IsCellId d) : evddValueCellShift c (d - c) = d := by
  unfold IsCellId at hd
  unfold evddValueCellShift
  omega

/-- Some combination of steps leads from a cell to any cell around it. -/
theorem exists_cellOffset {base cell : List ℤ} (hnear : List.Forall₂ Near base cell)
    (hrange : ∀ d ∈ cell, IsCellId d) :
    ∃ ofs ∈ cellOffsets base.length, List.zipWith evddValueCellShift base ofs = cell := by
  induction hnear with
  | nil => exact ⟨[], by simp [cellOffsets], rfl⟩
  | @cons c d base cell hcd _ ih =>
    obtain ⟨ofs, hofs, hzip⟩ := ih fun e he => hrange e (by simp [he])
    have hshift := evddValueCellShift_sub (c := c) (hrange d (by simp))
    refine ⟨(d - c) :: ofs, ?_, by simp [hshift, hzip]⟩
    rw [mem_cellOffsets] at hofs ⊢
    refine ⟨by simp [hofs.1], fun e he => ?_⟩
    rcases List.mem_cons.mp he with rfl | he
    · exact hcd
    · exact hofs.2 e he

/-! ## Lookup -/

variable {P : Type*} [DecidableEq P] {T : ValueTypes P} {V : ValueTable P}

/-- The contract of a cell function: as many axes as it was registered with, ids in the range of
their type, and no two values compare equal from cells further apart than one on an axis. -/
structure LawfulCells (T : ValueTypes P) (type : ℕ) (cellfun : P → List ℤ) : Prop where
  cell : (T.fns type).cellfun = some cellfun
  axes : 1 ≤ (T.fns type).naxes ∧ (T.fns type).naxes ≤ evddValueMaxAxes
  length : ∀ u, (cellfun u).length = (T.fns type).naxes
  range : ∀ u, ∀ c ∈ cellfun u, IsCellId c
  near : ∀ a b, compareOf T type a b = true → List.Forall₂ Near (cellfun a) (cellfun b)

/-- The bucket of a row's own cell gives a hit. -/
theorem evddValueIdxLookup_row (hV : ValueInv T V) {type : ℕ} {cellfun : P → List ℤ}
    (hT : LawfulCells T type cellfun) {value : P} {i : ℕ} {u : P}
    (hu : (V.evddValues i).payload = some u) (ht : (V.evddValues i).type = type)
    (hc : compareOf T type value u = true) :
    evddValueIdxLookup T V (evddValueCellHash (cellfun u) type) type value ≠ 0 := by
  have hs : (V.evddValues i).payload.isSome := by simp [hu]
  have hmax := hV.max_ne_zero hs
  have hidx : Indexed T V i := ⟨hs, by simp [ht, hT.cell]⟩
  obtain ⟨hi0, hpl⟩ := hV.idx.placed i hidx
  have hcap : 0 < V.idxCap := by
    obtain ⟨d, hd, -⟩ := hpl
    omega
  have hhash : (V.evddValues i).hash = evddValueCellHash (cellfun u) type := by
    rw [(hV.typed i u hu).2.2, ht, storedHash, hT.cell]
    rfl
  have hhome : rowHome V V.idxCap i =
      idxHome (evddValueCellHash (cellfun u) type) type V.idxCap := by
    rw [rowHome, hhash, ht]
  rw [hhome] at hpl
  simp only [evddValueIdxLookup, hmax, hcap.ne', or_self, if_false]
  exact hpl.lookup_ne_zero (Nat.mod_lt _ hcap) hi0
    (idxMatches_iff.mpr ⟨⟨u, hu, ht, hc⟩, hhash⟩)

omit [DecidableEq P] in
/-- A search over a list stops with a hit if some element gives one. -/
theorem foldl_ne_zero {α : Type*} {f : α → ℕ} {l : List α} {found : ℕ}
    (h : found ≠ 0 ∨ ∃ a ∈ l, f a ≠ 0) :
    l.foldl (fun found a => if found ≠ 0 then found else f a) found ≠ 0 := by
  induction l generalizing found with
  | nil => simpa using h
  | cons a l ih =>
    rw [List.foldl_cons]
    apply ih
    by_cases hf : found = 0
    · rw [if_neg (by simpa using hf)]
      obtain ⟨b, hb, hfb⟩ := h.resolve_left (by simpa using hf)
      rcases List.mem_cons.mp hb with rfl | hb
      · exact Or.inl hfb
      · exact Or.inr ⟨b, hb, hfb⟩
    · rw [if_pos hf]
      exact Or.inl hf

/-- The lookup around the cell of a value misses no row that compares equal. -/
theorem evddValueCellLookup_complete (hV : ValueInv T V) {type : ℕ} {cellfun : P → List ℤ}
    (hT : LawfulCells T type cellfun) {value : P} {i : ℕ} (hm : RowMatches T V type value i) :
    evddValueCellLookup T V value type (cellfun value) ≠ 0 := by
  obtain ⟨u, hu, ht, hc⟩ := hm
  obtain ⟨ofs, hofs, hzip⟩ := exists_cellOffset (hT.near value u hc) (hT.range u)
  rw [hT.length] at hofs
  unfold evddValueCellLookup
  refine foldl_ne_zero (Or.inr ⟨ofs, hofs, ?_⟩)
  rw [hzip]
  exact evddValueIdxLookup_row hV hT hu ht hc

/-- The lookup of `evdd_value_intern` finds a row if and only if there is one. -/
theorem findValue_cell_iff (hV : ValueInv T V) {type : ℕ} {cellfun : P → List ℤ}
    (hT : LawfulCells T type cellfun) {value : P} :
    (findValue T V value type).1 ≠ 0 ↔ ∃ i, RowMatches T V type value i := by
  refine ⟨fun h => ⟨_, findValue_sound h⟩, fun ⟨i, hi⟩ => ?_⟩
  have hfind : (findValue T V value type).1 =
      evddValueCellLookup T V value type (cellfun value) := by
    rw [findValue, hT.cell]
  rw [hfind]
  exact evddValueCellLookup_complete hV hT hi

omit [DecidableEq P] in
theorem RowMatches.bounds {T : ValueTypes P} [DecidableEq P] {V : ValueTable P}
    (hV : ValueInv T V) {type : ℕ} {value : P} {i : ℕ} (h : RowMatches T V type value i) :
    1 ≤ i ∧ i < V.evddLastValueIndex := by
  obtain ⟨u, hu, -⟩ := h
  exact hV.row i (by simp [hu])

/-- So does the linear search. -/
theorem linearSearch_iff (hV : ValueInv T V) {type : ℕ} {value : P} :
    linearSearch T V value type ≠ 0 ↔ ∃ i, RowMatches T V type value i := by
  obtain ⟨hsound, hcomplete⟩ := linearSearch_spec (T := T) (V := V) type value
  refine ⟨fun h => ⟨_, hsound h⟩, fun ⟨i, hi⟩ h0 => ?_⟩
  have hb := hi.bounds hV
  exact hcomplete h0 i hb.1 hb.2 hi

/-! ## Interning -/

/-- Interning a nonzero value of a type with cells: a live id is returned if and only if a row of
the type compares equal, and it is one that does. -/
theorem evddValueIntern_cell (hV : ValueInv T V) {type : ℕ} {cellfun : P → List ℤ}
    (hT : LawfulCells T type cellfun) (htype : type < T.typeNumber) {value : P}
    (hzero : isZeroPayload T type value = false) :
    (evddValueLive V (evddValueIntern T V (some value) type).1 = true ↔
      ∃ i, RowMatches T V type value i) ∧
    (evddValueLive V (evddValueIntern T V (some value) type).1 = true →
      RowMatches T V type value (evddValueIntern T V (some value) type).1) := by
  have hintern : evddValueIntern T V (some value) type =
      if (findValue T V value type).1 ≠ 0 then ((findValue T V value type).1, V)
      else storeValue V value type (findValue T V value type).2 := by
    rw [evddValueIntern, if_neg (Nat.not_le.mpr htype), hzero]
    rfl
  by_cases hf : (findValue T V value type).1 ≠ 0
  · have hm := findValue_sound hf
    rw [hintern, if_pos hf, evddValueLive_iff hV]
    obtain ⟨u, hu, -⟩ := hm
    refine ⟨⟨fun _ => (findValue_cell_iff hV hT).mp hf, fun _ => by simp [hu]⟩, fun _ => ?_⟩
    exact findValue_sound hf
  · -- the id of a new row was not live before
    have hno : ¬ ∃ i, RowMatches T V type value i := fun h =>
      hf ((findValue_cell_iff hV hT).mpr h)
    have hstore := storeValue_spec hV htype hzero fun _ i hi => hno ⟨i, hi⟩
    rw [hintern, if_neg hf, findValue_hash, evddValueLive_iff hV]
    have hfree := hstore.2.2.2.2.1
    rw [hfree]
    simp [hno]

/-- In every reachable state, interning a nonzero value of a type with cells returns an id that
exists if and only if some live row of the type compares equal, as the linear search would find,
and the id returned is that of a row that compares equal. -/
theorem evddRun_cellIndex {ops : EvddApplyOps P} {s : EvddState P} (hT : LawfulNormalize T)
    (hops : ∀ op, LawfulOp T (ops op)) {size maxsize cachesize : ℕ} (hsize : 2 ≤ size)
    (hcache : 0 < cachesize) {type : ℕ} {cellfun : P → List ℤ}
    (hcell : LawfulCells T type cellfun) (htype : type < T.typeNumber) {value : P}
    (hzero : isZeroPayload T type value = false)
    (hrun : EvddRun T ops (fun _ _ => True) (evddInit size maxsize cachesize .empty) s) :
    let id := (evddValueIntern T s.values (some value) type).1
    (evddValueLive s.values id = true ↔ ∃ i, RowMatches T s.values type value i) ∧
      (evddValueLive s.values id = true ↔ linearSearch T s.values value type ≠ 0) ∧
      (evddValueLive s.values id = true → RowMatches T s.values type value id) := by
  have hinit := (evddInit_inv (P := P) (q := False) hsize hcache maxsize .empty).1
  obtain ⟨-, hV, -⟩ := hrun.inv hT hops (fun hq => hq.elim) hinit (ValueInv.empty T)
  obtain ⟨hiff, hrow⟩ := evddValueIntern_cell hV hcell htype hzero
  exact ⟨hiff, hiff.trans (linearSearch_iff hV).symm, hrow⟩

/-! ## A type with two axes -/

/-- Points of a plane that compare equal when they are at most two apart on either axis; the cells
are squares of side four. -/
def gridFunctions : EvddValueFunctions (Fin 64 × Fin 64) where
  hashfun := none
  cellfun := some fun u => [(u.1.val / 4 : ℕ), (u.2.val / 4 : ℕ)]
  naxes := 2
  comparefun := some fun a b =>
    a.1.val ≤ b.1.val + 2 && b.1.val ≤ a.1.val + 2 && a.2.val ≤ b.2.val + 2 &&
      b.2.val ≤ a.2.val + 2
  mulfun := none
  divfun := none
  addfun := none
  subfun := none
  iszerofun := some fun u => u = (0, 0)
  isonefun := none
  abscmpfun := none
  absqfun := none
  sqrtfun := none
  normalizefun := none

def gridTypes : ValueTypes (Fin 64 × Fin 64) := ⟨1, fun _ => gridFunctions⟩

theorem gridTypes_lawfulCells :
    LawfulCells gridTypes 0 fun u => [((u.1.val / 4 : ℕ) : ℤ), ((u.2.val / 4 : ℕ) : ℤ)] := by
  refine ⟨rfl, ⟨by decide, by decide⟩, fun _ => rfl, fun u c hc => ?_, fun a b hab => ?_⟩
  · have h1 := u.1.isLt
    have h2 := u.2.isLt
    simp only [List.mem_cons, List.not_mem_nil, or_false] at hc
    unfold IsCellId
    omega
  · simp only [compareOf, gridTypes, gridFunctions, Bool.and_eq_true, decide_eq_true_eq] at hab
    refine .cons ?_ (.cons ?_ .nil)
    · unfold Near
      omega
    · unfold Near
      omega

/-- A point in the cell of the origin is stored. -/
def gridSession : EvddState (Fin 64 × Fin 64) :=
  { evddInit 7 0 3 (.empty : ValueTable (Fin 64 × Fin 64)) with
    values := (evddValueIntern gridTypes .empty (some (3, 3)) 0).2 }

/-- A point of the next cell on the diagonal is taken for it. -/
theorem gridSession_cellIndex :
    let id := (evddValueIntern gridTypes gridSession.values (some (5, 5)) 0).1
    evddValueLive gridSession.values id = true ∧
      RowMatches gridTypes gridSession.values 0 (5, 5) id := by
  let ops : EvddApplyOps (Fin 64 × Fin 64) := fun _ V a b => evddValueAdd gridTypes V a b
  have hops : ∀ op, LawfulOp gridTypes (ops op) := fun _ _ hV a b => evddValueAdd_algebraic hV a b
  have hnorm : LawfulNormalize gridTypes := fun _ _ hf => by simp [gridTypes, gridFunctions] at hf
  have hrun : EvddRun gridTypes ops (fun _ _ => True) (evddInit 7 0 3 .empty) gridSession :=
    .single ⟨.onDemand (fun _ => true) fun _ _ => true, .valueIntern (some (3, 3)) 0, _, trivial,
      rfl⟩
  have hzero : isZeroPayload gridTypes 0 (5, 5) = false := by decide
  have h := evddRun_cellIndex hnorm hops (by decide) (by decide) gridTypes_lawfulCells (by decide)
    hzero hrun
  have hlive := h.2.1.mpr (by decide)
  exact ⟨hlive, h.2.2 hlive⟩

end MoToBuddy.Evdd
