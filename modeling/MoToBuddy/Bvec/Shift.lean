import MoToBuddy.Bvec.Rules

/-!
# `bvec_shl` and `bvec_shr`

A shift by a vector is a disjunction over the amounts up to the width of the shifted vector. The
amounts are compared as constants in the width of `r`, so that an amount which does not fit is
taken for its low bits. The last guard is read and given back without a reference to it.
-/

namespace MoToBuddy.Bvec

open Bdd BoolFun Exiting Package

variable {P : Type}

section

variable (D : MtbddDomain P) (isPrime : ℕ → Bool)

/-- The loop over the places, from `m`: where `rEquN` holds, what is moved there is or'ed in. -/
def orLoop (rEquN : ℕ) (moved : ℕ → ℕ) : ℕ → List ℕ → Prog (BddState P) (List ℕ)
  | m, bit :: res => do
    let tmp1 ← bddAddref (← bddApply D isPrime rEquN (moved m) .and)
    let tmp2 ← bddAddref (← bddApply D isPrime bit tmp1 .or)
    bddDelref tmp1
    bddDelref bit
    let res ← orLoop rEquN moved (m + 1) res
    return tmp2 :: res
  | _, [] => return []

/-- The loop over the places that ors the fill bit in for the amounts above the width. -/
def fillLoop (tmp1 : ℕ) : List ℕ → Prog (BddState P) (List ℕ)
  | bit :: res => do
    let tmp2 ← bddAddref (← bddApply D isPrime bit tmp1 .or)
    bddDelref bit
    let res ← fillLoop tmp1 res
    return tmp2 :: res
  | [] => return []

/-- One amount of the loop: `moved n m` is or'ed in at `m` where `r` equals `n`. -/
def orAmount (moved : ℕ → ℕ → ℕ) (r res : List ℕ) (n : ℕ) : Prog (BddState P) (List ℕ) := do
  let val := bvecCon r.length n
  let rEquN ← bddAddref (← bvecEqu D isPrime r val)
  let res ← orLoop D isPrime rEquN (moved n) 0 res
  bddDelref rEquN
  bvecFree val
  return res

/-- The body of `bvec_shl` and `bvec_shr`. -/
def symbolicShift (moved : ℕ → ℕ → ℕ) (l r : List ℕ) (c : ℕ) : Prog (BddState P) (List ℕ) := do
  if l.length = 0 ∨ r.length = 0 then return []
  else
    let res ← (List.range (l.length + 1)).foldlM (orAmount D isPrime moved r)
      (bvecBuild l.length false)
    let val := bvecCon r.length l.length
    -- no reference is taken to this guard
    let rEquN ← bvecGth D isPrime r val
    let tmp1 ← bddAddref (← bddApply D isPrime rEquN c .and)
    let res ← fillLoop D isPrime tmp1 res
    bddDelref tmp1
    bddDelref rEquN
    bvecFree val
    return res

end

section

variable {α β : Type}

/-- What moves to place `m` when `l` goes `n` places to the left; a place of `l` that is read is
one of its places. -/
def movedLeft (l : List α) (c : α) (n m : ℕ) : α :=
  if (m : ℤ) - n ≥ 0 then l.getD (m - n) c else c

/-- What moves to place `m` when `l` goes `n` places to the right. -/
def movedRight (l : List α) (c : α) (n m : ℕ) : α :=
  if m + n < l.length then l.getD (m + n) c else c

theorem movedLeft_map (f : α → β) (l : List α) (c : α) :
    movedLeft (l.map f) (f c) = fun n m => f (movedLeft l c n m) := by
  funext n m
  unfold movedLeft
  split_ifs
  · exact List.getD_map ..
  · rfl

theorem movedRight_map (f : α → β) (l : List α) (c : α) :
    movedRight (l.map f) (f c) = fun n m => f (movedRight l c n m) := by
  funext n m
  unfold movedRight
  rw [List.length_map]
  split_ifs
  · exact List.getD_map ..
  · rfl

theorem getD_mem_cons (l : List α) (c : α) (n : ℕ) : l.getD n c ∈ c :: l := by
  rcases Nat.lt_or_ge n l.length with h | h
  · rw [List.getD_eq_getElem l c h]
    exact .tail _ (List.getElem_mem h)
  · rw [List.getD_eq_default l c h]
    exact List.mem_cons_self ..

theorem movedLeft_mem (l : List α) (c : α) (n m : ℕ) : movedLeft l c n m ∈ c :: l := by
  unfold movedLeft
  split_ifs
  · exact getD_mem_cons l c _
  · exact List.mem_cons_self ..

theorem movedRight_mem (l : List α) (c : α) (n m : ℕ) : movedRight l c n m ∈ c :: l := by
  unfold movedRight
  split_ifs
  · exact getD_mem_cons l c _
  · exact List.mem_cons_self ..

end

/-- `bvec_shl`. -/
def bvecShl (D : MtbddDomain P) (isPrime : ℕ → Bool) (l r : List ℕ) (c : ℕ) :
    Prog (BddState P) (List ℕ) :=
  symbolicShift D isPrime (movedLeft l c) l r c

/-- `bvec_shr`. -/
def bvecShr (D : MtbddDomain P) (isPrime : ℕ → Bool) (l r : List ℕ) (c : ℕ) :
    Prog (BddState P) (List ℕ) :=
  symbolicShift D isPrime (movedRight l c) l r c

/-! ## The bits of the result -/

section

variable {A : Type} {r V : List (A → Bool)} {c g : A → Bool} {moved : ℕ → ℕ → A → Bool} {x : A}

/-- What `orLoop` makes of the functions. -/
def orMoved (g : A → Bool) (moved : ℕ → A → Bool) : ℕ → List (A → Bool) → List (A → Bool)
  | m, b :: V => (fun x => b x || g x && moved m x) :: orMoved g moved (m + 1) V
  | _, [] => []

/-- The constant `n` in the width of `r`, where `r` equals it. -/
def equals (r : List (A → Bool)) (n : ℕ) : A → Bool :=
  Bits.equal r (Bits.ofNat r.length n) Bits.one

/-- The guard for the amounts above `n`. -/
def exceeds (r : List (A → Bool)) (n : ℕ) : A → Bool :=
  fun x => !Bits.less r (Bits.ofNat r.length n) Bits.one x

/-- What `symbolicShift` makes of the functions. -/
def shifted (moved : ℕ → ℕ → A → Bool) (width : ℕ) (r : List (A → Bool)) (c : A → Bool) :
    List (A → Bool) :=
  ((List.range (width + 1)).foldl (fun V n => orMoved (equals r n) (moved n) 0 V)
    (List.replicate width Bits.zero)).map fun b x => b x || exceeds r width x && c x

/-- The amount `n` is taken for the value of `r`. -/
def Taken (r : List (A → Bool)) (x : A) (n : ℕ) : Prop := n % 2 ^ r.length = Bits.value r x

theorem equals_iff (r : List (A → Bool)) (n : ℕ) (x : A) : equals r n x = true ↔ Taken r x n := by
  unfold equals Taken
  rw [Bits.equal_iff (Bits.length_ofNat ..).symm, Bits.value_ofNat, Bits.one_apply]
  simp only [and_true]
  exact eq_comm

theorem exceeds_iff (r : List (A → Bool)) (n : ℕ) (x : A) :
    exceeds r n x = true ↔ n % 2 ^ r.length < Bits.value r x := by
  unfold exceeds
  rw [Bool.not_eq_true', ← Bool.not_eq_true, Bits.le_iff (Bits.length_ofNat ..).symm,
    Bits.value_ofNat, not_le]

@[simp] theorem length_orMoved (g : A → Bool) (f : ℕ → A → Bool) (k : ℕ) (V : List (A → Bool)) :
    (orMoved g f k V).length = V.length := by
  induction V generalizing k with
  | nil => rfl
  | cons b V ih => exact congrArg (· + 1) (ih (k + 1))

theorem getD_orMoved (g : A → Bool) (f : ℕ → A → Bool) (k : ℕ) {m : ℕ} (hm : m < V.length) (x : A) :
    (orMoved g f k V).getD m Bits.zero x = true ↔
      V.getD m Bits.zero x = true ∨ g x = true ∧ f (k + m) x = true := by
  induction V generalizing k m with
  | nil => simp at hm
  | cons b V ih =>
    cases m with
    | zero => simp [orMoved]
    | succ m =>
      rw [orMoved, List.getD_cons_succ, List.getD_cons_succ, ih (k + 1) (Nat.lt_of_succ_lt_succ hm),
        show k + 1 + m = k + (m + 1) by omega]

/-- The loop over the amounts, bit by bit. -/
theorem getD_amounts (moved : ℕ → ℕ → A → Bool) (r : List (A → Bool)) (ns : List ℕ)
    (V : List (A → Bool)) :
    (ns.foldl (fun V n => orMoved (equals r n) (moved n) 0 V) V).length = V.length ∧
      ∀ m < V.length, ∀ x,
        (ns.foldl (fun V n => orMoved (equals r n) (moved n) 0 V) V).getD m Bits.zero x = true ↔
          V.getD m Bits.zero x = true ∨ ∃ n ∈ ns, Taken r x n ∧ moved n m x = true := by
  induction ns generalizing V with
  | nil => exact ⟨rfl, by simp⟩
  | cons n ns ih =>
    obtain ⟨hlen, hbits⟩ := ih (orMoved (equals r n) (moved n) 0 V)
    rw [length_orMoved] at hlen hbits
    refine ⟨hlen, fun m hm x => ?_⟩
    rw [List.foldl_cons, hbits m hm, getD_orMoved _ _ _ hm, equals_iff, Nat.zero_add]
    simp [or_assoc]

@[simp] theorem length_shifted (width : ℕ) : (shifted moved width r c).length = width := by
  rw [shifted, List.length_map, (getD_amounts ..).1, List.length_replicate]

/-- A place of the result is set by an amount that is taken for the value, or by the guard for
the amounts above the width. -/
theorem getD_shifted {width m : ℕ} (hm : m < width) (x : A) :
    (shifted moved width r c).getD m Bits.zero x = true ↔
      (∃ n ≤ width, Taken r x n ∧ moved n m x = true) ∨
        width % 2 ^ r.length < Bits.value r x ∧ c x = true := by
  obtain ⟨hlen, hbits⟩ := getD_amounts moved r (List.range (width + 1))
    (List.replicate width Bits.zero)
  rw [List.length_replicate] at hlen hbits
  have hbit := hbits m hm x
  have hzero : (List.replicate width (Bits.zero : A → Bool)).getD m Bits.zero x = false := by
    rw [List.getD_replicate _ hm, Bits.zero_apply]
  rw [hzero] at hbit
  simp only [List.mem_range, Nat.lt_succ_iff, Bool.false_eq_true, false_or] at hbit
  rw [← hbit, ← exceeds_iff, shifted, List.getD_eq_getElem _ _ (by simpa [hlen] using hm),
    List.getD_eq_getElem _ _ (by simpa [hlen] using hm), List.getElem_map]
  simp

/-! ## When the shift is exact -/

/-- The bits of `V` at `x` are those that `moved` takes the value of `r` for. -/
def ShiftedAt (moved : ℕ → ℕ → A → Bool) (width : ℕ) (r V : List (A → Bool)) (x : A) : Prop :=
  V.map (· x) = (List.range width).map fun m => moved (Bits.value r x) m x

/-- The width fits in `r`, or what the amounts that are taken for the value and the last guard add
is there already. -/
def ShiftFits (moved : ℕ → ℕ → A → Bool) (width : ℕ) (r : List (A → Bool)) (c : A → Bool) (x : A) :
    Prop :=
  width < 2 ^ r.length ∨ ∀ m < width, moved (Bits.value r x) m x = false →
    (∀ n ≤ width, Taken r x n → moved n m x = false) ∧
      (width % 2 ^ r.length < Bits.value r x → c x = false)

theorem shiftedAt_iff {width : ℕ} (hlen : V.length = width) :
    ShiftedAt moved width r V x ↔
      ∀ m < width, V.getD m Bits.zero x = moved (Bits.value r x) m x := by
  subst hlen
  rw [ShiftedAt, List.ext_getElem_iff]
  simp only [List.length_map, List.length_range, List.getElem_map, List.getElem_range, true_and]
  refine forall_congr' fun m => ?_
  constructor
  · intro h hm
    simpa [hm] using h hm hm
  · intro h hm _
    simpa [hm] using h hm

/-- The disjunction over the amounts is the shift if and only if nothing else is or'ed in. -/
theorem shifted_iff {width : ℕ}
    (hmoved : ∀ n m, width < n → m < width → moved n m = c) :
    ShiftedAt moved width r (shifted moved width r c) x ↔ ShiftFits moved width r c x := by
  have hv := Bits.value_lt r x
  have hself : Taken r x (Bits.value r x) := Nat.mod_eq_of_lt hv
  rw [shiftedAt_iff (length_shifted width)]
  constructor
  · intro h
    refine Or.inr fun m hm hfalse => ?_
    have hunset := mt (getD_shifted hm x).mpr (by rw [h m hm, hfalse]; simp)
    simp only [not_or, not_exists, not_and, Bool.not_eq_true] at hunset
    exact hunset
  · intro h m hm
    rw [Bool.eq_iff_iff, getD_shifted hm x]
    constructor
    · intro hset
      by_contra hmove
      rw [Bool.not_eq_true] at hmove
      rcases h with hfit | hadd
      · -- every amount of the loop fits in `r`, so that only the value itself is taken
        rcases hset with ⟨n, hn, htaken, hbit⟩ | ⟨hgt, hc⟩
        · have hnv : n = Bits.value r x := by
            rwa [Taken, Nat.mod_eq_of_lt (by omega)] at htaken
          rw [hnv, hmove] at hbit
          exact Bool.false_ne_true hbit
        · rw [Nat.mod_eq_of_lt hfit] at hgt
          rw [hmoved _ _ hgt hm, hc] at hmove
          exact Bool.false_ne_true hmove.symm
      · obtain ⟨hamounts, hguard⟩ := hadd m hm hmove
        rcases hset with ⟨n, hn, htaken, hbit⟩ | ⟨hgt, hc⟩
        · rw [hamounts n hn htaken] at hbit
          exact Bool.false_ne_true hbit
        · rw [hguard hgt] at hc
          exact Bool.false_ne_true hc
    · -- the amount itself, or the guard when it exceeds the width
      intro hmove
      rcases Nat.lt_or_ge width (Bits.value r x) with hgt | hle
      · rw [hmoved _ _ hgt hm] at hmove
        exact Or.inr ⟨(Nat.mod_le _ _).trans_lt hgt, hmove⟩
      · exact Or.inl ⟨_, hle, hself, hmove⟩

end

/-! ## What the loops compute -/

section

variable {T : Theory P} {reset : BddState P → Prop} {w : Package P} {K : ℕ → ℕ}
  {B H L R X : Heap} {s : BddState P} {g tmp : ℕ} {C F G : (ℕ → Bool) → Bool}

theorem orLoop_runs (hT : T.Operates) (hK : Frame w K B) (hg : (g, G) ∈ H ++ B)
    {moved : ℕ → ℕ × ((ℕ → Bool) → Bool)} (hmoved : ∀ m, moved m ∈ H ++ B) (k : ℕ)
    (h : Holds T reset w K B (X ++ H) s) :
    Runs Spent (orLoop T.D T.isPrime g (fun m => (moved m).1) k (nodes X)) s
      (Makes T reset w K B H (orMoved G (fun m => (moved m).2) k (bits X))) := by
  induction X generalizing H k s with
  | nil => exact .pure ⟨[], rfl, rfl, h⟩
  | cons p X ih =>
    have hmem : ∀ q ∈ H ++ B, q ∈ p :: X ++ H ++ B := fun q hq => by
      rw [List.append_assoc]
      exact List.mem_append_right _ hq
    refine apply_then hT hK h (hmem _ hg) (hmem _ (hmoved k)) fun tmp1 s h => ?_
    refine apply_then hT hK h (.tail _ (.head _)) (.head _) fun tmp2 s h => ?_
    refine delref_then hK [_] h fun s h _ => ?_
    refine delref_then hK [_] h fun s h _ => ?_
    have h' := Holds.perm (H := (tmp2, _) :: (X ++ H)) h List.perm_middle.symm
    refine (ih (.tail _ hg) (fun m => .tail _ (hmoved m)) (k + 1) h').bind fun res s h => .pure ?_
    obtain ⟨Y, rfl, hV, h⟩ := h
    exact ⟨(tmp2, _) :: Y, rfl, congrArg _ hV, h.perm List.perm_middle⟩

theorem fillLoop_runs (hT : T.Operates) (hK : Frame w K B) (ht : (tmp, F) ∈ H ++ B)
    (h : Holds T reset w K B (X ++ H) s) :
    Runs Spent (fillLoop T.D T.isPrime tmp (nodes X)) s
      (Makes T reset w K B H ((bits X).map fun b x => b x || F x)) := by
  induction X generalizing H s with
  | nil => exact .pure ⟨[], rfl, rfl, h⟩
  | cons p X ih =>
    have hmem : (tmp, F) ∈ p :: X ++ H ++ B := by
      rw [List.append_assoc]
      exact List.mem_append_right _ ht
    refine apply_then hT hK h (.head _) hmem fun tmp2 s h => ?_
    refine delref_then hK [_] h fun s h _ => ?_
    have h' := Holds.perm (H := (tmp2, _) :: (X ++ H)) h List.perm_middle.symm
    refine (ih (.tail _ ht) h').bind fun res s h => .pure ?_
    obtain ⟨Y, rfl, hV, h⟩ := h
    exact ⟨(tmp2, _) :: Y, rfl, congrArg _ hV, h.perm List.perm_middle⟩

/-- One amount, on a result that is held. -/
theorem orAmount_runs (hT : T.Operates) (hK : Frame w K B) (hpos : 0 < R.length) (hR : R ⊆ B)
    {moved : ℕ → ℕ → ℕ × ((ℕ → Bool) → Bool)} (hmoved : ∀ n m, moved n m ∈ B) (n : ℕ)
    (h : Holds T reset w K B (X ++ H) s) :
    Runs Spent (orAmount T.D T.isPrime (fun n m => (moved n m).1) (nodes R) (nodes X) n) s
      (Makes T reset w K B H
        (orMoved (equals (bits R) n) (fun m => (moved n m).2) 0 (bits X))) := by
  obtain ⟨V, hV, hVbits, -, h⟩ := h.con R.length n
  have hlen : R.length = V.length := by rw [← bits_length V, hVbits, Bits.length_ofNat]
  unfold orAmount
  dsimp only
  rw [nodes_length, ← hV]
  refine (equ_runs hT hK hpos hlen (List.subset_append_of_subset_right _ hR)
    (fun p hp => by simp [hp]) h).bind fun rEquN s h => ?_
  rw [hVbits, ← bits_length R] at h
  refine (addref_runs h.1 h.2).bind fun m s h => ?_
  obtain ⟨rfl, h⟩ := h
  have hperm : ((m, equals (bits R) n) :: (V ++ (X ++ H))).Perm
      (X ++ ((m, equals (bits R) n) :: (V ++ H))) :=
    ((List.perm_append_comm_assoc V X H).cons _).trans List.perm_middle.symm
  refine (orLoop_runs hT hK (.head _) (fun k => List.mem_append_right _ (hmoved n k)) 0
    (h.perm hperm)).bind fun res s h => ?_
  obtain ⟨Y, rfl, hY, h⟩ := h
  refine delref_then hK Y h fun s h _ => ?_
  exact delrefs_then hK Y h fun s h _ => .pure ⟨Y, rfl, hY, h⟩

/-- The loop over the amounts. -/
theorem amounts_runs (hT : T.Operates) (hK : Frame w K B) (hpos : 0 < R.length) (hR : R ⊆ B)
    {moved : ℕ → ℕ → ℕ × ((ℕ → Bool) → Bool)} (hmoved : ∀ n m, moved n m ∈ B) (ns : List ℕ)
    (h : Holds T reset w K B (X ++ H) s) :
    Runs Spent (ns.foldlM (orAmount T.D T.isPrime (fun n m => (moved n m).1) (nodes R)) (nodes X)) s
      (Makes T reset w K B H (ns.foldl
        (fun V n => orMoved (equals (bits R) n) (fun m => (moved n m).2) 0 V) (bits X))) := by
  induction ns generalizing X s with
  | nil => exact .pure ⟨X, rfl, rfl, h⟩
  | cons n ns ih =>
    rw [List.foldlM_cons, List.foldl_cons]
    refine (orAmount_runs hT hK hpos hR hmoved n h).bind fun res s h => ?_
    obtain ⟨Y, rfl, hY, h⟩ := h
    rw [← hY]
    exact ih h

/-- What is left when the last guard, which is read only, has lost a reference. -/
theorem guard_runs {V : Heap} (hV : Constants V)
    (hK : Frame w K B) (hg : (g, G) ∈ B) (h : Holds T reset w K B (X ++ V) s) :
    Runs Spent (bddDelref g >>= fun _ => bvecFree (nodes V) >>= fun _ => pure (nodes X)) s
      fun res s' => s'.told = w.bdd.told ∧ nodes X = res ∧ Operand T.D s' X := by
  have hrep : ∀ p ∈ X ++ V ++ B, s.Represents T.D p.1 p.2 := h.represents
  have hown : g < 2 ∨ 0 < K g := hK.borrowed (g, G) hg
  have hmax : 0 < maxref := by decide
  have hpos : 2 ≤ g → 0 < (s.bddnodes g).refcou := fun h2 => by
    have := h.counts g h2
    omega
  have hsmall : ∀ n ∈ nodes V, n < 2 := fun n hn => by
    obtain ⟨p, hp, rfl⟩ := List.mem_map.mp hn
    obtain ⟨b, rfl⟩ := hV p hp
    exact Nat.lt_succ_of_le (Bool.toNat_le b)
  refine (delref_alone h.good h.ok (hrep (g, G) (List.mem_append_right _ hg)) hpos).bind
    fun _ s₁ h₁ => ?_
  obtain ⟨hok₁, h₁⟩ := h₁
  refine (delrefs_tallied h₁.good hok₁ (fun p hp => h₁.survives.represents (hrep p (by simp [hp])))
    (covers_small hsmall)).bind fun _ s₂ h₂ => .pure ?_
  obtain ⟨-, h₂⟩ := h₂
  refine ⟨?_, rfl, fun p hp => ⟨h₂.survives.represents (h₁.survives.represents
    (hrep p (by simp [hp]))), ?_⟩⟩
  · rw [h₂.told, h₁.told, h.told]
  · by_cases h2 : 2 ≤ p.1
    · have hheld := refs_pos hp
      have hVn : refs V p.1 = 0 := List.count_eq_zero.mpr fun h => by
        have := hsmall p.1 h
        omega
      have hc := h.counts p.1 h2
      have hc₁ := h₁.counts p.1 h2
      have hc₂ := h₂.counts p.1 h2
      have := h₁.saturated p.1 h2
      have := h₂.saturated p.1 h2
      rw [refs_append, hVn] at hc
      rw [refs_cons, refs_nil] at hc₁
      rw [refs_nil, hVn] at hc₂
      dsimp only at hc₁
      by_cases hgp : g = p.1
      · rw [if_pos hgp] at hc₁
        rw [hgp] at hown
        omega
      · rw [if_neg hgp] at hc₁
        omega
    · omega

theorem gth_runs (hT : T.Operates) (hK : Frame w K B) (hpos : 0 < R.length) {V : Heap} {n : ℕ}
    (hV : bits V = Bits.ofNat R.length n) (hR : R ⊆ B) (hVH : V ⊆ H ++ B)
    (h : Holds T reset w K B H s) :
    Runs Spent (bvecGth T.D T.isPrime (nodes R) (nodes V)) s
      (Finds T reset w K B H (exceeds (bits R) n)) := by
  have hlen : R.length = V.length := by rw [← bits_length V, hV, Bits.length_ofNat]
  have hle := lte_runs hT hK hpos hlen (List.subset_append_of_subset_right _ hR) hVH h
  rw [hV, ← bits_length R] at hle
  exact negated_runs hT hK hle

/-- The shift, where the last guard is among the nodes that are read only. -/
theorem symbolicShift_runs (hT : T.Operates) (hK : Frame w K B) (hl : 0 < L.length)
    (hr : 0 < R.length) (hR : R ⊆ B) (hc : (g, C) ∈ B)
    {moved : ℕ → ℕ → ℕ × ((ℕ → Bool) → Bool)} (hmoved : ∀ n m, moved n m ∈ B) {guard : ℕ}
    (hguard : (guard, exceeds (bits R) L.length) ∈ B) (h : Holds T reset w K B [] s) :
    Runs Spent (symbolicShift T.D T.isPrime (fun n m => (moved n m).1) (nodes L) (nodes R) g) s
      fun res s' => s'.told = w.bdd.told ∧ ∃ X, nodes X = res ∧ Operand T.D s' X ∧
        bits X = shifted (fun n m => (moved n m).2) L.length (bits R) C := by
  obtain ⟨Z, hZ, hZbits, h⟩ := h.build L.length false
  unfold symbolicShift
  rw [nodes_length, nodes_length, if_neg (by omega), ← hZ]
  refine (amounts_runs hT hK hr hR hmoved _ h).bind fun res s h => ?_
  obtain ⟨Y, rfl, hY, h⟩ := h
  obtain ⟨V, hV, hVbits, hVc, h⟩ := h.con R.length L.length
  dsimp only
  rw [← hV]
  refine (gth_runs hT hK hr hVbits hR (fun p hp => by simp [hp]) h).bind fun rEquN s h => ?_
  have hsame : rEquN = guard :=
    h.1.good.only hT.reduced (h.1.represents _ (List.mem_append_right _ hguard)) h.2
  subst hsame
  refine apply_then hT hK h.1 (List.mem_append_right _ hguard) (List.mem_append_right _ hc)
    fun tmp1 s h => ?_
  have hperm := (List.perm_append_comm_assoc V Y []).cons
    (tmp1, fun a => BddOp.and.fn (exceeds (bits R) L.length a) (C a))
  refine (fillLoop_runs hT hK (.head _) (h.perm (hperm.trans List.perm_middle.symm))).bind
    fun res s h => ?_
  obtain ⟨X, rfl, hX, h⟩ := h
  refine delref_then hK X h fun s h _ => ?_
  rw [List.append_nil] at h
  refine (guard_runs hVc hK hguard h).mono fun res s h => ⟨h.1, X, h.2.1, h.2.2, ?_⟩
  rw [hX, hY, hZbits]
  rfl

end

/-! ## The calls -/

section

variable {D : MtbddDomain P} {isPrime : ℕ → Bool} {reset : BddState P → Prop} {w : Package P}
  {L R X : Heap} {c : ℕ} {C : (ℕ → Bool) → Bool} {s : BddState P} {x : ℕ → Bool}

/-- At `x` the vector returned is `L` shifted left by the value of `R`, with the fill bit below. -/
def ShiftsLeft (D : MtbddDomain P) (L R : Heap) (C : (ℕ → Bool) → Bool) (res : List ℕ)
    (s : BddState P) (x : ℕ → Bool) : Prop :=
  ∃ X, nodes X = res ∧ Operand D s X ∧ (bits X).map (· x) = (List.range L.length).map fun m =>
    if m < Bits.value (bits R) x then C x
    else (bits L).getD (m - Bits.value (bits R) x) Bits.zero x

/-- At `x` the vector returned is `L` shifted right by the value of `R`, with the fill bit above. -/
def ShiftsRight (D : MtbddDomain P) (L R : Heap) (C : (ℕ → Bool) → Bool) (res : List ℕ)
    (s : BddState P) (x : ℕ → Bool) : Prop :=
  ∃ X, nodes X = res ∧ Operand D s X ∧ (bits X).map (· x) = (List.range L.length).map fun m =>
    if m + Bits.value (bits R) x < L.length then
      (bits L).getD (m + Bits.value (bits R) x) Bits.zero x
    else C x

/-- The guard for the amounts above the width is a constant, or there is a reference to it. -/
def GuardHeld (D : MtbddDomain P) (s : BddState P) (L R : Heap) : Prop :=
  ∃ g, Operand D s [(g, exceeds (bits R) L.length)]

theorem movedLeft_apply {l : List ((ℕ → Bool) → Bool)} {n m : ℕ} (hm : m < l.length) :
    (if m < n then C x else l.getD (m - n) Bits.zero x) = movedLeft l C n m x := by
  unfold movedLeft
  by_cases h : m < n
  · rw [if_pos h, if_neg (by omega)]
  · rw [if_neg h, if_pos (by omega), List.getD_eq_getElem l _ (by omega),
      List.getD_eq_getElem l _ (by omega)]

theorem movedRight_apply {l : List ((ℕ → Bool) → Bool)} {n m : ℕ} :
    (if m + n < l.length then l.getD (m + n) Bits.zero x else C x) = movedRight l C n m x := by
  unfold movedRight
  by_cases h : m + n < l.length
  · rw [if_pos h, if_pos h, List.getD_eq_getElem l _ h, List.getD_eq_getElem l _ h]
  · rw [if_neg h, if_neg h]

theorem shiftsLeft_iff (hX : Operand D s X) : ShiftsLeft D L R C (nodes X) s x ↔
    ShiftedAt (movedLeft (bits L) C) L.length (bits R) (bits X) x := by
  have hmoved := List.map_congr_left (l := List.range L.length) fun m hm =>
    movedLeft_apply (C := C) (x := x) (l := bits L) (n := Bits.value (bits R) x)
      (by simpa using hm)
  unfold ShiftsLeft ShiftedAt
  rw [hmoved]
  constructor
  · rintro ⟨Y, hY, hrep, h⟩
    rwa [heap_unique (fun p hp => (hX p hp).1) (fun p hp => (hrep p hp).1) hY.symm]
  · exact fun h => ⟨X, rfl, hX, h⟩

theorem shiftsRight_iff (hX : Operand D s X) : ShiftsRight D L R C (nodes X) s x ↔
    ShiftedAt (movedRight (bits L) C) L.length (bits R) (bits X) x := by
  have hmoved := List.map_congr_left (l := List.range L.length) fun m _ =>
    movedRight_apply (C := C) (x := x) (l := bits L) (n := Bits.value (bits R) x) (m := m)
  rw [bits_length] at hmoved
  unfold ShiftsRight ShiftedAt
  rw [hmoved]
  constructor
  · rintro ⟨Y, hY, hrep, h⟩
    rwa [heap_unique (fun p hp => (hX p hp).1) (fun p hp => (hrep p hp).1) hY.symm]
  · exact fun h => ⟨X, rfl, hX, h⟩

theorem movedLeft_beyond {l : List ((ℕ → Bool) → Bool)} {n m : ℕ} (hn : l.length < n)
    (hm : m < l.length) : movedLeft l C n m = C := if_neg (by omega)

theorem movedRight_beyond {l : List ((ℕ → Bool) → Bool)} {n m : ℕ} (hn : l.length < n) :
    movedRight l C n m = C := if_neg (by omega)

/-- A shift whose last guard has a reference makes no report and is the disjunction over the
amounts. -/
theorem bvecShift_runs (hw : w.Reached D isPrime reset) (hL : Operand D w.bdd L)
    (hR : Operand D w.bdd R) (hc : Operand D w.bdd [(c, C)]) (hl : 0 < L.length)
    (hr : 0 < R.length) (hguard : GuardHeld D w.bdd L R)
    {moved : ℕ → ℕ → ℕ × ((ℕ → Bool) → Bool)} (hmoved : ∀ n m, moved n m ∈ (c, C) :: L) :
    Runs Spent (symbolicShift D isPrime (fun n m => (moved n m).1) (nodes L) (nodes R) c) w.bdd
      fun res s' => s'.told = w.bdd.told ∧ ∃ X, nodes X = res ∧ Operand D s' X ∧
        bits X = shifted (fun n m => (moved n m).2) L.length (bits R) C := by
  obtain ⟨g, hg⟩ := hguard
  obtain ⟨σ, M, B, hK, hcL, hgR, h⟩ := exists_reads hw
    (List.forall_mem_cons.mpr ⟨hc _ (List.mem_singleton_self _), hL⟩)
    (List.forall_mem_cons.mpr ⟨hg _ (List.mem_singleton_self _), hR⟩)
  rw [List.nil_append] at hcL hgR
  exact symbolicShift_runs (full_operates D isPrime σ M) hK hl hr
    (List.subset_of_cons_subset hgR) (hcL (List.mem_cons_self ..))
    (fun n m => hcL (hmoved n m)) (hgR (List.mem_cons_self ..)) h

/-- If there is a reference to the guard for the amounts above the width, `bvec_shl` and `bvec_shr`
make no report, and they are exact at an assignment if and only if the width of `l` fits in `r`, or
what the other amounts or in changes no bit. -/
theorem bvecShl_bvecShr_iff (hw : w.Reached D isPrime reset) (hL : Operand D w.bdd L)
    (hR : Operand D w.bdd R) (hc : Operand D w.bdd [(c, C)]) (hl : 0 < L.length)
    (hr : 0 < R.length) (hguard : GuardHeld D w.bdd L R) :
    (Runs Spent (bvecShl D isPrime (nodes L) (nodes R) c) w.bdd fun res s =>
      s.told = w.bdd.told ∧ ∀ x, ShiftsLeft D L R C res s x ↔
        ShiftFits (movedLeft (bits L) C) L.length (bits R) C x) ∧
    Runs Spent (bvecShr D isPrime (nodes L) (nodes R) c) w.bdd fun res s =>
      s.told = w.bdd.told ∧ ∀ x, ShiftsRight D L R C res s x ↔
        ShiftFits (movedRight (bits L) C) L.length (bits R) C x := by
  have hleft := bvecShift_runs hw hL hR hc hl hr hguard (movedLeft_mem L (c, C))
  have hright := bvecShift_runs hw hL hR hc hl hr hguard (movedRight_mem L (c, C))
  unfold bvecShl bvecShr
  rw [show movedLeft (nodes L) c = _ from movedLeft_map Prod.fst L (c, C),
    show movedRight (nodes L) c = _ from movedRight_map Prod.fst L (c, C)]
  constructor
  · refine hleft.mono fun res s h => ⟨h.1, fun x => ?_⟩
    obtain ⟨-, X, rfl, hX, hbits⟩ := h
    rw [shiftsLeft_iff hX, hbits, ← show movedLeft (bits L) C = _ from
      movedLeft_map Prod.snd L (c, C)]
    exact shifted_iff fun n m hn hm => movedLeft_beyond (by simpa using hn) (by simpa using hm)
  · refine hright.mono fun res s h => ⟨h.1, fun x => ?_⟩
    obtain ⟨-, X, rfl, hX, hbits⟩ := h
    rw [shiftsRight_iff hX, hbits, ← show movedRight (bits L) C = _ from
      movedRight_map Prod.snd L (c, C)]
    exact shifted_iff fun n m hn _ => movedRight_beyond (by simpa using hn)

end

/-- The two variables by two places or three: the guard for three is variable `1`. -/
theorem bvecShl_bvecShr_two :
    (Runs Spent (bvecShl intDomain trialDivision (nodes twoBits) (nodes oddBits) 2)
      Package.twoVariables.bdd fun res s => s.told = Package.twoVariables.bdd.told ∧
        ∀ x, ShiftsLeft intDomain twoBits oddBits (fun a => a 0) res s x ↔
          ShiftFits (movedLeft (bits twoBits) fun a => a 0) 2 (bits oddBits) (fun a => a 0) x) ∧
    Runs Spent (bvecShr intDomain trialDivision (nodes twoBits) (nodes oddBits) 2)
      Package.twoVariables.bdd fun res s => s.told = Package.twoVariables.bdd.told ∧
        ∀ x, ShiftsRight intDomain twoBits oddBits (fun a => a 0) res s x ↔
          ShiftFits (movedRight (bits twoBits) fun a => a 0) 2 (bits oddBits) (fun a => a 0) x := by
  have hguard : exceeds (bits oddBits) twoBits.length = fun a => a 1 := by
    funext a
    cases h : a 1 <;> simp [exceeds, oddBits, twoBits, Bits.less, Bits.ofNat, h]
  refine bvecShl_bvecShr_iff (twoVariables_reached fun _ => True) twoBits_operand oddBits_operand
    (twoVariables_operand fun p hp => ?_) (by decide) (by decide)
    ⟨4, twoVariables_operand fun p hp => ?_⟩
  · rw [List.mem_singleton.mp hp]
    simp
  · rw [List.mem_singleton.mp hp, hguard]
    simp

theorem bvecShift_runs_two :
    (((bvecShl intDomain trialDivision [1, 0, 0] [0] 0).exec Bdd.twoVariables).map fun o =>
      (o.1, o.2.bdderrorcond)) = some (some [1, 0, 1], false) ∧
    (((bvecShr intDomain trialDivision [2, 4] [2, 4] 0).exec Bdd.twoVariables).map fun o =>
      (o.1, o.2.bdderrorcond)) = some (none, false) := by
  decide +kernel

/-- Three bits by none, counted in one bit: two places are taken for none. Two bits by two, which
fit: the last guard has no reference to give back. -/
theorem bvecShift_inexact :
    (∀ x, ¬ Runs Spent (bvecShl intDomain trialDivision [1, 0, 0] [0] 0) Package.twoVariables.bdd
      fun res s => ShiftsLeft intDomain [(1, Bits.one), (0, Bits.zero), (0, Bits.zero)]
        [(0, Bits.zero)] Bits.zero res s x) ∧
    ∀ x, ¬ Runs Spent (bvecShr intDomain trialDivision (nodes twoBits) (nodes twoBits) 0)
      Package.twoVariables.bdd
      fun res s => ShiftsRight intDomain twoBits twoBits Bits.zero res s x := by
  obtain ⟨hrun, hrun'⟩ := bvecShift_runs_two
  obtain ⟨o, ho, hout⟩ := Option.map_eq_some_iff.mp hrun
  obtain ⟨o', ho', hout'⟩ := Option.map_eq_some_iff.mp hrun'
  obtain ⟨hval, herr⟩ := Prod.mk.inj hout
  obtain ⟨hnone, herr'⟩ := Prod.mk.inj hout'
  refine ⟨fun x h => ?_, fun x h => ?_⟩
  · rcases h.outcome ho with ⟨-, hspent⟩ | ⟨out, hret, X, rfl, hX, hmoved⟩
    · exact hspent herr
    · -- the third bit is a one
      rw [hret] at hval
      have hconst : ∀ p ∈ [((1 : ℕ), (Bits.one : (ℕ → Bool) → Bool)), (0, Bits.zero), (1, Bits.one)],
          BddState.Represents intDomain o.2 p.1 p.2 := fun p hp => by
        simp only [List.mem_cons, List.not_mem_nil, or_false] at hp
        rcases hp with rfl | rfl | rfl
        · exact ⟨_, .const true, trivial, fun _ => rfl⟩
        · exact ⟨_, .const false, trivial, fun _ => rfl⟩
        · exact ⟨_, .const true, trivial, fun _ => rfl⟩
      rw [heap_unique (fun p hp => (hX p hp).1) hconst (Option.some.inj hval)] at hmoved
      revert hmoved
      simp [List.range_succ]
  · rcases h.outcome ho' with ⟨-, hspent⟩ | ⟨out, hret, -⟩
    · exact hspent herr'
    · rw [hnone] at hret
      exact absurd hret nofun

end MoToBuddy.Bvec
