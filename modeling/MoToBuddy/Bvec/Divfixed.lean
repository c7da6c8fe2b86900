import MoToBuddy.Bvec.Rules

/-!
# `bvec_divfixed`

Division of a vector by a constant, by shift and subtract in registers as wide as the vector. The
constant is cut to that width, and the remainder loses its top bit when it is shifted back. Each
step takes no references to the bits that it subtracts and frees them, after all steps.
-/

namespace MoToBuddy.Bvec

open Bdd BoolFun Exiting Package

variable {P : Type} {D : MtbddDomain P} {isPrime : ℕ → Bool}

section

variable (D isPrime)

/-- The bits of `sub` in `bvec_div_rec`, which get no references. -/
def subBits (isSmaller : ℕ) : List ℕ → List ℕ → Prog (BddState P) (List ℕ)
  | d :: divisor, z :: zero => do
    let n ← bddIte D isPrime isSmaller d z
    let sub ← subBits isSmaller divisor zero
    return n :: sub
  | _, _ => return []

/-- `bvec_div_rec`: the new `*remainder` and `*result`. The call with no step is the one that the
test `step > 1` leaves out. -/
def bvecDivRec (divisor : List ℕ) : ℕ → List ℕ → List ℕ → Prog (BddState P) (List ℕ × List ℕ)
  | 0, remainder, result => return (remainder, result)
  | step + 1, remainder, result => do
    let isSmaller ← bddAddref (← bvecLte D isPrime divisor remainder)
    let newResult ← bvecShlfixed result 1 isSmaller
    let zero := bvecBuild divisor.length false
    let sub ← subBits D isPrime isSmaller divisor zero
    let tmp ← bvecSub D isPrime remainder sub
    let newRemainder ← bvecShlfixed tmp 1 (result.getD (divisor.length - 1) 0)
    let out ← bvecDivRec divisor step newRemainder newResult
    bvecFree tmp
    bvecFree sub
    bvecFree zero
    bddDelref isSmaller
    bvecFree remainder
    bvecFree result
    return out

/-- `bvec_divfixed`: the result and the remainder. -/
def bvecDivfixed (e : List ℕ) (c : ℤ) : Prog (BddState P) (List ℕ × List ℕ) := do
  if c > 0 then
    let divisor := bvecCon e.length c.toNat
    let tmp := bvecBuild e.length false
    let tmpremainder ← bvecShlfixed tmp 1 (e.getD (e.length - 1) 0)
    let result ← bvecShlfixed e 1 0
    let (tmpremainder, result) ← bvecDivRec D isPrime divisor divisor.length tmpremainder result
    let remainder ← bvecShrfixed tmpremainder 1 0
    bvecFree tmp
    bvecFree tmpremainder
    bvecFree divisor
    return (result, remainder)
  else bddError .bvecDivzero

/-! ## The steps and what they free

The frees come after all steps. `divDown` are the steps, with the nodes that are freed.
-/

/-- The steps of `bvec_div_rec`: the remainder, the result, and what is freed. -/
def divDown (divisor : List ℕ) :
    ℕ → List ℕ → List ℕ → Prog (BddState P) (List ℕ × List ℕ × List ℕ)
  | 0, remainder, result => return (remainder, result, [])
  | step + 1, remainder, result => do
    let isSmaller ← bddAddref (← bvecLte D isPrime divisor remainder)
    let newResult ← bvecShlfixed result 1 isSmaller
    let zero := bvecBuild divisor.length false
    let sub ← subBits D isPrime isSmaller divisor zero
    let tmp ← bvecSub D isPrime remainder sub
    let newRemainder ← bvecShlfixed tmp 1 (result.getD (divisor.length - 1) 0)
    let out ← divDown divisor step newRemainder newResult
    return (out.1, out.2.1, out.2.2 ++ (tmp ++ (sub ++ (zero ++ isSmaller :: (remainder ++ result)))))

end

theorem bvecDelref_append (u v : List ℕ) : bvecDelref (u ++ v) =
    (bvecDelref u >>= fun _ => bvecDelref v : Prog (BddState P) Unit) := by
  induction u with
  | nil => simp [bvecDelref]
  | cons n u ih => simp [bvecDelref, ih]

/-- `bvec_div_rec` is its steps, and then the frees. -/
theorem bvecDivRec_eq (divisor : List ℕ) (step : ℕ) (remainder result : List ℕ) :
    bvecDivRec D isPrime divisor step remainder result =
      divDown D isPrime divisor step remainder result >>= fun out =>
        bvecDelref out.2.2 >>= fun _ => pure (out.1, out.2.1) := by
  induction step generalizing remainder result with
  | zero => simp [bvecDivRec, divDown, bvecDelref]
  | succ step ih => simp [bvecDivRec, divDown, ih, bvecDelref_append, bvecDelref, bvecFree]

/-! ## The bits of `sub` -/

/-- The vector `sub` for the divisor `X`: its ones are the node `p`. -/
def subHeap (p : ℕ × ((ℕ → Bool) → Bool)) (X : Heap) : Heap :=
  X.map fun q => if q.1 = 1 then p else (0, Bits.zero)

section

variable {T : Theory P} {reset : BddState P → Prop} {w : Package P} {K : ℕ → ℕ}
  {B H A X Q : Heap} {s : BddState P} {p : ℕ × ((ℕ → Bool) → Bool)} {n : ℕ}

theorem bits_subHeap (hX : Constants X) : bits (subHeap p X) = Bits.mask p.2 (bits X) := by
  unfold subHeap bits Bits.mask
  rw [List.map_map, List.map_map]
  refine List.map_congr_left fun q hq => ?_
  obtain ⟨b, rfl⟩ := hX q hq
  cases b with
  | true => simp
  | false =>
    simp only [Bool.toNat_false, Function.comp_apply, zero_ne_one, if_false, Bool.and_false]
    rfl

theorem refs_subHeap {k : ℕ} (hk : 2 ≤ k) :
    refs (subHeap p X) k = if p.1 = k then refs X 1 else 0 := by
  induction X with
  | nil => simp [subHeap]
  | cons q X ih =>
    rw [show subHeap p (q :: X) = (if q.1 = 1 then p else (0, Bits.zero)) :: subHeap p X from rfl,
      refs_cons, refs_cons, ih]
    by_cases hq : q.1 = 1
    · rw [if_pos hq, if_pos hq]
      split_ifs <;> omega
    · rw [if_neg hq, if_neg hq, if_neg (by dsimp only; omega), Nat.zero_add, Nat.zero_add]

theorem mem_subHeap {q : ℕ × ((ℕ → Bool) → Bool)} (hq : q ∈ subHeap p X) :
    q = p ∨ q = (0, Bits.zero) := by
  obtain ⟨r, -, rfl⟩ := List.mem_map.mp hq
  split_ifs
  · exact Or.inl rfl
  · exact Or.inr rfl

/-- The choice between a constant and zero needs no new node. -/
theorem subBits_runs (hT : T.Operates) (hK : Frame w K B) (hX : Constants X) (hp : p ∈ H ++ B)
    (h : Holds T reset w K B H s) :
    Runs Spent (subBits T.D T.isPrime p.1 (nodes X) (bvecBuild X.length false)) s fun v s' =>
      v = nodes (subHeap p X) ∧ Holds T reset w K B H s' := by
  induction X generalizing s with
  | nil => exact .pure ⟨rfl, h⟩
  | cons q X ih =>
    obtain ⟨b, rfl⟩ := hX q (List.mem_cons_self ..)
    have hconst := (h.const b).const false
    have hite := ite_runs hT hK hconst (.tail _ (.tail _ hp)) (.tail _ (.head _)) (.head _)
    refine hite.bind fun n s h => ?_
    have h' := h.1.unconst.unconst
    refine (ih (fun q hq => hX q (.tail _ hq)) h').bind fun v s'' h'' => .pure ⟨?_, h''.2⟩
    -- the node is found by its function
    have hn : n = (if b.toNat = 1 then p else (0, Bits.zero)).1 := by
      cases b with
      | true =>
        refine h'.good.only hT.reduced (h'.represents p hp) ?_
        simpa using h.2
      | false =>
        have hzero := h.2
        simp only [ite_self] at hzero
        exact h'.good.only hT.reduced (h.1.represents _ (.head _)) hzero
    rw [h''.1, hn]
    rfl

/-! ## The steps -/

/-- The top bit, as the code finds it. -/
theorem exists_top (hpos : 0 < Q.length) : ∃ p ∈ Q,
    (∀ i, i + 1 = Q.length → (nodes Q).getD i 0 = p.1) ∧
      (bits Q).getLastD Bits.zero = p.2 := by
  obtain rfl | ⟨Q, top, rfl⟩ := List.eq_nil_or_concat' Q
  · simp at hpos
  · refine ⟨top, by simp, fun i hi => ?_, by simp⟩
    have hi' : i = (nodes Q).length := by simpa using hi
    rw [hi', nodes_append, List.getD_append_right _ _ _ _ (le_refl _), Nat.sub_self]
    rfl

/-- What is shifted out of a register does not count. -/
theorem take_shifted (M : Heap) (p : ℕ × ((ℕ → Bool) → Bool)) (Q : Heap) :
    (M ++ p :: Q.dropLast).take Q.length = (M ++ [p] ++ Q).take Q.length := by
  rw [List.append_assoc, List.take_append, List.take_append, List.singleton_append]
  congr 1
  cases hk : Q.length - M.length with
  | zero => rfl
  | succ k =>
    rw [List.take_succ_cons, List.take_succ_cons, List.dropLast_eq_take, List.take_take,
      Nat.min_eq_left (by omega)]

/-- What the steps have when the frees begin: the remainder `A`, the result, into which the bits `M`
were shifted, and `G`, which is held and freed. The bits of `sub` are freed, too, which are the bits
`M` where the divisor `X` has ones. -/
structure Descended (T : Theory P) (reset : BddState P → Prop) (w : Package P) (K : ℕ → ℕ)
    (B H X A₀ Q₀ : Heap) (out : List ℕ × List ℕ × List ℕ) (s : BddState P) (A Q M F G : Heap) :
    Prop where
  out : out = (nodes A, nodes Q, nodes F)
  shifted : Q = (M ++ Q₀).take Q₀.length
  registers : (bits A, bits Q) = (Bits.registerPass (bits X))^[M.length] (bits A₀, bits Q₀)
  freed : ∀ p ∈ F, p ∈ G ∨ p = (0, Bits.zero)
  counts : ∀ k, 2 ≤ k → refs F k = refs G k + refs X 1 * refs M k
  holds : Holds T reset w K B (A ++ (Q ++ (G ++ H))) s

theorem divDown_runs (hT : T.Operates) (hK : Frame w K B) (hX : Constants X)
    (hpos : 0 < Q.length) (hXlen : X.length = Q.length) (hA : A.length = Q.length)
    (hXsub : X ⊆ H ++ B) (step : ℕ) (h : Holds T reset w K B (A ++ (Q ++ H)) s) :
    Runs Spent (divDown T.D T.isPrime (nodes X) step (nodes A) (nodes Q)) s fun out s' =>
      ∃ A' Q' M F G, M.length = step ∧
        Descended T reset w K B H X A Q out s' A' Q' M F G := by
  induction step generalizing A Q H s with
  | zero =>
    refine .pure ⟨A, Q, [], [], [], rfl, rfl, ?_, rfl, ?_, ?_, h⟩
    · rw [List.nil_append, List.take_length]
    · exact fun p hp => absurd hp List.not_mem_nil
    · exact fun k _ => by simp
  | succ step ih =>
    unfold divDown
    dsimp only
    rw [nodes_length]
    have hX' : ∀ p ∈ X, p ∈ A ++ (Q ++ H) ++ B := sub_append (sub_append hXsub Q) A
    have hA' : ∀ p ∈ A, p ∈ A ++ (Q ++ H) ++ B := fun p hp => by simp [hp]
    have hQ' : ∀ p ∈ Q, p ∈ A ++ (Q ++ H) ++ B := fun p hp => by simp [hp]
    refine (lte_runs hT hK (by omega) (by omega) hX' hA' h).bind fun m s h => ?_
    generalize hC : Bits.less (bits X) (bits A) Bits.one = C at h
    refine (addref_runs h.1 h.2).bind fun m' s h => ?_
    obtain ⟨rfl, h⟩ := h
    refine (shlfixed_one_runs (sub_cons hQ' _) (.head _) hpos h).bind fun newResult s h => ?_
    obtain ⟨rfl, h⟩ := h
    refine (subBits_runs (p := (m', C)) hT hK hX (.head _) h).bind fun sub s h => ?_
    obtain ⟨rfl, h⟩ := h
    have hsublen : A.length = (subHeap (m', C) X).length := by
      rw [subHeap, List.length_map]
      omega
    have hAsub : ∀ p ∈ A, p ∈ (0, Bits.zero) :: ((m', C) :: Q.dropLast ++ (m', C) ::
        (A ++ (Q ++ H))) ++ B := fun p hp => by simp [hp]
    have hsub : ∀ p ∈ subHeap (m', C) X, p ∈ (0, Bits.zero) :: ((m', C) :: Q.dropLast ++
        (m', C) :: (A ++ (Q ++ H))) ++ B := fun p hp => by
      rcases mem_subHeap hp with rfl | rfl <;> simp
    refine (sub_runs hT hK (by omega) hsublen hAsub hsub (h.const false)).bind fun tmp s h => ?_
    obtain ⟨Y, rfl, hY, h⟩ := Makes.unconst (b := false) h
    have hYlen : Y.length = A.length := by
      have hlen := Bits.length_sub (l := bits A) (r := bits (subHeap (m', C) X))
        (by simpa using hsublen) Bits.zero
      rw [← hY] at hlen
      simpa using hlen
    obtain ⟨top, htop, hnode, hbit⟩ := exists_top hpos
    rw [hnode (X.length - 1) (by omega)]
    refine (shlfixed_one_runs (L := Y) (C := top.2) (fun p hp => by simp [hp]) (by simp [htop])
      (by omega) h).bind fun newRemainder s h => ?_
    obtain ⟨rfl, h⟩ := h
    have hperm := (List.perm_append_comm_assoc Y ((m', C) :: Q.dropLast)
      ((m', C) :: (A ++ (Q ++ H)))).append_left (top :: Y.dropLast)
    have hQ₁ : ((m', C) :: Q.dropLast).length = Q.length := by simp; omega
    have hA₁ : (top :: Y.dropLast).length = Q.length := by simp; omega
    refine (ih (by omega) (by omega) (by omega)
      (sub_append (sub_cons (sub_append (sub_append hXsub Q) A) _) Y) (h.perm hperm)).bind
      fun out s h => .pure ?_
    obtain ⟨A', Q', M, F, G, rfl, hout, hshift, hreg, hfreed, hcounts, h⟩ := h
    refine ⟨A', Q', M ++ [(m', C)], F ++ (Y ++ (subHeap (m', C) X ++
      (List.replicate X.length (0, Bits.zero) ++ (m', C) :: (A ++ Q)))),
      G ++ (Y ++ (m', C) :: (A ++ Q)), by simp, ?_, ?_, ?_, ?_, ?_, ?_⟩
    · rw [hout]
      simp [bvecBuild]
    · rw [hshift, hQ₁]
      exact take_shifted M (m', C) Q
    · have hpass : Bits.registerPass (bits X) (bits A, bits Q) =
          (bits ((top.1, top.2) :: Y.dropLast), bits ((m', C) :: Q.dropLast)) := by
        rw [Bits.registerPass, hC, ← bits_subHeap (p := (m', C)) hX, ← hY, hbit]
        simp [Bits.double]
      rw [hreg, List.length_append, List.length_singleton, Function.iterate_succ_apply, hpass]
    · intro p hp
      simp only [List.mem_append, List.mem_cons, List.mem_replicate] at hp ⊢
      have := hfreed p
      have := mem_subHeap (p := (m', C)) (X := X) (q := p)
      tauto
    · intro k hk
      have := hcounts k hk
      have hzero : refs (List.replicate X.length (0, Bits.zero)) k = 0 := by
        rw [refs, nodes_replicate, List.count_replicate, if_neg (by simp; omega)]
      simp only [refs_append, refs_cons, refs_nil, refs_subHeap hk, hzero, this]
      split_ifs <;> ring
    · simpa using h

end

/-! ## The registers -/

/-- The functions in the registers for the remainder and the quotient after all steps. -/
def divided (e : List ((ℕ → Bool) → Bool)) (c : ℕ) :
    List ((ℕ → Bool) → Bool) × List ((ℕ → Bool) → Bool) :=
  (Bits.registerPass (Bits.ofNat e.length c))^[e.length]
    (Bits.double (e.getLastD Bits.zero) (List.replicate e.length Bits.zero),
      Bits.double Bits.zero e)

/-- The remainder leaves the top bit free, and the constant fits the width or its low bits
exceed the dividend. -/
def DivFits (e : List ((ℕ → Bool) → Bool)) (c : ℤ) (x : ℕ → Bool) : Prop :=
  Bits.value e x % c.toNat < 2 ^ (e.length - 1) ∧
    (c.toNat < 2 ^ e.length ∨ Bits.value e x < c.toNat % 2 ^ e.length)

instance (e : List ((ℕ → Bool) → Bool)) (c : ℤ) (x : ℕ → Bool) : Decidable (DivFits e c x) :=
  inferInstanceAs (Decidable (_ ∧ _))

theorem divided_registers {e : List ((ℕ → Bool) → Bool)} (he : 0 < e.length) (c : ℕ)
    (x : ℕ → Bool) : Bits.RegisterDivision e.length (c % 2 ^ e.length) (Bits.value e x) x e.length
      (divided e c) := by
  have hstart := Bits.RegisterDivision.start he (c % 2 ^ e.length) x
  rw [← Bits.value_ofNat e.length c x] at hstart
  have hend := hstart.passes he (Bits.length_ofNat _ _) (Bits.value_lt e x) e.length
  rw [Nat.zero_add, Bits.value_ofNat] at hend
  exact hend

theorem divided_iff {e : List ((ℕ → Bool) → Bool)} (he : 0 < e.length) {c : ℤ} (hc : 0 < c)
    (x : ℕ → Bool) :
    (Bits.value (divided e c.toNat).2 x = Bits.value e x / c.toNat ∧
      Bits.value (Bits.half (divided e c.toNat).1) x = Bits.value e x % c.toNat) ↔
      DivFits e c x := by
  have hv := Bits.value_lt e x
  have hend := divided_registers he c.toNat x
  have hfinal (hd : 0 < c.toNat % 2 ^ e.length) := (hend.registers hd le_rfl).final he hv
  rw [Bits.value_half (by rw [hend.rem_length]; exact he), DivFits]
  by_cases hfit : c.toNat < 2 ^ e.length
  · -- the divisor is the constant itself
    rw [Nat.mod_eq_of_lt hfit] at hfinal
    obtain ⟨hquot, hremn⟩ := hfinal (by omega)
    rw [hquot, hremn, Nat.mod_eq_iff_lt (by positivity)]
    simp [hfit]
  · -- the quotient is zero and the remainder the dividend
    have hbig : Bits.value e x < c.toNat := by omega
    rw [Nat.div_eq_of_lt hbig, Nat.mod_eq_of_lt hbig]
    simp only [hfit, false_or]
    rcases Nat.eq_zero_or_pos (c.toNat % 2 ^ e.length) with hzero | hpos
    · have hodd := hend.odd hzero he
      omega
    · obtain ⟨hquot, hremn⟩ := hfinal hpos
      rw [hquot, hremn, Nat.div_eq_zero_iff_lt hpos]
      constructor
      · rintro ⟨hlt, hrem⟩
        rw [Nat.mod_eq_of_lt hlt, Nat.mod_eq_iff_lt (by positivity)] at hrem
        exact ⟨hrem, hlt⟩
      · rintro ⟨hrem, hlt⟩
        rw [Nat.mod_eq_of_lt hlt, Nat.mod_eq_of_lt hrem]
        exact ⟨hlt, rfl⟩

/-! ## What is released -/

/-- The number of places of a vector with the function `F`. -/
noncomputable def places (F : (ℕ → Bool) → Bool) (V : List ((ℕ → Bool) → Bool)) : ℕ := by
  classical exact V.count F

/-- There are `k` references to a node with the function `F`, unless none are asked for. -/
def Referred (D : MtbddDomain P) (s : BddState P) (F : (ℕ → Bool) → Bool) (k : ℕ) : Prop :=
  k = 0 ∨ ∃ n, s.Represents D n F ∧ (maxref ≤ (s.bddnodes n).refcou ∨ k ≤ (s.bddnodes n).refcou)

/-- Each bit of the quotient is a constant or has references for its places in `sub`, which are the
ones of the divisor, in place of those in the quotient and the remainder. -/
def Released (D : MtbddDomain P) (s : BddState P) (E : Heap) (c : ℤ) : Prop :=
  ∀ F ∈ (divided (bits E) c.toNat).2, (∃ b, F = fun _ => b) ∨
    Referred D s F ((bvecCon E.length c.toNat).count 1 * places F (divided (bits E) c.toNat).2 -
      places F (divided (bits E) c.toNat).2 - places F (divided (bits E) c.toNat).1.tail)

section

variable {T : Theory P} {s : BddState P} {X : Heap} {F : (ℕ → Bool) → Bool} {n : ℕ}

/-- A node is at the places of its function. -/
theorem refs_eq_places (hT : T.Operates) (hs : Good T s)
    (hX : ∀ p ∈ X, s.Represents T.D p.1 p.2) (hn : s.Represents T.D n F) :
    refs X n = places F (bits X) := by
  induction X with
  | nil => simp [places]
  | cons p X ih =>
    classical
    have hp := hX p (List.mem_cons_self ..)
    have hiff : p.1 = n ↔ p.2 = F := by
      constructor
      · rintro rfl
        exact hp.unique hn
      · rintro rfl
        exact hs.only hT.reduced hn hp
    have hplaces : places F (bits (p :: X)) = places F (bits X) + if p.2 = F then 1 else 0 := by
      unfold places
      rw [show bits (p :: X) = p.2 :: bits X from rfl, List.count_cons]
      simp
    rw [refs_cons, hplaces, ih fun q hq => hX q (.tail _ hq), Nat.add_comm]
    simp only [hiff]

/-- The nodes of some functions, as far as there are any with references. -/
theorem exists_referenced (hT : T.Operates) (hs : Good T s) (V : List ((ℕ → Bool) → Bool)) :
    ∃ N, Operand T.D s N ∧ ∀ F ∈ V, ∀ n, s.Represents T.D n F → 0 < (s.bddnodes n).refcou →
      (n, F) ∈ N := by
  induction V with
  | nil => exact ⟨[], fun _ hp => absurd hp List.not_mem_nil, fun _ hF => absurd hF List.not_mem_nil⟩
  | cons F V ih =>
    obtain ⟨N, hN, hV⟩ := ih
    by_cases hF : ∃ n, s.Represents T.D n F ∧ 0 < (s.bddnodes n).refcou
    · obtain ⟨n, hn, hpos⟩ := hF
      refine ⟨(n, F) :: N, List.forall_mem_cons.mpr ⟨⟨hn, Or.inr hpos⟩, hN⟩, fun G hG m hm hm' => ?_⟩
      rcases List.mem_cons.mp hG with rfl | hG
      · rw [hs.only hT.reduced hn hm]
        exact List.mem_cons_self ..
      · exact .tail _ (hV G hG m hm hm')
    · refine ⟨N, hN, fun G hG m hm hm' => ?_⟩
      rcases List.mem_cons.mp hG with rfl | hG
      · exact absurd ⟨m, hm, hm'⟩ hF
      · exact hV G hG m hm hm'

/-- The remainder is moved down by one place. -/
theorem shrfixed_tallied {A : Heap} (hs : Good T s) (hok : s.Ok) (hpos : 0 < A.length)
    (hA : ∀ p ∈ A, s.Represents T.D p.1 p.2) :
    Runs Spent (bvecShrfixed (nodes A) 1 0) s fun v s' =>
      v = nodes (A.tail ++ [(0, Bits.zero)]) ∧ s'.Ok ∧
        Tallied T s ([(0, Bits.zero)] ++ A.tail) [] s' := by
  have hlow : (nodes A).drop (1 : ℤ).toNat = nodes A.tail := by
    rw [nodes_tail, ← List.drop_one]
    rfl
  have hone : min A.length (1 : ℤ).toNat = 1 := Nat.min_eq_right hpos
  unfold bvecShrfixed
  rw [if_neg (by omega), nodes_length, if_neg (by omega), hlow, hone]
  have hconst : ∀ p ∈ [((0 : ℕ), (Bits.zero : (ℕ → Bool) → Bool))], s.Represents T.D p.1 p.2 :=
    fun p hp => by
      rw [List.mem_singleton.mp hp]
      exact ⟨_, .const false, trivial, fun _ => rfl⟩
  refine (addrefs_tallied hs hok hconst).bind fun v s' h => ?_
  refine (addrefs_tallied h.2.2.good h.2.1 fun p hp =>
    h.2.2.survives.represents (hA p (List.mem_of_mem_tail hp))).bind fun v' s'' h' => .pure ?_
  refine ⟨?_, h'.2.1, h.2.2.trans h'.2.2⟩
  rw [h.1, h'.1, nodes_append]

/-- What comes after the steps: everything but the results is freed. -/
theorem cleanup_runs {A Q F Z : Heap} (hs : Good T s) (hok : s.Ok) (hpos : 0 < A.length)
    (hrep : ∀ p ∈ A ++ (Q ++ (F ++ (Z ++ X))), s.Represents T.D p.1 p.2)
    (hZ : ∀ n ∈ nodes Z, n < 2) (hX : ∀ n ∈ nodes X, n < 2)
    (hcount : ∀ n, 2 ≤ n → maxref ≤ (s.bddnodes n).refcou ∨
      refs F n + refs A n ≤ (s.bddnodes n).refcou + refs A.tail n) :
    Runs Spent (bvecDelref (nodes F) >>= fun _ => bvecShrfixed (nodes A) 1 0 >>= fun remainder =>
      bvecFree (nodes Z) >>= fun _ => bvecFree (nodes A) >>= fun _ => bvecFree (nodes X) >>=
      fun _ => pure (nodes Q, remainder)) s fun out s' => s'.told = s.told ∧
        out = (nodes Q, nodes (A.tail ++ [(0, Bits.zero)])) ∧
        ∀ p ∈ Q ++ (A.tail ++ [(0, Bits.zero)]), s'.Represents T.D p.1 p.2 := by
  have htail : ∀ n, refs A.tail n ≤ refs A n := fun n => by
    rw [refs, refs, nodes_tail]
    exact (List.tail_sublist _).count_le n
  have hFcov : s.Covers (nodes F) := fun n hn => by
    have := hcount n hn
    have := htail n
    change _ ∨ refs F n ≤ _
    omega
  refine (delrefs_tallied hs hok (fun p hp => hrep p (by simp [hp])) hFcov).bind fun _ s₁ h₁ => ?_
  obtain ⟨hok₁, h₁⟩ := h₁
  have hrep₁ := fun p hp => h₁.survives.represents (hrep p hp)
  refine (shrfixed_tallied h₁.good hok₁ hpos fun p hp => hrep₁ p (by simp [hp])).bind
    fun remainder s₂ h₂ => ?_
  obtain ⟨rfl, hok₂, h₂⟩ := h₂
  have hrep₂ := fun p hp => h₂.survives.represents (hrep₁ p hp)
  refine (delrefs_tallied h₂.good hok₂ (fun p hp => hrep₂ p (by simp [hp]))
    (covers_small hZ)).bind fun _ s₃ h₃ => ?_
  obtain ⟨hok₃, h₃⟩ := h₃
  have hrep₃ := fun p hp => h₃.survives.represents (hrep₂ p hp)
  have hAcov : s₃.Covers (nodes A) := fun n hn => by
    have hZn : refs Z n = 0 := List.count_eq_zero.mpr fun h => by
      have := hZ n h
      omega
    have hc₁ := h₁.counts n hn
    have hc₂ := h₂.counts n hn
    have hc₃ := h₃.counts n hn
    have := h₁.saturated n hn
    have := h₂.saturated n hn
    have := h₃.saturated n hn
    have := hcount n hn
    have := htail n
    rw [refs_append, refs_cons, refs_nil, if_neg (by dsimp only; omega)] at hc₂
    rw [refs_nil] at hc₁ hc₃
    change _ ∨ refs A n ≤ _
    omega
  refine (delrefs_tallied h₃.good hok₃ (fun p hp => hrep₃ p (by simp [hp])) hAcov).bind
    fun _ s₄ h₄ => ?_
  obtain ⟨hok₄, h₄⟩ := h₄
  have hrep₄ := fun p hp => h₄.survives.represents (hrep₃ p hp)
  refine (delrefs_tallied h₄.good hok₄ (fun p hp => hrep₄ p (by simp [hp]))
    (covers_small hX)).bind fun _ s₅ h₅ => .pure ?_
  refine ⟨?_, rfl, fun p hp => ?_⟩
  · rw [h₅.2.told, h₄.told, h₃.told, h₂.told, h₁.told]
  · simp only [List.mem_append, List.mem_singleton] at hp
    rcases hp with hp | hp | rfl
    · exact h₅.2.survives.represents (hrep₄ p (by simp [hp]))
    · exact h₅.2.survives.represents (hrep₄ p (by simp [List.mem_of_mem_tail hp]))
    · exact ⟨_, .const false, trivial, fun _ => rfl⟩

/-- What is freed too often has other references. -/
theorem spared {reset : BddState P → Prop} {w : Package P} {E B H A M N : Heap} {c : ℤ}
    (hT : T.Operates)
    (h : Holds T reset w (fun n => (w.bdd.bddnodes n).refcou) B (A ++ (M ++ H)) s)
    (hM : bits M = (divided (bits E) c.toNat).2) (hA : bits A = (divided (bits E) c.toNat).1)
    (hN : ∀ F ∈ bits M, ∀ n, w.bdd.Represents T.D n F → 0 < (w.bdd.bddnodes n).refcou → (n, F) ∈ N)
    (hB : N ⊆ B) (hrel : Released T.D w.bdd E c) (hn : 2 ≤ n) :
    (bvecCon E.length c.toNat).count 1 * refs M n ≤
        refs M n + refs A.tail n + (w.bdd.bddnodes n).refcou ∨
      maxref ≤ (s.bddnodes n).refcou := by
  have hMrep : ∀ p ∈ M, s.Represents T.D p.1 p.2 := fun p hp => h.represents p (by simp [hp])
  have hArep : ∀ p ∈ A.tail, s.Represents T.D p.1 p.2 := fun p hp =>
    h.represents p (by simp [List.mem_of_mem_tail hp])
  by_cases hpos : 0 < refs M n
  · obtain ⟨p, hp, rfl⟩ := List.mem_map.mp (List.count_pos_iff.mp hpos)
    have hF : p.2 ∈ bits M := List.mem_map_of_mem hp
    have hplaces := refs_eq_places hT h.good hMrep (hMrep p hp)
    have hplaces' := refs_eq_places hT h.good hArep (hMrep p hp)
    rw [bits_tail, hA] at hplaces'
    rw [hM] at hplaces
    rw [hplaces, hplaces']
    rcases hrel p.2 (hM ▸ hF) with ⟨b, hb⟩ | hzero | ⟨m, hm, hcount⟩
    · -- a constant has a node of its own
      have hconst := ((h.const b).represents _ (.head _))
      rw [← hb] at hconst
      have hnode : p.1 = b.toNat := h.good.only hT.reduced hconst (hMrep p hp)
      have := Bool.toNat_le b
      omega
    · omega
    · by_cases hm' : 0 < (w.bdd.bddnodes m).refcou
      · have hmem := hB (hN p.2 hF m hm hm')
        have hsame : p.1 = m := h.good.only hT.reduced
          (h.represents _ (List.mem_append_right _ hmem)) (hMrep p hp)
        rw [← hsame] at hcount
        rcases hcount with hsat | hcount
        · exact Or.inr (h.saturated _ hn hsat)
        · omega
      · have hmax : 0 < maxref := by decide
        omega
  · rw [Nat.eq_zero_of_not_pos hpos]
    omega

end

/-! ## When it is exact -/

section

variable {reset : BddState P → Prop} {w : Package P} {E : Heap} {c : ℤ}

/-- What the call returned is the quotient and the remainder at the assignment. -/
def DividesAt (D : MtbddDomain P) (E : Heap) (c : ℤ) (out : List ℕ × List ℕ) (s : BddState P)
    (x : ℕ → Bool) : Prop :=
  ∃ Q R, out = (nodes Q, nodes R) ∧ (∀ p ∈ Q ++ R, s.Represents D p.1 p.2) ∧
    Bits.value (bits Q) x = Bits.value (bits E) x / c.toNat ∧
    Bits.value (bits R) x = Bits.value (bits E) x % c.toNat

theorem bvecDivfixed_runs (hw : w.Reached D isPrime reset) (hE : Operand D w.bdd E)
    (hpos : 0 < E.length) (hc : 0 < c) (hrel : Released D w.bdd E c) :
    Runs Spent (bvecDivfixed D isPrime (nodes E) c) w.bdd fun out s =>
      s.told = w.bdd.told ∧ ∃ Q R, out = (nodes Q, nodes R) ∧
        (∀ p ∈ Q ++ R, s.Represents D p.1 p.2) ∧ bits Q = (divided (bits E) c.toNat).2 ∧
        bits R = Bits.half (divided (bits E) c.toNat).1 := by
  obtain ⟨⟨σ₀, hc₀⟩, -⟩ := hw.healthy
  obtain ⟨N, hN, hN'⟩ := exists_referenced (full_operates D isPrime σ₀ w.bdd.env.bddvarnum)
    hc₀.good (divided (bits E) c.toNat).2
  obtain ⟨σ, M₀, B, hK, hEB, hNB, h⟩ := exists_reads hw hE hN
  have hT := full_operates D isPrime σ M₀
  obtain ⟨X, hX, hXV, hXc, h⟩ := h.con E.length c.toNat
  obtain ⟨Z, hZ, hZV, h⟩ := h.build E.length false
  obtain ⟨top, htop, hnode, hbit⟩ := exists_top hpos
  have hXlen : X.length = E.length := by rw [← bits_length, hXV, Bits.length_ofNat]
  have hZlen : Z.length = E.length := by rw [← bits_length, hZV, List.length_replicate]
  unfold bvecDivfixed
  rw [if_pos hc]
  dsimp only
  rw [nodes_length, hnode (E.length - 1) (by omega), ← hX, ← hZ, nodes_length]
  refine (shlfixed_one_runs (T := full D isPrime σ M₀) (L := Z) (C := top.2)
    (fun p hp => by simp [hp]) (sub_append (sub_append hEB X) Z htop) (by omega) h).bind
    fun tmpremainder s h => ?_
  obtain ⟨rfl, h⟩ := h
  have hEB' : E ⊆ (0, Bits.zero) :: ((top.1, top.2) :: Z.dropLast ++ (Z ++ (X ++ []))) ++ B :=
    sub_cons (sub_append (sub_append (sub_append hEB X) Z) _) _
  refine (shlfixed_one_runs (T := full D isPrime σ M₀) (C := Bits.zero) hEB' (.head _) hpos
    (h.const false)).bind fun result s h => ?_
  replace h := Copies.unconst (b := false) h
  obtain ⟨rfl, h⟩ := h
  have hperm := List.perm_append_comm_assoc ((0, Bits.zero) :: E.dropLast)
    ((top.1, top.2) :: Z.dropLast) (Z ++ (X ++ []))
  have hQ₀ : ((0, Bits.zero) :: E.dropLast : Heap).length = E.length := by simp; omega
  have hA₀ : ((top.1, top.2) :: Z.dropLast).length = E.length := by simp; omega
  rw [bvecDivRec_eq, bind_assoc]
  refine (divDown_runs hT hK hXc (by omega) (by omega) (by omega) (fun p hp => by simp [hp])
    X.length (h.perm hperm)).bind fun out s h => ?_
  obtain ⟨A, Q, M, F, G, hMlen, rfl, hshift, hreg, hfreed, hcounts, h⟩ := h
  have hQ : Q = M := by
    rw [hshift, hQ₀, List.take_append_of_le_length (by omega), List.take_of_length_le (by omega)]
  subst hQ
  have hdiv : (bits A, bits Q) = divided (bits E) c.toNat := by
    have hA₀' : bits ((top.1, top.2) :: Z.dropLast) =
        Bits.double ((bits E).getLastD Bits.zero) (List.replicate E.length Bits.zero) := by
      rw [hbit, ← show bits Z = List.replicate E.length Bits.zero from hZV]
      simp [Bits.double]
    have hQ₀' : bits ((0, Bits.zero) :: E.dropLast) = Bits.double Bits.zero (bits E) := by
      simp [Bits.double]
    rw [hreg, hMlen, hXlen, hXV, hA₀', hQ₀', divided, bits_length]
  have hbitsA : bits A = (divided (bits E) c.toNat).1 := congrArg Prod.fst hdiv
  have hbitsQ : bits Q = (divided (bits E) c.toNat).2 := congrArg Prod.snd hdiv
  have hones : refs X 1 = (bvecCon E.length c.toNat).count 1 := by
    rw [← hX]
    rfl
  have hheld : ∀ p ∈ A ++ (Q ++ (G ++ (Z ++ (X ++ [])))), s.Represents D p.1 p.2 := fun p hp =>
    h.represents p (List.mem_append_left B hp)
  have hconst : s.Represents D 0 Bits.zero := ⟨_, .const false, trivial, fun _ => rfl⟩
  have hZsmall : ∀ n ∈ nodes Z, n < 2 := fun n hn => by
    rw [hZ] at hn
    rw [(List.mem_replicate.mp hn).2]
    decide
  have hXsmall : ∀ n ∈ nodes X, n < 2 := fun n hn => by
    obtain ⟨p, hp, rfl⟩ := List.mem_map.mp hn
    obtain ⟨b, rfl⟩ := hXc p hp
    exact Nat.lt_succ_of_le (Bool.toNat_le b)
  have hAlen : 0 < A.length := by
    have hlen := (divided_registers (e := bits E) (by simpa using hpos) c.toNat
      fun _ => false).rem_length
    rw [← hbitsA, bits_length, bits_length] at hlen
    omega
  rw [bind_assoc]
  refine (cleanup_runs (T := full D isPrime σ M₀) h.good h.ok hAlen (fun p hp => ?_) hZsmall hXsmall
    fun n hn => ?_).mono fun out s' h' => ?_
  · have := hfreed p
    simp only [List.mem_append] at hp hheld
    rcases hp with hp | hp | hp | hp | hp
    · exact hheld p (by tauto)
    · exact hheld p (by tauto)
    · rcases hfreed p hp with hp | rfl
      · exact hheld p (by tauto)
      · exact hconst
    · exact hheld p (by tauto)
    · exact hheld p (by tauto)
  · have := h.counts n hn
    have := hcounts n hn
    have hspared := spared hT h hbitsQ hbitsA (hbitsQ ▸ hN') hNB hrel hn
    rw [← hones] at hspared
    simp only [refs_append] at *
    omega
  · obtain ⟨htold, rfl, hrep⟩ := h'
    refine ⟨htold.trans h.told, Q, _, rfl, hrep, hbitsQ, ?_⟩
    rw [bits_append, bits_tail, hbitsA]
    rfl

end

/-- Both bits are variable `0`. -/
def sameBits : Heap := [(2, fun a => a 0), (2, fun a => a 0)]

theorem bvecDivfixed_runs_two :
    (((bvecDivfixed intDomain trialDivision [0, 1] 3).exec Bdd.twoVariables).map fun o =>
      (o.1, o.2.bdderrorcond)) = some (some ([0, 0], [0, 0]), false) ∧
    (((bvecDivfixed intDomain trialDivision [2, 4] 3).exec Bdd.twoVariables).map fun o =>
      (o.1, o.2.bdderrorcond)) = some (none, false) := by
  decide +kernel

end MoToBuddy.Bvec
